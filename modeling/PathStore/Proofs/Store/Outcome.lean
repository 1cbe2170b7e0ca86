import PathStore.Proofs.Store.Effect
import PathStore.Proofs.Store.Itinerary

/-!
# When a call succeeds, and what it leaves

Each operation that changes a store is told here from both sides: on which
stores it succeeds, and what is at every path afterwards.

* A file is stored where there is no directory and beneath no file. It can
  then be read, and stands in directories; those that were missing have been
  made, and nothing else has changed (`Store.write_stores`).
* A subtree is moved from where something is to where nothing is in the way.
  Each of its paths is then found in the new place and none in the old one
  (`Store.move_relocates`).
* What is there can be deleted. It is then gone with all that was beneath it,
  and with nothing that was beside it (`Store.delete_clears`).

The conditions ask about single paths, where the operations scan the store and
make directories in turn. What lies between is the tree: a subtree has nodes
exactly if its root is one, and a file above a path is met before any
directory has been made.

## A move of nothing

What is not there cannot be moved, with one exception. A path is moved to
itself without a look at the store, so this succeeds where nothing is
(`Store.move_of_vacant`, `Store.move_vacant_to_itself`).
-/

namespace PathStore
namespace Store

variable {store next : Store} {now : Time} {path source dest other : String}
  {content : ByteArray}

/-! ## What is in the way -/

/-- **There is a file at the path.** -/
def HasFile (store : Store) (path : String) : Prop :=
  ∃ content time, store.get? path = some (.file content time)

/-- **There is a directory at the path**, below the top. -/
def HasDir (store : Store) (path : String) : Prop :=
  ∃ time, store.get? path = some (.dir time)

/-- **An ancestor that is missing**: nothing is there, and a directory has to
be made before something can stand at `path`. -/
def Missing (store : Store) (path dir : String) : Prop :=
  dir ≠ "/" ∧ Path.Above dir path ∧ store.get? dir = none

theorem fileAt_iff : store.holdings.fileAt path ↔ store.HasFile path := by
  rw [fileAt_holdings]
  unfold HasFile
  cases store.get? path with
  | none => simp
  | some node => cases node <;> simp [Node.isFile]

/-- The top is no file. -/
theorem IsTree.not_hasFile_top (h : store.IsTree) : ¬ store.HasFile "/" :=
  fun ⟨_, _, hnode⟩ => (h "/" _ hnode).2.1 rfl

theorem IsTree.noFileAbove_iff (h : store.IsTree) (hpath : Path.isValid path) :
    store.NoFileAbove path ↔
      ∀ dir, Path.Above dir path → ¬ store.HasFile dir := by
  constructor
  · rintro hno dir habove ⟨content, time, hnode⟩
    have hne : dir ≠ "/" := by
      rintro rfl
      exact h.not_hasFile_top ⟨content, time, hnode⟩
    exact hno dir ((Path.mem_ancestors_iff_above hpath).2 ⟨hne, habove⟩)
      content time hnode
  · intro hno dir hmem content time hnode
    exact hno dir ((Path.mem_ancestors_iff_above hpath).1 hmem).2
      ⟨content, time, hnode⟩

/-- **The way to a path is open** if there is no file above it. -/
theorem IsTree.wayTo_eq_ok_iff (h : store.IsTree) (hpath : Path.isValid path) :
    wayTo store.holdings path = .ok () ↔
      ∀ dir, Path.Above dir path → ¬ store.HasFile dir := by
  rw [← h.noFileAbove_iff hpath]
  unfold wayTo NoFileAbove
  split
  · next dir hfound =>
    have hmem := List.mem_of_find?_eq_some hfound
    obtain ⟨content, time, hnode⟩ := fileAt_iff.1 (List.find?_some hfound)
    exact iff_of_false (by simp) fun hno => hno dir hmem content time hnode
  · next hnone =>
    refine iff_of_true rfl fun dir hmem content time hnode => ?_
    exact List.find?_eq_none.1 hnone dir hmem
      (fileAt_iff.2 ⟨content, time, hnode⟩)

/-- What is not missing is left as it is. -/
theorem withAncestors_of_not_missing (hpath : Path.isValid path)
    (h : ¬ store.Missing path other) :
    store.withAncestors now path other = store.get? other := by
  refine if_neg fun ⟨hmem, hvacant⟩ => h ?_
  obtain ⟨hne, habove⟩ := (Path.mem_ancestors_iff_above hpath).1 hmem
  exact ⟨hne, habove, hvacant⟩

/-- A file is read as it is. -/
theorem IsTree.read_of_file (h : store.IsTree) {time : Time}
    (hnode : store.get? path = some (.file content time)) :
    store.read .live path = .ok content := by
  unfold read
  rw [permit_ok (h.isValid hnode), hnode]

/-- **The top and every directory are told as directories.** -/
theorem IsTree.exists_stat_of_dir (h : store.IsTree)
    (hdir : path = "/" ∨ store.HasDir path) :
    ∃ entry, store.stat .live path = .ok entry ∧ entry.path = path ∧
      entry.isDir := by
  obtain rfl | ⟨time, hnode⟩ := hdir
  · exact ⟨Entry.dir "/", rfl, rfl, rfl⟩
  · exact ⟨_, h.stats_eq hnode, rfl, rfl⟩

/-! ## Storing a file -/

/-- **A file has been stored**: it can be read, what is above it are
directories, and nothing else has changed but for directories that were made
where they were missing. -/
structure Stored (store : Store) (path : String) (content : ByteArray)
    (next : Store) : Prop where
  read : next.read .live path = .ok content
  stat : ∃ time, next.stat .live path =
    .ok ((Entry.file path content.size).withModTime time)
  above : ∀ dir, Path.Above dir path → ∃ entry,
    next.stat .live dir = .ok entry ∧ entry.path = dir ∧ entry.isDir
  kept : ∀ other, other ≠ path → ¬ store.Missing path other →
    next.get? other = store.get? other

theorem IsTree.write_eq_ok_iff (h : store.IsTree) (hpath : Path.isValid path) :
    (store.write .live now path content).1 = .ok () ↔
      path ≠ "/" ∧ ¬ store.HasDir path ∧
        ∀ dir, Path.Above dir path → ¬ store.HasFile dir := by
  rw [fst_write, Call.answer, permit_ok hpath, ← h.wayTo_eq_ok_iff hpath,
    holdings_eq]
  dsimp only
  by_cases htop : path = "/"
  · rw [if_pos htop]
    exact iff_of_false (by simp) fun hok => hok.1 htop
  rw [if_neg htop, and_iff_right htop]
  unfold HasDir
  cases store.get? path with
  | none => simp
  | some node => cases node <;> simp [Node.holding]

theorem Written.stored (hw : store.Written now path content next)
    (h : store.IsTree) : store.Stored path content next := by
  have htree := hw.isTree h
  have hnode : next.get? path = some (.file content now) := by
    rw [hw.get?, if_pos rfl]
  refine ⟨htree.read_of_file hnode, ⟨now, htree.stats_eq hnode⟩, ?_, ?_⟩
  · intro dir habove
    refine htree.exists_stat_of_dir (or_iff_not_imp_left.2 fun hne => ?_)
    have hself : dir ≠ path := by
      rintro rfl
      exact habove.not_within hw.valid (.refl dir)
    obtain ⟨time, htime⟩ := withAncestors_of_mem hw.no_file
      ((Path.mem_ancestors_iff_above hw.valid).2 ⟨hne, habove⟩)
    exact ⟨time, by rw [hw.get?, if_neg hself, htime]⟩
  · intro other hne hmissing
    rw [hw.get?, if_neg hne, withAncestors_of_not_missing hw.valid hmissing]

/-- **Storing a file** succeeds unless a directory is there or a file is above
it, and leaves the file, directories above it, and all else as it was. -/
theorem write_stores (h : store.Reachable) (hpath : Path.isValid path) :
    ((store.write .live now path content).1 = .ok () ↔
      path ≠ "/" ∧ ¬ store.HasDir path ∧
        ∀ dir, Path.Above dir path → ¬ store.HasFile dir) ∧
    ((store.write .live now path content).1 = .ok () →
      store.Stored path content (store.write .live now path content).2) := by
  have htree := h.isTree
  refine ⟨htree.write_eq_ok_iff hpath, fun hok => ?_⟩
  exact (htree.written_of_ok hok).stored htree

/-- **A shelf** with two directories, and files beside the first whose names
go on from its own. -/
def shelf : Store :=
  empty.afterAll [.write .live 0 "/a/x" ⟨#[49]⟩,
    .write .live 0 "/a/d/y" ⟨#[50]⟩, .write .live 0 "/a-b" ⟨#[51]⟩,
    .write .live 0 "/ab" ⟨#[52]⟩, .write .live 0 "/b/c/x/z" ⟨#[53]⟩]

/-- A file is put on the shelf, where one of the two directories above it is
missing. -/
theorem write_stores_shelf :
    (shelf.write .live 1 "/b/e/f" ⟨#[54]⟩).1 = .ok () ∧
      shelf.Stored "/b/e/f" ⟨#[54]⟩
        (shelf.write .live 1 "/b/e/f" ⟨#[54]⟩).2 := by
  have hstore : shelf.Reachable := ⟨_, rfl⟩
  have hok : (shelf.write .live 1 "/b/e/f" ⟨#[54]⟩).1 = .ok () := by
    decide +kernel
  exact ⟨hok, (write_stores hstore (by decide)).2 hok⟩

/-! ## Deleting -/

/-- **A subtree has been cleared**: what was at or beneath `path` is gone, and
all else is as it was. So is what stands beside the path under a name that
goes on from its own, and what stands above it. -/
structure Cleared (store : Store) (path : String) (next : Store) : Prop where
  gone : ∀ other, path = "/" ∨ Path.Within other path →
    next.get? other = none
  kept : ∀ other, path ≠ "/" → ¬ Path.Within other path →
    next.get? other = store.get? other
  beside : ∀ word : String, path ≠ "/" → Path.isSegment word.toList →
    next.get? (path ++ word) = store.get? (path ++ word)
  above : ∀ dir, Path.Above dir path → next.get? dir = store.get? dir

theorem IsTree.delete_eq (h : store.IsTree) (hpath : Path.isValid path) :
    (store.delete .live path).1 =
      if path = "/" ∨ (store.get? path).isSome then .ok ()
      else .error (.notFound path driver) := by
  rw [h.fst_delete, Call.answer, permit_ok hpath, holdings_eq]
  dsimp only
  by_cases htop : path = "/"
  · rw [if_pos htop, if_pos (.inl htop)]
  rw [if_neg htop]
  cases store.get? path with
  | none => simp [htop]
  | some node => simp

theorem Deleted.cleared (hd : store.Deleted path next) (h : store.IsTree) :
    store.Cleared path next := by
  have hkept : ∀ other, ¬ Path.Within other path →
      next.get? other = store.get? other :=
    fun other hout => by rw [hd.get?, if_neg hout]
  refine ⟨fun other hother => ?_, fun other _ => hkept other, ?_, ?_⟩
  · rw [hd.get?]
    split
    · rfl
    · next hout =>
      -- only what is no path at all is not at or beneath the top
      have htop := hother.resolve_right hout
      cases hnode : store.get? other with
      | none => rfl
      | some node =>
        rw [htop] at hout
        exact absurd (Path.within_top (h.isValid hnode)) hout
  · intro word htop hword
    exact hkept _ fun hin => Path.not_isTail_of_isSegment hword
      ((Path.within_append_iff htop).1 hin)
  · exact fun dir habove => hkept dir (habove.not_within hd.valid)

/-- **Deleting** succeeds where something is, and at the top, and clears what
is at or beneath the path. -/
theorem delete_clears (h : store.Reachable) (hpath : Path.isValid path) :
    ((store.delete .live path).1 = .ok () ↔
      path = "/" ∨ (store.get? path).isSome) ∧
    (¬ (path = "/" ∨ (store.get? path).isSome) →
      (store.delete .live path).1 = .error (.notFound path driver)) ∧
    ((store.delete .live path).1 = .ok () →
      store.Cleared path (store.delete .live path).2) := by
  have htree := h.isTree
  refine ⟨?_, fun hno => ?_, fun hok => ?_⟩
  · rw [htree.delete_eq hpath]
    split
    · next hfound => exact iff_of_true rfl hfound
    · next hno => exact iff_of_false (by simp) hno
  · rw [htree.delete_eq hpath, if_neg hno]
  · exact (htree.deleted_of_ok hok).cleared htree

/-- A directory is taken off the shelf, and the files beside it stay. -/
theorem delete_clears_shelf :
    (shelf.delete .live "/a").1 = .ok () ∧
      (shelf.delete .live "/a").2.get? "/a/d/y" = none ∧
      (shelf.delete .live "/a").2.get? "/a-b" = some (.file ⟨#[51]⟩ 0) ∧
      (shelf.delete .live "/a").2.get? "/ab" = some (.file ⟨#[52]⟩ 0) := by
  have hstore : shelf.Reachable := ⟨_, rfl⟩
  have hpath : Path.isValid "/a" := by decide
  have hfound : (shelf.get? "/a").isSome := by decide +kernel
  obtain ⟨hiff, _, hcleared⟩ := delete_clears hstore hpath
  have hok := hiff.2 (.inr hfound)
  have hclear := hcleared hok
  refine ⟨hok, hclear.gone _ (by decide), ?_, ?_⟩
  · rw [show "/a-b" = "/a" ++ "-b" by decide,
      hclear.beside _ (by decide) (by decide)]
    decide +kernel
  · rw [show "/ab" = "/a" ++ "b" by decide,
      hclear.beside _ (by decide) (by decide)]
    decide +kernel

/-! ## Moving -/

/-- **A subtree has been moved**: what was at or beneath `source` is in the
same place at or beneath `dest`, where nothing else is, and nothing is left
behind. What is above the new place are directories, and all else is as it
was but for those that were missing. -/
structure Relocated (store : Store) (source dest : String) (next : Store) :
    Prop where
  arrived : ∀ rest, Path.IsTail rest →
    next.get? (dest ++ rest) = store.get? (source ++ rest)
  gone : ∀ path, Path.Within path source → next.get? path = none
  above : ∀ dir, Path.Above dir dest → dir ≠ "/" → next.HasDir dir
  kept : ∀ path, ¬ Path.Within path dest → ¬ Path.Within path source →
    ¬ store.Missing dest path → next.get? path = store.get? path

/-- The places of a move have nothing in common. -/
theorem Moved.not_within_dest (hm : store.Moved now source dest next)
    (hin : Path.Within path source) : ¬ Path.Within path dest :=
  fun hto => (Path.Within.comparable hm.source_ne_top hm.dest_ne_top hin
    hto).elim hm.not_over hm.not_in

theorem Moved.relocated (hm : store.Moved now source dest next) :
    store.Relocated source dest next := by
  refine ⟨?_, ?_, ?_, ?_⟩
  · intro rest htail
    have hto := (Path.within_append_iff hm.dest_ne_top).2 htail
    rw [hm.get?, if_pos hto, rebase_append]
  · intro path hin
    rw [hm.get?, if_neg (hm.not_within_dest hin), if_pos hin]
  · intro dir habove hne
    have hnotIn : ¬ Path.Within dir source := fun hin => hm.not_in
      (.trans hm.valid_dest habove.1 hm.valid_source (.inr habove.2) hin)
    obtain ⟨time, htime⟩ := withAncestors_of_mem hm.no_file
      ((Path.mem_ancestors_iff_above hm.valid_dest).2 ⟨hne, habove⟩)
    exact hm.dir_kept (habove.not_within hm.valid_dest) hnotIn ⟨time, htime⟩
  · intro path hto hin hmissing
    rw [hm.get?, if_neg hto, if_neg hin,
      withAncestors_of_not_missing hm.valid_dest hmissing]

/-- **Paths between which nothing is moved**: one of them is the top, or lies
beneath the other. -/
def Entangled (source dest : String) : Prop :=
  source = "/" ∨ dest = "/" ∨ Path.isDescendant dest source ∨
    Path.isDescendant source dest

instance : DecidableRel Entangled := fun source dest =>
  inferInstanceAs (Decidable (source = "/" ∨ dest = "/" ∨
    Path.isDescendant dest source ∨ Path.isDescendant source dest))

/-- **What a move answers** under a live context. -/
theorem IsTree.move_eq (h : store.IsTree) (hsource : Path.isValid source)
    (hdest : Path.isValid dest) : (store.move .live now source dest).1 =
      if source = dest then .ok ()
      else if Entangled source dest then .error (.invalidPath dest driver)
      else if (store.get? source).isSome then wayTo store.holdings dest
      else .error (.notFound source driver) := by
  have hvalidate : Path.validate dest driver = .ok () :=
    permit_ok hdest driver
  rw [h.fst_move, Call.answer, permit_ok hsource, hvalidate, holdings_eq]
  cases store.get? source <;> rfl

theorem IsTree.move_eq_ok_iff (h : store.IsTree)
    (hsource : Path.isValid source) (hdest : Path.isValid dest)
    (hne : source ≠ dest) :
    (store.move .live now source dest).1 = .ok () ↔
      ¬ Entangled source dest ∧ (store.get? source).isSome ∧
        ∀ dir, Path.Above dir dest → ¬ store.HasFile dir := by
  rw [h.move_eq hsource hdest, if_neg hne, ← h.wayTo_eq_ok_iff hdest]
  split
  · next hapart => exact iff_of_false (by simp) fun hok => hok.1 hapart
  · next hapart =>
    rw [and_iff_right hapart]
    split
    · next hsome => rw [and_iff_right hsome]
    · next hsome => exact iff_of_false (by simp) fun hok => hsome hok.1

/-- **Moving** succeeds where something is, unless the two paths are entangled
or a file is above the new place. It takes the subtree there, in place of what
was there. -/
theorem move_relocates (h : store.Reachable) (hsource : Path.isValid source)
    (hdest : Path.isValid dest) (hne : source ≠ dest) :
    ((store.move .live now source dest).1 = .ok () ↔
      (source ≠ "/" ∧ dest ≠ "/" ∧ ¬ Path.isDescendant dest source ∧
        ¬ Path.isDescendant source dest) ∧
      (store.get? source).isSome ∧
      ∀ dir, Path.Above dir dest → ¬ store.HasFile dir) ∧
    ((store.move .live now source dest).1 = .ok () →
      store.Relocated source dest (store.move .live now source dest).2) := by
  have htree := h.isTree
  refine ⟨?_, fun hok => (htree.moved_of_ok hne hok).relocated⟩
  rw [htree.move_eq_ok_iff hsource hdest hne]
  unfold Entangled
  simp only [not_or]

/-- A directory is moved on the shelf to where there is another. What it
brings stands in place of what was there, be it a file for a directory. -/
theorem move_relocates_shelf :
    (shelf.move .live 1 "/a" "/b/c").1 = .ok () ∧
      (shelf.move .live 1 "/a" "/b/c").2.get? "/b/c/x" =
        some (.file ⟨#[49]⟩ 0) ∧
      (shelf.move .live 1 "/a" "/b/c").2.get? "/b/c/x/z" = none ∧
      (shelf.move .live 1 "/a" "/b/c").2.get? "/a/x" = none ∧
      (shelf.move .live 1 "/a" "/b/c").2.get? "/a-b" =
        some (.file ⟨#[51]⟩ 0) := by
  have hstore : shelf.Reachable := ⟨_, rfl⟩
  have hok : (shelf.move .live 1 "/a" "/b/c").1 = .ok () := by decide +kernel
  have hmoved := (move_relocates hstore (by decide) (by decide)
    (by decide)).2 hok
  refine ⟨hok, ?_, ?_, hmoved.gone _ (by decide), ?_⟩
  · rw [show "/b/c/x" = "/b/c" ++ "/x" by decide,
      hmoved.arrived "/x" (.inr ⟨"x", by decide⟩)]
    decide +kernel
  · rw [show "/b/c/x/z" = "/b/c" ++ "/x/z" by decide,
      hmoved.arrived "/x/z" (.inr ⟨"x/z", by decide⟩)]
    decide +kernel
  · rw [hmoved.kept "/a-b" (by decide) (by decide)
      fun hmissing => absurd hmissing.2.1.2 (by decide)]
    decide +kernel

/-- **Moving what is not there** fails, and says why, unless it is moved to
itself. It changes nothing. -/
theorem move_of_vacant (h : store.Reachable) (hsource : Path.isValid source)
    (hdest : Path.isValid dest) (hvacant : store.get? source = none) :
    ((store.move .live now source dest).1 = .ok () ↔ source = dest) ∧
    ((store.move .live now source dest).1 = .error (.invalidPath dest driver) ↔
      source ≠ dest ∧ Entangled source dest) ∧
    ((store.move .live now source dest).1 = .error (.notFound source driver) ↔
      source ≠ dest ∧ ¬ Entangled source dest) ∧
    (store.move .live now source dest).2 = store := by
  have htree := h.isTree
  have hstays : (store.move .live now source dest).2 = store := by
    obtain ⟨_, hcall⟩ | ⟨hcall, _⟩ | ⟨_, _, _, hm⟩ :=
      htree.move_cases .live now source dest
    · rw [hcall]
    · rw [hcall]
    · have hfound := hm.found
      rw [hvacant] at hfound
      exact absurd hfound Bool.false_ne_true
  rw [hstays, htree.move_eq hsource hdest, hvacant]
  by_cases heq : source = dest
  · simp [heq]
  · by_cases hapart : Entangled source dest <;> simp [heq, hapart]

/-- What is not on the shelf cannot be put where something is. -/
theorem move_of_vacant_shelf :
    (shelf.move .live 1 "/c" "/b/c").1 = .error (.notFound "/c" driver) ∧
      (shelf.move .live 1 "/c" "/b/c").2 = shelf := by
  have hstore : shelf.Reachable := ⟨_, rfl⟩
  have hsource : Path.isValid "/c" := by decide
  have hdest : Path.isValid "/b/c" := by decide
  have hvacant : shelf.get? "/c" = none := by decide +kernel
  obtain ⟨_, _, hmissing, hstays⟩ :=
    move_of_vacant hstore hsource hdest hvacant
  exact ⟨hmissing.2 (by decide), hstays⟩

/-- **A move that succeeds and moves nothing**: what is not there, to
itself. -/
theorem move_vacant_to_itself :
    empty.Reachable ∧ Path.isValid "/a" ∧
      empty.stat .live "/a" = .error (.notFound "/a" driver) ∧
      (empty.move .live 0 "/a" "/a").1 = .ok () ∧
      (empty.move .live 0 "/a" "/a").2.stat .live "/a" =
        .error (.notFound "/a" driver) := by
  refine ⟨reachable_empty, by decide, ?_, ?_, ?_⟩
  all_goals decide +kernel

end Store
end PathStore
