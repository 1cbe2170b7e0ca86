import PathStore.Proofs.Store.Rebase
import PathStore.Store.History

/-!
# What a call does to the nodes

Each operation that changes a store is given here by what it does to the
node at every path, for stores that are trees. `Written`, `Moved` and
`Deleted` say when an operation succeeds and write out the store it
leaves; `IsTree.write_cases`, `IsTree.move_cases` and
`IsTree.delete_cases` say that this or a failure is all that can happen,
and that a failure leaves the store it was given. Nothing later opens the
operations.

## Where the tree is needed

Making ancestors inserts one directory after another and may meet a file
after it has begun. That a failing call leaves nothing behind is therefore
not a matter of the code alone: in a tree everything above a file is a
directory already, so before the file is met there was nothing to make
(`IsTree.makeAncestors_cases`).
-/

namespace PathStore

/-- **What is admitted**: well-formed paths, under a live context. -/
theorem permit_eq_ok_iff (status : Status) (path driver : String) :
    permit status path driver = .ok () ↔
      status = .live ∧ Path.isValid path := by
  unfold permit Path.validate
  cases status <;> simp [Status.check]

/-- A live context lets well-formed paths through. -/
theorem permit_ok {path : String} (h : Path.isValid path) (driver : String) :
    permit .live path driver = .ok () :=
  (permit_eq_ok_iff .live path driver).2 ⟨rfl, h⟩

namespace Store

/-! ## Trees -/

/-- **Above a node stand directories.** -/
theorem IsTree.dir_of_isDescendant {store : Store} (h : store.IsTree)
    {path dir : String} {node : Node} (hnode : store.get? path = some node)
    (hdir : Path.isValid dir) (hne : dir ≠ "/")
    (hbelow : Path.isDescendant path dir) :
    ∃ time, store.get? dir = some (.dir time) := by
  have hpath : Path.isValid path := (h path node hnode).1
  induction path, hpath using Path.parent_induction generalizing node with
  | top => exact absurd (Path.Within.eq_top hdir (.inr hbelow)) hne
  | child path parent hpath hparent ih =>
    obtain ⟨_, _, found, hfound, hholds⟩ := h path node hnode
    rw [hparent] at hfound
    cases hfound
    obtain rfl | habove :=
      (Path.isDescendant_iff_parent? hpath hdir hparent).1 hbelow
    · exact hholds.resolve_left hne
    · obtain rfl | ⟨time, htime⟩ := hholds
      · exact absurd (Path.Within.eq_top hdir (.inr habove)) hne
      · exact ih htime habove

/-- **Beneath what is no directory there is nothing.** -/
theorem IsTree.get?_eq_none_of_isDescendant {store : Store} (h : store.IsTree)
    {path dir : String} (hdir : Path.isValid dir) (hne : dir ≠ "/")
    (hno : ∀ time, store.get? dir ≠ some (.dir time))
    (hbelow : Path.isDescendant path dir) : store.get? path = none := by
  cases hnode : store.get? path with
  | none => rfl
  | some node =>
    obtain ⟨time, htime⟩ := h.dir_of_isDescendant hnode hdir hne hbelow
    exact absurd htime (hno time)

theorem IsTree.isValid {store : Store} (h : store.IsTree) {path : String}
    {node : Node} (hnode : store.get? path = some node) : Path.isValid path :=
  (h path node hnode).1

theorem IsTree.isValid_of_isSome {store : Store} (h : store.IsTree)
    {path : String} (hsome : (store.get? path).isSome) : Path.isValid path := by
  obtain ⟨node, hnode⟩ := Option.isSome_iff_exists.1 hsome
  exact h.isValid hnode

/-- A subtree of a tree that has any node has one at its root. -/
theorem IsTree.isSome_of_within {store : Store} (h : store.IsTree)
    {path dir : String} (hsome : (store.get? path).isSome)
    (hdir : Path.isValid dir) (hne : dir ≠ "/")
    (hwithin : Path.Within path dir) : (store.get? dir).isSome := by
  obtain ⟨node, hnode⟩ := Option.isSome_iff_exists.1 hsome
  obtain rfl | hbelow := hwithin
  · exact hsome
  · obtain ⟨time, htime⟩ := h.dir_of_isDescendant hnode hdir hne hbelow
    rw [htime]
    rfl

/-! ## Erasing -/

theorem get?_foldl_erase (doomed : List String) (store : Store)
    (path : String) : (doomed.foldl erase store).get? path =
      if path ∈ doomed then none else store.get? path := by
  induction doomed generalizing store with
  | nil => rfl
  | cons key doomed ih =>
    rw [List.foldl_cons, ih, get?_erase]
    by_cases heq : key = path
    · simp [heq]
    · simp [heq, Ne.symm heq]

/-- Erasing a subtree leaves the nodes outside it. -/
theorem get?_erase_subtree (store other : Store) (dir path : String)
    (h : ∀ key, (other.get? key).isSome → (store.get? key).isSome) :
    ((store.subtree dir).foldl erase other).get? path =
      if Path.Within path dir then none else other.get? path := by
  rw [get?_foldl_erase]
  by_cases hwithin : Path.Within path dir
  · rw [if_pos hwithin]
    split
    · rfl
    · next hno =>
      refine Option.not_isSome_iff_eq_none.1 fun hsome => hno ?_
      exact (mem_subtree store dir path).2 ⟨h path hsome, hwithin⟩
  · rw [if_neg hwithin, if_neg]
    rw [mem_subtree]
    exact fun hmem => hwithin hmem.2

/-! ## Making directories -/

/-- **Where there is no file, directories are made** at all vacant paths
of a list, and only there. -/
theorem makeDirs_of_no_file (now : Time) {dirs : List String} {store : Store}
    (h : ∀ dir ∈ dirs, ∀ content time,
      store.get? dir ≠ some (.file content time)) :
    ∃ made, makeDirs now dirs store = (.ok (), made) ∧
      ∀ path, made.get? path =
        if path ∈ dirs ∧ store.get? path = none then some (.dir now)
        else store.get? path := by
  induction dirs generalizing store with
  | nil => exact ⟨store, rfl, fun path => by simp⟩
  | cons dir dirs ih =>
    obtain ⟨hdir, hdirs⟩ := List.forall_mem_cons.1 h
    unfold makeDirs
    cases hnode : store.get? dir with
    | none =>
      have hinsert : ∀ other ∈ dirs, ∀ content time,
          (store.insert dir (.dir now)).get? other ≠
            some (.file content time) := by
        intro other hother content time
        rw [get?_insert]
        split
        · simp
        · exact hdirs other hother content time
      obtain ⟨made, hmade, hget⟩ := ih hinsert
      refine ⟨made, hmade, fun path => ?_⟩
      rw [hget, get?_insert]
      by_cases heq : dir = path
      · subst heq
        simp [hnode]
      · simp [heq, Ne.symm heq]
    | some node =>
      cases node with
      | file content time => exact absurd hnode (hdir content time)
      | dir time =>
        obtain ⟨made, hmade, hget⟩ := ih hdirs
        refine ⟨made, hmade, fun path => ?_⟩
        rw [hget]
        by_cases heq : path = dir
        · subst heq
          simp [hnode]
        · simp [heq]

/-- Directories that are there already are passed over. -/
theorem makeDirs_append (now : Time) {front : List String} {store : Store}
    (h : ∀ dir ∈ front, ∃ time, store.get? dir = some (.dir time))
    (rest : List String) :
    makeDirs now (front ++ rest) store = makeDirs now rest store := by
  induction front with
  | nil => rfl
  | cons dir front ih =>
    obtain ⟨⟨time, htime⟩, hfront⟩ := List.forall_mem_cons.1 h
    rw [List.cons_append, makeDirs, htime]
    exact ih hfront

/-- **The node at a path once the vacant ancestors of `path` have become
directories.** -/
def withAncestors (store : Store) (now : Time) (path other : String) :
    Option Node :=
  if other ∈ Path.ancestors path ∧ store.get? other = none then
    some (.dir now)
  else store.get? other

/-- **No ancestor of a path is a file.** -/
def NoFileAbove (store : Store) (path : String) : Prop :=
  ∀ dir ∈ Path.ancestors path, ∀ content time,
    store.get? dir ≠ some (.file content time)

/-- What was there stays. -/
theorem withAncestors_of_some {store : Store} {now : Time}
    {path other : String} {node : Node} (h : store.get? other = some node) :
    store.withAncestors now path other = some node := by
  rw [withAncestors, if_neg, h]
  rw [h]
  exact fun hno => Option.some_ne_none _ hno.2

/-- What was not there is a directory above the path. -/
theorem withAncestors_eq_some {store : Store} {now : Time}
    {path other : String} {node : Node}
    (h : store.withAncestors now path other = some node) :
    other ∈ Path.ancestors path ∨ store.get? other = some node := by
  unfold withAncestors at h
  split at h
  · next hmade => exact .inl hmade.1
  · exact .inr h

theorem withAncestors_of_mem {store : Store} {now : Time} {path dir : String}
    (h : store.NoFileAbove path) (hmem : dir ∈ Path.ancestors path) :
    ∃ time, store.withAncestors now path dir = some (.dir time) := by
  cases hnode : store.get? dir with
  | none => exact ⟨now, if_pos ⟨hmem, hnode⟩⟩
  | some node =>
    cases node with
    | file content time => exact absurd hnode (h dir hmem content time)
    | dir time => exact ⟨time, withAncestors_of_some hnode⟩

/-- **Making the ancestors of a path in a tree**: either one of them is a
file and nothing is changed, or all vacant ones become directories. -/
theorem IsTree.makeAncestors_cases {store : Store} (h : store.IsTree)
    (now : Time) {path : String} (hpath : Path.isValid path) :
    (∃ dir content time, dir ∈ Path.ancestors path ∧
        store.get? dir = some (.file content time) ∧
        makeAncestors now path store =
          (.error (.backend (.notDirectory driver dir)), store)) ∨
      ∃ made : Store, makeAncestors now path store = (.ok (), made) ∧
        store.NoFileAbove path ∧
        ∀ other, made.get? other = store.withAncestors now path other := by
  unfold makeAncestors
  by_cases hfile : ∃ dir ∈ Path.ancestors path, ∃ content time,
      store.get? dir = some (.file content time)
  · obtain ⟨dir, hmem, content, time, hnode⟩ := hfile
    refine .inl ⟨dir, content, time, hmem, hnode, ?_⟩
    have hdir := Path.isValid_of_mem_ancestors hpath hmem
    obtain ⟨front, rest, heq⟩ := List.append_of_mem hmem
    -- what stands before the file are its own ancestors, all directories
    have hfront : ∀ above ∈ front, ∃ time,
        store.get? above = some (.dir time) := by
      intro above habove
      rw [← Path.ancestors_of_append hpath heq] at habove
      have hvalid := Path.isValid_of_mem_ancestors hdir habove
      obtain ⟨hne, hbelow⟩ := (Path.mem_ancestors_iff hdir hvalid).1 habove
      exact h.dir_of_isDescendant hnode hvalid hne hbelow
    rw [heq, makeDirs_append now hfront, makeDirs, hnode]
  · have hno : store.NoFileAbove path :=
      fun dir hmem content time hnode => hfile ⟨dir, hmem, content, time, hnode⟩
    obtain ⟨made, hmade, hget⟩ := makeDirs_of_no_file now hno
    exact .inr ⟨made, hmade, hno, hget⟩

/-! ## Moving nodes -/

/-- No directory is made in the place that is moved. -/
theorem withAncestors_of_within {store : Store} {source dest path : String}
    (now : Time) (hsource : Path.isValid source) (hdest : Path.isValid dest)
    (hnotIn : ¬ Path.Within dest source) (hin : Path.Within path source) :
    store.withAncestors now dest path = store.get? path := by
  rw [withAncestors, if_neg]
  rintro ⟨hmem, _⟩
  have hpath := Path.isValid_of_mem_ancestors hdest hmem
  have hbelow := ((Path.mem_ancestors_iff hdest hpath).1 hmem).2
  exact hnotIn (Path.Within.trans hdest hpath hsource (.inr hbelow) hin)

/-- **The nodes after a move** between places that are apart. -/
theorem get?_moved {store made : Store} {source dest : String}
    {now : Time} (hsource : Path.isValid source) (hdest : Path.isValid dest)
    (hsourceTop : source ≠ "/") (hdestTop : dest ≠ "/")
    (hnotIn : ¬ Path.Within dest source) (hnotOver : ¬ Path.Within source dest)
    (hget : ∀ other, made.get? other = store.withAncestors now dest other)
    (other : String) :
    ((store.subtree source).foldl (moveNode source dest)
        ((made.subtree dest).foldl erase made)).get? other =
      if Path.Within other dest then store.get? (rebase dest source other)
      else if Path.Within other source then none
      else store.withAncestors now dest other := by
  have hapart : ∀ path, Path.Within path source → ¬ Path.Within path dest :=
    fun path hin hto => (Path.Within.comparable hsourceTop hdestTop hin hto).elim
      hnotOver hnotIn
  have hold : ∀ path, Path.Within path source →
      made.get? path = store.get? path := fun path hin => by
    rw [hget, withAncestors_of_within now hsource hdest hnotIn hin]
  have hcleared : ∀ path, ((made.subtree dest).foldl erase made).get? path =
      if Path.Within path dest then none else made.get? path :=
    fun path => get?_erase_subtree made made dest path fun _ hsome => hsome
  have hkept : ∀ path, Path.Within path source →
      ((made.subtree dest).foldl erase made).get? path = store.get? path := by
    intro path hin
    rw [hcleared, if_neg (hapart path hin), hold path hin]
  have hmoving : ∀ key ∈ store.subtree source, Path.Within key source ∧
      (((made.subtree dest).foldl erase made).get? key).isSome := by
    intro key hkey
    obtain ⟨hsome, hin⟩ := (mem_subtree store source key).1 hkey
    exact ⟨hin, by rwa [hkept key hin]⟩
  rw [get?_foldl_moveNode hsourceTop hdestTop hapart
    (subtree_nodup store source) hmoving]
  by_cases hto : Path.Within other dest
  · have hback := within_rebase hdestTop hsourceTop hto
    rw [if_pos hto]
    by_cases hmem : rebase dest source other ∈ store.subtree source
    · rw [if_pos ⟨hto, hmem⟩, hkept _ hback]
    · have hvacant := get?_of_notMem_subtree hback hmem
      rw [if_neg fun h => hmem h.2, hvacant, hcleared, if_pos hto, ite_self]
  · rw [if_neg fun h => hto h.1, if_neg hto, hcleared, if_neg hto]
    by_cases hin : Path.Within other source
    · rw [if_pos hin]
      split
      · rfl
      · next hmem =>
        rw [hold other hin]
        exact get?_of_notMem_subtree hin hmem
    · rw [if_neg hin, if_neg, hget]
      rw [mem_subtree]
      exact fun hmem => hin hmem.2

/-! ## Operations -/

/-- **A file has been stored** at `path`: what must have been so before,
and the store it leaves. -/
structure Written (store : Store) (now : Time) (path : String)
    (content : ByteArray) (after : Store) : Prop where
  valid : Path.isValid path
  ne_top : path ≠ "/"
  not_dir : ∀ time, store.get? path ≠ some (.dir time)
  no_file : store.NoFileAbove path
  get? : ∀ other, after.get? other =
    if other = path then some (.file content now)
    else store.withAncestors now path other

/-- **What is at or beneath `path` has been deleted.** -/
structure Deleted (store : Store) (path : String) (after : Store) : Prop where
  valid : Path.isValid path
  found : path = "/" ∨ (store.get? path).isSome
  get? : ∀ other, after.get? other =
    if Path.Within other path then none else store.get? other

/-- **What was at or beneath `source` has been moved to `dest`**, in place
of what was there. -/
structure Moved (store : Store) (now : Time) (source dest : String)
    (after : Store) : Prop where
  valid_source : Path.isValid source
  valid_dest : Path.isValid dest
  source_ne_top : source ≠ "/"
  dest_ne_top : dest ≠ "/"
  not_in : ¬ Path.Within dest source
  not_over : ¬ Path.Within source dest
  found : (store.get? source).isSome
  no_file : store.NoFileAbove dest
  get? : ∀ other, after.get? other =
    if Path.Within other dest then store.get? (rebase dest source other)
    else if Path.Within other source then none
    else store.withAncestors now dest other

/-- **Storing a file in a tree** fails and changes nothing, or succeeds. -/
theorem IsTree.write_cases {store : Store} (h : store.IsTree)
    (status : Status) (now : Time) (path : String) (content : ByteArray) :
    (∃ cause, store.write status now path content = (.error cause, store)) ∨
      ∃ after : Store, store.write status now path content = (.ok (), after) ∧
        status = .live ∧ store.Written now path content after := by
  unfold write
  cases hpermit : permit status path driver with
  | error cause => exact .inl ⟨cause, rfl⟩
  | ok _ =>
    obtain ⟨hlive, hpath⟩ := (permit_eq_ok_iff status path driver).1 hpermit
    dsimp only
    by_cases htop : path = "/"
    · exact .inl ⟨_, if_pos htop⟩
    rw [if_neg htop]
    split
    · exact .inl ⟨_, rfl⟩
    · next hnode =>
      obtain ⟨dir, _, _, _, _, hmade⟩ | ⟨made, hmade, hno, hget⟩ :=
        h.makeAncestors_cases now hpath
      · rw [hmade]
        exact .inl ⟨_, rfl⟩
      · rw [hmade]
        refine .inr ⟨_, rfl, hlive, hpath, htop, hnode, hno, fun other => ?_⟩
        rw [get?_insert, hget]
        exact if_congr eq_comm rfl rfl

/-- **Deleting from a tree** fails and changes nothing, or succeeds. -/
theorem IsTree.delete_cases {store : Store} (h : store.IsTree)
    (status : Status) (path : String) :
    (∃ cause, store.delete status path = (.error cause, store)) ∨
      ∃ after : Store, store.delete status path = (.ok (), after) ∧
        status = .live ∧ store.Deleted path after := by
  unfold delete
  cases hpermit : permit status path driver with
  | error cause => exact .inl ⟨cause, rfl⟩
  | ok _ =>
    obtain ⟨hlive, hpath⟩ := (permit_eq_ok_iff status path driver).1 hpermit
    dsimp only
    by_cases htop : path = "/"
    · rw [if_pos htop, if_neg fun hno => hno.2 htop]
      refine .inr ⟨_, rfl, hlive, hpath, .inl htop, fun other => ?_⟩
      rw [get?_foldl_erase]
      cases hnode : store.get? other with
      | none => simp
      | some node =>
        have hmem : other ∈ store.paths := by
          rw [mem_paths, hnode]
          rfl
        rw [if_pos hmem, htop, if_pos (Path.within_top (h.isValid hnode))]
    · rw [if_neg htop]
      split
      · exact .inl ⟨_, rfl⟩
      · next hsome =>
        rw [not_and_or, not_not, or_iff_left htop, List.isEmpty_iff] at hsome
        obtain ⟨key, hkey⟩ := List.exists_mem_of_ne_nil _ hsome
        obtain ⟨hnode, hwithin⟩ := (mem_subtree store path key).1 hkey
        refine .inr ⟨_, rfl, hlive, hpath,
          .inr (h.isSome_of_within hnode hpath htop hwithin), fun other => ?_⟩
        exact get?_erase_subtree store store path other fun _ hsome => hsome

/-- **Moving within a tree** fails and changes nothing, or there is nothing
to do because the two paths are one, or it succeeds. -/
theorem IsTree.move_cases {store : Store} (h : store.IsTree)
    (status : Status) (now : Time) (source dest : String) :
    (∃ cause, store.move status now source dest = (.error cause, store)) ∨
      (store.move status now source dest = (.ok (), store) ∧
        status = .live ∧ Path.isValid source ∧ source = dest) ∨
      ∃ after : Store, store.move status now source dest = (.ok (), after) ∧
        status = .live ∧ store.Moved now source dest after := by
  unfold move
  cases hpermit : permit status source driver with
  | error cause => exact .inl ⟨cause, rfl⟩
  | ok _ =>
    obtain ⟨hlive, hsource⟩ := (permit_eq_ok_iff status source driver).1 hpermit
    dsimp only
    cases hvalidate : Path.validate dest driver with
    | error cause => exact .inl ⟨cause, rfl⟩
    | ok _ =>
      have hdest : Path.isValid dest :=
        ((permit_eq_ok_iff .live dest driver).1 hvalidate).2
      dsimp only
      by_cases heq : source = dest
      · exact .inr (.inl ⟨if_pos heq, hlive, hsource, heq⟩)
      rw [if_neg heq]
      split
      · exact .inl ⟨_, rfl⟩
      · next hapart =>
        simp only [not_or] at hapart
        obtain ⟨hsourceTop, hdestTop, hbeneath, habove⟩ := hapart
        have hnotIn : ¬ Path.Within dest source :=
          fun hin => hin.elim (Ne.symm heq) hbeneath
        have hnotOver : ¬ Path.Within source dest :=
          fun hin => hin.elim heq habove
        split
        · exact .inl ⟨_, rfl⟩
        · next moving hmoving =>
          obtain ⟨key, hkey⟩ := List.exists_mem_of_ne_nil _ hmoving
          obtain ⟨hnode, hwithin⟩ := (mem_subtree store source key).1 hkey
          have hfound :=
            h.isSome_of_within hnode hsource hsourceTop hwithin
          obtain ⟨dir, _, _, _, _, hmade⟩ | ⟨made, hmade, hno, hget⟩ :=
            h.makeAncestors_cases now hdest
          · rw [hmade]
            exact .inl ⟨_, rfl⟩
          · rw [hmade]
            exact .inr (.inr ⟨_, rfl, hlive, hsource, hdest, hsourceTop,
              hdestTop, hnotIn, hnotOver, hfound, hno,
              get?_moved hsource hdest hsourceTop hdestTop hnotIn hnotOver
                hget⟩)

/-! ## Calls that succeed -/

section Succeeded

variable {store : Store} {status : Status} {now : Time}
  {path source dest : String} {content : ByteArray}

/-- What has succeeded has stored the file. -/
theorem IsTree.written_of_ok (h : store.IsTree)
    (hok : (store.write status now path content).1 = .ok ()) :
    store.Written now path content
      (store.write status now path content).2 := by
  obtain ⟨_, hcall⟩ | ⟨next, hcall, _, hw⟩ :=
    h.write_cases status now path content
  · rw [hcall] at hok
    cases hok
  · rw [hcall]
    exact hw

/-- What has succeeded has deleted the subtree. -/
theorem IsTree.deleted_of_ok (h : store.IsTree)
    (hok : (store.delete status path).1 = .ok ()) :
    store.Deleted path (store.delete status path).2 := by
  obtain ⟨_, hcall⟩ | ⟨next, hcall, _, hd⟩ := h.delete_cases status path
  · rw [hcall] at hok
    cases hok
  · rw [hcall]
    exact hd

/-- What has succeeded between two paths has moved the subtree. -/
theorem IsTree.moved_of_ok (h : store.IsTree) (hne : source ≠ dest)
    (hok : (store.move status now source dest).1 = .ok ()) :
    store.Moved now source dest (store.move status now source dest).2 := by
  obtain ⟨_, hcall⟩ | ⟨_, _, _, heq⟩ | ⟨next, hcall, _, hm⟩ :=
    h.move_cases status now source dest
  · rw [hcall] at hok
    cases hok
  · exact absurd heq hne
  · rw [hcall]
    exact hm

/-- To move a path to itself is to do nothing. -/
theorem snd_move_self (store : Store) (status : Status) (now : Time)
    (path : String) : (store.move status now path path).2 = store := by
  unfold move
  split
  · rfl
  · split
    · rfl
    · rw [if_pos rfl]

end Succeeded

end Store
end PathStore
