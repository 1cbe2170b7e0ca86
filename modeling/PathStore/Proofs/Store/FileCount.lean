import PathStore.Proofs.Store.Failing
import PathStore.Proofs.Store.Outcome
import PathStore.Proofs.Store.Shown
import Mathlib.Data.Finset.Card

/-!
# The number of files

A store does not keep the number of its files. It counts them whenever it is
asked, so that the number follows the calls is a law and not a matter of
bookkeeping: a call changes it by the files it makes and the files it takes
away, and by nothing else (`Store.fileCount_conserved`).

Files are counted by their paths (`Store.files`), and each call is told by what
it does to that set. To store a file is to insert a path, which may have been
there. To delete is to leave out what is at or beneath a path. A move leaves
out what is at or beneath the new place and renames the rest, as far as it is
in the old one. That the renaming keeps files apart is where two paths could
become one and a file be lost. It does because what is renamed comes to a place
that has been cleared (`Store.injOn_goesTo`).
-/

namespace PathStore
namespace Store

variable {store next : Store} {now : Time} {path source dest other : String}
  {content : ByteArray}

/-! ## Files by their paths -/

/-- **The paths of the files** of a store. -/
def files (store : Store) : Finset String :=
  (store.paths.filter fun path => (store.get? path).any Node.isFile).toFinset

/-- **The files at or beneath a path.** -/
def filesWithin (store : Store) (path : String) : Finset String :=
  store.files.filter fun key => Path.Within key path

theorem mem_files_iff : path ∈ store.files ↔ store.HasFile path := by
  unfold files
  rw [List.mem_toFinset, List.mem_filter, ← fileAt_holdings, fileAt_iff,
    mem_paths]
  refine and_iff_right_of_imp ?_
  rintro ⟨content, time, hnode⟩
  exact Option.isSome_of_eq_some hnode

/-- The files are as many as their paths. -/
theorem fileCount_eq_card (store : Store) :
    store.fileCount = store.files.card := by
  rw [fileCount_eq, files, List.toFinset_card_of_nodup]
  exact Std.ExtTreeMap.nodup_keys.filter _

/-- **What is left out and what is kept** make up all files. -/
theorem card_filesWithin (store : Store) (path : String) :
    (store.files.filter fun key => ¬ Path.Within key path).card +
      (store.filesWithin path).card = store.fileCount := by
  rw [fileCount_eq_card, filesWithin, Nat.add_comm]
  exact Finset.card_filter_add_card_filter_not _

/-- A directory that is made above a path is no file. -/
theorem withAncestors_eq_file_iff {time : Time} :
    store.withAncestors now path other = some (.file content time) ↔
      store.get? other = some (.file content time) := by
  unfold withAncestors
  split
  · next hmade =>
    rw [hmade.2]
    exact iff_of_false (fun h => Node.noConfusion (Option.some.inj h))
      (Option.some_ne_none _).symm
  · exact Iff.rfl

/-! ## Storing a file -/

theorem Written.hasFile_iff (hw : store.Written now path content next) :
    next.HasFile other ↔ other = path ∨ store.HasFile other := by
  unfold HasFile
  rw [hw.get?]
  split
  · next heq => exact iff_of_true ⟨content, now, rfl⟩ (.inl heq)
  · next hne => simp only [withAncestors_eq_file_iff, hne, false_or]

/-- **Storing a file adds its path** to those of the files. -/
theorem Written.files_eq (hw : store.Written now path content next) :
    next.files = Insert.insert path store.files := by
  ext other
  rw [Finset.mem_insert, mem_files_iff, mem_files_iff, hw.hasFile_iff]

/-- **A file counts where none was.** A directory is not in its place. -/
theorem Written.fileCount_eq (hw : store.Written now path content next) :
    (store.get? path = none ∧ next.fileCount = store.fileCount + 1) ∨
      (store.HasFile path ∧ next.fileCount = store.fileCount) := by
  rw [fileCount_eq_card, fileCount_eq_card, hw.files_eq]
  cases hnode : store.get? path with
  | none =>
    refine .inl ⟨rfl, Finset.card_insert_of_notMem fun hmem => ?_⟩
    obtain ⟨_, _, hfile⟩ := mem_files_iff.1 hmem
    rw [hnode] at hfile
    cases hfile
  | some node =>
    cases node with
    | dir time => exact absurd hnode (hw.not_dir time)
    | file old time =>
      have hfile : store.HasFile path := ⟨old, time, hnode⟩
      refine .inr ⟨hfile, ?_⟩
      rw [Finset.insert_eq_of_mem (mem_files_iff.2 hfile)]

/-! ## Deleting -/

theorem Deleted.hasFile_iff (hd : store.Deleted path next) :
    next.HasFile other ↔ store.HasFile other ∧ ¬ Path.Within other path := by
  unfold HasFile
  rw [hd.get?]
  split
  · next hin => exact iff_of_false (by simp) fun h => h.2 hin
  · next hout => exact (and_iff_left hout).symm

/-- **Deleting costs the files at or beneath the path.** -/
theorem Deleted.fileCount_add (hd : store.Deleted path next) :
    next.fileCount + (store.filesWithin path).card = store.fileCount := by
  rw [← card_filesWithin store path, fileCount_eq_card]
  congr 2
  ext other
  rw [Finset.mem_filter, mem_files_iff, mem_files_iff, hd.hasFile_iff]

/-! ## Moving -/

/-- **Where a path is found after a move**, if nothing takes its place. -/
def goesTo (source dest key : String) : String :=
  if Path.Within key source then rebase source dest key else key

/-- **A file after a move** is one that was there before and not in the way,
in the place it has gone to. -/
theorem Moved.hasFile_iff (hm : store.Moved now source dest next) :
    next.HasFile path ↔ ∃ key, (store.HasFile key ∧ ¬ Path.Within key dest) ∧
      goesTo source dest key = path := by
  constructor
  · rintro ⟨content, time, hnode⟩
    rw [hm.get?] at hnode
    split at hnode
    · next hto =>
      have hin := within_rebase hm.dest_ne_top hm.source_ne_top hto
      refine ⟨rebase dest source path, ⟨⟨content, time, hnode⟩,
        hm.not_within_dest hin⟩, ?_⟩
      rw [goesTo, if_pos hin, rebase_rebase hm.dest_ne_top hto]
    · next hto =>
      split at hnode
      · cases hnode
      · next hin =>
        exact ⟨path, ⟨⟨content, time, withAncestors_eq_file_iff.1 hnode⟩, hto⟩,
          if_neg hin⟩
  · rintro ⟨key, ⟨⟨content, time, hnode⟩, hto⟩, rfl⟩
    refine ⟨content, time, ?_⟩
    unfold goesTo
    split
    · next hin =>
      rw [hm.get?, if_pos (within_rebase hm.source_ne_top hm.dest_ne_top hin),
        rebase_rebase hm.source_ne_top hin, hnode]
    · next hin =>
      rw [hm.get?, if_neg hto, if_neg hin, withAncestors_eq_file_iff, hnode]

/-- **A move keeps paths apart** that are not in its way. -/
theorem injOn_goesTo (hsource : source ≠ "/") (hdest : dest ≠ "/") :
    Set.InjOn (goesTo source dest) {key | ¬ Path.Within key dest} := by
  have harrives : ∀ {key}, Path.Within key source →
      Path.Within (rebase source dest key) dest :=
    fun hin => within_rebase hsource hdest hin
  intro first hfirst second hsecond heq
  unfold goesTo at heq
  split at heq <;> split at heq
  · next hone htwo =>
    rw [← rebase_rebase hsource hone, heq, rebase_rebase hsource htwo]
  · next hone _ => exact absurd (heq ▸ harrives hone) hsecond
  · next _ htwo => exact absurd (heq ▸ harrives htwo) hfirst
  · exact heq

/-- **A move costs the files that were in its way**, and none of those it
carries. -/
theorem Moved.fileCount_add (hm : store.Moved now source dest next) :
    next.fileCount + (store.filesWithin dest).card = store.fileCount := by
  have hfiles : next.files =
      (store.files.filter fun key => ¬ Path.Within key dest).image
        (goesTo source dest) := by
    ext path
    simp only [Finset.mem_image, Finset.mem_filter, mem_files_iff]
    exact hm.hasFile_iff
  have hinj : Set.InjOn (goesTo source dest)
      (store.files.filter fun key => ¬ Path.Within key dest) :=
    (injOn_goesTo hm.source_ne_top hm.dest_ne_top).mono
      fun key hmem => (Finset.mem_filter.1 hmem).2
  rw [← card_filesWithin store dest, fileCount_eq_card, hfiles,
    Finset.card_image_of_injOn hinj]

/-! ## Every call -/

/-- **The number of files is conserved.** Storing a file adds one where nothing
was and none where a file was. A move takes away the files that were in its
way, and deleting those that it was to delete. A call that fails and a move of
a path to itself leave the number as it was. -/
theorem fileCount_conserved (h : store.Reachable) :
    (∀ status now path content,
      (store.write status now path content).1 = .ok () →
        (store.get? path = none ∧
          (store.write status now path content).2.fileCount =
            store.fileCount + 1) ∨
        (store.HasFile path ∧
          (store.write status now path content).2.fileCount =
            store.fileCount)) ∧
    (∀ status now source dest, source ≠ dest →
      (store.move status now source dest).1 = .ok () →
        (store.move status now source dest).2.fileCount +
          (store.filesWithin dest).card = store.fileCount) ∧
    (∀ status path, (store.delete status path).1 = .ok () →
      (store.delete status path).2.fileCount +
        (store.filesWithin path).card = store.fileCount) ∧
    (∀ call cause, (call.run store).1 = .error cause →
      (store.after call).fileCount = store.fileCount) ∧
    (∀ status now path,
      (store.move status now path path).2.fileCount = store.fileCount) := by
  have htree := h.isTree
  refine ⟨?_, ?_, ?_, ?_, ?_⟩
  · exact fun status now path content hok =>
      (htree.written_of_ok hok).fileCount_eq
  · exact fun status now source dest hne hok =>
      (htree.moved_of_ok hne hok).fileCount_add
  · exact fun status path hok => (htree.deleted_of_ok hok).fileCount_add
  · intro call cause hfails
    obtain ⟨_, hcall⟩ | ⟨_, hcall⟩ := htree.run_cases call
    · show (call.run store).2.fileCount = store.fileCount
      rw [hcall]
    · rw [hcall] at hfails
      cases hfails
  · intro status now path
    rw [snd_move_self]

/-- A directory is moved on the shelf to where there is another with one file
in it. That file is lost, and no other. -/
theorem fileCount_shelf_move :
    (shelf.move .live 1 "/a" "/b/c").1 = .ok () ∧ shelf.fileCount = 5 ∧
      (shelf.move .live 1 "/a" "/b/c").2.fileCount = 4 := by
  have hstore : shelf.Reachable := ⟨_, rfl⟩
  have hok : (shelf.move .live 1 "/a" "/b/c").1 = .ok () := by decide +kernel
  have hcount : shelf.fileCount = 5 := by decide +kernel
  have hlost : (shelf.filesWithin "/b/c").card = 1 := by decide +kernel
  have hmoved := (fileCount_conserved hstore).2.1 .live 1 "/a" "/b/c"
    (by decide) hok
  exact ⟨hok, hcount, by omega⟩

end Store
end PathStore
