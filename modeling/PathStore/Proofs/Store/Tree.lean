import PathStore.Proofs.Store.Changes

/-!
# The stores a program can hold are trees

The map of a store is flat, and that it is a tree is the work of the
operations. Each of them keeps it so (`Written.isTree`, `Deleted.isTree`,
`Moved.isTree`), and so do histories.

The three proofs are the same in outline. A node of the new store is
traced to the old one, where its parent is the top or a directory, and the
parent is then found in the new store. A move is the one with work to do:
the parent of a node is in the same place as the node, be it the new
place, the old one or neither, except for the root of the moved subtree,
whose parent is among the directories that were made for it.
-/

namespace PathStore
namespace Store

variable {store next : Store} {now : Time} {path source dest : String}
  {content : ByteArray}

/-- Making the ancestors of a path keeps a tree. -/
theorem IsTree.withAncestors (h : store.IsTree) (hpath : Path.isValid path)
    (hno : store.NoFileAbove path) {other : String} {node : Node}
    (hnode : store.withAncestors now path other = some node) :
    Path.isValid other ∧ other ≠ "/" ∧
      ∃ dir, Path.parent? other = some dir ∧
        (dir = "/" ∨ ∃ time,
          store.withAncestors now path dir = some (.dir time)) := by
  obtain hmem | hold := withAncestors_eq_some hnode
  · have hother := Path.isValid_of_mem_ancestors hpath hmem
    obtain ⟨hne, hbelow⟩ := (Path.mem_ancestors_iff hpath hother).1 hmem
    obtain ⟨dir, _, _, _, hparent, _⟩ := Path.exists_parent? hother hne
    refine ⟨hother, hne, dir, hparent, ?_⟩
    refine or_iff_not_imp_left.2 fun hdir => withAncestors_of_mem hno ?_
    exact Path.mem_ancestors_of_parent? hpath hother (.inr hbelow) hparent hdir
  · obtain ⟨hother, hne, dir, hparent, hdir⟩ := h other node hold
    refine ⟨hother, hne, dir, hparent, hdir.imp_right ?_⟩
    exact fun ⟨time, htime⟩ => ⟨time, withAncestors_of_some htime⟩

/-- **Storing a file keeps a tree.** -/
theorem Written.isTree (hw : store.Written now path content next)
    (h : store.IsTree) : next.IsTree := by
  intro other node hnode
  -- a directory above the path or beside it is not the path itself
  have hkept : ∀ {dir}, (∃ time,
      store.withAncestors now path dir = some (.dir time)) →
      ∃ time, next.get? dir = some (.dir time) := by
    rintro dir ⟨time, htime⟩
    refine ⟨time, ?_⟩
    rw [hw.get?, if_neg, htime]
    rintro rfl
    obtain hmem | hold := withAncestors_eq_some htime
    · exact Path.self_notMem_ancestors hw.valid hmem
    · exact hw.not_dir time hold
  rw [hw.get?] at hnode
  split at hnode
  · next heq =>
    subst heq
    obtain ⟨dir, _, _, _, hparent, _⟩ :=
      Path.exists_parent? hw.valid hw.ne_top
    refine ⟨hw.valid, hw.ne_top, dir, hparent, ?_⟩
    refine or_iff_not_imp_left.2 fun hdir => hkept ?_
    exact withAncestors_of_mem hw.no_file
      (Path.mem_ancestors_of_parent? hw.valid hw.valid (.refl other) hparent
        hdir)
  · obtain ⟨hother, hne, dir, hparent, hdir⟩ :=
      h.withAncestors hw.valid hw.no_file hnode
    exact ⟨hother, hne, dir, hparent, hdir.imp_right hkept⟩

/-- **Deleting keeps a tree.** -/
theorem Deleted.isTree (hd : store.Deleted path next) (h : store.IsTree) :
    next.IsTree := by
  intro other node hnode
  rw [hd.get?] at hnode
  split at hnode
  · cases hnode
  · next hout =>
    obtain ⟨hother, hne, dir, hparent, hdir⟩ := h other node hnode
    refine ⟨hother, hne, dir, hparent, hdir.imp_right ?_⟩
    rintro ⟨time, htime⟩
    refine ⟨time, ?_⟩
    rw [hd.get?, if_neg, htime]
    exact fun hin => hout
      (.inr ((Path.isDescendant_iff_parent? hother hd.valid hparent).2 hin))

/-- A directory in neither place of a move is where it was. -/
theorem Moved.dir_kept (hm : store.Moved now source dest next) {dir : String}
    (hto : ¬ Path.Within dir dest) (hin : ¬ Path.Within dir source)
    (h : ∃ time, store.withAncestors now dest dir = some (.dir time)) :
    ∃ time, next.get? dir = some (.dir time) := by
  obtain ⟨time, htime⟩ := h
  exact ⟨time, by rw [hm.get?, if_neg hto, if_neg hin, htime]⟩

/-- **The root of what was moved** stands in a directory that was there or
was made for it. -/
theorem Moved.parent_root (hm : store.Moved now source dest next) :
    ∃ dir, Path.parent? dest = some dir ∧
      (dir = "/" ∨ ∃ time, next.get? dir = some (.dir time)) := by
  obtain ⟨dir, _, hdir, _, hparent, _⟩ :=
    Path.exists_parent? hm.valid_dest hm.dest_ne_top
  have hbelow := Path.isDescendant_of_parent? hm.valid_dest hparent
  refine ⟨dir, hparent, ?_⟩
  refine or_iff_not_imp_left.2 fun htop => hm.dir_kept ?_ ?_ ?_
  · exact fun h => h.not_isDescendant hdir hm.valid_dest hbelow
  · exact fun h => hm.not_in
      (.trans hm.valid_dest hdir hm.valid_source (.inr hbelow) h)
  · exact withAncestors_of_mem hm.no_file
      (Path.mem_ancestors_of_parent? hm.valid_dest hm.valid_dest (.refl dest)
        hparent htop)

/-- **What was moved with its parent** stands in the renamed parent. -/
theorem Moved.parent_beneath (hm : store.Moved now source dest next)
    (h : store.IsTree) {key : String} {node : Node}
    (hnode : store.get? key = some node)
    (hbelow : Path.isDescendant key source) :
    ∃ dir, Path.parent? (rebase source dest key) = some dir ∧
      ∃ time, next.get? dir = some (.dir time) := by
  obtain ⟨hkey, _, dir, hparent, hdir⟩ := h key node hnode
  have hin := (Path.isDescendant_iff_parent? hkey hm.valid_source
    hparent).1 hbelow
  refine ⟨rebase source dest dir, parent?_rebase hm.valid_source
    hm.valid_dest hkey hm.source_ne_top hm.dest_ne_top hparent hin, ?_⟩
  obtain rfl | ⟨time, htime⟩ := hdir
  · exact absurd (Path.Within.eq_top hm.valid_source hin) hm.source_ne_top
  · refine ⟨time, ?_⟩
    rw [hm.get?, if_pos (within_rebase hm.source_ne_top hm.dest_ne_top hin),
      rebase_rebase hm.source_ne_top hin, htime]

/-- **Moving keeps a tree.** -/
theorem Moved.isTree (hm : store.Moved now source dest next)
    (h : store.IsTree) : next.IsTree := by
  intro other node hnode
  rw [hm.get?] at hnode
  split at hnode
  · next hto =>
    have hin := within_rebase hm.dest_ne_top hm.source_ne_top hto
    have hback : rebase source dest (rebase dest source other) = other :=
      rebase_rebase hm.dest_ne_top hto
    generalize rebase dest source other = key at hnode hin hback
    subst hback
    obtain ⟨_, _, hother, _⟩ := segments_rebase hm.valid_source hm.valid_dest
      (h.isValid hnode) hm.source_ne_top hm.dest_ne_top hin
    have hne : rebase source dest key ≠ "/" := by
      intro htop
      rw [htop] at hto
      exact hm.dest_ne_top (Path.Within.eq_top hm.valid_dest hto)
    refine ⟨hother, hne, ?_⟩
    obtain rfl | hbelow := hin
    · rw [rebase_self]
      exact hm.parent_root
    · obtain ⟨dir, hparent, hdir⟩ := hm.parent_beneath h hnode hbelow
      exact ⟨dir, hparent, .inr hdir⟩
  · next hto =>
    split at hnode
    · cases hnode
    · next hin =>
      obtain ⟨hother, hne, dir, hparent, hdir⟩ :=
        h.withAncestors hm.valid_dest hm.no_file hnode
      refine ⟨hother, hne, dir, hparent, hdir.imp_right (hm.dir_kept ?_ ?_)⟩
      · exact fun h => hto (.inr
          ((Path.isDescendant_iff_parent? hother hm.valid_dest hparent).2 h))
      · exact fun h => hin (.inr
          ((Path.isDescendant_iff_parent? hother hm.valid_source hparent).2 h))

/-- **Every call keeps a tree**, whether or not it succeeds. -/
theorem IsTree.after (h : store.IsTree) (call : Call) :
    (store.after call).IsTree := by
  unfold Store.after
  cases call with
  | write status now path content =>
    obtain ⟨_, hcall⟩ | ⟨_, hcall, _, hw⟩ :=
      h.write_cases status now path content
    · rw [Call.run, hcall]
      exact h
    · rw [Call.run, hcall]
      exact hw.isTree h
  | move status now source dest =>
    obtain ⟨_, hcall⟩ | ⟨hcall, _⟩ | ⟨_, hcall, _, hm⟩ :=
      h.move_cases status now source dest
    · rw [Call.run, hcall]
      exact h
    · rw [Call.run, hcall]
      exact h
    · rw [Call.run, hcall]
      exact hm.isTree h
  | delete status path =>
    obtain ⟨_, hcall⟩ | ⟨_, hcall, _, hd⟩ := h.delete_cases status path
    · rw [Call.run, hcall]
      exact h
    · rw [Call.run, hcall]
      exact hd.isTree h

theorem IsTree.afterAll (h : store.IsTree) (history : List Call) :
    (store.afterAll history).IsTree := by
  induction history generalizing store with
  | nil => exact h
  | cons call history ih => exact ih (h.after call)

/-- **The stores a program can hold are trees.** -/
theorem Reachable.isTree (h : store.Reachable) : store.IsTree := by
  obtain ⟨history, rfl⟩ := h
  exact isTree_empty.afterAll history

/-- **Every history leaves a tree**, in which nothing lies beneath a
file. -/
theorem isTree_of_history (history : List Call) :
    (empty.afterAll history).IsTree ∧
      ∀ leaf other content time,
        (empty.afterAll history).get? leaf = some (.file content time) →
          Path.isDescendant other leaf →
            (empty.afterAll history).get? other = none := by
  have htree := isTree_empty.afterAll history
  refine ⟨htree, fun leaf other content time hleaf hbelow => ?_⟩
  obtain ⟨hvalid, hne, _⟩ := htree leaf _ hleaf
  refine htree.get?_eq_none_of_isDescendant hvalid hne ?_ hbelow
  rw [hleaf]
  exact fun _ hdir => Node.noConfusion (Option.some.inj hdir)

end Store
end PathStore
