import PathStore.Proofs.Store.Tree

/-!
# Calls that fail

A call of a store a program can hold fails or succeeds as a whole
(`IsTree.run_cases`): one that fails leaves every node where it was, and
makes none (`after_eq_of_failed`).

For an arbitrary map this is false. Making the ancestors of a path stops at
the first file it meets, and keeps the directories it has made by then. In a
tree nothing is vacant above a file, so there was nothing to make.
-/

namespace PathStore
namespace Store

variable {store : Store} {call : Call} {cause : Failure}

/-- **A call fails as a whole or succeeds.** -/
theorem IsTree.run_cases (h : store.IsTree) (call : Call) :
    (∃ cause, call.run store = (.error cause, store)) ∨
      ∃ next, call.run store = (.ok (), next) := by
  cases call with
  | write status now path content =>
    refine (h.write_cases status now path content).imp_right ?_
    exact fun ⟨next, hcall, _⟩ => ⟨next, hcall⟩
  | move status now source dest =>
    refine (h.move_cases status now source dest).imp_right ?_
    exact fun hcall => hcall.elim (fun ⟨hcall, _⟩ => ⟨store, hcall⟩)
      fun ⟨next, hcall, _⟩ => ⟨next, hcall⟩
  | delete status path =>
    refine (h.delete_cases status path).imp_right ?_
    exact fun ⟨next, hcall, _⟩ => ⟨next, hcall⟩

/-- **A call that fails leaves the store as it was.** -/
theorem after_eq_of_failed (h : store.Reachable)
    (hfails : (call.run store).1 = .error cause) :
    store.after call = store := by
  obtain ⟨_, hcall⟩ | ⟨next, hcall⟩ := h.isTree.run_cases call
  · show (call.run store).2 = store
    rw [hcall]
  · rw [hcall] at hfails
    cases hfails

/-- What a move finds in its way: a file two levels above where it would
go. -/
theorem after_eq_of_failed_move :
    let store := empty.afterAll [.write .live 0 "/a" ⟨#[49]⟩,
      .write .live 0 "/b/c" ⟨#[50]⟩]
    let call := Call.move .live 1 "/b" "/a/x/y"
    (call.run store).1 = .error (.backend (.notDirectory driver "/a")) ∧
      store.after call = store := by
  intro store call
  have hstore : store.Reachable := ⟨_, rfl⟩
  have hfails : (call.run store).1 =
      .error (.backend (.notDirectory driver "/a")) := by
    decide +kernel
  exact ⟨hfails, after_eq_of_failed hstore hfails⟩

/-- In a map that is no tree a call that fails may leave a directory
behind. -/
example :
    let store := empty.insert "/a/b" (.file ⟨#[]⟩ 0)
    (store.write .live 1 "/a/b/c" ⟨#[]⟩).1 =
        .error (.backend (.notDirectory driver "/a/b")) ∧
      (store.write .live 1 "/a/b/c" ⟨#[]⟩).2.get? "/a" = some (.dir 1) := by
  decide +kernel

end Store
end PathStore
