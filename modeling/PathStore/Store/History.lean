import PathStore.Store

/-!
# What can become of a store

A store changes by calls of three operations. A **call** is an operation
with all that is given to it, carried out by `Call.run`; a **history** is
a list of calls, carried out in turn, whether or not each succeeds.

The stores a program can hold are those with a history from the empty
store, `Store.Reachable`. They are trees, `Store.IsTree`: every node has
a well-formed path and stands in a directory or at the top.
-/

namespace PathStore
namespace Store

/-- **A call of an operation that may change a store.** -/
inductive Call where
  | write (status : Status) (now : Time) (path : String)
      (content : ByteArray)
  | move (status : Status) (now : Time) (source dest : String)
  | delete (status : Status) (path : String)

/-- **Carries a call out.** -/
def Call.run : Call → Store → Except Failure Unit × Store
  | write status now path content, store =>
    store.write status now path content
  | move status now source dest, store => store.move status now source dest
  | delete status path, store => store.delete status path

/-- The store after a call, whatever its answer. -/
def after (store : Store) (call : Call) : Store := (call.run store).2

/-- The store after a history. -/
def afterAll (store : Store) (history : List Call) : Store :=
  history.foldl after store

/-- **A store a program can hold.** -/
def Reachable (store : Store) : Prop :=
  ∃ history, store = empty.afterAll history

/-- **A tree**: the path of every node is well-formed and not the top, and
its parent is the top or the path of a directory. -/
def IsTree (store : Store) : Prop :=
  ∀ path node, store.get? path = some node →
    Path.isValid path ∧ path ≠ "/" ∧
      ∃ dir, Path.parent? path = some dir ∧
        (dir = "/" ∨ ∃ time, store.get? dir = some (.dir time))

theorem reachable_empty : Reachable empty := ⟨[], rfl⟩

/-- A call leads from one store a program can hold to another. -/
theorem Reachable.after {store : Store} (h : store.Reachable) (call : Call) :
    (store.after call).Reachable := by
  obtain ⟨history, rfl⟩ := h
  exact ⟨history ++ [call], by simp [afterAll]⟩

theorem isTree_empty : IsTree empty := by
  intro path node h
  simp at h

end Store
end PathStore
