import PathStore.Entry
import PathStore.Failure

/-!
# Contexts

Every operation of a store runs under a **context**, which can be
cancelled and may have a deadline. Contexts are derived from one
another. All contexts derived from one background context, up and down
and through any chain, form a **family**: cancelling one cancels them
all. A deadline is handed down only, and a derived context keeps the
earlier of its own and the one it was given.

So a context is a family and a deadline, and the families that have been
cancelled are kept beside the contexts, in `Contexts`. Whether a context
is still live depends on the moment it is asked: `Contexts.status`. The
operations of a store see no more of a context than that status.
-/

namespace PathStore

/-- **What a context says when it is asked.** -/
inductive Status where
  | live
  | cancelled
  | expired
  deriving DecidableEq, Repr

/-- A live context lets an operation pass, any other fails it at once. -/
def Status.check : Status → Except Failure Unit
  | live => .ok ()
  | cancelled => .error .cancelled
  | expired => .error .deadlineExceeded

/-- **A context**: the family that shares its cancellation, and its
deadline if it has one. -/
structure Context where
  family : Nat
  deadline : Option Time
  deriving DecidableEq, Repr

namespace Context

/-- The context derived from `context` for work that must be done by
`time`: the same family, and the earlier of the two deadlines. -/
def withDeadline (context : Context) (time : Time) : Context :=
  { context with
    deadline := some (match context.deadline with
      | some own => min own time
      | none => time) }

/-- The context derived from `context` for work that may take as long as
`timeout` from `now`. -/
def withTimeout (context : Context) (timeout now : Time) : Context :=
  context.withDeadline (now + timeout)

/-- Whether the deadline has come. The deadline itself is too late. -/
def isExpired (context : Context) (now : Time) : Bool :=
  match context.deadline with
  | some deadline => deadline ≤ now
  | none => false

end Context

/-- **The contexts of a program**, by number in the order they were made,
with the families cancelled so far. -/
structure Contexts where
  /-- The contexts made so far. -/
  made : List Context
  /-- The families that exist, numbered from zero. -/
  families : Nat
  /-- The families that have been cancelled. -/
  cancelled : List Nat

namespace Contexts

/-- No context has been made. -/
def empty : Contexts := ⟨[], 0, []⟩

/-- The context of a number. -/
def get? (contexts : Contexts) (index : Nat) : Option Context :=
  contexts.made[index]?

/-- The number the next context will have. -/
def size (contexts : Contexts) : Nat := contexts.made.length

/-- A new context that never ends by itself, in a family of its own. -/
def background (contexts : Contexts) : Contexts :=
  { contexts with
    made := contexts.made ++ [⟨contexts.families, none⟩]
    families := contexts.families + 1 }

/-- A further context made from that of number `index`. A number no
context has derives nothing. -/
def derive (contexts : Contexts) (index : Nat) (f : Context → Context) :
    Contexts :=
  match contexts.get? index with
  | some context => { contexts with made := contexts.made ++ [f context] }
  | none => contexts

/-- A copy: the same family, the same deadline. -/
def clone (contexts : Contexts) (index : Nat) : Contexts :=
  contexts.derive index id

/-- A copy that must be done by `time`. -/
def withDeadline (contexts : Contexts) (index : Nat) (time : Time) :
    Contexts :=
  contexts.derive index (·.withDeadline time)

/-- A copy that may take as long as `timeout` from `now`. -/
def withTimeout (contexts : Contexts) (index : Nat) (timeout now : Time) :
    Contexts :=
  contexts.derive index (·.withTimeout timeout now)

/-- Cancels the family of a context. -/
def cancel (contexts : Contexts) (index : Nat) : Contexts :=
  match contexts.get? index with
  | some context =>
    { contexts with cancelled := context.family :: contexts.cancelled }
  | none => contexts

/-- Whether the family of a context has been cancelled. -/
def isCancelled (contexts : Contexts) (context : Context) : Bool :=
  contexts.cancelled.contains context.family

/-- **What a context says at a moment.** Cancellation is asked first. -/
def status (contexts : Contexts) (context : Context) (now : Time) :
    Status :=
  if contexts.isCancelled context then .cancelled
  else if context.isExpired now then .expired
  else .live

end Contexts
end PathStore
