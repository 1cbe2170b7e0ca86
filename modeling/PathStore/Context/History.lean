import PathStore.Context

/-!
# What a program does with contexts

A program makes background contexts, derives contexts from those it has, and
cancels some of them. A **history** is a sequence of such steps. It knows how
many contexts there are, so a step can only name one that was made before it.

A history says by itself, without looking at any context, where each context
comes from: its **lineage** is the context, the one it was derived from, and
so on up to a background context. It also says which deadlines were
introduced on the way, and which contexts the program has cancelled.
-/

namespace PathStore
namespace Contexts

/-- **A way to derive one context from another.** -/
inductive Derivation where
  | clone
  /-- For work that may take as long as `timeout` from `now`. -/
  | withTimeout (timeout now : Time)
  | withDeadline (time : Time)

namespace Derivation

/-- Derives a further context from that of number `index`. -/
def apply (contexts : Contexts) (index : Nat) : Derivation → Contexts
  | clone => contexts.clone index
  | withTimeout timeout now => contexts.withTimeout index timeout now
  | withDeadline time => contexts.withDeadline index time

/-- The deadline a derivation introduces, if it introduces one. -/
def deadline? : Derivation → Option Time
  | clone => none
  | withTimeout timeout now => some (now + timeout)
  | withDeadline time => some time

end Derivation

/-- **What a program has done with contexts**, of which there are `n`, numbered
from zero. -/
inductive History : Nat → Type where
  /-- Nothing yet. -/
  | start : History 0
  | background {n : Nat} (past : History n) : History (n + 1)
  | derive {n : Nat} (past : History n) (parent : Fin n) (how : Derivation) :
    History (n + 1)
  | cancel {n : Nat} (past : History n) (target : Fin n) : History n

namespace History

/-- **The contexts after a history.** -/
def run : {n : Nat} → History n → Contexts
  | _, start => empty
  | _, background past => past.run.background
  | _, derive past parent how => how.apply past.run parent
  | _, cancel past target => past.run.cancel target

/-- **The lineage of a context**: its number and the numbers of those it was
derived from, up to a background context. -/
def lineage : {n : Nat} → History n → Nat → List Nat
  | _, start, _ => []
  | n + 1, background past, i => if i = n then [n] else past.lineage i
  | n + 1, derive past parent _, i =>
    if i = n then n :: past.lineage parent else past.lineage i
  | _, cancel past _, i => past.lineage i

/-- The background context a context goes back to: where its lineage ends. -/
def source? {n : Nat} (history : History n) (i : Nat) : Option Nat :=
  (history.lineage i).getLast?

/-- The deadline that was introduced when a context was made, if one was. -/
def introduced? : {n : Nat} → History n → Nat → Option Time
  | _, start, _ => none
  | n + 1, background past, i => if i = n then none else past.introduced? i
  | n + 1, derive past _ how, i =>
    if i = n then how.deadline? else past.introduced? i
  | _, cancel past _, i => past.introduced? i

/-- **The deadlines a context is under**: those introduced along its
lineage. -/
def deadlines {n : Nat} (history : History n) (i : Nat) : List Time :=
  (history.lineage i).filterMap history.introduced?

/-- The contexts the program has cancelled itself. -/
def cancels : {n : Nat} → History n → List Nat
  | _, start => []
  | _, background past => past.cancels
  | _, derive past _ _ => past.cancels
  | _, cancel past target => (target : Nat) :: past.cancels

/-- **A context is cancelled by a history** if some context that goes back to
the same background context was. -/
def Cancelled {n : Nat} (history : History n) (i : Nat) : Prop :=
  ∃ j ∈ history.cancels, history.source? j = history.source? i

instance {n : Nat} (history : History n) (i : Nat) :
    Decidable (history.Cancelled i) :=
  inferInstanceAs (Decidable (∃ j ∈ history.cancels,
    history.source? j = history.source? i))

end History
end Contexts
end PathStore
