import PathStore.Entry
import PathStore.Notice

/-!
# Walks

A **walk** visits everything beneath a path, in pre-order, and needs no
more of a store than to list one directory and to tell about one path.
Each directory is listed once, when the walk comes to it; its children
are sorted, told about one by one, shown to the visitor, and entered if
they are directories. Nothing is remembered between the steps, so a
store that changes during the walk is seen as it is at each of them.

## The world of a walk

A walk asks five things of its surroundings, collected in a `Host`:
whether its context is still live, what a directory lists, what is at a
path, what the visitor says, and to note what has happened. All five may
depend on a **world** and change it. That makes a host as general as a
store whose answers change from call to call, a visitor that alters the
store it is shown, or a context that is cancelled by either; what a walk
does is what it asks, in order, and nothing else.

## What ends a walk

Four things stop a level early, and stop the levels above it with it: a
failed check, a failed listing, a stat that fails other than by finding
nothing, and a visitor that fails or prunes at a file. A stat that finds
nothing is passed over, since a listing may be out of date.

## Depth

A store may go on for ever: a path may list itself. A walk is therefore
given the number of levels it may open, and `tooDeep` says that it
needed more. The bound has no other effect – a walk that ends within one
bound ends alike within every larger one.
-/

namespace PathStore

/-- **Where to take a walk up again.** -/
structure WalkOptions where
  /-- The path to start after. -/
  hint : Option String
  deriving DecidableEq, Repr

namespace WalkOptions

/-- Walk everything. -/
def all : WalkOptions := ⟨none⟩

/-- Start after `hint`, in place of any earlier hint. An empty hint is
none. -/
def startAfter (_options : WalkOptions) (hint : String) : WalkOptions :=
  ⟨if hint = "" then none else some hint⟩

/-- **Whether a child is left out**: it sorts at or before the hint, and
is no directory the hint lies beneath. A child left out is never asked
about, and neither is anything beneath it. -/
def skips (options : WalkOptions) (child : String) : Bool :=
  match options.hint with
  | some hint => decide (child ≤ hint) && !Path.isDescendant hint child
  | none => false

end WalkOptions

/-- **The surroundings of a walk**, over a world of type `σ`. -/
structure Host (σ : Type u) where
  /-- The name of the driver that is walked. -/
  driver : String
  /-- Asks whether the context of the walk is still live. -/
  check : σ → Except Failure Unit × σ
  /-- The paths a directory lists, in any order. -/
  list : String → σ → Except Failure (List String) × σ
  /-- What is at a path. -/
  stat : String → σ → Except Failure Entry × σ
  /-- Shows an entry to the visitor. -/
  visit : Entry → σ → Except Failure Verdict × σ
  /-- Notes what has happened. -/
  note : Notice → σ → σ

/-- **How a level of a walk ends.** -/
inductive Ending where
  /-- Every child was handled. -/
  | finished
  /-- The visitor pruned at the file of this path. -/
  | stopped (place : String)
  | failed (cause : Failure)
  /-- The walk would have had to open more levels than it may. -/
  | tooDeep
  deriving DecidableEq, Repr

namespace Walk

variable {σ : Type u}

/-- **The order of siblings**: byte order, which is the order of strings. -/
def sorted (listed : List String) : List String :=
  listed.mergeSort fun a b => decide (a ≤ b)

/-- **The visitor's verdict in a scope.** A walk of the files alone does
not show directories; it goes into all of them. -/
def verdict (host : Host σ) (scope : Scope) (entry : Entry) (w : σ) :
    Except Failure Verdict × σ :=
  match scope, entry.isDir with
  | .filesOnly, true => (.ok .proceed, w)
  | _, _ => host.visit entry w

/-- **What the walk does about one child**, where `enter` walks what is
beneath a directory. Ending `finished` means that the child has been
handled and its next sibling is due. -/
def child (host : Host σ) (scope : Scope) (options : WalkOptions)
    (enter : String → σ → Ending × σ) (path : String) (w : σ) :
    Ending × σ :=
  if options.skips path then (.finished, w)
  else
    match host.check w with
    | (.error cause, w) => (.failed cause, w)
    | (.ok (), w) =>
      match host.stat path w with
      | (.error cause, w) =>
        if cause.isNotFound then (.finished, host.note (.vanished path) w)
        else (.failed cause, w)
      | (.ok entry, w) =>
        match verdict host scope entry w with
        | (.error cause, w) => (.failed cause, w)
        | (.ok answer, w) =>
          match answer, entry.isDir with
          | .proceed, true => enter entry.path w
          | .proceed, false => (.finished, w)
          | .prune, true =>
            (.finished, host.note (.prunedDirectory entry.path) w)
          | .prune, false => (.stopped entry.path, w)

/-- **One after another**, until one of them ends otherwise than
finished; that ending is the ending of all. -/
def inTurn (step : String → σ → Ending × σ) :
    List String → σ → Ending × σ
  | [], w => (.finished, w)
  | path :: rest, w =>
    match step path w with
    | (.finished, w) => inTurn step rest w
    | (ending, w) => (ending, w)

/-- **What the walk does about one directory**: it lists it, sorts what it
lists and handles one child after another. `depth` is the number of
levels it may open, this one included. -/
def level (host : Host σ) (scope : Scope) (options : WalkOptions) :
    (depth : Nat) → (dir : String) → σ → Ending × σ
  | 0, _, w => (.tooDeep, w)
  | depth + 1, dir, w =>
    match host.check w with
    | (.error cause, w) => (.failed cause, w)
    | (.ok (), w) =>
      match host.list dir w with
      | (.error cause, w) => (.failed cause, w)
      | (.ok listed, w) =>
        inTurn (child host scope options (level host scope options depth))
          (sorted listed) w

/-- **A walk of what is beneath `origin`**, which itself is not visited.
The answer is absent if `depth` levels were not enough.

A visitor that prunes at a file ends the walk. A walk of everything then
reports success, a walk of the files alone the failure `pruned`, which
names the file. -/
def run (host : Host σ) (scope : Scope) (options : WalkOptions)
    (depth : Nat) (origin : String) (w : σ) :
    Option (Except Failure Unit) × σ :=
  match level host scope options depth origin
      (host.note (.started scope host.driver origin) w) with
  | (.finished, w) =>
    (some (.ok ()), host.note (.finished scope host.driver origin) w)
  | (.stopped place, w) =>
    match scope with
    | .everything =>
      (some (.ok ()), host.note (.stopped host.driver origin place) w)
    | .filesOnly => (some (.error (.pruned place)), w)
  | (.failed cause, w) => (some (.error cause), w)
  | (.tooDeep, w) => (none, w)

end Walk
end PathStore
