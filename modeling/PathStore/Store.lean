import PathStore.Admission
import PathStore.Walk
import Std.Data.ExtTreeMap

/-!
# The store in memory

A `Store` keeps its content in one ordered map from paths to **nodes**,
files with their content and directories. The top is always there and
is not kept in the map. Directories are made by storing something
beneath them, and stay until they are deleted.

The map is flat: nothing in its type makes it a tree. That every node
but those at the top level has a directory for its parent is kept by the
operations, and is a theorem about the stores they build. The
operations are defined on all maps.

## Subtrees

What is at or beneath a path `p` is found by a scan of the keys from `p`
upwards, as far as they start with `p`. The keys beneath `p` need not
come first in that stretch (`p-x` and `p.x` come before `p/x`), so the
scan keeps only `p` itself and its descendants.

## Time

A store has no clock. The operations that record a time of change are
given it.
-/

namespace PathStore

/-- Contents are compared as the core library compares byte arrays. -/
local instance decEqContent : DecidableEq ByteArray :=
  ByteArray.instDecidableEq

/-- **What is stored at a path.** -/
inductive Node where
  | file (content : ByteArray) (modTime : Time)
  | dir (modTime : Time)
  deriving DecidableEq

/-- Whether a node is a file. -/
def Node.isFile : Node → Bool
  | file .. => true
  | dir _ => false

/-- **A store in memory.** -/
structure Store where
  /-- The nodes by path. -/
  nodes : Std.ExtTreeMap String Node

namespace Store

/-- The name by which the store calls itself in failures. -/
def driver : String := "inmemory"

/-- A store of nothing but its top. -/
def empty : Store := ⟨∅⟩

/-- The node at a path. The top has none. -/
def get? (store : Store) (path : String) : Option Node :=
  store.nodes[path]?

/-- The store with a node put at a path. -/
def insert (store : Store) (path : String) (node : Node) : Store :=
  ⟨store.nodes.insert path node⟩

/-- The store without a path. -/
def erase (store : Store) (path : String) : Store :=
  ⟨store.nodes.erase path⟩

/-- The paths of all nodes, in order. -/
def paths (store : Store) : List String := store.nodes.keys

@[simp] theorem get?_empty (path : String) : empty.get? path = none := by
  simp [get?, empty]

theorem get?_insert (store : Store) (path other : String) (node : Node) :
    (store.insert path node).get? other =
      if path = other then some node else store.get? other := by
  simp [get?, insert, Std.ExtTreeMap.getElem?_insert]

theorem get?_erase (store : Store) (path other : String) :
    (store.erase path).get? other =
      if path = other then none else store.get? other := by
  simp [get?, erase, Std.ExtTreeMap.getElem?_erase]

/-- **A store is what it holds**: two stores with the same nodes are
equal. -/
theorem ext_get? {a b : Store} (h : ∀ path, a.get? path = b.get? path) :
    a = b := by
  obtain ⟨_⟩ := a
  obtain ⟨_⟩ := b
  exact congrArg Store.mk (Std.ExtTreeMap.ext_getElem? h)

theorem mem_paths (store : Store) (path : String) :
    path ∈ store.paths ↔ (store.get? path).isSome := by
  simp [paths, get?]

theorem paths_sorted (store : Store) : store.paths.Pairwise (· < ·) :=
  (Std.ExtTreeMap.ordered_keys (t := store.nodes)).imp fun h =>
    compareOfLessAndEq_eq_lt.mp h

/-- **The number of files.** -/
def fileCount (store : Store) : Nat :=
  store.nodes.values.countP Node.isFile

/-- **The paths at or beneath `path`**, in order, by a scan of the
stretch of paths that start with it. -/
def subtree (store : Store) (path : String) : List String :=
  ((store.paths.dropWhile (fun key => decide (key < path))).takeWhile
    (fun key => path.toList.isPrefixOf key.toList)).filter
    (fun key => key == path || Path.isDescendant key path)

/-- **Makes directories** of those paths of a list that hold nothing, in
turn. It fails at the first that holds a file, and keeps the directories
it has made by then. -/
def makeDirs (now : Time) : List String → Store → Except Failure Unit × Store
  | [], store => (.ok (), store)
  | dir :: rest, store =>
    match store.get? dir with
    | some (.file ..) =>
      (.error (.backend (.notDirectory driver dir)), store)
    | some (.dir _) => makeDirs now rest store
    | none => makeDirs now rest (store.insert dir (.dir now))

/-- **Makes the ancestors of a path**, outermost first. -/
def makeAncestors (now : Time) (path : String) (store : Store) :
    Except Failure Unit × Store :=
  makeDirs now (Path.ancestors path) store

/-- The path `key`, at or beneath `source`, in the same place under
`dest`. -/
def rebase (source dest key : String) : String :=
  dest ++ String.ofList (key.toList.drop source.toList.length)

/-- **Moves one node** to its place under `dest`. -/
def moveNode (source dest : String) (store : Store) (key : String) : Store :=
  match store.get? key with
  | some node => (store.erase key).insert (rebase source dest key) node
  | none => store

/-! ## Operations -/

/-- **The content of a file.** -/
def read (status : Status) (path : String) (store : Store) :
    Except Failure ByteArray :=
  match permit status path driver with
  | .error cause => .error cause
  | .ok () =>
    match store.get? path with
    | some (.file content _) => .ok content
    | some (.dir _) => .error (.backend (.isDirectory driver path))
    | none => .error (.notFound path driver)

/-- **Stores a file**, in place of any file there, with the directories
it needs. The top and a directory cannot become a file. -/
def write (status : Status) (now : Time) (path : String)
    (content : ByteArray) (store : Store) : Except Failure Unit × Store :=
  match permit status path driver with
  | .error cause => (.error cause, store)
  | .ok () =>
    if path = "/" then (.error (.invalidPath path driver), store)
    else
      match store.get? path with
      | some (.dir _) => (.error (.backend (.isDirectory driver path)), store)
      | _ =>
        match makeAncestors now path store with
        | (.error cause, store) => (.error cause, store)
        | (.ok (), store) => (.ok (), store.insert path (.file content now))

/-- **What is at a path.** The top is a directory of no known age. -/
def stat (status : Status) (path : String) (store : Store) :
    Except Failure Entry :=
  match permit status path driver with
  | .error cause => .error cause
  | .ok () =>
    if path = "/" then .ok (Entry.dir path)
    else
      match store.get? path with
      | some (.file content time) =>
        .ok ((Entry.file path content.size).withModTime time)
      | some (.dir time) => .ok ((Entry.dir path).withModTime time)
      | none => .error (.notFound path driver)

/-- **The children of a path**: the paths whose parent it is, in order.
A file and a path that holds nothing have none. -/
def list (status : Status) (path : String) (store : Store) :
    Except Failure (List String) :=
  match permit status path driver with
  | .error cause => .error cause
  | .ok () => .ok (store.paths.filter fun key => Path.parent? key == some path)

/-- **Moves what is at or beneath a path to another**, in place of all
that was there. A path is moved to itself by doing nothing. Otherwise
neither may be the top, and neither may lie beneath the other. -/
def move (status : Status) (now : Time) (source dest : String)
    (store : Store) : Except Failure Unit × Store :=
  match permit status source driver with
  | .error cause => (.error cause, store)
  | .ok () =>
    match Path.validate dest driver with
    | .error cause => (.error cause, store)
    | .ok () =>
      if source = dest then (.ok (), store)
      else if source = "/" ∨ dest = "/" ∨ Path.isDescendant dest source ∨
          Path.isDescendant source dest then
        (.error (.invalidPath dest driver), store)
      else
        match store.subtree source with
        | [] => (.error (.notFound source driver), store)
        | moving =>
          match makeAncestors now dest store with
          | (.error cause, store) => (.error cause, store)
          | (.ok (), store) =>
            let cleared := (store.subtree dest).foldl erase store
            (.ok (), moving.foldl (moveNode source dest) cleared)

/-- **Deletes what is at or beneath a path.** The top itself stays, and
can be deleted when it is empty. -/
def delete (status : Status) (path : String) (store : Store) :
    Except Failure Unit × Store :=
  match permit status path driver with
  | .error cause => (.error cause, store)
  | .ok () =>
    let doomed := if path = "/" then store.paths else store.subtree path
    if doomed.isEmpty ∧ path ≠ "/" then
      (.error (.notFound path driver), store)
    else (.ok (), doomed.foldl erase store)

/-! ## Walks -/

/-- **The surroundings of a walk of a store** that is part of a larger
world: where to find the store there, and the status of the context. -/
def host {σ : Type u} (store : σ → Store) (status : σ → Status)
    (visit : Entry → σ → Except Failure Verdict × σ)
    (note : Notice → σ → σ) : Host σ where
  driver := driver
  check w := ((status w).check, w)
  list path w := ((store w).list (status w) path, w)
  stat path w := ((store w).stat (status w) path, w)
  visit := visit
  note := note

end Store
end PathStore
