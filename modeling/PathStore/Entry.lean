import PathStore.Path

/-!
# Entries of a store

An **entry** is what a store tells about one path: whether a file or a
directory is there, the size of a file, and when it was last changed if
the store knows. A directory has no size of its own; it is reported as
zero.

A **verdict** is what a visitor says after it has seen an entry.
-/

namespace PathStore

/-- **A moment**, in seconds from a fixed origin. -/
abbrev Time := Int

/-- **What is at a path**: a file of some size, or a directory. -/
inductive Kind where
  | file (size : Nat)
  | dir
  deriving DecidableEq, Repr

/-- **What a store tells about one path.** -/
structure Entry where
  /-- The whole path, not one relative to where a walk began. -/
  path : String
  kind : Kind
  /-- The last change, where the store keeps track of it. -/
  modTime : Option Time
  deriving DecidableEq, Repr

namespace Entry

/-- A file of the given size, of no known age. -/
def file (path : String) (size : Nat) : Entry :=
  ⟨path, .file size, none⟩

/-- A directory of no known age. -/
def dir (path : String) : Entry :=
  ⟨path, .dir, none⟩

/-- The same entry, last changed at `time`. -/
def withModTime (entry : Entry) (time : Time) : Entry :=
  { entry with modTime := some time }

/-- Whether the entry is a directory. -/
def isDir (entry : Entry) : Bool :=
  match entry.kind with
  | .file _ => false
  | .dir => true

/-- The length of a file's content, zero for a directory. -/
def size (entry : Entry) : Nat :=
  match entry.kind with
  | .file size => size
  | .dir => 0

/-- The last segment of the entry's path. -/
def name (entry : Entry) : String :=
  Path.name entry.path

@[simp] theorem isDir_file (path : String) (size : Nat) :
    (file path size).isDir = false := rfl

@[simp] theorem isDir_dir (path : String) : (dir path).isDir = true := rfl

@[simp] theorem isDir_withModTime (entry : Entry) (time : Time) :
    (entry.withModTime time).isDir = entry.isDir := rfl

theorem kind_eq_dir_iff {entry : Entry} : entry.kind = .dir ↔ entry.isDir := by
  unfold isDir
  cases entry.kind with
  | file size => exact iff_of_false Kind.noConfusion Bool.false_ne_true
  | dir => exact iff_of_true rfl rfl

@[simp] theorem size_withModTime (entry : Entry) (time : Time) :
    (entry.withModTime time).size = entry.size := rfl

end Entry

/-- **A visitor's verdict** on an entry. -/
inductive Verdict where
  /-- Go on, and into the entry if it is a directory. -/
  | proceed
  /-- Leave out what is beneath a directory. Beneath a file there is
  nothing to leave out, so there the walk stops. -/
  | prune
  deriving DecidableEq, Repr

end PathStore
