import PathStore.Entry
import Std.Data.ExtTreeMap

/-!
# The tree of a disk

A `Disk` is what a disk holds: one ordered map from **locations** to
nodes. A location is the list of names that lead to it from the root of
the disk, outermost first, and names are bytes. Nodes are files,
directories and **links**; a link holds the path it stands for, as text
that need not lead anywhere.

Locations are compared name by name, each name by its bytes, a shorter
list before a longer one that it begins. The order of the map is
therefore the depth-first order of the tree, with siblings by the bytes
of their names.

That the map is a tree – the root is a directory, and everything else
stands in one, under a proper name – is `Disk.IsTree`. It is a predicate
and not part of the type: the operations here are the plain changes of
the map that calls are made of, and one of them alone may break it.
-/

namespace PathStore

/-- **A name in a directory**, in bytes. -/
abbrev Name := List UInt8

/-- The longest a name may be, in bytes. -/
def nameLimit : Nat := 255

/-- **A name an entry of a directory can have**: not empty nor over the
limit, without slash and NUL, and neither `.` nor `..`, which lead
elsewhere. -/
def Name.IsProper (name : Name) : Prop :=
  name ≠ [] ∧ name.length ≤ nameLimit ∧ 0x2F ∉ name ∧ 0x00 ∉ name ∧
    name ≠ [0x2E] ∧ name ≠ [0x2E, 0x2E]

/-- **A location on a disk**: the names that lead to it from the root. -/
abbrev Location := List Name

/-- Contents are compared as the core library compares byte arrays. -/
local instance decEqDiskContent : DecidableEq ByteArray :=
  ByteArray.instDecidableEq

/-- **What is at a location.** -/
inductive DiskNode where
  | file (content : ByteArray) (modTime : Time)
  | dir (modTime : Time)
  /-- A link, with the path it stands for. -/
  | link (target : List UInt8) (modTime : Time)
  deriving DecidableEq

namespace DiskNode

/-- Whether the node is a directory. A link to one is not. -/
def isDir : DiskNode → Bool
  | dir _ => true
  | _ => false

/-- The last change of the node. -/
def modTime : DiskNode → Time
  | file _ time => time
  | dir time => time
  | link _ time => time

end DiskNode

/-- **The content of a disk.** -/
structure Disk where
  /-- The nodes by location. -/
  nodes : Std.ExtTreeMap Location DiskNode

namespace Disk

/-- A disk with nothing but its root. -/
def blank (time : Time) : Disk :=
  ⟨(∅ : Std.ExtTreeMap Location DiskNode).insert [] (.dir time)⟩

/-- The node at a location. -/
def node? (disk : Disk) (location : Location) : Option DiskNode :=
  disk.nodes[location]?

/-- **A tree**: the root is a directory, and whatever is elsewhere has a
proper name and stands in a directory. -/
def IsTree (disk : Disk) : Prop :=
  (∃ time, disk.node? [] = some (.dir time)) ∧
    ∀ location name node, disk.node? (location ++ [name]) = some node →
      Name.IsProper name ∧ ∃ time, disk.node? location = some (.dir time)

/-- A disk with nothing but its root is a tree. -/
theorem isTree_blank (time : Time) : (blank time).IsTree := by
  have hnode : ∀ location, (blank time).node? location =
      if [] = location then some (.dir time) else none := by
    intro location
    simp [blank, node?, Std.ExtTreeMap.getElem?_insert]
  refine ⟨⟨time, by simp [hnode]⟩, ?_⟩
  intro location name node h
  simp [hnode] at h

/-- The disk with a node put at a location. -/
def insert (disk : Disk) (location : Location) (node : DiskNode) : Disk :=
  ⟨disk.nodes.insert location node⟩

/-- The name of `location` in `dir`, if that is where it stands. -/
def nameIn? (dir location : Location) : Option Name :=
  if location.dropLast = dir then location.getLast? else none

/-- **The names in a directory**, in byte order. -/
def names (disk : Disk) (dir : Location) : List Name :=
  disk.nodes.keys.filterMap (nameIn? dir)

theorem nameIn?_eq_some_iff {dir location : Location} {name : Name} :
    nameIn? dir location = some name ↔ location = dir ++ [name] := by
  constructor
  · intro h
    unfold nameIn? at h
    split at h
    · next hdir =>
      obtain ⟨front, rfl⟩ := List.getLast?_eq_some_iff.1 h
      rw [← hdir, List.dropLast_concat]
    · cases h
  · rintro rfl
    simp [nameIn?]

theorem mem_names {disk : Disk} {dir : Location} {name : Name} :
    name ∈ disk.names dir ↔ (disk.node? (dir ++ [name])).isSome := by
  simp only [names, List.mem_filterMap, nameIn?_eq_some_iff, node?]
  constructor
  · rintro ⟨_, hmem, rfl⟩
    simpa using hmem
  · intro h
    exact ⟨_, by simpa using h, rfl⟩

/-- **Everything beneath a location**, in depth-first order. -/
def beneath (disk : Disk) (dir : Location) : List (Location × DiskNode) :=
  disk.nodes.toList.filter fun pair =>
    dir.isPrefixOf pair.1 && dir != pair.1

/-- The disk without what is at or beneath a location. -/
def prune (disk : Disk) (location : Location) : Disk :=
  ⟨disk.nodes.filter fun key _ => !location.isPrefixOf key⟩

/-- The disk without what is beneath a location. -/
def clear (disk : Disk) (location : Location) : Disk :=
  ⟨disk.nodes.filter fun key _ => !location.isPrefixOf key || location == key⟩

theorem node?_insert (disk : Disk) (location other : Location)
    (node : DiskNode) :
    (disk.insert location node).node? other =
      if location = other then some node else disk.node? other := by
  simp [node?, insert, Std.ExtTreeMap.getElem?_insert]

theorem node?_prune (disk : Disk) (location other : Location) :
    (disk.prune location).node? other =
      if location <+: other then none else disk.node? other := by
  simp only [node?, prune, Std.ExtTreeMap.getElem?_filter,
    Std.ExtTreeMap.getKey_eq, Option.pfilter_eq_filter]
  cases disk.nodes[other]? with
  | none => simp
  | some node =>
    simp only [Option.filter, Bool.not_eq_true', ← Bool.not_eq_true,
      List.isPrefixOf_iff_prefix]
    by_cases h : location <+: other <;> simp [h]

theorem node?_clear (disk : Disk) (location other : Location) :
    (disk.clear location).node? other =
      if location <+: other ∧ location ≠ other then none
      else disk.node? other := by
  simp only [node?, clear, Std.ExtTreeMap.getElem?_filter,
    Std.ExtTreeMap.getKey_eq, Option.pfilter_eq_filter]
  cases disk.nodes[other]? with
  | none => simp
  | some node =>
    simp only [Option.filter, Bool.or_eq_true, Bool.not_eq_true',
      beq_iff_eq, ← Bool.not_eq_true, List.isPrefixOf_iff_prefix]
    by_cases h : location <+: other <;> by_cases he : location = other <;>
      simp [h, he]

/-- **The disk with what is at or beneath `source` taken to `dest`**, in
place of what was there. -/
def graft (disk : Disk) (source dest : Location) : Disk :=
  let moved := disk.nodes.toList.filter fun pair => source.isPrefixOf pair.1
  moved.foldl
    (fun disk pair => disk.insert (dest ++ pair.1.drop source.length) pair.2)
    ((disk.prune source).prune dest)

end Disk
end PathStore
