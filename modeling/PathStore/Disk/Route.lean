import PathStore.Disk.Error
import PathStore.Disk.Tree

/-!
# Finding the way on a disk

A path on disk is bytes, divided by slashes. Its pieces are names, `.`
for the directory reached so far, and `..` for the one above it; a slash
at the end asks that what the path leads to is a directory. A relative
path starts at the root of the disk.

**Following** a path goes from directory to directory. A link on the way
is opened: its own pieces are followed first, from the directory it
stands in, and then those that were left. Links may lead in circles, so
only so many are opened. At the end of the path three manners differ in
what they do with the last piece, see `Manner`.

The order in which obstacles are met decides which of several is
reported, so it is part of the rules: what is not a directory is found
out before the next piece is looked at, and a name over the limit when
its turn comes.
-/

namespace PathStore

/-- **A path on disk**, in bytes. -/
abbrev DiskPath := List UInt8

namespace DiskPath

/-- The byte that divides the pieces of a path. -/
def slash : UInt8 := 0x2F

/-- **A piece of a path.** -/
inductive Piece where
  /-- The directory reached so far. -/
  | here
  /-- The directory above it. -/
  | up
  | name (name : Name)
  /-- A slash at the end: what has been reached must be a directory. -/
  | slash
  deriving DecidableEq, Repr

/-- The piece that is written by these bytes. -/
def Piece.ofBytes (bytes : List UInt8) : Piece :=
  if bytes = [0x2E] then .here
  else if bytes = [0x2E, 0x2E] then .up
  else .name bytes

/-- Whether a path starts at the root of the disk. -/
def isAbsolute (path : DiskPath) : Bool := path.head? == some slash

/-- The pieces of a path that stand between slashes. Several slashes in
a row count as one. -/
def plainPieces (path : DiskPath) : List Piece :=
  ((path.splitOn slash).filter fun bytes => !bytes.isEmpty).map Piece.ofBytes

/-- **The pieces of a path**, and a slash at its end as the last of
them. -/
def pieces (path : DiskPath) : List Piece :=
  if path.getLast? = some slash ∧ path.plainPieces ≠ [] then
    path.plainPieces ++ [.slash]
  else path.plainPieces

/-- The length from which on a path is refused as a whole, in bytes. -/
def pathLimit : Nat := 4096

/-- The number of links that may be opened on one way. -/
def linkLimit : Nat := 40

/-- **What is refused before any directory is looked at.** -/
def precheck (path : DiskPath) : Except DiskError Unit :=
  if path.contains 0 then .error .nulByte
  else if path = [] then .error .noEntry
  else if pathLimit ≤ path.length then .error .nameTooLong
  else .ok ()

end DiskPath

open DiskPath (Piece)

namespace Disk

/-- **What to do with the last piece** of a path. -/
inductive Manner where
  /-- Open it if it is a link. -/
  | follow
  /-- Leave it if it is a link, unless a slash behind it asks for a
  directory. -/
  | stay
  /-- Open it if it is a link, and refuse a slash behind it: it is to
  be a file. -/
  | create
  deriving DecidableEq, Repr

/-- **Where a path leads**: to a node that is there, or to a name that is
free in a directory. -/
inductive Spot where
  | found (location : Location)
  | vacant (dir : Location) (name : Name)
  deriving DecidableEq, Repr

/-- **How far a path leads without opening a link**: to a spot, or to a
link in `dir` that stands before the pieces that are left. -/
inductive Reach where
  | arrived (spot : Spot)
  | link (dir : Location) (target : DiskPath) (rest : List Piece)
  deriving DecidableEq, Repr

/-- **Follows pieces from a location** up to the first link that has to be
opened. -/
def descend (disk : Disk) (manner : Manner) :
    Location → List Piece → Except DiskError Reach
  | dir, [] => .ok (.arrived (.found dir))
  | dir, piece :: rest =>
    match disk.node? dir with
    | none => .error .noEntry
    | some (.file ..) => .error .notDirectory
    | some (.link ..) => .error .notDirectory
    | some (.dir _) =>
      match piece with
      | .here => descend disk manner dir rest
      | .slash => descend disk manner dir rest
      | .up => descend disk manner dir.dropLast rest
      | .name name =>
        if manner = .create ∧ rest = [.slash] then .error .isDirectory
        else if nameLimit < name.length then .error .nameTooLong
        else
          match disk.node? (dir ++ [name]) with
          | none =>
            if rest = [] then .ok (.arrived (.vacant dir name))
            else .error .noEntry
          | some (.link target _) =>
            if rest = [] ∧ manner = .stay then
              .ok (.arrived (.found (dir ++ [name])))
            else .ok (.link dir target rest)
          | some _ => descend disk manner (dir ++ [name]) rest

/-- Where the pieces of a path begin, if it is met in `dir`. -/
def origin (path : DiskPath) (dir : Location) : Location :=
  if path.isAbsolute then [] else dir

/-- **Follows pieces from a location**, opening as many links as it may. -/
def follow (disk : Disk) (manner : Manner) :
    (links : Nat) → Location → List Piece → Except DiskError Spot
  | links, dir, pieces =>
    match disk.descend manner dir pieces with
    | .error cause => .error cause
    | .ok (.arrived spot) => .ok spot
    | .ok (.link dir target rest) =>
      match links with
      | 0 => .error .tooManyLinks
      | links + 1 =>
        follow disk manner links (origin target dir) (target.pieces ++ rest)

/-- **Where a path leads.** -/
def spot (disk : Disk) (manner : Manner) (path : DiskPath) :
    Except DiskError Spot :=
  match path.precheck with
  | .error cause => .error cause
  | .ok () => disk.follow manner DiskPath.linkLimit [] path.pieces

/-- **The location of what is at a path**, which must be there. -/
def locate (disk : Disk) (manner : Manner) (path : DiskPath) :
    Except DiskError Location :=
  match disk.spot manner path with
  | .error cause => .error cause
  | .ok (.found location) => .ok location
  | .ok (.vacant ..) => .error .noEntry

/-- **What the last piece of a path says**, where a call is about the
entry in a directory and not about what the entry leads to. -/
inductive Last where
  /-- A name, and whether a slash stands behind it. -/
  | name (name : Name) (slash : Bool)
  | here
  | up
  /-- The path has no pieces, so it is the root. -/
  | root
  deriving DecidableEq, Repr

/-- The last of the pieces of a path, and those before it. -/
def splitLast (path : DiskPath) : List Piece × Last :=
  let plain := path.plainPieces
  (plain.dropLast,
    match plain.getLast? with
    | some (.name name) =>
      .name name (path.getLast? == some DiskPath.slash)
    | some .up => .up
    | some _ => .here
    | none => .root)

/-- **The directory a path's last piece stands in**, and that piece. -/
def entry (disk : Disk) (path : DiskPath) :
    Except DiskError (Location × Last) :=
  match path.precheck with
  | .error cause => .error cause
  | .ok () =>
    let (front, last) := splitLast path
    match disk.follow .follow DiskPath.linkLimit [] (front ++ [.slash]) with
    | .error cause => .error cause
    | .ok (.found dir) => .ok (dir, last)
    | .ok (.vacant ..) => .error .noEntry

end Disk
end PathStore
