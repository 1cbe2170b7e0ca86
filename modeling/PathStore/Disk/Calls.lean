import PathStore.Disk.Route

/-!
# Calls on a disk

What a program can ask of a disk: to tell what is at a path, to read and
write files, to make, list and remove directories, to move and to link.
Every call takes a path, finds the way along it, and either does the
whole of its work or says why it cannot; the exception is the removal of
a directory, which empties it before it is known whether it can go
itself.

A call about an **entry** of a directory – making, moving or removing
one – does not open a link at the end of its path: it is the link that
is moved or removed. A call about a **node** opens it.
-/

namespace PathStore
namespace Disk

/-- The answer of a call that leaves the disk as it was. -/
abbrev Answer (α : Type) := Except DiskError α

/-- **What is at a path**, through a link at its end. -/
def stat (disk : Disk) (path : DiskPath) : Answer DiskNode :=
  match disk.locate .follow path with
  | .error cause => .error cause
  | .ok location =>
    match disk.node? location with
    | some node => .ok node
    | none => .error .noEntry

/-- **What is at a path**, where a link at its end is told about itself. -/
def lstat (disk : Disk) (path : DiskPath) : Answer DiskNode :=
  match disk.locate .stay path with
  | .error cause => .error cause
  | .ok location =>
    match disk.node? location with
    | some node => .ok node
    | none => .error .noEntry

/-- Whether a path leads to a directory. -/
def isDirectory (disk : Disk) (path : DiskPath) : Bool :=
  match disk.stat path with
  | .ok (.dir _) => true
  | _ => false

/-- **The content of the file at a path.** -/
def read (disk : Disk) (path : DiskPath) : Answer ByteArray :=
  match disk.stat path with
  | .error cause => .error cause
  | .ok (.file content _) => .ok content
  | .ok _ => .error .isDirectory

/-- **The names in the directory at a path**, in byte order. A directory that
can be found may still be barred to the caller, or damaged. -/
def readDirectory (disk : Disk) (barred : Location → Option DiskError)
    (path : DiskPath) : Answer (List Name) :=
  match disk.locate .follow path with
  | .error cause => .error cause
  | .ok location =>
    match disk.node? location with
    | some (.dir _) =>
      match barred location with
      | some cause => .error cause
      | none => .ok (disk.names location)
    | some _ => .error .notDirectory
    | none => .error .noEntry

/-- **Writes a file**, new or in place of what it held. A link is written
through, also one that leads to a name that is still free. -/
def write (now : Time) (path : DiskPath) (content : ByteArray)
    (disk : Disk) : Answer Unit × Disk :=
  match disk.spot .create path with
  | .error cause => (.error cause, disk)
  | .ok (.vacant dir name) =>
    (.ok (), disk.insert (dir ++ [name]) (.file content now))
  | .ok (.found location) =>
    match disk.node? location with
    | some (.file ..) => (.ok (), disk.insert location (.file content now))
    | _ => (.error .isDirectory, disk)

/-- **Makes a directory** where nothing is, not even a link. -/
def makeDirectory (now : Time) (path : DiskPath) (disk : Disk) :
    Answer Unit × Disk :=
  match disk.entry path with
  | .error cause => (.error cause, disk)
  | .ok (dir, .name name _) =>
    if nameLimit < name.length then (.error .nameTooLong, disk)
    else
      match disk.node? (dir ++ [name]) with
      | some _ => (.error .occupied, disk)
      | none => (.ok (), disk.insert (dir ++ [name]) (.dir now))
  | .ok _ => (.error .occupied, disk)

/-- **Makes the first of a list of directories, and those after it that it
needs**: where each stands in the next, the last must be there or be
possible to make. The directories made on the way stay if the first
cannot be made. -/
def makeDirectories (now : Time) :
    List DiskPath → Disk → Answer Unit × Disk
  | [], disk => (.ok (), disk)
  | path :: outer, disk =>
    match disk.makeDirectory now path with
    | (.ok (), disk) => (.ok (), disk)
    | (.error .noEntry, disk) =>
      match makeDirectories now outer disk with
      | (.error cause, disk) => (.error cause, disk)
      | (.ok (), disk) =>
        match disk.makeDirectory now path with
        | (.ok (), disk) => (.ok (), disk)
        | (.error cause, disk) =>
          if disk.isDirectory path then (.ok (), disk)
          else (.error cause, disk)
    | (.error cause, disk) =>
      if disk.isDirectory path then (.ok (), disk) else (.error cause, disk)

/-- **Makes a link** that stands for a path, which need not lead
anywhere. -/
def makeLink (now : Time) (target path : DiskPath) (disk : Disk) :
    Answer Unit × Disk :=
  match target.precheck with
  | .error cause => (.error cause, disk)
  | .ok () =>
    match disk.entry path with
    | .error cause => (.error cause, disk)
    | .ok (dir, .name name trailing) =>
      if nameLimit < name.length then (.error .nameTooLong, disk)
      else
        match disk.node? (dir ++ [name]) with
        | some _ => (.error .occupied, disk)
        | none =>
          if trailing then (.error .noEntry, disk)
          else (.ok (), disk.insert (dir ++ [name]) (.link target now))
    | .ok _ => (.error .occupied, disk)

/-- **Removes a file or a link.** -/
def removeFile (path : DiskPath) (disk : Disk) : Answer Unit × Disk :=
  match disk.entry path with
  | .error cause => (.error cause, disk)
  | .ok (dir, .name name trailing) =>
    if nameLimit < name.length then (.error .nameTooLong, disk)
    else
      match disk.node? (dir ++ [name]) with
      | none => (.error .noEntry, disk)
      | some node =>
        if node.isDir then (.error .isDirectory, disk)
        else if trailing then (.error .notDirectory, disk)
        else (.ok (), disk.prune (dir ++ [name]))
  | .ok _ => (.error .isDirectory, disk)

/-- **Removes an empty directory**, by its name: neither `.` nor `..`
will do. -/
def removeDirectory (path : DiskPath) (disk : Disk) : Answer Unit × Disk :=
  match disk.entry path with
  | .error cause => (.error cause, disk)
  | .ok (_, .here) => (.error .invalid, disk)
  | .ok (_, .up) => (.error .notEmpty, disk)
  | .ok (_, .root) => (.error .busy, disk)
  | .ok (dir, .name name _) =>
    if nameLimit < name.length then (.error .nameTooLong, disk)
    else
      match disk.node? (dir ++ [name]) with
      | none => (.error .noEntry, disk)
      | some node =>
        if node.isDir then
          if (disk.names (dir ++ [name])).isEmpty then
            (.ok (), disk.prune (dir ++ [name]))
          else (.error .notEmpty, disk)
        else (.error .notDirectory, disk)

/-- **Removes a directory with all that is beneath it.** Links beneath it
are removed and not opened. What is beneath goes first, so it is gone
even where the directory itself cannot be removed by this path. A path
that led through what was beneath leads nowhere then, and the directory
stays, empty; that counts as success. -/
def removeTree (path : DiskPath) (disk : Disk) : Answer Unit × Disk :=
  match disk.locate .stay path with
  | .error cause => (.error cause, disk)
  | .ok location =>
    match disk.node? location with
    | some (.dir _) =>
      match (disk.clear location).removeDirectory path with
      | (.error .noEntry, disk) => (.ok (), disk)
      | answer => answer
    | _ => (.error .notDirectory, disk)

/-- **Whether an entry may be moved** onto what is at another place. A
directory may take the place of an empty directory only, and anything
else of anything else. -/
def mayReplace (disk : Disk) (source : DiskNode) (dest : Location) :
    Answer Unit :=
  match disk.node? dest with
  | none => .ok ()
  | some target =>
    match source.isDir, target.isDir with
    | true, false => .error .notDirectory
    | false, true => .error .isDirectory
    | true, true =>
      if (disk.names dest).isEmpty then .ok () else .error .notEmpty
    | false, false => .ok ()

/-- **Moves an entry to another place**, over what may be replaced there.
A directory cannot be moved beneath itself, and nothing can be moved
over a directory it stands in. An entry is moved onto itself by doing
nothing. -/
def move (source dest : DiskPath) (disk : Disk) : Answer Unit × Disk :=
  match disk.entry source with
  | .error cause => (.error cause, disk)
  | .ok (fromDir, fromLast) =>
    match disk.entry dest with
    | .error cause => (.error cause, disk)
    | .ok (toDir, toLast) =>
      match fromLast, toLast with
      | .name fromName fromSlash, .name toName toSlash =>
        if nameLimit < fromName.length then
          (.error .nameTooLong, disk)
        else
          match disk.node? (fromDir ++ [fromName]) with
          | none => (.error .noEntry, disk)
          | some node =>
            if nameLimit < toName.length then
              (.error .nameTooLong, disk)
            else if !node.isDir && (fromSlash || toSlash) then
              (.error .notDirectory, disk)
            else if (fromDir ++ [fromName]).isPrefixOf toDir then
              (.error .invalid, disk)
            else if (toDir ++ [toName]).isPrefixOf fromDir then
              (.error .notEmpty, disk)
            else if fromDir ++ [fromName] = toDir ++ [toName] then
              (.ok (), disk)
            else
              match disk.mayReplace node (toDir ++ [toName]) with
              | .error cause => (.error cause, disk)
              | .ok () =>
                (.ok (), disk.graft (fromDir ++ [fromName]) (toDir ++ [toName]))
      | _, _ => (.error .busy, disk)

end Disk
end PathStore
