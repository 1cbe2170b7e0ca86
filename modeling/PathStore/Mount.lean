import PathStore.Admission
import PathStore.Disk.Scanner
import PathStore.Walk

/-!
# A directory on disk as a store

A `Mount` uses one directory of a disk, its **root**, as a store: the
path `/a/b` of the store is the place `root/a/b` on disk, and the top is
the root itself. The root is made by the first file that is stored.

Places are made from paths by letters alone. `.` and `..` are segments
like any other to the store, and mean to the disk what they always mean
there, so a path of the store may lead out of the root.

## What is passed on of a disk's refusals

That nothing is at the place of a path is reported of the path, any other
refusal of the place. Two operations differ. Making the directories a
file needs is reported of the innermost of them, whatever the refusal.
Listing goes by what a scanner reports: what is missing is passed over, so that
nothing is listed where nothing is, and any other report ends it.

## Names

A name on disk may be one no path can hold: it has a blank in it, or
bytes that are no text. Such names are left out of listings, with a
notice.
-/

namespace PathStore

/-- **A directory on disk that is used as a store.** -/
structure Mount where
  /-- The place of the directory, as it was given. -/
  root : String
  deriving DecidableEq, Repr

namespace Mount

/-- The name by which the store calls itself in failures. -/
def driver : String := "filesystem"

/-- **The place of a path.** -/
def place (mount : Mount) (path : String) : Place :=
  Place.join mount.root (String.ofList (path.toList.dropWhile (· == '/')))

/-- What is reported of a path when the disk refuses a call on its
place. -/
def refusal (path : String) (place : Place) (cause : DiskError) : Failure :=
  match cause with
  | .noEntry => .notFound path driver
  | cause => .disk place (.refused cause)

/-- **Makes the directories a place stands in.** -/
def makeEnclosing (now : Time) (place : Place) (disk : Disk) :
    Except Failure Unit × Disk :=
  match place.enclosing with
  | [] => (.ok (), disk)
  | parent :: outer =>
    match disk.makeDirectories now
        ((parent :: outer).map Place.toDiskPath) with
    | (.ok (), disk) => (.ok (), disk)
    | (.error cause, disk) => (.error (.disk parent (.refused cause)), disk)

/-! ## Operations -/

/-- **The content of a file.** -/
def read (mount : Mount) (status : Status) (path : String) (disk : Disk) :
    Except Failure ByteArray :=
  match permit status path driver with
  | .error cause => .error cause
  | .ok () =>
    let place := mount.place path
    match disk.read place.toDiskPath with
    | .error cause => .error (refusal path place cause)
    | .ok content => .ok content

/-- **Stores a file**, with the directories it needs. -/
def write (mount : Mount) (status : Status) (now : Time) (path : String)
    (content : ByteArray) (disk : Disk) : Except Failure Unit × Disk :=
  match permit status path driver with
  | .error cause => (.error cause, disk)
  | .ok () =>
    if path = "/" then (.error (.invalidPath path driver), disk)
    else
      let place := mount.place path
      match makeEnclosing now place disk with
      | (.error cause, disk) => (.error cause, disk)
      | (.ok (), disk) =>
        match disk.write now place.toDiskPath content with
        | (.error cause, disk) => (.error (refusal path place cause), disk)
        | (.ok (), disk) => (.ok (), disk)

/-- **What is at a path.** A link is told about itself: it is a file as
long as the path it stands for. -/
def stat (mount : Mount) (status : Status) (path : String) (disk : Disk) :
    Except Failure Entry :=
  match permit status path driver with
  | .error cause => .error cause
  | .ok () =>
    let place := mount.place path
    match disk.lstat place.toDiskPath with
    | .error cause => .error (refusal path place cause)
    | .ok (.dir time) => .ok ((Entry.dir path).withModTime time)
    | .ok (.file content time) =>
      .ok ((Entry.file path content.size).withModTime time)
    | .ok (.link target time) =>
      .ok ((Entry.file path target.length).withModTime time)

/-- **The path of what a scan found**, or the notice that no path can hold its
name. -/
def address (path : String) (finding : Finding) : Except Notice String :=
  let child := Path.join path (Text.decode finding.name)
  if Path.isValid child then .ok child
  else .error (.unaddressable finding.place)

/-- **What is reported of a path that cannot be listed.** A fault of the disk is
passed on as one, of the place that it is told of, or else of the place of the
path. Any other report is told in words. -/
def unlisted (place : Place) : Report → Failure
  | .about other (.disk fault) => .disk other fault
  | .about other report =>
    .backend (.unlisted driver (some other) report.words)
  | .disk fault => .disk place fault
  | report => .backend (.unlisted driver none report.words)

/-- **Gathers the children of a path from a scan of its place**, with the notices
of those that are left out. The place itself is passed over, and so is what has
gone by the time it is looked at; any other report ends the listing. -/
def gather (path : String) (place : Place) :
    List (Except Report Finding) → Except Failure (List String) × List Notice
  | [] => (.ok [], [])
  | .error report :: rest =>
    if report.kind? = some .notFound then gather path place rest
    else (.error (unlisted place report), [])
  | .ok finding :: rest =>
    if finding.depth = 0 then gather path place rest
    else
      let (answer, notices) := gather path place rest
      match address path finding with
      | .ok child => (answer.map (child :: ·), notices)
      | .error notice => (answer, notice :: notices)

/-- **The children of a path** whose names a path can hold, as a scanner comes to
them, and a notice for each of the other names. -/
def list (mount : Mount) (scanner : Scanner) (status : Status) (path : String)
    (disk : Disk) : Except Failure (List String) × List Notice :=
  match permit status path driver with
  | .error cause => (.error cause, [])
  | .ok () =>
    let place := mount.place path
    gather path place (scanner.scan disk place)

/-- **Moves what is at a path to another**, with the directories it needs
there, which stay even if it then cannot be moved. -/
def move (mount : Mount) (status : Status) (now : Time)
    (source dest : String) (disk : Disk) : Except Failure Unit × Disk :=
  match permit status source driver with
  | .error cause => (.error cause, disk)
  | .ok () =>
    match Path.validate dest driver with
    | .error cause => (.error cause, disk)
    | .ok () =>
      let start := mount.place source
      let goal := mount.place dest
      match disk.stat start.toDiskPath with
      | .error cause => (.error (refusal source start cause), disk)
      | .ok _ =>
        match makeEnclosing now goal disk with
        | (.error cause, disk) => (.error cause, disk)
        | (.ok (), disk) =>
          match disk.move start.toDiskPath goal.toDiskPath with
          | (.error cause, disk) =>
            (.error (refusal source start cause), disk)
          | (.ok (), disk) => (.ok (), disk)

/-- **Deletes what is at a path**, a directory with all beneath it. -/
def delete (mount : Mount) (status : Status) (path : String) (disk : Disk) :
    Except Failure Unit × Disk :=
  match permit status path driver with
  | .error cause => (.error cause, disk)
  | .ok () =>
    let place := mount.place path
    match disk.lstat place.toDiskPath with
    | .error cause => (.error (refusal path place cause), disk)
    | .ok node =>
      match (if node.isDir then disk.removeTree place.toDiskPath
        else disk.removeFile place.toDiskPath) with
      | (.error cause, disk) => (.error (refusal path place cause), disk)
      | (.ok (), disk) => (.ok (), disk)

/-! ## Walks -/

/-- **The surroundings of a walk of a mount** on a disk that is part of a
larger world: where to find the disk there, what scans it, and the status of the
context. -/
def host {σ : Type u} (mount : Mount) (scanner : Scanner) (disk : σ → Disk)
    (status : σ → Status)
    (visit : Entry → σ → Except Failure Verdict × σ)
    (note : Notice → σ → σ) : Host σ where
  driver := driver
  check w := ((status w).check, w)
  list path w :=
    let (answer, notices) := mount.list scanner (status w) path (disk w)
    (answer, notices.foldl (fun w notice => note notice w) w)
  stat path w := (mount.stat (status w) path (disk w), w)
  visit := visit
  note := note

end Mount
end PathStore
