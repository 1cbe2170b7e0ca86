import PathStore.Disk.Calls
import PathStore.Disk.Place
import PathStore.Failure

/-!
# Scanners

A directory is not read by the store that is made of it. A **scanner** is given
a place, to go through what is there one level deep, by the order of names and
without opening a link but the place itself. What comes of a scan is a list of
**findings**, the place itself among them, and of **reports** of what went
wrong.

How a scanner goes about it is its own affair, so it is a parameter of all that
lists. `Scanner.barred` is one, for a disk some of whose directories cannot be
read.
-/

namespace PathStore

/-- **What a scanner reports** of what went wrong. -/
inductive Report where
  /-- A report on a place. -/
  | about (place : Place) (report : Report)
  /-- A report from some levels down. -/
  | level (depth : Nat) (report : Report)
  /-- A fault of the disk, as it came. -/
  | disk (fault : DiskFault)
  /-- Anything else in words, with the kind of the fault that it comes from, if
  it comes from one. -/
  | other (kind? : Option FaultKind) (words : String)
  deriving DecidableEq, Repr

namespace Report

/-- The kind of the fault that is reported, if it is one. -/
def kind? : Report → Option FaultKind
  | about _ report => report.kind?
  | level _ report => report.kind?
  | disk fault => some fault.kind
  | other kind? _ => kind?

/-- The report in words. Places are told, levels are not. -/
def words : Report → String
  | about place report => place ++ ": " ++ report.words
  | level _ report => report.words
  | disk fault => fault.message
  | other _ words => words

/-- **The report that a place cannot be looked at.** It is told of the place,
and in its words once more. -/
def refused (place : Place) (cause : DiskError) : Report :=
  .about place (.level 0 (.disk (.reported cause.kind
    ("IO error for operation on " ++ place ++ ": " ++ cause.message))))

@[simp] theorem kind?_refused (place : Place) (cause : DiskError) :
    (refused place cause).kind? = some cause.kind := rfl

end Report

/-- **What a scanner finds**: how many levels down, by which name, and the place
of it. -/
structure Finding where
  depth : Nat
  name : Name
  place : Place
  deriving DecidableEq, Repr

namespace Finding

/-- A place itself, of which nobody asks the name. -/
def start (place : Place) : Finding := ⟨0, place.toDiskPath, place⟩

/-- What has this name in the directory at a place. -/
def entry (place : Place) (name : Name) : Finding :=
  ⟨1, name, place.join (Text.decode name)⟩

end Finding

/-- **A scanner**: what comes of a scan of a place on a disk. -/
structure Scanner where
  scan : Disk → Place → List (Except Report Finding)

namespace Scanner

/-- **A scanner of a disk some of whose directories are barred.** It takes `-`
for the standard input, as tools do that are told places by their user. -/
def barred (bar : Location → Option DiskError) : Scanner where
  scan disk place :=
    if place.isStandardInput then [.ok (.start "<stdin>")]
    else
      match disk.stat place.toDiskPath with
      | .error cause => [.error (.refused place cause)]
      | .ok (.dir _) =>
        .ok (.start place) ::
          match disk.readDirectory bar place.toDiskPath with
          | .error cause => [.error (.refused place cause)]
          | .ok names => names.map fun name => .ok (.entry place name)
      | .ok _ => [.ok (.start place)]

/-- A scanner of a disk on which everything can be read. -/
def free : Scanner := barred fun _ => none

end Scanner
end PathStore
