/-!
# Refusals of a disk

A disk call that cannot be carried out says why by one of the causes
below. Each cause has a **kind**, a number and a text; the kind is what
callers tell causes apart by, the text is what they print.

One cause is not the system's own: a path that holds a NUL byte cannot
be handed to it at all, so it is refused before any call, and carries no
number.
-/

namespace PathStore

/-- **The kind of a failed disk operation**, whoever reports it. -/
inductive FaultKind where
  | notFound
  | permissionDenied
  | alreadyExists
  | notADirectory
  | isADirectory
  | directoryNotEmpty
  | filesystemLoop
  | invalidFilename
  | invalidInput
  | resourceBusy
  | timedOut
  | other
  deriving DecidableEq, Repr

/-- **Why a disk refuses a call.** -/
inductive DiskError where
  /-- Nothing is there, or a directory on the way is missing. -/
  | noEntry
  /-- The device failed. -/
  | broken
  /-- The caller is not allowed to do this. -/
  | denied
  /-- The call may not name a directory by `.` or `..`. -/
  | busy
  /-- Something is there already. -/
  | occupied
  /-- A directory was needed and something else is there. -/
  | notDirectory
  /-- Something other than a directory was needed. -/
  | isDirectory
  /-- The call makes no sense, such as moving a directory into itself. -/
  | invalid
  /-- A name or the whole path is over the limit. -/
  | nameTooLong
  /-- A directory that must be empty is not. -/
  | notEmpty
  /-- Too many links had to be opened. -/
  | tooManyLinks
  /-- The path holds a NUL byte. -/
  | nulByte
  deriving DecidableEq, Repr

namespace DiskError

/-- The kind callers see. -/
def kind : DiskError → FaultKind
  | noEntry => .notFound
  | broken => .other
  | denied => .permissionDenied
  | busy => .resourceBusy
  | occupied => .alreadyExists
  | notDirectory => .notADirectory
  | isDirectory => .isADirectory
  | invalid => .invalidInput
  | nameTooLong => .invalidFilename
  | notEmpty => .directoryNotEmpty
  | tooManyLinks => .filesystemLoop
  | nulByte => .invalidInput

/-- The system's number of the cause, where it is one of the system's. -/
def code? : DiskError → Option Nat
  | noEntry => some 2
  | broken => some 5
  | denied => some 13
  | busy => some 16
  | occupied => some 17
  | notDirectory => some 20
  | isDirectory => some 21
  | invalid => some 22
  | nameTooLong => some 36
  | notEmpty => some 39
  | tooManyLinks => some 40
  | nulByte => none

/-- The cause in words. -/
def text : DiskError → String
  | noEntry => "No such file or directory"
  | broken => "Input/output error"
  | denied => "Permission denied"
  | busy => "Device or resource busy"
  | occupied => "File exists"
  | notDirectory => "Not a directory"
  | isDirectory => "Is a directory"
  | invalid => "Invalid argument"
  | nameTooLong => "File name too long"
  | notEmpty => "Directory not empty"
  | tooManyLinks => "Too many levels of symbolic links"
  | nulByte => "file name contained an unexpected NUL byte"

/-- **Only a missing entry is of the kind of what is not found.** -/
theorem kind_eq_notFound_iff {cause : DiskError} :
    cause.kind = .notFound ↔ cause = .noEntry := by
  cases cause <;> decide

/-- The cause as it is printed, with its number where it has one. -/
def message (cause : DiskError) : String :=
  match cause.code? with
  | some code => cause.text ++ " (os error " ++ toString code ++ ")"
  | none => cause.text

end DiskError
end PathStore
