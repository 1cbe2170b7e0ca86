import PathStore.Disk.Error

/-!
# Failures

Every operation of a store, every context check and every walk fails
with a `Failure`. A failure is a **cause** with the values that belong
to it; its wording is decided in one place, `Failure.message`.

Two causes matter to a walk. `notFound`, answered by a stat, means that
a listed path has gone and is passed over. `pruned` is not a failure of
any store: it is how a walk of the files alone says that a visitor
stopped it.
-/

namespace PathStore

/-- **What stopped a disk operation**: the disk's own refusal, or a
report made elsewhere in words of its own. -/
inductive DiskFault where
  | refused (cause : DiskError)
  | reported (kind : FaultKind) (text : String)
  deriving DecidableEq, Repr

namespace DiskFault

/-- The kind of the fault. -/
def kind : DiskFault → FaultKind
  | refused cause => cause.kind
  | reported kind _ => kind

/-- The fault in words. -/
def message : DiskFault → String
  | refused cause => cause.message
  | reported _ text => text

end DiskFault

/-- **Why a parameter of a setup is refused.** -/
inductive ParameterFault where
  /-- The value is blank. -/
  | empty
  /-- The parameter is missing, and this driver cannot do without. -/
  | requiredBy (driver : String)
  | reported (reason : String)
  deriving DecidableEq, Repr

/-- The reason in words. -/
def ParameterFault.message : ParameterFault → String
  | empty => "must not be empty"
  | requiredBy driver => "required by the " ++ driver ++ " driver"
  | reported reason => reason

/-- **A fault a driver finds in its own state.** -/
inductive DriverFault where
  /-- Content was asked of a directory, or put over one. -/
  | isDirectory (driver path : String)
  /-- A path leads through a file. -/
  | notDirectory (driver path : String)
  /-- A directory on disk could not be listed, for what is said in words, of a
  place or in general. -/
  | unlisted (driver : String) (place? : Option String) (words : String)
  | reported (text : String)
  deriving DecidableEq, Repr

/-- The fault in words. -/
def DriverFault.message : DriverFault → String
  | isDirectory driver path => driver ++ ": " ++ path ++ " is a directory"
  | notDirectory driver path =>
    driver ++ ": " ++ path ++ " is not a directory"
  | unlisted driver (some place) words =>
    driver ++ ": " ++ place ++ ": " ++ words
  | unlisted driver none words => driver ++ ": " ++ words
  | reported text => text

/-- **A failure** of a store, a context, a walk or a setup. -/
inductive Failure where
  /-- Nothing is stored at the path. -/
  | notFound (path driver : String)
  /-- The path is malformed, or not one the operation may name. -/
  | invalidPath (path driver : String)
  /-- A visitor stopped a walk of the files at this one. -/
  | pruned (path : String)
  | cancelled
  | deadlineExceeded
  /-- A disk operation failed at this place on disk. -/
  | disk (place : String) (fault : DiskFault)
  | unsupported (driver operation : String)
  | invalidParameter (name : String) (fault : ParameterFault)
  | unknownDriver (name : String)
  /-- A driver found a fault in its own state. -/
  | backend (fault : DriverFault)
  deriving DecidableEq, Repr

namespace Failure

/-- **The wording of every failure.** -/
def message : Failure → String
  | notFound path driver => "path not found: " ++ path ++ " (" ++ driver ++ ")"
  | invalidPath path driver => "invalid path: " ++ path ++ " (" ++ driver ++ ")"
  | pruned path => "walk stopped at " ++ path
  | cancelled => "context cancelled"
  | deadlineExceeded => "context deadline exceeded"
  | disk place _ => "IO error at " ++ place
  | unsupported driver operation =>
    driver ++ ": unsupported operation " ++ operation
  | invalidParameter name fault =>
    "invalid parameter " ++ name ++ ": " ++ fault.message
  | unknownDriver name => "unknown storage driver: " ++ name
  | backend fault => "driver error: " ++ fault.message

/-- The path of the store at which the failure arose. A place on disk is
no path of the store. -/
def path? : Failure → Option String
  | notFound path _ | invalidPath path _ | pruned path => some path
  | _ => none

/-- Whether the path simply held nothing. -/
def isNotFound : Failure → Bool
  | notFound .. => true
  | _ => false

/-- Whether the failure is a visitor's wish to stop. -/
def isPruned : Failure → Bool
  | pruned _ => true
  | _ => false

/-- The words of the cause beneath the failure, where there is one. -/
def source? : Failure → Option String
  | disk _ fault => some fault.message
  | _ => none

end Failure
end PathStore
