import PathStore.Failure

/-!
# Notices

Walks and listings tell a log what they did. A **notice** is one such
line: its level, its words and the fields that go with it are functions
of what happened.
-/

namespace PathStore

/-- **What a walk hands to its visitor**: everything, or the files
alone. -/
inductive Scope where
  | everything
  | filesOnly
  deriving DecidableEq, Repr

/-- How urgent a notice is. -/
inductive Level where
  | debug
  | trace
  | warn
  deriving DecidableEq, Repr

/-- **One line of the log.** -/
inductive Notice where
  | started (scope : Scope) (driver origin : String)
  | finished (scope : Scope) (driver origin : String)
  /-- A visitor stopped the walk at a file. -/
  | stopped (driver origin place : String)
  /-- A visitor left out what is beneath this directory. -/
  | prunedDirectory (path : String)
  /-- A path that had been listed was gone when it was asked for. -/
  | vanished (path : String)
  /-- A directory on disk holds a name no path can address. -/
  | unaddressable (place : String)
  deriving DecidableEq, Repr

namespace Notice

/-- The level of a notice. -/
def level : Notice → Level
  | started .. | finished .. | stopped .. | prunedDirectory _ => .debug
  | vanished _ => .trace
  | unaddressable _ => .warn

/-- The words of a notice. -/
def message : Notice → String
  | started .everything .. => "walk started"
  | started .filesOnly .. => "file walk started"
  | finished .everything .. => "walk finished"
  | finished .filesOnly .. => "file walk finished"
  | stopped .. => "walk stopped early"
  | prunedDirectory _ => "pruned directory"
  | vanished _ => "listed path vanished before stat; skipping"
  | unaddressable _ => "skipping entry with unaddressable name"

/-- The fields of a notice, by name. -/
def fields : Notice → List (String × String)
  | started _ driver origin | finished _ driver origin =>
    [("driver", driver), ("from", origin)]
  | stopped driver origin place =>
    [("driver", driver), ("from", origin), ("at", place)]
  | prunedDirectory path | vanished path | unaddressable path =>
    [("path", path)]

end Notice
end PathStore
