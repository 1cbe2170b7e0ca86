import PathStore.Failure
import PathStore.Text.Blank
import Std.Data.ExtTreeMap

/-!
# Setting up a store

A **setup** is the name of a driver and its parameters. Building it says
which backend it describes, or why it describes none. The store in
memory takes no parameters; a directory on disk needs
`rootdirectory`, blanks at whose ends do not count. Parameters a driver
does not know are ignored.
-/

namespace PathStore

/-- **A backend**, as a setup describes it. -/
inductive Backend where
  /-- A store in memory. -/
  | memory
  /-- A directory on disk. -/
  | directory (root : String)
  deriving DecidableEq, Repr

/-- **A driver's name and its parameters.** -/
structure Setup where
  driver : String
  parameters : Std.ExtTreeMap String String

namespace Setup

/-- The setup of a driver without parameters. -/
def ofDriver (driver : String) : Setup := ⟨driver, ∅⟩

/-- Gives a parameter a value, in place of any earlier one. -/
def parameter (setup : Setup) (key value : String) : Setup :=
  { setup with parameters := setup.parameters.insert key value }

/-- Gives several parameters their values, in turn. -/
def withParameters (setup : Setup) (pairs : List (String × String)) : Setup :=
  pairs.foldl (fun setup pair => setup.parameter pair.1 pair.2) setup

/-- **The value of a parameter the driver cannot do without**, trimmed. -/
def required (setup : Setup) (key : String) : Except Failure String :=
  match setup.parameters[key]? with
  | none => .error (.invalidParameter key (.requiredBy setup.driver))
  | some value =>
    let trimmed := Text.trim value
    if trimmed = "" then .error (.invalidParameter key .empty)
    else .ok trimmed

/-- **The backend a setup describes.** -/
def build (setup : Setup) : Except Failure Backend :=
  if setup.driver = "inmemory" then .ok .memory
  else if setup.driver = "filesystem" then
    match setup.required "rootdirectory" with
    | .error cause => .error cause
    | .ok root => .ok (.directory root)
  else .error (.unknownDriver setup.driver)

end Setup
end PathStore
