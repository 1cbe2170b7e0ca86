import PathStore.Context
import PathStore.Path

/-!
# Admission to a store

Before a store is touched, two things are asked in this order: whether
the context is live, and whether the path is well-formed. Both drivers
ask them first of every operation, so an operation that is not admitted
has no effect.
-/

namespace PathStore

/-- Refuses a malformed path, in the name of a driver. -/
def Path.validate (path driver : String) : Except Failure Unit :=
  if Path.isValid path then .ok () else .error (.invalidPath path driver)

/-- **Admission of an operation on a path**: a live context, then a
well-formed path. -/
def permit (status : Status) (path driver : String) : Except Failure Unit :=
  match status.check with
  | .error cause => .error cause
  | .ok () => Path.validate path driver

@[simp] theorem permit_live (path driver : String) :
    permit .live path driver = Path.validate path driver := rfl

end PathStore
