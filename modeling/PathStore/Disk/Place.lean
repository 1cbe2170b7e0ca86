import PathStore.Disk.Route
import PathStore.Text.Lossy

/-!
# Places

Callers of a disk write its paths as text. Such a **place** is taken apart by
its letters where it is asked which directories it stands in, and by its bytes
where a call follows it.
-/

namespace PathStore

/-- **A place on disk**, as text. -/
abbrev Place := String

namespace Place

/-- The bytes by which the disk knows a place. -/
def toDiskPath (place : Place) : DiskPath := Text.encode place

/-- **A place in the directory at another.** One that starts at the root
of the disk is taken as it is. -/
def join (place : Place) (rest : String) : Place :=
  if rest.toList.head? = some '/' then rest
  else if place = "" ∨ place.toList.getLast? = some '/' then place ++ rest
  else place ++ "/" ++ rest

/-- Whether what is written between two slashes counts where a place is
taken apart by its letters. `..` does. -/
def counts (piece : List Char) : Bool := piece != [] && piece != ['.']

/-- **The stretches from the start of a list that end in a piece that
counts**, longest first, where the list is given in reverse. -/
def outward : List (List Char) → List (List (List Char))
  | [] => []
  | piece :: outer =>
    if counts piece then (piece :: outer) :: outward outer else outward outer

/-- **The directories a place stands in by its letters**, innermost
first. Slashes and `.` at the end of a place do not count, and `..` is a
piece like any other. -/
def enclosing (place : Place) : List Place :=
  ((outward (place.toList.splitOn '/').reverse).tail).map fun pieces =>
    String.ofList (['/'].intercalate pieces.reverse)

/-- **Whether a place is written as `-`**, slashes and `.` at its end aside. It
is how the standard input is called where a place is asked for. -/
def isStandardInput (place : Place) : Bool :=
  match place.toList.splitOn '/' with
  | [] => false
  | first :: rest => first == ['-'] && !rest.any counts

end Place

end PathStore
