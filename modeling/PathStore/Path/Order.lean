import PathStore.Path

/-!
# The order of a walk

A path is the list of its **segments**, the top the empty list. The
order in which a depth-first walk meets paths compares those lists: the
first segment in which two paths differ decides, by its bytes, and a
path comes before all that is beneath it.

This is not the order of paths as strings. `/a-b` comes before `/a/b` as
a string, because `-` sorts below `/`; it comes after it in a walk,
because `a` sorts below `a-b`.
-/

namespace PathStore
namespace Path

/-- **The segments of a path**, outermost first. -/
def segments (path : String) : List String :=
  ((path.toList.splitOn '/').filter fun word => !word.isEmpty).map
    String.ofList

/-- **Earlier in a walk.** -/
def Before (path other : String) : Prop := segments path < segments other

instance : DecidableRel Before := fun path other =>
  inferInstanceAs (Decidable (segments path < segments other))

theorem before_irrefl (path : String) : ¬ Before path path :=
  List.lt_irrefl _

theorem before_trans {a b c : String} (hab : Before a b) (hbc : Before b c) :
    Before a c :=
  List.lt_trans hab hbc

/-- The two orders differ where a segment goes on with a character below
the slash. -/
example : "/a-b" < "/a/b" ∧ Before "/a/b" "/a-b" := by decide +kernel

end Path
end PathStore
