/-!
# Paths of a store

A **path** names a place in a store: it is `/`, the top, or one or more
pieces `/segment`, where a segment is a non-empty run of ASCII letters,
digits, `.`, `_` and `-`. There is no trailing slash and no empty
segment. `.` and `..` are segments like any other.

Paths are kept as `String`. Every operation below is defined on all
strings, valid or not, because a listing or a hint may hold any string;
what the operations mean on valid paths is the business of the lemmas.

## Order

Paths are compared as strings, by code points. That order is the order
of their UTF-8 bytes, so `-` and `.` sort below `/`: the path `/a-b`
lies between `/a` and `/a/b`. The depth-first order of a walk, which
compares segment by segment, is a different one.
-/

namespace PathStore
namespace Path

/-- **The alphabet of segments**: ASCII letters and digits, `.`, `_`
and `-`. -/
def isSegmentChar (c : Char) : Bool :=
  c.isAlphanum || c == '.' || c == '_' || c == '-'

/-- **A segment** is a non-empty word over the alphabet. -/
def isSegment (word : List Char) : Bool :=
  !word.isEmpty && word.all isSegmentChar

/-- **A well-formed path**: the top, or a slash followed by segments with
single slashes between them. -/
def isValid (path : String) : Bool :=
  path == "/" ||
    match path.toList with
    | '/' :: rest => (rest.splitOn '/').all isSegment
    | _ => false

/-- **The child of a path under a name.** The top already ends in the
slash that divides the two. -/
def join (parent name : String) : String :=
  if parent = "/" then "/" ++ name else parent ++ "/" ++ name

/-- **The parent of a path**: what stands before its last slash, and the
top where nothing stands there. The top has no parent, and neither has a
string without a slash. -/
def parent? (path : String) : Option String :=
  if path = "/" then none
  else
    match path.toList.reverse.dropWhile (· != '/') with
    | [] => none
    | [_] => some "/"
    | _ :: before => some (String.ofList before.reverse)

/-- **The last segment**: what stands behind the last slash, the whole
string where there is none. The last segment of the top is empty. -/
def name (path : String) : String :=
  String.ofList (path.toList.reverse.takeWhile (· != '/')).reverse

/-- **Strictly beneath**: `path` goes on from `dir` with a slash. Beneath
the top lies every longer string that starts with a slash. -/
def isDescendant (path dir : String) : Bool :=
  if dir = "/" then
    match path.toList with
    | '/' :: _ :: _ => true
    | _ => false
  else
    (dir.toList ++ ['/']).isPrefixOf path.toList

/-- A parent is shorter than its path: the slash that divides the two is
gone, or the path was more than the top and its parent is the top. -/
theorem length_lt_of_parent?_eq_some {path dir : String}
    (h : parent? path = some dir) : dir.toList.length < path.toList.length := by
  unfold parent? at h
  split at h
  · cases h
  · next hne =>
    have hle := (List.dropWhile_sublist (fun c : Char => c != '/')
      (l := path.toList.reverse)).length_le
    rw [List.length_reverse] at hle
    split at h
    · cases h
    · next c hc =>
      cases h
      rw [hc] at hle
      refine Nat.lt_of_le_of_ne hle fun hone => hne ?_
      obtain ⟨d, hd⟩ := List.length_eq_one_iff.1 hone.symm
      rw [hd] at hc
      have hslash : d = '/' := by
        by_cases hds : d = '/'
        · exact hds
        · simp [hds] at hc
      exact String.toList_inj.1 (by rw [hd, hslash]; rfl)
    · next before _ hc =>
      cases h
      rw [hc] at hle
      rw [String.toList_ofList, List.length_reverse]
      exact hle

/-- **The ancestors of a path below the top**, outermost first. -/
def ancestors (path : String) : List String :=
  match _h : parent? path with
  | none => []
  | some dir => if dir = "/" then [] else ancestors dir ++ [dir]
termination_by path.toList.length
decreasing_by exact length_lt_of_parent?_eq_some _h

end Path
end PathStore
