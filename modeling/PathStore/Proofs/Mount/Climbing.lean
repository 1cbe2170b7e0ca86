import PathStore.Proofs.Disk.Region
import PathStore.Proofs.Mount.Places
import Mathlib.Data.List.Infix

/-!
# Paths that climb out of a mount

`..` is a segment like any other to a store, and leads up on a disk. A path
**climbs** if, read from the top, it comes to a point where more of its
segments have led up than down. A path that does not climb stays in the root of
a mount, all the way (`Mount.home_isPrefix_of_not_climbs`).

What a mount can come to by paths that do not climb is its `Mount.region`:
what is at or beneath its root, and what the pieces of the root lead through.
-/

namespace PathStore

open DiskPath (Piece resolve)

namespace Path

/-- How many segments lead up. -/
def ups (words : List String) : Nat := words.countP (· == "..")

/-- How many segments lead down: those that are names to a disk. -/
def downs (words : List String) : Nat :=
  words.countP fun word => word != "." && word != ".."

/-- **A path that climbs** above the top: at some point more of its segments
have led up than down. -/
def Climbs (path : String) : Prop :=
  ∃ front, front <+: segments path ∧ downs front < ups front

instance (path : String) : Decidable (Climbs path) :=
  decidable_of_iff (∃ front ∈ (segments path).inits, downs front < ups front)
    (by simp only [List.mem_inits, Climbs])

theorem ups_up (words : List String) :
    ups (".." :: words) = ups words + 1 :=
  List.countP_cons_of_pos rfl

theorem downs_up (words : List String) :
    downs (".." :: words) = downs words := rfl

theorem ups_name {word : String} (hup : word ≠ "..") (words : List String) :
    ups (word :: words) = ups words :=
  List.countP_cons_of_neg (by simpa using hup)

theorem downs_name {word : String} (hhere : word ≠ ".") (hup : word ≠ "..")
    (words : List String) : downs (word :: words) = downs words + 1 :=
  List.countP_cons_of_pos (by simp [hhere, hup])

end Path

namespace DiskPath

/-- **What a word does**: it leads nowhere, up, or down to a name. -/
theorem lead_ofWord_cases (word : String) (location : Location) :
    (word = "." ∧ (Piece.ofWord word).lead location = location) ∨
      (word = ".." ∧ (Piece.ofWord word).lead location = location.dropLast) ∨
      word ≠ "." ∧ word ≠ ".." ∧ (Piece.ofWord word).lead location =
        location ++ [Text.encode word] := by
  by_cases hhere : word = "."
  · rw [(Piece.ofWord_eq_here_iff word).2 hhere]
    exact .inl ⟨hhere, rfl⟩
  by_cases hup : word = ".."
  · rw [(Piece.ofWord_eq_up_iff word).2 hup]
    exact .inr (.inl ⟨hup, rfl⟩)
  · rw [Piece.ofWord_of_ne hhere hup]
    exact .inr (.inr ⟨hhere, hup, rfl⟩)

variable {home : Location} {words : List String}

/-- **Words that do not lead above a location lead to it or beneath it.** By
induction on the words; `inner` is how far beneath they have led. -/
theorem home_isPrefix_resolve (home inner : Location)
    (h : ∀ front, front <+: words →
      Path.ups front ≤ inner.length + Path.downs front) :
    home <+: resolve (home ++ inner) (words.map Piece.ofWord) := by
  induction words generalizing inner with
  | nil => exact List.prefix_append home inner
  | cons word words ih =>
    have hrest : ∀ front, front <+: words → Path.ups (word :: front) ≤
        inner.length + Path.downs (word :: front) := fun front hfront =>
      h (word :: front) ((List.prefix_cons_inj word).2 hfront)
    rw [List.map_cons, resolve_cons]
    obtain ⟨rfl, hlead⟩ | ⟨rfl, hlead⟩ | ⟨hhere, hup, hlead⟩ :=
      lead_ofWord_cases word (home ++ inner)
    · rw [hlead]
      exact ih inner hrest
    · have hone : 1 ≤ inner.length := hrest [] List.nil_prefix
      have hne : inner ≠ [] := List.ne_nil_of_length_pos hone
      rw [hlead, List.dropLast_append_of_ne_nil hne]
      refine ih _ fun front hfront => ?_
      have hcount := hrest front hfront
      rw [Path.ups_up, Path.downs_up] at hcount
      rw [List.length_dropLast]
      omega
    · rw [hlead, List.append_assoc]
      refine ih _ fun front hfront => ?_
      have hcount := hrest front hfront
      rw [Path.ups_name hup, Path.downs_name hhere hup] at hcount
      rw [List.length_append, List.length_singleton]
      omega

end DiskPath

namespace Mount

variable {mount : Mount} {path : String}

/-- The pieces of the root. -/
def rootPieces (mount : Mount) : List Piece :=
  DiskPath.plainPieces (Place.toDiskPath mount.root)

/-- **The location the root resolves to.** -/
def home (mount : Mount) : Location := resolve [] mount.rootPieces

/-- **The part of a disk a mount is meant to use**: what is at or beneath its
root, and what its root leads through. -/
def region (mount : Mount) : Region where
  home := mount.home
  way location := ∃ front, front <+: mount.rootPieces ∧
    resolve [] front = location

instance (mount : Mount) : DecidablePred mount.region.Covers :=
  fun location => decidable_of_iff (mount.home <+: location ∨
    ∃ front ∈ mount.rootPieces.inits, resolve [] front = location) (by
      simp only [List.mem_inits]
      rfl)

/-- **The location a path resolves to.** -/
def destination (mount : Mount) (path : String) : Location :=
  (mount.place path).toDiskPath.destination

theorem destination_eq (mount : Mount) (path : String) :
    mount.destination path =
      resolve mount.home ((Path.segments path).map Piece.ofWord) := by
  unfold destination DiskPath.destination
  rw [plainPieces_place, DiskPath.resolve_append]
  rfl

/-- A path that does not climb stays in. -/
theorem home_isPrefix_of_not_climbs (h : ¬ Path.Climbs path)
    (front : List String) (hfront : front <+: Path.segments path) :
    mount.home <+: resolve mount.home (front.map Piece.ofWord) := by
  have hprefix : mount.home <+:
      resolve (mount.home ++ []) (front.map Piece.ofWord) := by
    refine DiskPath.home_isPrefix_resolve mount.home [] fun part hpart => ?_
    rw [List.length_nil, Nat.zero_add]
    exact Nat.not_lt.1 fun hlt => h ⟨part, hpart.trans hfront, hlt⟩
  rwa [List.append_nil] at hprefix

/-- **A path that does not climb resolves to the root or beneath it.** -/
theorem home_isPrefix_destination (h : ¬ Path.Climbs path) :
    mount.home <+: mount.destination path := by
  rw [destination_eq]
  exact home_isPrefix_of_not_climbs h _ List.prefix_rfl

/-- On the way to its place it stays in the region of the mount. -/
theorem holds_place (h : ¬ Path.Climbs path) :
    mount.region.Holds (mount.place path).toDiskPath := by
  intro front hfront
  rw [plainPieces_place] at hfront
  obtain hroot | ⟨rest, rfl⟩ :=
    List.prefix_or_prefix_of_prefix hfront (List.prefix_append _ _)
  · exact .inr ⟨front, hroot, rfl⟩
  · obtain ⟨words, hwords, rfl⟩ :=
      List.prefix_map_iff.1 ((List.prefix_append_right_inj _).1 hfront)
    rw [DiskPath.resolve_append]
    exact .inl (home_isPrefix_of_not_climbs h words hwords)

/-- So it does on the way to the directories its place stands in. -/
theorem holds_of_mem_enclosing (h : ¬ Path.Climbs path) {dir : Place}
    (hdir : dir ∈ (mount.place path).enclosing) :
    mount.region.Holds dir.toDiskPath := fun front hfront =>
  holds_place h front
    (hfront.trans (Place.plainPieces_of_mem_enclosing hdir))

end Mount
end PathStore
