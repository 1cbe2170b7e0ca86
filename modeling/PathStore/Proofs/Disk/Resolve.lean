import PathStore.Disk.Calls

/-!
# Where a path leads on a disk without links

On a disk that holds no links the pieces of a path alone say where it leads:
a name leads down, `..` leads up, `.` and slashes lead nowhere
(`DiskPath.resolve`). Whether the way is open is another matter, and the
disk's. But if the disk finds something, or a free name, it is there
(`Disk.location_of_spot`, `Disk.location_of_entry`).

To find its way the disk looks at the places where the beginnings of the
pieces lead and at nothing else. So two disks that agree on these places find
the same, or meet the same obstacle (`Disk.LinkFree.spot_congr`,
`Disk.LinkFree.entry_congr`).
-/

namespace PathStore

namespace DiskPath

/-- **Where a piece leads** from a location. -/
def Piece.lead (location : Location) : Piece → Location
  | .here => location
  | .up => location.dropLast
  | .name word => location ++ [word]
  | .slash => location

/-- **Where pieces lead** from a location, one after another. -/
def resolve (location : Location) (pieces : List Piece) : Location :=
  pieces.foldl Piece.lead location

/-- **The location a path resolves to**, from the root of the disk. -/
def destination (path : DiskPath) : Location := resolve [] path.plainPieces

variable {location : Location} {pieces front : List Piece} {path : DiskPath}

@[simp] theorem resolve_nil (location : Location) :
    resolve location [] = location := rfl

@[simp] theorem resolve_cons (location : Location) (piece : Piece)
    (pieces : List Piece) : resolve location (piece :: pieces) =
      resolve (piece.lead location) pieces := rfl

theorem resolve_append (location : Location) (pieces more : List Piece) :
    resolve location (pieces ++ more) =
      resolve (resolve location pieces) more :=
  List.foldl_append

@[simp] theorem resolve_slash (location : Location) (pieces : List Piece) :
    resolve location (pieces ++ [.slash]) = resolve location pieces :=
  resolve_append location pieces [.slash]

theorem resolve_pieces (location : Location) (path : DiskPath) :
    resolve location path.pieces = resolve location path.plainPieces := by
  unfold DiskPath.pieces
  split
  · exact resolve_slash location path.plainPieces
  · rfl

/-- A slash at the end leads nowhere new. -/
theorem exists_front_of_slash (h : front <+: pieces ++ [.slash]) :
    ∃ plain, plain <+: pieces ∧
      resolve location front = resolve location plain := by
  obtain rfl | hfront := List.prefix_concat_iff.1 h
  · exact ⟨pieces, List.prefix_rfl, resolve_slash location pieces⟩
  · exact ⟨front, hfront, rfl⟩

theorem exists_front_of_pieces (h : front <+: path.pieces) :
    ∃ plain, plain <+: path.plainPieces ∧
      resolve location front = resolve location plain := by
  unfold DiskPath.pieces at h
  split at h
  · exact exists_front_of_slash h
  · exact ⟨front, h, rfl⟩

end DiskPath

open DiskPath (Piece resolve)

namespace Disk

/-- **A disk without links.** -/
def LinkFree (disk : Disk) : Prop :=
  ∀ location target time, disk.node? location ≠ some (.link target time)

/-- The location of a spot: of what was found, or of the free name. -/
def Spot.location : Spot → Location
  | .found location => location
  | .vacant dir name => dir ++ [name]

variable {disk other : Disk} {manner : Manner} {dir location : Location}
  {pieces rest : List Piece} {path : DiskPath} {reached : Spot}

/-! ## Following pieces -/

/-- **What is reached is where the pieces lead.** By induction on the pieces,
as they are followed. -/
theorem location_of_descend
    (h : disk.descend manner dir pieces = .ok (.arrived reached)) :
    reached.location = resolve dir pieces := by
  induction pieces generalizing dir with
  | nil =>
    cases h
    rfl
  | cons piece rest ih =>
    unfold descend at h
    split at h
    · cases h
    · cases h
    · cases h
    · split at h
      · exact ih h
      · exact ih h
      · exact ih h
      · split at h
        · cases h
        · split at h
          · cases h
          · split at h
            · split at h
              · next hrest =>
                cases h
                rw [hrest]
                rfl
              · cases h
            · split at h
              · next hrest =>
                cases h
                rw [hrest.1]
                rfl
              · cases h
            · exact ih h

/-- **Only where the pieces lead is looked at.** -/
theorem descend_congr (h : ∀ front, front <+: pieces →
      disk.node? (resolve dir front) = other.node? (resolve dir front)) :
    disk.descend manner dir pieces = other.descend manner dir pieces := by
  induction pieces generalizing dir with
  | nil => rfl
  | cons piece rest ih =>
    have hhere : disk.node? dir = other.node? dir := h [] List.nil_prefix
    have hrest := @ih (piece.lead dir) fun front hfront =>
      h (piece :: front) (List.prefix_cons_inj piece |>.2 hfront)
    unfold descend
    rw [hhere]
    split
    · rfl
    · rfl
    · rfl
    · cases piece with
      | here => exact hrest
      | slash => exact hrest
      | up => exact hrest
      | name name =>
        have hnext : disk.node? (dir ++ [name]) = other.node? (dir ++ [name]) :=
          h [.name name] ⟨rest, rfl⟩
        have hrest : disk.descend manner (dir ++ [name]) rest =
            other.descend manner (dir ++ [name]) rest := hrest
        dsimp only
        rw [hnext, hrest]

/-- No link is met. -/
theorem LinkFree.descend_ne_link (h : disk.LinkFree) {target : DiskPath} :
    disk.descend manner dir pieces ≠ .ok (.link location target rest) := by
  induction pieces generalizing dir with
  | nil => exact fun heq => by cases heq
  | cons piece pieces ih =>
    unfold descend
    split
    · exact fun heq => by cases heq
    · exact fun heq => by cases heq
    · exact fun heq => by cases heq
    · split
      · exact ih
      · exact ih
      · exact ih
      · split
        · exact fun heq => by cases heq
        · split
          · exact fun heq => by cases heq
          · split
            · split <;> exact fun heq => by cases heq
            · next hlink => exact absurd hlink (h _ _ _)
            · exact ih

/-- Without links the way is found in one go. -/
theorem LinkFree.location_of_follow (h : disk.LinkFree) {links : Nat}
    (hspot : disk.follow manner links dir pieces = .ok reached) :
    reached.location = resolve dir pieces := by
  unfold follow at hspot
  split at hspot
  · cases hspot
  · next found hfound =>
    cases hspot
    exact location_of_descend hfound
  · next hlink => exact absurd hlink h.descend_ne_link

theorem LinkFree.follow_congr (h : disk.LinkFree) {links : Nat}
    (hsame : ∀ front, front <+: pieces →
      disk.node? (resolve dir front) = other.node? (resolve dir front)) :
    disk.follow manner links dir pieces =
      other.follow manner links dir pieces := by
  unfold follow
  rw [← descend_congr hsame]
  split
  · rfl
  · rfl
  · next hlink => exact absurd hlink h.descend_ne_link

/-! ## Following paths -/

/-- **What a path leads to is at its destination.** -/
theorem LinkFree.location_of_spot (h : disk.LinkFree)
    (hspot : disk.spot manner path = .ok reached) :
    reached.location = path.destination := by
  unfold spot at hspot
  split at hspot
  · cases hspot
  · rw [h.location_of_follow hspot]
    exact DiskPath.resolve_pieces [] path

theorem LinkFree.location_of_locate (h : disk.LinkFree)
    (hlocation : disk.locate manner path = .ok location) :
    location = path.destination := by
  unfold locate at hlocation
  split at hlocation
  · cases hlocation
  · next found hfound =>
    cases hlocation
    exact h.location_of_spot hfound
  · cases hlocation

/-- **The entry a path is about is at its destination**, if the last piece is
a name. -/
theorem LinkFree.location_of_entry (h : disk.LinkFree) {name : Name}
    {slash : Bool} (hentry : disk.entry path = .ok (dir, .name name slash)) :
    dir ++ [name] = path.destination := by
  unfold entry at hentry
  split at hentry
  · cases hentry
  dsimp only [splitLast] at hentry
  split at hentry
  · cases hentry
  · next found hfound =>
    obtain ⟨rfl, hlast⟩ := Prod.mk.inj (Except.ok.inj hentry)
    split at hlast
    · next word hword =>
      cases hlast
      obtain ⟨front, hfront⟩ := List.getLast?_eq_some_iff.1 hword
      have hdir := h.location_of_follow hfound
      rw [hfront, List.dropLast_concat, DiskPath.resolve_slash] at hdir
      unfold DiskPath.destination
      rw [hfront, DiskPath.resolve_append, ← hdir]
      rfl
    · cases hlast
    · cases hlast
    · cases hlast
  · cases hentry

/-- **Only where the beginnings of a path lead is looked at.** -/
theorem LinkFree.spot_congr (h : disk.LinkFree)
    (hsame : ∀ front, front <+: path.plainPieces →
      disk.node? (resolve [] front) = other.node? (resolve [] front)) :
    disk.spot manner path = other.spot manner path := by
  unfold spot
  split
  · rfl
  · refine h.follow_congr fun front hfront => ?_
    obtain ⟨plain, hplain, heq⟩ := DiskPath.exists_front_of_pieces hfront
    rw [heq]
    exact hsame plain hplain

theorem LinkFree.locate_congr (h : disk.LinkFree)
    (hsame : ∀ front, front <+: path.plainPieces →
      disk.node? (resolve [] front) = other.node? (resolve [] front)) :
    disk.locate manner path = other.locate manner path := by
  unfold locate
  rw [h.spot_congr hsame]

theorem LinkFree.entry_congr (h : disk.LinkFree)
    (hsame : ∀ front, front <+: path.plainPieces →
      disk.node? (resolve [] front) = other.node? (resolve [] front)) :
    disk.entry path = other.entry path := by
  unfold entry
  dsimp only [splitLast]
  rw [h.follow_congr fun front hfront => ?_]
  obtain ⟨plain, hplain, heq⟩ := DiskPath.exists_front_of_slash hfront
  rw [heq]
  exact hsame plain (hplain.trans (List.dropLast_prefix _))

end Disk
end PathStore
