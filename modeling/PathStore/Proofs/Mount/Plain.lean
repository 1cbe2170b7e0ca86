import PathStore.Proofs.Mount.Climbing
import PathStore.Proofs.Store.Rebase

/-!
# Paths that lead where they say

A path without `.` and `..` is **plain**: on a disk each of its segments is a
name, and it leads to the location that is spelled by its segments, beneath
the location of the root (`Mount.destination_eq_location`). So on plain paths
the tree of a store and the tree beneath a root are one tree: to be at or
beneath a path is to be at or beneath its location
(`Mount.location_isPrefix_iff`).

The root of a mount need not be plain. It is **direct** if the way to it does
not lead through what is beneath it, as the way to `shop/stock/..` does. The
difference matters because a mount makes the directories its root leads
through.
-/

namespace PathStore

open DiskPath (Piece resolve)

namespace Path

/-- **A plain path**: well-formed, and without `.` and `..`. -/
def IsPlain (path : String) : Prop :=
  isValid path ∧ ∀ word ∈ segments path, word ≠ "." ∧ word ≠ ".."

instance (path : String) : Decidable (IsPlain path) :=
  inferInstanceAs (Decidable (_ ∧ _))

variable {path dir : String}

theorem isPlain_top : IsPlain "/" :=
  ⟨rfl, fun _ hword => absurd hword List.not_mem_nil⟩

/-- A path is plain if segments that are names write it. -/
theorem isPlain_ofSegments {words : List String} (h : AreSegments words)
    (hwords : ∀ word ∈ words, word ≠ "." ∧ word ≠ "..") :
    IsPlain (ofSegments words) := by
  refine ⟨isValid_ofSegments h, ?_⟩
  rw [segments_ofSegments h]
  exact hwords

/-- **What is above a plain path is plain.** -/
theorem IsPlain.of_within (h : IsPlain path) (hdir : Path.isValid dir)
    (hwithin : Within path dir) : IsPlain dir :=
  ⟨hdir, fun word hword =>
    h.2 word (((within_iff h.1 hdir).1 hwithin).subset hword)⟩

theorem IsPlain.of_mem_ancestors (h : IsPlain path)
    (hmem : dir ∈ ancestors path) : IsPlain dir ∧ dir ≠ "/" := by
  have hdir := isValid_of_mem_ancestors h.1 hmem
  obtain ⟨hne, hbelow⟩ := (mem_ancestors_iff h.1 hdir).1 hmem
  exact ⟨h.of_within hdir (.inr hbelow), hne⟩

/-- What begins the segments of a plain path are the segments of a plain path
it is at or beneath. -/
theorem IsPlain.exists_of_isPrefix (h : IsPlain path) {words : List String}
    (hwords : words <+: segments path) :
    ∃ dir, IsPlain dir ∧ segments dir = words ∧ Within path dir := by
  have hareSegments := (areSegments_segments h.1).of_isPrefix hwords
  refine ⟨ofSegments words, isPlain_ofSegments hareSegments
    fun word hword => h.2 word (hwords.subset hword),
    segments_ofSegments hareSegments, ?_⟩
  rw [within_iff h.1 (isValid_ofSegments hareSegments),
    segments_ofSegments hareSegments]
  exact hwords

/-- **A plain path moved to a plain place below the top** is one. -/
theorem IsPlain.rebase {source dest key : String} (h : IsPlain key)
    (hsource : IsPlain source) (hdest : IsPlain dest) (hsourceTop : source ≠ "/")
    (hdestTop : dest ≠ "/") (hin : Within key source) :
    IsPlain (Store.rebase source dest key) ∧
      Store.rebase source dest key ≠ "/" := by
  obtain ⟨rest, hrest, hvalid, hsegments⟩ := Store.segments_rebase hsource.1
    hdest.1 h.1 hsourceTop hdestTop hin
  refine ⟨⟨hvalid, ?_⟩, fun htop => ?_⟩
  · rw [hsegments]
    intro word hword
    obtain hword | hword := List.mem_append.1 hword
    · exact hdest.2 word hword
    · exact h.2 word (hrest ▸ List.mem_append_right _ hword)
  · have hwithin := Store.within_rebase hsourceTop hdestTop hin
    rw [htop] at hwithin
    exact hdestTop (hwithin.eq_top hdest.1)

end Path

namespace DiskPath

/-- Names lead down. -/
theorem resolve_names (location : Location) (names : List Name) :
    resolve location (names.map .name) = location ++ names := by
  induction names generalizing location with
  | nil => exact (List.append_nil location).symm
  | cons name names ih =>
    rw [List.map_cons, resolve_cons, ih]
    exact List.append_assoc location [name] names

end DiskPath

/-- The names of a list of words. -/
def Text.encodeAll (words : List String) : List Name := words.map encode

/-- **Lists of words are told apart by their names.** -/
theorem Text.encodeAll_isPrefix_iff {words more : List String} :
    encodeAll words <+: encodeAll more ↔ words <+: more := by
  unfold encodeAll
  rw [List.prefix_map_iff]
  constructor
  · rintro ⟨front, hfront, heq⟩
    rwa [List.map_injective_iff.2 (fun _ _ => encode_inj.1) heq]
  · exact fun h => ⟨words, h, rfl⟩

namespace Mount

variable {mount : Mount} {path other : String}

/-- **The location a plain path spells**, beneath that of the root. -/
def location (mount : Mount) (path : String) : Location :=
  mount.home ++ Text.encodeAll (Path.segments path)

theorem location_top (mount : Mount) : mount.location "/" = mount.home :=
  List.append_nil mount.home

/-- The segments of a plain path are names to a disk. -/
theorem pieces_of_isPlain (h : Path.IsPlain path) :
    (Path.segments path).map Piece.ofWord =
      (Text.encodeAll (Path.segments path)).map .name := by
  rw [Text.encodeAll, List.map_map]
  exact List.map_congr_left fun word hword =>
    Piece.ofWord_of_ne (h.2 word hword).1 (h.2 word hword).2

/-- **A plain path leads where it says.** -/
theorem destination_eq_location (h : Path.IsPlain path) :
    (mount.place path).toDiskPath.destination = mount.location path := by
  have hdestination := mount.destination_eq path
  rw [pieces_of_isPlain h, DiskPath.resolve_names] at hdestination
  exact hdestination

/-- **To be at or beneath a path is to be at or beneath its location.** -/
theorem location_isPrefix_iff (h : Path.isValid path)
    (hother : Path.isValid other) :
    mount.location other <+: mount.location path ↔
      Path.Within path other := by
  unfold location
  rw [List.prefix_append_right_inj, Text.encodeAll_isPrefix_iff,
    Path.within_iff h hother]

/-- Paths are told apart by their locations. -/
theorem location_inj (h : Path.isValid path) (hother : Path.isValid other) :
    mount.location path = mount.location other ↔ path = other := by
  constructor
  · intro heq
    have hover : mount.location path <+: mount.location other :=
      heq ▸ List.prefix_rfl
    have hunder : mount.location other <+: mount.location path :=
      heq ▸ List.prefix_rfl
    have hin := (location_isPrefix_iff hother h).1 hover
    have hout := (location_isPrefix_iff h hother).1 hunder
    obtain hsame | hbelow := hin
    · exact hsame.symm
    · exact absurd hbelow (hout.not_isDescendant h hother)
  · exact congrArg mount.location

/-- **Beneath the root.** -/
def Beneath (mount : Mount) (location : Location) : Prop :=
  mount.home <+: location ∧ mount.home ≠ location

/-- The location of any other path than the top is beneath the root. -/
theorem beneath_location (mount : Mount) (h : Path.isValid path) (hne : path ≠ "/") :
    mount.Beneath (mount.location path) := by
  refine ⟨List.prefix_append _ _, fun heq => hne ?_⟩
  rw [← location_top, location_inj rfl h] at heq
  exact heq.symm

theorem Beneath.of_isPrefix {above below : Location}
    (h : mount.Beneath above) (hbelow : above <+: below) : mount.Beneath below := by
  refine ⟨h.1.trans hbelow, ?_⟩
  rintro rfl
  exact h.2 (h.1.eq_of_length_le hbelow.length_le)

/-- **A direct root**: the way to it leads through nothing beneath it. -/
def IsDirect (mount : Mount) : Prop :=
  ∀ front, front <+: mount.rootPieces → ¬ mount.Beneath (resolve [] front)

instance (mount : Mount) : Decidable mount.IsDirect :=
  decidable_of_iff (∀ front ∈ mount.rootPieces.inits,
    ¬ (mount.home <+: resolve [] front ∧ mount.home ≠ resolve [] front)) (by
      simp only [List.mem_inits]
      rfl)

/-- **What the way to a plain path leads through beneath a direct root** is
what is above the path. -/
theorem exists_above_of_beneath (hdirect : mount.IsDirect)
    (h : Path.IsPlain path) {front : List Piece}
    (hfront : front <+: (mount.place path).toDiskPath.plainPieces)
    (hbeneath : mount.Beneath (resolve [] front)) :
    ∃ dir, Path.IsPlain dir ∧ dir ≠ "/" ∧ Path.Within path dir ∧
      resolve [] front = mount.location dir := by
  rw [plainPieces_place, pieces_of_isPlain h, Text.encodeAll] at hfront
  obtain hroot | ⟨rest, rfl⟩ :=
    List.prefix_or_prefix_of_prefix hfront (List.prefix_append _ _)
  · exact absurd hbeneath (hdirect front hroot)
  · obtain ⟨names, hnames, rfl⟩ :=
      List.prefix_map_iff.1 ((List.prefix_append_right_inj _).1 hfront)
    obtain ⟨words, hwords, rfl⟩ := List.prefix_map_iff.1 hnames
    obtain ⟨dir, hdir, rfl, hwithin⟩ := h.exists_of_isPrefix hwords
    have heq : resolve [] (DiskPath.plainPieces (Place.toDiskPath mount.root) ++
        ((Path.segments dir).map Text.encode).map .name) =
          mount.location dir := by
      rw [DiskPath.resolve_append, DiskPath.resolve_names]
      rfl
    refine ⟨dir, hdir, ?_, hwithin, heq⟩
    rintro rfl
    rw [heq, location_top] at hbeneath
    exact hbeneath.2 rfl

end Mount
end PathStore
