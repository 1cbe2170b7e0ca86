import PathStore.Mount
import PathStore.Proofs.Disk.Resolve
import PathStore.Proofs.Path.Segments
import PathStore.Proofs.Text.Order

/-!
# The places of a mount, piece by piece

A mount writes the place of a path as text, and the disk takes it apart as
bytes. In between nothing is lost and nothing is gained: a slash is one byte
and no other character has that byte in it, so the pieces of a place are the
segments of its text (`DiskPath.plainPieces_encode`), and the pieces of a
place in a mount are those of the root, then those of the path
(`Mount.plainPieces_place`).

The directories a place stands in are read off its letters, and are
beginnings of it (`Place.plainPieces_of_mem_enclosing`).
-/

namespace PathStore

open DiskPath (Piece)

/-! ## Bytes -/

namespace Text

theorem encode_ofList (letters : List Char) :
    encode (String.ofList letters) =
      letters.flatMap String.utf8EncodeChar := by
  unfold encode
  rw [String.toList_ofList]

/-- **The byte of the slash is in no other character**: the others are one
byte of their own, or bytes beyond those of one. -/
theorem eq_slash_of_mem_utf8EncodeChar {c : Char}
    (h : DiskPath.slash ∈ String.utf8EncodeChar c) : c = '/' := by
  have hslash : DiskPath.slash.toNat = 47 := rfl
  rw [utf8EncodeChar_eq, List.mem_cons] at h
  obtain hfirst | hbehind := h
  · have hlead := congrArg UInt8.toNat hfirst
    rw [UInt8.toNat_ofNat', Nat.mod_eq_of_lt (lead_lt (toNat_lt c)),
      hslash] at hlead
    refine Char.toNat_inj.1 ?_
    show c.toNat = 47
    rw [hlead]
    exact (lead_eq_of_lt (by omega)).symm
  · have hlong := le_toNat_of_mem_trail hbehind
    omega

theorem slash_notMem_flatMap {letters : List Char} (h : '/' ∉ letters) :
    DiskPath.slash ∉ letters.flatMap String.utf8EncodeChar := by
  intro hmem
  obtain ⟨c, hc, hslash⟩ := List.mem_flatMap.1 hmem
  exact h (eq_slash_of_mem_utf8EncodeChar hslash ▸ hc)

end Text

/-! ## Taking text apart -/

namespace Path

/-- The words between slashes hold none. -/
theorem slash_notMem_of_mem_splitOn {letters word : List Char}
    (h : word ∈ letters.splitOn '/') : '/' ∉ word := by
  induction letters generalizing word with
  | nil =>
    rw [List.splitOn_nil, List.mem_singleton] at h
    rw [h]
    exact List.not_mem_nil
  | cons c letters ih =>
    rw [List.splitOn_cons_eq_if_modifyHead] at h
    split at h
    · obtain rfl | h := List.mem_cons.1 h
      · exact List.not_mem_nil
      · exact ih h
    · next hc =>
      cases hwords : letters.splitOn '/' with
      | nil => exact absurd hwords (List.splitOn_ne_nil _ _)
      | cons first rest =>
        rw [hwords] at h ih
        obtain rfl | h := List.mem_cons.1 h
        · have hfirst : '/' ∉ first := ih List.mem_cons_self
          rw [List.mem_cons, not_or]
          exact ⟨fun heq => hc (beq_iff_eq.2 heq.symm), hfirst⟩
        · exact ih (List.mem_cons_of_mem _ h)

/-- Two texts with a slash between them. -/
theorem segments_append_slash (text more : String) :
    segments (text ++ "/" ++ more) = segments text ++ segments more := by
  unfold segments
  have hletters : (text ++ "/" ++ more).toList =
      text.toList ++ '/' :: more.toList := by
    rw [String.toList_append, String.toList_append, List.append_assoc]
    rfl
  rw [hletters, List.splitOn_append_cons_self, List.filter_append,
    List.map_append]

/-- Slashes at the start hold no segments. -/
theorem segments_dropWhile (letters : List Char) :
    segments (String.ofList (letters.dropWhile (· == '/'))) =
      segments (String.ofList letters) := by
  induction letters with
  | nil => rfl
  | cons c letters ih =>
    by_cases hc : c = '/'
    · subst hc
      rw [List.dropWhile_cons_of_pos (by rfl), ih]
      have hslash : String.ofList ('/' :: letters) =
          "" ++ "/" ++ String.ofList letters := by
        refine String.toList_inj.1 ?_
        simp only [String.toList_append, String.toList_ofList]
        rfl
      rw [hslash, segments_append_slash]
      rfl
    · rw [List.dropWhile_cons_of_neg (by simpa using hc)]

end Path

namespace DiskPath

/-- The piece that is written by a word. -/
def Piece.ofWord (word : String) : Piece := Piece.ofBytes (Text.encode word)

/-- What is written between slashes, in bytes. -/
theorem splitOn_encode (text : String) : (Text.encode text).splitOn slash =
    (text.toList.splitOn '/').map (·.flatMap String.utf8EncodeChar) := by
  have hjoined : ∀ words : List (List Char),
      (['/'].intercalate words).flatMap String.utf8EncodeChar =
        [slash].intercalate
          (words.map (·.flatMap String.utf8EncodeChar)) := by
    intro words
    induction words with
    | nil => rfl
    | cons word words ih =>
      cases words with
      | nil => simp
      | cons next words =>
        rw [List.intercalate_cons_cons, List.flatMap_append,
          List.flatMap_append, ih]
        simp only [List.map_cons, List.intercalate_cons_cons]
        rfl
  have hletters : Text.encode text = [slash].intercalate
      ((text.toList.splitOn '/').map (·.flatMap String.utf8EncodeChar)) := by
    rw [← hjoined, List.intercalate_splitOn]
    rfl
  rw [hletters]
  refine List.splitOn_intercalate slash ?_ (by simp [List.splitOn_ne_nil])
  intro bytes hmem
  obtain ⟨word, hword, rfl⟩ := List.mem_map.1 hmem
  exact Text.slash_notMem_flatMap (Path.slash_notMem_of_mem_splitOn hword)

/-- **The pieces of a text are its segments.** -/
theorem plainPieces_encode (text : String) :
    plainPieces (Text.encode text) =
      (Path.segments text).map Piece.ofWord := by
  have hempty : ∀ word : List Char,
      (!(word.flatMap String.utf8EncodeChar).isEmpty) = !word.isEmpty := by
    intro word
    cases word with
    | nil => rfl
    | cons c word => simp [String.utf8EncodeChar_ne_nil]
  have hword : ∀ word : List Char, Piece.ofBytes
      (word.flatMap String.utf8EncodeChar) =
        Piece.ofWord (String.ofList word) := by
    intro word
    rw [Piece.ofWord, Text.encode_ofList]
  unfold plainPieces Path.segments
  rw [splitOn_encode, List.filter_map, List.map_map, List.map_map]
  refine (congrArg (List.map _)
    (List.filter_congr fun word _ => hempty word)).trans ?_
  exact List.map_congr_left fun word _ => hword word

theorem Piece.ofWord_eq_here_iff (word : String) :
    Piece.ofWord word = .here ↔ word = "." := by
  constructor
  · intro h
    unfold Piece.ofWord Piece.ofBytes at h
    split at h
    · next hdot => exact Text.encode_inj.1 (hdot.trans (by decide))
    · split at h <;> cases h
  · rintro rfl
    decide

theorem Piece.ofWord_eq_up_iff (word : String) :
    Piece.ofWord word = .up ↔ word = ".." := by
  constructor
  · intro h
    unfold Piece.ofWord Piece.ofBytes at h
    split at h
    · cases h
    · split at h
      · next hdots => exact Text.encode_inj.1 (hdots.trans (by decide))
      · cases h
  · rintro rfl
    decide

/-- Any other word is a name. -/
theorem Piece.ofWord_of_ne {word : String} (hhere : word ≠ ".")
    (hup : word ≠ "..") : Piece.ofWord word = .name (Text.encode word) := by
  have hnotHere := mt (Piece.ofWord_eq_here_iff word).1 hhere
  have hnotUp := mt (Piece.ofWord_eq_up_iff word).1 hup
  unfold Piece.ofWord Piece.ofBytes at hnotHere hnotUp ⊢
  split
  · next hdot => exact absurd (if_pos hdot) hnotHere
  · next hdot =>
    rw [if_neg hdot] at hnotUp
    split
    · next hdots => exact absurd (if_pos hdots) hnotUp
    · rfl

end DiskPath

/-! ## Places -/

namespace Place

/-- **The segments of a place in a directory.** -/
theorem segments_join (place : Place) {rest : String}
    (hrest : rest.toList.head? ≠ some '/') :
    Path.segments (place.join rest) =
      Path.segments place ++ Path.segments rest := by
  unfold join
  rw [if_neg hrest]
  split
  · next h =>
    obtain rfl | hslash := h
    · rw [String.empty_append]
      rfl
    · -- the slash that divides the two is there already
      obtain ⟨front, hfront⟩ := List.getLast?_eq_some_iff.1 hslash
      have hplace : place = String.ofList front ++ "/" := by
        refine String.toList_inj.1 ?_
        rw [hfront, String.toList_append, String.toList_ofList]
        rfl
      have hempty : place = String.ofList front ++ "/" ++ "" := by
        rw [String.append_empty, hplace]
      conv_rhs => rw [hempty]
      rw [hplace, Path.segments_append_slash, Path.segments_append_slash,
        List.append_assoc]
      rfl
  · exact Path.segments_append_slash place rest

/-- **A word in the directory at a place is the last of its pieces**, and not the
only one. -/
theorem splitOn_join {place : Place} (hplace : place ≠ "") {word : String}
    (hslash : '/' ∉ word.toList) : ∃ pieces, pieces ≠ [] ∧
      (place.join word).toList.splitOn '/' = pieces ++ [word.toList] := by
  have hword : word.toList.splitOn '/' = [word.toList] :=
    List.splitOn_eq_singleton hslash
  have hhead : word.toList.head? ≠ some '/' := fun hhead =>
    hslash (List.mem_of_head? hhead)
  unfold join
  rw [if_neg hhead]
  split
  · next h =>
    obtain ⟨front, hfront⟩ :=
      List.getLast?_eq_some_iff.1 (h.resolve_left hplace)
    refine ⟨front.splitOn '/', List.splitOn_ne_nil _ _, ?_⟩
    rw [String.toList_append, hfront, List.append_assoc, List.singleton_append,
      List.splitOn_append_cons_self, hword]
  · refine ⟨place.toList.splitOn '/', List.splitOn_ne_nil _ _, ?_⟩
    have hletters : (place ++ "/" ++ word).toList =
        place.toList ++ '/' :: word.toList := by
      rw [String.toList_append, String.toList_append, List.append_assoc]
      rfl
    rw [hletters, List.splitOn_append_cons_self, hword]

/-- **What stands in a directory is not taken for the standard input.** -/
theorem not_isStandardInput_join {place : Place} (hplace : place ≠ "")
    {word : String} (hslash : '/' ∉ word.toList) (hcounts : counts word.toList) :
    ¬ (place.join word).isStandardInput := by
  obtain ⟨pieces, hne, hpieces⟩ := splitOn_join hplace hslash
  obtain ⟨first, rest, rfl⟩ := List.exists_cons_of_ne_nil hne
  unfold isStandardInput
  rw [hpieces, List.cons_append]
  simp [hcounts]

/-- What stands in a list of pieces stretches from its start. -/
theorem isSuffix_of_mem_outward {pieces stretch : List (List Char)}
    (h : stretch ∈ outward pieces) : stretch <:+ pieces ∧ stretch ≠ [] := by
  induction pieces with
  | nil => cases h
  | cons piece outer ih =>
    unfold outward at h
    split at h
    · obtain rfl | h := List.mem_cons.1 h
      · exact ⟨List.suffix_rfl, List.cons_ne_nil piece outer⟩
      · obtain ⟨hsuffix, hne⟩ := ih h
        exact ⟨hsuffix.trans (List.suffix_cons piece outer), hne⟩
    · obtain ⟨hsuffix, hne⟩ := ih h
      exact ⟨hsuffix.trans (List.suffix_cons piece outer), hne⟩

/-- **The directories a place stands in are beginnings of it.** -/
theorem segments_of_mem_enclosing {place dir : Place}
    (h : dir ∈ place.enclosing) :
    Path.segments dir <+: Path.segments place := by
  obtain ⟨stretch, hstretch, rfl⟩ := List.mem_map.1 h
  obtain ⟨hsuffix, hne⟩ :=
    isSuffix_of_mem_outward (List.mem_of_mem_tail hstretch)
  have hfront : stretch.reverse <+: place.toList.splitOn '/' :=
    List.reverse_suffix.1 (by rwa [List.reverse_reverse])
  have hwords : (['/'].intercalate stretch.reverse).splitOn '/' =
      stretch.reverse := by
    refine List.splitOn_intercalate '/' (fun word hmem => ?_)
      (by simpa using hne)
    exact Path.slash_notMem_of_mem_splitOn (hfront.subset hmem)
  unfold Path.segments
  rw [String.toList_ofList, hwords]
  exact (hfront.filter _).map _

theorem plainPieces_of_mem_enclosing {place dir : Place}
    (h : dir ∈ place.enclosing) :
    dir.toDiskPath.plainPieces <+: place.toDiskPath.plainPieces := by
  unfold toDiskPath
  rw [DiskPath.plainPieces_encode, DiskPath.plainPieces_encode]
  exact (segments_of_mem_enclosing h).map _

end Place

namespace Mount

/-- **The pieces of a place in a mount**: those of the root, then those of the
path. -/
theorem plainPieces_place (mount : Mount) (path : String) :
    (mount.place path).toDiskPath.plainPieces =
      DiskPath.plainPieces (Place.toDiskPath mount.root) ++
        (Path.segments path).map Piece.ofWord := by
  have hrest : (String.ofList (path.toList.dropWhile
      (· == '/'))).toList.head? ≠ some '/' := by
    rw [String.toList_ofList]
    intro hhead
    have hnot := List.head?_dropWhile_not (· == '/') path.toList
    rw [hhead] at hnot
    cases hnot
  unfold place Place.toDiskPath
  rw [DiskPath.plainPieces_encode, DiskPath.plainPieces_encode,
    Place.segments_join mount.root hrest, Path.segments_dropWhile,
    String.ofList_toList, List.map_append]

end Mount
end PathStore
