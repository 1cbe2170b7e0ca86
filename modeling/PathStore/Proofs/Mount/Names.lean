import PathStore.Proofs.Mount.Tidy
import PathStore.Proofs.Path.Grammar
import PathStore.Proofs.Text.Ascii

/-!
# How places are written

The letters of paths are ASCII, so the place of a path is written in the bytes
of the root and then in one byte a letter. No place below the top ends in a
slash, so nothing there has to be a directory, and none has a byte in it that a
disk refuses but by way of the root. What remains are the limits of the disk
(`Mount.Fits`).
-/

namespace PathStore

namespace Text

theorem encode_eq_nil_iff {text : String} : encode text = [] ↔ text = "" := by
  rw [← encode_inj]
  rfl

/-- A text does not end in the byte of a slash unless it ends in a slash. -/
theorem getLast?_encode_ne_slash {text : String} {letters : List Char}
    {c : Char} (h : text.toList = letters ++ [c]) (hc : c ≠ '/') :
    (encode text).getLast? ≠ some DiskPath.slash := by
  have hbytes : encode text =
      letters.flatMap String.utf8EncodeChar ++ String.utf8EncodeChar c := by
    rw [encode, h, List.flatMap_append, List.flatMap_singleton]
  rw [hbytes, List.getLast?_append_of_ne_nil _ String.utf8EncodeChar_ne_nil]
  intro hlast
  exact hc (eq_slash_of_mem_utf8EncodeChar (List.mem_of_getLast? hlast))

end Text

namespace Path

variable {path : String}

/-- A path below the top ends in a letter. -/
theorem exists_toList_concat (h : isValid path) (hne : path ≠ "/") :
    ∃ letters c, path.toList = letters ++ [c] ∧ c ≠ '/' := by
  obtain ⟨dir, word, _, hword, _, hsegments⟩ := exists_parent? h hne
  obtain ⟨front, c, hlast⟩ :=
    List.eq_nil_or_concat' word.toList |>.resolve_left (ne_nil_of_isSegment hword)
  refine ⟨spell (segments dir) ++ '/' :: front, c, ?_, ?_⟩
  · rw [toList_eq_spell h hne, hsegments, spell_append, spell_cons, spell_nil,
      List.append_nil, hlast, List.append_assoc]
    rfl
  · rintro rfl
    refine slash_notMem_of_isSegment hword ?_
    rw [hlast]
    exact List.mem_append_right _ List.mem_cons_self

/-- The letters of a path are those of its segments, and slashes. -/
theorem toNat_of_mem_toList (h : isValid path) {c : Char}
    (hc : c ∈ path.toList) : 0 < c.toNat ∧ c.toNat < 128 := by
  by_cases htop : path = "/"
  · subst htop
    obtain rfl : c = '/' := List.mem_singleton.1 hc
    decide
  · rw [toList_eq_spell h htop] at hc
    obtain ⟨word, hword, hc⟩ := List.mem_flatMap.1 hc
    obtain rfl | hc := List.mem_cons.1 hc
    · decide
    · have hsegment := areSegments_segments h word hword
      unfold isSegment at hsegment
      rw [Bool.and_eq_true, List.all_eq_true] at hsegment
      exact Text.toNat_of_isSegmentChar (hsegment.2 c hc)

end Path

/-! ## Places -/

namespace Mount

variable {mount : Mount} {path : String}

/-- A place below the top ends in a letter, too. -/
theorem exists_place_concat (mount : Mount) (h : Path.isValid path)
    (hne : path ≠ "/") :
    ∃ letters c, (mount.place path).toList = letters ++ [c] ∧ c ≠ '/' := by
  obtain ⟨letters, c, hlast, hc⟩ := Path.exists_toList_concat h hne
  refine ⟨(mount.place "/").toList ++ letters.dropWhile (· == '/'), c, ?_, hc⟩
  have hkept : [c].dropWhile (· == '/') = [c] :=
    List.dropWhile_cons_of_neg (by simpa using hc)
  rw [place_eq, String.toList_append, String.toList_ofList, hlast,
    List.append_assoc, List.dropWhile_append, hkept]
  split
  · next hnone =>
    rw [List.isEmpty_iff.1 hnone]
    rfl
  · rfl

/-- **No place below the top ends in a slash.** -/
theorem getLast?_place (mount : Mount) (h : Path.isValid path)
    (hne : path ≠ "/") :
    (mount.place path).toDiskPath.getLast? ≠ some DiskPath.slash := by
  obtain ⟨letters, c, hends, hc⟩ := mount.exists_place_concat h hne
  exact Text.getLast?_encode_ne_slash hends hc

theorem pieces_place (h : Path.isValid path) (hne : path ≠ "/") :
    (mount.place path).toDiskPath.pieces =
      (mount.place path).toDiskPath.plainPieces :=
  if_neg fun hslash => mount.getLast?_place h hne hslash.1

/-- **A path whose place is within the limits** of a disk: of names, and of
paths as a whole. -/
structure Fits (mount : Mount) (path : String) : Prop where
  names : ∀ word ∈ Path.segments path, (Text.encode word).length ≤ nameLimit
  whole : (mount.place path).toDiskPath.length < DiskPath.pathLimit

instance (mount : Mount) (path : String) : Decidable (mount.Fits path) :=
  decidable_of_iff ((∀ word ∈ Path.segments path,
      (Text.encode word).length ≤ nameLimit) ∧
    (mount.place path).toDiskPath.length < DiskPath.pathLimit)
    ⟨fun h => ⟨h.1, h.2⟩, fun h => ⟨h.names, h.whole⟩⟩

/-- **A place within the limits can be used**, if the root can be written and
the place is not empty. -/
theorem precheck_place (hroot : mount.root ≠ "" ∨ path ≠ "/")
    (hnul : 0 ∉ Place.toDiskPath mount.root) (h : Path.isValid path)
    (hfits : (mount.place path).toDiskPath.length < DiskPath.pathLimit) :
    (mount.place path).toDiskPath.precheck = .ok () := by
  -- the bytes of a place are those of the root, and then those of letters
  obtain ⟨rest, hrest, hletters⟩ : ∃ rest, (mount.place path).toDiskPath =
      Place.toDiskPath mount.root ++ Text.encode rest ∧
        ∀ c ∈ rest.toList, 0 < c.toNat ∧ c.toNat < 128 := by
    have hkept : ∀ c ∈ path.toList.dropWhile (· == '/'),
        0 < c.toNat ∧ c.toNat < 128 := fun c hc =>
      Path.toNat_of_mem_toList h ((List.dropWhile_sublist _).subset hc)
    have hslash : ∀ c ∈ "/".toList, 0 < c.toNat ∧ c.toNat < 128 := by
      intro c hc
      obtain rfl : c = '/' := List.mem_singleton.1 hc
      decide
    unfold Place.toDiskPath
    rw [place_eq]
    obtain htop | htop := mount.place_top
    · refine ⟨String.ofList (path.toList.dropWhile (· == '/')), ?_, ?_⟩
      · rw [htop, encode_append]
      · rwa [String.toList_ofList]
    · refine ⟨"/" ++ String.ofList (path.toList.dropWhile (· == '/')), ?_, ?_⟩
      · rw [htop, String.append_assoc, encode_append]
      · rw [String.toList_append]
        refine List.forall_mem_append.2 ⟨hslash, ?_⟩
        rwa [String.toList_ofList]
  have hnone : ¬ (mount.place path).toDiskPath.contains 0 := by
    rw [List.contains_iff_mem, hrest, List.mem_append, not_or]
    exact ⟨hnul, Text.zero_notMem_encode (fun c hc => (hletters c hc).2)
      fun c hc => (hletters c hc).1⟩
  have hne : (mount.place path).toDiskPath ≠ [] := by
    obtain hroot | htop := hroot
    · rw [hrest]
      exact List.append_ne_nil_of_left_ne_nil
        (mt Text.encode_eq_nil_iff.1 hroot) _
    · obtain ⟨letters, c, hends, _⟩ := mount.exists_place_concat h htop
      refine mt Text.encode_eq_nil_iff.1 fun hempty => ?_
      rw [hempty] at hends
      exact List.append_ne_nil_of_right_ne_nil letters
        (List.cons_ne_nil c []) hends.symm
  unfold DiskPath.precheck
  rw [if_neg hnone, if_neg hne, if_neg (Nat.not_le.2 hfits)]

end Mount
end PathStore
