import PathStore.Path
import PathStore.Text.Lossy
import Mathlib.Algebra.Group.Nat.Defs
import Mathlib.Data.List.Basic

/-!
# Text of one byte a letter

The letters of segments are ASCII. So between texts in them and their bytes
nothing is lost: a text is read back from what is written for it
(`Text.decode_encode`).

Bytes in general are decoded with a loss, and what has been lost cannot be told
from the text. But where anything is lost the text shows it. Bytes that are not
ASCII become at least one character that is not, be it the one they stand for
or the one that stands for nothing; so a text in ASCII was read from its own
bytes and from no others (`Text.encode_decode`).
-/

namespace PathStore
namespace Text

/-- **Letters of one byte each.** -/
def AreAscii (letters : List Char) : Prop := ∀ c ∈ letters, c.toNat < 128

/-- The letters of a segment are, and none of them is NUL. -/
theorem toNat_of_isSegmentChar {c : Char} (h : Path.isSegmentChar c) :
    0 < c.toNat ∧ c.toNat < 128 := by
  unfold Path.isSegmentChar Char.isAlphanum Char.isAlpha Char.isUpper
    Char.isLower Char.isDigit at h
  simp only [Bool.or_eq_true, Bool.and_eq_true, decide_eq_true_eq,
    beq_iff_eq] at h
  change (((((65 ≤ c.toNat ∧ c.toNat ≤ 90) ∨ (97 ≤ c.toNat ∧ c.toNat ≤ 122)) ∨
    (48 ≤ c.toNat ∧ c.toNat ≤ 57)) ∨ c = '.') ∨ c = '_') ∨ c = '-' at h
  obtain ((h | rfl) | rfl) | rfl := h
  · omega
  all_goals decide

theorem areAscii_of_isSegment {letters : List Char}
    (h : Path.isSegment letters) : AreAscii letters := by
  unfold Path.isSegment at h
  rw [Bool.and_eq_true, List.all_eq_true] at h
  exact fun c hc => (toNat_of_isSegmentChar (h.2 c hc)).2

/-- The byte of a letter is its code. -/
theorem toNat_ofNat {code : Nat} (h : code < 128) :
    (UInt8.ofNat code).toNat = code := by
  rw [UInt8.toNat_ofNat']
  exact Nat.mod_eq_of_lt (Nat.lt_trans h (by decide))

/-- The bytes of such letters are their codes. -/
theorem encode_of_areAscii {text : String} (h : AreAscii text.toList) :
    encode text = text.toList.map fun c => UInt8.ofNat c.toNat := by
  unfold encode
  revert h
  generalize text.toList = letters
  intro h
  induction letters with
  | nil => rfl
  | cons c letters ih =>
    obtain ⟨hc, hletters⟩ := List.forall_mem_cons.1 h
    have hone : String.utf8EncodeChar c = [UInt8.ofNat c.toNat] :=
      if_pos (Nat.le_of_lt_succ hc)
    rw [List.flatMap_cons, List.map_cons, ih hletters, hone]
    rfl

/-- **What is written in such letters is read back.** -/
theorem decode_encode {text : String} (h : AreAscii text.toList) :
    decode (encode text) = text := by
  rw [encode_of_areAscii h, decode, ← String.toList_inj, String.toList_ofList]
  revert h
  generalize text.toList = letters
  intro h
  induction letters with
  | nil => rfl
  | cons c letters ih =>
    obtain ⟨hc, hletters⟩ := List.forall_mem_cons.1 h
    have hcode : (UInt8.ofNat c.toNat).toNat = c.toNat := toNat_ofNat hc
    have hsmall : UInt8.ofNat c.toNat < 0x80 :=
      UInt8.lt_iff_toNat_lt.2 (hcode.symm ▸ hc)
    have hfirst : nextByte .fresh (UInt8.ofNat c.toNat) = ([c], .fresh) := by
      refine (if_pos hsmall).trans ?_
      rw [hcode, Char.ofNat_toNat]
    rw [List.map_cons, decodeFrom, hfirst]
    exact congrArg (List.cons c) (ih hletters)

/-- Letters that are not NUL have no NUL in them. -/
theorem zero_notMem_encode {text : String} (h : AreAscii text.toList)
    (hpos : ∀ c ∈ text.toList, 0 < c.toNat) : 0 ∉ encode text := by
  rw [encode_of_areAscii h]
  intro hmem
  obtain ⟨c, hc, hzero⟩ := List.mem_map.1 hmem
  have hcode := toNat_ofNat (h c hc)
  rw [hzero] at hcode
  exact absurd hcode (Nat.ne_of_lt (hpos c hc))

/-! ## Bytes that read as ASCII -/

/-- **Code points of longer characters**, from `first` up to `last`, which is
none of them: beyond ASCII, and no surrogates. -/
def AreLong (first last : Nat) : Prop :=
  128 ≤ first ∧ (last ≤ 0xD800 ∨ (0xE000 ≤ first ∧ last ≤ 0x110000))

/-- Some of them are such, too. -/
theorem AreLong.of_le {first last lower upper : Nat} (h : AreLong first last)
    (hfirst : first ≤ lower) (hlast : upper ≤ last) : AreLong lower upper := by
  unfold AreLong at h ⊢
  omega

/-- A character is what its code says. -/
theorem toNat_charOfNat {code : Nat} (h : code.isValidChar) :
    (Char.ofNat code).toNat = code := by
  unfold Char.ofNat
  rw [dif_pos h]
  rfl

theorem AreLong.le_toNat {code : Nat} (h : AreLong code (code + 1)) :
    128 ≤ (Char.ofNat code).toNat := by
  have hvalid : code.isValidChar := by
    unfold AreLong at h
    unfold Nat.isValidChar
    omega
  rw [toNat_charOfNat hvalid]
  exact h.1

/-- **What has been read is a part of a longer character**, whatever follows:
the code points it may yet become are all of them such. -/
def Progress.IsLong : Progress → Prop
  | .fresh => False
  | .within bits low high missing =>
    AreLong ((bits * 64 + (low.toNat - 0x80)) * 64 ^ (missing - 1))
      ((bits * 64 + (high.toNat - 0x80) + 1) * 64 ^ (missing - 1))

/-- **The first byte of a character** is the whole of it if it is ASCII. Any
other is the start of a longer one, or stands for nothing. -/
theorem firstByte_cases (byte : UInt8) :
    (byte.toNat < 128 ∧ firstByte byte = ([Char.ofNat byte.toNat], .fresh)) ∨
      firstByte byte = ([replacement], .fresh) ∨
      ∃ read : Progress, read.IsLong ∧ firstByte byte = ([], read) := by
  unfold firstByte
  simp only [UInt8.lt_iff_toNat_lt]
  split
  · next h => exact .inl ⟨h, rfl⟩
  split
  · exact .inr (.inl rfl)
  -- the ranges of the second byte keep out what is no longer character
  split
  · refine .inr (.inr ⟨_, ?_, rfl⟩)
    simp only [Progress.IsLong, AreLong, UInt8.reduceToNat] at *
    omega
  split
  · refine .inr (.inr ⟨_, ?_, rfl⟩)
    simp only [← UInt8.toNat_inj]
    simp only [Progress.IsLong, AreLong, UInt8.reduceToNat] at *
    split <;> split <;> simp only [UInt8.reduceToNat] <;> omega
  split
  · refine .inr (.inr ⟨_, ?_, rfl⟩)
    simp only [← UInt8.toNat_inj]
    simp only [Progress.IsLong, AreLong, UInt8.reduceToNat] at *
    split <;> split <;> simp only [UInt8.reduceToNat] <;> omega
  · exact .inr (.inl rfl)

/-- **A longer character that has begun shows**, whatever follows: it is
completed, or broken off. By induction on the bytes that follow. -/
theorem exists_long {read : Progress} (h : read.IsLong) (bytes : List UInt8) :
    ∃ c ∈ decodeFrom read bytes, 128 ≤ c.toNat := by
  have hbroken : 128 ≤ replacement.toNat := by decide
  induction bytes generalizing read with
  | nil =>
    cases read with
    | fresh => exact absurd h id
    | within bits low high missing =>
      exact ⟨replacement, List.mem_singleton_self _, hbroken⟩
  | cons byte rest ih =>
    cases read with
    | fresh => exact absurd h id
    | within bits low high missing =>
      unfold decodeFrom nextByte
      dsimp only
      split
      · next hin =>
        have hlow := UInt8.le_iff_toNat_le.1 hin.1
        have hhigh := UInt8.le_iff_toNat_le.1 hin.2
        -- what it may become is now among what it might have become
        have hlong : AreLong
            ((bits * 64 + (byte.toNat - 0x80)) * 64 ^ (missing - 1))
            ((bits * 64 + (byte.toNat - 0x80) + 1) * 64 ^ (missing - 1)) :=
          AreLong.of_le h (Nat.mul_le_mul_right _ (by omega))
            (Nat.mul_le_mul_right _ (by omega))
        generalize bits * 64 + (byte.toNat - 0x80) = code at hlong ⊢
        split
        · refine ⟨Char.ofNat code, List.mem_append_left _ List.mem_cons_self, ?_⟩
          exact AreLong.le_toNat (by simpa using hlong)
        · refine ⟨Char.ofNat code, List.mem_append_left _ List.mem_cons_self, ?_⟩
          exact AreLong.le_toNat (by simpa using hlong)
        · next missing =>
          refine ih ?_
          show AreLong ((code * 64 + 0) * 64 ^ missing)
            ((code * 64 + 64) * 64 ^ missing)
          rw [Nat.add_zero, ← Nat.succ_mul, Nat.mul_assoc, Nat.mul_assoc,
            Nat.mul_comm 64, ← Nat.pow_succ]
          exact hlong
      · exact ⟨replacement, List.mem_append_left _ List.mem_cons_self, hbroken⟩

theorem decodeFrom_fresh_cons (byte : UInt8) (rest : List UInt8) :
    decodeFrom .fresh (byte :: rest) =
      (firstByte byte).1 ++ decodeFrom (firstByte byte).2 rest := rfl

/-- **What reads as ASCII was written in it**: the text has just the bytes it
was read from. -/
theorem encode_decode {bytes : List UInt8}
    (h : AreAscii (decode bytes).toList) : encode (decode bytes) = bytes := by
  rw [encode_of_areAscii h]
  unfold decode at h ⊢
  rw [String.toList_ofList] at h ⊢
  induction bytes with
  | nil => rfl
  | cons byte rest ih =>
    rw [decodeFrom_fresh_cons] at h ⊢
    obtain ⟨hsmall, hbyte⟩ | hbyte | ⟨read, hlong, hbyte⟩ := firstByte_cases byte
    · rw [hbyte] at h ⊢
      have hcode : (Char.ofNat byte.toNat).toNat = byte.toNat :=
        toNat_charOfNat (.inl (by omega))
      rw [List.map_append, List.map_singleton, hcode, UInt8.ofNat_toNat,
        ih fun c hc => h c (List.mem_append_right _ hc)]
      rfl
    · rw [hbyte] at h
      exact absurd (h replacement (List.mem_append_left _ List.mem_cons_self))
        (by decide)
    · rw [hbyte] at h
      obtain ⟨c, hc, hbig⟩ := exists_long hlong rest
      exact absurd (h c (List.mem_append_right _ hc)) (Nat.not_lt.2 hbig)

end Text
end PathStore
