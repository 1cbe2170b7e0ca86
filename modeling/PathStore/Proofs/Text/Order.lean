import PathStore.Text.Lossy
import Mathlib.Algebra.Group.Nat.Defs
import Mathlib.Data.List.Basic

/-!
# The order of texts is that of their bytes

Texts are compared by the codes of their characters. Written in UTF-8 they are
compared byte by byte, and to the same end (`Text.compare_encode`), whatever
characters they hold.

The reason lies in a single character. The more bytes it takes the greater is
the first of them (`Text.lead`); and characters of as many bytes are numbers
written with as many digits (`Text.trail`), which differ first where the greater
has the greater digit. So two characters part within their own bytes, and what
stands behind them has no say (`Text.compare_utf8EncodeChar_append`).
-/

namespace PathStore

/-- **What two lists begin with alike has no say in their order.** -/
theorem compare_append_left {α : Type u} [Ord α] [Std.ReflOrd α]
    (front rest more : List α) :
    compare (front ++ rest) (front ++ more) = compare rest more := by
  induction front with
  | nil => rfl
  | cons first front ih =>
    have hself : compare first first = .eq := Std.ReflCmp.compare_self
    rw [List.cons_append, List.cons_append, List.compare_cons_cons, hself,
      Ordering.eq_then, ih]

namespace Text

/-! ## Characters -/

/-- **The first byte of a character**, by its code, and how many bytes are
behind it. -/
def lead (code : Nat) : Nat × Nat :=
  if code ≤ 0x7F then (code, 0)
  else if code ≤ 0x7FF then (code / 64 + 0xC0, 1)
  else if code ≤ 0xFFFF then (code / 64 ^ 2 + 0xE0, 2)
  else (code / 64 ^ 3 + 0xF0, 3)

/-- **The bytes behind the first**, `count` of them: the last digits of the
code, of six bits each, the highest first. -/
def trail (code : Nat) : Nat → List UInt8
  | 0 => []
  | count + 1 =>
    UInt8.ofNat (code / 64 ^ count % 64 + 0x80) :: trail code count

/-- The four lengths of characters, by the codes they are for. -/
theorem lead_cases (code : Nat) :
    (lead code = (code, 0) ∧ code ≤ 0x7F) ∨
      (lead code = (code / 64 + 0xC0, 1) ∧ 0x7F < code ∧ code ≤ 0x7FF) ∨
      (lead code = (code / 64 ^ 2 + 0xE0, 2) ∧
        0x7FF < code ∧ code ≤ 0xFFFF) ∨
      (lead code = (code / 64 ^ 3 + 0xF0, 3) ∧ 0xFFFF < code) := by
  unfold lead
  split
  · next h => exact .inl ⟨rfl, h⟩
  split
  · next hlow h => exact .inr (.inl ⟨rfl, Nat.not_le.1 hlow, h⟩)
  split
  · next hlow h => exact .inr (.inr (.inl ⟨rfl, Nat.not_le.1 hlow, h⟩))
  · next hlow => exact .inr (.inr (.inr ⟨rfl, Nat.not_le.1 hlow⟩))

/-- Codes end below this. -/
theorem toNat_lt (c : Char) : c.toNat < 0x110000 := by
  obtain h | h := c.valid
  · exact Nat.lt_trans h (by decide)
  · exact h.2

/-- **A character is its first byte and those behind it.** -/
theorem utf8EncodeChar_eq (c : Char) :
    String.utf8EncodeChar c =
      UInt8.ofNat (lead c.toNat).1 :: trail c.toNat (lead c.toNat).2 := by
  have hc := toNat_lt c
  unfold String.utf8EncodeChar lead
  rw [Char.toNat_val]
  generalize c.toNat = code at *
  dsimp only
  -- nothing of the code is cut off in the first byte
  split
  · rfl
  split
  · have h : code / 64 % 0x20 = code / 64 := by omega
    simp only [h, trail, Nat.pow_zero, Nat.div_one]
  split
  · have h : code / 4096 % 0x10 = code / 4096 := by omega
    simp only [h, trail, Nat.pow_zero, Nat.div_one, Nat.reducePow]
  · have h : code / 262144 % 0x08 = code / 262144 := by omega
    simp only [h, trail, Nat.pow_zero, Nat.div_one, Nat.reducePow]

theorem lead_lt {code : Nat} (h : code < 0x110000) : (lead code).1 < 256 := by
  obtain ⟨heq, _⟩ | ⟨heq, _⟩ | ⟨heq, _⟩ | ⟨heq, _⟩ := lead_cases code <;>
    rw [heq] <;> dsimp only <;> omega

/-- A first byte that is ASCII is the whole of its character. -/
theorem lead_eq_of_lt {code : Nat} (h : (lead code).1 < 128) :
    (lead code).1 = code := by
  obtain ⟨heq, _⟩ | ⟨heq, _⟩ | ⟨heq, _⟩ | ⟨heq, _⟩ := lead_cases code <;>
    rw [heq] at h ⊢ <;> dsimp only at h ⊢ <;> omega

/-- The bytes behind the first are not ASCII. -/
theorem le_toNat_of_mem_trail {code count : Nat} {byte : UInt8}
    (h : byte ∈ trail code count) : 128 ≤ byte.toNat := by
  induction count with
  | zero => cases h
  | succ count ih =>
    obtain rfl | h := List.mem_cons.1 h
    · rw [UInt8.toNat_ofNat']
      omega
    · exact ih h

/-- **The first byte decides**, or there are as many bytes behind it and they
are the digits in which the codes differ. -/
theorem lead_lt_or {code other : Nat} (h : code < other)
    (hother : other < 0x110000) :
    (lead code).1 < (lead other).1 ∨
      (lead code).1 = (lead other).1 ∧ (lead code).2 = (lead other).2 ∧
        code / 64 ^ (lead code).2 = other / 64 ^ (lead code).2 := by
  obtain ⟨hc, _⟩ | ⟨hc, _⟩ | ⟨hc, _⟩ | ⟨hc, _⟩ := lead_cases code <;>
    obtain ⟨hd, _⟩ | ⟨hd, _⟩ | ⟨hd, _⟩ | ⟨hd, _⟩ := lead_cases other <;>
    rw [hc, hd] <;> dsimp only <;> omega

/-- Bytes are compared as the numbers they are. -/
theorem compare_cons_eq_lt_iff {code other : Nat} (h : code < 256)
    (hother : other < 256) {rest more : List UInt8} :
    compare (UInt8.ofNat code :: rest) (UInt8.ofNat other :: more) = .lt ↔
      code < other ∨ code = other ∧ compare rest more = .lt := by
  rw [List.compare_cons_cons, Ordering.then_eq_lt, Std.compare_eq_iff_eq,
    ← UInt8.toNat_inj, UInt8.toNat_ofNat', UInt8.toNat_ofNat',
    Nat.mod_eq_of_lt h, Nat.mod_eq_of_lt hother]
  refine or_congr_left (compareOfLessAndEq_eq_lt.trans ?_)
  rw [UInt8.lt_iff_toNat_lt, UInt8.toNat_ofNat', UInt8.toNat_ofNat',
    Nat.mod_eq_of_lt h, Nat.mod_eq_of_lt hother]

/-- **Numbers are compared digit by digit.** By induction on the digits: those
of the rest are compared where the first are the same. -/
theorem compare_trail_append {code other count : Nat} (h : code < other)
    (hfront : code / 64 ^ count = other / 64 ^ count)
    (rest more : List UInt8) :
    compare (trail code count ++ rest) (trail other count ++ more) = .lt := by
  induction count with
  | zero =>
    rw [Nat.pow_zero, Nat.div_one, Nat.div_one] at hfront
    exact absurd hfront (Nat.ne_of_lt h)
  | succ count ih =>
    rw [Nat.pow_succ, ← Nat.div_div_eq_div_mul, ← Nat.div_div_eq_div_mul]
      at hfront
    have hle := Nat.div_le_div_right (c := 64 ^ count) (Nat.le_of_lt h)
    rw [trail, trail, List.cons_append, List.cons_append,
      compare_cons_eq_lt_iff (by omega) (by omega)]
    obtain hlt | heq := Nat.lt_or_eq_of_le hle
    · exact .inl (by omega)
    · exact .inr ⟨by rw [heq], ih heq⟩

/-- **Characters part within their own bytes**, whatever stands behind
them. -/
theorem compare_utf8EncodeChar_append {c d : Char} (h : c < d)
    (rest more : List UInt8) :
    compare (String.utf8EncodeChar c ++ rest)
      (String.utf8EncodeChar d ++ more) = .lt := by
  rw [utf8EncodeChar_eq, utf8EncodeChar_eq, List.cons_append,
    List.cons_append, compare_cons_eq_lt_iff (lead_lt (toNat_lt c))
      (lead_lt (toNat_lt d))]
  have hcode : c.toNat < d.toNat := h
  refine (lead_lt_or hcode (toNat_lt d)).imp_right ?_
  rintro ⟨hsame, hcount, hfront⟩
  rw [← hcount]
  exact ⟨hsame, compare_trail_append hcode hfront rest more⟩

/-! ## Texts -/

theorem compare_encode_of_lt {text other : String} (h : text < other) :
    compare (encode text) (encode other) = .lt := by
  rw [String.lt_iff] at h
  unfold encode
  revert h
  generalize text.toList = letters
  generalize other.toList = others
  intro h
  induction letters generalizing others with
  | nil =>
    cases others with
    | nil => exact absurd h (List.not_lt_nil _)
    | cons d others =>
      rw [List.flatMap_nil, List.flatMap_cons, utf8EncodeChar_eq]
      rfl
  | cons c letters ih =>
    cases others with
    | nil => exact absurd h (List.not_lt_nil _)
    | cons d others =>
      rw [List.flatMap_cons, List.flatMap_cons]
      obtain hlt | ⟨rfl, hlt⟩ := List.cons_lt_cons_iff.1 h
      · exact compare_utf8EncodeChar_append hlt _ _
      · rw [compare_append_left]
        exact ih others hlt

/-- **Texts are compared as their bytes are.** -/
theorem compare_encode (text other : String) :
    compare (encode text) (encode other) = compare text other := by
  cases h : compare text other with
  | lt => exact compare_encode_of_lt (compareOfLessAndEq_eq_lt.1 h)
  | eq =>
    rw [Std.compare_eq_iff_eq] at h
    rw [h]
    exact Std.ReflCmp.compare_self
  | gt =>
    rw [Std.OrientedCmp.gt_iff_lt] at h ⊢
    exact compare_encode_of_lt (compareOfLessAndEq_eq_lt.1 h)

/-- **Texts are told apart by their bytes.** -/
theorem encode_inj {text other : String} :
    encode text = encode other ↔ text = other := by
  rw [← Std.compare_eq_iff_eq, compare_encode, Std.compare_eq_iff_eq]

/-- The order is not that of the units of UTF-16, in which the second character
begins with a surrogate. -/
example : "\uFFFF" < "𐀀" ∧ compare (encode "\uFFFF") (encode "𐀀") = .lt := by
  decide

end Text
end PathStore
