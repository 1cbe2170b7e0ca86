import PathStore.Path.Order
import Mathlib.Data.List.Basic

/-!
# A well-formed path is the list of its segments

`Path.ofSegments` writes a list of segments as a path, and
`Path.segments` reads the list back. On lists of segments and well-formed
paths the two are inverse to each other, so every question about
well-formed paths is a question about lists: the parent of a path is the
list without its last segment, and a path is beneath another if the
other's list is a proper beginning of its own.

## Why lists

The operations on paths search strings for slashes, each in its own
direction and with its own case for the top. On lists there is no top to
except and no slash to look for, and the laws that tie the operations to
one another are those of prefixes.
-/

namespace PathStore
namespace Path

/-- The characters of a list of words, each of them behind a slash. -/
def spell (words : List String) : List Char :=
  words.flatMap fun word => '/' :: word.toList

/-- **The path of a list of segments**, outermost first. -/
def ofSegments (words : List String) : String :=
  if words = [] then "/" else String.ofList (spell words)

/-- **Words that can be the segments of a path.** -/
def AreSegments (words : List String) : Prop :=
  ∀ word ∈ words, isSegment word.toList

@[simp] theorem spell_nil : spell [] = [] := rfl

@[simp] theorem spell_cons (word : String) (words : List String) :
    spell (word :: words) = '/' :: (word.toList ++ spell words) := rfl

theorem spell_append (words more : List String) :
    spell (words ++ more) = spell words ++ spell more :=
  List.flatMap_append

@[simp] theorem ofSegments_nil : ofSegments [] = "/" := rfl

theorem ofSegments_of_ne_nil {words : List String} (h : words ≠ []) :
    ofSegments words = String.ofList (spell words) :=
  if_neg h

theorem toList_ofSegments {words : List String} (h : words ≠ []) :
    (ofSegments words).toList = spell words := by
  rw [ofSegments_of_ne_nil h, String.toList_ofList]

/-! ## Words over the alphabet -/

theorem ne_nil_of_isSegment {word : List Char} (h : isSegment word) :
    word ≠ [] := by
  rintro rfl
  exact Bool.false_ne_true h

/-- The slash is no letter of the alphabet. -/
theorem slash_notMem_of_isSegment {word : List Char} (h : isSegment word) :
    '/' ∉ word := by
  intro hmem
  unfold isSegment at h
  rw [Bool.and_eq_true, List.all_eq_true] at h
  exact absurd (h.2 '/' hmem) (by decide)

theorem AreSegments.nil : AreSegments [] := fun _ h => absurd h List.not_mem_nil

theorem AreSegments.append_iff {words more : List String} :
    AreSegments (words ++ more) ↔ AreSegments words ∧ AreSegments more :=
  List.forall_mem_append

theorem AreSegments.cons_iff {word : String} {words : List String} :
    AreSegments (word :: words) ↔ isSegment word.toList ∧ AreSegments words :=
  List.forall_mem_cons

/-- A beginning of a list of segments is one. -/
theorem AreSegments.of_isPrefix {words more : List String}
    (h : AreSegments more) (hbegins : words <+: more) : AreSegments words :=
  fun word hmem => h word (hbegins.subset hmem)

/-- What is spelled begins with a slash unless it is nothing. -/
theorem spell_eq_nil_or_slash (words : List String) :
    spell words = [] ∨ ∃ rest, spell words = '/' :: rest := by
  cases words with
  | nil => exact .inl rfl
  | cons word words => exact .inr ⟨_, rfl⟩

theorem spell_eq_slash_intercalate {words : List String} (h : words ≠ []) :
    spell words = '/' :: ['/'].intercalate (words.map String.toList) := by
  induction words with
  | nil => exact absurd rfl h
  | cons word words ih =>
    cases words with
    | nil =>
      rw [spell_cons, spell_nil, List.append_nil, List.map_singleton,
        List.intercalate_singleton]
    | cons next words =>
      rw [spell_cons, ih (List.cons_ne_nil _ _)]
      simp only [List.map_cons, List.intercalate_cons_cons, List.append_assoc]
      rfl

/-- Words over the alphabet are told apart by the slashes between them. -/
theorem splitOn_intercalate_toList {words : List String} (hne : words ≠ [])
    (h : AreSegments words) :
    (['/'].intercalate (words.map String.toList)).splitOn '/' =
      words.map String.toList := by
  refine List.splitOn_intercalate '/' ?_ (by simpa using hne)
  intro letters hmem
  obtain ⟨word, hword, rfl⟩ := List.mem_map.1 hmem
  exact slash_notMem_of_isSegment (h word hword)

/-! ## Writing and reading -/

/-- **Reading back what was written.** -/
theorem segments_ofSegments {words : List String} (h : AreSegments words) :
    segments (ofSegments words) = words := by
  unfold segments
  by_cases hnil : words = []
  · rw [hnil]
    rfl
  have hfull : ∀ letters ∈ words.map String.toList,
      (!letters.isEmpty) = true := by
    intro letters hmem
    obtain ⟨word, hword, rfl⟩ := List.mem_map.1 hmem
    simpa using ne_nil_of_isSegment (h word hword)
  have hsplit : (spell words).splitOn '/' =
      [] :: words.map String.toList := by
    rw [spell_eq_slash_intercalate hnil]
    refine (List.splitOn_append_cons_self [] _).trans ?_
    rw [splitOn_intercalate_toList hnil h]
    rfl
  rw [toList_ofSegments hnil, hsplit, List.filter_cons_of_neg (by simp),
    List.filter_eq_self.2 hfull, List.map_map]
  exact (List.map_congr_left fun _ _ => String.ofList_toList).trans
    (List.map_id _)

theorem isValid_iff_toList (path : String) :
    isValid path ↔ path = "/" ∨ ∃ rest, path.toList = '/' :: rest ∧
      ∀ word ∈ rest.splitOn '/', isSegment word := by
  unfold isValid
  rw [Bool.or_eq_true, beq_iff_eq]
  refine or_congr Iff.rfl ?_
  split
  · next rest hrest =>
    rw [List.all_eq_true]
    constructor
    · exact fun h => ⟨rest, hrest, h⟩
    · rintro ⟨other, hother, h⟩
      rw [hrest] at hother
      cases hother
      exact h
  · next hno =>
    constructor
    · exact fun h => absurd h Bool.false_ne_true
    · rintro ⟨rest, hrest, _⟩
      exact absurd hrest (hno rest)

/-- **A path is well-formed exactly if segments write it.** -/
theorem isValid_iff_ofSegments (path : String) :
    isValid path ↔ ∃ words, AreSegments words ∧ path = ofSegments words := by
  rw [isValid_iff_toList]
  constructor
  · rintro (rfl | ⟨rest, hrest, hwords⟩)
    · exact ⟨[], AreSegments.nil, rfl⟩
    have hne : (rest.splitOn '/').map String.ofList ≠ [] := by
      simp [List.splitOn_ne_nil]
    refine ⟨(rest.splitOn '/').map String.ofList, ?_, ?_⟩
    · intro word hmem
      obtain ⟨letters, hletters, rfl⟩ := List.mem_map.1 hmem
      rw [String.toList_ofList]
      exact hwords letters hletters
    · refine String.toList_inj.1 ?_
      rw [toList_ofSegments hne, spell_eq_slash_intercalate hne, hrest,
        List.map_map]
      have hid : String.toList ∘ String.ofList = id :=
        funext fun _ => String.toList_ofList
      rw [hid, List.map_id, List.intercalate_splitOn]
  · rintro ⟨words, hwords, rfl⟩
    by_cases hnil : words = []
    · exact .inl (by rw [hnil]; rfl)
    refine .inr ⟨['/'].intercalate (words.map String.toList), ?_, ?_⟩
    · rw [toList_ofSegments hnil, spell_eq_slash_intercalate hnil]
    · rw [splitOn_intercalate_toList hnil hwords]
      intro letters hmem
      obtain ⟨word, hword, rfl⟩ := List.mem_map.1 hmem
      exact hwords word hword

theorem isValid_ofSegments {words : List String} (h : AreSegments words) :
    isValid (ofSegments words) :=
  (isValid_iff_ofSegments _).2 ⟨words, h, rfl⟩

/-- **Writing back what was read.** -/
theorem ofSegments_segments {path : String} (h : isValid path) :
    ofSegments (segments path) = path := by
  obtain ⟨words, hwords, rfl⟩ := (isValid_iff_ofSegments path).1 h
  rw [segments_ofSegments hwords]

theorem areSegments_segments {path : String} (h : isValid path) :
    AreSegments (segments path) := by
  obtain ⟨words, hwords, rfl⟩ := (isValid_iff_ofSegments path).1 h
  rw [segments_ofSegments hwords]
  exact hwords

/-- A well-formed path is determined by its segments. -/
theorem segments_inj {path other : String} (h : isValid path)
    (hother : isValid other) : segments path = segments other ↔ path = other :=
  ⟨fun heq => by
    rw [← ofSegments_segments h, heq, ofSegments_segments hother],
    congrArg segments⟩

@[simp] theorem segments_top : segments "/" = [] := rfl

theorem segments_eq_nil_iff {path : String} (h : isValid path) :
    segments path = [] ↔ path = "/" := by
  rw [← segments_top]
  exact segments_inj h rfl

end Path
end PathStore
