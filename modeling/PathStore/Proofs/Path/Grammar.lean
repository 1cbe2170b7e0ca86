import PathStore.Entry
import PathStore.Proofs.Path.Preorder
import Mathlib.Order.Preorder.Chain

/-!
# The grammar of paths

Four functions look for slashes, each in its own way: `isValid` takes a string
apart from the left, `parent?` and `name` look from the right, and `join` puts a
slash in unless there is one already. On well-formed paths they are two ways of
one thing. A path below the top **divides** into the path of a directory and a
word, in one way only, and the two are its parent and its name
(`Path.grammar`).

What is beneath what is decided by yet another look at the letters: whether the
one string goes on from the other with a slash. That is the same as to climb
from parent to parent (`Path.below_is_ancestry`), so the well-formed paths are a
tree, with the top as its root.
-/

namespace PathStore
namespace Path

variable {path dir child word : String} {words : List String}

/-! ## Words -/

/-- **The letters of words**, range by range. -/
def IsLetter (c : Char) : Prop :=
  ('A' ≤ c ∧ c ≤ 'Z') ∨ ('a' ≤ c ∧ c ≤ 'z') ∨ ('0' ≤ c ∧ c ≤ '9') ∨
    c = '.' ∨ c = '_' ∨ c = '-'

/-- **A word**: letters, at least one. -/
def IsWord (word : String) : Prop := word ≠ "" ∧ ∀ c ∈ word.toList, IsLetter c

theorem isLetter_iff {c : Char} : IsLetter c ↔ isSegmentChar c := by
  unfold IsLetter isSegmentChar Char.isAlphanum Char.isAlpha Char.isUpper
    Char.isLower Char.isDigit
  simp only [Bool.or_eq_true, Bool.and_eq_true, decide_eq_true_eq, beq_iff_eq]
  rw [or_assoc, or_assoc, or_assoc, or_assoc]
  rfl

/-- The words are the segments. -/
theorem isWord_iff : IsWord word ↔ isSegment word.toList := by
  unfold IsWord isSegment
  rw [Bool.and_eq_true, List.all_eq_true, Bool.not_eq_true',
    List.isEmpty_eq_false_iff, ne_eq, ne_eq, String.toList_eq_nil_iff]
  exact and_congr_right fun _ => forall₂_congr fun _ _ => isLetter_iff

/-- **What pieces spell**, each a slash and a word. -/
theorem toList_join_map (words : List String) :
    (String.join (words.map fun word => "/" ++ word)).toList = spell words := by
  induction words with
  | nil => rfl
  | cons word words ih =>
    rw [List.map_cons, String.join_cons, String.toList_append, ih,
      String.toList_append, spell_cons]
    rfl

/-- **A well-formed path is the top, or one or more pieces.** -/
theorem isValid_iff_pieces : isValid path ↔ path = "/" ∨
    ∃ words : List String, words ≠ [] ∧ (∀ word ∈ words, IsWord word) ∧
      path = String.join (words.map fun word => "/" ++ word) := by
  have hpieces : ∀ words, words ≠ [] → ofSegments words =
      String.join (words.map fun word => "/" ++ word) := by
    intro words hne
    rw [← String.toList_inj, toList_ofSegments hne, toList_join_map]
  rw [isValid_iff_ofSegments]
  constructor
  · rintro ⟨words, hwords, rfl⟩
    by_cases hne : words = []
    · exact .inl (by rw [hne]; rfl)
    · exact .inr ⟨words, hne, fun word hmem => isWord_iff.2 (hwords word hmem),
        hpieces words hne⟩
  · rintro (rfl | ⟨words, hne, hwords, rfl⟩)
    · exact ⟨[], .nil, rfl⟩
    · exact ⟨words, fun word hmem => isWord_iff.1 (hwords word hmem),
        (hpieces words hne).symm⟩

/-! ## Joining -/

/-- **To join is to add a segment.** -/
theorem join_eq_ofSegments (h : isValid dir) (word : String) :
    join dir word = ofSegments (segments dir ++ [word]) := by
  have hne : segments dir ++ [word] ≠ [] := by simp
  rw [← String.toList_inj, toList_ofSegments hne, spell_append, spell_cons,
    spell_nil, List.append_nil]
  unfold join
  split
  · next htop =>
    rw [htop, segments_top, spell_nil, String.toList_append]
    rfl
  · next htop =>
    rw [String.toList_append, String.toList_append, toList_eq_spell h htop,
      List.append_assoc]
    rfl

/-- **A child is its parent joined with its last segment.** -/
theorem join_eq (h : isValid path) (hchild : isValid child)
    (hsegments : segments child = segments path ++ [word]) :
    join path word = child := by
  rw [join_eq_ofSegments h, ← hsegments, ofSegments_segments hchild]

section Join

variable (h : isValid dir) (hword : isSegment word.toList)

include h hword

theorem areSegments_concat : AreSegments (segments dir ++ [word]) :=
  AreSegments.append_iff.2 ⟨areSegments_segments h,
    fun _ hmem => List.mem_singleton.1 hmem ▸ hword⟩

theorem isValid_join : isValid (join dir word) := by
  rw [join_eq_ofSegments h]
  exact isValid_ofSegments (areSegments_concat h hword)

theorem segments_join : segments (join dir word) = segments dir ++ [word] := by
  rw [join_eq_ofSegments h]
  exact segments_ofSegments (areSegments_concat h hword)

/-- **The parent of a child** is what it was joined to. -/
theorem parent?_join : parent? (join dir word) = some dir := by
  rw [join_eq_ofSegments h, parent?_ofSegments_concat hword,
    ofSegments_segments h]

theorem join_ne_top : join dir word ≠ "/" := by
  intro heq
  have hparent := parent?_join h hword
  rw [heq] at hparent
  cases hparent

end Join

/-- **What is joined without a slash is the name.** -/
theorem name_join (dir : String) (h : '/' ∉ word.toList) :
    name (join dir word) = word := by
  obtain ⟨front, hfront⟩ :
      ∃ front, (join dir word).toList = front ++ '/' :: word.toList := by
    unfold join
    split
    · exact ⟨[], String.toList_append⟩
    · refine ⟨dir.toList, ?_⟩
      rw [String.toList_append, String.toList_append, List.append_assoc]
      rfl
  have hkept : ∀ c ∈ word.toList.reverse, (c != '/') = true := by
    intro c hc
    have hne : c ≠ '/' := by
      rintro rfl
      exact h (List.mem_reverse.1 hc)
    simpa using hne
  unfold name
  rw [hfront, List.reverse_append, List.reverse_cons, List.append_assoc,
    List.takeWhile_append_of_pos hkept, List.singleton_append,
    List.takeWhile_cons_of_neg (by simp), List.append_nil, List.reverse_reverse,
    String.ofList_toList]

/-- **The grammar of paths**, and the one way to divide them. A string is a
well-formed path if it is the top or one or more pieces, each a slash and a
word. A well-formed path joined with a word is a well-formed path, of which the
two are the parent and the name. And each that is not the top is its parent
joined with its name, and nothing else joined with a word. -/
theorem grammar (path : String) :
    (isValid path ↔ path = "/" ∨
      ∃ words : List String, words ≠ [] ∧ (∀ word ∈ words, IsWord word) ∧
        path = String.join (words.map fun word => "/" ++ word)) ∧
    (∀ word, isValid path → IsWord word →
      isValid (join path word) ∧ parent? (join path word) = some path ∧
        ∀ entry : Entry, entry.path = join path word → entry.name = word) ∧
    (isValid path → path ≠ "/" →
      ∃ dir, parent? path = some dir ∧ isValid dir ∧ IsWord (name path) ∧
        path = join dir (name path) ∧
        ∀ other word, isValid other → IsWord word → path = join other word →
          other = dir ∧ word = name path) := by
  have hjoin : ∀ {dir word}, isValid dir → IsWord word →
      isValid (join dir word) ∧ parent? (join dir word) = some dir ∧
        name (join dir word) = word := by
    intro dir word hdir hword
    have hsegment := isWord_iff.1 hword
    exact ⟨isValid_join hdir hsegment, parent?_join hdir hsegment,
      name_join dir (slash_notMem_of_isSegment hsegment)⟩
  refine ⟨isValid_iff_pieces, fun word hpath hword => ?_, fun hpath hne => ?_⟩
  · obtain ⟨hvalid, hparent, hname⟩ := hjoin hpath hword
    exact ⟨hvalid, hparent, fun entry hentry => by rw [Entry.name, hentry, hname]⟩
  · obtain ⟨dir, word, hdir, hsegment, hparent, hsegments⟩ :=
      exists_parent? hpath hne
    have hword := isWord_iff.2 hsegment
    obtain rfl := join_eq hdir hpath hsegments
    obtain ⟨_, _, hname⟩ := hjoin hdir hword
    rw [hname]
    refine ⟨dir, hparent, hdir, hword, rfl, fun other more hother hmore heq => ?_⟩
    obtain ⟨_, hsame, hlast⟩ := hjoin hother hmore
    rw [← heq] at hsame hlast
    exact ⟨Option.some.inj (hsame.symm.trans hparent),
      hlast.symm.trans hname⟩

/-- Dots are letters, so there may be no other letter in a word. -/
theorem grammar_dots :
    isValid "/a/.." ∧ "/a/.." ≠ "/" ∧
      ∃ dir, parent? "/a/.." = some dir ∧ IsWord (name "/a/..") ∧
        "/a/.." = join dir (name "/a/..") := by
  have hvalid : isValid "/a/.." := by decide
  have hne : "/a/.." ≠ "/" := by decide
  obtain ⟨dir, hparent, _, hword, heq, _⟩ := (grammar "/a/..").2.2 hvalid hne
  exact ⟨hvalid, hne, dir, hparent, hword, heq⟩

/-! ## Climbing -/

/-- **A well-formed path**, as a value of its own. -/
abbrev WellFormed := {path : String // isValid path}

/-- **The top**, which is one. -/
def top : WellFormed := ⟨"/", rfl⟩

/-- **Strictly beneath**, among well-formed paths. -/
def Below (path dir : WellFormed) : Prop := isDescendant path.1 dir.1

/-- **To be beneath is to climb there**, from parent to parent. Down from the
path the induction is along its parents; up from it, along the climb. -/
theorem isDescendant_iff_transGen (h : isValid path) (hdir : isValid dir) :
    isDescendant path dir ↔ Relation.TransGen
      (fun child parent => parent? child = some parent) path dir := by
  constructor
  · intro hbelow
    induction path, h using parent_induction with
    | top =>
      exact absurd rfl (ne_top_of_isDescendant hdir hbelow)
    | child path parent hpath hparent ih =>
      obtain rfl | hstrict :=
        (isDescendant_iff_parent? hpath hdir hparent).1 hbelow
      · exact .single hparent
      · exact .head hparent (ih hstrict)
  · intro hclimb
    induction hclimb using Relation.TransGen.head_induction_on with
    | single hparent => exact isDescendant_of_parent? h hparent
    | head hparent _ ih =>
      exact (isDescendant_iff_parent? h hdir hparent).2
        (.inr (ih (isValid_of_parent? h hparent)))

theorem below_irrefl (path : WellFormed) : ¬ Below path path :=
  not_isDescendant_self path.2

theorem Below.trans {path mid dir : WellFormed} (h : Below path mid)
    (habove : Below mid dir) : Below path dir :=
  Within.isDescendant path.2 mid.2 dir.2 (.inr h) habove

/-- **Of two paths above a third one is above the other.** Both begin the
segments of the third. -/
theorem Below.comparable {path dir other : WellFormed} (h : Below path dir)
    (hother : Below path other) (hne : dir ≠ other) :
    Below dir other ∨ Below other dir := by
  have hsegments : segments dir.1 ≠ segments other.1 := fun heq =>
    hne (Subtype.ext ((segments_inj dir.2 other.2).1 heq))
  have hdir := ((isDescendant_iff path.2 dir.2).1 h).1
  have hover := ((isDescendant_iff path.2 other.2).1 hother).1
  unfold Below
  rw [isDescendant_iff dir.2 other.2, isDescendant_iff other.2 dir.2]
  obtain hbegins | hbegins := List.prefix_or_prefix_of_prefix hdir hover
  · exact .inr ⟨hbegins, hsegments⟩
  · exact .inl ⟨hbegins, hsegments.symm⟩

/-- **To be beneath is the transitive closure of having a parent**, on
well-formed paths. So it is a strict order there, everything but the top is
beneath the top, and of what a path is beneath any two are comparable. -/
theorem below_is_ancestry :
    (∀ path dir, Below path dir ↔ Relation.TransGen
      (fun child parent => parent? child = some parent) path.1 dir.1) ∧
    IsStrictOrder WellFormed Below ∧
    (∀ path, path ≠ top → Below path top) ∧
    ∀ path, IsChain Below {dir | Below path dir} := by
  refine ⟨fun path dir => isDescendant_iff_transGen path.2 dir.2, ?_,
    fun path hne => ?_, fun path dir hdir other hother hne => ?_⟩
  · exact { irrefl := below_irrefl, trans := fun _ _ _ => Below.trans }
  · exact (isDescendant_top_iff path.2).2 fun heq => hne (Subtype.ext heq)
  · exact Below.comparable hdir hother hne

/-- A name that goes on from another is not beneath it. -/
example : isDescendant "/a/b" "/a" ∧ ¬ isDescendant "/a-b" "/a" ∧
    ¬ isDescendant "/ab" "/a" := by decide

end Path
end PathStore
