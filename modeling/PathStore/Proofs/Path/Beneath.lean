import PathStore.Proofs.Path.Segments
import Mathlib.Data.List.Induction

/-!
# What is beneath what

On well-formed paths the parent of a path is its list of segments without
the last (`parent?_ofSegments_concat`), and `isDescendant` is being a
proper beginning (`isDescendant_iff`). From these two follow the laws the
rest of the theory rests on: a path is beneath another exactly if its
parent is that other or beneath it, and two paths above a third are
comparable.

`Within` is *at or beneath*. It is what a subtree is made of, and its laws
have no exceptions, where those of being strictly beneath except the path
itself.
-/

namespace PathStore
namespace Path

/-- **At or beneath.** -/
def Within (path dir : String) : Prop :=
  path = dir ∨ isDescendant path dir

instance : DecidableRel Within := fun path dir =>
  inferInstanceAs (Decidable (path = dir ∨ isDescendant path dir))

/-! ## Parents -/

/-- **The parent drops the last segment.** -/
theorem parent?_ofSegments_concat {words : List String} {word : String}
    (h : isSegment word.toList) :
    parent? (ofSegments (words ++ [word])) = some (ofSegments words) := by
  have hne : words ++ [word] ≠ [] := by simp
  have hspell : spell (words ++ [word]) = spell words ++ '/' :: word.toList := by
    rw [spell_append, spell_cons, spell_nil, List.append_nil]
  have htop : ofSegments (words ++ [word]) ≠ "/" := by
    intro heq
    have hchars := congrArg String.toList heq
    rw [toList_ofSegments hne, hspell] at hchars
    have hlen := congrArg List.length hchars
    have hpos := List.length_pos_iff.2 (ne_nil_of_isSegment h)
    rw [List.length_append, List.length_cons] at hlen
    exact absurd hlen (by show _ ≠ 1; omega)
  have hdrop : (ofSegments (words ++ [word])).toList.reverse.dropWhile
      (· != '/') = '/' :: (spell words).reverse := by
    rw [toList_ofSegments hne, hspell, List.reverse_append,
      List.reverse_cons, List.append_assoc, List.dropWhile_append_of_pos]
    · rfl
    · intro c hc
      have hne : c ≠ '/' := by
        rintro rfl
        exact slash_notMem_of_isSegment h (List.mem_reverse.1 hc)
      simpa using hne
  unfold parent?
  rw [if_neg htop, hdrop]
  obtain hnil | ⟨rest, hrest⟩ := spell_eq_nil_or_slash words
  · have hwords : words = [] := by
      cases words with
      | nil => rfl
      | cons _ _ => exact absurd hnil (List.cons_ne_nil _ _)
    rw [hwords]
    rfl
  · have hwords : words ≠ [] := by
      rintro rfl
      exact absurd hrest (List.cons_ne_nil _ _).symm
    rw [ofSegments_of_ne_nil hwords]
    split
    · next heq => exact absurd heq (List.cons_ne_nil _ _)
    · next heq =>
      have hlen := congrArg List.length heq
      rw [hrest, List.length_cons, List.length_reverse] at hlen
      exact absurd hlen (by simp)
    · next heq =>
      rw [← (List.cons.inj heq).2, List.reverse_reverse]

@[simp] theorem parent?_top : parent? "/" = none := rfl

/-- A well-formed path other than the top is one segment behind its
parent. -/
theorem exists_parent? {path : String} (h : isValid path) (hne : path ≠ "/") :
    ∃ dir word, isValid dir ∧ isSegment word.toList ∧
      parent? path = some dir ∧ segments path = segments dir ++ [word] := by
  obtain ⟨words, hwords, rfl⟩ := (isValid_iff_ofSegments path).1 h
  obtain rfl | ⟨front, word, rfl⟩ := List.eq_nil_or_concat' words
  · exact absurd rfl hne
  obtain ⟨hfront, hlast⟩ := AreSegments.append_iff.1 hwords
  have hword : isSegment word.toList := hlast word (by simp)
  refine ⟨ofSegments front, word, isValid_ofSegments hfront, hword,
    parent?_ofSegments_concat hword, ?_⟩
  rw [segments_ofSegments hwords, segments_ofSegments hfront]

/-- The parent of a well-formed path, by its segments. -/
theorem segments_of_parent? {path dir : String} (h : isValid path)
    (hparent : parent? path = some dir) :
    isValid dir ∧ path ≠ "/" ∧
      ∃ word, isSegment word.toList ∧ segments path = segments dir ++ [word] := by
  have hne : path ≠ "/" := by
    rintro rfl
    exact absurd hparent (by simp)
  obtain ⟨found, word, hfound, hword, heq, hsegments⟩ := exists_parent? h hne
  rw [heq] at hparent
  cases hparent
  exact ⟨hfound, hne, word, hword, hsegments⟩

theorem isValid_of_parent? {path dir : String} (h : isValid path)
    (hparent : parent? path = some dir) : isValid dir :=
  (segments_of_parent? h hparent).1

/-- A path has one segment more than its parent. -/
theorem length_segments_of_parent? {path dir : String} (h : isValid path)
    (hparent : parent? path = some dir) :
    (segments path).length = (segments dir).length + 1 := by
  obtain ⟨_, _, word, _, hsegments⟩ := segments_of_parent? h hparent
  rw [hsegments, List.length_append, List.length_singleton]

theorem parent?_eq_some_iff {path dir : String} (h : isValid path)
    (hdir : isValid dir) : parent? path = some dir ↔
      ∃ word, segments path = segments dir ++ [word] := by
  constructor
  · intro hparent
    obtain ⟨_, _, word, _, hsegments⟩ := segments_of_parent? h hparent
    exact ⟨word, hsegments⟩
  · rintro ⟨word, hsegments⟩
    have hne : path ≠ "/" := by
      rintro rfl
      simp at hsegments
    obtain ⟨found, other, hfound, _, heq, hother⟩ := exists_parent? h hne
    rw [hsegments] at hother
    have hsame := (List.append_inj_left' hother rfl)
    rw [heq, (segments_inj hdir hfound).1 hsame]

/-- **Induction along parents**: what holds of the top, and of a
well-formed path when it holds of its parent, holds of all well-formed
paths. -/
theorem parent_induction {motive : (path : String) → isValid path → Prop}
    (top : motive "/" rfl)
    (child : ∀ path dir (h : isValid path) (hparent : parent? path = some dir),
      motive dir (isValid_of_parent? h hparent) → motive path h)
    (path : String) (h : isValid path) : motive path h := by
  obtain ⟨words, hwords, rfl⟩ := (isValid_iff_ofSegments path).1 h
  induction words using List.reverseRecOn with
  | nil => exact top
  | append_singleton words word ih =>
    obtain ⟨hfront, hlast⟩ := AreSegments.append_iff.1 hwords
    exact child _ _ h (parent?_ofSegments_concat (hlast word (by simp)))
      (ih hfront (isValid_ofSegments hfront))

/-! ## Descendants -/

/-- Two words without slashes, with what is spelled behind them, agree
only word by word. -/
theorem word_inj {word other rest more : List Char} (h : '/' ∉ word)
    (hother : '/' ∉ other) (hmore : more = [] ∨ ∃ tail, more = '/' :: tail)
    (heq : word ++ '/' :: rest = other ++ more) :
    word = other ∧ more = '/' :: rest := by
  induction word generalizing other with
  | nil =>
    cases other with
    | nil => exact ⟨rfl, heq.symm⟩
    | cons c other =>
      have hc : '/' = c := (List.cons.inj heq).1
      exact absurd (hc ▸ List.mem_cons_self) hother
  | cons c word ih =>
    cases other with
    | nil =>
      obtain rfl | ⟨tail, rfl⟩ := hmore
      · exact absurd heq (by simp)
      · have hc : c = '/' := (List.cons.inj heq).1
        exact absurd (hc ▸ List.mem_cons_self) h
    | cons d other =>
      obtain ⟨rfl, htail⟩ := List.cons.inj heq
      obtain ⟨rfl, hrest⟩ := ih (fun hmem => h (List.mem_cons_of_mem _ hmem))
        (fun hmem => hother (List.mem_cons_of_mem _ hmem)) htail
      exact ⟨rfl, hrest⟩

/-- Spelled words that go on with a slash go on with a word. -/
theorem spell_slash_isPrefix_iff {words more : List String}
    (h : AreSegments words) (hmore : AreSegments more) :
    spell words ++ ['/'] <+: spell more ↔ words <+: more ∧ words ≠ more := by
  constructor
  · induction words generalizing more with
    | nil =>
      intro hbegins
      refine ⟨List.nil_prefix, ?_⟩
      rintro rfl
      exact absurd (List.prefix_nil.1 hbegins) (by simp)
    | cons word words ih =>
      rintro ⟨rest, hrest⟩
      obtain ⟨hword, hwords⟩ := AreSegments.cons_iff.1 h
      cases more with
      | nil => exact absurd hrest (by simp)
      | cons other more =>
        obtain ⟨hother, hmore⟩ := AreSegments.cons_iff.1 hmore
        -- behind the word stands a slash, whatever is spelled there
        obtain ⟨tail, htail⟩ : ∃ tail, spell words ++ ['/'] ++ rest =
            '/' :: tail := by
          obtain hnil | ⟨t, ht⟩ := spell_eq_nil_or_slash words
          · exact ⟨rest, by rw [hnil]; rfl⟩
          · exact ⟨t ++ ['/'] ++ rest, by rw [ht]; rfl⟩
        have heq : word.toList ++ '/' :: tail = other.toList ++ spell more := by
          rw [← htail]
          simpa using hrest
        obtain ⟨hsame, hspell⟩ := word_inj (slash_notMem_of_isSegment hword)
          (slash_notMem_of_isSegment hother) (spell_eq_nil_or_slash more) heq
        obtain ⟨hbegins, hne⟩ := ih hwords hmore
          ⟨rest, by rw [htail, hspell]⟩
        rw [String.toList_inj.1 hsame]
        refine ⟨(List.prefix_cons_inj _).2 hbegins, ?_⟩
        exact fun heq => hne (List.cons.inj heq).2
  · rintro ⟨⟨rest, rfl⟩, hne⟩
    cases rest with
    | nil => exact absurd (List.append_nil _).symm hne
    | cons word rest =>
      refine ⟨word.toList ++ spell rest, ?_⟩
      rw [spell_append, spell_cons, List.append_assoc]
      rfl

/-- **Strictly beneath is being a proper beginning**, on well-formed
paths. -/
theorem isDescendant_iff {path dir : String} (h : isValid path)
    (hdir : isValid dir) : isDescendant path dir ↔
      segments dir <+: segments path ∧ segments dir ≠ segments path := by
  obtain ⟨words, hwords, rfl⟩ := (isValid_iff_ofSegments path).1 h
  obtain ⟨above, habove, rfl⟩ := (isValid_iff_ofSegments dir).1 hdir
  rw [segments_ofSegments hwords, segments_ofSegments habove]
  unfold isDescendant
  by_cases hnil : above = []
  · -- beneath the top is every other path
    rw [hnil, if_pos ofSegments_nil]
    cases words with
    | nil => exact ⟨fun h => absurd h Bool.false_ne_true, fun h => absurd rfl h.2⟩
    | cons word words =>
      have hword := (AreSegments.cons_iff.1 hwords).1
      refine iff_of_true ?_ ⟨List.nil_prefix, (List.cons_ne_nil _ _).symm⟩
      rw [toList_ofSegments (List.cons_ne_nil _ _), spell_cons]
      cases hchars : word.toList with
      | nil => exact absurd hchars (ne_nil_of_isSegment hword)
      | cons c rest => rfl
  · have htop : ofSegments above ≠ "/" := by
      rw [← ofSegments_nil]
      intro heq
      have hread := congrArg segments heq
      rw [segments_ofSegments habove] at hread
      exact hnil hread
    rw [if_neg htop, List.isPrefixOf_iff_prefix, toList_ofSegments hnil]
    by_cases hempty : words = []
    · subst hempty
      refine iff_of_false ?_ fun h => hnil (List.prefix_nil.1 h.1)
      obtain hspell | ⟨rest, hrest⟩ := spell_eq_nil_or_slash above
      · cases above with
        | nil => exact absurd rfl hnil
        | cons _ _ => exact absurd hspell (List.cons_ne_nil _ _)
      · rw [hrest]
        intro hbegins
        have hlen := hbegins.length_le
        exact absurd hlen (by simp)
    · rw [toList_ofSegments hempty]
      exact spell_slash_isPrefix_iff habove hwords

/-- **At or beneath is being a beginning**, on well-formed paths. -/
theorem within_iff {path dir : String} (h : isValid path)
    (hdir : isValid dir) : Within path dir ↔ segments dir <+: segments path := by
  unfold Within
  rw [isDescendant_iff h hdir, ← segments_inj h hdir]
  constructor
  · rintro (heq | hbelow)
    · exact heq ▸ List.prefix_rfl
    · exact hbelow.1
  · intro hbegins
    by_cases heq : segments path = segments dir
    · exact .inl heq
    · exact .inr ⟨hbegins, fun h => heq h.symm⟩

/-! ## Laws of being at or beneath -/

theorem Within.refl (path : String) : Within path path := .inl rfl

theorem within_of_isDescendant {path dir : String}
    (h : isDescendant path dir) : Within path dir :=
  .inr h

theorem Within.trans {path mid dir : String} (hpath : isValid path)
    (hmid : isValid mid) (hdir : isValid dir) (h : Within path mid)
    (habove : Within mid dir) : Within path dir := by
  rw [within_iff hpath hdir]
  exact ((within_iff hmid hdir).1 habove).trans ((within_iff hpath hmid).1 h)

/-- Every well-formed path is at or beneath the top. -/
theorem within_top {path : String} (h : isValid path) : Within path "/" := by
  rw [within_iff h rfl]
  exact List.nil_prefix

theorem isDescendant_top_iff {path : String} (h : isValid path) :
    isDescendant path "/" ↔ path ≠ "/" := by
  rw [isDescendant_iff h rfl, segments_top]
  refine (and_iff_right List.nil_prefix).trans (not_congr ?_)
  rw [eq_comm, segments_eq_nil_iff h]

theorem not_isDescendant_self {path : String} (h : isValid path) :
    ¬ isDescendant path path := by
  rw [isDescendant_iff h h]
  exact fun hbelow => hbelow.2 rfl

/-- What is at or beneath a path is not above it. -/
theorem Within.not_isDescendant {path dir : String} (hpath : isValid path)
    (hdir : isValid dir) (h : Within path dir) : ¬ isDescendant dir path := by
  rw [isDescendant_iff hdir hpath]
  intro hbelow
  have hle := ((within_iff hpath hdir).1 h).length_le
  exact hbelow.2 (hbelow.1.eq_of_length_le hle)

/-- What is at or beneath something beneath a path is beneath the path. -/
theorem Within.isDescendant {path mid dir : String} (hpath : isValid path)
    (hmid : isValid mid) (hdir : isValid dir) (h : Within path mid)
    (hbelow : Path.isDescendant mid dir) : Path.isDescendant path dir := by
  obtain heq | hstrict := Within.trans hpath hmid hdir h (.inr hbelow)
  · subst heq
    exact absurd hbelow (h.not_isDescendant hpath hmid)
  · exact hstrict

/-- Nothing but the top is above the top. -/
theorem Within.eq_top {dir : String} (hdir : isValid dir)
    (h : Within "/" dir) : dir = "/" := by
  rw [within_iff rfl hdir, segments_top, List.prefix_nil] at h
  exact (segments_eq_nil_iff hdir).1 h

/-- The top is beneath nothing. -/
theorem ne_top_of_isDescendant {path dir : String} (hdir : isValid dir)
    (h : isDescendant path dir) : path ≠ "/" := by
  rintro rfl
  rw [(within_of_isDescendant h).eq_top hdir] at h
  exact not_isDescendant_self rfl h

/-- **Beneath a path is what has its parent at or beneath it.** -/
theorem isDescendant_iff_parent? {path dir parent : String}
    (hpath : isValid path) (hdir : isValid dir)
    (hparent : parent? path = some parent) :
    isDescendant path dir ↔ Within parent dir := by
  obtain ⟨hvalid, _, word, _, hsegments⟩ := segments_of_parent? hpath hparent
  rw [isDescendant_iff hpath hdir, within_iff hvalid hdir, hsegments,
    List.prefix_concat_iff]
  constructor
  · rintro ⟨heq | hbegins, hne⟩
    · exact absurd heq hne
    · exact hbegins
  · intro hbegins
    refine ⟨.inr hbegins, fun heq => ?_⟩
    have hle := hbegins.length_le
    rw [heq, List.length_append] at hle
    exact absurd hle (by simp)

theorem isDescendant_of_parent? {path parent : String} (hpath : isValid path)
    (hparent : parent? path = some parent) : isDescendant path parent :=
  (isDescendant_iff_parent? hpath (isValid_of_parent? hpath hparent)
    hparent).2 (.refl parent)

/-! ## Ancestors -/

theorem ancestors_top : ancestors "/" = [] := by
  rw [ancestors]
  rfl

theorem ancestors_of_parent? {path dir : String}
    (h : parent? path = some dir) :
    ancestors path = if dir = "/" then [] else ancestors dir ++ [dir] := by
  rw [ancestors]
  split
  · next hnone => rw [h] at hnone; cases hnone
  · next found hfound => rw [h] at hfound; cases hfound; rfl

/-- **The ancestors of a path** are the paths strictly above it, less the
top. -/
theorem mem_ancestors_iff {path dir : String} (h : isValid path)
    (hdir : isValid dir) :
    dir ∈ ancestors path ↔ dir ≠ "/" ∧ isDescendant path dir := by
  induction path, h using parent_induction with
  | top =>
    rw [ancestors_top]
    refine iff_of_false List.not_mem_nil fun hbelow => ?_
    exact hbelow.1 (Within.eq_top hdir (.inr hbelow.2))
  | child path parent hpath hparent ih =>
    rw [ancestors_of_parent? hparent,
      isDescendant_iff_parent? hpath hdir hparent]
    unfold Within
    split
    · next htop =>
      subst htop
      refine iff_of_false List.not_mem_nil fun hbelow => ?_
      exact hbelow.1 (Within.eq_top hdir hbelow.2)
    · next htop =>
      rw [List.mem_append, List.mem_singleton, ih]
      constructor
      · rintro (⟨hne, hbelow⟩ | rfl)
        · exact ⟨hne, .inr hbelow⟩
        · exact ⟨htop, .inl rfl⟩
      · rintro ⟨hne, heq | hbelow⟩
        · exact .inr heq.symm
        · exact .inl ⟨hne, hbelow⟩

/-- An ancestor is well-formed. -/
theorem isValid_of_mem_ancestors {path dir : String} (h : isValid path)
    (hmem : dir ∈ ancestors path) : isValid dir := by
  induction path, h using parent_induction with
  | top => rw [ancestors_top] at hmem; cases hmem
  | child path parent hpath hparent ih =>
    rw [ancestors_of_parent? hparent] at hmem
    split at hmem
    · cases hmem
    · obtain hmem | hmem := List.mem_append.1 hmem
      · exact ih hmem
      · rw [List.mem_singleton.1 hmem]
        exact isValid_of_parent? hpath hparent

/-- **Strictly above**, among well-formed paths. The top is above all
others. -/
def Above (dir path : String) : Prop := isValid dir ∧ isDescendant path dir

/-- The ancestors of a path are what is above it, less the top. -/
theorem mem_ancestors_iff_above {path dir : String} (h : isValid path) :
    dir ∈ ancestors path ↔ dir ≠ "/" ∧ Above dir path := by
  constructor
  · intro hmem
    have hdir := isValid_of_mem_ancestors h hmem
    obtain ⟨hne, hbelow⟩ := (mem_ancestors_iff h hdir).1 hmem
    exact ⟨hne, hdir, hbelow⟩
  · rintro ⟨hne, hdir, hbelow⟩
    exact (mem_ancestors_iff h hdir).2 ⟨hne, hbelow⟩

/-- What is above a path is not at or beneath it. -/
theorem Above.not_within {path dir : String} (h : isValid path)
    (habove : Above dir path) : ¬ Within dir path :=
  fun hin => hin.not_isDescendant habove.1 h habove.2

/-- The parent of a path above another is an ancestor of the other, or the
top. -/
theorem mem_ancestors_of_parent? {path above dir : String}
    (h : isValid path) (habove : isValid above) (hwithin : Within path above)
    (hparent : parent? above = some dir) (hne : dir ≠ "/") :
    dir ∈ ancestors path := by
  have hdir := isValid_of_parent? habove hparent
  exact (mem_ancestors_iff h hdir).2 ⟨hne, hwithin.isDescendant h habove hdir
    (isDescendant_of_parent? habove hparent)⟩

theorem self_notMem_ancestors {path : String} (h : isValid path) :
    path ∉ ancestors path :=
  fun hmem => not_isDescendant_self h ((mem_ancestors_iff h h).1 hmem).2

/-- **What stands before an ancestor among the ancestors are its own.** -/
theorem ancestors_of_append {path dir : String} {front rest : List String}
    (h : isValid path) (heq : ancestors path = front ++ dir :: rest) :
    ancestors dir = front := by
  induction path, h using parent_induction generalizing rest with
  | top =>
    rw [ancestors_top] at heq
    exact absurd heq (by simp)
  | child path parent hpath hparent ih =>
    rw [ancestors_of_parent? hparent] at heq
    split at heq
    · exact absurd heq (by simp)
    · obtain rfl | ⟨init, last, rfl⟩ := List.eq_nil_or_concat' rest
      · obtain ⟨hfront, hlast⟩ := List.append_inj' heq rfl
        cases hlast
        exact hfront
      · rw [← List.cons_append, ← List.append_assoc] at heq
        exact ih (List.append_inj_left' heq rfl)

end Path
end PathStore
