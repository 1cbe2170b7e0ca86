import PathStore.Proofs.Path.Preorder
import PathStore.Proofs.Store.Subtree

/-!
# Where byte order and the order of a walk part

A hint leaves out the children that come before it as strings, unless it
lies beneath them. A walk comes to paths in another order, and the two part
where a segment goes on from another by a character below the slash, which
are `-` and `.`: with the hint `/a/x` the path `/a-b` is left out although a
walk comes to it later.

This is the only way in which they part. Of two paths, neither beneath the
other, the later in the walk is kept exactly if no name on its way goes on
like that from the name of a directory the hint lies in (`Walk.cutOff`), and
the earlier is never kept (`Walk.kept_iff`).
-/

namespace PathStore
namespace Path

/-- Words that differ within the shorter one are in order whatever
follows. -/
theorem append_lt_append {word more : List Char} (hlt : word < more)
    (hno : ¬ word <+: more) (rest last : List Char) :
    word ++ rest < more ++ last := by
  induction word generalizing more with
  | nil => exact absurd List.nil_prefix hno
  | cons c word ih =>
    cases more with
    | nil => exact absurd hlt (List.not_lt_nil _)
    | cons d more =>
      rw [List.cons_append, List.cons_append, List.cons_lt_cons_iff]
      obtain hchar | ⟨rfl, hrest⟩ := List.cons_lt_cons_iff.1 hlt
      · exact .inl hchar
      · exact .inr ⟨rfl,
          ih hrest fun h => hno ((List.prefix_cons_inj c).2 h)⟩

/-- **The letters below the slash.** -/
theorem slash_lt_or_of_isSegmentChar {c : Char} (h : isSegmentChar c) :
    '/' < c ∨ c = '-' ∨ c = '.' := by
  have hbelow : ∀ n < 48, isSegmentChar (Char.ofNat n) →
      Char.ofNat n = '-' ∨ Char.ofNat n = '.' := by
    decide
  obtain hlt | hle := Nat.lt_or_ge 47 c.toNat
  · exact .inl hlt
  · rw [← Char.ofNat_toNat c] at h
    have hletter := hbelow c.toNat (Nat.lt_succ_of_le hle) h
    rw [Char.ofNat_toNat] at hletter
    exact .inr hletter

/-- **Where the order of segments is not that of what they begin**: the
later goes on from the earlier by a letter below the slash, and behind the
earlier there is more. -/
theorem goes_on_of_not_lt {word more : String} {rest last : List String}
    (hlt : word < more) (hmore : isSegment more.toList)
    (h : ¬ word.toList ++ spell rest < more.toList ++ spell last) :
    rest ≠ [] ∧ ∃ c tail, more.toList = word.toList ++ c :: tail ∧
      (c = '-' ∨ c = '.') := by
  have hbegins : word.toList <+: more.toList := by
    by_contra hno
    exact h (append_lt_append hlt hno _ _)
  obtain ⟨tail, htail⟩ := hbegins
  rw [← htail, List.append_assoc, append_left_lt_iff] at h
  cases tail with
  | nil =>
    rw [List.append_nil] at htail
    rw [String.toList_inj.1 htail] at hlt
    exact absurd hlt (String.lt_irrefl more)
  | cons c tail =>
    cases rest with
    | nil => exact absurd (List.nil_lt_cons c _) h
    | cons next rest =>
      refine ⟨List.cons_ne_nil next rest, c, tail, htail.symm, ?_⟩
      have hc : isSegmentChar c := by
        unfold isSegment at hmore
        rw [Bool.and_eq_true, List.all_eq_true, ← htail] at hmore
        exact hmore.2 c (List.mem_append_right _ List.mem_cons_self)
      refine (slash_lt_or_of_isSegmentChar hc).resolve_left fun hslash => h ?_
      rw [spell_cons, List.cons_append]
      exact List.cons_lt_cons_iff.2 (.inl hslash)

/-- A path does not turn off from itself. -/
theorem eq_of_turn {front words : List String} {word more : String}
    (hword : front ++ [word] <+: words) (hmore : front ++ [more] <+: words) :
    word = more := by
  have hlength : (front ++ [word]).length = (front ++ [more]).length := by
    rw [List.length_append, List.length_append, List.length_singleton,
      List.length_singleton]
  have heq := (List.prefix_of_prefix_length_le hword hmore
    (Nat.le_of_eq hlength)).eq_of_length hlength
  exact List.singleton_inj.1 (List.append_cancel_left heq)

/-- **What is above two paths that turn off** is above the turn. -/
theorem isPrefix_of_turn {above front words others : List String}
    {word more : String} (hne : word ≠ more)
    (hword : front ++ [word] <+: words) (hmore : front ++ [more] <+: others)
    (habove : above <+: words) (hbeside : above <+: others) :
    above <+: front := by
  by_cases hle : above.length ≤ front.length
  · exact List.prefix_of_prefix_length_le habove
      ((List.prefix_append front [word]).trans hword) hle
  · have hlength : ∀ last : String, (front ++ [last]).length ≤ above.length := by
      intro last
      rw [List.length_append, List.length_singleton]
      omega
    exact absurd (eq_of_turn
      (List.prefix_of_prefix_length_le hword habove (hlength word))
      (List.prefix_of_prefix_length_le hmore hbeside (hlength more))) hne

/-- A path above the turn of two paths beneath an origin, by one segment
beneath it, lies beneath the origin. -/
theorem isDescendant_of_turn {path other dir origin : String}
    (hpath : isValid path) (hother : isValid other) (hdir : isValid dir)
    (horigin : isValid origin) (hin : isDescendant path origin)
    (hon : isDescendant other origin) {front : List String}
    {word more last : String} (hne : word ≠ more)
    (hword : front ++ [word] <+: segments path)
    (hmore : front ++ [more] <+: segments other)
    (hlast : segments dir = front ++ [last]) : isDescendant dir origin := by
  have habove := isPrefix_of_turn hne hword hmore
    ((isDescendant_iff hpath horigin).1 hin).1
    ((isDescendant_iff hother horigin).1 hon).1
  refine (isDescendant_iff hdir horigin).2 ⟨?_, fun heq => ?_⟩
  · rw [hlast]
    exact habove.trans (List.prefix_append front [last])
  · have hle := habove.length_le
    rw [heq, hlast, List.length_append, List.length_singleton] at hle
    omega

/-- A path has a path above it for every beginning of its segments. -/
theorem exists_within_of_isPrefix {path : String} (h : isValid path)
    {words : List String} (hbegins : words <+: segments path) :
    ∃ dir, isValid dir ∧ segments dir = words ∧ Within path dir := by
  have hwords := (areSegments_segments h).of_isPrefix hbegins
  have hdir := isValid_ofSegments hwords
  have hsegments := segments_ofSegments hwords
  refine ⟨ofSegments words, hdir, hsegments, ?_⟩
  rw [within_iff h hdir, hsegments]
  exact hbegins

/-- The characters of a path that is not the top, by a part of its
segments. -/
theorem toList_eq_of_segments {path : String} (h : isValid path)
    {front rest : List String} {word : String}
    (hsegments : segments path = front ++ word :: rest) :
    path.toList = spell front ++ '/' :: (word.toList ++ spell rest) := by
  have hne : path ≠ "/" := by
    rintro rfl
    exact List.append_ne_nil_of_right_ne_nil front (List.cons_ne_nil word rest)
      hsegments.symm
  rw [toList_eq_spell h hne, hsegments, spell_append, spell_cons]

end Path

namespace Walk

open PathStore.Path

variable {origin hint path mid : String}

/-- **What byte order cuts off**: the paths that go on, by a character below
the slash, from a directory beneath the origin which the hint lies in. -/
def cutOff (origin hint path : String) : Bool :=
  (ancestors hint).any fun dir => isDescendant dir origin &&
    ((dir.toList ++ ['-']).isPrefixOf path.toList ||
      (dir.toList ++ ['.']).isPrefixOf path.toList)

theorem cutOff_iff (hhint : isValid hint) (horigin : isValid origin) :
    cutOff origin hint path ↔ ∃ dir c, isValid dir ∧ isDescendant hint dir ∧
      isDescendant dir origin ∧ (c = '-' ∨ c = '.') ∧
        dir.toList ++ [c] <+: path.toList := by
  unfold cutOff
  rw [List.any_eq_true]
  constructor
  · rintro ⟨dir, hmem, hcut⟩
    have hdir := isValid_of_mem_ancestors hhint hmem
    obtain ⟨_, hbelow⟩ := (mem_ancestors_iff hhint hdir).1 hmem
    rw [Bool.and_eq_true, Bool.or_eq_true, List.isPrefixOf_iff_prefix,
      List.isPrefixOf_iff_prefix] at hcut
    obtain ⟨hunder, hdash | hdot⟩ := hcut
    · exact ⟨dir, '-', hdir, hbelow, hunder, .inl rfl, hdash⟩
    · exact ⟨dir, '.', hdir, hbelow, hunder, .inr rfl, hdot⟩
  · rintro ⟨dir, c, hdir, hbelow, hunder, hc, hbegins⟩
    have hne := ne_top_of_isDescendant horigin hunder
    refine ⟨dir, (mem_ancestors_iff hhint hdir).2 ⟨hne, hbelow⟩, ?_⟩
    rw [Bool.and_eq_true, Bool.or_eq_true, List.isPrefixOf_iff_prefix,
      List.isPrefixOf_iff_prefix]
    refine ⟨hunder, ?_⟩
    obtain rfl | rfl := hc
    · exact .inl hbegins
    · exact .inr hbegins

/-- **What is kept where a hint is given**: what comes after the hint or is
above it. -/
theorem not_skips_startAfter_iff (hne : hint ≠ "") (child : String) :
    ¬ (WalkOptions.all.startAfter hint).skips child ↔
      hint < child ∨ isDescendant hint child := by
  unfold WalkOptions.startAfter WalkOptions.skips
  rw [if_neg hne]
  show ¬ (decide (child ≤ hint) && !isDescendant hint child) = true ↔ _
  rw [Bool.and_eq_true, decide_eq_true_iff, Bool.not_eq_true',
    Bool.eq_false_iff, not_and_or, not_not]
  exact or_congr not_not Iff.rfl

/-- **What is cut off is left out itself**, whatever is above it. -/
theorem not_lt_of_cutOff (hhint : isValid hint) (horigin : isValid origin)
    (hcut : cutOff origin hint path) :
    ¬ hint < path ∧ ¬ isDescendant hint path := by
  obtain ⟨dir, c, hdir, hbelow, hunder, hc, ⟨rest, hpath⟩⟩ :=
    (cutOff_iff hhint horigin).1 hcut
  have hne := ne_top_of_isDescendant horigin hunder
  rw [isDescendant, if_neg hne, List.isPrefixOf_iff_prefix] at hbelow
  obtain ⟨last, hlast⟩ := hbelow
  rw [List.append_assoc, List.singleton_append] at hpath hlast
  constructor
  · rw [String.lt_iff, ← hpath, ← hlast, append_left_lt_iff,
      List.cons_lt_cons_iff]
    rintro (hlt | ⟨heq, _⟩)
    · obtain rfl | rfl := hc
      all_goals exact absurd hlt (by decide)
    · obtain rfl | rfl := hc
      all_goals exact absurd heq (by decide)
  · intro hup
    have hbegins := isPrefix_of_isDescendant hup
    rw [← hpath, ← hlast, List.prefix_append_right_inj,
      List.cons_prefix_cons] at hbegins
    obtain rfl | rfl := hc
    all_goals exact absurd hbegins.1 (by decide)

/-- **Where the hint turns off before a path**, what is left out on the way
to the path is cut off. -/
theorem cutOff_of_turnsBefore (hpath : isValid path) (hhint : isValid hint)
    (horigin : isValid origin) (hmid : isValid mid)
    (hin : isDescendant path origin) (hinHint : isDescendant hint origin)
    (hturn : TurnsBefore hint path) (hup : Within path mid)
    (hlt : ¬ hint < mid) (hbelow : ¬ isDescendant hint mid) :
    cutOff origin hint path := by
  obtain ⟨front, word, more, hword, hhintTurn, hpathTurn⟩ := hturn
  have hfrontHint := (List.prefix_append front [word]).trans hhintTurn
  have hpathFront := (List.prefix_append front [more]).trans hpathTurn
  have hmidPath := (within_iff hpath hmid).1 hup
  -- what is left out is beneath the turn
  have hmidTurn : front ++ [more] <+: segments mid := by
    refine List.prefix_of_prefix_length_le hpathTurn hmidPath ?_
    by_contra hshort
    rw [List.length_append, List.length_singleton] at hshort
    have hmidFront := List.prefix_of_prefix_length_le hmidPath hpathFront
      (by omega)
    refine hbelow ((isDescendant_iff hhint hmid).2
      ⟨hmidFront.trans hfrontHint, fun heq => ?_⟩)
    have hle := hhintTurn.length_le
    rw [← heq, List.length_append, List.length_singleton] at hle
    omega
  have hhintTurn' := hhintTurn
  obtain ⟨s, hs⟩ := hhintTurn'
  obtain ⟨t, ht⟩ := hmidTurn
  rw [List.append_assoc, List.singleton_append] at hs ht
  have hletters := hlt
  rw [String.lt_iff, toList_eq_of_segments hhint hs.symm,
    toList_eq_of_segments hmid ht.symm, append_left_lt_iff,
    List.cons_lt_cons_self] at hletters
  have hmore : isSegment more.toList := areSegments_segments hmid more
    (by rw [← ht]; exact List.mem_append_right _ List.mem_cons_self)
  obtain ⟨hne, c, tail, hgoes, hc⟩ := goes_on_of_not_lt hword hmore hletters
  obtain ⟨dir, hdir, hsegments, hhintDir⟩ :=
    exists_within_of_isPrefix hhint hhintTurn
  refine (cutOff_iff hhint horigin).2 ⟨dir, c, hdir, ?_, ?_, hc, ?_⟩
  · refine hhintDir.resolve_left ?_
    rintro rfl
    rw [hsegments, List.append_cancel_left_eq, List.cons.injEq] at hs
    exact hne hs.2
  · exact isDescendant_of_turn hhint hpath hdir horigin hinHint hin
      (String.ne_of_lt hword) hhintTurn hpathTurn hsegments
  · obtain ⟨last, hlast⟩ := hpathTurn
    rw [List.append_assoc, List.singleton_append] at hlast
    rw [toList_eq_of_segments hdir hsegments,
      toList_eq_of_segments hpath hlast.symm, hgoes]
    exact ⟨tail ++ spell last, by simp⟩

/-- **Where a path turns off before the hint**, something on the way to it
is left out. -/
theorem exists_left_out_of_turnsBefore (hpath : isValid path)
    (hhint : isValid hint) (horigin : isValid origin)
    (hin : isDescendant path origin) (hinHint : isDescendant hint origin)
    (hturn : TurnsBefore path hint) :
    ∃ mid, isValid mid ∧ Within path mid ∧ isDescendant mid origin ∧
      ¬ hint < mid ∧ ¬ isDescendant hint mid := by
  obtain ⟨front, word, more, hword, hpathTurn, hhintTurn⟩ := hturn
  have hne := String.ne_of_lt hword
  obtain ⟨mid, hmid, hsegments, hup⟩ :=
    exists_within_of_isPrefix hpath hpathTurn
  obtain ⟨beside, hbeside, hbesideSegments, hhintBeside⟩ :=
    exists_within_of_isPrefix hhint hhintTurn
  refine ⟨mid, hmid, hup, ?_, ?_, fun hbelow => ?_⟩
  · exact isDescendant_of_turn hpath hhint hmid horigin hin hinHint hne
      hpathTurn hhintTurn hsegments
  · -- the path beside it, which the hint goes on from, comes later
    have hlt := (sibling_lt_iff hmid hbeside hsegments hbesideSegments).2 hword
    have hbegins : beside.toList <+: hint.toList := by
      obtain rfl | hstrict := hhintBeside
      · exact List.prefix_rfl
      · exact isPrefix_of_isDescendant hstrict
    exact fun hafter =>
      not_lt_of_isPrefix hbegins (String.lt_trans hafter hlt)
  · have hmidHint := ((isDescendant_iff hhint hmid).1 hbelow).1
    rw [hsegments] at hmidHint
    exact hne (eq_of_turn hmidHint hhintTurn)

/-- **What is kept by a hint**, among the paths that the hint is not above
and that are not above the hint: those that come after it in a walk and are
not cut off. -/
theorem kept_iff (hpath : isValid path) (hhint : isValid hint)
    (horigin : isValid origin) (hin : isDescendant path origin)
    (hinHint : isDescendant hint origin) (hup : ¬ isDescendant hint path)
    (hdown : ¬ isDescendant path hint) :
    (∀ mid, isValid mid → Within path mid → isDescendant mid origin →
        hint < mid ∨ isDescendant hint mid) ↔
      Before hint path ∧ ¬ cutOff origin hint path := by
  constructor
  · intro hkept
    refine ⟨?_, fun hcut => ?_⟩
    · by_contra hbefore
      obtain hlt | heq := List.le_iff_lt_or_eq.1 hbefore
      · obtain ⟨mid, hmid, hwithin, hunder, hlt, hbelow⟩ :=
          exists_left_out_of_turnsBefore hpath hhint horigin hin hinHint
            (((before_iff hpath hhint).1 hlt).resolve_left hup)
        exact (hkept mid hmid hwithin hunder).elim hlt hbelow
      · obtain rfl := (segments_inj hpath hhint).1 heq
        exact (hkept path hpath (.refl path) hin).elim
          (String.lt_irrefl path) hup
    · obtain ⟨hlt, hbelow⟩ := not_lt_of_cutOff hhint horigin hcut
      exact (hkept path hpath (.refl path) hin).elim hlt hbelow
  · rintro ⟨hbefore, hcut⟩ mid hmid hwithin hunder
    have hturn := ((before_iff hhint hpath).1 hbefore).resolve_left hdown
    by_contra hout
    rw [not_or] at hout
    exact hcut (cutOff_of_turnsBefore hpath hhint horigin hmid hin hinHint
      hturn hwithin hout.1 hout.2)

end Walk
end PathStore
