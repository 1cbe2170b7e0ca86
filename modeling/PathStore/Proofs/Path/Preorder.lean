import PathStore.Path.Order
import PathStore.Proofs.Path.Beneath

/-!
# The order of a walk and the tree

A path comes before another in a walk for one of two reasons: it is above
the other, or the two **turn off** at some directory, towards two children
of which the one comes first (`Path.before_iff`). The second reason passes
on to everything beneath the two paths, the first does not.

A walk sorts the children of a directory as whole paths. Siblings differ
in nothing but their last segment, so their order as strings is that of
these segments (`Path.sibling_lt_iff`), and what lies beneath them is in
the order of the walk (`Path.before_of_siblings`).
-/

namespace PathStore
namespace Path

instance : Std.Irrefl Before := ⟨before_irrefl⟩

instance : Std.Antisymm Before :=
  ⟨fun path _ h hback => absurd (before_trans h hback) (before_irrefl path)⟩

/-- **Two paths turn off** at some directory, the first towards the child
that comes first. -/
def TurnsBefore (path other : String) : Prop :=
  ∃ front word more, word < more ∧ front ++ [word] <+: segments path ∧
    front ++ [more] <+: segments other

/-- Where two lists of words are in order, one goes on from the other or
they turn off. -/
theorem isPrefix_or_turn {words others : List String} (h : words < others) :
    words <+: others ∨ ∃ front word more, word < more ∧
      front ++ [word] <+: words ∧ front ++ [more] <+: others := by
  induction words generalizing others with
  | nil => exact .inl List.nil_prefix
  | cons word words ih =>
    cases others with
    | nil => exact absurd h (List.not_lt_nil _)
    | cons more others =>
      obtain hlt | ⟨rfl, hlt⟩ := List.cons_lt_cons_iff.1 h
      · exact .inr ⟨[], word, more, hlt, List.prefix_append [word] words,
          List.prefix_append [more] others⟩
      · obtain hbegins | ⟨front, u, v, huv, hwords, hothers⟩ := ih hlt
        · exact .inl ((List.prefix_cons_inj word).2 hbegins)
        · exact .inr ⟨word :: front, u, v, huv,
            (List.prefix_cons_inj word).2 hwords,
            (List.prefix_cons_inj word).2 hothers⟩

/-- A path that turns off before another comes before it. -/
theorem TurnsBefore.before {path other : String} (h : TurnsBefore path other) :
    Before path other := by
  obtain ⟨front, word, more, hlt, ⟨rest, hpath⟩, ⟨last, hother⟩⟩ := h
  unfold Before
  rw [← hpath, ← hother, List.append_assoc, List.append_assoc]
  exact List.append_left_lt (List.cons_lt_cons_iff.2 (.inl hlt))

/-- **What is beneath two paths turns off where they do.** -/
theorem TurnsBefore.of_within {path other above beside : String}
    (hpath : isValid path) (hother : isValid other) (habove : isValid above)
    (hbeside : isValid beside) (h : TurnsBefore above beside)
    (hin : Within path above) (hon : Within other beside) :
    TurnsBefore path other := by
  obtain ⟨front, word, more, hlt, hword, hmore⟩ := h
  exact ⟨front, word, more, hlt,
    hword.trans ((within_iff hpath habove).1 hin),
    hmore.trans ((within_iff hother hbeside).1 hon)⟩

/-- **A directory comes before what is beneath it.** -/
theorem before_of_isDescendant {path dir : String} (hpath : isValid path)
    (hdir : isValid dir) (h : isDescendant path dir) : Before dir path := by
  obtain ⟨⟨rest, hrest⟩, hne⟩ := (isDescendant_iff hpath hdir).1 h
  unfold Before
  rw [← hrest]
  cases rest with
  | nil => exact absurd (by rw [← hrest, List.append_nil]) hne
  | cons word rest =>
    conv_lhs => rw [← List.append_nil (segments dir)]
    exact List.append_left_lt (List.nil_lt_cons word rest)

/-- **The two reasons to come before another path.** -/
theorem before_iff {path other : String} (hpath : isValid path)
    (hother : isValid other) :
    Before path other ↔ isDescendant other path ∨ TurnsBefore path other := by
  constructor
  · intro h
    obtain hbegins | hturn := isPrefix_or_turn h
    · refine .inl ((isDescendant_iff hother hpath).2 ⟨hbegins, fun heq => ?_⟩)
      unfold Before at h
      rw [heq] at h
      exact List.lt_irrefl _ h
    · exact .inr hturn
  · rintro (hbelow | hturn)
    · exact before_of_isDescendant hother hpath hbelow
    · exact hturn.before

/-! ## Siblings -/

/-- The characters of a path, by its segments. -/
theorem toList_eq_spell {path : String} (h : isValid path) (hne : path ≠ "/") :
    path.toList = spell (segments path) := by
  have hsegments : segments path ≠ [] :=
    fun hnil => hne ((segments_eq_nil_iff h).1 hnil)
  rw [← toList_ofSegments hsegments, ofSegments_segments h]

theorem append_left_lt_iff {front letters more : List Char} :
    front ++ letters < front ++ more ↔ letters < more := by
  induction front with
  | nil => exact Iff.rfl
  | cons c front ih =>
    rw [List.cons_append, List.cons_append, List.cons_lt_cons_self, ih]

/-- **Siblings are in the order of their last segments.** -/
theorem sibling_lt_iff {path other : String} (hpath : isValid path)
    (hother : isValid other) {front : List String} {word more : String}
    (hword : segments path = front ++ [word])
    (hmore : segments other = front ++ [more]) :
    path < other ↔ word < more := by
  have hne : ∀ {p w}, segments p = front ++ [w] → p ≠ "/" := by
    rintro p w hsegments rfl
    rw [segments_top] at hsegments
    exact List.append_ne_nil_of_right_ne_nil front (List.cons_ne_nil w [])
      hsegments.symm
  rw [String.lt_iff, toList_eq_spell hpath (hne hword),
    toList_eq_spell hother (hne hmore), hword, hmore, spell_append,
    spell_append, append_left_lt_iff, spell_cons, spell_cons,
    List.cons_lt_cons_self, spell_nil, List.append_nil, List.append_nil,
    String.lt_iff]

/-- **Siblings turn off at their parent.** -/
theorem turnsBefore_of_siblings {path other dir : String}
    (hpath : isValid path) (hother : isValid other)
    (hparent : parent? path = some dir) (hsame : parent? other = some dir)
    (hlt : path < other) : TurnsBefore path other := by
  obtain ⟨_, _, word, _, hword⟩ := segments_of_parent? hpath hparent
  obtain ⟨_, _, more, _, hmore⟩ := segments_of_parent? hother hsame
  refine ⟨segments dir, word, more,
    (sibling_lt_iff hpath hother hword hmore).1 hlt, ?_, ?_⟩
  · exact hword ▸ List.prefix_rfl
  · exact hmore ▸ List.prefix_rfl

/-! ## The child towards a path -/

/-- **A path beneath a directory is at or beneath a child of it.** -/
theorem exists_child {path dir : String} (h : isValid path)
    (hdir : isValid dir) (hbelow : isDescendant path dir) :
    ∃ child, isValid child ∧ parent? child = some dir ∧ Within path child := by
  induction path, h using parent_induction with
  | top =>
    have htop := (within_of_isDescendant hbelow).eq_top hdir
    rw [htop] at hbelow
    exact absurd hbelow (not_isDescendant_self rfl)
  | child path parent hpath hparent ih =>
    have hparentValid := isValid_of_parent? hpath hparent
    obtain rfl | hstrict :=
      (isDescendant_iff_parent? hpath hdir hparent).1 hbelow
    · exact ⟨path, hpath, hparent, .refl path⟩
    · obtain ⟨child, hchild, hchildParent, hwithin⟩ := ih hstrict
      exact ⟨child, hchild, hchildParent, .trans hpath hparentValid hchild
        (.inr (isDescendant_of_parent? hpath hparent)) hwithin⟩

/-- **The child towards a path is above all that is between**: what is
beneath the directory and above the path is at or beneath the child. -/
theorem within_child {path dir child mid : String} (hpath : isValid path)
    (hdir : isValid dir) (hchild : isValid child) (hmid : isValid mid)
    (hparent : parent? child = some dir) (hin : Within path child)
    (hup : Within path mid) (hbelow : isDescendant mid dir) :
    Within mid child := by
  obtain ⟨_, _, word, _, hword⟩ := segments_of_parent? hchild hparent
  obtain ⟨⟨rest, hrest⟩, hne⟩ := (isDescendant_iff hmid hdir).1 hbelow
  rw [within_iff hmid hchild]
  refine List.prefix_of_prefix_length_le ((within_iff hpath hchild).1 hin)
    ((within_iff hpath hmid).1 hup) ?_
  rw [hword, ← hrest, List.length_append, List.length_append]
  cases rest with
  | nil => exact absurd (by rw [← hrest, List.append_nil]) hne
  | cons first rest =>
    simp only [List.length_cons, List.length_nil]
    omega

end Path
end PathStore
