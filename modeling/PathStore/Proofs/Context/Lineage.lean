import PathStore.Context.History
import Mathlib.Data.List.Infix

/-!
# A context is what its lineage makes of it

Contexts share their cancellation and hand their deadlines down. The contexts
keep a family number and one deadline each; a history says where each context
comes from. That the two tell the same story is proved step by step: `Fits`
says how contexts and a history belong together, and every step keeps it so
(`Fits.add`, `Fits.cancel`).

Making a context, be it a background or a derived one, adds one number and
leaves the lineages of all others alone. So the two kinds of step share one
proof and differ in what the new context has to do with those before it: a
background context goes back to none of them, a derived one to the same source
as the context it was derived from.
-/

namespace PathStore
namespace Contexts

variable {n i j : Nat} {contexts next : Contexts} {context : Context}

/-! ## Lineages -/

namespace History

variable {past history : History n}

/-- A lineage goes on to earlier contexts only. -/
theorem lt_of_mem_lineage (history : History n) (h : j ∈ history.lineage i) :
    j < n := by
  induction history generalizing i with
  | start => cases h
  | background past ih =>
    unfold lineage at h
    split at h
    · rw [List.mem_singleton.1 h]
      exact Nat.lt_succ_self _
    · exact Nat.lt_succ_of_lt (ih h)
  | derive past parent how ih =>
    unfold lineage at h
    split at h
    · obtain rfl | h := List.mem_cons.1 h
      · exact Nat.lt_succ_self _
      · exact Nat.lt_succ_of_lt (ih h)
    · exact Nat.lt_succ_of_lt (ih h)
  | cancel past target ih => exact ih h

/-- Every context goes back to one. -/
theorem lineage_ne_nil (history : History n) (h : i < n) :
    history.lineage i ≠ [] := by
  induction history generalizing i with
  | start => exact absurd h (Nat.not_lt_zero i)
  | background past ih =>
    unfold lineage
    split
    · exact List.cons_ne_nil _ _
    · next hne => exact ih (Nat.lt_of_le_of_ne (Nat.le_of_lt_succ h) hne)
  | derive past parent how ih =>
    unfold lineage
    split
    · exact List.cons_ne_nil _ _
    · next hne => exact ih (Nat.lt_of_le_of_ne (Nat.le_of_lt_succ h) hne)
  | cancel past target ih => exact ih h

/-- **What a context goes back to goes back to the end of its lineage.** -/
theorem lineage_isSuffix (history : History n) (h : j ∈ history.lineage i) :
    history.lineage j <:+ history.lineage i := by
  induction history generalizing i with
  | start => cases h
  | @background n past ih =>
    unfold lineage at h ⊢
    by_cases hi : i = n
    · rw [if_pos hi, List.mem_singleton] at h
      rw [if_pos hi, if_pos h]
    · rw [if_neg hi] at h
      rw [if_neg hi, if_neg (Nat.ne_of_lt (past.lt_of_mem_lineage h))]
      exact ih h
  | @derive n past parent how ih =>
    unfold lineage at h ⊢
    by_cases hi : i = n
    · rw [if_pos hi] at h
      rw [if_pos hi]
      obtain rfl | h := List.mem_cons.1 h
      · rw [if_pos rfl]
      · rw [if_neg (Nat.ne_of_lt (past.lt_of_mem_lineage h))]
        exact (ih h).trans (List.suffix_cons _ _)
    · rw [if_neg hi] at h
      rw [if_neg hi, if_neg (Nat.ne_of_lt (past.lt_of_mem_lineage h))]
      exact ih h
  | cancel past target ih => exact ih h

theorem lt_of_mem_cancels (history : History n) (h : j ∈ history.cancels) :
    j < n := by
  induction history with
  | start => cases h
  | background past ih => exact Nat.lt_succ_of_lt (ih h)
  | derive past parent how ih => exact Nat.lt_succ_of_lt (ih h)
  | cancel past target ih =>
    obtain rfl | h := List.mem_cons.1 h
    · exact target.isLt
    · exact ih h

/-- **One history goes on from another** by making a context, which leaves the
contexts before it alone. -/
structure Adds (past : History n) (history : History (n + 1)) : Prop where
  cancels : history.cancels = past.cancels
  lineage : ∀ i < n, history.lineage i = past.lineage i
  introduced? : ∀ i < n, history.introduced? i = past.introduced? i

theorem adds_background (past : History n) : past.Adds past.background where
  cancels := rfl
  lineage _ h := if_neg (Nat.ne_of_lt h)
  introduced? _ h := if_neg (Nat.ne_of_lt h)

theorem adds_derive (past : History n) (parent : Fin n) (how : Derivation) :
    past.Adds (past.derive parent how) where
  cancels := rfl
  lineage _ h := if_neg (Nat.ne_of_lt h)
  introduced? _ h := if_neg (Nat.ne_of_lt h)

namespace Adds

variable {later : History (n + 1)}

theorem source?_eq (h : past.Adds later) (hi : i < n) :
    later.source? i = past.source? i := by
  unfold source?
  rw [h.lineage i hi]

theorem filterMap_introduced? (h : past.Adds later) (i : Nat) :
    (past.lineage i).filterMap later.introduced? = past.deadlines i :=
  List.filterMap_congr fun _ hmem =>
    h.introduced? _ (past.lt_of_mem_lineage hmem)

theorem deadlines_eq (h : past.Adds later) (hi : i < n) :
    later.deadlines i = past.deadlines i := by
  rw [deadlines, h.lineage i hi, h.filterMap_introduced?]

end Adds

theorem lineage_derive (past : History n) (parent : Fin n)
    (how : Derivation) :
    (past.derive parent how).lineage n = n :: past.lineage parent :=
  if_pos rfl

/-- A derived context goes back to where its parent does. -/
theorem source?_derive (past : History n) (parent : Fin n)
    (how : Derivation) :
    (past.derive parent how).source? n = past.source? parent := by
  unfold source?
  rw [lineage_derive, List.getLast?_cons,
    List.getLast?_eq_some_getLast (past.lineage_ne_nil parent.isLt)]
  rfl

/-- A background context goes back to itself. -/
theorem source?_background (past : History n) :
    past.background.source? n = some n := by
  unfold source? lineage
  rw [if_pos rfl]
  rfl

theorem source?_lt {source : Nat} (h : past.source? i = some source) :
    source < n :=
  past.lt_of_mem_lineage (List.mem_of_getLast? h)

/-- A derived context is under the deadlines of its parent and the one that
was introduced for it. -/
theorem deadlines_derive (past : History n) (parent : Fin n)
    (how : Derivation) :
    (past.derive parent how).deadlines n =
      how.deadline?.toList ++ past.deadlines parent := by
  have hown : (past.derive parent how).introduced? n = how.deadline? :=
    if_pos rfl
  rw [deadlines, lineage_derive, List.filterMap_cons, hown,
    (adds_derive past parent how).filterMap_introduced?]
  cases how.deadline? <;> rfl

theorem deadlines_background (past : History n) :
    past.background.deadlines n = [] := by
  have hlineage : past.background.lineage n = [n] := if_pos rfl
  have hown : past.background.introduced? n = none := if_pos rfl
  rw [deadlines, hlineage, List.filterMap_cons_none hown]
  rfl

end History

/-! ## Derived contexts -/

/-- The context a derivation makes from another. -/
def Derivation.make (context : Context) : Derivation → Context
  | clone => context
  | withTimeout timeout now => context.withTimeout timeout now
  | withDeadline time => context.withDeadline time

theorem Derivation.apply_eq (how : Derivation) (contexts : Contexts)
    (index : Nat) :
    how.apply contexts index = contexts.derive index (how.make ·) := by
  cases how <;> rfl

theorem Derivation.family_make (how : Derivation) (context : Context) :
    (how.make context).family = context.family := by
  cases how <;> rfl

/-- **A derived context keeps the earlier deadline.** -/
theorem Derivation.deadline_make (how : Derivation) {times : List Time}
    (h : context.deadline = times.min?) :
    (how.make context).deadline = (how.deadline?.toList ++ times).min? := by
  have hearlier : ∀ time, (context.withDeadline time).deadline =
      (time :: times).min? := by
    intro time
    rw [List.min?_cons, ← h, Context.withDeadline]
    cases context.deadline with
    | none => rfl
    | some own => exact congrArg some (Int.min_comm own time)
  cases how with
  | clone => exact h
  | withTimeout timeout now => exact hearlier (now + timeout)
  | withDeadline time => exact hearlier time

/-! ## Contexts and their history -/

/-- **Contexts belong to a history**: there are as many, those of one source
are one family, the families that are cancelled are those of contexts the
program has cancelled, and each context has the earliest of the deadlines it
is under. -/
structure Fits (contexts : Contexts) (history : History n) : Prop where
  size : contexts.made.length = n
  family_lt : ∀ {i context}, contexts.get? i = some context →
    context.family < contexts.families
  family_eq_iff : ∀ {i j context other}, contexts.get? i = some context →
    contexts.get? j = some other → (context.family = other.family ↔
      history.source? i = history.source? j)
  mem_cancelled_iff : ∀ family, family ∈ contexts.cancelled ↔
    ∃ j ∈ history.cancels, ∃ other, contexts.get? j = some other ∧
      other.family = family
  deadline : ∀ {i context}, contexts.get? i = some context →
    context.deadline = (history.deadlines i).min?

namespace Fits

variable {past history : History n} {later : History (n + 1)}

theorem empty : Fits Contexts.empty History.start where
  size := rfl
  family_lt h := by cases h
  family_eq_iff h := by cases h
  mem_cancelled_iff _ := iff_of_false List.not_mem_nil
    fun ⟨_, hmem, _⟩ => List.not_mem_nil hmem
  deadline h := by cases h

theorem lt (h : Fits contexts history)
    (hget : contexts.get? i = some context) : i < n := by
  have hlt : i < contexts.made.length := (List.getElem?_eq_some_iff.1 hget).1
  rwa [h.size] at hlt

theorem exists_get? (h : Fits contexts history) (hi : i < n) :
    ∃ context, contexts.get? i = some context :=
  ⟨_, List.getElem?_eq_getElem (h.size.symm ▸ hi)⟩

/-- **A further context is made.** What is asked of it concerns it and the
contexts before it. -/
theorem add (h : Fits contexts past) (hadds : past.Adds later)
    (new : Context) (hmade : next.made = contexts.made ++ [new])
    (hcancelled : next.cancelled = contexts.cancelled)
    (hfamilies : contexts.families ≤ next.families)
    (hnew : new.family < next.families)
    (hkin : ∀ {i context}, contexts.get? i = some context →
      (new.family = context.family ↔ later.source? n = past.source? i))
    (hdeadline : new.deadline = (later.deadlines n).min?) :
    Fits next later := by
  have hold : ∀ {i context}, contexts.get? i = some context →
      next.get? i = some context := by
    intro i context hget
    rw [get?, hmade, List.getElem?_append_left (h.size ▸ h.lt hget)]
    exact hget
  -- a context is one of those before or the new one
  have hcases : ∀ {i context}, next.get? i = some context →
      contexts.get? i = some context ∨ i = n ∧ context = new := by
    intro i context hget
    rw [get?, hmade, List.getElem?_append] at hget
    split at hget
    · exact .inl hget
    · next hge =>
      obtain ⟨hlt, heq⟩ := List.getElem?_eq_some_iff.1 hget
      rw [List.length_singleton] at hlt
      have hsize := h.size
      refine .inr ⟨by omega, ?_⟩
      rw [← heq, List.getElem_singleton]
  refine ⟨?_, ?_, ?_, fun family => ?_, ?_⟩
  · rw [hmade, List.length_append, h.size, List.length_singleton]
  · intro i context hget
    obtain hget | ⟨rfl, rfl⟩ := hcases hget
    · exact Nat.lt_of_lt_of_le (h.family_lt hget) hfamilies
    · exact hnew
  · intro i j context other hget hother
    obtain hget | ⟨rfl, rfl⟩ := hcases hget <;>
      obtain hother | ⟨rfl, rfl⟩ := hcases hother
    · rw [hadds.source?_eq (h.lt hget), hadds.source?_eq (h.lt hother)]
      exact h.family_eq_iff hget hother
    · rw [hadds.source?_eq (h.lt hget), eq_comm, hkin hget, eq_comm]
    · rw [hadds.source?_eq (h.lt hother)]
      exact hkin hother
    · exact iff_of_true rfl rfl
  · rw [hcancelled, hadds.cancels, h.mem_cancelled_iff]
    refine exists_congr fun j => and_congr_right fun hmem =>
      exists_congr fun other => and_congr_left fun _ => ⟨hold, fun hget => ?_⟩
    obtain hget | ⟨rfl, _⟩ := hcases hget
    · exact hget
    · exact absurd (past.lt_of_mem_cancels hmem) (Nat.lt_irrefl _)
  · intro i context hget
    obtain hget | ⟨rfl, rfl⟩ := hcases hget
    · rw [hadds.deadlines_eq (h.lt hget)]
      exact h.deadline hget
    · exact hdeadline

theorem background (h : Fits contexts past) :
    Fits contexts.background past.background := by
  refine h.add past.adds_background ⟨contexts.families, none⟩ rfl rfl
    (Nat.le_succ _) (Nat.lt_succ_self _) (fun {i context} hget => ?_) ?_
  · -- its family is new, and so is where it goes back to
    refine iff_of_false (Nat.ne_of_gt (h.family_lt hget)) fun heq => ?_
    rw [History.source?_background] at heq
    exact Nat.lt_irrefl _ (History.source?_lt heq.symm)
  · rw [History.deadlines_background]
    rfl

theorem derive (h : Fits contexts past) (parent : Fin n)
    (how : Derivation) :
    Fits (how.apply contexts parent) (past.derive parent how) := by
  obtain ⟨elder, helder⟩ := h.exists_get? parent.isLt
  rw [Derivation.apply_eq, Contexts.derive, helder]
  refine h.add (past.adds_derive parent how) (how.make elder) rfl rfl
    (Nat.le_refl _) ?_ (fun {i context} hget => ?_) ?_
  · rw [how.family_make]
    exact h.family_lt helder
  · rw [how.family_make, History.source?_derive]
    exact h.family_eq_iff helder hget
  · rw [History.deadlines_derive]
    exact how.deadline_make (h.deadline helder)

theorem cancel (h : Fits contexts past) (target : Fin n) :
    Fits (contexts.cancel target) (past.cancel target) := by
  obtain ⟨elder, helder⟩ := h.exists_get? target.isLt
  rw [Contexts.cancel, helder]
  refine ⟨h.size, h.family_lt, h.family_eq_iff, fun family => ?_, h.deadline⟩
  show family ∈ elder.family :: contexts.cancelled ↔
    ∃ j ∈ (target : Nat) :: past.cancels, ∃ other,
      contexts.get? j = some other ∧ other.family = family
  rw [List.mem_cons, h.mem_cancelled_iff]
  simp only [List.mem_cons, exists_eq_or_imp]
  refine or_congr ⟨fun heq => ⟨elder, helder, heq.symm⟩, ?_⟩ Iff.rfl
  rintro ⟨other, hother, rfl⟩
  rw [helder] at hother
  cases hother
  rfl

/-- **The contexts after a history belong to it**: by induction on its
steps. -/
theorem run (history : History n) : Fits history.run history := by
  induction history with
  | start => exact .empty
  | background past ih => exact ih.background
  | derive past parent how ih => exact ih.derive parent how
  | cancel past target ih => exact ih.cancel target

/-- **A context is cancelled exactly if one of its source was.** -/
theorem isCancelled_iff (h : Fits contexts history)
    (hget : contexts.get? i = some context) :
    contexts.isCancelled context ↔ history.Cancelled i := by
  unfold isCancelled History.Cancelled
  rw [List.contains_iff_mem, h.mem_cancelled_iff]
  refine exists_congr fun j => and_congr_right fun hmem => ?_
  obtain ⟨other, hother⟩ := h.exists_get? (history.lt_of_mem_cancels hmem)
  rw [← h.family_eq_iff hother hget]
  constructor
  · rintro ⟨found, hfound, hfamily⟩
    rw [hother] at hfound
    cases hfound
    exact hfamily
  · exact fun hfamily => ⟨other, hother, hfamily⟩

end Fits

/-! ## What a context says -/

/-- A deadline has come exactly if one of the deadlines has that the context
is under. -/
theorem isExpired_iff {times : List Time} (h : context.deadline = times.min?)
    (now : Time) : context.isExpired now ↔ ∃ time ∈ times, time ≤ now := by
  unfold Context.isExpired
  rw [h]
  cases hmin : times.min? with
  | none =>
    rw [List.min?_eq_none_iff.1 hmin]
    exact iff_of_false Bool.false_ne_true
      fun ⟨_, hmem, _⟩ => List.not_mem_nil hmem
  | some first =>
    obtain ⟨hmem, hle⟩ := List.min?_eq_some_iff.1 hmin
    show decide (first ≤ now) = true ↔ _
    rw [decide_eq_true_iff]
    exact ⟨fun hfirst => ⟨first, hmem, hfirst⟩,
      fun ⟨time, htime, hnow⟩ => Int.le_trans (hle time htime) hnow⟩

/-- **What a check says**: cancelled, else too late, else nothing. -/
theorem check_status (contexts : Contexts) (context : Context) (now : Time) :
    ((contexts.status context now).check = .error .cancelled ↔
        contexts.isCancelled context) ∧
      ((contexts.status context now).check = .error .deadlineExceeded ↔
        ¬ contexts.isCancelled context ∧ context.isExpired now) ∧
      ((contexts.status context now).check = .ok () ↔
        ¬ contexts.isCancelled context ∧ ¬ context.isExpired now) := by
  unfold status
  cases contexts.isCancelled context <;> cases context.isExpired now <;>
    simp [Status.check]

/-- **A context is what its lineage makes of it.** After any history a context
is cancelled if and only if the program has cancelled some context that goes
back to the same background context; it has the earliest of the deadlines
introduced along its own lineage, and none if there are none. A check fails
accordingly, cancellation first, and whenever it fails for a context of the
lineage it fails for this one. -/
theorem status_by_lineage (history : History n) (i : Fin n) :
    ∃ context, history.run.get? i = some context ∧
      (history.run.isCancelled context ↔ history.Cancelled i) ∧
      context.deadline = (history.deadlines i).min? ∧
      ∀ now,
        ((history.run.status context now).check = .error .cancelled ↔
          history.Cancelled i) ∧
        ((history.run.status context now).check = .error .deadlineExceeded ↔
          ¬ history.Cancelled i ∧ ∃ time ∈ history.deadlines i, time ≤ now) ∧
        ((history.run.status context now).check = .ok () ↔
          ¬ history.Cancelled i ∧ ∀ time ∈ history.deadlines i, now < time) ∧
        ∀ j ∈ history.lineage i, ∀ elder, history.run.get? j = some elder →
          (history.run.status context now).check = .ok () →
            (history.run.status elder now).check = .ok () := by
  have hfits := Fits.run history
  obtain ⟨context, hget⟩ := hfits.exists_get? i.isLt
  have hlive : ∀ {k : Nat} {elder : Context} (now : Time),
      history.run.get? k = some elder →
        ((history.run.status elder now).check = .ok () ↔
          ¬ history.Cancelled k ∧
            ∀ time ∈ history.deadlines k, now < time) := by
    intro k elder now helder
    rw [(check_status _ elder now).2.2, hfits.isCancelled_iff helder,
      isExpired_iff (hfits.deadline helder)]
    simp only [not_exists, not_and, Int.not_le]
  refine ⟨context, hget, hfits.isCancelled_iff hget, hfits.deadline hget,
    fun now => ⟨?_, ?_, hlive now hget, fun j hj elder helder hpass => ?_⟩⟩
  · rw [(check_status _ context now).1, hfits.isCancelled_iff hget]
  · rw [(check_status _ context now).2.1, hfits.isCancelled_iff hget,
      isExpired_iff (hfits.deadline hget)]
  · obtain ⟨hnot, hafter⟩ := (hlive now hget).1 hpass
    have hsuffix := history.lineage_isSuffix hj
    have hsource : history.source? j = history.source? i := by
      obtain ⟨front, hfront⟩ := hsuffix
      have hne := history.lineage_ne_nil (history.lt_of_mem_lineage hj)
      rw [History.source?, History.source?, ← hfront,
        List.getLast?_append_of_ne_nil _ hne]
    refine (hlive now helder).2 ⟨?_, fun time htime => ?_⟩
    · unfold History.Cancelled at hnot ⊢
      rwa [hsource]
    · exact hafter time ((hsuffix.sublist.filterMap _).subset htime)

/-- A clone that is given a deadline late, and cancelled, cancels the context
it was cloned from, and leaves it without a deadline. -/
example :
    let history := ((History.start.background.derive 0 .clone).derive 1
      (.withDeadline 5)).cancel 2
    history.Cancelled 0 ∧ history.deadlines 0 = [] ∧
      history.deadlines 2 = [5] := by
  decide

end Contexts
end PathStore
