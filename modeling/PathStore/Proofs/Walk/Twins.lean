import PathStore.Proofs.Walk.Fatal
import PathStore.Proofs.Walk.Line

/-!
# Two stores that walk alike

Two walks over one kind of world come to the same if their surroundings
answer alike where the walks get to. They need not answer the same. What they
list may differ by paths with which a walk does nothing at all, and what they
tell of a path may differ in anything the visitor does not look at.

`Host.Twins` says what is asked of the two, and `Host.Twins.run` that the
walks are then equal: the same answer, in the same world. What a walk does
nothing with drops out of the sorted list (`Walk.inTurn_filter`,
`Walk.sorted_filter`), so where it stood there does not matter.
-/

namespace PathStore

variable {σ : Type u} {scope : Scope} {options : WalkOptions}

namespace Walk

variable {step other : String → σ → Ending × σ} {fresh : String → Bool}

/-- **What nothing is done with may be left out.** -/
theorem inTurn_filter (h : ∀ path w, ¬ fresh path → step path w = (.finished, w))
    (paths : List String) (w : σ) :
    inTurn step (paths.filter fresh) w = inTurn step paths w := by
  induction paths generalizing w with
  | nil => rfl
  | cons path rest ih =>
    rw [inTurn_cons]
    by_cases hfresh : fresh path
    · rw [List.filter_cons_of_pos hfresh, inTurn_cons]
      exact congrArg (andThen (step path w)) (funext ih)
    · rw [List.filter_cons_of_neg hfresh, h path w hfresh, andThen_finished]
      exact ih w

/-- Steps that do the same with each path of a list do the same with the
list. -/
theorem inTurn_congr {paths : List String}
    (h : ∀ path ∈ paths, ∀ w, step path w = other path w) (w : σ) :
    inTurn step paths w = inTurn other paths w := by
  induction paths generalizing w with
  | nil => rfl
  | cons path rest ih =>
    rw [inTurn_cons, inTurn_cons, h path List.mem_cons_self]
    exact congrArg (andThen (other path w)) (funext fun next =>
      ih (fun path hmem => h path (List.mem_cons_of_mem _ hmem)) next)

theorem sorted_pairwise (paths : List String) :
    (sorted paths).Pairwise (· ≤ ·) := by
  refine (List.pairwise_mergeSort ?_ ?_ paths).imp fun h => by simpa using h
  · intro a b c hab hbc
    simpa using String.le_trans (by simpa using hab) (by simpa using hbc)
  · intro a b
    simpa using String.le_total a b

/-- **There is one way to put paths in order.** -/
theorem eq_sorted {listed paths : List String} (h : listed.Pairwise (· ≤ ·))
    (hperm : listed.Perm paths) : listed = sorted paths :=
  (hperm.trans (List.mergeSort_perm paths _).symm).eq_of_pairwise
    (fun _ _ _ _ => String.le_antisymm) h (sorted_pairwise paths)

/-- **To sort forgets in which order paths were listed.** -/
theorem sorted_eq_of_perm {listed paths : List String}
    (h : listed.Perm paths) : sorted listed = sorted paths :=
  eq_sorted (sorted_pairwise listed) ((List.mergeSort_perm listed _).trans h)

/-- **To sort and then leave out is to leave out and then sort.** -/
theorem sorted_filter (fresh : String → Bool) (paths : List String) :
    (sorted paths).filter fresh = sorted (paths.filter fresh) :=
  eq_sorted ((sorted_pairwise paths).filter _)
    ((List.mergeSort_perm paths _).filter fresh)

end Walk

/-- **Answers that are alike**, in the same world: the same failure, or values
of which `same` holds. -/
inductive AnswersAlike {α : Type} (same : α → α → Prop) :
    Except Failure α × σ → Except Failure α × σ → Prop where
  | failed (cause : Failure) (w : σ) :
    AnswersAlike same (.error cause, w) (.error cause, w)
  | ok {value twin : α} (w : σ) (h : same value twin) :
    AnswersAlike same (.ok value, w) (.ok twin, w)

/-- **Two hosts that walk alike** on the paths that are `reached`. Their
contexts stay live and nobody reads their logs. Listings agree on the paths
that are `fresh`, and with any other path both walks do nothing but ask in
vain. What they tell of a path is the same to their visitors. -/
structure Host.Twins (host other : Host σ) (reached : String → Prop)
    (fresh : String → Bool) : Prop where
  check : ∀ w, host.check w = (.ok (), w) ∧ other.check w = (.ok (), w)
  note : ∀ notice w, host.note notice w = w ∧ other.note notice w = w
  list : ∀ dir w, reached dir → AnswersAlike (fun paths twins =>
      paths.filter fresh = twins.filter fresh ∧
        ∀ path ∈ paths, fresh path → reached path)
    (host.list dir w) (other.list dir w)
  stat : ∀ path w, reached path → AnswersAlike (fun entry twin =>
      entry.path = twin.path ∧ entry.isDir = twin.isDir ∧
        (entry.isDir → reached entry.path) ∧
        ∀ w, host.visit entry w = other.visit twin w)
    (host.stat path w) (other.stat path w)
  idle : ∀ path w, ¬ fresh path → ∃ cause cause', cause.isNotFound ∧
    cause'.isNotFound ∧ host.stat path w = (.error cause, w) ∧
      other.stat path w = (.error cause', w)

namespace Host.Twins

open Walk

variable {host other : Host σ} {reached : String → Prop}
  {fresh : String → Bool} {path : String}

/-- **A walk does nothing with what is not fresh.** -/
theorem child_idle {host : Host σ} (hcheck : ∀ w, host.check w = (.ok (), w))
    (hnote : ∀ notice w, host.note notice w = w) {w : σ} {cause : Failure}
    (hgone : cause.isNotFound) (hstat : host.stat path w = (.error cause, w))
    (enter : String → σ → Ending × σ) :
    child host scope options enter path w = (.finished, w) := by
  by_cases hskip : options.skips path
  · exact (ChildStep.skipped hskip).eq
  · have htold : Told host options path w w w (.error cause) :=
      ⟨hskip, hcheck w, hstat⟩
    rw [(ChildStep.vanished htold hgone).eq, hnote]

/-- **A child is handled alike**, if walks of what is beneath it are alike. -/
theorem child (h : host.Twins other reached fresh)
    {enter enterOther : String → σ → Ending × σ}
    (henter : ∀ dir w, reached dir → enter dir w = enterOther dir w)
    (hpath : reached path) (w : σ) :
    child host scope options enter path w =
      child other scope options enterOther path w := by
  unfold Walk.child
  split
  · rfl
  rw [(h.check w).1, (h.check w).2]
  dsimp only
  have hstat := h.stat path w hpath
  generalize host.stat path w = answer at hstat ⊢
  generalize other.stat path w = twinAnswer at hstat ⊢
  cases hstat with
  | failed cause next =>
    dsimp only
    rw [(h.note _ next).1, (h.note _ next).2]
  | @ok entry twin next hsame =>
    obtain ⟨hplace, hdir, hreached, hvisit⟩ := hsame
    have hverdict : verdict host scope entry next =
        verdict other scope twin next := by
      unfold verdict
      rw [← hdir, hvisit]
    dsimp only
    rw [hverdict]
    rcases verdict other scope twin next with ⟨_ | answer, last⟩
    · rfl
    dsimp only
    rw [← hdir, ← hplace]
    cases answer <;> cases hisDir : entry.isDir
    · rfl
    · exact henter _ _ (hreached hisDir)
    · rfl
    · dsimp only
      rw [(h.note _ last).1, (h.note _ last).2]

/-- **A directory is walked alike**: by induction on the levels that may be
opened. -/
theorem level (h : host.Twins other reached fresh) (depth : Nat)
    (dir : String) (hdir : reached dir) (w : σ) :
    level host scope options depth dir w =
      level other scope options depth dir w := by
  induction depth generalizing dir w with
  | zero => rfl
  | succ depth ih =>
    unfold Walk.level
    rw [(h.check w).1, (h.check w).2]
    dsimp only
    have hlist := h.list dir w hdir
    generalize host.list dir w = answer at hlist ⊢
    generalize other.list dir w = twinAnswer at hlist ⊢
    cases hlist with
    | failed cause next => rfl
    | @ok paths twins next hsame =>
      obtain ⟨hfilter, hreached⟩ := hsame
      -- what is not fresh drops out of both sorted lists; the rest is shared
      have hidle : ∀ path w, ¬ fresh path → Walk.child host scope options
          (Walk.level host scope options depth) path w = (.finished, w) := by
        intro path w hstale
        obtain ⟨_, _, hgone, -, hstat, -⟩ := h.idle path w hstale
        exact child_idle (fun w => (h.check w).1) (fun n w => (h.note n w).1)
          hgone hstat _
      have hidleTwin : ∀ path w, ¬ fresh path → Walk.child other scope options
          (Walk.level other scope options depth) path w = (.finished, w) := by
        intro path w hstale
        obtain ⟨_, _, -, hgone, -, hstat⟩ := h.idle path w hstale
        exact child_idle (fun w => (h.check w).2) (fun n w => (h.note n w).2)
          hgone hstat _
      dsimp only
      rw [← inTurn_filter hidle (sorted paths),
        ← inTurn_filter hidleTwin (sorted twins), sorted_filter, sorted_filter,
        ← hfilter]
      refine inTurn_congr (fun path hmem w => ?_) next
      obtain ⟨hmem, hfresh⟩ := List.mem_filter.1 (List.mem_mergeSort.1 hmem)
      exact h.child (fun dir w hdir => ih dir hdir w)
        (hreached path hmem hfresh) w

/-- **The walks are equal.** -/
theorem run (h : host.Twins other reached fresh) (scope : Scope)
    (options : WalkOptions) (depth : Nat) {origin : String}
    (horigin : reached origin) (w : σ) :
    run host scope options depth origin w =
      run other scope options depth origin w := by
  rw [run_of_unheard (fun notice w => (h.note notice w).1),
    run_of_unheard (fun notice w => (h.note notice w).2),
    h.level depth origin horigin w]

end Host.Twins
end PathStore
