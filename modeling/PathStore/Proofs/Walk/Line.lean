import PathStore.Proofs.Walk.Step

/-!
# A walk of a store at rest is a straight line

While a walk goes on, the store it walks may be at rest: what a directory
lists and what is at a path are then the same whenever they are asked. If
also the visitor's verdict on each directory is settled beforehand, the
order of everything the walk does is settled, and the recursion over
levels unrolls to one list of paths, `Walk.itinerary`, handled one after
another (`Walk.level_eq_line`).

Nothing else is fixed. The visitor may keep a state and say anything about
files, the context may be cancelled on the way, and stats and listings may
fail. A walk that stops early stops somewhere on the line.

Handling a path of the line is `Walk.child` with `Walk.arrive` in the place
of the walk beneath a directory: the directory is listed where the walk
would enter it, and what it lists comes next on the line.
-/

namespace PathStore

variable {σ : Type u}

/-- **A host whose store is at rest**: listings and stats do not depend on
the world in which they are asked for. They may still change it. -/
structure Host.IsAtRest (host : Host σ)
    (lists : String → Except Failure (List String))
    (stats : String → Except Failure Entry) : Prop where
  list : ∀ dir w, (host.list dir w).1 = lists dir
  stat : ∀ path w, (host.stat path w).1 = stats path

namespace Walk

variable {host : Host σ} {scope : Scope} {options : WalkOptions}
  {lists : String → Except Failure (List String)}
  {stats : String → Except Failure Entry} {pruned : Entry → Bool}

/-- **Verdicts on directories that are settled beforehand**: those that
`pruned` names are left out. -/
def SettlesDirs (host : Host σ) (scope : Scope) (pruned : Entry → Bool) :
    Prop :=
  ∀ entry w, entry.isDir →
    (verdict host scope entry w).1 =
      .ok (if pruned entry then .prune else .proceed)

/-! ## One part after another -/

/-- Goes on with `next` where a part has finished. -/
def andThen (result : Ending × σ) (next : σ → Ending × σ) : Ending × σ :=
  match result with
  | (.finished, w) => next w
  | (ending, w) => (ending, w)

@[simp] theorem andThen_finished (w : σ) (next : σ → Ending × σ) :
    andThen (.finished, w) next = next w := rfl

theorem andThen_of_ne {result : Ending × σ} (h : result.1 ≠ .finished)
    (next : σ → Ending × σ) : andThen result next = result := by
  obtain ⟨ending, w⟩ := result
  cases ending with
  | finished => exact absurd rfl h
  | _ => rfl

theorem andThen_assoc (result : Ending × σ) (next last : σ → Ending × σ) :
    andThen (andThen result next) last =
      andThen result fun w => andThen (next w) last := by
  obtain ⟨ending, w⟩ := result
  cases ending <;> rfl

theorem inTurn_nil (step : String → σ → Ending × σ) (w : σ) :
    inTurn step [] w = (.finished, w) := rfl

theorem inTurn_cons (step : String → σ → Ending × σ) (path : String)
    (rest : List String) (w : σ) :
    inTurn step (path :: rest) w = andThen (step path w) (inTurn step rest) := by
  rw [inTurn]
  generalize step path w = result
  obtain ⟨ending, w⟩ := result
  cases ending <;> rfl

/-- **Two lists in turn are the one and then the other.** -/
theorem inTurn_append (step : String → σ → Ending × σ)
    (paths more : List String) (w : σ) :
    inTurn step (paths ++ more) w =
      andThen (inTurn step paths w) (inTurn step more) := by
  induction paths generalizing w with
  | nil => rfl
  | cons path rest ih =>
    rw [List.cons_append, inTurn_cons, inTurn_cons, andThen_assoc]
    exact congrArg (andThen (step path w)) (funext ih)

/-! ## The line -/

/-- **What a walk does when it comes to a directory**: it lists it. -/
def arrive (host : Host σ) (dir : String) (w : σ) : Ending × σ :=
  match host.check w with
  | (.error cause, w) => (.failed cause, w)
  | (.ok (), w) =>
    match host.list dir w with
    | (.error cause, w) => (.failed cause, w)
    | (.ok _, w) => (.finished, w)

/-- What is listed, in order, and nothing where listing fails. -/
def listed (lists : String → Except Failure (List String)) (dir : String) :
    List String :=
  match lists dir with
  | .ok paths => sorted paths
  | .error _ => []

/-- **The directory that is entered at a path**, if one is. -/
def entered? (stats : String → Except Failure Entry) (pruned : Entry → Bool)
    (path : String) : Option String :=
  match stats path with
  | .ok entry => if entry.isDir && !pruned entry then some entry.path else none
  | .error _ => none

/-- **The paths a walk handles, in order.** -/
def itinerary (lists : String → Except Failure (List String))
    (stats : String → Except Failure Entry) (options : WalkOptions)
    (pruned : Entry → Bool) : (depth : Nat) → (dir : String) → List String
  | 0, _ => []
  | depth + 1, dir =>
    ((listed lists dir).filter fun path => !options.skips path).flatMap
      fun path => path ::
        ((entered? stats pruned path).elim []
          (itinerary lists stats options pruned depth))

/-- **A directory is listed and then its children are handled.** -/
theorem level_succ (hrest : host.IsAtRest lists stats) (depth : Nat)
    (dir : String) (w : σ) :
    level host scope options (depth + 1) dir w =
      andThen (arrive host dir w)
        (inTurn (child host scope options (level host scope options depth))
          (listed lists dir)) := by
  have hlist := hrest.list dir
  have hstep := levelStep host scope options depth dir w
  generalize level host scope options (depth + 1) dir w = result at hstep ⊢
  cases hstep with
  | cancelled check => simp [arrive, check, andThen]
  | unlisted check list => simp [arrive, check, list, andThen]
  | @listed paths mid _ check list =>
    have hpaths : lists dir = .ok paths := by rw [← hlist mid, list]
    simp [arrive, check, list, listed, hpaths]

/-- What a walk is told is what the store tells. -/
theorem Told.stats_eq {path : String} {w mid next : σ}
    {answer : Except Failure Entry}
    (told : Told host options path w mid next answer)
    (hrest : host.IsAtRest lists stats) : stats path = answer := by
  rw [← hrest.stat path mid, told.stat]

/-- **One child and all beneath it**: the child is handled, then the line
goes on with what was entered. -/
theorem child_eq_line (hrest : host.IsAtRest lists stats)
    (hdirs : SettlesDirs host scope pruned)
    {enter : String → σ → Ending × σ} {line : String → List String}
    (henter : ∀ dir w, (enter dir w).1 ≠ .tooDeep → enter dir w =
      andThen (arrive host dir w)
        (inTurn (child host scope options (arrive host)) (line dir)))
    {path : String} (hskip : ¬ options.skips path) (w : σ)
    (hends : (child host scope options enter path w).1 ≠ .tooDeep) :
    child host scope options enter path w =
      andThen (child host scope options (arrive host) path w)
        (inTurn (child host scope options (arrive host))
          ((entered? stats pruned path).elim [] line)) := by
  have hstep := childStep host scope options enter path w
  generalize child host scope options enter path w = result at hstep hends ⊢
  cases hstep with
  | skipped skips => exact absurd skips hskip
  | cancelled kept check =>
    rw [(ChildStep.cancelled kept check).eq]
    rfl
  | vanished told gone =>
    rw [(ChildStep.vanished told gone).eq]
    simp [entered?, told.stats_eq hrest, inTurn_nil]
  | unknown told here =>
    rw [(ChildStep.unknown told here).eq]
    rfl
  | refused told answer =>
    rw [(ChildStep.refused told answer).eq]
    rfl
  | @entered entry _ last _ told answer dir =>
    have hsettled := hdirs entry last dir
    rw [answer] at hsettled
    have hgoes : pruned entry = false := by
      cases hpruned : pruned entry <;> simp [hpruned] at hsettled ⊢
    rw [(ChildStep.entered told answer dir).eq]
    simp only [entered?, told.stats_eq hrest, dir, hgoes, Bool.not_false,
      Bool.and_self, if_true, Option.elim_some]
    exact henter _ _ hends
  | passed told answer file =>
    rw [(ChildStep.passed told answer file).eq]
    simp [entered?, told.stats_eq hrest, file, inTurn_nil]
  | @pruned entry _ last _ told answer dir =>
    have hsettled := hdirs entry last dir
    rw [answer] at hsettled
    have hstays : pruned entry = true := by
      cases hpruned : pruned entry <;> simp [hpruned] at hsettled ⊢
    rw [(ChildStep.pruned told answer dir).eq]
    simp [entered?, told.stats_eq hrest, hstays, inTurn_nil]
  | stopped told answer file =>
    rw [(ChildStep.stopped told answer file).eq]
    rfl

/-- **A walk of a store at rest is a straight line**, if levels do not run
out. By induction on the levels, and within one on the children. -/
theorem level_eq_line (options : WalkOptions) (hrest : host.IsAtRest lists stats)
    (hdirs : SettlesDirs host scope pruned) (depth : Nat) (dir : String)
    (w : σ) (hends : (level host scope options depth dir w).1 ≠ .tooDeep) :
    level host scope options depth dir w =
      andThen (arrive host dir w)
        (inTurn (child host scope options (arrive host))
          (itinerary lists stats options pruned depth dir)) := by
  induction depth generalizing dir w with
  | zero => exact absurd rfl hends
  | succ depth ih =>
    rw [level_succ hrest] at hends ⊢
    rw [itinerary]
    generalize listed lists dir = paths at hends ⊢
    generalize arrive host dir w = result at hends ⊢
    obtain ⟨ending, w⟩ := result
    cases ending with
    | finished =>
      rw [andThen_finished] at hends ⊢
      rw [andThen_finished]
      induction paths generalizing w with
      | nil => rfl
      | cons path rest ihRest =>
        rw [inTurn_cons] at hends ⊢
        have hpath : (child host scope options
            (level host scope options depth) path w).1 ≠ .tooDeep := by
          intro hdeep
          rw [andThen_of_ne (by rw [hdeep]; exact Ending.noConfusion)] at hends
          exact hends hdeep
        by_cases hskip : options.skips path
        · rw [List.filter_cons_of_neg (by simp [hskip])]
          rw [child, if_pos hskip] at hends ⊢
          exact ihRest w hends
        · rw [List.filter_cons_of_pos (by simp [hskip]), List.flatMap_cons,
            inTurn_append, inTurn_cons,
            ← child_eq_line hrest hdirs ih hskip w hpath]
          generalize child host scope options
            (level host scope options depth) path w = result at hends ⊢
          obtain ⟨ending, w⟩ := result
          cases ending with
          | finished => exact ihRest w hends
          | _ => rfl
    | stopped place => rfl
    | failed cause => rfl
    | tooDeep => rfl

end Walk
end PathStore
