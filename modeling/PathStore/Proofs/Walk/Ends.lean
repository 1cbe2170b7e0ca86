import PathStore.Proofs.Walk.Fatal

/-!
# Walks that end

Nothing in a walk says that it ends: a directory is entered because a stat
says so, and what it lists may lie anywhere. It ends where every directory
has a **rank** that grows on the way down and has a bound
(`Walk.run_isSome`). A number of levels above the bound is then enough.

The surroundings may change while the walk goes on, so a directory may be
listed in one world and its children told about in another. All that is
asked is a law of the worlds which nothing the walk asks for breaks
(`Host.Keeps`), and ranks that hold in every pair of worlds that obey it
(`Host.Ranks`).
-/

namespace PathStore

variable {σ : Type u} {host : Host σ} {law : σ → Prop} {rank : String → Nat}
  {bound : Nat}

/-- **A law of the worlds that nothing breaks**: whatever the surroundings
are asked for, the world they leave obeys it. -/
structure Host.Keeps (host : Host σ) (law : σ → Prop) : Prop where
  check : ∀ {w}, law w → law (host.check w).2
  list : ∀ {dir w}, law w → law (host.list dir w).2
  stat : ∀ {path w}, law w → law (host.stat path w).2
  visit : ∀ {entry w}, law w → law (host.visit entry w).2
  note : ∀ {notice w}, law w → law (host.note notice w)

/-- **Ranks that grow on the way down**, up to a bound: a directory listed
in another has the higher rank. -/
def Host.Ranks (host : Host σ) (law : σ → Prop) (rank : String → Nat)
    (bound : Nat) : Prop :=
  ∀ dir w paths, law w → (host.list dir w).1 = .ok paths →
    ∀ path ∈ paths, ∀ next entry, law next →
      (host.stat path next).1 = .ok entry → entry.isDir →
        rank dir < rank entry.path ∧ rank entry.path ≤ bound

/-- A record does not break a law. -/
theorem Host.Keeps.traced (h : host.Keeps law) :
    host.traced.Keeps fun w => law w.1 where
  check := h.check
  list := h.list
  stat := h.stat
  visit := h.visit
  note := h.note

/-- A record does not change ranks. -/
theorem Host.Ranks.traced (h : host.Ranks law rank bound) :
    host.traced.Ranks (fun w => law w.1) rank bound :=
  fun dir w paths hlaw hlist path hpath next entry hnext =>
    h dir w.1 paths hlaw hlist path hpath next.1 entry hnext

namespace Walk

variable {scope : Scope} {options : WalkOptions}

/-- A part of a walk has ended, in a world that obeys the law. -/
def Ends (law : σ → Prop) (result : Ending × σ) : Prop :=
  result.1 ≠ .tooDeep ∧ law result.2

theorem Ends.of_finished {w : σ} (h : law w) : Ends law (.finished, w) :=
  ⟨Ending.noConfusion, h⟩

theorem Ends.of_failed {w : σ} (cause : Failure) (h : law w) :
    Ends law (.failed cause, w) :=
  ⟨Ending.noConfusion, h⟩

theorem law_told (hkeeps : host.Keeps law) {path : String} {w mid next : σ}
    {answer : Except Failure Entry}
    (told : Told host options path w mid next answer) (h : law w) :
    law mid ∧ law next := by
  have hmid := hkeeps.check h
  rw [told.check] at hmid
  have hnext : law (host.stat path mid).2 := hkeeps.stat hmid
  rw [told.stat] at hnext
  exact ⟨hmid, hnext⟩

/-- A visitor that is asked or not asked keeps the law. -/
theorem law_verdict (hkeeps : host.Keeps law) {entry : Entry} {w next : σ}
    {answer : Except Failure Verdict}
    (hverdict : verdict host scope entry w = (answer, next)) (h : law w) :
    law next := by
  obtain ⟨_, _, hunseen⟩ | hvisit := verdict_cases host scope entry w
  · rw [hunseen] at hverdict
    obtain ⟨_, rfl⟩ := Prod.mk.inj hverdict
    exact h
  · have hnext : law (host.visit entry w).2 := hkeeps.visit h
    rw [← hvisit, hverdict] at hnext
    exact hnext

/-- **One child ends**, if it ends to enter the directory it may be. -/
theorem ends_child (hkeeps : host.Keeps law)
    {enter : String → σ → Ending × σ} {path : String}
    (henter : ∀ {next entry}, law next →
      (host.stat path next).1 = .ok entry → entry.isDir →
        ∀ {w}, law w → Ends law (enter entry.path w))
    {w : σ} (h : law w) :
    Ends law (child host scope options enter path w) := by
  have hstep := childStep host scope options enter path w
  generalize child host scope options enter path w = result at hstep ⊢
  cases hstep with
  | skipped _ => exact .of_finished h
  | cancelled _ check =>
    have hcheck := hkeeps.check h
    rw [check] at hcheck
    exact .of_failed _ hcheck
  | vanished told _ =>
    exact .of_finished (hkeeps.note (law_told hkeeps told h).2)
  | unknown told _ => exact .of_failed _ (law_told hkeeps told h).2
  | refused told answer =>
    exact .of_failed _ (law_verdict hkeeps answer (law_told hkeeps told h).2)
  | entered told answer dir =>
    obtain ⟨hmid, hlast⟩ := law_told hkeeps told h
    exact henter hmid (by rw [told.stat]) dir
      (law_verdict hkeeps answer hlast)
  | passed told answer _ =>
    exact .of_finished (law_verdict hkeeps answer (law_told hkeeps told h).2)
  | pruned told answer _ =>
    refine .of_finished (hkeeps.note ?_)
    exact law_verdict hkeeps answer (law_told hkeeps told h).2
  | stopped told answer _ =>
    exact ⟨Ending.noConfusion,
      law_verdict hkeeps answer (law_told hkeeps told h).2⟩

/-- **One after another end**, if each does. -/
theorem ends_inTurn {step : String → σ → Ending × σ} {paths : List String}
    (hstep : ∀ path ∈ paths, ∀ {w}, law w → Ends law (step path w)) {w : σ}
    (h : law w) : Ends law (inTurn step paths w) := by
  induction paths generalizing w with
  | nil => exact .of_finished h
  | cons path rest ih =>
    have hpath := hstep path List.mem_cons_self h
    unfold inTurn
    generalize step path w = result at hpath ⊢
    obtain ⟨ending, w⟩ := result
    cases ending with
    | finished =>
      exact ih (fun other hmem => hstep other (List.mem_cons_of_mem _ hmem))
        hpath.2
    | stopped place => exact hpath
    | failed cause => exact hpath
    | tooDeep => exact hpath

/-- **One directory ends** within levels that reach above the bound. By
induction on the levels: a child takes one, and has the higher rank. -/
theorem ends_level (scope : Scope) (options : WalkOptions)
    (hkeeps : host.Keeps law) (hranks : host.Ranks law rank bound)
    {depth : Nat} {dir : String} (hpos : 0 < depth)
    (hdepth : bound < rank dir + depth) {w : σ} (h : law w) :
    Ends law (level host scope options depth dir w) := by
  induction depth generalizing dir w with
  | zero => exact absurd hpos (Nat.lt_irrefl 0)
  | succ depth ih =>
    have hcheck := hkeeps.check h
    have hstep := levelStep host scope options depth dir w
    generalize level host scope options (depth + 1) dir w = result
      at hstep ⊢
    cases hstep with
    | cancelled check =>
      rw [check] at hcheck
      exact .of_failed _ hcheck
    | @unlisted _ mid _ check list =>
      rw [check] at hcheck
      have hlist : law (host.list dir mid).2 := hkeeps.list hcheck
      rw [list] at hlist
      exact .of_failed _ hlist
    | @listed paths mid _ check list =>
      rw [check] at hcheck
      have hlist : law (host.list dir mid).2 := hkeeps.list hcheck
      rw [list] at hlist
      refine ends_inTurn (fun path hpath w hw => ?_) hlist
      refine ends_child hkeeps (fun hnext hentry hdir w hw => ?_) hw
      obtain ⟨hlt, hle⟩ := hranks dir mid paths hcheck (by rw [list]) path
        (List.mem_mergeSort.1 hpath) _ _ hnext hentry hdir
      exact ih (by omega) (by omega) hw

/-- **A walk ends** within levels that reach above the bound. -/
theorem run_isSome (hkeeps : host.Keeps law)
    (hranks : host.Ranks law rank bound) {depth : Nat} {origin : String}
    (hpos : 0 < depth) (hdepth : bound < rank origin + depth) {w : σ}
    (h : law w) : (run host scope options depth origin w).1.isSome := by
  have hstarted : law (host.note (.started scope host.driver origin) w) :=
    hkeeps.note h
  have hends := (ends_level scope options hkeeps hranks hpos hdepth
    hstarted).1
  rw [run_eq]
  show ((level host scope options depth origin (host.note
    (.started scope host.driver origin) w)).1.answer? scope).isSome
  generalize (level host scope options depth origin
    (host.note (.started scope host.driver origin) w)).1 = ending at hends ⊢
  cases ending with
  | finished => rfl
  | stopped place => cases scope <;> rfl
  | failed cause => rfl
  | tooDeep => exact absurd rfl hends

end Walk
end PathStore
