import PathStore.Proofs.Walk.Ends
import PathStore.Proofs.Walk.Line

/-!
# Two walks in step, until one is told to stop

Two walks whose surroundings answer alike ask alike. Suppose the surroundings
answer alike except that at some check the second walk is told to stop. Then
the two are in step up to that check. The second ends there and answers what
it was told; the first goes on alone (`Host.InStep.run`).

Two relations between the worlds of the first and those of the second carry
this. While the walks are in step their worlds are `paired`. Once they have
come apart their worlds are `parted`, and stay so: the second walk stands
still, and nothing that is asked in the first breaks it. This last part is
about the first walk only. A law that nothing breaks is kept by a whole walk
(`Host.Keeps.level`).
-/

namespace PathStore

variable {σ : Type u} {τ : Type v} {scope : Scope} {options : WalkOptions}

/-! ## A law is kept by a whole walk -/

namespace Host.Keeps

open Walk

variable {host : Host σ} {law : σ → Prop} {path : String} {w mid next : σ}

/-- **A law of the record is kept** if no further event breaks it. -/
theorem of_record (host : Host σ) {law : List Event → Prop}
    (h : ∀ log event, law log → law (log ++ [event])) :
    host.traced.Keeps fun w => law w.2 where
  check := h _ _
  list := h _ _
  stat := h _ _
  visit := h _ _
  note := h _ _

/-- A law that holds once the context has been asked still holds when the
store has told what is there. -/
theorem told (h : host.Keeps law) {answer : Except Failure Entry}
    (told : Told host options path w mid next answer)
    (hmid : law (host.check w).2) : law next := by
  rw [told.check] at hmid
  have hnext : law (host.stat path mid).2 := h.stat hmid
  rw [told.stat] at hnext
  exact hnext

/-- **One child keeps a law** that holds once the context has been asked, if
walks of what is beneath it do. -/
theorem child_of_check (h : host.Keeps law) {enter : String → σ → Ending × σ}
    (henter : ∀ path w, law w → law (enter path w).2)
    (hskip : ¬ options.skips path) (hmid : law (host.check w).2) :
    law (child host scope options enter path w).2 := by
  have hstep := childStep host scope options enter path w
  generalize child host scope options enter path w = result at hstep ⊢
  cases hstep with
  | skipped skips => exact absurd skips hskip
  | cancelled _ check =>
    rw [check] at hmid
    exact hmid
  | vanished told _ => exact h.note (h.told told hmid)
  | unknown told _ => exact h.told told hmid
  | refused told answer | passed told answer _ | stopped told answer _ =>
    exact law_verdict h answer (h.told told hmid)
  | entered told answer _ =>
    exact henter _ _ (law_verdict h answer (h.told told hmid))
  | pruned told answer _ =>
    exact h.note (law_verdict h answer (h.told told hmid))

theorem child (h : host.Keeps law) {enter : String → σ → Ending × σ}
    (henter : ∀ path w, law w → law (enter path w).2) (path : String) (w : σ)
    (hw : law w) : law (child host scope options enter path w).2 := by
  by_cases hskip : options.skips path
  · rw [(ChildStep.skipped hskip).eq]
    exact hw
  · exact h.child_of_check henter hskip (h.check hw)

/-- **One after another keep a law**, if each does. -/
theorem inTurn {step : String → σ → Ending × σ}
    (hstep : ∀ path w, law w → law (step path w).2) (paths : List String)
    (hw : law w) : law (inTurn step paths w).2 := by
  induction paths generalizing w with
  | nil => exact hw
  | cons path rest ih =>
    have hpath := hstep path w hw
    unfold Walk.inTurn
    generalize step path w = result at hpath ⊢
    obtain ⟨ending, next⟩ := result
    cases ending with
    | finished => exact ih hpath
    | _ => exact hpath

/-- One directory keeps a law that holds once the context has been asked, if
what is beneath it does. -/
theorem level_of_check (h : host.Keeps law) {depth : Nat}
    (hlevel : ∀ dir w, law w → law (level host scope options depth dir w).2)
    (dir : String) (hmid : law (host.check w).2) :
    law (level host scope options (depth + 1) dir w).2 := by
  have hstep := levelStep host scope options depth dir w
  generalize level host scope options (depth + 1) dir w = result at hstep ⊢
  have hlisted : ∀ {mid next answer}, host.check w = (.ok (), mid) →
      host.list dir mid = (answer, next) → law next := by
    intro mid next answer check list
    rw [check] at hmid
    have hnext : law (host.list dir mid).2 := h.list hmid
    rw [list] at hnext
    exact hnext
  cases hstep with
  | cancelled check =>
    rw [check] at hmid
    exact hmid
  | unlisted check list => exact hlisted check list
  | listed check list => exact inTurn (h.child hlevel) _ (hlisted check list)

/-- **One directory keeps a law**: by induction on the levels that may be
opened. -/
theorem level (h : host.Keeps law) (depth : Nat) (dir : String) (w : σ)
    (hw : law w) : law (level host scope options depth dir w).2 := by
  induction depth generalizing dir w with
  | zero => exact hw
  | succ depth ih => exact h.level_of_check ih dir (h.check hw)

/-- What is noted at the end keeps a law. -/
theorem closing (h : host.Keeps law) (scope : Scope) (origin : String)
    (ending : Ending) (hw : law w) :
    law (closing host scope origin ending w) := by
  cases ending with
  | finished => exact h.note hw
  | stopped place =>
    cases scope with
    | everything => exact h.note hw
    | filesOnly => exact hw
  | failed cause => exact hw
  | tooDeep => exact hw

end Host.Keeps

/-! ## In step -/

/-- **The same answer**, in worlds that belong together. -/
inductive Agrees {α : Type} (paired : σ → τ → Prop) : α × σ → α × τ → Prop where
  | intro (answer : α) {w : σ} {v : τ} (h : paired w v) :
    Agrees paired (answer, w) (answer, v)

/-- **The same answer, or the second has come to a stop** and the first to
some answer of its own. -/
inductive Follows {α : Type} (paired parted : σ → τ → Prop) (stop : α) :
    α × σ → α × τ → Prop where
  | alike (answer : α) {w : σ} {v : τ} (h : paired w v) :
    Follows paired parted stop (answer, w) (answer, v)
  | parted (answer : α) {w : σ} {v : τ} (h : parted w v) :
    Follows paired parted stop (answer, w) (stop, v)

/-- **Two hosts in step**: asked in worlds that are paired, they answer alike
and leave such worlds, but a check of the second may fail with `cause`. The
worlds have then parted, and whatever is asked in the first, they have. -/
structure Host.InStep (host : Host σ) (other : Host τ)
    (paired parted : σ → τ → Prop) (cause : Failure) : Prop where
  driver : other.driver = host.driver
  check : ∀ {w v}, paired w v →
    Follows paired parted (.error cause) (host.check w) (other.check v)
  list : ∀ dir {w v}, paired w v →
    Agrees paired (host.list dir w) (other.list dir v)
  stat : ∀ path {w v}, paired w v →
    Agrees paired (host.stat path w) (other.stat path v)
  visit : ∀ entry {w v}, paired w v →
    Agrees paired (host.visit entry w) (other.visit entry v)
  note : ∀ notice {w v}, paired w v →
    paired (host.note notice w) (other.note notice v)
  keeps : ∀ v, host.Keeps fun w => parted w v

namespace Host.InStep

open Walk

variable {host : Host σ} {other : Host τ} {paired parted : σ → τ → Prop}
  {cause : Failure} {w : σ} {v : τ}

theorem verdict (h : host.InStep other paired parted cause) (scope : Scope)
    (entry : Entry) (hw : paired w v) :
    Agrees paired (verdict host scope entry w)
      (verdict other scope entry v) := by
  cases scope with
  | everything => exact h.visit entry hw
  | filesOnly =>
    rw [verdict_filesOnly, verdict_filesOnly]
    split
    · exact .intro _ hw
    · exact h.visit entry hw

/-- **One child in step**, if walks of what is beneath it are. -/
theorem child (h : host.InStep other paired parted cause)
    {enter : String → σ → Ending × σ} {enterOther : String → τ → Ending × τ}
    (henter : ∀ path w v, paired w v →
      Follows paired parted (.failed cause) (enter path w)
        (enterOther path v))
    (hkept : ∀ v path w, parted w v → parted (enter path w).2 v)
    (path : String) (hw : paired w v) :
    Follows paired parted (.failed cause)
      (child host scope options enter path w)
      (child other scope options enterOther path v) := by
  by_cases hskip : options.skips path
  · rw [(ChildStep.skipped hskip).eq, (ChildStep.skipped hskip).eq]
    exact .alike _ hw
  have hkeeps : ∀ v, parted (host.check w).2 v →
      parted (Walk.child host scope options enter path w).2 v :=
    fun v => (h.keeps v).child_of_check (hkept v) hskip
  have hchecked := h.check hw
  generalize hcheck : host.check w = checked at hchecked hkeeps
  generalize hcheckOther : other.check v = checkedOther at hchecked
  cases hchecked with
  | parted answer hparted =>
    rw [(ChildStep.cancelled hskip hcheckOther).eq]
    exact .parted _ (hkeeps _ hparted)
  | alike answer hmid =>
    cases answer with
    | error answer =>
      rw [(ChildStep.cancelled hskip hcheck).eq,
        (ChildStep.cancelled hskip hcheckOther).eq]
      exact .alike _ hmid
    | ok answer =>
      have htold := h.stat path hmid
      generalize hstat : host.stat path _ = told at htold
      generalize hstatOther : other.stat path _ = toldOther at htold
      obtain ⟨answer, hlast⟩ := htold
      have htold := Told.mk hskip hcheck hstat
      have htoldOther := Told.mk hskip hcheckOther hstatOther
      cases answer with
      | error answer =>
        by_cases hgone : answer.isNotFound
        · rw [(ChildStep.vanished htold hgone).eq,
            (ChildStep.vanished htoldOther hgone).eq]
          exact .alike _ (h.note _ hlast)
        · rw [(ChildStep.unknown htold hgone).eq,
            (ChildStep.unknown htoldOther hgone).eq]
          exact .alike _ hlast
      | ok entry =>
        have hvisited := h.verdict scope entry hlast
        generalize hanswer : Walk.verdict host scope entry _ = visited
          at hvisited
        generalize hanswerOther : Walk.verdict other scope entry _ =
          visitedOther at hvisited
        obtain ⟨answer, hnext⟩ := hvisited
        cases answer with
        | error answer =>
          rw [(ChildStep.refused htold hanswer).eq,
            (ChildStep.refused htoldOther hanswerOther).eq]
          exact .alike _ hnext
        | ok answer =>
          cases answer <;> by_cases hdir : entry.isDir
          · rw [(ChildStep.entered htold hanswer hdir).eq,
              (ChildStep.entered htoldOther hanswerOther hdir).eq]
            exact henter entry.path _ _ hnext
          · rw [(ChildStep.passed htold hanswer hdir).eq,
              (ChildStep.passed htoldOther hanswerOther hdir).eq]
            exact .alike _ hnext
          · rw [(ChildStep.pruned htold hanswer hdir).eq,
              (ChildStep.pruned htoldOther hanswerOther hdir).eq]
            exact .alike _ (h.note _ hnext)
          · rw [(ChildStep.stopped htold hanswer hdir).eq,
              (ChildStep.stopped htoldOther hanswerOther hdir).eq]
            exact .alike _ hnext

/-- **One after another in step**, if each is. Where one of them is told to
stop, the first walk goes on with the rest alone. -/
theorem inTurn {step : String → σ → Ending × σ}
    {stepOther : String → τ → Ending × τ}
    (hstep : ∀ path w v, paired w v →
      Follows paired parted (.failed cause) (step path w) (stepOther path v))
    (hkept : ∀ v path w, parted w v → parted (step path w).2 v)
    (paths : List String) (hw : paired w v) :
    Follows paired parted (.failed cause) (inTurn step paths w)
      (inTurn stepOther paths v) := by
  induction paths generalizing w v with
  | nil => exact .alike _ hw
  | cons path rest ih =>
    have hpath := hstep path w v hw
    rw [inTurn_cons, inTurn_cons]
    generalize step path w = result at hpath ⊢
    generalize stepOther path v = resultOther at hpath ⊢
    cases hpath with
    | alike ending hnext =>
      cases ending with
      | finished => exact ih hnext
      | _ => exact .alike _ hnext
    | @parted ending next last hparted =>
      have hrest : parted (andThen (ending, next) (Walk.inTurn step rest)).2
          last := by
        cases ending with
        | finished => exact Keeps.inTurn (hkept last) rest hparted
        | _ => exact hparted
      exact .parted _ hrest

/-- **One directory in step**: by induction on the levels that may be
opened. -/
theorem level (h : host.InStep other paired parted cause) (depth : Nat)
    (dir : String) (w : σ) (v : τ) (hw : paired w v) :
    Follows paired parted (.failed cause)
      (level host scope options depth dir w)
      (level other scope options depth dir v) := by
  induction depth generalizing dir w v with
  | zero => exact .alike _ hw
  | succ depth ih =>
    have hkept : ∀ v dir w, parted w v →
        parted (Walk.level host scope options depth dir w).2 v :=
      fun v => (h.keeps v).level depth
    have hkeeps : ∀ v, parted (host.check w).2 v →
        parted (Walk.level host scope options (depth + 1) dir w).2 v :=
      fun v => (h.keeps v).level_of_check (hkept v) dir
    have hchecked := h.check hw
    generalize hcheck : host.check w = checked at hchecked hkeeps
    generalize hcheckOther : other.check v = checkedOther at hchecked
    cases hchecked with
    | parted answer hparted =>
      rw [(LevelStep.cancelled hcheckOther).eq]
      exact .parted _ (hkeeps _ hparted)
    | alike answer hmid =>
      cases answer with
      | error answer =>
        rw [(LevelStep.cancelled hcheck).eq,
          (LevelStep.cancelled hcheckOther).eq]
        exact .alike _ hmid
      | ok answer =>
        have hlisted := h.list dir hmid
        generalize hlist : host.list dir _ = listed at hlisted
        generalize hlistOther : other.list dir _ = listedOther at hlisted
        obtain ⟨answer, hnext⟩ := hlisted
        cases answer with
        | error answer =>
          rw [(LevelStep.unlisted hcheck hlist).eq,
            (LevelStep.unlisted hcheckOther hlistOther).eq]
          exact .alike _ hnext
        | ok paths =>
          rw [(LevelStep.listed hcheck hlist).eq,
            (LevelStep.listed hcheckOther hlistOther).eq]
          exact inTurn (fun path _ _ => h.child ih hkept path)
            (fun v => (h.keeps v).child (hkept v)) _ hnext

/-- **A walk in step**: both answer alike, or the second answers what it was
told when it came to a stop. -/
theorem run (h : host.InStep other paired parted cause) (scope : Scope)
    (options : WalkOptions) (depth : Nat) (origin : String)
    (hw : paired w v) :
    Follows paired parted (some (.error cause))
      (run host scope options depth origin w)
      (run other scope options depth origin v) := by
  have hlevel : Follows paired parted (.failed cause)
      (Walk.level host scope options depth origin _)
      (Walk.level other scope options depth origin _) :=
    h.level depth origin _ _ (h.note (.started scope host.driver origin) hw)
  rw [run_eq, run_eq, h.driver]
  generalize Walk.level host scope options depth origin _ = result at hlevel ⊢
  generalize Walk.level other scope options depth origin _ = resultOther
    at hlevel ⊢
  cases hlevel with
  | parted ending hparted =>
    exact .parted _ ((h.keeps _).closing scope origin ending hparted)
  | alike ending hnext =>
    refine .alike _ ?_
    cases ending with
    | finished =>
      rw [closing, closing, h.driver]
      exact h.note _ hnext
    | stopped place =>
      cases scope with
      | everything =>
        rw [closing, closing, h.driver]
        exact h.note _ hnext
      | filesOnly => exact hnext
    | failed cause => exact hnext
    | tooDeep => exact hnext

end Host.InStep
end PathStore
