import PathStore.Context
import PathStore.Proofs.Walk.Lockstep
import PathStore.Proofs.Walk.Record
import Mathlib.Order.Nat

/-!
# A cancelled walk is the beginning of a walk

A walk that is cancelled at some moment does what it would have done anyway,
and stops before it next asks the store for something. What it has done by
then is a beginning of what it would have done in all, with at most one visit
behind the moment: that of an entry the store was just being asked about
(`Walk.cancelled_prefix`). If nothing more would have been asked, the walk ends
as it would have ended.

The two walks are in step until a check comes too late (`Event.late?`), so
that much is read off the record of the walk that is left alone. That nothing
is asked in between is a matter of how records are put together. What is asked
of a store is asked right behind a check, and what is visited has just been
asked about (`Rounds`).
-/

namespace PathStore

variable {σ : Type u} {log events more : List Event} {moment left : Nat}

namespace Event

/-- Whether something is asked of the store. -/
def asksStore : Event → Bool
  | listed _ _ => true
  | told _ _ => true
  | _ => false

/-- Whether a directory is listed. -/
def isListing : Event → Bool
  | listed _ _ => true
  | _ => false

/-- **A step of a walk**: something is asked of the store, or an entry is
visited. -/
def isStep : Event → Bool
  | checked _ => false
  | noted _ => false
  | _ => true

/-- Whether the context is asked. -/
def isCheck : Event → Bool
  | checked _ => true
  | _ => false

/-- A check is no step. -/
theorem isCheck_of_isStep {event : Event} (h : event.isStep) :
    event.isCheck = false := by
  cases event with
  | checked answer => cases h
  | _ => rfl

/-- **What comes before the first check that is too late**, if one is: with
`left` steps left until the context is cancelled. -/
def late? : Nat → List Event → Option (List Event)
  | _, [] => none
  | left, event :: events =>
    if left = 0 ∧ event.isCheck then some []
    else
      (late? (if event.isStep then left - 1 else left) events).map (event :: ·)

theorem late?_append (left : Nat) (events more : List Event) :
    late? left (events ++ more) = (late? left events).or
      ((late? (left - events.countP isStep) more).map (events ++ ·)) := by
  induction events generalizing left with
  | nil => simp [late?]
  | cons event events ih =>
    have hleft : left - (event :: events).countP isStep =
        (if event.isStep then left - 1 else left) - events.countP isStep := by
      rw [List.countP_cons]
      split <;> omega
    rw [List.cons_append, late?, late?, hleft]
    split
    · rfl
    · rw [ih, Option.map_or, Option.map_map]
      rfl

/-- **What is done** with `left` steps left until the context is cancelled:
all there is before the first check that is too late. -/
def done (left : Nat) (log : List Event) : List Event :=
  (late? left log).getD log

/-- Nothing is too late because of what came in time. -/
theorem isSome_late?_append (h : late? left events = none)
    (more : List Event) : (late? left (events ++ more)).isSome =
      (late? (left - events.countP isStep) more).isSome := by
  rw [late?_append, h, Option.none_or, Option.isSome_map]

/-- What comes in time is done. -/
theorem done_append (h : late? left events = none) (more : List Event) :
    done left (events ++ more) =
      events ++ done (left - events.countP isStep) more := by
  rw [done, late?_append, h, Option.none_or]
  exact Option.getD_map (events ++ ·) more _

/-- What was too late stays so. -/
theorem late?_append_of_some (h : late? left log = some events)
    (more : List Event) : late? left (log ++ more) = some events := by
  rw [late?_append, h, Option.some_or]

/-- **One more event** is too late if it is a check with no step left. -/
theorem late?_concat (h : late? left log = none) (event : Event) :
    late? left (log ++ [event]) =
      if left - log.countP isStep = 0 ∧ event.isCheck then some log
      else none := by
  rw [late?_append, h, Option.none_or, late?, late?]
  split
  · simp
  · rfl

end Event

/-! ## A walk that is cancelled -/

namespace Host

/-- **The same surroundings under a context that is never done.** -/
def live (host : Host σ) : Host σ :=
  { host with check := fun w => (Status.live.check, w) }

/-- **The same surroundings under a context that is cancelled** during some
step of the walk, or before it. Beside the world stands how many steps are
left until then. -/
def cancelling (host : Host σ) : Host (σ × Nat) where
  driver := host.driver
  check w := ((if w.2 = 0 then Status.cancelled else .live).check, w)
  list dir w := ((host.list dir w.1).1, (host.list dir w.1).2, w.2 - 1)
  stat path w := ((host.stat path w.1).1, (host.stat path w.1).2, w.2 - 1)
  visit entry w :=
    ((host.visit entry w.1).1, (host.visit entry w.1).2, w.2 - 1)
  note notice w := (host.note notice w.1, w.2)

/-- **No check has come too late**: both walks have the same record. -/
def InTime (moment : Nat) (w : σ × List Event)
    (v : (σ × Nat) × List Event) : Prop :=
  Event.late? moment w.2 = none ∧
    v = ((w.1, moment - w.2.countP Event.isStep), w.2)

/-- **A check has come too late**, with which the record of the cancelled walk
ends. -/
def TooLate (moment : Nat) (log cut : List Event) : Prop :=
  ∃ front, Event.late? moment log = some front ∧
    cut = front ++ [.checked (.error .cancelled)]

theorem TooLate.append {cut : List Event} (h : TooLate moment log cut)
    (more : List Event) : TooLate moment (log ++ more) cut := by
  obtain ⟨front, hlate, hcut⟩ := h
  exact ⟨front, Event.late?_append_of_some hlate more, hcut⟩

theorem InTime.intro (h : Event.late? moment log = none) (w : σ) (left : Nat)
    (hleft : left = moment - log.countP Event.isStep) :
    InTime moment (w, log) ((w, left), log) :=
  ⟨h, by rw [hleft]⟩

/-- A step is spent on both sides. -/
theorem InTime.step (h : Event.late? moment log = none) (w : σ)
    {event : Event} (hstep : event.isStep) :
    InTime moment (w, log ++ [event])
      ((w, moment - log.countP Event.isStep - 1), log ++ [event]) := by
  refine .intro ?_ w _ ?_
  · rw [Event.late?_concat h, Event.isCheck_of_isStep hstep]
    exact if_neg fun hlate => Bool.false_ne_true hlate.2
  · rw [List.countP_append, List.countP_singleton, if_pos hstep,
      Nat.sub_add_eq]

/-- **A walk and the same walk cancelled are in step** until a check comes too
late. -/
theorem inStep_cancelling (host : Host σ) (moment : Nat) :
    host.live.traced.InStep host.cancelling.traced (InTime moment)
      (fun w v => TooLate moment w.2 v.2) .cancelled where
  driver := rfl
  check := by
    rintro ⟨w, log⟩ _ ⟨hnone, rfl⟩
    have hnone : Event.late? moment log = none := hnone
    have hlate := Event.late?_concat hnone (.checked (.ok ()))
    by_cases hleft : moment - log.countP Event.isStep = 0
    · rw [if_pos ⟨hleft, rfl⟩] at hlate
      have hcheck : host.cancelling.traced.check
          ((w, moment - log.countP Event.isStep), log) =
          (.error .cancelled, (w, moment - log.countP Event.isStep),
            log ++ [.checked (.error .cancelled)]) := by
        simp [traced, cancelling, hleft, Status.check]
      rw [hcheck]
      exact .parted _ ⟨log, hlate, rfl⟩
    · rw [if_neg fun h => hleft h.1] at hlate
      have hcheck : host.cancelling.traced.check
          ((w, moment - log.countP Event.isStep), log) =
          (.ok (), (w, moment - log.countP Event.isStep),
            log ++ [.checked (.ok ())]) := by
        simp [traced, cancelling, hleft, Status.check]
      rw [hcheck]
      refine .alike _ (.intro hlate w _ ?_)
      rw [List.countP_append]
      rfl
  list dir := by
    rintro ⟨w, log⟩ _ ⟨hnone, rfl⟩
    exact .intro _ (.step hnone _ rfl)
  stat path := by
    rintro ⟨w, log⟩ _ ⟨hnone, rfl⟩
    exact .intro _ (.step hnone _ rfl)
  visit entry := by
    rintro ⟨w, log⟩ _ ⟨hnone, rfl⟩
    exact .intro _ (.step hnone _ rfl)
  note notice := by
    rintro ⟨w, log⟩ _ ⟨hnone, rfl⟩
    refine .intro ?_ _ _ ?_
    · rw [Event.late?_concat hnone]
      exact if_neg fun hlate => Bool.false_ne_true hlate.2
    · rw [List.countP_append]
      rfl
  keeps v :=
    have hmore : ∀ log event, TooLate moment log v.2 →
        TooLate moment (log ++ [event]) v.2 := fun _ event h => h.append [event]
    .of_record host.live hmore

end Host

/-! ## What is asked right behind a check -/

/-- **A record under a live context**: what is asked of the store is asked
right behind a check, and an entry is visited right behind what the store has
told about it. -/
inductive Rounds : List Event → Prop where
  | nil : Rounds []
  | asked {event : Event} {events : List Event} (asks : event.asksStore)
    (rest : Rounds events) : Rounds (.checked (.ok ()) :: event :: events)
  | shown (path : String) (entry : Entry) (answer : Except Failure Verdict)
    {events : List Event} (rest : Rounds events) :
    Rounds (.checked (.ok ()) :: .told path (.ok entry) ::
      .visited entry answer :: events)
  | noted (notice : Notice) {events : List Event} (rest : Rounds events) :
    Rounds (.noted notice :: events)

namespace Rounds

theorem append (h : Rounds events) (hmore : Rounds more) :
    Rounds (events ++ more) := by
  induction h with
  | nil => exact hmore
  | asked asks _ ih => exact .asked asks ih
  | shown path entry answer _ ih => exact .shown path entry answer ih
  | noted notice _ ih => exact .noted notice ih

theorem of_notices (notices : List Notice) :
    Rounds (notices.map .noted) := by
  induction notices with
  | nil => exact .nil
  | cons notice _ ih => exact .noted notice ih

end Rounds

/-- **The visit that comes first**, if a visit comes first. -/
def handed : List Event → List Event
  | .visited entry answer :: _ => [.visited entry answer]
  | _ => []

/-- **A record is cut off at a moment**: of its steps those up to the moment
are done and a visit that comes next, and a check is too late if behind the
moment the store is asked. -/
def CutsAt (left : Nat) (log : List Event) : Prop :=
  (Event.late? left log).isSome =
      ((log.filter Event.isStep).drop left).any Event.asksStore ∧
    (Event.done left log).filter Event.isStep =
      (log.filter Event.isStep).take left ++
        handed ((log.filter Event.isStep).drop left)

/-- What comes before the moment does not matter. -/
theorem CutsAt.append (hround : Event.late? left events = none)
    (hcount : events.countP Event.isStep ≤ left)
    (h : CutsAt (left - events.countP Event.isStep) more) :
    CutsAt left (events ++ more) := by
  obtain ⟨hlate, hdone⟩ := h
  rw [List.countP_eq_length_filter] at hcount
  rw [CutsAt, Event.isSome_late?_append hround, Event.done_append hround,
    hlate, List.filter_append, List.filter_append, hdone,
    List.countP_eq_length_filter, List.drop_append, List.take_append,
    List.drop_eq_nil_of_le hcount, List.take_of_length_le hcount,
    List.nil_append, List.append_assoc]
  exact ⟨rfl, rfl⟩

namespace Rounds

/-- Nothing is visited before it has been told about. -/
theorem handed_eq (h : Rounds log) :
    handed (log.filter Event.isStep) = [] := by
  induction h with
  | nil => rfl
  | @asked event _ asks _ _ => cases event <;> cases asks <;> rfl
  | shown _ _ _ _ _ => rfl
  | noted _ _ ih => exact ih

/-- **What is visited has just been told about.** -/
theorem told_of_visited (h : Rounds log) {front rest : List Event}
    {entry : Entry} {answer : Except Failure Verdict}
    (heq : log.filter Event.isStep = front ++ .visited entry answer :: rest) :
    ∃ before path, front = before ++ [.told path (.ok entry)] := by
  induction h generalizing front with
  | nil => cases front <;> cases heq
  | @asked event events asks _ ih =>
    have hevent : (Event.checked (.ok ()) :: event :: events).filter
        Event.isStep = event :: events.filter Event.isStep := by
      cases event <;> cases asks <;> rfl
    rw [hevent] at heq
    cases front with
    | nil =>
      cases heq
      cases asks
    | cons first front =>
      obtain ⟨rfl, hbehind⟩ := List.cons.inj heq
      obtain ⟨before, path, rfl⟩ := ih hbehind
      exact ⟨event :: before, path, rfl⟩
  | shown path shown verdict _ ih =>
    obtain _ | ⟨first, _ | ⟨second, front⟩⟩ := front
    · cases heq
    · -- this is the visit
      cases heq
      exact ⟨[], path, rfl⟩
    · obtain ⟨_, hvisit⟩ := List.cons.inj heq
      obtain ⟨_, hbehind⟩ := List.cons.inj hvisit
      obtain ⟨before, place, rfl⟩ := ih hbehind
      exact ⟨first :: second :: before, place, rfl⟩
  | noted _ _ ih => exact ih heq

/-- **What is done before the first check that is too late**: the steps there
are left, and then at most the visit of an entry that was being told about. -/
theorem cutsAt (h : Rounds log) (left : Nat) : CutsAt left log := by
  induction h generalizing left with
  | nil => simp [CutsAt, Event.late?, Event.done, handed]
  | @asked event events asks _ ih =>
    cases left with
    | zero => cases event <;> cases asks <;> exact ⟨rfl, rfl⟩
    | succ left =>
      have hround : Event.late? (left + 1) [.checked (.ok ()), event] =
          none := by
        cases event <;> cases asks <;> rfl
      have hcount : [.checked (.ok ()), event].countP Event.isStep = 1 := by
        cases event <;> cases asks <;> rfl
      exact CutsAt.append hround (by omega) (ih _)
  | @shown path entry answer events hrest ih =>
    have hround : ∀ left, Event.late? (left + 1) [.checked (.ok ()),
        .told path (.ok entry), .visited entry answer] = none := by
      intro left
      simp [Event.late?, Event.isCheck]
    match left with
    | 0 => exact ⟨rfl, rfl⟩
    | 1 =>
      -- the visit comes behind the moment, without a further check
      obtain ⟨hlate, hdone⟩ := ih 0
      have hdone : (Event.done 0 events).filter Event.isStep = [] :=
        hdone.trans hrest.handed_eq
      refine ⟨(Event.isSome_late?_append (hround 0) events).trans hlate,
        (congrArg _ (Event.done_append (hround 0) events)).trans ?_⟩
      rw [List.filter_append]
      exact congrArg ([_, _] ++ ·) hdone
    | left + 2 =>
      exact CutsAt.append (hround (left + 1)) (Nat.le_add_left ..) (ih _)
  | noted notice _ ih =>
    have hround : Event.late? left [.noted notice] = none := by
      simp [Event.late?, Event.isCheck]
    exact CutsAt.append hround (Nat.zero_le left) (ih _)

end Rounds

namespace Walk

variable {host : Host σ} {scope : Scope} {options : WalkOptions} {part : Part}
  {ending : Ending}

/-- **A part of a walk whose context is live** leaves such a record. -/
theorem Record.rounds (h : Record scope options part events ending)
    (hlive : ∀ cause, .checked (.error cause) ∉ events) : Rounds events := by
  induction h with
  | tooDeep _ | nil | skipped _ => exact .nil
  | cancelledDir _ cause | cancelled cause _ =>
    exact absurd (List.mem_singleton.2 rfl) (hlive cause)
  | unlisted _ _ | unknown _ _ => exact .asked rfl .nil
  | listed _ ih | unseen _ _ _ _ ih =>
    exact .asked rfl (ih fun cause hmem => hlive cause (by simp [hmem]))
  | next _ _ ihFirst ihRest =>
    exact (ihFirst fun cause hmem => hlive cause (by simp [hmem])).append
      (ihRest fun cause hmem => hlive cause (by simp [hmem]))
  | last _ _ _ ih => exact ih hlive
  | vanished _ _ => exact .asked rfl (.noted _ .nil)
  | refused _ _ _ | passed _ _ | stopped _ _ => exact .shown _ _ _ .nil
  | entered _ _ _ ih =>
    exact .shown _ _ _ (ih fun cause hmem => hlive cause (by simp [hmem]))
  | pruned _ _ => exact .shown _ _ _ (.noted _ .nil)

/-- **A walk whose context is live** leaves such a record. -/
theorem rounds_of_run {depth : Nat} {origin : String} {w next : σ}
    {answer : Option (Except Failure Unit)}
    (h : run host.live.traced scope options depth origin (w, []) =
      (answer, next, log)) : Rounds log := by
  obtain ⟨hasks, events, ending, notices, rfl, hrecord, _, _⟩ :=
    record_of_run h
  refine .noted _ ((hrecord.rounds fun cause hmem => ?_).append
    (.of_notices notices))
  have hlog : .checked (.error cause) ∈
      .noted (.started scope host.live.driver origin) ::
        (events ++ notices.map .noted) := by simp [hmem]
  obtain ⟨_, _, _, _, _, hcheck, _⟩ := hasks.split hlog
  cases hcheck

/-! ## A walk that runs out of levels -/

/-- **How many directories have been listed.** -/
def listings (log : List Event) : Nat :=
  log.countP Event.isListing

/-- What has been listed has been listed. -/
theorem keeps_listings (host : Host σ) (count : Nat) :
    host.traced.Keeps fun w => count ≤ listings w.2 := by
  have hmore : ∀ log event, count ≤ listings log →
      count ≤ listings (log ++ [event]) := by
    intro log event h
    rw [listings, List.countP_append]
    exact h.trans (Nat.le_add_right _ _)
  exact .of_record host hmore

/-- **A part of a walk that runs out** has listed as many directories as there
were levels. -/
def RunsOut (depth : Nat) (w : σ × List Event)
    (result : Ending × σ × List Event) : Prop :=
  result.1 = .tooDeep → listings w.2 + depth ≤ listings result.2.2

theorem runsOut_child {depth : Nat}
    {enter : String → σ × List Event → Ending × σ × List Event}
    (henter : ∀ path w, RunsOut depth w (enter path w)) (path : String)
    (w : σ × List Event) :
    RunsOut depth w (child host.traced scope options enter path w) := by
  have hstep := childStep host.traced scope options enter path w
  generalize child host.traced scope options enter path w = result at hstep ⊢
  have hkeeps := keeps_listings host (listings w.2)
  cases hstep with
  | entered told answer _ =>
    have hle := law_verdict hkeeps answer
      (hkeeps.told told (hkeeps.check (Nat.le_refl _)))
    exact fun hdeep => (Nat.add_le_add_right hle depth).trans
      (henter _ _ hdeep)
  | _ => exact Ending.noConfusion

theorem runsOut_inTurn {depth : Nat}
    {step : String → σ × List Event → Ending × σ × List Event}
    (hstep : ∀ path w, RunsOut depth w (step path w))
    (hkept : ∀ path w, listings w.2 ≤ listings (step path w).2.2)
    (paths : List String) (w : σ × List Event) :
    RunsOut depth w (inTurn step paths w) := by
  induction paths generalizing w with
  | nil => exact Ending.noConfusion
  | cons path rest ih =>
    have hpath := hstep path w
    have hle := hkept path w
    rw [inTurn_cons]
    generalize step path w = result at hpath hle ⊢
    obtain ⟨ending, next⟩ := result
    cases ending with
    | finished =>
      exact fun hdeep => (Nat.add_le_add_right hle depth).trans (ih next hdeep)
    | _ => exact hpath

/-- **A walk of a directory that runs out** has listed one directory a level:
by induction on the levels. -/
theorem runsOut_level (host : Host σ) (scope : Scope) (options : WalkOptions)
    (depth : Nat) (dir : String) (w : σ × List Event) :
    RunsOut depth w (level host.traced scope options depth dir w) := by
  induction depth generalizing dir w with
  | zero => exact fun _ => Nat.le_refl _
  | succ depth ih =>
    have hstep := levelStep host.traced scope options depth dir w
    generalize level host.traced scope options (depth + 1) dir w = result
      at hstep ⊢
    cases hstep with
    | cancelled _ | unlisted _ _ => exact Ending.noConfusion
    | @listed paths mid next check list =>
      have hkept : ∀ path w, listings w.2 ≤ listings
          (child host.traced scope options
            (level host.traced scope options depth) path w).2.2 :=
        fun path w => (keeps_listings host (listings w.2)).child
          ((keeps_listings host _).level depth) path w (Nat.le_refl _)
      have hrest := runsOut_inTurn (runsOut_child ih) hkept (sorted paths) next
      have hnext : listings w.2 + 1 ≤ listings next.2 := by
        rw [listings, listings, Host.traced_list list, Host.traced_check check]
        simp [Event.isListing]
      intro hdeep
      have hle := hrest hdeep
      omega

/-- A walk that gives no answer has listed as many directories as it could. -/
theorem le_listings_of_run {depth : Nat} {origin : String} {w : σ}
    (h : (run host.traced scope options depth origin (w, [])).1 = none) :
    depth ≤
      listings (run host.traced scope options depth origin (w, [])).2.2 := by
  rw [run_eq] at h ⊢
  have hdeep := runsOut_level host scope options depth origin
    (host.traced.note (.started scope host.traced.driver origin) (w, []))
  generalize level host.traced scope options depth origin
    (host.traced.note (.started scope host.traced.driver origin) (w, [])) =
      result at h hdeep ⊢
  obtain ⟨ending, next⟩ := result
  cases ending with
  | tooDeep => exact (Nat.le_add_left _ _).trans (hdeep rfl)
  | stopped place => cases scope <;> cases h
  | _ => cases h

/-- Of some steps that list more than `moment` directories, one behind the
moment asks the store. -/
theorem asksStore_of_lt_listings (h : moment < listings log) :
    ((log.filter Event.isStep).drop moment).any Event.asksStore := by
  have hsteps : listings log =
      (log.filter Event.isStep).countP Event.isListing := by
    rw [listings, List.countP_filter]
    refine List.countP_congr fun event _ => ?_
    cases event <;> simp [Event.isListing, Event.isStep]
  have htake : ((log.filter Event.isStep).take moment).countP
      Event.isListing ≤ moment :=
    List.countP_le_length.trans (List.length_take_le moment _)
  rw [hsteps, ← List.take_append_drop moment (log.filter Event.isStep),
    List.countP_append] at h
  obtain ⟨event, hmem, hlisting⟩ := List.countP_pos_iff.1
    (by omega : 0 < ((log.filter Event.isStep).drop moment).countP
      Event.isListing)
  refine List.any_eq_true.2 ⟨event, hmem, ?_⟩
  cases event <;> first | rfl | cases hlisting

/-! ## The walk is cut off -/

/-- **What a cancelled walk does and answers**, by what the whole walk does. -/
theorem eq_of_follows {whole : Option (Except Failure Unit) × σ × List Event}
    {cut : Option (Except Failure Unit) × (σ × Nat) × List Event}
    (h : Follows (Host.InTime moment)
      (fun w v => Host.TooLate moment w.2 v.2)
      (some (.error .cancelled)) whole cut) :
    cut.2.2.filter Event.isStep =
        (Event.done moment whole.2.2).filter Event.isStep ∧
      cut.1 = if (Event.late? moment whole.2.2).isSome then
        some (.error .cancelled) else whole.1 := by
  cases h with
  | @alike answer w v hpaired =>
    obtain ⟨hnone, rfl⟩ := hpaired
    rw [Event.done, hnone]
    exact ⟨rfl, rfl⟩
  | @parted answer w v hparted =>
    obtain ⟨front, hlate, hlog⟩ := hparted
    rw [Event.done, hlate, hlog, List.filter_append]
    exact ⟨List.append_nil _, rfl⟩

/-- **A cancelled walk is the beginning of a walk.** Let its context be
cancelled during a step, the one of number `moment`, or before the walk, which
is the moment zero. Its steps are then those of the whole walk up to the
moment. If the next of them is a visit, that is made as well; it is of the
entry the store was just being asked about. The walk answers that it was
cancelled if the whole walk asks the store for anything behind the moment, and
otherwise what the whole walk answers. A walk that would go on for ever, deeper
and deeper, is cancelled. -/
theorem cancelled_prefix (host : Host σ) (scope : Scope) (options : WalkOptions)
    (depth : Nat) (origin : String) (w : σ) (moment : Nat) :
    let whole := run host.live.traced scope options depth origin (w, [])
    let cut := run host.cancelling.traced scope options depth origin
      ((w, moment), [])
    let steps := whole.2.2.filter Event.isStep
    cut.2.2.filter Event.isStep =
        steps.take moment ++ handed (steps.drop moment) ∧
      (∀ front entry answer rest,
        steps = front ++ .visited entry answer :: rest →
          ∃ before path, front = before ++ [.told path (.ok entry)]) ∧
      (cut.1 = if (steps.drop moment).any Event.asksStore then
        some (.error .cancelled) else whole.1) ∧
      (whole.1 = none → moment < depth →
        cut.1 = some (.error .cancelled)) := by
  intro whole cut steps
  have hrounds : Rounds whole.2.2 := rounds_of_run rfl
  obtain ⟨hlate, hdone⟩ := hrounds.cutsAt moment
  have hstart : Host.InTime moment (w, []) ((w, moment), []) := ⟨rfl, rfl⟩
  obtain ⟨hsteps, hanswer⟩ := eq_of_follows
    ((host.inStep_cancelling moment).run scope options depth origin hstart)
  rw [hlate] at hanswer
  refine ⟨hsteps.trans hdone, fun _ _ _ _ => hrounds.told_of_visited,
    hanswer, fun hnone hdepth => ?_⟩
  have hasks := asksStore_of_lt_listings
    (Nat.lt_of_lt_of_le hdepth (le_listings_of_run hnone))
  exact hanswer.trans (if_pos hasks)

/-- Cancelled while the store is asked about the last file, the walk of the
fork shows it all the same and is ended by the visitor. -/
example : (run fork.cancelling.traced .filesOnly .all 2 "/" (((), 5), [])).1 =
    some (.error (.pruned "/a/y")) := by
  have htop : sorted ["/b", "/a"] = ["/a", "/b"] := by
    simp [sorted, List.mergeSort]
  have hsub : sorted ["/a/y", "/a/x"] = ["/a/x", "/a/y"] := by
    simp [sorted, List.mergeSort]
  simp [run, level, inTurn, child, verdict, Host.traced, Host.cancelling, fork,
    Status.check, WalkOptions.skips, WalkOptions.all, Failure.isNotFound,
    Entry.dir, Entry.file, Entry.isDir, htop, hsub]

end Walk
end PathStore
