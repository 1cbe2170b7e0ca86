import PathStore.Proofs.Walk.Record
import PathStore.Proofs.Walk.FilesOnly
import PathStore.Proofs.Walk.Lockstep

/-!
# The log of a walk, and where every stat went

A walk writes to a log, and the log is part of its record. This module says
what may be relied upon there: that the walk has started comes first, that it
has finished or was stopped comes last, if it comes at all, and between the
two stands a remark for every answer that calls for one and nothing else
(`Walk.Accounts`). A directory that the visitor prunes calls for a remark, and
so does a path at which nothing was found.

The same record says where every stat went. Either nothing was found, which is
noted, or what was found was shown to the visitor. A walk of the files goes
into directories without showing them, and a stat that fails otherwise ends
the walk; there is no third way to lose one (`Walk.Record.balanced`). The
grammar of records does not say that a walk of the files shows no directory,
so that is carried along as a law which no step of such a walk breaks
(`Walk.not_hides_of_level`).
-/

namespace PathStore

/-- **What a walk does not show**: directories, if it is of the files. -/
def Scope.hides (scope : Scope) (entry : Entry) : Bool :=
  scope = .filesOnly && entry.isDir

namespace Event

/-- What was noted. -/
def notice? : Event → Option Notice
  | noted notice => some notice
  | _ => none

/-- **The remark an answer calls for**: that a path which was listed is gone,
or that the visitor pruned a directory. -/
def remark? : Event → Option Notice
  | told path (.error cause) =>
    if cause.isNotFound then some (.vanished path) else none
  | visited entry (.ok .prune) =>
    if entry.isDir then some (.prunedDirectory entry.path) else none
  | _ => none

/-- Where the visitor stopped the walk. -/
def stop? : Event → Option String
  | visited entry (.ok .prune) => if entry.isDir then none else some entry.path
  | _ => none

/-- Whether the event is a stat. -/
def isTold : Event → Bool
  | told _ _ => true
  | _ => false

/-- Whether the event is a visit. -/
def isVisit : Event → Bool
  | visited _ _ => true
  | _ => false

/-- Whether it was noted that a path is gone. -/
def isVanished : Event → Bool
  | noted (.vanished _) => true
  | _ => false

/-- Whether a stat found what is not shown. -/
def isHidden (scope : Scope) : Event → Bool
  | told _ (.ok entry) => scope.hides entry
  | _ => false

/-- **Whether a stat failed**, other than by finding nothing. -/
def isBroken : Event → Bool
  | told _ (.error cause) => !cause.isNotFound
  | _ => false

/-- To stop a walk is fatal, and nothing else forces that ending. -/
theorem stop?_eq_some_iff {event : Event} {place : String} :
    event.stop? = some place ↔ event.fatal? = some (.stopped place) := by
  constructor
  · intro h
    unfold stop? at h
    split at h
    · next entry =>
      by_cases hdir : entry.isDir
      · rw [if_pos hdir] at h
        cases h
      · rw [if_neg hdir] at h
        obtain rfl := Option.some.inj h
        exact if_neg hdir
    · cases h
  · intro h
    unfold fatal? at h
    split at h
    · cases h
    · cases h
    · split at h <;> cases h
    · cases h
    · next entry =>
      by_cases hdir : entry.isDir
      · rw [if_pos hdir] at h
        cases h
      · rw [if_neg hdir] at h
        obtain rfl := Ending.stopped.inj (Option.some.inj h)
        exact if_neg hdir
    · cases h

/-- A stat that fails ends a walk with its failure. -/
theorem fatal?_of_isBroken {event : Event} (h : event.isBroken) :
    event.fatal?.isSome := by
  unfold isBroken at h
  split at h
  · next cause =>
    have hhere : ¬ cause.isNotFound := by simpa using h
    simp [fatal?, hhere]
  · cases h

end Event

namespace Walk

variable {σ : Type u} {host : Host σ} {scope : Scope} {options : WalkOptions}
  {part : Part} {events log : List Event} {ending : Ending}

/-! ## Between the notices -/

/-- **What is noted on the way is what the answers call for**, in order. -/
theorem Record.remarks (h : Record scope options part events ending) :
    events.filterMap Event.notice? = events.filterMap Event.remark? := by
  induction h with
  | tooDeep _ | nil | skipped _ => rfl
  | cancelledDir _ _ | unlisted _ _ | cancelled _ _ => rfl
  | listed _ ih | unseen _ _ _ _ ih | entered _ _ _ ih => exact ih
  | next _ _ ihFirst ihRest =>
    rw [List.filterMap_append, List.filterMap_append, ihFirst, ihRest]
  | last _ _ _ ih => exact ih
  | vanished _ gone =>
    simp [List.filterMap_cons, Event.notice?, Event.remark?, gone]
  | unknown _ here =>
    simp [List.filterMap_cons, Event.notice?, Event.remark?, here]
  | refused _ _ _ | passed _ _ => rfl
  | pruned _ isDir =>
    simp [List.filterMap_cons, Event.notice?, Event.remark?, isDir]
  | stopped _ file =>
    simp [List.filterMap_cons, Event.notice?, Event.remark?, file]

/-- **Every stat went somewhere**: what it found was shown, or hidden, or
it found nothing, which was noted, or it failed. -/
def Balanced (scope : Scope) (events : List Event) : Prop :=
  events.countP Event.isTold =
    events.countP Event.isVisit + events.countP Event.isVanished +
      events.countP (Event.isHidden scope) + events.countP Event.isBroken

theorem Balanced.nil : Balanced scope [] := rfl

theorem Balanced.append {more : List Event} (h : Balanced scope events)
    (hmore : Balanced scope more) : Balanced scope (events ++ more) := by
  unfold Balanced at *
  simp only [List.countP_append]
  omega

theorem Balanced.checked (answer : Except Failure Unit)
    (h : Balanced scope events) : Balanced scope (.checked answer :: events) :=
  h

theorem Balanced.listed (dir : String) (answer : Except Failure (List String))
    (h : Balanced scope events) :
    Balanced scope (.listed dir answer :: events) :=
  h

/-- What is shown balances the stat that found it. -/
theorem Balanced.shown (path : String) {entry : Entry}
    (answer : Except Failure Verdict) (hshown : scope.hides entry = false)
    (h : Balanced scope events) :
    Balanced scope
      (.told path (.ok entry) :: .visited entry answer :: events) := by
  unfold Balanced at *
  simp [List.countP_cons, Event.isTold, Event.isVisit, Event.isVanished,
    Event.isHidden, Event.isBroken, hshown]
  omega

/-- What is hidden balances the stat that found it. -/
theorem Balanced.hidden (path : String) {entry : Entry}
    (hhidden : scope.hides entry) (h : Balanced scope events) :
    Balanced scope (.told path (.ok entry) :: events) := by
  unfold Balanced at *
  simp [List.countP_cons, Event.isTold, Event.isVisit, Event.isVanished,
    Event.isHidden, Event.isBroken, hhidden]
  omega

/-- **Every stat of a part of a walk went somewhere**, if nothing is shown that
is to be hidden. -/
theorem Record.balanced (h : Record scope options part events ending)
    (hshown : ∀ entry answer, .visited entry answer ∈ events →
      scope.hides entry = false) : Balanced scope events := by
  induction h with
  | tooDeep _ | nil | skipped _ => exact .nil
  | cancelledDir _ _ | cancelled _ _ => exact .checked _ .nil
  | unlisted _ _ => exact .checked _ (.listed _ _ .nil)
  | listed _ ih =>
    exact .checked _ (.listed _ _ (ih fun entry answer hmem =>
      hshown entry answer (by simp [hmem])))
  | next _ _ ihFirst ihRest =>
    have hfirst := ihFirst fun entry answer hmem =>
      hshown entry answer (List.mem_append_left _ hmem)
    have hrest := ihRest fun entry answer hmem =>
      hshown entry answer (List.mem_append_right _ hmem)
    exact hfirst.append hrest
  | last _ _ _ ih => exact ih hshown
  | vanished _ gone =>
    simp [Balanced, List.countP_cons, Event.isTold, Event.isVisit,
      Event.isVanished, Event.isHidden, Event.isBroken, gone]
  | unknown _ here =>
    simp [Balanced, List.countP_cons, Event.isTold, Event.isVisit,
      Event.isVanished, Event.isHidden, Event.isBroken, here]
  | refused entry cause _ =>
    exact .checked _ (.shown _ _ (hshown entry (.error cause) (by simp)) .nil)
  | @entered _ entry _ _ _ _ _ ih =>
    refine .checked _ (.shown _ _ (hshown entry (.ok .proceed) (by simp)) ?_)
    exact ih fun entry answer hmem => hshown entry answer (by simp [hmem])
  | unseen _ isDir files _ ih =>
    refine .checked _ (.hidden _ (by simp [Scope.hides, isDir, files]) ?_)
    exact ih fun entry answer hmem => hshown entry answer (by simp [hmem])
  | @passed _ entry _ _ =>
    exact .checked _ (.shown _ _ (hshown entry (.ok .proceed) (by simp)) .nil)
  | @pruned _ entry _ _ =>
    exact .checked _ (.shown _ _ (hshown entry (.ok .prune) (by simp)) rfl)
  | @stopped _ entry _ _ =>
    exact .checked _ (.shown _ _ (hshown entry (.ok .prune) (by simp)) .nil)

/-- **A walk of the files shows no directory.** It is a walk of everything
whose visitor is not asked about directories. -/
theorem not_hides_of_level {depth : Nat} {dir : String}
    {w : σ × List Event}
    (hlog : (level host.traced scope options depth dir w).2.2 = log)
    (hw : ∀ entry answer, .visited entry answer ∈ w.2 →
      scope.hides entry = false) :
    ∀ entry answer, .visited entry answer ∈ log →
      scope.hides entry = false := by
  cases scope with
  | everything => exact fun _ _ _ => rfl
  | filesOnly =>
    have hadd : ∀ (log : List Event) (event : Event),
        (∀ entry answer, event = .visited entry answer →
          Scope.filesOnly.hides entry = false) →
        (∀ entry answer, .visited entry answer ∈ log →
          Scope.filesOnly.hides entry = false) →
        ∀ entry answer, .visited entry answer ∈ log ++ [event] →
          Scope.filesOnly.hides entry = false := by
      intro log event hevent hlog entry answer hmem
      obtain hmem | hmem := List.mem_append.1 hmem
      · exact hlog entry answer hmem
      · exact hevent entry answer (List.mem_singleton.1 hmem).symm
    have hkeeps : host.traced.pastDirs.Keeps fun w : σ × List Event =>
        ∀ entry answer, .visited entry answer ∈ w.2 →
          Scope.filesOnly.hides entry = false := by
      refine ⟨hadd _ _ ?_, hadd _ _ ?_, hadd _ _ ?_, ?_, hadd _ _ ?_⟩
      all_goals try exact fun _ _ h => Event.noConfusion h
      intro entry w hw
      by_cases hdir : entry.isDir
      · simpa only [Host.pastDirs, if_pos hdir] using hw
      · simp only [Host.pastDirs, if_neg hdir]
        refine hadd _ _ (fun shown answer heq => ?_) hw
        obtain ⟨rfl, _⟩ := Event.visited.inj heq
        simp [Scope.hides, hdir]
    rw [← hlog, level_pastDirs]
    exact hkeeps.level depth dir w hw

/-- From its start on, when one notice is all that has happened. -/
theorem not_hides_of_started {depth : Nat} {origin : String} {w next : σ}
    {notice : Notice}
    (h : level host.traced scope options depth origin
      (host.traced.note notice (w, [])) =
        (ending, next, .noted notice :: events)) :
    ∀ entry answer, .visited entry answer ∈ events →
      scope.hides entry = false := by
  have hstarted : ∀ entry answer,
      .visited entry answer ∈ (host.traced.note notice (w, [])).2 →
      scope.hides entry = false := by
    intro entry answer hmem
    cases List.mem_singleton.1 hmem
  intro entry answer hmem
  exact not_hides_of_level (congrArg (·.2.2) h) hstarted entry answer
    (List.mem_cons_of_mem _ hmem)

/-! ## The end -/

/-- The last question of a walk. -/
def lastCall? (log : List Event) : Option Event :=
  (log.filter Event.isCall).getLast?

/-- **What a walk notes at the end**: nothing if it fails, and otherwise that
it has finished, unless the last that happened was that the visitor stopped
it. -/
def parting (scope : Scope) (driver origin : String)
    (answer : Except Failure Unit) (log : List Event) : List Notice :=
  match answer with
  | .error _ => []
  | .ok () =>
    match (lastCall? log).bind Event.stop? with
    | some place => [.stopped driver origin place]
    | none => [.finished scope driver origin]

theorem fatal?_of_lastCall? (calm : Calm events) {last : Event}
    (h : lastCall? events = some last) : last.fatal? = none :=
  calm last (List.mem_filter.1 (List.mem_of_getLast? h)).1

theorem lastCall?_append {front : List Event} {last : Event}
    (h : last.isCall) : lastCall? (front ++ [last]) = some last := by
  unfold lastCall?
  rw [List.filter_append, List.filter_cons_of_pos h, List.filter_nil,
    List.getLast?_concat]

/-- **The visitor stopped a walk** exactly if that was the last that
happened. -/
theorem Closes.stop_iff (h : Closes events ending) (place : String) :
    (lastCall? events).bind Event.stop? = some place ↔
      ending = .stopped place := by
  have hcalm : Calm events →
      ¬ (lastCall? events).bind Event.stop? = some place := by
    intro calm hstop
    obtain ⟨last, hlast, hstop⟩ := Option.bind_eq_some_iff.1 hstop
    have hnone := fatal?_of_lastCall? calm hlast
    rw [Event.stop?_eq_some_iff.1 hstop] at hnone
    cases hnone
  cases h with
  | finished calm | tooDeep calm => simp [hcalm calm]
  | fatal _ forced =>
    rw [lastCall?_append (Event.isCall_of_fatal? forced), Option.bind_some,
      Event.stop?_eq_some_iff, forced]
    exact Option.some_inj

/-- **At most one stat failed, the last of all.** -/
theorem Closes.countP_isBroken (h : Closes events ending) :
    events.countP Event.isBroken =
      if (lastCall? events).any Event.isBroken then 1 else 0 := by
  have hnone : ∀ {event : Event}, event.fatal? = none →
      event.isBroken = false := by
    intro event hcalm
    by_contra hbroken
    have := Event.fatal?_of_isBroken (eq_true_of_ne_false hbroken)
    rw [hcalm] at this
    cases this
  have hcalm : ∀ {events}, Calm events →
      events.countP Event.isBroken = 0 := by
    intro events calm
    rw [List.countP_eq_zero]
    intro event hmem
    simp [hnone (calm event hmem)]
  cases h with
  | finished calm | tooDeep calm =>
    rw [hcalm calm]
    cases hlast : lastCall? events with
    | none => rfl
    | some last => simp [hnone (fatal?_of_lastCall? calm hlast)]
  | @fatal front last _ calm forced =>
    rw [lastCall?_append (Event.isCall_of_fatal? forced), List.countP_append,
      hcalm calm, List.countP_singleton, Option.any_some, Nat.zero_add]

/-- What a walk notes at the end can be told from its answer and its last
question. -/
theorem Closes.partings_eq (h : Closes events ending) {driver origin : String}
    {answer : Except Failure Unit}
    (hanswer : ending.answer? scope = some answer)
    (hlast : lastCall? log = lastCall? events) :
    partings scope driver origin ending =
      parting scope driver origin answer log := by
  have hstop := h.stop_iff
  unfold parting
  rw [hlast]
  cases ending with
  | finished =>
    obtain rfl := Option.some.inj hanswer
    cases hbind : (lastCall? events).bind Event.stop? with
    | none => rfl
    | some place => cases (hstop place).1 hbind
  | stopped place =>
    cases scope with
    | everything =>
      obtain rfl := Option.some.inj hanswer
      rw [(hstop place).2 rfl]
      rfl
    | filesOnly =>
      obtain rfl := Option.some.inj hanswer
      rfl
  | failed cause =>
    obtain rfl := Option.some.inj hanswer
    rfl
  | tooDeep => cases hanswer

/-! ## The whole record -/

/-- **The accounts of a walk** that has ended. -/
structure Accounts (scope : Scope) (driver origin : String)
    (answer : Except Failure Unit) (log : List Event) : Prop where
  /-- The first that happens is that it is noted that the walk has started. -/
  first : log.head? = some (.noted (.started scope driver origin))
  /-- **Nothing else is noted** but, in order, a remark for each answer that
  calls for one, and at the end how the walk has ended. -/
  notices : log.filterMap Event.notice? = .started scope driver origin ::
    (log.filterMap Event.remark? ++ parting scope driver origin answer log)
  /-- Nothing happens behind that. -/
  last : ∀ notice ∈ parting scope driver origin answer log,
    log.getLast? = some (.noted notice)
  /-- A walk of the files notes no directory. -/
  unbarred : scope = .filesOnly →
    ∀ path, .noted (.prunedDirectory path) ∉ log
  /-- **Where every stat went.** -/
  stats : log.countP Event.isTold =
    log.countP Event.isVisit + log.countP Event.isVanished +
      log.countP (Event.isHidden scope) +
        if (lastCall? log).any Event.isBroken then 1 else 0

/-- At most one thing is noted at the end, and it is no remark. -/
theorem partings_cases (scope : Scope) (driver origin : String)
    (ending : Ending) :
    partings scope driver origin ending = [] ∨
      ∃ notice, partings scope driver origin ending = [notice] ∧
        ∀ path, notice ≠ .vanished path ∧ notice ≠ .prunedDirectory path := by
  cases ending with
  | finished => exact .inr ⟨_, rfl, fun _ => by simp⟩
  | stopped place =>
    cases scope with
    | everything => exact .inr ⟨_, rfl, fun _ => by simp⟩
    | filesOnly => exact .inl rfl
  | failed cause => exact .inl rfl
  | tooDeep => exact .inl rfl

/-- That a directory was pruned is noted where it was. -/
theorem Record.visited_of_noted {path : String}
    (h : Record scope options part events ending)
    (hmem : .noted (.prunedDirectory path) ∈ events) :
    ∃ entry, .visited entry (.ok .prune) ∈ events ∧ entry.isDir := by
  have hremark : .prunedDirectory path ∈ events.filterMap Event.remark? := by
    rw [← h.remarks]
    exact List.mem_filterMap.2 ⟨_, hmem, rfl⟩
  obtain ⟨event, hevent, hremark⟩ := List.mem_filterMap.1 hremark
  unfold Event.remark? at hremark
  split at hremark
  · split at hremark <;> cases hremark
  · next entry =>
    split at hremark
    · exact ⟨entry, hevent, by assumption⟩
    · cases hremark
  · cases hremark

/-- The last question is asked between the notices. -/
theorem lastCall?_framed (notice : Notice) (notices : List Notice) :
    lastCall? (.noted notice :: (events ++ notices.map .noted)) =
      lastCall? events := by
  unfold lastCall?
  rw [← List.filterMap_eq_filter]
  exact congrArg List.getLast?
    (filterMap_framed (fun _ => rfl) notice notices)

/-- What was noted, notices and all. -/
theorem notice?_framed (notice : Notice) (notices : List Notice) :
    (.noted notice :: (events ++ notices.map .noted) :
        List Event).filterMap Event.notice? =
      notice :: (events.filterMap Event.notice? ++ notices) := by
  have hnoted : (notices.map Event.noted).filterMap Event.notice? =
      notices := by
    rw [List.filterMap_map]
    exact List.filterMap_some
  show notice :: List.filterMap Event.notice? (events ++ _) = _
  rw [List.filterMap_append, hnoted]

/-- What is noted is one of the notices or has been noted between them. -/
theorem noted_of_framed {notice first : Notice} {notices : List Notice}
    (h : .noted notice ∈
      (.noted first :: (events ++ notices.map .noted) : List Event)) :
    notice ∈ first :: notices ∨ .noted notice ∈ events := by
  obtain heq | hmem := List.mem_cons.1 h
  · exact .inl (List.mem_cons.2 (.inl (Event.noted.inj heq)))
  obtain hmem | hmem := List.mem_append.1 hmem
  · exact .inr hmem
  · obtain ⟨only, honly, heq⟩ := List.mem_map.1 hmem
    exact .inl (List.mem_cons_of_mem _ (Event.noted.inj heq ▸ honly))

/-- What is noted at the end of a walk is the last that happens. -/
theorem getLast?_of_mem_partings {driver origin : String} {notice : Notice}
    (h : notice ∈ partings scope driver origin ending)
    (front : List Event) :
    (front ++ (partings scope driver origin ending).map Event.noted).getLast? =
      some (.noted notice) := by
  obtain hnone | ⟨only, hone, _⟩ := partings_cases scope driver origin ending
  · rw [hnone] at h
    cases h
  · rw [hone] at h ⊢
    rw [List.mem_singleton.1 h]
    exact List.getLast?_concat

/-- What is noted first and last is no remark. -/
theorem not_remark_of_framed {driver origin path : String} {notice : Notice}
    (h : notice ∈ .started scope driver origin ::
      partings scope driver origin ending) :
    notice ≠ .vanished path ∧ notice ≠ .prunedDirectory path := by
  obtain rfl | h := List.mem_cons.1 h
  · simp
  obtain hnone | ⟨only, hone, hother⟩ :=
    partings_cases scope driver origin ending
  · rw [hnone] at h
    cases h
  · rw [hone] at h
    rw [List.mem_singleton.1 h]
    exact hother path

/-- **The accounts of a walk are in order.** Whatever its driver, its context
and its visitor do, from call to call, a walk that ends notes first that it has
started, then for every stat that finds nothing that the path is gone, and for
every directory the visitor prunes that it was pruned, in the order in which
this happens, and last how it ended, if it did not fail. Every stat has been
followed by a visit or a remark, has found a directory in a walk of the files,
or has ended the walk. -/
theorem accounts_of_run {depth : Nat} {origin : String} {w next : σ}
    {answer : Except Failure Unit}
    (h : run host.traced scope options depth origin (w, []) =
      (some answer, next, log)) :
    Accounts scope host.driver origin answer log := by
  obtain ⟨_, events, ending, last, hlevel, hlog, hrecord, hcloses, hanswer⟩ :=
    level_of_run h
  have hshown := not_hides_of_started hlevel
  have hcalls : lastCall? log = lastCall? events := by
    rw [hlog, lastCall?_framed]
  have hremarks : log.filterMap Event.remark? =
      events.filterMap Event.remark? := by
    rw [hlog, filterMap_framed fun _ => rfl]
  have hpartings : partings scope host.driver origin ending =
      parting scope host.driver origin answer log :=
    hcloses.partings_eq hanswer.symm hcalls
  have hframe : ∀ notice ∈ .started scope host.driver origin ::
      partings scope host.driver origin ending, ∀ path,
      notice ≠ .vanished path ∧ notice ≠ .prunedDirectory path :=
    fun notice hmem path => not_remark_of_framed hmem
  constructor
  case first =>
    rw [hlog]
    rfl
  case notices =>
    rw [hremarks, ← hrecord.remarks, ← hpartings]
    exact (congrArg _ hlog).trans (notice?_framed _ _)
  case last =>
    intro notice hmem
    rw [← hpartings] at hmem
    rw [hlog]
    exact getLast?_of_mem_partings hmem (_ :: events)
  case unbarred =>
    intro hscope path hmem
    rw [hlog] at hmem
    obtain hnotice | hnoted := noted_of_framed hmem
    · exact (hframe _ hnotice path).2 rfl
    · obtain ⟨entry, hvisit, hdir⟩ := hrecord.visited_of_noted hnoted
      have hhides := hshown entry _ hvisit
      simp [Scope.hides, hscope, hdir] at hhides
  case stats =>
    have hvanished : ∀ notice ∈ .started scope host.driver origin ::
        partings scope host.driver origin ending,
        Event.isVanished (.noted notice) = false := by
      intro notice hmem
      cases notice with
      | vanished path => exact absurd rfl (hframe _ hmem path).1
      | _ => rfl
    have hbalanced : Balanced scope events := hrecord.balanced hshown
    unfold Balanced at hbalanced
    rw [hcalls, ← hcloses.countP_isBroken, hlog,
      countP_framed fun _ _ => rfl, countP_framed fun _ _ => rfl,
      countP_framed hvanished, countP_framed fun _ _ => rfl]
    exact hbalanced

/-- A yard with a path in it that is gone before it is asked about, a directory
and two files. Its visitor prunes wherever it comes. -/
def yard : Host Unit where
  driver := "yard"
  check w := (.ok (), w)
  list _ w := (.ok ["/d", "/c", "/b", "/a"], w)
  stat path w :=
    if path = "/a" then (.error (.notFound path "yard"), w)
    else if path = "/b" then (.ok (Entry.dir path), w)
    else (.ok (Entry.file path 1), w)
  visit _ w := (.ok .prune, w)
  note _ w := w

/-- The record of a walk of the yard. -/
def yardRecord : List Event :=
  [.noted (.started .everything "yard" "/"),
    .checked (.ok ()), .listed "/" (.ok ["/d", "/c", "/b", "/a"]),
    .checked (.ok ()), .told "/a" (.error (.notFound "/a" "yard")),
    .noted (.vanished "/a"),
    .checked (.ok ()), .told "/b" (.ok (Entry.dir "/b")),
    .visited (Entry.dir "/b") (.ok .prune), .noted (.prunedDirectory "/b"),
    .checked (.ok ()), .told "/c" (.ok (Entry.file "/c" 1)),
    .visited (Entry.file "/c" 1) (.ok .prune),
    .noted (.stopped "yard" "/" "/c")]

/-- **The walk of the yard is accounted for**: three stats, two visits and a
path that is gone. -/
theorem accounts_of_yard :
    run yard.traced .everything .all 2 "/" ((), []) =
        (some (.ok ()), (), yardRecord) ∧
      Accounts .everything "yard" "/" (.ok ()) yardRecord := by
  have hrun : run yard.traced .everything .all 2 "/" ((), []) =
      (some (.ok ()), (), yardRecord) := by
    have hsorted : sorted ["/d", "/c", "/b", "/a"] =
        ["/a", "/b", "/c", "/d"] := by
      simp [sorted, List.mergeSort]
    simp [run, level, inTurn, child, verdict, Host.traced, yard, yardRecord,
      WalkOptions.skips, WalkOptions.all, Failure.isNotFound, Entry.dir,
      Entry.file, Entry.isDir, hsorted]
  exact ⟨hrun, accounts_of_run hrun⟩

end Walk
end PathStore
