import PathStore.Proofs.Walk.Step
import PathStore.Walk.Trace
import Mathlib.Data.List.Basic

/-!
# The first fatal event ends a walk

Some answers end a walk: any failure of a check or of a listing, a failure
of a stat other than that nothing is there, any failure of the visitor,
and a visitor who prunes at a file. `Event.fatal?` says which, and what
ending they force. A walk goes on past every other event, never past one
of these, and what it answers is decided by the one it met
(`Walk.answer_of_fatal`).

Nothing is asked of the surroundings. Their answers may change from call
to call, so the law cannot be read off one level of the walk: a stop deep
down has to pass every level above it without a further question being
asked. `Closes` is what carries it – a stretch of the record, with the
ending of the part of the walk that left it, is all calm, or calm up to a
last event that forces that ending – and stretches are put together by
`Closes.append`.
-/

namespace PathStore

namespace Event

/-- **The ending an event forces on a walk**, if it is fatal. -/
def fatal? : Event → Option Ending
  | checked (.error cause) => some (.failed cause)
  | listed _ (.error cause) => some (.failed cause)
  | told _ (.error cause) =>
    if cause.isNotFound then none else some (.failed cause)
  | visited _ (.error cause) => some (.failed cause)
  | visited entry (.ok .prune) =>
    if entry.isDir then none else some (.stopped entry.path)
  | _ => none

/-- No event forces a walk to finish. -/
theorem fatal?_ne_finished (event : Event) :
    event.fatal? ≠ some .finished := by
  unfold fatal?
  split
  all_goals try split
  all_goals simp

/-- **Whether an event is a question put to the surroundings.** A notice
is not: nothing is answered to it. -/
def isCall : Event → Bool
  | noted _ => false
  | _ => true

/-- A notice is never fatal. -/
theorem isCall_of_fatal? {event : Event} {ending : Ending}
    (h : event.fatal? = some ending) : event.isCall := by
  cases event with
  | noted notice => cases h
  | _ => rfl

end Event

/-- **What a walk answers at an ending**, and no answer where it did not
end. -/
def Ending.answer? (scope : Scope) : Ending → Option (Except Failure Unit)
  | finished => some (.ok ())
  | stopped place =>
    match scope with
    | .everything => some (.ok ())
    | .filesOnly => some (.error (.pruned place))
  | failed cause => some (.error cause)
  | tooDeep => none

namespace Host

variable {σ : Type u} {host : Host σ} {w next : σ × List Event}

theorem traced_driver : host.traced.driver = host.driver := rfl

theorem traced_check {answer : Except Failure Unit}
    (h : host.traced.check w = (answer, next)) :
    next.2 = w.2 ++ [.checked answer] := by
  obtain ⟨rfl, rfl⟩ := Prod.mk.inj h
  rfl

theorem traced_list {dir : String} {answer : Except Failure (List String)}
    (h : host.traced.list dir w = (answer, next)) :
    next.2 = w.2 ++ [.listed dir answer] := by
  obtain ⟨rfl, rfl⟩ := Prod.mk.inj h
  rfl

theorem traced_stat {path : String} {answer : Except Failure Entry}
    (h : host.traced.stat path w = (answer, next)) :
    next.2 = w.2 ++ [.told path answer] := by
  obtain ⟨rfl, rfl⟩ := Prod.mk.inj h
  rfl

theorem traced_visit {entry : Entry} {answer : Except Failure Verdict}
    (h : host.traced.visit entry w = (answer, next)) :
    next.2 = w.2 ++ [.visited entry answer] := by
  obtain ⟨rfl, rfl⟩ := Prod.mk.inj h
  rfl

theorem traced_note (notice : Notice) (w : σ) (log : List Event) :
    host.traced.note notice (w, log) =
      (host.note notice w, log ++ [.noted notice]) := rfl

end Host

namespace Walk

/-- **No event is fatal.** -/
def Calm (events : List Event) : Prop :=
  ∀ event ∈ events, event.fatal? = none

/-- **How a stretch of the record and the ending of what left it belong
together.** -/
inductive Closes : List Event → Ending → Prop where
  /-- Nothing was fatal, and all was done. -/
  | finished {events : List Event} (calm : Calm events) :
    Closes events .finished
  /-- Nothing was fatal, but levels ran out. -/
  | tooDeep {events : List Event} (calm : Calm events) :
    Closes events .tooDeep
  /-- The last event was fatal, and forced the ending. -/
  | fatal {front : List Event} {last : Event} {ending : Ending}
    (calm : Calm front) (forced : last.fatal? = some ending) :
    Closes (front ++ [last]) ending

theorem Calm.nil : Calm [] := fun _ h => absurd h List.not_mem_nil

theorem Calm.append_iff {events more : List Event} :
    Calm (events ++ more) ↔ Calm events ∧ Calm more :=
  List.forall_mem_append

theorem Calm.cons_iff {event : Event} {events : List Event} :
    Calm (event :: events) ↔ event.fatal? = none ∧ Calm events :=
  List.forall_mem_cons

/-- **Calm before a stretch changes nothing about how it ends.** -/
theorem Closes.append {front events : List Event} {ending : Ending}
    (calm : Calm front) (h : Closes events ending) :
    Closes (front ++ events) ending := by
  cases h with
  | finished more => exact .finished (Calm.append_iff.2 ⟨calm, more⟩)
  | tooDeep more => exact .tooDeep (Calm.append_iff.2 ⟨calm, more⟩)
  | fatal more forced =>
    rw [← List.append_assoc]
    exact .fatal (Calm.append_iff.2 ⟨calm, more⟩) forced

/-- What finished was calm. -/
theorem Closes.calm {events : List Event} (h : Closes events .finished) :
    Calm events := by
  generalize hending : Ending.finished = ending at h
  cases h with
  | finished calm => exact calm
  | tooDeep calm => exact calm
  | @fatal front last _ calm forced =>
    exact absurd (hending ▸ forced) last.fatal?_ne_finished

/-! ## A walk and its record -/

variable {σ : Type u} {host : Host σ} {scope : Scope} {options : WalkOptions}
  {w mid next : σ × List Event} {result : Ending × σ × List Event}
  {log : List Event} {event : Event} {ending : Ending}

/-- **What a part of a walk leaves behind a record `log`**: the record
goes on with a stretch that goes with the ending. -/
def Leaves (log : List Event) (result : Ending × σ × List Event) : Prop :=
  ∃ added, result.2.2 = log ++ added ∧ Closes added result.1

theorem Leaves.finished (w : σ × List Event) : Leaves w.2 (.finished, w) :=
  ⟨[], (List.append_nil w.2).symm, .finished .nil⟩

theorem Leaves.tooDeep (w : σ × List Event) : Leaves w.2 (.tooDeep, w) :=
  ⟨[], (List.append_nil w.2).symm, .tooDeep .nil⟩

/-- A fatal event ends a part. -/
theorem Leaves.fatal (hlog : next.2 = log ++ [event])
    (forced : event.fatal? = some ending) : Leaves log (ending, next) :=
  ⟨[event], hlog, .fatal .nil forced⟩

/-- **Behind a part that finished, the next goes on.** -/
theorem Leaves.andThen (h : Leaves log (.finished, mid))
    (hrest : Leaves mid.2 result) : Leaves log result := by
  obtain ⟨added, hadded, hcloses⟩ := h
  obtain ⟨more, hmore, hrest⟩ := hrest
  refine ⟨added ++ more, ?_, hrest.append hcloses.calm⟩
  rw [hmore, ← List.append_assoc]
  exact congrArg (· ++ more) hadded

/-- An event that is not fatal lets a part go on. -/
theorem Leaves.after (hlog : mid.2 = log ++ [event])
    (calm : event.fatal? = none) (h : Leaves mid.2 result) :
    Leaves log result :=
  andThen ⟨[event], hlog, .finished (Calm.cons_iff.2 ⟨calm, .nil⟩)⟩ h

/-- A notice is never fatal. -/
theorem Leaves.noted (host : Host σ) (notice : Notice)
    (w : σ × List Event) :
    Leaves w.2 (.finished, host.traced.note notice w) :=
  ⟨[.noted notice], rfl, .finished (Calm.cons_iff.2 ⟨rfl, .nil⟩)⟩

/-- What is told about a child, if it is not fatal, lets a part go on. -/
theorem Leaves.told {path : String} {answer : Except Failure Entry}
    (told : Told host.traced options path w mid next answer)
    (calm : (Event.told path answer).fatal? = none)
    (h : Leaves next.2 result) : Leaves w.2 result :=
  .after (Host.traced_check told.check) rfl
    (.after (Host.traced_stat told.stat) calm h)

/-- A verdict that is not fatal lets a part go on, whether or not the
visitor was asked for it. -/
theorem Leaves.judged {entry : Entry} {answer : Except Failure Verdict}
    (h : verdict host.traced scope entry w = (answer, next))
    (calm : (Event.visited entry answer).fatal? = none)
    (hrest : Leaves next.2 result) : Leaves w.2 result := by
  obtain ⟨_, _, hunseen⟩ | hvisit := verdict_cases host.traced scope entry w
  · rw [hunseen] at h
    obtain ⟨_, rfl⟩ := Prod.mk.inj h
    exact hrest
  · rw [hvisit] at h
    exact .after (Host.traced_visit h) calm hrest

/-- A fatal verdict is the visitor's, and ends a part. -/
theorem Leaves.condemned {entry : Entry} {answer : Except Failure Verdict}
    (h : verdict host.traced scope entry w = (answer, next))
    (forced : (Event.visited entry answer).fatal? = some ending) :
    Leaves w.2 (ending, next) := by
  obtain ⟨_, _, hunseen⟩ | hvisit := verdict_cases host.traced scope entry w
  · rw [hunseen] at h
    obtain ⟨rfl, _⟩ := Prod.mk.inj h
    cases forced
  · rw [hvisit] at h
    exact .fatal (Host.traced_visit h) forced

/-- **One child**, where walks of what is beneath it leave a record. -/
theorem leaves_child
    {enter : String → σ × List Event → Ending × σ × List Event}
    (henter : ∀ path w, Leaves w.2 (enter path w)) (path : String)
    (w : σ × List Event) :
    Leaves w.2 (child host.traced scope options enter path w) := by
  have hstep := childStep host.traced scope options enter path w
  generalize child host.traced scope options enter path w = result at hstep ⊢
  cases hstep with
  | skipped _ => exact .finished w
  | cancelled _ check => exact .fatal (Host.traced_check check) rfl
  | vanished told gone =>
    -- a listing may be out of date, so this is not fatal
    exact .told told (if_pos gone) (.noted host _ _)
  | unknown told here =>
    refine .after (Host.traced_check told.check) rfl ?_
    exact .fatal (Host.traced_stat told.stat) (if_neg here)
  | refused told answer => exact .told told rfl (.condemned answer rfl)
  | entered told answer _ =>
    exact .told told rfl (.judged answer rfl (henter _ _))
  | passed told answer _ =>
    exact .told told rfl (.judged answer rfl (.finished _))
  | pruned told answer dir =>
    exact .told told rfl (.judged answer (if_pos dir) (.noted host _ _))
  | stopped told answer file =>
    exact .told told rfl (.condemned answer (if_neg file))

/-- **One child after another**, if each leaves a record. -/
theorem leaves_inTurn
    {step : String → σ × List Event → Ending × σ × List Event}
    (hstep : ∀ path w, Leaves w.2 (step path w)) (paths : List String)
    (w : σ × List Event) : Leaves w.2 (inTurn step paths w) := by
  induction paths generalizing w with
  | nil => exact .finished w
  | cons path rest ih =>
    have hpath := hstep path w
    unfold inTurn
    generalize step path w = result at hpath ⊢
    obtain ⟨ending, next⟩ := result
    cases ending with
    | finished => exact hpath.andThen (ih next)
    | stopped place => exact hpath
    | failed cause => exact hpath
    | tooDeep => exact hpath

/-- **One directory**: by induction on the levels that may be opened. -/
theorem leaves_level (host : Host σ) (scope : Scope) (options : WalkOptions)
    (depth : Nat) (dir : String) (w : σ × List Event) :
    Leaves w.2 (level host.traced scope options depth dir w) := by
  induction depth generalizing dir w with
  | zero => exact .tooDeep w
  | succ depth ih =>
    have hstep := levelStep host.traced scope options depth dir w
    generalize level host.traced scope options (depth + 1) dir w = result
      at hstep ⊢
    cases hstep with
    | cancelled check => exact .fatal (Host.traced_check check) rfl
    | unlisted check list =>
      refine .after (Host.traced_check check) rfl ?_
      exact .fatal (Host.traced_list list) rfl
    | listed check list =>
      refine .after (Host.traced_check check) rfl ?_
      refine .after (Host.traced_list list) rfl ?_
      exact leaves_inTurn (leaves_child ih) _ _

/-! ## The whole walk -/

/-- What is noted when a walk has come to an ending. -/
def closing (host : Host σ) (scope : Scope) (origin : String) :
    Ending → σ → σ
  | .finished, w => host.note (.finished scope host.driver origin) w
  | .stopped place, w =>
    match scope with
    | .everything => host.note (.stopped host.driver origin place) w
    | .filesOnly => w
  | .failed _, w => w
  | .tooDeep, w => w

/-- **A walk is a walk of its first directory between two notices**, and
answers by how that ends. -/
theorem run_eq (host : Host σ) (scope : Scope) (options : WalkOptions)
    (depth : Nat) (origin : String) (w : σ) :
    run host scope options depth origin w =
      let result := level host scope options depth origin
        (host.note (.started scope host.driver origin) w)
      (result.1.answer? scope, closing host scope origin result.1 result.2) := by
  unfold run
  generalize level host scope options depth origin
    (host.note (.started scope host.driver origin) w) = result
  obtain ⟨ending, w⟩ := result
  cases ending <;> cases scope <;> rfl

/-- Where notices change nothing, a walk is the walk of its first
directory. -/
theorem run_of_unheard {host : Host σ}
    (hunheard : ∀ notice w, host.note notice w = w) (scope : Scope)
    (options : WalkOptions) (depth : Nat) (origin : String) (w : σ) :
    run host scope options depth origin w =
      let result := level host scope options depth origin w
      (result.1.answer? scope, result.2) := by
  rw [run_eq, hunheard]
  generalize level host scope options depth origin w = result
  obtain ⟨ending, next⟩ := result
  cases ending <;> cases scope <;> simp [closing, hunheard]

/-- A walk of which all was done succeeds. -/
theorem run_of_finished (host : Host σ) {depth : Nat} {origin : String}
    {w next : σ}
    (h : level host scope options depth origin
      (host.note (.started scope host.driver origin) w) = (.finished, next)) :
    run host scope options depth origin w =
      (some (.ok ()), host.note (.finished scope host.driver origin) next) := by
  rw [run_eq, h]
  rfl

/-- What is noted at the end is no question. -/
theorem closing_traced (host : Host σ) (scope : Scope) (origin : String)
    (ending : Ending) (w : σ) (log : List Event) : ∃ notices,
      (closing host.traced scope origin ending (w, log)).2 = log ++ notices ∧
        ∀ event ∈ notices, event.isCall = false := by
  have hone : ∀ notice : Notice, ∀ event ∈ [Event.noted notice],
      event.isCall = false := by
    intro notice event hevent
    rw [List.mem_singleton.1 hevent]
    rfl
  have hnone : ∀ event ∈ ([] : List Event), event.isCall = false :=
    fun _ h => absurd h List.not_mem_nil
  cases ending with
  | finished => exact ⟨_, rfl, hone _⟩
  | stopped place =>
    cases scope with
    | everything => exact ⟨_, rfl, hone _⟩
    | filesOnly => exact ⟨[], (List.append_nil log).symm, hnone⟩
  | failed cause => exact ⟨[], (List.append_nil log).symm, hnone⟩
  | tooDeep => exact ⟨[], (List.append_nil log).symm, hnone⟩

/-- **The record of a walk**: its questions and answers, between notices,
go with an ending, and the walk answers by that ending. -/
theorem closes_of_run {depth : Nat} {origin : String} {w next : σ}
    {answer : Option (Except Failure Unit)} {log : List Event}
    (h : run host.traced scope options depth origin (w, []) =
      (answer, next, log)) :
    ∃ added notices ending, log =
        .noted (.started scope host.driver origin) :: (added ++ notices) ∧
      Closes added ending ∧ answer = ending.answer? scope ∧
      ∀ event ∈ notices, event.isCall = false := by
  rw [run_eq, Host.traced_note, Host.traced_driver, List.nil_append] at h
  have hlevel := leaves_level host scope options depth origin
    (host.note (.started scope host.driver origin) w,
      [.noted (.started scope host.driver origin)])
  generalize level host.traced scope options depth origin
    (host.note (.started scope host.driver origin) w,
      [.noted (.started scope host.driver origin)]) = result at h hlevel
  obtain ⟨ending, after, record⟩ := result
  obtain ⟨added, hadded, hcloses⟩ := hlevel
  obtain ⟨notices, hnotices, hquiet⟩ := closing_traced host scope
    origin ending after record
  obtain ⟨hanswer, hlog⟩ := Prod.mk.inj h
  refine ⟨added, notices, ending, ?_, hcloses, hanswer.symm, hquiet⟩
  rw [hlog] at hnotices
  exact hnotices.trans (congrArg (· ++ notices) hadded)

/-- Behind a fatal event nothing more is asked. -/
theorem Closes.eq_nil_of_fatal {added : List Event} {ending : Ending}
    (h : Closes added ending) {front rest : List Event} {event : Event}
    (heq : added.filter Event.isCall = front ++ event :: rest)
    (hfatal : event.fatal?.isSome) : rest = [] := by
  have hmem : event ∈ added.filter Event.isCall := by
    rw [heq]
    exact List.mem_append_right _ List.mem_cons_self
  have hnone : event.fatal? ≠ none := Option.isSome_iff_ne_none.1 hfatal
  cases h with
  | finished calm => exact absurd (calm event (List.mem_filter.1 hmem).1) hnone
  | tooDeep calm => exact absurd (calm event (List.mem_filter.1 hmem).1) hnone
  | @fatal first last _ calm forced =>
    rw [List.filter_append,
      List.filter_cons_of_pos (Event.isCall_of_fatal? forced)] at heq
    obtain rfl | ⟨init, final, rfl⟩ := List.eq_nil_or_concat' rest
    · rfl
    · -- an event before the last is calm
      rw [← List.cons_append, ← List.append_assoc] at heq
      have hinit : event ∈ first.filter Event.isCall := by
        rw [List.append_inj_left' heq rfl]
        exact List.mem_append_right _ List.mem_cons_self
      exact absurd (calm event (List.mem_filter.1 hinit).1) hnone

/-- A fatal event forces the ending there is. -/
theorem Closes.eq_of_fatal {added : List Event} {ending forced : Ending}
    (h : Closes added ending) {event : Event} (hmem : event ∈ added)
    (hfatal : event.fatal? = some forced) : forced = ending := by
  have hnone : event.fatal? ≠ none := by
    rw [hfatal]
    exact Option.some_ne_none forced
  cases h with
  | finished calm => exact absurd (calm event hmem) hnone
  | tooDeep calm => exact absurd (calm event hmem) hnone
  | fatal calm hlast =>
    obtain hfront | hevent := List.mem_append.1 hmem
    · exact absurd (calm event hfront) hnone
    · rw [List.mem_singleton.1 hevent, hlast] at hfatal
      exact (Option.some.inj hfatal).symm

/-- Without a fatal event all was done, unless levels ran out. -/
theorem Closes.of_calm {added : List Event} {ending : Ending}
    (h : Closes added ending) (calm : Calm added) :
    ending = .finished ∨ ending = .tooDeep := by
  cases h with
  | finished _ => exact .inl rfl
  | tooDeep _ => exact .inr rfl
  | @fatal front last _ _ forced =>
    have hlast := (Calm.append_iff.1 calm).2 last (List.mem_singleton.2 rfl)
    rw [forced] at hlast
    exact absurd hlast (Option.some_ne_none ending)

/-- **The first fatal event ends a walk and decides its answer.** Among
the questions a walk has put, a fatal answer can only be the last; the
walk answers what that event forces, and succeeds if there was none. -/
theorem answer_of_fatal {depth : Nat} {origin : String} {w next : σ}
    {answer : Except Failure Unit} {log : List Event}
    (h : run host.traced scope options depth origin (w, []) =
      (some answer, next, log)) :
    (∀ front event rest, log.filter Event.isCall = front ++ event :: rest →
        event.fatal?.isSome → rest = []) ∧
      (∀ event ∈ log, ∀ ending, event.fatal? = some ending →
        ending.answer? scope = some answer) ∧
      ((∀ event ∈ log, event.fatal? = none) → answer = .ok ()) := by
  obtain ⟨added, notices, ending, rfl, hcloses, hanswer, hquiet⟩ :=
    closes_of_run h
  have hnotices : notices.filter Event.isCall = [] := by
    refine List.filter_eq_nil_iff.2 fun event hevent => ?_
    rw [hquiet event hevent]
    exact Bool.false_ne_true
  have hcalls : (Event.noted (.started scope host.driver origin) ::
      (added ++ notices)).filter Event.isCall = added.filter Event.isCall := by
    rw [List.filter_cons_of_neg Bool.false_ne_true, List.filter_append,
      hnotices, List.append_nil]
  refine ⟨fun front event rest heq hfatal => ?_,
    fun event hevent forced hfatal => ?_, fun hnone => ?_⟩
  · rw [hcalls] at heq
    exact hcloses.eq_nil_of_fatal heq hfatal
  · -- what is fatal is among the questions
    have hcall := List.mem_filter.2 ⟨hevent, Event.isCall_of_fatal? hfatal⟩
    rw [hcalls] at hcall
    rw [hcloses.eq_of_fatal (List.mem_filter.1 hcall).1 hfatal, hanswer]
  · have calm : Calm added := fun event hevent =>
      hnone event (List.mem_cons_of_mem _ (List.mem_append_left _ hevent))
    obtain rfl | rfl := hcloses.of_calm calm
    · exact Option.some.inj hanswer
    · cases hanswer

/-- **A walk that meets what is passed over and what is not**: of the two
directories at the top one has lost a file since it was listed, and the
visitor prunes at the other file in it. -/
def fork : Host Unit where
  driver := "fork"
  check w := (.ok (), w)
  list dir w := (.ok (if dir = "/" then ["/b", "/a"] else ["/a/y", "/a/x"]), w)
  stat path w :=
    if path = "/a/x" then (.error (.notFound path "fork"), w)
    else if path = "/a/y" then (.ok (Entry.file path 1), w)
    else (.ok (Entry.dir path), w)
  visit _ w := (.ok .prune, w)
  note _ w := w

/-- The record of a walk of the files of the fork. It never comes to
`/b`. -/
def forkRecord : List Event :=
  [.noted (.started .filesOnly "fork" "/"),
    .checked (.ok ()), .listed "/" (.ok ["/b", "/a"]),
    .checked (.ok ()), .told "/a" (.ok (Entry.dir "/a")),
    .checked (.ok ()), .listed "/a" (.ok ["/a/y", "/a/x"]),
    .checked (.ok ()), .told "/a/x" (.error (.notFound "/a/x" "fork")),
    .noted (.vanished "/a/x"),
    .checked (.ok ()), .told "/a/y" (.ok (Entry.file "/a/y" 1)),
    .visited (Entry.file "/a/y" 1) (.ok .prune)]

theorem run_fork : run fork.traced .filesOnly .all 2 "/" ((), []) =
    (some (.error (.pruned "/a/y")), (), forkRecord) := by
  have htop : sorted ["/b", "/a"] = ["/a", "/b"] := by
    simp [sorted, List.mergeSort]
  have hsub : sorted ["/a/y", "/a/x"] = ["/a/x", "/a/y"] := by
    simp [sorted, List.mergeSort]
  simp [run, level, inTurn, child, verdict, Host.traced, fork, forkRecord,
    WalkOptions.skips, WalkOptions.all, Failure.isNotFound, Entry.dir,
    Entry.file, Entry.isDir, htop, hsub]

/-- **The fork is left at the file at which the visitor prunes**, which
is named, and not at the one that was not found. -/
theorem fork_answer_of_fatal :
    (∀ front event rest,
        forkRecord.filter Event.isCall = front ++ event :: rest →
          event.fatal?.isSome → rest = []) ∧
      (∀ event ∈ forkRecord, ∀ ending, event.fatal? = some ending →
        ending.answer? .filesOnly = some (.error (.pruned "/a/y"))) ∧
      ((∀ event ∈ forkRecord, event.fatal? = none) →
        Except.error (Failure.pruned "/a/y") = .ok ()) :=
  answer_of_fatal run_fork

end Walk
end PathStore
