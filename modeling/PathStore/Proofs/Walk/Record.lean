import PathStore.Proofs.Walk.Fatal

/-!
# The record of a walk

The record of a walk is known from two sides. It is a **run of its
surroundings**: what was asked was asked in one world after another, each
answered by the world it was asked in (`Host.Asks`). And it is a **sentence
of a grammar** which speaks of no surroundings at all: a record of a
directory is its listing with the records of what was listed behind it, in
order, and so on down (`Walk.Record`).

`Walk.record_of_run` says both of every walk. A law about walks is then a law
about the sentences, by induction on how they are put together, and where it
needs to know what was true when something was asked, the run says so
(`Host.Asks.split`).
-/

namespace PathStore

variable {σ : Type u}

/-! ## Runs of the surroundings -/

namespace Host

/-- **A question, its answer and the world it leaves**, asked in a world. -/
def Answers (host : Host σ) (w : σ) : Event → σ → Prop
  | .checked answer, next => host.check w = (answer, next)
  | .listed dir answer, next => host.list dir w = (answer, next)
  | .told path answer, next => host.stat path w = (answer, next)
  | .visited entry answer, next => host.visit entry w = (answer, next)
  | .noted notice, next => host.note notice w = next

/-- **One question after another**, from a world to another. -/
inductive Asks (host : Host σ) : σ → List Event → σ → Prop where
  | nil (w : σ) : Asks host w [] w
  | cons {w mid next : σ} {event : Event} {events : List Event}
    (first : host.Answers w event mid) (rest : Asks host mid events next) :
    Asks host w (event :: events) next

variable {host : Host σ} {w mid next last : σ} {event : Event}
  {events more : List Event}

theorem Asks.single (h : host.Answers w event next) :
    host.Asks w [event] next :=
  .cons h (.nil next)

theorem Asks.append (h : host.Asks w events mid)
    (hmore : host.Asks mid more next) : host.Asks w (events ++ more) next := by
  induction h with
  | nil w => exact hmore
  | cons first _ ih => exact .cons first (ih hmore)

/-- **Every event of a run was asked in a world on the way.** -/
theorem Asks.split (h : host.Asks w events next) (hmem : event ∈ events) :
    ∃ front mid last rest, host.Asks w front mid ∧
      host.Answers mid event last ∧ host.Asks last rest next := by
  induction h with
  | nil w => cases hmem
  | @cons w mid next first events hfirst hrest ih =>
    obtain rfl | hmem := List.mem_cons.1 hmem
    · exact ⟨[], w, mid, events, .nil w, hfirst, hrest⟩
    · obtain ⟨front, at', after, rest, hfront, hevent, hback⟩ := ih hmem
      exact ⟨first :: front, at', after, rest, .cons hfirst hfront, hevent,
        hback⟩

end Host

namespace Walk

/-! ## The grammar -/

/-- **What a part of a walk is about.** -/
inductive Part where
  /-- All that is beneath a directory. -/
  | dir (path : String)
  /-- One child of a directory, with all that is beneath it. -/
  | child (path : String)
  /-- Some children, one after another. -/
  | children (paths : List String)

/-- **The records of the parts of a walk**, each with the ending it goes
with. -/
inductive Record (scope : Scope) (options : WalkOptions) :
    Part → List Event → Ending → Prop where
  | tooDeep (dir : String) : Record scope options (.dir dir) [] .tooDeep
  | cancelledDir (dir : String) (cause : Failure) :
    Record scope options (.dir dir) [.checked (.error cause)] (.failed cause)
  | unlisted (dir : String) (cause : Failure) :
    Record scope options (.dir dir)
      [.checked (.ok ()), .listed dir (.error cause)] (.failed cause)
  | listed {dir : String} {paths : List String} {events : List Event}
    {ending : Ending}
    (rest : Record scope options (.children (sorted paths)) events ending) :
    Record scope options (.dir dir)
      (.checked (.ok ()) :: .listed dir (.ok paths) :: events) ending
  | nil : Record scope options (.children []) [] .finished
  | next {path : String} {paths : List String} {events more : List Event}
    {ending : Ending}
    (first : Record scope options (.child path) events .finished)
    (rest : Record scope options (.children paths) more ending) :
    Record scope options (.children (path :: paths)) (events ++ more) ending
  | last {path : String} {events : List Event} {ending : Ending}
    (paths : List String) (ne : ending ≠ .finished)
    (first : Record scope options (.child path) events ending) :
    Record scope options (.children (path :: paths)) events ending
  | skipped {path : String} (skips : options.skips path) :
    Record scope options (.child path) [] .finished
  | cancelled {path : String} (cause : Failure)
    (kept : ¬ options.skips path) :
    Record scope options (.child path) [.checked (.error cause)]
      (.failed cause)
  | vanished {path : String} {cause : Failure} (kept : ¬ options.skips path)
    (gone : cause.isNotFound) :
    Record scope options (.child path)
      [.checked (.ok ()), .told path (.error cause), .noted (.vanished path)]
      .finished
  | unknown {path : String} {cause : Failure} (kept : ¬ options.skips path)
    (here : ¬ cause.isNotFound) :
    Record scope options (.child path)
      [.checked (.ok ()), .told path (.error cause)] (.failed cause)
  | refused {path : String} (entry : Entry) (cause : Failure)
    (kept : ¬ options.skips path) :
    Record scope options (.child path)
      [.checked (.ok ()), .told path (.ok entry),
        .visited entry (.error cause)] (.failed cause)
  /-- A directory that is shown and entered. -/
  | entered {path : String} {entry : Entry} {events : List Event}
    {ending : Ending} (kept : ¬ options.skips path) (isDir : entry.isDir)
    (rest : Record scope options (.dir entry.path) events ending) :
    Record scope options (.child path)
      (.checked (.ok ()) :: .told path (.ok entry) ::
        .visited entry (.ok .proceed) :: events) ending
  /-- A directory that a walk of the files enters without showing it. -/
  | unseen {path : String} {entry : Entry} {events : List Event}
    {ending : Ending} (kept : ¬ options.skips path) (isDir : entry.isDir)
    (files : scope = .filesOnly)
    (rest : Record scope options (.dir entry.path) events ending) :
    Record scope options (.child path)
      (.checked (.ok ()) :: .told path (.ok entry) :: events) ending
  | passed {path : String} {entry : Entry} (kept : ¬ options.skips path)
    (file : ¬ entry.isDir) :
    Record scope options (.child path)
      [.checked (.ok ()), .told path (.ok entry),
        .visited entry (.ok .proceed)] .finished
  | pruned {path : String} {entry : Entry} (kept : ¬ options.skips path)
    (isDir : entry.isDir) :
    Record scope options (.child path)
      [.checked (.ok ()), .told path (.ok entry),
        .visited entry (.ok .prune), .noted (.prunedDirectory entry.path)]
      .finished
  | stopped {path : String} {entry : Entry} (kept : ¬ options.skips path)
    (file : ¬ entry.isDir) :
    Record scope options (.child path)
      [.checked (.ok ()), .told path (.ok entry),
        .visited entry (.ok .prune)] (.stopped entry.path)

/-! ## Every walk leaves one -/

variable {host : Host σ} {scope : Scope} {options : WalkOptions}
  {w mid next : σ × List Event} {events more : List Event}

/-- **The record goes on with a run**: from one world to the next, by these
events. -/
structure Adds (host : Host σ) (w : σ × List Event) (events : List Event)
    (next : σ × List Event) : Prop where
  log : next.2 = w.2 ++ events
  asks : host.Asks w.1 events next.1

theorem Adds.nil (w : σ × List Event) : Adds host w [] w :=
  ⟨(List.append_nil w.2).symm, .nil w.1⟩

theorem Adds.append (h : Adds host w events mid)
    (hmore : Adds host mid more next) : Adds host w (events ++ more) next :=
  ⟨by rw [hmore.log, h.log, List.append_assoc], h.asks.append hmore.asks⟩

theorem Adds.single {event : Event} (h : host.Answers w.1 event next.1)
    (hlog : next.2 = w.2 ++ [event]) : Adds host w [event] next :=
  ⟨hlog, .single h⟩

theorem adds_check {answer : Except Failure Unit}
    (h : host.traced.check w = (answer, next)) :
    Adds host w [.checked answer] next := by
  cases h
  exact .single rfl rfl

theorem adds_list {dir : String} {answer : Except Failure (List String)}
    (h : host.traced.list dir w = (answer, next)) :
    Adds host w [.listed dir answer] next := by
  cases h
  exact .single rfl rfl

theorem adds_visit {entry : Entry} {answer : Except Failure Verdict}
    (h : host.traced.visit entry w = (answer, next)) :
    Adds host w [.visited entry answer] next := by
  cases h
  exact .single rfl rfl

theorem adds_note (notice : Notice) (w : σ × List Event) :
    Adds host w [.noted notice] (host.traced.note notice w) :=
  .single rfl rfl

theorem adds_told {path : String} {answer : Except Failure Entry}
    (told : Told host.traced options path w mid next answer) :
    Adds host w [.checked (.ok ()), .told path answer] next := by
  have hstat := told.stat
  cases hstat
  exact (adds_check told.check).append (.single rfl rfl)

/-- **A part of a walk leaves its record.** -/
def Recorded (host : Host σ) (scope : Scope) (options : WalkOptions)
    (part : Part) (w : σ × List Event) (result : Ending × σ × List Event) :
    Prop :=
  ∃ events, Adds host w events result.2 ∧
    Record scope options part events result.1

/-- **One child**, where walks of what is beneath it leave their records. -/
theorem recorded_child
    {enter : String → σ × List Event → Ending × σ × List Event}
    (henter : ∀ dir w, Recorded host scope options (.dir dir) w (enter dir w))
    (path : String) (w : σ × List Event) :
    Recorded host scope options (.child path) w
      (child host.traced scope options enter path w) := by
  have hstep := childStep host.traced scope options enter path w
  generalize child host.traced scope options enter path w = result at hstep ⊢
  cases hstep with
  | skipped skips => exact ⟨_, .nil w, .skipped skips⟩
  | cancelled kept check => exact ⟨_, adds_check check, .cancelled _ kept⟩
  | vanished told gone =>
    exact ⟨_, (adds_told told).append (adds_note _ _),
      .vanished told.kept gone⟩
  | unknown told here => exact ⟨_, adds_told told, .unknown told.kept here⟩
  | @refused entry cause mid last next told answer =>
    obtain ⟨_, _, hunseen⟩ | hvisit :=
      verdict_cases host.traced scope entry last
    · rw [hunseen] at answer
      cases answer
    · rw [hvisit] at answer
      exact ⟨_, (adds_told told).append (adds_visit answer),
        .refused entry cause told.kept⟩
  | @entered entry mid last next told answer dir =>
    obtain ⟨events, hadds, hrecord⟩ := henter entry.path next
    obtain ⟨files, _, hunseen⟩ | hvisit :=
      verdict_cases host.traced scope entry last
    · rw [hunseen] at answer
      cases answer
      exact ⟨_, (adds_told told).append hadds,
        .unseen told.kept dir files hrecord⟩
    · rw [hvisit] at answer
      exact ⟨_, ((adds_told told).append (adds_visit answer)).append hadds,
        .entered told.kept dir hrecord⟩
  | @passed entry mid last next told answer file =>
    obtain ⟨_, dir, _⟩ | hvisit := verdict_cases host.traced scope entry last
    · exact absurd dir file
    · rw [hvisit] at answer
      exact ⟨_, (adds_told told).append (adds_visit answer),
        .passed told.kept file⟩
  | @pruned entry mid last next told answer dir =>
    obtain ⟨_, _, hunseen⟩ | hvisit :=
      verdict_cases host.traced scope entry last
    · rw [hunseen] at answer
      cases answer
    · rw [hvisit] at answer
      exact ⟨_, ((adds_told told).append (adds_visit answer)).append
        (adds_note _ _), .pruned told.kept dir⟩
  | @stopped entry mid last next told answer file =>
    obtain ⟨_, dir, _⟩ | hvisit := verdict_cases host.traced scope entry last
    · exact absurd dir file
    · rw [hvisit] at answer
      exact ⟨_, (adds_told told).append (adds_visit answer),
        .stopped told.kept file⟩

/-- **One child after another**, if each leaves its record. -/
theorem recorded_inTurn
    {step : String → σ × List Event → Ending × σ × List Event}
    (hstep : ∀ path w,
      Recorded host scope options (.child path) w (step path w))
    (paths : List String) (w : σ × List Event) :
    Recorded host scope options (.children paths) w (inTurn step paths w) := by
  induction paths generalizing w with
  | nil => exact ⟨_, .nil w, .nil⟩
  | cons path rest ih =>
    obtain ⟨events, hadds, hrecord⟩ := hstep path w
    unfold inTurn
    generalize step path w = result at hadds hrecord ⊢
    obtain ⟨ending, next⟩ := result
    cases ending with
    | finished =>
      obtain ⟨more, hmore, hrest⟩ := ih next
      exact ⟨_, hadds.append hmore, .next hrecord hrest⟩
    | stopped place => exact ⟨_, hadds, .last rest Ending.noConfusion hrecord⟩
    | failed cause => exact ⟨_, hadds, .last rest Ending.noConfusion hrecord⟩
    | tooDeep => exact ⟨_, hadds, .last rest Ending.noConfusion hrecord⟩

/-- **One directory**: by induction on the levels that may be opened. -/
theorem recorded_level (host : Host σ) (scope : Scope) (options : WalkOptions)
    (depth : Nat) (dir : String) (w : σ × List Event) :
    Recorded host scope options (.dir dir) w
      (level host.traced scope options depth dir w) := by
  induction depth generalizing dir w with
  | zero => exact ⟨_, .nil w, .tooDeep dir⟩
  | succ depth ih =>
    have hstep := levelStep host.traced scope options depth dir w
    generalize level host.traced scope options (depth + 1) dir w = result
      at hstep ⊢
    cases hstep with
    | cancelled check => exact ⟨_, adds_check check, .cancelledDir dir _⟩
    | unlisted check list =>
      exact ⟨_, (adds_check check).append (adds_list list), .unlisted dir _⟩
    | @listed paths mid next check list =>
      obtain ⟨events, hadds, hrecord⟩ :=
        recorded_inTurn (recorded_child ih) (sorted paths) next
      exact ⟨_, ((adds_check check).append (adds_list list)).append hadds,
        .listed hrecord⟩

/-- **What is noted at the end of a walk**, by how it ends. -/
def partings (scope : Scope) (driver origin : String) :
    Ending → List Notice
  | .finished => [.finished scope driver origin]
  | .stopped place =>
    match scope with
    | .everything => [.stopped driver origin place]
    | .filesOnly => []
  | .failed _ | .tooDeep => []

/-- What is noted at the end of a walk is noted. -/
theorem adds_closing (host : Host σ) (scope : Scope) (origin : String)
    (ending : Ending) (w : σ × List Event) :
    Adds host w ((partings scope host.driver origin ending).map .noted)
      (closing host.traced scope origin ending w) := by
  cases ending with
  | finished => exact adds_note _ w
  | stopped place =>
    cases scope with
    | everything => exact adds_note _ w
    | filesOnly => exact .nil w
  | failed cause => exact .nil w
  | tooDeep => exact .nil w

/-- What no notice adds to is found between the notices. -/
theorem filterMap_framed {α : Type} {f : Event → Option α}
    (h : ∀ notice, f (.noted notice) = none) (notice : Notice)
    (notices : List Notice) :
    (.noted notice :: (events ++ notices.map .noted) :
      List Event).filterMap f = events.filterMap f := by
  have hnone : (notices.map Event.noted).filterMap f = [] := by
    rw [List.filterMap_map]
    exact List.filterMap_eq_nil_iff.2 fun notice _ => h notice
  rw [List.filterMap_cons_none (h notice), List.filterMap_append, hnone,
    List.append_nil]

/-- What is not one of the notices is counted between them. -/
theorem countP_framed {counts : Event → Bool} {notice : Notice}
    {notices : List Notice}
    (h : ∀ only ∈ notice :: notices, counts (.noted only) = false) :
    (.noted notice :: (events ++ notices.map .noted) :
      List Event).countP counts = events.countP counts := by
  have hnone : (notices.map Event.noted).countP counts = 0 := by
    rw [List.countP_map, List.countP_eq_zero]
    intro only hmem hcounts
    exact Bool.false_ne_true
      ((h only (List.mem_cons_of_mem _ hmem)).symm.trans hcounts)
  have hfirst : ¬ counts (.noted notice) := by
    rw [h notice List.mem_cons_self]
    exact Bool.false_ne_true
  rw [List.countP_cons_of_neg hfirst, List.countP_append, hnone, Nat.add_zero]

/-- **The record of a walk to its last notice**: between the notice that it
has started and what is noted at the end it is the record of the directory it
starts from. -/
theorem level_of_run {depth : Nat} {origin : String} {w next : σ}
    {answer : Option (Except Failure Unit)} {log : List Event}
    (h : run host.traced scope options depth origin (w, []) =
      (answer, next, log)) :
    host.Asks w log next ∧ ∃ events ending last,
      level host.traced scope options depth origin
          (host.traced.note (.started scope host.driver origin) (w, [])) =
        (ending, last, .noted (.started scope host.driver origin) :: events) ∧
      log = .noted (.started scope host.driver origin) ::
        (events ++ (partings scope host.driver origin ending).map .noted) ∧
      Record scope options (.dir origin) events ending ∧
      Closes events ending ∧ answer = ending.answer? scope := by
  rw [run_eq, Host.traced_driver] at h
  have hstart : Adds host (w, []) [.noted (.started scope host.driver origin)]
      (host.traced.note (.started scope host.driver origin) (w, [])) :=
    adds_note _ _
  have hleaves := leaves_level host scope options depth origin
    (host.traced.note (.started scope host.driver origin) (w, []))
  obtain ⟨events, hadds, hrecord⟩ := recorded_level host scope options depth
    origin (host.traced.note (.started scope host.driver origin) (w, []))
  generalize level host.traced scope options depth origin
    (host.traced.note (.started scope host.driver origin) (w, [])) = result
    at h hleaves hadds hrecord ⊢
  obtain ⟨ending, last, record⟩ := result
  obtain ⟨added, hadded, hcloses⟩ := hleaves
  -- both accounts are of one stretch of the record
  obtain rfl : added = events :=
    List.append_cancel_left (hadded.symm.trans hadds.log)
  obtain ⟨rfl, hnext⟩ := Prod.mk.inj h
  have hall := (hstart.append hadds).append
    (adds_closing host scope origin ending (last, record))
  rw [hnext] at hall
  obtain ⟨hlog, hasks⟩ := hall
  have hlog : log = .noted (.started scope host.driver origin) ::
      (added ++ (partings scope host.driver origin ending).map .noted) := hlog
  have hrecorded : record =
      .noted (.started scope host.driver origin) :: added := hadded
  exact ⟨hlog ▸ hasks, added, ending, last, by rw [hrecorded], hlog, hrecord,
    hcloses, rfl⟩

/-- **The record of a walk**: it is a run of the surroundings, and between
notices a sentence of the grammar, whose ending the walk answers. -/
theorem record_of_run {depth : Nat} {origin : String} {w next : σ}
    {answer : Option (Except Failure Unit)} {log : List Event}
    (h : run host.traced scope options depth origin (w, []) =
      (answer, next, log)) :
    host.Asks w log next ∧ ∃ events ending, ∃ notices : List Notice,
      log = .noted (.started scope host.driver origin) ::
        (events ++ notices.map .noted) ∧
      Record scope options (.dir origin) events ending ∧
      Closes events ending ∧ answer = ending.answer? scope := by
  obtain ⟨hasks, events, ending, _, _, hlog, hrecord, hcloses, hanswer⟩ :=
    level_of_run h
  exact ⟨hasks, events, ending, _, hlog, hrecord, hcloses, hanswer⟩

end Walk
end PathStore
