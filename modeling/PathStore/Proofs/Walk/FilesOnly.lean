import PathStore.Proofs.Walk.Fatal

/-!
# The walk of the files is the walk of everything, seen by half

A walk of the files alone goes into every directory without showing it. A walk
of everything does the same if its visitor goes on past directories and leaves
things as they are (`Host.pastDirs`). The two walks are then one and the same,
level for level, world for world (`Walk.level_pastDirs`).

Their records are not the same, since the walk of everything shows the
directories all the same. Leave these visits out, and one record is the other,
question by question and answer by answer, however the surroundings behave
(`Walk.filesOnly_simulates`). To say so the record is taken with a choice of
what to keep (`Host.recording`): to keep less while the walk goes on is to
strike it out at the end.

What the two walks answer differs in one case. If the visitor prunes at a file,
the walk of everything succeeds and the walk of the files says where it was
pruned.
-/

namespace PathStore

variable {σ : Type u}

/-- Whether the event is a visit to a directory. -/
def Event.isDirVisit : Event → Bool
  | visited entry _ => entry.isDir
  | _ => false

/-- **A call that concerns files**: any but a visit to a directory. -/
def Event.isFileCall (event : Event) : Bool :=
  event.isCall && !event.isDirVisit

namespace Host

/-- **The same surroundings with nobody reading the log**: a notice changes
nothing. -/
def unheard (host : Host σ) : Host σ :=
  { host with note := fun _ w => w }

/-- **The same surroundings with a visitor that goes on past directories**,
and leaves things as they are. -/
def pastDirs (host : Host σ) : Host σ :=
  { host with
    visit := fun entry w =>
      if entry.isDir then (.ok .proceed, w) else host.visit entry w }

/-- What was answered, with the event on record if it is to be kept. -/
def recorded {α : Type} (keeps : Event → Bool) (log : List Event)
    (event : α → Event) (result : α × σ) : α × σ × List Event :=
  (result.1, result.2, log ++ [event result.1].filter keeps)

/-- **A host that keeps a record of some of what it is asked.** -/
def recording (host : Host σ) (keeps : Event → Bool) :
    Host (σ × List Event) where
  driver := host.driver
  check w := recorded keeps w.2 .checked (host.check w.1)
  list dir w := recorded keeps w.2 (.listed dir) (host.list dir w.1)
  stat path w := recorded keeps w.2 (.told path) (host.stat path w.1)
  visit entry w := recorded keeps w.2 (.visited entry) (host.visit entry w.1)
  note notice w :=
    (host.note notice w.1, w.2 ++ [.noted notice].filter keeps)

theorem map_recorded {α : Type} (keeps : Event → Bool) (log : List Event)
    (event : α → Event) (result : α × σ) :
    (result.1, result.2, (log ++ [event result.1]).filter keeps) =
      recorded keeps (log.filter keeps) event result := by
  rw [List.filter_append]
  rfl

/-- **To record less is to strike out what was recorded.** -/
theorem isImage_recording (host : Host σ) (keeps : Event → Bool) :
    (host.recording keeps).IsImage (Prod.map id (List.filter keeps))
      host.traced where
  driver := rfl
  check w := map_recorded keeps w.2 .checked (host.check w.1)
  list dir w := map_recorded keeps w.2 (.listed dir) (host.list dir w.1)
  stat path w := map_recorded keeps w.2 (.told path) (host.stat path w.1)
  visit entry w :=
    map_recorded keeps w.2 (.visited entry) (host.visit entry w.1)
  note notice w := congrArg (Prod.mk (host.note notice w.1))
    (List.filter_append w.2 [.noted notice])

/-- **Directories that are not shown leave no record**, and neither do those
that are shown and struck out. -/
theorem pastDirs_recording (host : Host σ) :
    (host.recording Event.isCall).pastDirs =
      host.pastDirs.recording Event.isFileCall := by
  unfold pastDirs recording
  congr 1
  funext entry w
  cases hdir : entry.isDir with
  | true => simp [recorded, Event.isFileCall, Event.isDirVisit, hdir]
  | false =>
    simp [recorded, Event.isCall, Event.isFileCall, Event.isDirVisit, hdir]

end Host

namespace Walk

variable {scope : Scope} {options : WalkOptions}

/-- What is done about one child is the same for both. -/
theorem child_pastDirs (host : Host σ)
    {enter other : String → σ → Ending × σ}
    (henter : ∀ path w, enter path w = other path w) (path : String) (w : σ) :
    child host .filesOnly options enter path w =
      child host.pastDirs .everything options other path w := by
  rw [funext fun path => funext (henter path)]
  unfold child
  simp only [verdict_filesOnly, verdict_everything]
  rfl

/-- **Level for level the two walks are the same walk.** -/
theorem level_pastDirs (host : Host σ) (options : WalkOptions) (depth : Nat)
    (dir : String) (w : σ) :
    level host .filesOnly options depth dir w =
      level host.pastDirs .everything options depth dir w := by
  induction depth generalizing dir w with
  | zero => rfl
  | succ depth ih =>
    have hchild : child host .filesOnly options
        (level host .filesOnly options depth) =
        child host.pastDirs .everything options
          (level host.pastDirs .everything options depth) :=
      funext fun path => funext (child_pastDirs host ih path)
    rw [level, level, hchild]
    rfl

/-- **A walk and its record without notices**, where notices change
nothing. -/
theorem run_recording (host : Host σ) {keeps : Event → Bool}
    (hnotices : ∀ notice, keeps (.noted notice) = false) (scope : Scope)
    (options : WalkOptions) (depth : Nat) (origin : String) (w : σ) :
    (run host.unheard.traced scope options depth origin (w, [])).map id
        (Prod.map id (List.filter keeps)) =
      let result := level (host.unheard.recording keeps) scope options depth
        origin (w, [])
      (result.1.answer? scope, result.2) := by
  have hunheard : ∀ notice w,
      (host.unheard.recording keeps).note notice w = w := by
    intro notice w
    show (w.1, w.2 ++ [Event.noted notice].filter keeps) = w
    rw [List.filter_cons_of_neg (by simp [hnotices]), List.filter_nil,
      List.append_nil]
  rw [run_image (host.unheard.isImage_recording keeps)]
  exact run_of_unheard hunheard scope options depth origin (w, [])

/-- Only a visitor that prunes at a file stops a walk. -/
theorem visited_of_stopped {events : List Event} {place : String}
    (h : Closes events (.stopped place)) :
    ∃ entry, .visited entry (.ok .prune) ∈ events := by
  generalize hending : Ending.stopped place = ending at h
  cases h with
  | finished _ | tooDeep _ => cases hending
  | @fatal front last _ _ forced =>
    subst hending
    have hlast : last ∈ front ++ [last] :=
      List.mem_append_right _ List.mem_cons_self
    unfold Event.fatal? at forced
    split at forced
    · cases forced
    · cases forced
    · split at forced <;> cases forced
    · cases forced
    · exact ⟨_, hlast⟩
    · cases forced

/-- **A walk of the files simulates a walk of everything** whose visitor goes
on past directories. Both ask for the same checks, listings and stats, show
the visitor the same files, all in the same order and with the same answers,
and leave the same world. They answer alike, unless the visitor prunes at a
file. No directory is shown by the walk of the files. -/
theorem filesOnly_simulates (host : Host σ) (options : WalkOptions)
    (depth : Nat) (origin : String) (w : σ) :
    let files := run host.unheard.traced .filesOnly options depth origin (w, [])
    let full := run host.pastDirs.unheard.traced .everything options depth
      origin (w, [])
    files.2.2.filter Event.isCall = full.2.2.filter Event.isFileCall ∧
      files.2.1 = full.2.1 ∧
      (∀ entry answer, .visited entry answer ∈ files.2.2 →
        entry.isDir = false) ∧
      (∀ entry, .visited entry (.ok .prune) ∈ files.2.2 →
        files.1 = some (.error (.pruned entry.path)) ∧
          full.1 = some (.ok ())) ∧
      ((∀ entry, .visited entry (.ok .prune) ∉ files.2.2) →
        files.1 = full.1) := by
  intro files full
  have hfiles := run_recording host (fun _ => rfl : ∀ notice,
    Event.isCall (.noted notice) = false) .filesOnly options depth origin w
  have hfull := run_recording host.pastDirs (fun _ => rfl : ∀ notice,
    Event.isFileCall (.noted notice) = false) .everything options depth origin w
  rw [show host.pastDirs.unheard = host.unheard.pastDirs from rfl,
    ← Host.pastDirs_recording, ← level_pastDirs] at hfull
  -- both are told by one level, whose ending belongs to its record
  obtain ⟨added, hadded, hcloses⟩ :=
    leaves_level host.unheard .filesOnly options depth origin (w, [])
  have hlevel := level_image (host.unheard.isImage_recording Event.isCall)
    .filesOnly options depth origin (w, [])
  change _ = level (host.unheard.recording Event.isCall) .filesOnly options
    depth origin (w, []) at hlevel
  rw [← hlevel] at hfiles hfull
  generalize level host.unheard.traced .filesOnly options depth origin
    (w, []) = result at hfiles hfull hadded hcloses
  obtain ⟨ending, next, log⟩ := result
  obtain rfl : log = added := hadded
  obtain ⟨hanswer, hstate⟩ := Prod.mk.inj hfiles
  obtain ⟨hnext, hlog⟩ := Prod.mk.inj hstate
  obtain ⟨hanswerFull, hstateFull⟩ := Prod.mk.inj hfull
  obtain ⟨hnextFull, hlogFull⟩ := Prod.mk.inj hstateFull
  have hsame : files.2.2.filter Event.isCall =
      full.2.2.filter Event.isFileCall := hlog.trans hlogFull.symm
  have hvisits : ∀ entry answer, .visited entry answer ∈ files.2.2 ↔
      .visited entry answer ∈ log := by
    intro entry answer
    have hmem : .visited entry answer ∈ files.2.2.filter Event.isCall ↔
        .visited entry answer ∈ log.filter Event.isCall := by
      rw [show files.2.2.filter Event.isCall =
        log.filter Event.isCall from hlog]
    rw [List.mem_filter, List.mem_filter] at hmem
    exact ⟨fun h => (hmem.1 ⟨h, rfl⟩).1, fun h => (hmem.2 ⟨h, rfl⟩).1⟩
  have hfile : ∀ entry answer, .visited entry answer ∈ files.2.2 →
      entry.isDir = false := by
    intro entry answer hmem
    have hkept : .visited entry answer ∈ full.2.2.filter Event.isFileCall :=
      hsame ▸ List.mem_filter.2 ⟨hmem, rfl⟩
    simpa [Event.isFileCall, Event.isCall, Event.isDirVisit] using
      (List.mem_filter.1 hkept).2
  refine ⟨hsame, hnext.trans hnextFull.symm, hfile, fun entry hmem => ?_,
    fun hnone => ?_⟩
  · -- what the visitor pruned at is the ending
    have hforced : (Event.visited entry (.ok .prune)).fatal? =
        some (.stopped entry.path) :=
      if_neg (Bool.eq_false_iff.1 (hfile entry _ hmem))
    obtain rfl := hcloses.eq_of_fatal ((hvisits entry _).1 hmem) hforced
    exact ⟨hanswer, hanswerFull⟩
  · refine hanswer.trans (Eq.trans ?_ hanswerFull.symm)
    cases ending with
    | stopped place =>
      obtain ⟨entry, hmem⟩ := visited_of_stopped hcloses
      exact absurd ((hvisits entry _).2 hmem) (hnone entry)
    | _ => rfl

end Walk
end PathStore
