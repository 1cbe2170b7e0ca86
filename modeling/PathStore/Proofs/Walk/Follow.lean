import PathStore.Proofs.Walk.Record

/-!
# What a walk learns and what it asks

What a walk asks, and what it is told, hang together in both directions.
Where a walk finishes, all that it has learnt is followed up: a path that was
listed is asked about, an entry is shown, a directory is listed unless it was
pruned (`Walk.Record.followed`). And nothing comes from elsewhere: it asks
about what was listed, lists what it was told of, shows what it was told
(`Walk.Record.concerns`, `Walk.Record.told_of_visited`).

Neither direction asks anything of the surroundings, which may answer as they
like. Both are read off the grammar of records.
-/

namespace PathStore
namespace Event

/-- **What an event makes a walk learn is followed up** in a record. -/
def FollowedIn (scope : Scope) (options : WalkOptions) (log : List Event) :
    Event → Prop
  | listed _ (.ok paths) => ∀ path ∈ paths,
      options.skips path ∨ ∃ answer, .told path answer ∈ log
  | told _ (.ok entry) =>
      (scope = .filesOnly ∧ entry.isDir ∨
        ∃ answer, .visited entry answer ∈ log) ∧
      (entry.isDir → .visited entry (.ok .prune) ∈ log ∨
        ∃ paths, .listed entry.path (.ok paths) ∈ log)
  | _ => True

/-- **What an event asks about**: a directory that is one of `dirs`, or a
path that is one of `paths`. -/
def Concerns (dirs paths : String → Prop) : Event → Prop
  | listed dir _ => dirs dir
  | told path _ => paths path
  | _ => True

/-- **What an event leads to**: directories that are among `dirs`, and
paths that are among `paths`. -/
def LeadsTo (dirs paths : String → Prop) : Event → Prop
  | listed _ (.ok found) => ∀ path ∈ found, paths path
  | told _ (.ok entry) => entry.isDir → dirs entry.path
  | _ => True

/-- **What an event leads to from there**: to paths that are among `paths` if
one of `dirs` was listed, to one of `dirs` if it was told of one of `paths`. -/
def LeadsOn (dirs paths : String → Prop) : Event → Prop
  | listed dir (.ok found) => dirs dir → ∀ path ∈ found, paths path
  | told path (.ok entry) => paths path → entry.isDir → dirs entry.path
  | _ => True

/-- What leads there from anywhere does from there. -/
theorem LeadsTo.leadsOn {dirs paths : String → Prop} {event : Event}
    (h : event.LeadsTo dirs paths) : event.LeadsOn dirs paths := by
  cases event with
  | listed dir answer =>
    cases answer with
    | error cause => trivial
    | ok found => exact fun _ => h
  | told path answer =>
    cases answer with
    | error cause => trivial
    | ok entry => exact fun _ => h
  | _ => trivial

end Event

namespace Walk

/-- **What a part of a walk is about has been asked.** -/
def Part.DoneIn (options : WalkOptions) (log : List Event) : Part → Prop
  | dir path => ∃ paths, .listed path (.ok paths) ∈ log
  | child path => options.skips path ∨ ∃ answer, .told path answer ∈ log
  | children paths => ∀ path ∈ paths,
      options.skips path ∨ ∃ answer, .told path answer ∈ log

/-- What a part of a walk is about is among `dirs` or `paths`. -/
def Part.Among (dirs paths : String → Prop) : Part → Prop
  | dir path => dirs path
  | child path => paths path
  | children found => ∀ path ∈ found, paths path

variable {scope : Scope} {options : WalkOptions} {part : Part}
  {events log : List Event} {ending : Ending}

/-- **A part that finishes follows up all that it learns**, in every record
it is a stretch of. -/
theorem Record.followed (h : Record scope options part events ending)
    (hends : ending = .finished) (hlog : events ⊆ log) :
    (∀ event ∈ events, event.FollowedIn scope options log) ∧
      part.DoneIn options log := by
  induction h with
  | tooDeep _ | cancelledDir _ _ | unlisted _ _ | cancelled _ _
  | unknown _ _ | refused _ _ _ | stopped _ _ => cases hends
  | last _ ne _ _ => exact absurd hends ne
  | @listed dir paths events ending _ ih =>
    simp only [List.cons_subset] at hlog
    obtain ⟨_, hlisted, hrest⟩ := hlog
    obtain ⟨hfollowed, hdone⟩ := ih hends hrest
    refine ⟨?_, paths, hlisted⟩
    rw [List.forall_mem_cons, List.forall_mem_cons]
    exact ⟨trivial, fun path hpath => hdone path (List.mem_mergeSort.2 hpath),
      hfollowed⟩
  | nil =>
    exact ⟨fun _ h => absurd h List.not_mem_nil,
      fun _ h => absurd h List.not_mem_nil⟩
  | next _ _ ihFirst ihRest =>
    obtain ⟨hfront, hback⟩ := List.append_subset.1 hlog
    obtain ⟨hfirst, hpath⟩ := ihFirst rfl hfront
    obtain ⟨hrest, hpaths⟩ := ihRest hends hback
    exact ⟨List.forall_mem_append.2 ⟨hfirst, hrest⟩,
      List.forall_mem_cons.2 ⟨hpath, hpaths⟩⟩
  | skipped skips => exact ⟨fun _ h => absurd h List.not_mem_nil, .inl skips⟩
  | @vanished path cause kept gone =>
    simp only [List.cons_subset] at hlog
    refine ⟨?_, .inr ⟨_, hlog.2.1⟩⟩
    simp [Event.FollowedIn]
  | @entered path entry events ending kept dir _ ih =>
    simp only [List.cons_subset] at hlog
    obtain ⟨_, htold, hvisited, hrest⟩ := hlog
    obtain ⟨hfollowed, hlisted⟩ := ih hends hrest
    refine ⟨?_, .inr ⟨_, htold⟩⟩
    simp only [List.forall_mem_cons]
    exact ⟨trivial, ⟨.inr ⟨_, hvisited⟩, fun _ => .inr hlisted⟩, trivial,
      hfollowed⟩
  | @unseen path entry events ending kept dir files _ ih =>
    simp only [List.cons_subset] at hlog
    obtain ⟨_, htold, hrest⟩ := hlog
    obtain ⟨hfollowed, hlisted⟩ := ih hends hrest
    refine ⟨?_, .inr ⟨_, htold⟩⟩
    simp only [List.forall_mem_cons]
    exact ⟨trivial, ⟨.inl ⟨files, dir⟩, fun _ => .inr hlisted⟩, hfollowed⟩
  | @passed path entry kept file =>
    simp only [List.cons_subset] at hlog
    obtain ⟨_, htold, hvisited, _⟩ := hlog
    refine ⟨?_, .inr ⟨_, htold⟩⟩
    simp only [List.forall_mem_cons]
    exact ⟨trivial, ⟨.inr ⟨_, hvisited⟩, fun dir => absurd dir file⟩, trivial,
      fun _ h => absurd h List.not_mem_nil⟩
  | @pruned path entry kept dir =>
    simp only [List.cons_subset] at hlog
    obtain ⟨_, htold, hvisited, _⟩ := hlog
    refine ⟨?_, .inr ⟨_, htold⟩⟩
    simp only [List.forall_mem_cons]
    exact ⟨trivial, ⟨.inr ⟨_, hvisited⟩, fun _ => .inl hvisited⟩, trivial,
      trivial, fun _ h => absurd h List.not_mem_nil⟩

/-- **A part asks only about what it is about and what it is led to**, step by
step: what a question leads to matters only where it leads on from what has
been asked about. -/
theorem Record.concerns_of_leadsOn {dirs paths : String → Prop}
    (h : Record scope options part events ending)
    (hleads : ∀ event ∈ events, event.LeadsOn dirs paths)
    (hpart : part.Among dirs paths) :
    ∀ event ∈ events, event.Concerns dirs paths := by
  induction h with
  | tooDeep _ | nil | skipped _ => exact fun _ h => absurd h List.not_mem_nil
  | cancelledDir _ _ | cancelled _ _ => simp [Event.Concerns]
  | @unlisted dir _ =>
    have hdir : dirs dir := hpart
    simpa [Event.Concerns] using hdir
  | @vanished path _ _ _ | @unknown path _ _ _ | @refused path _ _ _
  | @passed path _ _ _ | @pruned path _ _ _ | @stopped path _ _ _ =>
    have hpath : paths path := hpart
    simpa [Event.Concerns] using hpath
  | @listed dir found _ _ _ ih =>
    simp only [List.forall_mem_cons] at hleads ⊢
    obtain ⟨_, hlisted, hrest⟩ := hleads
    have hlisted : ∀ path ∈ found, paths path := hlisted hpart
    refine ⟨trivial, hpart, ih hrest fun path hpath => ?_⟩
    exact hlisted path (List.mem_mergeSort.1 hpath)
  | next _ _ ihFirst ihRest =>
    obtain ⟨hfront, hback⟩ := List.forall_mem_append.1 hleads
    obtain ⟨hpath, hpaths⟩ := List.forall_mem_cons.1 hpart
    exact List.forall_mem_append.2 ⟨ihFirst hfront hpath, ihRest hback hpaths⟩
  | last _ _ _ ih => exact ih hleads (List.forall_mem_cons.1 hpart).1
  | @entered path entry _ _ _ dir _ ih =>
    simp only [List.forall_mem_cons] at hleads ⊢
    obtain ⟨_, htold, _, hrest⟩ := hleads
    have htold : entry.isDir → dirs entry.path := htold hpart
    exact ⟨trivial, hpart, trivial, ih hrest (htold dir)⟩
  | @unseen path entry _ _ _ dir _ _ ih =>
    simp only [List.forall_mem_cons] at hleads ⊢
    obtain ⟨_, htold, hrest⟩ := hleads
    have htold : entry.isDir → dirs entry.path := htold hpart
    exact ⟨trivial, hpart, ih hrest (htold dir)⟩

/-- **A part asks only about what it is about and what it is led to.** -/
theorem Record.concerns {dirs paths : String → Prop}
    (h : Record scope options part events ending)
    (hleads : ∀ event ∈ events, event.LeadsTo dirs paths)
    (hpart : part.Among dirs paths) :
    ∀ event ∈ events, event.Concerns dirs paths :=
  h.concerns_of_leadsOn (fun event hmem => (hleads event hmem).leadsOn) hpart

/-- **What is shown has been told.** -/
theorem Record.told_of_visited (h : Record scope options part events ending)
    {entry : Entry} {answer : Except Failure Verdict}
    (hmem : .visited entry answer ∈ events) :
    ∃ path, .told path (.ok entry) ∈ events := by
  induction h with
  | tooDeep _ | nil | skipped _ => cases hmem
  | cancelledDir _ _ | unlisted _ _ | cancelled _ _ | vanished _ _
  | unknown _ _ => simp at hmem
  | @refused path _ _ _ | @passed path _ _ _ | @pruned path _ _ _
  | @stopped path _ _ _ =>
    refine ⟨path, ?_⟩
    simp_all
  | listed _ ih =>
    obtain ⟨path, hpath⟩ := ih (by simpa using hmem)
    exact ⟨path, by simp [hpath]⟩
  | next _ _ ihFirst ihRest =>
    obtain hfirst | hrest := List.mem_append.1 hmem
    · obtain ⟨path, hpath⟩ := ihFirst hfirst
      exact ⟨path, List.mem_append_left _ hpath⟩
    · obtain ⟨path, hpath⟩ := ihRest hrest
      exact ⟨path, List.mem_append_right _ hpath⟩
  | last _ _ _ ih => exact ih hmem
  | @entered path shown _ _ _ _ _ ih =>
    by_cases heq : shown = entry
    · exact ⟨path, by simp [heq]⟩
    · obtain ⟨other, hother⟩ := ih (by simpa [Ne.symm heq] using hmem)
      exact ⟨other, by simp [hother]⟩
  | unseen _ _ _ _ ih =>
    obtain ⟨path, hpath⟩ := ih (by simpa using hmem)
    exact ⟨path, by simp [hpath]⟩

end Walk
end PathStore
