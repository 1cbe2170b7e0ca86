import PathStore.Proofs.Store.Stable

/-!
# Walks on a chart

Of surroundings at rest a walk learns what is listed and what is told, and it
does not matter when. Where it may be led is said by a **course**
(`Walk.Course`), that is by some directories and some paths which hold together:
whatever the directories list is on the course, and so is, as a directory,
whatever is told to be one. A walk that starts on a course never leaves it,
however it ends (`Walk.Course.of_shown`).

It may end early, where a listing fails or something is told of another path
than was asked about. A **chart** (`Walk.Chart`) is a course on which this cannot
be: the directories can be listed, and list children of theirs; and something is
told of the paths. Nothing on a chart can stop a walk but a lack of levels. So if
the walk ends it shows what is told of paths on the chart, in order; and it
leaves out nothing it could come to, which is all that is listed by its origin,
or by a directory it shows (`Walk.Chart.shows`).
-/

namespace PathStore

variable {σ : Type u} {host : Host σ}
  {lists : String → Except Failure (List String)}
  {stats : String → Except Failure Entry} {event : Event}
  {events : List Event} {dirs paths : String → Prop} {origin : String}

/-- **An answer that is settled beforehand**: what a store at rest says, under a
context that stays live, and of a visitor that it goes on. -/
def Event.Settled (lists : String → Except Failure (List String))
    (stats : String → Except Failure Entry) : Event → Prop
  | checked answer => answer = .ok ()
  | listed dir answer => answer = lists dir
  | told path answer => answer = stats path
  | visited _ answer => answer = .ok .proceed
  | noted _ => True

/-- **Surroundings in which everything is settled.** -/
structure Host.IsSettled (host : Host σ)
    (lists : String → Except Failure (List String))
    (stats : String → Except Failure Entry) : Prop extends
    host.IsAtRest lists stats where
  check : ∀ w, (host.check w).1 = .ok ()
  visit : ∀ entry w, (host.visit entry w).1 = .ok .proceed

/-- What is asked in them is answered so. -/
theorem Host.IsSettled.settled (h : host.IsSettled lists stats) {w next : σ}
    (hanswers : host.Answers w event next) : event.Settled lists stats := by
  cases event with
  | checked answer => exact (congrArg Prod.fst hanswers).symm.trans (h.check w)
  | listed dir answer =>
    exact (congrArg Prod.fst hanswers).symm.trans (h.list dir w)
  | told path answer =>
    exact (congrArg Prod.fst hanswers).symm.trans (h.stat path w)
  | visited entry answer =>
    exact (congrArg Prod.fst hanswers).symm.trans (h.visit entry w)
  | noted notice => trivial

namespace Walk

/-- **A course for a walk**: directories that list what is on it, and paths that
are on it as directories if they are told to be. -/
structure Course (lists : String → Except Failure (List String))
    (stats : String → Except Failure Entry) (dirs paths : String → Prop) :
    Prop where
  listed : ∀ {dir found}, dirs dir → lists dir = .ok found →
    ∀ path ∈ found, paths path
  told : ∀ {path entry}, paths path → stats path = .ok entry →
    entry.isDir → dirs entry.path

namespace Course

variable (h : Course lists stats dirs paths)

include h

/-- **What is on a course leads on along it.** -/
theorem leadsOn (hsettled : event.Settled lists stats) :
    event.LeadsOn dirs paths := by
  cases event with
  | listed dir answer =>
    cases answer with
    | error cause => trivial
    | ok found => exact fun hdir => h.listed hdir hsettled.symm
  | told path answer =>
    cases answer with
    | error cause => trivial
    | ok entry => exact fun hpath => h.told hpath hsettled.symm
  | _ => trivial

/-- **The record of a walk on a course**, however it ends. -/
theorem record_of_run (hhost : host.IsSettled lists stats)
    (horigin : dirs origin) {scope : Scope} {options : WalkOptions}
    {depth : Nat} {w next : σ} {answer : Option (Except Failure Unit)}
    {log : List Event}
    (hrun : run host.traced scope options depth origin (w, []) =
      (answer, next, log)) :
    ∃ events ending, ∃ notices : List Notice,
      log = .noted (.started scope host.driver origin) ::
        (events ++ notices.map .noted) ∧
      Record scope options (.dir origin) events ending ∧
      Closes events ending ∧ answer = ending.answer? scope ∧
      ∀ event ∈ events, event.Settled lists stats ∧
        event.Concerns dirs paths := by
  obtain ⟨hasks, events, ending, notices, rfl, hrecord, hcloses, hanswer⟩ :=
    Walk.record_of_run hrun
  have hsettled : ∀ event ∈ events, event.Settled lists stats := by
    intro event hmem
    obtain ⟨_, _, _, _, _, hanswers, _⟩ := hasks.split
      (List.mem_cons_of_mem _ (List.mem_append_left _ hmem))
    exact hhost.settled hanswers
  have hconcerns := hrecord.concerns_of_leadsOn
    (fun event hmem => h.leadsOn (hsettled event hmem)) horigin
  exact ⟨events, ending, notices, rfl, hrecord, hcloses, hanswer,
    fun event hmem => ⟨hsettled event hmem, hconcerns event hmem⟩⟩

/-- **What is shown is what is told of a path on the course**, however the walk
ends. -/
theorem of_shown (hhost : host.IsSettled lists stats) (horigin : dirs origin)
    {scope : Scope} {options : WalkOptions} {depth : Nat} {w next : σ}
    {answer : Option (Except Failure Unit)} {log : List Event}
    (hrun : run host.traced scope options depth origin (w, []) =
      (answer, next, log)) {entry : Entry}
    (hmem : entry ∈ log.filterMap Event.shown?) :
    ∃ path, paths path ∧ stats path = .ok entry := by
  obtain ⟨events, _, notices, rfl, hrecord, _, _, hevents⟩ :=
    h.record_of_run hhost horigin hrun
  rw [filterMap_framed fun _ => rfl] at hmem
  obtain ⟨_, hvisited⟩ := Store.mem_shown_iff_visited.1 hmem
  obtain ⟨path, htold⟩ := hrecord.told_of_visited hvisited
  exact ⟨path, (hevents _ htold).2, (hevents _ htold).1.symm⟩

end Course

/-- **A chart for a walk**: directories that list children of theirs, each of
them once and on the chart, and paths of which something is told. -/
structure Chart (lists : String → Except Failure (List String))
    (stats : String → Except Failure Entry) (dirs paths : String → Prop) :
    Prop where
  listed : ∀ {dir}, dirs dir → ∃ found, lists dir = .ok found ∧
    (sorted found).Pairwise (· < ·) ∧ ∀ path ∈ found,
      Path.isValid path ∧ Path.parent? path = some dir ∧ paths path
  told : ∀ {path}, paths path → ∃ entry, stats path = .ok entry ∧
    entry.path = path ∧ (entry.isDir → dirs path)

namespace Chart

variable (h : Chart lists stats dirs paths)

include h

/-- A chart is a course. -/
theorem course : Course lists stats dirs paths where
  listed hdir hlists path hpath := by
    obtain ⟨others, hothers, _, hfound⟩ := h.listed hdir
    obtain rfl := Except.ok.inj (hlists.symm.trans hothers)
    exact (hfound path hpath).2.2
  told hpath hstats hisDir := by
    obtain ⟨other, hother, hplace, hdir⟩ := h.told hpath
    obtain rfl := Except.ok.inj (hstats.symm.trans hother)
    exact hplace.symm ▸ hdir hisDir

/-- **What is asked on a chart** is fit for a tree, and is never fatal. -/
theorem sound (hsettled : event.Settled lists stats)
    (hconcerns : event.Concerns dirs paths) :
    event.Treelike ∧ event.fatal? = none := by
  cases event with
  | checked answer =>
    obtain rfl : answer = .ok () := hsettled
    exact ⟨trivial, rfl⟩
  | listed dir answer =>
    obtain ⟨found, hlists, hordered, hfound⟩ := h.listed hconcerns
    obtain rfl : answer = .ok found := Eq.trans hsettled hlists
    refine ⟨⟨hordered, fun path hpath => ?_⟩, rfl⟩
    obtain ⟨hvalid, hparent, _⟩ := hfound path hpath
    exact ⟨hvalid, hparent⟩
  | told path answer =>
    obtain ⟨entry, hstats, hplace, _⟩ := h.told hconcerns
    obtain rfl : answer = .ok entry := Eq.trans hsettled hstats
    exact ⟨hplace, rfl⟩
  | visited entry answer =>
    obtain rfl : answer = .ok .proceed := hsettled
    exact ⟨trivial, rfl⟩
  | noted notice => exact ⟨trivial, rfl⟩

/-- **The record of a walk on a chart**, which finishes if it ends at all. -/
theorem record_of_run (hhost : host.IsSettled lists stats)
    (horigin : dirs origin) {scope : Scope} {options : WalkOptions}
    {depth : Nat} {w next : σ} {answer : Except Failure Unit}
    {log : List Event}
    (hrun : run host.traced scope options depth origin (w, []) =
      (some answer, next, log)) :
    answer = .ok () ∧ ∃ events, ∃ notices : List Notice,
      log = .noted (.started scope host.driver origin) ::
        (events ++ notices.map .noted) ∧
      Record scope options (.dir origin) events .finished ∧
      ∀ event ∈ events, event.Settled lists stats ∧
        event.Concerns dirs paths := by
  obtain ⟨events, ending, notices, rfl, hrecord, hcloses, hanswer, hevents⟩ :=
    h.course.record_of_run hhost horigin hrun
  obtain rfl | rfl := hcloses.of_calm fun event hmem =>
    (h.sound (hevents event hmem).1 (hevents event hmem).2).2
  · exact ⟨Option.some.inj hanswer, events, notices, rfl, hrecord, hevents⟩
  · cases hanswer

/-- **A walk on a chart shows what it comes to**, if it ends. -/
theorem shows (hhost : host.IsSettled lists stats) (horigin : dirs origin)
    (hvalid : Path.isValid origin) {depth : Nat} {w : σ}
    (hends : (run host.traced .everything .all depth origin
      (w, [])).1.isSome) :
    ∃ entries, Shows host .everything .all depth origin w entries ∧
      entries.Pairwise Entry.Before ∧
      (∀ entry ∈ entries,
        paths entry.path ∧ stats entry.path = .ok entry) ∧
      ∀ dir, (dir = origin ∨
          ∃ entry ∈ entries, entry.path = dir ∧ entry.isDir) →
        ∀ found, lists dir = .ok found → ∀ path ∈ found,
          ∀ entry, stats path = .ok entry → entry ∈ entries := by
  obtain ⟨result, hresult⟩ : ∃ result, run host.traced .everything .all depth
    origin (w, []) = result := ⟨_, rfl⟩
  obtain ⟨answer, next, log⟩ := result
  rw [hresult] at hends
  obtain ⟨said, rfl⟩ := Option.isSome_iff_exists.1 hends
  obtain ⟨rfl, events, notices, rfl, hrecord, hevents⟩ :=
    h.record_of_run hhost horigin hresult
  have htree : ∀ event ∈ events, event.Treelike := fun event hmem =>
    (h.sound (hevents event hmem).1 (hevents event hmem).2).1
  obtain ⟨hordered, _⟩ := hrecord.shown_pairwise htree hvalid
  obtain ⟨hfollowed, hlisted⟩ := hrecord.followed rfl (List.Subset.refl _)
  -- what has been told is what the path says
  have htold : ∀ {path entry}, .told path (.ok entry) ∈ events →
      paths path ∧ entry.path = path ∧ stats path = .ok entry :=
    fun hmem => ⟨(hevents _ hmem).2, htree _ hmem, (hevents _ hmem).1.symm⟩
  refine ⟨events.filterMap Event.shown?, ⟨next, _, hresult, ?_⟩, hordered,
    fun entry hmem => ?_, fun dir hdir found hlists path hpath entry hstats =>
      Store.mem_shown_iff_visited.2 ?_⟩
  · exact filterMap_framed (fun _ => rfl) _ _
  · obtain ⟨_, hvisited⟩ := Store.mem_shown_iff_visited.1 hmem
    obtain ⟨path, hpath⟩ := hrecord.told_of_visited hvisited
    obtain ⟨hon, rfl, hstats⟩ := htold hpath
    exact ⟨hon, hstats⟩
  · -- the directory was listed, and what it listed was followed up
    have hopened : .listed dir (.ok found) ∈ events := by
      obtain ⟨others, hothers⟩ : ∃ others, .listed dir (.ok others) ∈ events := by
        obtain rfl | ⟨shown, hshown, rfl, hisDir⟩ := hdir
        · exact hlisted
        · obtain ⟨_, hvisited⟩ := Store.mem_shown_iff_visited.1 hshown
          obtain ⟨place, hplace⟩ := hrecord.told_of_visited hvisited
          obtain hpruned | hlistedDir := (hfollowed _ hplace).2 hisDir
          · cases (hevents _ hpruned).1
          · exact hlistedDir
      obtain rfl : others = found :=
        Except.ok.inj (Eq.trans (hevents _ hothers).1 hlists)
      exact hothers
    obtain hskips | ⟨answer, hanswer⟩ := hfollowed _ hopened path hpath
    · cases hskips
    obtain rfl : answer = .ok entry := Eq.trans (hevents _ hanswer).1 hstats
    obtain ⟨hscope, _⟩ | hvisited := (hfollowed _ hanswer).1
    · cases hscope
    · exact hvisited

end Chart
end Walk
end PathStore
