import PathStore.Proofs.Store.Ordered

/-!
# Walks of a store that the visitor changes

A visitor may run calls on the very store whose walk it is shown: store
files, move and delete what it likes, each time it is shown an entry. A
`Meddler` is such a visitor, and `Store.busy` the surroundings of its walk.
How things stand is a `Scene`, which keeps count of the calls.

What the walk is told is then true of one **moment** and may be false at the
next. Each moment is the store that a beginning of the calls leaves
(`Store.ByCalls.moment`), so it is a tree, and that is enough for two
things. No question of the walk is refused: what it asks about is well-formed,
since it was listed or told by a tree, and what has gone is passed over
(`Store.fatal?_eq_none`). And what it shows is in order and beneath its
origin, however the visitor moves things about (`Store.busy_walk_orderly`).
-/

namespace PathStore

/-- **What an event says is true of a store**, under a context that is
live. -/
def Event.TrueOf (store : Store) : Event → Prop
  | checked answer => answer = .ok ()
  | listed dir answer => answer = store.lists dir
  | told path answer => answer = store.stats path
  | _ => True

/-- **What an event tells of a store is true**, if it tells anything: under a
context that has ended, a store tells nothing. -/
def Event.GrantedBy (store : Store) : Event → Prop
  | listed dir (.ok found) => store.lists dir = .ok found
  | told path (.ok entry) => store.stats path = .ok entry
  | _ => True

theorem Event.TrueOf.granted {store : Store} {event : Event}
    (h : event.TrueOf store) : event.GrantedBy store := by
  cases event with
  | listed dir answer =>
    cases answer with
    | error cause => trivial
    | ok found => exact h.symm
  | told path answer =>
    cases answer with
    | error cause => trivial
    | ok entry => exact h.symm
  | _ => trivial

namespace Store

open Walk

universe u

/-- **How things stand** in the middle of a walk. -/
structure Scene (σ : Type u) where
  store : Store
  /-- The calls that have been run on the store, in order. -/
  calls : List Call
  /-- What the visitor and the log keep for themselves. -/
  own : σ

/-- Nothing has happened to a store yet. -/
def Scene.start {σ : Type u} (store : Store) (own : σ) : Scene σ :=
  ⟨store, [], own⟩

/-- **A visitor that changes the store.** Each time it is shown an entry it
runs some calls before it answers. Which they are may depend on all there
is, and so on what the earlier of them did. -/
structure Meddler (σ : Type u) where
  runs : Entry → Scene σ → List Call
  answers : Entry → Scene σ → Except Failure Verdict
  keeps : Entry → Scene σ → σ

variable {σ : Type u}

/-- Shows an entry to the visitor. -/
def Meddler.visit (visitor : Meddler σ) (entry : Entry) (scene : Scene σ) :
    Except Failure Verdict × Scene σ :=
  (visitor.answers entry scene,
    { store := scene.store.afterAll (visitor.runs entry scene)
      calls := scene.calls ++ visitor.runs entry scene
      own := visitor.keeps entry scene })

/-- **The surroundings of a walk of a store that the visitor changes**, under
a context that stays live. -/
def busy (visitor : Meddler σ) (note : Notice → σ → σ) : Host (Scene σ) :=
  host Scene.store (fun _ => .live) visitor.visit
    fun notice scene => { scene with own := note notice scene.own }

/-- **What is told between calls is true of moments**, each event of its
own. -/
def TrueAtMoments (store : Store) (calls : List Call) (events : List Event) :
    Prop :=
  ∀ event ∈ events, ∃ front, front <+: calls ∧
    event.TrueOf (store.afterAll front)

variable {store : Store} {visitor : Meddler σ} {note : Notice → σ → σ}
  {scene next : Scene σ} {event : Event} {events log : List Event}
  {scope : Scope} {options : WalkOptions} {origin path dir : String}
  {depth : Nat} {own : σ}

/-! ## Moments -/

theorem afterAll_append (store : Store) (calls more : List Call) :
    store.afterAll (calls ++ more) = (store.afterAll calls).afterAll more :=
  List.foldl_append

/-- **Surroundings in which a store changes by calls alone**, and what every
event says holds of the store as it stands. -/
def ByCalls (host : Host (Scene σ)) (holds : Store → Event → Prop) : Prop :=
  ∀ scene event next, host.Answers scene event next →
    holds scene.store event ∧ ∃ more, next.calls = scene.calls ++ more ∧
      next.store = scene.store.afterAll more

/-- **A run of questions**: the store changes by calls alone. -/
theorem ByCalls.calls {host : Host (Scene σ)} {holds : Store → Event → Prop}
    (hhost : ByCalls host holds) (h : host.Asks scene events next) :
    ∃ more, next.calls = scene.calls ++ more ∧
      next.store = scene.store.afterAll more := by
  induction h with
  | nil scene => exact ⟨[], (List.append_nil _).symm, rfl⟩
  | cons first _ ih =>
    obtain ⟨_, more, hcalls, hstore⟩ := hhost _ _ _ first
    obtain ⟨last, hlast, hnext⟩ := ih
    refine ⟨more ++ last, ?_, ?_⟩
    · rw [hlast, hcalls, List.append_assoc]
    · rw [hnext, hstore, afterAll_append]

/-- **What happens in a walk holds of a moment**: of the store that some
beginning of the calls leaves. -/
theorem ByCalls.moment {host : Host (Scene σ)} {holds : Store → Event → Prop}
    (hhost : ByCalls host holds) (h : host.Asks (.start store own) log next) :
    ∀ event ∈ log, ∃ front, front <+: next.calls ∧
      holds (store.afterAll front) event := by
  intro event hmem
  obtain ⟨_, mid, last, _, hfront, hevent, hrest⟩ := h.split hmem
  obtain ⟨calls, hcalls, hstore⟩ := hhost.calls hfront
  obtain ⟨hholds, more, hmore, _⟩ := hhost _ _ _ hevent
  obtain ⟨rest, hlast, _⟩ := hhost.calls hrest
  refine ⟨calls, ⟨more ++ rest, ?_⟩, ?_⟩
  · rw [hlast, hmore, hcalls, List.append_assoc]
    rfl
  · rw [hstore] at hholds
    exact hholds

/-- **One question**: it is answered as the store stands, and the store
changes by calls alone. -/
theorem byCalls_busy (visitor : Meddler σ) (note : Notice → σ → σ) :
    ByCalls (busy visitor note) fun store event => event.TrueOf store := by
  intro scene event next h
  cases event with
  | checked answer =>
    cases h
    exact ⟨rfl, [], (List.append_nil _).symm, rfl⟩
  | listed dir answer =>
    cases h
    exact ⟨rfl, [], (List.append_nil _).symm, rfl⟩
  | told path answer =>
    cases h
    exact ⟨rfl, [], (List.append_nil _).symm, rfl⟩
  | visited entry answer =>
    cases h
    exact ⟨trivial, visitor.runs entry scene, rfl, rfl⟩
  | noted notice =>
    cases h
    exact ⟨trivial, [], (List.append_nil _).symm, rfl⟩

/-! ## What a tree tells -/

/-- What is told of a path is told of that path. -/
theorem path_of_stats {entry : Entry} (h : store.stats path = .ok entry) :
    entry.path = path := by
  by_cases htop : path = "/"
  · rw [htop] at h ⊢
    cases h
    rfl
  · obtain ⟨node, _, rfl⟩ := stat_eq_ok htop h
    exact node.path_entry path

/-- **A tree tells what is fit for one.** -/
theorem IsTree.treelike (h : store.IsTree) (hgranted : event.GrantedBy store) :
    event.Treelike := by
  cases event with
  | listed dir answer =>
    cases answer with
    | error cause => trivial
    | ok found =>
      have hlists : store.lists dir = .ok found := hgranted
      obtain ⟨hdir, rfl⟩ := list_eq_ok hlists
      have hlisted : (Walk.listed store.lists dir).Pairwise (· < ·) :=
        listed_pairwise hdir
      unfold listed at hlisted
      rw [hlists] at hlisted
      refine ⟨hlisted, fun path hmem => ?_⟩
      obtain ⟨hpath, hparent⟩ := List.mem_filter.1 hmem
      obtain ⟨node, hnode⟩ :=
        Option.isSome_iff_exists.1 ((store.mem_paths path).1 hpath)
      exact ⟨h.isValid hnode, beq_iff_eq.1 hparent⟩
  | told path answer =>
    cases answer with
    | error cause => trivial
    | ok entry => exact path_of_stats hgranted
  | _ => trivial

/-- **A tree leads to well-formed paths.** -/
theorem IsTree.leadsTo (h : store.IsTree) (hgranted : event.GrantedBy store) :
    event.LeadsTo (Path.isValid ·) (Path.isValid ·) := by
  cases event with
  | listed dir answer =>
    cases answer with
    | error cause => trivial
    | ok found =>
      exact fun path hmem => ((h.treelike hgranted).2 path hmem).1
  | told path answer =>
    cases answer with
    | error cause => trivial
    | ok entry =>
      intro _
      have hstats : store.stats path = .ok entry := hgranted
      rw [path_of_stats hstats]
      by_cases htop : path = "/"
      · rw [htop]
        rfl
      · obtain ⟨node, hnode, _⟩ := stat_eq_ok htop hstats
        exact h.isValid hnode
  | _ => trivial

/-- A well-formed path is told of, or nothing is there. -/
theorem stats_cases (store : Store) (hpath : Path.isValid path) :
    (∃ entry, store.stats path = .ok entry) ∨
      store.stats path = .error (.notFound path driver) := by
  unfold stats stat
  rw [permit_ok hpath]
  dsimp only
  split
  · exact .inl ⟨_, rfl⟩
  · split
    · exact .inl ⟨_, rfl⟩
    · exact .inl ⟨_, rfl⟩
    · exact .inr rfl

/-- **A store refuses nothing that is asked about well-formed paths.** -/
theorem fatal?_eq_none (htrue : event.TrueOf store)
    (hvalid : event.Concerns (Path.isValid ·) (Path.isValid ·))
    (hvisitor : ∀ entry answer, event ≠ .visited entry answer) :
    event.fatal? = none := by
  cases event with
  | checked answer =>
    have hanswer : answer = .ok () := htrue
    rw [hanswer]
    rfl
  | listed dir answer =>
    have hanswer : answer = store.lists dir := htrue
    rw [hanswer, lists_eq hvalid]
    rfl
  | told path answer =>
    have hanswer : answer = store.stats path := htrue
    rw [hanswer]
    obtain ⟨entry, hentry⟩ | hgone := stats_cases store hvalid
    · rw [hentry]
      rfl
    · rw [hgone]
      rfl
  | visited entry answer => exact absurd rfl (hvisitor entry answer)
  | noted notice => rfl

/-! ## The whole walk -/

/-- **The record of a walk of a store that the visitor changes**: what the
walk is told is true of a moment, and nothing but the visitor is fatal. -/
theorem record_of_busy (hstore : store.Reachable)
    (horigin : Path.isValid origin)
    {answer : Option (Except Failure Unit)}
    (h : run (busy visitor note).traced scope options depth origin
      (.start store own, []) = (answer, next, log)) :
    ∃ events ending, ∃ notices : List Notice,
      log = .noted (.started scope driver origin) ::
        (events ++ notices.map .noted) ∧
      Record scope options (.dir origin) events ending ∧
      Closes events ending ∧ answer = ending.answer? scope ∧
      store.TrueAtMoments next.calls events ∧
      ∀ event ∈ events, event.Treelike ∧
        ((∀ entry answer, event ≠ .visited entry answer) →
          event.fatal? = none) := by
  obtain ⟨hasks, events, ending, notices, hlog, hrecord, hcloses, hanswer⟩ :=
    record_of_run h
  have hmoment : store.TrueAtMoments next.calls events := fun event hmem =>
    (byCalls_busy visitor note).moment hasks event (hlog ▸
      List.mem_cons_of_mem _ (List.mem_append_left _ hmem))
  have htree : ∀ front, (store.afterAll front).IsTree :=
    hstore.isTree.afterAll
  have hleads : ∀ event ∈ events,
      event.LeadsTo (Path.isValid ·) (Path.isValid ·) := fun event hmem =>
    let ⟨front, _, htrue⟩ := hmoment event hmem
    (htree front).leadsTo htrue.granted
  have hvalid := hrecord.concerns hleads horigin
  refine ⟨events, ending, notices, hlog, hrecord, hcloses, hanswer, hmoment,
    fun event hmem => ?_⟩
  obtain ⟨front, _, htrue⟩ := hmoment event hmem
  exact ⟨(htree front).treelike htrue.granted,
    fatal?_eq_none htrue (hvalid event hmem)⟩

/-- **What a verdict can force.** -/
theorem fatal?_visited {entry : Entry} {answer : Except Failure Verdict}
    {ending : Ending} (h : (Event.visited entry answer).fatal? = some ending) :
    (∃ cause, answer = .error cause ∧ ending = .failed cause) ∨
      answer = .ok .prune ∧ ending = .stopped entry.path := by
  cases answer with
  | error cause => exact .inl ⟨cause, rfl, (Option.some.inj h).symm⟩
  | ok verdict =>
    cases verdict with
    | proceed => cases h
    | prune =>
      refine .inr ⟨rfl, ?_⟩
      unfold Event.fatal? at h
      split at h <;> simp_all

/-- **A visitor cannot break a walk by changing the store.** What has been
shown is in the order of the walk and beneath its origin, however many levels
the walk has opened so far; and if it ends, it succeeds or answers what the
visitor said. -/
theorem busy_walk_orderly (visitor : Meddler σ) (note : Notice → σ → σ)
    (hstore : store.Reachable) (horigin : Path.isValid origin)
    {answer : Option (Except Failure Unit)}
    (h : run (busy visitor note).traced scope options depth origin
      (.start store own, []) = (answer, next, log)) :
    (log.filterMap Event.shown?).Pairwise Entry.Before ∧
      (∀ entry ∈ log.filterMap Event.shown?,
        Path.isDescendant entry.path origin) ∧
      ∀ result, answer = some result → result = .ok () ∨
        (∃ entry cause, .visited entry (.error cause) ∈ log ∧
          result = .error cause) ∨
        scope = .filesOnly ∧ ∃ entry, .visited entry (.ok .prune) ∈ log ∧
          result = .error (.pruned entry.path) := by
  obtain ⟨events, ending, notices, rfl, hrecord, hcloses, rfl, _, hevents⟩ :=
    record_of_busy hstore horigin h
  obtain ⟨hordered, hregion⟩ := hrecord.shown_pairwise
    (fun event hmem => (hevents event hmem).1) horigin
  rw [filterMap_framed fun _ => rfl]
  refine ⟨hordered, fun entry hmem => (hregion entry hmem).2,
    fun result hresult => ?_⟩
  cases hcloses with
  | finished _ => exact .inl (Option.some.inj hresult).symm
  | tooDeep _ => cases hresult
  | @fatal front last ending _ forced =>
    have hlast : last ∈ front ++ [last] :=
      List.mem_append_right _ List.mem_cons_self
    have hlog : last ∈ Event.noted (.started scope driver origin) ::
        (front ++ [last] ++ notices.map .noted) :=
      List.mem_cons_of_mem _ (List.mem_append_left _ hlast)
    -- what was fatal was the visitor's
    obtain ⟨entry, said, rfl⟩ : ∃ entry said, last = .visited entry said := by
      by_contra hno
      have hcalm := (hevents last hlast).2
        fun entry said heq => hno ⟨entry, said, heq⟩
      rw [hcalm] at forced
      cases forced
    obtain ⟨cause, rfl, rfl⟩ | ⟨rfl, rfl⟩ := fatal?_visited forced
    · exact .inr (.inl ⟨entry, cause, hlog, (Option.some.inj hresult).symm⟩)
    · cases scope with
      | everything => exact .inl (Option.some.inj hresult).symm
      | filesOnly =>
        exact .inr (.inr ⟨rfl, entry, hlog, (Option.some.inj hresult).symm⟩)

/-! ## A visitor that carries a file off -/

/-- A directory with a file in it, and two files beside it. -/
def chest : Store :=
  empty.afterAll [.write .live 0 "/a/x" ⟨#[49]⟩, .write .live 0 "/b" ⟨#[50]⟩,
    .write .live 0 "/c" ⟨#[51]⟩]

/-- A file that the walk has yet to come to is taken into the directory. -/
def carry : Call := .move .live 1 "/b" "/a/b"

/-- **A visitor that carries a file off** when it is shown the directory. -/
def porter : Meddler Unit where
  runs entry _ := if entry.path = "/a" then [carry] else []
  answers _ _ := .ok .proceed
  keeps _ _ := ()

/-- The record of the porter's walk. The file is shown where it has been
taken, and has vanished when the walk comes to where it was. -/
def porterRecord : List Event :=
  [.noted (.started .everything driver "/"),
    .checked (.ok ()), .listed "/" (.ok ["/a", "/b", "/c"]),
    .checked (.ok ()), .told "/a" (.ok ⟨"/a", .dir, some 0⟩),
    .visited ⟨"/a", .dir, some 0⟩ (.ok .proceed),
    .checked (.ok ()), .listed "/a" (.ok ["/a/b", "/a/x"]),
    .checked (.ok ()), .told "/a/b" (.ok ⟨"/a/b", .file 1, some 0⟩),
    .visited ⟨"/a/b", .file 1, some 0⟩ (.ok .proceed),
    .checked (.ok ()), .told "/a/x" (.ok ⟨"/a/x", .file 1, some 0⟩),
    .visited ⟨"/a/x", .file 1, some 0⟩ (.ok .proceed),
    .checked (.ok ()), .told "/b" (.error (.notFound "/b" driver)),
    .noted (.vanished "/b"),
    .checked (.ok ()), .told "/c" (.ok ⟨"/c", .file 1, some 0⟩),
    .visited ⟨"/c", .file 1, some 0⟩ (.ok .proceed),
    .noted (.finished .everything driver "/")]

theorem run_porter : run (busy porter fun _ own => own).traced .everything
      .all 3 "/" (.start chest (), []) =
    (some (.ok ()), ⟨chest.after carry, [carry], ()⟩, porterRecord) := by
  have htop : chest.list .live "/" = .ok ["/a", "/b", "/c"] := by
    decide +kernel
  have hdir : chest.stat .live "/a" = .ok ⟨"/a", .dir, some 0⟩ := by
    decide +kernel
  have hsub : (chest.after carry).list .live "/a" = .ok ["/a/b", "/a/x"] := by
    decide +kernel
  have hfiles : ∀ path ∈ ["/a/b", "/a/x", "/c"],
      (chest.after carry).stat .live path = .ok ⟨path, .file 1, some 0⟩ := by
    decide +kernel
  have hgone : (chest.after carry).stat .live "/b" =
      .error (.notFound "/b" driver) := by
    decide +kernel
  have hsorted : sorted ["/a", "/b", "/c"] = ["/a", "/b", "/c"] := by
    simp [sorted, List.mergeSort]
  have hsortedSub : sorted ["/a/b", "/a/x"] = ["/a/b", "/a/x"] := by
    simp [sorted, List.mergeSort]
  simp [run, level, inTurn, child, verdict, Host.traced, busy, host, porter,
    Meddler.visit, porterRecord, Scene.start, Status.check, afterAll,
    WalkOptions.skips, WalkOptions.all, Failure.isNotFound, Entry.isDir, htop,
    hdir, hsub, hfiles, hgone, hsorted, hsortedSub]

/-- **The porter's walk stays in order**, though a file has been taken from
ahead of it to where it is. -/
theorem porter_walk_orderly :
    (porterRecord.filterMap Event.shown?).Pairwise Entry.Before ∧
      (∀ entry ∈ porterRecord.filterMap Event.shown?,
        Path.isDescendant entry.path "/") ∧
      (porterRecord.filterMap Event.shown?).map Entry.path =
        ["/a", "/a/b", "/a/x", "/c"] := by
  have hstore : chest.Reachable := ⟨_, rfl⟩
  have horigin : Path.isValid "/" := rfl
  obtain ⟨hordered, hregion, _⟩ :=
    busy_walk_orderly porter (fun _ own => own) hstore horigin run_porter
  exact ⟨hordered, hregion, rfl⟩

end Store
end PathStore
