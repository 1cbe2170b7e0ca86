import PathStore.Proofs.Store.Busy
import PathStore.Proofs.Store.Outcome
import PathStore.Proofs.Walk.Cancelled

/-!
# Walks of a store that only loses

Nothing in a walk says that it ends, and a visitor that stores files ahead of
it can keep it going for ever. This module is about visitors that do not: they
read, they delete, and they give new content to files that are there. A store
then **dwindles** (`Store.Dwindles`), and whatever moment a walk sees, each
file it sees was a file at the start and each directory a directory
(`Store.Remains`).

Such a walk asks at most once about each node there was at the start beneath
its origin, and lists each directory of these at most once, and the origin
(`Store.Frugal`). That it asks about none of them twice is not said by the
store at all, since what it lists changes from moment to moment. It is said by
the order of the walk: what is asked about comes in that order, without
repetition, from any trees whatever (`Walk.Record.asked_pairwise`). Only that
the paths were there takes a store that loses. That the walk ends follows from
the count. A walk that runs out of levels has listed one directory for each of
them, and there are not so many (`Store.dwindling_walk`).

The context is as it likes. It may end between any two questions, and a store
asked under a context that has ended tells nothing; what it does tell is true.
-/

namespace PathStore

/-- **Surroundings in which time passes**: the world moves on by itself
whenever the context or the store is asked. -/
def Host.ticking {σ : Type u} (host : Host σ) (tick : σ → σ) : Host σ :=
  { host with
    check := fun w => host.check (tick w)
    list := fun dir w => host.list dir (tick w)
    stat := fun path w => host.stat path (tick w) }

namespace Store

open Walk

universe u

variable {σ : Type u} {store later : Store} {calls front : List Call}
  {path dir : String}

/-! ## What remains -/

/-- **A call that adds nothing**: something is deleted, or a file that is
there is given new content. -/
def Call.AddsNothing (store : Store) : Call → Prop
  | .write _ _ path _ => store.HasFile path
  | .move .. => False
  | .delete .. => True

/-- **A store dwindles** under some calls: none of them adds anything at its
moment. -/
def Dwindles : Store → List Call → Prop
  | _, [] => True
  | store, call :: calls =>
    call.AddsNothing store ∧ Dwindles (store.after call) calls

theorem Dwindles.of_isPrefix (h : store.Dwindles calls)
    (hfront : front <+: calls) : store.Dwindles front := by
  induction front generalizing store calls with
  | nil => trivial
  | cons call front ih =>
    obtain ⟨rest, rfl⟩ := hfront
    exact ⟨h.1, ih h.2 (List.prefix_append front rest)⟩

/-- **What remains of a store**: every file was a file there, and every
directory a directory. -/
structure Remains (store later : Store) : Prop where
  file : ∀ path, later.HasFile path → store.HasFile path
  dir : ∀ path, later.HasDir path → store.HasDir path

theorem Remains.refl (store : Store) : store.Remains store :=
  ⟨fun _ h => h, fun _ h => h⟩

theorem Remains.trans {last : Store} (h : store.Remains later)
    (hlast : later.Remains last) : store.Remains last :=
  ⟨fun path hfile => h.file path (hlast.file path hfile),
    fun path hdir => h.dir path (hlast.dir path hdir)⟩

theorem Remains.isSome (h : store.Remains later)
    (hsome : (later.get? path).isSome) : (store.get? path).isSome := by
  obtain ⟨node, hnode⟩ := Option.isSome_iff_exists.1 hsome
  cases node with
  | file content time =>
    obtain ⟨_, _, hold⟩ := h.file path ⟨content, time, hnode⟩
    rw [hold]
    rfl
  | dir time =>
    obtain ⟨_, hold⟩ := h.dir path ⟨time, hnode⟩
    rw [hold]
    rfl

/-- Nothing is missing above a file. -/
theorem IsTree.not_missing_of_hasFile (h : store.IsTree)
    (hfile : store.HasFile path) (other : String) :
    ¬ store.Missing path other := by
  rintro ⟨hne, ⟨hother, hbelow⟩, hvacant⟩
  obtain ⟨content, time, hnode⟩ := hfile
  have hsome : (store.get? path).isSome := by
    rw [hnode]
    rfl
  have hthere := h.isSome_of_within hsome hother hne (.inr hbelow)
  rw [hvacant] at hthere
  cases hthere

/-- **A call that adds nothing leaves what remains.** -/
theorem IsTree.remains_after (h : store.IsTree) {call : Call}
    (hadds : call.AddsNothing store) : store.Remains (store.after call) := by
  unfold Store.after
  cases call with
  | write status now path content =>
    have hfile : store.HasFile path := hadds
    obtain ⟨_, hcall⟩ | ⟨next, hcall, _, hw⟩ :=
      h.write_cases status now path content
    · rw [Call.run, hcall]
      exact .refl store
    · rw [Call.run, hcall]
      have hget : ∀ other, other ≠ path →
          next.get? other = store.get? other := by
        intro other hne
        rw [hw.get?, if_neg hne]
        exact withAncestors_of_not_missing hw.valid
          (h.not_missing_of_hasFile hfile other)
      constructor
      · rintro other ⟨old, time, hnode⟩
        by_cases heq : other = path
        · exact heq ▸ hfile
        · exact ⟨old, time, hget other heq ▸ hnode⟩
      · rintro other ⟨time, hnode⟩
        by_cases heq : other = path
        · rw [hw.get?, if_pos heq] at hnode
          cases hnode
        · exact ⟨time, hget other heq ▸ hnode⟩
  | move status now source dest => exact hadds.elim
  | delete status path =>
    obtain ⟨_, hcall⟩ | ⟨next, hcall, _, hd⟩ := h.delete_cases status path
    · rw [Call.run, hcall]
      exact .refl store
    · rw [Call.run, hcall]
      have hget : ∀ {other node}, next.get? other = some node →
          store.get? other = some node := by
        intro other node hnode
        rw [hd.get?] at hnode
        split at hnode
        · cases hnode
        · exact hnode
      constructor
      · rintro other ⟨old, time, hnode⟩
        exact ⟨old, time, hget hnode⟩
      · rintro other ⟨time, hnode⟩
        exact ⟨time, hget hnode⟩

/-- **While a store dwindles, nothing is in it that was not there.** -/
theorem IsTree.remains (h : store.IsTree) (hdwindles : store.Dwindles calls) :
    store.Remains (store.afterAll calls) := by
  induction calls generalizing store with
  | nil => exact .refl store
  | cons call calls ih =>
    obtain ⟨hadds, hrest⟩ := hdwindles
    exact (h.remains_after hadds).trans (ih (h.after call) hrest)

/-! ## The surroundings -/

/-- **The surroundings of a walk of a store that the visitor changes**, under
a context that may end at any time. The context goes by what has happened so
far and by what the visitor and the log keep for themselves, and that may
change by itself, as a clock does, whenever something is asked. -/
def timed (visitor : Meddler σ) (status : Scene σ → Status) (tick : σ → σ)
    (note : Notice → σ → σ) : Host (Scene σ) :=
  (host Scene.store status visitor.visit
      fun notice scene => { scene with own := note notice scene.own }).ticking
    fun scene => { scene with own := tick scene.own }

variable {visitor : Meddler σ} {status : Scene σ → Status} {tick : σ → σ}
  {note : Notice → σ → σ} {scene next : Scene σ} {events log : List Event}
  {event : Event} {scope : Scope} {options : WalkOptions} {origin : String}
  {depth : Nat} {own : σ} {ending : Ending}

/-- What is listed under some context is listed under one that is live. -/
theorem lists_of_list {status : Status} {found : List String}
    (h : store.list status dir = .ok found) : store.lists dir = .ok found := by
  obtain ⟨hdir, rfl⟩ := list_eq_ok h
  exact lists_eq hdir

/-- What is told under some context is told under one that is live. -/
theorem stats_of_stat {status : Status} {entry : Entry}
    (h : store.stat status path = .ok entry) :
    store.stats path = .ok entry := by
  have hlive : status = .live := by
    unfold stat at h
    split at h
    · cases h
    · next hpermit => exact ((permit_eq_ok_iff status path driver).1 hpermit).1
  rw [hlive] at h
  exact h

/-- **Whatever the context, a store tells the truth or nothing**, and changes
by calls alone. -/
theorem byCalls_timed (visitor : Meddler σ) (status : Scene σ → Status)
    (tick : σ → σ) (note : Notice → σ → σ) :
    ByCalls (timed visitor status tick note)
      fun store event => event.GrantedBy store := by
  intro scene event next h
  cases event with
  | checked answer =>
    cases h
    exact ⟨trivial, [], (List.append_nil _).symm, rfl⟩
  | listed dir answer =>
    obtain ⟨hanswer, rfl⟩ := Prod.mk.inj h
    refine ⟨?_, [], (List.append_nil _).symm, rfl⟩
    cases answer with
    | error cause => trivial
    | ok found => exact lists_of_list hanswer
  | told path answer =>
    obtain ⟨hanswer, rfl⟩ := Prod.mk.inj h
    refine ⟨?_, [], (List.append_nil _).symm, rfl⟩
    cases answer with
    | error cause => trivial
    | ok entry => exact stats_of_stat hanswer
  | visited entry answer =>
    cases h
    exact ⟨trivial, visitor.runs entry scene, rfl, rfl⟩
  | noted notice =>
    cases h
    exact ⟨trivial, [], (List.append_nil _).symm, rfl⟩

/-! ## What a walk comes to -/

/-- **What remains leads to what was there**: what is listed was there, and
what is told to be a directory was one. -/
theorem Remains.leadsTo (h : store.Remains later)
    (hgranted : event.GrantedBy later) (origin : String) :
    event.LeadsTo (fun dir => dir = origin ∨ dir = "/" ∨ store.HasDir dir)
      fun path => (store.get? path).isSome := by
  cases event with
  | listed dir answer =>
    cases answer with
    | error cause => trivial
    | ok found =>
      obtain ⟨_, rfl⟩ := list_eq_ok hgranted
      intro path hmem
      exact h.isSome ((later.mem_paths path).1 (List.mem_filter.1 hmem).1)
  | told path answer =>
    cases answer with
    | error cause => trivial
    | ok entry =>
      intro hdir
      have hpath : entry.path = path := path_of_stats hgranted
      by_cases htop : path = "/"
      · exact .inr (.inl (hpath.trans htop))
      · obtain ⟨node, hnode, rfl⟩ := stat_eq_ok htop hgranted
        refine .inr (.inr ?_)
        rw [hpath]
        cases node with
        | file content time => cases hdir
        | dir time => exact h.dir path ⟨time, hnode⟩
  | _ => trivial

/-- **A walk that asks no more than it has to**, of a store in which it can
come to what is beneath its origin. -/
structure Frugal (store : Store) (origin : String) (log : List Event) :
    Prop where
  /-- The store is asked about no path twice, -/
  asked_once : (log.filterMap Event.asked?).Nodup
  /-- only about nodes beneath the origin, -/
  asked_here : ∀ path ∈ log.filterMap Event.asked?,
    (store.get? path).isSome ∧ Path.isDescendant path origin
  /-- no directory is listed twice, -/
  opened_once : (log.filterMap Event.opened?).Nodup
  /-- and only directories beneath the origin are, besides the origin. -/
  opened_here : ∀ dir ∈ log.filterMap Event.opened?,
    dir = origin ∨ store.HasDir dir ∧ Path.isDescendant dir origin

/-- **What is asked about was there**, and what is listed was a directory,
besides where the walk started. -/
theorem there_of_record
    (h : Record scope options (.dir origin) events ending)
    (hgranted : ∀ event ∈ events, ∃ later : Store,
      store.Remains later ∧ event.GrantedBy later) :
    (∀ path ∈ events.filterMap Event.asked?, (store.get? path).isSome) ∧
      ∀ dir ∈ events.filterMap Event.opened?,
        dir = origin ∨ dir = "/" ∨ store.HasDir dir := by
  have hleads : ∀ event ∈ events, event.LeadsTo
      (fun dir => dir = origin ∨ dir = "/" ∨ store.HasDir dir)
      fun path => (store.get? path).isSome := by
    intro event hmem
    obtain ⟨later, hremains, htrue⟩ := hgranted event hmem
    exact hremains.leadsTo htrue origin
  have hconcerns := h.concerns hleads (.inl rfl)
  constructor
  · intro path hmem
    obtain ⟨event, hevent, hasked⟩ := List.mem_filterMap.1 hmem
    obtain ⟨answer, rfl⟩ := Event.asked?_eq_some_iff.1 hasked
    exact hconcerns _ hevent
  · intro dir hmem
    obtain ⟨event, hevent, hopened⟩ := List.mem_filterMap.1 hmem
    obtain ⟨answer, rfl⟩ := Event.opened?_eq_some_iff.1 hopened
    exact hconcerns _ hevent

/-- A path that no store can list is walked without a question about any
other. -/
theorem isValid_or_asked_eq_nil
    (h : Record scope options (.dir origin) events ending)
    (hgranted : ∀ event ∈ events, ∃ later, event.GrantedBy later) :
    Path.isValid origin ∨ events.filterMap Event.asked? = [] := by
  cases h with
  | tooDeep _ | cancelledDir _ _ | unlisted _ _ => exact .inr rfl
  | @listed _ found events _ _ =>
    obtain ⟨later, hlists⟩ := hgranted (.listed origin (.ok found)) (by simp)
    exact .inl (list_eq_ok hlists).1

/-- **No path is asked about twice**, nor the origin, and only paths beneath
the origin are. That is the order of the walk. -/
theorem nodup_of_record
    (h : Record scope options (.dir origin) events ending)
    (htree : ∀ event ∈ events, event.Treelike)
    (hgranted : ∀ event ∈ events, ∃ later, event.GrantedBy later) :
    (origin :: events.filterMap Event.asked?).Nodup ∧
      ∀ path ∈ events.filterMap Event.asked?,
        Path.isDescendant path origin := by
  obtain horigin | hnil := isValid_or_asked_eq_nil h hgranted
  · obtain ⟨hordered, hregion⟩ := h.asked_pairwise htree horigin
    have hself : origin ∉ events.filterMap Event.asked? := fun hmem =>
      absurd (hregion origin hmem).2 (Path.not_isDescendant_self horigin)
    exact ⟨List.nodup_cons.2 ⟨hself, hordered.nodup⟩,
      fun path hmem => (hregion path hmem).2⟩
  · rw [hnil]
    exact ⟨List.nodup_singleton origin, fun _ h => absurd h List.not_mem_nil⟩

/-- **What a record asks of what remains.** -/
theorem frugal_of_record (h : store.IsTree)
    (hrecord : Record scope options (.dir origin) events ending)
    (hgranted : ∀ event ∈ events, ∃ later : Store, later.IsTree ∧
      store.Remains later ∧ event.GrantedBy later) :
    store.Frugal origin events := by
  have htree : ∀ event ∈ events, event.Treelike := by
    intro event hmem
    obtain ⟨_, hlater, _, htrue⟩ := hgranted event hmem
    exact hlater.treelike htrue
  obtain ⟨hsome, hdir⟩ := there_of_record hrecord fun event hmem =>
    (hgranted event hmem).imp fun _ => And.right
  obtain ⟨hnodup, hbelow⟩ := nodup_of_record hrecord htree fun event hmem =>
    (hgranted event hmem).imp fun _ h => h.2.2
  -- what is listed is the origin and some of what was asked about
  have hsub : (events.filterMap Event.opened?).Sublist
      (origin :: events.filterMap Event.asked?) := hrecord.opened_sublist htree
  refine ⟨(List.nodup_cons.1 hnodup).2,
    fun path hmem => ⟨hsome path hmem, hbelow path hmem⟩,
    hnodup.sublist hsub, fun dir hmem => ?_⟩
  obtain heq | hasked := List.mem_cons.1 (hsub.subset hmem)
  · exact .inl heq
  obtain heq | htop | hhere := hdir dir hmem
  · exact .inl heq
  · obtain ⟨node, hnode⟩ := Option.isSome_iff_exists.1 (hsome dir hasked)
    exact absurd htop (h dir node hnode).2.1
  · exact .inr ⟨hhere, hbelow dir hasked⟩

/-- **A frugal walk lists no more directories than there are nodes**, and its
origin. -/
theorem Frugal.listings_le (h : store.Frugal origin log) :
    listings log ≤ store.paths.length + 1 := by
  have hlength : listings log = (log.filterMap Event.opened?).length := by
    rw [listings, List.length_filterMap_eq_countP]
    refine List.countP_congr fun event _ => ?_
    cases event <;> simp [Event.isListing, Event.opened?]
  have hsub : log.filterMap Event.opened? ⊆ origin :: store.paths := by
    intro dir hmem
    obtain rfl | ⟨⟨time, hnode⟩, _⟩ := h.opened_here dir hmem
    · exact List.mem_cons_self
    · refine List.mem_cons_of_mem _ ((store.mem_paths dir).2 ?_)
      rw [hnode]
      rfl
  rw [hlength]
  exact (List.subperm_of_subset h.opened_once hsub).length_le

/-- **A walk of a store that only loses is frugal and ends.** The visitor
reads, deletes and overwrites as it likes; the context may end at any time.
The walk then asks at most once about each node that was there at the start
beneath its origin, and about nothing else; it lists at most once each
directory that was there, and its origin. It ends if it may open more levels
than there were nodes, whatever path it starts from. -/
theorem dwindling_walk (visitor : Meddler σ) (status : Scene σ → Status)
    (tick : σ → σ) (note : Notice → σ → σ) (hstore : store.Reachable)
    {answer : Option (Except Failure Unit)}
    (h : run (timed visitor status tick note).traced scope options depth origin
      (.start store own, []) = (answer, next, log))
    (hdwindles : store.Dwindles next.calls) :
    store.Frugal origin log ∧
      (store.paths.length + 1 < depth → answer.isSome) := by
  obtain ⟨hasks, events, ending, notices, hlog, hrecord, _, _⟩ :=
    record_of_run h
  have hgranted : ∀ event ∈ events, ∃ later : Store, later.IsTree ∧
      store.Remains later ∧ event.GrantedBy later := by
    intro event hmem
    obtain ⟨front, hfront, htrue⟩ :=
      (byCalls_timed visitor status tick note).moment hasks event
        (hlog ▸ List.mem_cons_of_mem _ (List.mem_append_left _ hmem))
    exact ⟨store.afterAll front, hstore.isTree.afterAll front,
      hstore.isTree.remains (hdwindles.of_isPrefix hfront), htrue⟩
  have hfrugal : store.Frugal origin log := by
    have hasked : log.filterMap Event.asked? =
        events.filterMap Event.asked? := by
      rw [hlog, filterMap_framed fun _ => rfl]
    have hopened : log.filterMap Event.opened? =
        events.filterMap Event.opened? := by
      rw [hlog, filterMap_framed fun _ => rfl]
    obtain ⟨hone, htwo, hthree, hfour⟩ :=
      frugal_of_record hstore.isTree hrecord hgranted
    exact ⟨hasked ▸ hone, hasked ▸ htwo, hopened ▸ hthree, hopened ▸ hfour⟩
  refine ⟨hfrugal, fun hdepth => ?_⟩
  by_contra hnone
  -- a walk that runs out has listed one directory a level
  have hle := le_listings_of_run
    (congrArg Prod.fst h |>.trans (Option.not_isSome_iff_eq_none.1 hnone))
  rw [h] at hle
  exact absurd (hle.trans hfrugal.listings_le) (Nat.not_le.2 hdepth)

/-! ## A visitor that deletes -/

/-- What is deleted and overwritten in the chest. -/
def spending : List Call :=
  [.delete .live "/b", .write .live 1 "/c" ⟨#[52, 53]⟩]

/-- **A visitor that deletes one file and overwrites another** when it is shown
the directory. It keeps nothing: what it would keep is a clock. -/
def spender : Meddler Nat where
  runs entry _ := if entry.path = "/a" then spending else []
  answers _ _ := .ok .proceed
  keeps _ scene := scene.own

/-- The surroundings of its walk: the deadline is the eleventh question. -/
def spree : Host (Scene Nat) :=
  timed spender (fun scene => if scene.own < 11 then .live else .expired)
    (· + 1) fun _ own => own

/-- The record of the walk. One file has gone when the walk comes to it, and
time is up before it comes to the other. -/
def spreeRecord : List Event :=
  [.noted (.started .everything driver "/"),
    .checked (.ok ()), .listed "/" (.ok ["/a", "/b", "/c"]),
    .checked (.ok ()), .told "/a" (.ok ⟨"/a", .dir, some 0⟩),
    .visited ⟨"/a", .dir, some 0⟩ (.ok .proceed),
    .checked (.ok ()), .listed "/a" (.ok ["/a/x"]),
    .checked (.ok ()), .told "/a/x" (.ok ⟨"/a/x", .file 1, some 0⟩),
    .visited ⟨"/a/x", .file 1, some 0⟩ (.ok .proceed),
    .checked (.ok ()), .told "/b" (.error (.notFound "/b" driver)),
    .noted (.vanished "/b"), .checked (.error .deadlineExceeded)]

theorem run_spree :
    run spree.traced .everything .all 6 "/" (.start chest 0, []) =
      (some (.error .deadlineExceeded),
        ⟨chest.afterAll spending, spending, 11⟩, spreeRecord) := by
  have htop : chest.list .live "/" = .ok ["/a", "/b", "/c"] := by
    decide +kernel
  have hdir : chest.stat .live "/a" = .ok ⟨"/a", .dir, some 0⟩ := by
    decide +kernel
  have hsub : (chest.afterAll spending).list .live "/a" = .ok ["/a/x"] := by
    decide +kernel
  have hfile : (chest.afterAll spending).stat .live "/a/x" =
      .ok ⟨"/a/x", .file 1, some 0⟩ := by
    decide +kernel
  have hgone : (chest.afterAll spending).stat .live "/b" =
      .error (.notFound "/b" driver) := by
    decide +kernel
  have hkept : ∀ store : Store, store.afterAll [] = store := fun _ => rfl
  have hsorted : sorted ["/a", "/b", "/c"] = ["/a", "/b", "/c"] := by
    simp [sorted, List.mergeSort]
  have hsortedSub : sorted ["/a/x"] = ["/a/x"] := List.mergeSort_singleton "/a/x"
  simp [run, level, inTurn, child, verdict, Host.traced, spree, timed,
    Host.ticking, host, spender, Meddler.visit, spreeRecord, Scene.start,
    Status.check, WalkOptions.skips, WalkOptions.all, Failure.isNotFound,
    Entry.isDir, htop, hdir, hsub, hfile, hgone, hkept, hsorted, hsortedSub]

/-- The chest dwindles when it is spent from. -/
theorem dwindles_spending : chest.Dwindles spending := by
  exact ⟨trivial, ⟨⟨#[51]⟩, 0, by decide +kernel⟩, trivial⟩

/-- **The spree is frugal**, and ends, as it may open more levels than the chest
has nodes. -/
theorem dwindling_spree :
    chest.Frugal "/" spreeRecord ∧ chest.paths.length + 1 < 6 ∧
      (some (.error .deadlineExceeded) :
        Option (Except Failure Unit)).isSome := by
  have hroom : chest.paths.length + 1 < 6 := by
    decide +kernel
  obtain ⟨hfrugal, hends⟩ :=
    dwindling_walk spender _ _ _ ⟨_, rfl⟩ run_spree dwindles_spending
  exact ⟨hfrugal, hroom, hends hroom⟩

end Store
end PathStore
