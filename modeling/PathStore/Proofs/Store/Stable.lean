import PathStore.Proofs.Store.Busy

/-!
# What stays is shown

A walk of a store that its visitor changes makes no promise about what comes
and goes. What is there at every moment of the walk it does show, and once;
what is there at none it does not show (`Store.stable_shown_once`).

That a path stays says something about the paths above it, since every moment
is a tree: they stay too, as directories. So each listing on the way down to
the path holds the next step, whenever it was made, and what is told of that
step is a directory, whenever it was asked. A walk that finishes follows up
all that it learns, so it comes to the path
(`Store.listed_of_stays`).
-/

namespace PathStore
namespace Store

open Walk

universe u

/-- **At every moment**: when nothing has been called yet, and after each of
the calls. -/
def Throughout (store : Store) (calls : List Call) (holds : Store → Prop) :
    Prop :=
  ∀ front, front <+: calls → holds (store.afterAll front)

/-- **What a scope shows is at a path**: anything, or a file. -/
def Offers (store : Store) (scope : Scope) (path : String) : Prop :=
  ∃ node, store.get? path = some node ∧ shows scope (node.entry path)

variable {σ : Type u} {store : Store} {visitor : Meddler σ}
  {note : Notice → σ → σ} {next : Scene σ} {events log : List Event}
  {calls : List Call} {scope : Scope} {origin path dir : String}
  {depth : Nat} {own : σ}

/-- Where there is one call there are two moments. -/
theorem throughout_singleton {call : Call} {holds : Store → Prop}
    (hbefore : holds store) (hafter : holds (store.after call)) :
    store.Throughout [call] holds := by
  rintro front ⟨rest, hrest⟩
  cases front with
  | nil => exact hbefore
  | cons first front =>
    obtain ⟨rfl, hnil⟩ := List.cons.inj hrest
    obtain ⟨rfl, _⟩ := List.append_eq_nil_iff.1 hnil
    exact hafter

theorem Offers.isSome (h : store.Offers scope path) :
    (store.get? path).isSome :=
  let ⟨_, hnode, _⟩ := h
  Option.isSome_of_eq_some hnode

/-- A directory has been listed while the path beneath it stayed: the step
towards the path was listed too. -/
theorem IsTree.mem_of_lists (h : store.IsTree) {child : String}
    {paths : List String} (hlists : store.lists dir = .ok paths)
    (hsome : (store.get? path).isSome) (hchild : Path.isValid child)
    (hparent : Path.parent? child = some dir)
    (hin : Path.Within path child) : child ∈ paths := by
  obtain ⟨_, rfl⟩ := list_eq_ok hlists
  have hne : child ≠ "/" := by
    rintro rfl
    cases hparent
  refine List.mem_filter.2 ⟨(mem_paths _ _).2 ?_, beq_iff_eq.2 hparent⟩
  exact h.isSome_of_within hsome hchild hne hin

/-- **On the way to what stays every directory is listed**, from the origin
down. By induction along parents. -/
theorem listed_of_stays (hstore : store.IsTree)
    (hmoment : store.TrueAtMoments calls events)
    (hfollowed : ∀ event ∈ events, event.FollowedIn scope .all events)
    (hlisted : ∃ paths, .listed origin (.ok paths) ∈ events)
    (horigin : Path.isValid origin)
    (hstays : store.Throughout calls fun moment =>
      (moment.get? path).isSome)
    (hopen : ∀ entry, .visited entry (.ok .prune) ∈ events →
      Path.isDescendant entry.path origin →
        ¬ Path.isDescendant path entry.path)
    (hdir : Path.isValid dir) (hin : Path.Within dir origin)
    (hbelow : Path.isDescendant path dir) :
    ∃ paths, .listed dir (.ok paths) ∈ events := by
  induction dir, hdir using Path.parent_induction with
  | top =>
    rw [hin.eq_top horigin] at hlisted
    exact hlisted
  | child dir parent hdir hparent ih =>
    obtain rfl | hstrict := hin
    · exact hlisted
    have hparentValid := Path.isValid_of_parent? hdir hparent
    have hpath : Path.isValid path := by
      have hnow := hstays [] List.nil_prefix
      obtain ⟨node, hnode⟩ := Option.isSome_iff_exists.1 hnow
      exact hstore.isValid hnode
    have hne := Path.ne_top_of_isDescendant horigin hstrict
    obtain ⟨paths, hpaths⟩ := ih
      ((Path.isDescendant_iff_parent? hdir horigin hparent).1 hstrict)
      (Path.Within.isDescendant hpath hdir hparentValid (.inr hbelow)
        (Path.isDescendant_of_parent? hdir hparent))
    -- the parent was listed at some moment, and the directory was there
    obtain ⟨front, hfront, htrue⟩ := hmoment _ hpaths
    have hmem := (hstore.afterAll front).mem_of_lists htrue.symm
      (hstays front hfront) hdir hparent (.inr hbelow)
    obtain hskips | ⟨answer, htold⟩ := hfollowed _ hpaths dir hmem
    · cases hskips
    -- so it was asked about, at some other moment, and was a directory
    obtain ⟨later, hlater, hanswer⟩ := hmoment _ htold
    have htree := hstore.afterAll later
    obtain ⟨node, hnode⟩ := Option.isSome_iff_exists.1 (hstays later hlater)
    obtain ⟨time, htime⟩ := htree.dir_of_isDescendant hnode hdir hne hbelow
    have hanswer : answer = .ok ((Node.dir time).entry dir) :=
      Eq.trans hanswer (htree.stats_eq htime)
    subst hanswer
    obtain hpruned | hlistedDir := (hfollowed _ htold).2 rfl
    · refine absurd hbelow ?_
      rw [← Node.path_entry dir (.dir time)]
      exact hopen _ hpruned (by rwa [Node.path_entry])
    · rwa [Node.path_entry] at hlistedDir

/-- **What stays is shown**, by a walk that follows up all that it
learns. -/
theorem visited_of_stays (hstore : store.IsTree)
    (hmoment : store.TrueAtMoments calls events)
    (hfollowed : ∀ event ∈ events, event.FollowedIn scope .all events)
    (hlisted : ∃ paths, .listed origin (.ok paths) ∈ events)
    (horigin : Path.isValid origin) (hbelow : Path.isDescendant path origin)
    (hstays : store.Throughout calls fun moment => moment.Offers scope path)
    (hopen : ∀ entry, .visited entry (.ok .prune) ∈ events →
      Path.isDescendant entry.path origin →
        ¬ Path.isDescendant path entry.path) :
    ∃ entry answer, .visited entry answer ∈ events ∧ entry.path = path := by
  have hhere : store.Throughout calls fun moment =>
      (moment.get? path).isSome := fun front hfront =>
    (hstays front hfront).isSome
  obtain ⟨first, hfirst⟩ :=
    Option.isSome_iff_exists.1 (hhere [] List.nil_prefix)
  obtain ⟨hpath, hne, parent, hparent, _⟩ := hstore path first hfirst
  obtain ⟨paths, hpaths⟩ := listed_of_stays hstore hmoment hfollowed hlisted
    horigin hhere hopen (Path.isValid_of_parent? hpath hparent)
    ((Path.isDescendant_iff_parent? hpath horigin hparent).1 hbelow)
    (Path.isDescendant_of_parent? hpath hparent)
  obtain ⟨front, hfront, htrue⟩ := hmoment _ hpaths
  have hmem := (hstore.afterAll front).mem_of_lists htrue.symm
    (hhere front hfront) hpath hparent (.refl path)
  obtain hskips | ⟨answer, htold⟩ := hfollowed _ hpaths path hmem
  · cases hskips
  obtain ⟨later, hlater, hanswer⟩ := hmoment _ htold
  obtain ⟨node, hnode, hshows⟩ := hstays later hlater
  have hanswer : answer = .ok (node.entry path) :=
    Eq.trans hanswer ((hstore.afterAll later).stats_eq hnode)
  subst hanswer
  obtain ⟨rfl, hdir⟩ | ⟨said, hvisited⟩ := (hfollowed _ htold).1
  · rw [shows, hdir] at hshows
    cases hshows
  · exact ⟨_, said, hvisited, Node.path_entry path node⟩

/-- **What is shown was there at some moment.** -/
theorem exists_moment_of_visited
    {options : WalkOptions} {part : Part} {ending : Ending}
    (hrecord : Record scope options part events ending)
    (hmoment : store.TrueAtMoments calls events) {entry : Entry}
    {answer : Except Failure Verdict} (hmem : .visited entry answer ∈ events)
    (hne : entry.path ≠ "/") : ∃ front, front <+: calls ∧
      ((store.afterAll front).get? entry.path).isSome := by
  obtain ⟨path, htold⟩ := hrecord.told_of_visited hmem
  obtain ⟨front, hfront, htrue⟩ := hmoment _ htold
  have hstats : (store.afterAll front).stats path = .ok entry := htrue.symm
  rw [← path_of_stats hstats] at hstats
  obtain ⟨node, hnode, _⟩ := stat_eq_ok hne hstats
  exact ⟨front, hfront, Option.isSome_of_eq_some hnode⟩

theorem mem_shown_iff_visited {entry : Entry} :
    entry ∈ events.filterMap Event.shown? ↔
      ∃ answer, .visited entry answer ∈ events := by
  rw [List.mem_filterMap]
  constructor
  · rintro ⟨event, hmem, hshown⟩
    cases event with
    | visited shown answer =>
      cases hshown
      exact ⟨answer, hmem⟩
    | _ => cases hshown
  · rintro ⟨answer, hmem⟩
    exact ⟨_, hmem, rfl⟩

/-- Nothing is fatal to a walk whose visitor neither fails nor prunes at a
file, if nothing else is. -/
theorem calm_of_visits
    (hothers : ∀ event ∈ events,
      (∀ entry answer, event ≠ .visited entry answer) → event.fatal? = none)
    (hvisitor : ∀ entry answer, .visited entry answer ∈ events →
      answer = .ok .proceed ∨ answer = .ok .prune ∧ entry.isDir) :
    Calm events := by
  intro event hmem
  by_cases hvisit : ∃ entry answer, event = .visited entry answer
  · obtain ⟨entry, answer, rfl⟩ := hvisit
    obtain rfl | ⟨rfl, hdir⟩ := hvisitor entry answer hmem
    · rfl
    · exact if_pos hdir
  · exact hothers event hmem fun entry answer heq =>
      hvisit ⟨entry, answer, heq⟩

/-- **What stays is shown once, and what never comes is not shown**, by a walk
of a store that the visitor changes, if the visitor neither fails nor prunes
at a file. -/
theorem stable_shown_once (visitor : Meddler σ) (note : Notice → σ → σ)
    (hstore : store.Reachable) (horigin : Path.isValid origin)
    {result : Except Failure Unit}
    (h : run (busy visitor note).traced scope .all depth origin
      (.start store own, []) = (some result, next, log))
    (hvisitor : ∀ entry answer, .visited entry answer ∈ log →
      answer = .ok .proceed ∨ answer = .ok .prune ∧ entry.isDir) :
    (∀ path, Path.isDescendant path origin →
      store.Throughout next.calls (·.Offers scope path) →
      (∀ entry, .visited entry (.ok .prune) ∈ log →
        Path.isDescendant entry.path origin →
          ¬ Path.isDescendant path entry.path) →
      ((log.filterMap Event.shown?).map Entry.path).count path = 1) ∧
    ∀ path, store.Throughout next.calls (fun moment =>
        moment.get? path = none) →
      path ∉ (log.filterMap Event.shown?).map Entry.path := by
  obtain ⟨events, ending, notices, rfl, hrecord, hcloses, hanswer, hmoment,
    hevents⟩ := record_of_busy hstore horigin h
  have hlog : ∀ event ∈ events, event ∈
      Event.noted (.started scope driver origin) ::
        (events ++ notices.map .noted) := fun event hmem =>
    List.mem_cons_of_mem _ (List.mem_append_left _ hmem)
  have hcalm : Calm events := calm_of_visits
    (fun event hmem => (hevents event hmem).2)
    fun entry said hmem => hvisitor entry said (hlog _ hmem)
  obtain rfl | rfl := hcloses.of_calm hcalm
  · obtain ⟨hfollowed, hlisted⟩ := hrecord.followed rfl (List.Subset.refl _)
    obtain ⟨hordered, hregion⟩ := hrecord.shown_pairwise
      (fun event hmem => (hevents event hmem).1) horigin
    rw [filterMap_framed fun _ => rfl]
    refine ⟨fun path hbelow hstays hopen => ?_, fun path habsent hmem => ?_⟩
    · obtain ⟨entry, said, hvisited, rfl⟩ := visited_of_stays hstore.isTree
        hmoment hfollowed hlisted horigin hbelow hstays
        fun entry hmem => hopen entry (hlog _ hmem)
      refine List.count_eq_one_of_mem ?_ (List.mem_map.2
        ⟨entry, mem_shown_iff_visited.2 ⟨said, hvisited⟩, rfl⟩)
      exact (hordered.map _ fun _ _ hbefore => hbefore :
        (List.map Entry.path _).Pairwise Path.Before).nodup
    · obtain ⟨entry, hshown, rfl⟩ := List.mem_map.1 hmem
      obtain ⟨said, hvisited⟩ := mem_shown_iff_visited.1 hshown
      obtain ⟨front, hfront, hsome⟩ := exists_moment_of_visited hrecord
        hmoment hvisited
        (Path.ne_top_of_isDescendant horigin (hregion entry hshown).2)
      rw [habsent front hfront] at hsome
      cases hsome
  · cases hanswer

/-- **What the porter leaves in its place is shown once**, and what is not
there, before or after, is not. -/
theorem porter_stable_shown_once :
    ((porterRecord.filterMap Event.shown?).map Entry.path).count "/c" = 1 ∧
      "/d" ∉ (porterRecord.filterMap Event.shown?).map Entry.path := by
  have hstore : chest.Reachable := ⟨_, rfl⟩
  have horigin : Path.isValid "/" := rfl
  have hbelow : Path.isDescendant "/c" "/" := rfl
  have hvisitor : ∀ entry answer, .visited entry answer ∈ porterRecord →
      answer = .ok .proceed ∨ answer = .ok .prune ∧ entry.isDir := by
    intro entry answer hmem
    simp [porterRecord] at hmem
    grind
  have hopen : ∀ entry, .visited entry (.ok .prune) ∉ porterRecord := by
    intro entry hmem
    simp [porterRecord] at hmem
  have hstays : chest.Throughout [carry] (·.Offers .everything "/c") :=
    throughout_singleton ⟨.file ⟨#[51]⟩ 0, by decide +kernel, rfl⟩
      ⟨.file ⟨#[51]⟩ 0, by decide +kernel, rfl⟩
  have habsent : chest.Throughout [carry] (·.get? "/d" = none) :=
    throughout_singleton (by decide +kernel) (by decide +kernel)
  obtain ⟨honce, hnever⟩ := stable_shown_once porter (fun _ own => own)
    hstore horigin run_porter hvisitor
  exact ⟨honce "/c" hbelow hstays fun entry hmem => absurd hmem (hopen entry),
    hnever "/d" habsent⟩

end Store
end PathStore
