import PathStore.Proofs.Store.Hinted
import PathStore.Proofs.Store.Outcome

/-!
# What a visitor prunes

A visitor that prunes a directory has been shown it. What it is spared is all
that lies beneath, and nothing else: of what a walk shows to a visitor that
always goes on, a visitor that prunes is shown, in the same order, what has no
pruned directory above it on the way from the origin
(`Store.pruned_walk`). A sibling whose name goes on from that of a pruned
directory is not beneath it, and stays.

This is so with every hint, which leaves out paths for reasons of its own, and
however the pruned directories lie in one another.

What is spared is not looked at either. The directories a walk lists are the
origin and those that it comes to and does not prune (`Store.IsTree.opened_eq`),
and the store is asked of no path but those that are come to.
-/

namespace PathStore

namespace Store

open Walk

variable {σ : Type u} {store : Store} {scope : Scope} {options : WalkOptions}
  {pruned : Entry → Bool} {origin path dir : String} {depth : Nat}
  {visit : Entry → σ → Except Failure Verdict × σ}

/-! ## What is listed -/

/-- What is entered is there and is not pruned. -/
theorem IsTree.of_entered? (h : store.IsTree) {node : Node}
    (hnode : store.get? path = some node)
    (hentered : entered? store.stats pruned path = some dir) :
    dir = path ∧ ¬ pruned (node.entry path) := by
  unfold entered? at hentered
  rw [h.stats_eq hnode] at hentered
  dsimp only at hentered
  split at hentered
  · next hopen =>
    obtain ⟨_, hopen⟩ := Bool.and_eq_true_iff.1 hopen
    rw [Node.path_entry] at hentered
    cases hentered
    exact ⟨rfl, by simpa using hopen⟩
  · cases hentered

/-- A path that is handled is listed if it is entered. -/
theorem IsTree.opened_handled (h : store.IsTree)
    (hsome : (store.get? path).isSome) :
    (store.handled scope pruned path).filterMap Event.opened? =
      (entered? store.stats (prunes scope pruned) path).toList := by
  obtain ⟨node, hnode⟩ := Option.isSome_iff_exists.1 hsome
  unfold handled entered? followed opened
  rw [hnode, h.stats_eq hnode]
  dsimp only
  rw [List.filterMap_cons_none rfl, List.filterMap_cons_none rfl,
    List.filterMap_append]
  cases shows scope (node.entry path) <;>
    cases (node.entry path).isDir <;>
      cases prunes scope pruned (node.entry path) <;> rfl

/-- **What a walk of a store at rest lists**: the origin, and what it enters of
its itinerary. -/
theorem IsTree.opened_eq (h : store.IsTree) (scope : Scope)
    (options : WalkOptions) (note : Notice → σ → σ)
    (horigin : Path.isValid origin) (hsteady : Steady visit pruned)
    (hdepth : store.height < depth) (w : σ) :
    (run (store.still visit note).traced scope options depth origin
        (w, [])).2.2.filterMap Event.opened? =
      origin :: (itinerary store.lists store.stats options
        (prunes scope pruned) depth origin).filterMap
          (entered? store.stats (prunes scope pruned)) := by
  rw [h.filterMap_record (fun _ => rfl) scope options note horigin hsteady
    hdepth w, List.flatMap_congr fun path hmem => h.opened_handled
      (h.isSome_of_mem_itinerary horigin hdepth hmem),
    ← List.filterMap_eq_flatMap_toList]
  rfl

/-! ## What is shut off -/

/-- **Shut off by a visitor that prunes**: beneath a directory that it prunes,
and that lies itself beneath the origin. -/
def ShutOff (store : Store) (pruned : Entry → Bool) (origin path : String) :
    Prop :=
  ∃ dir ∈ Path.ancestors path, Path.isDescendant dir origin ∧
    (store.entryAt? dir).any pruned

instance (store : Store) (pruned : Entry → Bool) (origin : String) :
    DecidablePred (store.ShutOff pruned origin) :=
  fun path => inferInstanceAs (Decidable
    (∃ dir ∈ Path.ancestors path, Path.isDescendant dir origin ∧
      (store.entryAt? dir).any pruned))

/-- **A walk that prunes comes to what a walk that does not comes to**, less
what is shut off. -/
theorem IsTree.met_pruned_iff (h : store.IsTree)
    (horigin : Path.isValid origin) :
    store.Met options pruned origin path ↔
      store.Met options (fun _ => false) origin path ∧
        ¬ store.ShutOff pruned origin path := by
  constructor
  · intro hmet
    refine ⟨⟨hmet.here, hmet.beneath, hmet.kept,
      fun _ _ _ _ _ => Bool.false_ne_true⟩, ?_⟩
    rintro ⟨dir, hmem, hunder, hprunes⟩
    have hpath := h.isValid_of_isSome hmet.here
    have hdir := Path.isValid_of_mem_ancestors hpath hmem
    have hbelow := ((Path.mem_ancestors_iff hpath hdir).1 hmem).2
    unfold entryAt? at hprunes
    cases hnode : store.get? dir with
    | none =>
      rw [hnode] at hprunes
      exact Bool.false_ne_true hprunes
    | some node =>
      rw [hnode] at hprunes
      exact hmet.entered dir node hnode hbelow hunder hprunes
  · rintro ⟨hmet, hopen⟩
    refine ⟨hmet.here, hmet.beneath, hmet.kept,
      fun mid node hnode hbelow hunder hprunes => hopen ?_⟩
    refine ⟨mid, (Path.mem_ancestors_iff (h.isValid_of_isSome hmet.here)
      (h.isValid hnode)).2 ⟨Path.ne_top_of_isDescendant horigin hunder,
        hbelow⟩, hunder, ?_⟩
    rw [entryAt?, hnode]
    exact hprunes

/-- **What is shown to a visitor that prunes** is what is shown to one that goes
on, in the same order, less what is shut off. -/
theorem IsTree.shown_pruned (h : store.IsTree) (horigin : Path.isValid origin)
    (hdepth : store.height ≤ depth) :
    store.shown .everything options pruned depth origin =
      (store.shown .everything options (fun _ => false) depth origin).filter
        fun entry => ¬ store.ShutOff pruned origin entry.path :=
  h.shown_filter horigin hdepth (fun path =>
    ¬ store.ShutOff pruned origin path) fun _ => h.met_pruned_iff horigin

/-- **A pruned directory is not listed**, and nothing beneath it is asked
about. -/
theorem IsTree.quiet_of_pruned (h : store.IsTree) (options : WalkOptions)
    (note : Notice → σ → σ) (horigin : Path.isValid origin)
    (hsteady : Steady visit pruned) (hdepth : store.height < depth) (w : σ)
    {entry : Entry} (hunder : Path.isDescendant dir origin)
    (htold : store.stat .live dir = .ok entry) (hprunes : pruned entry) :
    let log := (run (store.still visit note).traced .everything options depth
      origin (w, [])).2.2
    dir ∉ log.filterMap Event.opened? ∧
      ∀ path ∈ log.filterMap Event.asked?, ¬ Path.isDescendant path dir := by
  intro log
  obtain ⟨node, hnode, rfl⟩ :=
    stat_eq_ok (Path.ne_top_of_isDescendant horigin hunder) htold
  have hdir := h.isValid hnode
  constructor
  · rw [h.opened_eq .everything options note horigin hsteady hdepth w]
    intro hmem
    obtain rfl | hentered := List.mem_cons.1 hmem
    · exact Path.not_isDescendant_self horigin hunder
    · obtain ⟨path, hpath, hentered⟩ := List.mem_filterMap.1 hentered
      have hmet := (h.mem_itinerary_iff horigin (by omega)).1 hpath
      obtain ⟨other, hother⟩ := Option.isSome_iff_exists.1 hmet.here
      obtain ⟨rfl, hopen⟩ := h.of_entered? hother hentered
      rw [hnode] at hother
      cases hother
      exact hopen hprunes
  · rw [h.asked_eq .everything options note horigin hsteady hdepth w]
    intro path hpath hbelow
    have hmet := (h.mem_itinerary_iff horigin (by omega)).1 hpath
    exact hmet.entered dir node hnode hbelow hunder hprunes

/-- **Pruning spares what is beneath the pruned directories**, and nothing else.
Of what a walk shows to a visitor that goes on, a visitor that prunes is shown,
in the same order, what is not shut off. A pruned directory beneath the origin
is not listed, and the store is asked of nothing beneath it. -/
theorem pruned_walk (goes prune : Entry → σ → Except Failure Verdict × σ)
    (note : Notice → σ → σ) (hstore : store.Reachable)
    (horigin : Path.isValid origin) (options : WalkOptions)
    (hgoes : ∀ entry w, (goes entry w).1 = .ok .proceed)
    (hprune : ∀ entry w, (prune entry w).1 =
      .ok (if entry.isDir && pruned entry then .prune else .proceed))
    (hdepth : store.height < depth) (w again : σ) :
    ∃ entries,
      Shows (store.still goes note) .everything options depth origin w
        entries ∧
      Shows (store.still prune note) .everything options depth origin again
        (entries.filter fun entry =>
          ¬ store.ShutOff pruned origin entry.path) ∧
      let log := (run (store.still prune note).traced .everything options
        depth origin (again, [])).2.2
      ∀ dir entry, Path.isDescendant dir origin →
        store.stat .live dir = .ok entry → pruned entry →
          (∀ answer, .listed dir answer ∉ log) ∧
            ∀ path answer, Path.isDescendant path dir →
              .told path answer ∉ log := by
  have h := hstore.isTree
  refine ⟨_, h.shows_shown .everything options note horigin
    (Steady.of_proceed hgoes) hdepth w, ?_, ?_⟩
  · rw [← h.shown_pruned horigin (Nat.le_of_lt hdepth)]
    exact h.shows_shown .everything options note horigin hprune hdepth again
  · intro log dir entry hunder htold hprunes
    obtain ⟨hlisted, hasked⟩ := h.quiet_of_pruned options note horigin hprune
      hdepth again hunder htold hprunes
    refine ⟨fun answer hmem => hlisted ?_, fun path answer hbelow hmem => ?_⟩
    · exact List.mem_filterMap.2 ⟨_, hmem, rfl⟩
    · exact hasked path (List.mem_filterMap.2 ⟨_, hmem, rfl⟩) hbelow

/-- A walk of the shelf with a hint. It leaves out a directory, with what is in
it, and a file that comes before the hint as a string. -/
theorem shown_shelf : shelf.shown .everything
    (WalkOptions.all.startAfter "/a/d") (fun _ => false) 5 "/" =
      [⟨"/a", .dir, some 0⟩, ⟨"/a/x", .file 1, some 0⟩,
        ⟨"/ab", .file 1, some 0⟩, ⟨"/b", .dir, some 0⟩,
        ⟨"/b/c", .dir, some 0⟩, ⟨"/b/c/x", .dir, some 0⟩,
        ⟨"/b/c/x/z", .file 1, some 0⟩] := by
  have htop : listed shelf.lists "/" = ["/a", "/a-b", "/ab", "/b"] :=
    (listed_eq rfl).trans (by decide +kernel)
  have hfirst : listed shelf.lists "/a" = ["/a/d", "/a/x"] :=
    (listed_eq rfl).trans (by decide +kernel)
  have hsecond : listed shelf.lists "/b" = ["/b/c"] :=
    (listed_eq rfl).trans (by decide +kernel)
  have hthird : listed shelf.lists "/b/c" = ["/b/c/x"] :=
    (listed_eq rfl).trans (by decide +kernel)
  have hfourth : listed shelf.lists "/b/c/x" = ["/b/c/x/z"] :=
    (listed_eq rfl).trans (by decide +kernel)
  have hskips : ∀ path ∈ ["/a-b", "/a/d"],
      (WalkOptions.all.startAfter "/a/d").skips path := by
    decide +kernel
  have hkeeps : ∀ path ∈
      ["/a", "/a/x", "/ab", "/b", "/b/c", "/b/c/x", "/b/c/x/z"],
      (WalkOptions.all.startAfter "/a/d").skips path = false := by
    decide +kernel
  have hdirs : ∀ path ∈ ["/a", "/b", "/b/c", "/b/c/x"],
      entered? shelf.stats (prunes .everything fun _ => false) path =
        some path := by
    decide +kernel
  have hfiles : ∀ path ∈ ["/a/x", "/ab", "/b/c/x/z"],
      entered? shelf.stats (prunes .everything fun _ => false) path = none := by
    decide +kernel
  have hline : itinerary shelf.lists shelf.stats
      (WalkOptions.all.startAfter "/a/d") (prunes .everything fun _ => false)
      5 "/" = ["/a", "/a/x", "/ab", "/b", "/b/c", "/b/c/x", "/b/c/x/z"] := by
    simp [itinerary, htop, hfirst, hsecond, hthird, hfourth, hskips, hkeeps,
      hdirs, hfiles]
  unfold shown
  rw [hline]
  decide +kernel

/-- A visitor that prunes and keeps nothing. -/
def pruner (pruned : Entry → Bool) (entry : Entry) (_ : Unit) :
    Except Failure Verdict × Unit :=
  (.ok (answer pruned entry), ())

/-- The entries named `b` or `c`. On the shelf one of them lies in the other. -/
def nestedPair (entry : Entry) : Bool :=
  entry.name == "b" || entry.name == "c"

/-- **Two pruned directories, one in the other**, on a walk with a hint. The
outer one is shown and not listed, and what is in it is spared. -/
theorem pruned_walk_shelf :
    Shows (shelf.still (pruner nestedPair) fun _ w => w) .everything
        (WalkOptions.all.startAfter "/a/d") 5 "/" ()
        [⟨"/a", .dir, some 0⟩, ⟨"/a/x", .file 1, some 0⟩,
          ⟨"/ab", .file 1, some 0⟩, ⟨"/b", .dir, some 0⟩] ∧
      ∀ answer, .listed "/b" answer ∉ (run
        (shelf.still (pruner nestedPair) fun _ w => w).traced .everything
        (WalkOptions.all.startAfter "/a/d") 5 "/" ((), [])).2.2 := by
  have hstore : shelf.Reachable := ⟨_, rfl⟩
  have horigin : Path.isValid "/" := rfl
  have hdepth : shelf.height < 5 := by decide +kernel
  obtain ⟨entries, hplain, hpruned, hspared⟩ := pruned_walk
    (fun _ w => (.ok .proceed, w)) (pruner nestedPair) (fun _ w => w) hstore
    horigin (WalkOptions.all.startAfter "/a/d") (fun _ _ => rfl)
    (fun _ _ => rfl) hdepth () ()
  have hentries := hplain.unique (shown_shelf ▸ hstore.isTree.shows_shown
    .everything (WalkOptions.all.startAfter "/a/d") (fun _ w => w) horigin
    (Steady.of_proceed fun _ _ => rfl) hdepth ())
  have hkept : entries.filter
      (fun entry => ¬ shelf.ShutOff nestedPair "/" entry.path) =
      [⟨"/a", .dir, some 0⟩, ⟨"/a/x", .file 1, some 0⟩,
        ⟨"/ab", .file 1, some 0⟩, ⟨"/b", .dir, some 0⟩] := by
    rw [hentries]
    decide +kernel
  refine ⟨hkept ▸ hpruned, ?_⟩
  exact (hspared "/b" ⟨"/b", .dir, some 0⟩ (by decide) (by decide +kernel)
    (by decide)).1

end Store
end PathStore
