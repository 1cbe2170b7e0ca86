import PathStore.Proofs.Store.Itinerary
import PathStore.Proofs.Store.Tree
import PathStore.Proofs.Walk.Ends

/-!
# Walks of a store at rest

Where nothing changes a store while it is walked, the context stays live
and the visitor's answers are settled beforehand, everything about a walk
is settled: that it succeeds, and the whole record of what it asked
(`Store.IsTree.run_still`). The record is the itinerary, with what is done
about each path written out (`Store.handled`).

The visitor may prune directories, as a predicate tells, and it may keep a
state and change it, as long as that does not change its answers.
-/

namespace PathStore
namespace Walk

/-- Whether a walk shows an entry to its visitor. -/
def shows (scope : Scope) (entry : Entry) : Bool :=
  match scope with
  | .everything => true
  | .filesOnly => !entry.isDir

/-- The directories that are pruned in a scope. Those that are not shown
are entered. -/
def prunes (scope : Scope) (pruned : Entry → Bool) (entry : Entry) : Bool :=
  match scope with
  | .everything => pruned entry
  | .filesOnly => false

/-- **The answer to an entry** of a visitor that prunes directories. -/
def answer (pruned : Entry → Bool) (entry : Entry) : Verdict :=
  if entry.isDir && pruned entry then .prune else .proceed

/-- **A visitor whose answers are settled.** -/
def Steady {σ : Type u} (visit : Entry → σ → Except Failure Verdict × σ)
    (pruned : Entry → Bool) : Prop :=
  ∀ entry w, (visit entry w).1 = .ok (answer pruned entry)

end Walk

namespace Store

open Walk

variable {σ : Type u} {store : Store} {options : WalkOptions}
  {scope : Scope} {pruned : Entry → Bool} {origin path dir : String}
  {depth : Nat} {visit : Entry → σ → Except Failure Verdict × σ}
  {note : Notice → σ → σ}

/-- **The surroundings of a walk of a store at rest**, under a context that
stays live. -/
def still (store : Store) (visit : Entry → σ → Except Failure Verdict × σ)
    (note : Notice → σ → σ) : Host σ :=
  host (fun _ => store) (fun _ => .live) visit note

/-- What is asked and noted when a walk comes to a directory. -/
def opened (store : Store) (dir : String) : List Event :=
  [.checked (.ok ()), .listed dir (store.lists dir)]

/-- What follows when an entry has been shown, or passed over. -/
def followed (store : Store) (scope : Scope) (pruned : Entry → Bool)
    (entry : Entry) : List Event :=
  match entry.isDir, prunes scope pruned entry with
  | true, true => [.noted (.prunedDirectory entry.path)]
  | true, false => store.opened entry.path
  | false, _ => []

/-- **All that is asked and noted about one path.** -/
def handled (store : Store) (scope : Scope) (pruned : Entry → Bool)
    (path : String) : List Event :=
  match store.get? path with
  | none => []
  | some node =>
    .checked (.ok ()) :: .told path (.ok (node.entry path)) ::
      ((if shows scope (node.entry path) then
          [.visited (node.entry path) (.ok (answer pruned (node.entry path)))]
        else []) ++ store.followed scope pruned (node.entry path))

/-! ## One path -/

section Asked

variable (w : σ) (log : List Event)

theorem still_check : (store.still visit note).traced.check (w, log) =
    (.ok (), w, log ++ [.checked (.ok ())]) := rfl

theorem still_list (dir : String) :
    (store.still visit note).traced.list dir (w, log) =
      (store.lists dir, w, log ++ [.listed dir (store.lists dir)]) := rfl

theorem still_stat (path : String) :
    (store.still visit note).traced.stat path (w, log) =
      (store.stats path, w, log ++ [.told path (store.stats path)]) := rfl

end Asked

theorem isAtRest_still : (store.still visit note).traced.IsAtRest
    store.lists store.stats where
  list _ _ := rfl
  stat _ _ := rfl

/-- A visitor with settled answers settles the directories. -/
theorem settlesDirs_still (store : Store) (scope : Scope)
    (note : Notice → σ → σ) (hsteady : Steady visit pruned) :
    SettlesDirs (store.still visit note).traced scope (prunes scope pruned) := by
  intro entry w hdir
  unfold verdict prunes
  cases scope with
  | filesOnly =>
    rw [hdir]
    rfl
  | everything =>
    show (visit entry w.1).1 = _
    rw [hsteady, answer, hdir, Bool.true_and]

/-- Coming to a directory. -/
theorem arrive_still (hdir : Path.isValid dir) (w : σ) (log : List Event) :
    arrive (store.still visit note).traced dir (w, log) =
      (.finished, w, log ++ store.opened dir) := by
  unfold arrive
  rw [still_check]
  dsimp only
  rw [still_list, opened, lists_eq hdir, List.append_assoc]
  rfl

/-- Showing an entry, or passing it over. -/
theorem verdict_still (store : Store) (scope : Scope)
    (note : Notice → σ → σ) (hsteady : Steady visit pruned) (entry : Entry)
    (w : σ) (log : List Event) :
    ∃ next, verdict (store.still visit note).traced scope entry (w, log) =
      (.ok (answer (prunes scope pruned) entry), next, log ++
        if shows scope entry then
          [.visited entry (.ok (answer pruned entry))] else []) := by
  have hshown : (store.still visit note).traced.visit entry (w, log) =
      (.ok (answer pruned entry), (visit entry w).2,
        log ++ [.visited entry (.ok (answer pruned entry))]) := by
    rw [← hsteady entry w]
    rfl
  cases scope with
  | everything => exact ⟨_, hshown⟩
  | filesOnly =>
    cases hdir : entry.isDir with
    | false =>
      have hsame : answer (prunes .filesOnly pruned) entry =
          answer pruned entry := by
        rw [answer, answer, hdir, Bool.false_and, Bool.false_and]
      refine ⟨(visit entry w).2, ?_⟩
      unfold verdict shows
      rw [hdir, hsame]
      exact hshown
    | true =>
      refine ⟨w, ?_⟩
      unfold verdict shows answer
      rw [hdir, Bool.not_true, if_neg Bool.false_ne_true, List.append_nil]
      rfl

/-- **One path**: it is handled, and its next sibling is due. -/
theorem IsTree.child_still (h : store.IsTree) (scope : Scope)
    (note : Notice → σ → σ) (hsteady : Steady visit pruned)
    (hsome : (store.get? path).isSome) (hskip : ¬ options.skips path) (w : σ)
    (log : List Event) :
    ∃ next, child (store.still visit note).traced scope options
        (arrive (store.still visit note).traced) path (w, log) =
      (.finished, next, log ++ store.handled scope pruned path) := by
  obtain ⟨node, hnode⟩ := Option.isSome_iff_exists.1 hsome
  have htold : Told (store.still visit note).traced options path (w, log)
      (w, log ++ [.checked (.ok ())])
      (w, log ++ [.checked (.ok ())] ++ [.told path (.ok (node.entry path))])
      (.ok (node.entry path)) :=
    ⟨hskip, rfl, by rw [still_stat, h.stats_eq hnode]⟩
  obtain ⟨next, hverdict⟩ := verdict_still store scope note hsteady
    (node.entry path) w
    (log ++ [.checked (.ok ())] ++ [.told path (.ok (node.entry path))])
  have hhandled : store.handled scope pruned path =
      .checked (.ok ()) :: .told path (.ok (node.entry path)) ::
        ((if shows scope (node.entry path) then
            [.visited (node.entry path) (.ok (answer pruned (node.entry path)))]
          else []) ++ store.followed scope pruned (node.entry path)) := by
    rw [handled, hnode]
  rw [hhandled, followed]
  cases hdir : (node.entry path).isDir with
  | false =>
    rw [answer, hdir, Bool.false_and, if_neg Bool.false_ne_true] at hverdict
    refine ⟨next, ?_⟩
    rw [(ChildStep.passed htold hverdict (by simp [hdir])).eq]
    simp
  | true =>
    rw [answer, hdir, Bool.true_and] at hverdict
    cases hprunes : prunes scope pruned (node.entry path) with
    | true =>
      rw [hprunes, if_pos rfl] at hverdict
      refine ⟨(store.still visit note).note (.prunedDirectory path) next, ?_⟩
      rw [(ChildStep.pruned htold hverdict hdir).eq, Host.traced_note,
        Node.path_entry]
      simp
    | false =>
      rw [hprunes, if_neg Bool.false_ne_true] at hverdict
      refine ⟨next, ?_⟩
      rw [(ChildStep.entered htold hverdict hdir).eq, Node.path_entry,
        arrive_still (h.isValid hnode)]
      simp

/-- **A stretch of the line**: one path after another is handled. -/
theorem IsTree.inTurn_still (h : store.IsTree) (scope : Scope)
    (note : Notice → σ → σ) (hsteady : Steady visit pruned)
    {paths : List String} (hpaths : ∀ path ∈ paths,
      (store.get? path).isSome ∧ ¬ options.skips path) (w : σ)
    (log : List Event) :
    ∃ next, inTurn (child (store.still visit note).traced scope options
        (arrive (store.still visit note).traced)) paths (w, log) =
      (.finished, next, log ++ paths.flatMap (store.handled scope pruned)) := by
  induction paths generalizing w log with
  | nil => exact ⟨w, by rw [List.flatMap_nil, List.append_nil, inTurn_nil]⟩
  | cons path rest ih =>
    obtain ⟨hsome, hskip⟩ := hpaths path List.mem_cons_self
    obtain ⟨next, hpath⟩ :=
      h.child_still scope note hsteady hsome hskip w log
    obtain ⟨last, hrest⟩ := ih (fun other hmem =>
      hpaths other (List.mem_cons_of_mem _ hmem)) next _
    refine ⟨last, ?_⟩
    rw [inTurn_cons, hpath, andThen_finished, hrest, List.flatMap_cons,
      List.append_assoc]

/-! ## The whole walk -/

/-- What a path lists is longer than it and no longer than any path. -/
theorem ranks_host {store : σ → Store} {status : σ → Status}
    {law : σ → Prop} {bound : Nat}
    (hlaw : ∀ w, law w → (store w).IsTree ∧ (store w).height ≤ bound) :
    (host store status visit note).Ranks law
      (fun path => (Path.segments path).length) bound := by
  intro dir w paths _ hlist path hpath next entry hnext hstat _
  obtain ⟨hdir, rfl⟩ := list_eq_ok hlist
  have hparent := beq_iff_eq.1 (List.mem_filter.1 hpath).2
  have hne : path ≠ "/" := by
    rintro rfl
    cases hparent
  obtain ⟨node, hnode, rfl⟩ := stat_eq_ok hne hstat
  obtain ⟨htree, hheight⟩ := hlaw next hnext
  have hlength :=
    Path.length_segments_of_parent? (htree.isValid hnode) hparent
  have hle := length_le_height (Option.isSome_of_eq_some hnode)
  rw [Node.path_entry]
  show (Path.segments dir).length < (Path.segments path).length ∧
    (Path.segments path).length ≤ bound
  exact ⟨by omega, hle.trans hheight⟩

/-- **A walk of a store at rest ends**, if it may open more levels than the
longest path has segments. -/
theorem IsTree.level_still_ne_tooDeep (h : store.IsTree)
    (hdepth : store.height < depth) (w : σ × List Event) :
    (level (store.still visit note).traced scope options depth origin w).1 ≠
      .tooDeep := by
  have hkeeps : (store.still visit note).Keeps fun _ => True :=
    ⟨fun _ => trivial, fun _ => trivial, fun _ => trivial, fun _ => trivial,
      fun _ => trivial⟩
  have hranks : (store.still visit note).Ranks (fun _ => True)
      (fun path => (Path.segments path).length) store.height :=
    ranks_host fun _ _ => ⟨h, Nat.le_refl _⟩
  exact (ends_level scope options hkeeps.traced hranks.traced (by omega)
    (by omega) trivial).1

/-- **The record of a walk of a store at rest**, and that the walk
succeeds: the itinerary is handled from its first path to its last. -/
theorem IsTree.run_still (h : store.IsTree) (scope : Scope)
    (options : WalkOptions) (note : Notice → σ → σ)
    (horigin : Path.isValid origin) (hsteady : Steady visit pruned)
    (hdepth : store.height < depth) (w : σ) :
    ∃ next, run (store.still visit note).traced scope options depth origin
        (w, []) =
      (some (.ok ()), next, .noted (.started scope driver origin) ::
        (store.opened origin ++ (itinerary store.lists store.stats options
            (prunes scope pruned) depth origin).flatMap
              (store.handled scope pruned) ++
          [.noted (.finished scope driver origin)])) := by
  have hline := level_eq_line options isAtRest_still
    (settlesDirs_still store scope note hsteady) depth origin
    (note (.started scope driver origin) w,
      [.noted (.started scope driver origin)])
    (h.level_still_ne_tooDeep hdepth _)
  rw [arrive_still horigin, andThen_finished] at hline
  have hpaths : ∀ path ∈ itinerary store.lists store.stats options
      (prunes scope pruned) depth origin,
      (store.get? path).isSome ∧ ¬ options.skips path := by
    intro path hmem
    have hmet := (h.mem_itinerary_iff horigin (by omega)).1 hmem
    exact ⟨hmet.here, hmet.kept path hmet.here (.refl path) hmet.beneath⟩
  obtain ⟨next, hrest⟩ := h.inTurn_still scope note hsteady hpaths
    (note (.started scope driver origin) w)
    ([.noted (.started scope driver origin)] ++ store.opened origin)
  refine ⟨note (.finished scope driver origin) next, ?_⟩
  refine (run_of_finished (store.still visit note).traced
    (hline.trans hrest)).trans ?_
  rw [Host.traced_note, List.append_assoc, List.append_assoc]
  rfl

/-- **What a walk of a store at rest asks of one kind**, notices apart: what it
asks when it comes to the origin, and then what it asks about each path of the
itinerary. -/
theorem IsTree.filterMap_record (h : store.IsTree) {α : Type}
    {pick : Event → Option α} (hpick : ∀ notice, pick (.noted notice) = none)
    (scope : Scope) (options : WalkOptions) (note : Notice → σ → σ)
    (horigin : Path.isValid origin) (hsteady : Steady visit pruned)
    (hdepth : store.height < depth) (w : σ) :
    (run (store.still visit note).traced scope options depth origin
        (w, [])).2.2.filterMap pick =
      (store.opened origin).filterMap pick ++ (itinerary store.lists
        store.stats options (prunes scope pruned) depth origin).flatMap
          fun path => (store.handled scope pruned path).filterMap pick := by
  obtain ⟨next, hrun⟩ :=
    h.run_still scope options note horigin hsteady hdepth w
  rw [hrun]
  show List.filterMap pick (_ :: _) = _
  rw [List.filterMap_cons_none (hpick _), List.filterMap_append,
    List.filterMap_append, List.filterMap_flatMap,
    List.filterMap_cons_none (hpick _), List.filterMap_nil, List.append_nil]

/-- What is on the itinerary is there. -/
theorem IsTree.isSome_of_mem_itinerary (h : store.IsTree)
    (horigin : Path.isValid origin) (hdepth : store.height < depth)
    (hmem : path ∈ itinerary store.lists store.stats options pruned depth
      origin) : (store.get? path).isSome :=
  ((h.mem_itinerary_iff horigin (by omega)).1 hmem).here

end Store
end PathStore
