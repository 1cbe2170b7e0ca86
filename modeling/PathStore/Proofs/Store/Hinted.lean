import PathStore.Proofs.Store.Resume

/-!
# What a hint lets through

A hint is asked about every child a walk comes to, level by level, and a
directory that is left out takes all beneath it along. What becomes of a path
is therefore decided by everything on the way to it, and by nothing else:
`Walk.Passes` holds of a path if neither it nor any directory between the
origin and it is left out.

A walk with a hint is the walk without one, less the paths that do not pass,
and it asks the store about those that do and no others
(`Store.hinted_walk`). The hint may be any string. It need not name anything,
and it may lie above the origin, beside it or beneath it.
-/

namespace PathStore

/-- **What a hint lets through** on a walk from an origin: the paths on whose
way everything beneath the origin, the path itself included, comes after the
hint or is a directory the hint lies in. -/
def Walk.Passes (origin hint path : String) : Prop :=
  ∀ mid ∈ path :: Path.ancestors path, Path.isDescendant mid origin →
    hint < mid ∨ Path.isDescendant hint mid

instance (origin hint : String) : DecidablePred (Walk.Passes origin hint) :=
  fun path => inferInstanceAs (Decidable
    (∀ mid ∈ path :: Path.ancestors path, Path.isDescendant mid origin →
      hint < mid ∨ Path.isDescendant hint mid))

namespace Store

open Walk

variable {σ : Type u} {store : Store} {scope : Scope} {pruned : Entry → Bool}
  {origin path hint : String} {depth : Nat}
  {visit : Entry → σ → Except Failure Verdict × σ}

/-- **A walk with a hint comes to what a walk without one comes to**, if the
hint lets it through. -/
theorem IsTree.met_hinted_iff (h : store.IsTree) (hhint : hint ≠ "")
    (horigin : Path.isValid origin) :
    store.Met (WalkOptions.all.startAfter hint) pruned origin path ↔
      store.Met .all pruned origin path ∧ Passes origin hint path := by
  have hkept := not_skips_startAfter_iff hhint
  -- the way to a path is the path and its ancestors
  have hway : (store.get? path).isSome → ∀ mid, Path.isDescendant mid origin →
      ((store.get? mid).isSome ∧ Path.Within path mid ↔
        mid ∈ path :: Path.ancestors path) := by
    intro hhere mid hunder
    have hpath := h.isValid_of_isSome hhere
    have hne := Path.ne_top_of_isDescendant horigin hunder
    rw [List.mem_cons]
    constructor
    · rintro ⟨hmid, rfl | hbelow⟩
      · exact .inl rfl
      · exact .inr ((Path.mem_ancestors_iff hpath
          (h.isValid_of_isSome hmid)).2 ⟨hne, hbelow⟩)
    · rintro (rfl | hmem)
      · exact ⟨hhere, .refl mid⟩
      · have hmid := Path.isValid_of_mem_ancestors hpath hmem
        have hin : Path.Within path mid :=
          .inr ((Path.mem_ancestors_iff hpath hmid).1 hmem).2
        exact ⟨h.isSome_of_within hhere hmid hne hin, hin⟩
  constructor
  · intro hmet
    refine ⟨⟨hmet.here, hmet.beneath, fun _ _ _ _ => Bool.false_ne_true,
      hmet.entered⟩, fun mid hmem hunder => ?_⟩
    obtain ⟨hmid, hin⟩ := (hway hmet.here mid hunder).2 hmem
    exact (hkept mid).1 (hmet.kept mid hmid hin hunder)
  · rintro ⟨hmet, hpasses⟩
    refine ⟨hmet.here, hmet.beneath, fun mid hmid hin hunder => ?_,
      hmet.entered⟩
    have hmem := (hway hmet.here mid hunder).1 ⟨hmid, hin⟩
    exact (hkept mid).2 (hpasses mid hmem hunder)

/-- **What is shown with a hint** is what is shown without one, in the same
order, as far as the hint lets it through. -/
theorem IsTree.shown_hinted (h : store.IsTree) (hhint : hint ≠ "")
    (horigin : Path.isValid origin) (hdepth : store.height ≤ depth) :
    store.shown scope (WalkOptions.all.startAfter hint) pruned depth origin =
      (store.shown scope .all pruned depth origin).filter
        fun entry => Passes origin hint entry.path :=
  h.shown_filter horigin hdepth (Passes origin hint) fun _ =>
    h.met_hinted_iff hhint horigin

/-! ## What is asked about -/

theorem asked_handled (hsome : (store.get? path).isSome) :
    (store.handled scope pruned path).filterMap Event.asked? = [path] := by
  obtain ⟨node, hnode⟩ := Option.isSome_iff_exists.1 hsome
  have hfollowed : (store.followed scope pruned (node.entry path)).filterMap
      Event.asked? = [] := by
    unfold followed
    split <;> rfl
  have htold : Event.asked? (.told path (.ok (node.entry path))) = some path :=
    rfl
  unfold handled
  rw [hnode]
  dsimp only
  rw [List.filterMap_cons_none rfl, List.filterMap_cons_some htold,
    List.filterMap_append, hfollowed, List.append_nil]
  split <;> rfl

/-- **What a walk of a store at rest asks about**: its itinerary. -/
theorem IsTree.asked_eq (h : store.IsTree) (scope : Scope)
    (options : WalkOptions) (note : Notice → σ → σ)
    (horigin : Path.isValid origin) (hsteady : Steady visit pruned)
    (hdepth : store.height < depth) (w : σ) :
    (run (store.still visit note).traced scope options depth origin
        (w, [])).2.2.filterMap Event.asked? =
      itinerary store.lists store.stats options (prunes scope pruned) depth
        origin := by
  rw [h.filterMap_record (fun _ => rfl) scope options note horigin hsteady
    hdepth w, List.flatMap_congr fun path hmem => asked_handled
      (h.isSome_of_mem_itinerary horigin hdepth hmem), List.flatMap_singleton']
  rfl

/-- **A walk with a hint is the walk without one, less what the hint leaves
out.** Of what is shown without a hint it shows, in the same order, what the
hint lets through; and the paths it asks the store about, each once and in
the order of the walk, are the nodes beneath the origin that the hint lets
through. -/
theorem hinted_walk (visit : Entry → σ → Except Failure Verdict × σ)
    (note : Notice → σ → σ) (hstore : store.Reachable)
    (horigin : Path.isValid origin) (hhint : hint ≠ "")
    (hvisit : ∀ entry w, (visit entry w).1 = .ok .proceed)
    (hdepth : store.height < depth) (scope : Scope) (w again : σ) :
    ∃ entries,
      Shows (store.still visit note) scope .all depth origin w entries ∧
        Shows (store.still visit note) scope
          (WalkOptions.all.startAfter hint) depth origin again
          (entries.filter fun entry => Passes origin hint entry.path) ∧
        ∃ paths, (run (store.still visit note).traced scope
            (WalkOptions.all.startAfter hint) depth origin
            (again, [])).2.2.filterMap Event.asked? = paths ∧
          paths.Pairwise Path.Before ∧
          ∀ path, path ∈ paths ↔ (store.get? path).isSome ∧
            Path.isDescendant path origin ∧ Passes origin hint path := by
  have h := hstore.isTree
  have hsteady := Steady.of_proceed hvisit
  refine ⟨_, h.shows_shown scope .all note horigin hsteady hdepth w, ?_, _,
    h.asked_eq scope _ note horigin hsteady hdepth again,
    h.itinerary_pairwise horigin, fun path => ?_⟩
  · rw [← h.shown_hinted hhint horigin (Nat.le_of_lt hdepth)]
    exact h.shows_shown scope _ note horigin hsteady hdepth again
  · rw [h.mem_itinerary_iff horigin (by omega), h.met_hinted_iff hhint horigin,
      prunes_none, met_all_iff, and_assoc]

/-- **A hint that names nothing.** As a string `/a-a` comes after `/a`, so the
directory is left out, and with it a file that comes after the hint. -/
theorem hinted_walk_twigs :
    twigs.get? "/a-a" = none ∧ "/a-a" < "/a/x" ∧
      ShowsTwigs (WalkOptions.all.startAfter "/a-a")
        [⟨"/a-b", .file 2, some 0⟩, ⟨"/b", .file 0, some 0⟩] := by
  have hnone : twigs.get? "/a-a" = none := by decide +kernel
  have hafter : "/a-a" < "/a/x" := by decide +kernel
  have hstore : twigs.Reachable := ⟨_, rfl⟩
  have horigin : Path.isValid "/" := rfl
  have hhint : "/a-a" ≠ "" := by decide
  have hdepth : twigs.height < 3 := by decide +kernel
  obtain ⟨entries, hplain, hhinted, _⟩ := hinted_walk
    (fun _ w => (.ok .proceed, w)) (fun _ w => w) hstore horigin hhint
    (fun _ _ => rfl) hdepth .filesOnly () ()
  have hentries : entries = [⟨"/a/x", .file 1, some 0⟩,
      ⟨"/a-b", .file 2, some 0⟩, ⟨"/b", .file 0, some 0⟩] :=
    hplain.unique (shown_twigs ▸ showsTwigs_shown .all)
  have hkept : entries.filter (fun entry => Passes "/" "/a-a" entry.path) =
      [⟨"/a-b", .file 2, some 0⟩, ⟨"/b", .file 0, some 0⟩] := by
    rw [hentries]
    decide +kernel
  exact ⟨hnone, hafter, hkept ▸ hhinted⟩

end Store
end PathStore
