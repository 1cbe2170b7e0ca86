import PathStore.Proofs.Store.Shown
import PathStore.Proofs.Walk.Hint

/-!
# Taking a walk up again

A walk of the files is taken up again by giving the last file that was
shown as a hint. What has been shown is not shown again, and of what
follows nothing is missed but what byte order cuts off
(`Store.resumed_walk`): the names that go on by `-` or `.` from the name
of a directory the last file lies in. Where no name of the store holds
these two letters, nothing is missed.
-/

namespace PathStore
namespace Store

open Walk

variable {σ : Type u} {store : Store} {origin path hint : String}
  {depth : Nat} {visit : Entry → σ → Except Failure Verdict × σ}
  {note : Notice → σ → σ}

/-- Nothing is beneath a file. -/
theorem IsTree.not_isDescendant_of_file (h : store.IsTree) {entry : Entry}
    (hentry : store.entryAt? entry.path = some entry) (hfile : !entry.isDir)
    (hsome : (store.get? path).isSome) :
    ¬ Path.isDescendant path entry.path := by
  intro hbelow
  obtain ⟨_, node, hnode, heq⟩ := entryAt?_eq_some_iff.1 hentry
  obtain ⟨hvalid, hne, _⟩ := h entry.path node hnode
  have hnone := h.get?_eq_none_of_isDescendant hvalid hne (fun time hdir => ?_)
    hbelow
  · rw [hnone] at hsome
    cases hsome
  · rw [hnode] at hdir
    rw [heq, Node.isDir_entry, Option.some.inj hdir] at hfile
    cases hfile

/-- **What a walk that is taken up again comes to**, among the paths that
the hint is not above and that are not above the hint. -/
theorem IsTree.met_startAfter_iff (h : store.IsTree)
    (horigin : Path.isValid origin) (hsome : (store.get? path).isSome)
    (hin : Path.isDescendant path origin) (hhint : (store.get? hint).isSome)
    (hinHint : Path.isDescendant hint origin)
    (hup : ¬ Path.isDescendant hint path)
    (hdown : ¬ Path.isDescendant path hint) :
    store.Met (WalkOptions.all.startAfter hint) (fun _ => false) origin path ↔
      Path.Before hint path ∧ ¬ cutOff origin hint path := by
  have hpath := h.isValid_of_isSome hsome
  have hvalid := h.isValid_of_isSome hhint
  have hne : hint ≠ "" := by
    rintro rfl
    exact Bool.false_ne_true hvalid
  have hkept := not_skips_startAfter_iff hne
  rw [← kept_iff hpath hvalid horigin hin hinHint hup hdown]
  constructor
  · intro hmet mid hmid hwithin hunder
    have hhere := h.isSome_of_within hsome hmid
      (Path.ne_top_of_isDescendant horigin hunder) hwithin
    exact (hkept mid).1 (hmet.kept mid hhere hwithin hunder)
  · intro hall
    refine ⟨hsome, hin, fun mid hmid hwithin hunder => ?_,
      fun _ _ _ _ _ => Bool.false_ne_true⟩
    exact (hkept mid).2
      (hall mid (h.isValid_of_isSome hmid) hwithin hunder)

/-- **What follows an entry in the order of a walk** comes after it. -/
theorem mem_rest_iff {front rest : List Entry} {hint entry : Entry}
    (h : (front ++ hint :: rest).Pairwise Entry.Before) :
    entry ∈ rest ↔ entry ∈ front ++ hint :: rest ∧ hint.Before entry := by
  obtain ⟨_, hrest, hfront⟩ := List.pairwise_append.1 h
  constructor
  · intro hmem
    exact ⟨List.mem_append_right _ (List.mem_cons_of_mem _ hmem),
      (List.pairwise_cons.1 hrest).1 entry hmem⟩
  · rintro ⟨hmem, hbefore⟩
    obtain hmem | hmem := List.mem_append.1 hmem
    · exact absurd (Path.before_trans hbefore
        (hfront entry hmem hint List.mem_cons_self)) (Path.before_irrefl _)
    · obtain rfl | hmem := List.mem_cons.1 hmem
      · exact absurd hbefore (Path.before_irrefl _)
      · exact hmem

/-- **What is shown behind a hint** is what followed it, in the same order,
without what byte order cuts off. -/
theorem IsTree.shown_startAfter (h : store.IsTree)
    (horigin : Path.isValid origin) (hdepth : store.height ≤ depth)
    {front rest : List Entry} {hint : Entry}
    (hsplit : store.shown .filesOnly .all (fun _ => false) depth origin =
      front ++ hint :: rest) :
    store.shown .filesOnly (WalkOptions.all.startAfter hint.path)
        (fun _ => false) depth origin =
      rest.filter fun entry => !cutOff origin hint.path entry.path := by
  have hordered : (front ++ hint :: rest).Pairwise Entry.Before :=
    hsplit ▸ h.shown_pairwise horigin
  have hmem : ∀ entry, entry ∈ front ++ hint :: rest ↔
      store.entryAt? entry.path = some entry ∧ shows .filesOnly entry ∧
        (store.get? entry.path).isSome ∧
          Path.isDescendant entry.path origin := by
    intro entry
    rw [← hsplit, h.mem_shown_iff horigin hdepth, prunes_none, met_all_iff]
  obtain ⟨hhint, hhintFile, hhintHere, hhintIn⟩ :=
    (hmem hint).1 (List.mem_append_right _ List.mem_cons_self)
  -- neither of two files is above the other
  have hsame : ∀ entry, store.entryAt? entry.path = some entry →
      shows .filesOnly entry → (store.get? entry.path).isSome →
        Path.isDescendant entry.path origin →
          (store.Met (WalkOptions.all.startAfter hint.path) (fun _ => false)
              origin entry.path ↔ Path.Before hint.path entry.path ∧
            ¬ cutOff origin hint.path entry.path) :=
    fun entry hentry hfile hhere hin => h.met_startAfter_iff horigin hhere hin
      hhintHere hhintIn (h.not_isDescendant_of_file hentry hfile hhintHere)
      (h.not_isDescendant_of_file hhint hhintFile hhere)
  refine (h.shown_pairwise horigin).eq_of_mem_iff
    ((List.pairwise_cons.1 (List.pairwise_append.1 hordered).2.1).2.filter _)
    fun entry => ?_
  rw [h.mem_shown_iff horigin hdepth, prunes_none, List.mem_filter,
    mem_rest_iff hordered, hmem, Bool.not_eq_true', Bool.eq_false_iff]
  constructor
  · rintro ⟨hentry, hfile, hmet⟩
    obtain ⟨hbefore, hcut⟩ :=
      (hsame entry hentry hfile hmet.here hmet.beneath).1 hmet
    exact ⟨⟨⟨hentry, hfile, hmet.here, hmet.beneath⟩, hbefore⟩, hcut⟩
  · rintro ⟨⟨⟨hentry, hfile, hhere, hin⟩, hbefore⟩, hcut⟩
    exact ⟨hentry, hfile,
      (hsame entry hentry hfile hhere hin).2 ⟨hbefore, hcut⟩⟩

/-- **Taking a walk of the files up again.** After a hint that the walk has
shown, it shows what followed the hint, in the same order, without what byte
order cuts off. -/
theorem resumed_walk (visit : Entry → σ → Except Failure Verdict × σ)
    (note : Notice → σ → σ) (hstore : store.Reachable)
    (horigin : Path.isValid origin)
    (hvisit : ∀ entry w, (visit entry w).1 = .ok .proceed)
    (hdepth : store.height < depth) (w : σ) :
    ∃ entries, Shows (store.still visit note) .filesOnly .all depth origin w
        entries ∧
      ∀ front hint rest, entries = front ++ hint :: rest → ∀ again,
        Shows (store.still visit note) .filesOnly
          (WalkOptions.all.startAfter hint.path) depth origin again
          (rest.filter fun entry => !cutOff origin hint.path entry.path) := by
  have h := hstore.isTree
  have hsteady := Steady.of_proceed hvisit
  refine ⟨_, h.shows_shown .filesOnly .all note horigin hsteady hdepth w,
    fun front hint rest hsplit again => ?_⟩
  rw [← h.shown_startAfter horigin (Nat.le_of_lt hdepth) hsplit]
  exact h.shows_shown .filesOnly _ note horigin hsteady hdepth again

/-! ## What is missed -/

/-- A walk of the files of the twigs. -/
def ShowsTwigs (options : WalkOptions) (entries : List Entry) : Prop :=
  Shows (twigs.still (fun _ w => (.ok .proceed, w)) fun _ w => w) .filesOnly
    options 3 "/" () entries

theorem showsTwigs_shown (options : WalkOptions) : ShowsTwigs options
    (twigs.shown .filesOnly options (fun _ => false) 3 "/") := by
  have h : twigs.Reachable := ⟨_, rfl⟩
  have hdepth : twigs.height < 3 := by decide +kernel
  exact h.isTree.shows_shown .filesOnly options _ rfl
    (Steady.of_proceed fun _ _ => rfl) hdepth ()

theorem shown_twigs : twigs.shown .filesOnly .all (fun _ => false) 3 "/" =
    [⟨"/a/x", .file 1, some 0⟩, ⟨"/a-b", .file 2, some 0⟩,
      ⟨"/b", .file 0, some 0⟩] := by
  have htop : listed twigs.lists "/" = ["/a", "/a-b", "/b"] :=
    (listed_eq rfl).trans (by decide +kernel)
  have hsub : listed twigs.lists "/a" = ["/a/x"] :=
    (listed_eq rfl).trans (by decide +kernel)
  have hdir : entered? twigs.stats (prunes .filesOnly fun _ => false) "/a" =
      some "/a" := by decide +kernel
  have hfiles : ∀ path ∈ ["/a/x", "/a-b", "/b"],
      entered? twigs.stats (prunes .filesOnly fun _ => false) path = none := by
    decide +kernel
  have hline : itinerary twigs.lists twigs.stats .all
      (prunes .filesOnly fun _ => false) 3 "/" =
        ["/a", "/a/x", "/a-b", "/b"] := by
    simp [itinerary, WalkOptions.skips, WalkOptions.all, htop, hsub, hdir,
      hfiles]
  unfold shown
  rw [hline]
  decide +kernel

theorem shown_twigs_startAfter :
    twigs.shown .filesOnly (WalkOptions.all.startAfter "/a/x")
      (fun _ => false) 3 "/" = [⟨"/b", .file 0, some 0⟩] := by
  have htree : twigs.IsTree := Reachable.isTree ⟨_, rfl⟩
  have hdepth : twigs.height ≤ 3 := by decide +kernel
  have hsplit : twigs.shown .filesOnly .all (fun _ => false) 3 "/" =
      [] ++ ⟨"/a/x", .file 1, some 0⟩ ::
        [⟨"/a-b", .file 2, some 0⟩, ⟨"/b", .file 0, some 0⟩] := shown_twigs
  refine (htree.shown_startAfter rfl hdepth hsplit).trans ?_
  decide +kernel

/-- **A file that is missed**: after `/a/x` a walk shows `/a-b`, but a walk
that starts after `/a/x` does not. -/
theorem startAfter_misses_file :
    twigs.Reachable ∧
      ShowsTwigs .all [⟨"/a/x", .file 1, some 0⟩, ⟨"/a-b", .file 2, some 0⟩,
        ⟨"/b", .file 0, some 0⟩] ∧
      ShowsTwigs (WalkOptions.all.startAfter "/a/x")
        [⟨"/b", .file 0, some 0⟩] :=
  ⟨⟨_, rfl⟩, shown_twigs ▸ showsTwigs_shown .all,
    shown_twigs_startAfter ▸ showsTwigs_shown _⟩

/-- A walk of the twigs that starts after `/a/x` shows what followed it but
for `/a-b`, which is cut off. -/
theorem resumed_walk_twigs :
    ShowsTwigs (WalkOptions.all.startAfter "/a/x")
      [⟨"/b", .file 0, some 0⟩] := by
  have hstore : twigs.Reachable := ⟨_, rfl⟩
  have horigin : Path.isValid "/" := rfl
  have hdepth : twigs.height < 3 := by decide +kernel
  obtain ⟨entries, hshows, hresumed⟩ := resumed_walk
    (fun _ w => (.ok .proceed, w)) (fun _ w => w) hstore horigin
    (fun _ _ => rfl) hdepth ()
  have hentries : entries = [] ++ ⟨"/a/x", .file 1, some 0⟩ ::
      [⟨"/a-b", .file 2, some 0⟩, ⟨"/b", .file 0, some 0⟩] :=
    hshows.unique (shown_twigs ▸ showsTwigs_shown .all)
  have hkept : List.filter (fun entry : Entry =>
      !cutOff "/" "/a/x" entry.path)
      [⟨"/a-b", .file 2, some 0⟩, ⟨"/b", .file 0, some 0⟩] =
        [⟨"/b", .file 0, some 0⟩] := by
    decide +kernel
  exact hkept ▸ hresumed _ _ _ hentries ()

end Store
end PathStore
