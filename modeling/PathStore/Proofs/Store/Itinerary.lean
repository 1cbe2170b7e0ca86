import PathStore.Proofs.Path.Preorder
import PathStore.Proofs.Store.Changes
import PathStore.Proofs.Walk.Line
import Mathlib.Data.List.MinMax
import Mathlib.Order.Nat
import Mathlib.Data.List.Sort

/-!
# What a walk of a tree comes to

The paths a walk of a store at rest handles are given by recursion on
levels, `Walk.itinerary`. Where the store is a tree they have a description
without one, `Store.Met`: something is there, it lies beneath the origin,
no path on the way is left out by the hint, and no directory on the way is
pruned. `Store.IsTree.mem_itinerary_iff` says that these paths are met, and
`Store.IsTree.itinerary_pairwise` that they are met in the order of the
walk.

The two together determine the list, so two walks of a tree are compared by what
they meet and nothing else.
-/

namespace PathStore

/-- **What a store tells of a node.** -/
def Node.entry (path : String) : Node → Entry
  | file content time => (Entry.file path content.size).withModTime time
  | dir time => (Entry.dir path).withModTime time

@[simp] theorem Node.path_entry (path : String) (node : Node) :
    (node.entry path).path = path := by
  cases node <;> rfl

@[simp] theorem Node.isDir_entry (path : String) (node : Node) :
    (node.entry path).isDir = !node.isFile := by
  cases node <;> rfl

namespace Store

variable {store : Store} {options : WalkOptions} {pruned : Entry → Bool}
  {origin path dir : String} {depth : Nat}

/-- What a directory lists under a context that is live. -/
def lists (store : Store) (dir : String) : Except Failure (List String) :=
  store.list .live dir

/-- What is told of a path under a context that is live. -/
def stats (store : Store) (path : String) : Except Failure Entry :=
  store.stat .live path

/-- The length of the longest path. -/
def height (store : Store) : Nat :=
  (store.paths.map fun path => (Path.segments path).length).foldr max 0

/-- **What a walk from an origin comes to**, if it is to leave out what
`options` skips and what is beneath the directories that `pruned` names. -/
structure Met (store : Store) (options : WalkOptions) (pruned : Entry → Bool)
    (origin path : String) : Prop where
  here : (store.get? path).isSome
  beneath : Path.isDescendant path origin
  /-- Nothing on the way is left out, the path itself included. -/
  kept : ∀ mid, (store.get? mid).isSome → Path.Within path mid →
    Path.isDescendant mid origin → ¬ options.skips mid
  /-- Every directory on the way is entered. -/
  entered : ∀ mid node, store.get? mid = some node →
    Path.isDescendant path mid → Path.isDescendant mid origin →
      ¬ pruned (node.entry mid)

/-! ## What is listed and told -/

theorem length_le_height (h : (store.get? path).isSome) :
    (Path.segments path).length ≤ store.height :=
  List.le_max_of_le (List.mem_map_of_mem ((store.mem_paths path).2 h))
    (Nat.le_refl _)

theorem lists_eq (hdir : Path.isValid dir) : store.lists dir =
    .ok (store.paths.filter fun key => Path.parent? key == some dir) := by
  unfold lists list
  rw [permit_ok hdir]

/-- What has been listed are the children of a well-formed path. -/
theorem list_eq_ok {status : Status} {paths : List String}
    (h : store.list status dir = .ok paths) : Path.isValid dir ∧
      paths = store.paths.filter fun key => Path.parent? key == some dir := by
  unfold list at h
  split at h
  · cases h
  · next hpermit =>
    exact ⟨((permit_eq_ok_iff status dir driver).1 hpermit).2,
      (Except.ok.inj h).symm⟩

/-- What has been told is the node that is there. -/
theorem stat_eq_ok {status : Status} {entry : Entry} (hne : path ≠ "/")
    (h : store.stat status path = .ok entry) :
    ∃ node, store.get? path = some node ∧ entry = node.entry path := by
  unfold stat at h
  split at h
  · cases h
  · rw [if_neg hne] at h
    cases hnode : store.get? path with
    | none =>
      rw [hnode] at h
      cases h
    | some node =>
      rw [hnode] at h
      refine ⟨node, rfl, ?_⟩
      cases node <;> exact (Except.ok.inj h).symm

/-- **A node is told as it is.** -/
theorem IsTree.stats_eq (h : store.IsTree) {node : Node}
    (hnode : store.get? path = some node) :
    store.stats path = .ok (node.entry path) := by
  obtain ⟨hpath, hne, _⟩ := h path node hnode
  unfold stats stat
  rw [permit_ok hpath, if_neg hne, hnode]
  cases node <;> rfl

/-- **The children of a directory are listed in order.** Sorting them
changes nothing. -/
theorem listed_eq (hdir : Path.isValid dir) : Walk.listed store.lists dir =
    store.paths.filter fun key => Path.parent? key == some dir := by
  unfold Walk.listed
  rw [lists_eq hdir]
  refine List.mergeSort_of_pairwise ?_
  refine (store.paths_sorted.imp fun hlt => ?_).filter _
  exact decide_eq_true (String.lt_asymm hlt)

theorem mem_listed_iff (hdir : Path.isValid dir) :
    path ∈ Walk.listed store.lists dir ↔
      (store.get? path).isSome ∧ Path.parent? path = some dir := by
  rw [listed_eq hdir, List.mem_filter, mem_paths, beq_iff_eq]

theorem listed_pairwise (hdir : Path.isValid dir) :
    (Walk.listed store.lists dir).Pairwise (· < ·) := by
  rw [listed_eq hdir]
  exact store.paths_sorted.filter _

/-- **A directory that is not pruned is entered**, and nothing else is. -/
theorem IsTree.elim_entered? (h : store.IsTree) {node : Node}
    (hnode : store.get? path = some node) (line : String → List String) :
    (Walk.entered? store.stats pruned path).elim [] line =
      if !node.isFile && !pruned (node.entry path) then line path else [] := by
  unfold Walk.entered?
  rw [h.stats_eq hnode]
  show (if (node.entry path).isDir && !pruned (node.entry path) then
    some (node.entry path).path else none).elim [] line = _
  rw [Node.isDir_entry, Node.path_entry]
  split <;> rfl

/-! ## What is met -/

/-- **What a walk meets lies at or beneath a child that it enters.** -/
theorem IsTree.exists_child_of_met (h : store.IsTree)
    (horigin : Path.isValid origin)
    (hmet : store.Met options pruned origin path) :
    ∃ child node, store.get? child = some node ∧
      Path.parent? child = some origin ∧ ¬ options.skips child ∧
      (path = child ∨ (¬ pruned (node.entry child) ∧
        store.Met options pruned child path)) := by
  have hpath := h.isValid_of_isSome hmet.here
  obtain ⟨child, hchild, hparent, hin⟩ :=
    Path.exists_child hpath horigin hmet.beneath
  have hbelow := Path.isDescendant_of_parent? hchild hparent
  obtain ⟨node, hnode⟩ := Option.isSome_iff_exists.1
    (h.isSome_of_within hmet.here hchild
      (Path.ne_top_of_isDescendant horigin hbelow) hin)
  have hhere := Option.isSome_of_eq_some hnode
  refine ⟨child, node, hnode, hparent, hmet.kept child hhere hin hbelow, ?_⟩
  refine hin.imp_right fun hstrict => ?_
  -- what is beneath the child is beneath the origin
  have hunder : ∀ {mid other}, store.get? mid = some other →
      Path.isDescendant mid child → Path.isDescendant mid origin :=
    fun hother hunder => Path.Within.isDescendant (h.isValid hother) hchild
      horigin (.inr hunder) hbelow
  refine ⟨hmet.entered child node hnode hstrict hbelow, hmet.here, hstrict,
    fun mid hmid hup hmidChild => ?_, fun mid other hother hup hmidChild => ?_⟩
  · obtain ⟨other, hother⟩ := Option.isSome_iff_exists.1 hmid
    exact hmet.kept mid hmid hup (hunder hother hmidChild)
  · exact hmet.entered mid other hother hup (hunder hother hmidChild)

/-- **A walk meets the children of its origin** that are not left out. -/
theorem IsTree.met_of_parent? (h : store.IsTree)
    (horigin : Path.isValid origin) {node : Node}
    (hnode : store.get? path = some node)
    (hparent : Path.parent? path = some origin)
    (hskip : ¬ options.skips path) :
    store.Met options pruned origin path := by
  have hpath := h.isValid hnode
  -- what is above a child is above its parent
  have habove : ∀ {mid other}, store.get? mid = some other →
      Path.isDescendant path mid → ¬ Path.isDescendant mid origin := by
    intro mid other hother hup hunder
    have hmid := h.isValid hother
    exact (Path.within_child hpath horigin hpath hmid hparent
      (.refl path) (.inr hup) hunder).not_isDescendant hmid hpath hup
  refine ⟨Option.isSome_of_eq_some hnode,
    Path.isDescendant_of_parent? hpath hparent,
    fun mid hmid hup hunder => ?_,
    fun mid other hother hup hunder => absurd hunder (habove hother hup)⟩
  obtain ⟨other, hother⟩ := Option.isSome_iff_exists.1 hmid
  obtain rfl | hstrict := hup
  · exact hskip
  · exact absurd hunder (habove hother hstrict)

/-- **A walk meets what a walk from a child that it enters meets.** -/
theorem IsTree.met_of_met_child (h : store.IsTree)
    (horigin : Path.isValid origin) {child : String} {node : Node}
    (hnode : store.get? child = some node)
    (hparent : Path.parent? child = some origin)
    (hskip : ¬ options.skips child) (hopen : ¬ pruned (node.entry child))
    (hmet : store.Met options pruned child path) :
    store.Met options pruned origin path := by
  have hchild := h.isValid hnode
  have hpath := h.isValid_of_isSome hmet.here
  have hmid : ∀ {mid other}, store.get? mid = some other →
      Path.Within path mid → Path.isDescendant mid origin →
        mid = child ∨ Path.isDescendant mid child :=
    fun hother hup hunder => Path.within_child hpath horigin hchild
      (h.isValid hother) hparent (.inr hmet.beneath) hup hunder
  refine ⟨hmet.here, Path.Within.isDescendant hpath hchild horigin
      (.inr hmet.beneath) (Path.isDescendant_of_parent? hchild hparent),
    fun mid hsome hup hunder => ?_, fun mid other hother hup hunder => ?_⟩
  · obtain ⟨other, hother⟩ := Option.isSome_iff_exists.1 hsome
    obtain rfl | hstrict := hmid hother hup hunder
    · exact hskip
    · exact hmet.kept mid hsome hup hstrict
  · obtain rfl | hstrict := hmid hother (.inr hup) hunder
    · rw [Option.some.inj (hother.symm.trans hnode)]
      exact hopen
    · exact hmet.entered mid other hother hup hstrict

/-- What is met lies deeper than the origin, and no deeper than any
path. -/
theorem IsTree.lt_height_of_met (h : store.IsTree)
    (horigin : Path.isValid origin)
    (hmet : store.Met options pruned origin path) :
    (Path.segments origin).length < store.height := by
  obtain ⟨hbegins, hne⟩ := (Path.isDescendant_iff
    (h.isValid_of_isSome hmet.here) horigin).1 hmet.beneath
  have hle := length_le_height hmet.here
  have hlt := hbegins.length_le.lt_of_ne fun heq =>
    hne (hbegins.eq_of_length heq)
  omega

/-- What something is met beneath is a directory. -/
theorem IsTree.isFile_of_met (h : store.IsTree) {node : Node}
    (hnode : store.get? dir = some node)
    (hmet : store.Met options pruned dir path) : node.isFile = false := by
  cases node with
  | dir time => rfl
  | file content time =>
    obtain ⟨hvalid, hne, _⟩ := h dir _ hnode
    have hnone := h.get?_eq_none_of_isDescendant hvalid hne
      (fun _ hdir => Node.noConfusion
        (Option.some.inj (hnode.symm.trans hdir))) hmet.beneath
    exact absurd hnone (Option.isSome_iff_ne_none.1 hmet.here)

/-- **The itinerary of a walk is what the walk comes to**, if it may open
enough levels. By induction on these. -/
theorem IsTree.mem_itinerary_iff (h : store.IsTree)
    (horigin : Path.isValid origin)
    (hdepth : store.height ≤ (Path.segments origin).length + depth) :
    path ∈ Walk.itinerary store.lists store.stats options pruned depth origin ↔
      store.Met options pruned origin path := by
  induction depth generalizing origin with
  | zero =>
    refine iff_of_false List.not_mem_nil fun hmet => ?_
    exact absurd (h.lt_height_of_met horigin hmet) (Nat.not_lt.2 hdepth)
  | succ depth ih =>
    -- a child is deeper by the level that it takes
    have hbelow : ∀ {child node}, store.get? child = some node →
        Path.parent? child = some origin →
          store.height ≤ (Path.segments child).length + depth := by
      intro child node hnode hparent
      have hlength :=
        Path.length_segments_of_parent? (h.isValid hnode) hparent
      omega
    rw [Walk.itinerary, List.mem_flatMap]
    constructor
    · rintro ⟨child, hmem, hpath⟩
      obtain ⟨hlisted, hskip⟩ := List.mem_filter.1 hmem
      rw [Bool.not_eq_true', Bool.eq_false_iff] at hskip
      obtain ⟨hsome, hparent⟩ := (mem_listed_iff horigin).1 hlisted
      obtain ⟨node, hnode⟩ := Option.isSome_iff_exists.1 hsome
      obtain rfl | hrest := List.mem_cons.1 hpath
      · exact h.met_of_parent? horigin hnode hparent hskip
      · rw [h.elim_entered? hnode] at hrest
        split at hrest
        · next hopen =>
          obtain ⟨_, hopen⟩ := Bool.and_eq_true_iff.1 hopen
          exact h.met_of_met_child horigin hnode hparent hskip
            (by simpa using hopen)
            ((ih (h.isValid hnode) (hbelow hnode hparent)).1 hrest)
        · cases hrest
    · intro hmet
      obtain ⟨child, node, hnode, hparent, hskip, hpath⟩ :=
        h.exists_child_of_met horigin hmet
      refine ⟨child, List.mem_filter.2 ⟨(mem_listed_iff horigin).2
        ⟨Option.isSome_of_eq_some hnode, hparent⟩, by simpa using hskip⟩,
        List.mem_cons.2 ?_⟩
      refine hpath.imp_right fun hbeyond => ?_
      obtain ⟨hopen, hmet⟩ := hbeyond
      have hdir := h.isFile_of_met hnode hmet
      rw [h.elim_entered? hnode, if_pos (by simpa [hdir] using hopen)]
      exact (ih (h.isValid hnode) (hbelow hnode hparent)).2 hmet

/-- What is on an itinerary lies beneath the origin, whatever the number
of levels. -/
theorem IsTree.isDescendant_of_mem_itinerary (h : store.IsTree)
    (horigin : Path.isValid origin)
    (hmem : path ∈
      Walk.itinerary store.lists store.stats options pruned depth origin) :
    Path.isValid path ∧ Path.isDescendant path origin := by
  induction depth generalizing origin with
  | zero => cases hmem
  | succ depth ih =>
    rw [Walk.itinerary, List.mem_flatMap] at hmem
    obtain ⟨child, hchild, hmem⟩ := hmem
    obtain ⟨hsome, hparent⟩ :=
      (mem_listed_iff horigin).1 (List.mem_of_mem_filter hchild)
    obtain ⟨node, hnode⟩ := Option.isSome_iff_exists.1 hsome
    have hvalid := h.isValid hnode
    have hbelow := Path.isDescendant_of_parent? hvalid hparent
    obtain rfl | hrest := List.mem_cons.1 hmem
    · exact ⟨hvalid, hbelow⟩
    · rw [h.elim_entered? hnode] at hrest
      split at hrest
      · obtain ⟨hpath, hunder⟩ := ih hvalid hrest
        exact ⟨hpath, Path.Within.isDescendant hpath hvalid horigin
          (.inr hunder) hbelow⟩
      · cases hrest

/-- **An itinerary is in the order of the walk.** -/
theorem IsTree.itinerary_pairwise (h : store.IsTree)
    (horigin : Path.isValid origin) :
    (Walk.itinerary store.lists store.stats options pruned depth origin).Pairwise
      Path.Before := by
  induction depth generalizing origin with
  | zero => exact .nil
  | succ depth ih =>
    rw [Walk.itinerary, List.pairwise_flatMap]
    -- a child and what it is entered for
    have hbranch : ∀ child ∈ (Walk.listed store.lists origin).filter
        fun path => !options.skips path,
        Path.isValid child ∧ Path.parent? child = some origin ∧
          (∀ path ∈ (Walk.entered? store.stats pruned child).elim []
              (Walk.itinerary store.lists store.stats options pruned depth),
            Path.isValid path ∧ Path.isDescendant path child) ∧
          ((Walk.entered? store.stats pruned child).elim []
            (Walk.itinerary store.lists store.stats options pruned
              depth)).Pairwise Path.Before := by
      intro child hmem
      obtain ⟨hsome, hparent⟩ :=
        (mem_listed_iff horigin).1 (List.mem_of_mem_filter hmem)
      obtain ⟨node, hnode⟩ := Option.isSome_iff_exists.1 hsome
      have hchild := h.isValid hnode
      rw [h.elim_entered? hnode]
      split
      · exact ⟨hchild, hparent,
          fun path => h.isDescendant_of_mem_itinerary hchild, ih hchild⟩
      · exact ⟨hchild, hparent, fun _ hpath => absurd hpath List.not_mem_nil,
          List.Pairwise.nil⟩
    refine ⟨fun child hmem => ?_, ?_⟩
    · obtain ⟨hchild, _, hunder, hpairwise⟩ := hbranch child hmem
      refine List.pairwise_cons.2 ⟨fun path hpath => ?_, hpairwise⟩
      obtain ⟨hvalid, hbelow⟩ := hunder path hpath
      exact Path.before_of_isDescendant hvalid hchild hbelow
    · refine ((listed_pairwise horigin).filter _).imp_of_mem ?_
      intro first second hfirst hsecond hlt path hpath other hother
      obtain ⟨hone, hparent, hunder, _⟩ := hbranch first hfirst
      obtain ⟨htwo, hsame, hbeside, _⟩ := hbranch second hsecond
      have hin : Path.isValid path ∧ Path.Within path first := by
        obtain rfl | hrest := List.mem_cons.1 hpath
        · exact ⟨hone, .refl path⟩
        · exact (hunder path hrest).imp_right .inr
      have hon : Path.isValid other ∧ Path.Within other second := by
        obtain rfl | hrest := List.mem_cons.1 hother
        · exact ⟨htwo, .refl other⟩
        · exact (hbeside other hrest).imp_right .inr
      exact ((Path.turnsBefore_of_siblings hone htwo hparent hsame
        hlt).of_within hin.1 hon.1 hone htwo hin.2 hon.2).before

end Store
end PathStore
