import PathStore.Proofs.Store.AtRest
import PathStore.Proofs.Store.Tree

/-!
# What a walk shows

A visitor learns of a walk what it is shown, and nothing else. Of a store
at rest it is shown what the store tells of the itinerary, as far as the
scope goes (`Store.shown`), and the walk succeeds.

A walk with no hint and a visitor that prunes nothing shows the tree that
is stored: every node beneath the origin, once and in the order of the
walk, with the kind and the size it is stored with
(`Store.walk_shows_tree`). The files alone are those of the same list, and
from the top they are as many as the store counts.
-/

namespace PathStore

/-- The entry that is shown to the visitor, if the event is a visit. -/
def Event.shown? : Event → Option Entry
  | visited entry _ => some entry
  | _ => none

/-- The path the store was asked about, if the event is a stat. -/
def Event.asked? : Event → Option String
  | told path _ => some path
  | _ => none

/-- The directory that was listed, if the event is a listing. -/
def Event.opened? : Event → Option String
  | listed dir _ => some dir
  | _ => none

theorem Event.asked?_eq_some_iff {event : Event} {path : String} :
    event.asked? = some path ↔ ∃ answer, event = .told path answer := by
  cases event <;> simp [Event.asked?]

theorem Event.opened?_eq_some_iff {event : Event} {dir : String} :
    event.opened? = some dir ↔ ∃ answer, event = .listed dir answer := by
  cases event <;> simp [Event.opened?]

/-- **Shown earlier in a walk.** -/
def Entry.Before (entry other : Entry) : Prop :=
  Path.Before entry.path other.path

instance : Std.Irrefl Entry.Before :=
  ⟨fun entry => Path.before_irrefl entry.path⟩

instance : Std.Antisymm Entry.Before :=
  ⟨fun entry _ h hback =>
    absurd (Path.before_trans h hback) (Path.before_irrefl entry.path)⟩

/-- **A walk that succeeds and shows these entries**, in this order. -/
def Walk.Shows {σ : Type u} (host : Host σ) (scope : Scope)
    (options : WalkOptions) (depth : Nat) (origin : String) (w : σ)
    (entries : List Entry) : Prop :=
  ∃ next log, run host.traced scope options depth origin (w, []) =
      (some (.ok ()), next, log) ∧
    log.filterMap Event.shown? = entries

/-- A walk shows one list of entries. -/
theorem Walk.Shows.unique {σ : Type u} {host : Host σ} {scope : Scope}
    {options : WalkOptions} {depth : Nat} {origin : String} {w : σ}
    {entries others : List Entry}
    (h : Shows host scope options depth origin w entries)
    (hothers : Shows host scope options depth origin w others) :
    entries = others := by
  obtain ⟨next, log, hrun, rfl⟩ := h
  obtain ⟨last, record, hagain, rfl⟩ := hothers
  rw [hrun] at hagain
  cases hagain
  rfl

namespace Store

open Walk

variable {σ : Type u} {store : Store} {options : WalkOptions}
  {scope : Scope} {pruned : Entry → Bool} {origin path : String}
  {depth : Nat} {visit : Entry → σ → Except Failure Verdict × σ}

/-- What a store tells of a path, if anything is there. -/
def entryAt? (store : Store) (path : String) : Option Entry :=
  (store.get? path).map (Node.entry path)

theorem entryAt?_eq_some_iff {entry : Entry} :
    store.entryAt? path = some entry ↔
      entry.path = path ∧ ∃ node, store.get? entry.path = some node ∧
        entry = node.entry entry.path := by
  unfold entryAt?
  rw [Option.map_eq_some_iff]
  constructor
  · rintro ⟨node, hnode, rfl⟩
    exact ⟨node.path_entry path, node, by simpa using hnode, by simp⟩
  · rintro ⟨rfl, node, hnode, hentry⟩
    exact ⟨node, hnode, hentry.symm⟩

/-- What a store tells of some paths is told of each of them. -/
theorem mem_filterMap_entryAt?_iff {paths : List String} {entry : Entry} :
    entry ∈ paths.filterMap store.entryAt? ↔
      entry.path ∈ paths ∧ store.entryAt? entry.path = some entry := by
  rw [List.mem_filterMap]
  constructor
  · rintro ⟨path, hpath, hentry⟩
    obtain ⟨rfl, hnode⟩ := entryAt?_eq_some_iff.1 hentry
    exact ⟨hpath, hentry⟩
  · rintro ⟨hpath, hentry⟩
    exact ⟨entry.path, hpath, hentry⟩

/-- What a store tells of paths in the order of a walk is in that order. -/
theorem pairwise_filterMap_entryAt? {paths : List String}
    (h : paths.Pairwise Path.Before) :
    (paths.filterMap store.entryAt?).Pairwise Entry.Before := by
  rw [List.pairwise_filterMap]
  refine h.imp fun hbefore entry hentry other hother => ?_
  unfold Entry.Before
  rw [(entryAt?_eq_some_iff.1 hentry).1, (entryAt?_eq_some_iff.1 hother).1]
  exact hbefore

theorem shown_opened (dir : String) :
    (store.opened dir).filterMap Event.shown? = [] := rfl

theorem shown_handled (path : String) :
    (store.handled scope pruned path).filterMap Event.shown? =
      (store.entryAt? path).toList.filter (shows scope) := by
  have hfollowed : ∀ entry, (store.followed scope pruned entry).filterMap
      Event.shown? = [] := by
    intro entry
    unfold followed
    split <;> rfl
  unfold handled entryAt?
  cases store.get? path with
  | none => rfl
  | some node =>
    dsimp only [Option.map_some, Option.toList_some]
    rw [List.filterMap_cons_none rfl, List.filterMap_cons_none rfl,
      List.filterMap_append, hfollowed, List.append_nil]
    cases hshows : shows scope (node.entry path) <;>
      simp [hshows, Event.shown?]

theorem shown_line (paths : List String) :
    (paths.flatMap (store.handled scope pruned)).filterMap Event.shown? =
      (paths.filterMap store.entryAt?).filter (shows scope) := by
  induction paths with
  | nil => rfl
  | cons path rest ih =>
    rw [List.flatMap_cons, List.filterMap_append, ih, shown_handled,
      List.filterMap_cons, ← List.filter_append]
    cases store.entryAt? path <;> rfl

/-- **What a walk of a store at rest shows**: what the store tells of its
itinerary, as far as the scope goes. -/
def shown (store : Store) (scope : Scope) (options : WalkOptions)
    (pruned : Entry → Bool) (depth : Nat) (origin : String) : List Entry :=
  ((itinerary store.lists store.stats options (prunes scope pruned) depth
    origin).filterMap store.entryAt?).filter (shows scope)

/-- **A walk of a store at rest shows that**, and succeeds. -/
theorem IsTree.shows_shown (h : store.IsTree) (scope : Scope)
    (options : WalkOptions) (note : Notice → σ → σ)
    (horigin : Path.isValid origin) (hsteady : Steady visit pruned)
    (hdepth : store.height < depth) (w : σ) :
    Shows (store.still visit note) scope options depth origin w
      (store.shown scope options pruned depth origin) := by
  obtain ⟨next, hrun⟩ :=
    h.run_still scope options note horigin hsteady hdepth w
  refine ⟨next, _, hrun, ?_⟩
  rw [List.filterMap_cons_none rfl, List.filterMap_append,
    List.filterMap_append, shown_opened, shown_line, List.nil_append]
  exact List.append_nil _

theorem IsTree.shown_pairwise (h : store.IsTree)
    (horigin : Path.isValid origin) :
    (store.shown scope options pruned depth origin).Pairwise Entry.Before :=
  (pairwise_filterMap_entryAt? (h.itinerary_pairwise horigin)).filter _

theorem IsTree.mem_shown_iff (h : store.IsTree)
    (horigin : Path.isValid origin) (hdepth : store.height ≤ depth)
    {entry : Entry} :
    entry ∈ store.shown scope options pruned depth origin ↔
      store.entryAt? entry.path = some entry ∧ shows scope entry ∧
        store.Met options (prunes scope pruned) origin entry.path := by
  unfold shown
  rw [List.mem_filter, mem_filterMap_entryAt?_iff,
    h.mem_itinerary_iff horigin (by omega)]
  exact ⟨fun ⟨⟨hmet, hentry⟩, hshows⟩ => ⟨hentry, hshows, hmet⟩,
    fun ⟨hentry, hshows, hmet⟩ => ⟨⟨hmet, hentry⟩, hshows⟩⟩

/-- **A walk that comes to less** shows what it comes to, in the same order. -/
theorem IsTree.shown_filter (h : store.IsTree) (horigin : Path.isValid origin)
    (hdepth : store.height ≤ depth) {more : WalkOptions}
    {spared : Entry → Bool} (kept : String → Prop) [DecidablePred kept]
    (hmet : ∀ path, store.Met options (prunes scope pruned) origin path ↔
      store.Met more (prunes scope spared) origin path ∧ kept path) :
    store.shown scope options pruned depth origin =
      (store.shown scope more spared depth origin).filter
        fun entry => kept entry.path := by
  refine (h.shown_pairwise horigin).eq_of_mem_iff
    ((h.shown_pairwise horigin).filter _) fun entry => ?_
  rw [List.mem_filter, decide_eq_true_iff, h.mem_shown_iff horigin hdepth,
    h.mem_shown_iff horigin hdepth, hmet, and_assoc, and_assoc]

/-! ## Nothing left out -/

/-- A visitor that always goes on prunes nothing. -/
theorem Steady.of_proceed
    (h : ∀ entry w, (visit entry w).1 = .ok .proceed) :
    Steady visit fun _ => false := by
  intro entry w
  rw [h, answer, Bool.and_false, if_neg Bool.false_ne_true]

theorem prunes_none : prunes scope (fun _ => false) = fun _ => false := by
  cases scope <;> rfl

/-- A walk that leaves nothing out meets every node beneath its origin. -/
theorem met_all_iff : store.Met .all (fun _ => false) origin path ↔
    (store.get? path).isSome ∧ Path.isDescendant path origin := by
  constructor
  · exact fun hmet => ⟨hmet.here, hmet.beneath⟩
  · rintro ⟨hhere, hbeneath⟩
    exact ⟨hhere, hbeneath, fun _ _ _ _ => Bool.false_ne_true,
      fun _ _ _ _ _ => Bool.false_ne_true⟩

/-- **What is shown where nothing is left out**: what is stored beneath the
origin. -/
theorem IsTree.mem_shown_all_iff (h : store.IsTree)
    (horigin : Path.isValid origin) (hdepth : store.height ≤ depth)
    {entry : Entry} :
    entry ∈ store.shown scope .all (fun _ => false) depth origin ↔
      shows scope entry ∧ Path.isDescendant entry.path origin ∧
        ∃ node, store.get? entry.path = some node ∧
          entry = node.entry entry.path := by
  rw [h.mem_shown_iff horigin hdepth, prunes_none, met_all_iff,
    entryAt?_eq_some_iff]
  constructor
  · rintro ⟨⟨_, hnode⟩, hshows, _, hbelow⟩
    exact ⟨hshows, hbelow, hnode⟩
  · rintro ⟨hshows, hbelow, node, hnode, hentry⟩
    exact ⟨⟨rfl, node, hnode, hentry⟩, hshows,
      Option.isSome_of_eq_some hnode, hbelow⟩

/-- **The scope only leaves out**, and more levels than enough show the
same. -/
theorem IsTree.shown_all_eq (h : store.IsTree) (scope : Scope)
    (horigin : Path.isValid origin) (hdepth : store.height ≤ depth) :
    store.shown scope .all (fun _ => false) depth origin =
      (store.shown .everything .all (fun _ => false) store.height
        origin).filter (shows scope) := by
  refine (h.shown_pairwise horigin).eq_of_mem_iff
    ((h.shown_pairwise horigin).filter _) fun entry => ?_
  rw [List.mem_filter, h.mem_shown_all_iff horigin hdepth,
    h.mem_shown_all_iff horigin (Nat.le_refl _)]
  exact ⟨fun ⟨hshows, hnode⟩ => ⟨⟨rfl, hnode⟩, hshows⟩,
    fun ⟨⟨_, hnode⟩, hshows⟩ => ⟨hshows, hnode⟩⟩

/-! ## The number of files -/

theorem values_eq (nodes : Std.ExtTreeMap String Node) :
    nodes.values = nodes.toList.map Prod.snd := by
  have hfold : nodes.values =
      nodes.foldr (fun _ node rest => node :: rest) [] := by
    obtain ⟨⟨inner⟩⟩ := nodes
    induction inner using Quotient.ind
    rfl
  rw [hfold, Std.ExtTreeMap.foldr_eq_foldr_toList]
  induction nodes.toList with
  | nil => rfl
  | cons first rest ih => rw [List.foldr_cons, ih, List.map_cons]

/-- The files are counted by their paths. -/
theorem fileCount_eq (store : Store) : store.fileCount =
    (store.paths.filter fun path =>
      (store.get? path).any Node.isFile).length := by
  unfold fileCount paths get?
  rw [values_eq, ← Std.ExtTreeMap.map_fst_toList_eq_keys,
    ← List.countP_eq_length_filter, List.countP_map, List.countP_map]
  refine List.countP_congr fun pair hpair => ?_
  obtain ⟨path, node⟩ := pair
  have hnode := Std.ExtTreeMap.mem_toList_iff_getElem?_eq_some.1 hpair
  simp [hnode]

/-- The files a store tells of on some paths are the paths of files. -/
theorem length_files (paths : List String) :
    ((paths.filterMap store.entryAt?).filter fun entry => !entry.isDir).length =
      (paths.filter fun path =>
        (store.get? path).any Node.isFile).length := by
  induction paths with
  | nil => rfl
  | cons path rest ih =>
    cases hnode : store.get? path with
    | none =>
      rw [List.filterMap_cons_none (by rw [entryAt?, hnode, Option.map_none]),
        List.filter_cons_of_neg (by simp [hnode]), ih]
    | some node =>
      rw [List.filterMap_cons_some (by rw [entryAt?, hnode, Option.map_some])]
      cases hfile : node.isFile with
      | false =>
        rw [List.filter_cons_of_neg (by simp [hfile]),
          List.filter_cons_of_neg (by simp [hnode, hfile]), ih]
      | true =>
        rw [List.filter_cons_of_pos (by simp [hfile]),
          List.filter_cons_of_pos (by simp [hnode, hfile]),
          List.length_cons, List.length_cons, ih]

/-- **The entries of all nodes, in any order, hold as many files as the
store.** -/
theorem length_files_eq_fileCount {entries : List Entry}
    (hnodup : entries.Nodup)
    (hmem : ∀ entry, entry ∈ entries ↔
      store.entryAt? entry.path = some entry) :
    (entries.filter fun entry => !entry.isDir).length = store.fileCount := by
  have htold : (store.paths.filterMap store.entryAt?).Nodup := by
    refine Std.ExtTreeMap.nodup_keys.filterMap
      fun path other entry hto hfrom => ?_
    rw [← (entryAt?_eq_some_iff.1 hto).1, ← (entryAt?_eq_some_iff.1 hfrom).1]
  have hperm : entries.Perm (store.paths.filterMap store.entryAt?) := by
    refine (List.perm_ext_iff_of_nodup hnodup htold).2 fun entry => ?_
    rw [hmem, mem_filterMap_entryAt?_iff, mem_paths]
    refine (and_iff_right_of_imp fun hentry => ?_).symm
    obtain ⟨_, node, hnode, _⟩ := entryAt?_eq_some_iff.1 hentry
    exact Option.isSome_of_eq_some hnode
  rw [fileCount_eq, ← length_files, (hperm.filter _).length_eq]

/-! ## The tree that is stored -/

/-- **A walk of a store at rest shows the tree that is stored.** -/
theorem walk_shows_tree (visit : Entry → σ → Except Failure Verdict × σ)
    (note : Notice → σ → σ) (hstore : store.Reachable)
    (horigin : Path.isValid origin)
    (hvisit : ∀ entry w, (visit entry w).1 = .ok .proceed) (w : σ) :
    ∃ entries : List Entry, entries.Pairwise Entry.Before ∧
      (∀ entry, entry ∈ entries ↔
        Path.isDescendant entry.path origin ∧
          ∃ node, store.get? entry.path = some node ∧
            entry = node.entry entry.path) ∧
      (∀ depth, store.height < depth →
        Shows (store.still visit note) .everything .all depth origin w
            entries ∧
          Shows (store.still visit note) .filesOnly .all depth origin w
            (entries.filter fun entry => !entry.isDir)) ∧
      (origin = "/" → (entries.filter fun entry => !entry.isDir).length =
        store.fileCount) := by
  have h := hstore.isTree
  have hsteady := Steady.of_proceed hvisit
  have hsorted : (store.shown .everything .all (fun _ => false) store.height
      origin).Pairwise Entry.Before := h.shown_pairwise horigin
  refine ⟨_, hsorted, fun entry => ?_, fun depth hdepth => ⟨?_, ?_⟩, ?_⟩
  · rw [h.mem_shown_all_iff horigin (Nat.le_refl _)]
    exact and_iff_right rfl
  · have hshows := h.shows_shown .everything .all note horigin hsteady hdepth w
    rw [h.shown_all_eq .everything horigin (Nat.le_of_lt hdepth),
      show shows .everything = fun _ => true from rfl, List.filter_true]
      at hshows
    exact hshows
  · have hshows := h.shows_shown .filesOnly .all note horigin hsteady hdepth w
    rw [h.shown_all_eq .filesOnly horigin (Nat.le_of_lt hdepth)] at hshows
    exact hshows
  · rintro rfl
    refine length_files_eq_fileCount hsorted.nodup fun entry => ?_
    rw [h.mem_shown_all_iff horigin (Nat.le_refl _), entryAt?_eq_some_iff]
    refine (and_iff_right rfl).trans (and_congr_left fun hnode => ?_)
    obtain ⟨node, hnode, _⟩ := hnode
    obtain ⟨hpath, hne, _⟩ := h entry.path node hnode
    exact iff_of_true ((Path.isDescendant_top_iff hpath).2 hne) rfl

/-- **A file in a directory, a file beside it** whose name goes on from the
name of the directory, and one file more. -/
def twigs : Store :=
  empty.afterAll [.write .live 0 "/a/x" ⟨#[49]⟩,
    .write .live 0 "/a-b" ⟨#[50, 50]⟩, .write .live 0 "/b" ⟨#[]⟩]

/-- A walk of the files of the twigs shows as many as there are. -/
theorem walk_shows_twigs : ∃ entries,
    Shows (twigs.still (fun _ w => (.ok .proceed, w)) fun _ w => w)
      .filesOnly .all 3 "/" () entries ∧ entries.length = 3 := by
  have hstore : twigs.Reachable := ⟨_, rfl⟩
  have horigin : Path.isValid "/" := rfl
  have hdepth : twigs.height < 3 := by decide +kernel
  have hfileCount : twigs.fileCount = 3 := by decide +kernel
  obtain ⟨entries, _, _, hshows, hcount⟩ := walk_shows_tree
    (fun _ w => (.ok .proceed, w)) (fun _ w => w) hstore horigin
    (fun _ _ => rfl) ()
  exact ⟨_, (hshows 3 hdepth).2, by rw [hcount rfl, hfileCount]⟩

end Store
end PathStore
