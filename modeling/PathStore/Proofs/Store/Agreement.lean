import PathStore.Proofs.Store.Outcome

/-!
# Three questions about one path

What is at a path can be asked in three ways: for what is told of it, for what
it lists, and for its content. The first and the last look at the node at the
path. A listing does not. It goes through all paths of the store and takes those
that have the path for their parent, whatever is at the path itself.

That the answers fit together is therefore a law about the stores a program can
hold, and rests on their being trees. A path that is listed is one of which
something is told, and it is listed by one path only, which is a directory
(`Store.list_agrees`). So nothing is listed by a file, and nothing by a path
where nothing is.

## The top

The top has no node. It is told as a directory all the same, and it lists what
is at the first level. But to be read it is looked up, and nothing is found
(`Store.top_read_as_missing`). Everywhere else what is told as a file is read,
what is told as a directory is refused as one, and what is not there is missing
to both (`Store.read_agrees`).
-/

namespace PathStore
namespace Store

variable {store : Store} {path dir : String} {kind : Kind}

/-- **What is told of a path** under a context that is live. -/
def Tells (store : Store) (path : String) (kind : Kind) : Prop :=
  ∃ entry, store.stat .live path = .ok entry ∧ entry.path = path ∧
    entry.kind = kind

/-- **Listed by a path** under a context that is live. -/
def Names (store : Store) (dir path : String) : Prop :=
  ∃ children, store.list .live dir = .ok children ∧ path ∈ children

/-- One thing is told of a path. -/
theorem Tells.unique {other : Kind} (h : store.Tells path kind)
    (hother : store.Tells path other) : kind = other := by
  obtain ⟨entry, hentry, _, rfl⟩ := h
  obtain ⟨again, hagain, _, rfl⟩ := hother
  rw [hentry] at hagain
  cases hagain
  rfl

/-- **The top and every directory are told as directories.** -/
theorem IsTree.tells_dir (h : store.IsTree)
    (hdir : path = "/" ∨ store.HasDir path) : store.Tells path .dir := by
  obtain ⟨entry, hentry, hpath, hisDir⟩ := h.exists_stat_of_dir hdir
  exact ⟨entry, hentry, hpath, Entry.kind_eq_dir_iff.2 hisDir⟩

/-! ## Listings -/

/-- **What a path lists** are the nodes whose parent it is. -/
theorem IsTree.names_iff (h : store.IsTree) : store.Names dir path ↔
    (store.get? path).isSome ∧ Path.parent? path = some dir := by
  constructor
  · rintro ⟨children, hlist, hmem⟩
    obtain ⟨_, rfl⟩ := list_eq_ok hlist
    obtain ⟨hpath, hparent⟩ := List.mem_filter.1 hmem
    exact ⟨(store.mem_paths path).1 hpath, beq_iff_eq.1 hparent⟩
  · rintro ⟨hsome, hparent⟩
    have hdir := Path.isValid_of_parent? (h.isValid_of_isSome hsome) hparent
    exact ⟨_, lists_eq hdir, List.mem_filter.2
      ⟨(store.mem_paths path).2 hsome, beq_iff_eq.2 hparent⟩⟩

/-- **What lists anything is a directory.** -/
theorem IsTree.tells_dir_of_names (h : store.IsTree)
    (hnames : store.Names dir path) : store.Tells dir .dir := by
  obtain ⟨hsome, hparent⟩ := h.names_iff.1 hnames
  obtain ⟨node, hnode⟩ := Option.isSome_iff_exists.1 hsome
  obtain ⟨_, _, found, hfound, hdir⟩ := h path node hnode
  rw [hparent] at hfound
  cases hfound
  exact h.tells_dir hdir

/-- **Something is told of what is listed**, and of nothing else but the
top. -/
theorem IsTree.names_iff_stat (h : store.IsTree) : store.Names dir path ↔
    Path.isValid path ∧ path ≠ "/" ∧ Path.parent? path = some dir ∧
      ∃ entry, store.stat .live path = .ok entry := by
  rw [h.names_iff]
  constructor
  · rintro ⟨hsome, hparent⟩
    obtain ⟨node, hnode⟩ := Option.isSome_iff_exists.1 hsome
    obtain ⟨hpath, hne, _⟩ := h path node hnode
    exact ⟨hpath, hne, hparent, _, h.stats_eq hnode⟩
  · rintro ⟨_, hne, hparent, entry, hentry⟩
    obtain ⟨node, hnode, _⟩ := stat_eq_ok hne hentry
    exact ⟨Option.isSome_of_eq_some hnode, hparent⟩

/-- **What is there is listed by one path**, and that is a directory. -/
theorem IsTree.exists_names (h : store.IsTree) (hne : path ≠ "/")
    (htold : ∃ entry, store.stat .live path = .ok entry) :
    ∃ dir, store.Tells dir .dir ∧ ∀ other, store.Names other path ↔
      other = dir := by
  obtain ⟨entry, hentry⟩ := htold
  obtain ⟨node, hnode, _⟩ := stat_eq_ok hne hentry
  obtain ⟨_, _, dir, hparent, hdir⟩ := h path node hnode
  refine ⟨dir, h.tells_dir hdir, fun other => ?_⟩
  rw [h.names_iff, hparent, Option.some.injEq,
    and_iff_right (Option.isSome_of_eq_some hnode)]
  exact eq_comm

/-- **Listings agree with what is told.** A path lists, in order and without
repetition, those paths beneath it by one segment of which something is told.
What lists anything is told as a directory, so that what is missing and what is
a file list nothing; and whatever something is told of, the top apart, is listed
by one path, which is a directory. -/
theorem list_agrees (h : store.Reachable) (hpath : Path.isValid path) :
    ∃ children, store.list .live path = .ok children ∧
      children.Pairwise (· < ·) ∧
      (∀ child, child ∈ children ↔ Path.isValid child ∧ child ≠ "/" ∧
        Path.parent? child = some path ∧
          ∃ entry, store.stat .live child = .ok entry) ∧
      (children ≠ [] → store.Tells path .dir) ∧
      ((∃ cause, store.stat .live path = .error cause) ∨
        (∃ size, store.Tells path (.file size)) → children = []) ∧
      (path ≠ "/" → (∃ entry, store.stat .live path = .ok entry) →
        ∃ dir, store.Tells dir .dir ∧ ∀ other, store.Names other path ↔
          other = dir) := by
  have htree := h.isTree
  obtain ⟨children, hlist⟩ : ∃ children,
      store.list .live path = .ok children := ⟨_, lists_eq hpath⟩
  have hnames : ∀ child, child ∈ children ↔ store.Names path child := by
    refine fun child => ⟨fun hmem => ⟨children, hlist, hmem⟩, ?_⟩
    rintro ⟨others, hothers, hmem⟩
    rw [hlist] at hothers
    cases hothers
    exact hmem
  have hdir : children ≠ [] → store.Tells path .dir := by
    intro hne
    obtain ⟨child, hmem⟩ := List.exists_mem_of_ne_nil children hne
    exact htree.tells_dir_of_names ((hnames child).1 hmem)
  refine ⟨children, hlist, ?_, fun child => (hnames child).trans
    htree.names_iff_stat, hdir, fun hno => ?_, htree.exists_names⟩
  · rw [(list_eq_ok hlist).2]
    exact store.paths_sorted.filter _
  · by_contra hne
    obtain ⟨cause, hcause⟩ | ⟨size, hfile⟩ := hno
    · obtain ⟨entry, hentry, _⟩ := hdir hne
      rw [hcause] at hentry
      cases hentry
    · exact Kind.noConfusion (hfile.unique (hdir hne))

/-- On the shelf a directory lists what is in it, and a file beside it, whose
name goes on from its own, lists nothing. -/
theorem list_agrees_shelf :
    shelf.Tells "/a" .dir ∧ shelf.list .live "/a" = .ok ["/a/d", "/a/x"] ∧
      shelf.Tells "/a-b" (.file 1) ∧ shelf.list .live "/a-b" = .ok [] := by
  have hstore : shelf.Reachable := ⟨_, rfl⟩
  have hlist : shelf.list .live "/a" = .ok ["/a/d", "/a/x"] := by
    decide +kernel
  have hfile : shelf.Tells "/a-b" (.file 1) :=
    ⟨⟨"/a-b", .file 1, some 0⟩, by decide +kernel, rfl, rfl⟩
  obtain ⟨inner, hinner, _, _, hdir, _⟩ :=
    list_agrees hstore (by decide : Path.isValid "/a")
  obtain ⟨none, hnone, _, _, _, hempty, _⟩ :=
    list_agrees hstore (by decide : Path.isValid "/a-b")
  rw [hlist] at hinner
  cases hinner
  exact ⟨hdir (by decide), hlist, hfile, hempty (.inr ⟨1, hfile⟩) ▸ hnone⟩

/-! ## Content -/

/-- **What is told of a path and what is read there**, by what is at it. -/
inductive Replies (store : Store) (path : String) :
    Except Failure Entry → Except Failure ByteArray → Prop where
  | top (top : path = "/") :
    Replies store path (.ok (Entry.dir path)) (.error (.notFound path driver))
  | vacant (below : path ≠ "/") (vacant : store.get? path = none) :
    Replies store path (.error (.notFound path driver))
      (.error (.notFound path driver))
  | file {content : ByteArray} {time : Time} (below : path ≠ "/")
      (node : store.get? path = some (.file content time)) :
    Replies store path
      (.ok ((Entry.file path content.size).withModTime time)) (.ok content)
  | dir {time : Time} (below : path ≠ "/")
      (node : store.get? path = some (.dir time)) :
    Replies store path (.ok ((Entry.dir path).withModTime time))
      (.error (.backend (.isDirectory driver path)))

/-- **A store answers so**, of every well-formed path. The top has no node to be
read. -/
theorem IsTree.replies (h : store.IsTree) (hpath : Path.isValid path) :
    store.Replies path (store.stat .live path) (store.read .live path) := by
  unfold stat read
  rw [permit_ok hpath]
  by_cases htop : path = "/"
  · have hvacant : store.get? path = none := by
      cases hnode : store.get? path with
      | none => rfl
      | some node => exact absurd htop (h path node hnode).2.1
    rw [if_pos htop, hvacant]
    exact .top htop
  rw [if_neg htop]
  cases hnode : store.get? path with
  | none => exact .vacant htop hnode
  | some node =>
    cases node with
    | file content time => exact .file htop hnode
    | dir time => exact .dir htop hnode

/-- **Reading agrees with what is told**, but for the top. What is told as a file
is what can be read, and has the size of the content. Both miss what is not
there, and what is told as a directory is refused as one. The top is told as a
directory, and reading misses it. -/
theorem read_agrees (h : store.Reachable) (hpath : Path.isValid path) :
    (∀ size, (∃ content, store.read .live path = .ok content ∧
      content.size = size) ↔ store.Tells path (.file size)) ∧
    ((∃ cause, store.read .live path = .error cause ∧ cause.isNotFound) ↔
      path = "/" ∨
        ∃ cause, store.stat .live path = .error cause ∧ cause.isNotFound) ∧
    ((∃ fault, store.read .live path = .error (.backend fault)) ↔
      path ≠ "/" ∧ store.Tells path .dir) ∧
    (path = "/" → store.Tells path .dir) := by
  have hreplies := h.isTree.replies hpath
  unfold Tells
  generalize store.stat .live path = told at hreplies ⊢
  generalize store.read .live path = got at hreplies ⊢
  cases hreplies with
  | top top => simp [top, Entry.dir, Failure.isNotFound]
  | vacant below vacant => simp [below, Failure.isNotFound]
  | file below node =>
    simp [below, Entry.file, Entry.withModTime, Failure.isNotFound]
  | dir below node =>
    simp [below, Entry.dir, Entry.withModTime, Failure.isNotFound]

/-- A directory on the shelf is refused as one. -/
theorem read_agrees_shelf :
    shelf.Tells "/b/c" .dir ∧
      ∃ fault, shelf.read .live "/b/c" = .error (.backend fault) := by
  have hstore : shelf.Reachable := ⟨_, rfl⟩
  have htold : shelf.Tells "/b/c" .dir :=
    ⟨⟨"/b/c", .dir, some 0⟩, by decide +kernel, rfl, rfl⟩
  obtain ⟨_, _, hrefused, _⟩ :=
    read_agrees hstore (by decide : Path.isValid "/b/c")
  exact ⟨htold, hrefused.2 ⟨by decide, htold⟩⟩

/-- **The top is read as if it were missing**, though it is told as a
directory. -/
theorem top_read_as_missing :
    empty.Reachable ∧ Path.isValid "/" ∧ empty.Tells "/" .dir ∧
      empty.read .live "/" = .error (.notFound "/" driver) := by
  refine ⟨reachable_empty, rfl, ⟨Entry.dir "/", rfl, rfl, rfl⟩, ?_⟩
  decide +kernel

end Store
end PathStore
