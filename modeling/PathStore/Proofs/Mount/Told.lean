import PathStore.Proofs.Mount.Listing
import PathStore.Proofs.Store.Itinerary

/-!
# What a mount tells

A store **mirrors** a mount if it holds what the mount holds, on a disk that is
tidy beneath the root (`Mount.Mirrored`). Then the two tell the same of every
path at which anything is held: what is there, what it lists if it can be read,
and what is in it, the ages aside (`Mount.Mirrored.stat_eq`, `list_eq`,
`read_eq`).

This takes more than that the right nodes are on the disk. A disk finds its
way from directory to directory, and a store that is a tree says that they are
there: by induction on the path, each of its places can be reached from that of
its parent (`Mount.Mirrored.passable`). And a directory lists names, which must
be those of the children and no others, in the order of paths
(`Mount.Mirrored.words_eq`).
-/

namespace PathStore

/-- **An entry, whatever its age.** -/
def Entry.ageless (entry : Entry) : Entry := { entry with modTime := none }

/-- **Where anything can be found**: a path that is held, or the top of a store
that holds any. -/
def Store.Present (store : Store) (path : String) : Prop :=
  (store.get? path).isSome ∨ path = "/" ∧ ∃ other, (store.get? other).isSome

namespace Mount

variable {mount : Mount} {scanner : Scanner} {disk : Disk} {store : Store}
  {path dir child : String} {time : Time}

/-- **A store that mirrors a mount**: a tree that holds the same, while the
disk is tidy. -/
structure Mirrored (mount : Mount) (disk : Disk) (store : Store) : Prop where
  tidy : mount.Tidy disk
  tree : store.IsTree
  same : store.holdings = mount.holdings disk

/-- The location of a child is in that of its parent. -/
theorem location_concat {word : String}
    (hsegments : Path.segments child = Path.segments dir ++ [word]) :
    mount.location child = mount.location dir ++ [Text.encode word] := by
  unfold location Text.encodeAll
  rw [hsegments, List.map_append, ← List.append_assoc]
  rfl

namespace Mirrored

variable (h : mount.Mirrored disk store)

include h

/-! ## What is on the disk -/

/-- Only plain paths are held. -/
theorem isPlain (hsome : (store.get? path).isSome) :
    Path.IsPlain path ∧ path ≠ "/" := by
  by_contra hnot
  have hnone : store.holdings path = none := by
    rw [h.same]
    exact holdings_of_not hnot
  rw [Store.holdings_eq_none_iff.1 hnone] at hsome
  cases hsome

theorem isPlain_of_present (hpath : store.Present path) :
    Path.IsPlain path := by
  obtain hsome | ⟨rfl, _⟩ := hpath
  · exact (h.isPlain hsome).1
  · exact Path.isPlain_top

/-- **What is held is on the disk**, at the location of its path. -/
theorem node_eq {node : Node} (hnode : store.get? path = some node) :
    (disk.node? (mount.location path)).map DiskNode.holding =
      some node.holding := by
  obtain ⟨hplain, hne⟩ := h.isPlain (Option.isSome_of_eq_some hnode)
  rw [← holdings_of_isPlain hplain hne, ← h.same, Store.holdings_eq, hnode]
  rfl

theorem isSome_iff (hplain : Path.IsPlain path) (hne : path ≠ "/") :
    (store.get? path).isSome ↔
      (disk.node? (mount.location path)).isSome := by
  have hsame := congrFun h.same path
  rw [holdings_of_isPlain hplain hne, Store.holdings_eq] at hsame
  have hsome := congrArg Option.isSome hsame
  rw [Option.isSome_map, Option.isSome_map] at hsome
  rw [hsome]

/-- A directory is a directory there. -/
theorem dirAt_of_dir (hnode : store.get? path = some (.dir time)) :
    disk.DirAt (mount.location path) := by
  refine dirAt_of_holdings ?_
  rw [← h.same, Store.holdings_eq, hnode]
  rfl

/-- A file is a file there, with the same content. -/
theorem file_of_file {content : ByteArray}
    (hnode : store.get? path = some (.file content time)) :
    ∃ later, disk.node? (mount.location path) =
      some (.file content later) := by
  obtain ⟨found, hfound, hholding⟩ := Option.map_eq_some_iff.1 (h.node_eq hnode)
  cases found with
  | file other later =>
    cases hholding
    exact ⟨later, hfound⟩
  | dir later => cases hholding
  | link target later => exact absurd hfound (h.tidy.free _ _ _)

/-- **Where anything is held the root can be reached.** -/
theorem reached (hsome : (store.get? path).isSome) :
    disk.Passable [] (mount.rootPieces ++ [.slash]) ∧
      0 ∉ Place.toDiskPath mount.root := by
  obtain ⟨hplain, hne⟩ := h.isPlain hsome
  exact h.tidy.reached _ (beneath_location mount hplain.1 hne)
    ((h.isSome_iff hplain hne).1 hsome)

theorem reached_of_present (hpath : store.Present path) :
    disk.Passable [] (mount.rootPieces ++ [.slash]) ∧
      0 ∉ Place.toDiskPath mount.root := by
  obtain hsome | ⟨_, _, hsome⟩ := hpath
  · exact h.reached hsome
  · exact h.reached hsome

/-- The top is a directory. -/
theorem dirAt_top (hpath : store.Present "/") :
    disk.DirAt (mount.location "/") := by
  rw [location_top]
  exact (Disk.Passable.slash_iff.1 (h.reached_of_present hpath).1).2

/-- **The directory a path is in** is on the disk. -/
theorem dirAt_parent (hsome : (store.get? path).isSome)
    (hparent : Path.parent? path = some dir) :
    disk.DirAt (mount.location dir) ∧ store.Present dir := by
  obtain ⟨node, hnode⟩ := Option.isSome_iff_exists.1 hsome
  obtain ⟨_, _, other, hother, hdir⟩ := h.tree path node hnode
  obtain rfl : dir = other := Option.some.inj (hparent.symm.trans hother)
  obtain rfl | ⟨time, hdir⟩ := hdir
  · have htop : store.Present "/" := .inr ⟨rfl, path, hsome⟩
    exact ⟨h.dirAt_top htop, htop⟩
  · exact ⟨h.dirAt_of_dir hdir, .inl (Option.isSome_of_eq_some hdir)⟩

/-! ## The names in a directory -/

/-- **A name in a directory** is the last segment of something held. -/
theorem exists_child_of_mem_names {name : Name}
    (hname : name ∈ disk.names (mount.location dir)) :
    ∃ child word, (store.get? child).isSome ∧ name = Text.encode word ∧
      Path.segments child = Path.segments dir ++ [word] := by
  have hsome := Disk.mem_names.1 hname
  have hbeneath : mount.Beneath (mount.location dir ++ [name]) := by
    unfold location
    rw [List.append_assoc]
    refine ⟨List.prefix_append _ _, fun heq => ?_⟩
    have hlength := congrArg List.length heq
    rw [List.length_append, List.length_append, List.length_singleton]
      at hlength
    omega
  obtain ⟨child, hplain, hne, heq⟩ := h.tidy.named _ hbeneath hsome
  rw [heq, ← h.isSome_iff hplain hne] at hsome
  unfold location at heq
  rw [List.append_assoc, List.append_cancel_left_eq, eq_comm, Text.encodeAll,
    List.map_eq_append_iff] at heq
  obtain ⟨front, last, hsegments, hfront, hlast⟩ := heq
  obtain ⟨word, rfl, hword⟩ := List.map_eq_singleton_iff.1 hlast
  obtain rfl : front = Path.segments dir :=
    List.map_injective_iff.2 (fun _ _ => Text.encode_inj.1) hfront
  exact ⟨child, word, hsome, hword.symm, hsegments⟩

/-- **It is spelled**, so it can be addressed. -/
theorem spelled_of_mem_names {name : Name}
    (hname : name ∈ disk.names (mount.location dir)) :
    name.IsEntry ∧ name.IsSpelled := by
  obtain ⟨child, word, hsome, rfl, hsegments⟩ :=
    h.exists_child_of_mem_names hname
  have hplain := (h.isPlain hsome).1
  have hmem : word ∈ Path.segments child := by
    rw [hsegments]
    exact List.mem_append_right _ List.mem_cons_self
  have hword : Path.IsWord word :=
    Path.isWord_iff.2 (Path.areSegments_segments hplain.1 word hmem)
  exact ⟨Name.isEntry_encode hword (hplain.2 word hmem).1
    (hplain.2 word hmem).2, Name.isSpelled_iff.2 ⟨word, hword, rfl⟩⟩

/-- **The words in a directory are those of its children**, in order. -/
theorem words_eq (hdir : store.Present dir) :
    (disk.words (mount.location dir)).map (Path.join dir) =
      store.paths.filter fun key => Path.parent? key == some dir := by
  have hvalid := (h.isPlain_of_present hdir).1
  refine (disk.map_join_words_sorted _ hvalid).eq_of_mem_iff
    (store.paths_sorted.filter _) fun path => ?_
  rw [List.mem_map, List.mem_filter, Store.mem_paths, beq_iff_eq]
  constructor
  · rintro ⟨word, hword, rfl⟩
    obtain ⟨child, last, hsome, heq, hsegments⟩ :=
      h.exists_child_of_mem_names (Disk.mem_words_iff.1 hword).2
    obtain rfl := Text.encode_inj.1 heq
    have hchild := (h.isPlain hsome).1.1
    rw [Path.join_eq hvalid hchild hsegments]
    exact ⟨hsome, (Path.parent?_eq_some_iff hchild hvalid).2 ⟨_, hsegments⟩⟩
  · rintro ⟨hsome, hparent⟩
    have hpath := h.isPlain hsome
    obtain ⟨_, _, word, hword, hsegments⟩ :=
      Path.segments_of_parent? hpath.1.1 hparent
    refine ⟨word, Disk.mem_words_iff.2 ⟨Path.isWord_iff.2 hword, ?_⟩,
      Path.join_eq hvalid hpath.1.1 hsegments⟩
    rw [Disk.mem_names, ← location_concat hsegments,
      ← h.isSome_iff hpath.1 hpath.2]
    exact hsome

/-! ## The way there -/

section Found

variable (hroot : mount.root ≠ "")
  (hfits : ∀ path, (store.get? path).isSome → mount.Fits path)

include hfits

/-- **The way to a path can be gone**, from that to its parent on. -/
theorem passable (hpath : store.Present path) :
    disk.Passable [] (mount.place path).toDiskPath.plainPieces := by
  have hvalid := (h.isPlain_of_present hpath).1
  induction path, hvalid using Path.parent_induction with
  | top =>
    rw [plainPieces_place, Path.segments_top, List.map_nil, List.append_nil]
    exact (Disk.Passable.slash_iff.1 (h.reached_of_present hpath).1).1
  | child path dir hvalid hparent ih =>
    obtain hsome | ⟨rfl, _⟩ := hpath
    · obtain ⟨hdir, hpresent⟩ := h.dirAt_parent hsome hparent
      obtain ⟨_, hne, word, hword, hsegments⟩ :=
        Path.segments_of_parent? hvalid hparent
      have hplain := (h.isPlain hsome).1
      have hmem : word ∈ Path.segments path := by
        rw [hsegments]
        exact List.mem_append_right _ List.mem_cons_self
      have hpieces : (mount.place path).toDiskPath.plainPieces =
          (mount.place dir).toDiskPath.plainPieces ++
            [.name (Text.encode word)] := by
        rw [plainPieces_place, plainPieces_place, hsegments, List.map_append,
          List.append_assoc, List.map_singleton,
          DiskPath.Piece.ofWord_of_ne (hplain.2 word hmem).1
            (hplain.2 word hmem).2]
      rw [hpieces, Disk.Passable.concat_iff]
      refine ⟨ih hpresent, ?_, ?_⟩
      · rwa [← destination_eq_location (h.isPlain_of_present hpresent)] at hdir
      · rintro _ ⟨⟩
        exact (hfits path hsome).names word hmem
    · cases hparent

/-- So it can with a slash behind it, if there is one. -/
theorem passable_pieces (hpath : store.Present path) :
    disk.Passable [] (mount.place path).toDiskPath.pieces := by
  have hway := h.passable hfits hpath
  by_cases htop : path = "/"
  · subst htop
    have hdir := h.dirAt_top hpath
    rw [← destination_eq_location Path.isPlain_top] at hdir
    unfold DiskPath.pieces
    split
    · exact Disk.Passable.slash_iff.2 ⟨hway, hdir⟩
    · exact hway
  · rwa [pieces_place (h.isPlain_of_present hpath).1 htop]

include hroot

/-- **A path is found** at its location. -/
theorem locate_eq (hpath : store.Present path) {manner : Disk.Manner}
    (hmanner : manner ≠ .create) {node : DiskNode}
    (hnode : disk.node? (mount.location path) = some node) :
    disk.locate manner (mount.place path).toDiskPath =
      .ok (mount.location path) := by
  have hplain := h.isPlain_of_present hpath
  have hlength : (mount.place path).toDiskPath.length <
      DiskPath.pathLimit := by
    obtain hsome | ⟨rfl, other, hsome⟩ := hpath
    · exact (hfits path hsome).whole
    · -- the place of the top begins every other
      refine Nat.lt_of_le_of_lt ?_ (hfits other hsome).whole
      unfold Place.toDiskPath
      rw [mount.place_eq other, encode_append, List.length_append]
      exact Nat.le_add_right _ _
  have hcheck := precheck_place (.inl hroot) (h.reached_of_present hpath).2
    hplain.1 hlength
  rw [← destination_eq_location hplain] at hnode ⊢
  exact h.tidy.free.locate_of_passable hcheck (h.passable_pieces hfits hpath)
    hmanner hnode

/-- **The disk tells of it.** -/
theorem told (hpath : store.Present path) {node : DiskNode}
    (hnode : disk.node? (mount.location path) = some node) :
    disk.stat (mount.place path).toDiskPath = .ok node ∧
      disk.lstat (mount.place path).toDiskPath = .ok node := by
  unfold Disk.stat Disk.lstat
  rw [h.locate_eq hroot hfits hpath (by decide) hnode,
    h.locate_eq hroot hfits hpath (by decide) hnode]
  dsimp only
  rw [hnode]
  exact ⟨rfl, rfl⟩

/-! ## What is told -/

/-- **The two tell the same of what is at a path**, but for its age. -/
theorem stat_eq (hpath : store.Present path) :
    ∃ entry twin, mount.stat .live path disk = .ok entry ∧
      store.stat .live path = .ok twin ∧ entry.ageless = twin.ageless ∧
        entry.path = path := by
  have hplain := h.isPlain_of_present hpath
  have hstat : ∀ {node}, disk.node? (mount.location path) = some node →
      mount.stat .live path disk = .ok (node.entry path) := fun hnode =>
    stat_of_lstat hplain.1 (h.told hroot hfits hpath hnode).2
  obtain hsome | ⟨rfl, _⟩ := id hpath
  · obtain ⟨node, hnode⟩ := Option.isSome_iff_exists.1 hsome
    cases node with
    | file content time =>
      obtain ⟨later, hfile⟩ := h.file_of_file hnode
      exact ⟨_, _, hstat hfile, h.tree.stats_eq hnode, rfl, rfl⟩
    | dir time =>
      obtain ⟨later, hdir⟩ := h.dirAt_of_dir hnode
      exact ⟨_, _, hstat hdir, h.tree.stats_eq hnode, rfl, rfl⟩
  · obtain ⟨later, hdir⟩ := h.dirAt_top hpath
    exact ⟨_, _, hstat hdir, rfl, rfl, rfl⟩

section Listed

variable (hstdin : ¬ Place.isStandardInput mount.root)
  (hlawful : scanner.Lawful disk) (hclear : scanner.Unhindered disk)

include hstdin hlawful hclear

/-- A directory lists its children. -/
theorem list_of_dirAt (hpath : store.Present path)
    (hdir : disk.DirAt (mount.location path)) :
    mount.list scanner .live path disk =
      (.ok (store.paths.filter fun key => Path.parent? key == some path),
        []) := by
  have hplain := h.isPlain_of_present hpath
  have hopens : disk.Opens (mount.place path).toDiskPath
      (mount.location path) := by
    obtain ⟨time, htime⟩ := id hdir
    exact ⟨h.locate_eq hroot hfits hpath (by decide) htime, hdir⟩
  have hreads := hlawful.through (not_isStandardInput_place hroot hstdin hplain)
    hopens (hclear hopens)
  have hnone : ((disk.names (mount.location path)).filter
      fun name => ¬ name.IsSpelled) = [] :=
    List.filter_eq_nil_iff.2 fun name hname => by
      simpa using (h.spelled_of_mem_names hname).2
  rw [list_of_reads hplain.1 hreads fun name hname =>
    (h.spelled_of_mem_names hname).1, h.words_eq hpath, hnone]
  rfl

/-- **The two list the same.** -/
theorem list_eq (hpath : store.Present path) :
    mount.list scanner .live path disk =
      (.ok (store.paths.filter fun key => Path.parent? key == some path),
        []) := by
  by_cases hdir : disk.DirAt (mount.location path)
  · exact h.list_of_dirAt hroot hfits hstdin hlawful hclear hpath hdir
  obtain hsome | ⟨rfl, _⟩ := id hpath
  · have hnone : (store.paths.filter fun key =>
        Path.parent? key == some path) = [] := by
      refine List.filter_eq_nil_iff.2 fun key hkey hparent => hdir ?_
      exact (h.dirAt_parent ((store.mem_paths key).1 hkey)
        (beq_iff_eq.1 hparent)).1
    obtain ⟨node, hnode⟩ := Option.isSome_iff_exists.1 hsome
    cases node with
    | dir time => exact absurd (h.dirAt_of_dir hnode) hdir
    | file content time =>
      obtain ⟨later, hfile⟩ := h.file_of_file hnode
      have hplain := h.isPlain_of_present hpath
      rw [hnone]
      exact list_of_stays hplain.1 (hlawful.single
        (not_isStandardInput_place hroot hstdin hplain)
        (h.told hroot hfits hpath hfile).1 Bool.false_ne_true)
  · exact absurd (h.dirAt_top hpath) hdir

end Listed

/-- **The same bytes are in a file.** -/
theorem read_eq {content : ByteArray}
    (hnode : store.get? path = some (.file content time)) :
    mount.read .live path disk = .ok content ∧
      store.read .live path = .ok content := by
  have hsome := Option.isSome_of_eq_some hnode
  have hvalid := (h.isPlain hsome).1.1
  obtain ⟨later, hfile⟩ := h.file_of_file hnode
  constructor
  · unfold Mount.read Disk.read
    rw [permit_ok hvalid]
    dsimp only
    rw [(h.told hroot hfits (.inl hsome) hfile).1]
  · unfold Store.read
    rw [permit_ok hvalid, hnode]

end Found

end Mirrored
end Mount
end PathStore
