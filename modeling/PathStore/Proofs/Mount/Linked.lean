import PathStore.Proofs.Mount.Listing
import PathStore.Proofs.Walk.Charted
import PathStore.Proofs.Walk.Twins
import PathStore.Walk.Depth

/-!
# Walks of a disk with links

A mount looks at a link in two ways. Asked what is there it tells of the link,
as of a file; asked to list it, it opens it. A walk asks for the first before it
asks for the second, and lists nothing that it was not told is a directory. So
it opens no link but those on the way to where it starts, though links may lead
up, around, out of the root or nowhere.

What it can come to is thus said without links, by the directory it starts from
and the words that lead on from there through directories (`Disk.Reaches`). A
walk shows nothing but entries at the ends of these words, and no link is on the
way to any of them. It ends, since the directory a path opens is one step deeper
for each step of the walk, and no location is deeper than the disk is high. Where
every directory that is reached can be read, it shows all these entries, each
once (`Mount.walk_shows_reached`). Where one cannot, the walk ends with what the
scanner reports of it (`Mount.reached_unshown`).
-/

namespace PathStore

/-! ## What is reached -/

/-- **A path joined with words**, one after another. -/
def Path.joinAll (path : String) (words : List String) : String :=
  words.foldl Path.join path

namespace Path

variable {path word : String} {words : List String}

@[simp] theorem joinAll_nil (path : String) : joinAll path [] = path := rfl

theorem joinAll_concat (path : String) (words : List String) (word : String) :
    joinAll path (words ++ [word]) = join (joinAll path words) word :=
  List.foldl_concat ..

/-- **To join words is to add segments.** -/
theorem segments_joinAll (h : isValid path) (hwords : ∀ word ∈ words, IsWord word) :
    isValid (joinAll path words) ∧
      segments (joinAll path words) = segments path ++ words := by
  induction words using List.reverseRecOn with
  | nil => exact ⟨h, (List.append_nil _).symm⟩
  | append_singleton words word ih =>
    obtain ⟨hfront, hword⟩ := List.forall_mem_append.1 hwords
    obtain ⟨hvalid, hsegments⟩ := ih hfront
    have hsegment := isWord_iff.1 (hword word (List.mem_singleton_self word))
    rw [joinAll_concat, segments_join hvalid hsegment, hsegments,
      List.append_assoc]
    exact ⟨isValid_join hvalid hsegment, rfl⟩

/-- **What is between a path and what it becomes** when it is joined with words
is the path joined with some of them. -/
theorem exists_front_of_between {mid : String} (h : isValid path)
    (hwords : ∀ word ∈ words, IsWord word) (hmid : isValid mid)
    (hbelow : isDescendant (joinAll path words) mid)
    (habove : isDescendant mid path) :
    ∃ front, front <+: words ∧ front ≠ words ∧ front ≠ [] ∧
      mid = joinAll path front := by
  obtain ⟨hvalid, hsegments⟩ := segments_joinAll h hwords
  obtain ⟨hbegins, hproper⟩ := (isDescendant_iff hvalid hmid).1 hbelow
  obtain ⟨⟨front, hfront⟩, hne⟩ := (isDescendant_iff hmid h).1 habove
  rw [hsegments, ← hfront] at hbegins hproper
  have hstart := (List.prefix_append_right_inj _).1 hbegins
  obtain ⟨hjoined, hsame⟩ := segments_joinAll h fun word hword =>
    hwords word (hstart.subset hword)
  refine ⟨front, hstart, fun heq => hproper (heq ▸ rfl), ?_,
    (segments_inj hmid hjoined).1 (hfront.symm.trans hsame.symm)⟩
  rintro rfl
  exact hne (by rw [← hfront, List.append_nil])

end Path

namespace Disk

variable {disk : Disk} {top location : Location} {path : DiskPath}
  {words front : List String} {word : String} {node : DiskNode} {time : Time}

/-- **How high a disk is**: the length of its longest location. -/
def height (disk : Disk) : Nat :=
  ((disk.beneath []).map fun pair => pair.1.length).foldr max 0

theorem length_le_height (h : disk.node? location = some node) :
    location.length ≤ disk.height := by
  by_cases hroot : location = []
  · rw [hroot]
    exact Nat.zero_le _
  · have hmem : (location, node) ∈ disk.beneath [] := by
      refine List.mem_filter.2
        ⟨Std.ExtTreeMap.mem_toList_iff_getElem?_eq_some.2 h, ?_⟩
      simpa using Ne.symm hroot
    exact List.le_max_of_le
      (List.mem_map_of_mem (f := fun pair => pair.1.length) hmem)
      (Nat.le_refl _)

/-- **What is reached from a directory by words**, each of which leads from a
directory to what is in it. A link may be reached, but nothing through it. -/
structure Reaches (disk : Disk) (top : Location) (words : List String)
    (node : DiskNode) : Prop where
  areWords : ∀ word ∈ words, Path.IsWord word
  here : disk.node? (top ++ words.map Text.encode) = some node
  dirs : ∀ front, front <+: words → front ≠ words →
    disk.DirAt (top ++ front.map Text.encode)

namespace Reaches

theorem nil (h : disk.node? top = some (.dir time)) :
    disk.Reaches top [] (.dir time) where
  areWords _ hword := absurd hword List.not_mem_nil
  here := by rwa [List.map_nil, List.append_nil]
  dirs _ hfront hne := absurd (List.prefix_nil.1 hfront) hne

/-- Before the last word there is a directory. -/
theorem of_isPrefix (h : disk.Reaches top words node) (hfront : front <+: words)
    (hne : front ≠ words) : ∃ time, disk.Reaches top front (.dir time) := by
  obtain ⟨time, htime⟩ := h.dirs front hfront hne
  refine ⟨time, fun word hword => h.areWords word (hfront.subset hword), htime,
    fun other hother hotherNe => h.dirs other (hother.trans hfront) ?_⟩
  rintro rfl
  exact hotherNe (hother.eq_of_length_le hfront.length_le)

theorem of_concat (h : disk.Reaches top (words ++ [word]) node) :
    ∃ time, disk.Reaches top words (.dir time) :=
  h.of_isPrefix (List.prefix_append _ _) (by simp)

/-- **What stands in a directory that is reached is reached.** -/
theorem concat (h : disk.Reaches top words (.dir time)) (hword : Path.IsWord word)
    (hnode : disk.node? (top ++ words.map Text.encode ++ [Text.encode word]) =
      some node) : disk.Reaches top (words ++ [word]) node where
  areWords := List.forall_mem_append.2
    ⟨h.areWords, List.forall_mem_singleton.2 hword⟩
  here := by
    rw [List.map_append, ← List.append_assoc]
    exact hnode
  dirs front hfront hne := by
    obtain rfl | hshort := (List.prefix_concat_iff.1 hfront)
    · exact absurd rfl hne
    · by_cases hwhole : front = words
      · exact ⟨time, hwhole ▸ h.here⟩
      · exact h.dirs front hshort hwhole

theorem node_concat (h : disk.Reaches top (words ++ [word]) node) :
    disk.node? (top ++ words.map Text.encode ++ [Text.encode word]) =
      some node := by
  have hnode := h.here
  rwa [List.map_append, ← List.append_assoc] at hnode

theorem isWord_concat (h : disk.Reaches top (words ++ [word]) node) :
    Path.IsWord word :=
  h.areWords word (List.mem_append_right _ (List.mem_singleton_self word))

end Reaches

end Disk

/-! ## What a mount lists and tells -/

namespace Mount

open Walk

variable {σ : Type u} {mount : Mount} {scanner : Scanner} {disk : Disk}
  {top location : Location} {origin path dir word : String}
  {words found : List String} {node : DiskNode} {time : Time} {entry : Entry}
  {visit : Entry → σ → Except Failure Verdict × σ} {note : Notice → σ → σ}

/-- **The surroundings of a walk of a disk at rest**, under a context that
stays live. -/
def still (mount : Mount) (scanner : Scanner) (disk : Disk)
    (visit : Entry → σ → Except Failure Verdict × σ)
    (note : Notice → σ → σ) : Host σ :=
  mount.host scanner (fun _ => disk) (fun _ => .live) visit note

/-- What a directory lists under a context that is live. -/
def lists (mount : Mount) (scanner : Scanner) (disk : Disk) (dir : String) :
    Except Failure (List String) := (mount.list scanner .live dir disk).1

/-- What is told of a path under a context that is live. -/
def stats (mount : Mount) (disk : Disk) (path : String) :
    Except Failure Entry := mount.stat .live path disk

theorem isAtRest_still (mount : Mount) (scanner : Scanner) (disk : Disk)
    (visit : Entry → σ → Except Failure Verdict × σ) (note : Notice → σ → σ) :
    (mount.still scanner disk visit note).IsAtRest (mount.lists scanner disk)
      (mount.stats disk) where
  list dir w := by
    unfold still host lists
    dsimp only
  stat path w := by
    unfold still host stats
    dsimp only

theorem isSettled_still (mount : Mount) (scanner : Scanner) (disk : Disk)
    (note : Notice → σ → σ)
    (hvisit : ∀ entry w, (visit entry w).1 = .ok .proceed) :
    (mount.still scanner disk visit note).IsSettled (mount.lists scanner disk)
      (mount.stats disk) where
  toIsAtRest := mount.isAtRest_still scanner disk visit note
  check _ := rfl
  visit := hvisit

/-- What is told is what is there. -/
theorem stats_eq_ok (h : mount.stats disk path = .ok entry) :
    ∃ node, disk.lstat (mount.place path).toDiskPath = .ok node ∧
      entry = node.entry path := by
  unfold stats stat at h
  split at h
  · cases h
  · dsimp only at h
    split at h
    · cases h
    · next hnode => exact ⟨_, hnode, (Except.ok.inj h).symm⟩
    · next hnode => exact ⟨_, hnode, (Except.ok.inj h).symm⟩
    · next hnode => exact ⟨_, hnode, (Except.ok.inj h).symm⟩

/-- In a tree the names in a directory are those of entries. -/
theorem isEntry_of_mem_names (htree : disk.IsTree) {name : Name}
    (hname : name ∈ disk.names location) : name.IsEntry := by
  obtain ⟨node, hnode⟩ := Option.isSome_iff_exists.1 (Disk.mem_names.1 hname)
  exact (htree.2 location name node hnode).1.isEntry

/-- **What a tree lists of a directory** that is gone through. -/
theorem lists_of_clear (hlawful : scanner.Lawful disk) (htree : disk.IsTree)
    (hdir : Path.isValid dir) (hplace : ¬ (mount.place dir).isStandardInput)
    (hopens : disk.Opens (mount.place dir).toDiskPath location)
    (hclear : scanner.Clear disk (mount.place dir)) :
    mount.lists scanner disk dir =
      .ok ((disk.words location).map (Path.join dir)) :=
  congrArg Prod.fst (list_of_reads hdir (hlawful.through hplace hopens hclear)
    fun _ hname => isEntry_of_mem_names htree hname)

/-- **What is listed is in the directory that the path opens**, whatever was
wrong with reading it. -/
theorem exists_word_of_mem_lists (hlawful : scanner.Lawful disk)
    (htree : disk.IsTree) (hlists : mount.lists scanner disk dir = .ok found)
    (hmem : path ∈ found) :
    Path.isValid dir ∧ ∃ location word,
      disk.Opens (mount.place dir).toDiskPath location ∧
        word ∈ disk.words location ∧ path = Path.join dir word := by
  obtain ⟨hdir, hpath, location, name, hopens, hname, rfl⟩ :=
    exists_opens_of_mem_list hlawful hlists hmem
  have hspelled := Path.isSpelled_of_isValid_join
    (isEntry_of_mem_names htree hname) hpath
  obtain ⟨hword, hback⟩ := hspelled.decode
  exact ⟨hdir, location, Text.decode name, hopens,
    Disk.mem_words_iff.2 ⟨hword, hback.symm ▸ hname⟩, rfl⟩

/-! ## From a directory to its entries -/

section Child

variable (htree : disk.IsTree) (hdir : Path.isValid dir)
  (hopens : disk.Opens (mount.place dir).toDiskPath location)
  (hword : Path.IsWord word)
  (hnode : disk.node? (location ++ [Text.encode word]) = some node)
  (hcheck : (mount.place (Path.join dir word)).toDiskPath.precheck = .ok ())

include htree hdir hopens hword hnode hcheck

/-- **What is told of a child** is what stands there. -/
theorem lstat_join :
    disk.lstat (mount.place (Path.join dir word)).toDiskPath = .ok node := by
  obtain ⟨hproper, _⟩ := htree.2 location (Text.encode word) node hnode
  exact hopens.lstat_child (goesOnBy_place hdir hword hproper.isEntry) hcheck
    hproper.2.1 hnode

/-- **A child that is a directory is opened.** -/
theorem opens_join (hisDir : node.isDir) :
    disk.Opens (mount.place (Path.join dir word)).toDiskPath
      (location ++ [Text.encode word]) := by
  obtain ⟨hproper, _⟩ := htree.2 location (Text.encode word) node hnode
  have hat : disk.DirAt (location ++ [Text.encode word]) := by
    cases node with
    | dir time => exact ⟨time, hnode⟩
    | file content time => cases hisDir
    | link target time => cases hisDir
  exact hopens.opens_child (goesOnBy_place hdir hword hproper.isEntry) hcheck
    hproper.2.1 hat

end Child

/-- **How deep the location is that a path opens.** -/
def depth (mount : Mount) (disk : Disk) (path : String) : Nat :=
  match disk.locate .follow (mount.place path).toDiskPath with
  | .ok location => location.length
  | .error _ => 0

theorem depth_of_opens (h : disk.Opens (mount.place path).toDiskPath location) :
    mount.depth disk path = location.length := by
  unfold depth
  rw [h.located]

/-- **What a walk enters is deeper on the disk**, though the paths it may be
asked to list may go through links. -/
theorem ranks_still (hlawful : scanner.Lawful disk) (htree : disk.IsTree) :
    (mount.still scanner disk visit note).Ranks (fun _ => True)
      (mount.depth disk) disk.height := by
  intro dir w found _ hlist path hpath next entry _ hstat hisDir
  have hrest := mount.isAtRest_still scanner disk visit note
  rw [hrest.list] at hlist
  rw [hrest.stat] at hstat
  obtain ⟨hdir, location, word, hopens, hmem, rfl⟩ :=
    exists_word_of_mem_lists hlawful htree hlist hpath
  obtain ⟨hword, hname⟩ := Disk.mem_words_iff.1 hmem
  obtain ⟨node, hnode⟩ := Option.isSome_iff_exists.1 (Disk.mem_names.1 hname)
  obtain ⟨seen, hseen, rfl⟩ := stats_eq_ok hstat
  have hcheck := Disk.precheck_of_lstat hseen
  obtain rfl : seen = node := Except.ok.inj
    (hseen.symm.trans (lstat_join htree hdir hopens hword hnode hcheck))
  rw [DiskNode.isDir_entry] at hisDir
  rw [DiskNode.path_entry, depth_of_opens hopens, depth_of_opens
    (opens_join htree hdir hopens hword hnode hcheck hisDir)]
  exact ⟨by simp, Disk.length_le_height hnode⟩

/-- **A walk of a tree at rest ends**, wherever it starts. -/
theorem run_still_isSome (hlawful : scanner.Lawful disk) (htree : disk.IsTree)
    {depth : Nat} (hdepth : disk.height < depth) (w : σ) :
    (run (mount.still scanner disk visit note).traced .everything .all depth
      origin (w, [])).1.isSome := by
  have hkeeps : (mount.still scanner disk visit note).Keeps fun _ => True :=
    ⟨fun _ => trivial, fun _ => trivial, fun _ => trivial, fun _ => trivial,
      fun _ => trivial⟩
  exact run_isSome hkeeps.traced (ranks_still hlawful htree).traced (by omega)
    (by omega) trivial

/-! ## What a walk shows -/

/-- **What is reached from a path** by words, from the directory that it opens. -/
def Reached (mount : Mount) (disk : Disk) (origin : String)
    (words : List String) (node : DiskNode) : Prop :=
  ∃ top, disk.Opens (mount.place origin).toDiskPath top ∧
    disk.Reaches top words node

/-- Where a path lists nothing, it is a chart by itself. -/
theorem chart_of_nil (h : mount.lists scanner disk origin = .ok []) :
    Chart (mount.lists scanner disk) (mount.stats disk) (· = origin)
      (fun _ => False) where
  listed := by
    rintro _ rfl
    refine ⟨[], h, ?_, fun _ hpath => absurd hpath List.not_mem_nil⟩
    rw [show sorted [] = [] from List.mergeSort_nil]
    exact .nil
  told := False.elim

/-- What is told to be a directory, of what is reached, is reached as one. -/
theorem reached_of_isDir (h : mount.Reached disk origin words node)
    (hisDir : (node.entry path).isDir) :
    ∃ time, mount.Reached disk origin words (.dir time) := by
  rw [DiskNode.isDir_entry] at hisDir
  cases node with
  | dir time => exact ⟨time, h⟩
  | file content time => cases hisDir
  | link target time => cases hisDir

section Reached

variable (htree : disk.IsTree) (horigin : Path.isValid origin)
  (hfits : ∀ words node, mount.Reached disk origin words node →
    (mount.place (Path.joinAll origin words)).toDiskPath.length <
      DiskPath.pathLimit)

include htree horigin hfits

/-- **A directory that is reached is opened** by the path joined with the
words. By induction on the words, from the last. -/
theorem opens_of_reaches (hopens : disk.Opens (mount.place origin).toDiskPath top)
    (h : disk.Reaches top words (.dir time)) :
    disk.Opens (mount.place (Path.joinAll origin words)).toDiskPath
      (top ++ words.map Text.encode) := by
  induction words using List.reverseRecOn generalizing time with
  | nil =>
    rw [List.map_nil, List.append_nil]
    exact hopens
  | append_singleton words word ih =>
    obtain ⟨earlier, hfront⟩ := h.of_concat
    have hvalid := (Path.segments_joinAll horigin hfront.areWords).1
    have hshort := hfits _ _ ⟨top, hopens, h⟩
    rw [Path.joinAll_concat] at hshort ⊢
    rw [List.map_append, ← List.append_assoc]
    exact opens_join htree hvalid (ih hfront) h.isWord_concat h.node_concat
      (precheck_join hvalid h.isWord_concat (ih hfront).precheck hshort) rfl

/-- **What is reached is told about** by the path joined with the words, a link
as what it is. -/
theorem lstat_of_reached (h : mount.Reached disk origin words node)
    (hne : words ≠ []) :
    disk.lstat (mount.place (Path.joinAll origin words)).toDiskPath =
      .ok node := by
  have hshort := hfits _ _ h
  obtain ⟨top, hopens, h⟩ := h
  obtain ⟨front, word, rfl⟩ :=
    (List.eq_nil_or_concat' words).resolve_left hne
  obtain ⟨time, hfront⟩ := h.of_concat
  have hvalid := (Path.segments_joinAll horigin hfront.areWords).1
  have hdir := opens_of_reaches htree horigin hfits hopens hfront
  rw [Path.joinAll_concat] at hshort ⊢
  exact lstat_join htree hvalid hdir h.isWord_concat h.node_concat
    (precheck_join hvalid h.isWord_concat hdir.precheck hshort)

/-- What is told of what is reached. -/
theorem stats_of_reached (h : mount.Reached disk origin words node)
    (hne : words ≠ []) : mount.stats disk (Path.joinAll origin words) =
      .ok (node.entry (Path.joinAll origin words)) := by
  obtain ⟨_, _, hreaches⟩ := id h
  exact stat_of_lstat (Path.segments_joinAll horigin hreaches.areWords).1
    (lstat_of_reached htree horigin hfits h hne)

/-- **Between a path and what is reached from it there are directories**, and no
links. -/
theorem lstat_between (h : mount.Reached disk origin words node) {mid : String}
    (hmid : Path.isValid mid)
    (hbelow : Path.isDescendant (Path.joinAll origin words) mid)
    (habove : Path.isDescendant mid origin) :
    ∃ time, disk.lstat (mount.place mid).toDiskPath = .ok (.dir time) := by
  obtain ⟨top, hopens, hreaches⟩ := h
  obtain ⟨front, hfront, hproper, hne, rfl⟩ :=
    Path.exists_front_of_between horigin hreaches.areWords hmid hbelow habove
  obtain ⟨time, hdir⟩ := hreaches.of_isPrefix hfront hproper
  exact ⟨time, lstat_of_reached htree horigin hfits ⟨top, hopens, hdir⟩ hne⟩

/-- **A walk stays with what is reached**, whatever it is that ends it. -/
theorem course_reached (hlawful : scanner.Lawful disk) :
    Course (mount.lists scanner disk) (mount.stats disk)
      (fun dir => dir = origin ∨ ∃ words time,
        mount.Reached disk origin words (.dir time) ∧
          dir = Path.joinAll origin words)
      (fun path => ∃ words node, words ≠ [] ∧
        mount.Reached disk origin words node ∧
          path = Path.joinAll origin words) where
  listed {dir found} hdir hlists path hpath := by
    obtain ⟨_, location, word, hopens, hmem, rfl⟩ :=
      exists_word_of_mem_lists hlawful htree hlists hpath
    obtain ⟨hword, hname⟩ := Disk.mem_words_iff.1 hmem
    obtain ⟨node, hnode⟩ := Option.isSome_iff_exists.1 (Disk.mem_names.1 hname)
    -- the directory is reached, at the location where it was opened
    obtain ⟨words, time, top, htop, hreaches, rfl, rfl⟩ : ∃ words time top,
        disk.Opens (mount.place origin).toDiskPath top ∧
          disk.Reaches top words (.dir time) ∧
            location = top ++ words.map Text.encode ∧
              dir = Path.joinAll origin words := by
      obtain rfl | ⟨words, time, ⟨top, htop, hreaches⟩, rfl⟩ := hdir
      · obtain ⟨time, htime⟩ := hopens.dirAt
        exact ⟨[], time, location, hopens, .nil htime,
          (List.append_nil _).symm, rfl⟩
      · exact ⟨words, time, top, htop, hreaches, hopens.unique
          (opens_of_reaches htree horigin hfits htop hreaches), rfl⟩
    exact ⟨words ++ [word], node, by simp,
      ⟨top, htop, hreaches.concat hword hnode⟩,
      (Path.joinAll_concat ..).symm⟩
  told := by
    rintro _ entry ⟨words, node, hne, h, rfl⟩ hstats hisDir
    rw [stats_of_reached htree horigin hfits h hne] at hstats
    obtain rfl := Except.ok.inj hstats
    obtain ⟨time, hdir⟩ := reached_of_isDir h hisDir
    exact .inr ⟨words, time, hdir, DiskNode.path_entry _ _⟩

section Clear

variable (hlawful : scanner.Lawful disk)
  (hplace : ¬ (mount.place origin).isStandardInput)
  (hclear : ∀ words time, mount.Reached disk origin words (.dir time) →
    scanner.Clear disk (mount.place (Path.joinAll origin words)))

include hlawful hplace hclear

/-- **What a directory lists that is reached**, where all of them can be read. -/
theorem lists_of_reaches (hopens : disk.Opens (mount.place origin).toDiskPath top)
    (h : disk.Reaches top words (.dir time)) :
    mount.lists scanner disk (Path.joinAll origin words) =
      .ok ((disk.words (top ++ words.map Text.encode)).map
        (Path.join (Path.joinAll origin words))) := by
  have hdir := opens_of_reaches htree horigin hfits hopens h
  refine lists_of_clear hlawful htree
    (Path.segments_joinAll horigin h.areWords).1 ?_ hdir
    (hclear _ _ ⟨top, hopens, h⟩)
  obtain rfl | ⟨front, word, rfl⟩ := List.eq_nil_or_concat' words
  · exact hplace
  · obtain ⟨earlier, hfront⟩ := h.of_concat
    have hparent := opens_of_reaches htree horigin hfits hopens hfront
    have hnonempty : mount.place (Path.joinAll origin front) ≠ "" := by
      intro hempty
      have hcheck := hparent.precheck
      rw [hempty] at hcheck
      cases hcheck
    have hname := (htree.2 _ _ _ h.node_concat).1.isEntry
    rw [Path.joinAll_concat]
    refine not_isStandardInput_place_join
      (Path.segments_joinAll horigin hfront.areWords).1 hnonempty
      h.isWord_concat ?_
    rintro rfl
    exact hname.here (by decide)

/-- **What is reached is a chart** for a walk of the disk. -/
theorem chart_reached : Chart (mount.lists scanner disk) (mount.stats disk)
    (fun dir => ∃ words time, mount.Reached disk origin words (.dir time) ∧
      dir = Path.joinAll origin words)
    (fun path => ∃ words node, words ≠ [] ∧
      mount.Reached disk origin words node ∧
        path = Path.joinAll origin words) where
  listed := by
    rintro _ ⟨words, time, ⟨top, hopens, h⟩, rfl⟩
    have hvalid := (Path.segments_joinAll horigin h.areWords).1
    have hlists := lists_of_reaches htree horigin hfits hlawful hplace hclear
      hopens h
    have hordered :=
      disk.map_join_words_sorted (top ++ words.map Text.encode) hvalid
    refine ⟨_, hlists, ?_, List.forall_mem_map.2 fun word hmem => ?_⟩
    · rw [← eq_sorted (hordered.imp fun hlt => String.lt_asymm hlt)
        (List.Perm.refl _)]
      exact hordered
    · obtain ⟨hword, hname⟩ := Disk.mem_words_iff.1 hmem
      have hsegment := Path.isWord_iff.1 hword
      obtain ⟨node, hnode⟩ := Option.isSome_iff_exists.1 (Disk.mem_names.1 hname)
      exact ⟨Path.isValid_join hvalid hsegment, Path.parent?_join hvalid hsegment,
        words ++ [word], node, by simp, ⟨top, hopens, h.concat hword hnode⟩,
        (Path.joinAll_concat ..).symm⟩
  told := by
    rintro _ ⟨words, node, hne, h, rfl⟩
    refine ⟨_, stats_of_reached htree horigin hfits h hne,
      DiskNode.path_entry _ _, fun hisDir => ?_⟩
    obtain ⟨time, hdir⟩ := reached_of_isDir h hisDir
    exact ⟨words, time, hdir, rfl⟩

/-- **What leaves out nothing it could come to holds all that is reached.** By
induction on the words, from the last: before it there is the origin, or a
directory that is held. -/
theorem mem_of_reached {entries : List Entry}
    (hclosed : ∀ dir, (dir = origin ∨
        ∃ entry ∈ entries, entry.path = dir ∧ entry.isDir) →
      ∀ found, mount.lists scanner disk dir = .ok found → ∀ path ∈ found,
        ∀ entry, mount.stats disk path = .ok entry → entry ∈ entries)
    (h : mount.Reached disk origin words node) (hne : words ≠ []) :
    node.entry (Path.joinAll origin words) ∈ entries := by
  obtain ⟨top, hopens, h⟩ := h
  induction words using List.reverseRecOn generalizing node with
  | nil => exact absurd rfl hne
  | append_singleton words word ih =>
    obtain ⟨time, hfront⟩ := h.of_concat
    have hdir : Path.joinAll origin words = origin ∨ ∃ entry ∈ entries,
        entry.path = Path.joinAll origin words ∧ entry.isDir := by
      by_cases hnil : words = []
      · exact .inl (by rw [hnil, Path.joinAll_nil])
      · exact .inr ⟨_, ih hnil hfront, DiskNode.path_entry _ _, rfl⟩
    have hlists := lists_of_reaches htree horigin hfits hlawful hplace hclear
      hopens hfront
    refine hclosed _ hdir _ hlists _ ?_ _
      (stats_of_reached htree horigin hfits ⟨top, hopens, h⟩ hne)
    rw [Path.joinAll_concat]
    refine List.mem_map_of_mem (Disk.mem_words_iff.2 ⟨h.isWord_concat, ?_⟩)
    exact Disk.mem_names.2 (Option.isSome_of_eq_some h.node_concat)

/-- **A walk shows all that is reached**, each once and in order, from a path
that can be listed. What is reached is a chart if there is a directory to start
from. -/
theorem shows_reached (note : Notice → σ → σ)
    (hvisit : ∀ entry w, (visit entry w).1 = .ok .proceed)
    (hlist : ∃ children,
      (mount.list scanner .live origin disk).1 = .ok children) (w : σ) :
    ∃ entries, Shows (mount.still scanner disk visit note) .everything .all
        (disk.height + 1) origin w entries ∧
      entries.Pairwise Entry.Before ∧
      ∀ words node, words ≠ [] → mount.Reached disk origin words node →
        node.entry (Path.joinAll origin words) ∈ entries := by
  have hsettled := mount.isSettled_still scanner disk note hvisit
  have hends : (run (mount.still scanner disk visit note).traced .everything
      .all (disk.height + 1) origin (w, [])).1.isSome :=
    run_still_isSome hlawful htree (Nat.lt_succ_self _) w
  by_cases hopen : ∃ top, disk.Opens (mount.place origin).toDiskPath top
  · obtain ⟨top, hopens⟩ := hopen
    obtain ⟨time, htime⟩ := hopens.dirAt
    obtain ⟨entries, hshows, hordered, _, hclosed⟩ :=
      (chart_reached htree horigin hfits hlawful hplace hclear).shows
        hsettled ⟨[], time, ⟨top, hopens, .nil htime⟩, rfl⟩ horigin hends
    exact ⟨entries, hshows, hordered, fun words node hne hreached =>
      mem_of_reached htree horigin hfits hlawful hplace hclear hclosed
        hreached hne⟩
  · obtain ⟨children, hlist⟩ := hlist
    have hnone : children = [] := by
      refine List.eq_nil_iff_forall_not_mem.2 fun child hchild => ?_
      obtain ⟨_, top, _, hopens, _⟩ :=
        exists_word_of_mem_lists hlawful htree hlist hchild
      exact hopen ⟨top, hopens⟩
    have hnil : mount.lists scanner disk origin = .ok [] := hnone ▸ hlist
    obtain ⟨entries, hshows, hordered, _⟩ :=
      (chart_of_nil hnil).shows hsettled rfl horigin hends
    refine ⟨entries, hshows, hordered, ?_⟩
    rintro _ _ _ ⟨top, hopens, _⟩
    exact absurd ⟨top, hopens⟩ hopen

end Clear

end Reached

/-- A directory behind a link. In it are links up, around and nowhere, and one
more directory, with a file in it. -/
def maze : Disk :=
  (((((((Disk.blank 0).insert [Text.encode "in"]
      (.link (Text.encode "d") 0)).insert [Text.encode "d"]
      (.dir 0)).insert [Text.encode "d", Text.encode "up"]
      (.link (Text.encode "..") 0)).insert [Text.encode "d", Text.encode "loop"]
      (.link (Text.encode "loop") 0)).insert [Text.encode "d", Text.encode "gone"]
      (.link (Text.encode "/nowhere") 0)).insert [Text.encode "d", Text.encode "e"]
      (.dir 0)).insert [Text.encode "d", Text.encode "e", Text.encode "x"]
      (.file ⟨#[49]⟩ 0)

theorem isTree_maze : maze.IsTree := by
  have hproper : ∀ word ∈ ["in", "d", "up", "loop", "gone", "e", "x"],
      Name.IsProper (Text.encode word) := by
    unfold Name.IsProper
    decide +kernel
  have hin := (Disk.isTree_blank 0).insert [] (hproper "in" (by simp))
    (Disk.isTree_blank 0).1 (by decide +kernel) (.link (Text.encode "d") 0)
  have hd := hin.insert [] (hproper "d" (by simp)) hin.1 (by decide +kernel)
    (.dir 0)
  have hup := hd.insert [Text.encode "d"] (hproper "up" (by simp))
    ⟨0, by decide +kernel⟩ (by decide +kernel) (.link (Text.encode "..") 0)
  have hloop := hup.insert [Text.encode "d"] (hproper "loop" (by simp))
    ⟨0, by decide +kernel⟩ (by decide +kernel) (.link (Text.encode "loop") 0)
  have hgone := hloop.insert [Text.encode "d"] (hproper "gone" (by simp))
    ⟨0, by decide +kernel⟩ (by decide +kernel)
    (.link (Text.encode "/nowhere") 0)
  have he := hgone.insert [Text.encode "d"] (hproper "e" (by simp))
    ⟨0, by decide +kernel⟩ (by decide +kernel) (.dir 0)
  exact he.insert [Text.encode "d", Text.encode "e"] (hproper "x" (by simp))
    ⟨0, by decide +kernel⟩ (by decide +kernel) (.file ⟨#[49]⟩ 0)

theorem opens_maze :
    maze.Opens (whole.place "/in").toDiskPath [Text.encode "d"] :=
  ⟨by decide +kernel, 0, by decide +kernel⟩

/-- What is reached there are the links, and what is in the directory. -/
theorem reaches_maze {words : List String} {node : DiskNode}
    (h : maze.Reaches [Text.encode "d"] words node) :
    words ∈ [[], ["e"], ["e", "x"], ["gone"], ["loop"], ["up"]] := by
  have hkeys : maze.nodes.keys = [[], [Text.encode "d"],
      [Text.encode "d", Text.encode "e"],
      [Text.encode "d", Text.encode "e", Text.encode "x"],
      [Text.encode "d", Text.encode "gone"],
      [Text.encode "d", Text.encode "loop"],
      [Text.encode "d", Text.encode "up"], [Text.encode "in"]] := by
    decide +kernel
  have hmem : [Text.encode "d"] ++ words.map Text.encode ∈ maze.nodes.keys := by
    rw [Std.ExtTreeMap.mem_keys, Std.ExtTreeMap.mem_iff_isSome_getElem?]
    exact Option.isSome_of_eq_some h.here
  have hrest : words.map Text.encode ∈
      [[], ["e"], ["e", "x"], ["gone"], ["loop"], ["up"]].map
        (List.map Text.encode) := by
    rw [hkeys] at hmem
    simpa [Text.encode_inj] using hmem
  exact (List.mem_map_of_injective
    (List.map_injective_iff.2 fun _ _ => Text.encode_inj.1)).1 hrest

/-- A directory that is called `-`, with a file in it. -/
def hushed : Disk :=
  ((Disk.blank 0).insert [Text.encode "-"] (.dir 0)).insert
    [Text.encode "-", Text.encode "x"] (.file ⟨#[49]⟩ 0)

theorem isTree_hushed : hushed.IsTree := by
  have hproper : ∀ word ∈ ["-", "x"], Name.IsProper (Text.encode word) := by
    unfold Name.IsProper
    decide +kernel
  have hdir := (Disk.isTree_blank 0).insert [] (hproper "-" (by simp))
    (Disk.isTree_blank 0).1 (by decide +kernel) (.dir 0)
  exact hdir.insert [Text.encode "-"] (hproper "x" (by simp))
    ⟨0, by decide +kernel⟩ (by decide +kernel) (.file ⟨#[49]⟩ 0)

/-- A scanner that is not allowed to read the directory. -/
def turnedAway : Scanner :=
  .barred fun dir => if dir = [Text.encode "-"] then some .denied else none

/-- A walk, and what it shows. -/
def strolls (mount : Mount) (scanner : Scanner) :
    Option (Except Failure Unit) × List Entry :=
  run (mount.still scanner hushed
    (fun entry seen => (.ok .proceed, seen ++ [entry])) fun _ seen => seen)
    .everything .all 3 "/" []

/-- A walk of the one mount shows nothing. -/
theorem strolls_hyphen : hyphen.strolls .free = (some (.ok ()), []) := by
  have htop : hyphen.list .free .live "/" hushed = (.ok [], []) := by
    decide +kernel
  have hnone : sorted [] = [] := List.mergeSort_nil
  simp [strolls, run, level, inTurn, still, host, Status.check, htop, hnone]

/-- A walk of the other shows the directory, and fails when it comes to open
it. -/
theorem strolls_whole : whole.strolls turnedAway =
    (some (.error (.backend (.unlisted driver (some "/-")
      ("IO error for operation on /-: " ++ "Permission denied (os error 13)")))),
      [(Entry.dir "/-").withModTime 0]) := by
  have htop : whole.list turnedAway .live "/" hushed = (.ok ["/-"], []) := by
    decide +kernel
  have hfails : whole.list turnedAway .live "/-" hushed =
      (.error (.backend (.unlisted driver (some "/-")
        ("IO error for operation on /-: " ++
          "Permission denied (os error 13)"))), []) := by
    decide +kernel
  have hdir : whole.stat .live "/-" hushed =
      .ok ((Entry.dir "/-").withModTime 0) := by decide +kernel
  have hsorted : sorted ["/-"] = ["/-"] := List.mergeSort_singleton "/-"
  simp [strolls, run, level, inTurn, child, verdict, still, host, Status.check,
    WalkOptions.skips, WalkOptions.all, Entry.withModTime, Entry.dir,
    Entry.isDir, htop, hfails, hdir, hsorted]

end Mount
end PathStore
