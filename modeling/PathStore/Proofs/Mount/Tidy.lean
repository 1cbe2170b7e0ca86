import PathStore.Proofs.Disk.Way
import PathStore.Proofs.Mount.Plain
import PathStore.Proofs.Store.Effect

/-!
# A disk beneath the root of a mount

A disk is seen here as a store would be, as far as plain paths lead
(`Mount.holdings`). That nothing else is beneath the root, and that the root
can be reached if anything is, has to be kept track of besides (`Mount.Tidy`).

Before it stores or moves anything, a mount makes the directories a place
stands in. It makes no more of them than are needed, since all it makes is on
the way to the place; and no fewer, if the call that follows succeeds, since
that has to find them (`Mount.Paved`). So what is held afterwards is what was,
and directories above the path (`Mount.Paved.holdings_eq`).
-/

namespace PathStore

open DiskPath (Piece resolve)

/-- **What a node of a disk is to a store**, whatever its age. A link is told
about as a file as long as the path it stands for. -/
def DiskNode.holding : DiskNode → Holding
  | file content _ => .file content
  | dir _ => .dir
  | link target _ => .file ⟨target.toArray⟩

namespace Mount

variable {mount : Mount} {disk mid next : Disk} {path other : String}
  {now : Time}

/-- **What a mount holds**, as far as plain paths below the top lead. -/
def holdings (mount : Mount) (disk : Disk) : Holdings := fun path =>
  if Path.IsPlain path ∧ path ≠ "/" then
    (disk.node? (mount.location path)).map DiskNode.holding
  else none

theorem holdings_of_isPlain (h : Path.IsPlain path) (hne : path ≠ "/") :
    mount.holdings disk path =
      (disk.node? (mount.location path)).map DiskNode.holding :=
  if_pos ⟨h, hne⟩

theorem holdings_of_not (h : ¬ (Path.IsPlain path ∧ path ≠ "/")) :
    mount.holdings disk path = none :=
  if_neg h

theorem dirAt_of_holdings (h : mount.holdings disk path = some .dir) :
    disk.DirAt (mount.location path) := by
  unfold holdings at h
  split at h
  · obtain ⟨node, hnode, hholding⟩ := Option.map_eq_some_iff.1 h
    cases node with
    | dir time => exact ⟨time, hnode⟩
    | file content time => cases hholding
    | link target time => cases hholding
  · cases h

theorem holdings_of_dirAt (h : Path.IsPlain path) (hne : path ≠ "/")
    (hdir : disk.DirAt (mount.location path)) :
    mount.holdings disk path = some .dir := by
  obtain ⟨time, hdir⟩ := hdir
  rw [holdings_of_isPlain h hne, hdir]
  rfl

/-- **A disk that is tidy beneath the root**: what is there has a plain path,
and if anything is there the root can be reached. -/
structure Tidy (mount : Mount) (disk : Disk) : Prop where
  free : disk.LinkFree
  named : ∀ location, mount.Beneath location →
    (disk.node? location).isSome →
      ∃ path, Path.IsPlain path ∧ path ≠ "/" ∧ location = mount.location path
  reached : ∀ location, mount.Beneath location →
    (disk.node? location).isSome →
      disk.Passable [] (mount.rootPieces ++ [.slash]) ∧
        0 ∉ Place.toDiskPath mount.root

section Bare

variable (hnone : ∀ location, mount.Beneath location →
  disk.node? location = none)

include hnone

/-- **A disk with nothing beneath the root** is tidy. -/
theorem tidy_of_none (hfree : disk.LinkFree) : mount.Tidy disk := by
  have hvacant : ∀ location, mount.Beneath location →
      ¬ (disk.node? location).isSome := by
    intro location hlocation hsome
    rw [hnone location hlocation] at hsome
    cases hsome
  exact ⟨hfree, fun location hlocation hsome =>
    absurd hsome (hvacant location hlocation), fun location hlocation hsome =>
      absurd hsome (hvacant location hlocation)⟩

/-- Then the mount holds nothing. -/
theorem holdings_of_none (path : String) :
    mount.holdings disk path = none := by
  by_cases hpath : Path.IsPlain path ∧ path ≠ "/"
  · rw [holdings_of_isPlain hpath.1 hpath.2,
      hnone _ (beneath_location mount hpath.1.1 hpath.2)]
    rfl
  · exact holdings_of_not hpath

end Bare

/-- **The way to a direct root stays open** whatever is done beneath it. -/
theorem IsDirect.passable (hdirect : mount.IsDirect)
    (h : disk.Passable [] (mount.rootPieces ++ [.slash]))
    (hkept : ∀ location, ¬ mount.Beneath location → disk.DirAt location →
      next.DirAt location) :
    next.Passable [] (mount.rootPieces ++ [.slash]) := by
  refine h.of_dirs fun front hfront => hkept _ ?_
  obtain ⟨plain, hplain, heq⟩ := DiskPath.exists_front_of_slash hfront
  rw [heq]
  exact hdirect plain hplain

/-! ## Places that can be reached -/

/-- The place of a path is that of the top, and then the letters of the path
without the slashes at its start. -/
theorem place_eq (mount : Mount) (path : String) : mount.place path =
    mount.place "/" ++ String.ofList (path.toList.dropWhile (· == '/')) := by
  have htop : String.ofList ("/".toList.dropWhile (· == '/')) = "" := by
    decide
  have hrest : (String.ofList (path.toList.dropWhile
      (· == '/'))).toList.head? ≠ some '/' := by
    rw [String.toList_ofList]
    intro hhead
    have hnot := List.head?_dropWhile_not (· == '/') path.toList
    rw [hhead] at hnot
    cases hnot
  have hempty : "".toList.head? ≠ some '/' := by decide
  unfold place
  rw [htop]
  unfold Place.join
  rw [if_neg hrest, if_neg hempty]
  split
  · rw [String.append_empty]
  · rw [String.append_empty]

theorem place_top (mount : Mount) :
    mount.place "/" = mount.root ∨ mount.place "/" = mount.root ++ "/" := by
  have htop : String.ofList ("/".toList.dropWhile (· == '/')) = "" := by
    decide
  have hempty : "".toList.head? ≠ some '/' := by decide
  unfold place
  rw [htop]
  unfold Place.join
  rw [if_neg hempty]
  split
  · exact .inl String.append_empty
  · exact .inr String.append_empty

theorem encode_append (text more : String) :
    Text.encode (text ++ more) = Text.encode text ++ Text.encode more := by
  unfold Text.encode
  rw [String.toList_append, List.flatMap_append]

/-- **A place that can be used at all** shows that the root can be written. -/
theorem nul_notMem_root
    (h : (mount.place path).toDiskPath.precheck = .ok ()) :
    0 ∉ Place.toDiskPath mount.root := by
  have hroot : Place.toDiskPath mount.root <+:
      (mount.place path).toDiskPath := by
    unfold Place.toDiskPath
    rw [place_eq, encode_append]
    refine List.IsPrefix.trans ?_ (List.prefix_append _ _)
    obtain heq | heq := mount.place_top
    · rw [heq]
    · rw [heq, encode_append]
      exact List.prefix_append _ _
  intro hmem
  unfold DiskPath.precheck at h
  rw [if_pos (List.contains_iff_mem.2 (hroot.subset hmem))] at h
  cases h

/-- **Above a place that can be reached stand directories.** -/
theorem dirAt_of_passable (h : Path.IsPlain path)
    (hway : disk.Passable [] (mount.place path).toDiskPath.plainPieces)
    (hother : Path.isValid other) (hbelow : Path.isDescendant path other) :
    disk.DirAt (mount.location other) := by
  obtain ⟨⟨rest, hrest⟩, hne⟩ := (Path.isDescendant_iff h.1 hother).1 hbelow
  cases rest with
  | nil => exact absurd (by rw [← hrest, List.append_nil]) hne
  | cons word rest =>
    have hdir := hway.dirs (mount.rootPieces ++
        (Text.encodeAll (Path.segments other)).map .name)
      (.name (Text.encode word)) (by
        rw [plainPieces_place, pieces_of_isPlain h, ← hrest, List.append_assoc]
        refine (List.prefix_append_right_inj _).2 ?_
        unfold Text.encodeAll
        rw [List.map_append, List.map_append]
        exact (List.prefix_append_right_inj _).2 ⟨_, rfl⟩)
    rw [DiskPath.resolve_append, DiskPath.resolve_names] at hdir
    exact hdir

/-- **If a place below the top can be reached, so can the root.** -/
theorem passable_root_of_passable (h : Path.IsPlain path) (hne : path ≠ "/")
    (hway : disk.Passable [] (mount.place path).toDiskPath.plainPieces) :
    disk.Passable [] (mount.rootPieces ++ [.slash]) := by
  have hdir := dirAt_of_passable h hway rfl
    ((Path.isDescendant_top_iff h.1).2 hne)
  rw [location_top] at hdir
  rw [plainPieces_place] at hway
  exact Disk.Passable.slash_iff.2
    ⟨hway.of_isPrefix (List.prefix_append _ _), hdir⟩

/-! ## Making the way to a place -/

/-- **The way to a place has been made**: the place can be reached, and nothing
was changed but that directories were made on the way there. -/
structure Paved (mount : Mount) (disk mid : Disk) (path : String) : Prop where
  free : mid.LinkFree
  check : (mount.place path).toDiskPath.precheck = .ok ()
  passable : mid.Passable [] (mount.place path).toDiskPath.plainPieces
  spares : ∀ location, mid.node? location = disk.node? location ∨
    (∃ front, front <+: (mount.place path).toDiskPath.plainPieces ∧
        resolve [] front = location) ∧
      disk.node? location = none ∧ mid.DirAt location

/-- What making directories leaves, if it succeeds. -/
theorem makeEnclosing_ok (hfree : disk.LinkFree)
    (h : makeEnclosing now (mount.place path) disk = (.ok (), mid)) :
    mid.LinkFree ∧ ∀ location, mid.node? location = disk.node? location ∨
      (∃ front, front <+: (mount.place path).toDiskPath.plainPieces ∧
          resolve [] front = location) ∧
        disk.node? location = none ∧ mid.DirAt location := by
  unfold makeEnclosing at h
  split at h
  · obtain rfl := (Prod.mk.inj h).2
    exact ⟨hfree, fun _ => .inl rfl⟩
  · next parent outer hdirs =>
    have hway : ∀ dir ∈ (parent :: outer).map Place.toDiskPath, ∀ front,
        front <+: dir.plainPieces → ∃ part,
          part <+: (mount.place path).toDiskPath.plainPieces ∧
            resolve [] part = resolve [] front := by
      intro dir hdir front hfront
      obtain ⟨place, hplace, rfl⟩ := List.mem_map.1 hdir
      exact ⟨front, hfront.trans
        (Place.plainPieces_of_mem_enclosing (hdirs ▸ hplace)), rfl⟩
    have hspares := hfree.makeDirectories_spares now
      (fun location => ∃ front,
        front <+: (mount.place path).toDiskPath.plainPieces ∧
          resolve [] front = location) hway
    split at h
    · next made hmade =>
      rw [hmade, (Prod.mk.inj h).2] at hspares
      exact hspares
    · cases h

namespace Paved

variable (h : mount.Paved disk mid path)

include h

/-- **Beneath a direct root** nothing was made but above the path, or at
it. -/
theorem beneath_cases (hdirect : mount.IsDirect) (hpath : Path.IsPlain path)
    {location : Location} (hbeneath : mount.Beneath location) :
    mid.node? location = disk.node? location ∨
      ∃ dir, Path.IsPlain dir ∧ dir ≠ "/" ∧ Path.Within path dir ∧
        location = mount.location dir ∧ disk.node? location = none ∧
          mid.DirAt location := by
  obtain hsame | ⟨⟨front, hfront, rfl⟩, hnone, hdir⟩ := h.spares location
  · exact .inl hsame
  · obtain ⟨dir, hplain, hne, hwithin, heq⟩ :=
      exists_above_of_beneath hdirect hpath hfront hbeneath
    exact .inr ⟨dir, hplain, hne, hwithin, heq, hnone, hdir⟩

/-- Directories stay. -/
theorem dirAt {location : Location} (hdir : disk.DirAt location) :
    mid.DirAt location := by
  obtain hsame | ⟨_, hnone, _⟩ := h.spares location
  · exact hdir.of_eq hsame
  · exact absurd hnone hdir.ne_none

/-- **What is held away from the path**: what was, and directories above
it. -/
theorem holdings_eq (hdirect : mount.IsDirect) (hpath : Path.IsPlain path)
    (hother : Path.IsPlain other) (hotherTop : other ≠ "/")
    (hne : other ≠ path) : mount.holdings mid other =
      (mount.holdings disk).withDirs (Path.ancestors path) other := by
  have hbeneath : mount.Beneath (mount.location other) :=
    beneath_location mount hother.1 hotherTop
  unfold Holdings.withDirs
  by_cases hmem : other ∈ Path.ancestors path
  · have hbelow := ((Path.mem_ancestors_iff hpath.1 hother.1).1 hmem).2
    have hdir := dirAt_of_passable hpath h.passable hother.1 hbelow
    rw [holdings_of_dirAt hother hotherTop hdir]
    by_cases hnone : mount.holdings disk other = none
    · rw [if_pos ⟨hmem, hnone⟩]
    · rw [if_neg fun hmade => hnone hmade.2]
      rw [holdings_of_isPlain hother hotherTop, Option.map_eq_none_iff] at hnone
      obtain hsame | ⟨_, hvacant, _⟩ := h.spares (mount.location other)
      · exact (holdings_of_dirAt hother hotherTop
          (hdir.of_eq hsame.symm)).symm
      · exact absurd hvacant hnone
  · rw [if_neg fun hmade => hmem hmade.1, holdings_of_isPlain hother hotherTop,
      holdings_of_isPlain hother hotherTop]
    obtain hsame | ⟨dir, hdir, _, hwithin, heq, _⟩ :=
      h.beneath_cases hdirect hpath hbeneath
    · rw [hsame]
    · obtain rfl := (location_inj hother.1 hdir.1).1 heq
      obtain hsame | hbelow := hwithin
      · exact absurd hsame.symm hne
      · exact absurd ((Path.mem_ancestors_iff hpath.1 hother.1).2
          ⟨hotherTop, hbelow⟩) hmem

/-- **No file was in the way.** -/
theorem wayTo_ok (hpath : Path.IsPlain path) :
    Store.wayTo (mount.holdings disk) path = .ok () := by
  have hnone : (Path.ancestors path).find? (mount.holdings disk).fileAt =
      none := by
    refine List.find?_eq_none.2 fun dir hmem => ?_
    obtain ⟨hdir, hne⟩ := hpath.of_mem_ancestors hmem
    have hbelow := ((Path.mem_ancestors_iff hpath.1 hdir.1).1 hmem).2
    have hmade := dirAt_of_passable hpath h.passable hdir.1 hbelow
    unfold Holdings.fileAt
    obtain hsame | ⟨_, hvacant, _⟩ := h.spares (mount.location dir)
    · rw [holdings_of_dirAt hdir hne (hmade.of_eq hsame.symm)]
      exact Bool.false_ne_true
    · rw [holdings_of_isPlain hdir hne, hvacant]
      exact Bool.false_ne_true
  unfold Store.wayTo
  rw [hnone]

/-- **The disk stays tidy.** -/
theorem tidy (hdirect : mount.IsDirect) (hpath : Path.IsPlain path)
    (htidy : mount.Tidy disk) : mount.Tidy mid where
  free := h.free
  named location hbeneath hsome := by
    obtain hsame | ⟨dir, hdir, hne, _, heq, _⟩ :=
      h.beneath_cases hdirect hpath hbeneath
    · exact htidy.named location hbeneath (hsame ▸ hsome)
    · exact ⟨dir, hdir, hne, heq⟩
  reached location hbeneath hsome := by
    refine ⟨?_, nul_notMem_root h.check⟩
    by_cases htop : path = "/"
    · -- on the way to the top nothing is made beneath it
      subst htop
      obtain hsame | ⟨dir, hdir, hne, hwithin, _⟩ :=
        h.beneath_cases hdirect hpath hbeneath
      · exact hdirect.passable
          (htidy.reached location hbeneath (hsame ▸ hsome)).1
          fun _ _ => h.dirAt
      · exact absurd (hwithin.eq_top hdir.1) hne
    · exact passable_root_of_passable hpath htop h.passable

end Paved

end Mount
end PathStore
