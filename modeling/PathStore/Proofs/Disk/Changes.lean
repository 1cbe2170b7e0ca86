import PathStore.Proofs.Disk.Resolve
import PathStore.Proofs.Text.Order
import Mathlib.Data.List.Nodup

/-!
# What becomes of each location

A change of a disk is known by what it leaves at each location, and so is
whatever is read off the map as a whole: the names in a directory are
determined by what is there, one location at a time (`Disk.names_congr`), and
a disk onto which a part of itself has been grafted holds there what the part
held (`Disk.node?_graft`). Putting, removing and grafting make no links.
-/

namespace PathStore
namespace Disk

variable {disk other : Disk} {dir source dest location : Location}

/-! ## The names in a directory -/

/-- The names in a directory are in the order of the locations they lead
to. -/
theorem names_pairwise (disk : Disk) (dir : Location) :
    (disk.names dir).Pairwise fun name next =>
      compare (dir ++ [name]) (dir ++ [next]) = .lt := by
  refine List.Pairwise.filterMap (nameIn? dir) ?_
    (Std.ExtTreeMap.ordered_keys (t := disk.nodes))
  intro location next hlt name hname last hlast
  rwa [← nameIn?_eq_some_iff.1 hname, ← nameIn?_eq_some_iff.1 hlast]

/-- Locations in one directory are in the order of their names. -/
theorem compare_concat (front : Location) (name next : Name) :
    compare (front ++ [name]) (front ++ [next]) = compare name next := by
  rw [compare_append_left, List.compare_cons_cons]
  exact Ordering.then_eq

/-- **The names in a directory are in the order of their bytes.** -/
theorem names_sorted (disk : Disk) (dir : Location) :
    (disk.names dir).Pairwise fun name next => compare name next = .lt :=
  (disk.names_pairwise dir).imp fun hlt => by rwa [compare_concat] at hlt

/-- **A directory is known by the names it holds.** -/
theorem names_congr (h : ∀ name, disk.node? (dir ++ [name]) =
    other.node? (dir ++ [name])) : disk.names dir = other.names dir := by
  have hnodup : ∀ disk : Disk, (disk.names dir).Nodup := fun disk =>
    (disk.names_pairwise dir).imp fun {name next} hlt heq => by
      have hself : compare (dir ++ [next]) (dir ++ [next]) = .eq :=
        Std.ReflCmp.compare_self
      rw [heq, hself] at hlt
      cases hlt
  have hperm : (disk.names dir).Perm (other.names dir) := by
    refine (List.perm_ext_iff_of_nodup (hnodup disk) (hnodup other)).2 ?_
    intro name
    rw [mem_names, mem_names, h name]
  refine hperm.eq_of_pairwise ?_ (disk.names_pairwise dir)
    (other.names_pairwise dir)
  intro name next _ _ hlt hgt
  have hswap : compare (dir ++ [name]) (dir ++ [next]) =
      (compare (dir ++ [next]) (dir ++ [name])).swap := Std.OrientedCmp.eq_swap
  rw [hswap, hgt] at hlt
  cases hlt

/-! ## Grafting -/

/-- The disk with nodes put elsewhere, one after another. -/
theorem node?_foldl_insert_of_ne (place : Location → Location)
    {pairs : List (Location × DiskNode)}
    (h : ∀ pair ∈ pairs, place pair.1 ≠ location) :
    (pairs.foldl (fun disk pair => disk.insert (place pair.1) pair.2)
      disk).node? location = disk.node? location := by
  induction pairs generalizing disk with
  | nil => rfl
  | cons pair pairs ih =>
    obtain ⟨hfirst, hrest⟩ := List.forall_mem_cons.1 h
    rw [List.foldl_cons, ih hrest, node?_insert, if_neg hfirst]

theorem node?_foldl_insert_of_mem (place : Location → Location)
    {pairs : List (Location × DiskNode)} {node : DiskNode}
    (hsome : ∃ pair ∈ pairs, place pair.1 = location)
    (hall : ∀ pair ∈ pairs, place pair.1 = location → pair.2 = node) :
    (pairs.foldl (fun disk pair => disk.insert (place pair.1) pair.2)
      disk).node? location = some node := by
  induction pairs generalizing disk with
  | nil =>
    obtain ⟨pair, hmem, _⟩ := hsome
    cases hmem
  | cons first pairs ih =>
    obtain ⟨hfirst, hrest⟩ := List.forall_mem_cons.1 hall
    rw [List.foldl_cons]
    by_cases hlater : ∃ pair ∈ pairs, place pair.1 = location
    · exact ih hlater hrest
    · have hnone : ∀ pair ∈ pairs, place pair.1 ≠ location :=
        fun pair hmem heq => hlater ⟨pair, hmem, heq⟩
      have hhere : place first.1 = location := by
        obtain ⟨pair, hmem, heq⟩ := hsome
        obtain rfl | hmem := List.mem_cons.1 hmem
        · exact heq
        · exact absurd heq (hnone pair hmem)
      rw [node?_foldl_insert_of_ne place hnone, node?_insert, if_pos hhere,
        hfirst hhere]

/-- **What has been grafted is where it was taken**, nothing is where it was
taken from, and all else is as it was. -/
theorem node?_graft (disk : Disk) (source dest location : Location) :
    (disk.graft source dest).node? location =
      if dest <+: location then
        disk.node? (source ++ location.drop dest.length)
      else if source <+: location then none
      else disk.node? location := by
  -- what is moved, and from where
  have hmoved : ∀ pair, pair ∈ disk.nodes.toList.filter
        (fun pair => source.isPrefixOf pair.1) ↔
      disk.node? pair.1 = some pair.2 ∧ source <+: pair.1 := by
    rintro ⟨key, node⟩
    rw [List.mem_filter, Std.ExtTreeMap.mem_toList_iff_getElem?_eq_some,
      List.isPrefixOf_iff_prefix]
    rfl
  let place : Location → Location := fun key =>
    dest ++ key.drop source.length
  show (List.foldl (fun (disk : Disk) (pair : Location × DiskNode) =>
    disk.insert (place pair.1) pair.2) _ _).node? location = _
  by_cases hto : dest <+: location
  · obtain ⟨rest, rfl⟩ := hto
    rw [if_pos (List.prefix_append dest rest), List.drop_left]
    have hfrom : ∀ pair : Location × DiskNode, source <+: pair.1 →
        dest ++ pair.1.drop source.length = dest ++ rest →
          pair.1 = source ++ rest := by
      rintro ⟨key, node⟩ ⟨tail, rfl⟩ heq
      rw [List.drop_left] at heq
      rw [List.append_cancel_left heq]
    cases hnode : disk.node? (source ++ rest) with
    | none =>
      rw [node?_foldl_insert_of_ne place, node?_prune,
        if_pos (List.prefix_append dest rest)]
      intro pair hpair heq
      obtain ⟨hsome, hsource⟩ := (hmoved pair).1 hpair
      rw [hfrom pair hsource heq, hnode] at hsome
      cases hsome
    | some node =>
      refine node?_foldl_insert_of_mem place ⟨(source ++ rest, node), ?_, ?_⟩ ?_
      · exact (hmoved _).2 ⟨hnode, List.prefix_append source rest⟩
      · show dest ++ (source ++ rest).drop source.length = dest ++ rest
        rw [List.drop_left]
      · intro pair hpair heq
        obtain ⟨hsome, hsource⟩ := (hmoved pair).1 hpair
        rw [hfrom pair hsource heq, hnode] at hsome
        exact (Option.some.inj hsome).symm
  · rw [if_neg hto, node?_foldl_insert_of_ne place, node?_prune, if_neg hto,
      node?_prune]
    rintro pair _ rfl
    exact hto (List.prefix_append dest _)

/-! ## Trees and links -/

/-- **What is put in a directory**, under a proper name that is free, keeps a
tree. -/
theorem IsTree.insert (h : disk.IsTree) (dir : Location) {name : Name}
    (hname : name.IsProper) (hdir : ∃ time, disk.node? dir = some (.dir time))
    (hfree : disk.node? (dir ++ [name]) = none) (node : DiskNode) :
    (disk.insert (dir ++ [name]) node).IsTree := by
  -- directories stay, since the name was free
  have hkept : ∀ {place}, (∃ time, disk.node? place = some (.dir time)) →
      ∃ time, (disk.insert (dir ++ [name]) node).node? place =
        some (.dir time) := by
    rintro place ⟨time, hnode⟩
    refine ⟨time, ?_⟩
    rw [node?_insert, if_neg, hnode]
    rintro rfl
    rw [hfree] at hnode
    cases hnode
  refine ⟨hkept h.1, fun place word other hnode => ?_⟩
  rw [node?_insert] at hnode
  split at hnode
  · next heq =>
    obtain ⟨rfl, hword⟩ := List.append_inj' heq rfl
    obtain rfl := List.singleton_inj.1 hword
    exact ⟨hname, hkept hdir⟩
  · obtain ⟨hword, hparent⟩ := h.2 place word other hnode
    exact ⟨hword, hkept hparent⟩

theorem linkFree_blank (time : Time) : (blank time).LinkFree := by
  intro location target other h
  have hnode : (blank time).node? location =
      if [] = location then some (.dir time) else none := by
    simp [blank, node?, Std.ExtTreeMap.getElem?_insert]
  rw [hnode] at h
  split at h <;> cases h

theorem LinkFree.insert (h : disk.LinkFree) {node : DiskNode}
    (hnode : ∀ target time, node ≠ .link target time) :
    (disk.insert location node).LinkFree := by
  intro place target time hlink
  rw [node?_insert] at hlink
  split at hlink
  · exact hnode target time (Option.some.inj hlink)
  · exact h place target time hlink

theorem LinkFree.prune (h : disk.LinkFree) : (disk.prune location).LinkFree := by
  intro place target time hlink
  rw [node?_prune] at hlink
  split at hlink
  · cases hlink
  · exact h place target time hlink

theorem LinkFree.clear (h : disk.LinkFree) : (disk.clear location).LinkFree := by
  intro place target time hlink
  rw [node?_clear] at hlink
  split at hlink
  · cases hlink
  · exact h place target time hlink

theorem LinkFree.graft (h : disk.LinkFree) :
    (disk.graft source dest).LinkFree := by
  intro place target time hlink
  rw [node?_graft] at hlink
  split at hlink
  · exact h _ target time hlink
  · split at hlink
    · cases hlink
    · exact h place target time hlink

end Disk
end PathStore
