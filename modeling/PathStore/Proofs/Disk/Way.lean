import PathStore.Proofs.Disk.Region

/-!
# Ways that can be gone

Where the pieces of a path lead is known from the pieces alone. Whether the
way there can be gone is a matter of the disk: there must be a directory
wherever another piece follows, and no name may be over the limit
(`Disk.Passable`). On a disk without links this is all that is needed, and
nothing less will do. What is found has been reached on such a way
(`Disk.passable_of_descend`), and what stands at the end of one is found
(`Disk.LinkFree.descend_of_passable`).

From this follows what a call that succeeds has found on its way and what it
leaves behind, one lemma a call. Removing a directory with all that is beneath
it is the one that takes an argument: the directory is emptied before it is
removed, and the way to it must not have led through what was in it
(`Disk.LinkFree.removeTree_ok`).
-/

namespace PathStore

open DiskPath (Piece resolve)

namespace DiskPath

variable {path : DiskPath} {pieces : List Piece}

theorem plainPieces_isPrefix_pieces (path : DiskPath) :
    path.plainPieces <+: path.pieces := by
  unfold DiskPath.pieces
  split
  · exact List.prefix_append _ _
  · exact List.prefix_rfl

/-- The last piece of a path leads to where the path does. -/
theorem destination_eq_lead {front : List Piece} {piece : Piece}
    (h : path.plainPieces = front ++ [piece]) :
    path.destination = piece.lead (resolve [] front) := by
  unfold destination
  rw [h, resolve_append]
  rfl

end DiskPath

namespace Disk

variable {disk other next : Disk} {manner : Manner} {dir location : Location}
  {pieces front rest : List Piece} {piece : Piece} {path source dest : DiskPath}
  {reached : Spot} {now : Time} {content : ByteArray}

/-- Whether there is a directory at a location. -/
def DirAt (disk : Disk) (location : Location) : Prop :=
  ∃ time, disk.node? location = some (.dir time)

/-- Where nothing has changed, directories stay. -/
theorem DirAt.of_eq (hdir : disk.DirAt location)
    (h : other.node? location = disk.node? location) :
    other.DirAt location := by
  obtain ⟨time, hdir⟩ := hdir
  exact ⟨time, h.trans hdir⟩

theorem DirAt.ne_none (hdir : disk.DirAt location) :
    disk.node? location ≠ none := by
  obtain ⟨time, hdir⟩ := hdir
  rw [hdir]
  exact Option.some_ne_none _

/-- **A way that can be gone**: a directory stands wherever another piece
follows, and no name is over the limit. -/
structure Passable (disk : Disk) (dir : Location) (pieces : List Piece) :
    Prop where
  dirs : ∀ front piece, front ++ [piece] <+: pieces →
    disk.DirAt (resolve dir front)
  names : ∀ name, .name name ∈ pieces → name.length ≤ nameLimit

namespace Passable

theorem nil (disk : Disk) (dir : Location) : disk.Passable dir [] where
  dirs front piece h := absurd (List.prefix_nil.1 h) (by simp)
  names name h := absurd h List.not_mem_nil

/-- The first piece is gone from a directory. -/
theorem head (h : disk.Passable dir (piece :: rest)) : disk.DirAt dir :=
  h.dirs [] piece ⟨rest, rfl⟩

/-- **The rest of the way can be gone.** -/
theorem tail (h : disk.Passable dir (piece :: rest)) :
    disk.Passable (piece.lead dir) rest where
  dirs front more hfront :=
    h.dirs (piece :: front) more ((List.prefix_cons_inj piece).2 hfront)
  names name hname := h.names name (List.mem_cons_of_mem piece hname)

theorem cons (hdir : disk.DirAt dir)
    (hname : ∀ name, piece = .name name → name.length ≤ nameLimit)
    (h : disk.Passable (piece.lead dir) rest) :
    disk.Passable dir (piece :: rest) where
  dirs front more hfront := by
    cases front with
    | nil => exact hdir
    | cons first front =>
      obtain ⟨rfl, htail⟩ := List.cons_prefix_cons.1 hfront
      exact h.dirs front more htail
  names name hmem := by
    obtain heq | hmem := List.mem_cons.1 hmem
    · exact hname name heq.symm
    · exact h.names name hmem

theorem of_isPrefix (h : disk.Passable dir pieces) (hfront : front <+: pieces) :
    disk.Passable dir front where
  dirs part piece hpart := h.dirs part piece (hpart.trans hfront)
  names name hname := h.names name (hfront.subset hname)

/-- **One piece more** can be gone from a directory. -/
theorem concat_iff : disk.Passable dir (pieces ++ [piece]) ↔
    disk.Passable dir pieces ∧ disk.DirAt (resolve dir pieces) ∧
      ∀ name, piece = .name name → name.length ≤ nameLimit := by
  constructor
  · intro h
    refine ⟨h.of_isPrefix (List.prefix_append _ _),
      h.dirs pieces piece List.prefix_rfl, fun name heq => h.names name ?_⟩
    rw [heq]
    exact List.mem_append_right _ List.mem_cons_self
  · rintro ⟨h, hdir, hname⟩
    refine ⟨fun part more hpart => ?_, fun name hmem => ?_⟩
    · obtain heq | hpart := List.prefix_concat_iff.1 hpart
      · rw [(List.append_inj' heq rfl).1]
        exact hdir
      · exact h.dirs part more hpart
    · obtain hmem | hmem := List.mem_append.1 hmem
      · exact h.names name hmem
      · exact hname name (List.mem_singleton.1 hmem).symm

/-- A slash asks for a directory. -/
theorem slash_iff : disk.Passable dir (pieces ++ [.slash]) ↔
    disk.Passable dir pieces ∧ disk.DirAt (resolve dir pieces) := by
  rw [concat_iff]
  refine and_congr_right fun _ => and_iff_left ?_
  intro name heq
  cases heq

/-- **Where directories stay, ways stay open.** -/
theorem of_dirs (h : disk.Passable dir pieces)
    (hdirs : ∀ front, front <+: pieces → disk.DirAt (resolve dir front) →
      other.DirAt (resolve dir front)) : other.Passable dir pieces where
  dirs front piece hfront :=
    hdirs front ((List.prefix_append _ _).trans hfront)
      (h.dirs front piece hfront)
  names := h.names

end Passable

/-! ## Following pieces -/

/-- **What is reached has been reached on a way that can be gone.** -/
theorem passable_of_descend
    (h : disk.descend manner dir pieces = .ok (.arrived reached)) :
    disk.Passable dir pieces := by
  induction pieces generalizing dir with
  | nil => exact .nil disk dir
  | cons piece rest ih =>
    unfold descend at h
    split at h
    · cases h
    · cases h
    · cases h
    · next time hdir =>
      cases piece with
      | here => exact .cons ⟨time, hdir⟩ (fun _ heq => by cases heq) (ih h)
      | slash => exact .cons ⟨time, hdir⟩ (fun _ heq => by cases heq) (ih h)
      | up => exact .cons ⟨time, hdir⟩ (fun _ heq => by cases heq) (ih h)
      | name name =>
        dsimp only at h
        split at h
        · cases h
        split at h
        · cases h
        · next hname =>
          have hfits : ∀ other, Piece.name name = .name other →
              other.length ≤ nameLimit := by
            rintro _ ⟨⟩
            exact Nat.not_lt.1 hname
          split at h
          · split at h
            · next hrest =>
              rw [hrest]
              exact .cons ⟨time, hdir⟩ hfits (.nil disk _)
            · cases h
          · split at h
            · next hrest =>
              rw [hrest.1]
              exact .cons ⟨time, hdir⟩ hfits (.nil disk _)
            · cases h
          · exact .cons ⟨time, hdir⟩ hfits (ih h)

/-- A free name is free. -/
theorem node?_of_descend_vacant {name : Name}
    (h : disk.descend manner dir pieces =
      .ok (.arrived (.vacant location name))) :
    disk.node? (location ++ [name]) = none := by
  induction pieces generalizing dir with
  | nil => cases h
  | cons piece rest ih =>
    unfold descend at h
    split at h
    · cases h
    · cases h
    · cases h
    · split at h
      · exact ih h
      · exact ih h
      · exact ih h
      · split at h
        · cases h
        split at h
        · cases h
        split at h
        · next hnone =>
          split at h
          · cases h
            exact hnone
          · cases h
        · split at h <;> cases h
        · exact ih h

/-- **What stands at the end of a way that can be gone is found.** -/
theorem LinkFree.descend_of_passable (hfree : disk.LinkFree)
    (h : disk.Passable dir pieces) (hmanner : manner ≠ .create)
    {node : DiskNode} (hnode : disk.node? (resolve dir pieces) = some node) :
    disk.descend manner dir pieces =
      .ok (.arrived (.found (resolve dir pieces))) := by
  induction pieces generalizing dir with
  | nil => rfl
  | cons piece rest ih =>
    obtain ⟨time, htime⟩ := h.head
    have hrest := ih h.tail hnode
    unfold descend
    rw [htime]
    cases piece with
    | here => exact hrest
    | slash => exact hrest
    | up => exact hrest
    | name name =>
      have hname : ¬ nameLimit < name.length :=
        Nat.not_lt.2 (h.names name List.mem_cons_self)
      -- behind the name stands what is looked for, or a directory
      obtain ⟨found, hfound⟩ :
          ∃ found, disk.node? (dir ++ [name]) = some found := by
        cases rest with
        | nil => exact ⟨node, hnode⟩
        | cons more rest =>
          obtain ⟨later, hlater⟩ := h.tail.head
          exact ⟨_, hlater⟩
      dsimp only
      rw [if_neg fun hcreate => hmanner hcreate.1, if_neg hname, hfound]
      cases found with
      | file content later => exact hrest
      | dir later => exact hrest
      | link target later => exact absurd hfound (hfree _ _ _)

/-- Without links a way is gone in one go. -/
theorem LinkFree.follow_eq_ok_iff (hfree : disk.LinkFree) {links : Nat} :
    disk.follow manner links dir pieces = .ok reached ↔
      disk.descend manner dir pieces = .ok (.arrived reached) := by
  unfold follow
  constructor
  · intro h
    split at h
    · cases h
    · next hfound =>
      cases h
      exact hfound
    · next hlink => exact absurd hlink hfree.descend_ne_link
  · intro h
    rw [h]

/-! ## Following paths -/

/-- **What a path leads to has been reached on a way that can be gone.** -/
theorem LinkFree.passable_of_spot (hfree : disk.LinkFree)
    (h : disk.spot manner path = .ok reached) :
    path.precheck = .ok () ∧ disk.Passable [] path.plainPieces := by
  unfold spot at h
  split at h
  · cases h
  · next hcheck =>
    refine ⟨hcheck, ?_⟩
    exact (passable_of_descend (hfree.follow_eq_ok_iff.1 h)).of_isPrefix
      path.plainPieces_isPrefix_pieces

theorem LinkFree.passable_of_locate (hfree : disk.LinkFree)
    (h : disk.locate manner path = .ok location) :
    path.precheck = .ok () ∧ disk.Passable [] path.plainPieces := by
  unfold locate at h
  split at h
  · cases h
  · next hspot => exact hfree.passable_of_spot hspot
  · cases h

/-- **What stands at the destination of a path is found**, where the way there
can be gone. -/
theorem LinkFree.locate_of_passable (hfree : disk.LinkFree)
    (hcheck : path.precheck = .ok ()) (h : disk.Passable [] path.pieces)
    (hmanner : manner ≠ .create) {node : DiskNode}
    (hnode : disk.node? path.destination = some node) :
    disk.locate manner path = .ok path.destination := by
  have hends : resolve [] path.pieces = path.destination :=
    DiskPath.resolve_pieces [] path
  unfold locate spot
  rw [hcheck]
  dsimp only
  rw [hfree.follow_eq_ok_iff.2
    (hfree.descend_of_passable h hmanner (hends ▸ hnode)), hends]

/-- **The directory an entry stands in has been reached.** -/
theorem LinkFree.passable_of_entry (hfree : disk.LinkFree) {last : Last}
    (h : disk.entry path = .ok (dir, last)) :
    path.precheck = .ok () ∧
      disk.Passable [] (path.plainPieces.dropLast ++ [.slash]) := by
  unfold entry at h
  split at h
  · cases h
  · next hcheck =>
    refine ⟨hcheck, ?_⟩
    dsimp only [splitLast] at h
    split at h
    · cases h
    · next hfollow =>
      exact passable_of_descend (hfree.follow_eq_ok_iff.1 hfollow)
    · cases h

/-- An entry that is known by its name. -/
theorem getLast?_of_entry {name : Name} {slash : Bool}
    (h : disk.entry path = .ok (dir, .name name slash)) :
    path.plainPieces.getLast? = some (.name name) := by
  unfold entry at h
  split at h
  · cases h
  dsimp only [splitLast] at h
  split at h
  · cases h
  · obtain ⟨_, hlast⟩ := Prod.mk.inj (Except.ok.inj h)
    split at hlast
    · next heq =>
      cases hlast
      exact heq
    all_goals cases hlast
  · cases h

/-- **An entry in a directory that can be reached is known**, by its name. -/
theorem LinkFree.entry_of_passable (hfree : disk.LinkFree)
    (hcheck : path.precheck = .ok ()) {name : Name}
    (hpieces : path.plainPieces = front ++ [.name name])
    (h : disk.Passable [] path.plainPieces) :
    ∃ slash, disk.entry path =
      .ok (path.destination.dropLast, .name name slash) := by
  rw [hpieces] at h
  obtain ⟨hfront, ⟨time, hdir⟩, _⟩ := Passable.concat_iff.1 h
  have hnode : disk.node? (resolve [] (front ++ [.slash])) =
      some (.dir time) := by
    rw [DiskPath.resolve_slash, hdir]
  have hends : resolve [] (front ++ [.slash]) = path.destination.dropLast := by
    rw [DiskPath.destination_eq_lead hpieces, DiskPath.resolve_slash]
    exact (List.dropLast_concat).symm
  have hfollow : disk.follow .follow DiskPath.linkLimit []
      (front ++ [.slash]) = .ok (.found (resolve [] (front ++ [.slash]))) :=
    hfree.follow_eq_ok_iff.2 (hfree.descend_of_passable
      (Passable.slash_iff.2 ⟨hfront, time, hdir⟩) (by decide) hnode)
  refine ⟨path.getLast? == some DiskPath.slash, ?_⟩
  unfold entry
  rw [hcheck]
  dsimp only [splitLast]
  rw [hpieces, List.dropLast_concat, hfollow, List.getLast?_concat, hends]

/-! ## Calls that succeed -/

/-- **A file that has been written** stands at the destination, where there
was no directory. -/
theorem LinkFree.write_ok (hfree : disk.LinkFree)
    (h : disk.write now path content = (.ok (), next)) :
    path.precheck = .ok () ∧ disk.Passable [] path.plainPieces ∧
      ¬ disk.DirAt path.destination ∧
      next = disk.insert path.destination (.file content now) := by
  unfold write at h
  split at h
  · cases h
  · next location name hspot =>
    obtain ⟨hcheck, hway⟩ := hfree.passable_of_spot hspot
    have hplace : location ++ [name] = path.destination :=
      hfree.location_of_spot hspot
    have hnone : disk.node? path.destination = none := by
      unfold spot at hspot
      rw [hcheck] at hspot
      rw [← hplace]
      exact node?_of_descend_vacant (hfree.follow_eq_ok_iff.1 hspot)
    refine ⟨hcheck, hway, ?_, ?_⟩
    · exact fun hdir => hdir.ne_none hnone
    · rw [← hplace]
      exact (Prod.mk.inj h).2.symm
  · next location hspot =>
    obtain ⟨hcheck, hway⟩ := hfree.passable_of_spot hspot
    obtain rfl : location = path.destination := hfree.location_of_spot hspot
    split at h
    · next hfile =>
      refine ⟨hcheck, hway, ?_, (Prod.mk.inj h).2.symm⟩
      rintro ⟨time, hdir⟩
      rw [hfile] at hdir
      cases hdir
    · cases h

/-- **What can be told of is at the destination.** -/
theorem LinkFree.stat_ok (hfree : disk.LinkFree) {node : DiskNode}
    (h : disk.stat path = .ok node) :
    disk.Passable [] path.plainPieces ∧
      disk.node? path.destination = some node := by
  unfold stat at h
  split at h
  · cases h
  · next location hlocation =>
    refine ⟨(hfree.passable_of_locate hlocation).2, ?_⟩
    rw [hfree.location_of_locate hlocation] at h
    split at h
    · next hnode => rw [hnode, Except.ok.inj h]
    · cases h

theorem LinkFree.lstat_ok (hfree : disk.LinkFree) {node : DiskNode}
    (h : disk.lstat path = .ok node) :
    path.precheck = .ok () ∧ disk.Passable [] path.plainPieces ∧
      disk.node? path.destination = some node := by
  unfold lstat at h
  split at h
  · cases h
  · next location hlocation =>
    obtain ⟨hcheck, hway⟩ := hfree.passable_of_locate hlocation
    refine ⟨hcheck, hway, ?_⟩
    rw [hfree.location_of_locate hlocation] at h
    split at h
    · next hnode => rw [hnode, Except.ok.inj h]
    · cases h

/-- **An entry that has been moved** was there, neither place stands in the
other, and it is grafted unless they are one. -/
theorem LinkFree.move_ok (hfree : disk.LinkFree)
    (h : disk.move source dest = (.ok (), next)) :
    dest.precheck = .ok () ∧ disk.Passable [] dest.plainPieces ∧
      ¬ source.destination <+: dest.destination.dropLast ∧
      ¬ dest.destination <+: source.destination.dropLast ∧
      next = (if source.destination = dest.destination then disk
        else disk.graft source.destination dest.destination) := by
  unfold move at h
  split at h
  · cases h
  · next fromDir fromLast hfrom =>
    split at h
    · cases h
    · next toDir toLast hto =>
      split at h
      · next fromName fromSlash toName toSlash =>
        obtain ⟨hcheck, hway⟩ := hfree.passable_of_entry hto
        obtain ⟨front, hfront⟩ :=
          List.getLast?_eq_some_iff.1 (getLast?_of_entry hto)
        have hsource := hfree.location_of_entry hfrom
        have hdest := hfree.location_of_entry hto
        split at h
        · cases h
        split at h
        · cases h
        split at h
        · cases h
        · next hname =>
          split at h
          · cases h
          split at h
          · cases h
          · next hbeneath =>
            split at h
            · cases h
            · next hover =>
              rw [List.isPrefixOf_iff_prefix] at hbeneath hover
              refine ⟨hcheck, ?_, ?_, ?_, ?_⟩
              · rw [hfront, List.dropLast_concat] at hway
                rw [hfront]
                obtain ⟨hway, hdir⟩ := Passable.slash_iff.1 hway
                refine Passable.concat_iff.2 ⟨hway, hdir, ?_⟩
                rintro _ ⟨⟩
                exact Nat.not_lt.1 hname
              · rwa [← hdest, ← hsource, List.dropLast_concat]
              · rwa [← hdest, ← hsource, List.dropLast_concat]
              · rw [hsource, hdest] at h
                split at h
                · next heq => rw [if_pos heq, (Prod.mk.inj h).2]
                · next hne =>
                  rw [if_neg hne]
                  split at h
                  · cases h
                  · exact (Prod.mk.inj h).2.symm
      · cases h

/-- **To make directories is to do so where nothing was**, at the places the
paths lead through. -/
theorem LinkFree.makeDirectories_spares (hfree : disk.LinkFree) (now : Time)
    {paths : List DiskPath} (way : Location → Prop)
    (hpaths : ∀ path ∈ paths, ∀ front, front <+: path.plainPieces →
      way (resolve [] front)) :
    (disk.makeDirectories now paths).2.LinkFree ∧
      ∀ location,
        (disk.makeDirectories now paths).2.node? location =
            disk.node? location ∨
          way location ∧ disk.node? location = none ∧
            (disk.makeDirectories now paths).2.DirAt location := by
  -- a region whose home is out of sight is spared everywhere in sight
  have hkept : ∀ home : Location, (⟨home, way⟩ : Region).Confines disk
      (disk.makeDirectories now paths) (disk.makeDirectories now paths) :=
    fun home => (Region.Alike.self hfree).makeDirectories now
      fun path hpath front hfront => .inr (hpaths path hpath front hfront)
  refine ⟨(hkept []).alike.here, fun location => ?_⟩
  exact (hkept (location ++ [[]])).spares location fun habove =>
    absurd habove.length_le (by simp)

/-- **A file that has been removed** is gone. -/
theorem LinkFree.removeFile_ok (hfree : disk.LinkFree)
    (h : disk.removeFile path = (.ok (), next)) :
    next = disk.prune path.destination := by
  unfold removeFile at h
  split at h
  · cases h
  · next dir name slash hentry =>
    rw [hfree.location_of_entry hentry] at h
    split at h
    · cases h
    split at h
    · cases h
    split at h
    · cases h
    split at h
    · cases h
    · exact (Prod.mk.inj h).2.symm
  · cases h

/-- A directory is removed or left as it is. -/
theorem LinkFree.snd_removeDirectory (hfree : disk.LinkFree)
    (path : DiskPath) : (disk.removeDirectory path).2 = disk ∨
      (disk.removeDirectory path).2 = disk.prune path.destination := by
  unfold removeDirectory
  split
  · exact .inl rfl
  · exact .inl rfl
  · exact .inl rfl
  · exact .inl rfl
  · next dir name slash hentry =>
    rw [hfree.location_of_entry hentry]
    split
    · exact .inl rfl
    split
    · exact .inl rfl
    split
    · split
      · exact .inr rfl
      · exact .inl rfl
    · exact .inl rfl

/-- **A directory that has been removed with all beneath it** has been emptied
at least. -/
theorem LinkFree.removeTree_ok (hfree : disk.LinkFree)
    (h : disk.removeTree path = (.ok (), next)) :
    next = disk.clear path.destination ∨
      next = (disk.clear path.destination).prune path.destination := by
  unfold removeTree at h
  split at h
  · cases h
  · next location hlocation =>
    rw [hfree.location_of_locate hlocation] at h
    split at h
    · have hclear : (disk.clear path.destination).LinkFree := hfree.clear
      have hremoved := hclear.snd_removeDirectory path
      split at h
      · next cleared hcleared =>
        rw [hcleared] at hremoved
        rwa [← (Prod.mk.inj h).2]
      · rw [h] at hremoved
        exact hremoved
    · cases h

/-- **A directory that is found by its name** is removed, or not for want of
it. -/
theorem LinkFree.removeDirectory_of_entry (hfree : disk.LinkFree)
    {name : Name} {slash : Bool}
    (hentry : disk.entry path = .ok (dir, .name name slash))
    (hdir : disk.DirAt path.destination) :
    disk.removeDirectory path = (.ok (), disk.prune path.destination) ∨
      ∃ cause, cause ≠ .noEntry ∧
        disk.removeDirectory path = (.error cause, disk) := by
  obtain ⟨time, hdir⟩ := hdir
  unfold removeDirectory
  rw [hentry]
  dsimp only
  rw [hfree.location_of_entry hentry, hdir]
  by_cases hname : nameLimit < name.length
  · exact .inr ⟨.nameTooLong, by decide, if_pos hname⟩
  rw [if_neg hname]
  by_cases hempty : (disk.names path.destination).isEmpty
  · exact .inl (if_pos hempty)
  · exact .inr ⟨.notEmpty, by decide, if_neg hempty⟩

/-- **It is gone** if the way to its name did not lead through what was beneath
it. -/
theorem LinkFree.removeTree_ok_of_passable (hfree : disk.LinkFree)
    (h : disk.removeTree path = (.ok (), next))
    (hcheck : path.precheck = .ok ()) {name : Name}
    (hpieces : path.plainPieces = front ++ [.name name])
    (hway : (disk.clear path.destination).Passable [] path.plainPieces) :
    next = (disk.clear path.destination).prune path.destination := by
  have hclear : (disk.clear path.destination).LinkFree := hfree.clear
  obtain ⟨slash, hentry⟩ := hclear.entry_of_passable hcheck hpieces hway
  unfold removeTree at h
  split at h
  · cases h
  · next location hlocation =>
    rw [hfree.location_of_locate hlocation] at h
    split at h
    · next time hdir =>
      have hkept : (disk.clear path.destination).DirAt path.destination := by
        refine ⟨time, ?_⟩
        rw [node?_clear, if_neg fun hin => hin.2 rfl, hdir]
      obtain hgone | ⟨cause, hcause, hfails⟩ :=
        hclear.removeDirectory_of_entry hentry hkept
      · rw [hgone] at h
        exact (Prod.mk.inj h).2.symm
      · rw [hfails] at h
        cases cause <;> first | exact absurd rfl hcause | cases h
    · cases h

end Disk
end PathStore
