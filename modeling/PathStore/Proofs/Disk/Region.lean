import PathStore.Proofs.Disk.Changes

/-!
# Calls that keep to a region of a disk

A **region** of a disk is all that is at or beneath one location, its home,
and some locations besides, which are the way there. A path stays in a region
if each of its beginnings leads to a location of the region.

On a disk without links a call with such paths keeps to the region, in both
directions (`Region.Confines`). It **reads** nothing else: on two disks that
agree on the region the call answers the same, and they agree on it
afterwards. And it **changes** nothing but what is at or beneath home; on the
way there it may make directories that were missing, and no more. Both are
said of a call at once, since a change may depend on what was read.
-/

namespace PathStore

open DiskPath (Piece resolve)

/-- **A region of a disk.** -/
structure Region where
  /-- Where the region begins: it holds all at or beneath this. -/
  home : Location
  /-- The locations on the way there. -/
  way : Location → Prop

namespace Region

/-- Whether a location is in a region. -/
def Covers (region : Region) (location : Location) : Prop :=
  region.home <+: location ∨ region.way location

/-- **A path that stays in a region**: no beginning of it leads out. -/
def Holds (region : Region) (path : DiskPath) : Prop :=
  ∀ front, front <+: path.plainPieces → region.Covers (resolve [] front)

/-- **Two disks without links that agree on a region.** -/
structure Alike (region : Region) (disk other : Disk) : Prop where
  here : disk.LinkFree
  there : other.LinkFree
  agree : ∀ location, region.Covers location →
    disk.node? location = other.node? location

/-- **What is not at or beneath home is spared**: it is as it was, or it is a
directory on the way there, made where nothing was. -/
def Spares (region : Region) (before after : Disk) : Prop :=
  ∀ location, ¬ region.home <+: location →
    after.node? location = before.node? location ∨
      region.way location ∧ before.node? location = none ∧
        ∃ time, after.node? location = some (.dir time)

/-- **A call that keeps to a region**, made on two disks that agree on it: it
answers the same, they still agree, and the rest is spared. -/
structure Confines {α : Type} (region : Region) (before : Disk)
    (result other : α × Disk) : Prop where
  answer : result.1 = other.1
  alike : region.Alike result.2 other.2
  spares : region.Spares before result.2

variable {α β : Type} {region : Region} {disk other before : Disk}
  {path source dest : DiskPath} {location : Location} {now : Time}

/-! ## Changes -/

theorem Spares.refl (region : Region) (disk : Disk) :
    region.Spares disk disk :=
  fun _ _ => .inl rfl

theorem Spares.trans {middle after : Disk}
    (hfirst : region.Spares before middle)
    (hthen : region.Spares middle after) : region.Spares before after := by
  intro location haway
  obtain hsame | ⟨hway, hnone, hdir⟩ := hthen location haway
  · rw [hsame]
    exact hfirst location haway
  · obtain hbefore | ⟨_, _, time, hmade⟩ := hfirst location haway
    · exact .inr ⟨hway, hbefore ▸ hnone, hdir⟩
    · rw [hmade] at hnone
      cases hnone

theorem Alike.self (h : disk.LinkFree) : region.Alike disk disk :=
  ⟨h, h, fun _ _ => rfl⟩

theorem Alike.agree_of_prefix (h : region.Alike disk other)
    (hhome : region.home <+: location) :
    disk.node? location = other.node? location :=
  h.agree location (.inl hhome)

/-- Nothing is changed. -/
theorem Confines.same (h : region.Alike disk other) (answer : α) :
    region.Confines disk (answer, disk) (answer, other) :=
  ⟨rfl, h, .refl region disk⟩

/-- A file or directory is put at or beneath home. -/
theorem Confines.insert (h : region.Alike disk other) (answer : α)
    {node : DiskNode} (hnode : ∀ target time, node ≠ .link target time)
    (hhome : region.home <+: location) :
    region.Confines disk (answer, disk.insert location node)
      (answer, other.insert location node) := by
  refine ⟨rfl, ⟨h.here.insert hnode, h.there.insert hnode,
    fun place hplace => ?_⟩, fun place haway => .inl ?_⟩
  · rw [Disk.node?_insert, Disk.node?_insert, h.agree place hplace]
  · rw [Disk.node?_insert, if_neg]
    rintro rfl
    exact haway hhome

/-- A directory is made where nothing was. -/
theorem Confines.make (h : region.Alike disk other) (answer : α)
    (hcovers : region.Covers location) (hnone : disk.node? location = none) :
    region.Confines disk (answer, disk.insert location (.dir now))
      (answer, other.insert location (.dir now)) := by
  obtain hhome | hway := hcovers
  · exact .insert h answer (fun _ _ heq => by cases heq) hhome
  have hnode : ∀ target time, DiskNode.dir now ≠ .link target time :=
    fun _ _ heq => by cases heq
  refine ⟨rfl, ⟨h.here.insert hnode, h.there.insert hnode,
    fun place hplace => ?_⟩, fun place haway => ?_⟩
  · rw [Disk.node?_insert, Disk.node?_insert, h.agree place hplace]
  · rw [Disk.node?_insert]
    split
    · next heq =>
      subst heq
      exact .inr ⟨hway, hnone, now, rfl⟩
    · exact .inl rfl

/-- What is at or beneath a location at or beneath home is removed. -/
theorem Confines.prune (h : region.Alike disk other) (answer : α)
    (hhome : region.home <+: location) :
    region.Confines disk (answer, disk.prune location)
      (answer, other.prune location) := by
  refine ⟨rfl, ⟨h.here.prune, h.there.prune, fun place hplace => ?_⟩,
    fun place haway => .inl ?_⟩
  · rw [Disk.node?_prune, Disk.node?_prune, h.agree place hplace]
  · rw [Disk.node?_prune, if_neg fun hbelow => haway (hhome.trans hbelow)]

/-- What is beneath a location at or beneath home is removed. -/
theorem Confines.clear (h : region.Alike disk other) (answer : α)
    (hhome : region.home <+: location) :
    region.Confines disk (answer, disk.clear location)
      (answer, other.clear location) := by
  refine ⟨rfl, ⟨h.here.clear, h.there.clear, fun place hplace => ?_⟩,
    fun place haway => .inl ?_⟩
  · rw [Disk.node?_clear, Disk.node?_clear, h.agree place hplace]
  · rw [Disk.node?_clear, if_neg fun hbelow => haway (hhome.trans hbelow.1)]

/-- What is at or beneath a location is taken to another, both at or beneath
home. -/
theorem Confines.graft (h : region.Alike disk other) (answer : α)
    {place : Location} (hhome : region.home <+: location)
    (hplace : region.home <+: place) :
    region.Confines disk (answer, disk.graft location place)
      (answer, other.graft location place) := by
  refine ⟨rfl, ⟨h.here.graft, h.there.graft, fun at' hat => ?_⟩,
    fun at' haway => .inl ?_⟩
  · rw [Disk.node?_graft, Disk.node?_graft, h.agree at' hat,
      h.agree_of_prefix (hhome.trans (List.prefix_append _ _))]
  · rw [Disk.node?_graft, if_neg fun hto => haway (hplace.trans hto),
      if_neg fun hfrom => haway (hhome.trans hfrom)]

/-- One call after another. -/
theorem Confines.trans {first first' : α × Disk} {last last' : β × Disk}
    (hfirst : region.Confines before first first')
    (hlast : region.Confines first.2 last last') :
    region.Confines before last last' :=
  ⟨hlast.answer, hlast.alike, hfirst.spares.trans hlast.spares⟩

/-- **What is done after a call** may depend on its answer, which both disks
gave. -/
theorem Confines.andThen {first first' : α × Disk} {last last' : β × Disk}
    (hfirst : region.Confines before first first')
    (hlast : ∀ answer disk other, first = (answer, disk) →
      first' = (answer, other) → region.Alike disk other →
        region.Confines disk last last') : region.Confines before last last' :=
  hfirst.trans (hlast first.1 first.2 first'.2 rfl
    (Prod.ext hfirst.answer.symm rfl) hfirst.alike)

/-- What is made of an answer leaves the disk alone. -/
theorem Confines.map {first first' : α × Disk}
    (h : region.Confines before first first') (f : α → β) :
    region.Confines before (first.map f id) (first'.map f id) :=
  ⟨congrArg f h.answer, h.alike, h.spares⟩

/-! ## Finding the way -/

theorem Alike.spot_eq (h : region.Alike disk other) (hpath : region.Holds path)
    (manner : Disk.Manner) : disk.spot manner path = other.spot manner path :=
  h.here.spot_congr fun front hfront => h.agree _ (hpath front hfront)

theorem Alike.locate_eq (h : region.Alike disk other)
    (hpath : region.Holds path) (manner : Disk.Manner) :
    disk.locate manner path = other.locate manner path :=
  h.here.locate_congr fun front hfront => h.agree _ (hpath front hfront)

theorem Alike.entry_eq (h : region.Alike disk other)
    (hpath : region.Holds path) : disk.entry path = other.entry path :=
  h.here.entry_congr fun front hfront => h.agree _ (hpath front hfront)

theorem Holds.covers (hpath : region.Holds path) :
    region.Covers path.destination :=
  hpath _ List.prefix_rfl

/-- What a path leads to is the same. -/
theorem Alike.node?_of_locate (h : region.Alike disk other)
    (hpath : region.Holds path) {manner : Disk.Manner}
    (hlocation : disk.locate manner path = .ok location) :
    disk.node? location = other.node? location := by
  rw [h.here.location_of_locate hlocation]
  exact h.agree _ hpath.covers

/-- The names in a directory at or beneath home. -/
theorem Alike.names_eq (h : region.Alike disk other)
    (hhome : region.home <+: location) :
    disk.names location = other.names location :=
  Disk.names_congr fun _ =>
    h.agree_of_prefix (hhome.trans (List.prefix_append _ _))

/-! ## Calls that tell -/

theorem Alike.stat_eq (h : region.Alike disk other)
    (hpath : region.Holds path) : disk.stat path = other.stat path := by
  unfold Disk.stat
  rw [← h.locate_eq hpath]
  split
  · rfl
  · next location hlocation => rw [h.node?_of_locate hpath hlocation]

theorem Alike.lstat_eq (h : region.Alike disk other)
    (hpath : region.Holds path) : disk.lstat path = other.lstat path := by
  unfold Disk.lstat
  rw [← h.locate_eq hpath]
  split
  · rfl
  · next location hlocation => rw [h.node?_of_locate hpath hlocation]

theorem Alike.isDirectory_eq (h : region.Alike disk other)
    (hpath : region.Holds path) :
    disk.isDirectory path = other.isDirectory path := by
  unfold Disk.isDirectory
  rw [h.stat_eq hpath]

theorem Alike.read_eq (h : region.Alike disk other)
    (hpath : region.Holds path) : disk.read path = other.read path := by
  unfold Disk.read
  rw [h.stat_eq hpath]

theorem Alike.readDirectory_eq (h : region.Alike disk other)
    (hpath : region.Holds path) (hends : region.home <+: path.destination)
    (barred : Location → Option DiskError) :
    disk.readDirectory barred path = other.readDirectory barred path := by
  unfold Disk.readDirectory
  rw [← h.locate_eq hpath]
  split
  · rfl
  · next location hlocation =>
    rw [h.node?_of_locate hpath hlocation,
      h.here.location_of_locate hlocation, h.names_eq hends]

/-! ## Calls that change -/

/-- **Writing a file.** -/
theorem Alike.write (h : region.Alike disk other) (now : Time)
    (content : ByteArray) (hpath : region.Holds path)
    (hends : region.home <+: path.destination) :
    region.Confines disk (disk.write now path content)
      (other.write now path content) := by
  have hfile : ∀ target time, DiskNode.file content now ≠ .link target time :=
    fun _ _ heq => by cases heq
  unfold Disk.write
  rw [← h.spot_eq hpath]
  split
  · exact .same h _
  · next dir name hspot =>
    have hplace : dir ++ [name] = path.destination :=
      h.here.location_of_spot hspot
    exact .insert h _ hfile (hplace ▸ hends)
  · next location hspot =>
    have hplace : location = path.destination := h.here.location_of_spot hspot
    rw [hplace, ← h.agree _ hpath.covers]
    split
    · exact .insert h _ hfile hends
    · exact .same h _

/-- **Making a directory.** -/
theorem Alike.makeDirectory (h : region.Alike disk other) (now : Time)
    (hpath : region.Holds path) :
    region.Confines disk (disk.makeDirectory now path)
      (other.makeDirectory now path) := by
  unfold Disk.makeDirectory
  rw [← h.entry_eq hpath]
  split
  · exact .same h _
  · next dir name slash hentry =>
    rw [h.here.location_of_entry hentry, ← h.agree _ hpath.covers]
    split
    · exact .same h _
    · split
      · exact .same h _
      · next hnone => exact .make h _ hpath.covers hnone
  · exact .same h _

/-- What could not be made may be there. -/
theorem Alike.makeOrFind (h : region.Alike disk other)
    (hpath : region.Holds path) (cause : DiskError) :
    region.Confines disk
      (if disk.isDirectory path then (.ok (), disk)
        else ((.error cause : Disk.Answer Unit), disk))
      (if other.isDirectory path then (.ok (), other)
        else ((.error cause : Disk.Answer Unit), other)) := by
  rw [h.isDirectory_eq hpath]
  split <;> exact .same h _

/-- **Making a directory and those it stands in.** By induction on the list,
which is how the disk goes about it. -/
theorem Alike.makeDirectories (h : region.Alike disk other) (now : Time)
    {paths : List DiskPath} (hpaths : ∀ path ∈ paths, region.Holds path) :
    region.Confines disk (disk.makeDirectories now paths)
      (other.makeDirectories now paths) := by
  induction paths generalizing disk other with
  | nil => exact .same h _
  | cons path outer ih =>
    obtain ⟨hpath, houter⟩ := List.forall_mem_cons.1 hpaths
    unfold Disk.makeDirectories
    refine (h.makeDirectory now hpath).andThen
      fun answer disk other heq heq' h => ?_
    rw [heq, heq']
    cases answer with
    | ok => exact .same h _
    | error cause =>
      cases cause
      case noEntry =>
        -- a directory it stands in is missing
        dsimp only
        refine (ih h houter).andThen fun answer disk other heq heq' h => ?_
        rw [heq, heq']
        cases answer with
        | error cause => exact .same h _
        | ok =>
          dsimp only
          refine (h.makeDirectory now hpath).andThen
            fun answer disk other heq heq' h => ?_
          rw [heq, heq']
          cases answer with
          | ok => exact .same h _
          | error cause => exact h.makeOrFind hpath cause
      all_goals exact h.makeOrFind hpath _

/-- **Removing a file.** -/
theorem Alike.removeFile (h : region.Alike disk other)
    (hpath : region.Holds path) (hends : region.home <+: path.destination) :
    region.Confines disk (disk.removeFile path) (other.removeFile path) := by
  unfold Disk.removeFile
  rw [← h.entry_eq hpath]
  split
  · exact .same h _
  · next dir name slash hentry =>
    rw [h.here.location_of_entry hentry, ← h.agree _ hpath.covers]
    split
    · exact .same h _
    · split
      · exact .same h _
      · split
        · exact .same h _
        · split
          · exact .same h _
          · exact .prune h _ hends
  · exact .same h _

/-- **Removing an empty directory.** -/
theorem Alike.removeDirectory (h : region.Alike disk other)
    (hpath : region.Holds path) (hends : region.home <+: path.destination) :
    region.Confines disk (disk.removeDirectory path)
      (other.removeDirectory path) := by
  unfold Disk.removeDirectory
  rw [← h.entry_eq hpath]
  split
  · exact .same h _
  · exact .same h _
  · exact .same h _
  · exact .same h _
  · next dir name slash hentry =>
    rw [h.here.location_of_entry hentry, ← h.agree _ hpath.covers,
      ← h.names_eq hends]
    split
    · exact .same h _
    · split
      · exact .same h _
      · split
        · split
          · exact .prune h _ hends
          · exact .same h _
        · exact .same h _

/-- **Removing a directory with all that is beneath it.** -/
theorem Alike.removeTree (h : region.Alike disk other)
    (hpath : region.Holds path) (hends : region.home <+: path.destination) :
    region.Confines disk (disk.removeTree path) (other.removeTree path) := by
  unfold Disk.removeTree
  rw [← h.locate_eq hpath]
  split
  · exact .same h _
  · next location hlocation =>
    rw [h.here.location_of_locate hlocation, ← h.agree _ hpath.covers]
    split
    · -- it is emptied first
      have hcleared : region.Confines disk ((), disk.clear path.destination)
          ((), other.clear path.destination) := .clear h () hends
      have hremoved := hcleared.alike.removeDirectory hpath hends
      refine (hcleared.trans hremoved).andThen
        fun answer disk other heq heq' h => ?_
      dsimp only at heq heq'
      rw [heq, heq']
      cases answer with
      | ok => exact .same h _
      | error cause => cases cause <;> exact .same h _
    · exact .same h _

theorem Alike.mayReplace_eq (h : region.Alike disk other) (node : DiskNode)
    (hhome : region.home <+: location) :
    disk.mayReplace node location = other.mayReplace node location := by
  unfold Disk.mayReplace
  rw [h.agree_of_prefix hhome, h.names_eq hhome]

/-- **Moving an entry.** -/
theorem Alike.move (h : region.Alike disk other)
    (hsource : region.Holds source) (hdest : region.Holds dest)
    (hstarts : region.home <+: source.destination)
    (hends : region.home <+: dest.destination) :
    region.Confines disk (disk.move source dest) (other.move source dest) := by
  unfold Disk.move
  rw [← h.entry_eq hsource, ← h.entry_eq hdest]
  split
  · exact .same h _
  · next fromDir fromLast hfrom =>
    split
    · exact .same h _
    · next toDir toLast hto =>
      split
      · next fromName fromSlash toName toSlash =>
        rw [h.here.location_of_entry hfrom, h.here.location_of_entry hto,
          ← h.agree _ hsource.covers]
        split
        · exact .same h _
        split
        · exact .same h _
        · next node _ =>
          rw [← h.mayReplace_eq node hends]
          -- it is refused, or there already, or moved
          split
          · exact .same h _
          split
          · exact .same h _
          split
          · exact .same h _
          split
          · exact .same h _
          split
          · exact .same h _
          split
          · exact .same h _
          · exact .graft h _ hstarts hends
      · exact .same h _

end Region
end PathStore
