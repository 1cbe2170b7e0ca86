import PathStore.Proofs.Mount.Mirror
import PathStore.Proofs.Mount.Told
import PathStore.Proofs.Store.AtRest
import PathStore.Proofs.Walk.Twins

/-!
# A store in memory keeps up with a mount

Changes are made in turn in a mount, and the same changes in a store in memory
that is empty at first. Where all of them succeed in the mount, all of them
succeed in the store, and afterwards the two can no longer be told apart but by
the ages of what they hold (`Mount.keeps_up`).

The work of a single change is done elsewhere (`Mount.Tidy.carriedOut`,
`Store.IsTree.holdings_after`). Here it is put together: a store that mirrors a
mount still does when both have changed (`Mount.Mirrored.step`), so it does
after any number of changes (`Mount.Mirrored.runAll`). Of two that mirror each
other every walk is the same, since all that a walk asks is what they answer
alike (`Mount.Mirrored.twins`).

## Roots

What is shown is not true of all roots. The empty root is no directory that
could be listed, and one that is written `-` is taken for the standard input. And
a root such as `root/..` is reached by way of `root`, which is made when it is
missing, and then stands in the mount, where nobody has put it
(`Mount.tours_differ`).
-/

namespace PathStore

/-! ## Changes one after another -/

namespace Change

/-- **Makes changes in turn**, up to the first that fails. The clock is read by
the number of changes that are still to come. -/
def runAll {σ : Type u} (run : Change → Time → σ → Except Failure Unit × σ)
    (clock : Nat → Time) : List Change → σ → Except Failure Unit × σ
  | [], world => (.ok (), world)
  | change :: rest, world =>
    match run change (clock rest.length) world with
    | (.error cause, world) => (.error cause, world)
    | (.ok (), world) => runAll run clock rest world

/-- **Makes a change of a store**, under a live context. -/
def runOn (change : Change) (now : Time) (store : Store) :
    Except Failure Unit × Store :=
  (change.call now).run store

end Change

/-! ## What is empty at first -/

/-- In a tree there is nothing beneath a directory without names. -/
theorem Disk.IsTree.node?_eq_none_of_names {disk : Disk} (h : disk.IsTree)
    {dir location : Location} (hnames : disk.names dir = [])
    (hin : dir <+: location) (hne : dir ≠ location) :
    disk.node? location = none := by
  obtain ⟨rest, rfl⟩ := hin
  induction rest using List.reverseRecOn with
  | nil => exact absurd (List.append_nil dir).symm hne
  | append_singleton rest name ih =>
    cases hnode : disk.node? (dir ++ (rest ++ [name])) with
    | none => rfl
    | some node =>
      exfalso
      rw [← List.append_assoc] at hnode
      cases rest with
      | nil =>
        rw [List.append_nil] at hnode
        have hmem := Disk.mem_names.2 (Option.isSome_of_eq_some hnode)
        rw [hnames] at hmem
        cases hmem
      | cons first rest =>
        obtain ⟨_, time, hdir⟩ := h.2 _ name node hnode
        rw [ih (by simp)] at hdir
        cases hdir

namespace Mount

variable {mount : Mount} {disk next : Disk} {store : Store} {now : Time}
  {clock : Nat → Time}

/-- **The empty store mirrors a mount whose root is missing or empty.** -/
theorem mirrored_empty (htree : disk.IsTree) (hfree : disk.LinkFree)
    (hnames : disk.names mount.home = []) :
    mount.Mirrored disk Store.empty := by
  have hnone : ∀ location, mount.Beneath location →
      disk.node? location = none := fun location hlocation =>
    htree.node?_eq_none_of_names hnames hlocation.1 hlocation.2
  refine ⟨tidy_of_none hnone hfree, Store.isTree_empty, ?_⟩
  funext path
  rw [Store.holdings_eq, Store.get?_empty, holdings_of_none hnone]
  rfl

namespace Mirrored

/-- **A change that succeeds in a mount succeeds in its mirror**, which mirrors
it still. -/
theorem step (h : mount.Mirrored disk store) (hdirect : mount.IsDirect)
    {change : Change} (hplaces : ∀ path ∈ change.places, Path.IsPlain path)
    (hrun : change.runIn mount now disk = (.ok (), next)) (later : Time) :
    ∃ twin, change.runOn later store = (.ok (), twin) ∧
      mount.Mirrored next twin := by
  have hdone := h.tidy.carriedOut hdirect hplaces hrun
  have hok : ((change.call later).run store).1 = .ok () := by
    rw [h.tree.fst_run, h.same]
    exact hdone.answer later
  refine ⟨store.after (change.call later), Prod.ext hok rfl, hdone.tidy,
    h.tree.after _, ?_⟩
  rw [h.tree.holdings_after hok, Change.change_call, h.same, hdone.effect]

/-- **So do changes in turn.** -/
theorem runAll (h : mount.Mirrored disk store) (hdirect : mount.IsDirect)
    {changes : List Change}
    (hplaces : ∀ change ∈ changes, ∀ path ∈ change.places, Path.IsPlain path)
    (hrun : Change.runAll (Change.runIn mount) clock changes disk =
      (.ok (), next)) (later : Nat → Time) :
    ∃ twin, Change.runAll Change.runOn later changes store = (.ok (), twin) ∧
      mount.Mirrored next twin := by
  induction changes generalizing disk store with
  | nil =>
    obtain rfl : disk = next := (Prod.mk.inj hrun).2
    exact ⟨store, rfl, h⟩
  | cons change rest ih =>
    unfold Change.runAll at hrun
    split at hrun
    · cases hrun
    · next mid hmid =>
      obtain ⟨between, hbetween, hmirrored⟩ := h.step hdirect
        (hplaces change List.mem_cons_self) hmid (later rest.length)
      obtain ⟨twin, htwin, hlast⟩ := ih hmirrored
        (fun change hmem => hplaces change (List.mem_cons_of_mem _ hmem)) hrun
      refine ⟨twin, ?_, hlast⟩
      unfold Change.runAll
      rw [hbetween]
      exact htwin

end Mirrored
end Mount

/-! ## Walks -/

namespace Walk

/-- **A visitor that keeps what it is shown**, whatever its age, and goes
on. -/
def collect (entry : Entry) (seen : List Entry) :
    Except Failure Verdict × List Entry :=
  (.ok .proceed, seen ++ [entry.ageless])

/-- **Where nothing can be listed nothing is shown.** -/
theorem run_of_nothing {σ : Type u} {host : Host σ} {origin : String} {w : σ}
    {answer : Except Failure (List String)} (scope : Scope)
    (options : WalkOptions) (depth : Nat)
    (hcheck : host.check w = (.ok (), w))
    (hnote : ∀ notice w, host.note notice w = w)
    (hlist : host.list origin w = (answer, w))
    (hnothing : ∀ paths, answer = .ok paths → paths = []) :
    (run host scope options depth origin w).2 = w ∧
      (0 < depth → (run host scope options depth origin w).1.isSome) := by
  rw [run_of_unheard hnote]
  cases depth with
  | zero => exact ⟨rfl, fun hpos => absurd hpos (Nat.lt_irrefl 0)⟩
  | succ depth =>
    unfold level
    rw [hcheck]
    dsimp only
    rw [hlist]
    cases answer with
    | error cause => exact ⟨rfl, fun _ => rfl⟩
    | ok paths =>
      obtain rfl := hnothing paths rfl
      have hsorted : sorted [] = [] := List.mergeSort_nil
      dsimp only
      rw [hsorted]
      exact ⟨rfl, fun _ => rfl⟩

end Walk

/-- **A walk of a store from its top**, under a live context, and what it
shows. -/
def Store.tour (store : Store) (scope : Scope) (depth : Nat) :
    Option (Except Failure Unit) × List Entry :=
  Walk.run (Store.host (fun _ => store) (fun _ => .live) Walk.collect
    (fun _ seen => seen)) scope .all depth "/" []

/-- Its walk ends. -/
theorem Store.IsTree.tour_isSome {store : Store} (h : store.IsTree)
    (scope : Scope) (depth : Nat) (hdepth : store.height < depth) :
    (store.tour scope depth).1.isSome := by
  have hkeeps : (Store.host (fun _ => store) (fun _ => .live) Walk.collect
      (fun _ (seen : List Entry) => seen)).Keeps fun _ => True :=
    ⟨fun _ => trivial, fun _ => trivial, fun _ => trivial, fun _ => trivial,
      fun _ => trivial⟩
  exact Walk.run_isSome hkeeps
    (Store.ranks_host fun _ _ => ⟨h, Nat.le_refl _⟩) (by omega)
    (Nat.lt_of_lt_of_le hdepth (Nat.le_add_left _ _)) trivial

/-- Nothing is shown on a walk of an empty store. -/
theorem Store.tour_of_empty {store : Store}
    (hempty : ∀ path, store.get? path = none) (scope : Scope) (depth : Nat) :
    (store.tour scope depth).2 = [] := by
  have hpaths : ∀ paths, store.list .live "/" = .ok paths → paths = [] := by
    intro paths hlisted
    obtain ⟨_, rfl⟩ := Store.list_eq_ok hlisted
    refine List.filter_eq_nil_iff.2 fun key hkey => ?_
    have hheld := (store.mem_paths key).1 hkey
    rw [hempty key] at hheld
    cases hheld
  exact (Walk.run_of_nothing scope .all depth rfl (fun _ _ => rfl) rfl
    hpaths).1

namespace Mount

variable {mount : Mount} {scanner : Scanner} {disk next : Disk} {store : Store}
  {path : String}

/-- **A walk of a mount from its top**, under a live context, and what it
shows. -/
def tour (mount : Mount) (scanner : Scanner) (disk : Disk) (scope : Scope)
    (depth : Nat) : Option (Except Failure Unit) × List Entry :=
  Walk.run (mount.host scanner (fun _ => disk) (fun _ => .live) Walk.collect
    (fun _ seen => seen)) scope .all depth "/" []

namespace Mirrored

variable (h : mount.Mirrored disk store)

include h

/-- **What mirrors an empty store lists nothing** at its top. -/
theorem list_of_empty (hlawful : scanner.Lawful disk)
    (hempty : ∀ path, store.get? path = none) (paths : List String)
    (hlist : (mount.list scanner .live "/" disk).1 = .ok paths) :
    paths = [] := by
  refine List.eq_nil_iff_forall_not_mem.2 fun child hchild => ?_
  obtain ⟨_, _, dir, name, hopens, hname, _⟩ :=
    exists_opens_of_mem_list hlawful hlist hchild
  have hdir : dir = mount.location "/" :=
    (h.tidy.free.location_of_locate hopens.located).trans
      (destination_eq_location Path.isPlain_top)
  rw [hdir] at hname
  obtain ⟨child, _, hsome, _⟩ := h.exists_child_of_mem_names hname
  rw [hempty child] at hsome
  cases hsome

/-- Nothing is shown on a walk of it. -/
theorem tour_of_empty (hlawful : scanner.Lawful disk)
    (hempty : ∀ path, store.get? path = none) (scope : Scope) (depth : Nat) :
    (mount.tour scanner disk scope depth).2 = [] ∧
      (0 < depth → (mount.tour scanner disk scope depth).1.isSome) := by
  have hlist : (mount.host scanner (fun _ => disk) (fun _ => .live)
      Walk.collect (fun _ (seen : List Entry) => seen)).list "/" [] =
        ((mount.list scanner .live "/" disk).1, []) :=
    Prod.ext rfl (List.foldl_fixed _)
  exact Walk.run_of_nothing scope .all depth rfl (fun _ _ => rfl) hlist
    (h.list_of_empty hlawful hempty)

section Found

variable (hroot : mount.root ≠ "")
  (hstdin : ¬ Place.isStandardInput mount.root)
  (hfits : ∀ path, (store.get? path).isSome → mount.Fits path)
  (hlawful : scanner.Lawful disk) (hclear : scanner.Unhindered disk)

include hroot hstdin hfits hlawful hclear

/-- **A mount and its mirror walk alike.** -/
theorem twins :
    (mount.host scanner (fun _ => disk) (fun _ => .live) Walk.collect
        (fun _ (seen : List Entry) => seen)).Twins
      (Store.host (fun _ => store) (fun _ => .live) Walk.collect
        (fun _ seen => seen)) store.Present (fun _ => true) where
  check _ := ⟨rfl, rfl⟩
  note _ _ := ⟨rfl, rfl⟩
  list path seen hpath := by
    have hlist := h.list_eq hroot hfits hstdin hlawful hclear hpath
    have htwin : store.list .live path = .ok (store.paths.filter fun key =>
        Path.parent? key == some path) :=
      Store.lists_eq (h.isPlain_of_present hpath).1
    unfold Mount.host Store.host
    dsimp only
    rw [hlist, htwin]
    refine .ok seen ⟨rfl, fun child hchild _ => .inl ?_⟩
    exact (store.mem_paths child).1 (List.mem_filter.1 hchild).1
  stat path seen hpath := by
    obtain ⟨entry, twin, hstat, htwin, hsame, hplace⟩ :=
      h.stat_eq hroot hfits hpath
    unfold Mount.host Store.host
    dsimp only
    rw [hstat, htwin]
    have hpaths : entry.ageless.path = twin.ageless.path := by rw [hsame]
    have hdirs : entry.ageless.isDir = twin.ageless.isDir := by rw [hsame]
    refine .ok seen ⟨hpaths, hdirs, fun _ => hplace ▸ hpath, fun seen => ?_⟩
    unfold Walk.collect
    rw [hsame]
  idle path w hnot := absurd rfl hnot

/-- **The same is shown on walks of the two**, and both walks end. -/
theorem tour_eq (scope : Scope) (depth : Nat) :
    (mount.tour scanner disk scope depth).2 = (store.tour scope depth).2 ∧
      (store.height < depth → (mount.tour scanner disk scope depth).1.isSome ∧
        (store.tour scope depth).1.isSome) := by
  have hends := h.tree.tour_isSome scope depth
  by_cases hsome : ∃ other, (store.get? other).isSome
  · have hsame : mount.tour scanner disk scope depth =
        store.tour scope depth :=
      (h.twins hroot hstdin hfits hlawful hclear).run scope .all depth
        (.inr ⟨rfl, hsome⟩) []
    rw [hsame]
    exact ⟨rfl, fun hdepth => ⟨hends hdepth, hends hdepth⟩⟩
  · have hempty : ∀ path, store.get? path = none := fun path =>
      Option.not_isSome_iff_eq_none.1 fun hpath => hsome ⟨path, hpath⟩
    obtain ⟨hshown, hover⟩ := h.tour_of_empty hlawful hempty scope depth
    rw [hshown, Store.tour_of_empty hempty]
    exact ⟨rfl, fun hdepth => ⟨hover (by omega), hends hdepth⟩⟩

end Found

end Mirrored

/-! ## The whole -/

/-- **A mount and a store tell the same of a path**, but for its age. -/
structure Agrees (mount : Mount) (scanner : Scanner) (disk : Disk)
    (store : Store) (path : String) : Prop where
  stat : ∃ entry twin, mount.stat .live path disk = .ok entry ∧
    store.stat .live path = .ok twin ∧ entry.ageless = twin.ageless
  list : ∃ children, mount.list scanner .live path disk = (.ok children, []) ∧
    store.list .live path = .ok children
  read : ∀ content time, store.get? path = some (.file content time) →
    mount.read .live path disk = .ok content ∧
      store.read .live path = .ok content

theorem Mirrored.agrees (h : mount.Mirrored disk store)
    (hroot : mount.root ≠ "")
    (hstdin : ¬ Place.isStandardInput mount.root)
    (hfits : ∀ path, (store.get? path).isSome → mount.Fits path)
    (hlawful : scanner.Lawful disk) (hclear : scanner.Unhindered disk)
    (hsome : (store.get? path).isSome) :
    mount.Agrees scanner disk store path where
  stat := by
    obtain ⟨entry, twin, hstat, htwin, hsame, _⟩ :=
      h.stat_eq hroot hfits (.inl hsome)
    exact ⟨entry, twin, hstat, htwin, hsame⟩
  list := ⟨_, h.list_eq hroot hfits hstdin hlawful hclear (.inl hsome),
    Store.lists_eq (h.isPlain hsome).1.1⟩
  read _ _ hnode := h.read_eq hroot hfits hnode

/-- **A store in memory keeps up with a mount.** On a disk without links, the
root of a mount is missing or empty, the way to it leads through nothing that is
beneath it, and it is not written as the standard input is. Changes of plain
paths are made in turn in the mount, and in a store that is empty at first,
whatever their clocks say. If all of them succeed in the mount and what is left
is within the limits of the disk, then all of them succeed in the store. Where a
scanner does what is expected of it, and all directories can be read, walks of
the two, of everything or of the files alone, show the same, in the same order.
And of every path that the store holds the two tell the same, list the same and
read the same. -/
theorem keeps_up {answer : Except Failure Unit} {changes : List Change}
    {clock later : Nat → Time} (hroot : mount.root ≠ "")
    (hstdin : ¬ Place.isStandardInput mount.root) (hdirect : mount.IsDirect)
    (htree : disk.IsTree) (hfree : disk.LinkFree)
    (hempty : disk.names mount.home = [])
    (hplaces : ∀ change ∈ changes, ∀ path ∈ change.places, Path.IsPlain path)
    (hrun : Change.runAll (Change.runIn mount) clock changes disk =
      (.ok (), next))
    (hstore : Change.runAll Change.runOn later changes Store.empty =
      (answer, store))
    (hfits : ∀ path ∈ store.paths, mount.Fits path)
    (hlawful : scanner.Lawful next) (hclear : scanner.Unhindered next) :
    answer = .ok () ∧
      (∀ scope depth, (mount.tour scanner next scope depth).2 =
        (store.tour scope depth).2) ∧
      (∀ scope depth, store.height < depth →
        (mount.tour scanner next scope depth).1.isSome ∧
          (store.tour scope depth).1.isSome) ∧
      ∀ path, (store.get? path).isSome →
        mount.Agrees scanner next store path := by
  obtain ⟨twin, htwin, h⟩ := (mirrored_empty htree hfree hempty).runAll
    hdirect hplaces hrun later
  obtain ⟨rfl, rfl⟩ := Prod.mk.inj (htwin.symm.trans hstore)
  have hwithin : ∀ path, (twin.get? path).isSome → mount.Fits path :=
    fun path hsome => hfits path ((twin.mem_paths path).2 hsome)
  have htours := h.tour_eq hroot hstdin hwithin hlawful hclear
  exact ⟨rfl, fun scope depth => (htours scope depth).1,
    fun scope depth => (htours scope depth).2,
    fun path hsome => h.agrees hroot hstdin hwithin hlawful hclear hsome⟩

/-- A day at a stall: goods are put up and moved, all is cleared away, and
something else is put up. -/
def stallDay : List Change :=
  [.write "/a/b" ⟨#[49]⟩, .move "/a" "/c/d", .delete "/", .write "/c" ⟨#[50]⟩]

/-- **A store keeps up with the stall**, whose root is made, removed and made
again on the way. -/
theorem keeps_up_stall :
    let day := Change.runAll (Change.runIn ⟨"stall"⟩) (fun _ => 1) stallDay
      (Disk.blank 0)
    let store := (Change.runAll Change.runOn (fun left => left) stallDay
      Store.empty).2
    day.1 = .ok () ∧ (store.get? "/c").isSome ∧
      (∀ scope depth, ((⟨"stall"⟩ : Mount).tour .free day.2 scope depth).2 =
        (store.tour scope depth).2) ∧
      (⟨"stall"⟩ : Mount).Agrees .free day.2 store "/c" := by
  intro day store
  have hday : day.1 = .ok () := by decide +kernel
  have hheld : (store.get? "/c").isSome := by decide +kernel
  obtain ⟨_, hshown, _, hagrees⟩ := keeps_up (by decide) (by decide)
    (by decide +kernel) (Disk.isTree_blank 0) (Disk.linkFree_blank 0)
    (by decide +kernel) (by decide +kernel) (Prod.ext hday rfl) rfl
    (by decide +kernel : ∀ path ∈ store.paths, (⟨"stall"⟩ : Mount).Fits path)
    (Scanner.lawful_barred (fun _ => none) _) (Scanner.unhindered_free _)
  exact ⟨hday, hheld, hshown, hagrees "/c" hheld⟩

/-! ## Roots that will not do -/

/-- A mount whose root is reached by way of what is beneath it. -/
def roundabout : Mount := ⟨"root/.."⟩

/-- A mount whose root is not written. -/
def rootless : Mount := ⟨""⟩

/-- A file, and nothing else. -/
def single : List Change := [.write "/x" ⟨#[49]⟩]

/-- What becomes of an empty disk where it is stored in a mount. -/
def stored (mount : Mount) : Except Failure Unit × Disk :=
  Change.runAll (Change.runIn mount) (fun _ => 1) single (Disk.blank 0)

/-- What becomes of an empty store where it is stored there. -/
def kept : Except Failure Unit × Store :=
  Change.runAll Change.runOn (fun _ => 1) single Store.empty

/-- A walk of the store shows the file. -/
theorem tour_kept : kept.2.tour .everything 3 =
    (some (.ok ()), [Entry.file "/x" 1]) := by
  have htop : kept.2.list .live "/" = .ok ["/x"] := by decide +kernel
  have hfile : kept.2.stat .live "/x" =
      .ok ((Entry.file "/x" 1).withModTime 1) := by decide +kernel
  have hsorted : Walk.sorted ["/x"] = ["/x"] :=
    List.mergeSort_singleton "/x"
  simp [Store.tour, Walk.run, Walk.level, Walk.inTurn, Walk.child,
    Walk.verdict, Walk.collect, Store.host, Status.check, WalkOptions.skips,
    WalkOptions.all, Entry.withModTime, Entry.file, Entry.isDir, Entry.ageless,
    htop, hfile, hsorted]

/-- A walk of the one mount shows a directory besides. -/
theorem tour_roundabout :
    roundabout.tour .free (stored roundabout).2 .everything 3 =
      (some (.ok ()), [Entry.dir "/root", Entry.file "/x" 1]) := by
  have htop : roundabout.list .free .live "/" (stored roundabout).2 =
      (.ok ["/root", "/x"], []) := by decide +kernel
  have hroot : roundabout.list .free .live "/root" (stored roundabout).2 =
      (.ok [], []) := by decide +kernel
  have hdir : roundabout.stat .live "/root" (stored roundabout).2 =
      .ok ((Entry.dir "/root").withModTime 1) := by decide +kernel
  have hfile : roundabout.stat .live "/x" (stored roundabout).2 =
      .ok ((Entry.file "/x" 1).withModTime 1) := by decide +kernel
  have hsorted : Walk.sorted ["/root", "/x"] = ["/root", "/x"] := by
    simp [Walk.sorted, List.mergeSort]
  have hnone : Walk.sorted [] = [] := List.mergeSort_nil
  simp [tour, Walk.run, Walk.level, Walk.inTurn, Walk.child, Walk.verdict,
    Walk.collect, host, Status.check, WalkOptions.skips, WalkOptions.all,
    Entry.withModTime, Entry.dir, Entry.file, Entry.isDir, Entry.ageless,
    htop, hroot, hdir, hfile, hsorted, hnone]

/-- A walk of a mount whose top lists nothing shows nothing. -/
theorem tour_of_list_nil (hlist : mount.list scanner .live "/" disk = (.ok [], []))
    (scope : Scope) (depth : Nat) :
    (mount.tour scanner disk scope depth).2 = [] := by
  have htop : (mount.host scanner (fun _ => disk) (fun _ => .live)
      Walk.collect (fun _ (seen : List Entry) => seen)).list "/" [] =
        (.ok [], []) := by
    unfold host
    dsimp only
    rw [hlist]
    rfl
  exact (Walk.run_of_nothing scope .all depth rfl (fun _ _ => rfl) htop
    fun _ heq => (Except.ok.inj heq).symm).1

/-- **Roots that will not do.** One does not exist, the others are empty. Storing
a file succeeds in each of the mounts as it does in the store. But a walk of the
first shows what was made on the way to its root, and walks of the others show
nothing. -/
theorem tours_differ :
    (Disk.blank 0).IsTree ∧ (Disk.blank 0).LinkFree ∧
      (∀ change ∈ single, ∀ path ∈ change.places, Path.IsPlain path) ∧
      kept.1 = .ok () ∧
      kept.2.tour .everything 3 = (some (.ok ()), [Entry.file "/x" 1]) ∧
      ((Disk.blank 0).stat (Place.toDiskPath roundabout.root) =
          .error .noEntry ∧
        (∀ path ∈ kept.2.paths, roundabout.Fits path) ∧
        (stored roundabout).1 = .ok () ∧
        roundabout.tour .free (stored roundabout).2 .everything 3 =
          (some (.ok ()), [Entry.dir "/root", Entry.file "/x" 1])) ∧
      ((Disk.blank 0).names rootless.home = [] ∧
        (∀ path ∈ kept.2.paths, rootless.Fits path) ∧
        (stored rootless).1 = .ok () ∧
        (rootless.tour .free (stored rootless).2 .everything 3).2 = []) ∧
      ((Disk.blank 0).names hyphen.home = [] ∧ hyphen.IsDirect ∧
        (∀ path ∈ kept.2.paths, hyphen.Fits path) ∧
        (stored hyphen).1 = .ok () ∧
        (hyphen.tour .free (stored hyphen).2 .everything 3).2 = []) := by
  refine ⟨Disk.isTree_blank 0, Disk.linkFree_blank 0, ?_, ?_, tour_kept,
    ⟨?_, ?_, ?_, tour_roundabout⟩,
    ⟨?_, ?_, ?_, tour_of_list_nil ?_ .everything 3⟩,
    ⟨?_, ?_, ?_, ?_, tour_of_list_nil ?_ .everything 3⟩⟩
  all_goals decide +kernel

end Mount
end PathStore
