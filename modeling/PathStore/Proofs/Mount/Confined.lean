import PathStore.Proofs.Disk.Scanning
import PathStore.Proofs.Mount.Climbing

/-!
# A mount and the rest of the disk

A mount is meant to use the directory it is given and nothing else. Whether
it does depends on its paths, since it does nothing about `..` itself: what
does not climb keeps to the region of the mount, whatever is called
(`Mount.run_confined`), and what climbs may be read, written and removed
anywhere on the disk (`Mount.climbing_path_gets_out`).

What scans directories for a mount is not its own. It must look at the place it
is given and beneath it, and nowhere else.

Outside its root a mount makes directories, when it stores or moves something
and its root, or a directory that the root leads through, is missing. It looks
at these directories too. That is all it does there.
-/

namespace PathStore
namespace Mount

/-! ## Calls -/

/-- **A call of an operation of a mount.** -/
inductive Call where
  | read (status : Status) (path : String)
  | write (status : Status) (now : Time) (path : String)
      (content : ByteArray)
  | stat (status : Status) (path : String)
  | list (status : Status) (path : String)
  | move (status : Status) (now : Time) (source dest : String)
  | delete (status : Status) (path : String)

/-- **What a call answers.** -/
inductive Reply where
  | content (answer : Except Failure ByteArray)
  | entry (answer : Except Failure Entry)
  | children (answer : Except Failure (List String) × List Notice)
  | done (answer : Except Failure Unit)

/-- **Carries a call out.** -/
def Call.run (mount : Mount) (scanner : Scanner) (disk : Disk) :
    Call → Reply × Disk
  | read status path => (.content (mount.read status path disk), disk)
  | write status now path content =>
    (mount.write status now path content disk).map .done id
  | stat status path => (.entry (mount.stat status path disk), disk)
  | list status path =>
    (.children (mount.list scanner status path disk), disk)
  | move status now source dest =>
    (mount.move status now source dest disk).map .done id
  | delete status path => (mount.delete status path disk).map .done id

/-- The paths a call is about. -/
def Call.paths : Call → List String
  | read _ path => [path]
  | write _ _ path _ => [path]
  | stat _ path => [path]
  | list _ path => [path]
  | move _ _ source dest => [source, dest]
  | delete _ path => [path]

variable {mount : Mount} {scanner : Scanner} {disk other : Disk}
  {path source dest : String} {status : Status} {now : Time}

/-! ## Operations that tell -/

theorem read_eq (h : mount.region.Alike disk other)
    (hpath : ¬ Path.Climbs path) :
    mount.read status path disk = mount.read status path other := by
  unfold read
  dsimp only
  rw [h.read_eq (holds_place hpath)]

theorem stat_eq (h : mount.region.Alike disk other)
    (hpath : ¬ Path.Climbs path) :
    mount.stat status path disk = mount.stat status path other := by
  unfold stat
  dsimp only
  rw [h.lstat_eq (holds_place hpath)]

/-- Disks that agree on the region agree on all a path that does not climb is
about. -/
theorem alike_place (h : mount.region.Alike disk other)
    (hpath : ¬ Path.Climbs path) :
    (mount.place path).region.Alike disk other := by
  refine ⟨h.here, h.there, fun location hcovers => ?_⟩
  obtain hbeneath | ⟨front, hfront, rfl⟩ := hcovers
  · rw [Place.home_region] at hbeneath
    have hhome : mount.region.home <+: (mount.place path).toDiskPath.destination :=
      home_isPrefix_destination hpath
    exact h.agree_of_prefix (hhome.trans hbeneath)
  · exact h.agree _ (holds_place hpath front hfront)

theorem list_eq (hlocal : scanner.IsLocal) (h : mount.region.Alike disk other)
    (hpath : ¬ Path.Climbs path) :
    mount.list scanner status path disk =
      mount.list scanner status path other := by
  unfold list
  dsimp only
  rw [hlocal (alike_place h hpath)]

/-! ## Operations that change -/

theorem confines_makeEnclosing (h : mount.region.Alike disk other)
    (now : Time) (hpath : ¬ Path.Climbs path) :
    mount.region.Confines disk (makeEnclosing now (mount.place path) disk)
      (makeEnclosing now (mount.place path) other) := by
  unfold makeEnclosing
  split
  · exact .same h _
  · next parent outer hdirs =>
    have hholds : ∀ dir ∈ (parent :: outer).map Place.toDiskPath,
        mount.region.Holds dir := by
      intro dir hdir
      obtain ⟨place, hplace, rfl⟩ := List.mem_map.1 hdir
      exact holds_of_mem_enclosing hpath (hdirs ▸ hplace)
    refine (h.makeDirectories now hholds).andThen
      fun answer disk other heq heq' h => ?_
    rw [heq, heq']
    cases answer with
    | ok => exact .same h _
    | error cause => exact .same h _

/-- **Storing a file.** -/
theorem confines_write (h : mount.region.Alike disk other)
    (hpath : ¬ Path.Climbs path) (content : ByteArray) :
    mount.region.Confines disk (mount.write status now path content disk)
      (mount.write status now path content other) := by
  unfold write
  split
  · exact .same h _
  split
  · exact .same h _
  refine (confines_makeEnclosing h now hpath).andThen
    fun answer disk other heq heq' h => ?_
  dsimp only
  rw [heq, heq']
  cases answer with
  | error cause => exact .same h _
  | ok =>
    refine (h.write now content (holds_place hpath)
      (home_isPrefix_destination hpath)).andThen
        fun answer disk other heq heq' h => ?_
    dsimp only
    rw [heq, heq']
    cases answer with
    | ok => exact .same h _
    | error cause => exact .same h _

/-- **Moving.** -/
theorem confines_move (h : mount.region.Alike disk other)
    (hsource : ¬ Path.Climbs source) (hdest : ¬ Path.Climbs dest) :
    mount.region.Confines disk (mount.move status now source dest disk)
      (mount.move status now source dest other) := by
  unfold move
  split
  · exact .same h _
  split
  · exact .same h _
  dsimp only
  rw [← h.stat_eq (holds_place hsource)]
  split
  · exact .same h _
  refine (confines_makeEnclosing h now hdest).andThen
    fun answer disk other heq heq' h => ?_
  rw [heq, heq']
  cases answer with
  | error cause => exact .same h _
  | ok =>
    refine (h.move (holds_place hsource) (holds_place hdest)
      (home_isPrefix_destination hsource)
      (home_isPrefix_destination hdest)).andThen
        fun answer disk other heq heq' h => ?_
    dsimp only
    rw [heq, heq']
    cases answer with
    | ok => exact .same h _
    | error cause => exact .same h _

/-- **Deleting.** -/
theorem confines_delete (h : mount.region.Alike disk other)
    (hpath : ¬ Path.Climbs path) :
    mount.region.Confines disk (mount.delete status path disk)
      (mount.delete status path other) := by
  unfold delete
  split
  · exact .same h _
  dsimp only
  rw [← h.lstat_eq (holds_place hpath)]
  split
  · exact .same h _
  · next node hnode =>
    have hremoved : mount.region.Confines disk
        (if node.isDir then disk.removeTree (mount.place path).toDiskPath
          else disk.removeFile (mount.place path).toDiskPath)
        (if node.isDir then other.removeTree (mount.place path).toDiskPath
          else other.removeFile (mount.place path).toDiskPath) := by
      split
      · exact h.removeTree (holds_place hpath)
          (home_isPrefix_destination hpath)
      · exact h.removeFile (holds_place hpath)
          (home_isPrefix_destination hpath)
    refine hremoved.andThen fun answer disk other heq heq' h => ?_
    rw [heq, heq']
    cases answer with
    | ok => exact .same h _
    | error cause => exact .same h _

/-- **A call whose paths do not climb keeps to the region of the mount.** -/
theorem confines_run (hlocal : scanner.IsLocal) (call : Call)
    (h : mount.region.Alike disk other)
    (hpaths : ∀ path ∈ call.paths, ¬ Path.Climbs path) :
    mount.region.Confines disk (call.run mount scanner disk)
      (call.run mount scanner other) := by
  cases call with
  | read status path =>
    obtain ⟨hpath, _⟩ := List.forall_mem_cons.1 hpaths
    simp only [Call.run, read_eq h hpath]
    exact .same h _
  | stat status path =>
    obtain ⟨hpath, _⟩ := List.forall_mem_cons.1 hpaths
    simp only [Call.run, stat_eq h hpath]
    exact .same h _
  | list status path =>
    obtain ⟨hpath, _⟩ := List.forall_mem_cons.1 hpaths
    simp only [Call.run, list_eq hlocal h hpath]
    exact .same h _
  | write status now path content =>
    obtain ⟨hpath, _⟩ := List.forall_mem_cons.1 hpaths
    simp only [Call.run]
    exact (confines_write h hpath content).map Reply.done
  | move status now source dest =>
    obtain ⟨hsource, hrest⟩ := List.forall_mem_cons.1 hpaths
    obtain ⟨hdest, _⟩ := List.forall_mem_cons.1 hrest
    simp only [Call.run]
    exact (confines_move h hsource hdest).map Reply.done
  | delete status path =>
    obtain ⟨hpath, _⟩ := List.forall_mem_cons.1 hpaths
    simp only [Call.run]
    exact (confines_delete h hpath).map Reply.done

/-- **A mount keeps to its root if no path climbs**, if what scans directories
for it looks nowhere but where it is told to. On a disk without links what the
paths resolve to is the root or beneath it; all else stays as it is but for
directories that are made on the way to the root; and the answer is the same on
any disk that agrees with it on the root, what is beneath, and the way there. -/
theorem run_confined (mount : Mount) (call : Call) (hlocal : scanner.IsLocal)
    (hfree : disk.LinkFree) (hpaths : ∀ path ∈ call.paths, ¬ Path.Climbs path) :
    (∀ path ∈ call.paths, mount.home <+: mount.destination path) ∧
      mount.region.Spares disk (call.run mount scanner disk).2 ∧
      ∀ other, mount.region.Alike disk other →
        (call.run mount scanner disk).1 = (call.run mount scanner other).1 ∧
          mount.region.Alike (call.run mount scanner disk).2
            (call.run mount scanner other).2 := by
  refine ⟨fun path hpath => home_isPrefix_destination (hpaths path hpath),
    (confines_run hlocal call (.self hfree) hpaths).spares, fun other h => ?_⟩
  have hrun := confines_run hlocal call h hpaths
  exact ⟨hrun.answer, hrun.alike⟩

/-! ## A file beside a mount -/

/-- A mount. Its root need not be there. -/
def shop : Mount := ⟨"/srv/store"⟩

/-- The location of a file that is none of its business. -/
def key : Location := [Text.encode "etc", Text.encode "key"]

/-- A disk with that file. -/
def premises : Disk :=
  ((Disk.blank 0).insert [Text.encode "etc"] (.dir 0)).insert key
    (.file ⟨#[42]⟩ 0)

theorem linkFree_premises : premises.LinkFree :=
  ((Disk.linkFree_blank 0).insert fun _ _ heq => by cases heq).insert
    fun _ _ heq => by cases heq

/-- **A path that does not climb** leaves the file where it is, and might as
well have been used on a disk without it. -/
theorem run_confined_premises :
    let call := Call.write .live 1 "/a/../b" ⟨#[49]⟩
    (call.run shop .free premises).2.node? key = some (.file ⟨#[42]⟩ 0) ∧
      (call.run shop .free premises).1 =
        (call.run shop .free (Disk.blank 0)).1 := by
  intro call
  have hpaths : ∀ path ∈ call.paths, ¬ Path.Climbs path := by decide +kernel
  have hkey : premises.node? key = some (.file ⟨#[42]⟩ 0) := by
    decide +kernel
  obtain ⟨_, hspares, hreads⟩ :=
    run_confined shop call (Scanner.isLocal_barred _) linkFree_premises hpaths
  constructor
  · obtain hsame | ⟨_, hnone, _⟩ := hspares key (by decide +kernel)
    · exact hsame.trans hkey
    · rw [hkey] at hnone
      cases hnone
  · refine (hreads (Disk.blank 0) ⟨linkFree_premises, Disk.linkFree_blank 0,
      fun location hcovers => ?_⟩).1
    -- neither the file nor the directory it stands in is covered
    have hfile : key ≠ location := by
      rintro rfl
      exact absurd hcovers (by decide +kernel)
    have hdir : [Text.encode "etc"] ≠ location := by
      rintro rfl
      exact absurd hcovers (by decide +kernel)
    unfold premises
    rw [Disk.node?_insert, if_neg hfile, Disk.node?_insert, if_neg hdir]

/-- The root is made where it was missing, and the directory it stands in. -/
example : premises.node? [Text.encode "srv"] = none ∧
    (shop.write .live 1 "/b" ⟨#[49]⟩ premises).2.node? [Text.encode "srv"] =
      some (.dir 1) := by
  decide +kernel

/-- **A path that climbs** is well-formed and gets out: to a file beside the
root, and to the file that is none of its business. -/
theorem climbing_path_gets_out :
    Path.isValid "/../x" ∧ Path.isValid "/../../etc/key" ∧
      premises.LinkFree ∧
      ¬ shop.home <+: shop.destination "/../x" ∧
      premises.node? (shop.destination "/../x") = none ∧
      (shop.write .live 1 "/../x" ⟨#[49]⟩ premises).1 = .ok () ∧
      (shop.write .live 1 "/../x" ⟨#[49]⟩ premises).2.node?
        (shop.destination "/../x") = some (.file ⟨#[49]⟩ 1) ∧
      shop.read .live "/../../etc/key"
        (shop.write .live 1 "/../x" ⟨#[49]⟩ premises).2 = .ok ⟨#[42]⟩ := by
  refine ⟨by decide, by decide, linkFree_premises, ?_, ?_, ?_, ?_, ?_⟩
  all_goals decide +kernel

end Mount
end PathStore
