import PathStore.Proofs.Disk.Obstacle
import PathStore.Proofs.Mount.Confined
import PathStore.Proofs.Mount.Gathered
import PathStore.Proofs.Mount.Plain

/-!
# What a mount reports of what is not there

A walk passes over a path if a stat says that nothing is there, and takes a
path that lists nothing for an empty directory. So it matters what a mount
reports of a path at which nothing is. All its operations report the same, for
each looks for what is at the place, the listing through its scanner, and meets
the same obstacle on the way there (`Mount.absence_reported`). If that is a name
that is not there, be it the last, one on the way or the root, they report that
the path was not found, and the listing is empty.

A disk has more to say, and the mount passes it on. Where a file stands on the
way, nothing can be at the path, but the disk says that something is no
directory; then stat, read, delete and move report a fault of the disk, and
the listing fails (`Mount.file_hides_absence`). So it is with a place that is
too long as a whole. Asked for any of these, a store in memory finds nothing.
-/

namespace PathStore

open DiskPath (Piece resolve)

namespace Mount

variable {mount : Mount} {scanner : Scanner} {disk : Disk} {path : String}
  {cause : DiskError}

/-- **Nothing is on a disk at the place of a path.** -/
def Lacks (mount : Mount) (disk : Disk) (path : String) : Prop :=
  disk.Absent [] (mount.place path).toDiskPath.pieces

/-- Where nothing is at the location of a plain path. -/
theorem lacks_of_none (h : Path.IsPlain path)
    (hnone : disk.node? (mount.location path) = none) :
    mount.Lacks disk path := by
  intro _
  have hends : resolve [] (mount.place path).toDiskPath.pieces =
      mount.location path :=
    (DiskPath.resolve_pieces [] _).trans (destination_eq_location h)
  rw [hends, hnone]

/-- **What a mount reports of a path** at which nothing is, under a context
that is live. No call changes the disk. The listing goes by the report of the
scanner, which has none where it takes the place for the standard input. -/
structure Reports (mount : Mount) (scanner : Scanner) (disk : Disk)
    (path : String) (cause : DiskError) : Prop where
  stat : mount.stat .live path disk =
    .error (refusal path (mount.place path) cause)
  read : mount.read .live path disk =
    .error (refusal path (mount.place path) cause)
  delete : mount.delete .live path disk =
    (.error (refusal path (mount.place path) cause), disk)
  move : ∀ now dest, Path.isValid dest →
    mount.move .live now path dest disk =
      (.error (refusal path (mount.place path) cause), disk)
  list : cause = .noEntry ∨ (mount.place path).isStandardInput →
    mount.list scanner .live path disk = (.ok [], [])
  unlisted : cause ≠ .noEntry → ¬ (mount.place path).isStandardInput →
    ∃ report : Report, report.kind? = some cause.kind ∧
      scanner.scan disk (mount.place path) = [.error report] ∧
        mount.list scanner .live path disk =
          (.error (unlisted (mount.place path) report), [])

/-- **What is not there is reported alike by all operations**, by what stands
in the way of it. Let nothing be at the place of a well-formed path, on a disk
without links whose names are within the limit, and let the scanner do what is
expected of it there. Then there is an obstacle, and it is what stat, read,
delete and every move report; none of them changes the disk. If the obstacle is
that there is no entry, they report that the path was not found, and it is listed
as an empty directory; any other they report as it is. -/
theorem absence_reported (hlawful : scanner.Lawful disk) (htree : disk.IsTree)
    (hfree : disk.LinkFree) (hpath : Path.isValid path)
    (hnames : ∀ name, .name name ∈ (mount.place path).toDiskPath.pieces →
      name.length ≤ nameLimit)
    (hlacks : mount.Lacks disk path) :
    (∃ cause, disk.Obstacle (mount.place path).toDiskPath cause) ∧
      ∀ cause, disk.Obstacle (mount.place path).toDiskPath cause →
        mount.Reports scanner disk path cause := by
  refine ⟨disk.exists_obstacle _, fun cause hcause => ?_⟩
  obtain ⟨hstat, hlstat, hread⟩ :=
    hfree.stat_of_absent htree hnames hlacks hcause
  have hpermit : permit .live path driver = .ok () :=
    permit_ok hpath driver
  constructor
  · unfold Mount.stat
    rw [hpermit]
    dsimp only
    rw [hlstat]
  · unfold Mount.read
    rw [hpermit]
    dsimp only
    rw [hread]
  · unfold Mount.delete
    rw [hpermit]
    dsimp only
    rw [hlstat]
  · intro now dest hdest
    unfold Mount.move
    have hvalidate : Path.validate dest driver = .ok () :=
      permit_ok hdest driver
    rw [hpermit, hvalidate]
    dsimp only
    rw [hstat]
  · intro hnothing
    by_cases hplace : (mount.place path).isStandardInput
    · exact list_of_stays hpath (hlawful.stdin hplace)
    · obtain ⟨report, hkind, hscan⟩ := hlawful.refused hplace hstat
      rw [list_of_refused hpath hscan hkind,
        if_pos (hnothing.resolve_right hplace)]
  · intro hcause hplace
    obtain ⟨report, hkind, hscan⟩ := hlawful.refused hplace hstat
    refine ⟨report, hkind, hscan, ?_⟩
    rw [list_of_refused hpath hscan hkind, if_neg hcause]

/-! ## A file in the way -/

/-- A disk with the root of the shop, and one file in it. -/
def stockroom : Disk :=
  (((Disk.blank 0).insert [Text.encode "srv"] (.dir 0)).insert
      [Text.encode "srv", Text.encode "store"] (.dir 0)).insert
    [Text.encode "srv", Text.encode "store", Text.encode "a"]
    (.file ⟨#[49]⟩ 0)

theorem isTree_stockroom : stockroom.IsTree := by
  have hproper : ∀ word ∈ ["srv", "store", "a"],
      Name.IsProper (Text.encode word) := by
    unfold Name.IsProper
    decide +kernel
  have hsrv := (Disk.isTree_blank 0).insert [] (hproper "srv" (by simp))
    (Disk.isTree_blank 0).1 (by decide +kernel) (.dir 0)
  have hstore := hsrv.insert [Text.encode "srv"] (hproper "store" (by simp))
    ⟨0, by decide +kernel⟩ (by decide +kernel) (.dir 0)
  exact hstore.insert [Text.encode "srv", Text.encode "store"]
    (hproper "a" (by simp)) ⟨0, by decide +kernel⟩ (by decide +kernel)
    (.file ⟨#[49]⟩ 0)

theorem linkFree_stockroom : stockroom.LinkFree :=
  (((Disk.linkFree_blank 0).insert fun _ _ heq => by cases heq).insert
    fun _ _ heq => by cases heq).insert fun _ _ heq => by cases heq

/-- **A directory that is missing** is reported as absence. -/
theorem absence_reported_stockroom :
    stockroom.Obstacle (shop.place "/b/c").toDiskPath .noEntry ∧
      shop.Reports .free stockroom "/b/c" .noEntry := by
  have hpieces : (shop.place "/b/c").toDiskPath.pieces =
      ["srv", "store", "b", "c"].map fun word =>
        Piece.name (Text.encode word) := by
    decide +kernel
  have hfits : ∀ word ∈ ["srv", "store", "b", "c"], ∀ name,
      Piece.name (Text.encode word) = .name name →
        name.length ≤ nameLimit := by
    have hwords : ∀ word ∈ ["srv", "store", "b", "c"],
        (Text.encode word).length ≤ nameLimit := by
      decide +kernel
    rintro word hword _ ⟨⟩
    exact hwords word hword
  have hnames : ∀ name,
      .name name ∈ (shop.place "/b/c").toDiskPath.pieces →
        name.length ≤ nameLimit := by
    rw [hpieces]
    intro name hmem
    obtain ⟨word, hword, heq⟩ := List.mem_map.1 hmem
    exact hfits word hword name heq
  have hclear : ¬ stockroom.Blocked []
      (shop.place "/b/c").toDiskPath.pieces := by
    rw [hpieces, List.map_cons, List.map_cons, List.map_cons,
      Disk.blocked_cons_iff ⟨0, by decide +kernel⟩ (hfits "srv" (by simp)),
      Disk.blocked_cons_iff ⟨0, by decide +kernel⟩ (hfits "store" (by simp)),
      Disk.blocked_cons_iff ⟨0, by decide +kernel⟩ (hfits "b" (by simp))]
    exact Disk.not_blocked_of_none (by decide +kernel)
  have hobstacle := Disk.Obstacle.missing (by decide +kernel) hclear
  obtain ⟨_, hreports⟩ := absence_reported
    (Scanner.lawful_barred (fun _ => none) stockroom) isTree_stockroom
    linkFree_stockroom (by decide) hnames
    (lacks_of_none (by decide +kernel) (by decide +kernel))
  exact ⟨hobstacle, hreports _ hobstacle⟩

/-- **Beneath a file nothing can be**, and a mount does not say so: it reports
that something is no directory, and lists with an error. -/
theorem file_hides_absence :
    Path.IsPlain "/a/b" ∧ stockroom.IsTree ∧ stockroom.LinkFree ∧
      stockroom.node? (shop.location "/a/b") = none ∧
      shop.stat .live "/a/b" stockroom =
        .error (.disk "/srv/store/a/b" (.refused .notDirectory)) ∧
      shop.read .live "/a/b" stockroom =
        .error (.disk "/srv/store/a/b" (.refused .notDirectory)) ∧
      (shop.delete .live "/a/b" stockroom).1 =
        .error (.disk "/srv/store/a/b" (.refused .notDirectory)) ∧
      (shop.move .live 1 "/a/b" "/c" stockroom).1 =
        .error (.disk "/srv/store/a/b" (.refused .notDirectory)) ∧
      (shop.list .free .live "/a/b" stockroom).1 =
        .error (.backend (.unlisted driver (some "/srv/store/a/b")
          ("IO error for operation on /srv/store/a/b: " ++
            "Not a directory (os error 20)"))) := by
  refine ⟨by decide +kernel, isTree_stockroom, linkFree_stockroom, ?_⟩
  refine ⟨?_, ?_, ?_, ?_, ?_, ?_⟩
  all_goals decide +kernel

end Mount
end PathStore
