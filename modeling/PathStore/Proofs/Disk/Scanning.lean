import PathStore.Disk.Scanner
import PathStore.Proofs.Disk.Onward
import PathStore.Proofs.Disk.Region

/-!
# What can be relied on of a scanner

A scanner is chosen by whoever lists, and may do as it likes. What is expected
of one is said here, of a disk at rest (`Scanner.Lawful`): that it follows the
place it is given, and reports what keeps it from that; that it finds the
entries of a directory and nothing else; and that it finds all of them, each
once and by the order of names, unless it reports that something went wrong.

It is also expected to look nowhere but at the place and beneath it
(`Scanner.IsLocal`).

The scanners of disks with barred directories are of this sort
(`Scanner.lawful_barred`, `Scanner.isLocal_barred`), so no more is expected than
can be done.
-/

namespace PathStore

open DiskPath (resolve)

/-- **The part of a disk a place is about**: all at or beneath the location that
it resolves to, and the way there. -/
def Place.region (place : Place) : Region where
  home := place.toDiskPath.destination
  way location := ∃ front, front <+: place.toDiskPath.plainPieces ∧
    resolve [] front = location

@[simp] theorem Place.home_region (place : Place) :
    place.region.home = place.toDiskPath.destination := rfl

/-- A place stays there. -/
theorem Place.holds_region (place : Place) :
    place.region.Holds place.toDiskPath := fun front hfront =>
  .inr ⟨front, hfront, rfl⟩

namespace Scanner

/-- **A scan that finds the place itself** and nothing else. -/
def Stays (scanner : Scanner) (disk : Disk) (place : Place) : Prop :=
  ∃ start : Finding, start.depth = 0 ∧ scanner.scan disk place = [.ok start]

/-- **A scan that gets through a directory**: it finds the place itself, and then
every entry once, by the order of the bytes of their names. -/
def Reads (scanner : Scanner) (disk : Disk) (place : Place) (dir : Location) :
    Prop :=
  ∃ start : Finding, start.depth = 0 ∧ scanner.scan disk place =
    .ok start :: (disk.names dir).map fun name => .ok (.entry place name)

/-- **A scan that reports nothing.** -/
def Clear (scanner : Scanner) (disk : Disk) (place : Place) : Prop :=
  ∀ report, .error report ∉ scanner.scan disk place

/-- **A disk whose directories can all be read**: no scan of one reports
anything. -/
def Unhindered (scanner : Scanner) (disk : Disk) : Prop :=
  ∀ {place : Place} {dir : Location}, disk.Opens place.toDiskPath dir →
    scanner.Clear disk place

/-- **What is expected of a scanner** of a disk. -/
structure Lawful (scanner : Scanner) (disk : Disk) : Prop where
  /-- The standard input is found, and that is all. -/
  stdin : ∀ {place : Place}, place.isStandardInput → scanner.Stays disk place
  /-- Where nothing can be looked at, a link at the place being opened, there is
  one report, of the kind of the refusal. -/
  refused : ∀ {place : Place} {cause : DiskError}, ¬ place.isStandardInput →
    disk.stat place.toDiskPath = .error cause →
      ∃ report : Report, report.kind? = some cause.kind ∧
        scanner.scan disk place = [.error report]
  /-- What is no directory is found, and that is all. -/
  single : ∀ {place : Place} {node : DiskNode}, ¬ place.isStandardInput →
    disk.stat place.toDiskPath = .ok node → ¬ node.isDir →
      scanner.Stays disk place
  /-- What is found in a directory is an entry of it. -/
  within : ∀ {place : Place} {dir : Location} {finding : Finding},
    disk.Opens place.toDiskPath dir →
      .ok finding ∈ scanner.scan disk place → finding.depth ≠ 0 →
        finding.name ∈ disk.names dir
  /-- A directory is gone through unless something is reported. -/
  through : ∀ {place : Place} {dir : Location}, ¬ place.isStandardInput →
    disk.Opens place.toDiskPath dir → scanner.Clear disk place →
      scanner.Reads disk place dir

/-- **A scanner that looks at a place, beneath it, and nowhere else**: on disks
without links, what comes of a scan depends only on what is there and on the way
there. -/
def IsLocal (scanner : Scanner) : Prop :=
  ∀ {place : Place} {disk other : Disk}, place.region.Alike disk other →
    scanner.scan disk place = scanner.scan other place

variable {scanner : Scanner} {disk : Disk} {place : Place} {dir : Location}
  {finding : Finding} {bar : Location → Option DiskError}

theorem Stays.clear (h : scanner.Stays disk place) :
    scanner.Clear disk place := by
  obtain ⟨start, _, hscan⟩ := h
  intro report hmem
  rw [hscan, List.mem_singleton] at hmem
  cases hmem

theorem Reads.clear (h : scanner.Reads disk place dir) :
    scanner.Clear disk place := by
  obtain ⟨start, _, hscan⟩ := h
  intro report hmem
  rw [hscan, List.mem_cons, List.mem_map] at hmem
  obtain hstart | ⟨_, _, hentry⟩ := hmem
  · cases hstart
  · cases hentry

/-- **What is found beneath a place is in a directory** that the place opens. -/
theorem Lawful.exists_opens (h : scanner.Lawful disk)
    (hmem : .ok finding ∈ scanner.scan disk place) (hdepth : finding.depth ≠ 0) :
    ∃ dir, disk.Opens place.toDiskPath dir ∧ finding.name ∈ disk.names dir := by
  have hnot : ¬ scanner.Stays disk place := by
    rintro ⟨start, hstart, hscan⟩
    rw [hscan, List.mem_singleton] at hmem
    exact hdepth (Except.ok.inj hmem ▸ hstart)
  have hplace : ¬ place.isStandardInput := mt h.stdin hnot
  cases hstat : disk.stat place.toDiskPath with
  | error cause =>
    obtain ⟨report, _, hscan⟩ := h.refused hplace hstat
    rw [hscan, List.mem_singleton] at hmem
    cases hmem
  | ok node =>
    cases node with
    | dir time =>
      obtain ⟨dir, hopens⟩ := Disk.Opens.of_stat hstat
      exact ⟨dir, hopens, h.within hopens hmem hdepth⟩
    | file content time =>
      exact absurd (h.single hplace hstat Bool.false_ne_true) hnot
    | link target time =>
      exact absurd (h.single hplace hstat Bool.false_ne_true) hnot

/-! ## Barred directories -/

/-- Nothing is wrong with a scan of a directory that is not barred. -/
theorem reads_barred (hplace : ¬ place.isStandardInput)
    (hopens : disk.Opens place.toDiskPath dir) (hbar : bar dir = none) :
    (barred bar).Reads disk place dir := by
  obtain ⟨time, hstat⟩ := hopens.stat
  refine ⟨.start place, rfl, ?_⟩
  unfold barred
  dsimp only
  rw [if_neg hplace, hstat]
  dsimp only
  rw [hopens.readDirectory, hbar]

/-- What is wrong with a barred one is reported. -/
theorem scan_barred (hplace : ¬ place.isStandardInput)
    (hopens : disk.Opens place.toDiskPath dir) {cause : DiskError}
    (hbar : bar dir = some cause) :
    (barred bar).scan disk place =
      [.ok (.start place), .error (.refused place cause)] := by
  obtain ⟨time, hstat⟩ := hopens.stat
  unfold barred
  dsimp only
  rw [if_neg hplace, hstat]
  dsimp only
  rw [hopens.readDirectory, hbar]

/-- **A scanner of a disk with barred directories does what is expected.** -/
theorem lawful_barred (bar : Location → Option DiskError) (disk : Disk) :
    (barred bar).Lawful disk where
  stdin hplace := ⟨.start "<stdin>", rfl, if_pos hplace⟩
  refused {place cause} hplace hstat := by
    refine ⟨.refused place cause, Report.kind?_refused place cause, ?_⟩
    unfold barred
    dsimp only
    rw [if_neg hplace, hstat]
  single {place node} hplace hstat hdir := by
    refine ⟨.start place, rfl, ?_⟩
    unfold barred
    dsimp only
    rw [if_neg hplace, hstat]
    cases node with
    | dir time => exact absurd rfl hdir
    | file content time => rfl
    | link target time => rfl
  within {place dir finding} hopens hmem hdepth := by
    by_cases hplace : place.isStandardInput
    · unfold barred at hmem
      dsimp only at hmem
      rw [if_pos hplace, List.mem_singleton] at hmem
      cases hmem
      exact absurd rfl hdepth
    cases hbar : bar dir with
    | some cause =>
      rw [scan_barred hplace hopens hbar] at hmem
      simp only [List.mem_cons, List.not_mem_nil, or_false, Except.ok.injEq,
        reduceCtorEq] at hmem
      subst hmem
      exact absurd rfl hdepth
    | none =>
      obtain ⟨start, hstart, hscan⟩ := reads_barred hplace hopens hbar
      rw [hscan, List.mem_cons, List.mem_map] at hmem
      obtain hfirst | ⟨name, hname, hentry⟩ := hmem
      · cases hfirst
        exact absurd hstart hdepth
      · cases hentry
        exact hname
  through {place dir} hplace hopens hclear := by
    cases hbar : bar dir with
    | some cause =>
      refine absurd ?_ (hclear (.refused place cause))
      rw [scan_barred hplace hopens hbar]
      exact List.mem_cons_of_mem _ List.mem_cons_self
    | none => exact reads_barred hplace hopens hbar

/-- Where no directory is barred, all of them can be read. -/
theorem unhindered_free (disk : Disk) : free.Unhindered disk := by
  intro place dir hopens
  by_cases hplace : place.isStandardInput
  · exact ((lawful_barred _ disk).stdin hplace).clear
  · exact (reads_barred hplace hopens rfl).clear

/-- **It looks nowhere else.** -/
theorem isLocal_barred (bar : Location → Option DiskError) :
    (barred bar).IsLocal := by
  intro place disk other h
  unfold barred
  dsimp only
  rw [h.stat_eq place.holds_region,
    h.readDirectory_eq place.holds_region List.prefix_rfl bar]

end Scanner
end PathStore
