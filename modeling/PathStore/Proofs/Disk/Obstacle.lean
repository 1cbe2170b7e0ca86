import PathStore.Proofs.Disk.Way

/-!
# What stands in the way of what is not there

Nothing may be at a path for two reasons. The way can be gone and nothing
stands at its end, or the way cannot be gone at all; the latter, on a disk
without links and with names within the limit, because a directory is missing
or because a file stands where a directory is needed. The way is **blocked**
then (`Disk.Blocked`). A disk tells the two apart: it says that there is no
entry, or that something is no directory, and it says so of the first obstacle
it meets (`Disk.LinkFree.descend_of_absent`).

A path that is too long as a whole, or holds a NUL byte, is refused before
that. Which of the three it is depends on the path and the disk alone and not
on the call (`Disk.Obstacle`), so all calls that look for what is at a path
fail alike (`Disk.LinkFree.locate_of_absent`).
-/

namespace PathStore

open DiskPath (Piece resolve)

namespace Disk

variable {disk : Disk} {manner : Manner} {dir location : Location}
  {pieces front rest : List Piece} {piece : Piece} {path : DiskPath}
  {cause : DiskError}

/-- Whether there is a file at a location. -/
def FileAt (disk : Disk) (location : Location) : Prop :=
  ∃ content time, disk.node? location = some (.file content time)

/-- **Nothing is at the end of a way**, or the way cannot be gone. -/
def Absent (disk : Disk) (dir : Location) (pieces : List Piece) : Prop :=
  disk.Passable dir pieces → disk.node? (resolve dir pieces) = none

/-- **A blocked way**: it can be gone up to a file, behind which another piece
follows. -/
def Blocked (disk : Disk) (dir : Location) (pieces : List Piece) : Prop :=
  ∃ front piece, front ++ [piece] <+: pieces ∧ disk.Passable dir front ∧
    disk.FileAt (resolve dir front)

/-- A file is no directory. -/
theorem FileAt.not_dirAt (h : disk.FileAt location) :
    ¬ disk.DirAt location := by
  obtain ⟨content, time, hfile⟩ := h
  rintro ⟨later, hdir⟩
  rw [hfile] at hdir
  cases hdir

/-- A way that starts at a file is blocked at once. -/
theorem blocked_of_fileAt (h : disk.FileAt dir) :
    disk.Blocked dir (piece :: rest) :=
  ⟨[], piece, ⟨rest, rfl⟩, .nil disk dir, h⟩

/-- **A way that starts at a directory** is blocked where the rest of it is. -/
theorem blocked_cons_iff (hdir : disk.DirAt dir)
    (hname : ∀ name, piece = .name name → name.length ≤ nameLimit) :
    disk.Blocked dir (piece :: rest) ↔
      disk.Blocked (piece.lead dir) rest := by
  constructor
  · rintro ⟨front, last, hfront, hway, hfile⟩
    cases front with
    | nil => exact absurd hdir hfile.not_dirAt
    | cons first front =>
      obtain ⟨rfl, hrest⟩ := List.cons_prefix_cons.1 hfront
      exact ⟨front, last, hrest, hway.tail, hfile⟩
  · rintro ⟨front, last, hfront, hway, hfile⟩
    exact ⟨piece :: front, last, List.cons_prefix_cons.2 ⟨rfl, hfront⟩,
      .cons hdir hname hway, hfile⟩

/-- A way that starts nowhere is not blocked. -/
theorem not_blocked_of_none (h : disk.node? dir = none) :
    ¬ disk.Blocked dir pieces := by
  rintro ⟨front, piece, hfront, hway, content, time, hfile⟩
  cases front with
  | nil =>
    rw [resolve, List.foldl_nil, h] at hfile
    cases hfile
  | cons first front => exact hway.head.ne_none h

theorem Absent.tail (h : disk.Absent dir (piece :: rest))
    (hdir : disk.DirAt dir)
    (hname : ∀ name, piece = .name name → name.length ≤ nameLimit) :
    disk.Absent (piece.lead dir) rest :=
  fun hway => h (.cons hdir hname hway)

/-- **The parent of a directory is a directory.** -/
theorem IsTree.dirAt_dropLast (h : disk.IsTree) (hdir : disk.DirAt dir) :
    disk.DirAt dir.dropLast := by
  obtain rfl | ⟨front, name, rfl⟩ := List.eq_nil_or_concat' dir
  · exact hdir
  · obtain ⟨time, hnode⟩ := hdir
    rw [List.dropLast_concat]
    exact (h.2 front name _ hnode).2

/-- **What is not there is not found**: because something on the way is no
directory if the way is blocked, and otherwise because there is no entry. By
induction on the pieces, as they are followed. -/
theorem LinkFree.descend_of_absent (hfree : disk.LinkFree)
    (htree : disk.IsTree) (hmanner : manner ≠ .create)
    (hnames : ∀ name, .name name ∈ pieces → name.length ≤ nameLimit)
    (hsome : disk.node? dir ≠ none) (habsent : disk.Absent dir pieces) :
    (disk.Blocked dir pieces ∧
        disk.descend manner dir pieces = .error .notDirectory) ∨
      (¬ disk.Blocked dir pieces ∧
        (disk.descend manner dir pieces = .error .noEntry ∨
          ∃ location name, disk.descend manner dir pieces =
            .ok (.arrived (.vacant location name)))) := by
  induction pieces generalizing dir with
  | nil => exact absurd (habsent (.nil disk dir)) hsome
  | cons piece rest ih =>
    have hnamesRest : ∀ name, .name name ∈ rest → name.length ≤ nameLimit :=
      fun name hmem => hnames name (List.mem_cons_of_mem _ hmem)
    have hname : ∀ name, piece = .name name → name.length ≤ nameLimit :=
      fun name heq => hnames name (heq ▸ List.mem_cons_self)
    cases hnode : disk.node? dir with
    | none => exact absurd hnode hsome
    | some node =>
      cases node with
      | link target time => exact absurd hnode (hfree _ _ _)
      | file content time =>
        refine .inl ⟨blocked_of_fileAt ⟨content, time, hnode⟩, ?_⟩
        unfold descend
        rw [hnode]
      | dir time =>
        have hdir : disk.DirAt dir := ⟨time, hnode⟩
        rw [blocked_cons_iff hdir hname]
        have hlead := habsent.tail hdir hname
        unfold descend
        rw [hnode]
        cases piece with
        | here => exact ih hnamesRest hsome hlead
        | slash => exact ih hnamesRest hsome hlead
        | up =>
          exact ih hnamesRest (htree.dirAt_dropLast hdir).ne_none hlead
        | name name =>
          dsimp only
          rw [if_neg fun h => hmanner h.1,
            if_neg (Nat.not_lt.2 (hname name rfl))]
          cases hnext : disk.node? (dir ++ [name]) with
          | none =>
            refine .inr ⟨not_blocked_of_none hnext, ?_⟩
            by_cases hlast : rest = []
            · exact .inr ⟨dir, name, if_pos hlast⟩
            · exact .inl (if_neg hlast)
          | some next =>
            have hsomeNext : disk.node? (dir ++ [name]) ≠ none := by
              rw [hnext]
              exact Option.some_ne_none next
            cases next with
            | link target time => exact absurd hnext (hfree _ _ _)
            | file content time => exact ih hnamesRest hsomeNext hlead
            | dir time => exact ih hnamesRest hsomeNext hlead

/-- **What a disk says of a path at which nothing is.** -/
inductive Obstacle (disk : Disk) (path : DiskPath) : DiskError → Prop where
  /-- The path is refused before any directory is looked at. -/
  | unusable {cause : DiskError} (check : path.precheck = .error cause) :
    Obstacle disk path cause
  /-- A file stands where a directory is needed. -/
  | blocked (check : path.precheck = .ok ())
    (blocked : disk.Blocked [] path.pieces) : Obstacle disk path .notDirectory
  /-- The way ends at a name that is not there. -/
  | missing (check : path.precheck = .ok ())
    (clear : ¬ disk.Blocked [] path.pieces) : Obstacle disk path .noEntry

/-- There is always one obstacle or another. -/
theorem exists_obstacle (disk : Disk) (path : DiskPath) :
    ∃ cause, disk.Obstacle path cause := by
  cases hcheck : path.precheck with
  | error cause => exact ⟨cause, .unusable hcheck⟩
  | ok _ =>
    by_cases hblocked : disk.Blocked [] path.pieces
    · exact ⟨_, .blocked hcheck hblocked⟩
    · exact ⟨_, .missing hcheck hblocked⟩

/-- **What is not there is not located**, for the reason there is. -/
theorem LinkFree.locate_of_absent (hfree : disk.LinkFree)
    (htree : disk.IsTree) (hmanner : manner ≠ .create)
    (hnames : ∀ name, .name name ∈ path.pieces → name.length ≤ nameLimit)
    (habsent : disk.Absent [] path.pieces)
    (h : disk.Obstacle path cause) :
    disk.locate manner path = .error cause := by
  have hroot : disk.node? [] ≠ none := DirAt.ne_none htree.1
  have hdescend :=
    hfree.descend_of_absent htree hmanner hnames hroot habsent
  have hrefused : ∀ {cause : DiskError},
      disk.descend manner [] path.pieces = .error cause →
        disk.follow manner DiskPath.linkLimit [] path.pieces =
          .error cause := by
    intro cause hcause
    unfold follow
    rw [hcause]
  unfold locate spot
  cases h with
  | unusable check => rw [check]
  | blocked check blocked =>
    obtain ⟨_, hcause⟩ | ⟨hclear, _⟩ := hdescend
    · rw [check, hrefused hcause]
    · exact absurd blocked hclear
  | missing check clear =>
    obtain ⟨hblocked, _⟩ | ⟨_, hcause | ⟨location, name, hvacant⟩⟩ := hdescend
    · exact absurd hblocked clear
    · rw [check, hrefused hcause]
    · rw [check, hfree.follow_eq_ok_iff.2 hvacant]

/-! ## The calls -/

/-- **Every call that looks for it says why it is not there.** -/
theorem LinkFree.stat_of_absent (hfree : disk.LinkFree)
    (htree : disk.IsTree)
    (hnames : ∀ name, .name name ∈ path.pieces → name.length ≤ nameLimit)
    (habsent : disk.Absent [] path.pieces)
    (h : disk.Obstacle path cause) :
    disk.stat path = .error cause ∧ disk.lstat path = .error cause ∧
      disk.read path = .error cause := by
  have hlocate : ∀ manner, manner ≠ .create →
      disk.locate manner path = .error cause := fun manner hmanner =>
    hfree.locate_of_absent htree hmanner hnames habsent h
  have hstat : disk.stat path = .error cause := by
    unfold stat
    rw [hlocate .follow (by decide)]
  refine ⟨hstat, ?_, ?_⟩
  · unfold lstat
    rw [hlocate .stay (by decide)]
  · unfold read
    rw [hstat]

end Disk
end PathStore
