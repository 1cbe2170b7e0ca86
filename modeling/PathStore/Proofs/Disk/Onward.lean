import PathStore.Proofs.Disk.Way

/-!
# Going on from a directory

On a disk with links the pieces of a path do not say where it leads, and a way
that has been gone once may not be gone again in parts: each link that is opened
counts, and what a call does with the last piece it does with no other. Yet a
path that goes on from one that leads to a directory can be followed in two
parts. The links on the first part are opened in either case, so the rest is
followed from the directory, with as many links as are left
(`Disk.follow_onward`).

So an entry of a directory is found by the path of the directory and its name
(`Disk.Opens.locate_child`), and if it is a directory itself, and no link, the
same path opens it (`Disk.Opens.opens_child`). That is all a walk needs of a
disk.
-/

namespace PathStore

open DiskPath (Piece)

/-- **A path goes on from another by a name**, with no slash behind it. -/
structure DiskPath.GoesOnBy (child path : DiskPath) (name : Name) : Prop where
  pieces : child.plainPieces = path.plainPieces ++ [.name name]
  ends : child.getLast? ≠ some DiskPath.slash

namespace Disk

variable {disk : Disk} {manner : Manner} {dir location place : Location}
  {pieces rest ending left : List Piece} {path child target : DiskPath}
  {name : Name} {node : DiskNode} {time : Time} {links : Nat}

/-! ## In two parts -/

/-- **How following goes on from where the first part of a path leads**: from
the location that is found, or with the link that is met, where `ending` stands
behind the first part if it is followed alone and `rest` if it is not. -/
def GoesOn (disk : Disk) (manner : Manner) (ending rest : List Piece)
    (answer : Except DiskError Reach) : Reach → Prop
  | .arrived (.found location) => answer = disk.descend manner location rest
  | .arrived (.vacant ..) => True
  | .link dir target left => ∃ more, left = more ++ ending ∧
      answer = .ok (.link dir target (more ++ rest))

/-- **What is reached alone is reached on the way to more.** By induction on
the pieces of the first part. -/
theorem goesOn_descend (hmanner : manner ≠ .create) (hrest : rest ≠ [])
    (hending : ending = [] ∨ ending = [.slash]) {reached : Reach}
    (h : disk.descend .follow dir (pieces ++ ending) = .ok reached) :
    disk.GoesOn manner ending rest (disk.descend manner dir (pieces ++ rest))
      reached := by
  induction pieces generalizing dir with
  | nil =>
    obtain rfl | rfl := hending
    · cases h
      rfl
    · rw [List.nil_append] at h ⊢
      unfold descend at h
      split at h
      · cases h
      · cases h
      · cases h
      · cases h
        rfl
  | cons piece pieces ih =>
    have hmore : pieces ++ rest ≠ [] :=
      List.append_ne_nil_of_right_ne_nil _ hrest
    rw [List.cons_append] at h ⊢
    unfold descend at h ⊢
    cases hdir : disk.node? dir with
    | none => rw [hdir] at h; cases h
    | some node =>
      rw [hdir] at h
      cases node with
      | file content time => cases h
      | link target time => cases h
      | dir time =>
        dsimp only at h ⊢
        cases piece with
        | here => exact ih h
        | slash => exact ih h
        | up => exact ih h
        | name name =>
          dsimp only at h ⊢
          rw [if_neg fun hcreate => hmanner hcreate.1]
          rw [if_neg fun hcreate => absurd hcreate.1 (by decide)] at h
          by_cases hname : nameLimit < name.length
          · rw [if_pos hname] at h
            cases h
          rw [if_neg hname] at h ⊢
          cases hnext : disk.node? (dir ++ [name]) with
          | none =>
            rw [hnext] at h
            dsimp only at h
            split at h
            · cases h
              trivial
            · cases h
          | some next =>
            rw [hnext] at h
            cases next with
            | file content time => exact ih h
            | dir time => exact ih h
            | link target time =>
              dsimp only at h ⊢
              rw [if_neg fun hstay => absurd hstay.2 (by decide)] at h
              rw [if_neg fun hstay => hmore hstay.1]
              cases h
              exact ⟨pieces, rfl, rfl⟩

/-- **A path that goes on can be followed in two parts**, the second with as
many links as are left. By induction on the links that may be opened. -/
theorem follow_onward (hending : ending = [] ∨ ending = [.slash])
    (h : disk.follow .follow links dir (pieces ++ ending) =
      .ok (.found location)) :
    ∃ spare, ∀ manner rest, manner ≠ .create → rest ≠ [] →
      disk.follow manner links dir (pieces ++ rest) =
        disk.follow manner spare location rest := by
  induction links generalizing dir pieces with
  | zero =>
    refine ⟨0, fun manner rest hmanner hrest => ?_⟩
    unfold follow at h ⊢
    split at h
    · cases h
    · next hfound =>
      cases h
      have hon := goesOn_descend hmanner hrest hending hfound
      rw [show disk.descend manner dir (pieces ++ rest) = _ from hon]
    · cases h
  | succ links ih =>
    unfold follow at h
    split at h
    · cases h
    · next hfound =>
      cases h
      refine ⟨links + 1, fun manner rest hmanner hrest => ?_⟩
      have hon := goesOn_descend hmanner hrest hending hfound
      unfold follow
      rw [show disk.descend manner dir (pieces ++ rest) = _ from hon]
    · next place target left hlink =>
      -- behind the link stands what was left, and then the rest
      have hon : ∀ manner rest, manner ≠ .create → rest ≠ [] →
          disk.GoesOn manner ending rest
            (disk.descend manner dir (pieces ++ rest))
            (.link place target left) := fun _ _ hmanner hrest =>
        goesOn_descend hmanner hrest hending hlink
      obtain ⟨more, rfl, _⟩ := hon .stay [.here] (by decide) (by simp)
      dsimp only at h
      rw [← List.append_assoc] at h
      obtain ⟨spare, hspare⟩ := ih h
      refine ⟨spare, fun manner rest hmanner hrest => ?_⟩
      obtain ⟨again, hagain, hmet⟩ := hon manner rest hmanner hrest
      obtain rfl := List.append_cancel_right hagain
      rw [← hspare manner rest hmanner hrest, List.append_assoc]
      conv_lhs => unfold follow
      rw [hmet]

/-! ## Entries of a directory -/

/-- What has been found was looked for. -/
theorem locate_ok (h : disk.locate manner path = .ok location) :
    path.precheck = .ok () ∧
      disk.follow manner DiskPath.linkLimit [] path.pieces =
        .ok (.found location) := by
  unfold locate spot at h
  cases hcheck : path.precheck with
  | error cause =>
    rw [hcheck] at h
    cases h
  | ok _ =>
    rw [hcheck] at h
    dsimp only at h
    split at h
    · cases h
    · next hfound =>
      cases h
      exact ⟨rfl, hfound⟩
    · cases h

/-- A path of which anything is told can be used. -/
theorem precheck_of_lstat (h : disk.lstat path = .ok node) :
    path.precheck = .ok () := by
  unfold lstat at h
  split at h
  · cases h
  · next hlocated => exact (locate_ok hlocated).1

/-- **A path opens a directory**: it leads there, through a link at its end as
well. -/
structure Opens (disk : Disk) (path : DiskPath) (dir : Location) : Prop where
  located : disk.locate .follow path = .ok dir
  dirAt : disk.DirAt dir

/-- A path opens one directory. -/
theorem Opens.unique (h : disk.Opens path dir)
    (hother : disk.Opens path location) : dir = location :=
  Except.ok.inj (h.located.symm.trans hother.located)

theorem Opens.precheck (h : disk.Opens path dir) : path.precheck = .ok () :=
  (locate_ok h.located).1

/-- **A path that leads to a directory opens it.** -/
theorem Opens.of_stat (h : disk.stat path = .ok (.dir time)) :
    ∃ location, disk.Opens path location := by
  unfold stat at h
  split at h
  · cases h
  · next location hlocated =>
    split at h
    · next node hnode =>
      rw [Except.ok.inj h] at hnode
      exact ⟨location, hlocated, time, hnode⟩
    · cases h

/-- **A path that opens a directory leads to it**, and to the names in it unless
it is barred. -/
theorem Opens.stat (h : disk.Opens path dir) :
    ∃ time, disk.stat path = .ok (.dir time) := by
  obtain ⟨time, hdir⟩ := h.dirAt
  refine ⟨time, ?_⟩
  unfold Disk.stat
  rw [h.located]
  dsimp only
  rw [hdir]

theorem Opens.readDirectory (h : disk.Opens path dir)
    (barred : Location → Option DiskError) :
    disk.readDirectory barred path =
      match barred dir with
      | some cause => .error cause
      | none => .ok (disk.names dir) := by
  obtain ⟨time, hdir⟩ := h.dirAt
  unfold Disk.readDirectory
  rw [h.located]
  cases hbarred : barred dir <;> simp only [hdir, hbarred]

/-- **From the directory a path opens it is followed on.** -/
theorem Opens.onward (h : disk.Opens path dir) :
    ∃ spare, ∀ manner rest, manner ≠ .create → rest ≠ [] →
      disk.follow manner DiskPath.linkLimit [] (path.plainPieces ++ rest) =
        disk.follow manner spare dir rest := by
  have hfollow := (locate_ok h.located).2
  unfold DiskPath.pieces at hfollow
  split at hfollow
  · exact follow_onward (.inr rfl) hfollow
  · rw [← List.append_nil path.plainPieces] at hfollow
    exact follow_onward (.inl rfl) hfollow

/-- **A name in a directory leads to what stands there**, unless that is a link
and is to be opened. -/
theorem DirAt.follow_name (hdir : disk.DirAt dir) (hmanner : manner ≠ .create)
    (hname : name.length ≤ nameLimit)
    (hnode : disk.node? (dir ++ [name]) = some node)
    (hclosed : manner = .stay ∨ ∀ target time, node ≠ .link target time) :
    disk.follow manner links dir [.name name] =
      .ok (.found (dir ++ [name])) := by
  obtain ⟨time, hdir⟩ := hdir
  have hfound : disk.descend manner dir [.name name] =
      .ok (.arrived (.found (dir ++ [name]))) := by
    unfold descend
    rw [hdir]
    dsimp only
    rw [if_neg fun hcreate => hmanner hcreate.1,
      if_neg (Nat.not_lt.2 hname), hnode]
    cases node with
    | file content time => rfl
    | dir time => rfl
    | link target time =>
      exact if_pos ⟨rfl, hclosed.resolve_right fun h => h target time rfl⟩
  unfold follow
  rw [hfound]

namespace Opens

variable (h : disk.Opens path dir) (hchild : child.GoesOnBy path name)
  (hcheck : child.precheck = .ok ())

include h hchild hcheck

/-- **The entry of that name is named by the path.** -/
theorem entry_child : disk.entry child = .ok (dir, .name name false) := by
  obtain ⟨spare, hspare⟩ := h.onward
  have hdir : disk.follow .follow spare dir [.slash] = .ok (.found dir) := by
    obtain ⟨time, htime⟩ := h.dirAt
    have hfound : disk.descend .follow dir [.slash] =
        .ok (.arrived (.found dir)) := by
      unfold descend
      rw [htime]
      rfl
    unfold follow
    rw [hfound]
  unfold entry
  rw [hcheck]
  dsimp only [splitLast]
  rw [hchild.pieces, List.dropLast_concat, List.getLast?_concat,
    hspare .follow [.slash] (by decide) (by simp), hdir]
  dsimp only
  rw [beq_false_of_ne hchild.ends]

/-- **It is found there.** -/
theorem locate_child (hname : name.length ≤ nameLimit)
    (hnode : disk.node? (dir ++ [name]) = some node)
    (hmanner : manner ≠ .create)
    (hclosed : manner = .stay ∨ ∀ target time, node ≠ .link target time) :
    disk.locate manner child = .ok (dir ++ [name]) := by
  obtain ⟨spare, hspare⟩ := h.onward
  have hpieces : child.pieces = path.plainPieces ++ [.name name] := by
    unfold DiskPath.pieces
    rw [if_neg fun hslash => hchild.ends hslash.1, hchild.pieces]
  unfold locate spot
  rw [hcheck]
  dsimp only
  rw [hpieces, hspare manner [.name name] hmanner (by simp),
    h.dirAt.follow_name hmanner hname hnode hclosed]

/-- **What is told of it** is what stands there, a link told of itself. -/
theorem lstat_child (hname : name.length ≤ nameLimit)
    (hnode : disk.node? (dir ++ [name]) = some node) :
    disk.lstat child = .ok node := by
  unfold lstat
  rw [h.locate_child hchild hcheck hname hnode (by decide) (.inl rfl)]
  dsimp only
  rw [hnode]

/-- **A directory in the directory is opened.** -/
theorem opens_child (hname : name.length ≤ nameLimit)
    (hnode : disk.DirAt (dir ++ [name])) :
    disk.Opens child (dir ++ [name]) := by
  obtain ⟨time, htime⟩ := hnode
  refine ⟨?_, time, htime⟩
  exact h.locate_child hchild hcheck hname htime (by decide)
    (.inr fun _ _ heq => by cases heq)

end Opens

end Disk
end PathStore
