import PathStore.Mount
import PathStore.Proofs.Disk.Scanning
import PathStore.Proofs.Store.Changes

/-!
# From a scan to a listing

A listing is read off the results of a scan one by one. What they come to is
told in one place: unless a result ends the listing, every other one is listed,
is left out with a notice, or is passed over, each by itself
(`Mount.gather_of_calm`); and the first that ends it is what the listing fails
with (`Mount.gather_of_ends`).

With what is expected of scanners this says what a mount lists where there is no
directory (`Mount.list_of_stays`, `Mount.list_of_refused`), and that it lists
entries of the directory that the path opens, whatever has been reported
(`Mount.exists_opens_of_mem_list`).
-/

namespace PathStore
namespace Mount

/-- **A result that ends a listing**: a report of anything but absence. -/
def Ends : Except Report Finding → Prop
  | .ok _ => False
  | .error report => report.kind? ≠ some .notFound

instance : DecidablePred Ends
  | .ok _ => inferInstanceAs (Decidable False)
  | .error report => inferInstanceAs (Decidable (report.kind? ≠ some .notFound))

/-- The child that a result is listed as. -/
def child? (path : String) : Except Report Finding → Option String
  | .error _ => none
  | .ok finding =>
    if finding.depth = 0 then none else (address path finding).toOption

/-- The notice with which a result is left out. -/
def notice? (path : String) : Except Report Finding → Option Notice
  | .error _ => none
  | .ok finding =>
    if finding.depth = 0 then none
    else
      match address path finding with
      | .ok _ => none
      | .error notice => some notice

variable {mount : Mount} {scanner : Scanner} {disk : Disk} {path child : String}
  {place : Place} {report : Report} {cause : DiskError}
  {results front rest : List (Except Report Finding)} {children : List String}

/-- **Before results that go on, some that do not end the listing** add what they
come to. By induction on the results, which is how they are gathered. -/
theorem gather_append (hcalm : ∀ result ∈ front, ¬ Ends result) :
    gather path place (front ++ rest) =
      ((gather path place rest).1.map (front.filterMap (child? path) ++ ·),
        front.filterMap (notice? path) ++ (gather path place rest).2) := by
  induction front with
  | nil =>
    rw [List.filterMap_nil, List.filterMap_nil, List.nil_append, List.nil_append]
    cases hanswer : (gather path place rest).1 with
    | ok found => exact Prod.ext hanswer rfl
    | error failure => exact Prod.ext hanswer rfl
  | cons result front ih =>
    obtain ⟨hfirst, hfront⟩ := List.forall_mem_cons.1 hcalm
    rw [List.cons_append, gather.eq_def]
    cases result with
    | error report =>
      have hgone : report.kind? = some .notFound := Decidable.not_not.1 hfirst
      dsimp only
      rw [if_pos hgone, ih hfront]
      rfl
    | ok finding =>
      dsimp only
      by_cases hdepth : finding.depth = 0
      · rw [if_pos hdepth, ih hfront]
        simp only [List.filterMap_cons, child?, notice?, if_pos hdepth]
      · rw [if_neg hdepth, ih hfront]
        cases haddress : address path finding with
        | ok child =>
          simp only [List.filterMap_cons, child?, notice?, if_neg hdepth,
            haddress, Except.toOption]
          cases (gather path place rest).1 with
          | ok found => rfl
          | error failure => rfl
        | error notice =>
          simp only [List.filterMap_cons, child?, notice?, if_neg hdepth,
            haddress, Except.toOption, List.cons_append]

/-- **Unless a result ends it a listing is made of all that is listed.** -/
theorem gather_of_calm (hcalm : ∀ result ∈ results, ¬ Ends result) :
    gather path place results =
      (.ok (results.filterMap (child? path)),
        results.filterMap (notice? path)) := by
  have happend : gather path place (results ++ []) = _ := gather_append hcalm
  rw [List.append_nil] at happend
  rw [happend]
  unfold gather
  simp only [Except.map, List.append_nil]

/-- **The first result that ends a listing is what it fails with.** -/
theorem gather_of_ends (hcalm : ∀ result ∈ front, ¬ Ends result)
    (hends : Ends (.error report)) :
    gather path place (front ++ .error report :: rest) =
      (.error (unlisted place report), front.filterMap (notice? path)) := by
  have hfails : gather path place (.error report :: rest) =
      (.error (unlisted place report), []) := by
    unfold gather
    exact if_neg hends
  rw [gather_append hcalm, hfails, List.append_nil]
  rfl

/-- **A listing succeeds exactly if no result ends it.** -/
theorem gather_eq_ok_iff : (gather path place results).1 = .ok children ↔
    (∀ result ∈ results, ¬ Ends result) ∧
      results.filterMap (child? path) = children := by
  cases hfirst : results.find? (Ends ·) with
  | none =>
    have hcalm : ∀ result ∈ results, ¬ Ends result := by
      simpa using hfirst
    rw [gather_of_calm hcalm, Except.ok.injEq]
    exact ⟨fun heq => ⟨hcalm, heq⟩, fun h => h.2⟩
  | some result =>
    obtain ⟨hends, front, rest, rfl, hcalm⟩ :=
      List.find?_eq_some_iff_append.1 hfirst
    have hends : Ends result := of_decide_eq_true hends
    have hcalm : ∀ result ∈ front, ¬ Ends result := by simpa using hcalm
    cases result with
    | ok finding => exact absurd hends id
    | error report =>
      rw [gather_of_ends hcalm hends]
      constructor
      · intro heq
        cases heq
      · intro h
        exact absurd hends
          (h.1 _ (List.mem_append_right _ List.mem_cons_self))

/-- What has been listed was found, beneath the place. -/
theorem exists_finding_of_mem
    (hmem : child ∈ results.filterMap (child? path)) :
    ∃ finding : Finding, .ok finding ∈ results ∧ finding.depth ≠ 0 ∧
      child = Path.join path (Text.decode finding.name) ∧
        Path.isValid child := by
  obtain ⟨result, hresult, hchild⟩ := List.mem_filterMap.1 hmem
  cases result with
  | error report => cases hchild
  | ok finding =>
    by_cases hdepth : finding.depth = 0
    · simp [child?, hdepth] at hchild
    by_cases hvalid : Path.isValid (Path.join path (Text.decode finding.name))
    · simp only [child?, if_neg hdepth, address, if_pos hvalid,
        Except.toOption, Option.some.injEq] at hchild
      exact ⟨finding, hresult, hdepth, hchild.symm, hchild ▸ hvalid⟩
    · simp [child?, hdepth, address, hvalid, Except.toOption] at hchild

/-! ## Where there is no directory -/

theorem list_live (h : Path.isValid path) :
    mount.list scanner .live path disk =
      gather path (mount.place path)
        (scanner.scan disk (mount.place path)) := by
  unfold list
  rw [permit_ok h]

/-- **Where nothing but the place itself is found, nothing is listed.** -/
theorem list_of_stays (h : Path.isValid path)
    (hscan : scanner.Stays disk (mount.place path)) :
    mount.list scanner .live path disk = (.ok [], []) := by
  obtain ⟨start, hdepth, hscan⟩ := hscan
  rw [list_live h, hscan]
  unfold gather
  rw [if_pos hdepth]
  rfl

/-- **Where a place cannot be looked at**, nothing is listed if that is because
nothing is there; else the listing fails, as is reported. -/
theorem list_of_refused (h : Path.isValid path)
    (hscan : scanner.scan disk (mount.place path) = [.error report])
    (hkind : report.kind? = some cause.kind) :
    mount.list scanner .live path disk =
      (if cause = .noEntry then .ok []
        else .error (unlisted (mount.place path) report), []) := by
  rw [list_live h, hscan]
  unfold gather
  simp only [hkind, Option.some.injEq, DiskError.kind_eq_notFound_iff]
  split
  · rfl
  · rfl

/-- **What is listed is in the directory that the path opens**, and is listed by
its name. -/
theorem exists_opens_of_mem_list (hlawful : scanner.Lawful disk)
    {status : Status}
    (hlist : (mount.list scanner status path disk).1 = .ok children)
    (hmem : child ∈ children) :
    Path.isValid path ∧ Path.isValid child ∧ ∃ dir name,
      disk.Opens (mount.place path).toDiskPath dir ∧ name ∈ disk.names dir ∧
        child = Path.join path (Text.decode name) := by
  unfold list at hlist
  split at hlist
  · cases hlist
  · next hpermit =>
    obtain ⟨_, rfl⟩ := gather_eq_ok_iff.1 hlist
    obtain ⟨finding, hfound, hdepth, hchild, hvalid⟩ :=
      exists_finding_of_mem hmem
    obtain ⟨dir, hopens, hname⟩ := hlawful.exists_opens hfound hdepth
    exact ⟨((permit_eq_ok_iff status path driver).1 hpermit).2, hvalid, dir,
      finding.name, hopens, hname, hchild⟩

end Mount
end PathStore
