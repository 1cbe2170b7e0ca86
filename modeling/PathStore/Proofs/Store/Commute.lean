import PathStore.Proofs.Store.Effect
import PathStore.Proofs.Store.Failing
import Mathlib.Data.List.Find

/-!
# Calls that are apart commute

Two calls are **apart** if no path of one is at, above or beneath a path of the
other. They still meet: both may make the same missing directories above their
paths, and each looks for files there. This module says that neither comes in
the way of the other (`Store.apart_calls_commute`).

A change is **local**. Outside its places it does nothing but make directories
where nothing was (`Change.effect_outside`), and what it makes of its places
depends on what is held in them (`Change.effect_inside`). The answer of a call
depends on its places too, and on which of the paths above them hold files
(`Store.Call.answer_congr`); to make directories is not to make files. What is
done to the places of one call and what is above them by a call apart from it
is therefore nothing that it could tell (`Change.Apart.alike`).
-/

namespace PathStore

variable {path other : String} {holdings others : Holdings}

namespace Holdings

/-- **Alike, as far as a change at these places can tell**: they hold the same
there and beneath, and above them there are files at the same paths. -/
structure AlikeAt (holdings others : Holdings) (places : List String) :
    Prop where
  inside : ∀ place ∈ places, ∀ path, Path.Within path place →
    holdings path = others path
  above : ∀ place ∈ places, ∀ path ∈ Path.ancestors place,
    holdings.fileAt path = others.fileAt path

theorem AlikeAt.at_place {places : List String}
    (h : holdings.AlikeAt others places) {place : String}
    (hplace : place ∈ places) : holdings place = others place :=
  h.inside place hplace place (.refl place)

/-- A directory is made only at the paths of the list. -/
theorem withDirs_of_notMem {dirs : List String} (h : path ∉ dirs) :
    holdings.withDirs dirs path = holdings path :=
  if_neg fun hmade => h hmade.1

/-- **A directory that is made is no file.** -/
theorem fileAt_withDirs (holdings : Holdings) (dirs : List String)
    (path : String) :
    (holdings.withDirs dirs).fileAt path = holdings.fileAt path := by
  unfold fileAt withDirs
  split
  · next h => rw [h.2]; rfl
  · rfl

/-- **In which order directories are made does not matter.** -/
theorem withDirs_comm (holdings : Holdings) (dirs more : List String)
    (path : String) : (holdings.withDirs dirs).withDirs more path =
      (holdings.withDirs more).withDirs dirs path := by
  unfold withDirs
  by_cases hdirs : path ∈ dirs <;> by_cases hmore : path ∈ more <;>
    cases holdings path <;> simp [hdirs, hmore]

end Holdings

/-! ## Changes are local -/

namespace Change

variable {change : Change}

/-- **Well-formed places below the top.** -/
def Proper (change : Change) : Prop :=
  ∀ place ∈ change.places, Path.isValid place ∧ place ≠ "/"

/-- **Outside its places** a change makes directories, and no more. -/
theorem effect_outside (hout : ∀ place ∈ change.places,
      ¬ Path.Within path place) (holdings : Holdings) :
    change.effect holdings path = holdings.withDirs change.makes path := by
  cases change with
  | write place content =>
    have hne : path ≠ place := by
      rintro rfl
      exact hout path List.mem_cons_self (.refl path)
    exact if_neg hne
  | move source dest =>
    obtain ⟨hsource, hrest⟩ := List.forall_mem_cons.1 hout
    obtain ⟨hdest, _⟩ := List.forall_mem_cons.1 hrest
    rw [effect, makes]
    by_cases heq : source = dest
    · rw [if_pos heq, if_pos heq]
      exact (Holdings.withDirs_of_notMem List.not_mem_nil).symm
    · rw [if_neg heq, if_neg heq, if_neg hdest, if_neg hsource]
  | delete place =>
    rw [effect, if_neg (hout place List.mem_cons_self)]
    exact (Holdings.withDirs_of_notMem List.not_mem_nil).symm

/-- What a change makes directories of is above one of its places. -/
theorem above_of_mem_makes (hproper : change.Proper)
    (h : path ∈ change.makes) : ∃ place ∈ change.places,
      Path.isValid path ∧ Path.isDescendant place path := by
  have habove : ∀ place ∈ change.places, path ∈ Path.ancestors place →
      ∃ place ∈ change.places,
        Path.isValid path ∧ Path.isDescendant place path := by
    intro place hmem hpath
    have hplace := (hproper place hmem).1
    have hvalid := Path.isValid_of_mem_ancestors hplace hpath
    exact ⟨place, hmem, hvalid,
      ((Path.mem_ancestors_iff hplace hvalid).1 hpath).2⟩
  cases change with
  | write place content => exact habove place List.mem_cons_self h
  | move source dest =>
    rw [makes] at h
    split at h
    · exact absurd h List.not_mem_nil
    · exact habove dest (List.mem_cons_of_mem _ List.mem_cons_self) h
  | delete place => exact absurd h List.not_mem_nil

/-- **What a change makes of its places** depends on what is held in them. -/
theorem effect_inside (hproper : change.Proper)
    (h : ∀ place ∈ change.places, ∀ path, Path.Within path place →
      holdings path = others path)
    (hin : ∃ place ∈ change.places, Path.Within path place) :
    change.effect holdings path = change.effect others path := by
  obtain ⟨place, hplace, hin⟩ := hin
  have hhere : holdings path = others path := h place hplace path hin
  cases change with
  | write target content =>
    have hvacant : holdings.withDirs (Path.ancestors target) path =
        others.withDirs (Path.ancestors target) path := by
      unfold Holdings.withDirs
      rw [hhere]
    rw [effect, effect, hvacant]
  | move source dest =>
    obtain ⟨hsource, hrest⟩ := List.forall_mem_cons.1 hproper
    obtain ⟨hdest, _⟩ := List.forall_mem_cons.1 hrest
    have hvacant : holdings.withDirs (Path.ancestors dest) path =
        others.withDirs (Path.ancestors dest) path := by
      unfold Holdings.withDirs
      rw [hhere]
    rw [effect, effect, hhere, hvacant]
    by_cases hto : Path.Within path dest
    · rw [h source List.mem_cons_self _
        (Store.within_rebase hdest.2 hsource.2 hto)]
    · rw [if_neg hto, if_neg hto]
  | delete target => rw [effect, effect, hhere]

/-! ## Changes that are apart -/

/-- **Apart**: no place of one is at, above or beneath a place of the
other. -/
def Apart (change other : Change) : Prop :=
  ∀ place ∈ change.places, ∀ beside ∈ other.places,
    ¬ Path.Within place beside ∧ ¬ Path.Within beside place

instance (change other : Change) : Decidable (change.Apart other) :=
  inferInstanceAs (Decidable (∀ place ∈ change.places,
    ∀ beside ∈ other.places,
      ¬ Path.Within place beside ∧ ¬ Path.Within beside place))

theorem Apart.symm {change other : Change} (h : change.Apart other) :
    other.Apart change :=
  fun place hplace beside hbeside => (h beside hbeside place hplace).symm

/-- What is apart from anything is below the top. -/
theorem Apart.proper {change other : Change} (h : change.Apart other)
    (hvalid : ∀ place ∈ change.places, Path.isValid place)
    (hother : ∀ place ∈ other.places, Path.isValid place) :
    change.Proper := by
  intro place hplace
  refine ⟨hvalid place hplace, ?_⟩
  rintro rfl
  have hsome : ∃ beside, beside ∈ other.places := by
    cases other <;> exact ⟨_, List.mem_cons_self⟩
  obtain ⟨beside, hbeside⟩ := hsome
  exact (h "/" hplace beside hbeside).2
    (Path.within_top (hother beside hbeside))

/-- **No path is in the places of both.** -/
theorem Apart.outside {change other : Change} (h : change.Apart other)
    (hproper : change.Proper) (hproperOther : other.Proper)
    {place : String} (hplace : place ∈ change.places)
    (hin : Path.Within path place) :
    ∀ beside ∈ other.places, ¬ Path.Within path beside := by
  intro beside hbeside hinOther
  obtain ⟨hnotIn, hnotOver⟩ := h place hplace beside hbeside
  exact (Path.Within.comparable (hproper place hplace).2
    (hproperOther beside hbeside).2 hin hinOther).elim hnotIn hnotOver

/-- **Nothing is made in the places of one by the other.** -/
theorem Apart.notMem_makes {change other : Change} (h : change.Apart other)
    (hproper : change.Proper) (hproperOther : other.Proper)
    {place : String} (hplace : place ∈ change.places)
    (hin : Path.Within path place) : path ∉ other.makes := by
  intro hmem
  obtain ⟨beside, hbeside, hpath, hbelow⟩ :=
    above_of_mem_makes hproperOther hmem
  exact (h place hplace beside hbeside).2
    (.trans (hproperOther beside hbeside).1 hpath (hproper place hplace).1
      (.inr hbelow) hin)

/-- In the places of one the other changes nothing. -/
theorem Apart.effect_eq {change other : Change} (h : change.Apart other)
    (hproper : change.Proper) (hproperOther : other.Proper)
    {place : String} (hplace : place ∈ change.places)
    (hin : Path.Within path place) (holdings : Holdings) :
    other.effect holdings path = holdings path := by
  rw [effect_outside (h.outside hproper hproperOther hplace hin) holdings]
  exact Holdings.withDirs_of_notMem
    (h.notMem_makes hproper hproperOther hplace hin)

/-- **A change cannot tell whether one apart from it was made.** -/
theorem Apart.alike {change other : Change} (h : change.Apart other)
    (hproper : change.Proper) (hproperOther : other.Proper)
    (holdings : Holdings) :
    (other.effect holdings).AlikeAt holdings change.places where
  inside place hplace path hin :=
    h.effect_eq hproper hproperOther hplace hin holdings
  above place hplace path hpath := by
    have hvalid := (hproper place hplace).1
    have habove := Path.isValid_of_mem_ancestors hvalid hpath
    have hbelow := ((Path.mem_ancestors_iff hvalid habove).1 hpath).2
    -- were it in a place of the other, the place beneath it would be too
    have hout : ∀ beside ∈ other.places, ¬ Path.Within path beside := by
      intro beside hbeside hin
      exact (h place hplace beside hbeside).1
        (.trans hvalid habove (hproperOther beside hbeside).1 (.inr hbelow) hin)
    have hsame : (other.effect holdings).fileAt path =
        (holdings.withDirs other.makes).fileAt path :=
      congrArg (Option.any Holding.isFile) (effect_outside hout holdings)
    rw [hsame, Holdings.fileAt_withDirs]

/-- **Changes that are apart commute.** -/
theorem Apart.effect_comm {change other : Change} (h : change.Apart other)
    (hproper : change.Proper) (hproperOther : other.Proper)
    (holdings : Holdings) :
    other.effect (change.effect holdings) =
      change.effect (other.effect holdings) := by
  funext path
  by_cases hin : ∃ place ∈ change.places, Path.Within path place
  · rw [effect_inside hproper (h.alike hproper hproperOther holdings).inside
      hin]
    obtain ⟨place, hplace, hin⟩ := hin
    exact h.effect_eq hproper hproperOther hplace hin _
  by_cases hinOther : ∃ place ∈ other.places, Path.Within path place
  · rw [effect_inside hproperOther
      (h.symm.alike hproperOther hproper holdings).inside hinOther]
    obtain ⟨place, hplace, hinOther⟩ := hinOther
    exact (h.symm.effect_eq hproperOther hproper hplace hinOther _).symm
  · -- outside the places of both, both make directories
    have hout : ∀ place ∈ change.places, ¬ Path.Within path place :=
      fun place hplace hwithin => hin ⟨place, hplace, hwithin⟩
    have houtOther : ∀ place ∈ other.places, ¬ Path.Within path place :=
      fun place hplace hwithin => hinOther ⟨place, hplace, hwithin⟩
    have hdirs : ∀ {change : Change}, (∀ place ∈ change.places,
        ¬ Path.Within path place) → ∀ holdings others : Holdings,
        holdings path = others path → change.effect holdings path =
          others.withDirs change.makes path := by
      intro change hout holdings others hsame
      rw [effect_outside hout]
      unfold Holdings.withDirs
      rw [hsame]
    rw [hdirs houtOther _ _ (effect_outside hout holdings),
      hdirs hout _ _ (effect_outside houtOther holdings),
      Holdings.withDirs_comm]

end Change

/-! ## Calls that are apart -/

namespace Store

variable {store : Store} {call beside : Call}

/-- The way to a path is open or not by where there are files. -/
theorem wayTo_congr (h : ∀ dir ∈ Path.ancestors path,
    holdings.fileAt dir = others.fileAt dir) :
    wayTo holdings path = wayTo others path := by
  unfold wayTo
  rw [List.find?_congr h]

/-- **An answer depends on what is held at the places of a call, and on which
paths above them hold files.** -/
theorem Call.answer_congr
    (h : holdings.AlikeAt others call.change.places) :
    call.answer holdings = call.answer others := by
  cases call with
  | write status now path content =>
    rw [answer, answer, h.at_place List.mem_cons_self,
      wayTo_congr (h.above path List.mem_cons_self)]
  | move status now source dest =>
    have hdest : dest ∈ [source, dest] :=
      List.mem_cons_of_mem _ List.mem_cons_self
    rw [answer, answer, h.at_place List.mem_cons_self,
      wayTo_congr (h.above dest hdest)]
  | delete status path =>
    rw [answer, answer, h.at_place List.mem_cons_self]

/-- **A call leaves what its change makes of the holdings, or what was
there.** -/
theorem IsTree.holdings_after_eq (h : store.IsTree) (call : Call) :
    (store.after call).holdings =
      match call.answer store.holdings with
      | .ok () => call.change.effect store.holdings
      | .error _ => store.holdings := by
  rw [← h.fst_run call]
  obtain ⟨_, hcall⟩ | ⟨next, hcall⟩ := h.run_cases call
  · rw [Store.after, hcall]
  · rw [h.holdings_after (congrArg Prod.fst hcall), hcall]

/-- **A call cannot tell whether one apart from it was made**, successful or
not. -/
theorem IsTree.alike_after (h : store.IsTree)
    (hapart : call.change.Apart beside.change) (hproper : call.change.Proper)
    (hproperBeside : beside.change.Proper) :
    (store.after beside).holdings.AlikeAt store.holdings
      call.change.places := by
  rw [h.holdings_after_eq]
  split
  · exact hapart.alike hproper hproperBeside store.holdings
  · exact ⟨fun _ _ _ _ => rfl, fun _ _ _ _ => rfl⟩

/-- **Calls that are apart commute.** Each answers the same whether it is made
before or after the other, and the two orders leave the same, but for the
times at which it was changed. -/
theorem apart_calls_commute (h : store.Reachable)
    (hvalid : ∀ path ∈ call.change.places, Path.isValid path)
    (hvalidBeside : ∀ path ∈ beside.change.places, Path.isValid path)
    (hapart : call.change.Apart beside.change) :
    (call.run (store.after beside)).1 = (call.run store).1 ∧
      (beside.run (store.after call)).1 = (beside.run store).1 ∧
      ((store.after call).after beside).holdings =
        ((store.after beside).after call).holdings := by
  have htree := h.isTree
  have hproper := hapart.proper hvalid hvalidBeside
  have hproperBeside := hapart.symm.proper hvalidBeside hvalid
  have hanswer : call.answer (store.after beside).holdings =
      call.answer store.holdings :=
    Call.answer_congr (htree.alike_after hapart hproper hproperBeside)
  have hanswerBeside : beside.answer (store.after call).holdings =
      beside.answer store.holdings :=
    Call.answer_congr (htree.alike_after hapart.symm hproperBeside hproper)
  refine ⟨?_, ?_, ?_⟩
  · rw [(htree.after beside).fst_run, htree.fst_run, hanswer]
  · rw [(htree.after call).fst_run, htree.fst_run, hanswerBeside]
  · rw [(htree.after call).holdings_after_eq,
      (htree.after beside).holdings_after_eq, hanswer, hanswerBeside,
      htree.holdings_after_eq, htree.holdings_after_eq]
    cases call.answer store.holdings with
    | error cause => cases beside.answer store.holdings <;> rfl
    | ok _ =>
      cases beside.answer store.holdings with
      | error cause => rfl
      | ok _ =>
        exact hapart.effect_comm hproper hproperBeside store.holdings

/-- A file is stored beside the place another is moved to, where the
directories both stand in are missing. -/
theorem apart_calls_commute_beside :
    let store := empty.afterAll [.write .live 0 "/b" ⟨#[49]⟩]
    let call := Call.write .live 1 "/a/x/y" ⟨#[50]⟩
    let beside := Call.move .live 2 "/b" "/a/x/z"
    (call.run (store.after beside)).1 = (call.run store).1 ∧
      (beside.run (store.after call)).1 = (beside.run store).1 ∧
      ((store.after call).after beside).holdings =
        ((store.after beside).after call).holdings :=
  apart_calls_commute ⟨_, rfl⟩ (by decide) (by decide) (by decide +kernel)

/-- The times may differ: the directories are made by whichever call comes
first. -/
example :
    let call := Call.write .live 1 "/a/x" ⟨#[50]⟩
    let beside := Call.write .live 2 "/a/y" ⟨#[51]⟩
    ((empty.after call).after beside).get? "/a" = some (.dir 1) ∧
      ((empty.after beside).after call).get? "/a" = some (.dir 2) := by
  decide +kernel

end Store
end PathStore
