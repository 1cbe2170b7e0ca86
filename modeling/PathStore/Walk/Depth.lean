import PathStore.Walk

/-!
# The depth of a walk

The number of levels a walk may open is a bound on the work and nothing
more: a walk that ends within it ends in the same way, in the same
world, within every larger one (`Walk.run_eq_of_le`). So "the walk ends"
and "what the walk answers" need no mention of a particular bound.

The proof compares two ways of handling one child that **agree where the
first ends**, and carries the comparison from one child to all children
of a directory and from one level to the next.
-/

namespace PathStore
namespace Walk

variable {σ : Type u} {host : Host σ} {scope : Scope} {options : WalkOptions}

/-- **Agreement where the first ends**: wherever `step` does not run out
of levels, `other` does the same. -/
def AgreesWhereEnds (step other : String → σ → Ending × σ) : Prop :=
  ∀ path w, (step path w).1 ≠ .tooDeep → other path w = step path w

/-- If walks of what is beneath a child agree where the first ends, so
does what is done about the child. -/
theorem AgreesWhereEnds.child {enter other : String → σ → Ending × σ}
    (h : AgreesWhereEnds enter other) :
    AgreesWhereEnds (child host scope options enter)
      (child host scope options other) := by
  intro path w
  unfold Walk.child
  by_cases hskip : options.skips path
  · intro _
    rw [if_pos hskip, if_pos hskip]
  rw [if_neg hskip, if_neg hskip]
  rcases host.check w with ⟨_ | _, w⟩
  · exact fun _ => rfl
  dsimp only
  rcases host.stat path w with ⟨_ | entry, w⟩
  · exact fun _ => rfl
  dsimp only
  rcases verdict host scope entry w with ⟨_ | answer, w⟩
  · exact fun _ => rfl
  dsimp only
  cases answer <;> cases entry.isDir
  · exact fun _ => rfl
  · exact h entry.path w
  · exact fun _ => rfl
  · exact fun _ => rfl

/-- If two ways of handling one child agree where the first ends, so do
they in turn over many. -/
theorem AgreesWhereEnds.inTurn {step other : String → σ → Ending × σ}
    (h : AgreesWhereEnds step other) (paths : List String) (w : σ)
    (hends : (inTurn step paths w).1 ≠ .tooDeep) :
    inTurn other paths w = inTurn step paths w := by
  induction paths generalizing w with
  | nil => rfl
  | cons path rest ih =>
    have hstep : (step path w).1 ≠ .tooDeep := by
      refine fun hdeep => hends ?_
      revert hdeep
      unfold Walk.inTurn
      rcases step path w with ⟨ending, next⟩
      rintro (rfl : ending = .tooDeep)
      rfl
    revert hends
    unfold Walk.inTurn
    rw [h path w hstep]
    rcases step path w with ⟨_ | _ | _ | _, next⟩
    · exact ih next
    all_goals exact fun _ => rfl

/-- **One level more changes nothing** about a directory whose walk
ends. -/
theorem level_agrees_succ (depth : Nat) :
    AgreesWhereEnds (level host scope options depth)
      (level host scope options (depth + 1)) := by
  induction depth with
  | zero => exact fun _ _ hends => absurd rfl hends
  | succ depth ih =>
    intro dir w
    rw [level, level]
    rcases host.check w with ⟨_ | _, w⟩
    · exact fun _ => rfl
    dsimp only
    rcases host.list dir w with ⟨_ | listed, w⟩
    · exact fun _ => rfl
    exact ih.child.inTurn (sorted listed) w

/-- **More levels change nothing** about a directory whose walk ends. -/
theorem level_eq_of_le {depth more : Nat} (hle : depth ≤ more)
    {dir : String} {w : σ}
    (hends : (level host scope options depth dir w).1 ≠ .tooDeep) :
    level host scope options more dir w =
      level host scope options depth dir w := by
  induction hle with
  | refl => rfl
  | step _ ih =>
    rw [← ih]
    exact level_agrees_succ _ dir w (by rw [ih]; exact hends)

/-- **A walk that ends within a bound ends alike within every larger
one.** -/
theorem run_eq_of_le {depth more : Nat} (hle : depth ≤ more)
    {origin : String} {w : σ}
    (hends : (run host scope options depth origin w).1.isSome) :
    run host scope options more origin w =
      run host scope options depth origin w := by
  have hlevel : (level host scope options depth origin
      (host.note (.started scope host.driver origin) w)).1 ≠ .tooDeep := by
    intro hdeep
    revert hends hdeep
    rw [run]
    rcases level host scope options depth origin
      (host.note (.started scope host.driver origin) w) with ⟨ending, next⟩
    rintro hends (rfl : ending = .tooDeep)
    exact Bool.false_ne_true hends
  rw [run, run, level_eq_of_le hle hlevel]

end Walk
end PathStore
