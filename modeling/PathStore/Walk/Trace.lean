import PathStore.Walk

/-!
# What a walk asks and is answered

A walk is known by what it asks of its surroundings, in which order, and
what it is answered. `Host.traced` puts a record of that into the world:
every question of a walk, with its answer, is added to a list of
**events**. Laws about the calls and visits of a walk are laws about the
list a traced walk leaves behind.

Keeping the record changes nothing. That is an instance of a more
general fact. Where one host is the image of another – the worlds of the
second are projected to worlds of the first, and both answer alike – a
walk of the second, projected, is a walk of the first
(`Walk.run_image`).
-/

namespace PathStore

/-- **A question of a walk and its answer.** -/
inductive Event where
  /-- The context was asked. -/
  | checked (answer : Except Failure Unit)
  /-- A directory was listed. -/
  | listed (dir : String) (answer : Except Failure (List String))
  /-- It was asked what is at a path. -/
  | told (path : String) (answer : Except Failure Entry)
  /-- An entry was shown to the visitor. -/
  | visited (entry : Entry) (answer : Except Failure Verdict)
  /-- Something was noted. -/
  | noted (notice : Notice)

namespace Host

variable {σ : Type u} {τ : Type v}

/-- **A host that keeps a record** of what it is asked, beside the world
it had before. -/
def traced (host : Host σ) : Host (σ × List Event) where
  driver := host.driver
  check w :=
    let (answer, next) := host.check w.1
    (answer, (next, w.2 ++ [.checked answer]))
  list dir w :=
    let (answer, next) := host.list dir w.1
    (answer, (next, w.2 ++ [.listed dir answer]))
  stat path w :=
    let (answer, next) := host.stat path w.1
    (answer, (next, w.2 ++ [.told path answer]))
  visit entry w :=
    let (answer, next) := host.visit entry w.1
    (answer, (next, w.2 ++ [.visited entry answer]))
  note notice w := (host.note notice w.1, w.2 ++ [.noted notice])

/-- **One host is the image of another** under a projection of worlds:
asked in a world, the other answers as the one does in the projected
world, and the worlds they leave are projected alike. -/
structure IsImage (host : Host σ) (view : τ → σ) (other : Host τ) : Prop where
  driver : other.driver = host.driver
  check : ∀ w, (other.check w).map id view = host.check (view w)
  list : ∀ dir w, (other.list dir w).map id view = host.list dir (view w)
  stat : ∀ path w, (other.stat path w).map id view = host.stat path (view w)
  visit : ∀ entry w,
    (other.visit entry w).map id view = host.visit entry (view w)
  note : ∀ notice w, view (other.note notice w) = host.note notice (view w)

/-- A host is the image of itself with a record, the record left out. -/
theorem isImage_traced (host : Host σ) :
    host.IsImage Prod.fst host.traced where
  driver := rfl
  check _ := rfl
  list _ _ := rfl
  stat _ _ := rfl
  visit _ _ := rfl
  note _ _ := rfl

end Host

namespace Walk

variable {σ : Type u} {τ : Type v} {host : Host σ} {view : τ → σ}
  {other : Host τ}

theorem verdict_image (image : host.IsImage view other) (scope : Scope)
    (entry : Entry) (w : τ) :
    (verdict other scope entry w).map id view =
      verdict host scope entry (view w) := by
  unfold verdict
  split
  · rfl
  · exact image.visit entry w

/-- **One child, projected**, where walks of what is beneath it are
projected alike. -/
theorem child_image (image : host.IsImage view other) {scope : Scope}
    {options : WalkOptions} {enter : String → σ → Ending × σ}
    {enterOther : String → τ → Ending × τ}
    (henter : ∀ path w, (enterOther path w).map id view = enter path (view w))
    (path : String) (w : τ) :
    (child other scope options enterOther path w).map id view =
      child host scope options enter path (view w) := by
  unfold child
  split
  · rfl
  rw [← image.check w]
  rcases other.check w with ⟨answer | answer, w⟩
  · rfl
  simp only [Prod.map, id]
  rw [← image.stat path w]
  rcases other.stat path w with ⟨answer | entry, w⟩
  · simp only [Prod.map, id]
    split
    · simp only [image.note]
    · rfl
  simp only [Prod.map, id]
  rw [← verdict_image image scope entry w]
  rcases verdict other scope entry w with ⟨answer | answer, w⟩
  · rfl
  simp only [Prod.map, id]
  cases answer <;> cases entry.isDir
  · rfl
  · exact henter entry.path w
  · rfl
  · simp only [image.note]

theorem inTurn_image {step : String → σ → Ending × σ}
    {stepOther : String → τ → Ending × τ}
    (hstep : ∀ path w, (stepOther path w).map id view = step path (view w))
    (paths : List String) (w : τ) :
    (inTurn stepOther paths w).map id view = inTurn step paths (view w) := by
  induction paths generalizing w with
  | nil => rfl
  | cons path rest ih =>
    unfold inTurn
    rw [← hstep path w]
    rcases stepOther path w with ⟨_ | _ | _ | _, w⟩
    · exact ih w
    all_goals rfl

/-- **One directory, projected.** -/
theorem level_image (image : host.IsImage view other) (scope : Scope)
    (options : WalkOptions) (depth : Nat) (dir : String) (w : τ) :
    (level other scope options depth dir w).map id view =
      level host scope options depth dir (view w) := by
  induction depth generalizing dir w with
  | zero => rfl
  | succ depth ih =>
    unfold level
    rw [← image.check w]
    rcases other.check w with ⟨_ | _, w⟩
    · rfl
    simp only [Prod.map, id]
    rw [← image.list dir w]
    rcases other.list dir w with ⟨_ | listed, w⟩
    · rfl
    exact inTurn_image (child_image image ih) (sorted listed) w

/-- **A walk, projected, is a walk of the projected world.** -/
theorem run_image (image : host.IsImage view other) (scope : Scope)
    (options : WalkOptions) (depth : Nat) (origin : String) (w : τ) :
    (run other scope options depth origin w).map id view =
      run host scope options depth origin (view w) := by
  unfold run
  rw [image.driver, ← image.note, ← level_image image]
  rcases level other scope options depth origin
    (other.note (.started scope host.driver origin) w) with ⟨_ | _ | _ | _, w⟩
  · simp only [Prod.map, id, image.note]
  · cases scope
    · simp only [Prod.map, id, image.note]
    · rfl
  all_goals rfl

end Walk
end PathStore
