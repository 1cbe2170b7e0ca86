import PathStore.Walk

/-!
# What one step of a walk can do

A walk asks one question after another, and the answers leave it only a few
ways to go on. They are written out here once, for one child of a directory
(`Walk.ChildStep`) and for one directory (`Walk.LevelStep`), each with all
that was asked and answered on the way. Laws about walks are proved by cases
on these.

They are the walk itself and not a bound on it. One of the ways is always
taken (`Walk.childStep`, `Walk.levelStep`), and a way whose questions were
answered as it says is the one that is taken (`Walk.ChildStep.eq`).
-/

namespace PathStore
namespace Walk

variable {σ : Type u}

/-- A walk of the files alone goes into directories without showing them;
every other entry is shown. -/
theorem verdict_cases (host : Host σ) (scope : Scope) (entry : Entry)
    (w : σ) :
    (scope = .filesOnly ∧ entry.isDir ∧
        verdict host scope entry w = (.ok .proceed, w)) ∨
      verdict host scope entry w = host.visit entry w := by
  unfold verdict
  split
  · next hdir => exact .inl ⟨rfl, hdir, rfl⟩
  · exact .inr rfl

/-- A walk of everything shows every entry. -/
theorem verdict_everything (host : Host σ) (entry : Entry) (w : σ) :
    verdict host .everything entry w = host.visit entry w := rfl

/-- A walk of the files alone shows the files. -/
theorem verdict_filesOnly (host : Host σ) (entry : Entry) (w : σ) :
    verdict host .filesOnly entry w =
      if entry.isDir then (.ok .proceed, w) else host.visit entry w := by
  unfold verdict
  cases entry.isDir <;> rfl

/-- **What a walk is told about a child** it does not leave out: its context
is still live, which leads from `w` to `mid`, and it asks what is there,
which leads to `next`. -/
structure Told (host : Host σ) (options : WalkOptions) (path : String)
    (w mid next : σ) (answer : Except Failure Entry) : Prop where
  kept : ¬ options.skips path
  check : host.check w = (.ok (), mid)
  stat : host.stat path mid = (answer, next)

/-- **What can happen to one child**, where `enter` walks what is beneath a
directory. -/
inductive ChildStep (host : Host σ) (scope : Scope) (options : WalkOptions)
    (enter : String → σ → Ending × σ) (path : String) (w : σ) :
    Ending × σ → Prop where
  /-- The child is left out, and nothing is asked. -/
  | skipped (skips : options.skips path) :
    ChildStep host scope options enter path w (.finished, w)
  | cancelled {cause : Failure} {next : σ} (kept : ¬ options.skips path)
    (check : host.check w = (.error cause, next)) :
    ChildStep host scope options enter path w (.failed cause, next)
  /-- The listing was out of date. -/
  | vanished {cause : Failure} {mid next : σ}
    (told : Told host options path w mid next (.error cause))
    (gone : cause.isNotFound) :
    ChildStep host scope options enter path w
      (.finished, host.note (.vanished path) next)
  /-- It could not be found out what is there. -/
  | unknown {cause : Failure} {mid next : σ}
    (told : Told host options path w mid next (.error cause))
    (here : ¬ cause.isNotFound) :
    ChildStep host scope options enter path w (.failed cause, next)
  /-- The visitor failed. -/
  | refused {entry : Entry} {cause : Failure} {mid last next : σ}
    (told : Told host options path w mid last (.ok entry))
    (answer : verdict host scope entry last = (.error cause, next)) :
    ChildStep host scope options enter path w (.failed cause, next)
  | entered {entry : Entry} {mid last next : σ}
    (told : Told host options path w mid last (.ok entry))
    (answer : verdict host scope entry last = (.ok .proceed, next))
    (dir : entry.isDir) :
    ChildStep host scope options enter path w (enter entry.path next)
  | passed {entry : Entry} {mid last next : σ}
    (told : Told host options path w mid last (.ok entry))
    (answer : verdict host scope entry last = (.ok .proceed, next))
    (file : ¬ entry.isDir) :
    ChildStep host scope options enter path w (.finished, next)
  | pruned {entry : Entry} {mid last next : σ}
    (told : Told host options path w mid last (.ok entry))
    (answer : verdict host scope entry last = (.ok .prune, next))
    (dir : entry.isDir) :
    ChildStep host scope options enter path w
      (.finished, host.note (.prunedDirectory entry.path) next)
  /-- The visitor pruned at a file. -/
  | stopped {entry : Entry} {mid last next : σ}
    (told : Told host options path w mid last (.ok entry))
    (answer : verdict host scope entry last = (.ok .prune, next))
    (file : ¬ entry.isDir) :
    ChildStep host scope options enter path w (.stopped entry.path, next)

/-- **One of the ways is taken** with every child. -/
theorem childStep (host : Host σ) (scope : Scope) (options : WalkOptions)
    (enter : String → σ → Ending × σ) (path : String) (w : σ) :
    ChildStep host scope options enter path w
      (child host scope options enter path w) := by
  unfold child
  by_cases hskip : options.skips path
  · rw [if_pos hskip]
    exact .skipped hskip
  rw [if_neg hskip]
  cases hcheck : host.check w with
  | mk checked mid =>
    cases checked with
    | error cause => exact .cancelled hskip hcheck
    | ok _ =>
      dsimp only
      cases hstat : host.stat path mid with
      | mk told last =>
        have htold : Told host options path w mid last told :=
          ⟨hskip, hcheck, hstat⟩
        cases told with
        | error cause =>
          dsimp only
          split
          · next hgone => exact .vanished htold hgone
          · next hhere => exact .unknown htold hhere
        | ok entry =>
          dsimp only
          cases hverdict : verdict host scope entry last with
          | mk visited next =>
            cases visited with
            | error cause => exact .refused htold hverdict
            | ok answer =>
              cases answer <;> cases hdir : entry.isDir
              · exact .passed htold hverdict (Bool.eq_false_iff.1 hdir)
              · exact .entered htold hverdict hdir
              · exact .stopped htold hverdict (Bool.eq_false_iff.1 hdir)
              · exact .pruned htold hverdict hdir

variable {host : Host σ} {scope : Scope} {options : WalkOptions}
  {enter : String → σ → Ending × σ} {path : String} {w : σ}

/-- **The way that is described is the way that is taken.** -/
theorem ChildStep.eq {result : Ending × σ}
    (h : ChildStep host scope options enter path w result) :
    child host scope options enter path w = result := by
  cases h with
  | skipped skips => simp [child, skips]
  | cancelled kept check => simp [child, kept, check]
  | vanished told gone =>
    simp [child, told.kept, told.check, told.stat, gone]
  | unknown told here =>
    simp [child, told.kept, told.check, told.stat, here]
  | refused told answer =>
    simp [child, told.kept, told.check, told.stat, answer]
  | entered told answer dir | pruned told answer dir =>
    simp [child, told.kept, told.check, told.stat, answer, dir]
  | passed told answer file | stopped told answer file =>
    simp [child, told.kept, told.check, told.stat, answer, file]

/-- **What can happen to one directory**, where `each` handles one child. -/
inductive LevelStep (host : Host σ) (each : String → σ → Ending × σ)
    (dir : String) (w : σ) : Ending × σ → Prop where
  | cancelled {cause : Failure} {next : σ}
    (check : host.check w = (.error cause, next)) :
    LevelStep host each dir w (.failed cause, next)
  | unlisted {cause : Failure} {mid next : σ}
    (check : host.check w = (.ok (), mid))
    (list : host.list dir mid = (.error cause, next)) :
    LevelStep host each dir w (.failed cause, next)
  | listed {paths : List String} {mid next : σ}
    (check : host.check w = (.ok (), mid))
    (list : host.list dir mid = (.ok paths, next)) :
    LevelStep host each dir w (inTurn each (sorted paths) next)

/-- **One of the ways is taken** with every directory, if there is a level
left for it. -/
theorem levelStep (host : Host σ) (scope : Scope) (options : WalkOptions)
    (depth : Nat) (dir : String) (w : σ) :
    LevelStep host (child host scope options (level host scope options depth))
      dir w (level host scope options (depth + 1) dir w) := by
  unfold level
  cases hcheck : host.check w with
  | mk checked mid =>
    cases checked with
    | error cause => exact .cancelled hcheck
    | ok _ =>
      dsimp only
      cases hlist : host.list dir mid with
      | mk answer next =>
        cases answer with
        | error cause => exact .unlisted hcheck hlist
        | ok paths => exact .listed hcheck hlist

/-- The way that is described is the way that is taken. -/
theorem LevelStep.eq {depth : Nat} {dir : String} {result : Ending × σ}
    (h : LevelStep host (child host scope options
      (level host scope options depth)) dir w result) :
    level host scope options (depth + 1) dir w = result := by
  cases h with
  | cancelled check => simp [level, check]
  | unlisted check list | listed check list => simp [level, check, list]

end Walk
end PathStore
