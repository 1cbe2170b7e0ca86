import PathStore.Proofs.Walk.Twins
import PathStore.Walk.Trace

/-!
# What has gone since it was listed is not seen

A listing may be out of date: it may hold paths at which nothing is found, any
number of them, each any number of times. A walk asks about them, is told that
they are gone, and goes on. This module says that nobody else learns of it.

Two drivers that tell the same of every path, and list the same but for paths
at which nothing is found, are walked alike: the same directories are listed,
the same entries are shown, in one order, and the walks end alike
(`Walk.stale_invisible`). That order is the order of an **outline** of the
walk, which is its record without the questions about single paths, and
without what the listings answered.

The outline is kept as the walk goes on (`Host.outlining`), so that it is part
of the worlds in which the two walks are twins.
-/

namespace PathStore

variable {σ : Type u}

/-- **One line of an outline**: a directory that was listed, or an entry that
was shown. -/
inductive Event.Line where
  | listed (dir : String)
  | shown (entry : Entry)
  deriving DecidableEq, Repr

/-- What an event adds to the outline. -/
def Event.line? : Event → Option Event.Line
  | listed dir _ => some (.listed dir)
  | visited entry _ => some (.shown entry)
  | checked _ | told _ _ | noted _ => none

namespace Host

/-- **A store at rest, in a context that stays live.** What is listed and what
is told are fixed; the visitor may depend on all it has seen, which it keeps
in the world. -/
def fixed (driver : String) (lists : String → Except Failure (List String))
    (stats : String → Except Failure Entry)
    (visit : Entry → σ → Except Failure Verdict × σ) : Host σ where
  driver := driver
  check w := (.ok (), w)
  list dir w := (lists dir, w)
  stat path w := (stats path, w)
  visit := visit
  note _ w := w

/-- **A host that keeps an outline** of what it is asked. -/
def outlining (host : Host σ) : Host (σ × List Event.Line) where
  driver := host.driver
  check w := ((host.check w.1).1, (host.check w.1).2, w.2)
  list dir w :=
    ((host.list dir w.1).1, (host.list dir w.1).2, w.2 ++ [.listed dir])
  stat path w := ((host.stat path w.1).1, (host.stat path w.1).2, w.2)
  visit entry w :=
    ((host.visit entry w.1).1, (host.visit entry w.1).2, w.2 ++ [.shown entry])
  note notice w := (host.note notice w.1, w.2)

/-- **To keep an outline is to outline the record.** -/
theorem isImage_outlining (host : Host σ) :
    host.outlining.IsImage (Prod.map id (List.filterMap Event.line?))
      host.traced := by
  have hadd : ∀ (event : Event) (log : List Event),
      (log ++ [event]).filterMap Event.line? =
        log.filterMap Event.line? ++ event.line?.toList := by
    intro event log
    rw [List.filterMap_append]
    cases event <;> rfl
  constructor
  · rfl
  · exact fun w => congrArg (Prod.mk _) (congrArg (Prod.mk _)
      ((hadd _ w.2).trans (List.append_nil _)))
  · exact fun dir w => congrArg (Prod.mk _) (congrArg (Prod.mk _) (hadd _ w.2))
  · exact fun path w => congrArg (Prod.mk _) (congrArg (Prod.mk _)
      ((hadd _ w.2).trans (List.append_nil _)))
  · exact fun entry w => congrArg (Prod.mk _) (congrArg (Prod.mk _)
      (hadd _ w.2))
  · exact fun notice w => congrArg (Prod.mk _)
      ((hadd _ w.2).trans (List.append_nil _))

end Host

namespace Walk

variable {lists others : String → Except Failure (List String)}
  {stats : String → Except Failure Entry}

/-- **Whether a path is still there**: anything but that nothing was found is
told of it. -/
def isFresh (stats : String → Except Failure Entry) (path : String) : Bool :=
  match stats path with
  | .ok _ => true
  | .error cause => !cause.isNotFound

theorem gone_of_not_isFresh {path : String} (h : ¬ isFresh stats path) :
    ∃ cause, cause.isNotFound ∧ stats path = .error cause := by
  unfold isFresh at h
  split at h
  · exact absurd rfl h
  · exact ⟨_, by simpa using h, by assumption⟩

/-- **Listings that agree on what is still there make twins**, outlines
included. -/
theorem twins_outlining
    (hlists : ∀ dir, (lists dir).map (List.filter (isFresh stats)) =
      (others dir).map (List.filter (isFresh stats)))
    (driver other : String)
    (visit : Entry → σ → Except Failure Verdict × σ) :
    (Host.fixed driver lists stats visit).outlining.Twins
      (Host.fixed other others stats visit).outlining (fun _ => True)
      (isFresh stats) where
  check _ := ⟨rfl, rfl⟩
  note _ _ := ⟨rfl, rfl⟩
  list dir w _ := by
    have hdir := hlists dir
    show AnswersAlike _ (lists dir, w.1, w.2 ++ [.listed dir])
      (others dir, w.1, w.2 ++ [.listed dir])
    generalize lists dir = listed at hdir ⊢
    generalize others dir = listedOther at hdir ⊢
    cases listed with
    | error cause =>
      cases listedOther with
      | error other =>
        obtain rfl : cause = other := Except.error.inj hdir
        exact .failed cause _
      | ok twins => cases hdir
    | ok paths =>
      cases listedOther with
      | error other => cases hdir
      | ok twins =>
        exact .ok _ ⟨Except.ok.inj hdir, fun _ _ _ => trivial⟩
  stat path w _ := by
    show AnswersAlike _ (stats path, w) (stats path, w)
    cases stats path with
    | error cause => exact .failed cause w
    | ok entry => exact .ok w ⟨rfl, rfl, fun _ => trivial, fun _ => rfl⟩
  idle path w hstale := by
    obtain ⟨cause, hgone, hstat⟩ := gone_of_not_isFresh hstale
    have htold : (stats path, w) = (.error cause, w) := by rw [hstat]
    exact ⟨cause, cause, hgone, hgone, htold, htold⟩

/-- **What has gone since it was listed is not seen.** Two drivers tell the
same of every path and list the same, but for paths at which nothing is found.
Those may stand anywhere in any listing of either, any number of times. Then
walks from one path, with one hint, shown to visitors of one mind, end alike,
leave the visitors in the same state, list the same directories and show the
same entries, in the same order. -/
theorem stale_invisible
    (hlists : ∀ dir, (lists dir).map (List.filter (isFresh stats)) =
      (others dir).map (List.filter (isFresh stats)))
    (driver other : String) (visit : Entry → σ → Except Failure Verdict × σ)
    (scope : Scope) (options : WalkOptions) (depth : Nat) (origin : String)
    (w : σ) :
    let one := run (Host.fixed driver lists stats visit).traced scope options
      depth origin (w, [])
    let two := run (Host.fixed other others stats visit).traced scope options
      depth origin (w, [])
    one.1 = two.1 ∧ one.2.1 = two.2.1 ∧
      one.2.2.filterMap Event.line? = two.2.2.filterMap Event.line? := by
  intro one two
  have hone : one.map id (Prod.map id (List.filterMap Event.line?)) =
      run (Host.fixed driver lists stats visit).outlining scope options depth
        origin (w, []) :=
    run_image (Host.isImage_outlining _) scope options depth origin (w, [])
  have htwo : two.map id (Prod.map id (List.filterMap Event.line?)) =
      run (Host.fixed other others stats visit).outlining scope options depth
        origin (w, []) :=
    run_image (Host.isImage_outlining _) scope options depth origin (w, [])
  have hsame : one.map id (Prod.map id (List.filterMap Event.line?)) =
      two.map id (Prod.map id (List.filterMap Event.line?)) := by
    rw [hone, htwo]
    exact (twins_outlining hlists driver other visit).run scope options depth
      trivial (w, [])
  obtain ⟨hanswer, hworld⟩ := Prod.mk.inj hsame
  obtain ⟨hstate, houtline⟩ := Prod.mk.inj hworld
  exact ⟨hanswer, hstate, houtline⟩

/-- What is told of a small store: a directory with one file in it, another
file beside it, and nothing else. -/
def told (path : String) : Except Failure Entry :=
  if path = "/a" then .ok (Entry.dir path)
  else if path = "/a/y" ∨ path = "/b" then .ok (Entry.file path 1)
  else .error (.notFound path "small")

/-- What is listed there while nothing has gone. -/
def listedNow (dir : String) : Except Failure (List String) :=
  .ok (if dir = "/" then ["/b", "/a"] else if dir = "/a" then ["/a/y"] else [])

/-- What is listed there out of date: names before, between and behind those
that are still there, one of them more than once. -/
def listedLate (dir : String) : Except Failure (List String) :=
  .ok (if dir = "/" then ["/c", "/b", "/a-b", "/a", "/a-b"]
    else if dir = "/a" then ["/a/x", "/a/y", "/a/z"]
    else [])

/-- A visitor that goes past one entry and has had enough of the next. -/
def sated (_ : Entry) (count : Nat) : Except Failure Verdict × Nat :=
  (.ok (if count = 0 then .proceed else .prune), count + 1)

/-- **Late listings of a small store are not noticed** by a visitor that stops
the walk at its second entry. -/
theorem stale_invisible_small :
    let one := run (Host.fixed "prompt" listedNow told sated).traced
      .everything (WalkOptions.all.startAfter "/a/w") 3 "/" (0, [])
    let two := run (Host.fixed "late" listedLate told sated).traced
      .everything (WalkOptions.all.startAfter "/a/w") 3 "/" (0, [])
    one.1 = two.1 ∧ one.2.1 = two.2.1 ∧
      one.2.2.filterMap Event.line? = two.2.2.filterMap Event.line? :=
  stale_invisible (by
      intro dir
      unfold listedNow listedLate
      split
      · rfl
      · split <;> rfl)
    "prompt" "late" sated .everything (WalkOptions.all.startAfter "/a/w") 3 "/" 0

end Walk
end PathStore
