import PathStore.Proofs.Walk.Twins
import PathStore.Walk.Trace

/-!
# The order of a listing is not seen

A driver may list a directory in any order, and in another order the next
time. A walk puts the paths of every listing in order before it does anything
with them, and this module says that nothing of the driver's order is left
then. It need not be said again for every level of a walk, or for whatever the
visitor makes of what it has seen: no two walks are compared.

Instead, a host is replaced by one whose listings are in order already
(`Host.ordered`). A walk cannot tell the two apart (`Walk.run_ordered`), since
to sort what is sorted changes nothing. Two hosts that differ in the order of
their listings are replaced by one and the same host
(`Host.Shuffles.ordered_eq`), so whatever is true of a walk of one is true of
a walk of the other. The record of a walk holds what the listings answered, so
two records are compared with these in order as well (`Event.ordered`).
-/

namespace PathStore

variable {σ : Type u} {host other : Host σ}

/-- **The event with its listing in order.** -/
def Event.ordered : Event → Event
  | listed dir answer => .listed dir (answer.map Walk.sorted)
  | event => event

namespace Host

/-- **The same surroundings with every listing in order.** -/
def ordered (host : Host σ) : Host σ :=
  { host with
    list := fun dir w => (host.list dir w).map (Except.map Walk.sorted) id }

/-- **Two hosts that differ in the order of their listings** and in nothing
else. A path that one lists more than once is listed as often by the other. -/
structure Shuffles (host other : Host σ) : Prop where
  driver : host.driver = other.driver
  check : ∀ w, host.check w = other.check w
  list : ∀ dir w,
    AnswersAlike List.Perm (host.list dir w) (other.list dir w)
  stat : ∀ path w, host.stat path w = other.stat path w
  visit : ∀ entry w, host.visit entry w = other.visit entry w
  note : ∀ notice w, host.note notice w = other.note notice w

/-- **In order they are one host.** -/
theorem Shuffles.ordered_eq (h : host.Shuffles other) :
    host.ordered = other.ordered := by
  have hlist : ∀ dir w, (host.list dir w).map (Except.map Walk.sorted) id =
      (other.list dir w).map (Except.map Walk.sorted) id := by
    intro dir w
    have hlist := h.list dir w
    generalize host.list dir w = answer at hlist ⊢
    generalize other.list dir w = twin at hlist ⊢
    cases hlist with
    | failed cause next => rfl
    | ok next hperm =>
      exact congrArg (fun paths => (Except.ok paths, next))
        (Walk.sorted_eq_of_perm hperm)
  unfold ordered
  congr 1
  · exact h.driver
  · exact funext h.check
  · exact funext fun dir => funext (hlist dir)
  · exact funext fun path => funext (h.stat path)
  · exact funext fun entry => funext (h.visit entry)
  · exact funext fun notice => funext (h.note notice)

/-- **A record of what is in order is the record put in order.** -/
theorem isImage_ordered (host : Host σ) :
    host.ordered.traced.IsImage (Prod.map id (List.map Event.ordered))
      host.traced.ordered where
  driver := rfl
  check _ := congrArg (fun log => (_, _, log)) List.map_append
  list _ _ := congrArg (fun log => (_, _, log)) List.map_append
  stat _ _ := congrArg (fun log => (_, _, log)) List.map_append
  visit _ _ := congrArg (fun log => (_, _, log)) List.map_append
  note _ _ := congrArg (fun log => (_, log)) List.map_append

end Host

namespace Walk

/-- **A walk puts listings in order itself.** The induction is on the levels
that may be opened; every one of them sorts what it lists. -/
theorem level_ordered (host : Host σ) (scope : Scope) (options : WalkOptions)
    (depth : Nat) (dir : String) (w : σ) :
    level host.ordered scope options depth dir w =
      level host scope options depth dir w := by
  induction depth generalizing dir w with
  | zero => rfl
  | succ depth ih =>
    have henter : level host.ordered scope options depth =
        level host scope options depth :=
      funext fun dir => funext (ih dir)
    unfold level
    rcases hcheck : host.check w with ⟨_ | _, mid⟩
    · simp only [Host.ordered, hcheck]
    rcases hlist : host.list dir mid with ⟨_ | listed, next⟩
    · simp only [Host.ordered, hcheck, hlist, Prod.map, Except.map, id]
    · have hsorted : sorted (sorted listed) = sorted listed :=
        sorted_eq_of_perm (List.mergeSort_perm listed _)
      simp only [Host.ordered, hcheck, hlist, Prod.map, Except.map, id, hsorted]
      rw [← henter]
      rfl

/-- **A walk cannot tell whether listings are in order.** -/
theorem run_ordered (host : Host σ) (scope : Scope) (options : WalkOptions)
    (depth : Nat) (origin : String) (w : σ) :
    run host.ordered scope options depth origin w =
      run host scope options depth origin w := by
  unfold run
  rw [level_ordered]
  rfl

/-- **The order of a listing is not seen.** Two hosts differ in nothing but
the order in which they list what they list. Their walks, from any path, with
any hint, of everything or of the files alone, ask the same questions in one
order, visit the same entries, note the same and answer the same; so do the
contexts and the visitors, whatever these make of what they have seen. In the
records the listings differ, if at all, in their order. -/
theorem shuffle_invisible (h : host.Shuffles other) (scope : Scope)
    (options : WalkOptions) (depth : Nat) (origin : String) (w : σ) :
    let one := run host.traced scope options depth origin (w, [])
    let two := run other.traced scope options depth origin (w, [])
    one.1 = two.1 ∧ one.2.1 = two.2.1 ∧
      one.2.2.map Event.ordered = two.2.2.map Event.ordered := by
  intro one two
  have himage : ∀ host : Host σ,
      (run host.traced scope options depth origin (w, [])).map id
          (Prod.map id (List.map Event.ordered)) =
        run host.ordered.traced scope options depth origin (w, []) := by
    intro host
    rw [← run_ordered host.traced]
    exact run_image host.isImage_ordered scope options depth origin (w, [])
  have hsame : one.map id (Prod.map id (List.map Event.ordered)) =
      two.map id (Prod.map id (List.map Event.ordered)) := by
    rw [himage host, himage other, h.ordered_eq]
  obtain ⟨hanswer, hworld⟩ := Prod.mk.inj hsame
  obtain ⟨hstate, hlog⟩ := Prod.mk.inj hworld
  exact ⟨hanswer, hstate, hlog⟩

/-- A heap of notes that lists what is at its top and what is in its one
directory as it is told to. Whoever is shown four of them has had enough and
cancels the context. -/
def heap (top inner : List String) : Host Nat where
  driver := "heap"
  check seen := (if seen < 4 then .ok () else .error .cancelled, seen)
  list dir seen := (.ok (if dir = "/a" then inner else top), seen)
  stat path seen :=
    (.ok (if path = "/a" then Entry.dir path else Entry.file path 1), seen)
  visit _ seen := (.ok .proceed, seen + 1)
  note _ seen := seen

theorem heap_shuffles {top top' inner inner' : List String}
    (htop : top.Perm top') (hinner : inner.Perm inner') :
    (heap top inner).Shuffles (heap top' inner') where
  driver := rfl
  check _ := rfl
  list dir seen := by
    refine .ok seen ?_
    split
    · exact hinner
    · exact htop
  stat _ _ := rfl
  visit _ _ := rfl
  note _ _ := rfl

/-- **A heap is walked alike however it lies**: a note that is listed twice is
shown once and then no more, because the context has been cancelled. -/
theorem shuffle_invisible_heap :
    (let one := run (heap ["/b", "/a", "/b"] ["/a/y", "/a/x"]).traced
        .everything .all 3 "/" (0, [])
      let two := run (heap ["/a", "/b", "/b"] ["/a/x", "/a/y"]).traced
        .everything .all 3 "/" (0, [])
      one.1 = two.1 ∧ one.2.1 = two.2.1 ∧
        one.2.2.map Event.ordered = two.2.2.map Event.ordered) ∧
      (run (heap ["/b", "/a", "/b"] ["/a/y", "/a/x"]) .everything .all 3 "/"
        0) = (some (.error .cancelled), 4) := by
  refine ⟨shuffle_invisible (heap_shuffles (List.Perm.swap "/a" "/b" ["/b"])
    (List.Perm.swap "/a/x" "/a/y" [])) .everything .all 3 "/" 0, ?_⟩
  have htop : sorted ["/b", "/a", "/b"] = ["/a", "/b", "/b"] := by
    simp [sorted, List.mergeSort]
  have hinner : sorted ["/a/y", "/a/x"] = ["/a/x", "/a/y"] := by
    simp [sorted, List.mergeSort]
  simp [run, level, inTurn, child, verdict, heap, WalkOptions.skips,
    WalkOptions.all, Entry.dir, Entry.file, Entry.isDir, htop, hinner]

end Walk
end PathStore
