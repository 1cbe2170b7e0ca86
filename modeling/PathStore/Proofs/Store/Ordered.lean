import PathStore.Proofs.Store.Shown
import PathStore.Proofs.Walk.Follow

/-!
# The order in which a walk shows

Whatever becomes of a store while it is walked, what is shown is in the order
of the walk. All that this takes is that each listing, at its moment, holds
children of its directory and none of them twice, and that what is told of a
path is told of that path (`Event.Treelike`): every part of a walk then asks
about its own region of the tree, in order, and the regions of siblings follow
one another (`Walk.Record.asked_pairwise`). What is shown or listed has been
asked about, so it is in that order as well (`Walk.Record.shown_pairwise`,
`Walk.Record.opened_sublist`).

That different moments contradict each other does no harm. A path that has
been moved ahead of the walk lies in another region.
-/

namespace PathStore

/-- **An event fit for a tree**: what is listed are children of the
directory, none of them twice, and what is told is told of the path. -/
def Event.Treelike : Event → Prop
  | listed dir (.ok found) => (Walk.sorted found).Pairwise (· < ·) ∧
      ∀ path ∈ found, Path.isValid path ∧ Path.parent? path = some dir
  | told path (.ok entry) => entry.path = path
  | _ => True

namespace Walk

/-- **A part that has a region of the tree**: well-formed paths, and children
of one directory in order. -/
def Part.Fits : Part → Prop
  | dir path => Path.isValid path
  | child path => Path.isValid path
  | children paths => paths.Pairwise (· < ·) ∧
      ∃ dir, ∀ path ∈ paths, Path.isValid path ∧ Path.parent? path = some dir

/-- **The region of a part.** -/
def Part.Covers (path : String) : Part → Prop
  | dir above => Path.isDescendant path above
  | child above => Path.Within path above
  | children paths => ∃ above ∈ paths, Path.Within path above

variable {scope : Scope} {options : WalkOptions} {part : Part}
  {events : List Event} {ending : Ending}

/-- What is beneath one of several children is beneath their directory. -/
theorem isDescendant_of_covers {dir path : String} {paths : List String}
    (hpaths : ∀ above ∈ paths,
      Path.isValid above ∧ Path.parent? above = some dir)
    (hpath : Path.isValid path) (h : (Part.children paths).Covers path) :
    Path.isDescendant path dir := by
  obtain ⟨above, hmem, hin⟩ := h
  obtain ⟨habove, hparent⟩ := hpaths above hmem
  exact hin.isDescendant hpath habove (Path.isValid_of_parent? habove hparent)
    (Path.isDescendant_of_parent? habove hparent)

/-- **What is asked of one child comes before what is asked of the later
ones.** -/
theorem before_of_covers {first path other : String} {paths : List String}
    (hfits : (Part.children (first :: paths)).Fits)
    (hpath : Path.isValid path) (hother : Path.isValid other)
    (hin : Path.Within path first) (hon : (Part.children paths).Covers other) :
    Path.Before path other := by
  obtain ⟨hordered, dir, hpaths⟩ := hfits
  obtain ⟨above, hmem, habove⟩ := hon
  obtain ⟨hone, hparent⟩ := hpaths first List.mem_cons_self
  obtain ⟨htwo, hsame⟩ := hpaths above (List.mem_cons_of_mem _ hmem)
  have hlt := (List.pairwise_cons.1 hordered).1 above hmem
  exact ((Path.turnsBefore_of_siblings hone htwo hparent hsame hlt).of_within
    hpath hother hone htwo hin habove).before

theorem Part.Fits.tail {path : String} {paths : List String}
    (h : (Part.children (path :: paths)).Fits) :
    (Part.children paths).Fits := by
  obtain ⟨hordered, dir, hpaths⟩ := h
  exact ⟨(List.pairwise_cons.1 hordered).2, dir,
    fun path hmem => hpaths path (List.mem_cons_of_mem _ hmem)⟩

theorem Part.Fits.head {path : String} {paths : List String}
    (h : (Part.children (path :: paths)).Fits) : (Part.child path).Fits := by
  obtain ⟨_, dir, hpaths⟩ := h
  exact (hpaths path List.mem_cons_self).1

/-- **A part of a walk asks about its region, in order.** By induction on the
record. -/
theorem Record.asked_pairwise (h : Record scope options part events ending)
    (htree : ∀ event ∈ events, event.Treelike) (hfits : part.Fits) :
    (events.filterMap Event.asked?).Pairwise Path.Before ∧
      ∀ path ∈ events.filterMap Event.asked?,
        Path.isValid path ∧ part.Covers path := by
  induction h with
  | tooDeep _ | cancelledDir _ _ | unlisted _ _ | nil | skipped _
  | cancelled _ _ =>
    exact ⟨List.Pairwise.nil, fun _ h => absurd h List.not_mem_nil⟩
  | @vanished path _ _ _ | @unknown path _ _ _ | @refused path _ _ _
  | @passed path _ _ _ | @pruned path _ _ _ | @stopped path _ _ _ =>
    -- one path is asked about, that of the child
    refine ⟨List.pairwise_singleton _ path, ?_⟩
    show ∀ asked ∈ [path], _
    exact List.forall_mem_singleton.2 ⟨hfits, .refl path⟩
  | @listed dir found events ending _ ih =>
    simp only [List.forall_mem_cons] at htree
    obtain ⟨_, hlisted, hrest⟩ := htree
    obtain ⟨hordered, hfound⟩ : (sorted found).Pairwise (· < ·) ∧
      ∀ path ∈ found, Path.isValid path ∧ Path.parent? path = some dir :=
        hlisted
    have hsorted : ∀ path ∈ sorted found,
        Path.isValid path ∧ Path.parent? path = some dir :=
      fun path hmem => hfound path (List.mem_mergeSort.1 hmem)
    obtain ⟨hpairwise, hcovers⟩ := ih hrest ⟨hordered, dir, hsorted⟩
    refine ⟨hpairwise, fun path hmem => ?_⟩
    obtain ⟨hpath, hin⟩ := hcovers path hmem
    exact ⟨hpath, isDescendant_of_covers hsorted hpath hin⟩
  | @next first paths events more ending _ _ ihFirst ihRest =>
    obtain ⟨hfront, hback⟩ := List.forall_mem_append.1 htree
    obtain ⟨hfirst, hone⟩ := ihFirst hfront hfits.head
    obtain ⟨hrest, hothers⟩ := ihRest hback hfits.tail
    rw [List.filterMap_append]
    refine ⟨List.pairwise_append.2 ⟨hfirst, hrest, ?_⟩,
      List.forall_mem_append.2 ⟨?_, ?_⟩⟩
    · intro path hpath other hother
      obtain ⟨hvalid, hin⟩ := hone path hpath
      obtain ⟨hvalidOther, hon⟩ := hothers other hother
      exact before_of_covers hfits hvalid hvalidOther hin hon
    · intro path hpath
      obtain ⟨hvalid, hin⟩ := hone path hpath
      exact ⟨hvalid, first, List.mem_cons_self, hin⟩
    · intro path hpath
      obtain ⟨hvalid, above, hmem, hin⟩ := hothers path hpath
      exact ⟨hvalid, above, List.mem_cons_of_mem _ hmem, hin⟩
  | @last first events ending paths _ _ ih =>
    obtain ⟨hpairwise, hcovers⟩ := ih htree hfits.head
    refine ⟨hpairwise, fun path hmem => ?_⟩
    obtain ⟨hvalid, hin⟩ := hcovers path hmem
    exact ⟨hvalid, first, List.mem_cons_self, hin⟩
  | @entered dir entry events ending _ _ _ ih
  | @unseen dir entry events ending _ _ _ _ ih =>
    simp only [List.forall_mem_cons] at htree
    have hentry : entry.path = dir := htree.2.1
    have hdir : Path.isValid dir := hfits
    have hrest : ∀ event ∈ events, event.Treelike := by tauto
    rw [hentry] at ih
    obtain ⟨hpairwise, hcovers⟩ := ih hrest hdir
    -- the directory comes before all that is beneath it
    refine ⟨List.pairwise_cons.2 ⟨fun path hmem => ?_, hpairwise⟩,
      List.forall_mem_cons.2 ⟨⟨hdir, .refl dir⟩, fun path hmem => ?_⟩⟩
    · obtain ⟨hpath, hbelow⟩ := hcovers path hmem
      exact Path.before_of_isDescendant hpath hdir hbelow
    · obtain ⟨hpath, hbelow⟩ := hcovers path hmem
      exact ⟨hpath, .inr hbelow⟩

/-- **What is shown has been asked about**, in the same order. -/
theorem Record.shown_sublist (h : Record scope options part events ending)
    (htree : ∀ event ∈ events, event.Treelike) :
    ((events.filterMap Event.shown?).map Entry.path).Sublist
      (events.filterMap Event.asked?) := by
  induction h with
  | tooDeep _ | cancelledDir _ _ | unlisted _ _ | nil | skipped _
  | cancelled _ _ | vanished _ _ | unknown _ _ => exact List.nil_sublist _
  | @refused path entry _ _ | @passed path entry _ _
  | @pruned path entry _ _ | @stopped path entry _ _ =>
    have hentry : entry.path = path := htree (.told path (.ok entry)) (by simp)
    subst hentry
    exact List.Sublist.refl [entry.path]
  | listed _ ih =>
    simp only [List.forall_mem_cons] at htree
    exact ih htree.2.2
  | next _ _ ihFirst ihRest =>
    obtain ⟨hfront, hback⟩ := List.forall_mem_append.1 htree
    rw [List.filterMap_append, List.filterMap_append, List.map_append]
    exact (ihFirst hfront).append (ihRest hback)
  | last _ _ _ ih => exact ih htree
  | @entered path entry events _ _ _ _ ih =>
    simp only [List.forall_mem_cons] at htree
    obtain ⟨_, hentry, _, hrest⟩ := htree
    have hentry : entry.path = path := hentry
    subst hentry
    exact (ih hrest).cons_cons entry.path
  | @unseen path entry events _ _ _ _ _ ih =>
    simp only [List.forall_mem_cons] at htree
    exact (ih htree.2.2).cons path

/-- The directory a part of a walk lists first. -/
def Part.opens : Part → List String
  | dir path => [path]
  | child _ | children _ => []

/-- **What is listed has been asked about**, in the same order, but for the
directory the walk is at. -/
theorem Record.opened_sublist (h : Record scope options part events ending)
    (htree : ∀ event ∈ events, event.Treelike) :
    (events.filterMap Event.opened?).Sublist
      (part.opens ++ events.filterMap Event.asked?) := by
  induction h with
  | tooDeep _ | cancelledDir _ _ | nil | skipped _ | cancelled _ _
  | vanished _ _ | unknown _ _ | refused _ _ _ | passed _ _ | pruned _ _
  | stopped _ _ => exact List.nil_sublist _
  | unlisted dir _ => exact List.Sublist.refl [dir]
  | @listed dir found events _ _ ih =>
    simp only [List.forall_mem_cons] at htree
    exact (ih htree.2.2).cons_cons dir
  | next _ _ ihFirst ihRest =>
    obtain ⟨hfront, hback⟩ := List.forall_mem_append.1 htree
    rw [List.filterMap_append, List.filterMap_append]
    exact (ihFirst hfront).append (ihRest hback)
  | last _ _ _ ih => exact ih htree
  | @entered path entry events _ _ _ _ ih
  | @unseen path entry events _ _ _ _ _ ih =>
    -- the directory that is entered has been asked about
    simp only [List.forall_mem_cons] at htree
    have hentry : entry.path = path := htree.2.1
    subst hentry
    exact ih (by tauto)

/-- **A part of a walk shows entries of its region, in order.** -/
theorem Record.shown_pairwise (h : Record scope options part events ending)
    (htree : ∀ event ∈ events, event.Treelike) (hfits : part.Fits) :
    (events.filterMap Event.shown?).Pairwise Entry.Before ∧
      ∀ entry ∈ events.filterMap Event.shown?,
        Path.isValid entry.path ∧ part.Covers entry.path := by
  obtain ⟨hordered, hregion⟩ := h.asked_pairwise htree hfits
  have hsub := h.shown_sublist htree
  have hshown := hordered.sublist hsub
  rw [List.pairwise_map] at hshown
  exact ⟨hshown, fun entry hmem => hregion _ (hsub.subset (List.mem_map_of_mem hmem))⟩

end Walk
end PathStore
