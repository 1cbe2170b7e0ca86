import PathStore.Proofs.Store.Subtree

/-!
# Moving a subtree, node by node

A subtree is moved by renaming its paths one after another, in a map where
the paths of both places stand side by side. What makes the renamings
independent is that the two places are apart: neither is at or beneath the
other, so no path lies in both, and a renaming neither meets a path that
has yet to be renamed nor one that has been (`get?_foldl_moveNode`).

Renaming from one place to the other and back is the identity, on all
strings; on well-formed paths it exchanges one beginning of the list of
segments for another.
-/

namespace PathStore
namespace Path

/-- **At or beneath, by the letters**: what stands behind the letters of
`dir` is nothing or goes on with a slash. -/
theorem within_iff_append {path dir : String} (hne : dir ≠ "/") :
    Within path dir ↔ ∃ rest, path.toList = dir.toList ++ rest ∧
      (rest = [] ∨ ∃ tail, rest = '/' :: tail) := by
  unfold Within isDescendant
  rw [if_neg hne, List.isPrefixOf_iff_prefix]
  constructor
  · rintro (rfl | ⟨tail, htail⟩)
    · exact ⟨[], (List.append_nil _).symm, .inl rfl⟩
    · refine ⟨'/' :: tail, ?_, .inr ⟨tail, rfl⟩⟩
      rw [← htail, List.append_assoc]
      rfl
  · rintro ⟨rest, hrest, rfl | ⟨tail, rfl⟩⟩
    · rw [List.append_nil] at hrest
      exact .inl (String.toList_inj.1 hrest)
    · refine .inr ⟨tail, ?_⟩
      rw [hrest, List.append_assoc]
      rfl

/-- **What may stand behind a path** in one at or beneath it: nothing, or what
begins with a slash. -/
def IsTail (rest : String) : Prop := rest = "" ∨ ∃ more, rest = "/" ++ more

theorem isTail_iff {rest : String} : IsTail rest ↔
    rest.toList = [] ∨ ∃ letters, rest.toList = '/' :: letters := by
  unfold IsTail
  refine or_congr String.toList_eq_nil_iff.symm ⟨?_, ?_⟩
  · rintro ⟨more, rfl⟩
    exact ⟨more.toList, String.toList_append⟩
  · rintro ⟨letters, hletters⟩
    exact ⟨String.ofList letters, String.toList_inj.1 (by simp [hletters])⟩

/-- **What goes on from a path** is at or beneath it if it goes on with a
tail. -/
theorem within_append_iff {dir rest : String} (hne : dir ≠ "/") :
    Within (dir ++ rest) dir ↔ IsTail rest := by
  rw [within_iff_append hne, isTail_iff, String.toList_append]
  constructor
  · rintro ⟨letters, hletters, htail⟩
    rwa [List.append_cancel_left hletters]
  · exact fun htail => ⟨rest.toList, rfl, htail⟩

/-- A name that goes on from another is no tail. -/
theorem not_isTail_of_isSegment {word : String} (h : isSegment word.toList) :
    ¬ IsTail word := by
  rw [isTail_iff]
  rintro (hnil | ⟨letters, hletters⟩)
  · exact ne_nil_of_isSegment h hnil
  · refine slash_notMem_of_isSegment h ?_
    rw [hletters]
    exact List.mem_cons_self

/-- What goes on with a slash begins with nothing or a slash. -/
theorem nil_or_slash_of_append {front rest : List Char}
    (h : front ++ rest = [] ∨ ∃ tail, front ++ rest = '/' :: tail) :
    front = [] ∨ ∃ tail, front = '/' :: tail := by
  cases front with
  | nil => exact .inl rfl
  | cons c front =>
    obtain hnil | ⟨tail, htail⟩ := h
    · exact absurd hnil (List.cons_ne_nil _ _)
    · exact .inr ⟨front, by rw [(List.cons.inj htail).1]⟩

/-- **What is at or beneath two paths makes them comparable.** -/
theorem Within.comparable {path dir other : String} (hdir : dir ≠ "/")
    (hother : other ≠ "/") (h : Within path dir) (hin : Within path other) :
    Within dir other ∨ Within other dir := by
  obtain ⟨rest, hrest, hslash⟩ := (within_iff_append hdir).1 h
  obtain ⟨more, hmore, hslashMore⟩ := (within_iff_append hother).1 hin
  rw [hrest, List.append_eq_append_iff] at hmore
  obtain ⟨mid, hmid, rfl⟩ | ⟨mid, hmid, rfl⟩ := hmore
  · refine .inr ((within_iff_append hdir).2 ⟨mid, hmid, ?_⟩)
    exact nil_or_slash_of_append hslash
  · refine .inl ((within_iff_append hother).2 ⟨mid, hmid, ?_⟩)
    exact nil_or_slash_of_append hslashMore

end Path

namespace Store

variable {source dest key : String}

theorem toList_rebase (source dest key : String) :
    (rebase source dest key).toList =
      dest.toList ++ key.toList.drop source.toList.length := by
  rw [rebase, String.toList_append, String.toList_ofList]

/-- A path that goes on from the root of a subtree is renamed at its
beginning. -/
theorem rebase_append (source dest rest : String) :
    rebase source dest (source ++ rest) = dest ++ rest := by
  refine String.toList_inj.1 ?_
  rw [toList_rebase, String.toList_append, String.toList_append,
    List.drop_left]

/-- A path is renamed into the other place. -/
theorem within_rebase (hsource : source ≠ "/") (hdest : dest ≠ "/")
    (h : Path.Within key source) :
    Path.Within (rebase source dest key) dest := by
  obtain ⟨rest, hrest, hslash⟩ := (Path.within_iff_append hsource).1 h
  refine (Path.within_iff_append hdest).2 ⟨rest, ?_, hslash⟩
  rw [toList_rebase, hrest, List.drop_left]

/-- **Renaming there and back changes nothing.** -/
theorem rebase_rebase (hsource : source ≠ "/") (h : Path.Within key source) :
    rebase dest source (rebase source dest key) = key := by
  obtain ⟨rest, hrest, _⟩ := (Path.within_iff_append hsource).1 h
  refine String.toList_inj.1 ?_
  rw [toList_rebase, toList_rebase, hrest, List.drop_left, List.drop_left]

/-- The root of a subtree is renamed to the root of its new place. -/
theorem rebase_self (source dest : String) :
    rebase source dest source = dest := by
  refine String.toList_inj.1 ?_
  rw [toList_rebase, List.drop_length, List.append_nil]

/-- Renaming exchanges the beginnings of the lists of segments. -/
theorem segments_rebase (hvalidSource : Path.isValid source)
    (hvalidDest : Path.isValid dest) (hvalid : Path.isValid key)
    (hsource : source ≠ "/") (hdest : dest ≠ "/")
    (h : Path.Within key source) :
    ∃ rest, Path.segments key = Path.segments source ++ rest ∧
      Path.isValid (rebase source dest key) ∧
      Path.segments (rebase source dest key) = Path.segments dest ++ rest := by
  obtain ⟨rest, hrest⟩ := (Path.within_iff hvalid hvalidSource).1 h
  have hwords := Path.areSegments_segments hvalid
  rw [← hrest, Path.AreSegments.append_iff] at hwords
  have hnew : Path.AreSegments (Path.segments dest ++ rest) :=
    Path.AreSegments.append_iff.2
      ⟨Path.areSegments_segments hvalidDest, hwords.2⟩
  have hspell : ∀ {path : String}, Path.isValid path → path ≠ "/" →
      path.toList = Path.spell (Path.segments path) ∧
        Path.segments path ≠ [] := by
    intro path hpath hne
    have hnil := mt (Path.segments_eq_nil_iff hpath).1 hne
    refine ⟨?_, hnil⟩
    rw [← Path.toList_ofSegments hnil, Path.ofSegments_segments hpath]
  obtain ⟨hsourceChars, hsourceNil⟩ := hspell hvalidSource hsource
  obtain ⟨hdestChars, hdestNil⟩ := hspell hvalidDest hdest
  have hkeyChars : key.toList = source.toList ++ Path.spell rest := by
    rw [← Path.ofSegments_segments hvalid, ← hrest,
      Path.toList_ofSegments (by simp [hsourceNil]), Path.spell_append,
      hsourceChars]
  have heq : rebase source dest key =
      Path.ofSegments (Path.segments dest ++ rest) := by
    refine String.toList_inj.1 ?_
    rw [toList_rebase, hkeyChars, List.drop_left,
      Path.toList_ofSegments (by simp [hdestNil]), Path.spell_append,
      ← hdestChars]
  refine ⟨rest, hrest.symm, ?_, ?_⟩
  · rw [heq]
    exact Path.isValid_ofSegments hnew
  · rw [heq, Path.segments_ofSegments hnew]

/-- **The parent of a renamed path is the renamed parent**, beneath the
root of the subtree. -/
theorem parent?_rebase {parent : String} (hvalidSource : Path.isValid source)
    (hvalidDest : Path.isValid dest) (hvalid : Path.isValid key)
    (hsource : source ≠ "/") (hdest : dest ≠ "/")
    (hparent : Path.parent? key = some parent)
    (h : Path.Within parent source) :
    Path.parent? (rebase source dest key) =
      some (rebase source dest parent) := by
  obtain ⟨hvalidParent, _, word, _, hword⟩ :=
    Path.segments_of_parent? hvalid hparent
  have hkey : Path.Within key source :=
    .inr ((Path.isDescendant_iff_parent? hvalid hvalidSource hparent).2 h)
  obtain ⟨rest, hrest, hvalidKey, hsegments⟩ :=
    segments_rebase hvalidSource hvalidDest hvalid hsource hdest hkey
  obtain ⟨front, hfront, hvalidFront, hsegmentsFront⟩ :=
    segments_rebase hvalidSource hvalidDest hvalidParent hsource hdest h
  refine (Path.parent?_eq_some_iff hvalidKey hvalidFront).2 ⟨word, ?_⟩
  rw [hrest, hfront, List.append_assoc] at hword
  rw [hsegments, hsegmentsFront, List.append_cancel_left hword,
    List.append_assoc]

/-- **Moving one node.** -/
theorem get?_moveNode {store : Store} {node : Node}
    (hnode : store.get? key = some node) (source dest other : String) :
    (moveNode source dest store key).get? other =
      if rebase source dest key = other then some node
      else if key = other then none else store.get? other := by
  rw [moveNode, hnode]
  show ((store.erase key).insert _ node).get? other = _
  rw [get?_insert, get?_erase]

/-- What has yet to be moved is not touched by moving another node. -/
theorem get?_moveNode_of_within (hsource : source ≠ "/") (hdest : dest ≠ "/")
    (hapart : ∀ path, Path.Within path source → ¬ Path.Within path dest)
    {store : Store} (hkey : Path.Within key source)
    (hsome : (store.get? key).isSome) {other : String}
    (hother : Path.Within other source) (hne : other ≠ key) :
    (moveNode source dest store key).get? other = store.get? other := by
  obtain ⟨node, hnode⟩ := Option.isSome_iff_exists.1 hsome
  have hrebased : rebase source dest key ≠ other := by
    rintro rfl
    exact hapart _ hother (within_rebase hsource hdest hkey)
  rw [get?_moveNode hnode, if_neg hrebased, if_neg (Ne.symm hne)]

/-- **Moving nodes from one place to another apart from it**: a path of
the new place holds what its old name held, if that was moved; what was
moved is gone from the old place; all else is as it was. -/
theorem get?_foldl_moveNode (hsource : source ≠ "/") (hdest : dest ≠ "/")
    (hapart : ∀ path, Path.Within path source → ¬ Path.Within path dest)
    {moving : List String} {store : Store} (hnodup : moving.Nodup)
    (hmoving : ∀ key ∈ moving,
      Path.Within key source ∧ (store.get? key).isSome) (path : String) :
    (moving.foldl (moveNode source dest) store).get? path =
      if Path.Within path dest ∧ rebase dest source path ∈ moving then
        store.get? (rebase dest source path)
      else if path ∈ moving then none
      else store.get? path := by
  induction moving generalizing store with
  | nil => simp
  | cons key moving ih =>
    obtain ⟨⟨hkey, hsome⟩, hrest⟩ := List.forall_mem_cons.1 hmoving
    obtain ⟨hnew, hnodup⟩ := List.nodup_cons.1 hnodup
    obtain ⟨node, hnode⟩ := Option.isSome_iff_exists.1 hsome
    have hplace := within_rebase hsource hdest hkey
    have hkept : ∀ other, Path.Within other source → other ≠ key →
        (moveNode source dest store key).get? other = store.get? other :=
      fun _ => get?_moveNode_of_within hsource hdest hapart hkey hsome
    have hstill : ∀ other ∈ moving, Path.Within other source ∧
        ((moveNode source dest store key).get? other).isSome := by
      intro other hother
      obtain ⟨hwithin, hsome⟩ := hrest other hother
      refine ⟨hwithin, ?_⟩
      rwa [hkept other hwithin fun heq => hnew (heq ▸ hother)]
    rw [List.foldl_cons, ih hnodup hstill]
    by_cases hto : Path.Within path dest
    · have hback : Path.Within (rebase dest source path) source :=
        within_rebase hdest hsource hto
      have hout : path ∉ key :: moving := fun hmem =>
        hapart path (hmoving path hmem).1 hto
      obtain ⟨hne, hnot⟩ := List.ne_and_not_mem_of_not_mem_cons hout
      by_cases heq : rebase dest source path = key
      · have hthere : rebase source dest key = path :=
          heq ▸ rebase_rebase hdest hto
        have hlater : ¬ (Path.Within path dest ∧
            rebase dest source path ∈ moving) := fun h => hnew (heq ▸ h.2)
        have hmoved : Path.Within path dest ∧
            rebase dest source path ∈ key :: moving :=
          ⟨hto, heq ▸ List.mem_cons_self⟩
        rw [if_neg hlater, if_neg hnot, get?_moveNode hnode _ _ path,
          if_pos hthere, if_pos hmoved, heq, hnode]
      · have hthere : rebase source dest key ≠ path := by
          rintro rfl
          exact heq (rebase_rebase hsource hkey)
        rw [if_neg hnot, if_neg hout, get?_moveNode hnode _ _ path,
          if_neg hthere, if_neg (Ne.symm hne), hkept _ hback heq]
        simp only [List.mem_cons, or_iff_right heq]
    · have hrebased : rebase source dest key ≠ path := by
        rintro rfl
        exact hto hplace
      have hno : ∀ {P : Prop}, ¬ (Path.Within path dest ∧ P) :=
        fun h => hto h.1
      rw [if_neg hno, if_neg hno, get?_moveNode hnode _ _ path,
        if_neg hrebased]
      by_cases heq : path = key
      · simp [heq]
      · simp [heq, Ne.symm heq]

end Store
end PathStore
