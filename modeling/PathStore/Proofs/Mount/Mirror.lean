import PathStore.Proofs.Mount.Tidy

/-!
# What a mount does when it succeeds

A mount carries out a change by calls on a disk, and the disk knows nothing of
stores. Still, where a change of plain paths succeeds, it has the effect that
is asked of a store, and a store that holds the same would not have refused it
(`Mount.Tidy.carriedOut`). The converse is false: a disk refuses more, such as
to move a directory over a file.

Each operation is a way that has been made and one call that changes the disk
at its end: a file that is written there, a subtree that is grafted there, or a
subtree that is cleared away.
-/

namespace PathStore

open DiskPath (Piece)

/-! ## Changes of a mount -/

namespace Change

/-- The change as a call of a store, under a live context. -/
def call : Change → Time → Store.Call
  | write path content, now => .write .live now path content
  | move source dest, now => .move .live now source dest
  | delete path, _ => .delete .live path

/-- **Carries a change out in a mount**, under a live context. -/
def runIn (mount : Mount) : Change → Time → Disk → Except Failure Unit × Disk
  | write path content, now, disk => mount.write .live now path content disk
  | move source dest, now, disk => mount.move .live now source dest disk
  | delete path, _, disk => mount.delete .live path disk

@[simp] theorem change_call (change : Change) (now : Time) :
    (change.call now).change = change := by
  cases change <;> rfl

/-- Where only plain paths hold anything, a change of plain paths keeps it
so. -/
theorem effect_eq_none {change : Change} {holdings : Holdings} {path : String}
    (hplaces : ∀ place ∈ change.places, Path.IsPlain place ∧ place ≠ "/")
    (hnone : ∀ path, ¬ (Path.IsPlain path ∧ path ≠ "/") →
      holdings path = none)
    (hpath : ¬ (Path.IsPlain path ∧ path ≠ "/")) :
    change.effect holdings path = none := by
  have hwithDirs : ∀ place, Path.IsPlain place →
      holdings.withDirs (Path.ancestors place) path = none := by
    intro place hplace
    rw [Holdings.withDirs, if_neg fun hmade =>
      hpath (hplace.of_mem_ancestors hmade.1), hnone path hpath]
  cases change with
  | write place content =>
    obtain ⟨hplace, _⟩ := List.forall_mem_cons.1 hplaces
    rw [effect, hwithDirs place hplace.1, if_neg]
    rintro rfl
    exact hpath hplace
  | move source dest =>
    obtain ⟨hsource, hrest⟩ := List.forall_mem_cons.1 hplaces
    obtain ⟨hdest, _⟩ := List.forall_mem_cons.1 hrest
    rw [effect, hnone path hpath, hwithDirs dest hdest.1, ite_self]
    by_cases heq : source = dest
    · exact if_pos heq
    rw [if_neg heq]
    split
    · next hto =>
      refine hnone _ fun hback => hpath ?_
      have hin := Store.within_rebase hdest.2 hsource.2 hto
      have hthere : Store.rebase source dest (Store.rebase dest source path) =
          path := Store.rebase_rebase hdest.2 hto
      rw [← hthere]
      exact hback.1.rebase hsource.1 hdest.1 hsource.2 hdest.2 hin
    · rfl
  | delete place => rw [effect, hnone path hpath, ite_self]

end Change

namespace Mount

variable {mount : Mount} {disk mid next : Disk} {path source dest other : String}
  {now : Time} {content : ByteArray}

/-! ## Changes that succeed -/

/-- **A change that has been carried out**: a store that holds the same would
not have refused it, it has the effect that is asked of a store, and the disk
is still tidy. -/
structure CarriedOut (mount : Mount) (change : Change) (disk next : Disk) :
    Prop where
  answer : ∀ now, (change.call now).answer (mount.holdings disk) = .ok ()
  effect : mount.holdings next = change.effect (mount.holdings disk)
  tidy : mount.Tidy next

/-- The effect on plain paths is the whole effect. -/
theorem effect_of_plain {change : Change}
    (hplaces : ∀ place ∈ change.places, Path.IsPlain place ∧ place ≠ "/")
    (h : ∀ path, Path.IsPlain path → path ≠ "/" →
      (next.node? (mount.location path)).map DiskNode.holding =
        change.effect (mount.holdings disk) path) :
    mount.holdings next = change.effect (mount.holdings disk) := by
  funext path
  by_cases hpath : Path.IsPlain path ∧ path ≠ "/"
  · rw [holdings_of_isPlain hpath.1 hpath.2, h path hpath.1 hpath.2]
  · rw [holdings_of_not hpath, Change.effect_eq_none hplaces
      (fun _ => holdings_of_not) hpath]

/-- **What a file that is written leaves**: the effect of storing it. -/
theorem Paved.holdings_insert (hpaved : mount.Paved disk mid path)
    (hdirect : mount.IsDirect) (hpath : Path.IsPlain path) (htop : path ≠ "/")
    (content : ByteArray) (now : Time) :
    mount.holdings (mid.insert (mount.location path) (.file content now)) =
      (Change.write path content).effect (mount.holdings disk) := by
  have hplaces : ∀ place ∈ (Change.write path content).places,
      Path.IsPlain place ∧ place ≠ "/" :=
    List.forall_mem_singleton.2 ⟨hpath, htop⟩
  refine effect_of_plain hplaces fun other hother hne => ?_
  rw [Disk.node?_insert, Change.effect]
  by_cases heq : other = path
  · rw [if_pos heq, if_pos (congrArg mount.location heq.symm)]
    rfl
  · have hloc : mount.location path ≠ mount.location other :=
      mt (location_inj hpath.1 hother.1).1 (Ne.symm heq)
    rw [if_neg heq, if_neg hloc, ← holdings_of_isPlain hother hne,
      hpaved.holdings_eq hdirect hpath hother hne heq]

/-- **The disk stays tidy** where a file is written. -/
theorem Paved.tidy_insert (hpaved : mount.Paved disk mid path)
    (hdirect : mount.IsDirect) (htidy : mount.Tidy disk)
    (hpath : Path.IsPlain path) (htop : path ≠ "/") (content : ByteArray)
    (now : Time) :
    mount.Tidy (mid.insert (mount.location path) (.file content now)) := by
  have htidyMid := hpaved.tidy hdirect hpath htidy
  refine ⟨hpaved.free.insert (fun _ _ heq => by cases heq),
    fun location hlocation hsome => ?_,
    fun location hlocation hsome =>
      ⟨hdirect.passable (passable_root_of_passable hpath htop hpaved.passable)
        fun place hplace hdir => hdir.of_eq ?_, nul_notMem_root hpaved.check⟩⟩
  · rw [Disk.node?_insert] at hsome
    split at hsome
    · next heq => exact ⟨path, hpath, htop, heq.symm⟩
    · exact htidyMid.named location hlocation hsome
  · rw [Disk.node?_insert, if_neg]
    rintro rfl
    exact hplace (beneath_location mount hpath.1 htop)

/-- **Storing a file.** -/
theorem Tidy.write (htidy : mount.Tidy disk) (hdirect : mount.IsDirect)
    (hpath : Path.IsPlain path)
    (h : mount.write .live now path content disk = (.ok (), next)) :
    mount.CarriedOut (.write path content) disk next := by
  unfold Mount.write at h
  rw [permit_ok hpath.1] at h
  dsimp only at h
  split at h
  · cases h
  · next htop =>
    split at h
    · cases h
    · next mid hmade =>
      split at h
      · cases h
      · next written hwritten =>
        obtain rfl := (Prod.mk.inj h).2
        obtain ⟨hfree, hspares⟩ := makeEnclosing_ok htidy.free hmade
        obtain ⟨hcheck, hway, hnotDir, rfl⟩ := hfree.write_ok hwritten
        rw [destination_eq_location hpath] at hnotDir ⊢
        have hpaved : mount.Paved disk mid path :=
          ⟨hfree, hcheck, hway, hspares⟩
        refine ⟨fun now => ?_,
          hpaved.holdings_insert hdirect hpath htop content _,
          hpaved.tidy_insert hdirect htidy hpath htop content _⟩
        have hnoDir : mount.holdings disk path ≠ some .dir :=
          fun hdir => hnotDir (hpaved.dirAt (dirAt_of_holdings hdir))
        rw [Change.call, Store.Call.answer, permit_ok hpath.1]
        dsimp only
        rw [if_neg htop]
        split
        · next hdir => exact absurd hdir hnoDir
        · exact hpaved.wayTo_ok hpath

/-- What begins a list and is not all of it begins what is before its last
element. -/
theorem isPrefix_dropLast {above below : Location} (h : above <+: below)
    (hne : above ≠ below) : above <+: below.dropLast := by
  obtain rfl | ⟨front, last, rfl⟩ := List.eq_nil_or_concat' below
  · exact absurd (List.prefix_nil.1 h) hne
  · rw [List.dropLast_concat]
    exact (List.prefix_concat_iff.1 h).resolve_left hne

/-- **Where a location beneath one path is grafted from** another. -/
theorem location_rebase (hsource : Path.IsPlain source)
    (hdest : Path.IsPlain dest) (hother : Path.IsPlain other)
    (hsourceTop : source ≠ "/") (hdestTop : dest ≠ "/")
    (hin : Path.Within other source) :
    mount.location (Store.rebase source dest other) = mount.location dest ++
      (mount.location other).drop (mount.location source).length := by
  obtain ⟨rest, hrest, _, hsegments⟩ := Store.segments_rebase hsource.1 hdest.1
    hother.1 hsourceTop hdestTop hin
  unfold location Text.encodeAll
  rw [hsegments, hrest, List.map_append, List.map_append, ← List.append_assoc,
    ← List.append_assoc, List.drop_left]

/-- **A path is moved to itself** by doing nothing. -/
theorem Paved.move_self (hpaved : mount.Paved disk mid path)
    (hdirect : mount.IsDirect) (htidy : mount.Tidy disk)
    (hpath : Path.IsPlain path)
    (hway : disk.Passable [] (mount.place path).toDiskPath.plainPieces)
    {node : DiskNode} (hnode : disk.node? (mount.location path) = some node) :
    mount.CarriedOut (.move path path) disk mid := by
  refine ⟨fun now => ?_, ?_, hpaved.tidy hdirect hpath htidy⟩
  · rw [Change.call, Store.Call.answer, permit_ok hpath.1, ← permit_live,
      permit_ok hpath.1]
    exact if_pos rfl
  · funext other
    rw [Change.effect, if_pos rfl]
    unfold holdings
    split
    · next hother =>
      obtain hsame | ⟨dir, hdir, _, hwithin, heq, hnone, _⟩ :=
        hpaved.beneath_cases hdirect hpath
          (beneath_location mount hother.1.1 hother.2)
      · rw [hsame]
      · -- what is above the path was there, and so was the path
        rw [heq] at hnone
        obtain rfl | hbelow := hwithin
        · rw [hnode] at hnone
          cases hnone
        · exact absurd hnone
            (dirAt_of_passable hpath hway hdir.1 hbelow).ne_none
    · rfl

/-- **Two plain paths side by side**: neither is at or beneath the other. -/
structure Beside (source dest : String) : Prop where
  plain_source : Path.IsPlain source
  plain_dest : Path.IsPlain dest
  not_in : ¬ Path.Within dest source
  not_over : ¬ Path.Within source dest

namespace Beside

variable (h : Beside source dest)

include h

theorem source_ne_top : source ≠ "/" := by
  rintro rfl
  exact h.not_in (Path.within_top h.plain_dest.1)

theorem dest_ne_top : dest ≠ "/" := by
  rintro rfl
  exact h.not_over (Path.within_top h.plain_source.1)

theorem ne : source ≠ dest := by
  rintro rfl
  exact h.not_in (.refl source)

theorem places : ∀ place ∈ (Change.move source dest).places,
    Path.IsPlain place ∧ place ≠ "/" :=
  List.forall_mem_cons.2 ⟨⟨h.plain_source, h.source_ne_top⟩,
    List.forall_mem_singleton.2 ⟨h.plain_dest, h.dest_ne_top⟩⟩

/-- **Where a path beneath the destination comes from**: a plain path beneath
the source, where nothing is made and nothing replaced. -/
theorem rebase_back (hother : Path.IsPlain other)
    (hto : Path.Within other dest) :
    Path.IsPlain (Store.rebase dest source other) ∧
      Store.rebase dest source other ≠ "/" ∧
      Store.rebase dest source other ≠ dest ∧
      Store.rebase dest source other ∉ Path.ancestors dest := by
  have hin := Store.within_rebase h.dest_ne_top h.source_ne_top hto
  obtain ⟨hplain, hne⟩ := hother.rebase h.plain_dest h.plain_source
    h.dest_ne_top h.source_ne_top hto
  refine ⟨hplain, hne, fun heq => ?_, fun hmem => ?_⟩
  · rw [heq] at hin
    exact h.not_in hin
  · have hbelow := ((Path.mem_ancestors_iff h.plain_dest.1 hplain.1).1 hmem).2
    exact h.not_in (.trans h.plain_dest.1 hplain.1 h.plain_source.1 (.inr hbelow) hin)

/-- **A store would move it**, if it is there and the way to its new place is
open. -/
theorem answer_move {holdings : Holdings} (hsome : (holdings source).isSome)
    (hway : Store.wayTo holdings dest = .ok ()) (now : Time) :
    ((Change.move source dest).call now).answer holdings = .ok () := by
  have hapart : ¬ (source = "/" ∨ dest = "/" ∨
      Path.isDescendant dest source ∨ Path.isDescendant source dest) := by
    rintro (heq | heq | hin | hover)
    · exact h.source_ne_top heq
    · exact h.dest_ne_top heq
    · exact h.not_in (.inr hin)
    · exact h.not_over (.inr hover)
  obtain ⟨held, hheld⟩ := Option.isSome_iff_exists.1 hsome
  rw [Change.call, Store.Call.answer, permit_ok h.plain_source.1, ← permit_live,
    permit_ok h.plain_dest.1]
  dsimp only
  rw [if_neg h.ne, if_neg hapart, hheld]
  exact hway

end Beside

/-- **What a subtree that is grafted leaves**: the effect of a move. -/
theorem Paved.holdings_graft (hpaved : mount.Paved disk mid dest)
    (hdirect : mount.IsDirect) (hbeside : Beside source dest) :
    mount.holdings (mid.graft (mount.location source) (mount.location dest)) =
      (Change.move source dest).effect (mount.holdings disk) := by
  -- away from both places the disk is as it was when the way was made
  have hkept : ∀ path, Path.IsPlain path → path ≠ "/" → path ≠ dest →
      (mid.node? (mount.location path)).map DiskNode.holding =
        (mount.holdings disk).withDirs (Path.ancestors dest) path := by
    intro path hpath hpathTop hpathNe
    rw [← holdings_of_isPlain hpath hpathTop,
      hpaved.holdings_eq hdirect hbeside.plain_dest hpath hpathTop hpathNe]
  refine effect_of_plain hbeside.places fun other hother hotherTop => ?_
  have hto_iff : mount.location dest <+: mount.location other ↔
      Path.Within other dest := location_isPrefix_iff hother.1 hbeside.plain_dest.1
  have hin_iff : mount.location source <+: mount.location other ↔
      Path.Within other source :=
    location_isPrefix_iff hother.1 hbeside.plain_source.1
  rw [Disk.node?_graft, Change.effect, if_neg hbeside.ne]
  by_cases hto : Path.Within other dest
  · obtain ⟨hplain, hback, hne, hnotMade⟩ := hbeside.rebase_back hother hto
    rw [if_pos (hto_iff.2 hto), if_pos hto, ← location_rebase hbeside.plain_dest
      hbeside.plain_source hother hbeside.dest_ne_top hbeside.source_ne_top hto,
      hkept _ hplain hback hne]
    exact if_neg fun hmade => hnotMade hmade.1
  · rw [if_neg (mt hto_iff.1 hto), if_neg hto]
    by_cases hin : Path.Within other source
    · rw [if_pos (hin_iff.2 hin), if_pos hin]
      rfl
    · rw [if_neg (mt hin_iff.1 hin), if_neg hin]
      refine hkept other hother hotherTop ?_
      rintro rfl
      exact hto (.refl other)

/-- **The disk stays tidy** where a subtree is grafted. -/
theorem Paved.tidy_graft (hpaved : mount.Paved disk mid dest)
    (hdirect : mount.IsDirect) (htidy : mount.Tidy disk)
    (hbeside : Beside source dest) :
    mount.Tidy (mid.graft (mount.location source) (mount.location dest)) := by
  have htidyMid := hpaved.tidy hdirect hbeside.plain_dest htidy
  have hbeneathSource :=
    beneath_location mount hbeside.plain_source.1 hbeside.source_ne_top
  have hbeneathDest :=
    beneath_location mount hbeside.plain_dest.1 hbeside.dest_ne_top
  have haway : ∀ location, ¬ mount.Beneath location →
      (mid.graft (mount.location source) (mount.location dest)).node?
        location = mid.node? location := by
    intro location hlocation
    rw [Disk.node?_graft,
      if_neg fun hto => hlocation (hbeneathDest.of_isPrefix hto),
      if_neg fun hin => hlocation (hbeneathSource.of_isPrefix hin)]
  refine ⟨hpaved.free.graft, fun location hlocation hsome => ?_,
    fun location _ _ => ⟨hdirect.passable
      (passable_root_of_passable hbeside.plain_dest hbeside.dest_ne_top
        hpaved.passable)
      fun place hplace hdir => hdir.of_eq (haway place hplace),
      nul_notMem_root hpaved.check⟩⟩
  rw [Disk.node?_graft] at hsome
  split at hsome
  · next hto =>
    -- what is there now was in the same place beneath the source
    obtain ⟨rest, rfl⟩ := hto
    rw [List.drop_left] at hsome
    obtain ⟨path, hpath, _, heq⟩ := htidyMid.named _
      (hbeneathSource.of_isPrefix (List.prefix_append _ rest)) hsome
    have hin : Path.Within path source :=
      (location_isPrefix_iff hpath.1 hbeside.plain_source.1).1
        (heq ▸ List.prefix_append _ rest)
    obtain ⟨hplain, hne⟩ := hpath.rebase hbeside.plain_source
      hbeside.plain_dest hbeside.source_ne_top hbeside.dest_ne_top hin
    refine ⟨Store.rebase source dest path, hplain, hne, ?_⟩
    rw [location_rebase hbeside.plain_source hbeside.plain_dest hpath
      hbeside.source_ne_top hbeside.dest_ne_top hin, ← heq, List.drop_left]
  · split at hsome
    · cases hsome
    · exact htidyMid.named location hlocation hsome

/-- **Moving.** -/
theorem Tidy.move (htidy : mount.Tidy disk) (hdirect : mount.IsDirect)
    (hsource : Path.IsPlain source) (hdest : Path.IsPlain dest)
    (h : mount.move .live now source dest disk = (.ok (), next)) :
    mount.CarriedOut (.move source dest) disk next := by
  unfold Mount.move at h
  rw [permit_ok hsource.1, ← permit_live, permit_ok hdest.1] at h
  dsimp only at h
  split at h
  · cases h
  · next node hstat =>
    obtain ⟨hwaySource, hnode⟩ := htidy.free.stat_ok hstat
    rw [destination_eq_location hsource] at hnode
    split at h
    · cases h
    · next mid hmade =>
      split at h
      · cases h
      · next moved hmoved =>
        obtain rfl := (Prod.mk.inj h).2
        obtain ⟨hfree, hspares⟩ := makeEnclosing_ok htidy.free hmade
        obtain ⟨hcheck, hway, hbeneath, hover, hnext⟩ := hfree.move_ok hmoved
        rw [destination_eq_location hsource, destination_eq_location hdest]
          at hbeneath hover hnext
        have hpaved : mount.Paved disk mid dest :=
          ⟨hfree, hcheck, hway, hspares⟩
        by_cases heq : source = dest
        · subst heq
          rw [hnext, if_pos rfl]
          exact hpaved.move_self hdirect htidy hsource hwaySource hnode
        · have hne : mount.location source ≠ mount.location dest :=
            mt (location_inj hsource.1 hdest.1).1 heq
          rw [hnext, if_neg hne]
          have hbeside : Beside source dest := ⟨hsource, hdest,
            fun hin => hbeneath (isPrefix_dropLast
              ((location_isPrefix_iff hdest.1 hsource.1).2 hin) hne),
            fun hin => hover (isPrefix_dropLast
              ((location_isPrefix_iff hsource.1 hdest.1).2 hin) hne.symm)⟩
          refine ⟨hbeside.answer_move ?_ (hpaved.wayTo_ok hdest),
            hpaved.holdings_graft hdirect hbeside,
            hpaved.tidy_graft hdirect htidy hbeside⟩
          rw [holdings_of_isPlain hsource hbeside.source_ne_top, hnode]
          rfl

/-- **The top is deleted** by leaving nothing beneath the root. -/
theorem carriedOut_delete_top (hfree : next.LinkFree)
    (hnone : ∀ location, mount.Beneath location →
      next.node? location = none) :
    mount.CarriedOut (.delete "/") disk next := by
  refine ⟨fun now => rfl, ?_, tidy_of_none hnone hfree⟩
  funext path
  rw [holdings_of_none hnone, Change.effect]
  by_cases hpath : Path.IsPlain path ∧ path ≠ "/"
  · exact (if_pos (Path.within_top hpath.1.1)).symm
  · rw [holdings_of_not hpath, ite_self]

/-- **Any other path is deleted** with all beneath it. -/
theorem Tidy.carriedOut_delete (htidy : mount.Tidy disk)
    (hdirect : mount.IsDirect) (hpath : Path.IsPlain path) (htop : path ≠ "/")
    (hfree : next.LinkFree) {node : DiskNode}
    (hnode : disk.node? (mount.location path) = some node)
    (hnext : ∀ location, next.node? location =
      if mount.location path <+: location then none
      else disk.node? location) :
    mount.CarriedOut (.delete path) disk next := by
  have hbeneath := beneath_location mount hpath.1 htop
  have hfound : (disk.node? (mount.location path)).isSome := by
    rw [hnode]
    rfl
  have hold : ∀ {location}, (next.node? location).isSome →
      (disk.node? location).isSome := by
    intro location hsome
    rw [hnext] at hsome
    split at hsome
    · cases hsome
    · exact hsome
  refine ⟨fun now => ?_, effect_of_plain ?_ fun other hother hne => ?_,
    ⟨hfree, fun location hlocation hsome =>
      htidy.named location hlocation (hold hsome),
      fun location hlocation hsome => ⟨hdirect.passable
        (htidy.reached location hlocation (hold hsome)).1
          fun place hplace hdir => hdir.of_eq ?_,
        (htidy.reached location hlocation (hold hsome)).2⟩⟩⟩
  · rw [Change.call, Store.Call.answer, permit_ok hpath.1]
    dsimp only
    rw [if_neg htop, holdings_of_isPlain hpath htop, hnode]
    rfl
  · exact List.forall_mem_singleton.2 ⟨hpath, htop⟩
  · have hin_iff : mount.location path <+: mount.location other ↔
        Path.Within other path := location_isPrefix_iff hother.1 hpath.1
    rw [hnext, Change.effect]
    by_cases hin : Path.Within other path
    · rw [if_pos (hin_iff.2 hin), if_pos hin]
      rfl
    · rw [if_neg (mt hin_iff.1 hin), if_neg hin, holdings_of_isPlain hother hne]
  · rw [hnext, if_neg fun hin => hplace (hbeneath.of_isPrefix hin)]

/-- The way to a plain path does not lead through what is beneath it. -/
theorem IsDirect.passable_clear (hdirect : mount.IsDirect)
    (hpath : Path.IsPlain path) (htop : path ≠ "/")
    (h : disk.Passable [] (mount.place path).toDiskPath.plainPieces) :
    (disk.clear (mount.location path)).Passable []
      (mount.place path).toDiskPath.plainPieces := by
  refine h.of_dirs fun front hfront hdir => hdir.of_eq ?_
  rw [Disk.node?_clear, if_neg]
  rintro ⟨hbelow, hne⟩
  obtain ⟨above, habove, _, hwithin, heq⟩ :=
    exists_above_of_beneath hdirect hpath hfront
      ((beneath_location mount hpath.1 htop).of_isPrefix hbelow)
  rw [heq] at hbelow hne
  obtain rfl | hstrict := hwithin
  · exact hne rfl
  · exact ((location_isPrefix_iff habove.1 hpath.1).1
      hbelow).not_isDescendant habove.1 hpath.1 hstrict

/-- The last piece of a plain path below the top is a name. -/
theorem exists_plainPieces_concat (mount : Mount) (hpath : Path.IsPlain path)
    (htop : path ≠ "/") : ∃ front name,
      (mount.place path).toDiskPath.plainPieces =
        front ++ [Piece.name name] := by
  obtain ⟨dir, word, _, _, _, hsegments⟩ := Path.exists_parent? hpath.1 htop
  refine ⟨mount.rootPieces ++
    (Text.encodeAll (Path.segments dir)).map .name, Text.encode word, ?_⟩
  rw [plainPieces_place, pieces_of_isPlain hpath, hsegments, List.append_assoc]
  unfold Text.encodeAll
  rw [List.map_append, List.map_append]
  rfl

/-- What a mount that has deleted a path has found there, and has removed. -/
theorem delete_ok (hfree : disk.LinkFree) (hpath : Path.IsPlain path)
    (h : mount.delete .live path disk = (.ok (), next)) :
    (mount.place path).toDiskPath.precheck = .ok () ∧
      disk.Passable [] (mount.place path).toDiskPath.plainPieces ∧
      (∃ node, disk.node? (mount.location path) = some node) ∧
      (disk.removeTree (mount.place path).toDiskPath = (.ok (), next) ∨
        disk.removeFile (mount.place path).toDiskPath = (.ok (), next)) := by
  unfold Mount.delete at h
  rw [permit_ok hpath.1] at h
  dsimp only at h
  split at h
  · cases h
  · next node hlstat =>
    obtain ⟨hcheck, hway, hnode⟩ := hfree.lstat_ok hlstat
    rw [destination_eq_location hpath] at hnode
    split at h
    · cases h
    · next removed hremoved =>
      obtain rfl := (Prod.mk.inj h).2
      refine ⟨hcheck, hway, ⟨node, hnode⟩, ?_⟩
      split at hremoved
      · exact .inl hremoved
      · exact .inr hremoved

/-- **Deleting the top.** -/
theorem delete_top (hfree : disk.LinkFree)
    (h : mount.delete .live "/" disk = (.ok (), next)) :
    mount.CarriedOut (.delete "/") disk next := by
  have hplace : (mount.place "/").toDiskPath.destination = mount.home :=
    (destination_eq_location Path.isPlain_top).trans mount.location_top
  have hclear : ∀ location, mount.Beneath location →
      (disk.clear mount.home).node? location = none := by
    intro location hlocation
    rw [Disk.node?_clear]
    exact if_pos hlocation
  obtain ⟨_, _, _, hremoved | hremoved⟩ := delete_ok hfree Path.isPlain_top h
  · obtain rfl | rfl := hfree.removeTree_ok hremoved
    · rw [hplace]
      exact carriedOut_delete_top hfree.clear hclear
    · rw [hplace]
      refine carriedOut_delete_top (Disk.LinkFree.prune hfree.clear)
        fun location hlocation => ?_
      rw [Disk.node?_prune, if_pos hlocation.1]
  · obtain rfl := hfree.removeFile_ok hremoved
    rw [hplace]
    refine carriedOut_delete_top hfree.prune fun location hlocation => ?_
    rw [Disk.node?_prune, if_pos hlocation.1]

/-- **Deleting.** -/
theorem Tidy.delete (htidy : mount.Tidy disk) (hdirect : mount.IsDirect)
    (hpath : Path.IsPlain path)
    (h : mount.delete .live path disk = (.ok (), next)) :
    mount.CarriedOut (.delete path) disk next := by
  have hfree := htidy.free
  by_cases htop : path = "/"
  · subst htop
    exact delete_top hfree h
  obtain ⟨hcheck, hway, ⟨node, hnode⟩, hremoved⟩ := delete_ok hfree hpath h
  have hplace : (mount.place path).toDiskPath.destination =
      mount.location path := destination_eq_location hpath
  obtain hremoved | hremoved := hremoved
  · obtain ⟨front, name, hpieces⟩ := mount.exists_plainPieces_concat hpath htop
    have hcleared := hdirect.passable_clear hpath htop hway
    rw [← hplace] at hcleared
    obtain rfl := hfree.removeTree_ok_of_passable hremoved hcheck hpieces
      hcleared
    rw [hplace]
    refine htidy.carriedOut_delete hdirect hpath htop
      (Disk.LinkFree.prune hfree.clear) hnode fun location => ?_
    rw [Disk.node?_prune, Disk.node?_clear]
    split
    · rfl
    · next hout => rw [if_neg fun hin => hout hin.1]
  · obtain rfl := hfree.removeFile_ok hremoved
    rw [hplace]
    exact htidy.carriedOut_delete hdirect hpath htop hfree.prune hnode
      fun location => Disk.node?_prune disk _ location

/-! ## Changes one after another -/

/-- **A change of plain paths that succeeds in a mount** is carried out as a
store would. -/
theorem Tidy.carriedOut (htidy : mount.Tidy disk) (hdirect : mount.IsDirect)
    {change : Change} (hplaces : ∀ path ∈ change.places, Path.IsPlain path)
    (h : change.runIn mount now disk = (.ok (), next)) :
    mount.CarriedOut change disk next := by
  cases change with
  | write path content =>
    rw [Change.runIn] at h
    exact htidy.write hdirect (hplaces path List.mem_cons_self) h
  | move source dest =>
    rw [Change.runIn] at h
    exact htidy.move hdirect (hplaces source List.mem_cons_self)
      (hplaces dest (List.mem_cons_of_mem _ List.mem_cons_self)) h
  | delete path =>
    rw [Change.runIn] at h
    exact htidy.delete hdirect (hplaces path List.mem_cons_self) h

end Mount
end PathStore
