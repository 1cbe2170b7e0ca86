import PathStore.Proofs.Store.Tree

/-!
# What a call does, whatever the time

Nodes record when they were last changed. A **holding** is a node without its
age, and a **change** what is asked of a store, without the time and the
context in which it is asked. What becomes of the holdings is a matter of the
change alone, and is written out here as a function of the holdings before
(`Change.effect`). So is the answer of a call, which depends on its context
besides (`Store.Call.answer`).

That the operations do this and answer so is true of stores that are trees
(`Store.IsTree.fst_run`, `Store.IsTree.holding?_after`). In a tree a subtree is
found by looking at its root, and a file in the way is met before anything has
been made.
-/

namespace PathStore

/-- **What is stored at a path, whatever its age.** -/
inductive Holding where
  | file (content : ByteArray)
  | dir

/-- Whether a holding is a file. -/
def Holding.isFile : Holding → Bool
  | file _ => true
  | dir => false

/-- A node without its age. -/
def Node.holding : Node → Holding
  | file content _ => .file content
  | dir _ => .dir

/-- **What is held at each path.** -/
abbrev Holdings := String → Option Holding

namespace Holdings

/-- Whether there is a file at a path. -/
def fileAt (holdings : Holdings) (path : String) : Bool :=
  (holdings path).any Holding.isFile

/-- **Directories made at the vacant paths of a list.** -/
def withDirs (holdings : Holdings) (dirs : List String) : Holdings :=
  fun path =>
    if path ∈ dirs ∧ holdings path = none then some .dir else holdings path

end Holdings

/-- **What is asked of a store that is to change.** -/
inductive Change where
  | write (path : String) (content : ByteArray)
  | move (source dest : String)
  | delete (path : String)

namespace Change

/-- The paths a change is about. -/
def places : Change → List String
  | write path _ => [path]
  | move source dest => [source, dest]
  | delete path => [path]

/-- **The paths at which directories may be made.** To move a path to itself
is to do nothing. -/
def makes : Change → List String
  | write path _ => Path.ancestors path
  | move source dest => if source = dest then [] else Path.ancestors dest
  | delete _ => []

/-- **What a change makes of the holdings**, if it succeeds. -/
def effect : Change → Holdings → Holdings
  | write path content, holdings, other =>
    if other = path then some (.file content)
    else holdings.withDirs (Path.ancestors path) other
  | move source dest, holdings, other =>
    if source = dest then holdings other
    else if Path.Within other dest then
      holdings (Store.rebase dest source other)
    else if Path.Within other source then none
    else holdings.withDirs (Path.ancestors dest) other
  | delete path, holdings, other =>
    if Path.Within other path then none else holdings other

end Change

namespace Store

/-- **What a store holds, whatever its age.** -/
def holdings (store : Store) : Holdings := fun path =>
  (store.get? path).map Node.holding

/-- What a call asks for, without when and in which context. -/
def Call.change : Call → Change
  | write _ _ path content => .write path content
  | move _ _ source dest => .move source dest
  | delete _ path => .delete path

/-- **Whether the ancestors of a path can be directories**: the first of them
that is a file is reported. -/
def wayTo (holdings : Holdings) (path : String) : Except Failure Unit :=
  match (Path.ancestors path).find? holdings.fileAt with
  | some dir => .error (.backend (.notDirectory driver dir))
  | none => .ok ()

/-- **What a call answers**, by what is held. -/
def Call.answer : Call → Holdings → Except Failure Unit
  | write status _ path _, holdings =>
    match permit status path driver with
    | .error cause => .error cause
    | .ok () =>
      if path = "/" then .error (.invalidPath path driver)
      else
        match holdings path with
        | some .dir => .error (.backend (.isDirectory driver path))
        | _ => wayTo holdings path
  | move status _ source dest, holdings =>
    match permit status source driver with
    | .error cause => .error cause
    | .ok () =>
      match Path.validate dest driver with
      | .error cause => .error cause
      | .ok () =>
        if source = dest then .ok ()
        else if source = "/" ∨ dest = "/" ∨ Path.isDescendant dest source ∨
            Path.isDescendant source dest then
          .error (.invalidPath dest driver)
        else
          match holdings source with
          | none => .error (.notFound source driver)
          | some _ => wayTo holdings dest
  | delete status path, holdings =>
    match permit status path driver with
    | .error cause => .error cause
    | .ok () =>
      if path = "/" then .ok ()
      else
        match holdings path with
        | none => .error (.notFound path driver)
        | some _ => .ok ()

variable {store : Store} {path dir : String}

theorem holdings_eq (store : Store) (path : String) :
    store.holdings path = (store.get? path).map Node.holding := rfl

theorem holdings_eq_none_iff :
    store.holdings path = none ↔ store.get? path = none :=
  Option.map_eq_none_iff

theorem fileAt_holdings : store.holdings.fileAt path =
    (store.get? path).any Node.isFile := by
  unfold Holdings.fileAt holdings
  cases store.get? path with
  | none => rfl
  | some node => cases node <;> rfl

/-! ## Answers -/

/-- **Making directories answers by the first file on the list.** A directory
that is made on the way is no file. -/
theorem fst_makeDirs (now : Time) (dirs : List String) (store : Store) :
    (makeDirs now dirs store).1 =
      match dirs.find? store.holdings.fileAt with
      | some dir => .error (.backend (.notDirectory driver dir))
      | none => .ok () := by
  induction dirs generalizing store with
  | nil => rfl
  | cons dir dirs ih =>
    rw [List.find?_cons, fileAt_holdings, makeDirs]
    cases hnode : store.get? dir with
    | none =>
      have hsame : (store.insert dir (.dir now)).holdings.fileAt =
          store.holdings.fileAt := by
        funext path
        rw [fileAt_holdings, fileAt_holdings, get?_insert]
        split
        · next heq =>
          rw [← heq, hnode]
          rfl
        · rfl
      dsimp only
      rw [ih, hsame]
      rfl
    | some node =>
      cases node with
      | file content time => rfl
      | dir time => exact ih store

theorem fst_makeAncestors (now : Time) (path : String) (store : Store) :
    (makeAncestors now path store).1 = wayTo store.holdings path :=
  fst_makeDirs now (Path.ancestors path) store

/-- **A subtree of a tree is found by its root.** -/
theorem IsTree.subtree_eq_nil_iff (h : store.IsTree) (hdir : Path.isValid dir)
    (hne : dir ≠ "/") : store.subtree dir = [] ↔ store.get? dir = none := by
  rw [List.eq_nil_iff_forall_not_mem]
  constructor
  · intro hnil
    refine Option.not_isSome_iff_eq_none.1 fun hsome => hnil dir ?_
    exact (mem_subtree store dir dir).2 ⟨hsome, .refl dir⟩
  · intro hnone key hkey
    obtain ⟨hsome, hin⟩ := (mem_subtree store dir key).1 hkey
    have hroot := h.isSome_of_within hsome hdir hne hin
    rw [hnone] at hroot
    exact Bool.false_ne_true hroot

/-- What follows the making of ancestors does not change its answer. -/
theorem fst_afterAncestors (now : Time) (path : String) (store : Store)
    (next : Store → Store) :
    (match makeAncestors now path store with
      | (.error cause, store) => ((.error cause, store) : Except Failure Unit × Store)
      | (.ok (), store) => (.ok (), next store)).1 =
      wayTo store.holdings path := by
  rw [← fst_makeAncestors now]
  rcases makeAncestors now path store with ⟨_ | _, made⟩ <;> rfl

theorem fst_write (store : Store) (status : Status) (now : Time)
    (path : String) (content : ByteArray) :
    (store.write status now path content).1 =
      (Call.write status now path content).answer store.holdings := by
  rw [Call.answer, write]
  cases permit status path driver with
  | error cause => rfl
  | ok _ =>
    dsimp only
    split
    · rfl
    rw [holdings_eq]
    cases store.get? path with
    | none => exact fst_afterAncestors now path store _
    | some node =>
      cases node with
      | file content time => exact fst_afterAncestors now path store _
      | dir time => rfl

theorem IsTree.fst_move (h : store.IsTree) (status : Status) (now : Time)
    (source dest : String) : (store.move status now source dest).1 =
      (Call.move status now source dest).answer store.holdings := by
  rw [Call.answer, move]
  cases hpermit : permit status source driver with
  | error cause => rfl
  | ok _ =>
    obtain ⟨_, hsource⟩ := (permit_eq_ok_iff status source driver).1 hpermit
    dsimp only
    cases Path.validate dest driver with
    | error cause => rfl
    | ok _ =>
      dsimp only
      split
      · rfl
      split
      · rfl
      · next hapart =>
        have hnil := h.subtree_eq_nil_iff hsource
          fun htop => hapart (.inl htop)
        rw [holdings_eq]
        cases hnode : store.get? source with
        | none =>
          rw [hnil.2 hnode]
          rfl
        | some node =>
          cases hmoving : store.subtree source with
          | nil =>
            rw [hnil.1 hmoving] at hnode
            cases hnode
          | cons key moving => exact fst_afterAncestors now dest store _

theorem IsTree.fst_delete (h : store.IsTree) (status : Status)
    (path : String) : (store.delete status path).1 =
      (Call.delete status path).answer store.holdings := by
  rw [Call.answer, delete]
  cases hpermit : permit status path driver with
  | error cause => rfl
  | ok _ =>
    obtain ⟨_, hpath⟩ := (permit_eq_ok_iff status path driver).1 hpermit
    dsimp only
    by_cases htop : path = "/"
    · rw [if_pos htop, if_pos htop, if_neg fun hno => hno.2 htop]
    rw [if_neg htop, if_neg htop, holdings_eq]
    have hnil := h.subtree_eq_nil_iff hpath htop
    cases hnode : store.get? path with
    | none =>
      rw [hnil.2 hnode, if_pos ⟨rfl, htop⟩]
      rfl
    | some node =>
      rw [if_neg]
      · rfl
      rintro ⟨hempty, _⟩
      rw [hnil.1 (List.isEmpty_iff.1 hempty)] at hnode
      cases hnode

/-- **What a call of a tree answers.** -/
theorem IsTree.fst_run (h : store.IsTree) (call : Call) :
    (call.run store).1 = call.answer store.holdings := by
  cases call with
  | write status now path content =>
    exact fst_write store status now path content
  | move status now source dest => exact h.fst_move status now source dest
  | delete status path => exact h.fst_delete status path

/-! ## Effects -/

theorem map_withAncestors (store : Store) (now : Time) (path other : String) :
    (store.withAncestors now path other).map Node.holding =
      store.holdings.withDirs (Path.ancestors path) other := by
  unfold withAncestors Holdings.withDirs
  simp only [holdings_eq_none_iff]
  split <;> rfl

/-- **What a call of a tree does**, if it succeeds. -/
theorem IsTree.holdings_after (h : store.IsTree) {call : Call}
    (hok : (call.run store).1 = .ok ()) :
    (store.after call).holdings = call.change.effect store.holdings := by
  funext other
  unfold Store.after
  cases call with
  | write status now path content =>
    have hw := h.written_of_ok hok
    rw [Call.run, holdings_eq, hw.get?, Call.change, Change.effect,
      ← map_withAncestors _ now]
    split <;> rfl
  | move status now source dest =>
    rw [Call.run, Call.change, Change.effect]
    by_cases heq : source = dest
    · subst heq
      rw [snd_move_self, if_pos rfl]
    · have hm := h.moved_of_ok heq hok
      rw [holdings_eq, hm.get?, if_neg heq, ← map_withAncestors _ now]
      split
      · rfl
      · split <;> rfl
  | delete status path =>
    have hd := h.deleted_of_ok hok
    rw [Call.run, holdings_eq, hd.get?, Call.change, Change.effect]
    split <;> rfl

end Store
end PathStore
