import PathStore.Proofs.Path.Beneath
import PathStore.Proofs.Text.Order
import PathStore.Store

/-!
# The scan for a subtree

`Store.subtree` looks at the paths from `p` upwards and stops at the first
that does not start with `p`. That it misses nothing is a fact about the
order of strings: the strings that start with `p` form one stretch of it,
and `p` is its first (`Path.not_lt_of_isPrefix`,
`Path.isPrefix_of_between`).
The descendants of `p` lie in the stretch but are not an end of it, so the
paths that pass the scan are filtered once more. What is found then is all
there is to find, in order (`Store.subtree_exact`).

Nothing here asks that the paths be well-formed, or the store a tree.
-/

namespace PathStore
namespace Path

/-- **A string comes before what goes on from it.** -/
theorem not_lt_of_isPrefix {front letters : List Char}
    (h : front <+: letters) : ¬ letters < front := by
  induction front generalizing letters with
  | nil => exact List.not_lt_nil _
  | cons c front ih =>
    obtain ⟨rest, rfl⟩ := h
    rw [List.cons_append, List.cons_lt_cons_iff]
    rintro (hlt | ⟨_, hlt⟩)
    · exact absurd hlt (Char.lt_irrefl c)
    · exact ih (List.prefix_append front rest) hlt

/-- **The strings that go on from one string form a stretch**: what lies
between it and one of them goes on from it too. -/
theorem isPrefix_of_between {front mid letters : List Char}
    (hfrom : ¬ mid < front) (hto : mid < letters) (h : front <+: letters) :
    front <+: mid := by
  induction front generalizing mid letters with
  | nil => exact List.nil_prefix
  | cons c front ih =>
    obtain ⟨rest, rfl⟩ := h
    cases mid with
    | nil => exact absurd (List.nil_lt_cons c front) hfrom
    | cons d mid =>
      rw [List.cons_lt_cons_iff, not_or, not_and] at hfrom
      rw [List.cons_append, List.cons_lt_cons_iff] at hto
      obtain hlt | ⟨rfl, hlt⟩ := hto
      · exact absurd hlt hfrom.1
      · exact (List.prefix_cons_inj _).2
          (ih (hfrom.2 rfl) hlt (List.prefix_append front rest))

/-- A path goes on from every path it is beneath. -/
theorem isPrefix_of_isDescendant {path dir : String}
    (h : isDescendant path dir) : dir.toList <+: path.toList := by
  unfold isDescendant at h
  split at h
  · next htop =>
    rw [htop]
    split at h
    · next c rest heq =>
      rw [heq]
      exact ⟨c :: rest, rfl⟩
    · exact absurd h Bool.false_ne_true
  · rw [List.isPrefixOf_iff_prefix] at h
    exact (List.prefix_append _ _).trans h

/-- **A scan from `path` upwards meets all that goes on from it**, in a
list in order. -/
theorem scan_eq_filter (path : String) {keys : List String}
    (h : keys.Pairwise (· < ·)) :
    (keys.dropWhile (fun key => decide (key < path))).takeWhile
        (fun key => path.toList.isPrefixOf key.toList) =
      keys.filter fun key => path.toList.isPrefixOf key.toList := by
  induction keys with
  | nil => rfl
  | cons key keys ih =>
    obtain ⟨hkey, hkeys⟩ := List.pairwise_cons.1 h
    have ih := ih hkeys
    by_cases hlt : key < path
    · -- what comes before the path does not go on from it
      have hno : ¬ path.toList.isPrefixOf key.toList := fun hbegins =>
        not_lt_of_isPrefix (List.isPrefixOf_iff_prefix.1 hbegins) hlt
      rw [List.dropWhile_cons_of_pos (by simpa using hlt), ih,
        List.filter_cons, if_neg hno]
    · have hrest : keys.dropWhile (fun key => decide (key < path)) = keys := by
        cases keys with
        | nil => rfl
        | cons next keys =>
          refine List.dropWhile_cons_of_neg ?_
          rw [decide_eq_true_eq]
          intro hnext
          exact hlt (List.lt_trans (hkey next List.mem_cons_self) hnext)
      rw [hrest] at ih
      rw [List.dropWhile_cons_of_neg (by simpa using hlt), List.takeWhile_cons,
        List.filter_cons]
      split
      · rw [ih]
      · next hno =>
        -- the stretch is over, for every later path as well
        refine (List.filter_eq_nil_iff.2 fun other hother hbegins => hno ?_).symm
        rw [List.isPrefixOf_iff_prefix] at hbegins ⊢
        exact isPrefix_of_between hlt (hkey other hother) hbegins

end Path

namespace Store

/-- **The scan finds what a look at all paths finds.** -/
theorem subtree_eq_filter (store : Store) (path : String) :
    store.subtree path = store.paths.filter
      fun key => key == path || Path.isDescendant key path := by
  unfold subtree
  rw [Path.scan_eq_filter path store.paths_sorted, List.filter_filter]
  refine List.filter_congr fun key _ => ?_
  by_cases h : key == path || Path.isDescendant key path
  · have hbegins : path.toList.isPrefixOf key.toList := by
      rw [List.isPrefixOf_iff_prefix]
      obtain heq | hbelow := Bool.or_eq_true_iff.1 h
      · exact beq_iff_eq.1 heq ▸ List.prefix_rfl
      · exact Path.isPrefix_of_isDescendant hbelow
    rw [h, hbegins]
    rfl
  · rw [Bool.not_eq_true] at h
    rw [h]
    rfl

/-- What is found need not come first in the stretch, nor be all of it. -/
example :
    let now : Time := 0
    let store := (((empty.insert "/p-x" (.dir now)).insert "/pb"
      (.dir now)).insert "/p/x" (.dir now)).insert "/p.x" (.dir now)
    store.paths = ["/p-x", "/p.x", "/p/x", "/pb"] ∧
      store.subtree "/p" = ["/p/x"] := by
  cbv

/-- **The paths of a subtree** are those of nodes at or beneath its
root. -/
theorem mem_subtree (store : Store) (path key : String) :
    key ∈ store.subtree path ↔
      (store.get? key).isSome ∧ Path.Within key path := by
  rw [subtree_eq_filter, List.mem_filter, mem_paths, Bool.or_eq_true,
    beq_iff_eq]
  rfl

/-- Where the scan finds nothing there is nothing. -/
theorem get?_of_notMem_subtree {store : Store} {path key : String}
    (hwithin : Path.Within key path) (h : key ∉ store.subtree path) :
    store.get? key = none :=
  Option.not_isSome_iff_eq_none.1 fun hsome =>
    h ((mem_subtree store path key).2 ⟨hsome, hwithin⟩)

theorem subtree_nodup (store : Store) (path : String) :
    (store.subtree path).Nodup := by
  rw [subtree_eq_filter]
  refine (store.paths_sorted.imp fun hlt heq => ?_).filter _
  rw [heq] at hlt
  exact List.lt_irrefl _ hlt

/-- A subtree is in the order of the bytes of its paths. -/
theorem subtree_sorted (store : Store) (path : String) :
    (store.subtree path).Pairwise fun key next =>
      compare (Text.encode key) (Text.encode next) = .lt := by
  rw [subtree_eq_filter]
  refine (store.paths_sorted.imp fun hlt => ?_).filter _
  rw [Text.compare_encode]
  exact compareOfLessAndEq_eq_lt.2 hlt

/-- **The scan misses nothing and finds nothing else**, whatever strings the
store holds: it finds what a look at all paths finds, which are the paths of
nodes that are the root of the subtree or beneath it, each once, in the order
of their bytes. -/
theorem subtree_exact (store : Store) (path : String) :
    store.subtree path = store.paths.filter
        (fun key => key == path || Path.isDescendant key path) ∧
      (∀ key, key ∈ store.subtree path ↔
        key ∈ store.nodes ∧ (key = path ∨ Path.isDescendant key path)) ∧
      (store.subtree path).Pairwise fun key next =>
        compare (Text.encode key) (Text.encode next) = .lt := by
  refine ⟨store.subtree_eq_filter path, fun key => ?_,
    store.subtree_sorted path⟩
  rw [mem_subtree, Std.ExtTreeMap.mem_iff_isSome_getElem?]
  rfl

end Store
end PathStore
