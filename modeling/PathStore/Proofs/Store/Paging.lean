import PathStore.Proofs.Store.Resume

/-!
# Walking page by page

To get the files beneath a path a few at a time, a caller walks until a page is
full, prunes at the file that fills it, and takes the walk up again after that
file, as long as the walk answers that it was pruned (`Store.pages`).

That this ends is not a matter of the hint alone. As strings, files that have
been shown may come after the hint, so that it does not leave them out itself;
they are left out because a directory above them is. What is shown after a
hint lies behind it in the order of the walk, and that is a shorter and
shorter part of one list (`Store.IsTree.pages_of_shown`).

A page is a walk that a visitor breaks off, so the first part is about visitors
that keep a state and say what they like about files: the walk shows them the
files there are, one after another, until they end it
(`Store.IsTree.run_offer`).
-/

namespace PathStore
namespace Walk

variable {σ : Type u}

/-- **Shows entries one after another**, files all of them, until the visitor
ends it. -/
def offer (visit : Entry → σ → Except Failure Verdict × σ) :
    List Entry → σ → Ending × σ
  | [], w => (.finished, w)
  | entry :: rest, w =>
    match visit entry w with
    | (.error cause, w) => (.failed cause, w)
    | (.ok .prune, w) => (.stopped entry.path, w)
    | (.ok .proceed, w) => offer visit rest w

theorem offer_append (visit : Entry → σ → Except Failure Verdict × σ)
    (entries more : List Entry) (w : σ) :
    offer visit (entries ++ more) w =
      andThen (offer visit entries w) (offer visit more) := by
  induction entries generalizing w with
  | nil => rfl
  | cons entry rest ih =>
    rw [List.cons_append, offer, offer]
    generalize visit entry w = result
    obtain ⟨_ | _ | _, w⟩ := result
    · rfl
    · exact ih w
    · rfl

end Walk

namespace Store

open Walk

variable {σ : Type u} {store : Store} {options : WalkOptions}
  {origin path dir : String} {depth walks : Nat}
  {visit : Entry → σ → Except Failure Verdict × σ} {note : Notice → σ → σ}

/-! ## Any visitor of files -/

theorem arrive_quiet (hdir : Path.isValid dir) (w : σ) :
    arrive (store.still visit note) dir w = (.finished, w) := by
  have hlist : (store.still visit note).list dir w = (store.lists dir, w) :=
    rfl
  unfold arrive
  rw [show (store.still visit note).check w = (.ok (), w) from rfl]
  dsimp only
  rw [hlist, lists_eq hdir]

/-- **One path**: a file is shown, and a directory is listed without being
shown. -/
theorem IsTree.child_offer (h : store.IsTree)
    (hsome : (store.get? path).isSome) (hskip : ¬ options.skips path) (w : σ) :
    child (store.still visit note) .filesOnly options
        (arrive (store.still visit note)) path w =
      offer visit ((store.entryAt? path).toList.filter (shows .filesOnly))
        w := by
  obtain ⟨node, hnode⟩ := Option.isSome_iff_exists.1 hsome
  have htold : Told (store.still visit note) options path w w w
      (.ok (node.entry path)) :=
    ⟨hskip, rfl, congrArg (·, w) (h.stats_eq hnode)⟩
  rw [entryAt?, hnode, Option.map_some, Option.toList_some]
  cases hdir : (node.entry path).isDir with
  | true =>
    have hverdict : verdict (store.still visit note) .filesOnly
        (node.entry path) w = (.ok .proceed, w) := by
      rw [verdict_filesOnly, if_pos hdir]
    rw [List.filter_cons_of_neg (by simp [shows, hdir]),
      (ChildStep.entered htold hverdict hdir).eq, Node.path_entry,
      arrive_quiet (h.isValid hnode)]
    rfl
  | false =>
    have hfile : ¬ (node.entry path).isDir := by simp [hdir]
    have hverdict : verdict (store.still visit note) .filesOnly
        (node.entry path) w = visit (node.entry path) w := by
      rw [verdict_filesOnly, if_neg hfile]
      rfl
    rw [List.filter_cons_of_pos (by simp [shows, hdir]), List.filter_nil,
      offer]
    generalize hvisit : visit (node.entry path) w = result at hverdict
    obtain ⟨_ | _ | _, next⟩ := result
    · exact (ChildStep.refused htold hverdict).eq
    · exact (ChildStep.passed htold hverdict hfile).eq
    · exact (ChildStep.stopped htold hverdict hfile).eq

/-- **A stretch of the line**: the files on it are shown. -/
theorem IsTree.inTurn_offer (h : store.IsTree) {paths : List String}
    (hpaths : ∀ path ∈ paths,
      (store.get? path).isSome ∧ ¬ options.skips path) (w : σ) :
    inTurn (child (store.still visit note) .filesOnly options
        (arrive (store.still visit note))) paths w =
      offer visit ((paths.filterMap store.entryAt?).filter
        (shows .filesOnly)) w := by
  induction paths generalizing w with
  | nil => rfl
  | cons path rest ih =>
    obtain ⟨⟨hsome, hskip⟩, hrest⟩ := List.forall_mem_cons.1 hpaths
    have hsplit : ((path :: rest).filterMap store.entryAt?).filter
        (shows .filesOnly) =
        (store.entryAt? path).toList.filter (shows .filesOnly) ++
          (rest.filterMap store.entryAt?).filter (shows .filesOnly) := by
      rw [← List.filter_append, List.filterMap_cons]
      cases store.entryAt? path <;> rfl
    rw [inTurn_cons, h.child_offer hsome hskip, hsplit, offer_append]
    exact congrArg _ (funext (ih hrest))

/-- **A walk of the files of a store at rest** shows them one after another,
until the visitor ends it, and answers as that ended. -/
theorem IsTree.run_offer (h : store.IsTree) (options : WalkOptions)
    (visit : Entry → σ → Except Failure Verdict × σ)
    (horigin : Path.isValid origin) (hdepth : store.height < depth) (w : σ) :
    run (store.still visit fun _ w => w) .filesOnly options depth origin w =
      let result := offer visit
        (store.shown .filesOnly options (fun _ => false) depth origin) w
      (result.1.answer? .filesOnly, result.2) := by
  have hrest : (store.still visit fun _ w => w).IsAtRest store.lists
      store.stats := ⟨fun _ _ => rfl, fun _ _ => rfl⟩
  have hdirs : SettlesDirs (store.still visit fun _ w => w) .filesOnly
      fun _ => false := by
    intro entry w hdir
    rw [verdict_filesOnly, if_pos hdir]
    rfl
  have hends : (level (store.still visit fun _ w => w) .filesOnly options
      depth origin w).1 ≠ .tooDeep := by
    have htraced := congrArg Prod.fst (level_image
      (store.still visit fun _ w => w).isImage_traced .filesOnly options
      depth origin (w, []))
    exact htraced ▸ h.level_still_ne_tooDeep hdepth (w, [])
  have hpaths : ∀ path ∈ itinerary store.lists store.stats options
      (fun _ => false) depth origin,
      (store.get? path).isSome ∧ ¬ options.skips path := by
    intro path hmem
    have hmet := (h.mem_itinerary_iff horigin (by omega)).1 hmem
    exact ⟨hmet.here, hmet.kept path hmet.here (.refl path) hmet.beneath⟩
  have hline := level_eq_line options hrest hdirs depth origin w hends
  rw [arrive_quiet horigin, andThen_finished, h.inTurn_offer hpaths] at hline
  rw [run_of_unheard fun _ _ => rfl, hline, shown, prunes_none]

/-! ## Pages -/

/-- **A visitor that fills a page** with what it is shown, and prunes at the
file that makes it `size` long. -/
def pager (size : Nat) (entry : Entry) (page : List Entry) :
    Except Failure Verdict × List Entry :=
  (.ok (if page.length + 1 = size then .prune else .proceed), page ++ [entry])

/-- **One page** of a walk of the files beneath a path, with the answer of the
walk. -/
def page (store : Store) (size depth : Nat) (origin : String)
    (options : WalkOptions) :
    Option (Except Failure Unit) × List Entry :=
  run (store.still (pager size) fun _ page => page) .filesOnly options depth
    origin []

/-- **Page after page**: as long as a walk answers that it was pruned, the
next one starts after the file it names. It gives the answer of the last walk,
and none if `walks` of them were not enough. -/
def pages (store : Store) (size depth : Nat) (origin : String) :
    (walks : Nat) → WalkOptions →
      Option (Except Failure Unit) × List (List Entry)
  | 0, _ => (none, [])
  | walks + 1, options =>
    match store.page size depth origin options with
    | (some (.error (.pruned place)), page) =>
      let (answer, rest) :=
        store.pages size depth origin walks (options.startAfter place)
      (answer, page :: rest)
    | (answer, page) => (answer, [page])

/-- **The number of files beneath a path.** -/
def filesBeneath (store : Store) (origin : String) : Nat :=
  (store.paths.filter fun path => Path.isDescendant path origin &&
    (store.get? path).any Node.isFile).length

theorem offer_pager (size : Nat) (entries page : List Entry) :
    offer (pager size) entries page = (.finished, page ++ entries) ∨
      ∃ front entry rest, entries = front ++ entry :: rest ∧
        (page ++ front).length + 1 = size ∧
        offer (pager size) entries page =
          (.stopped entry.path, page ++ front ++ [entry]) := by
  induction entries generalizing page with
  | nil => exact .inl (by rw [List.append_nil]; rfl)
  | cons entry rest ih =>
    rw [offer, pager]
    by_cases hfull : page.length + 1 = size
    · rw [if_pos hfull]
      exact .inr ⟨[], entry, rest, rfl, by simpa using hfull, by simp⟩
    · rw [if_neg hfull]
      dsimp only
      obtain hall | ⟨front, last, more, rfl, hsize, hstop⟩ :=
        ih (page ++ [entry])
      · exact .inl (by rw [hall]; simp)
      · exact .inr ⟨entry :: front, last, more, rfl, by simpa using hsize,
          by rw [hstop]; simp⟩

/-- **A page** holds all that is shown, or is broken off at the file that
fills it. -/
theorem IsTree.page_cases (h : store.IsTree) (horigin : Path.isValid origin)
    (hdepth : store.height < depth) (size : Nat) (options : WalkOptions) :
    store.page size depth origin options = (some (.ok ()),
        store.shown .filesOnly options (fun _ => false) depth origin) ∨
      ∃ front entry rest,
        store.shown .filesOnly options (fun _ => false) depth origin =
          front ++ entry :: rest ∧ front.length + 1 = size ∧
        store.page size depth origin options =
          (some (.error (.pruned entry.path)), front ++ [entry]) := by
  rw [page, h.run_offer options (pager size) horigin hdepth]
  obtain hall | ⟨front, entry, rest, hsplit, hsize, hstop⟩ :=
    offer_pager size
      (store.shown .filesOnly options (fun _ => false) depth origin) []
  · rw [hall]
    exact .inl rfl
  · rw [hstop]
    exact .inr ⟨front, entry, rest, hsplit, hsize, rfl⟩

/-- There are no more pages than walks. -/
theorem length_pages_le (store : Store) (size depth : Nat) (origin : String)
    (walks : Nat) (options : WalkOptions) :
    (store.pages size depth origin walks options).2.length ≤ walks := by
  induction walks generalizing options with
  | zero => exact Nat.le_refl 0
  | succ walks ih =>
    rw [pages]
    split
    · exact Nat.succ_le_succ (ih _)
    · exact Nat.succ_le_succ (Nat.zero_le walks)

/-- What a part of a list holds up to some place, the list holds up to the
same. -/
theorem exists_split_of_sublist {first rest left : List Entry} {last : Entry}
    (h : (first ++ last :: rest).Sublist left) :
    ∃ before after, left = before ++ last :: after ∧
      first.Sublist before := by
  obtain ⟨before, more, rfl, hfirst, hmore⟩ := List.append_sublist_iff.1 h
  obtain ⟨upto, after, rfl, hmem, _⟩ := List.cons_sublist_iff.1 hmore
  obtain ⟨between, beyond, rfl⟩ := List.append_of_mem hmem
  exact ⟨before ++ between, beyond ++ after, by simp,
    hfirst.trans (List.sublist_append_left before between)⟩

/-- **What is delivered page by page** is a part of what is left, in the same
order. By induction on the walks: what is left after a page is what follows
the file it was broken off at, and that is less. -/
theorem IsTree.pages_of_shown (h : store.IsTree)
    (horigin : Path.isValid origin) (hdepth : store.height < depth)
    (size : Nat) {front left : List Entry}
    (hsplit : store.shown .filesOnly .all (fun _ => false) depth origin =
      front ++ left)
    (hshown : (store.shown .filesOnly options (fun _ => false) depth
      origin).Sublist left) (hwalks : left.length < walks) :
    ∃ pages, store.pages size depth origin walks options =
        (some (.ok ()), pages) ∧ pages.flatten.Sublist left ∧
      ∀ page ∈ pages.dropLast, page.length = size := by
  induction walks generalizing front left options with
  | zero => exact absurd hwalks (Nat.not_lt_zero _)
  | succ walks ih =>
    rw [pages]
    obtain hpage | ⟨first, last, rest, hlast, hsize, hpage⟩ :=
      h.page_cases horigin hdepth size options
    · rw [hpage]
      exact ⟨_, rfl, by simpa using hshown, by simp⟩
    · -- the file that fills the page is one of those that were left
      obtain ⟨before, after, rfl, hfirst⟩ :=
        exists_split_of_sublist (hlast ▸ hshown)
      rw [← List.append_assoc] at hsplit
      have hnext : (store.shown .filesOnly (options.startAfter last.path)
          (fun _ => false) depth origin).Sublist after := by
        show (store.shown .filesOnly (WalkOptions.all.startAfter last.path)
          (fun _ => false) depth origin).Sublist after
        rw [h.shown_startAfter horigin (Nat.le_of_lt hdepth) hsplit]
        exact List.filter_sublist
      have hfewer : after.length < walks := by
        rw [List.length_append, List.length_cons] at hwalks
        omega
      have hbehind : store.shown .filesOnly .all (fun _ => false) depth
          origin = (front ++ before ++ [last]) ++ after := by
        rw [hsplit, List.append_assoc _ [last], List.singleton_append]
      obtain ⟨pages, hpages, hflatten, hfull⟩ := ih hbehind hnext hfewer
      rw [hpage]
      dsimp only
      rw [hpages]
      refine ⟨_, rfl, ?_, ?_⟩
      · rw [List.flatten_cons, List.append_assoc]
        exact hfirst.append (hflatten.cons_cons last)
      · cases pages with
        | nil => exact fun _ h => absurd h List.not_mem_nil
        | cons page more =>
          show ∀ other ∈ (first ++ [last]) :: (page :: more).dropLast,
            other.length = size
          exact List.forall_mem_cons.2 ⟨by simpa using hsize, hfull⟩

/-- What is in the order of a walk has no path twice. -/
theorem nodup_paths {entries : List Entry}
    (h : entries.Pairwise Entry.Before) : (entries.map Entry.path).Nodup := by
  refine List.pairwise_map.2 (h.imp fun hbefore heq => ?_)
  rw [Entry.Before, heq] at hbefore
  exact Path.before_irrefl _ hbefore

/-- A walk of the files shows as many as there are. -/
theorem IsTree.length_shown (h : store.IsTree) (horigin : Path.isValid origin)
    (hdepth : store.height ≤ depth) :
    (store.shown .filesOnly .all (fun _ => false) depth origin).length =
      store.filesBeneath origin := by
  have hnodup : ((store.shown .filesOnly .all (fun _ => false) depth
      origin).map Entry.path).Nodup :=
    nodup_paths (h.shown_pairwise horigin)
  have hpaths : store.paths.Nodup := Std.ExtTreeMap.nodup_keys
  rw [filesBeneath, ← List.length_map (f := Entry.path)]
  refine ((List.perm_ext_iff_of_nodup hnodup (hpaths.filter _)).2
    fun path => ?_).length_eq
  rw [List.mem_map, List.mem_filter, mem_paths]
  constructor
  · rintro ⟨entry, hentry, rfl⟩
    obtain ⟨hfile, hunder, node, hnode, heq⟩ :=
      (h.mem_shown_all_iff horigin hdepth).1 hentry
    rw [hnode, hunder, Option.any_some]
    rw [heq, shows, Node.isDir_entry, Bool.not_not] at hfile
    exact ⟨rfl, hfile⟩
  · rintro ⟨hsome, hfile⟩
    obtain ⟨node, hnode⟩ := Option.isSome_iff_exists.1 hsome
    rw [hnode, Option.any_some, Bool.and_eq_true] at hfile
    refine ⟨node.entry path, ?_, node.path_entry path⟩
    rw [h.mem_shown_all_iff horigin hdepth, Node.path_entry, shows,
      Node.isDir_entry, Bool.not_not]
    exact ⟨hfile.2, hfile.1, node, hnode, rfl⟩

/-- **Paging ends and never repeats.** After one walk more than there are
files, at the latest, a walk is not pruned and succeeds. The pages, one after
another, hold files that are stored beneath the origin, in the order of the
walk and none of them twice, and every page but the last is full. -/
theorem paging_ends (hstore : store.Reachable) (horigin : Path.isValid origin)
    (hdepth : store.height < depth) (size : Nat) :
    ∃ pages, store.pages size depth origin (store.filesBeneath origin + 1)
        .all = (some (.ok ()), pages) ∧
      pages.length ≤ store.filesBeneath origin + 1 ∧
      pages.flatten.Pairwise Entry.Before ∧
      (pages.flatten.map Entry.path).Nodup ∧
      (∀ entry ∈ pages.flatten, entry.isDir = false ∧
        Path.isDescendant entry.path origin ∧
        store.entryAt? entry.path = some entry) ∧
      ∀ page ∈ pages.dropLast, page.length = size := by
  have h := hstore.isTree
  have hlength := h.length_shown horigin (Nat.le_of_lt hdepth)
  have hall := List.nil_append
    (store.shown .filesOnly .all (fun _ => false) depth origin)
  obtain ⟨pages, hpages, hflatten, hfull⟩ := h.pages_of_shown horigin hdepth
    size hall.symm (List.Sublist.refl _)
    (Nat.lt_succ_of_le (Nat.le_of_eq hlength))
  have hordered := (h.shown_pairwise horigin).sublist hflatten
  refine ⟨pages, hpages, ?_, hordered, nodup_paths hordered,
    fun entry hmem => ?_, hfull⟩
  · have hle := store.length_pages_le size depth origin
      (store.filesBeneath origin + 1) .all
    rw [hpages] at hle
    exact hle
  · obtain ⟨hfile, hunder, node, hnode, hentry⟩ :=
      (h.mem_shown_all_iff horigin (Nat.le_of_lt hdepth)).1
        (hflatten.subset hmem)
    exact ⟨by simpa [shows] using hfile, hunder,
      entryAt?_eq_some_iff.2 ⟨rfl, node, hnode, hentry⟩⟩

/-- The twigs, a file a page. The last walk finds none. -/
def twigPages : List (List Entry) :=
  [[⟨"/a/x", .file 1, some 0⟩], [⟨"/b", .file 0, some 0⟩], []]

theorem pages_twigs :
    twigs.pages 1 3 "/" 4 .all = (some (.ok ()), twigPages) := by
  have htree : twigs.IsTree := Reachable.isTree ⟨_, rfl⟩
  have hdepth : twigs.height < 3 := by decide +kernel
  have hsplit : twigs.shown .filesOnly .all (fun _ => false) 3 "/" =
      [⟨"/a/x", .file 1, some 0⟩, ⟨"/a-b", .file 2, some 0⟩] ++
        ⟨"/b", .file 0, some 0⟩ :: [] := shown_twigs
  have hlast : twigs.shown .filesOnly (WalkOptions.all.startAfter "/b")
      (fun _ => false) 3 "/" = [] := by
    refine (htree.shown_startAfter rfl (Nat.le_of_lt hdepth) hsplit).trans ?_
    decide +kernel
  have hpage : ∀ options entries,
      twigs.shown .filesOnly options (fun _ => false) 3 "/" = entries →
        twigs.page 1 3 "/" options =
          ((offer (pager 1) entries []).1.answer? .filesOnly,
            (offer (pager 1) entries []).2) := by
    rintro options _ rfl
    exact htree.run_offer options (pager 1) rfl hdepth []
  have hfirst : twigs.page 1 3 "/" .all =
      (some (.error (.pruned "/a/x")), [⟨"/a/x", .file 1, some 0⟩]) :=
    (hpage _ _ shown_twigs).trans rfl
  have hsecond : twigs.page 1 3 "/" (WalkOptions.all.startAfter "/a/x") =
      (some (.error (.pruned "/b")), [⟨"/b", .file 0, some 0⟩]) :=
    (hpage _ _ shown_twigs_startAfter).trans rfl
  have hthird : twigs.page 1 3 "/"
      ((WalkOptions.all.startAfter "/a/x").startAfter "/b") =
        (some (.ok ()), []) :=
    (hpage _ _ hlast).trans rfl
  simp only [pages, hfirst, hsecond, hthird, twigPages]

/-- **Paging through the twigs** takes three walks of the four it may take,
since `/a-b` is cut off. -/
theorem paging_twigs_ends :
    twigs.filesBeneath "/" = 3 ∧ twigPages.length ≤ 3 + 1 ∧
      twigPages.flatten.Pairwise Entry.Before ∧
      ∀ page ∈ twigPages.dropLast, page.length = 1 := by
  have hstore : twigs.Reachable := ⟨_, rfl⟩
  have horigin : Path.isValid "/" := rfl
  have hdepth : twigs.height < 3 := by decide +kernel
  have hfiles : twigs.filesBeneath "/" = 3 := by decide +kernel
  obtain ⟨pages, hpages, hlength, hordered, _, _, hfull⟩ :=
    paging_ends hstore horigin hdepth 1
  rw [hfiles] at hpages hlength
  obtain rfl : twigPages = pages := by
    rw [pages_twigs] at hpages
    exact (Prod.mk.inj hpages).2
  exact ⟨hfiles, hlength, hordered, hfull⟩

end Store
end PathStore
