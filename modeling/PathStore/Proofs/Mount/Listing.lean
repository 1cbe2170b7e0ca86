import PathStore.Proofs.Disk.Changes
import PathStore.Proofs.Mount.Gathered
import PathStore.Proofs.Mount.Names

/-!
# What a mount lists

A directory on disk may hold names that no path can. Such a name is decoded as
well as it can be, joined with the path, and the whole is put to the test of
paths; what does not pass is left out, with a notice. That this leaves out the
right names is not plain. Decoding loses bytes, so a name might become that of
another entry; and a name with a slash in it, if there were one, would pass for
two segments.

It does not happen, because a text that passes is in ASCII, and such a text was
read from its own bytes (`Text.encode_decode`). So the names that pass are just
those spelled in the letters of words (`Mount.address_eq`), and the place of a
child is that of its own entry (`Mount.place_join`). What a mount lists, if a
scan gets through the directory, are the entries that can be addressed, each
under its own path, and there is one notice for each of the others
(`Mount.list_addressable`).

A scan gets through no directory that is taken for the standard input. Only the
root can be, if the path has no dots (`Mount.not_isStandardInput_place`).
-/

namespace PathStore

/-! ## Names -/

namespace Path

instance : DecidablePred IsLetter := fun _ =>
  decidable_of_iff _ isLetter_iff.symm

instance : DecidablePred IsWord := fun _ =>
  decidable_of_iff _ isWord_iff.symm

end Path

namespace Name

variable {name : Name}

/-- **A name an entry can have**, however long: not empty, without slash, and
neither `.` nor `..`. That there is no NUL in it makes no difference. -/
structure IsEntry (name : Name) : Prop where
  nonempty : name ≠ []
  slash : DiskPath.slash ∉ name
  here : name ≠ [0x2E]
  up : name ≠ [0x2E, 0x2E]

theorem IsProper.isEntry (h : name.IsProper) : name.IsEntry :=
  ⟨h.1, h.2.2.1, h.2.2.2.2.1, h.2.2.2.2.2⟩

/-- Words are such names, but for the two that lead elsewhere. -/
theorem isEntry_encode {word : String} (h : Path.IsWord word)
    (hhere : word ≠ ".") (hup : word ≠ "..") :
    IsEntry (Text.encode word) where
  nonempty := mt Text.encode_eq_nil_iff.1 h.1
  slash := Text.slash_notMem_flatMap
    (Path.slash_notMem_of_isSegment (Path.isWord_iff.1 h))
  here hhas := hhere (Text.encode_inj.1 (hhas.trans (by decide)))
  up hhas := hup (Text.encode_inj.1 (hhas.trans (by decide)))

/-- **A name spelled in the letters of words**, a byte each. -/
def IsSpelled (name : Name) : Prop :=
  name ≠ [] ∧ ∀ byte ∈ name, Path.IsLetter (Char.ofNat byte.toNat)

instance : DecidablePred IsSpelled := fun name =>
  haveI := List.decidableBAll
    (fun byte : UInt8 => Path.IsLetter (Char.ofNat byte.toNat)) name
  inferInstanceAs (Decidable (_ ∧ _))

/-- The code of a byte is a character. -/
theorem toNat_charOfByte (byte : UInt8) :
    (Char.ofNat byte.toNat).toNat = byte.toNat :=
  Text.toNat_charOfNat (.inl (Nat.lt_trans byte.toNat_lt (by decide)))

/-- **What is spelled is the name of a word**, and nothing else is. -/
theorem isSpelled_iff :
    name.IsSpelled ↔ ∃ word, Path.IsWord word ∧ Text.encode word = name := by
  constructor
  · rintro ⟨hne, hletters⟩
    have hword : Path.IsWord
        (String.ofList (name.map fun byte => Char.ofNat byte.toNat)) := by
      refine ⟨fun hempty => hne ?_, ?_⟩
      · have hnil := congrArg String.toList hempty
        rw [String.toList_ofList] at hnil
        exact List.map_eq_nil_iff.1 hnil
      · rw [String.toList_ofList]
        exact List.forall_mem_map.2 hletters
    refine ⟨_, hword, ?_⟩
    have hascii := Text.areAscii_of_isSegment (Path.isWord_iff.1 hword)
    rw [Text.encode_of_areAscii hascii, String.toList_ofList, List.map_map]
    refine (List.map_congr_left fun byte _ => ?_).trans (List.map_id name)
    show UInt8.ofNat (Char.ofNat byte.toNat).toNat = byte
    rw [toNat_charOfByte, UInt8.ofNat_toNat]
  · rintro ⟨word, hword, rfl⟩
    have hascii := Text.areAscii_of_isSegment (Path.isWord_iff.1 hword)
    refine ⟨mt Text.encode_eq_nil_iff.1 hword.1, ?_⟩
    rw [Text.encode_of_areAscii hascii]
    refine List.forall_mem_map.2 fun c hc => ?_
    rw [Text.toNat_ofNat (hascii c hc), Char.ofNat_toNat]
    exact hword.2 c hc

/-- The word of a name that is spelled is what the name decodes to. -/
theorem IsSpelled.decode (h : name.IsSpelled) :
    Path.IsWord (Text.decode name) ∧
      Text.encode (Text.decode name) = name := by
  obtain ⟨word, hword, rfl⟩ := isSpelled_iff.1 h
  rw [Text.decode_encode
    (Text.areAscii_of_isSegment (Path.isWord_iff.1 hword))]
  exact ⟨hword, rfl⟩

end Name

namespace Path

variable {path word : String}

/-- What is joined to a path stands at the end of it. -/
theorem isSuffix_join (path word : String) :
    word.toList <:+ (join path word).toList := by
  unfold join
  split
  · exact ⟨"/".toList, String.toList_append.symm⟩
  · exact ⟨(path ++ "/").toList, String.toList_append.symm⟩

/-- **What passes the test of paths was a word**, if the bytes it was read from
are the name of an entry. -/
theorem isSpelled_of_isValid_join {name : Name} (hname : name.IsEntry)
    (h : isValid (join path (Text.decode name))) : name.IsSpelled := by
  have hascii : Text.AreAscii (Text.decode name).toList := fun c hc =>
    (toNat_of_mem_toList h ((isSuffix_join path _).subset hc)).2
  have hbytes := Text.encode_decode hascii
  have hslash : '/' ∉ (Text.decode name).toList := by
    intro hmem
    refine hname.slash ?_
    rw [← hbytes]
    exact List.mem_flatMap.2 ⟨'/', hmem, by decide⟩
  have htop : join path (Text.decode name) ≠ "/" := by
    intro heq
    have hempty := name_join path hslash
    rw [heq] at hempty
    exact hname.nonempty (by rw [← hbytes, ← hempty]; rfl)
  -- the last segment of the whole is what was joined last
  obtain ⟨dir, word, hdir, hword, -, hsegments⟩ := exists_parent? h htop
  have hlast : word = Text.decode name := by
    rw [← name_join path hslash, ← join_eq hdir h hsegments,
      name_join dir (slash_notMem_of_isSegment hword)]
  rw [hlast] at hword
  exact Name.isSpelled_iff.2 ⟨_, isWord_iff.2 hword, hbytes⟩

end Path

namespace DiskNode

/-- **What a mount tells of a node.** -/
def entry (path : String) : DiskNode → Entry
  | file content time => (Entry.file path content.size).withModTime time
  | dir time => (Entry.dir path).withModTime time
  | link target time => (Entry.file path target.length).withModTime time

@[simp] theorem path_entry (path : String) (node : DiskNode) :
    (node.entry path).path = path := by
  cases node <;> rfl

@[simp] theorem isDir_entry (path : String) (node : DiskNode) :
    (node.entry path).isDir = node.isDir := by
  cases node <;> rfl

end DiskNode

/-! ## Children -/

namespace Mount

variable {mount : Mount} {disk : Disk} {dir : Location} {path word : String}
  {name : Name}

/-- The place of the top is joined without a slash. -/
theorem getLast?_place_top (mount : Mount) : mount.place "/" = "" ∨
    (mount.place "/").toList.getLast? = some '/' := by
  have htop : String.ofList ("/".toList.dropWhile (· == '/')) = "" := by
    decide
  have hempty : "".toList.head? ≠ some '/' := by decide
  unfold place
  rw [htop]
  unfold Place.join
  rw [if_neg hempty]
  split
  · next h => rwa [String.append_empty]
  · refine .inr ?_
    rw [String.append_empty, String.toList_append]
    exact List.getLast?_concat

/-- **The place of a child is its name in the place of its parent.** -/
theorem place_join (mount : Mount) (h : Path.isValid path)
    (hword : word.toList.head? ≠ some '/') :
    mount.place (Path.join path word) = (mount.place path).join word := by
  rw [place_eq]
  unfold Path.join Place.join
  rw [if_neg hword]
  by_cases htop : path = "/"
  · subst htop
    have hkept : word.toList.dropWhile (· == '/') = word.toList := by
      cases hletters : word.toList with
      | nil => rfl
      | cons c letters =>
        rw [hletters] at hword
        refine List.dropWhile_cons_of_neg ?_
        simpa using hword
    rw [if_pos rfl, if_pos mount.getLast?_place_top, String.toList_append]
    show _ ++ String.ofList (word.toList.dropWhile (· == '/')) = _
    rw [hkept, String.ofList_toList]
  · obtain ⟨letters, c, hlast, hc⟩ := Path.exists_toList_concat h htop
    obtain ⟨front, d, hends, hd⟩ := mount.exists_place_concat h htop
    have hopen : ¬ (mount.place path = "" ∨
        (mount.place path).toList.getLast? = some '/') := by
      rintro (hempty | hslash)
      · rw [hempty] at hends
        exact List.append_ne_nil_of_right_ne_nil front
          (List.cons_ne_nil d []) hends.symm
      · rw [hends, List.getLast?_concat] at hslash
        exact hd (Option.some.inj hslash)
    -- the slashes are gone before the letters of the path are
    have hkept : (path.toList.dropWhile (· == '/')).isEmpty = false := by
      have hletter : [c].dropWhile (· == '/') = [c] :=
        List.dropWhile_cons_of_neg (by simpa using hc)
      rw [hlast, List.dropWhile_append, hletter]
      split
      · rfl
      · exact List.isEmpty_eq_false_iff.2 (by simp)
    rw [if_neg htop, if_neg hopen, mount.place_eq path, String.append_assoc,
      String.toList_append, List.dropWhile_append, hkept, if_neg (by decide),
      String.ofList_append, String.ofList_toList, String.append_assoc,
      String.append_assoc]

theorem place_ne_empty (hroot : mount.root ≠ "") (path : String) :
    mount.place path ≠ "" := by
  rw [place_eq]
  intro hempty
  have htop := (String.append_eq_empty_iff.1 hempty).1
  obtain heq | heq := mount.place_top
  · exact hroot (heq ▸ htop)
  · rw [heq] at htop
    exact hroot (String.append_eq_empty_iff.1 htop).1

/-- The place of the top is written as the root is, but for a slash. -/
theorem isStandardInput_place_top (mount : Mount) :
    (mount.place "/").isStandardInput = Place.isStandardInput mount.root := by
  obtain heq | heq := mount.place_top
  · rw [heq]
  · have hletters : (mount.root ++ "/").toList =
        mount.root.toList ++ '/' :: [] := String.toList_append
    unfold Place.isStandardInput
    rw [heq, hletters, List.splitOn_append_cons_self, List.splitOn_nil]
    cases hpieces : mount.root.toList.splitOn '/' with
    | nil => exact absurd hpieces (List.splitOn_ne_nil _ _)
    | cons first rest => simp [Place.counts]

/-- **No place below the top is taken for the standard input**, unless by way of
dots. -/
theorem not_isStandardInput_place_join (h : Path.isValid path)
    (hplace : mount.place path ≠ "") (hword : Path.IsWord word)
    (hhere : word ≠ ".") :
    ¬ (mount.place (Path.join path word)).isStandardInput := by
  have hslash := Path.slash_notMem_of_isSegment (Path.isWord_iff.1 hword)
  rw [mount.place_join h fun hhead => hslash (List.mem_of_head? hhead)]
  refine Place.not_isStandardInput_join hplace hslash ?_
  have hnonempty : word.toList ≠ [] := fun hnil =>
    hword.1 (String.toList_inj.1 (hnil.trans rfl))
  have hdot : word.toList ≠ ['.'] := fun hdot =>
    hhere (String.toList_inj.1 (hdot.trans rfl))
  simp [Place.counts, hnonempty, hdot]

/-- **No place of a plain path is**, if the root is not. -/
theorem not_isStandardInput_place (hroot : mount.root ≠ "")
    (hstdin : ¬ Place.isStandardInput mount.root) (h : Path.IsPlain path) :
    ¬ (mount.place path).isStandardInput := by
  by_cases htop : path = "/"
  · rwa [htop, isStandardInput_place_top]
  obtain ⟨dir, word, hdir, hword, -, hsegments⟩ := Path.exists_parent? h.1 htop
  have hmem : word ∈ Path.segments path := by
    rw [hsegments]
    exact List.mem_append_right _ List.mem_cons_self
  rw [← Path.join_eq hdir h.1 hsegments]
  exact not_isStandardInput_place_join hdir (place_ne_empty hroot dir)
    (Path.isWord_iff.2 hword) (h.2 word hmem).1

/-- **What is told of a path** is what stands there. -/
theorem stat_of_lstat (h : Path.isValid path) {node : DiskNode}
    (hnode : disk.lstat (mount.place path).toDiskPath = .ok node) :
    mount.stat .live path disk = .ok (node.entry path) := by
  unfold stat
  rw [permit_ok h]
  dsimp only
  rw [hnode]
  cases node <;> rfl

section Child

variable (h : Path.isValid path) (hword : Path.IsWord word)

include h hword

/-- **The place of a child goes on from that of its parent** by its name. -/
theorem goesOnBy_place (hname : Name.IsEntry (Text.encode word)) :
    (mount.place (Path.join path word)).toDiskPath.GoesOnBy
      (mount.place path).toDiskPath (Text.encode word) := by
  have hsegment := Path.isWord_iff.1 hword
  have hhere : word ≠ "." := by
    rintro rfl
    exact hname.here (by decide)
  have hup : word ≠ ".." := by
    rintro rfl
    exact hname.up (by decide)
  refine ⟨?_, mount.getLast?_place (Path.isValid_join h hsegment)
    (Path.join_ne_top h hsegment)⟩
  rw [plainPieces_place, plainPieces_place, Path.segments_join h hsegment,
    List.map_append, List.map_singleton, DiskPath.Piece.ofWord_of_ne hhere hup,
    List.append_assoc]

/-- It can be used, unless it is too long, if that of the parent can. -/
theorem precheck_join (hcheck : (mount.place path).toDiskPath.precheck = .ok ())
    (hfits : (mount.place (Path.join path word)).toDiskPath.length <
      DiskPath.pathLimit) :
    (mount.place (Path.join path word)).toDiskPath.precheck = .ok () :=
  have hsegment := Path.isWord_iff.1 hword
  precheck_place (.inr (Path.join_ne_top h hsegment)) (nul_notMem_root hcheck)
    (Path.isValid_join h hsegment) hfits

end Child

end Mount

/-! ## Words in a directory -/

/-- **The words among the names in a directory**, in byte order. -/
def Disk.words (disk : Disk) (dir : Location) : List String :=
  ((disk.names dir).filter fun name => name.IsSpelled).map Text.decode

namespace Disk

variable {disk : Disk} {dir : Location} {word : String}

/-- They are the names that are spelled. -/
theorem map_encode_words (disk : Disk) (dir : Location) :
    (disk.words dir).map Text.encode =
      (disk.names dir).filter fun name => name.IsSpelled := by
  unfold words
  rw [List.map_map]
  refine (List.map_congr_left fun name hname => ?_).trans (List.map_id _)
  exact (decide_eq_true_iff.1 (List.mem_filter.1 hname).2).decode.2

theorem mem_words_iff : word ∈ disk.words dir ↔
    Path.IsWord word ∧ Text.encode word ∈ disk.names dir := by
  unfold words
  simp only [List.mem_map, List.mem_filter, decide_eq_true_iff]
  constructor
  · rintro ⟨name, ⟨hname, hspelled⟩, rfl⟩
    obtain ⟨hword, hback⟩ := hspelled.decode
    exact ⟨hword, hback.symm ▸ hname⟩
  · rintro ⟨hword, hname⟩
    exact ⟨Text.encode word,
      ⟨hname, Name.isSpelled_iff.2 ⟨word, hword, rfl⟩⟩,
      Text.decode_encode (Text.areAscii_of_isSegment (Path.isWord_iff.1 hword))⟩

/-- **The words are in order**, as the names are in that of their bytes. -/
theorem words_sorted (disk : Disk) (dir : Location) :
    (disk.words dir).Pairwise (· < ·) := by
  have hnames : ((disk.words dir).map Text.encode).Pairwise fun name next =>
      compare name next = .lt := by
    rw [map_encode_words]
    exact (disk.names_sorted dir).filter _
  refine (List.pairwise_map.1 hnames).imp fun hlt => ?_
  rw [Text.compare_encode] at hlt
  exact compareOfLessAndEq_eq_lt.1 hlt

end Disk

/-- Children of a path are in the order of the words they are joined with. -/
theorem Path.join_lt_join {path word more : String} (h : Path.isValid path)
    (hword : Path.IsWord word) (hmore : Path.IsWord more) (hlt : word < more) :
    Path.join path word < Path.join path more := by
  have hsegment := Path.isWord_iff.1 hword
  have hother := Path.isWord_iff.1 hmore
  exact (Path.sibling_lt_iff (Path.isValid_join h hsegment)
    (Path.isValid_join h hother) (Path.segments_join h hsegment)
    (Path.segments_join h hother)).2 hlt

/-- So the children of a path are in order, if it is joined with the words in a
directory. -/
theorem Disk.map_join_words_sorted {path : String} (disk : Disk)
    (dir : Location) (h : Path.isValid path) :
    ((disk.words dir).map (Path.join path)).Pairwise (· < ·) := by
  refine List.pairwise_map.2 ((disk.words_sorted dir).imp_of_mem ?_)
  exact fun hword hmore => Path.join_lt_join h (mem_words_iff.1 hword).1
    (mem_words_iff.1 hmore).1

/-! ## Listings -/

namespace Mount

variable {mount : Mount} {scanner : Scanner} {disk : Disk} {dir : Location}
  {path word child : String} {name : Name}

/-- **What is found in a directory is addressed if its name is spelled**, and is
a notice if it is not. -/
theorem address_eq (h : Path.isValid path) (hname : name.IsEntry)
    (place : Place) : address path (.entry place name) =
      if name.IsSpelled then .ok (Path.join path (Text.decode name))
      else .error (.unaddressable (place.join (Text.decode name))) := by
  have hvalid : Path.isValid (Path.join path (Text.decode name)) ↔
      name.IsSpelled := by
    refine ⟨Path.isSpelled_of_isValid_join hname, fun hspelled => ?_⟩
    exact Path.isValid_join h (Path.isWord_iff.1 hspelled.decode.1)
  unfold address Finding.entry
  simp only [hvalid]

/-- What is found in a directory is listed if its name is spelled. -/
theorem child?_entry (h : Path.isValid path) (hname : name.IsEntry)
    (place : Place) : child? path (.ok (.entry place name)) =
      if name.IsSpelled then some (Path.join path (Text.decode name))
      else none := by
  have hdepth : (Finding.entry place name).depth ≠ 0 := Nat.succ_ne_zero 0
  unfold child?
  dsimp only
  rw [if_neg hdepth, address_eq h hname]
  split
  · rfl
  · rfl

/-- It is left out if it is not. -/
theorem notice?_entry (h : Path.isValid path) (hname : name.IsEntry)
    (place : Place) : notice? path (.ok (.entry place name)) =
      if ¬ name.IsSpelled then
        some (.unaddressable (place.join (Text.decode name)))
      else none := by
  have hdepth : (Finding.entry place name).depth ≠ 0 := Nat.succ_ne_zero 0
  unfold notice?
  dsimp only
  rw [if_neg hdepth, address_eq h hname, ite_not]
  by_cases hspelled : name.IsSpelled
  · rw [if_pos hspelled, if_pos hspelled]
  · rw [if_neg hspelled, if_neg hspelled]

/-- **What is listed of a directory** that is gone through. -/
theorem list_of_reads (h : Path.isValid path)
    (hreads : scanner.Reads disk (mount.place path) dir)
    (hnames : ∀ name ∈ disk.names dir, name.IsEntry) :
    mount.list scanner .live path disk =
      (.ok ((disk.words dir).map (Path.join path)),
        ((disk.names dir).filter fun name => ¬ name.IsSpelled).map fun name =>
          .unaddressable ((mount.place path).join (Text.decode name))) := by
  obtain ⟨start, hstart, hscan⟩ := id hreads
  have hcalm : ∀ result ∈ scanner.scan disk (mount.place path),
      ¬ Ends result := by
    intro result hmem hends
    cases result with
    | ok finding => exact hends
    | error report => exact hreads.clear report hmem
  have hpassed : child? path (.ok start) = none ∧
      notice? path (.ok start) = none := ⟨if_pos hstart, if_pos hstart⟩
  rw [list_live h, gather_of_calm hcalm, hscan,
    List.filterMap_cons_none hpassed.1, List.filterMap_cons_none hpassed.2,
    List.filterMap_map, List.filterMap_map, Disk.words, List.map_map,
    ← List.filterMap_eq_map, ← List.filterMap_eq_map, List.filterMap_filter,
    List.filterMap_filter]
  refine Prod.ext (congrArg Except.ok ?_) ?_
  · refine List.filterMap_congr fun name hname => ?_
    rw [Function.comp_apply, child?_entry h (hnames name hname)]
    simp only [decide_eq_true_eq, Function.comp_apply]
  · refine List.filterMap_congr fun name hname => ?_
    rw [Function.comp_apply, notice?_entry h (hnames name hname)]
    simp only [decide_eq_true_eq, Function.comp_apply]

/-- **A path addresses an entry** of the directory at another one: it is the
child of that name, its place is the name in the place of the directory, and
there a call finds the very entry, a link as well, if the place and the name are
within the limits of the disk. -/
structure Addresses (mount : Mount) (disk : Disk) (path : String)
    (dir : Location) (word child : String) : Prop where
  valid : Path.isValid child
  parent : Path.parent? child = some path
  named : ∀ entry : Entry, entry.path = child → entry.name = word
  place : mount.place child = (mount.place path).join word
  entry : (mount.place child).toDiskPath.length < DiskPath.pathLimit →
    disk.entry (mount.place child).toDiskPath =
      .ok (dir, .name (Text.encode word) false)
  found : (mount.place child).toDiskPath.length < DiskPath.pathLimit →
    (Text.encode word).length ≤ nameLimit →
      disk.locate .stay (mount.place child).toDiskPath =
        .ok (dir ++ [Text.encode word])

/-- **The path of a word addresses its entry.** -/
theorem addresses_join (h : Path.isValid path)
    (hopens : disk.Opens (mount.place path).toDiskPath dir)
    (hword : Path.IsWord word) (hname : Name.IsEntry (Text.encode word))
    (hmem : Text.encode word ∈ disk.names dir) :
    mount.Addresses disk path dir word (Path.join path word) := by
  have hsegment := Path.isWord_iff.1 hword
  have hslash := Path.slash_notMem_of_isSegment hsegment
  have hchild : (mount.place (Path.join path word)).toDiskPath.GoesOnBy
      (mount.place path).toDiskPath (Text.encode word) :=
    goesOnBy_place h hword hname
  obtain ⟨node, hnode⟩ := Option.isSome_iff_exists.1 (Disk.mem_names.1 hmem)
  refine ⟨Path.isValid_join h hsegment, Path.parent?_join h hsegment,
    fun entry hentry => ?_, ?_, fun hfits => ?_, fun hfits hshort => ?_⟩
  · rw [Entry.name, hentry, Path.name_join path hslash]
  · refine place_join mount h fun hhead => hslash ?_
    exact List.mem_of_head? hhead
  · exact hopens.entry_child hchild
      (precheck_join h hword hopens.precheck hfits)
  · exact hopens.locate_child hchild
      (precheck_join h hword hopens.precheck hfits) hshort hnode (by decide)
      (.inl rfl)

/-- **What a mount lists are the entries it can address**, and nothing else.
Where a path opens a directory, and a scan gets through it, the listing is made
of the names that are spelled in the letters of words, in the order of their
bytes; each is listed under a path of its own, which addresses that entry. For
each of the other names there is one notice, a warning. -/
theorem list_addressable (hpath : Path.isValid path)
    (hopens : disk.Opens (mount.place path).toDiskPath dir)
    (hreads : scanner.Reads disk (mount.place path) dir)
    (hnames : ∀ name ∈ disk.names dir, name.IsEntry) :
    ∃ words : List String,
      (∀ word ∈ words, Path.IsWord word) ∧
      words.map Text.encode =
        ((disk.names dir).filter fun name => name.IsSpelled) ∧
      mount.list scanner .live path disk =
        (.ok (words.map (Path.join path)),
          ((disk.names dir).filter fun name => ¬ name.IsSpelled).map
            fun name => .unaddressable
              ((mount.place path).join (Text.decode name))) ∧
      (words.map (Path.join path)).Pairwise (· < ·) ∧
      (∀ word ∈ words,
        mount.Addresses disk path dir word (Path.join path word)) ∧
      ∀ notice ∈ (mount.list scanner .live path disk).2,
        notice.level = .warn := by
  have hwords : ∀ word ∈ disk.words dir, Path.IsWord word := fun word hmem =>
    (Disk.mem_words_iff.1 hmem).1
  have hlist := list_of_reads hpath hreads hnames
  refine ⟨disk.words dir, hwords, disk.map_encode_words dir, hlist,
    disk.map_join_words_sorted dir hpath, fun word hmem => ?_, ?_⟩
  · obtain ⟨hword, hname⟩ := Disk.mem_words_iff.1 hmem
    exact addresses_join hpath hopens hword (hnames _ hname) hname
  · rw [hlist]
    exact List.forall_mem_map.2 fun name _ => rfl

/-- The whole of a disk as a store. -/
def whole : Mount := ⟨"/"⟩

/-- A mount whose root is written as the standard input is. -/
def hyphen : Mount := ⟨"-"⟩

/-- A directory behind a link, with a blank in one of its names and no text in
another. -/
def hall : Disk :=
  (((((Disk.blank 0).insert [Text.encode "in"]
      (.link (Text.encode "hall") 0)).insert [Text.encode "hall"]
      (.dir 0)).insert [Text.encode "hall", [0xFF, 0x61]]
      (.file ⟨#[]⟩ 0)).insert [Text.encode "hall", Text.encode "a b"]
      (.file ⟨#[]⟩ 0)).insert [Text.encode "hall", Text.encode "a"]
      (.link (Text.encode "a b") 0)

/-- **The one name that can be addressed** is listed, and a link is not in the
way where it is the path itself. -/
theorem list_addressable_hall :
    hall.Opens (whole.place "/in").toDiskPath [Text.encode "hall"] ∧
      whole.list .free .live "/in" hall =
        (.ok ["/in/a"], [.unaddressable "/in/a b",
          .unaddressable "/in/\uFFFDa"]) ∧
      whole.Addresses hall "/in" [Text.encode "hall"] "a" "/in/a" := by
  have hopens : hall.Opens (whole.place "/in").toDiskPath
      [Text.encode "hall"] := ⟨by decide +kernel, 0, by decide +kernel⟩
  have hnames : hall.names [Text.encode "hall"] =
      [Text.encode "a", Text.encode "a b", [0xFF, 0x61]] := by
    decide +kernel
  have hentries : ∀ name ∈ hall.names [Text.encode "hall"], name.IsEntry := by
    rw [hnames]
    intro name hname
    simp only [List.mem_cons, List.not_mem_nil, or_false] at hname
    obtain rfl | rfl | rfl := hname
    all_goals exact ⟨by decide, by decide, by decide, by decide⟩
  have hreads : Scanner.free.Reads hall (whole.place "/in")
      [Text.encode "hall"] := Scanner.reads_barred (by decide) hopens rfl
  obtain ⟨words, _, hencode, hlist, _, haddresses, _⟩ :=
    list_addressable (by decide) hopens hreads hentries
  have hwords : words = ["a"] := by
    rw [hnames] at hencode
    refine List.map_injective_iff.2 (fun _ _ => Text.encode_inj.1)
      (hencode.trans ?_)
    decide +kernel
  rw [hwords] at haddresses
  refine ⟨hopens, ?_, haddresses "a" (List.mem_singleton_self _)⟩
  rw [hlist, hwords, hnames]
  decide +kernel

end Mount
end PathStore
