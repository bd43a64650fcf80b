import OpenWatcom.Wlink.FlatPages

/-! # The fixup tables of LE and LX files

`WriteFixupTables` of `loadflat.c` writes the fixup page table, which has an offset for each page of the page
map and one more for the end, and behind it the fixup record table: the records of the pages, one
page after the other.  The offsets are summed up over the pages of the initialised parts, the records are
written over all pages. -/

namespace OpenWatcom.Wlink

/-! ### The tables -/

section tables

variable (lists : ListKey → List RelocInfo)

/-- A round of `WriteRelocSize` for the page with these lists: the offset so far is written, and the
sizes of the two lists are added to it. -/
def writePageSize (externals internals : List RelocInfo) (t : List ℕ × ℕ) : List ℕ × ℕ :=
  (t.1 ++ [t.2], (t.2 + relocSize externals + relocSize internals) % 2 ^ 32)

/-- `WriteRelocSize`, for a branch of the table of group `g`.  Without a table the lists are empty here. -/
def writeRelocSize (g high limit : ℕ) (t : List ℕ × ℕ) : List ℕ × ℕ :=
  (List.range limit).foldl (fun t low =>
    writePageSize (lists (.page g high low false)) (lists (.page g high low true)) t) t

/-- The first loop of `WriteFixupTables`, for a group. -/
def writeGroupSizes (g : ℕ) (group : RelocGroup) (t : List ℕ × ℕ) : List ℕ × ℕ :=
  let numpages := pageCount group.size
  let t := (List.range (rlidxHigh numpages)).foldl (fun t high =>
    writeRelocSize lists g high rlidxMax t) t
  writeRelocSize lists g (rlidxHigh numpages) (rlidxLow numpages) t

/-- The fixup page table: the 32-bit offsets of the pages, and the end. -/
def fixupPages (gs : FlatGroups) : List ℕ :=
  let t := (List.range gs.count).foldl (fun t g => writeGroupSizes lists g (gs.group g) t) ([], 0)
  t.1 ++ [t.2]

/-- A round of `TraverseRelocBlock` with `DumpRelocList`: what has been written, and the spill file. -/
def dumpPage (externals internals : List RelocInfo) (o : List Byte × SpillFile) : List Byte × SpillFile :=
  let first := dumpRelocList externals o.2
  let second := dumpRelocList internals first.2
  (o.1 ++ first.1 ++ second.1, second.2)

/-- `TraverseRelocBlock`. -/
def traverseRelocBlock (g high num : ℕ) (o : List Byte × SpillFile) : List Byte × SpillFile :=
  (List.range num).foldl (fun o low =>
    dumpPage (lists (.page g high low false)) (lists (.page g high low true)) o) o

/-- `TraverseOS2RelocList`, over all pages of the group. -/
def traverseOs2RelocList (g : ℕ) (group : RelocGroup) (o : List Byte × SpillFile) :
    List Byte × SpillFile :=
  let index := pageCount group.totalsize
  let o := (List.range (rlidxHigh index)).foldl (fun o high =>
    traverseRelocBlock lists g high rlidxMax o) o
  traverseRelocBlock lists g (rlidxHigh index) (rlidxLow index) o

/-- The fixup record table. -/
def fixupRecords (gs : FlatGroups) (file : SpillFile) : List Byte :=
  ((List.range gs.count).foldl (fun o g => traverseOs2RelocList lists g (gs.group g) o) ([], file)).1

end tables

/-- The item lies in the initialised part of its group, as the fixups of the data there do. -/
def RelocItem.InPages (gs : FlatGroups) (item : RelocItem) : Prop :=
  item.group < gs.count ∧ (item.page gs.group).2 < pageCount (gs.group item.group).size

instance (gs : FlatGroups) (item : RelocItem) : Decidable (item.InPages gs) :=
  inferInstanceAs (Decidable (_ ∧ _))

/-- The records of the items in a page. -/
def pageItems (gs : FlatGroups) (items : List RelocItem) (p : ℕ × ℕ) : List (List Byte) :=
  (items.filter fun item => item.page gs.group = p).map RelocItem.reloc

/-- For each page the fixup page table has two offsets, at the number of the page in the page map and
behind it, and between them the record table has the records of the page, in some order. -/
def FixupsAgree (gs : FlatGroups) (items : List RelocItem) (st : RelocState) : Prop :=
  ∀ g < gs.count, ∀ k < pageCount (gs.group g).size, ∃ start stop, ∃ order : List (List Byte),
    (fixupPages st.lists gs)[firstPage gs g + k]? = some start ∧
    (fixupPages st.lists gs)[firstPage gs g + k + 1]? = some stop ∧
    start ≤ stop ∧ stop ≤ (fixupRecords st.lists gs st.file).length ∧
    ((fixupRecords st.lists gs st.file).drop start).take (stop - start) = order.flatten ∧
    order.Perm (pageItems gs items (g, k))

/-- The load file agrees with the groups and their fixups. -/
structure FlatAgree (kind : FlatKind) (gs : FlatGroups) (fill : Byte) (bytes : ℕ → ℕ → Byte)
    (items : List RelocItem) (st : RelocState) : Prop where
  loads : Loads kind gs fill bytes
  fixups : FixupsAgree gs items st

/-! ### The pages in order -/

/-- Two nested loops over the table of a group visit its pages in order. -/
theorem foldl_branches {σ : Type} (f : σ → ℕ → ℕ → σ) (n : ℕ) (s : σ) :
    (List.range (rlidxLow n)).foldl (fun s low => f s (rlidxHigh n) low)
        ((List.range (rlidxHigh n)).foldl (fun s high =>
          (List.range rlidxMax).foldl (fun s low => f s high low) s) s) =
      (List.range n).foldl (fun s i => f s (rlidxHigh i) (rlidxLow i)) s := by
  have hbranch : ∀ high limit s, limit ≤ rlidxMax →
      (List.range limit).foldl (fun s low => f s high low) s =
        ((List.range limit).map fun low => rlidxMax * high + low).foldl
          (fun s i => f s (rlidxHigh i) (rlidxLow i)) s := by
    intro high limit s hlimit
    rw [List.foldl_map]
    refine List.foldl_ext _ _ _ fun s low hlow => ?_
    obtain ⟨hhigh, hlow'⟩ := page_div high ((List.mem_range.mp hlow).trans_le hlimit)
    rw [hhigh, hlow']
  have hfull := List.foldl_ext (fun s high => (List.range rlidxMax).foldl (fun s low => f s high low) s) _ s
    (l := List.range (rlidxHigh n)) fun s high _ => hbranch high rlidxMax s le_rfl
  conv_rhs => rw [range_pages n, List.foldl_append, List.foldl_flatMap]
  rw [hbranch _ (rlidxLow n) _ (Nat.mod_lt _ (by decide)).le, hfull]

/-- The lists of page `i` of a group. -/
def externalsKey (p : ℕ × ℕ) : ListKey := .page p.1 (rlidxHigh p.2) (rlidxLow p.2) false
def internalsKey (p : ℕ × ℕ) : ListKey := .page p.1 (rlidxHigh p.2) (rlidxLow p.2) true

/-- A table that is filled page by page has the partial sums of the sizes. -/
theorem foldl_sizes {α : Type} (w : α → ℕ) (ps : List α) (t : List ℕ × ℕ)
    (h : t.2 + (ps.map w).sum < 2 ^ 32) :
    ps.foldl (fun t p => (t.1 ++ [t.2], (t.2 + w p) % 2 ^ 32)) t =
      (t.1 ++ (List.range ps.length).map (fun k => t.2 + ((ps.take k).map w).sum),
        t.2 + (ps.map w).sum) := by
  induction ps generalizing t with
  | nil => simp
  | cons p ps ih =>
      rw [List.map_cons, List.sum_cons] at h
      have hmod : (t.2 + w p) % 2 ^ 32 = t.2 + w p := Nat.mod_eq_of_lt (by omega)
      rw [List.foldl_cons, hmod, ih _ (by dsimp only; omega), List.length_cons,
        List.range_succ_eq_map, List.map_cons, List.map_map]
      simp [Nat.add_assoc, Function.comp_def]

section agree

variable {gs : FlatGroups} {lists : ListKey → List RelocInfo}

/-- The size of the records of a page. -/
def pageSize (lists : ListKey → List RelocInfo) (p : ℕ × ℕ) : ℕ :=
  relocSize (lists (externalsKey p)) + relocSize (lists (internalsKey p))

theorem fixupPages_eq (h : ((allPages gs.group gs.count).map (pageSize lists)).sum < 2 ^ 32) :
    fixupPages lists gs = (List.range ((allPages gs.group gs.count).length + 1)).map fun k =>
      (((allPages gs.group gs.count).take k).map (pageSize lists)).sum := by
  have hgroup : ∀ t g, writeGroupSizes lists g (gs.group g) t =
      ((List.range (pageCount (gs.group g).size)).map fun i => (g, i)).foldl
        (fun t p => (t.1 ++ [t.2], (t.2 + pageSize lists p) % 2 ^ 32)) t := by
    intro t g
    rw [List.foldl_map]
    unfold writeGroupSizes writeRelocSize writePageSize
    dsimp only
    rw [foldl_branches (fun t high low => (t.1 ++ [t.2],
      (t.2 + relocSize (lists (.page g high low false)) +
        relocSize (lists (.page g high low true))) % 2 ^ 32))]
    refine List.foldl_ext _ _ _ fun t i _ => ?_
    rw [pageSize, ← Nat.add_assoc]
    rfl
  have hall : (List.range gs.count).foldl (fun t g => writeGroupSizes lists g (gs.group g) t)
      (([], 0) : List ℕ × ℕ) = (allPages gs.group gs.count).foldl
        (fun t p => (t.1 ++ [t.2], (t.2 + pageSize lists p) % 2 ^ 32)) ([], 0) := by
    unfold allPages
    rw [List.foldl_flatMap]
    exact List.foldl_ext _ _ _ fun t g _ => hgroup t g
  unfold fixupPages
  dsimp only
  rw [hall, foldl_sizes _ _ _ (by simpa using h), List.range_succ, List.map_append, List.map_singleton,
    List.take_length]
  simp

/-- The records of a page, where the lists hold these blocks. -/
def pageRecords (held : ListKey → List (List (List Byte))) (p : ℕ × ℕ) : List (List Byte) :=
  (held (externalsKey p)).flatten ++ (held (internalsKey p)).flatten

theorem dumpPage_eq {held : ListKey → List (List (List Byte))} {o : List Byte × SpillFile}
    (h : ∀ key, ListHolds o.2 (lists key) (held key)) (p : ℕ × ℕ) :
    (dumpPage (lists (externalsKey p)) (lists (internalsKey p)) o).1 =
        o.1 ++ (pageRecords held p).flatten ∧
      ∀ key, ListHolds (dumpPage (lists (externalsKey p)) (lists (internalsKey p)) o).2
        (lists key) (held key) := by
  have hread : ∀ {f f' : SpillFile}, Touches [] f f' → (∀ key, ListHolds f (lists key) (held key)) →
      ∀ key, ListHolds f' (lists key) (held key) := fun ht hf key =>
    (hf key).of_touches ht fun _ _ b hb => by cases hb
  obtain ⟨hfirst, ht⟩ := dumpRelocList_eq (h (externalsKey p))
  obtain ⟨hsecond, ht'⟩ := dumpRelocList_eq (hread ht h (internalsKey p))
  refine ⟨?_, hread ht' (hread ht h)⟩
  unfold dumpPage pageRecords
  dsimp only
  rw [hfirst, hsecond, List.flatten_append, List.append_assoc]

theorem foldl_dumpPage_eq {held : ListKey → List (List (List Byte))} (ps : List (ℕ × ℕ))
    {o : List Byte × SpillFile} (h : ∀ key, ListHolds o.2 (lists key) (held key)) :
    (ps.foldl (fun o p => dumpPage (lists (externalsKey p)) (lists (internalsKey p)) o) o).1 =
      o.1 ++ ps.flatMap fun p => (pageRecords held p).flatten := by
  induction ps generalizing o with
  | nil => simp
  | cons p ps ih =>
      obtain ⟨hout, hholds⟩ := dumpPage_eq h p
      rw [List.foldl_cons, ih hholds, hout, List.flatMap_cons, List.append_assoc]

/-- Pages behind the initialised part add nothing if they have no records. -/
theorem flatMap_pages {α : Type} (r : ℕ → List α) {m n : ℕ} (h : m ≤ n)
    (hnone : ∀ i, m ≤ i → r i = []) : (List.range n).flatMap r = (List.range m).flatMap r := by
  obtain ⟨d, rfl⟩ := Nat.exists_eq_add_of_le h
  have hrest : ((List.range d).map (m + ·)).flatMap r = [] := by
    rw [List.flatMap_map]
    exact List.flatMap_eq_nil_iff.mpr fun i _ => hnone _ (Nat.le_add_right m i)
  rw [List.range_add, List.flatMap_append, hrest, List.append_nil]

/-- The record table is the records of the pages of the page map, in order. -/
theorem fixupRecords_eq {held : ListKey → List (List (List Byte))} {file : SpillFile}
    (h : ∀ key, ListHolds file (lists key) (held key))
    (hnone : ∀ g i, pageCount (gs.group g).size ≤ i → pageRecords held (g, i) = []) :
    fixupRecords lists gs file =
      (allPages gs.group gs.count).flatMap fun p => (pageRecords held p).flatten := by
  have hgroup : ∀ o g, traverseOs2RelocList lists g (gs.group g) o =
      ((List.range (pageCount (gs.group g).totalsize)).map fun i => (g, i)).foldl
        (fun o p => dumpPage (lists (externalsKey p)) (lists (internalsKey p)) o) o := by
    intro o g
    rw [List.foldl_map]
    exact foldl_branches (fun o high low =>
      dumpPage (lists (.page g high low false)) (lists (.page g high low true)) o) _ o
  unfold fixupRecords
  rw [List.foldl_ext _ (fun o g => _) _ fun o g _ => hgroup o g, ← List.foldl_flatMap,
    foldl_dumpPage_eq _ h, List.nil_append, List.flatMap_assoc, allPages, List.flatMap_assoc]
  refine List.flatMap_congr fun g _ => ?_
  rw [List.flatMap_map, List.flatMap_map]
  refine flatMap_pages _ ?_ fun i hi => by rw [hnone g i hi]; rfl
  have := gs.size_le g
  unfold pageCount
  omega

/-! ### One page -/

/-- The part of a whole that one of its pieces is. -/
theorem slice_flatMap {α β : Type} (r : α → List β) (ps : List α) {k : ℕ} {p : α} (h : ps[k]? = some p) :
    ((ps.flatMap r).drop ((ps.take k).map fun p => (r p).length).sum).take (r p).length = r p := by
  obtain ⟨hk, hp⟩ := List.getElem?_eq_some_iff.mp h
  have hsplit : ps = ps.take k ++ p :: ps.drop (k + 1) := by
    rw [← hp, List.getElem_cons_drop, List.take_append_drop]
  conv_lhs => rw [hsplit, List.flatMap_append, List.flatMap_cons]
  rw [← List.length_flatMap, List.take_left' (by rw [List.length_take, min_eq_left hk.le]),
    List.drop_left, List.take_left]

theorem allPages_getElem? {g k : ℕ} (hg : g < gs.count) (hk : k < pageCount (gs.group g).size) :
    (allPages gs.group gs.count)[firstPage gs g + k]? = some (g, k) := by
  have hblock : (allPages gs.group gs.count)[firstPage gs g + k]? =
      ((List.range (pageCount (gs.group g).size)).map fun i => (g, i))[k]? :=
    getElem?_blocks (fun i => by rw [List.length_map, List.length_range]) hg hk
  rw [hblock, List.getElem?_map, List.getElem?_range hk]
  rfl

end agree

section kept

variable {gs : FlatGroups} {items : List RelocItem} {st : RelocState}

theorem key_flat_iff {item : RelocItem} {p : ℕ × ℕ} {internals : Bool} :
    item.key .flat gs.group = .page p.1 (rlidxHigh p.2) (rlidxLow p.2) internals ↔
      item.page gs.group = p ∧ isInternal item.reloc = internals := by
  obtain ⟨g, i⟩ := p
  unfold RelocItem.key relocHeader RelocItem.page rlidxHigh rlidxLow
  simp only [ListKey.page.injEq, Prod.mk.injEq]
  constructor
  · rintro ⟨hg, hhigh, hlow, hinternal⟩
    exact ⟨⟨hg, by omega⟩, hinternal⟩
  · rintro ⟨⟨hg, rfl⟩, hinternal⟩
    exact ⟨hg, rfl, rfl, hinternal⟩

/-- The items of the two lists of a page are those of the page. -/
theorem itemsOf_page_perm (gs : FlatGroups) (items : List RelocItem) (p : ℕ × ℕ) :
    (itemsOf .flat gs.group items (externalsKey p) ++ itemsOf .flat gs.group items (internalsKey p)).Perm
      (pageItems gs items p) := by
  have hlist : ∀ internals, itemsOf .flat gs.group items
      (.page p.1 (rlidxHigh p.2) (rlidxLow p.2) internals) =
        ((items.filter fun item => item.page gs.group = p).filter fun item =>
          isInternal item.reloc = internals).map RelocItem.reloc := by
    intro internals
    unfold itemsOf
    rw [List.filter_filter]
    congr 1
    refine List.filter_congr fun item _ => ?_
    rw [decide_eq_decide.mpr key_flat_iff, Bool.decide_and, Bool.and_comm]
  rw [externalsKey, internalsKey, hlist, hlist, ← List.map_append]
  refine List.Perm.map _ (List.perm_append_comm.trans ?_)
  convert List.filter_append_perm (fun item : RelocItem => decide (isInternal item.reloc = true))
    (items.filter fun item => item.page gs.group = p) using 4
  simp

/-- All records fit the 32-bit offsets if the items do. -/
theorem sum_pageItems (hin : ∀ item ∈ items, item.InPages gs) :
    ((allPages gs.group gs.count).map fun p => (pageItems gs items p).flatten.length).sum =
      (items.map RelocItem.reloc).flatten.length := by
  have hperm := (flatMap_filter_perm (RelocItem.page gs.group) (allPages gs.group gs.count)
    (allPages_nodup gs.group gs.count) items fun item hitem =>
      mem_allPages.mpr (hin item hitem)).map RelocItem.reloc
  rw [← hperm.flatten.length_eq, List.map_flatMap, List.length_flatten, List.map_flatMap,
    List.flatMap_def, List.sum_flatten, List.map_map]
  congr 1
  refine List.map_congr_left fun p _ => ?_
  rw [Function.comp_apply, pageItems, List.length_flatten]

/-- The fixup tables agree with the items that the lists hold. -/
theorem RelocInv.fixupsAgree (h : RelocInv .flat gs.group st items)
    (hin : ∀ item ∈ items, item.InPages gs)
    (hsize : (items.map RelocItem.reloc).flatten.length < 2 ^ 32) : FixupsAgree gs items st := by
  choose held hholds hitems using h.holds
  have horder : ∀ key, (held key).flatten.Perm (itemsOf .flat gs.group items key) := fun key =>
    (hitems key) ▸ ((List.reverse_perm (held key)).symm.flatten)
  have hpage : ∀ p, (pageRecords held p).Perm (pageItems gs items p) := fun p =>
    ((horder _).append (horder _)).trans (itemsOf_page_perm gs items p)
  have hlen : ∀ p, (pageRecords held p).flatten.length = pageSize st.lists p := by
    intro p
    rw [pageSize, relocSize_eq (hholds _), relocSize_eq (hholds _), pageRecords, List.flatten_append,
      List.length_append]
  have hnone : ∀ g i, pageCount (gs.group g).size ≤ i → pageRecords held (g, i) = [] := by
    intro g i hi
    have hempty : pageItems gs items (g, i) = [] := by
      unfold pageItems
      rw [List.map_eq_nil_iff, List.filter_eq_nil_iff]
      intro item hitem hp
      obtain ⟨-, hlt⟩ := hin item hitem
      have heq : item.page gs.group = (g, i) := of_decide_eq_true hp
      have hgroup : item.group = g := congrArg Prod.fst heq
      rw [heq, hgroup] at hlt
      exact absurd hlt hi.not_gt
    exact List.perm_nil.mp (hempty ▸ hpage (g, i))
  have hsum : ((allPages gs.group gs.count).map (pageSize st.lists)).sum < 2 ^ 32 := by
    rw [← sum_pageItems hin] at hsize
    refine lt_of_eq_of_lt (congrArg List.sum (List.map_congr_left fun p _ => ?_)) hsize
    rw [← hlen, (hpage p).flatten.length_eq]
  have hrecords := fixupRecords_eq hholds hnone
  intro g hg k hk
  have hp := allPages_getElem? hg hk
  have hlt := (List.getElem?_eq_some_iff.mp hp).1
  -- the offsets of the page are the sums of the sizes before it and up to it
  have hoffset : ∀ j ≤ (allPages gs.group gs.count).length, (fixupPages st.lists gs)[j]? =
      some (((allPages gs.group gs.count).take j).map (pageSize st.lists)).sum := by
    intro j hj
    rw [fixupPages_eq hsum, List.getElem?_map, List.getElem?_range (Nat.lt_succ_of_le hj)]
    rfl
  have htake : (((allPages gs.group gs.count).take (firstPage gs g + k + 1)).map
      (pageSize st.lists)).sum = (((allPages gs.group gs.count).take (firstPage gs g + k)).map
        (pageSize st.lists)).sum + pageSize st.lists (g, k) := by
    rw [List.take_add_one, hp]
    simp
  refine ⟨_, _, pageRecords held (g, k), hoffset _ hlt.le, hoffset _ hlt, ?_, ?_, ?_, hpage _⟩
  · rw [htake]
    exact Nat.le_add_right _ _
  · rw [hrecords, List.length_flatMap]
    simp only [hlen]
    exact (List.Sublist.map _ (List.take_sublist _ _)).sum_le_sum fun _ _ => Nat.zero_le _
  · have hweight : pageSize st.lists = fun p => (pageRecords held p).flatten.length :=
      funext fun p => (hlen p).symm
    rw [htake, Nat.add_sub_cancel_left, hrecords, hweight]
    exact slice_flatMap (fun p => (pageRecords held p).flatten) _ hp

end kept

/-- Recorded without the spill slip, in the initialised parts of the groups, the fixups of each page are
where the fixup page table says; and the data is where the page map says, whatever the
bytes, exactly if the pages fit the map. -/
theorem flatTables_agree_iff (kind : FlatKind) (gs : FlatGroups) (fill : Byte) (file : SpillFile)
    (es : List RelocEvent)
    (h : Along (RelocState.step .flat gs.group)
      (fun st e => st.StepOk e ∧ ∀ item ∈ e.items, item.InPages gs) (RelocState.init file) es)
    (hsize : ((recordedItems es).map RelocItem.reloc).flatten.length < 2 ^ 32) :
    (∀ bytes, FlatAgree kind gs fill bytes (recordedItems es)
        (run (RelocState.step .flat gs.group) (RelocState.init file) es)) ↔ PagesFit kind gs := by
  obtain ⟨hok, hin⟩ := along_split h
  have hfixups := (relocInv_run (relocInv_init .flat gs.group file) hok).fixupsAgree hin hsize
  rw [← pages_iff, ← loads_iff_inPlace kind gs fill]
  constructor
  · exact fun hall bytes => (hall bytes).loads
  · exact fun hall bytes => ⟨hall bytes, hfixups⟩

/-- A group of two pages, the second with one byte, one without initialised bytes and one of a full page. -/
def threeGroups : FlatGroups where
  count := 3
  group := fun g =>
    if g = 0 then ⟨0, 0x10000, 0x1001, 0x1010, 0⟩
    else if g = 1 then ⟨0, 0x20000, 0, 0x100, 0⟩
    else ⟨0, 0x30000, 0x1000, 0x1000, 0⟩
  size_le := fun g => by split_ifs <;> decide

/-- The alignment is 8192: the second page of the first group is not at a multiple of it. -/
theorem not_flatAgree : ¬ ∀ (kind : FlatKind) (gs : FlatGroups) (fill : Byte) (bytes : ℕ → ℕ → Byte)
    (file : SpillFile) (es : List RelocEvent), (∀ item ∈ recordedItems es, item.InPages gs) →
    FlatAgree kind gs fill bytes (recordedItems es)
      (run (RelocState.step .flat gs.group) (RelocState.init file) es) := by
  intro hall
  have hfit := pages_iff.mp ((loads_iff_inPlace (.lx 13) threeGroups 0).mp fun bytes =>
    (hall (.lx 13) threeGroups 0 bytes (SpillFile.init fun _ => 0) [] fun item hitem => by
      cases hitem).loads)
  revert hfit
  decide +kernel

/-- A fixup at the end of the first page of the first group, repeated for the second page, and an internal
one in the last group, with a block in the spill file. -/
def flatRun : List RelocEvent :=
  [.vmAlloc 0x1000, .write ⟨0, 0xFFE, [7, 1, 0xFE, 0x0F, 2, 0]⟩ (some fun _ => 0),
    .write ⟨0, 0x1FFE, [7, 1, 0xFE, 0xFF, 2, 0]⟩ none, .write ⟨2, 0x10, [7, 0, 0x10, 0, 1, 0]⟩ none]

theorem flatTables_agree_flatRun :
    (∀ bytes, FlatAgree (.lx 9) threeGroups 0 bytes (recordedItems flatRun)
        (run (RelocState.step .flat threeGroups.group)
          (RelocState.init { SpillFile.init fun _ => 0xEE with filesize := 0x200 }) flatRun)) ↔
      PagesFit (.lx 9) threeGroups :=
  flatTables_agree_iff (.lx 9) threeGroups 0 _ flatRun (by
    refine ⟨⟨?_, ?_⟩, ⟨?_, ?_⟩, ⟨?_, ?_⟩, ⟨?_, ?_⟩, trivial⟩ <;> decide +kernel) (by decide)

end OpenWatcom.Wlink
