import OpenWatcom.Wlink.Reloc

/-! # Relocations in the load file

What is written for the relocation lists: the blocks of a list, at once or in pieces of a maximal size, and
`WriteFixupInfo` of `loadpe.c`, which writes a base relocation block for each page of a PE file. -/

namespace OpenWatcom.Wlink

/-! ### A list -/

/-- With nothing written yet, `DumpMaxRelocList` takes the first block. -/
theorem dumpMaxRelocList_length (max total : ℕ) (f : SpillFile) (list : List RelocInfo) :
    (dumpMaxRelocList max total f list).1.length ≤ list.length := by
  induction list generalizing total f with
  | nil => exact le_rfl
  | cons info list ih =>
      rw [dumpMaxRelocList]
      split_ifs
      · exact le_rfl
      · exact (ih _ _).trans (Nat.le_succ _)

theorem dumpMaxRelocList_length_lt (max : ℕ) (f : SpillFile) (info : RelocInfo)
    (list : List RelocInfo) :
    (dumpMaxRelocList max 0 f (info :: list)).1.length < (info :: list).length := by
  rw [dumpMaxRelocList, if_neg (fun h => h.2.1 rfl)]
  exact Nat.lt_succ_of_le (dumpMaxRelocList_length max _ _ list)

/-- A list in pieces: `DumpMaxRelocList` again and again until the head is `NULL`. -/
def dumpChunks (max : ℕ) (f : SpillFile) : List RelocInfo → List Byte × SpillFile
  | [] => ([], f)
  | info :: list =>
    let r := dumpMaxRelocList max 0 f (info :: list)
    let s := dumpChunks max r.2.2.2 r.1
    (r.2.2.1 ++ s.1, s.2)
termination_by list => list.length
decreasing_by exact dumpMaxRelocList_length_lt max f info list

/-- Written in pieces, a list gives what its blocks hold. -/
theorem dumpChunks_eq (max : ℕ) {f : SpillFile} {list : List RelocInfo}
    {blocks : List (List (List Byte))} (h : ListHolds f list blocks) :
    (dumpChunks max f list).1 = blocks.flatten.flatten := by
  induction hn : list.length using Nat.strong_induction_on generalizing f list blocks with
  | _ n ih =>
    cases list with
    | nil =>
        cases h
        rw [dumpChunks]
        rfl
    | cons info list =>
        obtain ⟨done, left, rfl, hleft, -, hout, -⟩ := dumpMaxRelocList_spec max h 0
        rw [dumpChunks]
        dsimp only
        rw [hout, ih _ (hn ▸ dumpMaxRelocList_length_lt max f info list) hleft rfl]
        simp

/-- Written at once, and the size. -/
theorem dumpRelocList_eq {f : SpillFile} {list : List RelocInfo}
    {blocks : List (List (List Byte))} (h : ListHolds f list blocks) :
    (dumpRelocList list f).1 = blocks.flatten.flatten ∧ Touches [] f (dumpRelocList list f).2 := by
  obtain ⟨done, left, rfl, -, -, hout, ht, hmax, -⟩ := dumpMaxRelocList_spec 0 h 0
  rw [hmax rfl, List.append_nil]
  exact ⟨hout, ht⟩

theorem relocSize_eq {f : SpillFile} {list : List RelocInfo}
    {blocks : List (List (List Byte))} (h : ListHolds f list blocks) :
    relocSize list = blocks.flatten.flatten.length := by
  unfold relocSize
  induction h with
  | nil => rfl
  | cons hinfo hrest ih =>
      rw [List.map_cons, List.sum_cons, ih, (dump_spec hinfo).2.2, List.flatten_cons,
        List.flatten_append, List.length_append]

/-! ### Pages -/

/-- The pages in the order of the loops over the table: full branches, then the last one. -/
theorem flatMap_branches (q : ℕ) : (List.range q).flatMap (fun high =>
    (List.range rlidxMax).map fun low => rlidxMax * high + low) = List.range (rlidxMax * q) := by
  induction q with
  | zero => rfl
  | succ q ih =>
      rw [List.range_succ, List.flatMap_append, ih, Nat.mul_succ, List.range_add]
      simp

theorem page_div (high : ℕ) {low : ℕ} (h : low < rlidxMax) :
    rlidxHigh (rlidxMax * high + low) = high ∧ rlidxLow (rlidxMax * high + low) = low := by
  unfold rlidxHigh rlidxLow rlidxMax at *
  omega

theorem range_pages (n : ℕ) : List.range n = (List.range (rlidxHigh n)).flatMap (fun high =>
    (List.range rlidxMax).map fun low => rlidxMax * high + low) ++
      (List.range (rlidxLow n)).map fun low => rlidxMax * rlidxHigh n + low := by
  rw [flatMap_branches, ← List.range_add]
  congr 1
  unfold rlidxHigh rlidxLow rlidxMax
  omega

/-! ### The `.reloc` section -/

/-- What is written, the size so far, and the spill file that the blocks are read from. -/
structure PeOut where
  out : List Byte
  size : ℕ
  file : SpillFile

section fixups

variable (fill : Byte) (lists : ListKey → List RelocInfo)

/-- A round of `WriteRelocList`. -/
def writeRelocPage (list : List RelocInfo) (pagerva : ℕ) (o : PeOut) : PeOut :=
  let pagesize := relocSize list
  if pagesize ≠ 0 then
    let padme := pagesize / 2 % 2 = 1
    let pagesize := (if padme then pagesize + 2 else pagesize) + 8
    let d := dumpRelocList list o.file
    { out := o.out ++ (field32 pagerva ++ field32 pagesize ++ d.1 ++
        if padme then List.replicate 2 fill else [])
      size := o.size + pagesize
      file := d.2 }
  else o

/-- `WriteRelocList` for one branch of the table. -/
def writeRelocList (branch : ℕ → List RelocInfo) (pagerva limit : ℕ) (o : PeOut) : PeOut :=
  (List.range limit).foldl
    (fun o low => writeRelocPage fill (branch low) (pagerva + 4096 * low) o) o

/-- The loop of `WriteFixupInfo` for a group. -/
def writeGroupFixups (g : ℕ) (group : RelocGroup) (o : PeOut) : PeOut :=
  let numpages := pageCount group.size
  let o := (List.range (rlidxHigh numpages)).foldl (fun o high =>
    writeRelocList fill (fun low => lists (.page g high low false))
      (group.linear + 4096 * rlidxMax * high) rlidxMax o) o
  writeRelocList fill (fun low => lists (.page g (rlidxHigh numpages) low false))
    (group.linear + 4096 * rlidxMax * rlidxHigh numpages) (rlidxLow numpages) o

/-- `WriteFixupInfo` for `n` groups.  A group without a table has empty lists here, and an empty header
ends the section. -/
def writeFixupInfo (groups : ℕ → RelocGroup) (n : ℕ) (file : SpillFile) : PeOut :=
  let o := (List.range n).foldl (fun o g => writeGroupFixups fill lists g (groups g) o)
    ⟨[], 0, file⟩
  { o with out := o.out ++ List.replicate 8 fill, size := o.size + 8 }

/-- The list of page `i` of a group. -/
def pageKey (g i : ℕ) : ListKey := .page g (rlidxHigh i) (rlidxLow i) false

/-- The loops over the branches visit the pages in order. -/
theorem writeGroupFixups_eq (g : ℕ) (group : RelocGroup) (o : PeOut) :
    writeGroupFixups fill lists g group o = (List.range (pageCount group.size)).foldl (fun o i =>
      writeRelocPage fill (lists (pageKey g i)) (group.linear + 4096 * i) o) o := by
  have hbranch : ∀ high limit o, limit ≤ rlidxMax →
      writeRelocList fill (fun low => lists (.page g high low false))
        (group.linear + 4096 * rlidxMax * high) limit o =
      ((List.range limit).map fun low => rlidxMax * high + low).foldl (fun o i =>
        writeRelocPage fill (lists (pageKey g i)) (group.linear + 4096 * i) o) o := by
    intro high limit o hlimit
    unfold writeRelocList
    rw [List.foldl_map]
    refine List.foldl_ext _ _ _ fun o low hlow => ?_
    obtain ⟨hhigh, hlow'⟩ := page_div high ((List.mem_range.mp hlow).trans_le hlimit)
    rw [pageKey, hhigh, hlow', Nat.add_assoc, Nat.mul_add, Nat.mul_assoc]
  rw [range_pages, List.foldl_append, List.foldl_flatMap]
  unfold writeGroupFixups
  dsimp only
  have hfull := List.foldl_ext (fun o high =>
      writeRelocList fill (fun low => lists (.page g high low false))
        (group.linear + 4096 * rlidxMax * high) rlidxMax o) _ o
    (l := List.range (rlidxHigh (pageCount group.size)))
    fun o high _ => hbranch high rlidxMax o le_rfl
  rw [hfull, hbranch _ (rlidxLow (pageCount group.size)) _ (Nat.mod_lt _ (by decide)).le]

end fixups

/-- A base relocation block: the address of its page and its items. -/
structure PeBlock where
  rva : ℕ
  items : List (List Byte)
  deriving DecidableEq, Repr

/-- The bytes of the items, made a multiple of four. -/
def PeBlock.body (fill : Byte) (b : PeBlock) : List Byte :=
  b.items.flatten ++ if b.items.flatten.length / 2 % 2 = 1 then List.replicate 2 fill else []

def PeBlock.size (fill : Byte) (b : PeBlock) : ℕ := (b.body fill).length + 8

def PeBlock.encode (fill : Byte) (b : PeBlock) : List Byte :=
  field32 b.rva ++ field32 (b.size fill) ++ b.body fill

theorem PeBlock.length_encode (fill : Byte) (b : PeBlock) :
    (b.encode fill).length = b.size fill := by
  simp only [PeBlock.encode, PeBlock.size, List.length_append, field32, List.length_cons,
    List.length_nil]
  omega

theorem length_flatten_even {items : List (List Byte)}
    (h : ∀ item ∈ items, item.length = 2 ∨ item.length = 4) : items.flatten.length % 2 = 0 := by
  induction items with
  | nil => rfl
  | cons item items ih =>
      have h1 := h item List.mem_cons_self
      have h2 := ih fun i hi => h i (List.mem_cons_of_mem _ hi)
      rw [List.flatten_cons, List.length_append]
      omega

/-- Items of two and four bytes make a block a multiple of four. -/
theorem PeBlock.size_dvd (fill : Byte) {b : PeBlock}
    (h : ∀ item ∈ b.items, item.length = 2 ∨ item.length = 4) : 4 ∣ b.size fill := by
  have heven := length_flatten_even h
  unfold PeBlock.size PeBlock.body
  split_ifs with hodd
  · rw [List.length_append, List.length_replicate]
    omega
  · rw [List.append_nil]
    omega

/-- The block of a page: none if there is nothing to relocate in it. -/
def pageBlock (rva : ℕ) (items : List (List Byte)) : List PeBlock :=
  if items.flatten.length = 0 then [] else [⟨rva, items⟩]

/-- One page of `WriteRelocList`. -/
theorem writeRelocPage_eq (fill : Byte) (rva : ℕ) {list : List RelocInfo} {o : PeOut}
    {blocks : List (List (List Byte))} (h : ListHolds o.file list blocks) :
    (writeRelocPage fill list rva o).out =
      o.out ++ (pageBlock rva blocks.flatten).flatMap (PeBlock.encode fill) ∧
    (writeRelocPage fill list rva o).size =
      o.size + ((pageBlock rva blocks.flatten).map (PeBlock.size fill)).sum ∧
    Touches [] o.file (writeRelocPage fill list rva o).file := by
  obtain ⟨hdump, ht⟩ := dumpRelocList_eq h
  have hsize := relocSize_eq h
  unfold writeRelocPage pageBlock
  dsimp only
  rw [hsize, hdump]
  by_cases h0 : blocks.flatten.flatten.length = 0
  · rw [if_neg (not_not.mpr h0), if_pos h0]
    exact ⟨by simp, by simp, Touches.refl _ _⟩
  · rw [if_pos h0, if_neg h0]
    refine ⟨?_, ?_, ht⟩
    · simp only [List.flatMap_cons, List.flatMap_nil, List.append_nil, PeBlock.encode, PeBlock.size,
        PeBlock.body]
      split_ifs <;> simp
    · simp only [List.map_cons, List.map_nil, List.sum_cons, List.sum_nil, PeBlock.size, PeBlock.body]
      split_ifs <;> simp

/-- The loop over a list of pages. -/
theorem foldl_writeRelocPage_eq {α : Type} (fill : Byte) {lists : ListKey → List RelocInfo}
    {blocks : ListKey → List (List (List Byte))} (key : α → ListKey) (rva : α → ℕ) (pages : List α)
    {o : PeOut} (h : ∀ k, ListHolds o.file (lists k) (blocks k)) :
    let o' := pages.foldl (fun o p => writeRelocPage fill (lists (key p)) (rva p) o) o
    let bs := pages.flatMap fun p => pageBlock (rva p) (blocks (key p)).flatten
    o'.out = o.out ++ bs.flatMap (PeBlock.encode fill) ∧
      o'.size = o.size + (bs.map (PeBlock.size fill)).sum := by
  induction pages generalizing o with
  | nil => simp
  | cons p pages ih =>
      obtain ⟨hout, hsize, ht⟩ := writeRelocPage_eq fill (rva p) (h (key p))
      obtain ⟨hout', hsize'⟩ := ih fun k => (h k).of_touches ht fun _ _ b hb => by cases hb
      dsimp only at hout' hsize' ⊢
      rw [List.foldl_cons, hout', hsize', hout, hsize, List.flatMap_cons, List.flatMap_append,
        List.map_append, List.sum_append, List.append_assoc, Nat.add_assoc]
      exact ⟨rfl, rfl⟩

/-- The pages of all groups. -/
def allPages (groups : ℕ → RelocGroup) (n : ℕ) : List (ℕ × ℕ) :=
  (List.range n).flatMap fun g => (List.range (pageCount (groups g).size)).map fun i => (g, i)

theorem mem_allPages {groups : ℕ → RelocGroup} {n : ℕ} {p : ℕ × ℕ} :
    p ∈ allPages groups n ↔ p.1 < n ∧ p.2 < pageCount (groups p.1).size := by
  unfold allPages
  simp only [List.mem_flatMap, List.mem_map, List.mem_range]
  constructor
  · rintro ⟨g, hg, i, hi, rfl⟩
    exact ⟨hg, hi⟩
  · rintro ⟨hg, hi⟩
    exact ⟨p.1, hg, p.2, hi, rfl⟩

theorem allPages_nodup (groups : ℕ → RelocGroup) (n : ℕ) : (allPages groups n).Nodup := by
  unfold allPages
  refine List.nodup_flatMap.mpr ⟨fun g _ => List.nodup_range.map fun i j hij => ?_, ?_⟩
  · exact (Prod.mk.inj hij).2
  · refine List.nodup_range.imp fun {g g'} hne => ?_
    intro p hp hp'
    obtain ⟨i, -, rfl⟩ := List.mem_map.mp hp
    obtain ⟨j, -, heq⟩ := List.mem_map.mp hp'
    exact hne (Prod.mk.inj heq).1.symm

/-- The section is the blocks of the pages that have relocations, and an empty header. -/
theorem writeFixupInfo_eq (fill : Byte) {lists : ListKey → List RelocInfo}
    {blocks : ListKey → List (List (List Byte))} (groups : ℕ → RelocGroup) (n : ℕ) {file : SpillFile}
    (h : ∀ k, ListHolds file (lists k) (blocks k)) :
    let bs := (allPages groups n).flatMap fun p =>
      pageBlock ((groups p.1).linear + 4096 * p.2) (blocks (pageKey p.1 p.2)).flatten
    (writeFixupInfo fill lists groups n file).out =
        bs.flatMap (PeBlock.encode fill) ++ List.replicate 8 fill ∧
      (writeFixupInfo fill lists groups n file).size = (bs.map (PeBlock.size fill)).sum + 8 := by
  have hloops : (List.range n).foldl (fun o g => writeGroupFixups fill lists g (groups g) o)
      ⟨[], 0, file⟩ = (allPages groups n).foldl (fun o p =>
        writeRelocPage fill (lists (pageKey p.1 p.2)) ((groups p.1).linear + 4096 * p.2) o)
      ⟨[], 0, file⟩ := by
    unfold allPages
    rw [List.foldl_flatMap]
    refine List.foldl_ext _ _ _ fun o g _ => ?_
    rw [writeGroupFixups_eq, List.foldl_map]
  obtain ⟨hout, hsize⟩ := foldl_writeRelocPage_eq fill (fun p : ℕ × ℕ => pageKey p.1 p.2)
    (fun p => (groups p.1).linear + 4096 * p.2) (allPages groups n) (o := ⟨[], 0, file⟩) h
  unfold writeFixupInfo
  dsimp only at hout hsize ⊢
  rw [hloops, hout, hsize, List.nil_append, Nat.zero_add]
  exact ⟨rfl, rfl⟩

/-! ### All of the relocations -/

/-- A list is the parts of it with the keys. -/
theorem flatMap_filter_perm {α κ : Type} [DecidableEq κ] (key : α → κ) (keys : List κ)
    (hnodup : keys.Nodup) (l : List α) (hall : ∀ a ∈ l, key a ∈ keys) :
    (keys.flatMap fun k => l.filter fun a => key a = k).Perm l := by
  induction keys generalizing l with
  | nil =>
      cases l with
      | nil => exact List.Perm.refl _
      | cons a l => cases hall a List.mem_cons_self
  | cons k keys ih =>
      obtain ⟨hk, hnodup⟩ := List.nodup_cons.mp hnodup
      have hrest := ih hnodup (l.filter fun a => !decide (key a = k)) fun a ha => by
        obtain ⟨hal, hne⟩ := List.mem_filter.mp ha
        exact (List.mem_cons.mp (hall a hal)).resolve_left (by simpa using hne)
      have hsame : (keys.flatMap fun k' => (l.filter fun a => !decide (key a = k)).filter
          fun a => key a = k') = keys.flatMap fun k' => l.filter fun a => key a = k' := by
        refine List.flatMap_congr fun k' hk' => ?_
        rw [List.filter_filter]
        refine List.filter_congr fun a _ => ?_
        by_cases hak : key a = k'
        · subst hak
          have hne : key a ≠ k := fun heq => hk (heq ▸ hk')
          simp [hne]
        · simp [hak]
      rw [List.flatMap_cons, ← hsame]
      exact (hrest.append_left _).trans (List.filter_append_perm (fun a => decide (key a = k)) l)

/-- The page that an item is in: the group, and the number of the page there. -/
def RelocItem.page (groups : ℕ → RelocGroup) (item : RelocItem) : ℕ × ℕ :=
  (item.group, (item.off - (groups item.group).off) / 4096)

/-- The address of the page of the item's address. -/
def RelocItem.pageRva (groups : ℕ → RelocGroup) (item : RelocItem) : ℕ :=
  ((groups item.group).linear + (item.off - (groups item.group).off)) / 4096 * 4096

theorem key_eq_pageKey_iff {groups : ℕ → RelocGroup} {item : RelocItem} {p : ℕ × ℕ} :
    item.key .pe groups = pageKey p.1 p.2 ↔ item.page groups = p := by
  obtain ⟨g, i⟩ := p
  unfold RelocItem.key relocHeader pageKey RelocItem.page rlidxHigh rlidxLow
  simp only [ListKey.page.injEq, Prod.mk.injEq, and_true]
  constructor
  · rintro ⟨hg, hhigh, hlow⟩
    exact ⟨hg, by omega⟩
  · rintro ⟨hg, rfl⟩
    exact ⟨hg, rfl, rfl⟩

/-- The item can be recorded: it has the size of its format, and lies in the group.  A PE file is
written from the pages of the initialised part only, and its blocks start where the group does. -/
def RelocItem.Fits (fmt : RelocFormat) (groups : ℕ → RelocGroup) (n : ℕ) (item : RelocItem) : Prop :=
  match fmt with
  | .pe => (item.reloc.length = 2 ∨ item.reloc.length = 4) ∧ item.group < n ∧
      (item.page groups).2 < pageCount (groups item.group).size ∧ (groups item.group).linear % 4096 = 0
  | _ => True

instance (fmt : RelocFormat) (groups : ℕ → RelocGroup) (n : ℕ) (item : RelocItem) :
    Decidable (item.Fits fmt groups n) := by
  unfold RelocItem.Fits
  split <;> infer_instance

/-- The 32-bit field of a block that has its size. -/
def sizeField : List Byte → ℕ
  | _ :: _ :: _ :: _ :: b₀ :: b₁ :: b₂ :: b₃ :: _ => word32 b₀ b₁ b₂ b₃
  | _ => 0

theorem PeBlock.sizeField_encode (fill : Byte) {b : PeBlock} (h : (b.encode fill).length < 2 ^ 32) :
    sizeField (b.encode fill) = (b.encode fill).length := by
  rw [b.length_encode] at h ⊢
  exact word32_field32 h

/-- All of the items that were recorded are in the load file, once each: those of a list in what is
written for the list, at once or in pieces, and those of a PE file in the base relocation block of
their page. -/
structure RelocsKept (fmt : RelocFormat) (groups : ℕ → RelocGroup) (n : ℕ) (fill : Byte)
    (items : List RelocItem) (st : RelocState) : Prop where
  list : ∀ key, ∃ order : List (List Byte), order.Perm (itemsOf fmt groups items key) ∧
    (dumpRelocList (st.lists key) st.file).1 = order.flatten ∧
    (∀ max, (dumpChunks max st.file (st.lists key)).1 = order.flatten) ∧
    relocSize (st.lists key) = order.flatten.length
  pe : fmt = .pe → ∃ blocks : List PeBlock,
    (writeFixupInfo fill st.lists groups n st.file).out =
      blocks.flatMap (PeBlock.encode fill) ++ List.replicate 8 fill ∧
    (writeFixupInfo fill st.lists groups n st.file).size =
      (writeFixupInfo fill st.lists groups n st.file).out.length ∧
    (∀ b ∈ blocks, b.rva % 4096 = 0 ∧ 4 ∣ (b.encode fill).length ∧
      ((b.encode fill).length < 2 ^ 32 → sizeField (b.encode fill) = (b.encode fill).length)) ∧
    (blocks.flatMap fun b => b.items.map fun item => (b.rva, item)).Perm
      (items.map fun item => (item.pageRva groups, item.reloc))

section kept

variable {fmt : RelocFormat} {groups : ℕ → RelocGroup} {n : ℕ} {items : List RelocItem}
  {st : RelocState}

/-- The items of the pages are all items. -/
theorem pages_perm (hfits : ∀ item ∈ items, item.Fits .pe groups n) :
    ((allPages groups n).flatMap fun p => (itemsOf .pe groups items (pageKey p.1 p.2)).map fun item =>
      ((groups p.1).linear + 4096 * p.2, item)).Perm
      (items.map fun item => (item.pageRva groups, item.reloc)) := by
  have hperm := flatMap_filter_perm (RelocItem.page groups) (allPages groups n)
    (allPages_nodup groups n) items fun item hitem => by
      obtain ⟨-, hn, hpage, -⟩ := hfits item hitem
      exact mem_allPages.mpr ⟨hn, hpage⟩
  refine List.Perm.trans (List.Perm.of_eq ?_)
    (hperm.map fun item => (item.pageRva groups, item.reloc))
  rw [List.map_flatMap]
  refine List.flatMap_congr fun p _ => ?_
  unfold itemsOf
  rw [List.map_map, List.filter_congr fun item _ => decide_eq_decide.mpr key_eq_pageKey_iff]
  refine List.map_congr_left fun item hitem => ?_
  obtain ⟨hitem, hp⟩ := List.mem_filter.mp hitem
  obtain ⟨-, -, -, hlinear⟩ := hfits item hitem
  obtain rfl := of_decide_eq_true hp
  unfold RelocItem.pageRva RelocItem.page
  simp only [Function.comp_apply, Prod.mk.injEq, and_true]
  omega

theorem RelocInv.kept (h : RelocInv fmt groups st items) (fill : Byte)
    (hfits : ∀ item ∈ items, item.Fits fmt groups n) : RelocsKept fmt groups n fill items st := by
  choose blocks hholds hitems using h.holds
  have horder : ∀ key, (blocks key).flatten.Perm (itemsOf fmt groups items key) := fun key =>
    (hitems key) ▸ ((List.reverse_perm (blocks key)).symm.flatten)
  refine ⟨fun key => ⟨(blocks key).flatten, horder key, (dumpRelocList_eq (hholds key)).1,
    fun max => dumpChunks_eq max (hholds key), relocSize_eq (hholds key)⟩, ?_⟩
  rintro rfl
  obtain ⟨hout, hsize⟩ := writeFixupInfo_eq fill groups n hholds
  have hlen : ∀ key, ∀ item ∈ (blocks key).flatten, item.length = 2 ∨ item.length = 4 := by
    intro key item hitem
    obtain ⟨r, hr, rfl⟩ := List.mem_map.mp ((horder key).mem_iff.mp hitem)
    exact (hfits r (List.mem_filter.mp hr).1).1
  have hnil : ∀ key, (blocks key).flatten.flatten.length = 0 → (blocks key).flatten = [] := by
    intro key h0
    cases hb : (blocks key).flatten with
    | nil => rfl
    | cons item rest =>
        have h2 := hlen key item (hb ▸ List.mem_cons_self)
        rw [hb, List.flatten_cons, List.length_append] at h0
        omega
  refine ⟨_, hout, ?_, fun b hb => ?_, ?_⟩
  · rw [hout, hsize, List.length_append, List.length_flatMap, List.length_replicate]
    simp only [PeBlock.length_encode]
  · obtain ⟨p, hp, hb⟩ := List.mem_flatMap.mp hb
    unfold pageBlock at hb
    split_ifs at hb with h0
    · cases hb
    · obtain rfl := List.mem_singleton.mp hb
      obtain ⟨item, hitem⟩ : ∃ item, item ∈ (blocks (pageKey p.1 p.2)).flatten :=
        List.exists_mem_of_ne_nil _ fun hz => h0 (by rw [hz]; rfl)
      obtain ⟨r, hr, -⟩ := List.mem_map.mp ((horder _).mem_iff.mp hitem)
      obtain ⟨hmem, hkey⟩ := List.mem_filter.mp hr
      obtain ⟨-, -, -, hlinear⟩ := hfits r hmem
      obtain rfl := key_eq_pageKey_iff.mp (of_decide_eq_true hkey)
      refine ⟨?_, ?_, PeBlock.sizeField_encode fill⟩
      · unfold RelocItem.page
        dsimp only
        omega
      · rw [PeBlock.length_encode]
        exact PeBlock.size_dvd fill (hlen _)
  · refine List.Perm.trans ?_ (pages_perm hfits)
    rw [List.flatMap_assoc]
    refine List.Perm.flatMap_left _ fun p _ => ?_
    have hpage : (pageBlock ((groups p.1).linear + 4096 * p.2)
        (blocks (pageKey p.1 p.2)).flatten).flatMap (fun b => b.items.map fun item => (b.rva, item)) =
        (blocks (pageKey p.1 p.2)).flatten.map fun item =>
          ((groups p.1).linear + 4096 * p.2, item) := by
      unfold pageBlock
      split_ifs with h0
      · rw [hnil _ h0]
        rfl
      · simp
    rw [hpage]
    exact (horder _).map _

end kept

/-- What holds of the items of each step holds of all recorded items. -/
theorem along_split {fmt : RelocFormat} {groups : ℕ → RelocGroup} {q : RelocItem → Prop}
    {st : RelocState} {es : List RelocEvent} (h : Along (RelocState.step fmt groups)
      (fun st e => st.StepOk e ∧ ∀ item ∈ e.items, q item) st es) :
    Along (RelocState.step fmt groups) RelocState.StepOk st es ∧ ∀ item ∈ recordedItems es, q item := by
  induction es generalizing st with
  | nil => exact ⟨trivial, fun item hitem => by cases hitem⟩
  | cons e es ih =>
      obtain ⟨⟨hok, hq⟩, hrest⟩ := h
      obtain ⟨hes, hall⟩ := ih hrest
      refine ⟨⟨hok, hes⟩, fun item hitem => ?_⟩
      rcases List.mem_append.mp hitem with hitem | hitem
      · exact hq item hitem
      · exact hall item hitem

/-- The lists, the output for them and the `.reloc` section of a PE file have all items that were
recorded, after every run that stays clear of the first area of the spill file. -/
theorem relocs_kept (fmt : RelocFormat) (groups : ℕ → RelocGroup) (n : ℕ) (fill : Byte)
    (file : SpillFile) (es : List RelocEvent)
    (h : Along (RelocState.step fmt groups)
      (fun st e => st.StepOk e ∧ ∀ item ∈ e.items, item.Fits fmt groups n) (RelocState.init file) es) :
    RelocsKept fmt groups n fill (recordedItems es)
      (run (RelocState.step fmt groups) (RelocState.init file) es) := by
  obtain ⟨hok, hfits⟩ := along_split h
  exact (relocInv_run (relocInv_init fmt groups file) hok).kept fill hfits

/-- One group of a page. -/
def oneGroup : ℕ → RelocGroup := fun _ => ⟨0, 0x1000, 0x1000, 0x1000, 0⟩

/-- A relocation in the first page of the group. -/
def firstItem : RelocItem := ⟨0, 0x10, [0x10, 0x30]⟩

/-- The first block goes to the spill file, which gives it the area at 0: what is read back for it
is what `TokBuff` held before. -/
theorem not_relocs_kept : ¬ ∀ (file : SpillFile) (es : List RelocEvent),
    (∀ item ∈ recordedItems es, item.Fits .pe oneGroup 1) →
    RelocsKept .pe oneGroup 1 0 (recordedItems es)
      (run (RelocState.step .pe oneGroup) (RelocState.init file) es) := by
  intro hall
  obtain ⟨order, hperm, hdump, -⟩ := (hall (SpillFile.init fun _ => 0xEE) [.write firstItem none]
    (by decide)).list (.page 0 0 0 false)
  have hitems : itemsOf .pe oneGroup (recordedItems [.write firstItem none]) (.page 0 0 0 false) =
      [[0x10, 0x30]] := by decide
  rw [hitems, List.perm_singleton] at hperm
  rw [hperm] at hdump
  revert hdump
  decide +kernel

/-- Two relocations of a page, the first in memory and then spilled behind a page of virtual memory. -/
def spilledRun : List RelocEvent :=
  [.vmAlloc 0x1000, .write firstItem (some fun _ => 0), .swapOut (.page 0 0 0 false),
    .write ⟨0, 0x20, [0x20, 0x30]⟩ none]

theorem relocs_kept_spilledRun : RelocsKept .pe oneGroup 1 0 (recordedItems spilledRun)
    (run (RelocState.step .pe oneGroup)
      (RelocState.init { SpillFile.init fun _ => 0xEE with filesize := 0x200 }) spilledRun) :=
  relocs_kept .pe oneGroup 1 0 _ spilledRun (by
    refine ⟨⟨?_, ?_⟩, ⟨⟨?_, ?_⟩, ?_⟩, ⟨?_, ?_⟩, ⟨⟨?_, ?_⟩, ?_⟩, trivial⟩ <;> decide +kernel)

end OpenWatcom.Wlink
