import OpenWatcom.Lib.Runs
import OpenWatcom.Wlink.EntryTable
import OpenWatcom.Wlink.SpillFile

/-! # The linker's relocation lists

`reloc.c`: the relocations of a load file, in lists of blocks of 512 bytes.  A block is in memory or in the
spill file, and goes there when memory is short.  PE, LE and LX files have a list for each page of a
group (LE and LX two of them), kept in a table of two levels; the other formats have one for each group or section. -/

namespace OpenWatcom.Wlink

/-! ### Blocks -/

/-- Where a block is: in memory, with its contents, or in the spill file. -/
inductive RelocLoc where
  | addr (mem : ℕ → Byte)
  | spill (base : ℕ)

/-- A block of relocations, `reloc_info`. -/
structure RelocInfo where
  sizeleft : ℕ
  loc : RelocLoc

/-- `RELOC_PAGE_SIZE`. -/
def relocPageSize : ℕ := 512

/-- The bytes of the block in use. -/
def RelocInfo.size (info : RelocInfo) : ℕ := relocPageSize - info.sizeleft

/-- `AllocRelocInfo`, where `mem` is the memory that `MemAlloc` finds. -/
def allocRelocInfo (mem : Option (ℕ → Byte)) (f : SpillFile) : RelocInfo × SpillFile :=
  match mem with
  | some mem => (⟨relocPageSize, .addr mem⟩, f)
  | none => (⟨relocPageSize, .spill (f.spillAlloc relocPageSize).1⟩, (f.spillAlloc relocPageSize).2)

/-- The end of `DoWriteReloc`: the item is stored behind what the block holds. -/
def RelocInfo.store (info : RelocInfo) (reloc : List Byte) (f : SpillFile) : RelocInfo × SpillFile :=
  let offset := relocPageSize - info.sizeleft
  match info.loc with
  | .spill base => (⟨info.sizeleft - reloc.length, .spill base⟩, f.spillWrite base offset reloc)
  | .addr mem => (⟨info.sizeleft - reloc.length, .addr (overlay mem offset reloc)⟩, f)

/-- `DoWriteReloc`. -/
def doWriteReloc (mem : Option (ℕ → Byte)) (list : List RelocInfo) (reloc : List Byte)
    (f : SpillFile) : List RelocInfo × SpillFile :=
  match list with
  | [] =>
    let new := allocRelocInfo mem f
    let stored := new.1.store reloc new.2
    ([stored.1], stored.2)
  | info :: rest =>
    if info.sizeleft < reloc.length then
      let new := allocRelocInfo mem f
      let stored := new.1.store reloc new.2
      (stored.1 :: info :: rest, stored.2)
    else
      let stored := info.store reloc f
      (stored.1 :: rest, stored.2)

/-- `SpillRelocList`: the first block that is in memory goes to the spill file. -/
def spillRelocList (f : SpillFile) : List RelocInfo → List RelocInfo × SpillFile
  | [] => ([], f)
  | info :: rest =>
    match info.loc with
    | .addr mem =>
      let stg := f.spillAlloc relocPageSize
      (⟨info.sizeleft, .spill stg.1⟩ :: rest, stg.2.spillWrite stg.1 0 (slice mem 0 info.size))
    | .spill _ =>
      let r := spillRelocList f rest
      (info :: r.1, r.2)

/-- `RelocSize`. -/
def relocSize (list : List RelocInfo) : ℕ := (list.map RelocInfo.size).sum

/-- One round of `DumpMaxRelocList`: the file, and what is written for the block. -/
def RelocInfo.dump (info : RelocInfo) (f : SpillFile) : List Byte × SpillFile :=
  if info.size = 0 then ([], f)
  else
    match info.loc with
    | .spill base =>
      (slice (f.spillRead base 0 info.size).tokBuff 0 info.size, f.spillRead base 0 info.size)
    | .addr mem => (slice mem 0 info.size, f)

/-- `DumpMaxRelocList` from the total so far: the blocks that are left, the total and what is written. -/
def dumpMaxRelocList (max total : ℕ) (f : SpillFile) :
    List RelocInfo → List RelocInfo × ℕ × List Byte × SpillFile
  | [] => ([], total, [], f)
  | list :: rest =>
    if max ≠ 0 ∧ total ≠ 0 ∧ max ≤ total + list.size then (list :: rest, total, [], f)
    else
      let r := dumpMaxRelocList max (total + list.size) (list.dump f).2 rest
      (r.1, r.2.1, (list.dump f).1 ++ r.2.2.1, r.2.2.2)

/-- `DumpRelocList`. -/
def dumpRelocList (list : List RelocInfo) (f : SpillFile) : List Byte × SpillFile :=
  (dumpMaxRelocList 0 0 f list).2.2

/-! ### Lists -/

/-- The kinds of formats: a list for each page (`MK_PE`), two for each page (`MK_OS2_FLAT`, `MK_WIN_VXD`),
one for each group (`MK_OS2_NE`, `MK_WIN_NE`, `MK_ELF`) or one for each section. -/
inductive RelocFormat where
  | pe | flat | group | section
  deriving DecidableEq, Repr

/-- What the relocation lists need of a `group_entry`: its address, its size with and without the
uninitialised parts, and its section. -/
structure RelocGroup where
  off : ℕ
  linear : ℕ
  size : ℕ
  totalsize : ℕ
  sect : ℕ
  deriving DecidableEq, Repr

/-- `OSF_PAGE_COUNT`. -/
def pageCount (size : ℕ) : ℕ := (size + 4095) / 4096

/-- `OSF_RLIDX_HIGH`, `OSF_RLIDX_LOW` and `OSF_RLIDX_MAX`. -/
def rlidxHigh (val : ℕ) : ℕ := val / 1024
def rlidxLow (val : ℕ) : ℕ := val % 1024
def rlidxMax : ℕ := 1024

/-- The head of a list: in the table of a group, or the one of a group or section. -/
inductive ListKey where
  | page (group high low : ℕ) (internals : Bool)
  | group (group : ℕ)
  | sect (sect : ℕ)
  deriving DecidableEq, Repr

/-- The relocation goes to the internal ones: `OSF_TARGET_INTERNAL`, of a type `OSF_SOURCE_OFF_…`. -/
def isInternal (reloc : List Byte) : Bool :=
  reloc[1]?.any (fun flags => flags &&& 3 == 0) &&
    reloc[0]?.any (fun stype => stype == 5 || stype == 7 || stype == 8)

/-- The list that `WriteReloc` picks for an item at `off`. -/
def relocHeader (fmt : RelocFormat) (g : ℕ) (group : RelocGroup) (off : ℕ) (reloc : List Byte) :
    ListKey :=
  let idx := (off - group.off) / 4096
  match fmt with
  | .pe => .page g (rlidxHigh idx) (rlidxLow idx) false
  | .flat => .page g (rlidxHigh idx) (rlidxLow idx) (isInternal reloc)
  | .group => .group g
  | .section => .sect group.sect

/-- The relocation lists, the spill file, and the areas of it that the pages of virtual memory have. -/
structure RelocState where
  lists : ListKey → List RelocInfo
  file : SpillFile
  vm : List (ℕ × ℕ)

/-- Before the first relocation. -/
def RelocState.init (file : SpillFile) : RelocState := ⟨fun _ => [], file, []⟩

/-- A relocation: the number of its group, its offset and the item. -/
structure RelocItem where
  group : ℕ
  off : ℕ
  reloc : List Byte
  deriving DecidableEq, Repr

/-- What happens: a relocation is recorded, with the memory there is for a new block; a list is
made to spill (`SwapOutRelocs` does this to one list after another until a block has been
spilled); and the virtual memory uses the spill file. -/
inductive RelocEvent where
  | write (item : RelocItem) (mem : Option (ℕ → Byte))
  | swapOut (key : ListKey)
  | vmAlloc (amt : ℕ)
  | vmWrite (base off : ℕ) (data : List Byte)
  | vmRead (base off len : ℕ)

section machine

variable (fmt : RelocFormat) (groups : ℕ → RelocGroup)

/-- The list of an item. -/
def RelocItem.key (item : RelocItem) : ListKey :=
  relocHeader fmt item.group (groups item.group) item.off item.reloc

def RelocState.step (st : RelocState) : RelocEvent → RelocState
  | .write item mem =>
    let key := item.key fmt groups
    let r := doWriteReloc mem (st.lists key) item.reloc st.file
    { st with lists := Function.update st.lists key r.1, file := r.2 }
  | .swapOut key =>
    let r := spillRelocList st.file (st.lists key)
    { st with lists := Function.update st.lists key r.1, file := r.2 }
  | .vmAlloc amt =>
    let stg := st.file.spillAlloc amt
    { st with file := stg.2, vm := (stg.1, amt) :: st.vm }
  | .vmWrite base off data => { st with file := st.file.spillWrite base off data }
  | .vmRead base off len => { st with file := st.file.spillRead base off len }

/-- The items recorded by an event, and by a run. -/
def RelocEvent.items : RelocEvent → List RelocItem
  | .write item _ => [item]
  | _ => []

def recordedItems (es : List RelocEvent) : List RelocItem := es.flatMap RelocEvent.items

/-- The step does not use an area of the spill file at 0, nor one that is not there; the virtual
memory writes to its own areas; an item fits a block. -/
def RelocState.StepOk (st : RelocState) : RelocEvent → Prop
  | .write item mem => item.reloc.length ≤ relocPageSize ∧
      (mem.isNone → st.file.AllocOk relocPageSize)
  | .swapOut _ => st.file.AllocOk relocPageSize
  | .vmAlloc amt => st.file.AllocOk amt
  | .vmWrite base off data => 0 < base ∧ ∃ a ∈ st.vm, a.1 = base ∧ off + data.length ≤ a.2
  | .vmRead _ _ _ => True

instance (st : RelocState) (e : RelocEvent) : Decidable (st.StepOk e) := by
  cases e <;> unfold RelocState.StepOk <;> infer_instance

end machine

/-! ### What a block holds -/

/-- The block holds these bytes.  A block in the spill file has its own sector there, which is not the
first. -/
structure RelocInfo.Holds (f : SpillFile) (info : RelocInfo) (bytes : List Byte) : Prop where
  size : info.sizeleft + bytes.length = relocPageSize
  addr : ∀ mem, info.loc = .addr mem → slice mem 0 bytes.length = bytes
  spill : ∀ base, info.loc = .spill base → 0 < base ∧ base % 512 = 0 ∧
    base + relocPageSize ≤ f.filesize ∧
    (0 < bytes.length → base - 1 + bytes.length ≤ f.length) ∧
    slice f.bytes (base - 1) bytes.length = bytes

/-- The places of the blocks in the spill file. -/
def RelocInfo.base? (info : RelocInfo) : Option ℕ :=
  match info.loc with
  | .addr _ => none
  | .spill base => some base

def bases (list : List RelocInfo) : List ℕ := list.filterMap RelocInfo.base?

/-- The sector of the spill file at `base`, as positions in the file. -/
def InSector (base q : ℕ) : Prop := base ≤ q + 1 ∧ q + 1 < base + relocPageSize

/-- From `f` to `f'` the spill file has grown, and changed at most in the sectors at `bs`. -/
structure Touches (bs : List ℕ) (f f' : SpillFile) : Prop where
  filesize : f.filesize ≤ f'.filesize
  length : f.length ≤ f'.length
  bytes : ∀ q, (∀ b ∈ bs, ¬ InSector b q) → f'.bytes q = f.bytes q

theorem Touches.refl (bs : List ℕ) (f : SpillFile) : Touches bs f f :=
  ⟨le_rfl, le_rfl, fun _ _ => rfl⟩

theorem Touches.trans {bs : List ℕ} {f f' f'' : SpillFile} (h : Touches bs f f')
    (h' : Touches bs f' f'') : Touches bs f f'' :=
  ⟨h.filesize.trans h'.filesize, h.length.trans h'.length,
    fun q hq => (h'.bytes q hq).trans (h.bytes q hq)⟩

theorem Touches.mono {bs cs : List ℕ} {f f' : SpillFile} (h : Touches bs f f')
    (hsub : ∀ b ∈ bs, b ∈ cs) : Touches cs f f' :=
  ⟨h.filesize, h.length, fun q hq => h.bytes q fun b hb => hq b (hsub b hb)⟩

/-- A block keeps what it holds if its sector keeps its bytes. -/
theorem RelocInfo.Holds.of_sector {f f' : SpillFile} {info : RelocInfo} {bytes : List Byte}
    (h : info.Holds f bytes) (hfs : f.filesize ≤ f'.filesize) (hlen : f.length ≤ f'.length)
    (hsame : ∀ base, info.loc = .spill base → ∀ q, InSector base q → f'.bytes q = f.bytes q) :
    info.Holds f' bytes := by
  refine ⟨h.size, h.addr, fun base hbase => ?_⟩
  obtain ⟨hpos, hmod, hfs', hlen', hbytes⟩ := h.spill base hbase
  have hsize := h.size
  refine ⟨hpos, hmod, hfs'.trans hfs, fun h0 => (hlen' h0).trans hlen, ?_⟩
  rw [← hbytes, slice_length]
  refine slice_congr fun q hq hq' => hsame base hbase q ?_
  unfold InSector
  omega

/-- Different sectors have no byte in common. -/
theorem not_inSector {b base q : ℕ} (hb : b % 512 = 0) (hbase : base % 512 = 0) (hne : b ≠ base)
    (h : InSector base q) : ¬ InSector b q := by
  unfold InSector relocPageSize at *
  omega

/-- A block keeps what it holds if its sector is not touched. -/
theorem RelocInfo.Holds.of_touches {bs : List ℕ} {f f' : SpillFile} {info : RelocInfo}
    {bytes : List Byte} (h : info.Holds f bytes) (ht : Touches bs f f')
    (hno : ∀ base, info.loc = .spill base → ∀ b ∈ bs, b % 512 = 0 ∧ b ≠ base) :
    info.Holds f' bytes := by
  refine h.of_sector ht.filesize ht.length fun base hbase q hq => ht.bytes q fun b hb => ?_
  obtain ⟨hmod, hne⟩ := hno base hbase b hb
  exact not_inSector hmod (h.spill base hbase).2.1 hne hq

/-- A new block holds nothing. -/
theorem allocRelocInfo_spec (mem : Option (ℕ → Byte)) {f : SpillFile}
    (hok : mem.isNone → f.AllocOk relocPageSize) :
    (allocRelocInfo mem f).1.Holds (allocRelocInfo mem f).2 [] ∧
      Touches [] f (allocRelocInfo mem f).2 ∧
      ∀ base, (allocRelocInfo mem f).1.loc = .spill base → f.filesize ≤ base ∧ base % 512 = 0 := by
  cases mem with
  | some mem =>
      refine ⟨⟨rfl, fun _ _ => rfl, ?_⟩, Touches.refl _ _, ?_⟩ <;>
        · intro base hbase
          cases hbase
  | none =>
      obtain ⟨hle, hpos, hmod, hfs⟩ := SpillFile.spillAlloc_of_ok (hok rfl)
      obtain ⟨hbytes, hlen⟩ := SpillFile.spillAlloc_file f relocPageSize
      unfold allocRelocInfo
      dsimp only
      generalize (f.spillAlloc relocPageSize).1 = stg at *
      generalize (f.spillAlloc relocPageSize).2 = f' at *
      refine ⟨⟨rfl, fun mem hmem => (by cases hmem), fun base hbase => ?_⟩,
        ⟨by omega, hlen.ge, fun q _ => by rw [hbytes]⟩, fun base hbase => ?_⟩
      · obtain rfl := RelocLoc.spill.inj hbase
        exact ⟨hpos, hmod, hfs.ge, fun h0 => absurd h0 (lt_irrefl 0), rfl⟩
      · obtain rfl := RelocLoc.spill.inj hbase
        exact ⟨hle, hmod⟩

/-- What `Touches` says of a write to the sector at `base`. -/
theorem touches_spillWrite {f : SpillFile} {base : ℕ} (off : ℕ) (hpos : 0 < base) {data : List Byte}
    (hroom : off + data.length ≤ relocPageSize) : Touches [base] f (f.spillWrite base off data) := by
  obtain ⟨hbytes, hlength, hfilesize⟩ := SpillFile.spillWrite_bytes (f := f) off hpos data
  refine ⟨hfilesize.ge, hlength ▸ le_max_left _ _, fun q hq => ?_⟩
  have hno := hq base (List.mem_singleton.mpr rfl)
  unfold InSector at hno
  rw [hbytes]
  by_cases hlt : q < base - 1 + off
  · exact overlay_of_lt hlt
  · exact overlay_of_ge (by omega)

/-- Storing an item that fits. -/
theorem store_spec {f : SpillFile} {info : RelocInfo} {bytes reloc : List Byte}
    (h : info.Holds f bytes) (hfit : reloc.length ≤ info.sizeleft) :
    (info.store reloc f).1.Holds (info.store reloc f).2 (bytes ++ reloc) ∧
      (info.store reloc f).1.base? = info.base? ∧
      Touches info.base?.toList f (info.store reloc f).2 := by
  obtain ⟨sizeleft, loc⟩ := info
  have hsize := h.size
  dsimp only at hsize hfit
  have hoff : relocPageSize - sizeleft = bytes.length := by omega
  unfold RelocInfo.store
  dsimp only
  rw [hoff]
  cases loc with
  | addr mem =>
      dsimp only
      refine ⟨⟨?_, fun mem' hmem => ?_, fun base hbase => by cases hbase⟩, rfl, Touches.refl _ _⟩
      · rw [List.length_append]
        dsimp only
        omega
      · obtain rfl := RelocLoc.addr.inj hmem
        have hold : slice (overlay mem bytes.length reloc) 0 bytes.length = bytes := by
          have := h.addr mem rfl
          rw [slice_congr fun q _ hq => overlay_of_lt (by omega)]
          exact this
        rw [List.length_append, slice_add, hold, Nat.zero_add, slice_overlay_self]
  | spill base =>
      obtain ⟨hpos, hmod, hfs, hlen, hbytes⟩ := h.spill base rfl
      obtain ⟨hwbytes, hwlength, hwfilesize⟩ :=
        SpillFile.spillWrite_bytes (f := f) bytes.length hpos reloc
      dsimp only
      refine ⟨⟨?_, fun mem' hmem => (by cases hmem), fun base' hbase => ?_⟩, rfl,
        touches_spillWrite _ hpos (by omega)⟩
      · rw [List.length_append]
        dsimp only
        omega
      · obtain rfl := RelocLoc.spill.inj hbase
        refine ⟨hpos, hmod, by rw [hwfilesize]; exact hfs, fun _ => ?_, ?_⟩
        · rw [hwlength, List.length_append]
          omega
        · rw [hwbytes, List.length_append, slice_add, slice_overlay_self,
            slice_congr fun q _ hq => overlay_of_lt hq, hbytes]

/-- A list holds the items of its blocks. -/
def ListHolds (f : SpillFile) (list : List RelocInfo) (blocks : List (List (List Byte))) : Prop :=
  List.Forall₂ (fun info items => RelocInfo.Holds f info items.flatten) list blocks

theorem base?_eq_some {info : RelocInfo} {base : ℕ} :
    info.base? = some base ↔ info.loc = .spill base := by
  unfold RelocInfo.base?
  split
  · rename_i mem hloc
    simp [hloc]
  · rename_i b hloc
    simp [hloc]

theorem mem_bases {list : List RelocInfo} {base : ℕ} :
    base ∈ bases list ↔ ∃ info ∈ list, info.loc = .spill base := by
  unfold bases
  simp only [List.mem_filterMap, base?_eq_some]

theorem ListHolds.of_info {f f' : SpillFile} {list : List RelocInfo}
    {blocks : List (List (List Byte))} (h : ListHolds f list blocks)
    (hinfo : ∀ info ∈ list, ∀ bytes, RelocInfo.Holds f info bytes → RelocInfo.Holds f' info bytes) :
    ListHolds f' list blocks := by
  induction h with
  | nil => exact List.Forall₂.nil
  | cons hhead hrest ih =>
      exact List.Forall₂.cons (hinfo _ List.mem_cons_self _ hhead)
        (ih fun info hmem => hinfo info (List.mem_cons_of_mem _ hmem))

theorem ListHolds.of_touches {bs : List ℕ} {f f' : SpillFile} {list : List RelocInfo}
    {blocks : List (List (List Byte))} (h : ListHolds f list blocks) (ht : Touches bs f f')
    (hno : ∀ base ∈ bases list, ∀ b ∈ bs, b % 512 = 0 ∧ b ≠ base) : ListHolds f' list blocks :=
  h.of_info fun info hinfo _ hholds => hholds.of_touches ht fun base hbase =>
    hno base (mem_bases.mpr ⟨info, hinfo, hbase⟩)

theorem ListHolds.of_mem {f : SpillFile} {list : List RelocInfo} {blocks : List (List (List Byte))}
    (h : ListHolds f list blocks) {base : ℕ} (hb : base ∈ bases list) :
    0 < base ∧ base % 512 = 0 ∧ base + relocPageSize ≤ f.filesize := by
  obtain ⟨info, hinfo, hbase⟩ := mem_bases.mp hb
  induction h with
  | nil => cases hinfo
  | cons hhead hrest ih =>
      rcases List.mem_cons.mp hinfo with rfl | hinfo
      · obtain ⟨hpos, hmod, hfs, -⟩ := hhead.spill base hbase
        exact ⟨hpos, hmod, hfs⟩
      · exact ih (mem_bases.mpr ⟨info, hinfo, hbase⟩) hinfo

theorem bases_cons (info : RelocInfo) (list : List RelocInfo) :
    bases (info :: list) = info.base?.toList ++ bases list := by
  unfold bases
  rw [List.filterMap_cons]
  cases info.base? <;> rfl

/-- Writing an item adds it to the items of the newest block, or as a block of its own. -/
theorem doWriteReloc_spec (mem : Option (ℕ → Byte)) {f : SpillFile} {list : List RelocInfo}
    {reloc : List Byte} {blocks : List (List (List Byte))} (h : ListHolds f list blocks)
    (hnodup : (bases list).Nodup) (hfit : reloc.length ≤ relocPageSize)
    (hok : mem.isNone → f.AllocOk relocPageSize) :
    (∃ blocks', ListHolds (doWriteReloc mem list reloc f).2 (doWriteReloc mem list reloc f).1 blocks' ∧
      blocks'.reverse.flatten = blocks.reverse.flatten ++ [reloc]) ∧
    Touches (bases (doWriteReloc mem list reloc f).1) f (doWriteReloc mem list reloc f).2 ∧
    (bases (doWriteReloc mem list reloc f).1 = bases list ∨
      ∃ base, f.filesize ≤ base ∧ base % 512 = 0 ∧
        bases (doWriteReloc mem list reloc f).1 = base :: bases list) := by
  -- an item in a new block
  have hnew : ∀ {g : SpillFile} {info : RelocInfo}, g = (allocRelocInfo mem f).2 →
      info = (allocRelocInfo mem f).1 →
      ListHolds (info.store reloc g).2 ((info.store reloc g).1 :: list) ([reloc] :: blocks) ∧
      Touches (bases ((info.store reloc g).1 :: list)) f (info.store reloc g).2 ∧
      (bases ((info.store reloc g).1 :: list) = bases list ∨
        ∃ base, f.filesize ≤ base ∧ base % 512 = 0 ∧
          bases ((info.store reloc g).1 :: list) = base :: bases list) := by
    rintro g info rfl rfl
    obtain ⟨hempty, htalloc, hbase⟩ := allocRelocInfo_spec mem hok
    have hsize := hempty.size
    rw [List.length_nil, Nat.add_zero] at hsize
    obtain ⟨hstored, hsame, htstore⟩ := store_spec hempty (hsize ▸ hfit)
    rw [List.nil_append] at hstored
    have hfresh : ∀ base ∈ (allocRelocInfo mem f).1.base?.toList, f.filesize ≤ base ∧
        base % 512 = 0 := by
      intro base hb
      exact hbase base (base?_eq_some.mp (Option.mem_toList.mp hb))
    have ht : Touches (allocRelocInfo mem f).1.base?.toList f
        ((allocRelocInfo mem f).1.store reloc (allocRelocInfo mem f).2).2 :=
      (htalloc.mono fun b hb => by cases hb).trans htstore
    refine ⟨List.Forall₂.cons (by simpa using hstored) (h.of_touches ht fun base hb b hb' => ?_),
      ht.mono fun b hb => ?_, ?_⟩
    · have := (h.of_mem hb).2.2
      have := hfresh b hb'
      unfold relocPageSize at *
      omega
    · rw [bases_cons, hsame]
      exact List.mem_append_left _ hb
    · rw [bases_cons, hsame]
      cases hb : (allocRelocInfo mem f).1.base? with
      | none => exact Or.inl rfl
      | some base =>
          obtain ⟨h1, h2⟩ := hfresh base (by simp [hb])
          exact Or.inr ⟨base, h1, h2, rfl⟩
  unfold doWriteReloc
  cases h with
  | nil =>
      obtain ⟨h1, h2, h3⟩ := hnew rfl rfl
      exact ⟨⟨_, h1, rfl⟩, h2, h3⟩
  | @cons info items rest blocks hinfo hrest =>
      dsimp only
      split_ifs with hfull
      · obtain ⟨h1, h2, h3⟩ := hnew rfl rfl
        refine ⟨⟨_, h1, ?_⟩, h2, h3⟩
        rw [List.reverse_cons, List.flatten_append]
        rfl
      · obtain ⟨hstored, hsame, htstore⟩ := store_spec hinfo (not_lt.mp hfull)
        rw [bases_cons] at hnodup
        refine ⟨⟨(items ++ [reloc]) :: blocks, List.Forall₂.cons (by simpa using hstored)
          (ListHolds.of_touches hrest htstore fun base hb b hb' => ?_), ?_⟩, ?_, ?_⟩
        · have hloc := base?_eq_some.mp (Option.mem_toList.mp hb')
          refine ⟨(hinfo.spill b hloc).2.1, ?_⟩
          rintro rfl
          exact List.disjoint_of_nodup_append hnodup hb' hb
        · simp
        · refine htstore.mono fun b hb => ?_
          rw [bases_cons, hsame]
          exact List.mem_append_left _ hb
        · rw [bases_cons, bases_cons, hsame]
          exact Or.inl rfl

/-- Putting a block in the spill file keeps what the list holds. -/
theorem spillRelocList_spec {f : SpillFile} (hok : f.AllocOk relocPageSize) {list : List RelocInfo}
    {blocks : List (List (List Byte))} (h : ListHolds f list blocks) (hnodup : (bases list).Nodup) :
    ListHolds (spillRelocList f list).2 (spillRelocList f list).1 blocks ∧
      Touches (bases (spillRelocList f list).1) f (spillRelocList f list).2 ∧
      (bases (spillRelocList f list).1 = bases list ∨
        ∃ base, f.filesize ≤ base ∧ base % 512 = 0 ∧
          (bases (spillRelocList f list).1).Perm (base :: bases list)) := by
  induction list generalizing blocks with
  | nil => exact ⟨h, Touches.refl _ _, Or.inl rfl⟩
  | cons info list ih =>
      obtain ⟨sizeleft, loc⟩ := info
      cases h with
      | @cons _ items _ blocks hinfo hrest =>
          cases loc with
          | addr mem =>
              obtain ⟨hle, hpos, hmod, hfs⟩ := SpillFile.spillAlloc_of_ok hok
              obtain ⟨hbytes, hlen⟩ := SpillFile.spillAlloc_file f relocPageSize
              have hsize := hinfo.size
              have hmem := hinfo.addr mem rfl
              have hused : RelocInfo.size ⟨sizeleft, .addr mem⟩ = items.flatten.length := by
                unfold RelocInfo.size
                dsimp only at hsize ⊢
                omega
              unfold spillRelocList
              dsimp only
              rw [hused, hmem]
              generalize (f.spillAlloc relocPageSize).1 = stg at *
              generalize (f.spillAlloc relocPageSize).2 = f' at *
              obtain ⟨hwbytes, hwlength, hwfilesize⟩ :=
                SpillFile.spillWrite_bytes (f := f') 0 hpos items.flatten
              have ht : Touches [stg] f (f'.spillWrite stg 0 items.flatten) := by
                have hw : Touches [stg] f' (f'.spillWrite stg 0 items.flatten) :=
                  touches_spillWrite 0 hpos (by omega)
                exact ⟨by omega, by rw [← hlen]; exact hw.length, fun q hq => by
                  rw [hw.bytes q hq, hbytes]⟩
              have hbases : bases (⟨sizeleft, .spill stg⟩ :: list) = stg :: bases list := bases_cons _ _
              refine ⟨List.Forall₂.cons ⟨hsize, fun mem hmem => (by cases hmem), fun base hbase => ?_⟩
                (ListHolds.of_touches hrest ht fun base hb b hb' => ?_), ht.mono fun b hb => ?_, ?_⟩
              · obtain rfl := RelocLoc.spill.inj hbase
                refine ⟨hpos, hmod, by omega, fun _ => by rw [hwlength]; omega, ?_⟩
                rw [hwbytes, Nat.add_zero, slice_overlay_self]
              · have := (ListHolds.of_mem hrest hb).2.2
                rw [List.mem_singleton.mp hb']
                unfold relocPageSize at *
                omega
              · rw [hbases, List.mem_singleton.mp hb]
                exact List.mem_cons_self
              · rw [hbases]
                exact Or.inr ⟨stg, hle, hmod, List.Perm.refl _⟩
          | spill base =>
              have hbases : ∀ l, bases (⟨sizeleft, .spill base⟩ :: l) = base :: bases l :=
                fun l => bases_cons _ _
              rw [hbases, List.nodup_cons] at hnodup
              obtain ⟨h1, h2, h3⟩ := ih hrest hnodup.2
              have hfs := (hinfo.spill base rfl).2.2.1
              unfold spillRelocList
              dsimp only
              rw [hbases, hbases]
              refine ⟨List.Forall₂.cons (hinfo.of_touches h2 fun base' hbase b hb => ?_) h1,
                h2.mono fun b hb => List.mem_cons_of_mem _ hb, ?_⟩
              · obtain rfl := RelocLoc.spill.inj hbase
                refine ⟨(h1.of_mem hb).2.1, ?_⟩
                rintro rfl
                rcases h3 with heq | ⟨new, hnew, -, hperm⟩
                · exact hnodup.1 (heq ▸ hb)
                · rcases List.mem_cons.mp (hperm.mem_iff.mp hb) with rfl | hb
                  · unfold relocPageSize at hfs
                    omega
                  · exact hnodup.1 hb
              · rcases h3 with heq | ⟨new, hnew, hmod, hperm⟩
                · exact Or.inl (by rw [heq])
                · exact Or.inr ⟨new, hnew, hmod, (hperm.cons base).trans (List.Perm.swap _ _ _)⟩

/-- What the blocks of a list contribute to the output. -/
theorem dump_spec {f : SpillFile} {info : RelocInfo} {bytes : List Byte} (h : info.Holds f bytes) :
    (info.dump f).1 = bytes ∧ Touches [] f (info.dump f).2 ∧ info.size = bytes.length := by
  have hsize := h.size
  have hlen : info.size = bytes.length := by
    unfold RelocInfo.size
    omega
  unfold RelocInfo.dump
  rw [hlen]
  split_ifs with h0
  · exact ⟨(List.length_eq_zero_iff.mp h0).symm, Touches.refl _ _, rfl⟩
  · split
    · rename_i base hloc
      obtain ⟨hpos, -, -, hin, hbytes⟩ := h.spill base hloc
      obtain ⟨hfb, hfl, hff⟩ := SpillFile.spillRead_file f base 0 bytes.length
      have hread := SpillFile.spillRead_tokBuff (f := f) 0 bytes.length hpos
        (hin (Nat.pos_of_ne_zero h0))
      refine ⟨hread.trans hbytes, ⟨hff.ge, hfl.ge, fun q _ => by rw [hfb]⟩, rfl⟩
    · rename_i mem hloc
      exact ⟨h.addr mem hloc, Touches.refl _ _, rfl⟩

/-- `DumpMaxRelocList` writes the items of the first blocks, of at least one if there is one, and
leaves the other blocks. -/
theorem dumpMaxRelocList_spec (max : ℕ) {f : SpillFile} {list : List RelocInfo}
    {blocks : List (List (List Byte))} (h : ListHolds f list blocks) (total : ℕ) :
    ∃ done left, blocks = done ++ left ∧
      ListHolds (dumpMaxRelocList max total f list).2.2.2 (dumpMaxRelocList max total f list).1 left ∧
      (dumpMaxRelocList max total f list).2.1 = total + done.flatten.flatten.length ∧
      (dumpMaxRelocList max total f list).2.2.1 = done.flatten.flatten ∧
      Touches [] f (dumpMaxRelocList max total f list).2.2.2 ∧
      (max = 0 → left = []) ∧ (total = 0 → done = [] → left = []) := by
  induction list generalizing blocks f total with
  | nil =>
      cases h
      exact ⟨[], [], rfl, List.Forall₂.nil, rfl, rfl, Touches.refl _ _, fun _ => rfl, fun _ _ => rfl⟩
  | cons info list ih =>
      cases h with
      | @cons _ items _ blocks hinfo hrest =>
          obtain ⟨hdump, htouch, hsize⟩ := dump_spec hinfo
          rw [dumpMaxRelocList]
          split_ifs with hstop
          · refine ⟨[], items :: blocks, rfl, List.Forall₂.cons hinfo hrest, rfl, rfl,
              Touches.refl _ _, fun h0 => absurd h0 hstop.1, fun h0 => absurd h0 hstop.2.1⟩
          · dsimp only
            obtain ⟨done, left, rfl, hleft, htotal, hout, ht, hmax, -⟩ :=
              ih (ListHolds.of_touches hrest htouch fun _ _ b hb => by cases hb) (total + info.size)
            refine ⟨items :: done, left, rfl, hleft, ?_, ?_, htouch.trans ht, hmax, fun _ h0 => ?_⟩
            · rw [htotal, hsize]
              simp only [List.flatten_cons, List.flatten_append, List.length_append]
              omega
            · rw [hout, hdump]
              simp
            · cases h0

/-! ### Runs -/

section machine

variable (fmt : RelocFormat) (groups : ℕ → RelocGroup)

/-- The items of a list, in the order they were recorded. -/
def itemsOf (items : List RelocItem) (key : ListKey) : List (List Byte) :=
  (items.filter fun item => item.key fmt groups = key).map RelocItem.reloc

/-- Each list holds its items, and each block and each page of virtual memory in the spill file
has its own place. -/
structure RelocInv (st : RelocState) (items : List RelocItem) : Prop where
  holds : ∀ key, ∃ blocks, ListHolds st.file (st.lists key) blocks ∧
    blocks.reverse.flatten = itemsOf fmt groups items key
  nodup : ∀ key, (bases (st.lists key)).Nodup
  apart : ∀ key key', key ≠ key' → ∀ b ∈ bases (st.lists key), b ∉ bases (st.lists key')
  vm : ∀ a ∈ st.vm, a.1 + a.2 ≤ st.file.filesize ∧
    ∀ key, ∀ b ∈ bases (st.lists key), a.1 + a.2 ≤ b ∨ b + relocPageSize ≤ a.1

theorem relocInv_init (file : SpillFile) : RelocInv fmt groups (RelocState.init file) [] := by
  refine ⟨fun key => ⟨[], List.Forall₂.nil, rfl⟩, fun _ => List.nodup_nil, ?_, ?_⟩
  · intro key key' _ b hb
    cases hb
  · intro a ha
    cases ha

variable {fmt groups}

/-- A change of one list keeps the invariant if it changes the file in that list's sectors only,
and adds at most one sector behind what is allocated. -/
theorem RelocInv.update {st : RelocState} {items items' : List RelocItem} (h : RelocInv fmt groups st items)
    {key : ListKey} {list : List RelocInfo} {file : SpillFile} {blocks : List (List (List Byte))}
    (hlist : ListHolds file list blocks)
    (hitems : blocks.reverse.flatten = itemsOf fmt groups items' key)
    (hothers : ∀ key', key' ≠ key → itemsOf fmt groups items' key' = itemsOf fmt groups items key')
    (ht : Touches (bases list) st.file file)
    (hbases : bases list = bases (st.lists key) ∨ ∃ base, st.file.filesize ≤ base ∧ base % 512 = 0 ∧
      (bases list).Perm (base :: bases (st.lists key))) :
    RelocInv fmt groups { st with lists := Function.update st.lists key list, file := file }
      items' := by
  have hmem : ∀ b ∈ bases list, b ∈ bases (st.lists key) ∨ st.file.filesize ≤ b := by
    intro b hb
    rcases hbases with heq | ⟨base, hle, -, hperm⟩
    · exact Or.inl (heq ▸ hb)
    · rcases List.mem_cons.mp (hperm.mem_iff.mp hb) with rfl | hb
      · exact Or.inr hle
      · exact Or.inl hb
  have hfs : ∀ key', ∀ b ∈ bases (st.lists key'), b + relocPageSize ≤ st.file.filesize := by
    intro key' b hb
    obtain ⟨blocks, hholds, -⟩ := h.holds key'
    exact (hholds.of_mem hb).2.2
  -- the sectors of the other lists are not among those of the list
  have hapart : ∀ key', key' ≠ key → ∀ b ∈ bases (st.lists key'), b ∉ bases list := by
    intro key' hne b hb hb'
    rcases hmem b hb' with hold | hnew
    · exact h.apart key' key hne b hb hold
    · have := hfs key' b hb
      unfold relocPageSize at this
      omega
  refine ⟨fun key' => ?_, fun key' => ?_, fun k₁ k₂ hne b hb hb' => ?_, fun a ha => ?_⟩
  · dsimp only
    by_cases hk : key' = key
    · subst hk
      rw [Function.update_self]
      exact ⟨blocks, hlist, hitems⟩
    · obtain ⟨blocks', hholds, heq⟩ := h.holds key'
      rw [Function.update_of_ne hk, hothers key' hk]
      refine ⟨blocks', hholds.of_touches ht fun base hb b hb' => ⟨(hlist.of_mem hb').2.1, ?_⟩, heq⟩
      rintro rfl
      exact hapart key' hk b hb hb'
  · dsimp only
    by_cases hk : key' = key
    · subst hk
      rw [Function.update_self]
      rcases hbases with heq | ⟨base, hle, -, hperm⟩
      · rw [heq]
        exact h.nodup key'
      · refine hperm.nodup_iff.mpr (List.nodup_cons.mpr ⟨fun hb => ?_, h.nodup key'⟩)
        have := hfs key' base hb
        unfold relocPageSize at this
        omega
    · rw [Function.update_of_ne hk]
      exact h.nodup key'
  · dsimp only at hb hb'
    by_cases h₁ : k₁ = key
    · subst h₁
      rw [Function.update_self] at hb
      rw [Function.update_of_ne hne.symm] at hb'
      exact hapart k₂ hne.symm b hb' hb
    · rw [Function.update_of_ne h₁] at hb
      by_cases h₂ : k₂ = key
      · subst h₂
        rw [Function.update_self] at hb'
        exact hapart k₁ h₁ b hb hb'
      · rw [Function.update_of_ne h₂] at hb'
        exact h.apart k₁ k₂ hne b hb hb'
  · obtain ⟨hsize, hvm⟩ := h.vm a ha
    refine ⟨hsize.trans ht.filesize, fun key' b hb => ?_⟩
    dsimp only at hb
    by_cases hk : key' = key
    · subst hk
      rw [Function.update_self] at hb
      rcases hmem b hb with hold | hnew
      · exact hvm key' b hold
      · exact Or.inl (hsize.trans hnew)
    · rw [Function.update_of_ne hk] at hb
      exact hvm key' b hb

/-- What the virtual memory does in the spill file keeps the invariant, if it stays in its places. -/
theorem RelocInv.ofFile {st : RelocState} {items : List RelocItem} (h : RelocInv fmt groups st items)
    {file : SpillFile} {vm : List (ℕ × ℕ)} (hfs : st.file.filesize ≤ file.filesize)
    (hlen : st.file.length ≤ file.length)
    (hbytes : ∀ key, ∀ b ∈ bases (st.lists key), ∀ q, InSector b q → file.bytes q = st.file.bytes q)
    (hvm : ∀ a ∈ vm, a ∈ st.vm ∨ st.file.filesize ≤ a.1 ∧ a.1 + a.2 ≤ file.filesize) :
    RelocInv fmt groups { st with file := file, vm := vm } items := by
  refine ⟨fun key => ?_, h.nodup, h.apart, fun a ha => ?_⟩
  · obtain ⟨blocks, hholds, heq⟩ := h.holds key
    refine ⟨blocks, hholds.of_info fun info hinfo _ hh => hh.of_sector hfs hlen ?_, heq⟩
    exact fun base hbase => hbytes key base (mem_bases.mpr ⟨info, hinfo, hbase⟩)
  · rcases hvm a ha with hold | ⟨hle, hroom⟩
    · obtain ⟨hsize, hplace⟩ := h.vm a hold
      exact ⟨hsize.trans hfs, hplace⟩
    · refine ⟨hroom, fun key b hb => Or.inr ?_⟩
      obtain ⟨blocks, hholds, -⟩ := h.holds key
      exact (hholds.of_mem hb).2.2.trans hle

/-- The items of a list after one more. -/
theorem itemsOf_append (items : List RelocItem) (item : RelocItem) (key : ListKey) :
    itemsOf fmt groups (items ++ [item]) key =
      itemsOf fmt groups items key ++ if item.key fmt groups = key then [item.reloc] else [] := by
  unfold itemsOf
  rw [List.filter_append, List.map_append]
  split_ifs with h <;> simp [h]

theorem relocInv_step {st : RelocState} {items : List RelocItem} (h : RelocInv fmt groups st items)
    {e : RelocEvent} (hok : st.StepOk e) :
    RelocInv fmt groups (st.step fmt groups e) (items ++ e.items) := by
  cases e with
  | write item mem =>
      obtain ⟨hfit, halloc⟩ := hok
      obtain ⟨blocks, hholds, hitems⟩ := h.holds (item.key fmt groups)
      obtain ⟨⟨blocks', hlist, happend⟩, ht, hbases⟩ :=
        doWriteReloc_spec mem hholds (h.nodup _) hfit halloc
      refine h.update hlist ?_ (fun key' hne => ?_) ht ?_
      · rw [happend, hitems, RelocEvent.items, itemsOf_append, if_pos rfl]
      · rw [RelocEvent.items, itemsOf_append, if_neg hne.symm, List.append_nil]
      · rcases hbases with heq | ⟨base, hle, hmod, heq⟩
        · exact Or.inl heq
        · exact Or.inr ⟨base, hle, hmod, heq ▸ List.Perm.refl _⟩
  | swapOut key =>
      obtain ⟨blocks, hholds, hitems⟩ := h.holds key
      obtain ⟨hlist, ht, hbases⟩ := spillRelocList_spec hok hholds (h.nodup key)
      rw [show RelocEvent.items _ = [] from rfl, List.append_nil]
      exact h.update hlist hitems (fun _ _ => rfl) ht hbases
  | vmAlloc amt =>
      obtain ⟨hle, -, -, hfs⟩ := SpillFile.spillAlloc_of_ok hok
      obtain ⟨hbytes, hlen⟩ := SpillFile.spillAlloc_file st.file amt
      rw [show RelocEvent.items _ = [] from rfl, List.append_nil]
      refine h.ofFile (by omega) hlen.ge (fun _ _ _ q _ => by rw [hbytes]) fun a ha => ?_
      rcases List.mem_cons.mp ha with rfl | ha
      · exact Or.inr ⟨hle, hfs.ge⟩
      · exact Or.inl ha
  | vmWrite base off data =>
      obtain ⟨hpos, ⟨base', amt⟩, ha, rfl, hroom⟩ := hok
      obtain ⟨hbytes, hlength, hfs⟩ := SpillFile.spillWrite_bytes (f := st.file) off hpos data
      rw [show RelocEvent.items _ = [] from rfl, List.append_nil]
      refine h.ofFile hfs.ge (hlength ▸ le_max_left _ _) (fun key b hb q hq => ?_)
        fun a ha => Or.inl ha
      have hplace := (h.vm _ ha).2 key b hb
      unfold InSector at hq
      dsimp only at hplace hpos hroom
      rw [hbytes]
      by_cases hlt : q < base' - 1 + off
      · exact overlay_of_lt hlt
      · exact overlay_of_ge (by omega)
  | vmRead base off len =>
      obtain ⟨hbytes, hlength, hfs⟩ := SpillFile.spillRead_file st.file base off len
      rw [show RelocEvent.items _ = [] from rfl, List.append_nil]
      exact h.ofFile hfs.ge hlength.ge (fun _ _ _ q _ => by rw [hbytes]) fun a ha => Or.inl ha

/-- Over a run the lists hold the items that were recorded for them. -/
theorem relocInv_run {st : RelocState} {items : List RelocItem} (h : RelocInv fmt groups st items)
    {es : List RelocEvent} (hok : Along (RelocState.step fmt groups) RelocState.StepOk st es) :
    RelocInv fmt groups (run (RelocState.step fmt groups) st es) (items ++ recordedItems es) := by
  induction es generalizing st items with
  | nil => simpa [recordedItems] using h
  | cons e es ih =>
      obtain ⟨he, hes⟩ := hok
      have := ih (relocInv_step h he) hes
      rwa [List.append_assoc] at this

end machine

end OpenWatcom.Wlink
