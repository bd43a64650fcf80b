import OpenWatcom.Lib.Blocks
import OpenWatcom.Lib.Runs

/-! # Carvers

`carve.c`: elements of one size, cut from blocks that are kept sorted by their address.  An element has an
index, the number of its block from the lowest address on and its offset there, by which an incremental
link finds it again in blocks at other addresses. -/

namespace OpenWatcom.Wlink

/-! ### Blocks and elements -/

/-- `sizeof( blk_t )`, which is a multiple of `CARVE_ALIGN`. -/
def carveHdr : ℕ := 16

/-- The sizes of a carver: those of an element and of a block's data, as `CarveCreate` makes them and with
what it verifies. -/
structure CarveShape where
  elmSize : ℕ
  blkSize : ℕ
  pos : 0 < elmSize
  align : 8 ∣ elmSize
  count_pos : 0 < blkSize / elmSize
  top_lt : blkSize / elmSize * elmSize < 2 ^ 16

/-- The sizes of `CarveCreate`: an element has room for a link and a size that is a multiple of
`CARVE_ALIGN`. -/
def carveCreate (elmSize blkSize : ℕ) : Option CarveShape :=
  let elmSize := (max elmSize 8 + 7) / 8 * 8
  if h : 0 < blkSize / elmSize ∧ blkSize / elmSize * elmSize < 2 ^ 16 then
    some ⟨elmSize, blkSize, by omega, Dvd.intro_left _ rfl, h.1, h.2⟩
  else none

namespace CarveShape

variable (s : CarveShape)

def elmCount : ℕ := s.blkSize / s.elmSize

/-- `CARVE_SIZE`. -/
def memSize : ℕ := carveHdr + s.blkSize

/-- The elements of a block, in the order of `CarveBlockScan`. -/
def blkElms (block : ℕ) : List ℕ :=
  (List.range s.elmCount).map fun i => block + carveHdr + i * s.elmSize

/-- `MakeFreeList`, from the element with the number `first` on: the last element is added first. -/
def makeFreeList (block first : ℕ) (freeList : List ℕ) : List ℕ :=
  (List.range (s.elmCount - first)).reverse.foldl
    (fun freeList i => (block + carveHdr + (first + i) * s.elmSize) :: freeList) freeList

end CarveShape

/-- A carver.  Its `blk_count` is the length of the list of blocks. -/
structure Carver where
  shape : CarveShape
  blkList : List ℕ
  freeList : List ℕ
  insert : Option ℕ
  blkMap : List ℕ

def Carver.init (shape : CarveShape) : Carver := ⟨shape, [], [], none, []⟩

/-- `newBlk`: the list is sorted by address, biggest first. -/
def newBlk (newblk : ℕ) : List ℕ → List ℕ
  | [] => [newblk]
  | block :: rest => if newblk < block then block :: newBlk newblk rest else newblk :: block :: rest

/-- `MK_INDEX`, in 32 bits. -/
def mkIndex (block offset : ℕ) : ℕ := block % 2 ^ 16 * 2 ^ 16 + offset % 2 ^ 16

def carveNullIndex : ℕ := mkIndex 0 0
def carveInvalidIndex : ℕ := mkIndex 0 1

/-- The loop of `CarveGetIndex`. -/
def getIndexFrom (elm : ℕ) : List ℕ → ℕ → ℕ
  | [], blockIndex => mkIndex blockIndex (elm - carveHdr)
  | block :: rest, blockIndex =>
    if elm < block then getIndexFrom elm rest (blockIndex - 1)
    else mkIndex blockIndex (elm - (block + carveHdr))

namespace Carver

variable (c : Carver)

/-- The elements in the order of `CarveWalkAll`. -/
def walk : List ℕ := c.blkList.flatMap c.shape.blkElms

/-- `CarveNumElements`. -/
def numElements : ℕ := c.blkList.length * c.shape.elmCount % 2 ^ 32

/-- `CarveGetIndex`. -/
def getIndex (elm : ℕ) : ℕ :=
  if elm = 0 then carveNullIndex else getIndexFrom elm c.blkList c.blkList.length

/-- `CarveMapIndex`; the result is `none` if it reads outside the map of blocks. -/
def mapIndex (index : ℕ) : Option ℕ :=
  let index := index % 2 ^ 32
  if index = carveNullIndex then some 0
  else
    let blockIndex := index / 2 ^ 16
    if blockIndex = 0 then none
    else c.blkMap[blockIndex - 1]?.map fun block => block + carveHdr + index % 2 ^ 16

/-- `CarveRestart` of a new carver for `num` elements, where `addr` are the addresses that it gets for
its blocks. -/
def restart (shape : CarveShape) (addr : ℕ → ℕ) (num : ℕ) : Carver :=
  if num = 0 then init shape
  else
    let numblks := (num + shape.elmCount - 1) / shape.elmCount
    let blkList := (List.range numblks).foldl (fun l i => newBlk (addr i) l) []
    let remainder := num % shape.elmCount
    { shape := shape
      blkList := blkList
      freeList := if remainder ≠ 0 then shape.makeFreeList (blkList.reverse.getD 0 0) remainder [] else []
      insert := none
      blkMap := blkList.reverse }

end Carver

/-- The new element goes behind `insert`. -/
def insertAfter (insert elm : ℕ) : List ℕ → List ℕ
  | [] => []
  | e :: rest => if e = insert then e :: elm :: rest else e :: insertAfter insert elm rest

/-- `CarveInsertFree`. -/
def Carver.insertFree (c : Carver) (elm : ℕ) : Carver :=
  match c.insert with
  | none => { c with freeList := elm :: c.freeList, insert := some elm }
  | some insert => { c with freeList := insertAfter insert elm c.freeList, insert := some elm }

/-! ### Runs -/

/-- `CarveAlloc`, with the address of the block that it gets if it needs one, and `CarveFree`. -/
inductive CarveEvent where
  | alloc (newblk : ℕ)
  | free (elm : ℕ)
  deriving DecidableEq, Repr

namespace Carver

def step (c : Carver) : CarveEvent → Carver
  | .alloc newblk =>
    if c.freeList = [] then
      { c with blkList := newBlk newblk c.blkList, freeList := (c.shape.makeFreeList newblk 0 []).tail }
    else { c with freeList := c.freeList.tail }
  | .free elm => if elm = 0 then c else { c with freeList := elm :: c.freeList }

/-- Memory for a block is not in use by another block, and an element is freed that has been
allocated. -/
def StepOk (c : Carver) : CarveEvent → Prop
  | .alloc newblk => c.freeList = [] → 0 < newblk ∧ ∀ block ∈ c.blkList,
      newblk + c.shape.memSize ≤ block ∨ block + c.shape.memSize ≤ newblk
  | .free elm => elm = 0 ∨ elm ∈ c.walk ∧ elm ∉ c.freeList

instance (c : Carver) (e : CarveEvent) : Decidable (c.StepOk e) := by
  cases e <;> unfold StepOk <;> infer_instance

end Carver

/-- The blocks are sorted and do not overlap. -/
structure BlocksApart (shape : CarveShape) (blkList : List ℕ) : Prop where
  apart : blkList.Pairwise fun a b => b + shape.memSize ≤ a
  pos : ∀ block ∈ blkList, 0 < block

/-- The free elements are elements, each free once. -/
structure CarveInv (c : Carver) : Prop where
  blocks : BlocksApart c.shape c.blkList
  free : ∀ e ∈ c.freeList, e ∈ c.walk
  nodup : c.freeList.Nodup

section blocks

variable {shape : CarveShape}

theorem mem_newBlk {newblk : ℕ} {l : List ℕ} {b : ℕ} : b ∈ newBlk newblk l ↔ b = newblk ∨ b ∈ l := by
  induction l with
  | nil => simp [newBlk]
  | cons block rest ih =>
      rw [newBlk]
      split_ifs
      · rw [List.mem_cons, ih, List.mem_cons]
        exact or_left_comm
      · rw [List.mem_cons]

theorem length_newBlk (newblk : ℕ) (l : List ℕ) : (newBlk newblk l).length = l.length + 1 := by
  induction l with
  | nil => rfl
  | cons block rest ih =>
      rw [newBlk]
      split_ifs
      · rw [List.length_cons, ih, List.length_cons]
      · rfl

theorem BlocksApart.newBlk {l : List ℕ} (h : BlocksApart shape l) {newblk : ℕ} (hpos : 0 < newblk)
    (hfree : ∀ block ∈ l, newblk + shape.memSize ≤ block ∨ block + shape.memSize ≤ newblk) :
    BlocksApart shape (newBlk newblk l) := by
  obtain ⟨hapart, hp⟩ := h
  constructor
  · induction l with
    | nil => exact List.pairwise_singleton _ _
    | cons block rest ih =>
        obtain ⟨hblock, hrest⟩ := List.pairwise_cons.mp hapart
        have hnew := hfree block List.mem_cons_self
        have htail := ih (fun b hb => hfree b (List.mem_cons_of_mem _ hb)) hrest
          fun b hb => hp b (List.mem_cons_of_mem _ hb)
        rw [Wlink.newBlk]
        split_ifs with hlt
        · refine List.pairwise_cons.mpr ⟨fun b hb => ?_, htail⟩
          rcases mem_newBlk.mp hb with rfl | hb
          · omega
          · exact hblock b hb
        · refine List.pairwise_cons.mpr ⟨fun b hb => ?_, hapart⟩
          rcases List.mem_cons.mp hb with rfl | hb
          · have : 0 < shape.memSize := Nat.add_pos_left (by decide) _
            omega
          · have := hblock b hb
            omega
  · intro b hb
    rcases mem_newBlk.mp hb with rfl | hb
    · exact hpos
    · exact hp b hb

theorem mem_blkElms {block e : ℕ} : e ∈ shape.blkElms block ↔
    ∃ i < shape.elmCount, e = block + carveHdr + i * shape.elmSize := by
  unfold CarveShape.blkElms
  simp only [List.mem_map, List.mem_range]
  exact exists_congr fun i => and_congr_right fun _ => eq_comm

/-- The offset of an element in its block. -/
theorem offset_lt {i : ℕ} (hi : i < shape.elmCount) :
    i * shape.elmSize + shape.elmSize ≤ shape.blkSize ∧ i * shape.elmSize < 2 ^ 16 := by
  have hle : (i + 1) * shape.elmSize ≤ shape.blkSize / shape.elmSize * shape.elmSize :=
    Nat.mul_le_mul_right _ hi
  have hblk := Nat.div_mul_le_self shape.blkSize shape.elmSize
  have htop := shape.top_lt
  have hpos := shape.pos
  rw [Nat.succ_mul] at hle
  omega

theorem makeFreeList_eq (block : ℕ) : shape.makeFreeList block 0 [] = shape.blkElms block := by
  have hfold : ∀ l free : List ℕ, l.foldl (fun free i =>
      (block + carveHdr + (0 + i) * shape.elmSize) :: free) free =
        (l.map fun i => block + carveHdr + i * shape.elmSize).reverse ++ free := by
    intro l
    induction l with
    | nil => intro free; rfl
    | cons i l ih =>
        intro free
        rw [List.foldl_cons, ih, List.map_cons, List.reverse_cons, Nat.zero_add, List.append_assoc]
        rfl
  unfold CarveShape.makeFreeList CarveShape.blkElms
  rw [hfold, Nat.sub_zero, List.map_reverse, List.reverse_reverse, List.append_nil]

theorem blkElms_nodup (block : ℕ) : (shape.blkElms block).Nodup := by
  refine List.nodup_range.map fun i j hij => ?_
  have hpos := shape.pos
  have hmul : i * shape.elmSize = j * shape.elmSize := by omega
  exact Nat.eq_of_mul_eq_mul_right hpos hmul

theorem BlocksApart.walk_nodup {l : List ℕ} (h : BlocksApart shape l) :
    (l.flatMap shape.blkElms).Nodup := by
  refine List.nodup_flatMap.mpr ⟨fun b _ => blkElms_nodup b, h.apart.imp fun {a b} hab => ?_⟩
  intro e hea heb
  obtain ⟨i, -, rfl⟩ := mem_blkElms.mp hea
  obtain ⟨j, hj, heq⟩ := mem_blkElms.mp heb
  have := (offset_lt hj).1
  unfold CarveShape.memSize at hab
  have := shape.pos
  omega

end blocks

theorem carveInv_init (shape : CarveShape) : CarveInv (Carver.init shape) := by
  refine ⟨⟨List.Pairwise.nil, ?_⟩, ?_, List.nodup_nil⟩
  · intro b hb
    cases hb
  · intro e he
    cases he

theorem carveInv_step {c : Carver} (h : CarveInv c) {e : CarveEvent} (hok : c.StepOk e) :
    CarveInv (c.step e) := by
  cases e with
  | alloc newblk =>
      rw [Carver.step]
      split_ifs with hfree
      · obtain ⟨hpos, hapart⟩ := hok hfree
        rw [makeFreeList_eq]
        refine ⟨h.blocks.newBlk hpos hapart, fun e he => ?_, (blkElms_nodup newblk).tail⟩
        exact List.mem_flatMap.mpr ⟨newblk, mem_newBlk.mpr (Or.inl rfl), List.mem_of_mem_tail he⟩
      · exact ⟨h.blocks, fun e he => h.free e (List.mem_of_mem_tail he), h.nodup.tail⟩
  | free elm =>
      rw [Carver.step]
      split_ifs with h0
      · exact h
      · obtain ⟨hwalk, hnot⟩ := hok.resolve_left h0
        refine ⟨h.blocks, fun e he => ?_, List.nodup_cons.mpr ⟨hnot, h.nodup⟩⟩
        rcases List.mem_cons.mp he with rfl | he
        · exact hwalk
        · exact h.free e he

/-- After every run of allocations and frees. -/
theorem carveInv_run {c : Carver} (h : CarveInv c) {es : List CarveEvent}
    (hok : Along Carver.step Carver.StepOk c es) : CarveInv (run Carver.step c es) := by
  refine run_invariant_of_along (fun _ _ hinv hstep => ?_) h hok
  exact carveInv_step hinv hstep

/-! ### Indices -/

namespace Carver

variable {c r : Carver}

/-- The number of the block of an element, from the lowest address on. -/
def blkNo (c : Carver) (elm : ℕ) : ℕ := (c.blkList.filter fun block => block ≤ elm).length

/-- The element of `r` in the position of an element of `c`. -/
def image (c r : Carver) (elm : ℕ) : ℕ := if elm = 0 then 0 else r.walk.getD (c.walk.idxOf elm) 0

/-- An element by the position of its block and its number there. -/
structure At (c : Carver) (elm block p i : ℕ) : Prop where
  get : c.blkList[p]? = some block
  lt : i < c.shape.elmCount
  eq : elm = block + carveHdr + i * c.shape.elmSize

theorem exists_at {elm : ℕ} (h : elm ∈ c.walk) : ∃ block p i, c.At elm block p i := by
  obtain ⟨block, hblock, helm⟩ := List.mem_flatMap.mp h
  obtain ⟨p, hp⟩ := List.mem_iff_getElem?.mp hblock
  obtain ⟨i, hi, heq⟩ := mem_blkElms.mp helm
  exact ⟨block, p, i, hp, hi, heq⟩

theorem At.walk {elm block p i : ℕ} (h : c.At elm block p i) :
    c.walk[p * c.shape.elmCount + i]? = some elm := by
  have hlen : ∀ b, (c.shape.blkElms b).length = c.shape.elmCount := fun b => by
    rw [CarveShape.blkElms, List.length_map, List.length_range]
  rw [Carver.walk, getElem?_flatMap_of_length hlen h.get h.lt, CarveShape.blkElms, List.getElem?_map,
    List.getElem?_range h.lt, h.eq]
  rfl

theorem At.idxOf (hc : BlocksApart c.shape c.blkList) {elm block p i : ℕ} (h : c.At elm block p i) :
    c.walk.idxOf elm = p * c.shape.elmCount + i := by
  obtain ⟨hlt, hget⟩ := List.getElem?_eq_some_iff.mp h.walk
  rw [← hget]
  exact hc.walk_nodup.idxOf_getElem _ hlt

/-- The blocks before a block in the list are at higher addresses than its elements, the others are not. -/
theorem getIndexFrom_eq {shape : CarveShape} {l : List ℕ}
    (hl : l.Pairwise fun a b => b + shape.memSize ≤ a) {elm block p i n : ℕ} (hp : l[p]? = some block)
    (hi : i < shape.elmCount) (helm : elm = block + carveHdr + i * shape.elmSize) :
    getIndexFrom elm l n = mkIndex (n - p) (i * shape.elmSize) ∧
      (l.filter fun block => block ≤ elm).length = l.length - p := by
  induction l generalizing p n with
  | nil => cases hp
  | cons b l ih =>
      obtain ⟨hb, hrest⟩ := List.pairwise_cons.mp hl
      have hoff := (offset_lt hi).1
      have hpos := shape.pos
      cases p with
      | zero =>
          obtain rfl := Option.some.inj hp
          have hall : (b :: l).filter (fun block => block ≤ elm) = b :: l := by
            refine List.filter_eq_self.mpr fun b' hb' => decide_eq_true ?_
            rcases List.mem_cons.mp hb' with rfl | hb'
            · omega
            · have := hb b' hb'
              omega
          rw [hall, getIndexFrom, if_neg (by omega), helm, Nat.add_sub_cancel_left]
          exact ⟨rfl, rfl⟩
      | succ p =>
          have hmem : block ∈ l := List.mem_of_getElem? hp
          have hlt : elm < b := by
            have := hb block hmem
            unfold CarveShape.memSize at this
            omega
          obtain ⟨hidx, hlen⟩ := ih hrest (n := n - 1) hp
          rw [getIndexFrom, if_pos hlt, hidx, List.filter_cons_of_neg (by simpa using hlt), hlen]
          refine ⟨?_, by simp⟩
          congr 1
          omega

theorem At.getIndex (hc : BlocksApart c.shape c.blkList) {elm block p i : ℕ} (h : c.At elm block p i) :
    c.getIndex elm = mkIndex (c.blkNo elm) (i * c.shape.elmSize) ∧
      c.blkNo elm = c.blkList.length - p := by
  obtain ⟨hidx, hno⟩ := getIndexFrom_eq (n := c.blkList.length) hc.apart h.get h.lt h.eq
  have h0 : elm ≠ 0 := by
    have := hc.pos block (List.mem_of_getElem? h.get)
    have := h.eq
    omega
  rw [Carver.getIndex, if_neg h0, hidx, blkNo, hno]
  exact ⟨rfl, rfl⟩

theorem mkIndex_fields (b o : ℕ) : mkIndex b o % 2 ^ 32 = mkIndex b o ∧
    mkIndex b o / 2 ^ 16 = b % 2 ^ 16 ∧ mkIndex b o % 2 ^ 16 = o % 2 ^ 16 := by
  unfold mkIndex
  omega

/-- The reader's carver has as many blocks of the same size, numbered in the same direction. -/
structure Restarted (c r : Carver) : Prop where
  shape : r.shape = c.shape
  count : r.blkList.length = c.blkList.length
  blocks : BlocksApart r.shape r.blkList
  map : r.blkMap = r.blkList.reverse

theorem At.image (hc : BlocksApart c.shape c.blkList) (hr : Restarted c r) {elm block p i : ℕ}
    (h : c.At elm block p i) :
    ∃ block', r.blkList[p]? = some block' ∧
      c.image r elm = block' + carveHdr + i * c.shape.elmSize := by
  have hp := (List.getElem?_eq_some_iff.mp h.get).1
  obtain ⟨block', hblock'⟩ : ∃ block', r.blkList[p]? = some block' :=
    ⟨_, List.getElem?_eq_getElem (hr.count ▸ hp)⟩
  have h0 : elm ≠ 0 := by
    have := hc.pos block (List.mem_of_getElem? h.get)
    have := h.eq
    omega
  have hat : r.At (block' + carveHdr + i * c.shape.elmSize) block' p i :=
    ⟨hblock', hr.shape ▸ h.lt, by rw [hr.shape]⟩
  have hwalk := hat.walk
  rw [hr.shape] at hwalk
  refine ⟨block', hblock', ?_⟩
  rw [Carver.image, if_neg h0, h.idxOf hc, List.getD_eq_getElem?_getD, hwalk]
  rfl

/-- What `CarveMapIndex` gives for an element's index: the element of the block that the sixteen bits of
its number say. -/
theorem At.mapIndex (hc : BlocksApart c.shape c.blkList) {elm block p i : ℕ}
    (h : c.At elm block p i) : r.mapIndex (c.getIndex elm) =
      if c.blkNo elm % 2 ^ 16 = 0 then if i = 0 then some 0 else none
      else r.blkMap[c.blkNo elm % 2 ^ 16 - 1]?.map
        fun block => block + carveHdr + i * c.shape.elmSize := by
  obtain ⟨hidx, -⟩ := h.getIndex hc
  obtain ⟨hmod, hdiv, hoff⟩ := mkIndex_fields (c.blkNo elm) (i * c.shape.elmSize)
  have hlt := (offset_lt h.lt).2
  have hpos := c.shape.pos
  have hnull : mkIndex (c.blkNo elm) (i * c.shape.elmSize) = carveNullIndex ↔
      c.blkNo elm % 2 ^ 16 = 0 ∧ i = 0 := by
    have hi : i * c.shape.elmSize = 0 ↔ i = 0 := by
      rw [Nat.mul_eq_zero]
      omega
    rw [← hi]
    unfold carveNullIndex mkIndex
    omega
  rw [Nat.mod_eq_of_lt hlt] at hoff
  unfold Carver.mapIndex
  dsimp only
  rw [hidx, hmod, hdiv, hoff]
  by_cases hb : c.blkNo elm % 2 ^ 16 = 0
  · by_cases hi : i = 0
    · rw [if_pos (hnull.mpr ⟨hb, hi⟩), if_pos hb, if_pos hi]
    · rw [if_neg (fun h => hi (hnull.mp h).2), if_pos hb, if_pos hb, if_neg hi]
  · rw [if_neg hb, if_neg (fun h => hb (hnull.mp h).1), if_neg hb]

/-- An index leads to the element in the same position exactly if the number of its block has sixteen
bits. -/
theorem mapIndex_getIndex_iff (hc : BlocksApart c.shape c.blkList) (hr : Restarted c r) {elm : ℕ}
    (h : elm ∈ c.walk) : r.mapIndex (c.getIndex elm) = some (c.image r elm) ↔ c.blkNo elm < 2 ^ 16 := by
  obtain ⟨block, p, i, hat⟩ := exists_at h
  obtain ⟨-, hno⟩ := hat.getIndex hc
  obtain ⟨block', hblock', himage⟩ := hat.image hc hr
  have hp : p < c.blkList.length := (List.getElem?_eq_some_iff.mp hat.get).1
  have hpos := hr.blocks.pos block' (List.mem_of_getElem? hblock')
  rw [hat.mapIndex hc, himage, hr.map]
  constructor
  · intro hmap
    by_contra hge
    split_ifs at hmap with hb hi
    · have := Option.some.inj hmap
      omega
    · -- the map gives another block
      obtain ⟨other, hother, heq⟩ := Option.map_eq_some_iff.mp hmap
      have hsame : other = block' := by omega
      subst hsame
      have hlen : c.blkNo elm % 2 ^ 16 - 1 < r.blkList.length := by
        have := (List.getElem?_eq_some_iff.mp hother).1
        rwa [List.length_reverse] at this
      rw [List.getElem?_reverse hlen] at hother
      have hnodup : r.blkList.Nodup := hr.blocks.apart.imp fun {a b} hab heq => by
        have : 0 < r.shape.memSize := Nat.add_pos_left (by decide) _
        omega
      have := (List.getElem?_inj (by omega) hnodup).mp (hother.trans hblock'.symm)
      have := hr.count
      omega
  · intro hlt
    have hb : c.blkNo elm % 2 ^ 16 = c.blkNo elm := Nat.mod_eq_of_lt hlt
    have hcount := hr.count
    rw [hb, if_neg (by omega), List.getElem?_reverse (by omega),
      show r.blkList.length - 1 - (c.blkNo elm - 1) = p by omega, hblock']
    rfl

/-- The index of an element is not taken for the mark of a free one. -/
theorem getIndex_ne_invalid (hc : BlocksApart c.shape c.blkList) {elm : ℕ}
    (h : elm = 0 ∨ elm ∈ c.walk) : c.getIndex elm % 2 ^ 32 ≠ carveInvalidIndex := by
  rcases h with rfl | h
  · show carveNullIndex % 2 ^ 32 ≠ carveInvalidIndex
    decide
  · obtain ⟨block, p, i, hat⟩ := exists_at h
    obtain ⟨hidx, -⟩ := hat.getIndex hc
    obtain ⟨hmod, -, hoff⟩ := mkIndex_fields (c.blkNo elm) (i * c.shape.elmSize)
    have hlt := (offset_lt hat.lt).2
    have halign : i * c.shape.elmSize % 8 = 0 :=
      Nat.mod_eq_zero_of_dvd (c.shape.align.mul_left i)
    rw [hidx, hmod]
    intro heq
    rw [heq, Nat.mod_eq_of_lt hlt] at hoff
    have : carveInvalidIndex % 2 ^ 16 = 1 := by decide
    omega

/-! ### The reader's carver -/

/-- The addresses that the reader gets for its blocks. -/
def AddrsApart (shape : CarveShape) (addr : ℕ → ℕ) (n : ℕ) : Prop :=
  ∀ i < n, 0 < addr i ∧ ∀ j < i, addr i + shape.memSize ≤ addr j ∨ addr j + shape.memSize ≤ addr i

theorem restart_blocks {shape : CarveShape} {addr : ℕ → ℕ} {n : ℕ} (h : AddrsApart shape addr n) :
    BlocksApart shape ((List.range n).foldl (fun l i => newBlk (addr i) l) []) ∧
      ((List.range n).foldl (fun l i => newBlk (addr i) l) []).length = n ∧
      ∀ b ∈ (List.range n).foldl (fun l i => newBlk (addr i) l) [], ∃ i < n, b = addr i := by
  induction n with
  | zero =>
      refine ⟨⟨List.Pairwise.nil, ?_⟩, rfl, ?_⟩
      · intro b hb
        cases hb
      · intro b hb
        cases hb
  | succ n ih =>
      obtain ⟨hblocks, hlen, hmem⟩ := ih fun i hi => h i (hi.trans (Nat.lt_succ_self n))
      obtain ⟨hpos, hapart⟩ := h n (Nat.lt_succ_self n)
      rw [List.range_succ, List.foldl_append]
      refine ⟨hblocks.newBlk hpos fun b hb => ?_, ?_, fun b hb => ?_⟩
      · obtain ⟨i, hi, rfl⟩ := hmem b hb
        exact hapart i hi
      · exact (length_newBlk _ _).trans (congrArg (· + 1) hlen)
      · rcases mem_newBlk.mp hb with rfl | hb
        · exact ⟨n, Nat.lt_succ_self n, rfl⟩
        · obtain ⟨i, hi, rfl⟩ := hmem b hb
          exact ⟨i, hi.trans (Nat.lt_succ_self n), rfl⟩

/-- The number of blocks that `CarveRestart` makes. -/
theorem restart_length (shape : CarveShape) {addr : ℕ → ℕ} {num : ℕ}
    (h : AddrsApart shape addr ((num + shape.elmCount - 1) / shape.elmCount)) :
    (restart shape addr num).blkList.length = (num + shape.elmCount - 1) / shape.elmCount := by
  have hcount : 0 < shape.elmCount := shape.count_pos
  unfold restart
  split_ifs with h0
  · rw [h0, Nat.zero_add, Nat.div_eq_of_lt (by omega)]
    rfl
  · exact (restart_blocks h).2.1

theorem div_of_mul (n : ℕ) {m : ℕ} (h : 0 < m) : (n * m + m - 1) / m = n := by
  rw [Nat.add_sub_assoc h, Nat.mul_comm, Nat.mul_add_div h, Nat.div_eq_of_lt (by omega), Nat.add_zero]

/-- Started again for all elements of a carver: nothing is free, and the blocks correspond. -/
theorem restarted_restart {addr : ℕ → ℕ} (hnum : c.blkList.length * c.shape.elmCount < 2 ^ 32)
    (h : AddrsApart c.shape addr c.blkList.length) :
    Restarted c (restart c.shape addr c.numElements) ∧
      (restart c.shape addr c.numElements).freeList = [] ∧
      (restart c.shape addr c.numElements).insert = none := by
  have hcount : 0 < c.shape.elmCount := c.shape.count_pos
  have hblks := div_of_mul c.blkList.length hcount
  rw [numElements, Nat.mod_eq_of_lt hnum]
  unfold restart
  split_ifs with h0
  · have hnil : c.blkList.length = 0 := (Nat.mul_eq_zero.mp h0).resolve_right hcount.ne'
    refine ⟨⟨rfl, hnil.symm, ⟨List.Pairwise.nil, ?_⟩, rfl⟩, rfl, rfl⟩
    intro b hb
    cases hb
  · rw [hblks, Nat.mul_mod_left]
    obtain ⟨hblocks, hlen, -⟩ := restart_blocks h
    exact ⟨⟨rfl, hlen, hblocks, rfl⟩, rfl, rfl⟩

/-- The positions correspond. -/
theorem Restarted.map_walk (hc : BlocksApart c.shape c.blkList) (hr : Restarted c r) :
    c.walk.map (c.image r) = r.walk := by
  have hlen : ∀ (s : CarveShape) b, (s.blkElms b).length = s.elmCount := fun s b => by
    rw [CarveShape.blkElms, List.length_map, List.length_range]
  have hlength : r.walk.length = c.walk.length := by
    rw [Carver.walk, Carver.walk, length_flatMap_of_length (hlen _), length_flatMap_of_length (hlen _),
      hr.count, hr.shape]
  refine List.ext_getElem (by rw [List.length_map, hlength]) fun k hk hk' => ?_
  have hkc : k < c.walk.length := hlength ▸ hk'
  have hidx : c.walk.idxOf c.walk[k] = k := hc.walk_nodup.idxOf_getElem k hkc
  have h0 : c.walk[k] ≠ 0 := by
    obtain ⟨block, p, i, hat⟩ := exists_at (List.getElem_mem hkc)
    have := hc.pos block (List.mem_of_getElem? hat.get)
    have := hat.eq
    omega
  rw [List.getElem_map, Carver.image, if_neg h0, hidx, List.getD_eq_getElem?_getD,
    List.getElem?_eq_getElem hk', Option.getD_some]

/-! ### Free elements -/

theorem insertAfter_last {elm last : ℕ} {l : List ℕ} (hlast : l.getLast? = some last)
    (hnodup : l.Nodup) : insertAfter last elm l = l ++ [elm] := by
  induction l with
  | nil => cases hlast
  | cons e l ih =>
      obtain ⟨hnot, hnodup⟩ := List.nodup_cons.mp hnodup
      cases l with
      | nil =>
          have heq : e = last := Option.some.inj hlast
          rw [insertAfter, if_pos heq]
          rfl
      | cons e' l =>
          rw [List.getLast?_cons_cons] at hlast
          have hne : e ≠ last := fun heq => hnot (heq ▸ List.mem_of_getLast? hlast)
          rw [insertAfter, if_neg hne, ih hlast hnodup]
          rfl

/-- Inserted one after another, the elements are in the free list in this order. -/
theorem foldl_insertFree {l : List ℕ} {c : Carver} (hlast : c.insert = c.freeList.getLast?)
    (hnodup : (c.freeList ++ l).Nodup) :
    l.foldl insertFree c =
      { c with freeList := c.freeList ++ l, insert := (c.freeList ++ l).getLast? } := by
  induction l generalizing c with
  | nil => rw [List.foldl_nil, List.append_nil, ← hlast]
  | cons e l ih =>
      have hstep : c.insertFree e = { c with freeList := c.freeList ++ [e], insert := some e } := by
        unfold insertFree
        cases hins : c.insert with
        | none =>
            have hnil : c.freeList = [] := List.getLast?_eq_none_iff.mp (hlast ▸ hins)
            rw [hnil]
            rfl
        | some last =>
            dsimp only
            rw [insertAfter_last (hlast ▸ hins) (List.nodup_append.mp hnodup).1]
      rw [List.foldl_cons, hstep, ih]
      · simp
      · simp
      · simpa using hnodup

/-! ### Full blocks -/

/-- Blocks one after another, and allocations that use them up. -/
def fillAddr (shape : CarveShape) (i : ℕ) : ℕ := (i + 1) * shape.memSize

def fillEvents (shape : CarveShape) (n : ℕ) : List CarveEvent :=
  (List.range n).flatMap fun i => List.replicate shape.elmCount (.alloc (fillAddr shape i))

theorem run_alloc (newblk : ℕ) {n : ℕ} (h : n ≤ c.freeList.length) :
    Along step StepOk c (List.replicate n (.alloc newblk)) ∧
      run step c (List.replicate n (.alloc newblk)) = { c with freeList := c.freeList.drop n } := by
  induction n generalizing c with
  | zero => exact ⟨trivial, rfl⟩
  | succ n ih =>
      have hne : c.freeList ≠ [] := by
        intro hnil
        rw [hnil] at h
        cases h
      have hstep : c.step (.alloc newblk) = { c with freeList := c.freeList.tail } := if_neg hne
      obtain ⟨hok, hrun⟩ := ih (c := { c with freeList := c.freeList.tail })
        (by rw [List.length_tail]; omega)
      rw [List.replicate_succ, run_cons, hstep, hrun, Along, hstep]
      refine ⟨⟨fun hnil => absurd hnil hne, hok⟩, ?_⟩
      simp

/-- A block at an address over all others is the first. -/
theorem run_fillBlock {newblk : ℕ} (hfree : c.freeList = []) (hpos : 0 < newblk)
    (hover : ∀ block ∈ c.blkList, block + c.shape.memSize ≤ newblk) :
    Along step StepOk c (List.replicate c.shape.elmCount (.alloc newblk)) ∧
      run step c (List.replicate c.shape.elmCount (.alloc newblk)) =
        { c with blkList := newblk :: c.blkList } := by
  have hnew : newBlk newblk c.blkList = newblk :: c.blkList := by
    cases hl : c.blkList with
    | nil => rfl
    | cons block rest =>
        have := hover block (hl ▸ List.mem_cons_self)
        rw [newBlk, if_neg (by omega)]
  have hstep : c.step (.alloc newblk) =
      { c with blkList := newblk :: c.blkList, freeList := (c.shape.blkElms newblk).tail } := by
    rw [step, if_pos hfree, hnew, makeFreeList_eq]
  obtain ⟨n, hn⟩ : ∃ n, c.shape.elmCount = n + 1 := ⟨c.shape.elmCount - 1, by
    have : 0 < c.shape.elmCount := c.shape.count_pos
    omega⟩
  have hlen : (c.shape.blkElms newblk).tail.length = n := by
    rw [List.length_tail, CarveShape.blkElms, List.length_map, List.length_range, hn]
    rfl
  obtain ⟨hok, hrun⟩ := run_alloc newblk
    (c := { c with blkList := newblk :: c.blkList, freeList := (c.shape.blkElms newblk).tail }) hlen.ge
  rw [hn, List.replicate_succ, run_cons, hstep, hrun, Along, hstep]
  refine ⟨⟨fun _ => ⟨hpos, fun block hblock => Or.inr (hover block hblock)⟩, hok⟩, ?_⟩
  rw [← hlen, List.drop_length, hfree]

/-- The carver then. -/
def filled (shape : CarveShape) (n : ℕ) : Carver :=
  ⟨shape, ((List.range n).map (fillAddr shape)).reverse, [], none, []⟩

theorem filled_succ (shape : CarveShape) (n : ℕ) : filled shape (n + 1) =
    { filled shape n with blkList := fillAddr shape n :: (filled shape n).blkList } := by
  simp [filled, List.range_succ]

theorem run_fillEvents (shape : CarveShape) (n : ℕ) :
    Along step StepOk (init shape) (fillEvents shape n) ∧
      run step (init shape) (fillEvents shape n) = filled shape n := by
  induction n with
  | zero => exact ⟨trivial, rfl⟩
  | succ n ih =>
      obtain ⟨hok, hrun⟩ := ih
      have hsplit : fillEvents shape (n + 1) =
          fillEvents shape n ++ List.replicate shape.elmCount (.alloc (fillAddr shape n)) := by
        simp [fillEvents, List.range_succ]
      have hmem : 0 < shape.memSize := Nat.add_pos_left (by decide) _
      have hover : ∀ block ∈ (filled shape n).blkList, block + shape.memSize ≤ fillAddr shape n := by
        intro block hblock
        obtain ⟨i, hi, rfl⟩ := List.mem_map.mp (List.mem_reverse.mp hblock)
        have hle : (i + 2) * shape.memSize ≤ (n + 1) * shape.memSize :=
          Nat.mul_le_mul_right _ (by have := List.mem_range.mp hi; omega)
        show (i + 1) * shape.memSize + shape.memSize ≤ (n + 1) * shape.memSize
        rwa [← Nat.succ_mul]
      obtain ⟨hok', hrun'⟩ := run_fillBlock (c := filled shape n) rfl (Nat.mul_pos n.succ_pos hmem) hover
      rw [hsplit, along_append, run_append, hrun, filled_succ]
      exact ⟨⟨hok, hok'⟩, hrun'⟩

/-- The block at the highest address has as its number the number of blocks. -/
theorem filled_last (shape : CarveShape) (n : ℕ) :
    fillAddr shape n + carveHdr ∈ (filled shape (n + 1)).walk ∧
      (filled shape (n + 1)).blkNo (fillAddr shape n + carveHdr) = n + 1 := by
  obtain ⟨hok, hrun⟩ := run_fillEvents shape (n + 1)
  have hinv := carveInv_run (carveInv_init shape) hok
  rw [hrun] at hinv
  have hat : (filled shape (n + 1)).At (fillAddr shape n + carveHdr) (fillAddr shape n) 0 0 :=
    ⟨by rw [filled_succ]; rfl, shape.count_pos, by rw [Nat.zero_mul]; rfl⟩
  refine ⟨List.mem_of_getElem? hat.walk, ?_⟩
  rw [(hat.getIndex hinv.blocks).2, filled, List.length_reverse, List.length_map, List.length_range,
    Nat.sub_zero]

theorem addrsApart_fillAddr (shape : CarveShape) (n : ℕ) : AddrsApart shape (fillAddr shape) n := by
  have hmem : 0 < shape.memSize := Nat.add_pos_left (by decide) _
  intro i _
  refine ⟨Nat.mul_pos i.succ_pos hmem, fun j hj => Or.inr ?_⟩
  have hle : (j + 2) * shape.memSize ≤ (i + 1) * shape.memSize :=
    Nat.mul_le_mul_right _ (by omega)
  show (j + 1) * shape.memSize + shape.memSize ≤ (i + 1) * shape.memSize
  rwa [← Nat.succ_mul]

end Carver

end OpenWatcom.Wlink
