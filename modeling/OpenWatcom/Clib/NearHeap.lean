import Mathlib.Data.List.Basic
import Mathlib.Tactic.Ring
import Mathlib.Tactic.Linarith

/-! # Allocation in a miniheap

A miniheap of the near heap, as the blocks that tile it from the first one to the end tag.  Its free ring is the list
of the free blocks in address order, and the rover a place in the ring. -/

namespace OpenWatcom.Clib

/-! ### Blocks -/

/-- `sizeof( heapblk )`. -/
def heapblkSize : ℕ := 22

/-- `TAG_SIZE`. -/
def tagSize : ℕ := 2

/-- `FRL_SIZE`. -/
def frlSize : ℕ := 6

/-- `__ROUND_UP_SIZE_HEAP` in 16 bits: the size with its tag, even. -/
def roundUpSizeHeap (s : ℕ) : ℕ := (s + tagSize + 1) % 65536 / 2 * 2

/-- A block: its size and whether it is allocated. -/
structure Blk where
  len : ℕ
  inUse : Bool
deriving DecidableEq, Repr

/-- A block of the free ring. -/
structure FreeBlk where
  addr : ℕ
  len : ℕ
deriving DecidableEq, Repr

/-- `heapblk`; the end tag follows the blocks. -/
structure MiniHeap where
  addr : ℕ
  blocks : List Blk
  rover : ℕ
  b4rover : ℕ
  largestBlk : ℕ
  numalloc : ℕ
  numfree : ℕ
deriving DecidableEq, Repr

/-- The free blocks from the address on. -/
def ringFrom : ℕ → List Blk → List FreeBlk
  | _, [] => []
  | addr, b :: rest =>
    if b.inUse then ringFrom (addr + b.len) rest else ⟨addr, b.len⟩ :: ringFrom (addr + b.len) rest

namespace MiniHeap

/-- `len`. -/
def len (h : MiniHeap) : ℕ := heapblkSize + (h.blocks.map Blk.len).sum

/-- `FIRST_FRL`. -/
def first (h : MiniHeap) : ℕ := h.addr + heapblkSize

/-- `&(HEAP()->freehead)`. -/
def freehead (h : MiniHeap) : ℕ := h.addr + 16

/-- The free ring after `freehead`. -/
def ring (h : MiniHeap) : List FreeBlk := ringFrom h.first h.blocks

end MiniHeap

/-! ### `__MemAllocator` -/

/-- The search of the ring: the block that is found, and the largest one before it. -/
def searchLoop (size : ℕ) : ℕ → List FreeBlk → Option FreeBlk × ℕ
  | largest, [] => (none, largest)
  | largest, pcur :: rest =>
    if size ≤ pcur.len then (some pcur, largest)
    else searchLoop size (if largest < pcur.len then pcur.len else largest) rest

/-- The blocks after `size` bytes of the one at `pcur` have been allocated, split if the leftover is big enough. -/
def useBlock (pcur size : ℕ) : ℕ → List Blk → List Blk
  | _, [] => []
  | addr, b :: rest =>
    if addr = pcur then
      if frlSize ≤ b.len - size then ⟨size, true⟩ :: ⟨b.len - size, false⟩ :: rest else ⟨b.len, true⟩ :: rest
    else b :: useBlock pcur size (addr + b.len) rest

/-- `pcur->prev`: the last entry of the ring below `pcur`. -/
def prevOf (h : MiniHeap) (pcur : ℕ) : ℕ :=
  ((h.ring.filter (·.addr < pcur)).getLast?.map FreeBlk.addr).getD h.freehead

/-- Where the search starts, `freehead` an entry without length, and the largest block known before that place. -/
def searchStart (h : MiniHeap) (size : ℕ) : ℕ × List FreeBlk :=
  if size ≤ h.b4rover then (0, h.ring)
  else (h.b4rover, (⟨h.freehead, 0⟩ :: h.ring).dropWhile (·.addr ≠ h.rover))

/-- The rounded size of a block for the request. -/
def blockSize (reqSize : ℕ) : ℕ := max (roundUpSizeHeap reqSize) frlSize

/-- `__MemAllocator`: the address for the caller, and the miniheap. -/
def memAllocator (reqSize : ℕ) (h : MiniHeap) : Option ℕ × MiniHeap :=
  if reqSize = 0 then (none, h)
  else if roundUpSizeHeap reqSize < reqSize then (none, h)
  else
    let size := blockSize reqSize
    if h.largestBlk < size then (none, h)
    else
      match searchLoop size (searchStart h size).1 (searchStart h size).2 with
      | (none, largest) => (none, { h with largestBlk := largest })
      | (some pcur, largest) =>
        let blocks := useBlock pcur.addr size h.first h.blocks
        if frlSize ≤ pcur.len - size then
          (some (pcur.addr + tagSize),
            { h with blocks := blocks, b4rover := largest, numalloc := h.numalloc + 1, rover := pcur.addr + size })
        else
          (some (pcur.addr + tagSize),
            { h with
              blocks := blocks, b4rover := largest, numalloc := h.numalloc + 1,
              numfree := h.numfree - 1, rover := prevOf h pcur.addr })

/-! ### The ring -/

section ring

theorem ringFrom_addr_le {addr : ℕ} {blocks : List Blk} {b : FreeBlk} (hb : b ∈ ringFrom addr blocks) :
    addr ≤ b.addr ∧ b.addr + b.len ≤ addr + (blocks.map Blk.len).sum := by
  induction blocks generalizing addr with
  | nil => cases hb
  | cons blk rest ih =>
      rw [List.map_cons, List.sum_cons]
      unfold ringFrom at hb
      split at hb
      case isTrue =>
        have := ih hb
        omega
      case isFalse =>
        rcases List.mem_cons.1 hb with rfl | hb
        · dsimp only
          omega
        · have := ih hb
          omega

/-- Free blocks lie apart, in address order. -/
theorem ringFrom_sorted (addr : ℕ) {blocks : List Blk} :
    (ringFrom addr blocks).Pairwise (fun a b => a.addr + a.len ≤ b.addr) := by
  induction blocks generalizing addr with
  | nil => exact List.Pairwise.nil
  | cons blk rest ih =>
      unfold ringFrom
      split
      case isTrue => exact ih _
      case isFalse =>
        refine List.pairwise_cons.2 ⟨?_, ih _⟩
        intro b hb
        exact (ringFrom_addr_le hb).1

theorem ringFrom_len {addr : ℕ} {blocks : List Blk} {b : FreeBlk} (hb : b ∈ ringFrom addr blocks) :
    ⟨b.len, false⟩ ∈ blocks := by
  induction blocks generalizing addr with
  | nil => cases hb
  | cons blk rest ih =>
      unfold ringFrom at hb
      split at hb
      case isTrue => exact List.mem_cons_of_mem _ (ih hb)
      case isFalse huse =>
        rcases List.mem_cons.1 hb with rfl | hb
        · have hfree : blk = ⟨blk.len, false⟩ := by
            cases blk
            simpa using huse
          rw [hfree]
          exact List.mem_cons_self
        · exact List.mem_cons_of_mem _ (ih hb)

theorem flatMap_eq_self {l : List FreeBlk} {p : ℕ} {new : List FreeBlk} (h : ∀ b ∈ l, b.addr ≠ p) :
    l.flatMap (fun b => if b.addr = p then new else [b]) = l := by
  induction l with
  | nil => rfl
  | cons b l ih =>
      rw [List.flatMap_cons, if_neg (h b List.mem_cons_self), ih (fun c hc => h c (List.mem_cons_of_mem _ hc)),
        List.singleton_append]

/-- The ring after a block of it has been used. -/
theorem ringFrom_useBlock {pcur : FreeBlk} {size addr : ℕ} {blocks : List Blk} (hpos : ∀ b ∈ blocks, 0 < b.len)
    (hsize : size ≤ pcur.len) (hmem : pcur ∈ ringFrom addr blocks) :
    ringFrom addr (useBlock pcur.addr size addr blocks) =
      (ringFrom addr blocks).flatMap (fun b =>
        if b.addr = pcur.addr then
          if frlSize ≤ pcur.len - size then [⟨pcur.addr + size, pcur.len - size⟩] else []
        else [b]) := by
  induction blocks generalizing addr with
  | nil => cases hmem
  | cons blk rest ih =>
      have hlen := hpos blk List.mem_cons_self
      have hlater : ∀ b ∈ ringFrom (addr + blk.len) rest, addr < b.addr := fun b hb => by
        have := (ringFrom_addr_le hb).1
        omega
      have ihrest := fun hm => @ih (addr + blk.len) (fun b hb => hpos b (List.mem_cons_of_mem _ hb)) hm
      rw [useBlock]
      cases huse : blk.inUse with
      | true =>
          rw [ringFrom, if_pos huse] at hmem
          have hlt := hlater pcur hmem
          rw [if_neg (by omega : addr ≠ pcur.addr), ringFrom, if_pos huse, ihrest hmem]
          conv_rhs => rw [ringFrom, if_pos huse]
      | false =>
          have hnot : ¬ blk.inUse = true := by
            rw [huse]
            exact Bool.false_ne_true
          rw [ringFrom, if_neg hnot] at hmem
          rcases List.mem_cons.1 hmem with rfl | hmem
          · -- the block itself
            rw [if_pos rfl]
            conv_rhs => rw [ringFrom, if_neg hnot, List.flatMap_cons, if_pos rfl]
            rw [flatMap_eq_self (fun b hb => ne_of_gt (hlater b hb))]
            split
            case isTrue =>
              simp only [ringFrom, if_true, Bool.false_eq_true, if_false, List.singleton_append]
              congr 2
              dsimp only at hsize
              omega
            case isFalse => rfl
          · have hlt := hlater pcur hmem
            rw [if_neg (by omega : addr ≠ pcur.addr), ringFrom, if_neg hnot, ihrest hmem]
            conv_rhs =>
              rw [ringFrom, if_neg hnot, List.flatMap_cons, if_neg (by dsimp only; omega), List.singleton_append]

theorem useBlock_sum {pcur : FreeBlk} {size addr : ℕ} {blocks : List Blk} (hpos : ∀ b ∈ blocks, 0 < b.len)
    (hsize : size ≤ pcur.len) (hmem : pcur ∈ ringFrom addr blocks) :
    ((useBlock pcur.addr size addr blocks).map Blk.len).sum = (blocks.map Blk.len).sum := by
  induction blocks generalizing addr with
  | nil => cases hmem
  | cons blk rest ih =>
      have hlen := hpos blk List.mem_cons_self
      have hlater : ∀ b ∈ ringFrom (addr + blk.len) rest, addr < b.addr := fun b hb => by
        have := (ringFrom_addr_le hb).1
        omega
      have hhere : (addr = pcur.addr ∧ pcur.len = blk.len) ∨
          (addr ≠ pcur.addr ∧ pcur ∈ ringFrom (addr + blk.len) rest) := by
        unfold ringFrom at hmem
        split at hmem
        case isTrue => exact Or.inr ⟨(hlater pcur hmem).ne, hmem⟩
        case isFalse =>
          rcases List.mem_cons.1 hmem with rfl | hmem
          · exact Or.inl ⟨rfl, rfl⟩
          · exact Or.inr ⟨(hlater pcur hmem).ne, hmem⟩
      rw [useBlock]
      rcases hhere with ⟨heq, hpcur⟩ | ⟨hne, hmem⟩
      · rw [if_pos heq]
        split
        case isTrue =>
          simp only [List.map_cons, List.sum_cons]
          omega
        case isFalse => simp only [List.map_cons, List.sum_cons]
      · rw [if_neg hne]
        simp only [List.map_cons, List.sum_cons]
        rw [ih (fun b hb => hpos b (List.mem_cons_of_mem _ hb)) hmem]

theorem useBlock_pos {pcur : FreeBlk} {size addr : ℕ} {blocks : List Blk} (hpos : ∀ b ∈ blocks, frlSize ≤ b.len)
    (hsize : frlSize ≤ size) : ∀ b ∈ useBlock pcur.addr size addr blocks, frlSize ≤ b.len := by
  induction blocks generalizing addr with
  | nil => exact hpos
  | cons blk rest ih =>
      intro b hb
      have hblk := hpos blk List.mem_cons_self
      rw [useBlock] at hb
      split at hb
      case isTrue =>
        split at hb
        case isTrue hleft =>
          rcases List.mem_cons.1 hb with rfl | hb
          · exact hsize
          · rcases List.mem_cons.1 hb with rfl | hb
            · exact hleft
            · exact hpos b (List.mem_cons_of_mem _ hb)
        case isFalse =>
          rcases List.mem_cons.1 hb with rfl | hb
          · exact hblk
          · exact hpos b (List.mem_cons_of_mem _ hb)
      case isFalse =>
        rcases List.mem_cons.1 hb with rfl | hb
        · exact hblk
        · exact ih (fun c hc => hpos c (List.mem_cons_of_mem _ hc)) b hb

end ring

/-! ### The search -/

section search

variable {size largest largest' : ℕ} {l : List FreeBlk}

/-- Nothing is found: every block is smaller, and at most the largest. -/
theorem searchLoop_none (h : searchLoop size largest l = (none, largest')) :
    largest ≤ largest' ∧ ∀ b ∈ l, b.len < size ∧ b.len ≤ largest' := by
  induction l generalizing largest with
  | nil =>
      obtain rfl : largest = largest' := (Prod.mk.inj h).2
      exact ⟨le_rfl, fun b hb => by cases hb⟩
  | cons pcur rest ih =>
      rw [searchLoop] at h
      split at h
      case isTrue => cases (Prod.mk.inj h).1
      case isFalse hlt =>
        obtain ⟨hle, hall⟩ := ih h
        refine ⟨by split at hle <;> omega, ?_⟩
        intro b hb
        rcases List.mem_cons.1 hb with rfl | hb
        · refine ⟨by omega, ?_⟩
          split at hle <;> omega
        · exact hall b hb

/-- The first block that is large enough is found. -/
theorem searchLoop_some {pcur : FreeBlk} (h : searchLoop size largest l = (some pcur, largest')) :
    largest ≤ largest' ∧ size ≤ pcur.len ∧
      ∃ before after, l = before ++ pcur :: after ∧ ∀ b ∈ before, b.len ≤ largest' := by
  induction l generalizing largest with
  | nil => cases (Prod.mk.inj h).1
  | cons b rest ih =>
      rw [searchLoop] at h
      split at h
      case isTrue hle =>
        obtain ⟨hb, rfl⟩ := Prod.mk.inj h
        obtain rfl := Option.some_inj.1 hb
        exact ⟨le_rfl, hle, [], rest, rfl, fun c hc => by cases hc⟩
      case isFalse =>
        obtain ⟨hle, hsize, before, after, rfl, hbefore⟩ := ih h
        refine ⟨by split at hle <;> omega, hsize, b :: before, after, rfl, ?_⟩
        intro c hc
        rcases List.mem_cons.1 hc with rfl | hc
        · split at hle <;> omega
        · exact hbefore c hc

end search

/-! ### The hints -/

/-- What the search relies on: the sizes, the miniheap in its segment, the rover in the ring, and the hints that
bound the blocks before the rover and all of them. -/
structure MiniHeap.Inv (h : MiniHeap) : Prop where
  pos : ∀ b ∈ h.blocks, frlSize ≤ b.len
  fits : h.addr + h.len + tagSize ≤ 65536
  rover : h.rover = h.freehead ∨ ∃ b ∈ h.ring, b.addr = h.rover
  before : ∀ b ∈ h.ring, b.addr < h.rover → b.len ≤ h.b4rover
  largest : ∀ b ∈ h.ring, b.len ≤ h.largestBlk

theorem MiniHeap.freehead_lt {h : MiniHeap} {b : FreeBlk} (hb : b ∈ h.ring) : h.freehead < b.addr := by
  have := (ringFrom_addr_le hb).1
  unfold MiniHeap.first heapblkSize at this
  unfold MiniHeap.freehead
  omega

/-- A search from an entry leaves out only what lies below it. -/
theorem dropWhile_covers {l : List FreeBlk} {r : ℕ} (hsorted : l.Pairwise (fun a b => a.addr < b.addr))
    (hr : ∃ b ∈ l, b.addr = r) : ∀ b ∈ l, b ∈ l.dropWhile (·.addr ≠ r) ∨ b.addr < r := by
  induction l with
  | nil =>
      intro b hb
      cases hb
  | cons c l ih =>
      obtain ⟨hhead, htail⟩ := List.pairwise_cons.1 hsorted
      intro b hb
      by_cases hc : c.addr = r
      · left
        rw [List.dropWhile_cons_of_neg (by simpa using hc)]
        exact hb
      · have hr' : ∃ b ∈ l, b.addr = r := by
          obtain ⟨d, hd, hdr⟩ := hr
          rcases List.mem_cons.1 hd with rfl | hd
          · exact absurd hdr hc
          · exact ⟨d, hd, hdr⟩
        rw [List.dropWhile_cons_of_pos (by simpa using hc)]
        rcases List.mem_cons.1 hb with rfl | hb
        · right
          obtain ⟨d, hd, rfl⟩ := hr'
          exact hhead d hd
        · exact ih htail hr' b hb

section hints

variable {h : MiniHeap}

theorem MiniHeap.Inv.sorted (hinv : h.Inv) :
    (⟨h.freehead, 0⟩ :: h.ring).Pairwise (fun a b => a.addr < b.addr) := by
  refine List.pairwise_cons.2 ⟨fun b hb => MiniHeap.freehead_lt hb, ?_⟩
  refine (List.Pairwise.and_mem.1 (ringFrom_sorted h.first)).imp ?_
  rintro a b ⟨ha, -, hle⟩
  have hlen := hinv.pos _ (ringFrom_len ha)
  unfold frlSize at hlen
  dsimp only at hlen
  omega

theorem MiniHeap.Inv.rover_mem (hinv : h.Inv) :
    ∃ b ∈ (⟨h.freehead, 0⟩ :: h.ring : List FreeBlk), b.addr = h.rover := by
  rcases hinv.rover with heq | ⟨b, hb, heq⟩
  · exact ⟨_, List.mem_cons_self, heq.symm⟩
  · exact ⟨b, List.mem_cons_of_mem _ hb, heq⟩

/-- Every block of the ring is searched, or at most what is known to be the largest before. -/
theorem searchStart_covers (hinv : h.Inv) (size : ℕ) {b : FreeBlk} (hb : b ∈ h.ring) :
    b ∈ (searchStart h size).2 ∨ b.addr < h.rover ∧ b.len ≤ (searchStart h size).1 ∧ b.len < size := by
  unfold searchStart
  split
  case isTrue => exact Or.inl hb
  case isFalse hlt =>
    refine (dropWhile_covers hinv.sorted hinv.rover_mem b (List.mem_cons_of_mem _ hb)).imp id ?_
    intro hrover
    have hlen := hinv.before b hb hrover
    exact ⟨hrover, hlen, by omega⟩

/-- `__MemAllocator` gives no block only if the size is 0 or too large to round up, or no block of the ring is large
enough. -/
theorem memAllocator_eq_none (hinv : h.Inv) {reqSize : ℕ} (hnone : (memAllocator reqSize h).1 = none) :
    reqSize = 0 ∨ roundUpSizeHeap reqSize < reqSize ∨ ∀ b ∈ h.ring, b.len < blockSize reqSize := by
  unfold memAllocator at hnone
  split at hnone
  case isTrue h0 => exact Or.inl h0
  case isFalse =>
  split at hnone
  case isTrue hround => exact Or.inr (Or.inl hround)
  case isFalse =>
  refine Or.inr (Or.inr ?_)
  intro b hb
  dsimp only at hnone
  split at hnone
  case isTrue hlarge => exact lt_of_le_of_lt (hinv.largest b hb) hlarge
  case isFalse =>
    split at hnone
    case h_1 largest hsearch =>
      rcases searchStart_covers hinv (blockSize reqSize) hb with hmem | ⟨-, -, hlt⟩
      · exact ((searchLoop_none hsearch).2 b hmem).1
      · exact hlt
    case h_2 =>
      split at hnone
      case isTrue => cases hnone
      case isFalse => cases hnone

/-- The block that the search finds, and what the hint says then of the blocks below it. -/
theorem searchStart_found (hinv : h.Inv) {size largest : ℕ} {pcur : FreeBlk}
    (hsearch : searchLoop size (searchStart h size).1 (searchStart h size).2 = (some pcur, largest))
    (hsize : 0 < size) :
    pcur ∈ h.ring ∧ size ≤ pcur.len ∧ ∀ b ∈ h.ring, b.addr < pcur.addr → b.len ≤ largest := by
  obtain ⟨hle, hfound, before, after, hsplit, hbefore⟩ := searchLoop_some hsearch
  have hsub : (searchStart h size).2.Sublist (⟨h.freehead, 0⟩ :: h.ring) := by
    unfold searchStart
    split
    case isTrue => exact List.sublist_cons_self _ _
    case isFalse => exact List.dropWhile_sublist _
  have hsorted := hinv.sorted.sublist hsub
  rw [hsplit] at hsorted
  have hmem : pcur ∈ h.ring := by
    have hin : pcur ∈ (searchStart h size).2 := hsplit ▸ List.mem_append_right _ List.mem_cons_self
    rcases List.mem_cons.1 (hsub.subset hin) with rfl | hin
    · dsimp only at hfound
      omega
    · exact hin
  refine ⟨hmem, hfound, ?_⟩
  intro b hb hlt
  rcases searchStart_covers hinv size hb with hin | ⟨-, hlen, -⟩
  · rw [hsplit] at hin
    rcases List.mem_append.1 hin with hin | hin
    · exact hbefore b hin
    · exfalso
      rcases List.mem_cons.1 hin with rfl | hin
      · exact lt_irrefl _ hlt
      · have := (List.pairwise_cons.1 (List.pairwise_append.1 hsorted).2.1).1 b hin
        omega
  · exact hlen.trans hle

/-- The ring after `size` bytes of one of its blocks have been used. -/
theorem mem_ring_useBlock (hinv : h.Inv) {pcur : FreeBlk} (hmem : pcur ∈ h.ring) {size : ℕ}
    (hsize : size ≤ pcur.len) {b : FreeBlk} :
    b ∈ ringFrom h.first (useBlock pcur.addr size h.first h.blocks) ↔
      (b ∈ h.ring ∧ b.addr ≠ pcur.addr) ∨
        (frlSize ≤ pcur.len - size ∧ b = ⟨pcur.addr + size, pcur.len - size⟩) := by
  have hpos : ∀ b ∈ h.blocks, 0 < b.len := fun b hb => lt_of_lt_of_le (by decide) (hinv.pos b hb)
  rw [ringFrom_useBlock hpos hsize hmem, List.mem_flatMap]
  constructor
  · rintro ⟨c, hc, hb⟩
    split at hb
    case isTrue =>
      split at hb
      case isTrue hleft => exact Or.inr ⟨hleft, List.mem_singleton.1 hb⟩
      case isFalse => cases hb
    case isFalse hne =>
      obtain rfl := List.mem_singleton.1 hb
      exact Or.inl ⟨hc, hne⟩
  · rintro (⟨hb, hne⟩ | ⟨hleft, rfl⟩)
    · exact ⟨b, hb, by rw [if_neg hne]; exact List.mem_singleton.2 rfl⟩
    · exact ⟨pcur, hmem, by rw [if_pos rfl, if_pos hleft]; exact List.mem_singleton.2 rfl⟩

theorem prevOf_mem (pcur : ℕ) :
    prevOf h pcur = h.freehead ∨ ∃ b ∈ h.ring, b.addr = prevOf h pcur ∧ b.addr < pcur := by
  unfold prevOf
  cases hlast : (h.ring.filter (·.addr < pcur)).getLast? with
  | none => exact Or.inl rfl
  | some b =>
      have hmem := List.mem_filter.1 (List.mem_of_getLast? hlast)
      exact Or.inr ⟨b, hmem.1, rfl, by simpa using hmem.2⟩

theorem pairwise_or {α : Type} {r : α → α → Prop} {l : List α} (h : l.Pairwise r) {a b : α} (ha : a ∈ l)
    (hb : b ∈ l) : a = b ∨ r a b ∨ r b a := by
  induction l with
  | nil => cases ha
  | cons c l ih =>
      obtain ⟨hhead, htail⟩ := List.pairwise_cons.1 h
      rcases List.mem_cons.1 ha with heqa | hina
      · rcases List.mem_cons.1 hb with heqb | hinb
        · exact Or.inl (heqa.trans heqb.symm)
        · exact Or.inr (Or.inl (heqa ▸ hhead b hinb))
      · rcases List.mem_cons.1 hb with heqb | hinb
        · exact Or.inr (Or.inr (heqb ▸ hhead a hina))
        · exact ih htail hina hinb

/-- The next block of the ring lies behind the one before. -/
theorem ring_apart {a b : FreeBlk} (ha : a ∈ h.ring) (hb : b ∈ h.ring) (hlt : a.addr < b.addr) :
    a.addr + a.len ≤ b.addr := by
  rcases pairwise_or (ringFrom_sorted h.first) ha hb with rfl | hab | hba
  · exact absurd hlt (lt_irrefl _)
  · exact hab
  · omega

/-- The hints stay bounds. -/
theorem memAllocator_inv (hinv : h.Inv) (reqSize : ℕ) : (memAllocator reqSize h).2.Inv := by
  unfold memAllocator
  split
  case isTrue => exact hinv
  case isFalse =>
  split
  case isTrue => exact hinv
  case isFalse =>
  dsimp only
  split
  case isTrue => exact hinv
  case isFalse =>
  have hsize0 : frlSize ≤ blockSize reqSize := le_max_right _ _
  have hpos0 : 0 < blockSize reqSize := lt_of_lt_of_le (by decide) hsize0
  generalize blockSize reqSize = size at *
  split
  case h_1 largest hsearch =>
    refine ⟨hinv.pos, hinv.fits, hinv.rover, hinv.before, ?_⟩
    intro b hb
    obtain ⟨hle, hall⟩ := searchLoop_none hsearch
    rcases searchStart_covers hinv size hb with hin | ⟨-, hlen, -⟩
    · exact (hall b hin).2
    · exact hlen.trans hle
  case h_2 pcur largest hsearch =>
    obtain ⟨hmem, hfound, hbelow⟩ := searchStart_found hinv hsearch hpos0
    have hring := fun b => mem_ring_useBlock hinv hmem hfound (b := b)
    have hpos : ∀ b ∈ useBlock pcur.addr size h.first h.blocks, frlSize ≤ b.len := useBlock_pos hinv.pos hsize0
    have hsum : ((useBlock pcur.addr size h.first h.blocks).map Blk.len).sum = (h.blocks.map Blk.len).sum :=
      useBlock_sum (fun b hb => lt_of_lt_of_le (by decide) (hinv.pos b hb)) hfound hmem
    have hfits : h.addr + (heapblkSize + ((useBlock pcur.addr size h.first h.blocks).map Blk.len).sum) + tagSize ≤
        65536 := by
      rw [hsum]
      exact hinv.fits
    have hlargest : ∀ b ∈ ringFrom h.first (useBlock pcur.addr size h.first h.blocks), b.len ≤ h.largestBlk := by
      intro b hb
      rcases (hring b).1 hb with ⟨hb, -⟩ | ⟨-, rfl⟩
      · exact hinv.largest b hb
      · exact (Nat.sub_le _ _).trans (hinv.largest pcur hmem)
    split
    case isTrue hleft =>
      refine ⟨hpos, hfits, Or.inr ⟨⟨pcur.addr + size, pcur.len - size⟩, ?_, rfl⟩, ?_, hlargest⟩
      · exact (hring _).2 (Or.inr ⟨hleft, rfl⟩)
      · intro b hb hlt
        dsimp only at hlt
        rcases (hring b).1 hb with ⟨hb, hne⟩ | ⟨-, rfl⟩
        · rcases Nat.lt_or_gt_of_ne hne with hlow | hhigh
          · exact hbelow b hb hlow
          · have := ring_apart hmem hb hhigh
            omega
        · exact absurd hlt (lt_irrefl _)
    case isFalse hleft =>
      refine ⟨hpos, hfits, ?_, ?_, hlargest⟩
      · rcases prevOf_mem (h := h) pcur.addr with heq | ⟨b, hb, heq, hlt⟩
        · exact Or.inl heq
        · exact Or.inr ⟨b, (hring b).2 (Or.inl ⟨hb, hlt.ne⟩), heq⟩
      · intro b hb hlt
        dsimp only at hlt
        rcases (hring b).1 hb with ⟨hb, -⟩ | ⟨hsplit, -⟩
        · refine hbelow b hb ?_
          rcases prevOf_mem (h := h) pcur.addr with heq | ⟨c, -, heq, hc⟩
          · have := MiniHeap.freehead_lt hb
            omega
          · omega
        · exact absurd hsplit hleft

end hints

end OpenWatcom.Clib
