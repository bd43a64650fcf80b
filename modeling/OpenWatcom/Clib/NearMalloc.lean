import Mathlib.Data.List.TakeWhile
import OpenWatcom.Clib.NearHeap

/-! # Allocation in the near heap

`_nmalloc` over the list of miniheaps, with the miniheap rover and the largest size known before it. -/

namespace OpenWatcom.Clib

/-- The near heap: the miniheaps from `__nheapbeg` on, `__MiniHeapRover` and `__LargestSizeB4MiniHeapRover`. -/
structure NearHeap where
  heaps : List MiniHeap
  miniRover : Option ℕ
  largestB4 : ℕ
deriving DecidableEq, Repr

/-- What a search leaves. -/
structure Searched where
  cstg : Option ℕ
  heaps : List MiniHeap
  miniRover : Option ℕ
  largestB4 : ℕ
deriving DecidableEq, Repr

/-- The search for a free block in the miniheaps that are left. -/
def searchHeaps (amt : ℕ) : Option ℕ → ℕ → List MiniHeap → Searched
  | rover, b4, [] => ⟨none, [], rover, b4⟩
  | _, b4, heap :: rest =>
    let found := if amt ≤ heap.largestBlk then memAllocator amt heap else (none, heap)
    match found.1 with
    | some cstg => ⟨some cstg, found.2 :: rest, some heap.addr, b4⟩
    | none =>
      let s := searchHeaps amt (some heap.addr) (if b4 < heap.largestBlk then heap.largestBlk else b4) rest
      { s with heaps := found.2 :: s.heaps }

/-- Where `_nmalloc` starts: the miniheaps that it leaves out, those that it searches, and the size known before. -/
def NearHeap.startOf (st : NearHeap) (size : ℕ) : List MiniHeap × List MiniHeap × ℕ :=
  if st.largestB4 < size then
    match st.miniRover with
    | none => ([], st.heaps, 0)
    | some r => (st.heaps.takeWhile (·.addr ≠ r), st.heaps.dropWhile (·.addr ≠ r), st.largestB4)
  else ([], st.heaps, 0)

/-- One search of `_nmalloc`. -/
def searchPass (amt : ℕ) (st : NearHeap) : Option ℕ × NearHeap :=
  let start := st.startOf (blockSize amt)
  let s := searchHeaps amt st.miniRover start.2.2 start.2.1
  (s.cstg, ⟨start.1 ++ s.heaps, s.miniRover, s.largestB4⟩)

/-- `__ExpandDGROUP` and `__nmemneed`: the heap they leave, and whether to search again. -/
structure Growth where
  expandDGROUP : ℕ → NearHeap → Bool × NearHeap
  nmemneed : ℕ → NearHeap → Bool × NearHeap

/-- The loop of `_nmalloc`; nothing is said after more searches than `fuel`. -/
def nmallocLoop (g : Growth) (amt : ℕ) : ℕ → Bool → NearHeap → Option (Option ℕ × NearHeap)
  | 0, _, _ => none
  | fuel + 1, expanded, st =>
    let pass := searchPass amt st
    match pass.1 with
    | some cstg => some (some cstg, pass.2)
    | none =>
      let grown := if expanded then (false, pass.2) else g.expandDGROUP amt pass.2
      if grown.1 then nmallocLoop g amt fuel true grown.2
      else
        let needed := g.nmemneed amt grown.2
        if needed.1 then nmallocLoop g amt fuel false needed.2 else some (none, needed.2)

/-- `_nmalloc`. -/
def nmalloc (g : Growth) (fuel amt : ℕ) (st : NearHeap) : Option (Option ℕ × NearHeap) :=
  if amt = 0 ∨ 65536 - heapblkSize < amt then some (none, st) else nmallocLoop g amt fuel false st

/-- The miniheaps in address order, the rover one of them, and the hint a bound for those before it. -/
structure NearHeap.Inv (st : NearHeap) : Prop where
  heaps : ∀ h ∈ st.heaps, h.Inv
  sorted : st.heaps.Pairwise (fun a b => a.addr < b.addr)
  rover : ∀ r ∈ st.miniRover, ∃ h ∈ st.heaps, h.addr = r
  before : ∀ r ∈ st.miniRover, ∀ h ∈ st.heaps, h.addr < r → ∀ b ∈ h.ring, b.len ≤ st.largestB4

/-- Some free block is large enough. -/
def NearHeap.Fits (st : NearHeap) (size : ℕ) : Prop := ∃ h ∈ st.heaps, ∃ b ∈ h.ring, size ≤ b.len

theorem memAllocator_addr (reqSize : ℕ) (h : MiniHeap) : (memAllocator reqSize h).2.addr = h.addr := by
  unfold memAllocator
  dsimp only
  split_ifs <;> try rfl
  split
  case h_1 => rfl
  case h_2 => split <;> rfl

section pass

variable {amt : ℕ}

theorem memAllocator_none_ring {h : MiniHeap} (hnone : (memAllocator amt h).1 = none) :
    (memAllocator amt h).2.ring = h.ring := by
  unfold memAllocator at hnone ⊢
  dsimp only at hnone ⊢
  split
  case isTrue => rfl
  case isFalse h0 =>
  rw [if_neg h0] at hnone
  split
  case isTrue => rfl
  case isFalse hround =>
  rw [if_neg hround] at hnone
  split
  case isTrue => rfl
  case isFalse hlarge =>
  rw [if_neg hlarge] at hnone
  split
  case h_1 => rfl
  case h_2 pcur largest hsearch =>
    rw [hsearch] at hnone
    dsimp only at hnone
    split at hnone <;> cases hnone

theorem le_blockSize (hround : amt ≤ roundUpSizeHeap amt) : amt ≤ blockSize amt :=
  hround.trans (le_max_left _ _)

/-- One miniheap of the search: what is tried leaves its ring when it finds nothing, and finds a block that fits. -/
theorem try_spec {h : MiniHeap} (hinv : h.Inv) (h0 : amt ≠ 0) (hround : amt ≤ roundUpSizeHeap amt) :
    let found := if amt ≤ h.largestBlk then memAllocator amt h else (none, h)
    found.2.Inv ∧ found.2.addr = h.addr ∧
      (found.1 = none → found.2.ring = h.ring ∧ ∀ b ∈ h.ring, b.len < blockSize amt) := by
  dsimp only
  split
  case isTrue =>
    refine ⟨memAllocator_inv hinv amt, memAllocator_addr amt h, fun hnone => ⟨memAllocator_none_ring hnone, ?_⟩⟩
    rcases memAllocator_eq_none hinv hnone with hzero | hlt | hall
    · exact absurd hzero h0
    · omega
    · exact hall
  case isFalse hlarge =>
    refine ⟨hinv, rfl, fun _ => ⟨rfl, ?_⟩⟩
    intro b hb
    have hle := hinv.largest b hb
    have hsize := le_blockSize hround
    omega

/-- What a search of miniheaps leaves. -/
structure SearchSpec (amt : ℕ) (rover : Option ℕ) (b4 : ℕ) (rest : List MiniHeap) (s : Searched) : Prop where
  heaps : ∀ h ∈ s.heaps, h.Inv
  addrs : s.heaps.map MiniHeap.addr = rest.map MiniHeap.addr
  bound : b4 ≤ s.largestB4
  rover : (rest = [] ∧ s.miniRover = rover) ∨ ∃ h ∈ s.heaps, s.miniRover = some h.addr
  before : ∀ h ∈ s.heaps, ∀ r ∈ s.miniRover, h.addr < r → ∀ b ∈ h.ring, b.len ≤ s.largestB4
  failed : s.cstg = none → ∀ h ∈ s.heaps, ∀ b ∈ h.ring, b.len < blockSize amt
  found : (∃ h ∈ rest, ∃ b ∈ h.ring, blockSize amt ≤ b.len) → ∃ cstg, s.cstg = some cstg

theorem searchHeaps_spec (h0 : amt ≠ 0) (hround : amt ≤ roundUpSizeHeap amt) {rest : List MiniHeap}
    (hinv : ∀ h ∈ rest, h.Inv) (hsorted : rest.Pairwise (fun a b => a.addr < b.addr)) (rover : Option ℕ) (b4 : ℕ) :
    SearchSpec amt rover b4 rest (searchHeaps amt rover b4 rest) := by
  induction rest generalizing rover b4 with
  | nil =>
      exact ⟨fun h hh => (by cases hh), rfl, le_rfl, Or.inl ⟨rfl, rfl⟩, fun h hh => (by cases hh),
        fun _ h hh => (by cases hh), fun ⟨h, hh, _⟩ => (by cases hh)⟩
  | cons heap rest ih =>
      obtain ⟨hhead, htail⟩ := List.pairwise_cons.1 hsorted
      have hrest : ∀ h ∈ rest, h.Inv := fun h hh => hinv h (List.mem_cons_of_mem _ hh)
      obtain ⟨hfinv, hfaddr, hfnone⟩ := try_spec (hinv heap List.mem_cons_self) h0 hround
      unfold searchHeaps
      dsimp only
      generalize (if amt ≤ heap.largestBlk then memAllocator amt heap else (none, heap)) = found at *
      split
      case h_1 cstg hcstg =>
        refine ⟨?_, by rw [List.map_cons, List.map_cons, hfaddr], le_rfl,
          Or.inr ⟨found.2, List.mem_cons_self, by rw [hfaddr]⟩, ?_, (fun hnone => by cases hnone),
          fun _ => ⟨cstg, rfl⟩⟩
        · intro h hh
          rcases List.mem_cons.1 hh with rfl | hh
          · exact hfinv
          · exact hrest h hh
        · -- no miniheap of the list lies below the first
          intro h hh r hr hlt
          obtain rfl := Option.some_inj.1 hr
          rcases List.mem_cons.1 hh with rfl | hh
          · omega
          · have := hhead h hh
            omega
      case h_2 hcstg =>
        obtain ⟨hring, hsmall⟩ := hfnone hcstg
        have hle : heap.largestBlk ≤ (if b4 < heap.largestBlk then heap.largestBlk else b4) := by
          split <;> omega
        have hb4 : b4 ≤ (if b4 < heap.largestBlk then heap.largestBlk else b4) := by
          split <;> omega
        generalize (if b4 < heap.largestBlk then heap.largestBlk else b4) = b4' at *
        have hspec := ih hrest htail (some heap.addr) b4'
        generalize searchHeaps amt (some heap.addr) b4' rest = s at *
        refine ⟨?_, by rw [List.map_cons, List.map_cons, hfaddr, hspec.addrs], hb4.trans hspec.bound,
          ?_, ?_, ?_, ?_⟩
        · intro h hh
          rcases List.mem_cons.1 hh with rfl | hh
          · exact hfinv
          · exact hspec.heaps h hh
        · right
          rcases hspec.rover with ⟨-, hr⟩ | ⟨h, hh, hr⟩
          · exact ⟨found.2, List.mem_cons_self, hfaddr.symm ▸ hr⟩
          · exact ⟨h, List.mem_cons_of_mem _ hh, hr⟩
        · intro h hh r hr hlt b hb
          rcases List.mem_cons.1 hh with rfl | hh
          · rw [hring] at hb
            exact (((hinv heap List.mem_cons_self).largest b hb).trans hle).trans hspec.bound
          · exact hspec.before h hh r hr hlt b hb
        · intro hnone h hh b hb
          rcases List.mem_cons.1 hh with rfl | hh
          · exact hsmall b (hring ▸ hb)
          · exact hspec.failed hnone h hh b hb
        · rintro ⟨h, hh, b, hb, hfit⟩
          rcases List.mem_cons.1 hh with rfl | hh
          · exact absurd (hsmall b hb) (not_lt.2 hfit)
          · exact hspec.found ⟨h, hh, b, hb, hfit⟩

/-- The miniheaps that the search leaves out have no block that is large enough. -/
theorem startOf_spec {st : NearHeap} (hinv : st.Inv) (size : ℕ) :
    (st.startOf size).1 ++ (st.startOf size).2.1 = st.heaps ∧
      ∀ h ∈ (st.startOf size).1, ∀ b ∈ h.ring, b.len ≤ (st.startOf size).2.2 ∧ b.len < size := by
  unfold NearHeap.startOf
  split
  case isFalse => exact ⟨rfl, fun h hh => by cases hh⟩
  case isTrue hlt =>
    split
    case h_1 => exact ⟨rfl, fun h hh => by cases hh⟩
    case h_2 r hr =>
      have hsplit : st.heaps.takeWhile (·.addr ≠ r) ++ st.heaps.dropWhile (·.addr ≠ r) = st.heaps :=
        List.takeWhile_append_dropWhile
      refine ⟨hsplit, ?_⟩
      intro h hh b hb
      obtain ⟨hr', hrmem, hraddr⟩ := hinv.rover r hr
      -- the miniheap of the rover is not left out
      have hdrop : hr' ∈ st.heaps.dropWhile (·.addr ≠ r) := by
        rw [← hsplit] at hrmem
        rcases List.mem_append.1 hrmem with hin | hin
        · have := List.mem_takeWhile_imp hin
          exact absurd hraddr (by simpa using this)
        · exact hin
      have hbelow : h.addr < r := by
        have hsorted := hinv.sorted
        rw [← hsplit] at hsorted
        exact hraddr ▸ (List.pairwise_append.1 hsorted).2.2 h hh hr' hdrop
      have hlen := hinv.before r hr h (hsplit ▸ List.mem_append_left _ hh) hbelow b hb
      exact ⟨hlen, by omega⟩

/-- A search of `_nmalloc`: the invariant stays, what fits is found, and nothing fits when nothing is found. -/
theorem searchPass_spec {st : NearHeap} (hinv : st.Inv) (h0 : amt ≠ 0) (hround : amt ≤ roundUpSizeHeap amt) :
    (searchPass amt st).2.Inv ∧
      ((searchPass amt st).1 = none → ¬ (searchPass amt st).2.Fits (blockSize amt)) ∧
      (st.Fits (blockSize amt) → ∃ cstg, (searchPass amt st).1 = some cstg) := by
  obtain ⟨hsplit, hleft⟩ := startOf_spec hinv (blockSize amt)
  unfold searchPass
  dsimp only
  generalize st.startOf (blockSize amt) = start at *
  obtain ⟨left, rest, b4⟩ := start
  dsimp only at hsplit hleft ⊢
  have hinvs := hinv.heaps
  have hsorted := hinv.sorted
  rw [← hsplit] at hinvs hsorted
  have hspec := searchHeaps_spec h0 hround (fun h hh => hinvs h (List.mem_append_right _ hh))
    (List.pairwise_append.1 hsorted).2.1 st.miniRover b4
  generalize searchHeaps amt st.miniRover b4 rest = s at *
  refine ⟨⟨?_, ?_, ?_, ?_⟩, ?_, ?_⟩
  · intro h hh
    rcases List.mem_append.1 hh with hh | hh
    · exact hinvs h (List.mem_append_left _ hh)
    · exact hspec.heaps h hh
  · have hmap : (left ++ s.heaps).map MiniHeap.addr = (left ++ rest).map MiniHeap.addr := by
      rw [List.map_append, List.map_append, hspec.addrs]
    have hlt := List.pairwise_map.2 hsorted
    rw [← hmap] at hlt
    exact List.pairwise_map.1 hlt
  · intro r hr
    rcases hspec.rover with ⟨hnil, hrover⟩ | ⟨h, hh, hrover⟩
    · obtain ⟨h, hh, haddr⟩ := hinv.rover r (hrover ▸ hr)
      rw [← hsplit, hnil, List.append_nil] at hh
      exact ⟨h, List.mem_append_left _ hh, haddr⟩
    · exact ⟨h, List.mem_append_right _ hh, Option.some_inj.1 (hrover.symm.trans hr)⟩
  · intro r hr h hh hlt b hb
    rcases List.mem_append.1 hh with hh | hh
    · exact (hleft h hh b hb).1.trans hspec.bound
    · exact hspec.before h hh r hr hlt b hb
  · rintro hnone ⟨h, hh, b, hb, hfit⟩
    rcases List.mem_append.1 hh with hh | hh
    · exact absurd (hleft h hh b hb).2 (not_lt.2 hfit)
    · exact absurd (hspec.failed hnone h hh b hb) (not_lt.2 hfit)
  · rintro ⟨h, hh, b, hb, hfit⟩
    rw [← hsplit] at hh
    rcases List.mem_append.1 hh with hh | hh
    · exact absurd (hleft h hh b hb).2 (not_lt.2 hfit)
    · exact hspec.found ⟨h, hh, b, hb, hfit⟩

end pass

/-- A block of a miniheap and what lies around it fit in 64K. -/
theorem MiniHeap.Inv.len_le {h : MiniHeap} (hinv : h.Inv) {b : FreeBlk} (hb : b ∈ h.ring) :
    b.len + heapblkSize + tagSize ≤ 65536 := by
  have hplace := ringFrom_addr_le hb
  have hfits := hinv.fits
  unfold MiniHeap.len at hfits
  unfold MiniHeap.first at hplace
  omega

end OpenWatcom.Clib
