import OpenWatcom.Clib.FarHeap

/-! # Slabs as heaps

`__AllocSeg` writes a heap with one free block into the slab that it hands out: a `heapblk`, the free block
behind it and an end tag.  All sizes are computed in 16 bits, and the length 0 stands for 64K. -/

namespace OpenWatcom.Clib

/-! ### Words of a slab -/

/-- The word at the offset `off` when the words have been written in order. -/
def wordAt (off : ℕ) : List (ℕ × ℕ) → Option ℕ
  | [] => none
  | (o, w) :: rest => (wordAt off rest).or (if o = off then some w else none)

/-- A heap of `paras` paragraphs with one free block: the fields of the `heapblk` (22 bytes), the block
behind it of at least `FRL_SIZE` bytes, and the end tag, which is the last `len` with the `prev` behind it. -/
structure Slab.WellFormed (s : Slab) : Prop where
  /-- `len`; 0 is 64K. -/
  len : wordAt 0 s.format = some (16 * s.paras % 65536)
  links : wordAt 2 s.format = some 0 ∧ wordAt 4 s.format = some 0
  rover : wordAt 6 s.format = some 22 ∧ wordAt 8 s.format = some 0
  counts : wordAt 12 s.format = some 0 ∧ wordAt 14 s.format = some 1
  freehead : wordAt 16 s.format = some 0 ∧ wordAt 18 s.format = some 22 ∧ wordAt 20 s.format = some 22
  /-- The free block, which is the largest one and reaches from the header to the end tag. -/
  block : ∃ n, wordAt 22 s.format = some n ∧ wordAt 10 s.format = some n ∧ 6 ≤ n ∧
    22 + n + 4 = 16 * s.paras
  blockLinks : wordAt 24 s.format = some 16 ∧ wordAt 26 s.format = some 16
  endTag : wordAt (16 * s.paras - 4) s.format = some 0xFFFF ∧ wordAt (16 * s.paras - 2) s.format = some 0
  /-- Nothing is written outside the slab. -/
  inside : ∀ p ∈ s.format, p.1 + 2 ≤ 16 * s.paras

/-- With two paragraphs or more the end tag is behind the links of the free block, and the sizes do not wrap. -/
theorem formatSlab_wellFormed (seg : ℕ) {chunk : ℕ} (hlow : 2 ≤ chunk) (hhigh : chunk ≤ parasIn64K) :
    Slab.WellFormed ⟨seg, chunk, formatSlab (chunk * 16 % 65536)⟩ := by
  unfold parasIn64K at hhigh
  have hfree : (chunk * 16 % 65536 + (65536 - 26)) % 65536 = 16 * chunk - 26 := by omega
  have htag : (chunk * 16 % 65536 + (65536 - 4)) % 65536 = 16 * chunk - 4 := by omega
  have hlast : (16 * chunk - 4 + 2) % 65536 = 16 * chunk - 2 := by omega
  have hlen : chunk * 16 % 65536 = 16 * chunk % 65536 := by rw [Nat.mul_comm]
  have hformat : formatSlab (chunk * 16 % 65536) =
      [(0, 16 * chunk % 65536), (2, 0), (4, 0), (6, 22), (8, 0), (12, 0), (14, 1), (16, 0), (18, 22), (20, 22),
        (10, 16 * chunk - 26), (22, 16 * chunk - 26), (24, 16), (26, 16), (16 * chunk - 4, 0xFFFF),
        (16 * chunk - 2, 0)] := by
    unfold formatSlab
    dsimp only
    rw [hfree, htag, hlast, hlen]
  rw [hformat]
  have htag0 : ∀ n, n ≤ 26 → 16 * chunk - 4 ≠ n ∧ 16 * chunk - 2 ≠ n := by omega
  constructor
  case block =>
    refine ⟨16 * chunk - 26, ?_, ?_, by omega, by dsimp only; omega⟩
    · simp [wordAt, htag0]
    · simp [wordAt, htag0]
  case endTag =>
    have hapart : 16 * chunk - 2 ≠ 16 * chunk - 4 := by omega
    constructor
    · simp [wordAt, hapart]
    · simp [wordAt]
  case inside =>
    intro p hp
    simp only [List.mem_cons, List.not_mem_nil, or_false] at hp
    dsimp only
    obtain rfl | rfl | rfl | rfl | rfl | rfl | rfl | rfl | rfl | rfl | rfl | rfl | rfl | rfl | rfl | rfl := hp
    all_goals dsimp only; omega
  all_goals simp [wordAt, htag0]

/-! ### Slabs that are handed out -/

/-- The static variables when the base page has been read. -/
def FarHeap.ready (h : FarHeap) (page : BasePage) (marker : FarPtr) : FarHeap :=
  if h.baseSeg = 0 then fhInit page marker else h

/-- The paragraphs of the Extra group that are left. -/
def FarHeap.remaining (h : FarHeap) (page : BasePage) (marker : FarPtr) : ℕ :=
  (h.ready page marker).totalParas - (h.ready page marker).usedParas

/-- The slab has what is left, but at most 64K. -/
theorem allocSeg_eq_some {page : BasePage} {marker : FarPtr} {enabled : Bool} {amount : ℕ} {h : FarHeap}
    {s : Slab} (hs : (allocSeg page marker enabled amount h).1 = some s) :
    0 < h.remaining page marker ∧
      s = ⟨((h.ready page marker).baseSeg + (h.ready page marker).usedParas) % 65536,
        min (h.remaining page marker) parasIn64K,
        formatSlab (min (h.remaining page marker) parasIn64K * 16 % 65536)⟩ := by
  unfold allocSeg at hs
  cases enabled with
  | false => simp at hs
  | true =>
      simp only [Bool.not_true, Bool.false_eq_true, if_false] at hs
      unfold FarHeap.remaining FarHeap.ready
      generalize (if h.baseSeg = 0 then fhInit page marker else h) = r at hs ⊢
      by_cases hfull : r.usedParas ≥ r.totalParas
      · simp [if_pos hfull] at hs
      · rw [if_neg hfull] at hs
        have hchunk : (if r.totalParas - r.usedParas > parasIn64K then parasIn64K
            else r.totalParas - r.usedParas) = min (r.totalParas - r.usedParas) parasIn64K := by
          split_ifs <;> omega
        rw [hchunk] at hs
        exact ⟨by omega, (Option.some.inj hs).symm⟩

/-- Whatever is asked for and whatever is left: the slab that is handed out is a heap exactly if more than one
paragraph was left. -/
theorem allocSeg_wellFormed_iff {page : BasePage} {marker : FarPtr} {enabled : Bool} {amount : ℕ} {h : FarHeap}
    {s : Slab} (hs : (allocSeg page marker enabled amount h).1 = some s) :
    s.WellFormed ↔ 2 ≤ h.remaining page marker := by
  obtain ⟨hpos, rfl⟩ := allocSeg_eq_some hs
  constructor
  · intro hwell
    obtain ⟨n, -, -, hmin, hsize⟩ := hwell.block
    dsimp only at hsize
    omega
  · intro hleft
    exact formatSlab_wellFormed _ (by unfold parasIn64K; omega) (min_le_right _ _)

/-- Two paragraphs are left. -/
theorem allocSeg_two : Slab.WellFormed ⟨0x3000, 2, formatSlab 32⟩ ↔
    2 ≤ FarHeap.remaining ⟨0x2000, 0x1002, 0x1000⟩ ⟨![0, 0, 0], 0⟩ ⟨0, 0⟩ :=
  @allocSeg_wellFormed_iff ⟨![0, 0, 0], 0⟩ ⟨0, 0⟩ true 100 ⟨0x2000, 0x1002, 0x1000⟩ ⟨0x3000, 2, formatSlab 32⟩ rfl

/-- One paragraph is left: the size of the free block wraps around and the end tag is in the header. -/
theorem allocSeg_one : ¬ ∀ (page : BasePage) (marker : FarPtr) (enabled : Bool) (amount : ℕ) (h : FarHeap)
    (s : Slab), (allocSeg page marker enabled amount h).1 = some s → s.WellFormed := by
  intro hall
  have hwell := hall ⟨![0, 0, 0], 0⟩ ⟨0, 0⟩ true 100 ⟨0x2000, 0x1001, 0x1000⟩ ⟨0x3000, 1, formatSlab 16⟩ rfl
  obtain ⟨n, -, -, hmin, hsize⟩ := hwell.block
  dsimp only at hsize
  omega

end OpenWatcom.Clib
