import OpenWatcom.Lib.Runs
import OpenWatcom.Wlink.CmdLayout

/-! # The far heap

`farheap.c`: `__AllocSeg` carves the Extra group of the program into slabs of up to 64K, from the end of
the far data upwards.  Where the far data ends it takes from a marker, a far object of its own,
and of the marker's address it looks at the offset only.

`LoadedExtra` is a program of the linker with its Extra group in memory, where the far data groups
are at the paragraph offsets that relocations use.  `slabsSafe_iff` says exactly when the slabs stay clear of the
far data in every run. -/

namespace OpenWatcom.Clib

open Wlink

/-! ### The allocator -/

/-- `PARAS_IN_64K`. -/
def parasIn64K : ℕ := 0x1000

/-- The fields of the base page that describe the Extra group: LE0 to LE2 and BE0, BE1. -/
structure BasePage where
  le : Fin 3 → ℕ
  be : ℕ

/-- A far pointer: `w[0]` and `w[1]`. -/
structure FarPtr where
  offs : ℕ
  seg : ℕ

/-- The static variables `__cpm86_fh_base_seg`, `__cpm86_fh_total_paras` and
`__cpm86_fh_used_paras`. -/
structure FarHeap where
  baseSeg : ℕ
  totalParas : ℕ
  usedParas : ℕ
  deriving DecidableEq, Repr

/-- A slab that has been handed out, with the words that `__AllocSeg` writes into it. -/
structure Slab where
  seg : ℕ
  paras : ℕ
  format : List (ℕ × ℕ)
  deriving DecidableEq, Repr

/-- The address is in the slab. -/
def Slab.Has (s : Slab) (addr : ℕ) : Prop := 16 * s.seg ≤ addr ∧ addr < 16 * (s.seg + s.paras)

instance (s : Slab) (addr : ℕ) : Decidable (s.Has addr) := inferInstanceAs (Decidable (_ ∧ _))

/-- `__cpm86_fh_marker_paras`. -/
def markerParas (marker : FarPtr) : ℕ :=
  let off := (marker.offs + 1) % 65536
  (off + 15) % 65536 / 16

/-- `__cpm86_fh_init`. -/
def fhInit (page : BasePage) (marker : FarPtr) : FarHeap :=
  let lastOff := page.le 0 + page.le 1 * 2 ^ 8 + page.le 2 * 2 ^ 16
  let totalParas := (lastOff + 1) / 16 % 65536
  let dataParas := markerParas marker
  ⟨page.be, totalParas, if dataParas < totalParas then dataParas else totalParas⟩

/-- The words that make a slab of `heaplen` bytes a heap with one free block: offset and contents, in the
order they are written. -/
def formatSlab (heaplen : ℕ) : List (ℕ × ℕ) :=
  let free := (heaplen + (65536 - 26)) % 65536   -- heaplen - sizeof( heapblk ) - 2 * TAG_SIZE
  let tag := (heaplen + (65536 - 4)) % 65536     -- heaplen - 2 * TAG_SIZE
  [(0, heaplen), (2, 0), (4, 0), (6, 22), (8, 0), (12, 0), (14, 1), (16, 0), (18, 22), (20, 22),
    (10, free), (22, free), (24, 16), (26, 16), (tag, 0xFFFF), ((tag + 2) % 65536, 0)]

/-- `__AllocSeg`; `enabled` is `__heap_enabled`, and `none` is `_NULLSEG`. -/
def allocSeg (page : BasePage) (marker : FarPtr) (enabled : Bool) (_amount : ℕ) (h : FarHeap) :
    Option Slab × FarHeap :=
  if !enabled then (none, h)
  else
    let h := if h.baseSeg = 0 then fhInit page marker else h
    if h.usedParas ≥ h.totalParas then (none, h)
    else
      let chunkParas := h.totalParas - h.usedParas
      let chunkParas := if chunkParas > parasIn64K then parasIn64K else chunkParas
      let seg := (h.baseSeg + h.usedParas) % 65536
      (some ⟨seg, chunkParas, formatSlab (chunkParas * 16 % 65536)⟩,
        { h with usedParas := (h.usedParas + chunkParas) % 65536 })

/-- `__FreeSeg`. -/
def freeSeg (_seg : ℕ) (h : FarHeap) : Int × FarHeap := (-1, h)

/-! ### Programs in memory -/

/-- A program with far data whose Extra group of `paras` paragraphs is loaded at the segment `base`, and
the place of the marker in its far data. -/
structure LoadedExtra where
  prog : Program
  base : ℕ
  paras : ℕ
  marker : GroupEntry
  markerOff : ℕ
  /-- The group is not where the interrupt vectors are, and in 1 MB. -/
  base_pos : 0 < base
  top : base + paras ≤ 0x10000
  /-- The loader grants the memory of the far data at least. -/
  holds : CmdType.extra.allocParas prog.groups ≤ paras
  marker_mem : marker ∈ CmdType.extra.groups prog.groups
  markerOff_lt : markerOff < marker.totalsize

namespace LoadedExtra

variable (x : LoadedExtra)

/-- What the loader writes into the base page: the last byte position and the segment. -/
def page : BasePage :=
  let lastOff := 16 * x.paras - 1
  ⟨![lastOff % 2 ^ 8, lastOff / 2 ^ 8 % 2 ^ 8, lastOff / 2 ^ 16 % 2 ^ 8], x.base⟩

/-- The address of the marker. -/
def markerPtr : FarPtr :=
  ⟨x.markerOff, x.base + cpm86GroupImgPara x.prog.groups x.marker⟩

/-- The address belongs to the far data. -/
def FarByte (addr : ℕ) : Prop :=
  ∃ g ∈ CmdType.extra.groups x.prog.groups, ∃ o < g.totalsize,
    addr = 16 * (x.base + cpm86GroupImgPara x.prog.groups g) + o

end LoadedExtra

/-! ### Runs -/

/-- A call of the allocator: `__AllocSeg`, with `__heap_enabled` and the amount, or `__FreeSeg`. -/
inductive Call where
  | alloc (enabled : Bool) (amount : ℕ)
  | free (seg : ℕ)
  deriving DecidableEq, Repr

/-- The static variables and the slabs handed out so far, the last one first. -/
structure FarState where
  heap : FarHeap
  slabs : List Slab

namespace LoadedExtra

variable (x : LoadedExtra)

def step (s : FarState) : Call → FarState
  | .alloc enabled amount =>
    let (seg, heap) := allocSeg x.page x.markerPtr enabled amount s.heap
    ⟨heap, seg.toList ++ s.slabs⟩
  | .free seg => { s with heap := (freeSeg seg s.heap).2 }

/-- Program start: the base segment is 0, and the other variables are not read before they are
set. -/
def start (total used : ℕ) : FarState := ⟨⟨0, total, used⟩, []⟩

/-- The slabs are apart, inside the Extra group and clear of the far data. -/
structure SlabsSafe (slabs : List Slab) : Prop where
  apart : slabs.Pairwise fun s t => ∀ addr, s.Has addr → ¬ t.Has addr
  inside : ∀ s ∈ slabs, x.base ≤ s.seg ∧ s.seg + s.paras ≤ x.base + x.paras
  clear : ∀ s ∈ slabs, ∀ addr, x.FarByte addr → ¬ s.Has addr

/-- Where the first slab starts. -/
def firstParas : ℕ := min (markerParas x.markerPtr) x.paras

/-- What holds after any run: nothing has been read from the base page yet, or the slabs are what
lies between the first paragraph and those that are used. -/
inductive Carved (s : FarState) : Prop
  | fresh (base : s.heap.baseSeg = 0) (slabs : s.slabs = [])
  | ready (base : s.heap.baseSeg = x.base) (total : s.heap.totalParas = x.paras)
      (first : x.firstParas ≤ s.heap.usedParas) (used : s.heap.usedParas ≤ x.paras)
      (range : ∀ t ∈ s.slabs, x.base + x.firstParas ≤ t.seg ∧
        t.seg + t.paras ≤ x.base + s.heap.usedParas)
      (above : s.slabs.Pairwise fun a b => b.seg + b.paras ≤ a.seg)
      (covered : ∀ q, x.firstParas ≤ q → q < s.heap.usedParas → ∃ t ∈ s.slabs,
        t.seg ≤ x.base + q ∧ x.base + q < t.seg + t.paras)

/-- A group of far data lies in the Extra group. -/
theorem far_le {g : GroupEntry} (hg : g ∈ CmdType.extra.groups x.prog.groups) :
    0 < g.totalsize ∧
      16 * cpm86GroupImgPara x.prog.groups g + g.totalsize ≤ 16 * x.paras := by
  have hholds := x.holds
  obtain ⟨hmem, htype⟩ := groups_sub hg
  have hsize : g.totalsize ≠ 0 := by
    have := (List.mem_filter.mp hg).2
    rw [decide_eq_true_eq] at this
    exact this.1
  obtain ⟨pre, post, hsplit, hpara, -⟩ := x.prog.cpm86GroupImgPara_eq hmem hsize
  rw [htype] at hsplit
  unfold CmdType.allocParas at hholds
  rw [hsplit, List.map_append, List.map_cons, List.sum_append, List.sum_cons] at hholds
  have halloc : g.totalsize ≤ 16 * g.allocParas := by
    unfold GroupEntry.allocParas
    omega
  omega

theorem paras_pos : 0 < x.paras := by
  have := x.far_le x.marker_mem
  omega

/-- The base page is read as it was written. -/
theorem fhInit_eq : fhInit x.page x.markerPtr = ⟨x.base, x.paras, x.firstParas⟩ := by
  have htop := x.top
  have hbase := x.base_pos
  have hpos := x.paras_pos
  have hle : x.page.le 0 + x.page.le 1 * 2 ^ 8 + x.page.le 2 * 2 ^ 16 = 16 * x.paras - 1 := by
    simp [page]
    omega
  have htotal : (16 * x.paras - 1 + 1) / 16 % 65536 = x.paras := by omega
  unfold fhInit
  dsimp only
  rw [hle, htotal]
  unfold firstParas
  congr 1
  split_ifs <;> omega

theorem firstParas_le : x.firstParas ≤ x.paras := min_le_right _ _

/-- What `__AllocSeg` does once the base page has been read. -/
theorem allocSeg_ready {h : FarHeap} (hbase : h.baseSeg = x.base) (htotal : h.totalParas = x.paras)
    (hused : h.usedParas ≤ x.paras) (amount : ℕ) :
    (h.usedParas = x.paras ∧ allocSeg x.page x.markerPtr true amount h = (none, h)) ∨
      (h.usedParas < x.paras ∧ ∃ chunk format, 0 < chunk ∧ h.usedParas + chunk ≤ x.paras ∧
        allocSeg x.page x.markerPtr true amount h =
          (some ⟨x.base + h.usedParas, chunk, format⟩,
            ⟨x.base, x.paras, h.usedParas + chunk⟩)) := by
  have htop := x.top
  have hpos := x.base_pos
  have hne : ¬ h.baseSeg = 0 := by omega
  unfold allocSeg
  simp only [Bool.not_true, Bool.false_eq_true, if_false, if_neg hne]
  by_cases hfull : h.usedParas ≥ h.totalParas
  · rw [if_pos hfull]
    exact .inl ⟨by omega, rfl⟩
  · rw [if_neg hfull]
    refine .inr ⟨by omega, ?_⟩
    generalize hchunk : (if h.totalParas - h.usedParas > parasIn64K then parasIn64K
      else h.totalParas - h.usedParas) = chunk
    have hrange : 0 < chunk ∧ h.usedParas + chunk ≤ x.paras := by
      unfold parasIn64K at hchunk
      split_ifs at hchunk <;> omega
    refine ⟨chunk, formatSlab (chunk * 16 % 65536), hrange.1, hrange.2, ?_⟩
    rw [hbase, htotal, Nat.mod_eq_of_lt (show x.base + h.usedParas < 65536 by omega),
      Nat.mod_eq_of_lt (show h.usedParas + chunk < 65536 by omega)]

/-- The first call that is not refused reads the base page. -/
theorem allocSeg_fresh {h : FarHeap} (hbase : h.baseSeg = 0) (amount : ℕ) :
    allocSeg x.page x.markerPtr true amount h =
      allocSeg x.page x.markerPtr true amount ⟨x.base, x.paras, x.firstParas⟩ := by
  have hpos := x.base_pos
  have hne : ¬ x.base = 0 := by omega
  unfold allocSeg
  simp only [Bool.not_true, Bool.false_eq_true, if_false, if_pos hbase, if_neg hne, fhInit_eq]

/-- A slab on top of those that are there. -/
theorem carved_alloc {s : FarState} (hbase : s.heap.baseSeg = x.base)
    (htotal : s.heap.totalParas = x.paras) (hfirst : x.firstParas ≤ s.heap.usedParas)
    (hused : s.heap.usedParas ≤ x.paras)
    (hrange : ∀ t ∈ s.slabs, x.base + x.firstParas ≤ t.seg ∧
      t.seg + t.paras ≤ x.base + s.heap.usedParas)
    (habove : s.slabs.Pairwise fun a b => b.seg + b.paras ≤ a.seg)
    (hcovered : ∀ q, x.firstParas ≤ q → q < s.heap.usedParas → ∃ t ∈ s.slabs,
      t.seg ≤ x.base + q ∧ x.base + q < t.seg + t.paras) (amount : ℕ) :
    x.Carved (x.step s (.alloc true amount)) := by
  obtain ⟨-, heq⟩ | ⟨hlt, chunk, format, hchunk, hfit, heq⟩ :=
    x.allocSeg_ready hbase htotal hused amount
  · simp only [step, heq]
    exact .ready hbase htotal hfirst hused hrange habove hcovered
  · simp only [step, heq, Option.toList_some, List.singleton_append]
    refine .ready rfl rfl (by dsimp only; omega) hfit ?_ ?_ ?_
    · intro t ht
      dsimp only
      rcases List.mem_cons.mp ht with rfl | ht
      · dsimp only
        omega
      · have := hrange t ht
        omega
    · refine List.pairwise_cons.mpr ⟨fun t ht => ?_, habove⟩
      exact (hrange t ht).2
    · intro q hq hlt
      by_cases hold : q < s.heap.usedParas
      · obtain ⟨t, ht, hin⟩ := hcovered q hq hold
        exact ⟨t, List.mem_cons_of_mem _ ht, hin⟩
      · refine ⟨_, List.mem_cons_self, ?_⟩
        dsimp only at hlt ⊢
        omega

theorem carved_step (s : FarState) (c : Call) (h : x.Carved s) : x.Carved (x.step s c) := by
  cases c with
  | free seg => exact h
  | alloc enabled amount =>
      cases enabled with
      | false => exact h
      | true =>
          cases h with
          | ready hbase htotal hfirst hused hrange habove hcovered =>
              exact x.carved_alloc hbase htotal hfirst hused hrange habove hcovered amount
          | fresh hbase hslabs =>
              have hstep : x.step s (.alloc true amount) =
                  x.step ⟨⟨x.base, x.paras, x.firstParas⟩, []⟩ (.alloc true amount) := by
                simp only [step, x.allocSeg_fresh hbase, hslabs]
              rw [hstep]
              refine x.carved_alloc rfl rfl le_rfl x.firstParas_le ?_ List.Pairwise.nil ?_ amount
              · intro t ht
                cases ht
              · intro q hq hlt
                dsimp only at hlt
                omega

theorem carved_run (total used : ℕ) (calls : List Call) :
    x.Carved (run x.step (start total used) calls) :=
  run_invariant x.carved_step calls (.fresh rfl rfl)

/-- Slabs that are carved are apart and inside the Extra group, and none starts below the first. -/
theorem Carved.slabs {x : LoadedExtra} {s : FarState} (h : x.Carved s) :
    (s.slabs.Pairwise fun a b => ∀ addr, a.Has addr → ¬ b.Has addr) ∧
      ∀ t ∈ s.slabs, x.base + x.firstParas ≤ t.seg ∧ t.seg + t.paras ≤ x.base + x.paras := by
  cases h with
  | fresh hbase hslabs =>
      rw [hslabs]
      exact ⟨List.Pairwise.nil, fun t ht => absurd ht List.not_mem_nil⟩
  | ready hbase htotal hfirst hused hrange habove hcovered =>
      constructor
      · refine habove.imp fun hab addr ha hb => ?_
        unfold Slab.Has at ha hb
        omega
      · intro t ht
        have := hrange t ht
        omega

theorem step_heap (s : FarState) (enabled : Bool) (amount : ℕ) : (x.step s (.alloc enabled amount)).heap =
    (allocSeg x.page x.markerPtr enabled amount s.heap).2 := rfl

/-- Some run carves all that is left. -/
theorem exists_exhausted (total used : ℕ) : ∃ calls,
    (run x.step (start total used) calls).heap.baseSeg = x.base ∧
      (run x.step (start total used) calls).heap.usedParas = x.paras := by
  have hmore : ∀ n (s : FarState), x.Carved s → s.heap.baseSeg = x.base →
      x.paras - s.heap.usedParas ≤ n → ∃ calls, (run x.step s calls).heap.baseSeg = x.base ∧
        (run x.step s calls).heap.usedParas = x.paras := by
    intro n
    induction n with
    | zero =>
        intro s hs hbase hn
        have hpos := x.base_pos
        cases hs with
        | fresh h0 => omega
        | ready _ htotal hfirst hused => exact ⟨[], hbase, by rw [run_nil]; omega⟩
    | succ n ih =>
        intro s hs hbase hn
        have hpos := x.base_pos
        have hnext := x.carved_step s (.alloc true 0) hs
        cases hs with
        | fresh h0 => omega
        | ready _ htotal hfirst hused =>
            obtain ⟨hfull, -⟩ | ⟨hlt, chunk, format, hchunk, hfit, heq⟩ :=
              x.allocSeg_ready hbase htotal hused 0
            · exact ⟨[], hbase, hfull⟩
            · have hheap : (x.step s (.alloc true 0)).heap =
                  ⟨x.base, x.paras, s.heap.usedParas + chunk⟩ := by simp only [step, heq]
              obtain ⟨calls, hrun⟩ := ih _ hnext (by rw [hheap]) (by
                rw [hheap]
                dsimp only
                omega)
              exact ⟨.alloc true 0 :: calls, hrun⟩
  have hfirst : x.Carved (x.step (start total used) (.alloc true 0)) :=
    x.carved_step _ _ (.fresh rfl rfl)
  have hbase : (x.step (start total used) (.alloc true 0)).heap.baseSeg = x.base := by
    rw [x.step_heap, x.allocSeg_fresh (h := (start total used).heap) rfl]
    obtain ⟨-, heq⟩ | ⟨-, chunk, format, -, -, heq⟩ := x.allocSeg_ready
      (h := ⟨x.base, x.paras, x.firstParas⟩) rfl rfl x.firstParas_le 0
    · rw [heq]
    · rw [heq]
  obtain ⟨calls, hrun⟩ := hmore _ _ hfirst hbase le_rfl
  exact ⟨.alloc true 0 :: calls, hrun⟩

/-- The far data ends where the offset of the marker says. -/
def MarkerCovers : Prop :=
  x.markerOff + 1 ≤ 65520 ∧ ∀ g ∈ CmdType.extra.groups x.prog.groups,
    16 * cpm86GroupImgPara x.prog.groups g + g.totalsize ≤ 16 * ((x.markerOff + 16) / 16)

/-- In every run the slabs are apart, inside the Extra group and clear of the far data, exactly if all far
data ends in the paragraph of the marker's offset or before it. -/
theorem slabsSafe_iff (total used : ℕ) :
    (∀ calls, x.SlabsSafe (run x.step (start total used) calls).slabs) ↔ x.MarkerCovers := by
  have hmarker : markerParas x.markerPtr = ((x.markerOff + 1) % 65536 + 15) % 65536 / 16 := rfl
  have hoff : x.markerOff < 65536 := by
    have := x.markerOff_lt
    have := x.prog.small _ (groups_sub x.marker_mem).1
    omega
  constructor
  · intro h
    obtain ⟨calls, hbase, hused⟩ := x.exists_exhausted total used
    have hsafe := h calls
    have hcarved := x.carved_run total used calls
    have hends : ∀ g ∈ CmdType.extra.groups x.prog.groups,
        16 * cpm86GroupImgPara x.prog.groups g + g.totalsize ≤ 16 * markerParas x.markerPtr := by
      intro g hg
      by_contra hlong
      obtain ⟨hpos, hin⟩ := x.far_le hg
      -- the last byte of the group is in some slab
      generalize hlast : 16 * cpm86GroupImgPara x.prog.groups g + g.totalsize - 1 = last at *
      have hfar : x.FarByte (16 * x.base + last) := ⟨g, hg, g.totalsize - 1, by omega, by omega⟩
      have hmin : x.firstParas ≤ last / 16 := by
        unfold firstParas
        omega
      have hpos := x.base_pos
      cases hcarved with
      | fresh h0 => omega
      | ready _ _ _ _ _ _ hcovered =>
          obtain ⟨t, ht, hlow, hhigh⟩ := hcovered (last / 16) hmin (by omega)
          exact hsafe.clear t ht _ hfar ⟨by omega, by omega⟩
    have hself := hends x.marker x.marker_mem
    have hpos := (x.far_le x.marker_mem).1
    have hfits : x.markerOff + 1 ≤ 65520 := by omega
    refine ⟨hfits, fun g hg => ?_⟩
    have := hends g hg
    omega
  · rintro ⟨hfits, hcover⟩ calls
    obtain ⟨hapart, hrange⟩ := (x.carved_run total used calls).slabs
    refine ⟨hapart, fun t ht => ?_, fun t ht addr => ?_⟩
    · have := hrange t ht
      omega
    · rintro ⟨g, hg, o, ho, rfl⟩ ⟨hlow, -⟩
      have hstart := (hrange t ht).1
      have hend := hcover g hg
      have hin := (x.far_le hg).2
      unfold firstParas at hstart
      omega

end LoadedExtra

/-! ### A marker in a group of its own -/

/-- A group of far data with one piece. -/
def farGroup (seg size vmData : ℕ) : GroupEntry :=
  ⟨seg, size, false, false,
    [⟨0, ⟨"FAR_DATA", false, false⟩, false, [⟨0, size, vmData, false, false⟩]⟩]⟩

/-- 64 bytes of far data in one group, and the marker at offset 0 of the next one. -/
def markerBehind : LoadedExtra where
  prog :=
    { groups := [farGroup 1 64 0, farGroup 2 1 64]
      farHeapSize := 0x8000
      fixups := []
      dbi := []
      segs := by decide
      oneData := by decide
      ascending := by decide +kernel
      within := by decide +kernel
      small := by decide }
  base := 0x2000
  paras := 0x805
  marker := farGroup 2 1 64
  markerOff := 0
  base_pos := by decide
  top := by decide
  holds := by decide
  marker_mem := by decide
  markerOff_lt := by decide

/-- The first slab starts in the second paragraph of the far data. -/
theorem not_slabsSafe_markerBehind : ¬ ∀ calls,
    markerBehind.SlabsSafe (run markerBehind.step (LoadedExtra.start 0 0) calls).slabs := by
  intro h
  have hsafe := h [.alloc true 100]
  have hfar : markerBehind.FarByte 0x20010 :=
    ⟨farGroup 1 64 0, by decide, 16, by decide, by decide⟩
  have hslab : (run markerBehind.step (LoadedExtra.start 0 0) [.alloc true 100]).slabs =
      [⟨0x2001, 0x804, formatSlab 0x8040⟩] := by decide
  rw [hslab] at hsafe
  exact hsafe.clear _ List.mem_cons_self _ hfar (by decide)

end OpenWatcom.Clib
