import Mathlib
import OpenWatcom.Lib.Iteration

/-! # The dominators of a flow graph

`CalcDominatorInfo` gives each block a bit of a bit set and finds, in passes over the blocks, the set of the blocks that
dominate it and the set of those that dominate it backwards from the return block. -/

namespace OpenWatcom.Dominate

open Iteration

/-- A bit set of the generated header: its longs `_0`, `_1` and so on. -/
@[ext]
structure BitSet (k : ℕ) where
  longs : Fin k → BitVec 32
  deriving DecidableEq

namespace BitSet

variable {k : ℕ}

/-- `_DBitInit( set, val )`. -/
def init (val : BitVec 32) : BitSet k := ⟨fun _ => val⟩

/-- `full_set`. -/
def full_set : BitSet k := init (~~~0)

/-- `_DBitSet`, with the long `which_long` one and the others zero. -/
def setLong (k which_long : ℕ) : BitSet k := ⟨fun i => if i.val = which_long then 1 else 0⟩

/-- `_DBitFirst`. -/
def first (k : ℕ) : BitSet k := setLong k 0

/-- `_DBitNext`: a bit at the top of a long moves to the next long. -/
def next (s : BitSet k) : BitSet k :=
  match (List.finRange k).find? (fun i => (s.longs i).msb) with
  | some i => setLong k (i.val + 1)
  | none => ⟨fun i => s.longs i <<< 1⟩

/-- `_DBitEmpty`. -/
def isEmpty (s : BitSet k) : Bool := (List.finRange k).all (fun i => s.longs i == 0)

/-- `_DBitOverlap`. -/
def overlap (a b : BitSet k) : Bool := (List.finRange k).any (fun i => a.longs i &&& b.longs i != 0)

/-- `_DBitTurnOff`. -/
def turnOff (a b : BitSet k) : BitSet k := ⟨fun i => a.longs i &&& ~~~(b.longs i)⟩

/-- `_DBitTurnOn`. -/
def turnOn (a b : BitSet k) : BitSet k := ⟨fun i => a.longs i ||| b.longs i⟩

end BitSet

/-- The blocks from `HeadBlock` along `next_block`, with their edges. -/
structure FlowGraph (n : ℕ) where
  headBlock : Fin n
  headBlock_first : headBlock.val = 0
  /-- `BLK_RETURN`. -/
  isReturn : Fin n → Bool
  /-- The destinations of `edge[0]` to `edge[targets - 1]`. -/
  targets : Fin n → List (Fin n)
  /-- The sources along `input_edges`. -/
  inputs : Fin n → List (Fin n)
  /-- Every edge is among the edges of its source and among the input edges of its destination. -/
  consistent : ∀ b c, c ∈ targets b ↔ b ∈ inputs c

/-- `dominator_info` of the blocks, less their bits. -/
structure DomInfo (n k : ℕ) where
  dominator : Fin n → BitSet k
  post_dominator : Fin n → BitSet k

/-- The two sets of each block. -/
def DomInfo.sets {n k : ℕ} (info : DomInfo n k) : Fin n ⊕ Fin n → BitSet k :=
  Sum.elim info.dominator info.post_dominator

theorem DomInfo.sets_injective {n k : ℕ} : Function.Injective (sets : DomInfo n k → _) := by
  rintro ⟨dominator, post_dominator⟩ ⟨dominator', post_dominator'⟩ h
  obtain rfl : dominator = dominator' := funext fun b => congrFun h (.inl b)
  obtain rfl : post_dominator = post_dominator' := funext fun b => congrFun h (.inr b)
  rfl

namespace FlowGraph

variable {n : ℕ} (k : ℕ) (g : FlowGraph n)

/-- What the loop of `AssignDominatorBits` keeps: `ReturnBlock`, `id` and the bits given so far. -/
structure Assigned (n k : ℕ) where
  returnBlock : Option (Fin n)
  id : BitSet k
  ids : Fin n → BitSet k

variable {k}

/-- One turn of the loop of `AssignDominatorBits`. -/
def assignBlock (s : Assigned n k) (blk : Fin n) : Option (Assigned n k) :=
  if g.isReturn blk ∧ s.returnBlock.isSome then none
  else if s.id.isEmpty then none
  else some ⟨if g.isReturn blk then some blk else s.returnBlock, s.id.next, Function.update s.ids blk s.id⟩

variable (k)

/-- `AssignDominatorBits`: the return block and the bits, or nothing when it returns false. -/
def assignDominatorBits : Option (Fin n × (Fin n → BitSet k)) :=
  match (List.finRange n).foldlM g.assignBlock ⟨none, .first k, fun _ => .init 0⟩ with
  | some s => s.returnBlock.map (fun blk => (blk, s.ids))
  | none => none

variable {k} (ids : Fin n → BitSet k)

/-- The set that a block gets from the sets of the blocks at the other ends of its edges. -/
def meetEdges (sets : Fin n → BitSet k) (ends : List (Fin n)) (id : BitSet k) : BitSet k :=
  (ends.foldl (fun s e => BitSet.turnOff s (BitSet.turnOff BitSet.full_set (sets e))) BitSet.full_set).turnOn id

/-- The part of the loop for the dominators of a block, with `change`. -/
def visitDominator (s : DomInfo n k × Bool) (blk : Fin n) : DomInfo n k × Bool :=
  let predecessors := meetEdges s.1.dominator (g.inputs blk) (ids blk)
  ({ s.1 with dominator := Function.update s.1.dominator blk predecessors },
    if predecessors = s.1.dominator blk then s.2 else true)

/-- The part of the loop for the post-dominators of a block. -/
def visitPostDominator (s : DomInfo n k × Bool) (blk : Fin n) : DomInfo n k × Bool :=
  let successors := meetEdges s.1.post_dominator (g.targets blk) (ids blk)
  ({ s.1 with post_dominator := Function.update s.1.post_dominator blk successors },
    if successors = s.1.post_dominator blk then s.2 else true)

/-- What the sets hold before the first pass. -/
def startInfo (returnBlock : Fin n) : DomInfo n k :=
  ⟨Function.update (fun _ => .full_set) g.headBlock (ids g.headBlock),
    Function.update (fun _ => .full_set) returnBlock (ids returnBlock)⟩

/-- One turn of the inner loop of `CalcDominatorInfo`. -/
def visitBlock (returnBlock : Fin n) (s : DomInfo n k × Bool) (blk : Fin n) : DomInfo n k × Bool :=
  let s := if blk ≠ g.headBlock then g.visitDominator ids s blk else s
  if blk ≠ returnBlock then g.visitPostDominator ids s blk else s

/-- The loop of `CalcDominatorInfo`, with a bound on its turns. -/
def passes (returnBlock : Fin n) : ℕ → DomInfo n k → Option (DomInfo n k)
  | 0, _ => none
  | fuel + 1, info =>
      let s := (List.finRange n).foldl (g.visitBlock ids returnBlock) (info, false)
      if s.2 then passes returnBlock fuel s.1 else some s.1

variable (k)

/-- `CalcDominatorInfo`: the bits and the sets, or nothing when it returns false.  The outer option is about the
bound. -/
def calcDominatorInfo (fuel : ℕ) : Option (Option ((Fin n → BitSet k) × DomInfo n k)) :=
  match g.assignDominatorBits k with
  | none => some none
  | some (returnBlock, ids) =>
      (g.passes ids returnBlock fuel (g.startInfo ids returnBlock)).map (fun info => some (ids, info))

end FlowGraph

/-! ### The sets of bits -/

namespace BitSet

variable {k : ℕ}

/-- The bits of a bit set. -/
def bits (s : BitSet k) : Set (Fin k × Fin 32) := {x | (s.longs x.1).getLsbD x.2 = true}

theorem mem_bits {s : BitSet k} {x : Fin k × Fin 32} : x ∈ s.bits ↔ (s.longs x.1).getLsbD x.2 = true := Iff.rfl

theorem bits_injective : Function.Injective (bits : BitSet k → Set (Fin k × Fin 32)) := by
  intro a b h
  ext i : 2
  apply BitVec.eq_of_getLsbD_eq
  intro j hj
  have := Set.ext_iff.mp h (i, ⟨j, hj⟩)
  exact Bool.eq_iff_iff.mpr this

theorem bits_surjective : Function.Surjective (bits : BitSet k → Set (Fin k × Fin 32)) := by
  classical
  intro t
  refine ⟨⟨fun i => (BitVec.ofBoolListLE (List.ofFn (fun j => decide ((i, j) ∈ t)))).setWidth 32⟩, ?_⟩
  ext ⟨i, j⟩
  simp only [mem_bits, BitVec.getLsbD_setWidth, BitVec.getLsbD_ofBoolListLE]
  rw [List.getD_eq_getElem?_getD, List.getElem?_ofFn, dif_pos j.isLt]
  simp

instance : PartialOrder (BitSet k) := PartialOrder.lift bits bits_injective

theorem le_iff {a b : BitSet k} : a ≤ b ↔ a.bits ⊆ b.bits := Iff.rfl

instance : Finite (BitSet k) := Finite.of_injective _ bits_injective

@[simp]
theorem bits_turnOff (a b : BitSet k) : (a.turnOff b).bits = a.bits \ b.bits := by
  ext x
  simp [mem_bits, turnOff]

@[simp]
theorem bits_turnOn (a b : BitSet k) : (a.turnOn b).bits = a.bits ∪ b.bits := by
  ext x
  simp [mem_bits, turnOn]

@[simp]
theorem bits_full : (full_set : BitSet k).bits = Set.univ := by
  ext ⟨i, j⟩
  simp only [mem_bits, full_set, init, BitVec.getLsbD_not, BitVec.ofNat_eq_ofNat, BitVec.getLsbD_zero]
  simp [j.isLt]

theorem isEmpty_iff {s : BitSet k} : s.isEmpty = true ↔ s.bits = ∅ := by
  rw [show (∅ : Set (Fin k × Fin 32)) = (init 0 : BitSet k).bits by ext; simp [mem_bits, init], bits_injective.eq_iff]
  simp [isEmpty, BitSet.ext_iff, funext_iff, init]

theorem overlap_iff {a b : BitSet k} : a.overlap b = true ↔ (a.bits ∩ b.bits).Nonempty := by
  simp only [overlap, List.any_eq_true, List.mem_finRange, true_and, bne_iff_ne, ne_eq]
  constructor
  · rintro ⟨i, hi⟩
    obtain ⟨j, hj⟩ : ∃ j, ∃ h : j < 32, (a.longs i &&& b.longs i).getLsbD j = true := by
      by_contra hno
      push Not at hno
      exact hi (BitVec.eq_of_getLsbD_eq (fun j hj => by simpa using hno j hj))
    obtain ⟨hlt, hj⟩ := hj
    rw [BitVec.getLsbD_and, Bool.and_eq_true] at hj
    exact ⟨(i, ⟨j, hlt⟩), hj.1, hj.2⟩
  · rintro ⟨⟨i, j⟩, ha, hb⟩
    refine ⟨i, fun h0 => ?_⟩
    have := congrArg (fun v => v.getLsbD j) h0
    rw [BitVec.getLsbD_and, mem_bits.mp ha, mem_bits.mp hb] at this
    simp at this

/-- The bit of a number, none from the size of the set on. -/
def bitOf (k m : ℕ) : Set (Fin k × Fin 32) := {x | 32 * x.1.val + x.2.val = m}

theorem bits_setLong (k w : ℕ) : (setLong k w).bits = bitOf k (32 * w) := by
  ext ⟨i, j⟩
  have hj := j.isLt
  by_cases hi : i.val = w
  · simp [mem_bits, setLong, bitOf, hi]
  · simp only [mem_bits, setLong, bitOf, hi, if_false, Set.mem_ofPred_eq]
    simp only [BitVec.ofNat_eq_ofNat, BitVec.getLsbD_zero, Bool.false_eq_true, false_iff]
    omega

theorem bits_first (k : ℕ) : (first k).bits = bitOf k 0 := bits_setLong k 0

/-- The next bit. -/
theorem bits_next {s : BitSet k} {m : ℕ} (h : s.bits = bitOf k m) : s.next.bits = bitOf k (m + 1) := by
  have hbit : ∀ i j, (s.longs i).getLsbD j = true ↔ j < 32 ∧ 32 * i.val + j = m := by
    intro i j
    by_cases hj : j < 32
    · exact (Set.ext_iff.mp h (i, ⟨j, hj⟩)).trans ⟨fun hm => ⟨hj, hm⟩, fun hm => hm.2⟩
    · simp [BitVec.getLsbD_of_ge _ _ (not_lt.mp hj), hj]
  unfold next
  cases hfind : (List.finRange k).find? (fun i => (s.longs i).msb) with
  | some i =>
      have hmsb : (s.longs i).msb = true := by simpa using List.find?_some hfind
      rw [BitVec.msb_eq_getLsbD_last, hbit] at hmsb
      rw [bits_setLong]
      congr 1
      omega
  | none =>
      have hmsb : ∀ i : Fin k, ¬ 32 * i.val + 31 = m := by
        intro i
        have := List.find?_eq_none.mp hfind i (List.mem_finRange i)
        rw [BitVec.msb_eq_getLsbD_last, hbit] at this
        omega
      ext ⟨i, j⟩
      have hi := hmsb i
      have hbefore := hmsb ⟨i.val - 1, by omega⟩
      have hj := j.isLt
      simp only [mem_bits, BitVec.getLsbD_shiftLeft, Bool.and_eq_true, decide_eq_true_eq, Bool.not_eq_true',
        decide_eq_false_iff_not, hbit, bitOf, Set.mem_ofPred_eq]
      dsimp only at hbefore
      omega

theorem bitOf_eq_empty_iff {m : ℕ} : bitOf k m = ∅ ↔ 32 * k ≤ m := by
  constructor
  · intro h
    by_contra hlt
    have hmem : (⟨m / 32, by omega⟩, ⟨m % 32, by omega⟩) ∈ bitOf k m := by
      simp only [bitOf, Set.mem_ofPred_eq]
      omega
    rw [h] at hmem
    exact hmem
  · intro hle
    ext ⟨i, j⟩
    have hi := i.isLt
    have hj := j.isLt
    simp only [bitOf, Set.mem_ofPred_eq, Set.mem_empty_iff_false, iff_false]
    omega

end BitSet

/-! ### The bits of the blocks -/

namespace FlowGraph

open BitSet

variable {n k : ℕ} (g : FlowGraph n)

/-- What the sets are computed for: a block that returns, only one, and a bit for each block. -/
def Usable (k : ℕ) : Prop := n ≤ 32 * k ∧ ∃! r, g.isReturn r = true

/-- What the loop of `AssignDominatorBits` keeps when `m` blocks are done. -/
structure AssignedTo (m : ℕ) (s : Assigned n k) : Prop where
  fits : m ≤ 32 * k
  id_bits : s.id.bits = bitOf k m
  ids_bits : ∀ b : Fin n, b.val < m → (s.ids b).bits = bitOf k b
  returns_iff : ∀ r, s.returnBlock = some r ↔ g.isReturn r = true ∧ r.val < m

variable {g}

theorem AssignedTo.start : g.AssignedTo 0 (⟨none, .first k, fun _ => .init 0⟩ : Assigned n k) where
  fits := Nat.zero_le _
  id_bits := bits_first k
  ids_bits b hb := absurd hb (Nat.not_lt_zero _)
  returns_iff r := by simp

theorem AssignedTo.assignBlock_none {m : ℕ} {s : Assigned n k} (h : g.AssignedTo m s) {blk : Fin n}
    (hblk : blk.val = m) (hnone : g.assignBlock s blk = none) : ¬ g.Usable k := by
  rintro ⟨hfit, hunique⟩
  unfold assignBlock at hnone
  split at hnone
  case isTrue hsecond =>
    obtain ⟨hret, hsome⟩ := hsecond
    obtain ⟨r, hr⟩ := Option.isSome_iff_exists.mp hsome
    obtain ⟨hr, hlt⟩ := (h.returns_iff r).mp hr
    have := hunique.unique hret hr
    subst this
    omega
  case isFalse =>
    split at hnone
    case isTrue hempty =>
      rw [BitSet.isEmpty_iff, h.id_bits, bitOf_eq_empty_iff] at hempty
      have := blk.isLt
      omega
    case isFalse => cases hnone

theorem AssignedTo.assignBlock_some {m : ℕ} {s t : Assigned n k} (h : g.AssignedTo m s) {blk : Fin n}
    (hblk : blk.val = m) (hsome : g.assignBlock s blk = some t) : g.AssignedTo (m + 1) t := by
  unfold assignBlock at hsome
  split at hsome
  case isTrue => cases hsome
  case isFalse hsecond =>
    split at hsome
    case isTrue => cases hsome
    case isFalse hempty =>
      obtain rfl := Option.some.inj hsome
      rw [BitSet.isEmpty_iff, h.id_bits, bitOf_eq_empty_iff] at hempty
      refine ⟨by omega, bits_next h.id_bits, fun b hb => ?_, fun r => ?_⟩
      · obtain rfl | hne := eq_or_ne b blk
        · simpa [hblk] using h.id_bits
        · have : b.val ≠ blk.val := fun heq => hne (Fin.ext heq)
          simpa [hne] using h.ids_bits b (by omega)
      · have hlast : r = blk ∨ r.val ≠ m := or_iff_not_imp_left.mpr fun hne heq => hne (Fin.ext (heq.trans hblk.symm))
        dsimp only
        split
        case isTrue hret =>
          have hnone : s.returnBlock = none := by simpa [hret] using hsecond
          have hbefore := h.returns_iff r
          simp only [hnone, reduceCtorEq, false_iff] at hbefore
          constructor
          · rintro ⟨rfl⟩
            exact ⟨hret, by omega⟩
          · rintro ⟨hr, hlt⟩
            obtain rfl | hne := hlast
            · rfl
            · exact absurd ⟨hr, by omega⟩ hbefore
        case isFalse hret =>
          rw [h.returns_iff]
          refine and_congr_right fun hr => ?_
          obtain rfl | hne := hlast
          · exact absurd hr hret
          · omega

/-- The loop of `AssignDominatorBits`, over the blocks that are left. -/
theorem AssignedTo.foldlM {l : List (Fin n)} {s : Assigned n k} {m : ℕ} (h : g.AssignedTo m s)
    (hl : l.map Fin.val = List.range' m l.length) :
    (l.foldlM g.assignBlock s = none → ¬ g.Usable k) ∧
      ∀ t, l.foldlM g.assignBlock s = some t → g.AssignedTo (m + l.length) t := by
  induction l generalizing s m with
  | nil =>
      refine ⟨(fun hnone => by cases hnone), fun t ht => ?_⟩
      obtain rfl := Option.some.inj ht
      exact h
  | cons blk l ih =>
      rw [List.length_cons, List.map_cons, List.range'_succ, List.cons.injEq] at hl
      rw [List.foldlM_cons]
      cases hstep : g.assignBlock s blk with
      | none => exact ⟨fun _ => h.assignBlock_none hl.1 hstep, fun t ht => by cases ht⟩
      | some u =>
          have hrest := ih (h.assignBlock_some hl.1 hstep) hl.2
          rw [Nat.add_right_comm, Nat.add_assoc] at hrest
          exact hrest

/-- `AssignDominatorBits` gives the blocks their bits when it can be done. -/
theorem assignDominatorBits_some {r : Fin n} {ids : Fin n → BitSet k} (h : g.assignDominatorBits k = some (r, ids)) :
    n ≤ 32 * k ∧ (∀ b, (ids b).bits = bitOf k b) ∧ ∀ b, g.isReturn b = true ↔ b = r := by
  unfold assignDominatorBits at h
  split at h
  case h_1 s hs =>
    obtain ⟨r', hr', heq⟩ := Option.map_eq_some_iff.mp h
    cases heq
    have hdone := (AssignedTo.start.foldlM (by simp [List.range_eq_range'])).2 s hs
    rw [List.length_finRange, Nat.zero_add] at hdone
    refine ⟨hdone.fits, fun b => hdone.ids_bits b b.isLt, fun b => ?_⟩
    have := hdone.returns_iff b
    rw [hr', Option.some.injEq] at this
    simp only [b.isLt, and_true] at this
    exact this.symm.trans eq_comm
  case h_2 => cases h

/-- The one bit of each block. -/
theorem exists_own {ids : Fin n → BitSet k} (hfits : n ≤ 32 * k) (h : ∀ b, (ids b).bits = bitOf k b) :
    ∃ own : Fin n → Fin k × Fin 32, (∀ b, (ids b).bits = {own b}) ∧ Function.Injective own := by
  refine ⟨fun b => (⟨b / 32, by omega⟩, ⟨b % 32, by omega⟩), fun b => ?_, fun b c hbc => ?_⟩
  · rw [h]
    ext ⟨i, j⟩
    have hj := j.isLt
    simp only [bitOf, Set.mem_ofPred_eq, Set.mem_singleton_iff, Prod.mk.injEq, Fin.ext_iff]
    omega
  · simp only [Prod.mk.injEq, Fin.mk.injEq] at hbc
    exact Fin.ext (by omega)

theorem assignDominatorBits_none (h : g.assignDominatorBits k = none) : ¬ g.Usable k := by
  have hloop := AssignedTo.start (g := g) (k := k).foldlM (l := List.finRange n) (by simp [List.range_eq_range'])
  unfold assignDominatorBits at h
  split at h
  case h_1 s hs =>
    rintro ⟨-, r, hr, -⟩
    have hdone := hloop.2 s hs
    have := (hdone.returns_iff r).mpr ⟨hr, by simp⟩
    rw [Option.map_eq_none_iff.mp h] at this
    cases this
  case h_2 hs => exact hloop.1 hs

/-! ### The sets of the blocks -/

theorem bits_meetEdges (sets : Fin n → BitSet k) (ends : List (Fin n)) (id : BitSet k) :
    (meetEdges sets ends id).bits = {d | d ∈ id.bits ∨ ∀ e ∈ ends, d ∈ (sets e).bits} := by
  have hloop : ∀ s : BitSet k, (ends.foldl (fun s e => s.turnOff (full_set.turnOff (sets e))) s).bits =
      {d | d ∈ s.bits ∧ ∀ e ∈ ends, d ∈ (sets e).bits} := by
    intro s
    induction ends generalizing s with
    | nil => simp
    | cons e ends ih =>
        rw [List.foldl_cons, ih]
        ext d
        simp [and_assoc]
  ext d
  simp [meetEdges, hloop, or_comm]

/-- The equation of a block's set: at the root its own bit. -/
def rootedMeet (root : Fin n) (ends : Fin n → List (Fin n)) (ids : Fin n → BitSet k) (b : Fin n)
    (sets : Fin n → BitSet k) : BitSet k :=
  if b = root then ids b else meetEdges sets (ends b) (ids b)

theorem bits_rootedMeet {root : Fin n} {ends : Fin n → List (Fin n)} {ids : Fin n → BitSet k}
    {own : Fin n → Fin k × Fin 32} (hown : ∀ b, (ids b).bits = {own b}) (b : Fin n) (sets : Fin n → BitSet k) :
    (rootedMeet root ends ids b sets).bits =
      domEquation (fun b => {e | e ∈ ends b}) root own b (fun b => (sets b).bits) := by
  unfold rootedMeet domEquation
  split
  case isTrue hroot => simp [hown, hroot]
  case isFalse hroot => simp [bits_meetEdges, hown, hroot]

theorem rootedMeet_mono (root : Fin n) (ends : Fin n → List (Fin n)) (ids : Fin n → BitSet k) (b : Fin n) :
    Monotone (rootedMeet root ends ids b) := by
  intro σ τ h
  unfold rootedMeet
  split
  case isTrue => exact le_rfl
  case isFalse =>
    rw [BitSet.le_iff, bits_meetEdges, bits_meetEdges]
    rintro d (hd | hd)
    · exact .inl hd
    · exact .inr fun e he => h e (hd e he)

variable (g) (ids : Fin n → BitSet k) (r : Fin n)

/-- The equations of the two sets of each block. -/
def equation : Fin n ⊕ Fin n → (Fin n ⊕ Fin n → BitSet k) → BitSet k
  | .inl b, σ => rootedMeet g.headBlock g.inputs ids b (σ ∘ .inl)
  | .inr b, σ => rootedMeet r g.targets ids b (σ ∘ .inr)

theorem equation_mono (i : Fin n ⊕ Fin n) : Monotone (g.equation ids r i) := by
  intro σ τ h
  cases i with
  | inl b => exact rootedMeet_mono _ _ _ _ fun p => h (.inl p)
  | inr b => exact rootedMeet_mono _ _ _ _ fun p => h (.inr p)

/-- The sets that one turn of the inner loop computes. -/
def visited (b : Fin n) : List (Fin n ⊕ Fin n) :=
  (if b ≠ g.headBlock then [.inl b] else []) ++ (if b ≠ r then [.inr b] else [])

theorem visitDominator_sets {s : DomInfo n k × Bool} {b : Fin n} (hb : b ≠ g.headBlock) :
    Prod.map DomInfo.sets id (g.visitDominator ids s b) =
      visit (g.equation ids r) (s.1.sets, s.2) (.inl b) := by
  have hvalue : g.equation ids r (.inl b) s.1.sets = meetEdges s.1.dominator (g.inputs b) (ids b) := if_neg hb
  rw [visit, hvalue]
  exact Prod.ext Sum.update_elim_inl.symm rfl

theorem visitPostDominator_sets {s : DomInfo n k × Bool} {b : Fin n} (hb : b ≠ r) :
    Prod.map DomInfo.sets id (g.visitPostDominator ids s b) =
      visit (g.equation ids r) (s.1.sets, s.2) (.inr b) := by
  have hvalue : g.equation ids r (.inr b) s.1.sets = meetEdges s.1.post_dominator (g.targets b) (ids b) := if_neg hb
  rw [visit, hvalue]
  exact Prod.ext Sum.update_elim_inr.symm rfl

theorem visitBlock_sets (s : DomInfo n k × Bool) (b : Fin n) :
    Prod.map DomInfo.sets id (g.visitBlock ids r s b) =
      (g.visited r b).foldl (visit (g.equation ids r)) (Prod.map DomInfo.sets id s) := by
  unfold visitBlock visited
  by_cases hhead : b ≠ g.headBlock <;> by_cases hlast : b ≠ r
  · rw [if_pos hhead, if_pos hlast, if_pos hhead, if_pos hlast, g.visitPostDominator_sets ids r hlast]
    exact congrArg (visit (g.equation ids r) · (.inr b)) (g.visitDominator_sets ids r hhead)
  · rw [if_pos hhead, if_neg hlast, if_pos hhead, if_neg hlast]
    exact g.visitDominator_sets ids r hhead
  · rw [if_neg hhead, if_pos hlast, if_neg hhead, if_pos hlast]
    exact g.visitPostDominator_sets ids r hlast
  · rw [if_neg hhead, if_neg hlast, if_neg hhead, if_neg hlast]
    rfl

/-- The inner loop is a pass over the sets. -/
theorem foldl_visitBlock_sets (l : List (Fin n)) (s : DomInfo n k × Bool) :
    Prod.map DomInfo.sets id (l.foldl (g.visitBlock ids r) s) =
      (l.flatMap (g.visited r)).foldl (visit (g.equation ids r)) (Prod.map DomInfo.sets id s) := by
  induction l generalizing s with
  | nil => rfl
  | cons b l ih => rw [List.foldl_cons, ih, g.visitBlock_sets, List.flatMap_cons, List.foldl_append]

theorem passes_sets (fuel : ℕ) (info : DomInfo n k) :
    (g.passes ids r fuel info).map DomInfo.sets =
      iterate (g.equation ids r) ((List.finRange n).flatMap (g.visited r)) fuel info.sets := by
  induction fuel generalizing info with
  | zero => rfl
  | succ fuel ih =>
      have hpass := g.foldl_visitBlock_sets ids r (List.finRange n) (info, false)
      have hsets := congrArg Prod.fst hpass
      have hchange := congrArg Prod.snd hpass
      rw [iterate, passes, apply_ite (Option.map DomInfo.sets), ih, Option.map_some]
      dsimp only [Prod.map_fst, Prod.map_snd, id] at hsets hchange
      rw [hchange, hsets]
      rfl

theorem mem_visited {i : Fin n ⊕ Fin n} {b : Fin n} :
    i ∈ g.visited r b ↔ i = .inl b ∧ b ≠ g.headBlock ∨ i = .inr b ∧ b ≠ r := by
  unfold visited
  split_ifs <;> simp_all

theorem mem_flatMap_visited {i : Fin n ⊕ Fin n} :
    i ∈ (List.finRange n).flatMap (g.visited r) ↔ i ≠ .inl g.headBlock ∧ i ≠ .inr r := by
  simp only [List.mem_flatMap, List.mem_finRange, true_and, mem_visited]
  cases i <;> simp

/-- Before the first pass no equation gives more than the sets hold, and a solution holds no more than they do. -/
theorem le_startInfo {σ υ : Fin n ⊕ Fin n → BitSet k} (h : ∀ i, υ i ≤ g.equation ids r i σ) :
    υ ≤ (g.startInfo ids r).sets := by
  have hfull : ∀ s : BitSet k, s ≤ full_set := fun s => BitSet.le_iff.mpr (by simp)
  rintro (b | b)
  · obtain rfl | hne := eq_or_ne b g.headBlock
    · simpa [equation, rootedMeet, startInfo, DomInfo.sets] using h (.inl g.headBlock)
    · simpa [startInfo, DomInfo.sets, hne] using hfull (υ (.inl b))
  · obtain rfl | hne := eq_or_ne b r
    · simpa [equation, rootedMeet, startInfo, DomInfo.sets] using h (.inr b)
    · simpa [startInfo, DomInfo.sets, hne] using hfull (υ (.inr b))

/-- The passes end at the greatest solution of the equations. -/
theorem passes_solve : ∃ info : DomInfo n k,
    (∃ turns, ∀ fuel, turns ≤ fuel → g.passes ids r fuel (g.startInfo ids r) = some info) ∧
      (∀ i, info.sets i = g.equation ids r i info.sets) ∧
      ∀ υ : Fin n ⊕ Fin n → BitSet k, (∀ i, υ i ≤ g.equation ids r i υ) → υ ≤ info.sets := by
  obtain ⟨τ, ⟨turns, hturns⟩, -, hsol, hgreatest⟩ := iterate_solves (g.equation_mono ids r)
    (σ := (g.startInfo ids r).sets) (fun i => g.le_startInfo ids r (fun _ => le_rfl) i)
    ((List.finRange n).flatMap (g.visited r))
  have hpass : ∀ fuel, turns ≤ fuel →
      (g.passes ids r fuel (g.startInfo ids r)).map DomInfo.sets = some τ := fun fuel h => by
    rw [passes_sets, hturns fuel h]
  obtain ⟨info, -, rfl⟩ := Option.map_eq_some_iff.mp (hpass turns le_rfl)
  refine ⟨info, ⟨turns, fun fuel h => ?_⟩, fun i => ?_, fun υ hυ => hgreatest υ hυ (g.le_startInfo ids r hυ)⟩
  · exact Option.map_injective DomInfo.sets_injective (hpass fuel h)
  · by_cases hi : i ∈ (List.finRange n).flatMap (g.visited r)
    · exact (hsol i hi).symm
    · rw [iterate_unvisited hi (hturns turns le_rfl)]
      rw [mem_flatMap_visited, not_and_or, not_not, not_not] at hi
      obtain rfl | rfl := hi <;> simp [startInfo, DomInfo.sets, equation, rootedMeet]

variable {ids r}

/-- The greatest solution of a block's equations has the bits of the blocks on every path. -/
theorem mem_greatest_iff {root : Fin n} {ends : Fin n → List (Fin n)} {own : Fin n → Fin k × Fin 32}
    (hown : ∀ b, (ids b).bits = {own b}) (sets : Fin n → BitSet k)
    (hsol : ∀ b, sets b = rootedMeet root ends ids b sets)
    (hgreatest : ∀ υ : Fin n → BitSet k, (∀ b, υ b ≤ rootedMeet root ends ids b υ) → ∀ b, υ b ≤ sets b)
    (b : Fin n) (d : Fin k × Fin 32) :
    d ∈ (sets b).bits ↔ ∀ l, Walk (fun p b => p ∈ ends b) root l b → ∃ x ∈ l, own x = d := by
  refine dominators_iff (fun b => {e | e ∈ ends b}) (σ := fun b => (sets b).bits) (fun b => ?_) ?_ d
  · rw [← bits_rootedMeet hown]
    exact congrArg BitSet.bits (hsol b)
  · intro τ hτ
    choose υ hυ using fun b => BitSet.bits_surjective (τ b)
    obtain rfl : (fun b => (υ b).bits) = τ := funext hυ
    refine hgreatest υ fun b => ?_
    rw [BitSet.le_iff, bits_rootedMeet hown]
    exact hτ b

/-- The path of blocks along the targets of each. -/
abbrev Path : Fin n → List (Fin n) → Fin n → Prop := Walk fun b c => c ∈ g.targets b

/-- The passes end with the dominators and the post-dominators of every block. -/
theorem passes_dominators {own : Fin n → Fin k × Fin 32} (hown : ∀ b, (ids b).bits = {own b}) :
    ∃ info : DomInfo n k,
      (∃ turns, ∀ fuel, turns ≤ fuel → g.passes ids r fuel (g.startInfo ids r) = some info) ∧
        (∀ b d, d ∈ (info.dominator b).bits ↔ ∀ l, g.Path g.headBlock l b → ∃ x ∈ l, own x = d) ∧
          ∀ b d, d ∈ (info.post_dominator b).bits ↔ ∀ l, g.Path b l r → ∃ x ∈ l, own x = d := by
  obtain ⟨info, hturns, hsol, hgreatest⟩ := g.passes_solve ids r
  have hempty : ∀ s : BitSet k, init 0 ≤ s := fun s => BitSet.le_iff.mpr fun x hx => by simp [mem_bits, init] at hx
  refine ⟨info, hturns, fun b d => ?_, fun b d => ?_⟩
  · refine (mem_greatest_iff hown info.dominator (fun b => hsol (.inl b)) ?_ b d).trans ?_
    rotate_left
    · simp only [Path, g.consistent]
    · intro υ hυ b
      refine hgreatest (Sum.elim υ fun _ => init 0) ?_ (.inl b)
      rintro (b | b)
      · exact hυ b
      · exact hempty _
  · refine (mem_greatest_iff hown info.post_dominator (fun b => hsol (.inr b)) ?_ b d).trans ?_
    rotate_left
    · constructor
      · intro h l hl
        obtain ⟨x, hx, hd⟩ := h l.reverse hl.reverse
        exact ⟨x, List.mem_reverse.mp hx, hd⟩
      · intro h l hl
        obtain ⟨x, hx, hd⟩ := h l.reverse hl.reverse
        exact ⟨x, List.mem_reverse.mp hx, hd⟩
    · intro υ hυ b
      refine hgreatest (Sum.elim (fun _ => init 0) υ) ?_ (.inr b)
      rintro (b | b)
      · exact hempty _
      · exact hυ b

/-- With a block that returns, only one, and a bit for each block the passes end, and the sets of each block have the
bits of the blocks on every path from the head to it and on every path from it to the return block; in every other case
the sets are not computed. -/
theorem calcDominatorInfo_correct (g : FlowGraph n) (k : ℕ) :
    (g.Usable k → ∃ (ids : Fin n → BitSet k) (info : DomInfo n k),
      (∃ turns, ∀ fuel, turns ≤ fuel → g.calcDominatorInfo k fuel = some (some (ids, info))) ∧
        (∀ b c, (ids b).overlap (ids c) = true ↔ b = c) ∧
          (∀ b c, (info.dominator b).overlap (ids c) = true ↔ ∀ l, g.Path g.headBlock l b → c ∈ l) ∧
            ∀ r, g.isReturn r = true →
              ∀ b c, (info.post_dominator b).overlap (ids c) = true ↔ ∀ l, g.Path b l r → c ∈ l) ∧
      (¬ g.Usable k → ∀ fuel, g.calcDominatorInfo k fuel = some none) := by
  cases hassign : g.assignDominatorBits k with
  | none =>
      refine ⟨fun h => absurd h (assignDominatorBits_none hassign), fun _ fuel => ?_⟩
      rw [calcDominatorInfo, hassign]
  | some given =>
      obtain ⟨r, ids⟩ := given
      obtain ⟨hfits, hids, hret⟩ := assignDominatorBits_some hassign
      have husable : g.Usable k := ⟨hfits, r, (hret r).mpr rfl, fun b hb => (hret b).mp hb⟩
      refine ⟨fun _ => ?_, fun h => absurd husable h⟩
      obtain ⟨own, hown, hinj⟩ := exists_own hfits hids
      obtain ⟨info, ⟨turns, hturns⟩, hdom, hpost⟩ := g.passes_dominators (r := r) hown
      have hoverlap : ∀ (s : BitSet k) c, s.overlap (ids c) = true ↔ own c ∈ s.bits := fun s c => by
        rw [overlap_iff, hown, Set.inter_singleton_nonempty]
      refine ⟨ids, info, ⟨turns, fun fuel h => ?_⟩, fun b c => ?_, fun b c => ?_, fun r' hr' b c => ?_⟩
      · rw [calcDominatorInfo, hassign]
        dsimp only
        rw [hturns fuel h]
        rfl
      · rw [hoverlap, hown, Set.mem_singleton_iff, hinj.eq_iff, eq_comm]
      · rw [hoverlap, hdom]
        simp only [hinj.eq_iff, exists_eq_right]
      · obtain rfl := (hret r').mp hr'
        rw [hoverlap, hpost]
        simp only [hinj.eq_iff, exists_eq_right]

end FlowGraph

end OpenWatcom.Dominate
