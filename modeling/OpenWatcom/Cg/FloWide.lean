import OpenWatcom.Cg.FloMake

/-! # A routine with too many blocks

The blocks are numbered with 16 bits.  In a chain of 65536 blocks whose last one leads back to the one before it the
numbers of these two are 65535 and 0, and their loop is not found. -/

namespace OpenWatcom.FloGraph

open Chains
open Function (update update_self update_of_ne)

theorem Ends.unique {α : Type*} {f : ℕ → Option α} {a b : α} (ha : Ends f a) (hb : Ends f b) : a = b := by
  obtain ⟨n, hn⟩ := ha
  obtain ⟨m, hm⟩ := hb
  exact Option.some.inj ((hn (max n m) (le_max_left n m)).symm.trans (hm (max n m) (le_max_right n m)))

namespace Wide

/-- A chain of blocks; the last one leads back to the one before it. -/
def chain (n : ℕ) : Flow ℕ where
  headBlock := some 0
  blockList := some (n - 1)
  next b := if b + 1 < n then some (b + 1) else none
  prev b := if b = 0 then none else some (b - 1)
  dest b := if b + 1 < n then [b + 1] else [n - 2]
  inputs b := if b = 0 then [] else if b + 2 = n then [⟨b - 1, 0⟩, ⟨n - 1, 0⟩] else [⟨b - 1, 0⟩]
  isReturn _ := false
  isSelect _ := false
  visited _ := false
  loopHeader _ := false
  iterationsKnown _ := false
  loopHead _ := none
  depth _ := 0
  blkId _ := 0

/-- Numbers beyond those of the chain. -/
def fresh (n : ℕ) (e : Edge ℕ) : ℕ := n + Nat.pair e.source e.index

variable {n : ℕ}

theorem mem_dest {b c : ℕ} (hb : b < n) : c ∈ (chain n).dest b ↔ b + 1 < n ∧ c = b + 1 ∨ b + 1 = n ∧ c = n - 2 := by
  by_cases h : b + 1 < n
  · simp [chain, h]
    omega
  · simp [chain, h]
    omega

theorem dest_eq_some {e : Edge ℕ} {c : ℕ} (he : e.source < n) : ((chain n).dest e.source)[e.index]? = some c ↔
    e.index = 0 ∧ (e.source + 1 < n ∧ c = e.source + 1 ∨ e.source + 1 = n ∧ c = n - 2) := by
  rcases e with ⟨b, i⟩
  dsimp only at he ⊢
  cases i with
  | zero =>
      by_cases h : b + 1 < n
      · simp [chain, h, eq_comm]
        omega
      · simp [chain, h, eq_comm]
        omega
  | succ i =>
      by_cases h : b + 1 < n
      · simp [chain, h]
      · simp [chain, h]

theorem routine (hn : 3 ≤ n) : Routine (fresh n) (chain n) 0 (List.range n) where
  links := by
    have hpath : ∀ k a, a + k = n → Chain (chain n).next (if a < n then some a else none) (List.range' a k) := by
      intro k
      induction k with
      | zero =>
          intro a ha
          rw [if_neg (by omega)]
          rfl
      | succ k ih =>
          intro a ha
          rw [if_pos (by omega), List.range'_succ]
          exact ⟨rfl, ih (a + 1) (by omega)⟩
    have := hpath n 0 (by omega)
    rw [if_pos (by omega)] at this
    rw [List.range_eq_range']
    exact this
  head := rfl
  consistent := by
    refine ⟨fun b hb e => ?_, fun b hb => ?_, fun b hb c hc => ?_⟩
    · rw [List.mem_range] at hb ⊢
      rw [and_congr_right fun he => dest_eq_some he]
      obtain ⟨a, i⟩ := e
      unfold chain
      dsimp only
      split_ifs
      · exact ⟨fun h => absurd h List.not_mem_nil, by omega⟩
      · simp only [List.mem_cons, List.not_mem_nil, or_false, Edge.mk.injEq]
        omega
      · simp only [List.mem_cons, List.not_mem_nil, or_false, Edge.mk.injEq]
        omega
    · unfold chain
      dsimp only
      split_ifs
      · exact List.nodup_nil
      · simp
        omega
      · exact List.nodup_singleton _
    · rw [List.mem_range] at hb ⊢
      have := (mem_dest hb).mp hc
      omega
  noInput b hb hmem := by
    rw [List.mem_range] at hb
    have := (mem_dest hb).mp hmem
    omega
  returns _ _ h := absurd h Bool.false_ne_true
  unvisited _ _ := rfl
  fresh :=
    { not_mem := fun e _ hmem => by
        have := List.mem_range.mp hmem
        unfold fresh at this
        omega
      injective := fun e e' _ _ heq => by
        have hpair : Nat.pair e.source e.index = Nat.pair e'.source e'.index := Nat.add_left_cancel heq
        obtain ⟨hsource, hindex⟩ := Nat.pair_eq_pair.mp hpair
        cases e
        cases e'
        simp_all }

theorem chain_outcome : ∃ ending s' l', Ends (fun fuel => makeFlowGraph (fresh 3) fuel (chain 3)) (ending, s') ∧
    Routine.Outcome (fresh 3) (chain 3) 0 (List.range 3) ending s' l' :=
  Routine.makeFlowGraph_outcome (routine le_rfl)

/-! ### The order -/

/-- The depth first order is that of the chain. -/
theorem order_eq {p : List ℕ} (hn : 3 ≤ n) (hmem : ∀ x, x ∈ p ↔ x ∈ List.range n) (hnodup : p.Nodup)
    (hhead : p.head? = some 0) (htree : TreeOrdered (chain n).dest p) : p = List.range n := by
  have hlength : p.length = n := by
    have := ((List.perm_ext_iff_of_nodup hnodup List.nodup_range).mpr hmem).length_eq
    rwa [List.length_range] at this
  -- every block but the first stands behind a block that leads to it
  have hearlier : ∀ x, 0 < x → x < n → ∃ y < n, x ∈ (chain n).dest y ∧ p.idxOf y < p.idxOf x := by
    intro x hx hxn
    obtain ⟨l₁, l₂, hsplit⟩ := List.append_of_mem ((hmem x).mpr (List.mem_range.mpr hxn))
    have hl₁ : l₁ ≠ [] := by
      rintro rfl
      rw [hsplit] at hhead
      exact absurd (Option.some.inj hhead) (by omega)
    obtain ⟨y, hy, hxy⟩ := htree l₁ x l₂ hsplit hl₁
    refine ⟨y, List.mem_range.mp ((hmem y).mp (by rw [hsplit]; exact List.mem_append_left _ hy)), hxy, ?_⟩
    rw [hsplit] at hnodup ⊢
    have hx₁ : x ∉ l₁ := fun h => (List.nodup_append'.mp hnodup).2.2 h List.mem_cons_self
    rw [List.idxOf_append_of_mem hy, List.idxOf_append_of_notMem hx₁]
    exact (List.idxOf_lt_length_of_mem hy).trans_le (Nat.le_add_right ..)
  have hlast : p.idxOf (n - 2) < p.idxOf (n - 1) := by
    obtain ⟨y, hy, hmem, hlt⟩ := hearlier (n - 1) (by omega) (by omega)
    obtain rfl : y = n - 2 := by
      have := (mem_dest hy).mp hmem
      omega
    exact hlt
  have hstep : ∀ x, x + 1 < n → p.idxOf x < p.idxOf (x + 1) := by
    intro x hx
    obtain ⟨y, hy, hmem, hlt⟩ := hearlier (x + 1) (by omega) hx
    rcases (mem_dest hy).mp hmem with ⟨-, hxy⟩ | ⟨hyn, hxy⟩
    · obtain rfl : x = y := by omega
      exact hlt
    · obtain rfl : y = n - 1 := by omega
      rw [hxy] at hlt
      omega
  have hlow : ∀ x, x < n → x ≤ p.idxOf x := by
    intro x
    induction x with
    | zero => exact fun _ => Nat.zero_le _
    | succ x ih =>
        intro hx
        have := hstep x hx
        have := ih (by omega)
        omega
  have hhigh : ∀ k, k < n → p.idxOf (n - 1 - k) + k < n := by
    intro k
    induction k with
    | zero =>
        intro _
        have := List.idxOf_lt_length_of_mem ((hmem (n - 1)).mpr (List.mem_range.mpr (by omega)))
        rw [Nat.sub_zero]
        omega
    | succ k ih =>
        intro hk
        have hlt := hstep (n - 1 - (k + 1)) (by omega)
        rw [show n - 1 - (k + 1) + 1 = n - 1 - k by omega] at hlt
        have := ih (by omega)
        omega
  refine List.ext_getElem (by rw [hlength, List.length_range]) fun i hi hi' => ?_
  rw [List.getElem_range]
  have hx : p[i] < n := List.mem_range.mp ((hmem _).mp (List.getElem_mem hi))
  have hidx : p.idxOf p[i] = i := hnodup.idxOf_getElem i hi
  have hlow' := hlow _ hx
  have hhigh' := hhigh (n - 1 - p[i]) (by omega)
  rw [show n - 1 - (n - 1 - p[i]) = p[i] by omega, hidx] at hhigh'
  omega

/-! ### The intervals -/

/-- The first level when the blocks up to `k` are in the interval of the head. -/
structure Low (k : ℕ) (t : Intervals ℕ × ℕ) : Prop where
  parent : ∀ b, t.1.parent 0 b = if b ≤ k then some 0 else none
  above : ∀ m b, 0 < m → t.1.parent m b = none
  subs : t.1.subs 1 0 = List.range (k + 1)
  count : t.2 = 1

theorem Low.step {k : ℕ} {t : Intervals ℕ × ℕ} (h : Low k t) (hk : k + 3 < n) :
    ∃ t', findInterval (chain n).inputs 0 t (k + 1) = some t' ∧ Low (k + 1) t' := by
  have hinputs : (chain n).inputs (k + 1) = [⟨k, 0⟩] := by
    simp only [chain]
    rw [if_neg (by omega), if_neg (by omega)]
    rfl
  refine ⟨(t.1.join 0 (k + 1) 0, t.2), ?_, ⟨fun b => ?_, fun m b hm => ?_, ?_, h.count⟩⟩
  · simp [findInterval, Intervals.intervalNo, h.parent, hinputs, Intervals.scanInputs]
  · simp only [Intervals.join, update_self]
    by_cases hb : b = k + 1
    · rw [hb, update_self, if_pos le_rfl]
    · rw [update_of_ne hb, h.parent]
      exact if_congr (by omega) rfl rfl
  · simp only [Intervals.join]
    rw [update_of_ne (by omega), h.above m b hm]
  · simp only [Intervals.join, update_self]
    rw [h.subs, ← List.range_succ]

theorem Low.foldlM {k : ℕ} {t : Intervals ℕ × ℕ} (h : Low 0 t) (hk : k + 2 < n) :
    ∃ t', (List.range' 1 k).foldlM (findInterval (chain n).inputs 0) t = some t' ∧ Low k t' := by
  induction k with
  | zero => exact ⟨t, rfl, h⟩
  | succ k ih =>
      obtain ⟨t', hfold, hlow⟩ := ih (by omega)
      obtain ⟨t'', hstep, hlow'⟩ := hlow.step hk
      refine ⟨t'', ?_, hlow'⟩
      rw [List.range'_1_concat, List.foldlM_append, hfold, Nat.add_comm 1 k]
      simp only [List.foldlM_cons, List.foldlM_nil, Option.bind_eq_bind, Option.bind_some, hstep]
      rfl

/-- The first level: the last two blocks make an interval. -/
structure First (n : ℕ) (iv : Intervals ℕ) : Prop where
  parent : ∀ b, iv.parent 0 b = if b + 2 < n then some 0 else if b < n then some (n - 2) else none
  above : ∀ m b, 0 < m → iv.parent m b = none
  subs : iv.subs 1 0 = List.range (n - 2)
  subs_last : iv.subs 1 (n - 2) = [n - 2, n - 1]

theorem tail_range (hn : 3 ≤ n) : (List.range n).tail = List.range' 1 (n - 3) ++ [n - 2, n - 1] := by
  obtain ⟨k, rfl⟩ : ∃ k, n = k + 3 := ⟨n - 3, by omega⟩
  rw [List.range_eq_range', List.range'_succ, List.tail_cons, show k + 2 = k + 1 + 1 from rfl, List.range'_1_concat,
    List.range'_1_concat, List.append_assoc]
  simp only [Nat.add_sub_cancel, List.cons_append, List.nil_append, List.append_cancel_left_eq, List.cons.injEq,
    and_true]
  omega

theorem first_level (hn : 3 ≤ n) : ∃ iv, First n iv ∧
    (List.range n).tail.foldlM (findInterval (chain n).inputs 0)
      (Intervals.newInterval ⟨fun _ _ => none, fun _ _ => [], fun _ blk => blk⟩ 0 0, 1) = some (iv, 2) := by
  have hstart : Low 0 (Intervals.newInterval (β := ℕ) ⟨fun _ _ => none, fun _ _ => [], fun _ blk => blk⟩ 0 0, 1) := by
    refine ⟨fun b => ?_, fun m b hm => ?_, rfl, rfl⟩
    · simp only [Intervals.newInterval, Intervals.intervalNo, update_self]
      by_cases hb : b = 0
      · rw [hb, update_self, if_pos le_rfl]
      · rw [update_of_ne hb, if_neg (by omega)]
    · simp only [Intervals.newInterval]
      rw [update_of_ne (by omega)]
  obtain ⟨t, hfold, hlow⟩ := hstart.foldlM (n := n) (k := n - 3) (by omega)
  have hinputs : (chain n).inputs (n - 2) = [⟨n - 3, 0⟩, ⟨n - 1, 0⟩] := by
    simp only [chain]
    rw [if_neg (by omega), if_pos (by omega)]
    rfl
  have hinputs' : (chain n).inputs (n - 1) = [⟨n - 2, 0⟩] := by
    simp only [chain]
    rw [if_neg (by omega), if_neg (by omega)]
    rfl
  have hstep : findInterval (chain n).inputs 0 t (n - 2) = some (t.1.newInterval 0 (n - 2), t.2 + 1) := by
    have hcurr : ¬ n - 2 ≤ n - 3 := by omega
    have hnext : ¬ n - 1 ≤ n - 3 := by omega
    have hbefore : n - 3 ≠ n - 2 := by omega
    have hafter : n - 1 ≠ n - 2 := by omega
    simp [findInterval, Intervals.intervalNo, hlow.parent, hinputs, Intervals.scanInputs, hcurr, hnext, hbefore, hafter]
  have hparent : ∀ b, (t.1.newInterval 0 (n - 2)).parent 0 b =
      if b + 2 < n then some 0 else if b + 2 = n then some (n - 2) else none := by
    intro b
    simp only [Intervals.newInterval, Intervals.intervalNo, update_self]
    by_cases hb : b = n - 2
    · rw [hb, update_self, if_neg (by omega), if_pos (by omega)]
    · rw [update_of_ne hb, hlow.parent]
      split_ifs <;> first | rfl | omega
  have hstep' : findInterval (chain n).inputs 0 (t.1.newInterval 0 (n - 2), t.2 + 1) (n - 1) =
      some ((t.1.newInterval 0 (n - 2)).join 0 (n - 1) (n - 2), t.2 + 1) := by
    have hcurr : ¬ n - 1 + 2 < n ∧ n - 1 + 2 ≠ n := by omega
    have hbefore : ¬ n - 2 + 2 < n ∧ n - 2 + 2 = n ∧ n - 2 ≠ n - 1 := by omega
    simp [findInterval, Intervals.intervalNo, hparent, hinputs', Intervals.scanInputs, hcurr, hbefore]
  refine ⟨(t.1.newInterval 0 (n - 2)).join 0 (n - 1) (n - 2), ⟨fun b => ?_, fun m b hm => ?_, ?_, ?_⟩, ?_⟩
  · simp only [Intervals.join, update_self]
    by_cases hb : b = n - 1
    · rw [hb, update_self, if_neg (by omega), if_pos (by omega)]
    · rw [update_of_ne hb, hparent]
      split_ifs <;> first | rfl | omega
  · simp only [Intervals.join, Intervals.newInterval]
    rw [update_of_ne (by omega), update_of_ne (by omega), hlow.above m b hm]
  · simp only [Intervals.join, Intervals.newInterval, update_self]
    rw [update_of_ne (by omega), update_of_ne (by omega), hlow.subs, show n - 3 + 1 = n - 2 by omega]
  · simp only [Intervals.join, Intervals.newInterval, Intervals.intervalNo, update_self, List.cons_append,
      List.nil_append]
  · rw [hlow.count] at hstep hstep'
    rw [tail_range hn, List.foldlM_append, hfold]
    simp only [List.foldlM_cons, List.foldlM_nil, Option.bind_eq_bind, Option.bind_some, hstep, hstep']
    rfl

/-- The second level: the two intervals make one. -/
structure Second (n : ℕ) (iv : Intervals ℕ) : Prop where
  low : ∀ b < n, iv.intervalNo b 1 = if b + 2 < n then 0 else n - 2
  high : ∀ b < n, iv.intervalNo b 2 = 0
  parent_last : iv.parent 0 (n - 1) = some (n - 2) ∧ iv.parent 1 (n - 2) = some 0 ∧ iv.parent 2 0 = none
  blocks : iv.blocks 2 0 = List.range n
  blocks_last : iv.blocks 1 (n - 2) = [n - 2, n - 1]

theorem second_level (hn : 3 ≤ n) {iv : Intervals ℕ} (h : First n iv) : ∃ iv', Second n iv' ∧
    (List.range n).tail.foldlM (findInterval (chain n).inputs 1) (iv.newInterval 1 0, 1) = some (iv', 1) := by
  have hzero : iv.intervalNo 0 1 = 0 := by
    simp only [Intervals.intervalNo, h.parent]
    rw [if_pos (by omega)]
    rfl
  have hlow : ∀ b < n, (iv.newInterval 1 0).intervalNo b 1 = if b + 2 < n then 0 else n - 2 := by
    intro b hb
    simp only [Intervals.intervalNo, Intervals.newInterval]
    rw [update_of_ne (by omega), h.parent]
    split_ifs
    · rfl
    · rfl
  have hparent : ∀ b, (iv.newInterval 1 0).parent 1 b = if b = 0 then some 0 else none := by
    intro b
    simp only [Intervals.newInterval, hzero, update_self]
    by_cases hb : b = 0
    · rw [hb, update_self, if_pos rfl]
    · rw [update_of_ne hb, h.above 1 b Nat.one_pos, if_neg hb]
  have hskip : (List.range' 1 (n - 3)).foldlM (findInterval (chain n).inputs 1) (iv.newInterval 1 0, 1) =
      some (iv.newInterval 1 0, 1) := by
    have hall : ∀ L : List ℕ, (∀ b ∈ L, b + 2 < n) →
        L.foldlM (findInterval (chain n).inputs 1) (iv.newInterval 1 0, 1) = some (iv.newInterval 1 0, 1) := by
      intro L
      induction L with
      | nil => exact fun _ => rfl
      | cons b L ih =>
          intro hL
          have hb : b + 2 < n := hL b List.mem_cons_self
          have hstep : findInterval (chain n).inputs 1 (iv.newInterval 1 0, 1) b = some (iv.newInterval 1 0, 1) := by
            simp only [findInterval, hlow b (by omega), if_pos hb, hparent]
            rfl
          rw [List.foldlM_cons, hstep]
          exact ih fun c hc => hL c (List.mem_cons_of_mem b hc)
    refine hall _ fun b hb => ?_
    have := List.mem_range'_1.mp hb
    omega
  have hinputs : (chain n).inputs (n - 2) = [⟨n - 3, 0⟩, ⟨n - 1, 0⟩] := by
    simp only [chain]
    rw [if_neg (by omega), if_pos (by omega)]
    rfl
  have hcurr : (iv.newInterval 1 0).intervalNo (n - 2) 1 = n - 2 := by
    rw [hlow _ (by omega), if_neg (by omega)]
  have hbefore : (iv.newInterval 1 0).intervalNo (n - 3) 1 = 0 := by
    rw [hlow _ (by omega), if_pos (by omega)]
  have hafter : (iv.newInterval 1 0).intervalNo (n - 1) 1 = n - 2 := by
    rw [hlow _ (by omega), if_neg (by omega)]
  have hpos : ¬ 0 = n - 2 := by omega
  have hpos' : ¬ n - 2 = 0 := by omega
  have hstep : findInterval (chain n).inputs 1 (iv.newInterval 1 0, 1) (n - 2) =
      some ((iv.newInterval 1 0).join 1 (n - 2) 0, 1) := by
    simp [findInterval, hcurr, hparent, hinputs, Intervals.scanInputs, hbefore, hafter, hpos, hpos']
  have hlow' : ∀ b < n, ((iv.newInterval 1 0).join 1 (n - 2) 0).intervalNo b 1 = if b + 2 < n then 0 else n - 2 := by
    intro b hb
    rw [← hlow b hb]
    simp only [Intervals.intervalNo, Intervals.join]
    rw [update_of_ne (by omega)]
  have hparent' : ∀ b, ((iv.newInterval 1 0).join 1 (n - 2) 0).parent 1 b =
      if b = 0 ∨ b = n - 2 then some 0 else none := by
    intro b
    simp only [Intervals.join, update_self]
    by_cases hb : b = n - 2
    · rw [hb, update_self, if_pos (.inr rfl)]
    · rw [update_of_ne hb, hparent]
      exact if_congr (by tauto) rfl rfl
  have hstep' : findInterval (chain n).inputs 1 ((iv.newInterval 1 0).join 1 (n - 2) 0, 1) (n - 1) =
      some ((iv.newInterval 1 0).join 1 (n - 2) 0, 1) := by
    have hcurr' : ((iv.newInterval 1 0).join 1 (n - 2) 0).intervalNo (n - 1) 1 = n - 2 := by
      rw [hlow' _ (by omega), if_neg (by omega)]
    simp [findInterval, hcurr', hparent']
  have hsubs : ∀ b, b = 0 ∨ b = n - 2 → ((iv.newInterval 1 0).join 1 (n - 2) 0).subs 1 b = iv.subs 1 b := by
    intro b _
    simp only [Intervals.join, Intervals.newInterval]
    rw [update_of_ne (by omega), update_of_ne (by omega)]
  have hblocks : ((iv.newInterval 1 0).join 1 (n - 2) 0).blocks 1 (n - 2) = [n - 2, n - 1] := by
    simp only [Intervals.blocks, hsubs _ (.inr rfl), h.subs_last]
    rfl
  refine ⟨(iv.newInterval 1 0).join 1 (n - 2) 0, ⟨hlow', fun b hb => ?_, ⟨?_, ?_, ?_⟩, ?_, hblocks⟩, ?_⟩
  · rw [Intervals.intervalNo, hparent', hlow' b hb, if_pos (by split_ifs <;> simp)]
    rfl
  · simp only [Intervals.join, Intervals.newInterval]
    rw [update_of_ne (by omega), update_of_ne (by omega), h.parent, if_neg (by omega), if_pos (by omega)]
  · rw [hparent', if_pos (.inr rfl)]
  · simp only [Intervals.join, Intervals.newInterval]
    rw [update_of_ne (by omega), update_of_ne (by omega), h.above 2 0 (by omega)]
  · have hsubs₂ : ((iv.newInterval 1 0).join 1 (n - 2) 0).subs 2 0 = [0, n - 2] := by
      simp only [Intervals.join, Intervals.newInterval, update_self, hzero]
      rfl
    have hblocks₀ : ((iv.newInterval 1 0).join 1 (n - 2) 0).blocks 1 0 = List.range (n - 2) := by
      simp only [Intervals.blocks, hsubs _ (.inl rfl), h.subs, List.flatMap_singleton']
    rw [Intervals.blocks, hsubs₂]
    simp only [List.flatMap_cons, List.flatMap_nil, List.append_nil, hblocks₀, hblocks]
    obtain ⟨k, rfl⟩ : ∃ k, n = k + 2 := ⟨n - 2, by omega⟩
    rw [List.range_succ, List.range_succ, List.append_assoc]
    rfl
  · rw [tail_range hn, List.foldlM_append, hskip]
    simp only [List.foldlM_cons, List.foldlM_nil, Option.bind_eq_bind, Option.bind_some, hstep, hstep']
    rfl

/-- The chain is reduced to one interval. -/
theorem findIntervals (hn : 3 ≤ n) {s : Flow ℕ} (hhead : s.headBlock = some 0) (hinputs : s.inputs = (chain n).inputs)
    (hchain : Chain s.next s.headBlock (List.range n)) :
    ∃ iv, Second n iv ∧ Ends (fun fuel => findIntervals fuel s) (true, 2, iv) := by
  obtain ⟨iv, hfirst, hfold⟩ := first_level hn
  obtain ⟨iv', hsecond, hfold'⟩ := second_level hn hfirst
  refine ⟨iv', hsecond, ?_⟩
  have hlevels : Ends (fun fuel => findLevels s.inputs 0 (List.range n).tail fuel 0 (List.range n).length
      ⟨fun _ _ => none, fun _ _ => [], fun _ blk => blk⟩) (true, 2, iv') := by
    refine (Ends.succ (g := fun fuel => findLevels s.inputs 0 (List.range n).tail fuel 1 2 iv) ?_ fun fuel => ?_)
    · refine (Ends.const (true, 2, iv')).succ fun fuel => ?_
      rw [findLevels, hinputs, hfold']
      rfl
    · rw [findLevels, hinputs, hfold]
      simp only [Option.bind_some, List.length_range]
      rw [if_neg (by omega)]
  refine ((Ends.walk hchain).bind (h := fun fuel blks => findLevels s.inputs 0 blks.tail fuel 0 blks.length
      ⟨fun _ _ => none, fun _ _ => [], fun _ blk => blk⟩) hlevels).congr fun fuel => ?_
  rw [FloGraph.findIntervals, hhead]
  rfl

/-! ### The numbers -/

/-- With 65536 blocks the edge to the last block has the last level. -/
theorem joinLevel_last (hN : n = 65536) {iv : Intervals ℕ} (h : Second n iv) {last : ℕ → ℕ → ℕ} {blkId : ℕ → ℕ}
    (hid : ∀ b < n, blkId b = (b + 1) % 2 ^ 16) (hlast₀ : last 0 (n - 1) = n - 1) (hlast₁ : last 1 (n - 2) = n - 1)
    (hlast₂ : last 2 0 = n - 1) (j : Option ℕ) : joinLevel iv last blkId (n - 2) 3 0 (n - 1) j = some 2 := by
  have hid₁ : blkId (n - 2) = 65535 := by
    rw [hid _ (by omega)]
    omega
  have hid₂ : blkId (n - 1) = 0 := by
    rw [hid _ (by omega)]
    omega
  obtain ⟨hparent₀, hparent₁, hparent₂⟩ := h.parent_last
  simp [joinLevel, hid₁, hid₂, hlast₀, hlast₁, hlast₂, hparent₀, hparent₁, hparent₂]

/-- No block of the chain has an edge back at the first level. -/
theorem markBack_eq (hN : n = 65536) {s : Flow ℕ} {join : Edge ℕ → Option ℕ} (hdest : s.dest = (chain n).dest)
    (hid : ∀ b < n, s.blkId b = (b + 1) % 2 ^ 16) (hjoin : join ⟨n - 2, 0⟩ = some 2) {b : ℕ} (hb : b < n) :
    markBack join 0 s b = { s with next := update s.next b none } := by
  have hnone : ((edgesDown s b).find? fun x => s.blkId x.1 ≤ s.blkId b ∧ join x.2 = some 0) = none := by
    refine List.find?_eq_none.mpr fun x hx => ?_
    obtain ⟨c, e⟩ := x
    obtain ⟨i, hi, rfl⟩ := Intervals.mem_edgesDown.mp hx
    rw [hdest] at hi
    obtain ⟨hi0, hc⟩ := (dest_eq_some (e := ⟨b, i⟩) hb).mp hi
    dsimp only at hi0 hc
    subst hi0
    simp only [decide_eq_true_eq]
    rintro ⟨hle, hlevel⟩
    rcases hc with ⟨hbn, rfl⟩ | ⟨hbn, rfl⟩
    · rw [hid _ hbn, hid b hb] at hle
      by_cases hb' : b = n - 2
      · rw [hb', hjoin] at hlevel
        exact absurd (Option.some.inj hlevel) (by decide)
      · rw [Nat.mod_eq_of_lt (by omega), Nat.mod_eq_of_lt (by omega)] at hle
        omega
    · obtain rfl : b = n - 1 := by omega
      rw [hid _ (by omega), hid _ hb] at hle
      omega
  unfold markBack
  rw [hnone]

/-- Then nothing is marked. -/
theorem level_unmarked (hN : n = 65536) {s : Flow ℕ} {join : Edge ℕ → Option ℕ} (hdest : s.dest = (chain n).dest)
    (hid : ∀ b < n, s.blkId b = (b + 1) % 2 ^ 16) (hjoin : join ⟨n - 2, 0⟩ = some 2) :
    ∃ s', Ends (fun fuel => spread join 0 (List.range n).reverse fuel
        ((List.range n).reverse.foldl (markBack join 0) s)) s' ∧ Intervals.SameGraph s s' ∧
      s'.loopHeader = s.loopHeader := by
  have hfold : ∀ (L done : List ℕ) (t : Flow ℕ), (∀ b ∈ L, b < n) → Intervals.SameGraph s t →
      t.loopHeader = s.loopHeader → (∀ b ∈ done, t.next b = none) →
        Intervals.SameGraph s (L.foldl (markBack join 0) t) ∧ (L.foldl (markBack join 0) t).loopHeader = s.loopHeader ∧
          ∀ b, b ∈ L ∨ b ∈ done → (L.foldl (markBack join 0) t).next b = none := by
    intro L
    induction L with
    | nil => exact fun done t _ hsame hheader hdone => ⟨hsame, hheader, fun b hb => hdone b (by simpa using hb)⟩
    | cons b L ih =>
        intro done t hL hsame hheader hdone
        have hdest' : t.dest = (chain n).dest := by rw [hsame]; exact hdest
        have hid' : ∀ b < n, t.blkId b = (b + 1) % 2 ^ 16 := by rw [hsame]; exact hid
        rw [List.foldl_cons, markBack_eq hN hdest' hid' hjoin (hL b List.mem_cons_self)]
        have hsame' : Intervals.SameGraph s { t with next := update t.next b none } :=
          hsame.trans (show Intervals.SameGraph t _ from rfl)
        obtain ⟨h₁, h₂, h₃⟩ := ih (b :: done) _ (fun c hc => hL c (List.mem_cons_of_mem b hc)) hsame' hheader
          fun c hc => by
            by_cases hcb : c = b
            · rw [hcb]
              exact update_self ..
            · dsimp only
              rw [update_of_ne hcb]
              exact hdone c ((List.mem_cons.mp hc).resolve_left hcb)
        refine ⟨h₁, h₂, fun c hc => h₃ c ?_⟩
        simp only [List.mem_cons] at hc ⊢
        tauto
  obtain ⟨hsame, hheader, hnext⟩ := hfold (List.range n).reverse [] s
    (fun b hb => List.mem_range.mp (List.mem_reverse.mp hb)) rfl rfl fun b hb => absurd hb List.not_mem_nil
  obtain ⟨s', hends, ⟨hsame', hheader', -⟩, -⟩ := Intervals.spread_ends join 0 (l := List.range n)
    (I := fun t => Intervals.SameGraph s t ∧ t.loopHeader = s.loopHeader ∧ ∀ b < n, t.next b = none)
    (by
      rintro t change b hb ⟨hsame, hheader, hnext⟩
      have hb' : b < n := List.mem_range.mp hb
      have hdest' : t.dest = (chain n).dest := by rw [hsame]; exact hdest
      have hnone : ((edgesDown t b).findSome? fun x => if (join x.2).any (· ≤ 0) then t.next x.1 else none) = none := by
        refine List.findSome?_eq_none_iff.mpr fun x hx => ?_
        obtain ⟨c, e⟩ := x
        obtain ⟨i, hi, rfl⟩ := Intervals.mem_edgesDown.mp hx
        rw [hdest'] at hi
        have hc : c < n := by
          have := (mem_dest hb').mp (List.mem_of_getElem? hi)
          omega
        dsimp only
        rw [hnext c hc, ite_self]
      have hsame₂ : spreadBack join 0 (t, change) b = (t, change) := by
        unfold spreadBack
        rw [hnext b hb']
        dsimp only
        rw [hnone]
        rfl
      rw [hsame₂]
      exact ⟨hsame, hheader, hnext⟩)
    (List.range n).reverse (fun b hb => List.mem_reverse.mp hb) _ _ le_rfl
    ⟨hsame, hheader, fun b hb => hnext b (.inl (List.mem_reverse.mpr (List.mem_range.mpr hb)))⟩
  exact ⟨s', hends, hsame', hheader'⟩

/-- What the search leaves of the chain. -/
theorem entered (hn : 3 ≤ n) : ∃ s q, 0 :: q = List.range n ∧ Entered s 0 q ∧ s.dest = (chain n).dest ∧
    s.inputs = (chain n).inputs ∧
      Ends (fun fuel => (irreducable fuel (chain n)).bind fun s => (noBlocksToSelf (fresh n) fuel s).bind fun s =>
        depthFirstSearch fuel s) (true, s) := by
  have hr := routine hn
  obtain ⟨s₁, hends₁, hclear₁, hframe₁⟩ := Ends.irreducable hr.links
  have hdest₁ : s₁.dest = (chain n).dest := by rw [hframe₁]
  have hinputs₁ : s₁.inputs = (chain n).inputs := by rw [hframe₁]
  have hchain₁ : Chain s₁.next s₁.headBlock (List.range n) := by
    rw [hframe₁]
    exact hr.links
  have hself : ∀ b ∈ List.range n, b ∉ (chain n).dest b := by
    intro b hb hmem
    have hb' := List.mem_range.mp hb
    have := (mem_dest hb').mp hmem
    omega
  have hends₂ : Ends (fun fuel => noBlocksToSelf (fresh n) fuel s₁) s₁ := by
    refine noBlocksToSelfFrom_skip (List.range n) hchain₁ ?_ ((Ends.const s₁).succ fun fuel => rfl)
    intro x hx e he heq
    rw [hinputs₁] at he
    have := (hr.consistent.inputs_iff x hx e).mp he
    rw [heq] at this
    exact hself x hx (List.mem_of_getElem? this.2)
  obtain ⟨red, s₃, hends₃, hframe₃, hred, horder⟩ := Ends.depthFirstSearch (s := s₁) (l := List.range n) (h := 0)
    (by rw [hdest₁]; exact hr.consistent.dest_mem) (by rw [hframe₁]; rfl) hchain₁
    (by rw [hframe₁]; exact hr.unvisited)
  have hreach : ∀ b, b < n → Reach s₁.dest 0 b := by
    intro b
    induction b with
    | zero => exact fun _ => .refl
    | succ b ih =>
        intro hb
        refine (ih (by omega)).tail ?_
        rw [hdest₁, mem_dest (by omega)]
        exact .inl ⟨hb, rfl⟩
  obtain rfl : red = true := hred.mpr fun b hb => hreach b (List.mem_range.mp hb)
  obtain ⟨q, hlinks, hmem, htree⟩ := horder rfl
  have hq : 0 :: q = List.range n := order_eq hn hmem hlinks.nodup rfl (hdest₁ ▸ htree)
  refine ⟨s₃, q, hq, ⟨⟨?_, ?_, ?_, ?_, hlinks.nodup⟩, hlinks, ?_, ?_, ?_⟩, by rw [hframe₃]; exact hdest₁,
    by rw [hframe₃]; exact hinputs₁, ?_⟩
  · rw [hq, hframe₃, hframe₁]
    exact ⟨hr.consistent.inputs_iff, hr.consistent.inputs_nodup, hr.consistent.dest_mem⟩
  · rw [hq, hframe₃, hframe₁]
    exact hself
  · rw [hq, hframe₃, hframe₁]
    exact hr.noInput
  · rw [hframe₃]
    exact htree
  · rw [hq, hframe₃]
    exact fun b hb => (hclear₁ b hb).1
  · rw [hq, hframe₃]
    exact fun b hb => (hclear₁ b hb).2
  · rw [hq, hframe₃, hframe₁]
    exact hr.returns
  · exact hends₁.bind (h := fun fuel s => (noBlocksToSelf (fresh n) fuel s).bind fun s => depthFirstSearch fuel s)
      (hends₂.bind (h := fun fuel s => depthFirstSearch fuel s) hends₃)

/-- The chain is reduced, but no block of it is marked. -/
theorem unmarked_of (hN : n = 65536) : ∃ s', Ends (fun fuel => makeFlowGraph (fresh n) fuel (chain n)) (.nested, s') ∧
    s'.dest = (chain n).dest ∧ ∀ b < n, s'.loopHeader b = false := by
  have hn : 3 ≤ n := by omega
  obtain ⟨s, q, hq, hent, hdest, hinputs, hends⟩ := entered hn
  obtain ⟨s₁, single, top, iv, hf⟩ := hent.found
  have hchain₁ : Chain s₁.next s₁.headBlock (List.range n) := by
    rw [← hq]
    exact hf.links.next
  have hmem : ∀ b < n, b ∈ 0 :: q := by
    intro b hb
    rw [hq]
    exact List.mem_range.mpr hb
  obtain ⟨iv', hsecond, hfind⟩ := findIntervals hn hf.head
    (by rw [hf.frame]; exact hinputs) hchain₁
  obtain ⟨rfl, rfl, rfl⟩ : single = true ∧ top = 2 ∧ iv = iv' := by
    simpa using hf.findIntervals.unique hfind
  obtain ⟨last, s₂, hs⟩ := hf.sorted
  have hblocks : iv.blocks 2 0 = List.range n := hsecond.blocks
  have hid : ∀ b < n, s₂.blkId b = (b + 1) % 2 ^ 16 := by
    intro b hb
    refine hs.id b b ?_
    rw [hblocks, List.getElem?_range hb]
  have hlast : ∀ m ≤ 2, ∀ p < n, iv.intervalNo p m = p → (iv.blocks m p).getLast? = some (last m p) := by
    intro m hm p hp hroot
    exact hs.last m hm p (hmem p hp) hroot
  have hlast₀ : last 0 (n - 1) = n - 1 := (Option.some.inj (hlast 0 (by omega) (n - 1) (by omega) rfl)).symm
  have hlast₁ : last 1 (n - 2) = n - 1 := by
    have := hlast 1 (by omega) (n - 2) (by omega) (by rw [hsecond.low _ (by omega), if_neg (by omega)])
    rw [hsecond.blocks_last] at this
    exact (Option.some.inj this).symm
  have hlast₂ : last 2 0 = n - 1 := by
    have := hlast 2 le_rfl 0 (by omega) (hsecond.high 0 (by omega))
    rw [hblocks, List.getLast?_range, if_neg (by omega)] at this
    exact (Option.some.inj this).symm
  have hlinked : Linked s₂ (List.range n) := by
    rw [← hblocks]
    exact hs.links
  have hdest₂ : s₂.dest = (chain n).dest := by
    rw [hs.frame, hf.frame]
    exact hdest
  have hinputs₂ : s₂.inputs = (chain n).inputs := by
    rw [hs.frame, hf.frame]
    exact hinputs
  have hlevels := (Ends.walk hlinked.next).map fun blks =>
    (blks.flatMap fun blk => (s₂.inputs blk).map fun edge => (blk, edge)).foldl (fun join x =>
      update join x.2 (joinLevel iv last s₂.blkId x.2.source (2 + 1) 0 x.1 (join x.2))) fun _ => none
  obtain ⟨join, hjoin⟩ : ∃ join, ((List.range n).flatMap fun blk =>
    (s₂.inputs blk).map fun edge => (blk, edge)).foldl (fun join x =>
      update join x.2 (joinLevel iv last s₂.blkId x.2.source (2 + 1) 0 x.1 (join x.2))) (fun _ => none) = join :=
    ⟨_, rfl⟩
  rw [hjoin] at hlevels
  have hedge : join ⟨n - 2, 0⟩ = some 2 := by
    rw [← hjoin]
    refine foldl_update (fun x : ℕ × Edge ℕ => x.2) (fun x j => joinLevel iv last s₂.blkId x.2.source (2 + 1) 0 x.1 j)
      (Q := fun j => j = some 2) ?_ (.inl ?_)
    · rintro ⟨blk, e⟩ hx rfl j
      obtain ⟨b, hb, hx⟩ := List.mem_flatMap.mp hx
      obtain ⟨e, he, heq⟩ := List.mem_map.mp hx
      obtain ⟨rfl, rfl⟩ := Prod.mk.inj heq
      rw [hinputs₂] at he
      have htarget := ((routine hn).consistent.inputs_iff b hb _).mp he
      obtain rfl : b = n - 1 := by
        have hlt : n - 2 < n := by omega
        have := (dest_eq_some (e := ⟨n - 2, 0⟩) hlt).mp htarget.2
        dsimp only at this
        omega
      exact joinLevel_last hN hsecond hid hlast₀ hlast₁ hlast₂ j
    · refine List.mem_map.mpr ⟨((n - 1), ⟨n - 2, 0⟩), List.mem_flatMap.mpr
        ⟨(n - 1), List.mem_range.mpr (by omega), List.mem_map.mpr ⟨⟨n - 2, 0⟩, ?_, rfl⟩⟩, rfl⟩
      rw [hinputs₂]
      simp only [chain]
      rw [if_neg (by omega), if_neg (by omega), List.mem_singleton]
      rfl
  obtain ⟨s₂', s₃, hnest, hlinked₃, hsame₃, ⟨hsame', hheader'⟩, hheader₃, -⟩ := Intervals.nestingDepth_ends 2
    join (P := fun _ t => Intervals.SameGraph s₂ t ∧ t.loopHeader = s₂.loopHeader) hlinked ⟨rfl, rfl⟩
    (by
      rintro done m rest hsplit t ⟨hsame, hheader⟩
      have hm : m ∈ List.range (2 - 1) := by rw [hsplit]; simp
      obtain rfl : m = 0 := by simpa using hm
      obtain ⟨t', hends, hsame', hheader'⟩ := level_unmarked hN (s := t) (by rw [hsame]; exact hdest₂)
        (by rw [hsame]; exact hid) hedge
      exact ⟨t', hends, hsame.trans hsame', hheader'.trans hheader⟩)
    fun t h => h.1
  have hclear : ∀ b ∈ List.range n, s₃.loopHeader b = false := by
    intro b hb
    rw [hheader₃, hheader', hs.frame, hf.frame]
    exact hent.header b (hmem b (List.mem_range.mp hb))
  have hselect : selectInputs s₃ (List.range n) = [] := by
    rw [selectInputs, List.filter_eq_nil_iff.mpr fun b hb => by rw [hclear b hb]; exact Bool.false_ne_true]
    rfl
  have hdegenerate : Ends (fun fuel => degenerate fuel s₃) false :=
    (Ends.walk hlinked₃.next).bind (h := fun fuel blks => floodAll s₃ fuel (selectInputs s₃ blks))
      ((Ends.const false).congr fun fuel => by rw [hselect]; rfl)
  have hhead₃ : s₃.headBlock = some 0 := by
    rw [hsame₃, hs.frame]
    exact hf.head
  have hret₃ : s₃.isReturn 0 = false := by
    by_contra hreturn
    rw [Bool.not_eq_false, hsame₃, hs.frame, hf.frame] at hreturn
    have hnone := hent.returns 0 List.mem_cons_self hreturn
    rw [hdest] at hnone
    simp only [chain] at hnone
    rw [if_pos (by omega)] at hnone
    exact absurd hnone (List.cons_ne_nil _ _)
  obtain ⟨s₄, l', hreturns, -, -, hframe₄⟩ := Ends.returnsToBottom hlinked₃ hhead₃ hret₃
  refine ⟨s₄, ?_, by rw [hframe₄, hsame₃]; exact hdest₂, fun b hb => ?_⟩
  · refine (hends.bind (h := fun fuel t => if t.1 then makeIntervals fuel t.2 else
      ((irreducable fuel t.2).bind fun s => (restoreLinks fuel s).map fun s => (Ending.unreachable, s))) ?_).congr
        fun fuel => by simp only [makeFlowGraph, Option.bind_assoc]
    refine (hf.fixLinks.bind (h := fun fuel s => _) (hf.findIntervals.bind (h := fun fuel found => _) ?_))
    refine (hs.reorderBlocks.bind (h := fun fuel t => _) (hlevels.bind (h := fun fuel join => _)
      (hnest.bind (h := fun fuel s => _) (hdegenerate.bind (h := fun fuel found => _)
        ((hreturns.map fun s => (Ending.nested, s)).congr fun fuel => ?_)))))
    simp only [Bool.false_eq_true, if_false]
  · rw [hframe₄]
    exact hclear b (List.mem_range.mpr hb)

/-- The loop of the last two blocks is not found. -/
theorem unmarked_cycle : ∃ (s : Flow ℕ) (h : ℕ) (l : List ℕ) (s' : Flow ℕ) (C : List ℕ),
    Routine (fresh 65536) s h l ∧ Ends (fun fuel => makeFlowGraph (fresh 65536) fuel s) (.nested, s') ∧
      Cycle s'.dest C ∧ (∀ x ∈ C, x ∈ l) ∧ ∀ x ∈ C, s'.loopHeader x = false := by
  obtain ⟨n, hN⟩ : ∃ n, n = 65536 := ⟨_, rfl⟩
  rw [← hN]
  obtain ⟨s', hends, hdest, hclear⟩ := unmarked_of hN
  have hmem : ∀ x ∈ [n - 2, n - 1], x < n := by
    intro x hx
    simp only [List.mem_cons, List.not_mem_nil, or_false] at hx
    omega
  refine ⟨chain n, 0, List.range n, s', [n - 2, n - 1], routine (by omega), hends, ⟨List.cons_ne_nil _ _, fun i => ?_⟩,
    fun x hx => List.mem_range.mpr (hmem x hx), fun x hx => hclear x (hmem x hx)⟩
  rw [hdest]
  have hi : i % 2 = 0 ∧ (i + 1) % 2 = 1 ∨ i % 2 = 1 ∧ (i + 1) % 2 = 0 := by omega
  rintro b hb c hc
  simp only [List.length_cons, List.length_nil, Nat.zero_add, Nat.reduceAdd] at hb hc
  rcases hi with ⟨h₁, h₂⟩ | ⟨h₁, h₂⟩
  · rw [h₁] at hb
    rw [h₂] at hc
    obtain rfl := Option.some.inj hb
    obtain rfl := Option.some.inj hc
    rw [mem_dest (by omega)]
    omega
  · rw [h₁] at hb
    rw [h₂] at hc
    obtain rfl := Option.some.inj hb
    obtain rfl := Option.some.inj hc
    rw [mem_dest (by omega)]
    omega

end Wide

end OpenWatcom.FloGraph
