import OpenWatcom.Cg.VarUsage

/-! # Live names of a flow graph

`LiveAnalysis` finds in passes over the blocks, from the last one to the first one, which global bits are live where a
block begins and where it ends. -/

namespace OpenWatcom.Liveness

open Dominate (BitSet)
open Iteration VarUsage

structure Block (n : ℕ) where
  /-- `BLK_RETURN`. -/
  isReturn : Bool
  /-- `BLK_LABEL_RETURN`. -/
  isLabelReturn : Bool
  /-- The destinations of `edge[0]` to `edge[targets - 1]`.  `BLK_BIG_JUMP` is zero, so no block is left without. -/
  targets : List (Fin n)
  ins : List Instruction

/-- The blocks from `HeadBlock` along `next_block`, and the bits of the memory names. -/
structure Routine (n k : ℕ) where
  names : Names k
  block : Fin n → Block n
  memoryBits : BitSet k
  memory_bits : ∀ m, names.bits (.memory m) ⊆ memoryBits.bits

/-- The use and def sets of the blocks. -/
structure References (n k : ℕ) where
  useSet : Fin n → BitSet k
  defSet : Fin n → BitSet k

/-- The in and out sets of the blocks. -/
structure LiveSets (n k : ℕ) where
  inSet : Fin n → BitSet k
  outSet : Fin n → BitSet k

namespace Routine

variable {n k : ℕ} (P : Routine n k)

/-- A turn of the loop of `SearchDefUse`. -/
def searchDefUse (s : Scan k × References n k) (b : Fin n) : Scan k × References n k :=
  let σ := P.names.searchBlock s.1 (P.block b).ins
  (σ, ⟨Function.update s.2.useSet b σ.useSet, Function.update s.2.defSet b σ.defSet⟩)

/-- `FindReferences`, from the flags that the names have for the routine. -/
def findReferences (usage : Var → Usage) : References n k :=
  ((List.finRange n).foldl P.searchDefUse
    (⟨fun _ => .empty, usage, .init 0, .init 0⟩, ⟨fun _ => .init 0, fun _ => .init 0⟩)).2

/-- The new OUT: the memory bits where the routine returns, and the successors' IN. -/
def newOut (inSet : Fin n → BitSet k) (b : Fin n) : BitSet k :=
  (P.block b).targets.reverse.foldl (fun s target => s.turnOn (inSet target))
    (if (P.block b).isReturn || (P.block b).isLabelReturn then P.memoryBits else .init 0)

variable (refs : References n k)

/-- The part of the loop of `LiveAnalysis` for the OUT of a block, with `change`. -/
def visitOut (s : LiveSets n k × Bool) (b : Fin n) (new_gbs : BitSet k) : LiveSets n k × Bool :=
  if s.1.outSet b = new_gbs then s else ({ s.1 with outSet := Function.update s.1.outSet b new_gbs }, true)

/-- The part of the loop for the IN of a block. -/
def visitIn (s : LiveSets n k × Bool) (b : Fin n) (new_gbs : BitSet k) : LiveSets n k × Bool :=
  if s.1.inSet b = new_gbs then s else ({ s.1 with inSet := Function.update s.1.inSet b new_gbs }, true)

/-- A turn of the inner loop of `LiveAnalysis`. -/
def visitBlock (s : LiveSets n k × Bool) (b : Fin n) : LiveSets n k × Bool :=
  let new_gbs := P.newOut s.1.inSet b
  visitIn (visitOut s b new_gbs) b ((new_gbs.turnOff (refs.defSet b)).turnOn (refs.useSet b))

/-- The loop of `LiveAnalysis`, with a bound on its turns. -/
def passes : ℕ → LiveSets n k → Option (LiveSets n k)
  | 0, _ => none
  | fuel + 1, live =>
      let s := (List.finRange n).reverse.foldl (P.visitBlock refs) (live, false)
      if s.2 then passes fuel s.1 else some s.1

/-- `LiveAnalysis`, from the empty sets of `FindReferences`. -/
def liveAnalysis (fuel : ℕ) : Option (LiveSets n k) := P.passes refs fuel ⟨fun _ => .init 0, fun _ => .init 0⟩

/-- The liveness equations. -/
structure Solves (live : LiveSets n k) : Prop where
  outSet : ∀ b, (live.outSet b).bits = {x | ((P.block b).isReturn = true ∨ (P.block b).isLabelReturn = true) ∧
    x ∈ P.memoryBits.bits ∨ ∃ c ∈ (P.block b).targets, x ∈ (live.inSet c).bits}
  inSet : ∀ b, (live.inSet b).bits = (live.outSet b).bits \ (refs.defSet b).bits ∪ (refs.useSet b).bits

/-- After a block a name is read on some path before it is redefined in a block, or the path returns and the name is in
memory. -/
inductive LiveAfter (v : Var) : Fin n → Prop
  | read (b c : Fin n) : c ∈ (P.block b).targets → P.names.ReadFirst v (P.block c).ins → LiveAfter v b
  | pass (b c : Fin n) : c ∈ (P.block b).targets → ¬ P.names.Redefined v (P.block c).ins → LiveAfter v c →
      LiveAfter v b
  | returns (b : Fin n) (m : ℕ) : v = .memory m → (P.block b).isReturn = true ∨ (P.block b).isLabelReturn = true →
      LiveAfter v b

/-! ### The sets of the references -/

/-- The sets that are found are those of each block searched from flags that are clear. -/
theorem findReferences_block (usage : Var → Usage) (b : Fin n) :
    ∃ σ : Scan k, (σ.block = fun _ => .empty) ∧
      (P.findReferences usage).useSet b = (P.names.searchBlock σ (P.block b).ins).useSet ∧
        (P.findReferences usage).defSet b = (P.names.searchBlock σ (P.block b).ins).defSet := by
  have hloop : ∀ (l : List (Fin n)) (s : Scan k × References n k), (s.1.block = fun _ => .empty) → l.Nodup →
      (b ∉ l → (l.foldl P.searchDefUse s).2.useSet b = s.2.useSet b ∧
        (l.foldl P.searchDefUse s).2.defSet b = s.2.defSet b) ∧
      (b ∈ l → ∃ σ : Scan k, (σ.block = fun _ => .empty) ∧
        (l.foldl P.searchDefUse s).2.useSet b = (P.names.searchBlock σ (P.block b).ins).useSet ∧
          (l.foldl P.searchDefUse s).2.defSet b = (P.names.searchBlock σ (P.block b).ins).defSet) := by
    intro l
    induction l with
    | nil => exact fun s _ _ => ⟨fun _ => ⟨rfl, rfl⟩, fun hb => by cases hb⟩
    | cons c l ih =>
        intro s hs hnodup
        obtain ⟨hc, hl⟩ := List.nodup_cons.mp hnodup
        obtain ⟨hnot, hmem⟩ := ih (P.searchDefUse s c) (Names.searchBlock_block hs _) hl
        refine ⟨fun hb => ?_, fun hb => ?_⟩
        · obtain ⟨huse, hdef⟩ := hnot (List.not_mem_of_not_mem_cons hb)
          have hne := List.ne_of_not_mem_cons hb
          exact ⟨huse.trans (Function.update_of_ne hne _ _), hdef.trans (Function.update_of_ne hne _ _)⟩
        · by_cases hbl : b ∈ l
          · exact hmem hbl
          · obtain rfl : b = c := (List.mem_cons.mp hb).resolve_right hbl
            obtain ⟨huse, hdef⟩ := hnot hbl
            exact ⟨s.1, hs, huse.trans (Function.update_self _ _ _), hdef.trans (Function.update_self _ _ _)⟩
  exact (hloop (List.finRange n) _ rfl (List.nodup_finRange n)).2 (List.mem_finRange b)

/-! ### The passes -/

theorem bits_newOut (inSet : Fin n → BitSet k) (b : Fin n) :
    (P.newOut inSet b).bits = {x | ((P.block b).isReturn = true ∨ (P.block b).isLabelReturn = true) ∧
      x ∈ P.memoryBits.bits ∨ ∃ c ∈ (P.block b).targets, x ∈ (inSet c).bits} := by
  have hloop : ∀ (l : List (Fin n)) (s : BitSet k), (l.foldl (fun s target => s.turnOn (inSet target)) s).bits =
      {x | x ∈ s.bits ∨ ∃ c ∈ l, x ∈ (inSet c).bits} := by
    intro l
    induction l with
    | nil => simp
    | cons c l ih =>
        intro s
        rw [List.foldl_cons, ih]
        ext x
        simp [or_assoc]
  unfold newOut
  rw [hloop]
  ext x
  simp only [List.mem_reverse, Bool.or_eq_true, Set.mem_ofPred_eq]
  split
  case isTrue hret => simp [hret]
  case isFalse hret => rw [bits_init_zero, eq_false hret, false_and, Set.mem_empty_iff_false]

variable (n k) in
/-- The sets as values that the iteration makes smaller. -/
abbrev Sets : Type := Fin n ⊕ Fin n → (BitSet k)ᵒᵈ

/-- The out set and the in set of each block. -/
def toSets (live : LiveSets n k) : Sets n k :=
  Sum.elim (fun b => OrderDual.toDual (live.outSet b)) (fun b => OrderDual.toDual (live.inSet b))

theorem toSets_bijective : Function.Bijective (toSets : LiveSets n k → Sets n k) := by
  constructor
  · rintro ⟨inSet, outSet⟩ ⟨inSet', outSet'⟩ h
    obtain rfl : outSet = outSet' := funext fun b => OrderDual.toDual.injective (congrFun h (.inl b))
    obtain rfl : inSet = inSet' := funext fun b => OrderDual.toDual.injective (congrFun h (.inr b))
    rfl
  · intro σ
    refine ⟨⟨fun b => OrderDual.ofDual (σ (.inr b)), fun b => OrderDual.ofDual (σ (.inl b))⟩, ?_⟩
    funext i
    cases i <;> rfl

/-- The equation of an out set or an in set. -/
def equation : Fin n ⊕ Fin n → Sets n k → (BitSet k)ᵒᵈ
  | .inl b, σ => OrderDual.toDual (P.newOut (fun c => OrderDual.ofDual (σ (.inr c))) b)
  | .inr b, σ =>
      OrderDual.toDual (((OrderDual.ofDual (σ (.inl b))).turnOff (refs.defSet b)).turnOn (refs.useSet b))

theorem equation_mono (i : Fin n ⊕ Fin n) : Monotone (P.equation refs i) := by
  intro σ τ h
  cases i with
  | inl b =>
      refine OrderDual.toDual_le_toDual.mpr (BitSet.le_iff.mpr ?_)
      rw [bits_newOut, bits_newOut]
      rintro x (hx | ⟨c, hc, hx⟩)
      · exact .inl hx
      · exact .inr ⟨c, hc, BitSet.le_iff.mp (OrderDual.ofDual_le_ofDual.mpr (h (.inr c))) hx⟩
  | inr b =>
      refine OrderDual.toDual_le_toDual.mpr (BitSet.le_iff.mpr ?_)
      have hle := BitSet.le_iff.mp (OrderDual.ofDual_le_ofDual.mpr (h (.inl b)))
      rw [BitSet.bits_turnOn, BitSet.bits_turnOff, BitSet.bits_turnOn, BitSet.bits_turnOff]
      exact Set.union_subset_union_left _ (Set.sdiff_subset_sdiff_left hle)

theorem visitOut_sets (live : LiveSets n k) (change : Bool) (b : Fin n) :
    Prod.map toSets id (visitOut (live, change) b (P.newOut live.inSet b)) =
      visit (P.equation refs) (toSets live, change) (.inl b) := by
  have hvalue : P.equation refs (.inl b) (toSets live) = OrderDual.toDual (P.newOut live.inSet b) := rfl
  have hold : toSets live (.inl b) = OrderDual.toDual (live.outSet b) := rfl
  rw [visit, hvalue]
  dsimp only
  rw [visitOut]
  by_cases heq : live.outSet b = P.newOut live.inSet b
  · rw [if_pos heq, if_pos (hold ▸ congrArg OrderDual.toDual heq.symm), ← heq, ← hold, Function.update_eq_self]
    rfl
  · rw [if_neg heq, if_neg fun h => heq (OrderDual.toDual.injective (h.trans hold)).symm]
    refine Prod.ext ?_ rfl
    funext i
    obtain c | c := i
    · obtain rfl | hne := eq_or_ne c b
      · simp [toSets]
      · simp [toSets, hne]
    · simp [toSets]

theorem visitIn_sets (live : LiveSets n k) (change : Bool) (b : Fin n) {new_gbs : BitSet k}
    (hnew : new_gbs = live.outSet b) :
    Prod.map toSets id (visitIn (live, change) b ((new_gbs.turnOff (refs.defSet b)).turnOn (refs.useSet b))) =
      visit (P.equation refs) (toSets live, change) (.inr b) := by
  subst hnew
  set inn := ((live.outSet b).turnOff (refs.defSet b)).turnOn (refs.useSet b) with hinn
  have hvalue : P.equation refs (.inr b) (toSets live) = OrderDual.toDual inn := rfl
  have hold : toSets live (.inr b) = OrderDual.toDual (live.inSet b) := rfl
  rw [visit, hvalue]
  dsimp only
  rw [visitIn]
  by_cases heq : live.inSet b = inn
  · rw [if_pos heq, if_pos (hold ▸ congrArg OrderDual.toDual heq.symm), ← heq, ← hold, Function.update_eq_self]
    rfl
  · rw [if_neg heq, if_neg fun h => heq (OrderDual.toDual.injective (h.trans hold)).symm]
    refine Prod.ext ?_ rfl
    funext i
    obtain c | c := i
    · simp [toSets]
    · obtain rfl | hne := eq_or_ne c b
      · simp [toSets]
      · simp [toSets, hne]

theorem visitOut_outSet (s : LiveSets n k × Bool) (b : Fin n) (new_gbs : BitSet k) :
    new_gbs = (visitOut s b new_gbs).1.outSet b := by
  unfold visitOut
  split
  case isTrue heq => exact heq.symm
  case isFalse => exact (Function.update_self b new_gbs s.1.outSet).symm

theorem visitBlock_sets (s : LiveSets n k × Bool) (b : Fin n) :
    Prod.map toSets id (P.visitBlock refs s b) =
      ([.inl b, .inr b] : List (Fin n ⊕ Fin n)).foldl (visit (P.equation refs)) (Prod.map toSets id s) := by
  unfold visitBlock
  dsimp only
  rw [P.visitIn_sets refs _ _ b (visitOut_outSet s b _), List.foldl_cons, List.foldl_cons, List.foldl_nil]
  exact congrArg (fun σ => visit (P.equation refs) σ (.inr b)) (P.visitOut_sets refs s.1 s.2 b)

variable (n) in
/-- The sets in the order in which a pass computes them. -/
def order : List (Fin n ⊕ Fin n) := (List.finRange n).reverse.flatMap fun b => [.inl b, .inr b]

theorem foldl_visitBlock_sets (l : List (Fin n)) (s : LiveSets n k × Bool) :
    Prod.map toSets id (l.foldl (P.visitBlock refs) s) =
      (l.flatMap fun b => ([.inl b, .inr b] : List (Fin n ⊕ Fin n))).foldl (visit (P.equation refs))
        (Prod.map toSets id s) := by
  induction l generalizing s with
  | nil => rfl
  | cons b l ih => rw [List.foldl_cons, ih, P.visitBlock_sets, List.flatMap_cons, List.foldl_append]

theorem passes_sets (fuel : ℕ) (live : LiveSets n k) :
    (P.passes refs fuel live).map toSets = iterate (P.equation refs) (order n) fuel (toSets live) := by
  induction fuel generalizing live with
  | zero => rfl
  | succ fuel ih =>
      have hpass := P.foldl_visitBlock_sets refs (List.finRange n).reverse (live, false)
      have hsets := congrArg Prod.fst hpass
      have hchange := congrArg Prod.snd hpass
      rw [iterate, passes, apply_ite (Option.map toSets), ih, Option.map_some]
      dsimp only [Prod.map_fst, Prod.map_snd, id] at hsets hchange
      rw [hchange, hsets]
      rfl

theorem solves_iff (live : LiveSets n k) :
    P.Solves refs live ↔ ∀ i, P.equation refs i (toSets live) = toSets live i := by
  constructor
  · intro h i
    cases i with
    | inl b =>
        refine OrderDual.toDual.injective.eq_iff.mpr (BitSet.bits_injective ?_)
        exact (P.bits_newOut _ b).trans (h.outSet b).symm
    | inr b =>
        refine OrderDual.toDual.injective.eq_iff.mpr (BitSet.bits_injective ?_)
        rw [BitSet.bits_turnOn, BitSet.bits_turnOff]
        exact (h.inSet b).symm
  · intro h
    refine ⟨fun b => ?_, fun b => ?_⟩
    · rw [← P.bits_newOut]
      exact congrArg BitSet.bits (OrderDual.toDual.injective (h (.inl b))).symm
    · rw [← BitSet.bits_turnOff, ← BitSet.bits_turnOn]
      exact congrArg BitSet.bits (OrderDual.toDual.injective (h (.inr b))).symm

/-- The passes end at the least solution of the equations. -/
theorem liveAnalysis_solves : ∃ live : LiveSets n k,
    (∃ turns, ∀ fuel, turns ≤ fuel → P.liveAnalysis refs fuel = some live) ∧ P.Solves refs live ∧
      ∀ live', P.Solves refs live' → ∀ b, live.inSet b ≤ live'.inSet b ∧ live.outSet b ≤ live'.outSet b := by
  have hempty : ∀ σ : Sets n k, σ ≤ toSets ⟨fun _ => .init 0, fun _ => .init 0⟩ := by
    intro σ i
    have hle : ∀ s : BitSet k, .init 0 ≤ s := fun s => BitSet.le_iff.mpr (bits_init_zero ▸ Set.empty_subset _)
    cases i with
    | inl b => exact OrderDual.le_toDual.mpr (hle _)
    | inr b => exact OrderDual.le_toDual.mpr (hle _)
  obtain ⟨τ, ⟨turns, hturns⟩, -, hsol, hgreatest⟩ := iterate_solves (P.equation_mono refs)
    (σ := toSets ⟨fun _ => .init 0, fun _ => .init 0⟩) (hempty _) (order n)
  obtain ⟨live, rfl⟩ := toSets_bijective.2 τ
  have hall : ∀ i, i ∈ order n := by
    intro i
    cases i <;> simp [order]
  refine ⟨live, ⟨turns, fun fuel h => ?_⟩, (P.solves_iff refs live).mpr fun i => hsol i (hall i), fun live' h b => ?_⟩
  · refine Option.map_injective toSets_bijective.1 ?_
    rw [liveAnalysis, passes_sets, hturns fuel h, Option.map_some]
  · have hle := hgreatest (toSets live') (fun i => ((P.solves_iff refs live').mp h i).symm.le) (hempty _)
    exact ⟨OrderDual.toDual_le_toDual.mp (hle (.inr b)), OrderDual.toDual_le_toDual.mp (hle (.inl b))⟩

/-! ### Paths -/

variable {P} {usage : Var → Usage} {live : LiveSets n k}

/-- What may be read after a block is live at its end. -/
theorem bits_subset_of_liveAfter (hsol : P.Solves (P.findReferences usage) live) {v : Var} {b : Fin n}
    (h : P.LiveAfter v b) : P.names.bits v ⊆ (live.outSet b).bits := by
  have hbefore : ∀ b c, c ∈ (P.block b).targets → (live.inSet c).bits ⊆ (live.outSet b).bits := by
    intro b c hc x hx
    rw [hsol.outSet]
    exact .inr ⟨c, hc, hx⟩
  induction h with
  | read b c hc hread =>
      obtain ⟨σ, hσ, huse, -⟩ := P.findReferences_block usage c
      refine Set.Subset.trans ?_ (hbefore b c hc)
      rw [hsol.inSet, huse]
      exact ((Names.searchBlock_sets hσ _ v).1 hread).trans Set.subset_union_right
  | pass b c hc hnot _ ih =>
      obtain ⟨σ, hσ, huse, hdef⟩ := P.findReferences_block usage c
      refine Set.Subset.trans (fun x hx => ?_) (hbefore b c hc)
      rw [hsol.inSet, huse, hdef]
      by_cases hd : x ∈ (P.names.searchBlock σ (P.block c).ins).defSet.bits
      · have hused := ((Names.searchBlock_sets hσ _ v).2 ⟨x, hx, hd⟩).resolve_left hnot
        exact .inr (hused hx)
      · exact .inl ⟨ih hx, hd⟩
  | returns b m hv hret =>
      subst hv
      intro x hx
      rw [hsol.outSet]
      exact .inl ⟨hret, P.memory_bits m hx⟩

end Routine

end OpenWatcom.Liveness
