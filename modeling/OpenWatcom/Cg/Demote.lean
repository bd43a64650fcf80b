import OpenWatcom.Cg.FoldArith

/-! # Demotion of integer trees

When the value of a tree is converted to a narrower type `DemoteTree` makes the nodes of the tree narrower too, after a
first pass that only tests whether this can be done. -/

namespace OpenWatcom.Cg.Demote

open FoldArith

/-- The operators of unary nodes that `DemoteTree` names. -/
inductive UnOp where
  | uminus | complement | convert | round

/-- The operators of binary nodes that `DemoteTree` names, and another one. -/
inductive BinOp where
  | div | mod | times | and | or | xor | lshift | plus | minus | rshift

/-- The integer that an operator gives for the values of its operand. -/
def UnOp.value : UnOp → ℤ → ℤ
  | uminus, a => -a
  | complement, a => -a - 1
  | convert, a => a
  | round, a => a

/-- The integer that an operator gives for the values of its operands; the masks work on two's complement. -/
def BinOp.value : BinOp → ℤ → ℤ → ℤ
  | div, a, b => a.tdiv b
  | mod, a, b => a.tmod b
  | times, a, b => a * b
  | and, a, b => (BitVec.ofInt 64 a &&& BitVec.ofInt 64 b).toInt
  | or, a, b => (BitVec.ofInt 64 a ||| BitVec.ofInt 64 b).toInt
  | xor, a, b => (BitVec.ofInt 64 a ^^^ BitVec.ofInt 64 b).toInt
  | lshift, a, b => a * 2 ^ b.toNat
  | plus, a, b => a + b
  | minus, a, b => a - b
  | rshift, a, b => a >>> b.toNat

/-- The trees of integer types.  A node of any class that `DemoteTree` does not name is `other`. -/
inductive Tree where
  | cons (value : ℤ) (tipe : TypeDef)
  | points (operand : ℕ) (tipe : TypeDef)
  | unary (op : UnOp) (left : Tree) (tipe : TypeDef)
  | binary (op : BinOp) (left rite : Tree) (tipe : TypeDef)
  | comma (left rite : Tree) (tipe : TypeDef)
  | sideEffect (left rite : Tree) (tipe : TypeDef)
  | flowOut (operand : ℕ) (tipe : TypeDef)
  | other (operand : ℕ) (tipe : TypeDef)

namespace Tree

def tipe : Tree → TypeDef
  | cons _ t => t
  | points _ t => t
  | unary _ _ t => t
  | binary _ _ _ t => t
  | comma _ _ t => t
  | sideEffect _ _ t => t
  | flowOut _ t => t
  | other _ t => t

end Tree

/-- What the value of a tree depends on. -/
structure Env where
  /-- The integer in memory from the address of an operand on, the low byte first. -/
  memory : ℕ → ℤ
  /-- Whether a flow expression is true. -/
  flow : ℕ → Bool
  /-- `FETrue()`. -/
  feTrue : ℤ
  other : ℕ → ℤ

namespace Tree

/-- The value of a tree. -/
def eval (env : Env) : Tree → ℤ
  | cons value t => t.wrap value
  | points operand t => t.wrap (env.memory operand)
  | unary op left t => t.wrap (op.value (left.eval env))
  | binary op left rite t => t.wrap (op.value (left.eval env) (rite.eval env))
  | comma _ rite _ => rite.eval env
  | sideEffect left _ _ => left.eval env
  | flowOut operand t => t.wrap (if env.flow operand then env.feTrue else 0)
  | other operand t => t.wrap (env.other operand)

end Tree

/-- The target: `_TARGET_INTEL`, and whether the low byte of a number is the first. -/
structure Target where
  intel : Bool
  lowFirst : Bool

/-- `TypeClass( tipe ) <= I4`, for the integer types. -/
def isSmall (t : TypeDef) : Bool := t.length ≠ .eight

/-- The type of a node that is demoted. -/
def demotedType (just_test : Bool) (frum t : TypeDef) : TypeDef :=
  if just_test = false ∧ t.bits < frum.bits then t else frum

/-- The operators of binary nodes that are demoted; quotients only when their operands are no wider than the type. -/
def isDemoted (g : Target) (t left rite : TypeDef) : BinOp → Bool
  | .div => g.intel && !(t.bits < left.bits || t.bits < rite.bits)
  | .mod => g.intel && !(t.bits < left.bits || t.bits < rite.bits)
  | .rshift => false
  | _ => true

/-- `DemoteTree`: whether the tree can be demoted, and the tree afterwards. -/
def demoteTree (g : Target) (t : TypeDef) (just_test : Bool) : Tree → Bool × Tree
  | .cons value frum =>
      if isSmall frum then (true, .cons value (demotedType just_test frum t)) else (false, .cons value frum)
  | .points operand frum =>
      if isSmall frum ∧ g.lowFirst then (true, .points operand (demotedType just_test frum t))
      else (false, .points operand frum)
  | .unary op left frum =>
      if isSmall frum then
        ((demoteTree g t just_test left).1, .unary op (demoteTree g t just_test left).2 (demotedType just_test frum t))
      else (false, .unary op left frum)
  | .binary op left rite frum =>
      if isSmall frum ∧ isDemoted g t left.tipe rite.tipe op then
        if (demoteTree g t just_test left).1 then
          ((demoteTree g t just_test rite).1,
            .binary op (demoteTree g t just_test left).2 (demoteTree g t just_test rite).2
              (demotedType just_test frum t))
        else (false, .binary op (demoteTree g t just_test left).2 rite (demotedType just_test frum t))
      else (false, .binary op left rite frum)
  | .comma left rite frum =>
      if isSmall frum then ((demoteTree g t just_test rite).1, .comma left (demoteTree g t just_test rite).2 frum)
      else (false, .comma left rite frum)
  | .sideEffect left rite frum =>
      if isSmall frum then ((demoteTree g t just_test left).1, .sideEffect (demoteTree g t just_test left).2 rite frum)
      else (false, .sideEffect left rite frum)
  | .flowOut operand frum =>
      if isSmall frum then (true, .flowOut operand (demotedType just_test frum t)) else (false, .flowOut operand frum)
  | .other operand frum => (false, .other operand frum)

/-- `TGDemote`. -/
def tgDemote (g : Target) (name : Tree) (t : TypeDef) : Tree :=
  if (demoteTree g t true name).1 then (demoteTree g t false name).2 else name

/-- `TGConvert`; `FoldCnvRnd` folds a constant and demotes any other tree. -/
def tgConvert (g : Target) (name : Tree) (t : TypeDef) : Tree :=
  if name.tipe = t then name
  else
    match name with
    | .cons value frum => .cons (t.wrap (frum.wrap value)) t
    | _ => .unary .convert (tgDemote g name t) t

namespace Tree

/-- What the building of a tree sees to: a comma has the type of its right operand and a side effect that of its left
one, or these have been demoted. -/
def Built : Tree → Prop
  | unary _ left _ => left.Built
  | binary _ left rite _ => left.Built ∧ rite.Built
  | comma left rite t => left.Built ∧ rite.Built ∧ rite.tipe.bits ≤ t.bits
  | sideEffect left rite t => left.Built ∧ rite.Built ∧ left.tipe.bits ≤ t.bits
  | _ => True

/-- Every shift count is smaller than the width of the type of the shift. -/
def ShiftsFit (env : Env) : Tree → Prop
  | unary _ left _ => left.ShiftsFit env
  | binary op left rite t => left.ShiftsFit env ∧ rite.ShiftsFit env ∧
      (op = .lshift → 0 ≤ rite.eval env ∧ rite.eval env < t.bits)
  | comma _ rite _ => rite.ShiftsFit env
  | sideEffect left _ _ => left.ShiftsFit env
  | _ => True

end Tree

/-! ### Values and types -/

section Values

variable {t u : TypeDef} {w : ℕ} {a b a' b' : ℤ}

theorem UnOp.value_congr (op : UnOp) (h : BitVec.ofInt w a' = BitVec.ofInt w a) :
    BitVec.ofInt w (op.value a') = BitVec.ofInt w (op.value a) := by
  cases op with
  | uminus => simp only [value, BitVec.ofInt_neg, h]
  | complement => simp only [value, sub_eq_add_neg, BitVec.ofInt_add, BitVec.ofInt_neg, h]
  | convert => exact h
  | round => exact h

theorem ofInt_toInt_mask (hw : w ≤ 64) (x : BitVec 64) : BitVec.ofInt w x.toInt = x.setWidth w := by
  rw [← setWidth_ofInt hw, BitVec.ofInt_toInt]

/-- The operators that only depend on the low bits of both operands. -/
theorem BinOp.value_congr (op : BinOp) (hop : op = .times ∨ op = .and ∨ op = .or ∨ op = .xor ∨ op = .plus ∨ op = .minus)
    (hw : w ≤ 64) (ha : BitVec.ofInt w a' = BitVec.ofInt w a) (hb : BitVec.ofInt w b' = BitVec.ofInt w b) :
    BitVec.ofInt w (op.value a' b') = BitVec.ofInt w (op.value a b) := by
  obtain rfl | rfl | rfl | rfl | rfl | rfl := hop
  · simp only [value, BitVec.ofInt_mul, ha, hb]
  · simp only [value, ofInt_toInt_mask hw, BitVec.setWidth_and, setWidth_ofInt hw, ha, hb]
  · simp only [value, ofInt_toInt_mask hw, BitVec.setWidth_or, setWidth_ofInt hw, ha, hb]
  · simp only [value, ofInt_toInt_mask hw, BitVec.setWidth_xor, setWidth_ofInt hw, ha, hb]
  · simp only [value, BitVec.ofInt_add, ha, hb]
  · simp only [value, sub_eq_add_neg, BitVec.ofInt_add, BitVec.ofInt_neg, ha, hb]

/-- What a demoted tree keeps of a value: the bits of the type, the value when the tree was not wider, and every value
that is small. -/
structure Keeps (t frum : TypeDef) (v v' : ℤ) : Prop where
  bits : BitVec.ofInt t.bits v' = BitVec.ofInt t.bits v
  exact : frum.bits ≤ t.bits → v' = v
  small : 0 ≤ v → v < 2 ^ 7 → v' = v

theorem ofInt_eq_iff {z z' : ℤ} : BitVec.ofInt w z = BitVec.ofInt w z' ↔ z % 2 ^ w = z' % 2 ^ w := by
  rw [← BitVec.toNat_inj, BitVec.toNat_ofInt, BitVec.toNat_ofInt]
  have hpos : (0 : ℤ) < 2 ^ w := by positivity
  have h := Int.emod_nonneg z hpos.ne'
  have h' := Int.emod_nonneg z' hpos.ne'
  push_cast
  omega

theorem wrap_eq_of_ofInt (hle : u.bits ≤ w) (h : BitVec.ofInt w b = BitVec.ofInt w a) : u.wrap b = u.wrap a := by
  refine u.wrap_congr (ofInt_eq_iff.mp ?_)
  rw [← setWidth_ofInt hle, h, setWidth_ofInt hle]

/-- A node whose value is computed from an integer, of which the low bits stay the same. -/
theorem keeps_wrap (frum : TypeDef) (h : BitVec.ofInt t.bits b = BitVec.ofInt t.bits a) :
    Keeps t frum (frum.wrap a) ((demotedType false frum t).wrap b) := by
  unfold demotedType
  by_cases hlt : t.bits < frum.bits
  · rw [if_pos ⟨rfl, hlt⟩]
    have hbits : BitVec.ofInt t.bits (t.wrap b) = BitVec.ofInt t.bits (frum.wrap a) := by
      rw [ofInt_wrap_of_le le_rfl, ofInt_wrap_of_le hlt.le, h]
    refine ⟨hbits, fun hle => absurd hlt (not_lt.mpr hle), fun h0 hsmall => ?_⟩
    rw [← TypeDef.wrap_eq (t.wrap_has b), wrap_eq_of_ofInt le_rfl hbits]
    exact TypeDef.wrap_eq (t.has_small h0 hsmall)
  · rw [if_neg fun hc => hlt hc.2]
    have hexact : frum.wrap b = frum.wrap a := wrap_eq_of_ofInt (not_lt.mp hlt) h
    exact ⟨by rw [hexact], fun _ => hexact, fun _ _ => hexact⟩

end Values

section Trees

variable {g : Target} {t : TypeDef} {env : Env} {e : Tree}

/-- The test pass changes nothing. -/
theorem demoteTree_test (e : Tree) : (demoteTree g t true e).2 = e := by
  have htype : ∀ frum, demotedType true frum t = frum := fun frum => if_neg fun h => nomatch h.1
  induction e with
  | cons value frum => simp only [demoteTree, htype]; split <;> rfl
  | points operand frum => simp only [demoteTree, htype]; split <;> rfl
  | unary op left frum ih => simp only [demoteTree, htype, ih]; split <;> rfl
  | binary op left rite frum ihl ihr =>
      simp only [demoteTree, htype, ihl, ihr]
      split
      · split <;> rfl
      · rfl
  | comma left rite frum _ ih => simp only [demoteTree, ih]; split <;> rfl
  | sideEffect left rite frum ih _ => simp only [demoteTree, ih]; split <;> rfl
  | flowOut operand frum => simp only [demoteTree, htype]; split <;> rfl
  | other => rfl

/-- Both passes find the same. -/
theorem demoteTree_agree (e : Tree) : (demoteTree g t false e).1 = (demoteTree g t true e).1 := by
  induction e with
  | cons => simp only [demoteTree]; split <;> rfl
  | points => simp only [demoteTree]; split <;> rfl
  | unary op left frum ih => simp only [demoteTree, ih]; split <;> rfl
  | binary op left rite frum ihl ihr =>
      simp only [demoteTree, ihl, ihr]
      split
      · split <;> rfl
      · rfl
  | comma left rite frum _ ih => simp only [demoteTree, ih]; split <;> rfl
  | sideEffect left rite frum ih _ => simp only [demoteTree, ih]; split <;> rfl
  | flowOut => simp only [demoteTree]; split <;> rfl
  | other => rfl

/-- The operator of a node that is demoted gives the same bits. -/
theorem isDemoted_value {op : BinOp} {left rite frum : TypeDef} {a a' b b' : ℤ} (h : isDemoted g t left rite op = true)
    (ha : Keeps t left a a') (hb : Keeps t rite b b') (hsmall : frum.bits ≤ 64)
    (hshift : op = .lshift → 0 ≤ b ∧ b < frum.bits) :
    BitVec.ofInt t.bits (op.value a' b') = BitVec.ofInt t.bits (op.value a b) := by
  have hexact : (!(decide (t.bits < left.bits) || decide (t.bits < rite.bits))) = true →
      op.value a' b' = op.value a b := by
    intro hguard
    simp only [Bool.not_eq_true', Bool.or_eq_false_iff, decide_eq_false_iff_not, not_lt] at hguard
    rw [ha.exact hguard.1, hb.exact hguard.2]
  cases op with
  | div => rw [hexact (Bool.and_eq_true_iff.mp h).2]
  | mod => rw [hexact (Bool.and_eq_true_iff.mp h).2]
  | lshift =>
      obtain ⟨h0, hlt⟩ := hshift rfl
      rw [hb.small h0 (by omega)]
      simp only [BinOp.value, BitVec.ofInt_mul, ha.bits]
  | rshift => cases h
  | _ => exact BinOp.value_congr _ (by simp) t.bits_le ha.bits hb.bits

/-- A branch that gives up does not answer that the tree can be demoted. -/
theorem of_demoted {p : Prop} [Decidable p] {yes no : Bool × Tree} (hno : no.1 = false)
    (h : (if p then yes else no).1 = true) : p := by
  by_contra hp
  rw [if_neg hp, hno] at h
  cases h

/-- The rewriting pass keeps the value of a tree that can be demoted. -/
theorem demoteTree_keeps (hbuilt : e.Built) (hshifts : e.ShiftsFit env) (h : (demoteTree g t false e).1 = true) :
    Keeps t e.tipe (e.eval env) ((demoteTree g t false e).2.eval env) := by
  induction e with
  | cons value frum =>
      rw [demoteTree] at h ⊢
      rw [if_pos (of_demoted rfl h)]
      exact keeps_wrap frum rfl
  | points operand frum =>
      rw [demoteTree] at h ⊢
      rw [if_pos (of_demoted rfl h)]
      exact keeps_wrap frum rfl
  | unary op left frum ih =>
      rw [demoteTree] at h ⊢
      have hc := of_demoted rfl h
      rw [if_pos hc] at h ⊢
      exact keeps_wrap frum (op.value_congr (ih hbuilt hshifts h).bits)
  | binary op left rite frum ihl ihr =>
      rw [demoteTree] at h ⊢
      have hc := of_demoted rfl h
      rw [if_pos hc] at h ⊢
      have hl := of_demoted rfl h
      rw [if_pos hl] at h ⊢
      obtain ⟨hleft, hrite, hcount⟩ := hshifts
      have hvalue := isDemoted_value hc.2 (ihl hbuilt.1 hleft hl) (ihr hbuilt.2 hrite h) frum.bits_le hcount
      exact keeps_wrap frum hvalue
  | comma left rite frum _ ih =>
      rw [demoteTree] at h ⊢
      have hc := of_demoted rfl h
      rw [if_pos hc] at h ⊢
      have hrite := ih hbuilt.2.1 hshifts h
      exact ⟨hrite.bits, fun hle => hrite.exact (hbuilt.2.2.trans hle), hrite.small⟩
  | sideEffect left rite frum ih _ =>
      rw [demoteTree] at h ⊢
      have hc := of_demoted rfl h
      rw [if_pos hc] at h ⊢
      have hleft := ih hbuilt.1 hshifts h
      exact ⟨hleft.bits, fun hle => hleft.exact (hbuilt.2.2.trans hle), hleft.small⟩
  | flowOut operand frum =>
      rw [demoteTree] at h ⊢
      rw [if_pos (of_demoted rfl h)]
      exact keeps_wrap frum rfl
  | other => cases h

theorem demotedType_bits_le (just_test : Bool) (frum t : TypeDef) :
    (demotedType just_test frum t).bits ≤ frum.bits := by
  unfold demotedType
  split
  case isTrue h => exact h.2.le
  case isFalse => exact le_rfl

/-- No node gets wider. -/
theorem demoteTree_tipe_le (e : Tree) : (demoteTree g t false e).2.tipe.bits ≤ e.tipe.bits := by
  cases e with
  | binary op left rite frum =>
      rw [demoteTree]
      split
      · split <;> exact demotedType_bits_le _ _ _
      · exact Nat.le_refl _
  | other => exact Nat.le_refl _
  | _ => rw [demoteTree]; split <;> first | exact demotedType_bits_le _ _ _ | exact Nat.le_refl _

/-- A tree that is demoted can be demoted again. -/
theorem demoteTree_built (hbuilt : e.Built) : (demoteTree g t false e).2.Built := by
  induction e with
  | cons => rw [demoteTree]; split <;> trivial
  | points => rw [demoteTree]; split <;> trivial
  | unary op left frum ih =>
      rw [demoteTree]
      split
      · exact ih hbuilt
      · exact hbuilt
  | binary op left rite frum ihl ihr =>
      rw [demoteTree]
      split
      · split
        · exact ⟨ihl hbuilt.1, ihr hbuilt.2⟩
        · exact ⟨ihl hbuilt.1, hbuilt.2⟩
      · exact hbuilt
  | comma left rite frum _ ih =>
      rw [demoteTree]
      split
      · exact ⟨hbuilt.1, ih hbuilt.2.1, (demoteTree_tipe_le rite).trans hbuilt.2.2⟩
      · exact hbuilt
  | sideEffect left rite frum ih _ =>
      rw [demoteTree]
      split
      · exact ⟨ih hbuilt.1, hbuilt.2.1, (demoteTree_tipe_le left).trans hbuilt.2.2⟩
      · exact hbuilt
  | flowOut => rw [demoteTree]; split <;> trivial
  | other => trivial

theorem tgConvert_built (hbuilt : e.Built) : (tgConvert g e t).Built := by
  have hdemote : (tgDemote g e t).Built := by
    unfold tgDemote
    split
    · exact demoteTree_built hbuilt
    · exact hbuilt
  unfold tgConvert
  split
  · exact hbuilt
  · cases e <;> first | exact hdemote | trivial

theorem tgDemote_bits (g : Target) (t : TypeDef) (env : Env) (e : Tree) (hbuilt : e.Built) (hshifts : e.ShiftsFit env) :
    (tgDemote g e t).eval env % 2 ^ t.bits = e.eval env % 2 ^ t.bits := by
  unfold tgDemote
  split
  case isTrue h =>
    rw [← demoteTree_agree] at h
    exact ofInt_eq_iff.mp (demoteTree_keeps hbuilt hshifts h).bits
  case isFalse => rfl

/-- Demotion keeps the value in the bits of the type, and a tree that fails the test stays as it is. -/
theorem tgDemote_eval (g : Target) (t : TypeDef) (env : Env) (e : Tree) (hbuilt : e.Built) (hshifts : e.ShiftsFit env) :
    (tgDemote g e t).eval env % 2 ^ t.bits = e.eval env % 2 ^ t.bits ∧
      ((demoteTree g t true e).1 = false → tgDemote g e t = e ∧ (demoteTree g t true e).2 = e) := by
  refine ⟨tgDemote_bits g t env e hbuilt hshifts, ?_⟩
  intro h
  exact ⟨if_neg (by rw [h]; exact Bool.false_ne_true), demoteTree_test e⟩

/-- A conversion gives the value in the new type, by a tree that can be demoted again. -/
theorem tgConvert_demotes (hbuilt : e.Built) (hshifts : e.ShiftsFit env) :
    (tgConvert g e t).Built ∧ (e.tipe ≠ t → (tgConvert g e t).eval env = t.wrap (e.eval env)) := by
  refine ⟨tgConvert_built hbuilt, fun ht => ?_⟩
  have hdemote : t.wrap ((tgDemote g e t).eval env) = t.wrap (e.eval env) :=
    t.wrap_congr (tgDemote_bits g t env e hbuilt hshifts)
  unfold tgConvert
  rw [if_neg ht]
  cases e <;> first | exact hdemote | exact t.wrap_wrap _

end Trees

/-- The low byte of a product of four bytes, shifted by 9. -/
theorem tgDemote_eval_shift :
    let e : Tree := .binary .lshift (.binary .times (.unary .convert (.points 0 ⟨.two, true⟩) ⟨.four, true⟩)
      (.cons 70000 ⟨.four, true⟩) ⟨.four, true⟩) (.cons 9 ⟨.two, false⟩) ⟨.four, true⟩
    let env : Env := ⟨fun _ => -5, fun _ => false, 1, fun _ => 0⟩
    (tgDemote ⟨true, true⟩ e ⟨.one, false⟩).eval env % 2 ^ 8 = e.eval env % 2 ^ 8 ∧
      ((demoteTree ⟨true, true⟩ ⟨.one, false⟩ true e).1 = false →
        tgDemote ⟨true, true⟩ e ⟨.one, false⟩ = e ∧ (demoteTree ⟨true, true⟩ ⟨.one, false⟩ true e).2 = e) :=
  tgDemote_eval ⟨true, true⟩ ⟨.one, false⟩ _ _ ⟨⟨trivial, trivial⟩, trivial⟩
    ⟨⟨trivial, trivial, (fun h => by cases h)⟩, trivial, fun _ => by decide⟩

/-- A product of four bytes converted to one of two. -/
theorem tgConvert_demotes_product :
    let e : Tree := .binary .times (.points 0 ⟨.four, true⟩) (.cons 7 ⟨.four, true⟩) ⟨.four, true⟩
    let env : Env := ⟨fun _ => -5, fun _ => false, 1, fun _ => 0⟩
    (tgConvert ⟨true, true⟩ e ⟨.two, false⟩).Built ∧
      (e.tipe ≠ ⟨.two, false⟩ →
        (tgConvert ⟨true, true⟩ e ⟨.two, false⟩).eval env = TypeDef.wrap ⟨.two, false⟩ (e.eval env)) :=
  tgConvert_demotes ⟨trivial, trivial⟩ ⟨trivial, trivial, (fun h => by cases h)⟩

end OpenWatcom.Cg.Demote
