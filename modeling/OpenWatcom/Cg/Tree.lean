import OpenWatcom.Cg.Constants

/-! # Expression trees of the folder

The trees of `tree.c` over the integer types, and what they evaluate to.  An operand that is neither a constant nor
one of the nodes below is a leaf with the value it has. -/

namespace OpenWatcom.Cg

open Cfloat

/-- The operators of the trees below. -/
inductive BinOp where
  | minus | div | mod | and | xor | rshift
deriving DecidableEq, Repr

/-- The operation on values, in the type; a quotient is truncated. -/
def BinOp.apply (t : TypeDef) : BinOp → ℤ → ℤ → ℤ
  | minus, a, b => t.wrap (a - b)
  | div, a, b => t.wrap (a.tdiv b)
  | mod, a, b => t.wrap (a.tmod b)
  | and, a, b => intOf t.signed (BitVec.ofInt t.bits a &&& BitVec.ofInt t.bits b)
  | xor, a, b => intOf t.signed (BitVec.ofInt t.bits a ^^^ BitVec.ofInt t.bits b)
  | rshift, a, b => t.wrap (a >>> b.toNat)

inductive Tree where
  | cons (cf : CFloat) (tipe : TypeDef)
  | leaf (value : ℤ) (tipe : TypeDef)
  /-- `TN_BIT_RVALUE`, with the word that holds the field. -/
  | bitRvalue (word : ℤ) (start len : ℕ) (isSigned : Bool) (tipe : TypeDef)
  | convert (left : Tree) (tipe : TypeDef)
  | binary (op : BinOp) (left rite : Tree) (tipe : TypeDef)
  | comma (left rite : Tree)
deriving DecidableEq, Repr

namespace Tree

def tipe : Tree → TypeDef
  | cons _ t => t
  | leaf _ t => t
  | bitRvalue _ _ _ _ t => t
  | convert _ t => t
  | binary _ _ _ t => t
  | comma _ rite => rite.tipe

/-- The value; a constant is an integer. -/
def eval : Tree → ℤ
  | cons cf t => t.wrap ⌊cf.val⌋
  | leaf v t => t.wrap v
  | bitRvalue word start len isSigned t =>
    t.wrap (intOf isSigned (BitVec.ofInt len (t.wrap word >>> start)))
  | convert left t => t.wrap left.eval
  | binary op left rite t => op.apply t left.eval rite.eval
  | comma _ rite => rite.eval

/-- `class == TN_CONS`. -/
def isCons : Tree → Bool
  | cons _ _ => true
  | _ => false

/-- `TGCanDuplicate`. -/
def canDuplicate : Tree → Bool
  | convert left _ => left.canDuplicate
  | binary _ left rite _ => left.canDuplicate && rite.canDuplicate
  | comma _ _ => false
  | _ => true

end Tree

/-! ### Building trees -/

/-- `TypeInteger`, `TypeUnsigned` and `FETrue()` of the target. -/
structure TreeTarget where
  wordLength : IntLength
  feTrue : BitVec 32
  /-- True is not 0, also as an integer of the target. -/
  feTrue_ne : TypeDef.wrap ⟨wordLength, true⟩ feTrue.toInt ≠ 0

def TreeTarget.typeInteger (g : TreeTarget) : TypeDef := ⟨g.wordLength, true⟩

def TreeTarget.typeUnsigned (g : TreeTarget) : TypeDef := ⟨g.wordLength, false⟩

/-- The 8086 with the C compiler. -/
def i86Target : TreeTarget := ⟨.two, 1, by decide⟩

/-- `IntToType` with the node of the constant. -/
def consOf (value : BitVec 32) (t : TypeDef) : Tree := .cons (intToType value t) t

/-- `TGConvert`; `FoldCnvRnd` folds the conversion of a constant. -/
def tgConvert (name : Tree) (t : TypeDef) : Tree :=
  if name.tipe = t then name
  else
    match name with
    | .cons cf nameTipe => .cons (cnvCFToType (cfTrunc (cnvCFToType cf nameTipe)) t) t
    | _ => .convert name t

/-- `FoldRShift`, for a left operand that is not a constant. -/
def foldRShift (left rite : Tree) (t : TypeDef) : Option Tree :=
  match rite with
  | .cons rv _ =>
    let ri := cfConvertByType rv t
    if left.isCons then none
    else if ri = 0 then some (tgConvert left t)
    else if t.bits ≤ ri.toInt ∧ t.signed = false then some (.comma left (consOf 0 t))
    else none
  | _ => none

/-- `FoldAnd`, for a left operand that is not a constant. -/
def foldAnd (left rite : Tree) (t : TypeDef) : Option Tree :=
  match rite with
  | .cons rv _ =>
    if left.isCons then none
    else if cfTest rv = 0 then some (.comma left (consOf 0 t))
    else if t.hasBigConst = false ∧ intValue rv = -1 then some (tgConvert left t)
    else none
  | _ => none

/-- `BinResult`: the operands are converted to the type, the count of a shift to `unsigned`. -/
def binResult (g : TreeTarget) (op : BinOp) (left rite : Tree) (t : TypeDef) : Tree × Tree :=
  match op with
  | .rshift => (tgConvert left t, tgConvert rite g.typeUnsigned)
  | _ => (tgConvert left t, tgConvert rite t)

/-- `BinFold`, of the folders that the trees here need. -/
def binFold (op : BinOp) (left rite : Tree) (t : TypeDef) : Option Tree :=
  match op with
  | .rshift => foldRShift left rite t
  | .and => foldAnd left rite t
  | _ => none

/-- `TGBinary`. -/
def tgBinary (g : TreeTarget) (op : BinOp) (left rite : Tree) (t : TypeDef) : Tree :=
  let p := binResult g op left rite t
  (binFold op p.1 p.2 t).getD (.binary op p.1 p.2 t)

/-! ### Values of the trees -/

theorem IsConst.floor {cf : CFloat} {z : ℤ} (h : IsConst cf z) : ⌊cf.val⌋ = z := by
  rw [h.val, Int.floor_intCast]

theorem eval_cons {cf : CFloat} {z : ℤ} (h : IsConst cf z) (t : TypeDef) :
    (Tree.cons cf t).eval = t.wrap z := by
  rw [Tree.eval, h.floor]

theorem eval_consOf (value : BitVec 32) (t : TypeDef) : (consOf value t).eval = t.wrap value.toInt := by
  rw [consOf, eval_cons (intToType_isConst value t), t.wrap_wrap]

theorem tgConvert_tipe (name : Tree) (t : TypeDef) : (tgConvert name t).tipe = t := by
  unfold tgConvert
  split
  case isTrue h => exact h
  case isFalse => cases name <;> rfl

theorem intOf_has (t : TypeDef) (b : BitVec t.bits) : t.Has (intOf t.signed b) := by
  have h := t.wrap_has (intOf t.signed b)
  have heq : BitVec.ofInt t.bits (intOf t.signed b) = b := by
    unfold intOf
    cases t.signed with
    | true => exact BitVec.ofInt_toInt
    | false =>
        simp only [Bool.false_eq_true, if_false, BitVec.ofInt_natCast]
        exact (BitVec.ofNat_toNat ..).trans (BitVec.setWidth_eq b)
  unfold TypeDef.wrap at h
  rwa [heq] at h

theorem BinOp.apply_has (op : BinOp) (t : TypeDef) (a b : ℤ) : t.Has (op.apply t a b) := by
  cases op with
  | and => exact intOf_has t _
  | xor => exact intOf_has t _
  | minus => exact t.wrap_has _
  | div => exact t.wrap_has _
  | mod => exact t.wrap_has _
  | rshift => exact t.wrap_has _

/-- The value is one of the type. -/
theorem Tree.eval_has (e : Tree) : e.tipe.Has e.eval := by
  induction e with
  | cons cf t => exact t.wrap_has _
  | leaf v t => exact t.wrap_has _
  | bitRvalue word start len isSigned t => exact t.wrap_has _
  | convert left t ih => exact t.wrap_has _
  | binary op left rite t ihl ihr => exact op.apply_has t _ _
  | comma left rite ihl ihr => exact ihr

/-- An operand: a constant is an integer of its type. -/
def Tree.Operand : Tree → Prop
  | cons cf t => ∃ z, IsConst cf z ∧ t.Has z
  | _ => True

/-- The conversion of a constant is the constant of the type. -/
theorem tgConvert_cons {cf : CFloat} {z : ℤ} {s : TypeDef} (h : IsConst cf z) (hs : s.Has z) (t : TypeDef) :
    ∃ cf', tgConvert (.cons cf s) t = .cons cf' t ∧ IsConst cf' (t.wrap z) := by
  unfold tgConvert
  by_cases heq : s = t
  · exact ⟨cf, by rw [if_pos (show (Tree.cons cf s).tipe = t from heq), heq], by
      rwa [TypeDef.wrap_eq (heq ▸ hs)]⟩
  · have hb := TypeDef.Has.bounds hs
    have hfirst := cnvCFToType_isConst h hb.1 hb.2 s
    rw [TypeDef.wrap_eq hs] at hfirst
    refine ⟨_, if_neg heq, ?_⟩
    rw [hfirst.cfTrunc_eq]
    exact cnvCFToType_isConst hfirst hb.1 hb.2 t

theorem tgConvert_of_isCons {name : Tree} (h : name.isCons = false) (t : TypeDef) :
    tgConvert name t = if name.tipe = t then name else .convert name t := by
  unfold tgConvert
  cases name with
  | cons cf s => cases h
  | _ => rfl

theorem tgConvert_eval {name : Tree} (h : name.Operand) (t : TypeDef) :
    (tgConvert name t).eval = t.wrap name.eval := by
  cases hcons : name.isCons with
  | true =>
      cases name with
      | cons cf s =>
          obtain ⟨z, hz, hs⟩ := h
          obtain ⟨cf', heq, hcf'⟩ := tgConvert_cons hz hs t
          rw [heq, eval_cons hcf', eval_cons hz, TypeDef.wrap_eq hs, t.wrap_wrap]
      | _ => cases hcons
  | false =>
      rw [tgConvert_of_isCons hcons]
      split
      case isTrue heq => rw [TypeDef.wrap_eq (heq ▸ name.eval_has)]
      case isFalse => rfl

theorem tgConvert_isCons {name : Tree} (h : name.isCons = false) (t : TypeDef) :
    (tgConvert name t).isCons = false := by
  rw [tgConvert_of_isCons h]
  split
  case isTrue => exact h
  case isFalse => rfl

theorem Tree.operand_of_isCons {e : Tree} (h : e.isCons = false) : e.Operand := by
  cases e with
  | cons cf s => cases h
  | _ => trivial

section binary

variable (g : TreeTarget) {left : Tree} (t : TypeDef)

theorem tgBinary_xor (left rite : Tree) :
    tgBinary g .xor left rite t = .binary .xor (tgConvert left t) (tgConvert rite t) t := rfl

theorem tgBinary_minus (left rite : Tree) :
    tgBinary g .minus left rite t = .binary .minus (tgConvert left t) (tgConvert rite t) t := rfl

/-- The count of a shift, as `FoldRShift` reads it. -/
theorem cfConvertByType_small {cf : CFloat} {n : ℕ} (h : IsConst cf n) (hn : n < 32) :
    cfConvertByType cf t = BitVec.ofNat 32 n := by
  cases hbig : t.hasBigConst with
  | false =>
      rw [cfConvertByType_eq h (by omega) (by omega) hbig,
        TypeDef.wrap_eq (t.has_small (by omega) (by omega)), BitVec.ofInt_natCast]
  | true =>
      have height : t.length = .eight := of_decide_eq_true hbig
      unfold cfConvertByType
      rw [height, h.cfCnvF32_eq (by omega) (by omega), BitVec.ofInt_natCast]

theorem consOf_small {n : ℕ} (hn : n < 32) : IsConst (intToType (BitVec.ofNat 32 n) t) n := by
  have h := intToType_isConst (BitVec.ofNat 32 n) t
  have htoInt : (BitVec.ofNat 32 n).toInt = n := by
    rw [BitVec.toInt_eq_toNat_cond, BitVec.toNat_ofNat]
    split <;> omega
  rwa [htoInt, TypeDef.wrap_eq (t.has_small (by omega) (by omega))] at h

/-- A shift by fewer than 32 bits, by a count of any type. -/
theorem tgBinary_rshift_eval (hleft : left.isCons = false) {n : ℕ} (hn : n < 32) (s : TypeDef) :
    (tgBinary g .rshift left (consOf (BitVec.ofNat 32 n) s) t).eval = t.wrap left.eval >>> n := by
  have hlefteval := tgConvert_eval (Tree.operand_of_isCons hleft) t
  have hlefthas : t.Has (t.wrap left.eval) := t.wrap_has _
  obtain ⟨cf, hcf, hconst⟩ :=
    tgConvert_cons (consOf_small s hn) (s.has_small (by omega) (by omega)) g.typeUnsigned
  rw [TypeDef.wrap_eq (g.typeUnsigned.has_small (by omega) (by omega))] at hconst
  have hri := cfConvertByType_small t hconst hn
  have hcount : (Tree.cons cf g.typeUnsigned).eval = n := by
    rw [eval_cons hconst, TypeDef.wrap_eq (g.typeUnsigned.has_small (by omega) (by omega))]
  unfold tgBinary binResult binFold foldRShift consOf
  dsimp only
  rw [hcf]
  dsimp only
  rw [hri, if_neg (by rw [tgConvert_isCons hleft]; exact Bool.false_ne_true)]
  by_cases h0 : BitVec.ofNat 32 n = 0
  · have hn0 : n = 0 := by
      have hnat := congrArg BitVec.toNat h0
      rw [BitVec.toNat_ofNat, Nat.mod_eq_of_lt (by omega)] at hnat
      exact hnat
    rw [if_pos h0, Option.getD_some, tgConvert_eval (Tree.operand_of_isCons (tgConvert_isCons hleft t)),
      hlefteval, t.wrap_wrap, hn0]
    simp
  · rw [if_neg h0]
    split
    case isTrue hbig =>
      have htoInt : (BitVec.ofNat 32 n).toInt = n := by
        rw [BitVec.toInt_eq_toNat_cond, BitVec.toNat_ofNat]
        split <;> omega
      have hzero : t.wrap left.eval >>> n = 0 := by
        obtain ⟨hlow, hhigh⟩ := hlefthas
        have hlow0 : t.low = 0 := if_neg (ne_true_of_eq_false hbig.2)
        have hpow : (2 : ℤ) ^ t.bits ≤ 2 ^ n := pow_le_pow_right₀ (by norm_num) (by omega)
        rw [Int.shiftRight_eq_div_pow]
        exact Int.ediv_eq_zero_of_lt (by omega) (by push_cast; omega)
      rw [Option.getD_some, Tree.eval, hzero]
      exact (eval_consOf 0 t).trans (TypeDef.wrap_eq (t.has_small le_rfl (by decide)))
    case isFalse =>
      rw [Option.getD_none, Tree.eval, hlefteval, hcount]
      exact TypeDef.wrap_eq (hlefthas.shiftRight n)

theorem tgBinary_rshift_shape (hleft : left.isCons = false) (rite : Tree) :
    (tgBinary g .rshift left rite t).isCons = false ∧ (tgBinary g .rshift left rite t).tipe = t := by
  have hcons := tgConvert_isCons hleft t
  unfold tgBinary binResult binFold foldRShift
  dsimp only
  split
  case h_1 =>
    rw [if_neg (ne_true_of_eq_false hcons)]
    split
    case isTrue => exact ⟨tgConvert_isCons hcons t, tgConvert_tipe _ t⟩
    case isFalse =>
      split
      case isTrue => exact ⟨rfl, rfl⟩
      case isFalse => exact ⟨rfl, rfl⟩
  case h_2 => exact ⟨rfl, rfl⟩

theorem tgBinary_and_shape (hleft : left.isCons = false) (rite : Tree) :
    (tgBinary g .and left rite t).isCons = false ∧ (tgBinary g .and left rite t).tipe = t := by
  have hcons := tgConvert_isCons hleft t
  unfold tgBinary binResult binFold foldAnd
  dsimp only
  split
  case h_1 =>
    rw [if_neg (ne_true_of_eq_false hcons)]
    split
    case isTrue => exact ⟨rfl, rfl⟩
    case isFalse =>
      split
      case isTrue => exact ⟨tgConvert_isCons hcons t, tgConvert_tipe _ t⟩
      case isFalse => exact ⟨rfl, rfl⟩
  case h_2 => exact ⟨rfl, rfl⟩

/-- A mask. -/
theorem tgBinary_and_eval (hleft : left.isCons = false) (mask : BitVec 32) :
    (tgBinary g .and left (consOf mask t) t).eval =
      BinOp.and.apply t (t.wrap left.eval) (t.wrap mask.toInt) := by
  have hlefteval := tgConvert_eval (Tree.operand_of_isCons hleft) t
  have hconst := intToType_isConst mask t
  have hmask := t.wrap_has mask.toInt
  have hrite : tgConvert (consOf mask t) t = consOf mask t := if_pos rfl
  unfold tgBinary binResult binFold foldAnd
  dsimp only
  rw [hrite]
  unfold consOf
  dsimp only
  rw [if_neg (by rw [tgConvert_isCons hleft]; exact Bool.false_ne_true)]
  by_cases hzero : cfTest (intToType mask t) = 0
  · -- nothing is left
    rw [if_pos hzero, Option.getD_some, Tree.eval, hconst.cfTest_zero.1 hzero]
    refine (eval_consOf 0 t).trans ?_
    unfold BinOp.apply
    simp [TypeDef.wrap]
  rw [if_neg hzero]
  split
  case isTrue hall =>
    -- all bits are left
    obtain ⟨hbits, hlow, hhigh⟩ := TypeDef.Has.bounds_small hmask hall.1
    have hones : BitVec.ofInt t.bits (t.wrap mask.toInt) = BitVec.allOnes t.bits := by
      have hval := hall.2
      rw [intValue_eq hconst hlow hhigh] at hval
      rw [← setWidth_ofInt hbits, hval]
      have hneg : BitVec.ofInt t.bits (-1) = BitVec.allOnes t.bits := by
        rw [BitVec.ofInt_neg]
        exact BitVec.neg_one_eq_allOnes
      exact (setWidth_ofInt hbits (-1)).trans hneg
    rw [Option.getD_some, tgConvert_eval (Tree.operand_of_isCons (tgConvert_isCons hleft t)), hlefteval,
      BinOp.apply, hones, BitVec.and_allOnes]
    exact (t.wrap_wrap left.eval).trans (t.wrap_wrap left.eval).symm
  case isFalse =>
    rw [Option.getD_none, Tree.eval, hlefteval, eval_cons hconst, t.wrap_wrap]

end binary

end OpenWatcom.Cg
