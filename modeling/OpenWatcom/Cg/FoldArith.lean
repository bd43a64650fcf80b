import OpenWatcom.Cfloat.Ranges
import OpenWatcom.Cg.Multiply
import OpenWatcom.Cg.Tree

/-! # Folding arithmetic with a constant

`FoldPlus`, `FoldMinus`, `FoldTimes`, `FoldAnd`, `FoldOr`, `FoldXor` and the shifts over the integer types. Values are
compared by their bits in the type of the operation. -/

namespace OpenWatcom.Cg.FoldArith

open Cfloat

/-! ### Trees -/

inductive Op where
  | plus | minus | times | and | or | xor | lshift | rshift
deriving DecidableEq, Repr

/-- The operation on values, in the type. -/
def Op.apply (t : TypeDef) : Op → ℤ → ℤ → ℤ
  | plus, a, b => t.wrap (a + b)
  | minus, a, b => t.wrap (a - b)
  | times, a, b => t.wrap (a * b)
  | and, a, b => intOf t.signed (BitVec.ofInt t.bits a &&& BitVec.ofInt t.bits b)
  | or, a, b => intOf t.signed (BitVec.ofInt t.bits a ||| BitVec.ofInt t.bits b)
  | xor, a, b => intOf t.signed (BitVec.ofInt t.bits a ^^^ BitVec.ofInt t.bits b)
  | lshift, a, b => t.wrap (a * 2 ^ b.toNat)
  | rshift, a, b => t.wrap (t.wrap a >>> b.toNat)

inductive Expr where
  | cons (cf : CFloat) (tipe : TypeDef)
  | leaf (value : ℤ) (tipe : TypeDef)
  | convert (left : Expr) (tipe : TypeDef)
  | uminus (left : Expr) (tipe : TypeDef)
  | complement (left : Expr) (tipe : TypeDef)
  | binary (op : Op) (left rite : Expr) (tipe : TypeDef)
  | comma (left rite : Expr)
deriving DecidableEq, Repr

namespace Expr

def tipe : Expr → TypeDef
  | cons _ t => t
  | leaf _ t => t
  | convert _ t => t
  | uminus _ t => t
  | complement _ t => t
  | binary _ _ _ t => t
  | comma _ rite => rite.tipe

/-- The value; a constant is an integer. -/
def eval : Expr → ℤ
  | cons cf t => t.wrap ⌊cf.val⌋
  | leaf v t => t.wrap v
  | convert left t => t.wrap left.eval
  | uminus left t => t.wrap (-left.eval)
  | complement left t => t.wrap (-left.eval - 1)
  | binary op left rite t => op.apply t left.eval rite.eval
  | comma _ rite => rite.eval

/-- `class == TN_CONS`. -/
def isCons : Expr → Bool
  | cons _ _ => true
  | _ => false

/-- The nodes of `O_UMINUS` on top, through conversions. -/
def negations : Expr → ℕ
  | uminus left _ => left.negations + 1
  | convert left _ => left.negations
  | _ => 0

end Expr

/-! ### Building trees -/

/-- `IntToType` with the node of the constant. -/
def consOf (value : BitVec 32) (t : TypeDef) : Expr := .cons (intToType value t) t

/-- `CFToType`. -/
def cfToType (cf : CFloat) (t : TypeDef) : Expr := .cons (intToCF (cfGetInteger64Value cf) t) t

/-- `TGConvert`; `FoldCnvRnd` folds the conversion of a constant. -/
def tgConvert (name : Expr) (t : TypeDef) : Expr :=
  if name.tipe = t then name
  else
    match name with
    | .cons cf nameTipe => .cons (cnvCFToType (cfTrunc (cnvCFToType cf nameTipe)) t) t
    | _ => .convert name t

/-- `OkToNegate`, for the integer types. -/
def okToNegate (value : CFloat) (t : TypeDef) : Option CFloat :=
  if t.hasBigConst then none
  else if t.signed then some value.negate
  else if cfIsSize value.negate (t.bits / 8) then some value.negate
  else none

/-- `FoldUMinus`. -/
def foldUMinus (left : Expr) (t : TypeDef) : Option Expr :=
  match left with
  | .cons lv _ => (okToNegate lv t).map (cfToType · t)
  | .uminus left _ => some left
  | _ => none

/-- `Fold1sComp`. -/
def fold1sComp (left : Expr) (t : TypeDef) : Option Expr :=
  match left with
  | .cons lv _ => if t.hasBigConst = false ∧ cfIs32 lv then some (consOf (~~~(cfConvertByType lv t)) t) else none
  | _ => none

/-- `TGUnary` of `O_UMINUS`. -/
def tgUMinus (left : Expr) (t : TypeDef) : Expr :=
  (foldUMinus (tgConvert left t) t).getD (.uminus (tgConvert left t) t)

/-- `TGUnary` of `O_COMPLEMENT`. -/
def tgComplement (left : Expr) (t : TypeDef) : Expr :=
  (fold1sComp (tgConvert left t) t).getD (.complement (tgConvert left t) t)

/-! ### Shifts -/

/-- `FoldLShift` by a constant, for a left operand that is not a constant. -/
def foldLShiftCons (left : Expr) (rv : CFloat) (t : TypeDef) : Option Expr :=
  let ri := if cfIs32 rv then cfConvertByType rv t else if cfIs64 rv then 0xffff else 0
  if ri = 0 then some (tgConvert left t)
  else if t.bits ≤ ri.toInt then some (.comma left (consOf 0 t))
  else none

/-- `FoldRShift` by a constant, for a left operand that is not a constant. -/
def foldRShiftCons (left : Expr) (rv : CFloat) (t : TypeDef) : Option Expr :=
  let ri := cfConvertByType rv t
  if ri = 0 then some (tgConvert left t)
  else if t.bits ≤ ri.toInt ∧ t.signed = false then some (.comma left (consOf 0 t))
  else none

/-- `TGBinary` of `O_LSHIFT` by a constant. -/
def tgLShift (g : TreeTarget) (left : Expr) (count : CFloat) (countType t : TypeDef) : Expr :=
  match tgConvert (.cons count countType) g.typeUnsigned with
  | .cons rv s => (foldLShiftCons (tgConvert left t) rv t).getD (.binary .lshift (tgConvert left t) (.cons rv s) t)
  | rite => .binary .lshift (tgConvert left t) rite t

/-! ### Products -/

/-- `FoldTimes` of two constants. -/
def timesConst (lv rv : CFloat) (t : TypeDef) : Expr :=
  if t.hasBigConst = false ∧ cfIs32 lv ∧ cfIs32 rv then consOf (cfConvertByType lv t * cfConvertByType rv t) t
  else cfToType (cfMul lv rv) t

/-- `FoldTimes` by a constant, where the other operand holds no constant to take together with it. -/
def timesRest (g : TreeTarget) (left : Expr) (rv : CFloat) (s t : TypeDef) : Option Expr :=
  if t.hasBigConst = false ∧ intValue rv = 1 then some left
  else if cfTest rv = 0 then some (.comma left (.cons rv s))
  else if t.hasBigConst then none
  else
    let value := if cfTest rv < 0 then rv.negate else rv
    let log := getLog2 (cfConvertByType value t)
    if cfIsU32 value ∧ log ≠ -1 then
      let fold := tgLShift g left (intToType (BitVec.ofInt 32 log) g.typeInteger) g.typeInteger t
      some (if cfTest rv < 0 then tgUMinus fold t else fold)
    else none

/-- `FoldTimes` by a constant, for another operand that is not a constant. -/
def foldTimesCons (g : TreeTarget) (left : Expr) (rv : CFloat) (s t : TypeDef) : Option Expr :=
  match left with
  | .binary .times (.cons lv _) rite lt =>
    if lt = t ∧ t.hasBigConst = false then some (.binary .times (timesConst rv lv t) rite lt)
    else timesRest g left rv s t
  | .binary .times l (.cons lv _) lt =>
    if lt = t ∧ t.hasBigConst = false then some (.binary .times l (timesConst rv lv t) lt)
    else timesRest g left rv s t
  | .binary .lshift l (.cons count _) lt =>
    if lt = t ∧ t.hasBigConst = false then
      -- the loop runs while the count, an `int_32`, is positive
      let li : BitVec 32 := if (intValue count).slt 0 then 1 else 1 <<< (intValue count).toNat
      some (.binary .times l (timesConst rv (intToCF (cfGetInteger64Value (cfCnvU32F li)) t) t) lt)
    else timesRest g left rv s t
  | _ => timesRest g left rv s t

/-- `FoldTimes`. -/
def foldTimes (g : TreeTarget) (left rite : Expr) (t : TypeDef) : Option Expr :=
  match left, rite with
  | .cons lv _, .cons rv _ => some (timesConst rv lv t)
  | .cons lv s, rite => foldTimesCons g rite lv s t
  | left, .cons rv s => foldTimesCons g left rv s t
  | _, _ => none

/-! ### Sums and differences -/

/-- `FoldPlus` of two constants. -/
def plusConst (lv rv : CFloat) (t : TypeDef) : Expr :=
  if t.hasBigConst = false ∧ cfIs32 lv ∧ cfIs32 rv then consOf (cfConvertByType lv t + cfConvertByType rv t) t
  else cfToType (cfAdd lv rv) t

/-- `FoldMinus` of two constants. -/
def minusConst (lv rv : CFloat) (t : TypeDef) : Expr :=
  if t.hasBigConst = false ∧ cfIs32 lv ∧ cfIs32 rv then consOf (cfConvertByType lv t - cfConvertByType rv t) t
  else cfToType (cfSub lv rv) t

/-- `FixAddType`. -/
def fixAddType (left rite t : TypeDef) : TypeDef := if left ≠ t ∧ left = rite then left else t

/-- `FoldPlus` with a constant, for another operand that is not a constant. -/
def foldPlusCons (left : Expr) (rv : CFloat) (s t : TypeDef) : Option Expr :=
  if cfTest rv = 0 then some (tgConvert left t)
  else
    match left with
    | .binary .plus (.cons lv ls) rite lt =>
      if t = lt ∧ t.hasBigConst = false ∧ ls = fixAddType ls s t then
        some (.binary .plus (plusConst rv lv (fixAddType ls s t)) rite lt)
      else none
    | .binary .plus l (.cons lv ls) lt =>
      if t = lt ∧ t.hasBigConst = false ∧ ls = fixAddType ls s t then
        some (.binary .plus l (plusConst rv lv (fixAddType ls s t)) lt)
      else none
    | _ => none

theorem tgConvert_negations (e : Expr) (t : TypeDef) : (tgConvert e t).negations = e.negations := by
  unfold tgConvert
  split
  · rfl
  · cases e <;> rfl

mutual

/-- `FoldPlus`. -/
def foldPlus (left rite : Expr) (t : TypeDef) : Option Expr :=
  match left, rite with
  | .cons lv _, .cons rv _ => some (plusConst rv lv t)
  | .cons lv s, rite => foldPlusCons rite lv s t
  | left, .cons rv s => foldPlusCons left rv s t
  | left, .uminus y _ =>
    some ((foldMinus (tgConvert left t) (tgConvert y t) t).getD (.binary .minus (tgConvert left t) (tgConvert y t) t))
  | .uminus x _, rite =>
    some ((foldMinus (tgConvert rite t) (tgConvert x t) t).getD (.binary .minus (tgConvert rite t) (tgConvert x t) t))
  | _, _ => none
termination_by (left.negations + rite.negations, 0)
decreasing_by
  all_goals
    simp only [tgConvert_negations, Expr.negations]
    exact Prod.Lex.left _ _ (by omega)

/-- `FoldMinus`. -/
def foldMinus (left rite : Expr) (t : TypeDef) : Option Expr :=
  match left, rite with
  | .cons lv _, .cons rv _ => some (minusConst lv rv t)
  | .cons lv _, rite => if cfTest lv = 0 then some (tgUMinus rite t) else none
  | left, .cons rv s =>
    (okToNegate rv t).map fun rv =>
      (foldPlus (tgConvert left t) (tgConvert (.cons rv s) t) t).getD
        (.binary .plus (tgConvert left t) (tgConvert (.cons rv s) t) t)
  | left, .uminus y _ =>
    some ((foldPlus (tgConvert left t) (tgConvert y t) t).getD (.binary .plus (tgConvert left t) (tgConvert y t) t))
  | _, _ => none
termination_by (left.negations + rite.negations, 1)
decreasing_by
  · simp only [tgConvert_negations, Expr.negations]
    exact Prod.Lex.right _ (by omega)
  · simp only [tgConvert_negations, Expr.negations]
    exact Prod.Lex.left _ _ (by omega)

end

/-! ### Masks -/

/-- `FoldAnd`, `FoldOr` and `FoldXor` of two constants. -/
def maskConst (op32 : BitVec 32 → BitVec 32 → BitVec 32) (op64 : BitVec 64 → BitVec 64 → BitVec 64) (lv rv : CFloat)
    (t : TypeDef) : Option Expr :=
  if cfIs32 lv ∧ cfIs32 rv then some (consOf (op32 (cfConvertByType lv t) (cfConvertByType rv t)) t)
  else if cfIs64 lv ∧ cfIs64 rv then
    some (.cons (intToCF (op64 (cfGetInteger64Value lv) (cfGetInteger64Value rv)) t) t)
  else none

/-- The same of an operand and a constant: what a constant 0 and a constant of ones fold to. -/
def maskCons (zero ones : Expr) (rv : CFloat) (t : TypeDef) : Option Expr :=
  if cfTest rv = 0 then some zero
  else if t.hasBigConst = false ∧ intValue rv = -1 then some ones
  else none

/-- `FoldAnd`. -/
def foldAnd (left rite : Expr) (t : TypeDef) : Option Expr :=
  match left, rite with
  | .cons lv _, .cons rv _ => maskConst (· &&& ·) (· &&& ·) rv lv t
  | .cons lv _, rite => maskCons (.comma rite (consOf 0 t)) (tgConvert rite t) lv t
  | left, .cons rv _ => maskCons (.comma left (consOf 0 t)) (tgConvert left t) rv t
  | _, _ => none

/-- `FoldOr`. -/
def foldOr (left rite : Expr) (t : TypeDef) : Option Expr :=
  match left, rite with
  | .cons lv _, .cons rv _ => maskConst (· ||| ·) (· ||| ·) rv lv t
  | .cons lv _, rite => maskCons (tgConvert rite t) (.comma rite (consOf (-1) t)) lv t
  | left, .cons rv _ => maskCons (tgConvert left t) (.comma left (consOf (-1) t)) rv t
  | _, _ => none

/-- `FoldXor`. -/
def foldXor (left rite : Expr) (t : TypeDef) : Option Expr :=
  match left, rite with
  | .cons lv _, .cons rv _ => maskConst (· ^^^ ·) (· ^^^ ·) rv lv t
  | .cons lv _, rite => maskCons (tgConvert rite t) (tgComplement rite t) lv t
  | left, .cons rv _ => maskCons (tgConvert left t) (tgComplement left t) rv t
  | _, _ => none

/-- `FoldLShift`, for a left operand that is not a constant. -/
def foldLShift (left rite : Expr) (t : TypeDef) : Option Expr :=
  match rite with
  | .cons rv _ => if left.isCons then none else foldLShiftCons left rv t
  | _ => none

/-- `FoldRShift`, for a left operand that is not a constant. -/
def foldRShift (left rite : Expr) (t : TypeDef) : Option Expr :=
  match rite with
  | .cons rv _ => if left.isCons then none else foldRShiftCons left rv t
  | _ => none

/-- `BinFold`. -/
def binFold (g : TreeTarget) : Op → Expr → Expr → TypeDef → Option Expr
  | .plus => foldPlus
  | .minus => foldMinus
  | .times => foldTimes g
  | .and => foldAnd
  | .or => foldOr
  | .xor => foldXor
  | .lshift => foldLShift
  | .rshift => foldRShift

/-! ### Bits of trees -/

section Bits

variable {cf lv rv : CFloat} {a b c : ℤ} {s t : TypeDef} {left : Expr}

theorem ofInt_intOf (t : TypeDef) (x : BitVec t.bits) : BitVec.ofInt t.bits (intOf t.signed x) = x := by
  unfold intOf
  cases t.signed with
  | true => exact BitVec.ofInt_toInt
  | false =>
      simp only [Bool.false_eq_true, if_false, BitVec.ofInt_natCast]
      exact (BitVec.ofNat_toNat ..).trans (BitVec.setWidth_eq x)

/-- A type that is at least as wide keeps the bits. -/
theorem ofInt_wrap_of_le (h : t.bits ≤ s.bits) (z : ℤ) : BitVec.ofInt t.bits (s.wrap z) = BitVec.ofInt t.bits z := by
  rw [← setWidth_ofInt h, s.ofInt_wrap, setWidth_ofInt h]

theorem ofInt_toInt_eq (value : BitVec 32) (w : ℕ) (hw : w ≤ 32) :
    BitVec.ofInt w value.toInt = value.setWidth w := by
  rw [← setWidth_ofInt hw, BitVec.ofInt_toInt]

theorem eval_cons (h : IsConst cf c) (t : TypeDef) : (Expr.cons cf t).eval = t.wrap c := by
  rw [Expr.eval, h.floor]

theorem eval_consOf (value : BitVec 32) (t : TypeDef) : (consOf value t).eval = t.wrap value.toInt := by
  rw [consOf, eval_cons (intToType_isConst value t), t.wrap_wrap]

/-- Numbers that a constant of 32 bits can be, of either sign. -/
def Is32 (c : ℤ) : Prop := -2 ^ 31 ≤ c ∧ c < 2 ^ 32

theorem cfIs32_of (h : IsConst cf c) (hc : Is32 c) : cfIs32 cf = true := by
  unfold cfIs32
  rw [Bool.or_eq_true, h.cfIsI32_iff, h.cfIsU32_iff]
  unfold Is32 at hc
  omega

theorem is32_of_has (hs : s.Has c) (hbits : s.bits ≤ t.bits) (hbig : t.hasBigConst = false) : Is32 c := by
  have hsbig : s.hasBigConst = false := by
    obtain ⟨length, signed⟩ := s
    obtain ⟨length', signed'⟩ := t
    cases length <;> cases length' <;> simp_all [TypeDef.hasBigConst, TypeDef.bits, IntLength.bits]
  exact (hs.bounds_small hsbig).2

theorem bits_le_32 (hbig : t.hasBigConst = false) : t.bits ≤ 32 :=
  ((t.has_small (le_refl 0) (by norm_num)).bounds_small hbig).1

theorem tgConvert_bits (hleft : left.isCons = false) (t : TypeDef) :
    BitVec.ofInt t.bits (tgConvert left t).eval = BitVec.ofInt t.bits left.eval := by
  unfold tgConvert
  split
  · rfl
  · cases left with
    | cons cf s => cases hleft
    | _ => exact t.ofInt_wrap _

theorem tgConvert_isCons (hleft : left.isCons = false) (t : TypeDef) : (tgConvert left t).isCons = false := by
  unfold tgConvert
  split
  · exact hleft
  · cases left with
    | cons cf s => cases hleft
    | _ => rfl

/-- The conversion of a constant, which need not be a value of its own type. -/
theorem tgConvert_cons (h : IsConst cf c) (hlow : -2 ^ 63 ≤ c) (hhigh : c < 2 ^ 64) (s t : TypeDef) :
    ∃ cf', tgConvert (.cons cf s) t = .cons cf' t ∧ IsConst cf' (if s = t then c else t.wrap (s.wrap c)) := by
  by_cases heq : s = t
  · refine ⟨cf, ?_, by rwa [if_pos heq]⟩
    rw [tgConvert, if_pos (show (Expr.cons cf s).tipe = t from heq), heq]
  · have hfirst := cnvCFToType_isConst h hlow hhigh s
    have hb := (s.wrap_has c).bounds
    refine ⟨_, by rw [tgConvert, if_neg (show ¬ (Expr.cons cf s).tipe = t from heq)], ?_⟩
    rw [if_neg heq, hfirst.cfTrunc_eq]
    exact cnvCFToType_isConst hfirst hb.1 hb.2 t

theorem eval_consOf_eq {value : BitVec 32} (ht : t.hasBigConst = false)
    (h : value.setWidth t.bits = BitVec.ofInt t.bits c) : (consOf value t).eval = t.wrap c := by
  rw [eval_consOf, TypeDef.wrap, ofInt_toInt_eq _ _ (bits_le_32 ht), h, TypeDef.wrap]

/-- The bits of the type that `CFConvertByType` gives. -/
theorem convert_bits (h : IsConst cf c) (hc : Is32 c) (ht : t.hasBigConst = false) :
    (cfConvertByType cf t).setWidth t.bits = BitVec.ofInt t.bits c := by
  rw [cfConvertByType_eq h hc.1 hc.2 ht, setWidth_ofInt (bits_le_32 ht), t.ofInt_wrap]

theorem timesConst_eval (hl : IsConst lv a) (hr : IsConst rv b) (ha : Is32 a) (hb : Is32 b)
    (ht : t.hasBigConst = false) : (timesConst lv rv t).eval = t.wrap (a * b) := by
  rw [timesConst, if_pos ⟨ht, cfIs32_of hl ha, cfIs32_of hr hb⟩]
  refine eval_consOf_eq ht ?_
  rw [BitVec.setWidth_mul _ _ (bits_le_32 ht), convert_bits hl ha ht, convert_bits hr hb ht, BitVec.ofInt_mul]

theorem plusConst_eval (hl : IsConst lv a) (hr : IsConst rv b) (ha : Is32 a) (hb : Is32 b)
    (ht : t.hasBigConst = false) : (plusConst lv rv t).eval = t.wrap (a + b) := by
  rw [plusConst, if_pos ⟨ht, cfIs32_of hl ha, cfIs32_of hr hb⟩]
  refine eval_consOf_eq ht ?_
  rw [BitVec.setWidth_add _ _ (bits_le_32 ht), convert_bits hl ha ht, convert_bits hr hb ht, BitVec.ofInt_add]

end Bits

/-! ### Sums -/

/-- The constants of a tree are integers of their types, no wider than the operation they are in; counts are unsigned
and not of 64 bits. -/
def Expr.Sound : Expr → Prop
  | cons cf s => ∃ c, IsConst cf c ∧ s.Has c
  | leaf _ _ => True
  | convert left _ => left.Sound
  | uminus left _ => left.Sound
  | complement left _ => left.Sound
  | binary .lshift left rite _ => left.Sound ∧ rite.Sound ∧ rite.tipe.signed = false ∧ rite.tipe.hasBigConst = false
  | binary _ left rite t => left.Sound ∧ rite.Sound ∧ (left.isCons → left.tipe.bits ≤ t.bits) ∧
      (rite.isCons → rite.tipe.bits ≤ t.bits)
  | comma left rite => left.Sound ∧ rite.Sound

section Sums

variable {cf lv rv : CFloat} {a b c d : ℤ} {ls s t : TypeDef} {left e : Expr}

theorem hasBigConst_of_le (hbits : s.bits ≤ t.bits) (hbig : t.hasBigConst = false) : s.hasBigConst = false := by
  obtain ⟨length, signed⟩ := s
  obtain ⟨length', signed'⟩ := t
  cases length <;> cases length' <;> simp_all [TypeDef.hasBigConst, TypeDef.bits, IntLength.bits]

/-- The constant that two constants of a sum are replaced with. -/
theorem addends_bits (hl : IsConst lv d) (hd : ls.Has d) (hle : ls.bits ≤ t.bits) (hrv : IsConst rv c) (hc : Is32 c)
    (ht : t.hasBigConst = false) (heq : ls = fixAddType ls s t)
    (hfits : s ≠ t → s.bits = t.bits) :
    BitVec.ofInt t.bits (plusConst rv lv (fixAddType ls s t)).eval = BitVec.ofInt t.bits (c + d) := by
  have hbig := hasBigConst_of_le hle ht
  rw [← heq, plusConst_eval hrv hl hc (hd.bounds_small hbig).2 hbig]
  by_cases hlt : ls = t
  · rw [hlt, t.ofInt_wrap]
  · have hls : ls = s := by
      by_contra hne
      exact hlt (heq.trans (if_neg (fun h => hne h.2)))
    have hbits := hfits (hls ▸ hlt)
    rw [hls, ofInt_wrap_of_le hbits.ge]

theorem foldPlusCons_bits (hleft : left.isCons = false) (hsound : left.Sound) (hrv : IsConst rv c)
    (hc : t.hasBigConst = false → Is32 c) (hfits : t.hasBigConst = false → c ≠ 0 → s ≠ t → s.bits = t.bits)
    (h : foldPlusCons left rv s t = some e) :
    BitVec.ofInt t.bits e.eval = BitVec.ofInt t.bits (left.eval + c) := by
  unfold foldPlusCons at h
  split at h
  case isTrue hzero =>
    have hc0 : c = 0 := hrv.cfTest_zero.mp hzero
    obtain rfl := Option.some.inj h
    rw [tgConvert_bits hleft, hc0, add_zero]
  case isFalse hzero =>
    have hc0 : c ≠ 0 := mt hrv.cfTest_zero.mpr hzero
    split at h
    · rename_i lv ls rite lt
      obtain ⟨⟨d, hl, hd⟩, -, hle, -⟩ := hsound
      split at h
      case isFalse => cases h
      case isTrue hcond =>
        obtain ⟨rfl, ht, heq⟩ := hcond
        obtain rfl := Option.some.inj h
        have hsum := addends_bits hl hd (hle rfl) hrv (hc ht) ht heq (hfits ht hc0)
        simp only [Expr.eval, Op.apply, t.ofInt_wrap, BitVec.ofInt_add, hsum, hl.floor, TypeDef.wrap_eq hd]
        ring
    · rename_i l lv ls lt hnot
      obtain ⟨-, ⟨d, hl, hd⟩, -, hle⟩ := hsound
      split at h
      case isFalse => cases h
      case isTrue hcond =>
        obtain ⟨rfl, ht, heq⟩ := hcond
        obtain rfl := Option.some.inj h
        have hsum := addends_bits hl hd (hle rfl) hrv (hc ht) ht heq (hfits ht hc0)
        simp only [Expr.eval, Op.apply, t.ofInt_wrap, BitVec.ofInt_add, hsum, hl.floor, TypeDef.wrap_eq hd]
        ring
    · cases h

theorem foldPlus_cons (hleft : left.isCons = false) (rv : CFloat) (s t : TypeDef) :
    foldPlus left (.cons rv s) t = foldPlusCons left rv s t := by
  cases left with
  | cons cf s' => cases hleft
  | _ => simp only [foldPlus]

theorem foldPlus_cons_left (hleft : left.isCons = false) (rv : CFloat) (s t : TypeDef) :
    foldPlus (.cons rv s) left t = foldPlusCons left rv s t := by
  cases left with
  | cons cf s' => cases hleft
  | _ => simp only [foldPlus]

theorem foldMinus_cons (hleft : left.isCons = false) (rv : CFloat) (s t : TypeDef) :
    foldMinus left (.cons rv s) t =
      (okToNegate rv t).map fun rv =>
        (foldPlus (tgConvert left t) (tgConvert (.cons rv s) t) t).getD
          (.binary .plus (tgConvert left t) (tgConvert (.cons rv s) t) t) := by
  cases left with
  | cons cf s' => cases hleft
  | _ => simp only [foldMinus]

theorem foldMinus_cons_left (hleft : left.isCons = false) (rv : CFloat) (s t : TypeDef) :
    foldMinus (.cons rv s) left t = if cfTest rv = 0 then some (tgUMinus left t) else none := by
  cases left with
  | cons cf s' => cases hleft
  | _ => simp only [foldMinus]

theorem tgConvert_sound (hleft : left.isCons = false) (hsound : left.Sound) (t : TypeDef) :
    (tgConvert left t).Sound := by
  unfold tgConvert
  split
  · exact hsound
  · cases left with
    | cons cf s => cases hleft
    | _ => exact hsound

theorem tgUMinus_bits (hleft : left.isCons = false) (t : TypeDef) :
    BitVec.ofInt t.bits (tgUMinus left t).eval = BitVec.ofInt t.bits (-left.eval) := by
  have hconv := tgConvert_bits hleft t
  have htipe : (tgConvert left t).tipe = t := by
    unfold tgConvert
    split
    · assumption
    · cases left <;> rfl
  unfold tgUMinus
  cases hx : tgConvert left t with
  | cons cf s =>
      have := tgConvert_isCons hleft t
      rw [hx] at this
      cases this
  | uminus y s =>
      obtain rfl : s = t := by rw [hx] at htipe; exact htipe
      rw [hx, Expr.eval, s.ofInt_wrap] at hconv
      rw [foldUMinus, Option.getD_some, BitVec.ofInt_neg, ← hconv, ← BitVec.ofInt_neg, neg_neg]
  | _ =>
      rw [hx] at hconv
      simp only [foldUMinus, Option.getD_none]
      change BitVec.ofInt t.bits (t.wrap (-Expr.eval _)) = _
      rw [t.ofInt_wrap, BitVec.ofInt_neg, hconv, BitVec.ofInt_neg]

theorem tgComplement_bits (hleft : left.isCons = false) (t : TypeDef) :
    BitVec.ofInt t.bits (tgComplement left t).eval = BitVec.ofInt t.bits (-left.eval - 1) := by
  have hconv := tgConvert_bits hleft t
  have hcons := tgConvert_isCons hleft t
  unfold tgComplement
  rw [fold1sComp, Option.getD_none, Expr.eval, t.ofInt_wrap]
  · simp only [sub_eq_add_neg, BitVec.ofInt_add, BitVec.ofInt_neg, hconv]
  · intro cf s heq
    rw [heq] at hcons
    cases hcons

/-- A constant that may be negated. -/
theorem okToNegate_spec (hrv : IsConst rv c) (hs : s.Has c) (hle : s.bits ≤ t.bits) {rv' : CFloat}
    (h : okToNegate rv t = some rv') : IsConst rv' (-c) ∧ t.hasBigConst = false ∧ (s = t → Is32 (-c)) := by
  unfold okToNegate at h
  split at h
  case isTrue => cases h
  case isFalse hbig =>
    have ht : t.hasBigConst = false := eq_false_of_ne_true hbig
    have hconst := hrv.negate
    split at h
    case isTrue hsigned =>
      obtain rfl := Option.some.inj h
      refine ⟨hconst, ht, fun hst => ?_⟩
      have hb := (hst ▸ hs).bounds_small32 ht hsigned
      unfold Is32
      omega
    case isFalse hunsigned =>
      split at h
      case isFalse => cases h
      case isTrue hsize =>
        obtain rfl := Option.some.inj h
        refine ⟨hconst, ht, fun hst => ?_⟩
        have hhas : t.Has c := hst ▸ hs
        have hnonneg := hhas.nonneg (eq_false_of_ne_true hunsigned)
        have hhigh := (hhas.bounds_small ht).2.2
        have htop := hhas.2
        rw [show t.low = 0 from if_neg hunsigned, zero_add] at htop
        unfold Is32
        obtain ⟨length, signed⟩ := t
        cases length with
        | one =>
            have htop : c < 2 ^ 8 := htop
            omega
        | two =>
            have htop : c < 2 ^ 16 := htop
            omega
        | four =>
            rw [show TypeDef.bits ⟨.four, signed⟩ / 8 = 4 by simp [TypeDef.bits, IntLength.bits], cfIsSize,
              Bool.or_eq_true, hconst.cfIsU32_iff, hconst.cfIsI32_iff] at hsize
            omega
        | eight => cases ht

/-- A difference that is folded adds the negated constant as its type reads it. -/
theorem foldMinusCons_bits (hleft : left.isCons = false) (hsound : left.Sound) (hrv : IsConst rv c) (hs : s.Has c)
    (hle : s.bits ≤ t.bits) (h : foldMinus left (.cons rv s) t = some e) :
    t.hasBigConst = false ∧
      BitVec.ofInt t.bits e.eval = BitVec.ofInt t.bits (left.eval + if s = t then -c else s.wrap (-c)) := by
  rw [foldMinus_cons hleft, Option.map_eq_some_iff] at h
  obtain ⟨rv', hok, rfl⟩ := h
  obtain ⟨hconst, ht, hsame⟩ := okToNegate_spec hrv hs hle hok
  have hb := hs.bounds_small (hasBigConst_of_le hle ht)
  obtain ⟨cf', heq, hcf'⟩ := tgConvert_cons hconst (by omega) (by omega) s t
  have hleft' := tgConvert_isCons hleft t
  have hconv := tgConvert_bits hleft t
  -- the negated constant, in the type of the operation
  obtain ⟨d, hcf', hd, hd32⟩ : ∃ d, IsConst cf' d ∧
      BitVec.ofInt t.bits d = BitVec.ofInt t.bits (if s = t then -c else s.wrap (-c)) ∧ Is32 d := by
    by_cases hst : s = t
    · rw [if_pos hst] at hcf' ⊢
      exact ⟨-c, hcf', rfl, hsame hst⟩
    · rw [if_neg hst] at hcf' ⊢
      exact ⟨_, hcf', t.ofInt_wrap _, is32_of_has (t.wrap_has _) le_rfl ht⟩
  rw [heq, foldPlus_cons hleft', BitVec.ofInt_add, ← hd]
  refine ⟨ht, ?_⟩
  cases hfold : foldPlusCons (tgConvert left t) cf' t t with
  | some e =>
      have hbits := foldPlusCons_bits hleft' (tgConvert_sound hleft hsound t) hcf' (fun _ => hd32)
        (fun _ _ hne => absurd rfl hne) hfold
      rw [Option.getD_some, hbits, BitVec.ofInt_add, hconv]
  | none =>
      rw [Option.getD_none, Expr.eval, Op.apply, t.ofInt_wrap, BitVec.ofInt_add, hconv, eval_cons hcf', t.ofInt_wrap]

end Sums

/-! ### Masks -/

section Masks

variable {cf rv : CFloat} {c : ℤ} {s t : TypeDef} {left zero ones e : Expr}

theorem ofInt_neg_one (w : ℕ) : BitVec.ofInt w (-1) = BitVec.allOnes w := by
  rw [BitVec.ofInt_neg, show (1 : ℤ) = ((1 : ℕ) : ℤ) from rfl, BitVec.ofInt_natCast]
  exact BitVec.neg_one_eq_allOnes

/-- The bits of a constant whose lowest 32 are ones. -/
theorem ones_bits (hrv : IsConst rv c) (hc : Is32 c) (ht : t.hasBigConst = false) (h : intValue rv = -1) :
    BitVec.ofInt t.bits c = BitVec.allOnes t.bits := by
  rw [intValue_eq hrv hc.1 hc.2] at h
  rw [← setWidth_ofInt (bits_le_32 ht), h, show (-1 : BitVec 32) = BitVec.ofInt 32 (-1) from rfl,
    setWidth_ofInt (bits_le_32 ht), ofInt_neg_one]

/-- What a mask folds to, where the operation leaves `zero` for a constant 0 and `ones` for ones. -/
theorem maskCons_bits (f : BitVec t.bits → BitVec t.bits → BitVec t.bits) (hrv : IsConst rv c)
    (hc : t.hasBigConst = false → Is32 c)
    (hzero : BitVec.ofInt t.bits zero.eval = f (BitVec.ofInt t.bits left.eval) 0)
    (hones : BitVec.ofInt t.bits ones.eval = f (BitVec.ofInt t.bits left.eval) (BitVec.allOnes t.bits))
    (h : maskCons zero ones rv t = some e) :
    BitVec.ofInt t.bits e.eval = f (BitVec.ofInt t.bits left.eval) (BitVec.ofInt t.bits c) := by
  unfold maskCons at h
  split at h
  case isTrue htest =>
    obtain rfl := Option.some.inj h
    rw [hzero, hrv.cfTest_zero.mp htest]
    rfl
  case isFalse =>
    split at h
    case isTrue hcond =>
      obtain rfl := Option.some.inj h
      rw [hones, ones_bits hrv (hc hcond.1) hcond.1 hcond.2]
    case isFalse => cases h

theorem consOf_zero_bits (left : Expr) (t : TypeDef) : BitVec.ofInt t.bits (Expr.comma left (consOf 0 t)).eval = 0 := by
  rw [Expr.eval, eval_consOf, t.ofInt_wrap]
  rfl

theorem consOf_ones_bits (left : Expr) (t : TypeDef) :
    BitVec.ofInt t.bits (Expr.comma left (consOf (-1) t)).eval = BitVec.allOnes t.bits := by
  rw [Expr.eval, eval_consOf, t.ofInt_wrap, show (-1 : BitVec 32).toInt = -1 by decide, ofInt_neg_one]

theorem andZero (_ : left.isCons = false) :
    BitVec.ofInt t.bits (Expr.comma left (consOf 0 t)).eval = BitVec.ofInt t.bits left.eval &&& 0 := by
  rw [consOf_zero_bits]
  exact BitVec.and_zero.symm

theorem andOnes (hleft : left.isCons = false) :
    BitVec.ofInt t.bits (tgConvert left t).eval = BitVec.ofInt t.bits left.eval &&& BitVec.allOnes t.bits := by
  rw [tgConvert_bits hleft, BitVec.and_allOnes]

theorem orZero (hleft : left.isCons = false) :
    BitVec.ofInt t.bits (tgConvert left t).eval = BitVec.ofInt t.bits left.eval ||| 0 := by
  rw [tgConvert_bits hleft]
  exact BitVec.or_zero.symm

theorem orOnes (_ : left.isCons = false) :
    BitVec.ofInt t.bits (Expr.comma left (consOf (-1) t)).eval =
      BitVec.ofInt t.bits left.eval ||| BitVec.allOnes t.bits := by
  rw [consOf_ones_bits, BitVec.or_allOnes]

theorem xorZero (hleft : left.isCons = false) :
    BitVec.ofInt t.bits (tgConvert left t).eval = BitVec.ofInt t.bits left.eval ^^^ 0 := by
  rw [tgConvert_bits hleft]
  exact BitVec.xor_zero.symm

theorem xorOnes (hleft : left.isCons = false) :
    BitVec.ofInt t.bits (tgComplement left t).eval =
      BitVec.ofInt t.bits left.eval ^^^ BitVec.allOnes t.bits := by
  rw [tgComplement_bits hleft, BitVec.xor_allOnes, sub_eq_add_neg, BitVec.ofInt_add, BitVec.ofInt_neg,
    BitVec.neg_eq_not_add, ofInt_neg_one, ← BitVec.neg_one_eq_allOnes]
  ring

end Masks

/-! ### Shifts -/

section Shifts

variable {cf rv : CFloat} {c : ℤ} {s t : TypeDef} {left e : Expr}

/-- The count is not a multiple of the values of the type, which is read as 0. -/
def CountFits (c : ℤ) (t : TypeDef) : Prop := c = 0 ∨ c % 2 ^ t.bits ≠ 0

theorem toInt_ofInt_le {z : ℤ} (h0 : -2 ^ 31 ≤ z) (h1 : z < 2 ^ 32) : (BitVec.ofInt 32 z).toInt ≤ z := by
  rw [BitVec.toInt_ofInt, Int.bmod]
  norm_num at h0 h1 ⊢
  split <;> omega

theorem emod_of_ofInt_zero {w : ℕ} {z : ℤ} (h : BitVec.ofInt w z = 0) : z % 2 ^ w = 0 := by
  have hnat := congrArg BitVec.toNat h
  have hnonneg := Int.emod_nonneg z (show (2 : ℤ) ^ w ≠ 0 by positivity)
  rw [BitVec.toNat_ofInt] at hnat
  push_cast at hnat
  have hzero : (z % 2 ^ w).toNat = 0 := hnat
  omega

theorem wrap_le (t : TypeDef) (h : 0 ≤ c) : t.wrap c ≤ c := by
  have hmod := t.wrap_emod c
  have hhas := (t.wrap_has c).2
  have hlow := t.low_nonpos
  have hle : c % 2 ^ t.bits ≤ c := by
    have hdiv := Int.emod_add_mul_ediv c (2 ^ t.bits)
    have hquot : 0 ≤ 2 ^ t.bits * (c / 2 ^ t.bits) :=
      mul_nonneg (by positivity) (Int.ediv_nonneg h (by positivity))
    omega
  by_cases hneg : t.wrap c < 0
  · omega
  · rw [Int.emod_eq_of_lt (by omega) (by omega)] at hmod
    omega

theorem convert_count (hrv : IsConst rv c) (h0 : 0 ≤ c) (h1 : c < 2 ^ 32) (hfits : CountFits c t) :
    (cfConvertByType rv t = 0 → c = 0) ∧ (cfConvertByType rv t).toInt ≤ c := by
  cases hbig : t.hasBigConst with
  | false =>
      have hbits := bits_le_32 hbig
      have hhas := (t.wrap_has c).bounds_small hbig
      rw [cfConvertByType_eq hrv (by omega) h1 hbig]
      constructor
      · intro hzero
        have hbits0 : BitVec.ofInt t.bits c = 0 := by
          rw [← t.ofInt_wrap, ← setWidth_ofInt hbits, hzero]
          exact BitVec.setWidth_zero ..
        exact hfits.resolve_right fun hne => hne (emod_of_ofInt_zero hbits0)
      · exact (toInt_ofInt_le hhas.2.1 hhas.2.2).trans (wrap_le t h0)
  | true =>
      have height : t.length = .eight := of_decide_eq_true hbig
      unfold cfConvertByType
      rw [height, hrv.cfCnvF32_eq (by omega) h1]
      refine ⟨fun hzero => ?_, toInt_ofInt_le (by omega) h1⟩
      have := emod_of_ofInt_zero hzero
      omega

theorem ofInt_mul_pow {w n : ℕ} (h : w ≤ n) (z : ℤ) : BitVec.ofInt w (z * 2 ^ n) = 0 := by
  have hzero : z * 2 ^ n % 2 ^ w = 0 := Int.emod_eq_zero_of_dvd (dvd_mul_of_dvd_right (pow_dvd_pow 2 h) z)
  apply BitVec.eq_of_toNat_eq
  rw [BitVec.toNat_ofInt]
  push_cast
  rw [hzero]
  rfl

theorem foldLShiftCons_bits (hleft : left.isCons = false) (hrv : IsConst rv c) (h0 : 0 ≤ c) (h1 : c < 2 ^ 32)
    (hfits : CountFits c t) (h : foldLShiftCons left rv t = some e) :
    BitVec.ofInt t.bits e.eval = BitVec.ofInt t.bits (left.eval * 2 ^ c.toNat) := by
  obtain ⟨hzero, hle⟩ := convert_count hrv h0 h1 hfits
  simp only [foldLShiftCons, if_pos (cfIs32_of hrv (by unfold Is32; omega))] at h
  split at h
  case isTrue hri =>
    obtain rfl := Option.some.inj h
    rw [tgConvert_bits hleft, hzero hri]
    simp
  case isFalse =>
    split at h
    case isTrue hri =>
      obtain rfl := Option.some.inj h
      rw [consOf_zero_bits, ofInt_mul_pow (by omega)]
    case isFalse => cases h

theorem foldLShiftCons_isCons (hleft : left.isCons = false) (h : foldLShiftCons left rv t = some e) :
    e.isCons = false := by
  unfold foldLShiftCons at h
  extract_lets ri at h
  split at h
  case isTrue =>
    obtain rfl := Option.some.inj h
    exact tgConvert_isCons hleft t
  case isFalse =>
    split at h
    case isTrue =>
      obtain rfl := Option.some.inj h
      rfl
    case isFalse => cases h

theorem foldRShiftCons_bits (hleft : left.isCons = false) (hrv : IsConst rv c) (h0 : 0 ≤ c) (h1 : c < 2 ^ 32)
    (hfits : CountFits c t) (h : foldRShiftCons left rv t = some e) :
    BitVec.ofInt t.bits e.eval = BitVec.ofInt t.bits (t.wrap left.eval >>> c.toNat) := by
  obtain ⟨hzero, hle⟩ := convert_count hrv h0 h1 hfits
  simp only [foldRShiftCons] at h
  split at h
  case isTrue hri =>
    obtain rfl := Option.some.inj h
    rw [tgConvert_bits hleft, hzero hri, Int.toNat_zero, Int.shiftRight_zero, t.ofInt_wrap]
  case isFalse =>
    split at h
    case isTrue hri =>
      obtain rfl := Option.some.inj h
      have hshift : t.wrap left.eval >>> c.toNat = 0 := by
        obtain ⟨hlow, hhigh⟩ := t.wrap_has left.eval
        have hlow0 : t.low = 0 := if_neg (ne_true_of_eq_false hri.2)
        have hpow : (2 : ℤ) ^ t.bits ≤ 2 ^ c.toNat := pow_le_pow_right₀ (by norm_num) (by omega)
        rw [Int.shiftRight_eq_div_pow]
        exact Int.ediv_eq_zero_of_lt (by omega) (by push_cast; omega)
      rw [consOf_zero_bits, hshift]
      rfl
    case isFalse => cases h

end Shifts

/-! ### Products -/

/-- A shift in a product has a count that is read as it is. -/
def ShiftFits : Expr → Prop
  | .binary .lshift _ (.cons count _) _ => count.val < 2 ^ 31
  | _ => True

section Products

variable (g : TreeTarget) {cf lv rv : CFloat} {a b c d : ℤ} {ls s t : TypeDef} {left e : Expr}

theorem tgLShift_bits (hleft : left.isCons = false) {n : ℕ} (hn : n < 32) (t : TypeDef) :
    BitVec.ofInt t.bits (tgLShift g left (intToType (BitVec.ofInt 32 n) g.typeInteger) g.typeInteger t).eval =
        BitVec.ofInt t.bits (left.eval * 2 ^ n) ∧
      (tgLShift g left (intToType (BitVec.ofInt 32 n) g.typeInteger) g.typeInteger t).isCons = false := by
  have hsmall (s : TypeDef) : s.Has n := s.has_small (by omega) (by omega)
  have hconst : IsConst (intToType (BitVec.ofInt 32 n) g.typeInteger) n := by
    rw [BitVec.ofInt_natCast]
    exact consOf_small g.typeInteger hn
  obtain ⟨cf', heq, hcf'⟩ := tgConvert_cons hconst (by omega) (by omega) g.typeInteger g.typeUnsigned
  have hcf' : IsConst cf' n := by
    split at hcf'
    · exact hcf'
    · rwa [TypeDef.wrap_eq (hsmall _), TypeDef.wrap_eq (hsmall _)] at hcf'
  have hleft' := tgConvert_isCons hleft t
  have hconv := tgConvert_bits hleft t
  have hcount : CountFits n t := by
    have hpow : (2 : ℤ) ^ 8 ≤ 2 ^ t.bits := pow_le_pow_right₀ (by norm_num) t.bits_ge
    by_cases h0 : n = 0
    · exact .inl (by omega)
    · refine .inr ?_
      rw [Int.emod_eq_of_lt (by omega) (by omega)]
      omega
  rw [tgLShift, heq]
  dsimp only
  cases hfold : foldLShiftCons (tgConvert left t) cf' t with
  | some e =>
      have hbits := foldLShiftCons_bits hleft' hcf' (by omega) (by omega) hcount hfold
      rw [Option.getD_some, hbits, BitVec.ofInt_mul, hconv, ← BitVec.ofInt_mul, Int.toNat_natCast]
      exact ⟨rfl, foldLShiftCons_isCons hleft' hfold⟩
  | none =>
      refine ⟨?_, rfl⟩
      rw [Option.getD_none, Expr.eval, Op.apply, t.ofInt_wrap, BitVec.ofInt_mul, hconv, eval_cons hcf',
        TypeDef.wrap_eq (hsmall _), ← BitVec.ofInt_mul, Int.toNat_natCast]

/-- A power of two, as `GetLog2` finds it. -/
theorem log2_bits (hrv : IsConst rv c) (hc : Is32 c) (ht : t.hasBigConst = false)
    (h : getLog2 (cfConvertByType rv t) ≠ -1) :
    ∃ n < 32, getLog2 (cfConvertByType rv t) = (n : ℕ) ∧ BitVec.ofInt t.bits c = BitVec.ofInt t.bits (2 ^ n) := by
  obtain ⟨n, hn, hlog, hpow⟩ := getLog2_sound h
  refine ⟨n, hn, hlog, ?_⟩
  have hvalue : cfConvertByType rv t = BitVec.ofInt 32 (2 ^ n) := by
    apply BitVec.eq_of_toNat_eq
    rw [hpow, show ((2 : ℤ) ^ n) = ((2 ^ n : ℕ) : ℤ) by push_cast; rfl, BitVec.ofInt_natCast, BitVec.toNat_ofNat,
      Nat.mod_eq_of_lt (Nat.pow_lt_pow_right (by norm_num) hn)]
  rw [← convert_bits hrv hc ht, hvalue, setWidth_ofInt (bits_le_32 ht)]

theorem timesRest_bits (hleft : left.isCons = false) (hrv : IsConst rv c) (hs : s.Has c) (hle : s.bits ≤ t.bits)
    (h : timesRest g left rv s t = some e) :
    BitVec.ofInt t.bits e.eval = BitVec.ofInt t.bits (left.eval * c) := by
  unfold timesRest at h
  split at h
  case isTrue hone =>
    obtain rfl := Option.some.inj h
    have hc := is32_of_has hs hle hone.1
    have hbits : BitVec.ofInt t.bits c = BitVec.ofInt t.bits 1 := by
      have hval := hone.2
      rw [intValue_eq hrv hc.1 hc.2] at hval
      rw [← setWidth_ofInt (bits_le_32 hone.1), hval, show (1 : BitVec 32) = BitVec.ofInt 32 1 from rfl,
        setWidth_ofInt (bits_le_32 hone.1)]
    rw [BitVec.ofInt_mul, hbits, ← BitVec.ofInt_mul, mul_one]
  case isFalse =>
    split at h
    case isTrue hzero =>
      obtain rfl := Option.some.inj h
      rw [Expr.eval, eval_cons hrv, TypeDef.wrap_eq hs, hrv.cfTest_zero.mp hzero, mul_zero]
    case isFalse =>
      split at h
      case isTrue => cases h
      case isFalse hbig =>
        have ht : t.hasBigConst = false := eq_false_of_ne_true hbig
        by_cases hneg : cfTest rv < 0
        · simp only [if_pos hneg] at h
          split at h
          case isFalse => cases h
          case isTrue hcond =>
            obtain ⟨hu32, hlog⟩ := hcond
            obtain rfl := Option.some.inj h
            have hconst := hrv.negate
            have hrange := hconst.cfIsU32_iff.mp hu32
            obtain ⟨n, hn, hlogn, hbits⟩ := log2_bits hconst ⟨by omega, hrange.2⟩ ht hlog
            obtain ⟨hshift, hcons⟩ := tgLShift_bits g hleft hn t
            rw [hlogn, tgUMinus_bits hcons, BitVec.ofInt_neg, hshift, BitVec.ofInt_mul, ← hbits, ← BitVec.ofInt_mul,
              ← BitVec.ofInt_neg]
            congr 1
            ring
        · simp only [if_neg hneg] at h
          split at h
          case isFalse => cases h
          case isTrue hcond =>
            obtain ⟨hu32, hlog⟩ := hcond
            obtain rfl := Option.some.inj h
            have hrange := hrv.cfIsU32_iff.mp hu32
            obtain ⟨n, hn, hlogn, hbits⟩ := log2_bits hrv ⟨by omega, hrange.2⟩ ht hlog
            rw [hlogn, (tgLShift_bits g hleft hn t).1, BitVec.ofInt_mul, ← hbits, ← BitVec.ofInt_mul]

theorem foldTimes_cons (hleft : left.isCons = false) (rv : CFloat) (s t : TypeDef) :
    foldTimes g left (.cons rv s) t = foldTimesCons g left rv s t := by
  cases left with
  | cons cf s' => cases hleft
  | _ => rfl

theorem foldTimes_cons_left (hleft : left.isCons = false) (rv : CFloat) (s t : TypeDef) :
    foldTimes g (.cons rv s) left t = foldTimesCons g left rv s t := by
  cases left with
  | cons cf s' => cases hleft
  | _ => rfl

theorem shift_factor (hcount : IsConst cf c) (h0 : 0 ≤ c) (h1 : c < 2 ^ 31) (ht : t.hasBigConst = false) :
    let li : BitVec 32 := if (intValue cf).slt 0 then 1 else 1 <<< (intValue cf).toNat
    ∃ d, IsConst (intToCF (cfGetInteger64Value (cfCnvU32F li)) t) d ∧ Is32 d ∧
      BitVec.ofInt t.bits d = BitVec.ofInt t.bits (2 ^ c.toNat) := by
  have hval := intValue_eq hcount (by omega) (by omega)
  have hnat : (BitVec.ofInt 32 c).toNat = c.toNat := by
    have := toNat_ofInt_of_bounds h0 (show c < 2 ^ 32 by omega)
    omega
  have hslt : (BitVec.ofInt 32 c).slt 0 = false := by
    change (BitVec.ofInt 32 c).slt 0#32 = false
    rw [BitVec.slt_zero_eq_msb, BitVec.msb_eq_false_iff_two_mul_lt, hnat]
    omega
  rw [hval, hslt, hnat]
  intro li
  have hli : li = BitVec.ofInt 32 (2 ^ c.toNat) := by
    rw [ofInt_two_pow]
    rfl
  have hlt := li.isLt
  have hconst := cnvCFToType_isConst (cfCnvU32F_isConst li) (by omega) (by omega) t
  refine ⟨_, hconst, is32_of_has (t.wrap_has _) le_rfl ht, ?_⟩
  rw [t.ofInt_wrap, ← setWidth_ofInt (bits_le_32 ht), BitVec.ofInt_natCast, BitVec.ofNat_toNat, BitVec.setWidth_eq, hli,
    setWidth_ofInt (bits_le_32 ht)]

theorem foldTimesCons_bits (hleft : left.isCons = false) (hsound : left.Sound) (hrv : IsConst rv c) (hs : s.Has c)
    (hle : s.bits ≤ t.bits) (hfits : ShiftFits left) (h : foldTimesCons g left rv s t = some e) :
    BitVec.ofInt t.bits e.eval = BitVec.ofInt t.bits (left.eval * c) := by
  unfold foldTimesCons at h
  split at h
  · rename_i lv ls rite lt
    obtain ⟨⟨d, hl, hd⟩, -, hdle, -⟩ := hsound
    split at h
    case isFalse => exact timesRest_bits g rfl hrv hs hle h
    case isTrue hcond =>
      obtain ⟨rfl, ht⟩ := hcond
      obtain rfl := Option.some.inj h
      have hprod := timesConst_eval hrv hl (is32_of_has hs hle ht) (is32_of_has hd (hdle rfl) ht) ht
      simp only [Expr.eval, Op.apply, lt.ofInt_wrap, BitVec.ofInt_mul, hprod, hl.floor, TypeDef.wrap_eq hd]
      ring
  · rename_i l lv ls lt hnot
    obtain ⟨-, ⟨d, hl, hd⟩, -, hdle⟩ := hsound
    split at h
    case isFalse => exact timesRest_bits g rfl hrv hs hle h
    case isTrue hcond =>
      obtain ⟨rfl, ht⟩ := hcond
      obtain rfl := Option.some.inj h
      have hprod := timesConst_eval hrv hl (is32_of_has hs hle ht) (is32_of_has hd (hdle rfl) ht) ht
      simp only [Expr.eval, Op.apply, lt.ofInt_wrap, BitVec.ofInt_mul, hprod, hl.floor, TypeDef.wrap_eq hd]
      ring
  · rename_i l count cs lt
    obtain ⟨-, ⟨n, hcount, hn⟩, hunsigned, hbig⟩ := hsound
    split at h
    case isFalse => exact timesRest_bits g rfl hrv hs hle h
    case isTrue hcond =>
      obtain ⟨rfl, ht⟩ := hcond
      obtain rfl := Option.some.inj h
      have hn31 : n < 2 ^ 31 := by
        have : count.val < 2 ^ 31 := hfits
        rw [hcount.val] at this
        exact_mod_cast this
      obtain ⟨f, hf, hf32, hfbits⟩ := shift_factor hcount (hn.nonneg hunsigned) hn31 ht
      have hprod := timesConst_eval hrv hf (is32_of_has hs hle ht) hf32 ht
      simp only [Expr.eval, Op.apply, lt.ofInt_wrap, BitVec.ofInt_mul, hprod, hcount.floor, TypeDef.wrap_eq hn, hfbits]
      ring
  · exact timesRest_bits g hleft hrv hs hle h

end Products

/-! ### All operations -/

/-- The type of a constant that an operation of type `t` meets: no wider, and a count is unsigned and not of 64 bits. -/
def Meets : Op → TypeDef → TypeDef → Prop
  | .lshift, s, _ => s.signed = false ∧ s.hasBigConst = false
  | .rshift, s, _ => s.signed = false ∧ s.hasBigConst = false
  | _, s, t => s.bits ≤ t.bits

/-- The constants for which an operation is folded right, whatever the operand. -/
def Fits : Op → ℤ → TypeDef → TypeDef → Prop
  | .plus, c, s, t => t.hasBigConst ∨ c = 0 ∨ s.bits = t.bits
  | .minus, c, s, t => t.hasBigConst ∨ s.Has (-c) ∨ s.bits = t.bits
  | .lshift, c, _, t => CountFits c t
  | .rshift, c, _, t => CountFits c t
  | _, _, _, _ => True

/-- The tree of two operands, where they are folded, has the bits of the operation. -/
def Kept (g : TreeTarget) (op : Op) (left rite : Expr) (t : TypeDef) : Prop :=
  ∀ e, binFold g op left rite t = some e →
    BitVec.ofInt t.bits e.eval = BitVec.ofInt t.bits (Expr.binary op left rite t).eval

section All

variable (g : TreeTarget) {rv : CFloat} {c : ℤ} {s t : TypeDef} {left : Expr}

theorem foldAnd_cons (hleft : left.isCons = false) (rv : CFloat) (s t : TypeDef) :
    foldAnd left (.cons rv s) t = maskCons (.comma left (consOf 0 t)) (tgConvert left t) rv t ∧
      foldAnd (.cons rv s) left t = maskCons (.comma left (consOf 0 t)) (tgConvert left t) rv t := by
  cases left with
  | cons cf s' => cases hleft
  | _ => exact ⟨rfl, rfl⟩

theorem foldOr_cons (hleft : left.isCons = false) (rv : CFloat) (s t : TypeDef) :
    foldOr left (.cons rv s) t = maskCons (tgConvert left t) (.comma left (consOf (-1) t)) rv t ∧
      foldOr (.cons rv s) left t = maskCons (tgConvert left t) (.comma left (consOf (-1) t)) rv t := by
  cases left with
  | cons cf s' => cases hleft
  | _ => exact ⟨rfl, rfl⟩

theorem foldXor_cons (hleft : left.isCons = false) (rv : CFloat) (s t : TypeDef) :
    foldXor left (.cons rv s) t = maskCons (tgConvert left t) (tgComplement left t) rv t ∧
      foldXor (.cons rv s) left t = maskCons (tgConvert left t) (tgComplement left t) rv t := by
  cases left with
  | cons cf s' => cases hleft
  | _ => exact ⟨rfl, rfl⟩

/-- A mask is kept on either side, where the operation does not mind the order. -/
theorem kept_mask (op : Op) (f : BitVec t.bits → BitVec t.bits → BitVec t.bits) (hcomm : ∀ x y, f x y = f y x)
    (happly : ∀ a b, BitVec.ofInt t.bits (op.apply t a b) = f (BitVec.ofInt t.bits a) (BitVec.ofInt t.bits b))
    (hrv : IsConst rv c) (hs : s.Has c) (hc : t.hasBigConst = false → Is32 c) {zero ones : Expr}
    (hfold : binFold g op left (.cons rv s) t = maskCons zero ones rv t ∧
      binFold g op (.cons rv s) left t = maskCons zero ones rv t)
    (hzero : BitVec.ofInt t.bits zero.eval = f (BitVec.ofInt t.bits left.eval) 0)
    (hones : BitVec.ofInt t.bits ones.eval = f (BitVec.ofInt t.bits left.eval) (BitVec.allOnes t.bits)) :
    Kept g op left (.cons rv s) t ∧ Kept g op (.cons rv s) left t := by
  have hcons : (Expr.cons rv s).eval = c := by rw [eval_cons hrv, TypeDef.wrap_eq hs]
  refine ⟨fun e h => ?_, fun e h => ?_⟩
  · rw [Expr.eval, happly, hcons]
    apply maskCons_bits f hrv hc hzero hones
    rw [← hfold.1, h]
  · rw [Expr.eval, happly, hcons, hcomm]
    apply maskCons_bits f hrv hc hzero hones
    rw [← hfold.2, h]

theorem kept_of_fits (op : Op) (hleft : left.isCons = false) (hsound : left.Sound) (hshift : ShiftFits left)
    (hrv : IsConst rv c) (hs : s.Has c) (hmeets : Meets op s t) (hfits : Fits op c s t) :
    Kept g op left (.cons rv s) t ∧ Kept g op (.cons rv s) left t := by
  have hcons : (Expr.cons rv s).eval = c := by rw [eval_cons hrv, TypeDef.wrap_eq hs]
  cases op with
  | plus =>
      have hfold := fun e => foldPlusCons_bits (e := e) hleft hsound hrv (fun ht => is32_of_has hs hmeets ht)
        (fun ht hc hst => (hfits.resolve_left (by simp [ht])).resolve_left hc)
      refine ⟨fun e h => ?_, fun e h => ?_⟩
      · rw [Expr.eval, Op.apply, t.ofInt_wrap, hcons]
        exact hfold e (foldPlus_cons hleft rv s t ▸ h)
      · rw [Expr.eval, Op.apply, t.ofInt_wrap, hcons, add_comm]
        exact hfold e (foldPlus_cons_left hleft rv s t ▸ h)
  | minus =>
      refine ⟨fun e h => ?_, fun e h => ?_⟩
      · rw [Expr.eval, Op.apply, t.ofInt_wrap, hcons]
        obtain ⟨ht, hbits⟩ := foldMinusCons_bits hleft hsound hrv hs hmeets h
        rw [hbits, sub_eq_add_neg, BitVec.ofInt_add, BitVec.ofInt_add]
        split
        case isTrue => rfl
        case isFalse =>
          obtain hhas | hwidth := hfits.resolve_left (by simp [ht])
          · rw [TypeDef.wrap_eq hhas]
          · rw [ofInt_wrap_of_le hwidth.ge]
      · have h : foldMinus (.cons rv s) left t = some e := h
        rw [foldMinus_cons_left hleft] at h
        split at h
        case isFalse => cases h
        case isTrue hzero =>
          obtain rfl := Option.some.inj h
          rw [Expr.eval, Op.apply, t.ofInt_wrap, hcons, hrv.cfTest_zero.mp hzero, zero_sub, tgUMinus_bits hleft]
  | times =>
      have hfold := fun e => foldTimesCons_bits g (e := e) hleft hsound hrv hs hmeets hshift
      refine ⟨fun e h => ?_, fun e h => ?_⟩
      · rw [Expr.eval, Op.apply, t.ofInt_wrap, hcons]
        exact hfold e (foldTimes_cons g hleft rv s t ▸ h)
      · rw [Expr.eval, Op.apply, t.ofInt_wrap, hcons, mul_comm]
        exact hfold e (foldTimes_cons_left g hleft rv s t ▸ h)
  | and =>
      have hbig := fun ht => is32_of_has hs hmeets ht
      exact kept_mask g .and (· &&& ·) BitVec.and_comm (fun _ _ => ofInt_intOf t _) hrv hs hbig
        (foldAnd_cons hleft rv s t) (andZero hleft) (andOnes hleft)
  | or =>
      have hbig := fun ht => is32_of_has hs hmeets ht
      exact kept_mask g .or (· ||| ·) BitVec.or_comm (fun _ _ => ofInt_intOf t _) hrv hs hbig
        (foldOr_cons hleft rv s t) (orZero hleft) (orOnes hleft)
  | xor =>
      have hbig := fun ht => is32_of_has hs hmeets ht
      exact kept_mask g .xor (· ^^^ ·) BitVec.xor_comm (fun _ _ => ofInt_intOf t _) hrv hs hbig
        (foldXor_cons hleft rv s t) (xorZero hleft) (xorOnes hleft)
  | lshift =>
      have hrange := hs.bounds_small hmeets.2
      have hnonneg := hs.nonneg hmeets.1
      refine ⟨fun e h => ?_, fun e h => ?_⟩
      · rw [Expr.eval, Op.apply, t.ofInt_wrap, hcons]
        refine foldLShiftCons_bits hleft hrv hnonneg hrange.2.2 hfits ?_
        simpa [binFold, foldLShift, hleft] using h
      · cases left with
        | cons cf s' => cases hleft
        | _ => cases h
  | rshift =>
      have hrange := hs.bounds_small hmeets.2
      have hnonneg := hs.nonneg hmeets.1
      refine ⟨fun e h => ?_, fun e h => ?_⟩
      · rw [Expr.eval, Op.apply, t.ofInt_wrap, hcons]
        refine foldRShiftCons_bits hleft hrv hnonneg hrange.2.2 hfits ?_
        simpa [binFold, foldRShift, hleft] using h
      · cases left with
        | cons cf s' => cases hleft
        | _ => cases h

theorem neg_two_pow_lt_low (t : TypeDef) : -2 ^ t.bits < t.low := by
  have hpow := t.two_pow_bits
  have hpos : (0 : ℤ) < 2 ^ (t.bits - 1) := by positivity
  unfold TypeDef.low
  split <;> omega

/-- A number just outside a narrower type has other bits in it. -/
theorem ofInt_wrap_ne (hlt : s.bits < t.bits) {z : ℤ} (hhas : ¬ s.Has z) (hlow : s.low - 2 ^ s.bits ≤ z)
    (hhigh : z < s.low + 2 ^ s.bits + 2 ^ s.bits) :
    BitVec.ofInt t.bits (s.wrap z) ≠ BitVec.ofInt t.bits z := by
  have hpos : (0 : ℤ) < 2 ^ s.bits := by positivity
  have hpow : (2 : ℤ) ^ s.bits < 2 ^ t.bits := pow_lt_pow_right₀ (by norm_num) hlt
  obtain ⟨k, hk, hwrap⟩ : ∃ k : ℤ, (k = 2 ^ s.bits ∨ k = -2 ^ s.bits) ∧ s.wrap z = z + k := by
    unfold TypeDef.Has at hhas
    by_cases h : s.low ≤ z
    · refine ⟨-2 ^ s.bits, .inr rfl, TypeDef.eq_of_emod (s.wrap_has z) ⟨by omega, by omega⟩ ?_⟩
      rw [s.wrap_emod, ← sub_eq_add_neg, Int.sub_emod_right]
    · refine ⟨2 ^ s.bits, .inl rfl, TypeDef.eq_of_emod (s.wrap_has z) ⟨by omega, by omega⟩ ?_⟩
      rw [s.wrap_emod, Int.add_emod_right]
  intro heq
  rw [hwrap, BitVec.ofInt_add] at heq
  have hzero : BitVec.ofInt t.bits k = 0 := by
    have hsub := congrArg (· - BitVec.ofInt t.bits z) heq
    simpa using hsub
  have hdvd := Int.dvd_of_emod_eq_zero (emod_of_ofInt_zero hzero)
  have hle : (2 : ℤ) ^ t.bits ≤ 2 ^ s.bits := by
    obtain rfl | rfl := hk
    · exact Int.le_of_dvd hpos hdvd
    · exact Int.le_of_dvd hpos ((dvd_neg).mp hdvd)
  omega

theorem exists_isConst (hs : s.Has c) : ∃ cf, IsConst cf c := by
  have h := intToCF_isConst (BitVec.ofInt 64 c) s
  have hwrap : s.wrap (BitVec.ofInt 64 c).toInt = c := by
    rw [BitVec.toInt_ofInt, bmod_bits s c s.bits_le, TypeDef.wrap_eq hs]
  exact ⟨_, hwrap ▸ h⟩

/-- An operand, with nothing in it that another type reads otherwise. -/
structure Operand (left : Expr) (t : TypeDef) : Prop where
  isCons : left.isCons = false
  sound : left.Sound
  shift : ShiftFits left
  width : left.tipe.bits ≤ t.bits

theorem leaf_operand (z : ℤ) (t : TypeDef) : Operand (.leaf z t) t := ⟨rfl, trivial, trivial, le_rfl⟩

theorem plus_not_kept (hrv : IsConst rv c) (hs : s.Has c) (ht : t.hasBigConst = false) (hc : c ≠ 0)
    (hlt : s.bits < t.bits) : ∃ left, Operand left t ∧ ¬ Kept g .plus left (.cons rv s) t := by
  have hne : s ≠ t := fun h => absurd hlt (by rw [h]; exact lt_irrefl _)
  have hlow := s.low_nonpos
  have hlow' := neg_two_pow_lt_low s
  obtain ⟨hc0, hc1⟩ := hs
  -- a constant whose sum with this one leaves the type
  obtain ⟨d, hd, hsum⟩ : ∃ d, s.Has d ∧ ¬ s.Has (c + d) := by
    unfold TypeDef.Has
    by_cases hpos : 0 < c
    · exact ⟨s.low + 2 ^ s.bits - 1, by omega, by omega⟩
    · exact ⟨s.low, by omega, by omega⟩
  obtain ⟨cf, hcf⟩ := exists_isConst hd
  have hfold : foldPlusCons (.binary .plus (.leaf 0 t) (.cons cf s) t) rv s t =
      some (.binary .plus (.leaf 0 t) (plusConst rv cf s) t) := by
    have hfix : fixAddType s s t = s := if_pos ⟨hne, rfl⟩
    simp only [foldPlusCons, if_neg (mt hrv.cfTest_zero.mp hc), hfix]
    exact if_pos ⟨trivial, ht, trivial⟩
  refine ⟨.binary .plus (.leaf 0 t) (.cons cf s) t,
    ⟨rfl, ⟨trivial, ⟨d, hcf, hd⟩, (fun h => by cases h), fun _ => hlt.le⟩, trivial, le_rfl⟩, fun hkept => ?_⟩
  have hbits := hkept _ ((foldPlus_cons rfl rv s t).trans hfold)
  have hsmall := hasBigConst_of_le hlt.le ht
  have hconst := plusConst_eval hrv hcf (TypeDef.Has.bounds_small ⟨hc0, hc1⟩ hsmall).2 (hd.bounds_small hsmall).2 hsmall
  have hrv' : (Expr.cons rv s).eval = c := by rw [eval_cons hrv, TypeDef.wrap_eq ⟨hc0, hc1⟩]
  have hcf' : (Expr.cons cf s).eval = d := by rw [eval_cons hcf, TypeDef.wrap_eq hd]
  have hleaf : (Expr.leaf 0 t).eval = 0 := TypeDef.wrap_eq (t.has_small le_rfl (by decide))
  have hvalue (z : ℤ) (e : Expr) :
      (Expr.binary .plus (.leaf z t) e t).eval = t.wrap ((Expr.leaf z t).eval + e.eval) := rfl
  rw [hvalue, hconst, hleaf, zero_add, t.ofInt_wrap] at hbits
  refine ofInt_wrap_ne hlt hsum ?_ ?_ (hbits.trans ?_)
  · have := hd.1
    omega
  · have := hd.2
    omega
  · rw [show (Expr.binary .plus (.binary .plus (.leaf 0 t) (.cons cf s) t) (.cons rv s) t).eval =
      t.wrap ((Expr.binary .plus (.leaf 0 t) (.cons cf s) t).eval + (Expr.cons rv s).eval) from rfl, hvalue, hleaf,
      hcf', hrv', t.ofInt_wrap, BitVec.ofInt_add, t.ofInt_wrap, ← BitVec.ofInt_add, zero_add, add_comm]

/-- A narrower constant can be negated. -/
theorem okToNegate_of_lt (hrv : IsConst rv c) (hs : s.Has c) (hlt : s.bits < t.bits) (ht : t.hasBigConst = false) :
    (okToNegate rv t).isSome := by
  have hconst := hrv.negate
  have hpow : (2 : ℤ) ^ s.bits ≤ 2 ^ (t.bits - 1) := pow_le_pow_right₀ (by norm_num) (by omega)
  have hlow := s.low_nonpos
  have hlow' := neg_two_pow_lt_low s
  have hhigh := hs.2
  have hrange : -2 ^ (t.bits - 1) ≤ -c ∧ -c < 2 ^ (t.bits - 1) := by
    have hhigh := hs.1
    omega
  have hsize : cfIsSize rv.negate (t.bits / 8) = true := by
    obtain ⟨length, signed⟩ := t
    cases length with
    | one =>
        have := s.bits_ge
        exact absurd (show s.bits < 8 from hlt) (by omega)
    | two =>
        rw [show TypeDef.bits ⟨.two, signed⟩ / 8 = 2 by simp [TypeDef.bits, IntLength.bits], cfIsSize, Bool.or_eq_true]
        refine .inr ((cfIsIntType_const hconst.normal (.inr rfl) (by decide) rfl).mpr ⟨-c, hconst.val, hrange⟩)
    | four =>
        rw [show TypeDef.bits ⟨.four, signed⟩ / 8 = 4 by simp [TypeDef.bits, IntLength.bits], cfIsSize, Bool.or_eq_true]
        exact .inr (hconst.cfIsI32_iff.mpr hrange)
    | eight => cases ht
  rw [okToNegate, if_neg (by simp [ht]), if_pos hsize]
  split <;> rfl

theorem minus_not_kept (hrv : IsConst rv c) (hs : s.Has c) (ht : t.hasBigConst = false) (hneg : ¬ s.Has (-c))
    (hlt : s.bits < t.bits) : ∃ left, Operand left t ∧ ¬ Kept g .minus left (.cons rv s) t := by
  have hne : s ≠ t := fun h => absurd hlt (by rw [h]; exact lt_irrefl _)
  have hlow := s.low_nonpos
  have hlow' := neg_two_pow_lt_low s
  obtain ⟨rv', hok⟩ := Option.isSome_iff_exists.mp (okToNegate_of_lt hrv hs hlt ht)
  obtain ⟨e, hfold⟩ : ∃ e, foldMinus (.leaf 0 t) (.cons rv s) t = some e := by
    rw [foldMinus_cons rfl, hok]
    exact ⟨_, rfl⟩
  refine ⟨.leaf 0 t, leaf_operand 0 t, fun hkept => ?_⟩
  have hbits := (foldMinusCons_bits (show (Expr.leaf 0 t).isCons = false from rfl) trivial hrv hs hlt.le hfold).2
  have hleaf : (Expr.leaf 0 t).eval = 0 := TypeDef.wrap_eq (t.has_small le_rfl (by decide))
  have hrv' : (Expr.cons rv s).eval = c := by rw [eval_cons hrv, TypeDef.wrap_eq hs]
  rw [hkept e hfold, show (Expr.binary .minus (.leaf 0 t) (.cons rv s) t).eval =
    t.wrap ((Expr.leaf 0 t).eval - (Expr.cons rv s).eval) from rfl, hleaf, hrv', zero_sub, zero_add, if_neg hne,
    t.ofInt_wrap] at hbits
  refine ofInt_wrap_ne hlt hneg ?_ ?_ hbits.symm
  · have := hs.2
    omega
  · have := hs.1
    omega

theorem shift_not_kept (op : Op) (hop : op = .lshift ∨ op = .rshift) (hrv : IsConst rv c) (hs : s.Has c)
    (hmeets : s.signed = false ∧ s.hasBigConst = false) (hcount : ¬ CountFits c t) :
    ¬ Kept g op (.leaf 1 t) (.cons rv s) t := by
  obtain ⟨hc, hmod⟩ : c ≠ 0 ∧ c % 2 ^ t.bits = 0 := by
    unfold CountFits at hcount
    push Not at hcount
    exact hcount
  have hc0 := hs.nonneg hmeets.1
  have hc1 := (hs.bounds_small hmeets.2).2.2
  have ht : t.hasBigConst = false := by
    by_contra hbig
    have hbits : t.bits = 64 := by
      have height : t.length = .eight := of_decide_eq_true (eq_true_of_ne_false hbig)
      rw [TypeDef.bits, height]
      rfl
    rw [hbits] at hmod
    omega
  have hri : cfConvertByType rv t = 0 := by
    have hwrap : t.wrap c = t.wrap 0 := t.wrap_congr (by rw [hmod, Int.zero_emod])
    rw [cfConvertByType_eq hrv (by omega) hc1 ht, hwrap, TypeDef.wrap_eq (t.has_small le_rfl (by decide))]
    rfl
  have hwide : t.bits ≤ c.toNat := by
    have hdvd := Int.le_of_dvd (by omega) (Int.dvd_of_emod_eq_zero hmod)
    have hlt : t.bits < 2 ^ t.bits := Nat.lt_two_pow_self
    zify at hlt ⊢
    omega
  have hone : (Expr.leaf 1 t).eval = 1 := TypeDef.wrap_eq (t.has_small (by decide) (by decide))
  have hrv' : (Expr.cons rv s).eval = c := by rw [eval_cons hrv, TypeDef.wrap_eq hs]
  have hne : BitVec.ofInt t.bits 1 ≠ 0 := fun h => by
    have hzero := emod_of_ofInt_zero h
    have hpow : (2 : ℤ) ^ 8 ≤ 2 ^ t.bits := pow_le_pow_right₀ (by norm_num) t.bits_ge
    rw [Int.emod_eq_of_lt (by decide) (by omega)] at hzero
    exact one_ne_zero hzero
  have hconv : tgConvert (.leaf 1 t) t = .leaf 1 t := if_pos rfl
  refine fun hkept => hne ?_
  obtain rfl | rfl := hop
  · have hfold : binFold g .lshift (.leaf 1 t) (.cons rv s) t = some (.leaf 1 t) := by
      have hri' : (if cfIs32 rv then cfConvertByType rv t else if cfIs64 rv then 0xffff else 0) = 0 := by
        rw [if_pos (cfIs32_of hrv ⟨by omega, hc1⟩), hri]
      simp only [binFold, foldLShift, Expr.isCons, foldLShiftCons, hri', hconv, if_true, Bool.false_eq_true, if_false]
    have hbits := hkept _ hfold
    rw [hone, show (Expr.binary .lshift (.leaf 1 t) (.cons rv s) t).eval =
      t.wrap ((Expr.leaf 1 t).eval * 2 ^ (Expr.cons rv s).eval.toNat) from rfl, t.ofInt_wrap, hrv',
      ofInt_mul_pow hwide] at hbits
    exact hbits
  · have hfold : binFold g .rshift (.leaf 1 t) (.cons rv s) t = some (.leaf 1 t) := by
      simp only [binFold, foldRShift, Expr.isCons, foldRShiftCons, hri, hconv, if_true, Bool.false_eq_true, if_false]
    have hbits := hkept _ hfold
    have hzero : (1 : ℤ) >>> c.toNat = 0 := by
      have hpos : (1 : ℤ) < 2 ^ c.toNat := one_lt_pow₀ (by norm_num) (by omega)
      rw [Int.shiftRight_eq_div_pow]
      exact Int.ediv_eq_zero_of_lt (by decide) (by push_cast; exact hpos)
    rw [hone, show (Expr.binary .rshift (.leaf 1 t) (.cons rv s) t).eval =
      t.wrap (t.wrap (Expr.leaf 1 t).eval >>> (Expr.cons rv s).eval.toNat) from rfl, t.ofInt_wrap, hrv', hone,
      TypeDef.wrap_eq (t.has_small (by decide) (by decide)), hzero] at hbits
    exact hbits

/-- For which constants and types every operand is folded right. -/
theorem folds_kept_iff (g : TreeTarget) (op : Op) (rv : CFloat) (c : ℤ) (s t : TypeDef) (hrv : IsConst rv c)
    (hs : s.Has c) (hmeets : Meets op s t) :
    (∀ left, Operand left t → Kept g op left (.cons rv s) t ∧ Kept g op (.cons rv s) left t) ↔ Fits op c s t := by
  constructor
  · intro hkept
    by_contra hfits
    obtain ⟨left, hleft, hnot⟩ : ∃ left, Operand left t ∧ ¬ Kept g op left (.cons rv s) t := by
      cases op with
      | plus =>
          have ⟨hbig, hc, hne⟩ : ¬ (t.hasBigConst = true) ∧ ¬ c = 0 ∧ ¬ s.bits = t.bits := by
            simpa [Fits, not_or] using hfits
          exact plus_not_kept g hrv hs (eq_false_of_ne_true hbig) hc (lt_of_le_of_ne hmeets hne)
      | minus =>
          have ⟨hbig, hc, hne⟩ : ¬ (t.hasBigConst = true) ∧ ¬ s.Has (-c) ∧ ¬ s.bits = t.bits := by
            simpa [Fits, not_or] using hfits
          exact minus_not_kept g hrv hs (eq_false_of_ne_true hbig) hc (lt_of_le_of_ne hmeets hne)
      | lshift => exact ⟨_, leaf_operand 1 t, shift_not_kept g .lshift (.inl rfl) hrv hs hmeets hfits⟩
      | rshift => exact ⟨_, leaf_operand 1 t, shift_not_kept g .rshift (.inr rfl) hrv hs hmeets hfits⟩
      | _ => exact absurd trivial hfits
    exact hnot (hkept left hleft).1
  · exact fun hfits left hleft => kept_of_fits g op hleft.isCons hleft.sound hleft.shift hrv hs hmeets hfits

/-- A constant 5 of `int` in a sum of `long`: not right for every operand. -/
theorem folds_kept_iff_five :
    (∀ left, Operand left ⟨.four, true⟩ →
      Kept i86Target .plus left (.cons (intToType 5 ⟨.two, true⟩) ⟨.two, true⟩) ⟨.four, true⟩ ∧
        Kept i86Target .plus (.cons (intToType 5 ⟨.two, true⟩) ⟨.two, true⟩) left ⟨.four, true⟩) ↔
      Fits .plus 5 ⟨.two, true⟩ ⟨.four, true⟩ :=
  folds_kept_iff i86Target .plus _ 5 ⟨.two, true⟩ ⟨.four, true⟩ (intToType_isConst 5 ⟨.two, true⟩) (by decide)
    (show TypeDef.bits ⟨.two, true⟩ ≤ TypeDef.bits ⟨.four, true⟩ by decide)

/-- A byte that is shifted by 256 is folded to the byte. -/
theorem not_folds_kept :
    Operand (.leaf 1 ⟨.one, false⟩) ⟨.one, false⟩ ∧
      ¬ Kept i86Target .lshift (.leaf 1 ⟨.one, false⟩) (.cons (intToType 256 ⟨.two, false⟩) ⟨.two, false⟩)
        ⟨.one, false⟩ :=
  ⟨leaf_operand 1 _, shift_not_kept i86Target .lshift (.inl rfl) (intToType_isConst 256 ⟨.two, false⟩) (by decide)
    ⟨rfl, rfl⟩ (by unfold CountFits; decide)⟩

end All

end OpenWatcom.Cg.FoldArith
