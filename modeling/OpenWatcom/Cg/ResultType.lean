import OpenWatcom.Cg.FoldArith
import OpenWatcom.Cg.FoldCompare

/-! # The type of a mask or a comparison with a constant

`ResultType` may answer with the type of the operand instead of a wider type that the front end asked for. -/

namespace OpenWatcom.Cg

open Cfloat

/-- `ResultType` from the test of the lengths on, when a constant is the right operand. -/
def narrowType (left rite : Tree) (tipe : TypeDef) : TypeDef :=
  if tipe.bits ≤ left.tipe.bits then tipe
  else
    match rite with
    | .cons cf _ =>
      if tipe.length = .eight then tipe
      else if left.tipe.signed then
        if cfSignedSize cf (left.tipe.bits / 8) = false then tipe
        else if (intValue cf).toInt < 0 then tipe
        else if tipe.signed = false then tipe
        else left.tipe
      else if cfUnSignedSize cf (left.tipe.bits / 8) = false then tipe
      else left.tipe
    | _ => tipe

/-- `ResultType` for a type that the front end asked for.  Operands of an integer type have no float attribute, and
`TypeBoolean` has no bytes, so that no constant fits it. -/
def resultType (left rite : Tree) (tipe : TypeDef) (demote_const : Bool) : TypeDef :=
  if demote_const = false then tipe
  else if left.isCons then narrowType rite left tipe
  else narrowType left rite tipe

/-- The type in which `TGCompare` compares. -/
def compareType (left rite : Tree) (tipe : TypeDef) : TypeDef :=
  if left.tipe = rite.tipe then left.tipe else resultType left rite tipe true

/-- `O_AND`, `O_OR` and `O_XOR`. -/
inductive Mask where
  | and | or | xor

def Mask.op : Mask → FoldArith.Op
  | and => .and
  | or => .or
  | xor => .xor

/-- The value of a mask that `TGBinary` builds: the operation in the type that `BinResult` finds. -/
def maskValue (m : Mask) (left rite : Tree) (tipe : TypeDef) : ℤ :=
  m.op.apply tipe (tgConvert left tipe).eval (tgConvert rite tipe).eval

/-- What `TGCompare` decides for the operands in a type. -/
def compareHolds (op : RelOp) (left rite : Tree) (tipe : TypeDef) : Prop :=
  op.holds (tgConvert left tipe).eval (tgConvert rite tipe).eval

/-! ### Wider types -/

/-- Every value of the narrower type is one of the wider type. -/
structure TypeDef.Widens (narrow wide : TypeDef) : Prop where
  bits : narrow.bits < wide.bits
  signed : narrow.signed = true → wide.signed = true

namespace TypeDef.Widens

variable {n t : TypeDef} {z : ℤ}

theorem has (h : n.Widens t) (hz : n.Has z) : t.Has z := by
  have hpow : (2 : ℤ) ^ n.bits ≤ 2 ^ (t.bits - 1) := pow_le_pow_right₀ (by norm_num) (by have := h.bits; omega)
  have hn := n.two_pow_bits
  have ht := t.two_pow_bits
  obtain ⟨hlow, hhigh⟩ := hz
  unfold TypeDef.Has
  unfold TypeDef.low at *
  cases hs : n.signed with
  | true =>
      rw [if_pos hs] at hlow hhigh
      rw [if_pos (h.signed hs)]
      omega
  | false =>
      rw [if_neg (ne_true_of_eq_false hs)] at hlow hhigh
      split <;> omega

/-- The bits that a value gets in the wider type. -/
def extend (n t : TypeDef) (b : BitVec n.bits) : BitVec t.bits :=
  if n.signed then b.signExtend t.bits else b.setWidth t.bits

theorem intOf_extend (h : n.Widens t) (b : BitVec n.bits) : intOf t.signed (extend n t b) = intOf n.signed b := by
  have hbits := h.bits
  have hpow : 2 * 2 ^ n.bits ≤ 2 ^ t.bits := by
    rw [← pow_succ']
    exact Nat.pow_le_pow_right (by decide) hbits
  unfold extend intOf
  cases hs : n.signed with
  | true =>
      rw [if_pos (h.signed hs), if_pos rfl, if_pos rfl]
      exact BitVec.toInt_signExtend_of_le hbits.le
  | false =>
      have hlt := b.isLt
      rw [if_neg Bool.false_ne_true, if_neg Bool.false_ne_true, BitVec.toInt_eq_toNat_cond, BitVec.toNat_setWidth,
        Nat.mod_eq_of_lt (by omega)]
      split <;> [rw [if_pos (by omega)]; rfl]

theorem ofInt_extend (h : n.Widens t) (hz : n.Has z) :
    BitVec.ofInt t.bits z = extend n t (BitVec.ofInt n.bits z) := by
  have hval : intOf t.signed (extend n t (BitVec.ofInt n.bits z)) = z := (h.intOf_extend _).trans (wrap_eq hz)
  have hbits := FoldArith.ofInt_intOf t (extend n t (BitVec.ofInt n.bits z))
  rwa [hval] at hbits

theorem extend_and (a b : BitVec n.bits) : extend n t (a &&& b) = extend n t a &&& extend n t b := by
  unfold extend
  split
  · exact BitVec.signExtend_and
  · exact BitVec.setWidth_and

theorem extend_or (a b : BitVec n.bits) : extend n t (a ||| b) = extend n t a ||| extend n t b := by
  unfold extend
  split
  · exact BitVec.signExtend_or
  · exact BitVec.setWidth_or

theorem extend_xor (a b : BitVec n.bits) : extend n t (a ^^^ b) = extend n t a ^^^ extend n t b := by
  unfold extend
  split
  · exact BitVec.signExtend_xor
  · exact BitVec.setWidth_xor

/-- A mask of two values of the narrower type. -/
theorem mask_apply (h : n.Widens t) (m : Mask) {a b : ℤ} (ha : n.Has a) (hb : n.Has b) :
    m.op.apply t a b = m.op.apply n a b := by
  cases m with
  | and =>
      simp only [Mask.op, FoldArith.Op.apply]
      rw [h.ofInt_extend ha, h.ofInt_extend hb, ← extend_and, h.intOf_extend]
  | or =>
      simp only [Mask.op, FoldArith.Op.apply]
      rw [h.ofInt_extend ha, h.ofInt_extend hb, ← extend_or, h.intOf_extend]
  | xor =>
      simp only [Mask.op, FoldArith.Op.apply]
      rw [h.ofInt_extend ha, h.ofInt_extend hb, ← extend_xor, h.intOf_extend]

end TypeDef.Widens

theorem maskValue_has (m : Mask) (left rite : Tree) (t : TypeDef) : t.Has (maskValue m left rite t) := by
  cases m with
  | and => exact intOf_has t _
  | or => exact intOf_has t _
  | xor => exact intOf_has t _

/-! ### The type that is found -/

section size

variable {cf : CFloat} {z : ℤ} {n : TypeDef}

theorem accepts_of_test (h : IsConst cf z) (t : IntType) (ht : t.test cf = true) : t.Accepts z :=
  (h.exists_iff _).mp ((t.test_iff h.normal).mp ht)

/-- A constant that passes the test for the size of a signed type. -/
theorem has_of_signedSize (h : IsConst cf z) (hs : n.signed = true) (hlength : n.length ≠ .eight)
    (hsize : cfSignedSize cf (n.bits / 8) = true) : n.Has z := by
  obtain ⟨length, signed⟩ := n
  subst hs
  cases length with
  | one => exact accepts_of_test h .i8 hsize
  | two => exact accepts_of_test h .i16 hsize
  | four => exact accepts_of_test h .i32 hsize
  | eight => exact absurd rfl hlength

/-- A constant that passes the test for the size of an unsigned type. -/
theorem has_of_unSignedSize (h : IsConst cf z) (hs : n.signed = false) (hlength : n.length ≠ .eight)
    (hsize : cfUnSignedSize cf (n.bits / 8) = true) : n.Has z := by
  obtain ⟨length, signed⟩ := n
  subst hs
  cases length with
  | one => exact accepts_of_test h .u8 hsize
  | two => exact accepts_of_test h .u16 hsize
  | four => exact accepts_of_test h .u32 hsize
  | eight => exact absurd rfl hlength

end size

/-- The type asked for, or a narrower type that has the value of the operand and the constant. -/
theorem narrowType_cases (left : Tree) {rite : Tree} (hrite : rite.Operand) (t : TypeDef) :
    narrowType left rite t = t ∨ ((narrowType left rite t).Widens t ∧
      (narrowType left rite t).Has left.eval ∧ (narrowType left rite t).Has rite.eval) := by
  unfold narrowType
  split
  case isTrue => exact .inl rfl
  case isFalse hbits =>
    cases rite with
    | cons cf s =>
        obtain ⟨z, hconst, hs⟩ := hrite
        have heval : (Tree.cons cf s).eval = z := by rw [eval_cons hconst, TypeDef.wrap_eq hs]
        have hlength : left.tipe.length ≠ .eight := by
          intro height
          have h64 : left.tipe.bits = 64 := congrArg IntLength.bits height
          have hle := t.bits_le
          omega
        rw [heval]
        dsimp only
        split
        case isTrue => exact .inl rfl
        case isFalse =>
          cases hsigned : left.tipe.signed with
          | true =>
              rw [if_pos rfl]
              split_ifs with hsize _ htsigned
              · exact .inl rfl
              · exact .inl rfl
              · exact .inl rfl
              · have hsize := eq_true_of_ne_false hsize
                exact .inr ⟨⟨not_le.mp hbits, fun _ => eq_true_of_ne_false htsigned⟩, left.eval_has,
                  has_of_signedSize hconst hsigned hlength hsize⟩
          | false =>
              rw [if_neg Bool.false_ne_true]
              split_ifs with hsize
              · exact .inl rfl
              · have hsize := eq_true_of_ne_false hsize
                exact .inr ⟨⟨not_le.mp hbits, fun h => absurd (hsigned.symm.trans h) Bool.false_ne_true⟩, left.eval_has,
                  has_of_unSignedSize hconst hsigned hlength hsize⟩
    | _ => exact .inl rfl

theorem resultType_cases {left rite : Tree} (hleft : left.Operand) (hrite : rite.Operand) (t : TypeDef) :
    resultType left rite t true = t ∨ ((resultType left rite t true).Widens t ∧
      (resultType left rite t true).Has left.eval ∧ (resultType left rite t true).Has rite.eval) := by
  unfold resultType
  rw [if_neg (by decide)]
  split
  case isTrue =>
    obtain heq | ⟨hwidens, hr, hl⟩ := narrowType_cases rite hleft t
    · exact .inl heq
    · exact .inr ⟨hwidens, hl, hr⟩
  case isFalse => exact narrowType_cases left hrite t

/-- Masks and comparisons in the type that `ResultType` finds, and in the type that the front end asked for. -/
theorem resultType_sound (left rite : Tree) (t : TypeDef) (hleft : left.Operand) (hrite : rite.Operand) :
    (∀ m : Mask, t.wrap (maskValue m left rite (resultType left rite t true)) = maskValue m left rite t) ∧
      ∀ op : RelOp, compareHolds op left rite (resultType left rite t true) ↔ compareHolds op left rite t := by
  obtain heq | ⟨hwidens, hl, hr⟩ := resultType_cases hleft hrite t
  · rw [heq]
    exact ⟨fun m => TypeDef.wrap_eq (maskValue_has m left rite t), fun _ => Iff.rfl⟩
  · -- both operands keep their values in either type
    have hvalue : ∀ e : Tree, e.Operand → (resultType left rite t true).Has e.eval →
        (tgConvert e (resultType left rite t true)).eval = e.eval ∧ (tgConvert e t).eval = e.eval := by
      intro e he hhas
      rw [tgConvert_eval he, tgConvert_eval he]
      exact ⟨TypeDef.wrap_eq hhas, TypeDef.wrap_eq (hwidens.has hhas)⟩
    obtain ⟨hln, hlt⟩ := hvalue left hleft hl
    obtain ⟨hrn, hrt⟩ := hvalue rite hrite hr
    constructor
    · intro m
      have hhas := hwidens.has (maskValue_has m left rite (resultType left rite t true))
      rw [TypeDef.wrap_eq hhas]
      unfold maskValue
      rw [hln, hrn, hlt, hrt]
      exact (hwidens.mask_apply m hl hr).symm
    · intro op
      unfold compareHolds
      rw [hln, hrn, hlt, hrt]

theorem resultType_sound_byte :
    Tree.Operand (.leaf (-1) ⟨.one, true⟩) ∧ Tree.Operand (consOf 3 ⟨.two, true⟩) ∧
      resultType (.leaf (-1) ⟨.one, true⟩) (consOf 3 ⟨.two, true⟩) ⟨.two, true⟩ true = ⟨.one, true⟩ ∧
      (∀ m : Mask, TypeDef.wrap ⟨.two, true⟩ (maskValue m (.leaf (-1) ⟨.one, true⟩) (consOf 3 ⟨.two, true⟩)
          (resultType (.leaf (-1) ⟨.one, true⟩) (consOf 3 ⟨.two, true⟩) ⟨.two, true⟩ true)) =
        maskValue m (.leaf (-1) ⟨.one, true⟩) (consOf 3 ⟨.two, true⟩) ⟨.two, true⟩) ∧
      ∀ op : RelOp, compareHolds op (.leaf (-1) ⟨.one, true⟩) (consOf 3 ⟨.two, true⟩)
          (resultType (.leaf (-1) ⟨.one, true⟩) (consOf 3 ⟨.two, true⟩) ⟨.two, true⟩ true) ↔
        compareHolds op (.leaf (-1) ⟨.one, true⟩) (consOf 3 ⟨.two, true⟩) ⟨.two, true⟩ := by
  have hrite : Tree.Operand (consOf 3 ⟨.two, true⟩) :=
    ⟨_, intToType_isConst 3 ⟨.two, true⟩, TypeDef.wrap_has _ _⟩
  exact ⟨trivial, hrite, by decide +kernel, resultType_sound _ _ _ trivial hrite⟩

end OpenWatcom.Cg
