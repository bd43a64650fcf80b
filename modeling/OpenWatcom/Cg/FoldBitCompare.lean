import OpenWatcom.Cg.FoldCompare

/-! # Folding comparisons of bit-fields

`FoldBitCompare` compares the masked word with the constant shifted into place.  The type of an unsigned bit-field is
unsigned here. -/

namespace OpenWatcom.Cg

open Cfloat

/-! ### The mask -/

/-- The loop of `TGMask32`; a field has at least one bit. -/
def maskLoop : ℕ → BitVec 32 → BitVec 32 → BitVec 32
  | 0, mask, _ => mask
  | len + 1, mask, bit => maskLoop len (mask ||| bit) (bit <<< 1)

/-- `TGMask32`. -/
def tgMask32 (start len : ℕ) : BitVec 32 := maskLoop len 0 (1#32 <<< start)

theorem maskLoop_toNat {start k len : ℕ} (hfit : start + k + len ≤ 32) {mask bit : BitVec 32}
    (hmask : mask.toNat = (2 ^ k - 1) * 2 ^ start) (hbit : 0 < len → bit.toNat = 2 ^ (start + k)) :
    (maskLoop len mask bit).toNat = (2 ^ (k + len) - 1) * 2 ^ start := by
  induction len generalizing k mask bit with
  | zero => exact hmask
  | succ len ih =>
      have hbitval := hbit (by omega)
      have hone : 1 ≤ 2 ^ k := Nat.one_le_two_pow
      have hlt : (2 ^ k - 1) * 2 ^ start < 2 ^ (start + k) := by
        rw [pow_add, Nat.sub_mul, mul_comm]
        have := Nat.two_pow_pos start
        have : 0 < 2 ^ start * 2 ^ k := by positivity
        omega
      rw [maskLoop, show k + (len + 1) = k + 1 + len from by ring]
      refine ih (k := k + 1) (by omega) ?_ ?_
      · rw [BitVec.toNat_or, hmask, hbitval, Nat.or_comm, ← mul_one (2 ^ (start + k)),
          ← Nat.two_pow_add_eq_or_of_lt hlt, mul_one]
        zify [hone, Nat.one_le_two_pow (n := k + 1)]
        ring
      · intro hpos
        rw [BitVec.toNat_shiftLeft, hbitval, Nat.shiftLeft_eq, ← pow_add, Nat.mod_eq_of_lt]
        · rfl
        · exact Nat.pow_lt_pow_right (by norm_num) (by omega)

/-- Ones where the field is. -/
theorem tgMask32_toNat {start len : ℕ} (hfit : start + len ≤ 32) :
    (tgMask32 start len).toNat = (2 ^ len - 1) * 2 ^ start := by
  have hbit : 0 < len → (1#32 <<< start).toNat = 2 ^ (start + 0) := by
    intro hpos
    have hlt : 2 ^ start < 2 ^ 32 := Nat.pow_lt_pow_right (by norm_num) (by omega)
    have hone : (1#32).toNat = 1 := rfl
    rw [BitVec.toNat_shiftLeft, Nat.shiftLeft_eq, hone, one_mul, Nat.mod_eq_of_lt hlt, Nat.add_zero]
  have h := maskLoop_toNat (k := 0) (by omega : start + 0 + len ≤ 32) (by simp : (0 : BitVec 32).toNat = _) hbit
  rwa [Nat.zero_add] at h

/-- The masked word is the field in its place. -/
theorem and_mask (w start len : ℕ) : w &&& (2 ^ len - 1) * 2 ^ start = w / 2 ^ start % 2 ^ len * 2 ^ start := by
  rw [← Nat.shiftLeft_eq, ← Nat.shiftLeft_eq, ← Nat.and_two_pow_sub_one_eq_mod, Nat.shiftLeft_and_distrib,
    ← Nat.shiftRight_eq_div_pow]
  apply Nat.eq_of_testBit_eq
  intro i
  simp only [Nat.testBit_and, Nat.testBit_shiftLeft, Nat.testBit_shiftRight]
  by_cases hi : start ≤ i
  · rw [Nat.add_sub_cancel' hi]
    simp [hi]
  · simp [hi]

/-! ### `FoldBitCompare` -/

/-- `TGCompare` of operands of the type `t` that are no bit-fields. -/
def tgCompare (g : TreeTarget) (op : RelOp) (left rite : Tree) (t : TypeDef) : Compared :=
  (foldCompare g op left rite t).getD (.compare op left rite)

/-- `FoldBitCompare`. -/
def foldBitCompare (g : TreeTarget) (op : RelOp) (left rite : Tree) : Option Compared :=
  let p := if left.isCons then (op.rev, rite, left) else (op, left, rite)
  match p.2.2, p.2.1 with
  | .cons rv _, .bitRvalue word start len isSigned t =>
    if isSigned = false ∧ t.hasBigConst = false then
      let newC := intValue rv <<< start
      let mask := tgMask32 start len
      if newC &&& ~~~ mask = 0 then
        -- the word, as `O_POINTS` reads it
        let fold := tgBinary g .and (.leaf word t) (consOf mask t) t
        some (tgCompare g p.1 fold (consOf newC t) t)
      else none
    else none
  | _, _ => none

/-- The comparison of a bit-field and a constant, written either way round. -/
def bitCompare (g : TreeTarget) (op : RelOp) (swapped : Bool) (field const : Tree) : Option Compared :=
  if swapped then foldBitCompare g op.rev const field else foldBitCompare g op field const

/-- What is asked of the constant: no bit is lost, or the answer is the same without it. -/
def BitConst (op : RelOp) (start len : ℕ) (c : ℤ) : Prop :=
  c < 2 ^ (32 - start) ∨ ((op = .le ∨ op = .gt) ∧ c % 2 ^ (32 - start) = 2 ^ len - 1)

section fold

variable (g : TreeTarget) (op : RelOp) {t : TypeDef} {rv : CFloat} {c : ℤ} {start len : ℕ}

/-- The value of the field. -/
theorem bitRvalue_eval (hs : t.signed = false) (hfit : start + len ≤ t.bits) (word : ℤ) :
    (Tree.bitRvalue word start len false t).eval = ((t.wrap word).toNat / 2 ^ start % 2 ^ len : ℕ) := by
  have hword := (t.wrap_has word).nonneg hs
  have hlow : t.low = 0 := if_neg (ne_true_of_eq_false hs)
  have hpow : 2 ^ len ≤ 2 ^ t.bits := Nat.pow_le_pow_right (by norm_num) (by omega)
  have hfield : (BitVec.ofInt len (t.wrap word >>> start)).toNat =
      (t.wrap word).toNat / 2 ^ start % 2 ^ len := by
    rw [BitVec.toNat_ofInt, Int.shiftRight_eq_div_pow]
    conv_lhs => rw [← Int.toNat_of_nonneg hword]
    push_cast
    norm_cast
  rw [Tree.eval, intOf, if_neg Bool.false_ne_true, hfield, TypeDef.wrap_eq]
  have hlt := Nat.mod_lt ((t.wrap word).toNat / 2 ^ start) (Nat.two_pow_pos len)
  exact ⟨by omega, by rw [hlow]; push_cast [← @Nat.cast_lt ℤ] at hlt ⊢; zify at hpow; omega⟩

/-- The value of the masked word. -/
theorem masked_eval (hs : t.signed = false) (hbig : t.hasBigConst = false) (hfit : start + len ≤ t.bits)
    (word : ℤ) :
    (tgBinary g .and (.leaf word t) (consOf (tgMask32 start len) t) t).eval =
      ((t.wrap word).toNat / 2 ^ start % 2 ^ len * 2 ^ start : ℕ) := by
  have hwordhas := t.wrap_has word
  obtain ⟨hbits, -, -⟩ := hwordhas.bounds_small hbig
  have hlow : t.low = 0 := if_neg (ne_true_of_eq_false hs)
  have hmask : (tgMask32 start len).toNat = (2 ^ len - 1) * 2 ^ start := tgMask32_toNat (by omega)
  have hlt : (2 ^ len - 1) * 2 ^ start < 2 ^ t.bits := by
    have hpow : 2 ^ len * 2 ^ start ≤ 2 ^ t.bits := by
      rw [← pow_add]
      exact Nat.pow_le_pow_right (by norm_num) (by omega)
    have hpos := Nat.two_pow_pos start
    rw [Nat.sub_mul]
    have : 0 < 2 ^ len * 2 ^ start := by positivity
    omega
  have hmaskhas : t.Has (tgMask32 start len).toNat := by
    rw [hmask]
    exact ⟨by omega, by rw [hlow]; exact_mod_cast (by omega : (2 ^ len - 1) * 2 ^ start < 0 + 2 ^ t.bits)⟩
  have hword : (BitVec.ofInt t.bits (t.wrap word)).toNat = (t.wrap word).toNat := by
    have h := toNat_ofInt_of_bounds (w := t.bits) (hwordhas.nonneg hs) (by have := hwordhas.2; omega)
    omega
  have hval : (BitVec.ofInt t.bits ((tgMask32 start len).toNat : ℤ)).toNat = (2 ^ len - 1) * 2 ^ start := by
    rw [BitVec.ofInt_natCast, BitVec.toNat_ofNat, hmask, Nat.mod_eq_of_lt hlt]
  have hleaf : (Tree.leaf word t).eval = t.wrap word := rfl
  rw [tgBinary_and_eval g t rfl, hleaf, t.wrap_wrap, wrap_toInt t hbits, TypeDef.wrap_eq hmaskhas, BinOp.apply,
    intOf, hs, if_neg Bool.false_ne_true, BitVec.toNat_and, hword, hval, and_mask]

/-- The constant in its place. -/
theorem newC_toNat (hc0 : 0 ≤ c) (hc : c < 2 ^ 32) (hstart : start ≤ 32) :
    (BitVec.ofInt 32 c <<< start).toNat = (c % 2 ^ (32 - start)).toNat * 2 ^ start := by
  obtain ⟨n, rfl⟩ := Int.eq_ofNat_of_zero_le hc0
  have hn : n < 2 ^ 32 := by exact_mod_cast hc
  have hsplit : 2 ^ 32 = 2 ^ (32 - start) * 2 ^ start := by rw [← pow_add, Nat.sub_add_cancel hstart]
  rw [BitVec.ofInt_natCast, BitVec.toNat_shiftLeft, BitVec.toNat_ofNat, Nat.shiftLeft_eq,
    Nat.mod_eq_of_lt hn, hsplit, Nat.mul_mod_mul_right]
  congr 1

theorem and_not_eq_zero_iff {w : ℕ} (a b : BitVec w) : a &&& ~~~ b = 0 ↔ a &&& b = a := by
  constructor
  · intro h
    apply BitVec.eq_of_getLsbD_eq
    intro i hi
    have hbit := congrArg (·.getLsbD i) h
    simp [hi] at hbit ⊢
    exact hbit
  · intro h
    rw [← h, BitVec.and_assoc, BitVec.and_not_self]
    simp

/-- It stays in the mask, if it fits the field. -/
theorem newC_fits (hfit : start + len ≤ 32) {k : ℕ} {newC : BitVec 32} (hnew : newC.toNat = k * 2 ^ start) :
    newC &&& ~~~ tgMask32 start len = 0 ↔ k < 2 ^ len := by
  have hpos := Nat.two_pow_pos start
  rw [and_not_eq_zero_iff, ← BitVec.toNat_inj, BitVec.toNat_and, tgMask32_toNat hfit, and_mask, hnew,
    Nat.mul_div_cancel _ hpos, Nat.mul_left_inj (by omega)]
  exact ⟨fun h => h ▸ Nat.mod_lt _ (Nat.two_pow_pos len), Nat.mod_eq_of_lt⟩

/-- Fields compare like the masked words. -/
theorem holds_scaled (start a b : ℕ) :
    op.holds ((a * 2 ^ start : ℕ) : ℤ) ((b * 2 ^ start : ℕ) : ℤ) ↔ op.holds a b := by
  have hpos := Nat.two_pow_pos start
  have hlt : ∀ a b : ℕ, a * 2 ^ start < b * 2 ^ start ↔ a < b := fun a b => Nat.mul_lt_mul_right hpos
  have hle : ∀ a b : ℕ, a * 2 ^ start ≤ b * 2 ^ start ↔ a ≤ b := fun a b => Nat.mul_le_mul_right_iff hpos
  have heq : ∀ a b : ℕ, a * 2 ^ start = b * 2 ^ start ↔ a = b := fun a b => Nat.mul_left_inj (by omega)
  cases op <;> simp only [RelOp.holds, ne_eq, Nat.cast_lt, Nat.cast_le, Nat.cast_inj, hlt, hle, heq]

/-- A constant above the field, of which `k` is left. -/
theorem holds_above {k n : ℕ} (hk : k < n) (hc : (n : ℤ) ≤ c) :
    (∀ f < n, (op.holds (f : ℤ) k ↔ op.holds f c)) ↔ (op = .le ∨ op = .gt) ∧ k = n - 1 := by
  constructor
  · intro h
    have hmid := h k hk
    have hlast := h (n - 1) (by omega)
    have hcast : ((n - 1 : ℕ) : ℤ) = n - 1 := by omega
    rw [hcast] at hlast
    cases op with
    | le => exact ⟨Or.inl rfl, by simp only [RelOp.holds] at hlast; omega⟩
    | gt => exact ⟨Or.inr rfl, by simp only [RelOp.holds] at hlast; omega⟩
    | eq =>
        simp only [RelOp.holds, true_iff] at hmid
        omega
    | ne =>
        simp only [RelOp.holds, ne_eq, not_true_eq_false, false_iff, not_not] at hmid
        omega
    | lt =>
        simp only [RelOp.holds] at hlast
        omega
    | ge =>
        simp only [RelOp.holds] at hlast
        omega
  · rintro ⟨rfl | rfl, rfl⟩
    · intro f hf
      simp only [RelOp.holds]
      omega
    · intro f hf
      simp only [RelOp.holds]
      omega

/-- `TGCompare` keeps the truth for a constant of at most 32 bits. -/
theorem tgCompare_truth {left rite : Tree} (hleft : left.tipe = t) (hrite : rite.tipe = t) (hlwf : left.Wf)
    (hrwf : rite.Wf) (hlcons : left.isCons = false) (hrcons : rite.isCons = true)
    (hbig : t.hasBigConst = false) :
    (tgCompare g op left rite t).Truth ↔ op.holds left.eval rite.eval := by
  have hritehas : t.Has rite.eval := hrite ▸ rite.eval_has
  have hhigh : ¬ HighConst left rite := fun h => by
    have hbound := (hritehas.bounds_small hbig).2.2
    have := h.2.1
    omega
  have hdiffer : ¬ SignsDiffer left rite := fun h => absurd (hrcons.symm.trans h.2.1) (by decide)
  have hsound := (foldOrdered_truth_iff g op hleft hrite hlwf hrwf (fun _ => hrcons)).2
    ⟨fun h => hhigh h.2, fun h => hdiffer h.2⟩
  unfold tgCompare foldCompare
  rw [if_neg (ne_true_of_eq_false hlcons)]
  cases hfold : foldOrdered g op left rite t with
  | none =>
      rw [Option.getD_none, Compared.Truth, hleft, TypeDef.wrap_eq hritehas]
  | some e => exact hsound e hfold

theorem RelOp.rev_rev (op : RelOp) : op.rev.rev = op := by
  cases op <;> rfl

/-- Either way round the comparison is that of the masked word. -/
theorem bitCompare_eq (swapped : Bool) (word : ℤ) (s : TypeDef) :
    bitCompare g op swapped (.bitRvalue word start len false t) (.cons rv s) =
      if t.hasBigConst = false ∧ intValue rv <<< start &&& ~~~ tgMask32 start len = 0 then
        some (tgCompare g op (tgBinary g .and (.leaf word t) (consOf (tgMask32 start len) t) t)
          (consOf (intValue rv <<< start) t) t)
      else none := by
  have hmain : ∀ op, (if false = false ∧ t.hasBigConst = false then
      if intValue rv <<< start &&& ~~~ tgMask32 start len = 0 then
        some (tgCompare g op (tgBinary g .and (.leaf word t) (consOf (tgMask32 start len) t) t)
          (consOf (intValue rv <<< start) t) t)
      else none
    else none) = if t.hasBigConst = false ∧ intValue rv <<< start &&& ~~~ tgMask32 start len = 0 then
        some (tgCompare g op (tgBinary g .and (.leaf word t) (consOf (tgMask32 start len) t) t)
          (consOf (intValue rv <<< start) t) t)
      else none := by
    intro op
    by_cases hbig : t.hasBigConst = false
    · simp only [hbig, and_self, true_and, if_true]
    · rw [if_neg (fun h => hbig h.2), if_neg (fun h => hbig h.1)]
  cases swapped with
  | false => exact hmain op
  | true => exact (hmain op.rev.rev).trans (by rw [op.rev_rev])

theorem consOf_wf (value : BitVec 32) (t : TypeDef) : (consOf value t).Wf :=
  ⟨_, intToType_isConst value t, t.wrap_has _⟩

/-- The masked word is a tree with integer constants. -/
theorem masked_wf (word : ℤ) (mask : BitVec 32) : (tgBinary g .and (.leaf word t) (consOf mask t) t).Wf := by
  have hleaf : tgConvert (.leaf word t) t = .leaf word t := if_pos rfl
  have hmask := consOf_wf mask t
  have hcons : tgConvert (consOf mask t) t = consOf mask t := if_pos rfl
  unfold tgBinary binResult binFold foldAnd
  dsimp only
  rw [hleaf, hcons]
  unfold consOf
  dsimp only
  split
  case isTrue h => exact absurd h Bool.false_ne_true
  case isFalse =>
    split
    case isTrue => exact ⟨trivial, consOf_wf 0 t⟩
    case isFalse =>
      split
      case isTrue =>
        rw [Option.getD_some, hleaf]
        trivial
      case isFalse => exact ⟨trivial, hmask⟩

/-- The comparison that is made when the constant fits. -/
theorem foldBitCompare_fits (hrv : IsConst rv c) (hc : t.Has c) (hs : t.signed = false)
    (hbig : t.hasBigConst = false) (hfit : start + len ≤ t.bits) (swapped : Bool) (word : ℤ) :
    ∀ e ∈ bitCompare g op swapped (.bitRvalue word start len false t) (.cons rv t),
      (c % 2 ^ (32 - start)).toNat < 2 ^ len ∧
        (e.Truth ↔
          op.holds ((t.wrap word).toNat / 2 ^ start % 2 ^ len : ℕ) ((c % 2 ^ (32 - start)).toNat : ℕ)) := by
  obtain ⟨hbits, hlow, hhigh⟩ := hc.bounds_small hbig
  have hc0 := hc.nonneg hs
  have hnew := newC_toNat hc0 hhigh (by omega : start ≤ 32)
  intro e he
  rw [bitCompare_eq, intValue_eq hrv hlow hhigh] at he
  split at he
  case isFalse => cases he
  case isTrue hcond =>
    obtain rfl := Option.some_inj.1 he
    have hk := (newC_fits (by omega : start + len ≤ 32) hnew).1 hcond.2
    refine ⟨hk, ?_⟩
    have hleaf : (Tree.leaf word t).isCons = false := rfl
    have hshape := tgBinary_and_shape g t hleaf (consOf (tgMask32 start len) t)
    have hconst : (consOf (BitVec.ofInt 32 c <<< start) t).eval =
        ((c % 2 ^ (32 - start)).toNat * 2 ^ start : ℕ) := by
      have hlt : (c % 2 ^ (32 - start)).toNat * 2 ^ start < 2 ^ t.bits := by
        calc (c % 2 ^ (32 - start)).toNat * 2 ^ start < 2 ^ len * 2 ^ start :=
              Nat.mul_lt_mul_of_pos_right hk (Nat.two_pow_pos start)
          _ = 2 ^ (start + len) := by rw [pow_add, mul_comm]
          _ ≤ 2 ^ t.bits := Nat.pow_le_pow_right (by norm_num) hfit
      have hlow0 : t.low = 0 := if_neg (ne_true_of_eq_false hs)
      rw [eval_consOf, wrap_toInt t hbits, hnew, TypeDef.wrap_eq]
      exact ⟨by omega, by rw [hlow0, zero_add]; exact_mod_cast hlt⟩
    rw [tgCompare_truth g op hshape.2 rfl (masked_wf g word _) (consOf_wf _ t) hshape.1 rfl hbig,
      masked_eval g hs hbig hfit, hconst, holds_scaled]

/-- Every value of the field is in some word. -/
theorem fields_iff (hrv : IsConst rv c) (hc : t.Has c) (hs : t.signed = false) (hbig : t.hasBigConst = false)
    (hfit : start + len ≤ t.bits) (swapped : Bool) (hk : (c % 2 ^ (32 - start)).toNat < 2 ^ len) :
    (∀ word, ∀ e ∈ bitCompare g op swapped (.bitRvalue word start len false t) (.cons rv t),
      (e.Truth ↔ op.holds (Tree.bitRvalue word start len false t).eval c)) ↔
      ∀ f < 2 ^ len, (op.holds ((f : ℕ) : ℤ) ((c % 2 ^ (32 - start)).toNat : ℕ) ↔ op.holds (f : ℤ) c) := by
  obtain ⟨hbits, hlow, hhigh⟩ := hc.bounds_small hbig
  have hnew := newC_toNat (hc.nonneg hs) hhigh (by omega : start ≤ 32)
  constructor
  · intro h f hf
    have hword : t.Has ((f * 2 ^ start : ℕ) : ℤ) := by
      have hlt : f * 2 ^ start < 2 ^ t.bits := by
        calc f * 2 ^ start < 2 ^ len * 2 ^ start := Nat.mul_lt_mul_of_pos_right hf (Nat.two_pow_pos start)
          _ = 2 ^ (start + len) := by rw [pow_add, mul_comm]
          _ ≤ 2 ^ t.bits := Nat.pow_le_pow_right (by norm_num) hfit
      have hlow0 : t.low = 0 := if_neg (ne_true_of_eq_false hs)
      exact ⟨by omega, by rw [hlow0, zero_add]; exact_mod_cast hlt⟩
    have hfield : (t.wrap ((f * 2 ^ start : ℕ) : ℤ)).toNat / 2 ^ start % 2 ^ len = f := by
      rw [TypeDef.wrap_eq hword, Int.toNat_natCast, Nat.mul_div_cancel _ (Nat.two_pow_pos start),
        Nat.mod_eq_of_lt hf]
    obtain ⟨e, he⟩ : ∃ e, e ∈ bitCompare g op swapped (.bitRvalue ((f * 2 ^ start : ℕ) : ℤ) start len false t)
        (.cons rv t) := by
      rw [bitCompare_eq, intValue_eq hrv hlow hhigh]
      exact ⟨_, if_pos ⟨hbig, (newC_fits (by omega) hnew).2 hk⟩⟩
    have hboth := foldBitCompare_fits g op hrv hc hs hbig hfit swapped _ e he
    have htruth := h _ e he
    rw [bitRvalue_eval hs hfit, hfield] at htruth
    rw [hfield] at hboth
    exact hboth.2.symm.trans htruth
  · intro h word e he
    rw [bitRvalue_eval hs hfit]
    exact (foldBitCompare_fits g op hrv hc hs hbig hfit swapped word e he).2.trans
      (h _ (Nat.mod_lt _ (Nat.two_pow_pos len)))

/-- The comparison of an unsigned bit-field and a constant keeps its truth for every word, exactly when it is not
folded, or the constant keeps its bits in the shift, or only the ones that are left matter. -/
theorem foldBitCompare_truth_iff (hrv : IsConst rv c) (hc : t.Has c) (hs : t.signed = false)
    (hfit : start + len ≤ t.bits) (swapped : Bool) :
    (∀ word, ∀ e ∈ bitCompare g op swapped (.bitRvalue word start len false t) (.cons rv t),
      (e.Truth ↔ op.holds (Tree.bitRvalue word start len false t).eval c)) ↔
      t.hasBigConst = true ∨ 2 ^ len ≤ c % 2 ^ (32 - start) ∨ BitConst op start len c := by
  cases hbig : t.hasBigConst with
  | true =>
      refine iff_of_true ?_ (Or.inl rfl)
      intro word e he
      rw [bitCompare_eq, if_neg (fun h => by rw [hbig] at h; cases h.1)] at he
      cases he
  | false =>
  obtain ⟨hbits, hlow, hhigh⟩ := hc.bounds_small hbig
  have hc0 := hc.nonneg hs
  have hnew := newC_toNat hc0 hhigh (by omega : start ≤ 32)
  have hk0 : 0 ≤ c % 2 ^ (32 - start) := Int.emod_nonneg c (by positivity)
  have hkcast := Int.toNat_of_nonneg hk0
  have hfolded := fun word => foldBitCompare_fits g op hrv hc hs hbig hfit swapped word
  by_cases hk : (c % 2 ^ (32 - start)).toNat < 2 ^ len
  · have hkint : c % 2 ^ (32 - start) < 2 ^ len := by
      zify at hk
      rwa [hkcast] at hk
    have hfields := fields_iff g op hrv hc hs hbig hfit swapped hk
    rw [hfields]
    simp only [Bool.false_eq_true, false_or, not_le.2 hkint]
    unfold BitConst
    by_cases hlost : c < 2 ^ (32 - start)
    · refine iff_of_true ?_ (Or.inl hlost)
      intro f hf
      rw [hkcast, Int.emod_eq_of_lt hc0 hlost]
    · have hpow : 2 ^ len ≤ 2 ^ (32 - start) := Nat.pow_le_pow_right (by norm_num) (by omega)
      rw [holds_above op hk (by zify at hpow; push_cast; omega)]
      simp only [hlost, false_or]
      have hone := Nat.one_le_two_pow (n := len)
      refine and_congr_right (fun _ => ?_)
      zify [hone]
      rw [hkcast]
  · refine iff_of_true (fun word e he => absurd (hfolded word e he).1 hk) (Or.inr (Or.inl ?_))
    zify at hk
    rw [hkcast] at hk
    exact not_lt.1 hk

/-- The second byte of 4, compared with 2^24: the constant is lost and 0 is left. -/
theorem not_truth_lost : ¬ ∀ (g : TreeTarget) (op : RelOp) (t : TypeDef) (rv : CFloat) (c : ℤ) (start len : ℕ)
    (swapped : Bool), IsConst rv c → t.Has c → t.signed = false → 0 < len → start + len ≤ t.bits →
      ∀ word, ∀ e ∈ bitCompare g op swapped (.bitRvalue word start len false t) (.cons rv t),
        (e.Truth ↔ op.holds (Tree.bitRvalue word start len false t).eval c) := by
  intro hall
  have hconst : IsConst (cfCnvI32F 0x01000000) (2 ^ 24) := cfCnvI32F_isConst _
  have hhas : (⟨.four, false⟩ : TypeDef).Has (2 ^ 24) := by decide
  have hfit : 8 + 8 ≤ TypeDef.bits ⟨.four, false⟩ := by decide
  have hword := hall i86Target .eq ⟨.four, false⟩ _ _ 8 8 false hconst hhas rfl (by decide) hfit
  have hfields := (fields_iff i86Target .eq hconst hhas rfl rfl hfit false (by decide)).1 hword
  exact absurd (hfields 0 (by decide)) (by decide)

/-- The second byte of 4, compared with 200. -/
theorem truth_second_byte : ∃ e, bitCompare i86Target .ge false (.bitRvalue 0xC9FF 8 8 false ⟨.four, false⟩)
    (.cons (cfCnvI32F 200) ⟨.four, false⟩) = some e ∧ e.Truth := by
  have hconst : IsConst (cfCnvI32F 200) 200 := cfCnvI32F_isConst _
  have hfit : 8 + 8 ≤ TypeDef.bits ⟨.four, false⟩ := by decide
  have hiff := (foldBitCompare_truth_iff i86Target .ge hconst (by decide) rfl hfit false).2
    (Or.inr (Or.inr (Or.inl (by decide))))
  obtain ⟨e, he⟩ : ∃ e, bitCompare i86Target .ge false (.bitRvalue 0xC9FF 8 8 false ⟨.four, false⟩)
      (.cons (cfCnvI32F 200) ⟨.four, false⟩) = some e := by
    rw [bitCompare_eq, intValue_eq hconst (by decide) (by decide)]
    exact ⟨_, if_pos ⟨rfl, by decide⟩⟩
  exact ⟨e, he, (hiff 0xC9FF e he).2 (by decide)⟩

end fold

end OpenWatcom.Cg
