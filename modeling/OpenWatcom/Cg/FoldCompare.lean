import OpenWatcom.Cg.Tree

/-! # Folding comparisons

`FoldCompare` over the integer types, with the range check of `CheckCmpRange` and the conversions that `FindBase`
takes away. -/

namespace OpenWatcom.Cg

open Cfloat

/-! ### Relations -/

/-- The relational operators, in the order of their opcodes. -/
inductive RelOp where
  | eq | ne | gt | le | lt | ge
deriving DecidableEq, Repr

namespace RelOp

def holds : RelOp → ℤ → ℤ → Prop
  | eq, a, b => a = b
  | ne, a, b => a ≠ b
  | gt, a, b => b < a
  | le, a, b => a ≤ b
  | lt, a, b => a < b
  | ge, a, b => b ≤ a

instance : ∀ (op : RelOp) (a b : ℤ), Decidable (op.holds a b)
  | eq, a, b => inferInstanceAs (Decidable (a = b))
  | ne, a, b => inferInstanceAs (Decidable (a ≠ b))
  | gt, a, b => inferInstanceAs (Decidable (b < a))
  | le, a, b => inferInstanceAs (Decidable (a ≤ b))
  | lt, a, b => inferInstanceAs (Decidable (a < b))
  | ge, a, b => inferInstanceAs (Decidable (b ≤ a))

/-- `RevOpcode`. -/
def rev : RelOp → RelOp
  | eq => eq
  | ne => ne
  | gt => lt
  | le => ge
  | lt => gt
  | ge => le

/-- `op_eq`. -/
def isEq : RelOp → Bool
  | eq => true
  | ne => true
  | _ => false

theorem rev_holds (op : RelOp) (a b : ℤ) : op.rev.holds a b ↔ op.holds b a := by
  cases op with
  | eq => exact eq_comm
  | ne => exact ne_comm
  | _ => exact Iff.rfl

theorem rev_isEq (op : RelOp) : op.rev.isEq = op.isEq := by
  cases op <;> rfl

end RelOp

/-! ### The range check -/

/-- `cmp_result`. -/
inductive CmpRes where
  | cmpVoid | cmpFalse | cmpTrue
deriving DecidableEq, Repr

/-- `rel_op`. -/
inductive Rel where
  | relEq | relLt | relLe
deriving DecidableEq, Repr

/-- `case_range`: where a constant lies among the values of a type. -/
inductive CaseRange where
  | low | lowEq | high | highEq | size
deriving DecidableEq, Repr

/-- `CmpResult`; there is no column for `CASE_SIZE`. -/
def cmpResult : Rel → CaseRange → CmpRes
  | .relEq, .low => .cmpFalse
  | .relEq, .high => .cmpFalse
  | .relLt, .low => .cmpFalse
  | .relLt, .lowEq => .cmpFalse
  | .relLt, .high => .cmpTrue
  | .relLe, .low => .cmpFalse
  | .relLe, .high => .cmpTrue
  | .relLe, .highEq => .cmpTrue
  | _, _ => .cmpVoid

/-- The row of the table, and whether its answer is reversed. -/
def RelOp.toRel : RelOp → Rel × Bool
  | eq => (.relEq, false)
  | ne => (.relEq, true)
  | lt => (.relLt, false)
  | ge => (.relLt, true)
  | le => (.relLe, false)
  | gt => (.relLe, true)

/-- `low` of `CheckCmpRange`. -/
def cmpLow (t : TypeDef) : BitVec 64 :=
  if t.signed then (0x8000000000000000#64).sshiftRight (64 - t.bits) else 0

/-- `high` of `CheckCmpRange`. -/
def cmpHigh (t : TypeDef) : BitVec 64 :=
  if t.signed then ~~~ cmpLow t else ~~~ cmpLow t >>> (64 - t.bits)

/-- Where the constant lies, as the 64 bits `val`. -/
def caseRange (t : TypeDef) (val : BitVec 64) : CaseRange :=
  if val = cmpLow t then .lowEq
  else if val = cmpHigh t then .highEq
  else if t.bits < 64 then
    if i64Cmp val (cmpLow t) < 0 then .low
    else if 0 < i64Cmp val (cmpHigh t) then .high
    else .size
  else .size

/-- Flip result. -/
def CmpRes.flip : CmpRes → CmpRes
  | cmpVoid => cmpVoid
  | cmpFalse => cmpTrue
  | cmpTrue => cmpFalse

/-- The comparison result, if possible. -/
def rangeAnswer (op : RelOp) (range : CaseRange) : CmpRes :=
  if range = .size then .cmpVoid
  else if op.toRel.2 then (cmpResult op.toRel.1 range).flip
  else cmpResult op.toRel.1 range

/-- `CheckCmpRange`. -/
def checkCmpRange (op : RelOp) (t : TypeDef) (cf : CFloat) : CmpRes :=
  rangeAnswer op (caseRange t (cfCnvF64 cf))

section range

variable (t : TypeDef) {z : ℤ}

theorem cmpLow_eq : cmpLow t = BitVec.ofInt 64 t.low := by
  obtain ⟨length, signed⟩ := t
  cases length <;> cases signed <;> decide

theorem cmpHigh_eq : cmpHigh t = BitVec.ofInt 64 (t.low + 2 ^ t.bits - 1) := by
  obtain ⟨length, signed⟩ := t
  cases length <;> cases signed <;> decide

/-- Where a constant lies among the values from `low` to `high`. -/
def rangeOf (low high z : ℤ) : CaseRange :=
  if z = low then .lowEq
  else if z = high then .highEq
  else if z < low then .low
  else if high < z then .high
  else .size

theorem i64Cmp_neg_iff (a b : BitVec 64) : i64Cmp a b < 0 ↔ a.toInt < b.toInt := by
  unfold i64Cmp
  split_ifs <;> omega

theorem i64Cmp_pos_iff (a b : BitVec 64) : 0 < i64Cmp a b ↔ b.toInt < a.toInt := by
  unfold i64Cmp
  split_ifs <;> omega

theorem ofInt_inj_of_bounds {a b : ℤ} (ha : -2 ^ 63 ≤ a ∧ a < 2 ^ 63) (hb : -2 ^ 63 ≤ b ∧ b < 2 ^ 63) :
    BitVec.ofInt 64 a = BitVec.ofInt 64 b ↔ a = b := by
  rw [← BitVec.toInt_inj, BitVec.toInt_ofInt_eq_self (by decide) ha.1 ha.2,
    BitVec.toInt_ofInt_eq_self (by decide) hb.1 hb.2]

theorem low_bounds (hbits : t.bits < 64) : -2 ^ 62 ≤ t.low ∧ t.low + 2 ^ t.bits - 1 < 2 ^ 62 := by
  obtain ⟨length, signed⟩ := t
  cases length with
  | eight => exact absurd hbits (lt_irrefl 64)
  | _ => cases signed <;> decide

/-- Below 2^63 the constant is found where it lies. -/
theorem caseRange_eq (hbits : t.bits < 64) (hlow : -2 ^ 63 ≤ z) (hhigh : z < 2 ^ 63) :
    caseRange t (BitVec.ofInt 64 z) = rangeOf t.low (t.low + 2 ^ t.bits - 1) z := by
  obtain ⟨htlow, hthigh⟩ := low_bounds t hbits
  have hpow : (0 : ℤ) < 2 ^ t.bits := by positivity
  have hz : (BitVec.ofInt 64 z).toInt = z := BitVec.toInt_ofInt_eq_self (by decide) hlow hhigh
  have hl : (BitVec.ofInt 64 t.low).toInt = t.low :=
    BitVec.toInt_ofInt_eq_self (by decide) (by omega) (by omega)
  have hh : (BitVec.ofInt 64 (t.low + 2 ^ t.bits - 1)).toInt = t.low + 2 ^ t.bits - 1 :=
    BitVec.toInt_ofInt_eq_self (by decide) (by omega) (by omega)
  unfold caseRange rangeOf
  rw [cmpLow_eq, cmpHigh_eq, if_pos hbits]
  simp only [i64Cmp_neg_iff, i64Cmp_pos_iff, hz, hl, hh]
  simp only [ofInt_inj_of_bounds (a := z) (b := t.low) ⟨hlow, hhigh⟩ (by omega),
    ofInt_inj_of_bounds (a := z) (b := t.low + 2 ^ t.bits - 1) ⟨hlow, hhigh⟩ (by omega)]

/-- In a type of 64 bits no constant is out of range. -/
theorem caseRange_eq_of_has (hbits : t.bits = 64) (hz : t.Has z) :
    caseRange t (BitVec.ofInt 64 z) = rangeOf t.low (t.low + 2 ^ t.bits - 1) z := by
  have hinj : ∀ {a}, t.Has a → (BitVec.ofInt 64 z = BitVec.ofInt 64 a ↔ z = a) := by
    intro a ha
    constructor
    · intro h
      have hnat := congrArg (fun b : BitVec 64 => (b.toNat : ℤ)) h
      simp only [BitVec.toNat_ofInt] at hnat
      refine TypeDef.eq_of_emod hz ha ?_
      rw [hbits]
      omega
    · rintro rfl
      rfl
  have hlow : t.Has t.low := ⟨le_rfl, by simp⟩
  have hhigh : t.Has (t.low + 2 ^ t.bits - 1) := ⟨by simp, by omega⟩
  have hnotlow : ¬ z < t.low := not_lt.2 hz.1
  have hnothigh : ¬ t.low + 2 ^ t.bits - 1 < z := by
    have := hz.2
    omega
  unfold caseRange rangeOf
  rw [cmpLow_eq, cmpHigh_eq, if_neg (by omega : ¬ t.bits < 64), if_neg hnotlow, if_neg hnothigh]
  simp only [hinj hlow, hinj hhigh]

/-- From 2^63 on the constant looks negative. -/
theorem caseRange_late (hbits : t.bits < 64) (hs : t.signed = false) (hlow : 2 ^ 63 ≤ z) (hhigh : z < 2 ^ 64) :
    caseRange t (BitVec.ofInt 64 z) = .low := by
  have hint : (BitVec.ofInt 64 z).toInt = z - 2 ^ 64 := by
    rw [BitVec.toInt_ofInt, Int.bmod_def]
    have : z % ((2 ^ 64 : ℕ) : ℤ) = z := Int.emod_eq_of_lt (by omega) (by omega)
    rw [this]
    split <;> omega
  obtain ⟨htlow, hthigh⟩ := low_bounds t hbits
  have hlow0 : t.low = 0 := if_neg (ne_true_of_eq_false hs)
  have hpow : (0 : ℤ) < 2 ^ t.bits := by positivity
  have hl : (BitVec.ofInt 64 t.low).toInt = t.low :=
    BitVec.toInt_ofInt_eq_self (by decide) (by omega) (by omega)
  have hh : (BitVec.ofInt 64 (t.low + 2 ^ t.bits - 1)).toInt = t.low + 2 ^ t.bits - 1 :=
    BitVec.toInt_ofInt_eq_self (by decide) (by omega) (by omega)
  unfold caseRange
  rw [cmpLow_eq, cmpHigh_eq, if_pos hbits, if_pos ((i64Cmp_neg_iff _ _).2 (by omega))]
  rw [if_neg (fun h => by have := congrArg BitVec.toInt h; omega),
    if_neg (fun h => by have := congrArg BitVec.toInt h; omega)]

theorem rangeOf_cases (low high z : ℤ) :
    (rangeOf low high z = .lowEq ∧ z = low) ∨ (rangeOf low high z = .highEq ∧ z = high) ∨
      (rangeOf low high z = .low ∧ z < low) ∨ (rangeOf low high z = .high ∧ high < z) ∨
      (rangeOf low high z = .size ∧ low ≤ z ∧ z ≤ high) := by
  unfold rangeOf
  split_ifs <;> simp <;> omega

/-- The answer of the table, for an operand from `low` to `high`. -/
theorem rangeAnswer_sound (op : RelOp) {low high x : ℤ} (hlow : low ≤ x) (hhigh : x ≤ high) :
    match rangeAnswer op (rangeOf low high z) with
    | .cmpVoid => low ≤ z ∧ z ≤ high
    | .cmpFalse => ¬ op.holds x z
    | .cmpTrue => op.holds x z := by
  obtain ⟨hr, h⟩ | ⟨hr, h⟩ | ⟨hr, h⟩ | ⟨hr, h⟩ | ⟨hr, h⟩ := rangeOf_cases low high z
  · rw [hr]
    cases op <;> simp [rangeAnswer, RelOp.toRel, cmpResult, CmpRes.flip, RelOp.holds] <;> omega
  · rw [hr]
    cases op <;> simp [rangeAnswer, RelOp.toRel, cmpResult, CmpRes.flip, RelOp.holds] <;> omega
  · rw [hr]
    cases op <;> simp [rangeAnswer, RelOp.toRel, cmpResult, CmpRes.flip, RelOp.holds] <;> omega
  · rw [hr]
    cases op <;> simp [rangeAnswer, RelOp.toRel, cmpResult, CmpRes.flip, RelOp.holds] <;> omega
  · rw [hr]
    exact h

end range

/-! ### Conversions under a comparison -/

/-- The attributes that `FindBase` compares; only the sign of an integer type counts. -/
def sameAttr (opEq : Bool) (child this : TypeDef) : Bool :=
  if opEq then true
  else if this.signed && child.bits < this.bits then true
  else child.signed == this.signed

/-- `FindBase`. -/
def findBase (opEq : Bool) : Tree → Tree
  | .convert left t =>
    if left.tipe.bits ≤ t.bits ∧ sameAttr opEq left.tipe t then findBase opEq left else .convert left t
  | e => e

theorem typeDef_ext {s t : TypeDef} (hbits : s.bits = t.bits) (hs : s.signed = t.signed) : s = t := by
  have hlength : ∀ a b : IntLength, a.bits = b.bits → a = b := by
    intro a b
    cases a <;> cases b <;> decide
  obtain ⟨sl, ss⟩ := s
  obtain ⟨tl, ts⟩ := t
  exact congrArg₂ TypeDef.mk (hlength sl tl hbits) hs

/-- The conversion keeps every value, where an ordering may drop it. -/
theorem has_of_sameAttr {s t : TypeDef} (hbits : s.bits ≤ t.bits) (hattr : sameAttr false s t = true) {z : ℤ}
    (hz : s.Has z) : t.Has z := by
  have htwos := s.two_pow_bits
  have htwot := t.two_pow_bits
  have hpow : (2 : ℤ) ^ (s.bits - 1) ≤ 2 ^ (t.bits - 1) := pow_le_pow_right₀ (by norm_num) (by omega)
  have hpos : (0 : ℤ) < 2 ^ (s.bits - 1) := by positivity
  have hstrict : s.bits < t.bits → (2 : ℤ) ^ s.bits ≤ 2 ^ (t.bits - 1) :=
    fun h => pow_le_pow_right₀ (by norm_num) (by omega)
  unfold sameAttr at hattr
  unfold TypeDef.Has TypeDef.low at *
  cases ht : t.signed with
  | false =>
      have hs : s.signed = false := by simpa [ht] using hattr
      simp only [hs, Bool.false_eq_true, if_false] at *
      omega
  | true =>
      by_cases hlt : s.bits < t.bits
      · have hwide := hstrict hlt
        cases hs : s.signed <;> simp only [hs, Bool.false_eq_true, if_false, if_true] at * <;> omega
      · have hs : s.signed = true := by simpa [ht, hlt] using hattr
        simp only [hs, if_true] at *
        omega

/-- The operand of the conversions that an ordering drops. -/
theorem findBase_false (e : Tree) :
    (findBase false e).eval = e.eval ∧ (findBase false e).tipe.bits ≤ e.tipe.bits ∧
      (e.tipe.signed = false → (findBase false e).tipe.signed = false) ∧
      ((findBase false e).tipe.bits = e.tipe.bits → (findBase false e).tipe = e.tipe) := by
  induction e with
  | convert left t ih =>
      unfold findBase
      split
      case isFalse => exact ⟨rfl, le_rfl, id, fun _ => rfl⟩
      case isTrue h =>
        obtain ⟨heval, hbits, hsign, htipe⟩ := ih
        have hattr := h.2
        refine ⟨?_, hbits.trans h.1, ?_, ?_⟩
        · rw [heval]
          exact (TypeDef.wrap_eq (has_of_sameAttr h.1 h.2 left.eval_has)).symm
        · intro ht
          refine hsign ?_
          have ht' : t.signed = false := ht
          simpa [sameAttr, ht'] using hattr
        · intro heq
          have hleft : left.tipe.bits = t.bits := le_antisymm h.1 (heq ▸ hbits)
          have hsigns : left.tipe.signed = t.signed := by simpa [sameAttr, hleft] using hattr
          rw [htipe (heq.trans hleft.symm)]
          exact typeDef_ext hleft hsigns
  | _ => exact ⟨rfl, le_rfl, id, fun _ => rfl⟩

/-- The width up to which the conversions above the base copy its top bit. -/
def signWidth : Tree → ℕ
  | .convert left t =>
    if left.tipe.bits ≤ t.bits then
      if left.tipe.signed ∧ signWidth left = left.tipe.bits then t.bits else signWidth left
    else t.bits
  | e => e.tipe.bits

/-- The top bit of a value of the type is set. -/
def TopBit (t : TypeDef) (z : ℤ) : Prop := 2 ^ (t.bits - 1) ≤ z % 2 ^ t.bits

/-- The bits of `p`, a value of `m` bits, with the top bit copied up to `w`. -/
def copyTop (m w : ℕ) (p : ℤ) : ℤ := if 2 ^ (m - 1) ≤ p then p + 2 ^ w - 2 ^ m else p

theorem copyTop_self (m : ℕ) (p : ℤ) : copyTop m m p = p := by
  unfold copyTop
  split <;> omega

/-- A conversion to a wider type copies the top bit of a signed one. -/
theorem wrap_emod_of_has {s t : TypeDef} (hbits : s.bits ≤ t.bits) {z : ℤ} (hz : s.Has z) :
    t.wrap z % 2 ^ t.bits =
      if s.signed ∧ 2 ^ (s.bits - 1) ≤ z % 2 ^ s.bits then z % 2 ^ s.bits + 2 ^ t.bits - 2 ^ s.bits
      else z % 2 ^ s.bits := by
  obtain ⟨hlow, hhigh⟩ := hz
  have htwo := s.two_pow_bits
  have hpow : (2 : ℤ) ^ s.bits ≤ 2 ^ t.bits := pow_le_pow_right₀ (by norm_num) hbits
  rw [t.wrap_emod]
  by_cases hneg : z < 0
  · -- only a signed type has it
    have hs : s.signed = true := by
      by_contra hs
      have hlow0 : s.low = 0 := if_neg hs
      omega
    have hlow0 : s.low = -2 ^ (s.bits - 1) := if_pos hs
    have hnarrow : z % 2 ^ s.bits = z + 2 ^ s.bits := by
      rw [← Int.add_emod_right, Int.emod_eq_of_lt (by omega) (by omega)]
    have hwide : z % 2 ^ t.bits = z + 2 ^ t.bits := by
      rw [← Int.add_emod_right, Int.emod_eq_of_lt (by omega) (by omega)]
    rw [hwide, hnarrow, if_pos ⟨hs, by omega⟩]
    omega
  · have hlt : z < 2 ^ s.bits := by
      have := s.low_nonpos
      omega
    rw [Int.emod_eq_of_lt (by omega) (by omega), Int.emod_eq_of_lt (by omega) hlt, if_neg]
    rintro ⟨hs, hge⟩
    have hlow0 : s.low = -2 ^ (s.bits - 1) := if_pos hs
    omega

/-- The bits of an operand: those of its base, and copies of the top bit. -/
theorem eval_emod (e : Tree) :
    (findBase true e).tipe.bits ≤ signWidth e ∧ signWidth e ≤ e.tipe.bits ∧
      e.eval % 2 ^ e.tipe.bits =
        copyTop (findBase true e).tipe.bits (signWidth e)
          ((findBase true e).eval % 2 ^ (findBase true e).tipe.bits) := by
  induction e with
  | convert left t ih =>
      unfold findBase signWidth
      by_cases hbits : left.tipe.bits ≤ t.bits
      · obtain ⟨hm, hw, heq⟩ := ih
        rw [if_pos ⟨hbits, rfl⟩, if_pos hbits]
        have heval := wrap_emod_of_has hbits left.eval_has
        rw [heq] at heval
        have hm0 := (findBase true left).tipe.bits_pos
        have hleft := left.tipe.two_pow_bits
        have hbase := (findBase true left).tipe.two_pow_bits
        generalize (findBase true left).tipe.bits = m at *
        generalize hp : (findBase true left).eval % 2 ^ m = p at *
        have hp0 : 0 ≤ p := hp ▸ Int.emod_nonneg _ (by positivity)
        have hplt : p < 2 ^ m := hp ▸ Int.emod_lt_of_pos _ (by positivity)
        have htop : (2 : ℤ) ^ (m - 1) ≤ 2 ^ (left.tipe.bits - 1) := pow_le_pow_right₀ (by norm_num) (by omega)
        by_cases hcopy : left.tipe.signed ∧ signWidth left = left.tipe.bits
        · -- the top bit of the base is that of the operand
          rw [if_pos hcopy]
          refine ⟨hm.trans (hw.trans hbits), le_rfl, heval.trans ?_⟩
          unfold copyTop
          rw [hcopy.2]
          by_cases hpm : 2 ^ (m - 1) ≤ p
          · rw [if_pos hpm, if_pos hpm, if_pos ⟨hcopy.1, by omega⟩]
            omega
          · rw [if_neg hpm, if_neg hpm, if_neg (fun h => by omega)]
        · rw [if_neg hcopy]
          refine ⟨hm, hw.trans hbits, heval.trans (if_neg ?_)⟩
          rintro ⟨hs, hge⟩
          have hlt : signWidth left < left.tipe.bits := lt_of_le_of_ne hw (fun h => hcopy ⟨hs, h⟩)
          have hpow : (2 : ℤ) ^ signWidth left ≤ 2 ^ (left.tipe.bits - 1) :=
            pow_le_pow_right₀ (by norm_num) (by omega)
          unfold copyTop at hge
          split at hge <;> omega
      · rw [if_neg (fun h => hbits h.1), if_neg hbits]
        exact ⟨le_rfl, le_rfl, (copyTop_self _ _).symm⟩
  | _ => exact ⟨le_rfl, le_rfl, (copyTop_self _ _).symm⟩

theorem copyTop_emod {m w : ℕ} (hm : m ≤ w) {p : ℤ} (h0 : 0 ≤ p) (hp : p < 2 ^ m) :
    copyTop m w p % 2 ^ m = p := by
  have hdvd : (2 : ℤ) ^ m ∣ 2 ^ w - 2 ^ m := (pow_dvd_pow 2 hm).sub (dvd_refl _)
  obtain ⟨k, hk⟩ := hdvd
  unfold copyTop
  split
  · rw [show p + 2 ^ w - 2 ^ m = p + 2 ^ m * k by linarith, Int.add_mul_emod_self_left, Int.emod_eq_of_lt h0 hp]
  · exact Int.emod_eq_of_lt h0 hp

/-- Operands converted from one type have one value if their bases have, and no top bit is copied to different
widths. -/
theorem eval_eq_iff {a b : Tree} (htipe : a.tipe = b.tipe)
    (hbase : (findBase true a).tipe = (findBase true b).tipe) :
    a.eval = b.eval ↔ (findBase true a).eval = (findBase true b).eval ∧
      ¬ (TopBit (findBase true a).tipe (findBase true a).eval ∧ signWidth a ≠ signWidth b) := by
  obtain ⟨hma, -, ha⟩ := eval_emod a
  obtain ⟨hmb, -, hb⟩ := eval_emod b
  have hahas := (findBase true a).eval_has
  have hbhas := (findBase true b).eval_has
  have hemod : a.eval = b.eval ↔ a.eval % 2 ^ a.tipe.bits = b.eval % 2 ^ b.tipe.bits := by
    rw [htipe]
    exact ⟨fun h => h ▸ rfl, TypeDef.eq_of_emod (htipe ▸ a.eval_has) b.eval_has⟩
  rw [hemod, ha, hb, ← hbase]
  rw [← hbase] at hmb hbhas
  unfold TopBit
  generalize (findBase true a).tipe = s at *
  generalize (findBase true a).eval = x at *
  generalize (findBase true b).eval = y at *
  have hx0 : 0 ≤ x % 2 ^ s.bits := Int.emod_nonneg _ (by positivity)
  have hy0 : 0 ≤ y % 2 ^ s.bits := Int.emod_nonneg _ (by positivity)
  have hxlt : x % 2 ^ s.bits < 2 ^ s.bits := Int.emod_lt_of_pos _ (by positivity)
  have hylt : y % 2 ^ s.bits < 2 ^ s.bits := Int.emod_lt_of_pos _ (by positivity)
  constructor
  · intro h
    have hlow := congrArg (· % 2 ^ s.bits) h
    simp only [copyTop_emod hma hx0 hxlt, copyTop_emod hmb hy0 hylt] at hlow
    refine ⟨TypeDef.eq_of_emod hahas hbhas hlow, ?_⟩
    rintro ⟨htop, hne⟩
    unfold copyTop at h
    rw [if_pos htop, if_pos (hlow ▸ htop), hlow] at h
    have hpow : (2 : ℤ) ^ signWidth a = 2 ^ signWidth b := by linarith
    exact hne (pow_right_injective₀ (by norm_num) (by norm_num) hpow)
  · rintro ⟨rfl, hwidth⟩
    unfold copyTop
    by_cases htop : 2 ^ (s.bits - 1) ≤ x % 2 ^ s.bits
    · rw [if_pos htop, if_pos htop, not_ne_iff.1 (fun hne => hwidth ⟨htop, hne⟩)]
    · rw [if_neg htop, if_neg htop]

/-! ### `FoldCompare` -/

/-- What a comparison is folded to. -/
inductive Compared where
  /-- A value that stands for the answer. -/
  | value (e : Tree)
  /-- `TN_COMPARE`. -/
  | compare (op : RelOp) (left rite : Tree)
  /-- `OP_BIT_TEST_TRUE` or `OP_BIT_TEST_FALSE` of the operands of an `O_AND`. -/
  | bitTest (set : Bool) (left rite : Tree) (tipe : TypeDef)
deriving DecidableEq, Repr

/-- Whether the comparison holds; it is made in the type of the left operand. -/
def Compared.Truth : Compared → Prop
  | value e => e.eval ≠ 0
  | compare op left rite => op.holds left.eval (left.tipe.wrap rite.eval)
  | bitTest set left rite t => BinOp.and.apply t left.eval rite.eval ≠ 0 ↔ set = true

def Tree.isBinary : Tree → Bool
  | binary _ _ _ _ => true
  | _ => false

/-- `IntToType( result, TypeInteger )`. -/
def truthConst (g : TreeTarget) (result : Bool) : Tree := consOf (if result then g.feTrue else 0) g.typeInteger

/-- Two constants. -/
def foldConsts (g : TreeTarget) (op : RelOp) (lv rv : CFloat) (tipe : TypeDef) : Compared :=
  .value (truthConst g (op.holds (cfCompare (cnvCFToType lv tipe) (cnvCFToType rv tipe)) 0))

/-- An operand and the constant `rite`. -/
def foldRange (g : TreeTarget) (op : RelOp) (left rite : Tree) (rv : CFloat) (tipe : TypeDef) :
    Option Compared :=
  let base := findBase false left
  let tipe := if base ≠ left then base.tipe else tipe
  match checkCmpRange op tipe rv with
  | .cmpTrue => some (.value (.comma left (truthConst g true)))
  | .cmpFalse => some (.value (.comma left (truthConst g false)))
  | .cmpVoid => if base ≠ left then some (.compare op base rite) else none

/-- The operand is the constant; equal constants have one name. -/
def sameConst (e : Tree) (rv : CFloat) : Bool :=
  match e with
  | .cons cf _ => cfCompare cf rv = 0
  | _ => false

/-- An operation `bop` and a constant. -/
def foldBitTest (op : RelOp) (bop : BinOp) (l r : Tree) (t : TypeDef) (rv : CFloat) (tipe : TypeDef) :
    Option Compared :=
  if bop ≠ .and then none
  else if op.isEq = false then none
  else
    let p := if l.isCons then (r, l) else (l, r)
    let bit := sameConst p.2 rv ∧ tipe.hasBigConst = false ∧ getLog2 (intValue rv) ≠ -1
    let op := if bit then (if op = .eq then .ne else .eq) else op
    let rv := if bit then cfCnvI32F 0 else rv
    if cfTest rv ≠ 0 then none
    else some (.bitTest (op ≠ .eq) p.1 p.2 t)

/-- Two operands that are not constant. -/
def foldBases (op : RelOp) (left rite : Tree) : Option Compared :=
  let baseR := findBase op.isEq rite
  let baseL := findBase op.isEq left
  if (baseR ≠ rite ∨ baseL ≠ left) ∧ baseR.tipe = baseL.tipe ∧ op.isEq then some (.compare op baseL baseR)
  else none

/-- `FoldCompare`, when a constant on the left has been exchanged with the other operand. -/
def foldOrdered (g : TreeTarget) (op : RelOp) (left rite : Tree) (tipe : TypeDef) : Option Compared :=
  match rite with
  | .cons rv _ =>
    match left with
    | .cons lv _ => some (foldConsts g op lv rv tipe)
    | .binary bop l r t => foldBitTest op bop l r t rv tipe
    | _ => foldRange g op left rite rv tipe
  | _ => foldBases op left rite

/-- `FoldCompare`. -/
def foldCompare (g : TreeTarget) (op : RelOp) (left rite : Tree) (tipe : TypeDef) : Option Compared :=
  if left.isCons then foldOrdered g op.rev rite left tipe else foldOrdered g op left rite tipe

/-- Every constant of the tree is an integer of its type. -/
def Tree.Wf : Tree → Prop
  | cons cf t => ∃ z, IsConst cf z ∧ t.Has z
  | leaf _ _ => True
  | bitRvalue _ _ _ _ _ => True
  | convert left _ => left.Wf
  | binary _ left rite _ => left.Wf ∧ rite.Wf
  | comma left rite => left.Wf ∧ rite.Wf

/-- A constant from 2^63 on, and an operand that is converted from a narrower type. -/
def HighConst (operand const : Tree) : Prop :=
  const.isCons = true ∧ 2 ^ 63 ≤ const.eval ∧ operand.isCons = false ∧ operand.isBinary = false ∧
    (findBase false operand).tipe.bits < 64

/-- Operands converted from one type and one value, whose top bit is copied to different widths. -/
def SignsDiffer (a b : Tree) : Prop :=
  a.isCons = false ∧ b.isCons = false ∧ (findBase true a).tipe = (findBase true b).tipe ∧
    (findBase true a).eval = (findBase true b).eval ∧ TopBit (findBase true a).tipe (findBase true a).eval ∧
    signWidth a ≠ signWidth b

theorem truthConst_eval (g : TreeTarget) (result : Bool) : (truthConst g result).eval ≠ 0 ↔ result = true := by
  unfold truthConst
  rw [eval_consOf]
  cases result with
  | true => exact iff_of_true g.feTrue_ne rfl
  | false =>
      refine iff_of_false (not_not.2 ?_) Bool.false_ne_true
      have hzero : g.typeInteger.Has 0 := g.typeInteger.has_small le_rfl (by decide)
      exact TypeDef.wrap_eq hzero

section fold

variable (g : TreeTarget) (op : RelOp) {left rite : Tree} {tipe : TypeDef} {lv rv : CFloat} {l z : ℤ}

theorem cfCompare_holds (hlv : IsConst lv l) (hrv : IsConst rv z) :
    op.holds (cfCompare lv rv) 0 ↔ op.holds l z := by
  have hspec := cfCompare_spec hlv.normal hrv.normal
  rw [hlv.val, hrv.val] at hspec
  norm_cast at hspec
  cases op <;> simp only [RelOp.holds] <;> omega

theorem foldConsts_truth (hlv : IsConst lv l) (hrv : IsConst rv z) (hl : tipe.Has l) (hz : tipe.Has z) :
    (foldConsts g op lv rv tipe).Truth ↔ op.holds l z := by
  have hlb := hl.bounds
  have hzb := hz.bounds
  have hlcnv := cnvCFToType_isConst hlv hlb.1 hlb.2 tipe
  have hrcnv := cnvCFToType_isConst hrv hzb.1 hzb.2 tipe
  rw [TypeDef.wrap_eq hl] at hlcnv
  rw [TypeDef.wrap_eq hz] at hrcnv
  refine (truthConst_eval g _).trans ?_
  rw [decide_eq_true_eq]
  exact cfCompare_holds op hlcnv hrcnv

/-- The case of the constant is found, except late. -/
theorem caseRange_base (hleft : left.tipe = tipe) (hz : tipe.Has z)
    (hlate : ¬ (2 ^ 63 ≤ z ∧ (findBase false left).tipe.bits < 64)) :
    caseRange (findBase false left).tipe (BitVec.ofInt 64 z) =
      rangeOf (findBase false left).tipe.low
        ((findBase false left).tipe.low + 2 ^ (findBase false left).tipe.bits - 1) z := by
  obtain ⟨-, hbits, -, htipe⟩ := findBase_false left
  by_cases h64 : (findBase false left).tipe.bits < 64
  · exact caseRange_eq _ h64 hz.bounds.1 (by omega)
  · have hle := left.tipe.bits_le
    have heq : (findBase false left).tipe = tipe := (htipe (by omega)).trans hleft
    exact caseRange_eq_of_has _ (by have := (findBase false left).tipe.bits_le; omega) (heq ▸ hz)

theorem foldRange_truth_iff (hleft : left.tipe = tipe) (hrv : IsConst rv z) (hz : tipe.Has z) :
    (∀ e ∈ foldRange g op left (.cons rv tipe) rv tipe, (e.Truth ↔ op.holds left.eval z)) ↔
      ¬ (op.isEq = false ∧ 2 ^ 63 ≤ z ∧ (findBase false left).tipe.bits < 64) := by
  obtain ⟨heval, hbits, hsign, htipe⟩ := findBase_false left
  have hzb := hz.bounds
  have hbasetipe : (if findBase false left ≠ left then (findBase false left).tipe else tipe) =
      (findBase false left).tipe := by
    split
    case isTrue => rfl
    case isFalse h => rw [not_ne_iff.1 h, hleft]
  have hx := (findBase false left).eval_has
  rw [heval] at hx
  unfold foldRange checkCmpRange
  dsimp only
  rw [hbasetipe, hrv.cfCnvF64_eq hzb.1 hzb.2]
  by_cases hlate : 2 ^ 63 ≤ z ∧ (findBase false left).tipe.bits < 64
  · -- the constant looks less than the operand
    have hs : tipe.signed = false := by
      by_contra hs
      have := (hz.bounds_signed (by simpa using hs)).2
      omega
    have hhigh := low_bounds _ hlate.2
    have hlt : left.eval < z := by
      have := hx.2
      omega
    rw [caseRange_late _ hlate.2 (hsign (hleft ▸ hs)) hlate.1 hzb.2]
    have htrue : (truthConst g true).eval ≠ 0 := (truthConst_eval g true).2 rfl
    have hfalse : (truthConst g false).eval = 0 :=
      not_ne_iff.1 (mt (truthConst_eval g false).1 Bool.false_ne_true)
    cases op <;>
      simp [rangeAnswer, RelOp.toRel, cmpResult, CmpRes.flip, Compared.Truth, Tree.eval, RelOp.holds, RelOp.isEq,
        htrue, hfalse, hlate.2] <;>
      omega
  · refine iff_of_true ?_ (fun h => hlate h.2)
    rw [caseRange_base hleft hz hlate]
    have hsound := rangeAnswer_sound (z := z) op hx.1 (by have := hx.2; omega :
      left.eval ≤ (findBase false left).tipe.low + 2 ^ (findBase false left).tipe.bits - 1)
    split
    case h_1 hanswer =>
      rw [hanswer] at hsound
      intro e he
      obtain rfl := Option.some_inj.1 he
      exact iff_of_true ((truthConst_eval g true).2 rfl) hsound
    case h_2 hanswer =>
      rw [hanswer] at hsound
      intro e he
      obtain rfl := Option.some_inj.1 he
      exact iff_of_false (mt (truthConst_eval g false).1 Bool.false_ne_true) hsound
    case h_3 hanswer =>
      rw [hanswer] at hsound
      intro e he
      split at he
      case isFalse => cases he
      case isTrue =>
        obtain rfl := Option.some_inj.1 he
        have hzbase : (findBase false left).tipe.Has z := ⟨hsound.1, by have := hsound.2; omega⟩
        rw [Compared.Truth, heval, eval_cons hrv, TypeDef.wrap_eq hz, TypeDef.wrap_eq hzbase]

/-- One bit of a value is the constant of the bit, or 0. -/
theorem and_apply_bit (hrv : IsConst rv z) (hz : tipe.Has z) (hbig : tipe.hasBigConst = false)
    (hlog : getLog2 (intValue rv) ≠ -1) (a : ℤ) :
    BinOp.and.apply tipe a z = z ↔ BinOp.and.apply tipe a z ≠ 0 := by
  obtain ⟨hbits, hlow, hhigh⟩ := hz.bounds_small hbig
  obtain ⟨j, hj, -, hval⟩ := getLog2_sound hlog
  rw [intValue_eq hrv hlow hhigh] at hval
  have hz0 : z ≠ 0 := by
    rintro rfl
    have hzero : (BitVec.ofInt 32 0).toNat = 0 := rfl
    have hpos := Nat.two_pow_pos j
    omega
  have hpow : BitVec.ofInt tipe.bits z = BitVec.twoPow tipe.bits j := by
    apply BitVec.eq_of_toNat_eq
    rw [← setWidth_ofInt hbits, BitVec.toNat_setWidth, hval, BitVec.toNat_twoPow]
  rw [BinOp.apply, hpow, BitVec.and_twoPow]
  split
  case isTrue =>
    have hone : intOf tipe.signed (BitVec.twoPow tipe.bits j) = z := hpow ▸ TypeDef.wrap_eq hz
    rw [hone]
    exact iff_of_true rfl hz0
  case isFalse =>
    have hnone : intOf tipe.signed (BitVec.ofNat tipe.bits 0) = 0 := by
      unfold intOf
      split <;> simp
    rw [hnone]
    exact iff_of_false hz0.symm (not_not.2 rfl)

theorem sameConst_eval {e : Tree} (hwf : e.Wf) (hrv : IsConst rv z) (h : sameConst e rv = true) :
    e.eval = z := by
  cases e with
  | cons cf s =>
      obtain ⟨z', hz', hs⟩ := hwf
      rw [eval_cons hz', TypeDef.wrap_eq hs]
      exact (cfCompare_holds .eq hz' hrv).1 (of_decide_eq_true h)
  | _ => cases h

theorem and_apply_comm (t : TypeDef) (a b : ℤ) : BinOp.and.apply t a b = BinOp.and.apply t b a := by
  rw [BinOp.apply, BinOp.apply, BitVec.and_comm]

theorem foldBitTest_truth {bop : BinOp} {a b : Tree} (ha : a.Wf) (hb : b.Wf) (hrv : IsConst rv z)
    (hz : tipe.Has z) :
    ∀ e ∈ foldBitTest op bop a b tipe rv tipe, (e.Truth ↔ op.holds (bop.apply tipe a.eval b.eval) z) := by
  intro e he
  unfold foldBitTest at he
  split at he
  case isTrue => cases he
  case isFalse hand =>
  obtain rfl := not_ne_iff.1 hand
  split at he
  case isTrue => cases he
  case isFalse hop =>
  dsimp only at he
  have hp : (if a.isCons then (b, a) else (a, b)).2.Wf ∧
      BinOp.and.apply tipe a.eval b.eval = BinOp.and.apply tipe (if a.isCons then (b, a) else (a, b)).1.eval
        (if a.isCons then (b, a) else (a, b)).2.eval := by
    split
    · exact ⟨ha, and_apply_comm ..⟩
    · exact ⟨hb, rfl⟩
  generalize (if a.isCons then (b, a) else (a, b)) = p at *
  obtain ⟨hwf, hcomm⟩ := hp
  rw [hcomm]
  by_cases hbit : sameConst p.2 rv = true ∧ tipe.hasBigConst = false ∧ getLog2 (intValue rv) ≠ -1
  · -- the bit is set if the value is not 0
    have heq := sameConst_eval hwf hrv hbit.1
    have happly := and_apply_bit hrv hz hbit.2.1 hbit.2.2 p.1.eval
    have hzero : cfTest (cfCnvI32F 0) = 0 := (cfCnvI32F_isConst 0).cfTest_zero.2 rfl
    rw [if_pos hbit, if_neg (not_not.2 hzero)] at he
    obtain rfl := Option.some_inj.1 he
    rw [Compared.Truth, heq, if_pos hbit]
    cases op with
    | eq => simp [RelOp.holds, happly]
    | ne => simp [RelOp.holds, happly]
    | _ => exact absurd rfl hop
  · rw [if_neg hbit, if_neg hbit] at he
    split at he
    case isTrue => cases he
    case isFalse htest =>
      have hz0 : z = 0 := hrv.cfTest_zero.1 (not_ne_iff.1 htest)
      obtain rfl := Option.some_inj.1 he
      rw [Compared.Truth, hz0]
      cases op with
      | eq => simp [RelOp.holds]
      | ne => simp [RelOp.holds]
      | _ => exact absurd rfl hop

theorem signWidth_of_base {a : Tree} (h : findBase true a = a) : signWidth a = a.tipe.bits := by
  obtain ⟨hm, hw, -⟩ := eval_emod a
  rw [h] at hm
  exact le_antisymm hw hm

theorem iff_and_not {p q : Prop} : (p ↔ p ∧ ¬ q) ↔ ¬ (p ∧ q) :=
  ⟨fun h hpq => (h.1 hpq.1).2 hpq.2, fun h => ⟨fun hp => ⟨hp, fun hq => h ⟨hp, hq⟩⟩, And.left⟩⟩

theorem foldBases_truth_iff (hleft : left.isCons = false) (hrite : rite.isCons = false)
    (htipe : left.tipe = rite.tipe) :
    (∀ e ∈ foldBases op left rite, (e.Truth ↔ op.holds left.eval rite.eval)) ↔
      ¬ (op.isEq = true ∧ SignsDiffer left rite) := by
  cases hop : op.isEq with
  | false =>
      refine iff_of_true ?_ (fun h => absurd h.1 Bool.false_ne_true)
      intro e he
      unfold foldBases at he
      rw [hop] at he
      dsimp only at he
      rw [if_neg (fun h => absurd h.2.2 Bool.false_ne_true)] at he
      cases he
  | true =>
  unfold foldBases
  rw [hop]
  dsimp only
  split
  case isTrue h =>
    have hbase := h.2.1.symm
    have hiff := eval_eq_iff htipe hbase
    have hwrap : (findBase true left).tipe.wrap (findBase true rite).eval = (findBase true rite).eval :=
      TypeDef.wrap_eq (hbase ▸ (findBase true rite).eval_has)
    have hdiffer : SignsDiffer left rite ↔ (findBase true left).eval = (findBase true rite).eval ∧
        TopBit (findBase true left).tipe (findBase true left).eval ∧ signWidth left ≠ signWidth rite :=
      ⟨fun hd => hd.2.2.2, fun hd => ⟨hleft, hrite, hbase, hd⟩⟩
    simp only [Option.mem_def, Option.some.injEq, forall_eq', Compared.Truth, hwrap, true_and, hdiffer]
    cases op with
    | eq =>
        simp only [RelOp.holds, hiff]
        exact iff_and_not
    | ne =>
        simp only [RelOp.holds, ne_eq, hiff]
        exact not_iff_not.trans iff_and_not
    | _ => cases hop
  case isFalse h =>
    refine iff_of_true (fun e he => by cases he) ?_
    rintro ⟨-, -, -, hbase, -, -, hwidth⟩
    have hnone : findBase true rite = rite ∧ findBase true left = left := by
      by_contra hsome
      exact h ⟨by tauto, hbase.symm, rfl⟩
    rw [signWidth_of_base hnone.1, signWidth_of_base hnone.2, htipe] at hwidth
    exact hwidth rfl

theorem foldOrdered_range (hcons : left.isCons = false) (hbinary : left.isBinary = false) (s : TypeDef) :
    foldOrdered g op left (.cons rv s) tipe = foldRange g op left (.cons rv s) rv tipe := by
  cases left with
  | cons => cases hcons
  | binary => cases hbinary
  | _ => rfl

theorem foldOrdered_bases (hrite : rite.isCons = false) :
    foldOrdered g op left rite tipe = foldBases op left rite := by
  cases rite with
  | cons => cases hrite
  | _ => rfl

theorem foldOrdered_truth_iff (hleft : left.tipe = tipe) (hrite : rite.tipe = tipe) (hlwf : left.Wf)
    (hrwf : rite.Wf) (hcons : left.isCons = true → rite.isCons = true) :
    (∀ e ∈ foldOrdered g op left rite tipe, (e.Truth ↔ op.holds left.eval rite.eval)) ↔
      ¬ (op.isEq = false ∧ HighConst left rite) ∧ ¬ (op.isEq = true ∧ SignsDiffer left rite) := by
  cases hr : rite.isCons with
  | false =>
      have hl : left.isCons = false := by
        by_contra hl
        exact absurd (hcons (by simpa using hl)) (ne_true_of_eq_false hr)
      have hnot : ¬ (op.isEq = false ∧ HighConst left rite) := fun h => by
        have := h.2.1
        rw [hr] at this
        cases this
      rw [foldOrdered_bases g op hr, foldBases_truth_iff op hl hr (hleft.trans hrite.symm)]
      exact (and_iff_right hnot).symm
  | true =>
      have hnot : ¬ (op.isEq = true ∧ SignsDiffer left rite) := fun h => by
        have := h.2.2.1
        rw [hr] at this
        cases this
      rw [and_iff_left hnot]
      cases rite with
      | cons rv s =>
          obtain rfl : s = tipe := hrite
          obtain ⟨z, hrv, hz⟩ := hrwf
          have heval : (Tree.cons rv s).eval = z := by rw [eval_cons hrv, TypeDef.wrap_eq hz]
          unfold HighConst
          rw [heval]
          cases hl : left.isCons with
          | true =>
              cases left with
              | cons lv s' =>
                  obtain rfl : s' = s := hleft
                  obtain ⟨l, hlv, hl⟩ := hlwf
                  refine iff_of_true ?_ (fun h => by cases h.2.2.2.1)
                  intro e he
                  obtain rfl := Option.some_inj.1 he
                  rw [eval_cons hlv, TypeDef.wrap_eq hl]
                  exact foldConsts_truth g op hlv hrv hl hz
              | _ => cases hl
          | false =>
          cases hb : left.isBinary with
          | true =>
              cases left with
              | binary bop a b t =>
                  obtain rfl : t = s := hleft
                  refine iff_of_true ?_ (fun h => by cases h.2.2.2.2.1)
                  exact foldBitTest_truth op hlwf.1 hlwf.2 hrv hz
              | _ => cases hb
          | false =>
              rw [foldOrdered_range g op hl hb, foldRange_truth_iff g op hleft hrv hz]
              simp [Tree.isCons]
      | _ => cases hr

/-- A comparison is folded to one with the same truth, exactly when it is not an ordering with a constant from 2^63
on of an operand converted from a narrower type, nor an equality of operands that are converted from one type and
value with the sign copied to different widths. -/
theorem foldCompare_truth_iff (hleft : left.tipe = tipe) (hrite : rite.tipe = tipe) (hlwf : left.Wf)
    (hrwf : rite.Wf) :
    (∀ e ∈ foldCompare g op left rite tipe, (e.Truth ↔ op.holds left.eval rite.eval)) ↔
      ¬ (op.isEq = false ∧ (HighConst left rite ∨ HighConst rite left)) ∧
        ¬ (op.isEq = true ∧ SignsDiffer left rite) := by
  unfold foldCompare
  cases hl : left.isCons with
  | true =>
      -- the operands are exchanged
      have hhigh : ¬ HighConst left rite := fun h => by
        have := h.2.2.1
        rw [hl] at this
        cases this
      have hdiffer : ∀ a, ¬ SignsDiffer left a ∧ ¬ SignsDiffer a left := fun a => by
        constructor
        · intro h
          exact absurd (hl.symm.trans h.1) (by decide)
        · intro h
          exact absurd (hl.symm.trans h.2.1) (by decide)
      have hiff := @foldOrdered_truth_iff g op.rev rite left tipe hrite hleft hrwf hlwf (fun _ => hl)
      rw [if_pos rfl]
      simp only [op.rev_holds, op.rev_isEq, (hdiffer rite).2] at hiff
      rw [hiff]
      simp only [hhigh, (hdiffer rite).1, false_or]
  | false =>
      have hhigh : ¬ HighConst rite left := fun h => absurd (hl.symm.trans h.1) (by decide)
      rw [if_neg Bool.false_ne_true]
      have hiff :=
        foldOrdered_truth_iff g op hleft hrite hlwf hrwf (fun h => absurd (hl.symm.trans h) (by decide))
      rw [hiff]
      simp only [hhigh, or_false]

/-- 2^63. -/
def highConst : CFloat := intToCF 0x8000000000000000#64 ⟨.eight, false⟩

theorem highConst_isConst : IsConst highConst (2 ^ 63) := by
  have h := intToCF_isConst 0x8000000000000000#64 ⟨.eight, false⟩
  have hvalue : (⟨.eight, false⟩ : TypeDef).wrap (0x8000000000000000#64).toInt = 2 ^ 63 := by decide
  rwa [hvalue] at h

/-- An unsigned value of 4 bytes that is compared with 2^63 in 8 bytes. -/
theorem not_truth_late : ¬ ∀ (g : TreeTarget) (op : RelOp) (left rite : Tree) (tipe : TypeDef),
    left.tipe = tipe → rite.tipe = tipe → left.Wf → rite.Wf →
      ∀ e ∈ foldCompare g op left rite tipe, (e.Truth ↔ op.holds left.eval rite.eval) := by
  intro hall
  have hhas : (⟨.eight, false⟩ : TypeDef).Has (2 ^ 63) := by decide
  have hwf : (Tree.cons highConst ⟨.eight, false⟩).Wf := ⟨_, highConst_isConst, hhas⟩
  have htruth := hall i86Target .lt (.convert (.leaf 5 ⟨.four, false⟩) ⟨.eight, false⟩)
    (.cons highConst ⟨.eight, false⟩) ⟨.eight, false⟩ rfl rfl trivial hwf
  have hiff := @foldOrdered_truth_iff i86Target .lt (.convert (.leaf 5 ⟨.four, false⟩) ⟨.eight, false⟩)
    (.cons highConst ⟨.eight, false⟩) ⟨.eight, false⟩ rfl rfl trivial hwf (fun h => by cases h)
  refine (hiff.1 htruth).1 ⟨rfl, rfl, ?_, rfl, rfl, by decide⟩
  rw [eval_cons highConst_isConst, TypeDef.wrap_eq hhas]

/-- A byte that is compared with 300 in 2 bytes. -/
theorem truth_byte : ∃ e, foldCompare i86Target .lt (.convert (.leaf 7 ⟨.one, false⟩) ⟨.two, true⟩)
    (.cons (cfCnvI32F 300) ⟨.two, true⟩) ⟨.two, true⟩ = some e ∧ e.Truth := by
  have hconst : IsConst (cfCnvI32F 300) 300 := cfCnvI32F_isConst _
  have hhas : (⟨.two, true⟩ : TypeDef).Has 300 := by decide
  have heval : (Tree.cons (cfCnvI32F 300) ⟨.two, true⟩).eval = 300 := by
    rw [eval_cons hconst, TypeDef.wrap_eq hhas]
  have hleft : (Tree.convert (.leaf 7 ⟨.one, false⟩) ⟨.two, true⟩).eval = 7 := by decide
  have hlate : ¬ (RelOp.lt.isEq = false ∧
      (HighConst (.convert (.leaf 7 ⟨.one, false⟩) ⟨.two, true⟩) (.cons (cfCnvI32F 300) ⟨.two, true⟩) ∨
        HighConst (.cons (cfCnvI32F 300) ⟨.two, true⟩) (.convert (.leaf 7 ⟨.one, false⟩) ⟨.two, true⟩))) := by
    rintro ⟨-, h | h⟩
    · exact absurd (heval ▸ h.2.1) (by decide)
    · cases h.1
  have hiff := @foldCompare_truth_iff i86Target .lt (.convert (.leaf 7 ⟨.one, false⟩) ⟨.two, true⟩)
    (.cons (cfCnvI32F 300) ⟨.two, true⟩) ⟨.two, true⟩ rfl rfl trivial ⟨300, hconst, hhas⟩
  have hcheck : checkCmpRange .lt ⟨.one, false⟩ (cfCnvI32F 300) = .cmpTrue := by
    unfold checkCmpRange
    rw [hconst.cfCnvF64_eq (by decide) (by decide)]
    decide
  have hbase : findBase false (.convert (.leaf 7 ⟨.one, false⟩) ⟨.two, true⟩) = .leaf 7 ⟨.one, false⟩ := rfl
  obtain ⟨e, he⟩ : ∃ e, foldRange i86Target .lt (.convert (.leaf 7 ⟨.one, false⟩) ⟨.two, true⟩)
      (.cons (cfCnvI32F 300) ⟨.two, true⟩) (cfCnvI32F 300) ⟨.two, true⟩ = some e := by
    unfold foldRange
    dsimp only
    rw [hbase, if_pos (by decide), Tree.tipe, hcheck]
    exact ⟨_, rfl⟩
  refine ⟨e, he, (hiff.2 ⟨hlate, fun h => by cases h.1⟩ e he).2 ?_⟩
  rw [heval, hleft]
  decide

end fold

end OpenWatcom.Cg
