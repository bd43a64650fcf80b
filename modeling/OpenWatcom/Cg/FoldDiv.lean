import OpenWatcom.Cg.Tree

/-! # Folding divisions

`FoldDiv` and `FoldMod` over the integer types.  Two constants are divided on the host; a division by a power of two
becomes a shift or a mask, and a signed remainder is taken of the absolute value. -/

namespace OpenWatcom.Cg

open Cfloat

/-! ### The host -/

/-- A division that the host does not define. -/
inductive HostFault where
  | divide
deriving DecidableEq, Repr

/-- `li / ri` of two `int_32`. -/
def hostDiv (li ri : BitVec 32) : Except HostFault (BitVec 32) :=
  if ri = 0 ∨ (li = BitVec.intMin 32 ∧ ri = -1) then .error .divide else .ok (li.sdiv ri)

/-- `li % ri` of two `int_32`. -/
def hostMod (li ri : BitVec 32) : Except HostFault (BitVec 32) :=
  if ri = 0 ∨ (li = BitVec.intMin 32 ∧ ri = -1) then .error .divide else .ok (li.srem ri)

/-- `U32ModDiv`: the quotient and the remainder. -/
def u32ModDiv (x y : BitVec 32) : Except HostFault (BitVec 32 × BitVec 32) :=
  if y = 0 then .error .divide else .ok (x / y, x % y)

/-- `I64Div` or `U64Div`. -/
def div64 (t : TypeDef) (li ri : BitVec 64) : Except HostFault (BitVec 64 × BitVec 64) :=
  match if t.signed then i64Div li ri else u64Div li ri with
  | some p => .ok p
  | none => .error .divide

/-! ### The folders -/

/-- What both folders do with a left operand that is the constant 0. -/
def foldZero (left rite zero : Tree) : Option Tree :=
  match left with
  | .cons lv _ => if cfTest lv = 0 then some (.comma rite zero) else none
  | _ => none

/-- `FoldDiv` of two constants, the divisor not 0. -/
def foldDivConst (lv rv : CFloat) (t : TypeDef) : Except HostFault (Option Tree) :=
  if t.hasBigConst then do
    let p ← div64 t (cfGetInteger64Value lv) (cfGetInteger64Value rv)
    return some (.cons (intToCF p.1 t) t)
  else if t.signed then
    if cfIsI32 lv && cfIsI32 rv then do
      let q ← hostDiv (cfConvertByType lv t) (cfConvertByType rv t)
      return some (consOf q t)
    else return none
  else
    if cfIsU32 lv && cfIsU32 rv then do
      let p ← u32ModDiv (cfCnvF32 lv) (cfCnvF32 rv)
      return some (consOf p.1 t)
    else return none

/-- `FoldDiv` of another operand by a constant. -/
def foldDivVar (g : TreeTarget) (left : Tree) (rv : CFloat) (t : TypeDef) : Option Tree :=
  if t.hasBigConst then none
  else if intValue rv = 1 then some (tgConvert left t)
  else if left.tipe.signed = false ∧ cfIsU32 rv then
    let log := getLog2 (intValue rv)
    if log ≠ -1 then some (tgBinary g .rshift left (consOf (BitVec.ofInt 32 log) g.typeInteger) t) else none
  else none

/-- `FoldDiv`. -/
def foldDiv (g : TreeTarget) (left rite : Tree) (t : TypeDef) : Except HostFault (Option Tree) :=
  match rite with
  | .cons rv _ =>
    match left with
    | .cons lv _ => if cfTest rv ≠ 0 then foldDivConst lv rv t else .ok (foldDivVar g left rv t)
    | _ => .ok (foldDivVar g left rv t)
  | _ => .ok (foldZero left rite (tgConvert left t))

/-- `FoldMod` of two constants, the divisor not 0. -/
def foldModConst (lv rv : CFloat) (t : TypeDef) : Except HostFault (Option Tree) :=
  if cfIs64 lv && cfIs64 rv then do
    let p ← div64 t (cfGetInteger64Value lv) (cfGetInteger64Value rv)
    return some (.cons (intToCF p.2 t) t)
  else if t.signed then
    if cfIsI32 lv && cfIsI32 rv then do
      let r ← hostMod (cfConvertByType lv t) (cfConvertByType rv t)
      return some (consOf r t)
    else return none
  else
    if cfIsU32 lv && cfIsU32 rv then do
      let p ← u32ModDiv (cfConvertByType lv t) (cfConvertByType rv t)
      return some (consOf p.2 t)
    else return none

/-- The remainder of the absolute value with the sign of the dividend, for the divisor `ri`. -/
def signedMod (g : TreeTarget) (left : Tree) (ri : BitVec 32) (t : TypeDef) : Tree :=
  let b := tgBinary g .rshift left (consOf 31 t) t
  let t1 := tgBinary g .minus (tgBinary g .xor left b t) b t
  let t2 := tgBinary g .and t1 (consOf (ri - 1) t) t
  tgBinary g .minus (tgBinary g .xor t2 b t) b t

/-- `FoldMod` of another operand by a constant; `optimize` says that neither `CGSW_GEN_NO_OPTIMIZATION` nor
`CGSW_GEN_DBG_LOCALS` is set. -/
def foldModVar (g : TreeTarget) (optimize : Bool) (left : Tree) (rv : CFloat) (t : TypeDef) : Option Tree :=
  if t.hasBigConst then none
  else if intValue rv = 1 then some (.comma left (.cons (cnvCFToType (cfCnvI32F 0) t) t))
  else if left.tipe.signed = false then
    if cfIsU32 rv then
      let ri := cfConvertByType rv t
      if getLog2 ri ≠ -1 then some (tgBinary g .and left (consOf (ri - 1) t) t) else none
    else none
  else if optimize && left.canDuplicate then
    let ri := cfConvertByType rv t
    let ri := if ri.slt 0 then -ri else ri
    if getLog2 ri ≠ -1 ∧ BitVec.slt 1 ri then some (signedMod g left ri t) else none
  else none

/-- `FoldMod`. -/
def foldMod (g : TreeTarget) (optimize : Bool) (left rite : Tree) (t : TypeDef) :
    Except HostFault (Option Tree) :=
  match rite with
  | .cons rv _ =>
    match left with
    | .cons lv _ => if cfTest rv ≠ 0 then foldModConst lv rv t else .ok (foldModVar g optimize left rv t)
    | _ => .ok (foldModVar g optimize left rv t)
  | _ => .ok (foldZero left rite (consOf 0 t))

/-- The two operators. -/
inductive DivOp where
  | div | mod
deriving DecidableEq, Repr

def DivOp.toBinOp : DivOp → BinOp
  | div => .div
  | mod => .mod

def DivOp.fold (g : TreeTarget) (optimize : Bool) :
    DivOp → Tree → Tree → TypeDef → Except HostFault (Option Tree)
  | div => foldDiv g
  | mod => foldMod g optimize

/-! ### Two constants -/

/-- The constants are folded to the value of the operation in the type. -/
def FoldsTo (r : Except HostFault (Option Tree)) (t : TypeDef) (z : ℤ) : Prop :=
  ∃ cf, r = .ok (some (.cons cf t)) ∧ IsConst cf z

section const

variable {t : TypeDef} {lv rv : CFloat} {l r : ℤ}

/-- Only the signed type of 4 bytes has the least 32-bit integer. -/
theorem four_of_has {t : TypeDef} {z : ℤ} (h : t.Has z) (hz : z = -2 ^ 31) (hbig : t.hasBigConst = false) :
    t = ⟨.four, true⟩ := by
  subst hz
  obtain ⟨hlow, -⟩ := h
  obtain ⟨length, signed⟩ := t
  cases signed with
  | false => cases length <;> exact absurd hlow (by decide)
  | true =>
      cases length with
      | one => exact absurd hlow (by decide)
      | two => exact absurd hlow (by decide)
      | four => rfl
      | eight => cases hbig

theorem ofInt_ne_zero {w : ℕ} {z : ℤ} (h0 : z ≠ 0) (hlow : -2 ^ w < z) (hhigh : z < 2 ^ w) :
    BitVec.ofInt w z ≠ 0 := by
  intro heq
  have hnat := congrArg BitVec.toNat heq
  have hpos : (0 : ℤ) < 2 ^ w := by positivity
  have hnonneg := Int.emod_nonneg z (ne_of_gt hpos)
  rw [BitVec.toNat_ofInt] at hnat
  push_cast at hnat
  have hmod : z % 2 ^ w = 0 := by
    have := Int.toNat_of_nonneg hnonneg
    simp at hnat
    omega
  obtain ⟨k, hk⟩ := Int.dvd_of_emod_eq_zero hmod
  rcases lt_trichotomy k 0 with hk0 | rfl | hk0
  · nlinarith
  · exact h0 (by simpa using hk)
  · nlinarith

/-- The 64 bits of two constants, divided in the signedness of the type. -/
theorem div64_spec (hl : t.Has l) (hr : t.Has r) (h0 : r ≠ 0) :
    ∃ q m, div64 t (BitVec.ofInt 64 l) (BitVec.ofInt 64 r) = .ok (q, m) ∧
      t.wrap q.toInt = t.wrap (l.tdiv r) ∧ t.wrap m.toInt = t.wrap (l.tmod r) := by
  have hlb := hl.bounds
  have hrb := hr.bounds
  have hne : BitVec.ofInt 64 r ≠ 0 := ofInt_ne_zero h0 (by omega) (by omega)
  unfold div64
  cases hs : t.signed with
  | true =>
      obtain ⟨hlow, hhigh⟩ := hl.bounds_signed hs
      obtain ⟨hrlow, hrhigh⟩ := hr.bounds_signed hs
      have hlint : (BitVec.ofInt 64 l).toInt = l := BitVec.toInt_ofInt_eq_self (by decide) (by omega) (by omega)
      have hrint : (BitVec.ofInt 64 r).toInt = r := BitVec.toInt_ofInt_eq_self (by decide) (by omega) (by omega)
      refine ⟨(BitVec.ofInt 64 l).sdiv (BitVec.ofInt 64 r), (BitVec.ofInt 64 l).srem (BitVec.ofInt 64 r),
        ?_, ?_, ?_⟩
      · rw [if_pos rfl, i64Div_spec _ hne]
      · rw [BitVec.toInt_sdiv, hlint, hrint, bmod_bits t _ t.bits_le]
      · rw [BitVec.toInt_srem, hlint, hrint]
  | false =>
      have hlpos := hl.nonneg hs
      have hrpos := hr.nonneg hs
      have hlnat : ((BitVec.ofInt 64 l).toNat : ℤ) = l := toNat_ofInt_of_bounds hlpos hlb.2
      have hrnat : ((BitVec.ofInt 64 r).toNat : ℤ) = r := toNat_ofInt_of_bounds hrpos hrb.2
      refine ⟨BitVec.ofInt 64 l / BitVec.ofInt 64 r, BitVec.ofInt 64 l % BitVec.ofInt 64 r, ?_, ?_, ?_⟩
      · rw [if_neg Bool.false_ne_true, u64Div_spec _ hne]
      · rw [wrap_toInt t t.bits_le, BitVec.toNat_udiv, Int.natCast_ediv, hlnat, hrnat,
          Int.tdiv_eq_ediv_of_nonneg hlpos]
      · rw [wrap_toInt t t.bits_le, BitVec.toNat_umod, Int.natCast_emod, hlnat, hrnat,
          Int.tmod_eq_emod_of_nonneg hlpos]

/-- `FoldDiv` of two constants of a type of fewer than 8 bytes, signed. -/
theorem foldDivConst_signed (hlv : IsConst lv l) (hrv : IsConst rv r) (hl : t.Has l) (hr : t.Has r)
    (h0 : r ≠ 0) (hbig : t.hasBigConst = false) (hs : t.signed = true) :
    foldDivConst lv rv t =
      if l = -2 ^ 31 ∧ r = -1 then .error .divide
      else .ok (some (consOf ((BitVec.ofInt 32 l).sdiv (BitVec.ofInt 32 r)) t)) := by
  obtain ⟨hllow, hlhigh⟩ := hl.bounds_small32 hbig hs
  obtain ⟨hrlow, hrhigh⟩ := hr.bounds_small32 hbig hs
  have hlint : (BitVec.ofInt 32 l).toInt = l := BitVec.toInt_ofInt_eq_self (by decide) (by omega) (by omega)
  have hrint : (BitVec.ofInt 32 r).toInt = r := BitVec.toInt_ofInt_eq_self (by decide) (by omega) (by omega)
  have hne : BitVec.ofInt 32 r ≠ 0 := ofInt_ne_zero h0 (by omega) (by omega)
  have hmin : BitVec.ofInt 32 l = BitVec.intMin 32 ↔ l = -2 ^ 31 := by
    rw [← BitVec.toInt_inj, hlint]
    exact Iff.rfl
  have hone : BitVec.ofInt 32 r = -1 ↔ r = -1 := by
    rw [← BitVec.toInt_inj, hrint]
    exact Iff.rfl
  have hli : cfConvertByType lv t = BitVec.ofInt 32 l := by
    rw [cfConvertByType_eq hlv (by omega) (by omega) hbig, TypeDef.wrap_eq hl]
  have hri : cfConvertByType rv t = BitVec.ofInt 32 r := by
    rw [cfConvertByType_eq hrv (by omega) (by omega) hbig, TypeDef.wrap_eq hr]
  have his : (cfIsI32 lv && cfIsI32 rv) = true := by
    rw [hlv.cfIsI32_iff.2 ⟨hllow, hlhigh⟩, hrv.cfIsI32_iff.2 ⟨hrlow, hrhigh⟩, Bool.and_true]
  unfold foldDivConst hostDiv
  rw [if_neg (ne_true_of_eq_false hbig), if_pos hs, if_pos his, hli, hri]
  by_cases hfault : l = -2 ^ 31 ∧ r = -1
  · rw [if_pos hfault, if_pos (Or.inr ⟨hmin.2 hfault.1, hone.2 hfault.2⟩)]
    rfl
  · rw [if_neg hfault, if_neg (by rw [hmin, hone]; tauto)]
    rfl

/-- `FoldDiv` of two constants of a type of fewer than 8 bytes, unsigned. -/
theorem foldDivConst_unsigned (hlv : IsConst lv l) (hrv : IsConst rv r) (hl : t.Has l) (hr : t.Has r)
    (h0 : r ≠ 0) (hbig : t.hasBigConst = false) (hs : t.signed = false) :
    foldDivConst lv rv t = .ok (some (consOf (BitVec.ofInt 32 l / BitVec.ofInt 32 r) t)) := by
  obtain ⟨hbits, hllow, hlhigh⟩ := hl.bounds_small hbig
  obtain ⟨-, hrlow, hrhigh⟩ := hr.bounds_small hbig
  have hlpos := hl.nonneg hs
  have hrpos := hr.nonneg hs
  have hne : BitVec.ofInt 32 r ≠ 0 := ofInt_ne_zero h0 (by omega) (by omega)
  have his : (cfIsU32 lv && cfIsU32 rv) = true := by
    rw [hlv.cfIsU32_iff.2 ⟨hlpos, hlhigh⟩, hrv.cfIsU32_iff.2 ⟨hrpos, hrhigh⟩, Bool.and_true]
  unfold foldDivConst u32ModDiv
  rw [if_neg (ne_true_of_eq_false hbig), if_neg (ne_true_of_eq_false hs), if_pos his,
    hlv.cfCnvF32_eq hllow hlhigh, hrv.cfCnvF32_eq hrlow hrhigh, if_neg hne]
  rfl

theorem foldsTo_consOf {value : BitVec 32} {z : ℤ} (h : t.wrap value.toInt = t.wrap z) :
    FoldsTo (.ok (some (consOf value t))) t (t.wrap z) :=
  ⟨_, rfl, h ▸ intToType_isConst value t⟩

/-- `FoldMod` always divides 64 bits. -/
theorem foldModConst_foldsTo (hlv : IsConst lv l) (hrv : IsConst rv r) (hl : t.Has l) (hr : t.Has r)
    (h0 : r ≠ 0) : FoldsTo (foldModConst lv rv t) t (t.wrap (l.tmod r)) := by
  have hlb := hl.bounds
  have hrb := hr.bounds
  obtain ⟨q, m, hdiv, -, hm⟩ := div64_spec hl hr h0
  have his : (cfIs64 lv && cfIs64 rv) = true := by
    rw [hlv.cfIs64_of hlb.1 hlb.2, hrv.cfIs64_of hrb.1 hrb.2, Bool.and_true]
  unfold foldModConst
  rw [if_pos his, hlv.cfGetInteger64Value_eq hlb.1 hlb.2, hrv.cfGetInteger64Value_eq hrb.1 hrb.2, hdiv]
  exact ⟨_, rfl, hm ▸ intToCF_isConst m t⟩

theorem foldDivConst_foldsTo_iff (hlv : IsConst lv l) (hrv : IsConst rv r) (hl : t.Has l) (hr : t.Has r)
    (h0 : r ≠ 0) :
    FoldsTo (foldDivConst lv rv t) t (t.wrap (l.tdiv r)) ↔
      ¬ (t = ⟨.four, true⟩ ∧ l = -2 ^ 31 ∧ r = -1) := by
  cases hbig : t.hasBigConst with
  | true =>
      -- 8 bytes: the quotient wraps
      have hlb := hl.bounds
      have hrb := hr.bounds
      obtain ⟨q, m, hdiv, hq, -⟩ := div64_spec hl hr h0
      refine iff_of_true ?_ ?_
      · unfold foldDivConst
        rw [if_pos hbig, hlv.cfGetInteger64Value_eq hlb.1 hlb.2, hrv.cfGetInteger64Value_eq hrb.1 hrb.2, hdiv]
        exact ⟨_, rfl, hq ▸ intToCF_isConst q t⟩
      · rintro ⟨rfl, -, -⟩
        cases hbig
  | false =>
      cases hs : t.signed with
      | false =>
          obtain ⟨hbits, -, -⟩ := hl.bounds_small hbig
          have hlb := hl.bounds_small hbig
          have hrb := hr.bounds_small hbig
          rw [foldDivConst_unsigned hlv hrv hl hr h0 hbig hs]
          refine iff_of_true (foldsTo_consOf ?_) ?_
          · rw [wrap_toInt t hbits, BitVec.toNat_udiv, Int.natCast_ediv,
              toNat_ofInt_of_bounds (hl.nonneg hs) hlb.2.2, toNat_ofInt_of_bounds (hr.nonneg hs) hrb.2.2,
              Int.tdiv_eq_ediv_of_nonneg (hl.nonneg hs)]
          · rintro ⟨rfl, -, -⟩
            cases hs
      | true =>
          obtain ⟨hbits, -, -⟩ := hl.bounds_small hbig
          have hlb := hl.bounds_small32 hbig hs
          have hrb := hr.bounds_small32 hbig hs
          rw [foldDivConst_signed hlv hrv hl hr h0 hbig hs]
          by_cases hfault : l = -2 ^ 31 ∧ r = -1
          · rw [if_pos hfault]
            refine iff_of_false ?_ (not_not.2 ⟨?_, hfault⟩)
            · rintro ⟨cf, hcf, -⟩
              cases hcf
            · -- no narrower type has the number
              exact four_of_has hl hfault.1 hbig
          · rw [if_neg hfault]
            refine iff_of_true (foldsTo_consOf ?_) (fun h => hfault h.2)
            rw [BitVec.toInt_sdiv, BitVec.toInt_ofInt_eq_self (by decide) (by omega) (by omega),
              BitVec.toInt_ofInt_eq_self (by decide) (by omega) (by omega), bmod_bits t _ hbits]

/-- Two constants of a type, the divisor not 0, are folded to the quotient or the remainder, exactly when they are
not the least 32-bit integer and -1 in `FoldDiv`. -/
theorem foldConst_right_iff (g : TreeTarget) (optimize : Bool) (op : DivOp) (hlv : IsConst lv l)
    (hrv : IsConst rv r) (hl : t.Has l) (hr : t.Has r) (h0 : r ≠ 0) :
    FoldsTo (op.fold g optimize (.cons lv t) (.cons rv t) t) t (op.toBinOp.apply t l r) ↔
      ¬ (op = .div ∧ t = ⟨.four, true⟩ ∧ l = -2 ^ 31 ∧ r = -1) := by
  have htest : cfTest rv ≠ 0 := mt hrv.cfTest_zero.1 h0
  cases op with
  | div =>
      unfold DivOp.fold foldDiv
      dsimp only
      rw [if_pos htest]
      refine (foldDivConst_foldsTo_iff hlv hrv hl hr h0).trans ?_
      simp only [true_and]
  | mod =>
      unfold DivOp.fold foldMod
      dsimp only
      rw [if_pos htest]
      exact iff_of_true (foldModConst_foldsTo hlv hrv hl hr h0) (fun h => by cases h.1)

/-- -2147483648 divided by -1. -/
theorem not_foldsTo_least : ¬ ∀ (g : TreeTarget) (optimize : Bool) (op : DivOp) (t : TypeDef) (lv rv : CFloat)
    (l r : ℤ), IsConst lv l → IsConst rv r → t.Has l → t.Has r → r ≠ 0 →
      FoldsTo (op.fold g optimize (.cons lv t) (.cons rv t) t) t (op.toBinOp.apply t l r) := by
  intro hall
  have hl : (⟨.four, true⟩ : TypeDef).Has (-2147483648) := by decide
  have hr : (⟨.four, true⟩ : TypeDef).Has (-1) := by decide
  have hlv : IsConst (cfCnvI32F (-2147483648)) (-2147483648) := cfCnvI32F_isConst _
  have hrv : IsConst (cfCnvI32F (-1)) (-1) := cfCnvI32F_isConst _
  obtain ⟨cf, hcf, -⟩ := hall i86Target true .div _ _ _ _ _ hlv hrv hl hr (by decide)
  have hfault := foldDivConst_signed hlv hrv hl hr (by decide) rfl rfl
  rw [if_pos ⟨rfl, rfl⟩] at hfault
  have htest : cfTest (cfCnvI32F (-1)) ≠ 0 := mt hrv.cfTest_zero.1 (by decide)
  unfold DivOp.fold foldDiv at hcf
  dsimp only at hcf
  rw [if_pos htest, hfault] at hcf
  cases hcf

/-- The quotient of -7 and 2. -/
theorem foldConst_minus_seven :
    FoldsTo (foldDiv i86Target (.cons (cfCnvI32F (-7)) ⟨.four, true⟩)
      (.cons (cfCnvI32F 2) ⟨.four, true⟩) ⟨.four, true⟩) ⟨.four, true⟩ (-3) := by
  have hvalue : DivOp.div.toBinOp.apply ⟨.four, true⟩ (-7) 2 = -3 := by decide
  have hlv : IsConst (cfCnvI32F (-7)) (-7) := cfCnvI32F_isConst _
  have hrv : IsConst (cfCnvI32F 2) 2 := cfCnvI32F_isConst _
  rw [← hvalue]
  exact (foldConst_right_iff i86Target true .div (t := ⟨.four, true⟩) hlv hrv (by decide) (by decide)
    (by decide)).2 (by decide)

end const

/-! ### A constant divisor -/

section mask

variable (t : TypeDef)

/-- A mask of the low bits is the remainder of a power of two below the sign. -/
theorem and_apply_mask (a : ℤ) {j : ℕ} (hj : j < t.bits) : BinOp.and.apply t a (2 ^ j - 1) = a % 2 ^ j := by
  have hpow : (2 : ℕ) ^ j ≤ 2 ^ (t.bits - 1) := Nat.pow_le_pow_right (by norm_num) (by omega)
  have htwo : (2 : ℕ) ^ t.bits = 2 * 2 ^ (t.bits - 1) := by
    rw [← pow_succ']
    congr 1
    omega
  have hone : 1 ≤ 2 ^ j := Nat.one_le_two_pow
  have hmask : (BitVec.ofInt t.bits (2 ^ j - 1)).toNat = 2 ^ j - 1 := by
    have hcast : ((2 ^ j - 1 : ℕ) : ℤ) = 2 ^ j - 1 := by push_cast [hone]; rfl
    rw [← hcast, BitVec.ofInt_natCast, BitVec.toNat_ofNat]
    exact Nat.mod_eq_of_lt (by omega)
  have hdvd : (2 : ℤ) ^ j ∣ 2 ^ t.bits := pow_dvd_pow 2 (by omega)
  have hnat : (((BitVec.ofInt t.bits a &&& BitVec.ofInt t.bits (2 ^ j - 1)).toNat : ℕ) : ℤ) = a % 2 ^ j := by
    rw [BitVec.toNat_and, hmask, Nat.and_two_pow_sub_one_eq_mod, BitVec.toNat_ofInt]
    push_cast
    rw [Int.toNat_of_nonneg (Int.emod_nonneg a (by positivity)), Int.emod_emod_of_dvd a hdvd]
  have hlt : a % 2 ^ j < 2 ^ j := Int.emod_lt_of_pos a (by positivity)
  rw [BinOp.apply, intOf]
  split
  case isTrue =>
    rw [BitVec.toInt_eq_toNat_of_lt (by zify at hpow htwo ⊢; omega)]
    exact hnat
  case isFalse => exact hnat

theorem xor_apply_zero {a : ℤ} (ha : t.Has a) : BinOp.xor.apply t a 0 = a := by
  have hzero : BitVec.ofInt t.bits 0 = BitVec.ofNat t.bits 0 := by simp
  rw [BinOp.apply, hzero, BitVec.xor_zero]
  exact TypeDef.wrap_eq ha

theorem xor_apply_neg_one (a : ℤ) : BinOp.xor.apply t a (-1) = t.wrap (-1 - a) := by
  have hones : BitVec.ofInt t.bits (-1) = BitVec.allOnes t.bits := by
    rw [BitVec.ofInt_neg]
    exact BitVec.neg_one_eq_allOnes
  have hnot : BitVec.ofInt t.bits (-1 - a) = ~~~ BitVec.ofInt t.bits a := by
    rw [BitVec.not_eq_neg_add, show -1 - a = -a + -1 from by ring, BitVec.ofInt_add, BitVec.ofInt_neg,
      BitVec.sub_eq_add_neg]
    congr 1
    rw [BitVec.ofInt_neg]
    rfl
  rw [BinOp.apply, hones, BitVec.xor_allOnes, ← hnot]
  rfl

end mask

section var

variable (g : TreeTarget) {left e b : Tree} (t : TypeDef)

/-- `(e ^ b) - b` negates where `b` is -1. -/
theorem xor_minus_eval (he : e.isCons = false) (hb : b.isCons = false) (hbt : b.tipe = t) {s : ℤ}
    (hs : b.eval = if s < 0 then -1 else 0) :
    (tgBinary g .minus (tgBinary g .xor e b t) b t).eval = t.wrap (if s < 0 then -e.eval else e.eval) := by
  have hbhas : t.Has b.eval := hbt ▸ b.eval_has
  have hx : (tgBinary g .xor e b t).eval = BinOp.xor.apply t (t.wrap e.eval) b.eval := by
    rw [tgBinary_xor, Tree.eval, tgConvert_eval (Tree.operand_of_isCons he),
      tgConvert_eval (Tree.operand_of_isCons hb), TypeDef.wrap_eq hbhas]
  have hxcons : (tgBinary g .xor e b t).isCons = false := rfl
  rw [tgBinary_minus, Tree.eval, tgConvert_eval (Tree.operand_of_isCons hxcons),
    tgConvert_eval (Tree.operand_of_isCons hb), hx, TypeDef.wrap_eq hbhas,
    TypeDef.wrap_eq (BinOp.xor.apply_has t _ _), BinOp.apply]
  rw [hs]
  split
  case isTrue =>
    rw [xor_apply_neg_one]
    refine t.wrap_congr ?_
    rw [Int.sub_emod, t.wrap_emod, ← Int.sub_emod,
      show (-1 - t.wrap e.eval - -1) = 0 - t.wrap e.eval from by ring, Int.sub_emod, t.wrap_emod, ← Int.sub_emod, zero_sub]
  case isFalse => rw [xor_apply_zero t (t.wrap_has _), sub_zero, t.wrap_wrap]

/-- A shift by 31 leaves the sign. -/
theorem shiftRight_31 {a : ℤ} (hlow : -2 ^ 31 ≤ a) (hhigh : a < 2 ^ 31) :
    a >>> (31 : ℕ) = if a < 0 then -1 else 0 := by
  rw [Int.shiftRight_eq_div_pow]
  split <;> omega

theorem tgBinary_mask_eval (hleft : left.isCons = false) {j : ℕ} (hj : j < t.bits) (hj32 : j < 32) :
    (tgBinary g .and left (consOf (BitVec.ofNat 32 (2 ^ j) - 1) t) t).eval = left.eval % 2 ^ j := by
  have hpow : (2 : ℕ) ^ j ≤ 2 ^ 31 := Nat.pow_le_pow_right (by norm_num) (by omega)
  have hone : 1 ≤ 2 ^ j := Nat.one_le_two_pow
  have hdvd : (2 : ℤ) ^ j ∣ 2 ^ t.bits := pow_dvd_pow 2 (by omega)
  have hmask : (BitVec.ofNat 32 (2 ^ j) - 1).toInt = 2 ^ j - 1 := by
    have heq : BitVec.ofNat 32 (2 ^ j) - 1 = BitVec.ofNat 32 (2 ^ j - 1) := by
      apply BitVec.eq_of_toNat_eq
      rw [BitVec.toNat_sub]
      simp only [BitVec.toNat_ofNat]
      have : (1 : BitVec 32).toNat = 1 := rfl
      omega
    rw [heq, BitVec.toInt_eq_toNat_of_lt (by rw [BitVec.toNat_ofNat]; omega), BitVec.toNat_ofNat,
      Nat.mod_eq_of_lt (by omega)]
    push_cast [hone]
    rfl
  have hhas : t.Has (2 ^ j - 1) := by
    have hpowbits : (2 : ℤ) ^ j ≤ 2 ^ (t.bits - 1) := pow_le_pow_right₀ (by norm_num) (by omega)
    have htwo := t.two_pow_bits
    have hpos : (0 : ℤ) < 2 ^ j := by positivity
    unfold TypeDef.Has TypeDef.low
    split <;> omega
  rw [tgBinary_and_eval g t hleft, hmask, TypeDef.wrap_eq hhas, and_apply_mask t _ hj,
    ← Int.emod_emod_of_dvd _ hdvd, t.wrap_emod, Int.emod_emod_of_dvd _ hdvd]

/-- The remainder of the absolute value, with the sign of the dividend. -/
theorem signedMod_eval (hleft : left.isCons = false) (hlt : left.tipe = t) (hbig : t.hasBigConst = false)
    (hs : t.signed = true) {j : ℕ} (hj : j < t.bits) :
    (signedMod g left (BitVec.ofNat 32 (2 ^ j)) t).eval = t.wrap (left.eval.tmod (2 ^ j)) := by
  have hlefthas : t.Has left.eval := hlt ▸ left.eval_has
  obtain ⟨hlow, hhigh⟩ := hlefthas.bounds_small32 hbig hs
  obtain ⟨hbits, -, -⟩ := hlefthas.bounds_small hbig
  obtain ⟨hbcons, hbt⟩ := tgBinary_rshift_shape g t hleft (consOf 31 t)
  have hb : (tgBinary g .rshift left (consOf 31 t) t).eval = if left.eval < 0 then -1 else 0 := by
    rw [← shiftRight_31 hlow hhigh, ← TypeDef.wrap_eq hlefthas]
    exact (tgBinary_rshift_eval g t hleft (n := 31) (by norm_num) t)
  have ht1 := xor_minus_eval g t hleft hbcons hbt hb
  have ht1cons : (tgBinary g .minus (tgBinary g .xor left (tgBinary g .rshift left (consOf 31 t) t) t)
    (tgBinary g .rshift left (consOf 31 t) t) t).isCons = false := rfl
  have ht2 := tgBinary_mask_eval g t ht1cons hj (by omega)
  obtain ⟨ht2cons, -⟩ := tgBinary_and_shape g t ht1cons (consOf (BitVec.ofNat 32 (2 ^ j) - 1) t)
  have hdvd : (2 : ℤ) ^ j ∣ 2 ^ t.bits := pow_dvd_pow 2 (by omega)
  refine (xor_minus_eval g t ht2cons hbcons hbt hb).trans ?_
  rw [ht2, ht1, ← Int.emod_emod_of_dvd _ hdvd, t.wrap_emod, Int.emod_emod_of_dvd _ hdvd]
  split
  case isTrue hneg => rw [← Int.tmod_eq_emod_of_nonneg (by omega), Int.neg_tmod, neg_neg]
  case isFalse hneg => rw [Int.tmod_eq_emod_of_nonneg (by omega)]

/-- A power of two among the values of a type is below the sign bit, or the sign bit itself. -/
theorem exponent_lt {j : ℕ} (h : t.Has (2 ^ j)) : j < t.bits := by
  have htwo := t.two_pow_bits
  have hlow := t.low_nonpos
  by_contra hge
  have hpow : (2 : ℤ) ^ t.bits ≤ 2 ^ j := pow_le_pow_right₀ (by norm_num) (by omega)
  have := h.2
  omega

variable {rv : CFloat} {c : ℤ}

theorem eq_one_of_ofInt (hlow : -2 ^ 31 ≤ c) (hhigh : c < 2 ^ 32) (h : BitVec.ofInt 32 c = 1) : c = 1 := by
  have hnat := congrArg BitVec.toNat h
  rw [BitVec.toNat_ofInt] at hnat
  have : (1 : BitVec 32).toNat = 1 := rfl
  omega

/-- The magnitude of a signed divisor, as `FoldMod` accepts it. -/
theorem magnitude_pow (hlow : -2 ^ 31 ≤ c) (hhigh : c < 2 ^ 31) {ri : BitVec 32}
    (hri : ri = if (BitVec.ofInt 32 c).slt 0 then -BitVec.ofInt 32 c else BitVec.ofInt 32 c)
    (hlog : getLog2 ri ≠ -1) (hgt : BitVec.slt 1 ri) :
    ∃ j < 31, ri = BitVec.ofNat 32 (2 ^ j) ∧ (c = 2 ^ j ∨ c = -2 ^ j) := by
  have hcint : (BitVec.ofInt 32 c).toInt = c := BitVec.toInt_ofInt_eq_self (by decide) (by omega) (by omega)
  obtain ⟨j, hj, -, hval⟩ := getLog2_sound hlog
  have hrieq : ri = BitVec.ofNat 32 (2 ^ j) := by rw [← hval, BitVec.ofNat_toNat, BitVec.setWidth_eq]
  have hpos : 1 < ri.toInt := by
    have := BitVec.slt_iff_toInt_lt.1 hgt
    exact this
  have hj31 : j < 31 := by
    by_contra hge
    obtain rfl : j = 31 := by omega
    rw [hrieq] at hpos
    exact absurd hpos (by decide)
  have hpow : (2 : ℕ) ^ j ≤ 2 ^ 30 := Nat.pow_le_pow_right (by norm_num) (by omega)
  have hriint : ri.toInt = 2 ^ j := by
    rw [BitVec.toInt_eq_toNat_of_lt (by omega), hval]
    push_cast
    rfl
  refine ⟨j, hj31, hrieq, ?_⟩
  split at hri
  case isTrue =>
    refine Or.inr ?_
    have hneg : BitVec.ofInt 32 c = -ri := by rw [hri, neg_neg]
    rw [← hcint, hneg, BitVec.toInt_neg, hriint]
    have hpow' : (2 : ℤ) ^ j ≤ 2 ^ 30 := pow_le_pow_right₀ (by norm_num) (by omega)
    have hpos' : (0 : ℤ) < 2 ^ j := by positivity
    exact Int.bmod_eq_of_le (by omega) (by omega)
  case isFalse => exact Or.inl (by rw [← hcint, ← hri, hriint])

theorem foldDivVar_eval (hleft : left.isCons = false) (hlt : left.tipe = t) (hrv : IsConst rv c)
    (hc : t.Has c) : ∀ e ∈ foldDivVar g left rv t, e.eval = t.wrap (left.eval.tdiv c) := by
  have hlefthas : t.Has left.eval := hlt ▸ left.eval_has
  intro e he
  cases hbig : t.hasBigConst with
  | true =>
      unfold foldDivVar at he
      rw [if_pos hbig] at he
      cases he
  | false =>
  obtain ⟨hbits, hclow, hchigh⟩ := hc.bounds_small hbig
  have hvalue := intValue_eq hrv hclow hchigh
  unfold foldDivVar at he
  rw [if_neg (ne_true_of_eq_false hbig), hvalue] at he
  split at he
  case isTrue h1 =>
    -- the divisor 1
    have hc1 := eq_one_of_ofInt hclow hchigh h1
    obtain rfl := Option.some_inj.1 he
    rw [tgConvert_eval (Tree.operand_of_isCons hleft), hc1, Int.tdiv_one]
  case isFalse =>
    rw [hlt] at he
    split at he
    case isFalse => cases he
    case isTrue hcond =>
    have hc0 := hc.nonneg hcond.1
    have hl0 := hlefthas.nonneg hcond.1
    dsimp only at he
    split at he
    case isFalse => cases he
    case isTrue hlog =>
      obtain ⟨j, hj, hlogeq, hval⟩ := getLog2_sound hlog
      have hcj : c = 2 ^ j := by
        rw [← toNat_ofInt_of_bounds hc0 hchigh, hval]
        push_cast
        rfl
      obtain rfl := Option.some_inj.1 he
      rw [hlogeq, BitVec.ofInt_natCast, tgBinary_rshift_eval g t hleft hj, TypeDef.wrap_eq hlefthas,
        Int.shiftRight_eq_div_pow, hcj, Int.tdiv_eq_ediv_of_nonneg hl0]
      push_cast
      have hhas := hlefthas.shiftRight j
      rw [Int.shiftRight_eq_div_pow] at hhas
      push_cast at hhas
      rw [TypeDef.wrap_eq hhas]

theorem foldModVar_eval (optimize : Bool) (hleft : left.isCons = false) (hlt : left.tipe = t)
    (hrv : IsConst rv c) (hc : t.Has c) :
    ∀ e ∈ foldModVar g optimize left rv t, e.eval = t.wrap (left.eval.tmod c) := by
  have hlefthas : t.Has left.eval := hlt ▸ left.eval_has
  intro e he
  cases hbig : t.hasBigConst with
  | true =>
      unfold foldModVar at he
      rw [if_pos hbig] at he
      cases he
  | false =>
  obtain ⟨hbits, hclow, hchigh⟩ := hc.bounds_small hbig
  have hvalue := intValue_eq hrv hclow hchigh
  have hri : cfConvertByType rv t = BitVec.ofInt 32 c := by
    rw [cfConvertByType_eq hrv hclow hchigh hbig, TypeDef.wrap_eq hc]
  unfold foldModVar at he
  rw [if_neg (ne_true_of_eq_false hbig), hvalue, hlt, hri] at he
  dsimp only at he
  split at he
  case isTrue h1 =>
    have hc1 := eq_one_of_ofInt hclow hchigh h1
    obtain rfl := Option.some_inj.1 he
    have hzero := cnvCFToType_isConst (cfCnvI32F_isConst 0) (by decide) (by decide) t
    rw [Tree.eval, eval_cons hzero, t.wrap_wrap, hc1, Int.tmod_one]
    rfl
  case isFalse =>
    split at he
    case isTrue hs =>
      have hc0 := hc.nonneg hs
      have hl0 := hlefthas.nonneg hs
      split at he
      case isFalse => cases he
      case isTrue =>
      split at he
      case isFalse => cases he
      case isTrue hlog =>
        obtain ⟨j, hj, -, hval⟩ := getLog2_sound hlog
        have hcj : c = 2 ^ j := by
          rw [← toNat_ofInt_of_bounds hc0 hchigh, hval]
          push_cast
          rfl
        have hmask : BitVec.ofInt 32 c = BitVec.ofNat 32 (2 ^ j) := by
          rw [← hval, BitVec.ofNat_toNat, BitVec.setWidth_eq]
        obtain rfl := Option.some_inj.1 he
        rw [hmask, tgBinary_mask_eval g t hleft (exponent_lt t (hcj ▸ hc)) hj, hcj,
          Int.tmod_eq_emod_of_nonneg hl0, TypeDef.wrap_eq]
        exact ⟨t.low_nonpos.trans (Int.emod_nonneg _ (by positivity)),
          (Int.emod_lt_of_pos _ (by positivity)).trans (hcj ▸ hc).2⟩
    case isFalse hs =>
      have hs' : t.signed = true := by simpa using hs
      obtain ⟨hslow, hshigh⟩ := hc.bounds_small32 hbig hs'
      split at he
      case isFalse => cases he
      case isTrue =>
      generalize hrieq :
        (if (BitVec.ofInt 32 c).slt 0 = true then -BitVec.ofInt 32 c else BitVec.ofInt 32 c) = ri at he
      split at he
      case isFalse => cases he
      case isTrue hcond =>
        obtain ⟨j, hj, hrival, hcj⟩ := magnitude_pow hslow hshigh hrieq.symm hcond.1 hcond.2
        have hjbits : j < t.bits := by
          have htwo := t.two_pow_bits
          have hlow : t.low = -2 ^ (t.bits - 1) := if_pos hs'
          by_contra hge
          have hpow : (2 : ℤ) ^ t.bits ≤ 2 ^ j := pow_le_pow_right₀ (by norm_num) (by omega)
          obtain ⟨hclow', hchigh'⟩ := hc
          omega
        obtain rfl := Option.some_inj.1 he
        rw [hrival, signedMod_eval g t hleft hlt hbig hs' hjbits]
        rcases hcj with rfl | rfl
        · rfl
        · rw [Int.tmod_neg]

theorem foldDiv_of_isCons (hleft : left.isCons = false) (rv : CFloat) (s : TypeDef) :
    foldDiv g left (.cons rv s) t = .ok (foldDivVar g left rv t) := by
  cases left with
  | cons => cases hleft
  | _ => rfl

theorem foldMod_of_isCons (optimize : Bool) (hleft : left.isCons = false) (rv : CFloat) (s : TypeDef) :
    foldMod g optimize left (.cons rv s) t = .ok (foldModVar g optimize left rv t) := by
  cases left with
  | cons => cases hleft
  | _ => rfl

/-- The tree for an operand that is not constant and a constant divisor has the value of the operation in the type,
of operands of any types. -/
theorem foldVar_eval (op : DivOp) (optimize : Bool) (hleft : left.isCons = false) {s : TypeDef}
    (hrv : IsConst rv c) (hc : s.Has c) :
    ∃ r, op.fold g optimize (binResult g op.toBinOp left (.cons rv s) t).1
        (binResult g op.toBinOp left (.cons rv s) t).2 t = .ok r ∧
      ∀ e ∈ r, e.eval = op.toBinOp.apply t (t.wrap left.eval) (t.wrap c) := by
  obtain ⟨cf, hcf, hconst⟩ := tgConvert_cons hrv hc t
  have hcons := tgConvert_isCons hleft t
  have htipe := tgConvert_tipe left t
  have heval := tgConvert_eval (Tree.operand_of_isCons hleft) t
  cases op with
  | div =>
      refine ⟨foldDivVar g (tgConvert left t) cf t, ?_, ?_⟩
      · exact (congrArg (foldDiv g (tgConvert left t) · t) hcf).trans (foldDiv_of_isCons g t hcons cf t)
      · rw [← heval]
        exact foldDivVar_eval g t hcons htipe hconst (t.wrap_has c)
  | mod =>
      refine ⟨foldModVar g optimize (tgConvert left t) cf t, ?_, ?_⟩
      · exact (congrArg (foldMod g optimize (tgConvert left t) · t) hcf).trans
          (foldMod_of_isCons g t optimize hcons cf t)
      · rw [← heval]
        exact foldModVar_eval g t optimize hcons htipe hconst (t.wrap_has c)

/-- The remainder of -13 and -8, of 2 bytes. -/
theorem foldVar_minus_eight :
    ∃ r, foldMod i86Target true (tgConvert (.leaf (-13) ⟨.two, true⟩) ⟨.four, true⟩)
        (tgConvert (.cons (cfCnvI32F (-8)) ⟨.two, true⟩) ⟨.four, true⟩) ⟨.four, true⟩ = .ok r ∧
      ∀ e ∈ r, e.eval = -5 := by
  have hrv : IsConst (cfCnvI32F (-8)) (-8) := cfCnvI32F_isConst _
  have hleft : (Tree.leaf (-13) ⟨.two, true⟩).isCons = false := rfl
  obtain ⟨r, hr, heval⟩ := foldVar_eval i86Target ⟨.four, true⟩ .mod true hleft (s := ⟨.two, true⟩) hrv
    (by decide)
  exact ⟨r, hr, fun e he => (heval e he).trans (by decide)⟩

end var

end OpenWatcom.Cg
