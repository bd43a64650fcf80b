import Mathlib.Data.BitVec
import Mathlib.Data.Nat.Size
import Mathlib.Data.Nat.Factorization.Basic
import Mathlib.Tactic.Ring
import Mathlib.Tactic.NormNum

/-! # Multiplication by shifts and additions

`Factor` takes a multiplier apart: first into factors `2^k - 1` and `2^k + 1` while that saves bits, then
digit by digit.  It records the operations from the end of the array `Ops` down, and `CheckMul` emits them
upwards from the last one recorded. -/

namespace OpenWatcom.Cg

/-! ### Recorded operations -/

/-- `op_type`, with the count of a shift. -/
inductive MulOp where
  | shl (cnt : ℕ)
  | sub
  | add
  | xfr
deriving DecidableEq, Repr

/-- `MAXOPS`. -/
def maxOps : ℕ := 20

/-- `Ops` and the index of the operation recorded last. -/
structure OpArray where
  i : ℤ
  ops : ℤ → MulOp

/-- How a run can stop before its result: `Factor` returns `MAXOPS`, an index is outside the array, or a
loop was not finished. -/
inductive Stop where
  | maxOps
  | outside
  | unfinished
deriving DecidableEq

/-- Nothing is recorded. -/
def OpArray.empty (ops : ℤ → MulOp) : OpArray := ⟨maxOps, ops⟩

/-- `if( --i < 0 ) return( MAXOPS ); Ops[i] = op`. -/
def OpArray.record (a : OpArray) (op : MulOp) : Except Stop OpArray :=
  if a.i - 1 < 0 then .error .maxOps
  else if a.i - 1 < maxOps then .ok ⟨a.i - 1, Function.update a.ops (a.i - 1) op⟩
  else .error .outside

/-- `CountBits`. -/
def countBits (value : BitVec 32) : BitVec 32 :=
  let value := value - ((value >>> 1) &&& 0x55555555#32)
  let temp := (value >>> 2) &&& 0x33333333#32
  let value := (value &&& 0x33333333#32) + temp
  let value := (value + (value >>> 4)) &&& 0x0F0F0F0F#32
  let value := value + (value <<< 8)
  let value := value + (value <<< 16)
  value >>> 24

/-! ### `Factor` -/

section factor

/-- `while( test )`: `pow2` is shifted until it is above `test`. -/
def growPow2 (test pow2 shlcnt : ℕ) : ℕ × ℕ :=
  if test = 0 then (pow2, shlcnt) else growPow2 (test / 2) (pow2 * 2 % 2 ^ 32) (shlcnt + 1)
termination_by test

/-- A factor was found: `test`, and `pow2` and `shlcnt` then. -/
structure Found where
  test : ℕ
  pow2 : ℕ
  shlcnt : ℕ

/-- The test of one `pow2`. -/
def testPow2 (num pow2 : ℕ) : ℕ :=
  if num % ((pow2 + (2 ^ 32 - 1)) % 2 ^ 32) = 0 then (pow2 + (2 ^ 32 - 1)) % 2 ^ 32
  else if num % ((pow2 + 1) % 2 ^ 32) = 0 then (pow2 + 1) % 2 ^ 32
  else 0

/-- Dividing by `test` saves two bits or more. -/
def savesBits (num test : ℕ) : Bool :=
  (countBits (BitVec.ofNat 32 (num / test))).toNat + 2 ≤ (countBits (BitVec.ofNat 32 num)).toNat

/-- `while( pow2 != 1 )`. -/
def findFactor (num : ℕ) : ℕ → ℕ → ℕ → Except Stop (Option Found)
  | 0, _, _ => .error .unfinished
  | n + 1, pow2, shlcnt =>
    if pow2 = 1 then .ok none
    else if testPow2 num pow2 ≠ 0 ∧ savesBits num (testPow2 num pow2) then
      .ok (some ⟨testPow2 num pow2, pow2, shlcnt⟩)
    else findFactor num n (pow2 / 2) (shlcnt - 1)

/-- The operations of a factor. -/
def OpArray.recordFactor (a : OpArray) (f : Found) : Except Stop OpArray := do
  let a ← a.record (if f.test = f.pow2 - 1 then .sub else .add)
  let a ← a.record (.shl f.shlcnt)
  a.record .xfr

/-- `do … while( pow2 != 1 )`. -/
def factorLoop (fuel : ℕ) : ℕ → ℕ → ℕ → OpArray → Except Stop (ℕ × OpArray)
  | 0, _, _, _ => .error .unfinished
  | n + 1, num, test, a => do
    let p := growPow2 test 1 0
    match ← findFactor num fuel p.1 p.2 with
    | none => .ok (num, a)
    | some f =>
      let a ← a.recordFactor f
      factorLoop fuel n (num / f.test) f.test a

/-- `while( (num & 1) == 0 )`. -/
def stripZeros : ℕ → ℕ → ℕ → Except Stop (ℕ × ℕ)
  | 0, _, _ => .error .unfinished
  | n + 1, num, shlcnt =>
    if num % 2 = 0 then stripZeros n (num / 2) (shlcnt + 1) else .ok (num, shlcnt)

/-- The shift of the zeros that were stripped. -/
def OpArray.recordShift (a : OpArray) (shlcnt : ℕ) : Except Stop OpArray :=
  if shlcnt ≠ 0 then a.record (.shl shlcnt) else .ok a

/-- `for( ;; )`: the digits of what is left. -/
def digitLoop (fuel : ℕ) : ℕ → ℕ → ℕ → OpArray → Except Stop OpArray
  | 0, _, _, _ => .error .unfinished
  | n + 1, num, shlcnt, a => do
    let p ← stripZeros fuel num shlcnt
    let a ← a.recordShift p.2
    if p.1 = 1 then .ok a
    else if p.1 % 4 = 1 then do
      let a ← a.record .add
      digitLoop fuel n (p.1 / 2) 1 a
    else do
      let a ← a.record .sub
      digitLoop fuel n ((p.1 + 1) % 2 ^ 32) 0 a

/-- The two phases; `fuel` bounds the rounds of each loop. -/
def factorOps (fuel num : ℕ) (a : OpArray) : Except Stop OpArray := do
  let p ← factorLoop fuel fuel num (num / 2) a
  digitLoop fuel fuel p.1 0 p.2

/-- The costs of the target. -/
structure Costs where
  mulCost : BitVec 32 → ℤ
  shiftCost : ℕ → ℤ
  addCost : ℤ
  subCost : ℤ

def Costs.opCost (c : Costs) : MulOp → ℤ
  | .shl cnt => c.shiftCost cnt
  | .add => c.addCost
  | .sub => c.subCost
  | .xfr => 1

/-- The operations from the index on, in the order they are emitted. -/
def OpArray.played (a : OpArray) : List MulOp :=
  (List.range (maxOps - a.i).toNat).map fun j : ℕ => a.ops (a.i + j)

/-- `Factor`: the array with its index, and the cost. -/
def factor (c : Costs) (fuel num : ℕ) (ops : ℤ → MulOp) : Except Stop (OpArray × ℤ) :=
  if num = 0 ∨ num = 0xFFFFFFFF then .error .maxOps
  else do
    let a ← factorOps fuel num (.empty ops)
    .ok (a, (a.played.map c.opCost).sum + (maxOps - a.i + 1))

end factor

/-! ### `CheckMul` -/

/-- The operands of the emitted instructions. -/
inductive MulName where
  | operand | orig | temp | result
deriving DecidableEq

/-- The emitted instructions; the last name is the destination. -/
inductive MulIns where
  | mov (src dst : MulName)
  | add (left rite dst : MulName)
  | sub (left rite dst : MulName)
  | lshift (left : MulName) (cnt : ℕ) (dst : MulName)
  | negate (src dst : MulName)
deriving DecidableEq

/-- What the names hold. -/
abbrev MulRegs (w : ℕ) := MulName → BitVec w

/-- A shift by the width or more gives 0. -/
def MulIns.exec {w : ℕ} (r : MulRegs w) : MulIns → MulRegs w
  | mov src dst => Function.update r dst (r src)
  | add left rite dst => Function.update r dst (r left + r rite)
  | sub left rite dst => Function.update r dst (r left - r rite)
  | lshift left cnt dst => Function.update r dst (r left <<< cnt)
  | negate src dst => Function.update r dst (-r src)

/-- The instruction for a recorded operation. -/
def MulOp.emit : MulOp → MulIns
  | xfr => .mov .temp .orig
  | add => .add .temp .orig .temp
  | sub => .sub .temp .orig .temp
  | shl cnt => .lshift .temp cnt .temp

/-- What follows the operations in `CheckMul`. -/
def mulIns (neg : Bool) (ops : List MulOp) : List MulIns :=
  [.mov .operand .orig, .mov .orig .temp] ++ ops.map MulOp.emit ++
    [if neg then .negate .temp .result else .mov .temp .result]

/-- What `CheckMul` does with the result of `Factor`; no instructions when the multiplication stays. -/
def expandMul (c : Costs) (neg : Bool) (rhs : BitVec 32) :
    Except Stop (OpArray × ℤ) → Except Stop (Option (List MulIns))
  | .ok (a, cost) =>
    if c.mulCost rhs ≤ cost then .ok none
    else if a.i = maxOps then .ok none
    else .ok (some (mulIns neg a.played))
  | .error .maxOps => .ok none
  | .error s => .error s

/-- `CheckMul` for the constant `rhs`; `isSW` says that the type class is the signed word. -/
def checkMul (c : Costs) (fuel : ℕ) (isSW : Bool) (rhs : BitVec 32) (ops : ℤ → MulOp) :
    Except Stop (Option (List MulIns)) :=
  let neg := isSW && rhs.slt 0#32
  let rhs := if neg then -rhs else rhs
  expandMul c neg rhs (factor c fuel rhs.toNat ops)

/-! ### The operations as arithmetic -/

/-- What an operation does to the multiples of the operand in `orig` and `temp`. -/
def MulOp.play : MulOp → ℤ × ℤ → ℤ × ℤ
  | xfr, p => (p.2, p.2)
  | add, p => (p.1, p.2 + p.1)
  | sub, p => (p.1, p.2 - p.1)
  | shl cnt, p => (p.1, p.2 * 2 ^ cnt)

def playOps (ops : List MulOp) (p : ℤ × ℤ) : ℤ × ℤ := ops.foldl (fun p op => op.play p) p

@[simp] theorem playOps_nil (p : ℤ × ℤ) : playOps [] p = p := rfl

@[simp] theorem playOps_cons (op : MulOp) (ops : List MulOp) (p : ℤ × ℤ) :
    playOps (op :: ops) p = playOps ops (op.play p) := rfl

/-- A run ends with the array full, or with a result that is good. -/
def EndsWith {α : Type} (good : α → Prop) (r : Except Stop α) : Prop :=
  r = .error .maxOps ∨ ∃ x, r = .ok x ∧ good x

theorem EndsWith.bind {α β : Type} {good : α → Prop} {good' : β → Prop} {r : Except Stop α}
    {f : α → Except Stop β} (hr : EndsWith good r) (hf : ∀ x, good x → EndsWith good' (f x)) :
    EndsWith good' (r >>= f) := by
  rcases hr with rfl | ⟨x, rfl, hx⟩
  · exact .inl rfl
  · exact hf x hx

theorem EndsWith.mono {α : Type} {good good' : α → Prop} {r : Except Stop α} (hr : EndsWith good r)
    (h : ∀ x, good x → good' x) : EndsWith good' r := by
  rcases hr with hr | ⟨x, hr, hx⟩
  · exact .inl hr
  · exact .inr ⟨x, hr, h x hx⟩

namespace OpArray

/-- The index is in the array, or just behind it. -/
def Valid (a : OpArray) : Prop := 0 ≤ a.i ∧ a.i ≤ maxOps

theorem empty_valid (ops : ℤ → MulOp) : (empty ops).Valid := by
  simp [Valid, empty, maxOps]

@[simp] theorem empty_played (ops : ℤ → MulOp) : (empty ops).played = [] := by
  simp [played, empty]

/-- Recording an operation puts it in front of those played, or the array is full. -/
theorem record_ends {a : OpArray} (ha : a.Valid) (op : MulOp) :
    EndsWith (fun a' => a'.Valid ∧ a'.played = op :: a.played) (a.record op) := by
  obtain ⟨hlow, hhigh⟩ := ha
  unfold record
  by_cases hneg : a.i - 1 < 0
  · exact .inl (if_pos hneg)
  · have hin : a.i - 1 < maxOps := by omega
    refine .inr ⟨_, by rw [if_neg hneg, if_pos hin], ⟨by dsimp only; omega, by dsimp only; omega⟩, ?_⟩
    obtain ⟨k, hk⟩ : ∃ k : ℕ, ((maxOps : ℤ) - a.i).toNat = k := ⟨_, rfl⟩
    have hk' : ((maxOps : ℤ) - (a.i - 1)).toNat = k + 1 := by omega
    unfold played
    simp only [hk, hk', List.range_succ_eq_map, List.map_cons, List.map_map]
    congr 1
    · simp
    · refine List.map_congr_left fun j hj => ?_
      have hne : a.i + (j : ℤ) ≠ a.i - 1 := by omega
      have heq : a.i - 1 + ((j + 1 : ℕ) : ℤ) = a.i + j := by omega
      simp only [Function.comp_apply, Nat.succ_eq_add_one, heq, Function.update_of_ne hne]

end OpArray

/-! ### The first phase -/

theorem growPow2_eq (test : ℕ) {j : ℕ} (hsize : j + test.size < 32) :
    growPow2 test (2 ^ j) j = (2 ^ (j + test.size), j + test.size) := by
  induction test using Nat.strong_induction_on generalizing j with
  | _ test ih =>
      rw [growPow2]
      by_cases h0 : test = 0
      · simp [h0]
      · have hpos : 0 < test := Nat.pos_of_ne_zero h0
        have hdiv : test.size = (test / 2).size + 1 := by
          have hbit := Nat.size_bit (b := test.bodd) (n := test.div2) (by rwa [Nat.bit_bodd_div2])
          rw [Nat.bit_bodd_div2, Nat.div2_val] at hbit
          exact hbit
        have hpow : 2 ^ j * 2 % 2 ^ 32 = 2 ^ (j + 1) := by
          rw [← pow_succ]
          exact Nat.mod_eq_of_lt (Nat.pow_lt_pow_right (by norm_num) (by omega))
        have hsum : j + 1 + (test / 2).size = j + test.size := by omega
        rw [if_neg h0, hpow, ih (test / 2) (by omega) (by omega), hsum]

/-- What `findFactor` found divides `num`, saves bits and is `2^k - 1` or `2^k + 1`. -/
structure Found.Good (num : ℕ) (f : Found) : Prop where
  pow2_eq : f.pow2 = 2 ^ f.shlcnt
  bounds : 1 ≤ f.shlcnt ∧ f.shlcnt ≤ 31
  test_eq : f.test = f.pow2 - 1 ∨ f.test = f.pow2 + 1
  dvd : f.test ∣ num
  saves : savesBits num f.test

theorem testPow2_cases (num : ℕ) {k : ℕ} (hk : 1 ≤ k) (hk' : k ≤ 31) :
    testPow2 num (2 ^ k) = 0 ∨
      (testPow2 num (2 ^ k) = 2 ^ k - 1 ∨ testPow2 num (2 ^ k) = 2 ^ k + 1) ∧
        testPow2 num (2 ^ k) ∣ num := by
  have hlow : 2 ^ 1 ≤ 2 ^ k := Nat.pow_le_pow_right (by norm_num) hk
  have hhigh : 2 ^ k ≤ 2 ^ 31 := Nat.pow_le_pow_right (by norm_num) hk'
  have hsub : (2 ^ k + (2 ^ 32 - 1)) % 2 ^ 32 = 2 ^ k - 1 := by omega
  have hadd : (2 ^ k + 1) % 2 ^ 32 = 2 ^ k + 1 := by omega
  unfold testPow2
  rw [hsub, hadd]
  split
  case isTrue h => exact .inr ⟨.inl rfl, Nat.dvd_of_mod_eq_zero h⟩
  case isFalse =>
    split
    case isTrue h => exact .inr ⟨.inr rfl, Nat.dvd_of_mod_eq_zero h⟩
    case isFalse => exact .inl rfl

theorem findFactor_spec (num : ℕ) {k : ℕ} (hk : k ≤ 31) :
    ∃ r, (∀ f, r = some f → f.Good num) ∧
      ∀ n, k < n → findFactor num n (2 ^ k) k = .ok r := by
  induction k with
  | zero =>
      refine ⟨none, by simp, fun n hn => ?_⟩
      obtain ⟨n, rfl⟩ : ∃ m, n = m + 1 := ⟨n - 1, by omega⟩
      simp [findFactor]
  | succ k ih =>
      have hne : 2 ^ (k + 1) ≠ 1 := by simp
      by_cases htest : testPow2 num (2 ^ (k + 1)) ≠ 0 ∧ savesBits num (testPow2 num (2 ^ (k + 1)))
      · refine ⟨some ⟨testPow2 num (2 ^ (k + 1)), 2 ^ (k + 1), k + 1⟩, ?_, fun n hn => ?_⟩
        · rintro f hf
          obtain rfl := Option.some.inj hf
          obtain hzero | ⟨heq, hdvd⟩ := testPow2_cases num (Nat.le_add_left 1 k) hk
          · exact absurd hzero htest.1
          · exact ⟨rfl, ⟨Nat.le_add_left 1 k, hk⟩, heq, hdvd, htest.2⟩
        · obtain ⟨n, rfl⟩ : ∃ m, n = m + 1 := ⟨n - 1, by omega⟩
          rw [findFactor, if_neg hne, if_pos htest]
      · obtain ⟨r, hr, hrun⟩ := ih (by omega)
        refine ⟨r, hr, fun n hn => ?_⟩
        obtain ⟨n, rfl⟩ : ∃ m, n = m + 1 := ⟨n - 1, by omega⟩
        have hdiv : 2 ^ (k + 1) / 2 = 2 ^ k := by
          rw [pow_succ]
          exact Nat.mul_div_cancel _ (by norm_num)
        rw [findFactor, if_neg hne, if_neg htest, hdiv, Nat.add_sub_cancel]
        exact hrun n (by omega)

namespace Found.Good

variable {num : ℕ} {f : Found}

theorem num_eq (hf : f.Good num) : num / f.test * f.test = num := Nat.div_mul_cancel hf.dvd

/-- A factor 1 saves nothing. -/
theorem test_ge (hf : f.Good num) (hnum : 0 < num) : 3 ≤ f.test := by
  have hsave := hf.saves
  unfold savesBits at hsave
  rcases Nat.lt_or_ge f.test 2 with hlt | hge
  · obtain hzero | hone : f.test = 0 ∨ f.test = 1 := by omega
    · have := hf.num_eq
      rw [hzero, Nat.mul_zero] at this
      omega
    · rw [hone, Nat.div_one] at hsave
      simp at hsave
  · have hne : f.test ≠ 2 := by
      intro heq
      have hpow := hf.pow2_eq
      obtain ⟨m, hm⟩ : ∃ m, f.shlcnt = m + 1 := ⟨f.shlcnt - 1, by have := hf.bounds.1; omega⟩
      rw [hm, pow_succ] at hpow
      have := hf.test_eq
      omega
    omega

/-- `2^31 + 1` has two bits, so it is not taken out. -/
theorem test_lt (hf : f.Good num) (hnum : 0 < num) (hlt : num < 2 ^ 32) : f.test < 2 ^ 31 := by
  have hpow := hf.pow2_eq
  have hle : f.pow2 ≤ 2 ^ 31 := hpow ▸ Nat.pow_le_pow_right (by norm_num) hf.bounds.2
  rcases hf.test_eq with heq | heq
  · have : 0 < f.pow2 := hpow ▸ Nat.two_pow_pos _
    omega
  · by_contra hge
    rcases Nat.lt_or_ge f.shlcnt 31 with hsmall | hbig
    · have : f.pow2 ≤ 2 ^ 30 := hpow ▸ Nat.pow_le_pow_right (by norm_num) (by omega)
      omega
    · have hcnt : f.shlcnt = 31 := le_antisymm hf.bounds.2 hbig
      rw [hcnt] at hpow
      have htest : f.test = 2 ^ 31 + 1 := by omega
      have hnumeq : num = 2 ^ 31 + 1 := by
        have hmul := hf.num_eq
        obtain ⟨q, hq⟩ : ∃ q, num / f.test = q := ⟨_, rfl⟩
        rw [hq, htest] at hmul
        have : q = 1 := by omega
        omega
      have hsave := hf.saves
      rw [hnumeq, htest] at hsave
      revert hsave
      decide

end Found.Good

/-- The operations played from `num` in both names, or in `temp` alone, give `m`. -/
def Plays (ops : List MulOp) (num : ℕ) (m : ℕ) : Prop :=
  ∀ orig : ℤ, (playOps ops (orig, num)).2 = m

theorem Plays.factor {ops : List MulOp} {num m : ℕ} {f : Found} (h : Plays ops num m)
    (hf : f.Good num) :
    Plays (.xfr :: .shl f.shlcnt :: (if f.test = f.pow2 - 1 then .sub else .add) :: ops)
      (num / f.test) m := by
  intro orig
  have hmul : ((num / f.test : ℕ) : ℤ) * f.test = num := by exact_mod_cast hf.num_eq
  have hpos : 1 ≤ f.pow2 := hf.pow2_eq ▸ Nat.one_le_two_pow
  have hpow : (2 : ℤ) ^ f.shlcnt = f.pow2 := by
    rw [hf.pow2_eq]
    push_cast
    rfl
  simp only [playOps_cons, MulOp.play, hpow]
  obtain ⟨q, hq⟩ : ∃ q, num / f.test = q := ⟨_, rfl⟩
  rw [hq] at hmul ⊢
  by_cases htest : f.test = f.pow2 - 1
  · have hcast : (f.test : ℤ) = f.pow2 - 1 := by omega
    have hnum : (q : ℤ) * f.pow2 - q = num := by rw [← hmul, hcast]; ring
    simp only [if_pos htest, hnum]
    exact h q
  · have hcast : (f.test : ℤ) = f.pow2 + 1 := by
      have := hf.test_eq
      omega
    have hnum : (q : ℤ) * f.pow2 + q = num := by rw [← hmul, hcast]; ring
    simp only [if_neg htest, hnum]
    exact h q

/-- What has been recorded is right for what is left of the multiplier `m`. -/
structure Recorded (m num : ℕ) (a : OpArray) : Prop where
  valid : a.Valid
  pos : 0 < num
  lt : num + 1 < 2 ^ 32
  plays : Plays a.played num m

/-- Recording the operations of a factor. -/
theorem Recorded.recordFactor {m num : ℕ} {a : OpArray} {f : Found} (h : Recorded m num a)
    (hf : f.Good num) : EndsWith (Recorded m (num / f.test)) (a.recordFactor f) := by
  have hdiv := hf.num_eq
  have hle : num / f.test ≤ num := Nat.div_le_self _ _
  have hpos : 0 < num / f.test := by
    rcases Nat.eq_zero_or_pos (num / f.test) with h0 | h0
    · rw [h0, Nat.zero_mul] at hdiv
      exact absurd hdiv (Nat.ne_of_lt h.pos)
    · exact h0
  refine (OpArray.record_ends h.valid _).bind fun a₁ ⟨hv₁, hp₁⟩ => ?_
  refine (OpArray.record_ends hv₁ _).bind fun a₂ ⟨hv₂, hp₂⟩ => ?_
  refine (OpArray.record_ends hv₂ _).mono fun a₃ ⟨hv₃, hp₃⟩ => ?_
  refine ⟨hv₃, hpos, lt_of_le_of_lt (Nat.succ_le_succ hle) h.lt, ?_⟩
  rw [hp₃, hp₂, hp₁]
  exact h.plays.factor hf

theorem factorLoop_spec (m : ℕ) {n num test : ℕ} {a : OpArray} (hnum : num < 2 ^ n)
    (htest : test < 2 ^ 31) (h : Recorded m num a) :
    ∃ r, EndsWith (fun p : ℕ × OpArray => Recorded m p.1 p.2) r ∧
      ∀ fuel rounds, 32 ≤ fuel → n ≤ rounds → factorLoop fuel rounds num test a = r := by
  induction n generalizing num test a with
  | zero =>
      have := h.pos
      omega
  | succ n ih =>
      have hsize : test.size ≤ 31 := Nat.size_le.2 htest
      have hgrow : growPow2 test 1 0 = (2 ^ test.size, test.size) := by
        have hg := growPow2_eq test (j := 0) (by omega)
        simpa using hg
      obtain ⟨r, hr, hrun⟩ := findFactor_spec num hsize
      cases r with
      | none =>
          refine ⟨.ok (num, a), .inr ⟨_, rfl, h⟩, fun fuel rounds hfuel hrounds => ?_⟩
          obtain ⟨k, rfl⟩ : ∃ k, rounds = k + 1 := ⟨rounds - 1, by omega⟩
          rw [factorLoop, hgrow, hrun fuel (by omega)]
          rfl
      | some f =>
          have hf := hr f rfl
          have hge := hf.test_ge h.pos
          have hsmall : num / f.test < 2 ^ n := by
            refine Nat.div_lt_of_lt_mul (lt_of_lt_of_le hnum ?_)
            rw [pow_succ, Nat.mul_comm]
            exact Nat.mul_le_mul_right _ (by omega)
          have hlt := hf.test_lt h.pos (Nat.lt_of_succ_lt h.lt)
          have hloop : ∀ fuel k, 32 ≤ fuel → factorLoop fuel (k + 1) num test a =
              a.recordFactor f >>= factorLoop fuel k (num / f.test) f.test := by
            intro fuel k hfuel
            rw [factorLoop, hgrow, hrun fuel (by omega)]
            rfl
          rcases h.recordFactor hf with herr | ⟨a', hok, ha'⟩
          · refine ⟨.error .maxOps, .inl rfl, fun fuel rounds hfuel hrounds => ?_⟩
            obtain ⟨k, rfl⟩ : ∃ k, rounds = k + 1 := ⟨rounds - 1, by omega⟩
            rw [hloop fuel k hfuel, herr]
            rfl
          · obtain ⟨r, hr, hrest⟩ := ih hsmall hlt ha'
            refine ⟨r, hr, fun fuel rounds hfuel hrounds => ?_⟩
            obtain ⟨k, rfl⟩ : ∃ k, rounds = k + 1 := ⟨rounds - 1, by omega⟩
            rw [hloop fuel k hfuel, hok]
            exact hrest fuel k hfuel (by omega)

/-! ### The second phase -/

theorem stripZeros_eq {t q : ℕ} (hq : q % 2 = 1) (shlcnt : ℕ) {fuel : ℕ} (hfuel : t < fuel) :
    stripZeros fuel (2 ^ t * q) shlcnt = .ok (q, shlcnt + t) := by
  induction t generalizing fuel shlcnt with
  | zero =>
      obtain ⟨k, rfl⟩ : ∃ k, fuel = k + 1 := ⟨fuel - 1, by omega⟩
      have hodd : ¬ 2 ^ 0 * q % 2 = 0 := by omega
      rw [stripZeros, if_neg hodd]
      simp
  | succ t ih =>
      obtain ⟨k, rfl⟩ : ∃ k, fuel = k + 1 := ⟨fuel - 1, by omega⟩
      have hstep : 2 ^ (t + 1) * q = 2 ^ t * q * 2 := by ring
      rw [stripZeros, hstep, if_pos (Nat.mul_mod_left _ _), Nat.mul_div_cancel _ (by norm_num),
        ih (shlcnt + 1) (by omega), Nat.add_assoc, Nat.add_comm 1]

/-- What has been recorded is right for the digits `num`, of which `shlcnt` zeros were stripped. -/
structure Digits (m num shlcnt : ℕ) (a : OpArray) : Prop where
  valid : a.Valid
  pos : 0 < num
  lt : num + 1 < 2 ^ 32
  plays : (playOps a.played (1, num * 2 ^ shlcnt)).2 = m

theorem Digits.exponent_lt {m t q shlcnt : ℕ} {a : OpArray} (h : Digits m (2 ^ t * q) shlcnt a)
    (hq : q % 2 = 1) : t < 32 := by
  have hle : 2 ^ t ≤ 2 ^ t * q := Nat.le_mul_of_pos_right _ (by omega)
  have hlt := h.lt
  exact (Nat.pow_lt_pow_iff_right (by norm_num : 1 < 2)).1 (by omega)

theorem Digits.recordShift {m t q shlcnt : ℕ} {a : OpArray} (h : Digits m (2 ^ t * q) shlcnt a) :
    EndsWith (Digits m q 0) (a.recordShift (shlcnt + t)) := by
  have hle : q ≤ 2 ^ t * q := Nat.le_mul_of_pos_left _ (Nat.two_pow_pos t)
  have hpos : 0 < q := by
    rcases Nat.eq_zero_or_pos q with rfl | hpos
    · exact absurd h.pos (by simp)
    · exact hpos
  have hlt : q + 1 < 2 ^ 32 := lt_of_le_of_lt (Nat.succ_le_succ hle) h.lt
  have hmul : ((2 ^ t * q : ℕ) : ℤ) * 2 ^ shlcnt = q * 2 ^ (shlcnt + t) := by
    push_cast
    ring
  have hplays := h.plays
  rw [hmul] at hplays
  unfold OpArray.recordShift
  by_cases h0 : shlcnt + t ≠ 0
  · rw [if_pos h0]
    refine (OpArray.record_ends h.valid _).mono fun a' ⟨hv, hp⟩ => ⟨hv, hpos, hlt, ?_⟩
    rw [hp]
    simpa [MulOp.play] using hplays
  · rw [if_neg h0]
    refine .inr ⟨a, rfl, h.valid, hpos, hlt, ?_⟩
    rwa [not_not.1 h0] at hplays

theorem Digits.recordAdd {m q : ℕ} {a : OpArray} (h : Digits m q 0 a) (hq : q % 4 = 1)
    (hne : q ≠ 1) : EndsWith (Digits m (q / 2) 1) (a.record .add) := by
  have hlt := h.lt
  refine (OpArray.record_ends h.valid _).mono fun a' ⟨hv, hp⟩ => ⟨hv, by omega, by omega, ?_⟩
  have hcast : ((q / 2 : ℕ) : ℤ) * 2 ^ 1 + 1 = q * 2 ^ 0 := by omega
  rw [hp, playOps_cons, MulOp.play, hcast]
  exact h.plays

theorem Digits.recordSub {m q : ℕ} {a : OpArray} (h : Digits m q 0 a) (hq : q % 4 = 3) :
    EndsWith (Digits m (q + 1) 0) (a.record .sub) := by
  have hlt := h.lt
  refine (OpArray.record_ends h.valid _).mono fun a' ⟨hv, hp⟩ => ⟨hv, by omega, by omega, ?_⟩
  have hcast : ((q + 1 : ℕ) : ℤ) * 2 ^ 0 - 1 = q * 2 ^ 0 := by omega
  rw [hp, playOps_cons, MulOp.play, hcast]
  exact h.plays

theorem digitLoop_succ {t q : ℕ} (hq : q % 2 = 1) (ht : t < 32) (shlcnt : ℕ) (a : OpArray)
    {fuel : ℕ} (hfuel : 32 ≤ fuel) (n : ℕ) :
    digitLoop fuel (n + 1) (2 ^ t * q) shlcnt a =
      a.recordShift (shlcnt + t) >>= fun a =>
        if q = 1 then .ok a
        else if q % 4 = 1 then a.record .add >>= digitLoop fuel n (q / 2) 1
        else a.record .sub >>= digitLoop fuel n ((q + 1) % 2 ^ 32) 0 := by
  rw [digitLoop, stripZeros_eq hq shlcnt (by omega)]
  rfl

/-- The digits behind the lowest one that is not 0, with a bound of half the size. -/
theorem Digits.next {m q n : ℕ} {a : OpArray} (h : Digits m q 0 a) (hq : q % 2 = 1) (hne : q ≠ 1)
    (hn : q ≤ 2 ^ (n + 1)) :
    ∃ op num shlcnt, EndsWith (Digits m num shlcnt) (a.record op) ∧
      (∃ t q', q' % 2 = 1 ∧ q' ≤ 2 ^ n ∧ num = 2 ^ t * q') ∧
      ∀ fuel k, (if q % 4 = 1 then a.record .add >>= digitLoop fuel k (q / 2) 1
        else a.record .sub >>= digitLoop fuel k ((q + 1) % 2 ^ 32) 0) =
          a.record op >>= digitLoop fuel k num shlcnt := by
  have hpow : 2 ^ (n + 1) = 2 * 2 ^ n := by rw [pow_succ, Nat.mul_comm]
  by_cases hone : q % 4 = 1
  · refine ⟨.add, q / 2, 1, h.recordAdd hone hne, ?_, fun fuel k => by rw [if_pos hone]⟩
    obtain ⟨t, q', hodd, heq⟩ := Nat.exists_eq_two_pow_mul_odd (n := q / 2) (by omega)
    have hle : q' ≤ 2 ^ t * q' := Nat.le_mul_of_pos_left _ (Nat.two_pow_pos t)
    exact ⟨t, q', Nat.odd_iff.1 hodd, by omega, heq⟩
  · have hthree : q % 4 = 3 := by omega
    have hmod : (q + 1) % 2 ^ 32 = q + 1 := Nat.mod_eq_of_lt h.lt
    refine ⟨.sub, q + 1, 0, h.recordSub hthree, ?_, fun fuel k => by rw [if_neg hone, hmod]⟩
    obtain ⟨t, q', hodd, heq⟩ := Nat.exists_eq_two_pow_mul_odd (n := (q + 1) / 2) (by omega)
    have hle : q' ≤ 2 ^ t * q' := Nat.le_mul_of_pos_left _ (Nat.two_pow_pos t)
    refine ⟨t + 1, q', Nat.odd_iff.1 hodd, by omega, ?_⟩
    rw [pow_succ, Nat.mul_right_comm, ← heq]
    omega

theorem digitLoop_spec (m : ℕ) {n t q shlcnt : ℕ} {a : OpArray} (hq : q % 2 = 1) (hn : q ≤ 2 ^ n)
    (h : Digits m (2 ^ t * q) shlcnt a) :
    ∃ r, EndsWith (fun a' => a'.Valid ∧ (playOps a'.played (1, 1)).2 = m) r ∧
      ∀ fuel rounds, 32 ≤ fuel → n < rounds → digitLoop fuel rounds (2 ^ t * q) shlcnt a = r := by
  induction n generalizing t q shlcnt a with
  | zero =>
      have ht := h.exponent_lt hq
      obtain rfl : q = 1 := by omega
      refine ⟨a.recordShift (shlcnt + t), h.recordShift.mono fun a' h' => ⟨h'.valid, ?_⟩,
        fun fuel rounds hfuel hrounds => ?_⟩
      · simpa using h'.plays
      · obtain ⟨k, rfl⟩ : ∃ k, rounds = k + 1 := ⟨rounds - 1, by omega⟩
        rw [digitLoop_succ hq ht shlcnt a hfuel]
        cases a.recordShift (shlcnt + t) <;> rfl
  | succ n ih =>
      have ht := h.exponent_lt hq
      rcases h.recordShift with herr | ⟨a₁, hok, h₁⟩
      · refine ⟨.error .maxOps, .inl rfl, fun fuel rounds hfuel hrounds => ?_⟩
        obtain ⟨k, rfl⟩ : ∃ k, rounds = k + 1 := ⟨rounds - 1, by omega⟩
        rw [digitLoop_succ hq ht shlcnt a hfuel, herr]
        rfl
      by_cases hone : q = 1
      · refine ⟨.ok a₁, .inr ⟨a₁, rfl, h₁.valid, ?_⟩, fun fuel rounds hfuel hrounds => ?_⟩
        · simpa [hone] using h₁.plays
        · obtain ⟨k, rfl⟩ : ∃ k, rounds = k + 1 := ⟨rounds - 1, by omega⟩
          rw [digitLoop_succ hq ht shlcnt a hfuel, hok]
          exact if_pos hone
      obtain ⟨op, num, shl', hrec, ⟨t', q', hq', hle', rfl⟩, hnext⟩ := h₁.next hq hone hn
      have hloop : ∀ fuel k, 32 ≤ fuel → digitLoop fuel (k + 1) (2 ^ t * q) shlcnt a =
          a₁.record op >>= digitLoop fuel k (2 ^ t' * q') shl' := by
        intro fuel k hfuel
        rw [digitLoop_succ hq ht shlcnt a hfuel, hok, ← hnext fuel k]
        exact if_neg hone
      rcases hrec with herr | ⟨a₂, hok₂, h₂⟩
      · refine ⟨.error .maxOps, .inl rfl, fun fuel rounds hfuel hrounds => ?_⟩
        obtain ⟨k, rfl⟩ : ∃ k, rounds = k + 1 := ⟨rounds - 1, by omega⟩
        rw [hloop fuel k hfuel, herr]
        rfl
      · obtain ⟨r, hr, hrest⟩ := ih hq' hle' h₂
        refine ⟨r, hr, fun fuel rounds hfuel hrounds => ?_⟩
        obtain ⟨k, rfl⟩ : ∃ k, rounds = k + 1 := ⟨rounds - 1, by omega⟩
        rw [hloop fuel k hfuel, hok₂]
        exact hrest fuel k hfuel (by omega)

/-! ### `Factor` and `CheckMul` -/

/-- The two phases end, and what they recorded gives the multiplier when it is played from one operand. -/
theorem factorOps_spec {m : ℕ} (hpos : 0 < m) (hlt : m + 1 < 2 ^ 32) (ops : ℤ → MulOp) :
    ∃ r, EndsWith (fun a' => a'.Valid ∧ (playOps a'.played (1, 1)).2 = m) r ∧
      ∀ fuel, 33 ≤ fuel → factorOps fuel m (.empty ops) = r := by
  have hstart : Recorded m m (.empty ops) :=
    ⟨OpArray.empty_valid ops, hpos, hlt, fun orig => by simp⟩
  have htest : m / 2 < 2 ^ 31 := by omega
  obtain ⟨r, hr, hrun⟩ := factorLoop_spec m (n := 32) (by omega) htest hstart
  rcases hr with rfl | ⟨⟨num, a⟩, rfl, ha⟩
  · refine ⟨.error .maxOps, .inl rfl, fun fuel hfuel => ?_⟩
    rw [factorOps, hrun fuel fuel (by omega) (by omega)]
    rfl
  · obtain ⟨t, q, hodd, rfl⟩ := Nat.exists_eq_two_pow_mul_odd (n := num) (Nat.ne_of_gt ha.pos)
    have hle : q ≤ 2 ^ t * q := Nat.le_mul_of_pos_left _ (Nat.two_pow_pos t)
    have hdig : Digits m (2 ^ t * q) 0 a := ⟨ha.valid, ha.pos, ha.lt, by simpa using ha.plays 1⟩
    obtain ⟨r, hr, hrest⟩ := digitLoop_spec m (n := 32) (Nat.odd_iff.1 hodd)
      (by have := ha.lt; omega) hdig
    refine ⟨r, hr, fun fuel hfuel => ?_⟩
    rw [factorOps, hrun fuel fuel (by omega) (by omega)]
    exact hrest fuel fuel (by omega) (by omega)

/-- The registers hold multiples of `x` in `orig` and `temp`. -/
def Holds {w : ℕ} (r : MulRegs w) (x : BitVec w) (p : ℤ × ℤ) : Prop :=
  r .orig = x * BitVec.ofInt w p.1 ∧ r .temp = x * BitVec.ofInt w p.2

theorem ofInt_two_pow (w cnt : ℕ) : BitVec.ofInt w (2 ^ cnt) = BitVec.twoPow w cnt := by
  apply BitVec.eq_of_toNat_eq
  rw [BitVec.toNat_ofInt, BitVec.toNat_twoPow]
  exact_mod_cast rfl

theorem Holds.step {w : ℕ} {r : MulRegs w} {x : BitVec w} {p : ℤ × ℤ} (h : Holds r x p)
    (op : MulOp) : Holds (op.emit.exec r) x (op.play p) := by
  obtain ⟨horig, htemp⟩ := h
  cases op with
  | shl cnt =>
      refine ⟨by simpa [MulOp.emit, MulIns.exec, MulOp.play] using horig, ?_⟩
      simp only [MulOp.emit, MulIns.exec, MulOp.play, Function.update_self, htemp]
      rw [BitVec.shiftLeft_eq_mul_twoPow, BitVec.ofInt_mul, ofInt_two_pow, mul_assoc]
  | sub =>
      refine ⟨by simpa [MulOp.emit, MulIns.exec, MulOp.play] using horig, ?_⟩
      simp only [MulOp.emit, MulIns.exec, MulOp.play, Function.update_self, htemp, horig]
      rw [sub_eq_add_neg p.2, BitVec.ofInt_add, BitVec.ofInt_neg]
      ring
  | add =>
      refine ⟨by simpa [MulOp.emit, MulIns.exec, MulOp.play] using horig, ?_⟩
      simp only [MulOp.emit, MulIns.exec, MulOp.play, Function.update_self, htemp, horig]
      rw [BitVec.ofInt_add]
      ring
  | xfr =>
      refine ⟨by simpa [MulOp.emit, MulIns.exec, MulOp.play] using htemp, ?_⟩
      simpa [MulOp.emit, MulIns.exec, MulOp.play] using htemp

/-- What the instructions leave in the names. -/
def runMul {w : ℕ} (r : MulRegs w) (ins : List MulIns) : MulRegs w := ins.foldl MulIns.exec r

theorem Holds.run {w : ℕ} {r : MulRegs w} {x : BitVec w} {p : ℤ × ℤ} (h : Holds r x p)
    (ops : List MulOp) : Holds (runMul r (ops.map MulOp.emit)) x (playOps ops p) := by
  induction ops generalizing r p with
  | nil => exact h
  | cons op ops ih => exact ih (h.step op)

/-- The instructions for operations that give `m` multiply by `m`, or by `-m`. -/
theorem mulIns_result {w : ℕ} (r : MulRegs w) (neg : Bool) {ops : List MulOp} {m : ℤ}
    (hops : (playOps ops (1, 1)).2 = m) :
    runMul r (mulIns neg ops) .result =
      r .operand * BitVec.ofInt w (if neg then -m else m) := by
  have hstart : Holds (runMul r [.mov .operand .orig, .mov .orig .temp]) (r .operand) (1, 1) := by
    simp [Holds, runMul, MulIns.exec]
  have hend := (hstart.run ops).2
  rw [hops] at hend
  unfold mulIns runMul at *
  rw [List.foldl_append, List.foldl_append]
  cases neg with
  | false =>
      rw [List.foldl_cons, List.foldl_nil]
      simp only [Bool.false_eq_true, if_false, MulIns.exec, Function.update_self]
      exact hend
  | true =>
      rw [List.foldl_cons, List.foldl_nil]
      simp only [if_true, MulIns.exec, Function.update_self, hend]
      rw [BitVec.ofInt_neg]
      ring

theorem ofInt_eq_of_emod {w : ℕ} (hw : w ≤ 32) {a b : ℤ} (h : a % 2 ^ 32 = b % 2 ^ 32) :
    BitVec.ofInt w a = BitVec.ofInt w b := by
  have hdvd : (2 : ℤ) ^ w ∣ 2 ^ 32 := pow_dvd_pow 2 hw
  have hmod : a % 2 ^ w = b % 2 ^ w := by
    rw [← Int.emod_emod_of_dvd a hdvd, h, Int.emod_emod_of_dvd b hdvd]
  apply BitVec.eq_of_toNat_eq
  rw [BitVec.toNat_ofInt, BitVec.toNat_ofInt]
  push_cast
  rw [hmod]

/-- The multiplier that `Factor` is given, with the sign, is the constant modulo `2^32`. -/
theorem multiplier_emod (rhs : BitVec 32) (neg : Bool) :
    (if neg then -((-rhs).toNat : ℤ) else rhs.toNat) % 2 ^ 32 = rhs.toInt % 2 ^ 32 := by
  have htoInt := BitVec.toInt_eq_toNat_cond rhs
  have hlt := rhs.isLt
  cases neg with
  | false =>
      simp only [Bool.false_eq_true, if_false]
      split at htoInt <;> omega
  | true =>
      simp only [if_true, BitVec.toNat_neg]
      split at htoInt <;> omega

/-- `Factor` ends for every multiplier, and never outside the array. -/
theorem factor_ends (c : Costs) (num : BitVec 32) (ops : ℤ → MulOp) :
    ∃ r, EndsWith (fun p : OpArray × ℤ => (playOps p.1.played (1, 1)).2 = num.toNat) r ∧
      ∀ fuel, 33 ≤ fuel → factor c fuel num.toNat ops = r := by
  by_cases h0 : num.toNat = 0 ∨ num.toNat = 0xFFFFFFFF
  · exact ⟨.error .maxOps, .inl rfl, fun fuel _ => if_pos h0⟩
  · have hlt := num.isLt
    obtain ⟨r, hr, hrun⟩ := factorOps_spec (m := num.toNat) (by omega) (by omega) ops
    refine ⟨r >>= fun a => .ok (a, (a.played.map c.opCost).sum + (maxOps - a.i + 1)),
      hr.bind fun a ha => .inr ⟨_, rfl, ha.2⟩, fun fuel hfuel => ?_⟩
    rw [factor, if_neg h0, hrun fuel hfuel]

/-- `CheckMul` ends for every constant without leaving the array, and the instructions it emits multiply
any operand of at most 32 bits by the constant. -/
theorem checkMul_correct (c : Costs) (isSW : Bool) (rhs : BitVec 32) (ops : ℤ → MulOp) :
    ∃ r, (∀ fuel, 33 ≤ fuel → checkMul c fuel isSW rhs ops = .ok r) ∧
      ∀ ins ∈ r, ∀ w ≤ 32, ∀ regs : MulRegs w,
        runMul regs ins .result = regs .operand * BitVec.ofInt w rhs.toInt := by
  obtain ⟨neg, hneg⟩ : ∃ neg, (isSW && rhs.slt 0#32) = neg := ⟨_, rfl⟩
  obtain ⟨num, hnum⟩ : ∃ num, (if neg then -rhs else rhs) = num := ⟨_, rfl⟩
  obtain ⟨r, hr, hrun⟩ := factor_ends c num ops
  have hcheck : ∀ fuel, 33 ≤ fuel → checkMul c fuel isSW rhs ops = expandMul c neg num r := by
    intro fuel hfuel
    unfold checkMul
    simp only [hneg, hnum, hrun fuel hfuel]
  rcases hr with rfl | ⟨⟨a, cost⟩, rfl, ha⟩
  · exact ⟨none, hcheck, by simp⟩
  · unfold expandMul at hcheck
    dsimp only at hcheck ha
    by_cases hstay : c.mulCost num ≤ cost ∨ a.i = maxOps
    · refine ⟨none, fun fuel hfuel => ?_, by simp⟩
      rw [hcheck fuel hfuel]
      rcases hstay with hcost | hempty
      · exact if_pos hcost
      · rw [if_pos hempty, ite_self]
    · obtain ⟨hcost, hempty⟩ := not_or.1 hstay
      refine ⟨some (mulIns neg a.played), fun fuel hfuel => ?_, fun ins hins w hw regs => ?_⟩
      · rw [hcheck fuel hfuel, if_neg hcost, if_neg hempty]
      · obtain rfl := Option.some.inj hins
        rw [mulIns_result regs neg ha]
        congr 1
        refine ofInt_eq_of_emod hw ?_
        have hmod := multiplier_emod rhs neg
        cases neg with
        | false => simpa [← hnum] using hmod
        | true => simpa [← hnum] using hmod

/-- On the 8086 a signed word is multiplied by 10 with two shifts and an addition. -/
theorem checkMul_ten :
    ∃ r, (∀ fuel, 33 ≤ fuel → checkMul ⟨fun _ => 120, fun n => 2 * n, 3, 3⟩ fuel true 10#32
        (fun _ => .xfr) = .ok r) ∧
      ∀ ins ∈ r, ∀ w ≤ 32, ∀ regs : MulRegs w,
        runMul regs ins .result = regs .operand * BitVec.ofInt w (10#32).toInt :=
  checkMul_correct ⟨fun _ => 120, fun n => 2 * n, 3, 3⟩ true 10#32 fun _ => .xfr

end OpenWatcom.Cg
