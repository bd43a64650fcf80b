import OpenWatcom.Cg.Constants

/-! # 64 bits in two halves

The arithmetic of hosts without a 64-bit type.  Operands and results are objects in memory, and the result may be one
of the operands: every function is a map of memories, and what it does is told by the one object that it writes
(`Mem.write`). -/

namespace OpenWatcom.Watcom

open OpenWatcom.Cfloat (lo32 hi32 toNat_halves toNat_eq_halves)

/-- `unsigned_64`, and `signed_64` as well. -/
structure Unsigned64 where
  hi : BitVec 32
  lo : BitVec 32
deriving DecidableEq

namespace Unsigned64

/-- The 64 bits of the halves. -/
def val (x : Unsigned64) : BitVec 64 := x.hi ++ x.lo

def ofVal (v : BitVec 64) : Unsigned64 := ⟨hi32 v, lo32 v⟩

@[simp] theorem lo32_val (x : Unsigned64) : lo32 x.val = x.lo := by
  have happ : (x.hi ++ x.lo).toNat = 2 ^ 32 * x.hi.toNat + x.lo.toNat := toNat_halves x.hi x.lo
  have hlt := x.lo.isLt
  apply BitVec.eq_of_toNat_eq
  unfold lo32 val
  rw [BitVec.toNat_setWidth, happ]
  omega

@[simp] theorem hi32_val (x : Unsigned64) : hi32 x.val = x.hi := by
  have hval := toNat_eq_halves x.val
  rw [lo32_val, val, toNat_halves] at hval
  apply BitVec.eq_of_toNat_eq
  unfold val
  omega

@[simp] theorem ofVal_val (x : Unsigned64) : ofVal x.val = x := by
  unfold ofVal
  rw [hi32_val, lo32_val]

@[simp] theorem val_ofVal (v : BitVec 64) : (ofVal v).val = v := by
  apply BitVec.eq_of_toNat_eq
  rw [toNat_eq_halves v]
  exact toNat_halves _ _

theorem ofVal_append (h l : BitVec 32) : ofVal (h ++ l) = ⟨h, l⟩ := ofVal_val ⟨h, l⟩

theorem toNat_val (x : Unsigned64) : x.val.toNat = 2 ^ 32 * x.hi.toNat + x.lo.toNat := by
  have h := toNat_eq_halves x.val
  rwa [hi32_val, lo32_val] at h

end Unsigned64

open Unsigned64

/-- The objects that pointers of type `α` reach. -/
abbrev Mem (α : Type) := α → Unsigned64

namespace Mem

variable {α : Type} [DecidableEq α]

def setLo (m : Mem α) (p : α) (v : BitVec 32) : Mem α := Function.update m p ⟨(m p).hi, v⟩

def setHi (m : Mem α) (p : α) (v : BitVec 32) : Mem α := Function.update m p ⟨v, (m p).lo⟩

/-- `m` with one object replaced. -/
def write (m : Mem α) (p : α) (v : BitVec 64) : Mem α := Function.update m p (ofVal v)

end Mem

/-- The assignment of a whole object. -/
def Mem.assign {α : Type} [DecidableEq α] (m : Mem α) (p : α) (x : Unsigned64) : Mem α := Function.update m p x

/-- The objects of a caller beside the two locals of a function. -/
inductive Frame (α : Type) where
  | arg (p : α)
  | tmpA
  | tmpB
deriving DecidableEq

/-- What a function sees that has locals; it writes them before it reads them. -/
def Mem.enter {α : Type} (m : Mem α) : Mem (Frame α)
  | .arg p => m p
  | _ => ⟨0, 0⟩

/-- What its caller sees after it. -/
def Mem.leave {α : Type} (m : Mem (Frame α)) : Mem α := fun p => m (.arg p)

theorem Mem.enter_arg {α : Type} {m : Mem α} {p : α} : m.enter (.arg p) = m p := rfl

@[simp] theorem Mem.leave_enter {α : Type} {m : Mem α} : m.enter.leave = m := rfl

/-! ### The functions -/

section functions

variable {α : Type} [DecidableEq α]

/-- `U64Not`. -/
def u64Not (res a : α) (m : Mem α) : Mem α :=
  let m := m.setLo res (~~~(m a).lo)
  m.setHi res (~~~(m a).hi)

/-- `U64Inc`. -/
def u64Inc (r : α) (m : Mem α) : Mem α :=
  let m := m.setLo r ((m r).lo + 1)
  if (m r).lo = 0 then m.setHi r ((m r).hi + 1) else m

/-- `U64Neg`. -/
def u64Neg (res a : α) (m : Mem α) : Mem α := u64Inc res (u64Not res a m)

/-- `U64Add`. -/
def u64Add (res a b : α) (m : Mem α) : Mem α :=
  let m := m.setHi res ((m a).hi + (m b).hi)
  let newValue := (m a).lo + (m b).lo
  let m := if newValue < (m a).lo then m.setHi res ((m res).hi + 1) else m
  m.setLo res newValue

/-- `U64AddI32`. -/
def u64AddI32 (res : α) (i : BitVec 32) (m : Mem α) : Mem α :=
  let newValue := (m res).lo + i
  let m :=
    if 0 ≤ i.toInt then
      if newValue < (m res).lo then m.setHi res ((m res).hi + 1) else m
    else
      if (m res).lo < newValue then m.setHi res ((m res).hi - 1) else m
  m.setLo res newValue

/-- `U64Sub`. -/
def u64Sub (res a b : α) (m : Mem α) : Mem α :=
  (u64Add (.arg res) (.arg a) .tmpA (u64Neg .tmpA (.arg b) m.enter)).leave

/-- `U64Cmp`. -/
def u64Cmp (a b : Unsigned64) : ℤ :=
  if b.hi < a.hi then 1
  else if a.hi < b.hi then -1
  else if b.lo < a.lo then 1
  else if a.lo < b.lo then -1
  else 0

/-- `I64Cmp`. -/
def i64Cmp (a b : Unsigned64) : ℤ :=
  if b.hi.toInt < a.hi.toInt then 1
  else if a.hi.toInt < b.hi.toInt then -1
  else if b.lo < a.lo then 1
  else if a.lo < b.lo then -1
  else 0

/-- `I64ShiftR`. -/
def i64ShiftR (res a : α) (shift : ℕ) (m : Mem α) : Mem α :=
  let shift := shift &&& 0x3f
  if shift < 32 then
    let tmp := (m a).hi
    let save := tmp <<< 1
    let m := m.setHi res (tmp.sshiftRight shift)
    let m := m.setLo res ((m a).lo >>> shift)
    m.setLo res ((m res).lo ||| save <<< (31 - shift))
  else
    let shift := shift - 32
    let tmp := (m a).hi
    let m := m.setHi res (if tmp.toInt < 0 then -1 else 0)
    m.setLo res (tmp.sshiftRight shift)

/-- `U64ShiftR`. -/
def u64ShiftR (res a : α) (shift : ℕ) (m : Mem α) : Mem α :=
  let shift := shift &&& 0x3f
  if shift < 32 then
    let save := (m a).hi
    let save := save <<< 1
    let m := m.setHi res ((m a).hi >>> shift)
    let m := m.setLo res ((m a).lo >>> shift)
    m.setLo res ((m res).lo ||| save <<< (31 - shift))
  else
    let shift := shift - 32
    let save := (m a).hi
    let m := m.setHi res 0
    m.setLo res (save >>> shift)

/-- `U64ShiftL`. -/
def u64ShiftL (res a : α) (shift : ℕ) (m : Mem α) : Mem α :=
  let shift := shift &&& 0x3f
  if shift < 32 then
    let save := (m a).lo
    let save := save >>> 1
    let m := m.setLo res ((m a).lo <<< shift)
    let m := m.setHi res ((m a).hi <<< shift)
    m.setHi res ((m res).hi ||| save >>> (31 - shift))
  else
    let shift := shift - 32
    let save := (m a).lo
    let m := m.setLo res 0
    m.setHi res (save <<< shift)

/-- `U64Shift`. -/
def u64Shift (res a : α) (shift : ℤ) (m : Mem α) : Mem α :=
  if shift < 0 then u64ShiftL res a (-shift).toNat m else u64ShiftR res a shift.toNat m

/-- The body of the loop of `U64Mul`. -/
def mulRound (res : Frame α) (m : Mem (Frame α)) : Mem (Frame α) :=
  let m := if (m .tmpB).lo &&& 1 ≠ 0 then u64Add res res .tmpA m else m
  let m := u64ShiftL .tmpA .tmpA 1 m
  u64ShiftR .tmpB .tmpB 1 m

/-- The first loop of `U64Div` with the count; `none` when it has no end. -/
def divShift : ℕ → ℕ → Mem (Frame α) → Option (Mem (Frame α) × ℕ)
  | 0, _, _ => none
  | turns + 1, count, m =>
      if (m .tmpB).hi.msb then some (m, count)
      else if u64Cmp (m .tmpA) (m .tmpB) ≤ 0 then some (m, count)
      else divShift turns (count + 1) (u64ShiftL .tmpB .tmpB 1 m)

/-- The body of the second loop. -/
def divRound (div : Frame α) (m : Mem (Frame α)) : Mem (Frame α) :=
  let m := u64ShiftL div div 1 m
  let m :=
    if 0 ≤ u64Cmp (m .tmpA) (m .tmpB) then
      let m := m.setLo div ((m div).lo ||| 1)
      u64Sub .tmpA .tmpA .tmpB m
    else m
  u64Shift .tmpB .tmpB 1 m

/-- The second loop, of `count + 1` rounds. -/
def divLoop (div : Frame α) : ℕ → Mem (Frame α) → Mem (Frame α)
  | 0, m => m
  | n + 1, m => divLoop div n (divRound div m)

/-- `U64Div`; `rem` is `NULL` or an object.  `none` when the host divides by 0, or the first loop has no end. -/
def u64Div (a b div : α) (rem : Option α) (m : Mem α) : Option (Mem α) :=
  if (m a).hi = 0 ∧ (m b).hi = 0 then
    if (m b).lo = 0 then none
    else
      let tmp := (m a).lo / (m b).lo
      let m :=
        match rem with
        | none => m
        | some rem =>
            let m := m.setLo rem ((m a).lo % (m b).lo)
            m.setHi rem 0
      let m := m.setLo div tmp
      some (m.setHi div 0)
  else
    let n := (m.enter.assign .tmpA (m a)).assign .tmpB (m b)
    (divShift 64 0 n).map fun (n, count) =>
      let n := (n.setLo (.arg div) 0).setHi (.arg div) 0
      let n := divLoop (.arg div) (count + 1) n
      match rem with
      | none => n.leave
      | some rem => (n.assign (.arg rem) (n .tmpA)).leave

/-- `I64Div`. -/
def i64Div (a b div : α) (rem : Option α) (m : Mem α) : Option (Mem α) :=
  let n := m.enter
  let remneg := (m a).hi.msb
  let neg := (m a).hi.msb ^^ (m b).hi.msb
  let n := if (m a).hi.msb then u64Neg .tmpA (.arg a) n else n.assign .tmpA (m a)
  let n := if (m b).hi.msb then u64Neg .tmpB (.arg b) n else n.assign .tmpB (m b)
  (u64Div .tmpA .tmpB (.arg div) (rem.map .arg) n).map fun r =>
    let n := if neg then u64Neg (.arg div) (.arg div) r else r
    match rem with
    | none => n.leave
    | some rem => (if remneg then u64Neg (.arg rem) (.arg rem) n else n).leave

/-! ### What they write -/

section specs

variable {α : Type} [DecidableEq α] {m : Mem α} {p q res a b : α}

@[simp] theorem Mem.write_self (v : BitVec 64) : (m.write p v) p = ofVal v := Function.update_self ..

theorem Mem.write_of_ne (h : q ≠ p) (v : BitVec 64) : (m.write p v) q = m q := Function.update_of_ne h ..

@[simp] theorem Mem.write_write (u v : BitVec 64) : (m.write p u).write p v = m.write p v := Function.update_idem ..

@[simp] theorem Mem.setHi_self (v : BitVec 32) : (m.setHi p v) p = ⟨v, (m p).lo⟩ := Function.update_self ..

@[simp] theorem Mem.setLo_self (v : BitVec 32) : (m.setLo p v) p = ⟨(m p).hi, v⟩ := Function.update_self ..

/-- The low half of any object, after the high half of one is written. -/
@[simp] theorem Mem.setHi_lo (v : BitVec 32) : ((m.setHi p v) q).lo = (m q).lo := by
  by_cases h : q = p
  · subst h
    rw [Mem.setHi_self]
  · rw [Mem.setHi, Function.update_of_ne h]

@[simp] theorem Mem.setLo_hi (v : BitVec 32) : ((m.setLo p v) q).hi = (m q).hi := by
  by_cases h : q = p
  · subst h
    rw [Mem.setLo_self]
  · rw [Mem.setLo, Function.update_of_ne h]

theorem Mem.setLo_setHi (h l : BitVec 32) : (m.setHi p h).setLo p l = m.write p (h ++ l) := by
  unfold Mem.setLo
  rw [Mem.setHi_self, Mem.setHi, Function.update_idem, Mem.write, ofVal_append]

theorem Mem.setHi_setLo (h l : BitVec 32) : (m.setLo p l).setHi p h = m.write p (h ++ l) := by
  unfold Mem.setHi
  rw [Mem.setLo_self, Mem.setLo, Function.update_idem, Mem.write, ofVal_append]

@[simp] theorem Mem.setLo_setLo (u v : BitVec 32) : (m.setLo p u).setLo p v = m.setLo p v := by
  unfold Mem.setLo
  rw [Function.update_self, Function.update_idem]

@[simp] theorem Mem.setHi_setHi (u v : BitVec 32) : (m.setHi p u).setHi p v = m.setHi p v := by
  unfold Mem.setHi
  rw [Function.update_self, Function.update_idem]

theorem Mem.setLo_eq (v : BitVec 32) : m.setLo p v = m.write p ((m p).hi ++ v) := by
  rw [Mem.setLo, Mem.write, ofVal_append]

theorem u64Not_eq : u64Not res a m = m.write res (~~~(m a).hi ++ ~~~(m a).lo) := by
  unfold u64Not
  dsimp only
  rw [Mem.setLo_hi, Mem.setHi_setLo]

theorem u64Inc_eq : u64Inc p m =
    m.write p ((if (m p).lo + 1 = 0 then (m p).hi + 1 else (m p).hi) ++ ((m p).lo + 1)) := by
  unfold u64Inc
  dsimp only
  rw [Mem.setLo_self]
  split
  · rw [Mem.setHi_setLo]
  · rw [Mem.setLo_eq]

theorem u64Neg_eq : u64Neg res a m = m.write res (-(m a).val) := by
  rw [← Cfloat.u64Neg_eq, Cfloat.u64Neg, lo32_val, hi32_val]
  unfold u64Neg
  rw [u64Not_eq, u64Inc_eq, Mem.write_self, ofVal_append, Mem.write_write]

theorem u64Add_eq : u64Add res a b m = m.write res ((m a).val + (m b).val) := by
  rw [← Cfloat.u64Add_eq, Cfloat.u64Add, lo32_val, lo32_val, hi32_val, hi32_val]
  unfold u64Add
  simp only [Mem.setHi_lo, Mem.setHi_self, Mem.setHi_setHi]
  split
  · rw [Mem.setLo_setHi]
  · rw [Mem.setLo_setHi]
    simp

theorem u64AddI32_eq (i : BitVec 32) :
    u64AddI32 res i m = m.write res ((m res).val + i.signExtend 64) := by
  have hl := (m res).lo.isLt
  have hi := i.isLt
  have hsum : ((m res).lo + i).toNat = ((m res).lo.toNat + i.toNat) % 2 ^ 32 := BitVec.toNat_add ..
  have hext : (i.signExtend 64).toNat = if 0 ≤ i.toInt then i.toNat else i.toNat + (2 ^ 64 - 2 ^ 32) := by
    rw [BitVec.toNat_signExtend, BitVec.toNat_setWidth, BitVec.msb_eq_toInt]
    by_cases hpos : 0 ≤ i.toInt
    · rw [if_pos hpos, if_neg (by simpa using hpos)]
      omega
    · rw [if_neg hpos, if_pos (by simpa using hpos)]
      omega
  have hsign : 0 ≤ i.toInt ↔ i.toNat < 2 ^ 31 := by
    rw [BitVec.toInt_eq_toNat_cond]
    split <;> omega
  have hval (h : BitVec 32) (heq : (2 ^ 32 * h.toNat + ((m res).lo + i).toNat) =
      (2 ^ 32 * (m res).hi.toNat + (m res).lo.toNat + (i.signExtend 64).toNat) % 2 ^ 64) :
      m.write res (h ++ ((m res).lo + i)) = m.write res ((m res).val + i.signExtend 64) := by
    congr 1
    apply BitVec.eq_of_toNat_eq
    rw [BitVec.toNat_add, toNat_val, ← heq]
    exact toNat_halves _ _
  have hh := (m res).hi.isLt
  have hinc : ((m res).hi + 1).toNat = ((m res).hi.toNat + 1) % 2 ^ 32 := BitVec.toNat_add ..
  have hdec : ((m res).hi - 1).toNat = ((m res).hi.toNat + (2 ^ 32 - 1)) % 2 ^ 32 := by
    rw [BitVec.toNat_sub, Nat.add_comm]
    rfl
  unfold u64AddI32
  simp only [BitVec.lt_def, hsum]
  rw [hext] at hval
  split
  · rename_i hpos
    rw [if_pos hpos] at hval
    split
    · rw [Mem.setLo_setHi, hval _ (by omega)]
    · rw [Mem.setLo_eq, hval _ (by omega)]
  · rename_i hneg
    rw [if_neg hneg] at hval
    split
    · rw [Mem.setLo_setHi, hval _ (by omega)]
    · rw [Mem.setLo_eq, hval _ (by omega)]

@[simp] theorem Mem.leave_write_arg {n : Mem (Frame α)} (v : BitVec 64) :
    (n.write (.arg p) v).leave = n.leave.write p v := by
  funext r
  by_cases h : r = p
  · subst h
    rw [Mem.write_self, Mem.leave, Mem.write_self]
  · rw [Mem.write_of_ne h, Mem.leave, Mem.write_of_ne (by simpa using h), Mem.leave]

@[simp] theorem Mem.leave_write_tmpA {n : Mem (Frame α)} (v : BitVec 64) : (n.write .tmpA v).leave = n.leave := by
  funext r
  rw [Mem.leave, Mem.write_of_ne (by simp), Mem.leave]

@[simp] theorem Mem.leave_write_tmpB {n : Mem (Frame α)} (v : BitVec 64) : (n.write .tmpB v).leave = n.leave := by
  funext r
  rw [Mem.leave, Mem.write_of_ne (by simp), Mem.leave]

theorem u64Sub_eq : u64Sub res a b m = m.write res ((m a).val - (m b).val) := by
  unfold u64Sub
  rw [u64Neg_eq, u64Add_eq, Mem.leave_write_arg, Mem.leave_write_tmpA, Mem.leave_enter, Mem.write_self, val_ofVal,
    Mem.write_of_ne (by simp), Mem.enter_arg, Mem.enter_arg, BitVec.sub_eq_add_neg]

theorem u64Cmp_eq (x y : Unsigned64) : u64Cmp x y = Cg.u64Cmp x.val y.val := by
  have hx := x.lo.isLt
  have hy := y.lo.isLt
  unfold u64Cmp Cg.u64Cmp
  rw [toNat_val, toNat_val]
  simp only [BitVec.lt_def]
  split_ifs <;> omega

theorem i64Cmp_eq (x y : Unsigned64) : i64Cmp x y = Cg.i64Cmp x.val y.val := by
  have hx := x.lo.isLt
  have hy := y.lo.isLt
  have hval (z : Unsigned64) : z.val.toInt = 2 ^ 32 * z.hi.toInt + z.lo.toNat := by
    rw [BitVec.toInt_eq_toNat_cond, BitVec.toInt_eq_toNat_cond, toNat_val]
    have hz := z.lo.isLt
    split_ifs <;> omega
  unfold i64Cmp Cg.i64Cmp
  rw [hval, hval]
  simp only [BitVec.lt_def]
  split_ifs <;> omega

/-! ### Shifts -/

theorem shiftLeft_halves (h l : BitVec 32) {s : ℕ} (hs : s < 32) :
    (h <<< s ||| (l >>> 1) >>> (31 - s)) ++ l <<< s = (h ++ l) <<< s := by
  apply BitVec.eq_of_getLsbD_eq
  intro i hi
  simp only [BitVec.getLsbD_append, BitVec.getLsbD_or, BitVec.getLsbD_shiftLeft, BitVec.getLsbD_ushiftRight]
  by_cases hlow : i < 32
  · simp [hlow, show i < 64 by omega, show i - s < 32 by omega]
  · by_cases hmid : i - s < 32
    · simp [hlow, hmid, show i < 64 by omega, show ¬ i < s by omega, show i - 32 < s by omega,
        show 1 + (31 - s + (i - 32)) = i - s by omega]
    · simp [hlow, hmid, show i < 64 by omega, show ¬ i < s by omega, show ¬ i - 32 < s by omega,
        show i - 32 < 32 by omega, show i - s - 32 = i - 32 - s by omega,
        BitVec.getLsbD_of_ge l (1 + (31 - s + (i - 32))) (by omega)]

theorem shiftLeft_low (h l : BitVec 32) {s : ℕ} (hlow : 32 ≤ s) (hhigh : s < 64) :
    (l <<< (s - 32)) ++ (0 : BitVec 32) = (h ++ l) <<< s := by
  apply BitVec.eq_of_getLsbD_eq
  intro i hi
  simp only [BitVec.getLsbD_append, BitVec.getLsbD_shiftLeft]
  by_cases hs : i < s
  · by_cases hi32 : i < 32
    · simp [hi32, hs]
    · simp [hi32, hs, show i - 32 < s - 32 by omega]
  · simp [hs, show i < 64 by omega, show ¬ i < 32 by omega, show ¬ i - 32 < s - 32 by omega, show i - s < 32 by omega,
        show i - 32 < 32 by omega, show i - 32 - (s - 32) = i - s by omega]

theorem shiftRight_halves (h l : BitVec 32) {s : ℕ} (hs : s < 32) :
    h >>> s ++ (l >>> s ||| (h <<< 1) <<< (31 - s)) = (h ++ l) >>> s := by
  apply BitVec.eq_of_getLsbD_eq
  intro i hi
  simp only [BitVec.getLsbD_append, BitVec.getLsbD_or, BitVec.getLsbD_shiftLeft, BitVec.getLsbD_ushiftRight]
  by_cases hlow : i < 32
  · by_cases hmid : s + i < 32
    · simp [hlow, hmid]
      omega
    · simp [hlow, hmid, show ¬ i < 31 - s by omega, show ¬ i - (31 - s) < 1 by omega, show i - (31 - s) < 32 by omega,
        show i - (31 - s) - 1 = s + i - 32 by omega, BitVec.getLsbD_of_ge l (s + i) (by omega)]
  · simp [hlow, show ¬ s + i < 32 by omega, show s + (i - 32) = s + i - 32 by omega]

theorem shiftRight_high (h l : BitVec 32) {s : ℕ} (hlow : 32 ≤ s) :
    (0 : BitVec 32) ++ h >>> (s - 32) = (h ++ l) >>> s := by
  apply BitVec.eq_of_getLsbD_eq
  intro i hi
  simp only [BitVec.getLsbD_append, BitVec.getLsbD_ushiftRight]
  by_cases hi32 : i < 32
  · simp [hi32, show ¬ s + i < 32 by omega, show s - 32 + i = s + i - 32 by omega]
  · simp [hi32, show ¬ s + i < 32 by omega, BitVec.getLsbD_of_ge h (s + i - 32) (by omega)]

theorem sshiftRight_halves (h l : BitVec 32) {s : ℕ} (hs : s < 32) :
    h.sshiftRight s ++ (l >>> s ||| (h <<< 1) <<< (31 - s)) = (h ++ l).sshiftRight s := by
  apply BitVec.eq_of_getLsbD_eq
  intro i hi
  simp only [BitVec.getLsbD_append, BitVec.getLsbD_or, BitVec.getLsbD_shiftLeft, BitVec.getLsbD_ushiftRight,
    BitVec.getLsbD_sshiftRight, BitVec.msb_append]
  by_cases hlow : i < 32
  · by_cases hmid : s + i < 32
    · simp [hlow, hmid, show ¬ 64 ≤ i by omega, show s + i < 64 by omega]
      omega
    · simp [hlow, hmid, show ¬ i < 31 - s by omega, show ¬ i - (31 - s) < 1 by omega, show i - (31 - s) < 32 by omega,
        show i - (31 - s) - 1 = s + i - 32 by omega, BitVec.getLsbD_of_ge l (s + i) (by omega),
        show ¬ 64 ≤ i by omega, show s + i < 64 by omega]
  · by_cases htop : s + i < 64
    · simp [hlow, show ¬ s + i < 32 by omega, show s + (i - 32) = s + i - 32 by omega, htop,
        show s + i - 32 < 32 by omega, show ¬ 64 ≤ i by omega, show ¬ 32 ≤ i - 32 by omega]
    · simp [hlow, show s + (i - 32) = s + i - 32 by omega, htop,
        show ¬ s + i - 32 < 32 by omega, show ¬ 64 ≤ i by omega, show ¬ 32 ≤ i - 32 by omega]

theorem sshiftRight_high (h l : BitVec 32) {s : ℕ} (hlow : 32 ≤ s) (hhigh : s < 64) :
    (if h.toInt < 0 then -1 else 0 : BitVec 32) ++ h.sshiftRight (s - 32) = (h ++ l).sshiftRight s := by
  have hsign : (if h.toInt < 0 then -1 else 0 : BitVec 32) = if h.msb then BitVec.allOnes 32 else 0 := by
    rw [BitVec.msb_eq_toInt]
    by_cases hneg : h.toInt < 0
    · rw [if_pos hneg, if_pos (decide_eq_true hneg)]
      rfl
    · rw [if_neg hneg, if_neg (by simpa using hneg)]
  rw [hsign]
  apply BitVec.eq_of_getLsbD_eq
  intro i hi
  simp only [BitVec.getLsbD_append, BitVec.getLsbD_sshiftRight, BitVec.msb_append]
  by_cases hi32 : i < 32
  · by_cases htop : s + i < 64
    · simp [hi32, htop, show ¬ s + i < 32 by omega, show s - 32 + i = s + i - 32 by omega,
        show s + i - 32 < 32 by omega, show ¬ 64 ≤ i by omega, show ¬ 32 ≤ i by omega]
    · simp [hi32, htop, show s - 32 + i = s + i - 32 by omega,
        show ¬ s + i - 32 < 32 by omega, show ¬ 64 ≤ i by omega, show ¬ 32 ≤ i by omega]
  · cases hmsb : h.msb
    · simp [hi32, show ¬ s + i < 64 by omega]
    · simp [hi32, show ¬ s + i < 64 by omega, show i - 32 < 32 by omega, show ¬ 64 ≤ i by omega]
      exact BitVec.getElem_allOnes (i - 32) (by omega)

theorem mask_shift {shift : ℕ} (hshift : shift < 64) : shift &&& 0x3f = shift := by
  rw [show 0x3f = 2 ^ 6 - 1 from rfl, Nat.and_two_pow_sub_one_eq_mod]
  omega

theorem u64ShiftL_eq {shift : ℕ} (hshift : shift < 64) :
    u64ShiftL res a shift m = m.write res ((m a).val <<< shift) := by
  unfold u64ShiftL
  dsimp only
  rw [mask_shift hshift]
  split
  · rename_i hlt
    rw [Mem.setLo_hi, Mem.setHi_self, Mem.setHi_setHi, Mem.setHi_setLo, shiftLeft_halves _ _ hlt, val]
  · rw [Mem.setHi_setLo, shiftLeft_low _ _ (by omega) hshift, val]

theorem u64ShiftR_eq {shift : ℕ} (hshift : shift < 64) :
    u64ShiftR res a shift m = m.write res ((m a).val >>> shift) := by
  unfold u64ShiftR
  dsimp only
  rw [mask_shift hshift]
  split
  · rename_i hlt
    rw [Mem.setHi_lo, Mem.setLo_self, Mem.setLo_setLo, Mem.setLo_setHi, shiftRight_halves _ _ hlt, val]
  · rw [Mem.setLo_setHi, shiftRight_high _ _ (by omega), val]

theorem i64ShiftR_eq {shift : ℕ} (hshift : shift < 64) :
    i64ShiftR res a shift m = m.write res ((m a).val.sshiftRight shift) := by
  unfold i64ShiftR
  dsimp only
  rw [mask_shift hshift]
  split
  · rename_i hlt
    rw [Mem.setHi_lo, Mem.setLo_self, Mem.setLo_setLo, Mem.setLo_setHi, sshiftRight_halves _ _ hlt, val]
  · rw [Mem.setLo_setHi, sshiftRight_high _ _ (by omega) hshift, val]

end specs

/-! ### Multiplication and division -/

section loops

variable {α : Type} [DecidableEq α] {m : Mem α} {p q res a b div : α}

theorem Mem.assign_eq (x : Unsigned64) : m.assign p x = m.write p x.val := by
  rw [Mem.assign, Mem.write, ofVal_val]

@[simp] theorem Mem.write_val_self : m.write p (m p).val = m := by
  rw [Mem.write, ofVal_val, Function.update_eq_self]

theorem Mem.write_comm (h : p ≠ q) (u v : BitVec 64) : (m.write p u).write q v = (m.write q v).write p u :=
  Function.update_comm h _ _ _

theorem Mem.write_again (h : p ≠ q) (u v w : BitVec 64) :
    ((m.write p u).write q v).write p w = (m.write p w).write q v := by
  rw [Mem.write_comm h u v, Mem.write_write, ← Mem.write_comm h w v]

theorem mulRound_eq (m : Mem (Frame α)) :
    mulRound (.arg res) m =
      ((m.write (.arg res) (if lo32 (m .tmpB).val &&& 1 ≠ 0 then
          Cfloat.u64Add (m (.arg res)).val (m .tmpA).val else (m (.arg res)).val)).write .tmpA
        ((m .tmpA).val <<< 1)).write .tmpB ((m .tmpB).val >>> 1) := by
  unfold mulRound
  dsimp only
  rw [u64ShiftL_eq (by norm_num), u64ShiftR_eq (by norm_num), Mem.write_of_ne (by simp), lo32_val, Cfloat.u64Add_eq]
  split
  · rw [u64Add_eq, Mem.write_of_ne (by simp), Mem.write_of_ne (by simp)]
  · rw [Mem.write_val_self]

theorem val_eq_zero (x : Unsigned64) : x.lo ||| x.hi = 0 ↔ x.val.toNat = 0 := by
  rw [toNat_val]
  constructor
  · intro h
    obtain ⟨hlo, hhi⟩ := BitVec.or_eq_zero_iff.mp h
    rw [hlo, hhi]
    rfl
  · intro h
    have hlo : x.lo = 0 := BitVec.eq_of_toNat_eq (by simpa using (by omega : x.lo.toNat = 0))
    have hhi : x.hi = 0 := BitVec.eq_of_toNat_eq (by simpa using (by omega : x.hi.toNat = 0))
    rw [hlo, hhi]
    rfl

/-- The loop of `U64Mul`. -/
def u64MulLoop (res : α) (m : Mem (Frame α)) : Mem (Frame α) :=
  if (m .tmpB).lo ||| (m .tmpB).hi = 0 then m else u64MulLoop res (mulRound (.arg res) m)
termination_by (m .tmpB).val.toNat
decreasing_by
  rename_i hne
  rw [val_eq_zero] at hne
  rw [mulRound_eq, Mem.write_self, val_ofVal, BitVec.toNat_ushiftRight, Nat.shiftRight_one]
  omega

/-- `U64Mul`. -/
def u64Mul (res a b : α) (m : Mem α) : Mem α :=
  let n := (m.enter.assign .tmpA (m a)).assign .tmpB (m b)
  (u64MulLoop res ((n.setLo (.arg res) 0).setHi (.arg res) 0)).leave

theorem u64MulLoop_leave (m : Mem (Frame α)) :
    (u64MulLoop res m).leave =
      m.leave.write res (Cfloat.u64MulLoop (m (.arg res)).val (m .tmpA).val (m .tmpB).val) := by
  induction m using u64MulLoop.induct res with
  | case1 m hzero =>
      rw [u64MulLoop, if_pos hzero, Cfloat.u64MulLoop, if_pos ((val_eq_zero _).mp hzero)]
      exact Mem.write_val_self.symm
  | case2 m hne ih =>
      have hloop := Cfloat.u64MulLoop.eq_def (m (.arg res)).val (m .tmpA).val (m .tmpB).val
      rw [if_neg (by rwa [← val_eq_zero])] at hloop
      rw [u64MulLoop, if_neg hne, ih, mulRound_eq, hloop, Mem.leave_write_tmpB, Mem.leave_write_tmpA,
        Mem.leave_write_arg, Mem.write_write, Mem.write_self, val_ofVal, Mem.write_of_ne (by simp),
        Mem.write_of_ne (by simp), Mem.write_self, val_ofVal, Mem.write_of_ne (by simp), Mem.write_self, val_ofVal]

theorem u64Mul_eq : u64Mul res a b m = m.write res ((m a).val * (m b).val) := by
  unfold u64Mul
  dsimp only
  rw [u64MulLoop_leave, Mem.setHi_setLo, Mem.leave_write_arg, Mem.write_write, Mem.write_self, Mem.assign_eq,
    Mem.assign_eq, Mem.leave_write_tmpB, Mem.leave_write_tmpA, Mem.leave_enter, Mem.write_of_ne (by simp),
    Mem.write_of_ne (by simp), Mem.write_self, Mem.write_of_ne (by simp), Mem.write_self, val_ofVal, val_ofVal,
    val_ofVal, ← Cfloat.u64Mul_eq, Cfloat.u64Mul]
  rfl

theorem divShift_eq (turns count : ℕ) (m : Mem (Frame α)) :
    divShift turns count m = (Cg.divShift (m .tmpA).val turns (m .tmpB).val count).map
      fun p => (m.write .tmpB p.1, p.2) := by
  induction turns generalizing count m with
  | zero => rfl
  | succ turns ih =>
      have hmsb : (m .tmpB).val.msb = (m .tmpB).hi.msb := by
        rw [val, BitVec.msb_append]
        rfl
      rw [divShift, Cg.divShift, hmsb, u64Cmp_eq]
      split
      · rw [Option.map_some, Mem.write_val_self]
      · split
        · rw [Option.map_some, Mem.write_val_self]
        · rw [ih, u64ShiftL_eq (by norm_num), Mem.write_self, Mem.write_of_ne (by simp), val_ofVal]
          congr 1
          funext p
          rw [Mem.write_write]

theorem or_one_halves (y : BitVec 64) : hi32 y ++ (lo32 y ||| 1) = y ||| 1#64 := by
  have hone : (1 : BitVec 32).toNat = 1 := rfl
  have hlow (n : ℕ) : n ||| 1 = 2 * (n / 2) + 1 := by
    have hn : 2 ^ 1 * (n / 2) + n % 2 = n := by omega
    have hbit : n % 2 ||| 1 = 1 := by
      rcases Nat.mod_two_eq_zero_or_one n with h | h <;> rw [h] <;> rfl
    rw [← hn, Nat.two_pow_add_eq_or_of_lt (by omega), Nat.or_assoc, hbit,
      ← Nat.two_pow_add_eq_or_of_lt (by norm_num), ← Nat.two_pow_add_eq_or_of_lt (by omega), hn, pow_one]
  have hy := toNat_eq_halves y
  apply BitVec.eq_of_toNat_eq
  rw [toNat_halves, BitVec.toNat_or, BitVec.toNat_or, hone, show (1#64).toNat = 1 from rfl, hlow, hlow]
  omega

theorem u64Sub_val (x y : BitVec 64) : Cg.u64Sub x y = x - y := by
  rw [Cg.u64Sub, Cfloat.u64Neg_eq, Cfloat.u64Add_eq, BitVec.sub_eq_add_neg]

theorem divRound_eq (m : Mem (Frame α)) :
    divRound (.arg div) m =
      if 0 ≤ Cg.u64Cmp (m .tmpA).val (m .tmpB).val then
        ((m.write (.arg div) (((m (.arg div)).val <<< 1) ||| 1#64)).write .tmpA
          (Cg.u64Sub (m .tmpA).val (m .tmpB).val)).write .tmpB ((m .tmpB).val >>> 1)
      else (m.write (.arg div) ((m (.arg div)).val <<< 1)).write .tmpB ((m .tmpB).val >>> 1) := by
  have hshift (m : Mem (Frame α)) : u64Shift .tmpB .tmpB 1 m = m.write .tmpB ((m .tmpB).val >>> 1) := by
    rw [u64Shift, if_neg (by norm_num)]
    exact u64ShiftR_eq (by norm_num)
  unfold divRound
  dsimp only
  rw [hshift, u64ShiftL_eq (by norm_num), Mem.write_of_ne (by simp), Mem.write_of_ne (by simp), u64Cmp_eq]
  split
  · rw [Mem.write_self, Mem.setLo_eq, Mem.write_self, u64Sub_eq, Mem.write_write, Mem.write_of_ne (by simp),
      Mem.write_of_ne (by simp), Mem.write_of_ne (by simp), u64Sub_val, ofVal]
    dsimp only
    rw [or_one_halves, Mem.write_of_ne (by simp)]
  · rw [Mem.write_of_ne (by simp)]

theorem divLoop_tmpA (div : α) (n : ℕ) (m : Mem (Frame α)) :
    (divLoop (.arg div) n m .tmpA).val =
      (Cg.divLoop n (m (.arg div)).val (m .tmpA).val (m .tmpB).val).2 := by
  induction n generalizing m with
  | zero => rfl
  | succ n ih =>
      rw [divLoop, ih, divRound_eq, Cg.divLoop]
      split
      · rw [Mem.write_of_ne (by simp), Mem.write_of_ne (by simp), Mem.write_self, Mem.write_of_ne (by simp),
          Mem.write_self, Mem.write_self, val_ofVal, val_ofVal, val_ofVal]
      · rw [Mem.write_of_ne (by simp), Mem.write_self, Mem.write_of_ne (by simp), Mem.write_of_ne (by simp),
          Mem.write_self, val_ofVal, val_ofVal]

theorem divLoop_leave (div : α) (n : ℕ) (m : Mem (Frame α)) :
    (divLoop (.arg div) n m).leave =
      m.leave.write div (Cg.divLoop n (m (.arg div)).val (m .tmpA).val (m .tmpB).val).1 := by
  induction n generalizing m with
  | zero => exact Mem.write_val_self.symm
  | succ n ih =>
      rw [divLoop, ih, divRound_eq, Cg.divLoop]
      split
      · rw [Mem.write_of_ne (by simp), Mem.write_of_ne (by simp), Mem.write_self, Mem.write_of_ne (by simp),
          Mem.write_self, Mem.write_self, val_ofVal, val_ofVal, val_ofVal, Mem.leave_write_tmpB, Mem.leave_write_tmpA,
          Mem.leave_write_arg, Mem.write_write]
      · rw [Mem.write_of_ne (by simp), Mem.write_self, Mem.write_of_ne (by simp), Mem.write_of_ne (by simp),
          Mem.write_self, val_ofVal, val_ofVal, Mem.leave_write_tmpB, Mem.leave_write_arg, Mem.write_write]

theorem zero_append (x : BitVec 32) : (0 : BitVec 32) ++ x = x.setWidth 64 := by
  have hlt := x.isLt
  apply BitVec.eq_of_toNat_eq
  rw [toNat_halves, BitVec.toNat_setWidth]
  change 2 ^ 32 * 0 + x.toNat = _
  omega

/-- The writing of the remainder, if it is asked for. -/
def Mem.writeOpt (m : Mem α) : Option α → BitVec 64 → Mem α
  | none, _ => m
  | some p, v => m.write p v

theorem Mem.writeOpt_comm {rem : Option α} (h : rem ≠ some p) (u v : BitVec 64) :
    (m.writeOpt rem u).write p v = (m.write p v).writeOpt rem u := by
  cases rem with
  | none => rfl
  | some q => exact Mem.write_comm (fun he => h (congrArg some he)) u v

theorem u64Div_eq {rem : Option α} (hb : (m b).val ≠ 0) (hrem : rem ≠ some div) :
    u64Div a b div rem m =
      some ((m.write div ((m a).val / (m b).val)).writeOpt rem ((m a).val % (m b).val)) := by
  have hspec := Cg.u64Div_spec (m a).val hb
  unfold u64Div
  rw [Cg.u64Div, hi32_val, hi32_val, lo32_val, lo32_val] at hspec
  split at hspec
  · rename_i hsmall
    rw [if_pos hsmall]
    split at hspec
    · exact absurd hspec (by simp)
    · rename_i hlo
      simp only [Option.some.injEq, Prod.mk.injEq] at hspec
      rw [if_neg hlo, ← Mem.writeOpt_comm hrem, ← hspec.1, ← hspec.2, ← zero_append, ← zero_append]
      dsimp only
      rw [Mem.setHi_setLo]
      cases rem with
      | none => rfl
      | some rem =>
          dsimp only
          rw [Mem.setHi_setLo]
          rfl
  · rename_i hlarge
    have htmpA : ((m.enter.assign .tmpA (m a)).assign .tmpB (m b)) .tmpA = m a := by
      rw [Mem.assign_eq, Mem.assign_eq, Mem.write_of_ne (by simp), Mem.write_self, ofVal_val]
    have htmpB : ((m.enter.assign .tmpA (m a)).assign .tmpB (m b)) .tmpB = m b := by
      rw [Mem.assign_eq, Mem.assign_eq, Mem.write_self, ofVal_val]
    have hleave : ((m.enter.assign .tmpA (m a)).assign .tmpB (m b)).leave = m := by
      rw [Mem.assign_eq, Mem.assign_eq, Mem.leave_write_tmpB, Mem.leave_write_tmpA, Mem.leave_enter]
    rw [if_neg hlarge]
    dsimp only
    rw [divShift_eq, htmpA, htmpB, Option.map_map]
    cases hshift : Cg.divShift (m a).val 64 (m b).val 0 with
    | none =>
        rw [hshift] at hspec
        exact absurd hspec (by simp)
    | some p =>
        rw [hshift, Option.map_some, Option.some.injEq] at hspec
        rw [Option.map_some, Option.some.injEq, Function.comp_apply]
        dsimp only
        rw [Mem.setHi_setLo]
        have hquot := divLoop_leave div (p.2 + 1)
          ((((m.enter.assign .tmpA (m a)).assign .tmpB (m b)).write .tmpB p.1).write (.arg div)
            ((0 : BitVec 32) ++ (0 : BitVec 32)))
        have hrest := divLoop_tmpA div (p.2 + 1)
          ((((m.enter.assign .tmpA (m a)).assign .tmpB (m b)).write .tmpB p.1).write (.arg div)
            ((0 : BitVec 32) ++ (0 : BitVec 32)))
        rw [Mem.write_self, Mem.write_of_ne (by simp), Mem.write_of_ne (by simp), htmpA, Mem.write_of_ne (by simp),
          Mem.write_self, val_ofVal, val_ofVal, show (0 : BitVec 32) ++ (0 : BitVec 32) = (0 : BitVec 64) from rfl,
          hspec] at hquot hrest
        rw [Mem.leave_write_arg, Mem.leave_write_tmpB, hleave, Mem.write_write] at hquot
        cases rem with
        | none => exact hquot
        | some rem =>
            dsimp only
            rw [Mem.assign_eq, Mem.leave_write_arg]
            exact congrArg₂ (fun n v => Mem.write n rem v) hquot hrest

theorem sdiv_mul_add_srem (x y : BitVec 64) : x.sdiv y * y + x.srem y = x := by
  apply BitVec.eq_of_toInt_eq
  rw [BitVec.toInt_add, BitVec.toInt_mul, BitVec.toInt_sdiv, BitVec.toInt_srem, Int.bmod_mul_bmod, Int.bmod_add_bmod,
    Int.tdiv_mul_add_tmod, BitVec.toInt_bmod_cancel]

theorem msb_val (x : Unsigned64) : x.val.msb = x.hi.msb := by
  rw [val, BitVec.msb_append]
  rfl

theorem i64Div_eq {rem : Option α} (hb : (m b).val ≠ 0) (hrem : rem ≠ some div) :
    i64Div a b div rem m =
      some ((m.write div ((m a).val.sdiv (m b).val)).writeOpt rem ((m a).val.srem (m b).val)) := by
  have htmpA : (if (m a).hi.msb then u64Neg .tmpA (.arg a) m.enter else m.enter.assign .tmpA (m a)) =
      m.enter.write .tmpA (if (m a).hi.msb then -(m a).val else (m a).val) := by
    split
    · rw [u64Neg_eq, Mem.enter_arg]
    · rw [Mem.assign_eq]
  have htmpB (n : Mem (Frame α)) (hn : n (.arg b) = m b) :
      (if (m b).hi.msb then u64Neg .tmpB (.arg b) n else n.assign .tmpB (m b)) =
        n.write .tmpB (if (m b).hi.msb then -(m b).val else (m b).val) := by
    split
    · rw [u64Neg_eq, hn]
    · rw [Mem.assign_eq]
  have hne : (if (m b).hi.msb then -(m b).val else (m b).val) ≠ 0 := by
    split
    · exact fun h => hb (BitVec.neg_eq_zero_iff.mp h)
    · exact hb
  have hrem' : rem.map Frame.arg ≠ some (.arg div) := by
    cases rem with
    | none => simp
    | some q => simpa using hrem
  unfold i64Div
  dsimp only
  rw [htmpA, htmpB _ (by rw [Mem.write_of_ne (by simp), Mem.enter_arg]),
    u64Div_eq (by rw [Mem.write_self, val_ofVal]; exact hne) hrem', Option.map_some, Option.some.injEq, Mem.write_self,
    Mem.write_of_ne (by simp), Mem.write_self, val_ofVal, val_ofVal, BitVec.sdiv_eq, BitVec.srem_eq, msb_val, msb_val]
  cases rem with
  | none =>
      cases (m a).hi.msb <;> cases (m b).hi.msb <;> simp [Mem.writeOpt, u64Neg_eq]
  | some rem =>
      have hne : div ≠ rem := fun h => hrem (congrArg some h.symm)
      have hdiff : Frame.arg rem ≠ Frame.arg div := by simpa using hne.symm
      cases (m a).hi.msb <;> cases (m b).hi.msb <;>
        simp [Mem.writeOpt, u64Neg_eq, Mem.write_of_ne hdiff, Mem.write_of_ne hdiff.symm, Mem.write_again hne]

end loops

end functions

/-! ### Numbers from digits -/

/-- `U64Cnv8`, `U64Cnv2` and `U64Cnv16`: the digit goes behind the shifted bits. -/
def cnvShift (mask : BitVec 32) (k : ℕ) (res : Unsigned64) (c : BitVec 8) : Unsigned64 × Bool :=
  let overflow := decide (res.hi &&& mask ≠ 0)
  let save := res.lo
  let tmp : Unsigned64 := ⟨res.hi <<< k, res.lo <<< k⟩
  let tmp := { tmp with hi := tmp.hi ||| save >>> (32 - k) }
  ({ tmp with lo := tmp.lo ||| c.setWidth 32 }, overflow)

def u64Cnv8 : Unsigned64 → BitVec 8 → Unsigned64 × Bool := cnvShift 0xE0000000 3

def u64Cnv2 : Unsigned64 → BitVec 8 → Unsigned64 × Bool := cnvShift 0x80000000 1

def u64Cnv16 : Unsigned64 → BitVec 8 → Unsigned64 × Bool := cnvShift 0xF0000000 4

/-- The additions of `U64Cnv10`: eight times the number, twice the number, and the digit. -/
def cnvSum (tmp8 tmp2 : Unsigned64) (c : BitVec 32) (overflow : Bool) : Unsigned64 × Bool :=
  let save := tmp8.lo + tmp2.lo
  let tmp2 := { tmp2 with lo := save }
  let carry := decide (save < tmp8.lo)
  let tmp8 := if carry then { tmp8 with hi := tmp8.hi + 1 } else tmp8
  let overflow := overflow || carry && decide (tmp8.hi = 0)
  let save := tmp8.hi + tmp2.hi
  let tmp2 := { tmp2 with hi := save }
  let overflow := overflow || decide (save < tmp8.hi)
  let save := tmp2.lo + c
  let tmp2 := { tmp2 with lo := save }
  let carry := decide (save < c)
  let tmp2 := if carry then { tmp2 with hi := tmp2.hi + 1 } else tmp2
  (tmp2, overflow || carry && decide (tmp2.hi = 0))

/-- `U64Cnv10`. -/
def u64Cnv10 (res : Unsigned64) (c : BitVec 8) : Unsigned64 × Bool :=
  let overflow := decide (res.hi &&& 0xE0000000 ≠ 0)
  let overflow := overflow || decide (res.hi &&& 0x80000000 ≠ 0)
  let tmp8 : Unsigned64 := ⟨res.hi <<< 3 ||| res.lo >>> (32 - 3), res.lo <<< 3⟩
  let tmp2 : Unsigned64 := ⟨res.hi <<< 1 ||| res.lo >>> (32 - 1), res.lo <<< 1⟩
  cnvSum tmp8 tmp2 (c.setWidth 32) overflow

/-- A converter for a base: the number with the digit behind it, and whether it did not fit. -/
def Converts (cnv : Unsigned64 → BitVec 8 → Unsigned64 × Bool) (base : ℕ) : Prop :=
  ∀ res c, c.toNat < base →
    (cnv res c).1.val.toNat = (res.val.toNat * base + c.toNat) % 2 ^ 64 ∧
      ((cnv res c).2 = true ↔ 2 ^ 64 ≤ res.val.toNat * base + c.toNat)

theorem and_high_eq_zero (x : BitVec 32) {k : ℕ} (hk : k ≤ 32) :
    x &&& (BitVec.allOnes 32 <<< k) = 0 ↔ x.toNat < 2 ^ k := by
  constructor
  · intro h
    apply Nat.lt_pow_two_of_testBit
    intro i hi
    have hbit := congrArg (fun y : BitVec 32 => y.getLsbD i) h
    simp only [BitVec.getLsbD_and, BitVec.getLsbD_shiftLeft, BitVec.getLsbD_allOnes] at hbit
    rw [BitVec.testBit_toNat]
    by_cases hlt : i < 32
    · simpa [hlt, show ¬ i < k by omega, show i - k < 32 by omega] using hbit
    · exact BitVec.getLsbD_of_ge x i (by omega)
  · intro h
    apply BitVec.eq_of_getLsbD_eq
    intro i hi
    simp only [BitVec.getLsbD_and, BitVec.getLsbD_shiftLeft, BitVec.getLsbD_allOnes]
    by_cases hik : i < k
    · simp [hik]
    · have hbit : x.getLsbD i = false := by
        rw [← BitVec.testBit_toNat]
        exact Nat.testBit_lt_two_pow (h.trans_le (Nat.pow_le_pow_right (by norm_num) (by omega)))
      simp [hbit]

theorem shiftLeft_toNat (x : Unsigned64) {k : ℕ} (hk : k < 32) (hk0 : 0 < k) :
    2 ^ 32 * (x.hi <<< k ||| x.lo >>> (32 - k)).toNat + (x.lo <<< k).toNat = x.val.toNat * 2 ^ k % 2 ^ 64 := by
  have hsplit : x.lo >>> (32 - k) = (x.lo >>> 1) >>> (31 - k) := by
    rw [← BitVec.shiftRight_add]
    congr 1
    omega
  rw [hsplit, ← toNat_halves, shiftLeft_halves x.hi x.lo hk, BitVec.toNat_shiftLeft, Nat.shiftLeft_eq]
  rfl

theorem digit_toNat (c : BitVec 8) : (c.setWidth 32).toNat = c.toNat := by
  have hlt := c.isLt
  rw [BitVec.toNat_setWidth]
  omega

theorem or_digit {x : BitVec 32} {c : BitVec 8} {k : ℕ} (hc : c.toNat < 2 ^ k) :
    (x <<< k ||| c.setWidth 32).toNat = (x <<< k).toNat + c.toNat := by
  rw [BitVec.toNat_or, digit_toNat, BitVec.toNat_shiftLeft, Nat.shiftLeft_eq]
  by_cases hk : k ≤ 32
  · have hmul : x.toNat * 2 ^ k % 2 ^ 32 = 2 ^ k * (x.toNat % 2 ^ (32 - k)) := by
      rw [show (2 : ℕ) ^ 32 = 2 ^ (32 - k) * 2 ^ k by rw [← pow_add, Nat.sub_add_cancel hk], Nat.mul_mod_mul_right,
        mul_comm]
    rw [hmul, Nat.two_pow_add_eq_or_of_lt hc]
  · have hzero : x.toNat * 2 ^ k % 2 ^ 32 = 0 :=
      Nat.mod_eq_zero_of_dvd (Dvd.dvd.mul_left (Nat.pow_dvd_pow 2 (by omega)) _)
    rw [hzero, Nat.zero_or, Nat.zero_add]

theorem cnvShift_converts {k : ℕ} (hk : k < 8) (hk0 : 0 < k) :
    Converts (cnvShift (BitVec.allOnes 32 <<< (32 - k)) k) (2 ^ k) := by
  intro res c hc
  have hshift := shiftLeft_toNat res (by omega) hk0
  have hsplit : (2 : ℕ) ^ 64 = 2 ^ (64 - k) * 2 ^ k := by rw [← pow_add, Nat.sub_add_cancel (by omega)]
  have hhalf : (2 : ℕ) ^ (64 - k) = 2 ^ 32 * 2 ^ (32 - k) := by
    rw [← pow_add]
    congr 1
    omega
  have hval := toNat_val res
  have hl := res.lo.isLt
  constructor
  · unfold cnvShift
    dsimp only
    rw [toNat_val]
    dsimp only
    have hmod : res.val.toNat * 2 ^ k % 2 ^ 64 = 2 ^ k * (res.val.toNat % 2 ^ (64 - k)) := by
      rw [hsplit, Nat.mul_mod_mul_right, mul_comm]
    have hlt : 2 ^ k * (res.val.toNat % 2 ^ (64 - k)) + c.toNat < 2 ^ 64 := by
      have hrem : res.val.toNat % 2 ^ (64 - k) + 1 ≤ 2 ^ (64 - k) := Nat.mod_lt _ (Nat.two_pow_pos _)
      have hmul := Nat.mul_le_mul_left (2 ^ k) hrem
      rw [hsplit, mul_comm (2 ^ (64 - k))]
      rw [mul_add, mul_one] at hmul
      omega
    rw [or_digit hc, ← Nat.add_assoc, hshift, Nat.add_mod, hmod, Nat.mod_eq_of_lt (hc.trans_le _), Nat.mod_eq_of_lt hlt]
    exact Nat.pow_le_pow_right (by norm_num) (by omega)
  · unfold cnvShift
    dsimp only
    rw [decide_eq_true_eq, ne_eq, and_high_eq_zero _ (by omega), not_lt]
    -- The digit fills the place that the shift makes.
    have hdigit : 2 ^ 64 ≤ res.val.toNat * 2 ^ k + c.toNat ↔ 2 ^ (64 - k) ≤ res.val.toNat := by
      constructor
      · intro h
        by_contra hlt
        have hmul := Nat.mul_le_mul_right (2 ^ k) (Nat.succ_le_of_lt (not_le.mp hlt))
        rw [Nat.succ_mul, ← hsplit] at hmul
        omega
      · intro h
        have hmul := Nat.mul_le_mul_right (2 ^ k) h
        rw [← hsplit] at hmul
        omega
    rw [hdigit, hhalf, hval]
    omega

theorem inc_spec (h : BitVec 32) (carry : Bool) :
    (h + (BitVec.ofBool carry).setWidth 32).toNat = (h.toNat + carry.toNat) % 2 ^ 32 ∧
      ((carry && decide (h + (BitVec.ofBool carry).setWidth 32 = 0)) = true ↔ 2 ^ 32 ≤ h.toNat + carry.toNat) := by
  have hlt := h.isLt
  have hone : (h + 1#32).toNat = (h.toNat + 1) % 2 ^ 32 := BitVec.toNat_add ..
  cases carry
  · simp [Nat.mod_eq_of_lt hlt, hlt]
  · simp only [BitVec.ofBool_true, Bool.true_and, decide_eq_true_eq, Bool.toNat_true, BitVec.toNat_eq]
    change (h + 1#32).toNat = _ ∧ ((h + 1#32).toNat = 0 ↔ _)
    rw [hone]
    omega

theorem inc_ite (h l : BitVec 32) (carry : Bool) : (if carry = true then (⟨h + 1, l⟩ : Unsigned64) else ⟨h, l⟩) =
    ⟨h + (BitVec.ofBool carry).setWidth 32, l⟩ := by
  cases carry <;> simp

theorem carry_iff (x y : BitVec 32) : x + y < x ↔ 2 ^ 32 ≤ x.toNat + y.toNat := by
  have hx := x.isLt
  have hy := y.isLt
  rw [BitVec.lt_def, BitVec.toNat_add]
  omega

theorem carry_eq (x y : BitVec 32) : (decide (x + y < x)).toNat = (x.toNat + y.toNat) / 2 ^ 32 := by
  have hx := x.isLt
  have hy := y.isLt
  rw [decide_eq_decide.mpr (carry_iff x y)]
  by_cases h : 2 ^ 32 ≤ x.toNat + y.toNat
  · rw [decide_eq_true h, Bool.toNat_true]
    omega
  · rw [decide_eq_false h, Bool.toNat_false]
    omega

theorem cnvSum_spec (x y : Unsigned64) (c : BitVec 32) (overflow : Bool) :
    (cnvSum x y c overflow).1.val.toNat = (x.val.toNat + y.val.toNat + c.toNat) % 2 ^ 64 ∧
      ((cnvSum x y c overflow).2 = true ↔
        overflow = true ∨ 2 ^ 64 ≤ x.val.toNat + y.val.toNat + c.toNat) := by
  obtain ⟨hx, lx⟩ := x
  obtain ⟨hy, ly⟩ := y
  unfold cnvSum
  dsimp only
  rw [inc_ite, inc_ite, toNat_val, toNat_val, toNat_val, BitVec.add_comm (lx + ly) c]
  have hlow := carry_eq lx ly
  have hlow' := carry_eq c (lx + ly)
  generalize decide (lx + ly < lx) = carry at hlow ⊢
  generalize decide (c + (lx + ly) < c) = carry' at hlow' ⊢
  obtain ⟨htop, hover⟩ := inc_spec hx carry
  generalize hx + (BitVec.ofBool carry).setWidth 32 = top at htop hover ⊢
  obtain ⟨htop', hover'⟩ := inc_spec (top + hy) carry'
  generalize top + hy + (BitVec.ofBool carry').setWidth 32 = res at htop' hover' ⊢
  rw [BitVec.toNat_add] at htop' hover' hlow'
  dsimp only
  rw [Bool.or_eq_true, Bool.or_eq_true, Bool.or_eq_true, hover, decide_eq_true_eq, carry_iff, hover', or_assoc,
    or_assoc, BitVec.toNat_add, BitVec.toNat_add, htop']
  have := hx.isLt
  have := hy.isLt
  have := lx.isLt
  have := ly.isLt
  have := c.isLt
  clear hover hover' htop'
  refine ⟨by omega, or_congr_right (by omega)⟩

theorem u64Cnv10_converts : Converts u64Cnv10 10 := by
  intro res c hc
  have h8 := shiftLeft_toNat res (k := 3) (by norm_num) (by norm_num)
  have h2 := shiftLeft_toNat res (k := 1) (by norm_num) (by norm_num)
  have hval := toNat_val res
  have hlt := res.val.isLt
  have hl := res.lo.isLt
  have hmask8 : res.hi &&& 0xE0000000 = 0 ↔ res.hi.toNat < 2 ^ 29 := and_high_eq_zero res.hi (k := 29) (by norm_num)
  have hmask2 : res.hi &&& 0x80000000 = 0 ↔ res.hi.toNat < 2 ^ 31 := and_high_eq_zero res.hi (k := 31) (by norm_num)
  unfold u64Cnv10
  dsimp only
  obtain ⟨hsum, hover⟩ := cnvSum_spec ⟨res.hi <<< 3 ||| res.lo >>> (32 - 3), res.lo <<< 3⟩
    ⟨res.hi <<< 1 ||| res.lo >>> (32 - 1), res.lo <<< 1⟩ (c.setWidth 32)
    (decide (res.hi &&& 0xE0000000 ≠ 0) || decide (res.hi &&& 0x80000000 ≠ 0))
  rw [toNat_val ⟨_, res.lo <<< 3⟩, h8, toNat_val ⟨_, res.lo <<< 1⟩, h2, digit_toNat] at hsum hover
  rw [hsum, hover]
  simp only [Bool.or_eq_true, decide_eq_true_eq, ne_eq, hmask8, hmask2]
  clear hsum hover h8 h2 hmask8 hmask2
  constructor
  · omega
  · omega

theorem u64Cnv8_converts : Converts u64Cnv8 8 := cnvShift_converts (k := 3) (by norm_num) (by norm_num)

theorem u64Cnv2_converts : Converts u64Cnv2 2 := cnvShift_converts (k := 1) (by norm_num) (by norm_num)

theorem u64Cnv16_converts : Converts u64Cnv16 16 := cnvShift_converts (k := 4) (by norm_num) (by norm_num)

/-- Every function writes what 64-bit arithmetic says into its result, whichever operands the result is. -/
theorem int64_exact {α : Type} [DecidableEq α] (m : Mem α) (res a b : α) :
    u64Neg res a m = m.write res (-(m a).val) ∧
    u64Add res a b m = m.write res ((m a).val + (m b).val) ∧
    (∀ i : BitVec 32, u64AddI32 res i m = m.write res ((m res).val + i.signExtend 64)) ∧
    u64Sub res a b m = m.write res ((m a).val - (m b).val) ∧
    u64Mul res a b m = m.write res ((m a).val * (m b).val) ∧
    (∀ shift < 64, u64ShiftL res a shift m = m.write res ((m a).val <<< shift) ∧
      u64ShiftR res a shift m = m.write res ((m a).val >>> shift) ∧
      i64ShiftR res a shift m = m.write res ((m a).val.sshiftRight shift)) ∧
    ((m b).val ≠ 0 → ∀ rem, rem ≠ some res →
      u64Div a b res rem m = some ((m.write res ((m a).val / (m b).val)).writeOpt rem ((m a).val % (m b).val)) ∧
      i64Div a b res rem m =
        some ((m.write res ((m a).val.sdiv (m b).val)).writeOpt rem ((m a).val.srem (m b).val)) ∧
      (m a).val.sdiv (m b).val * (m b).val + (m a).val.srem (m b).val = (m a).val) ∧
    (∀ x y : Unsigned64,
      u64Cmp x y = (if y.val.toNat < x.val.toNat then 1 else if x.val.toNat < y.val.toNat then -1 else 0) ∧
      i64Cmp x y = (if y.val.toInt < x.val.toInt then 1 else if x.val.toInt < y.val.toInt then -1 else 0)) ∧
    Converts u64Cnv10 10 ∧ Converts u64Cnv8 8 ∧ Converts u64Cnv2 2 ∧ Converts u64Cnv16 16 := by
  refine ⟨u64Neg_eq, u64Add_eq, u64AddI32_eq, u64Sub_eq, u64Mul_eq, ?_, ?_, ?_, u64Cnv10_converts, u64Cnv8_converts,
    u64Cnv2_converts, u64Cnv16_converts⟩
  · intro shift hshift
    exact ⟨u64ShiftL_eq hshift, u64ShiftR_eq hshift, i64ShiftR_eq hshift⟩
  · intro hb rem hrem
    exact ⟨u64Div_eq hb hrem, i64Div_eq hb hrem, sdiv_mul_add_srem _ _⟩
  · intro x y
    exact ⟨u64Cmp_eq x y, i64Cmp_eq x y⟩

/-- A division in place: the divisor becomes the quotient, and the dividend the remainder. -/
theorem int64_exact_in_place :
    i64Div false true true (some false) (fun p => if p then ⟨0, 3⟩ else ⟨-1, -8⟩) =
      some ((Mem.write (fun p => if p then ⟨0, 3⟩ else ⟨-1, -8⟩) true (-2)).write false (-2)) :=
  ((int64_exact (fun p : Bool => if p then ⟨0, 3⟩ else ⟨-1, -8⟩) true false true).2.2.2.2.2.2.1 (by decide)
    (some false) (by decide)).2.1

end OpenWatcom.Watcom
