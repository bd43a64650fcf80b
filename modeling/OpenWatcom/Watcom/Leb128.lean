import Mathlib.Data.Nat.Bitwise
import OpenWatcom.Lib.Groups

/-! # LEB128 numbers

Numbers of 64 bits as bytes of seven bits each, the low bits first; every byte but the last has its high bit set.
The writer and the reader hand their bytes to a callback with a state of its own. -/

namespace OpenWatcom.Watcom

/-- One byte. -/
abbrev Byte := BitVec 8

/-! ### Writing -/

section encode

variable {σ : Type} (ofn : σ → Byte → σ)

/-- The `for( ;; )` loop of the writers; `shr` is `>>=` on the type of the value, and `done` the test of the loop on
the shifted value and the byte.  `none` when the turns run out. -/
def encodeLoop (shr : BitVec 64 → ℕ → BitVec 64) (done : BitVec 64 → Byte → Bool) :
    ℕ → σ → BitVec 64 → Option σ
  | 0, _, _ => none
  | turns + 1, h, value =>
      let byte : Byte := (value &&& 0x7f).setWidth 8
      let value := shr value 7
      if done value byte then some (ofn h byte)
      else encodeLoop shr done turns (ofn h (byte ||| 0x80)) value

/-- `EncodeSLEB128`. -/
def encodeSLEB128 (h : σ) (value : BitVec 64) : Option σ :=
  if 0 ≤ value.toInt then
    encodeLoop ofn BitVec.sshiftRight (fun value byte => value == 0 && byte &&& 0x40 == 0) 10 h value
  else
    encodeLoop ofn BitVec.sshiftRight (fun value byte => value == -1 && byte &&& 0x40 != 0) 10 h value

/-- `EncodeULEB128`. -/
def encodeULEB128 (h : σ) (value : BitVec 64) : Option σ :=
  encodeLoop ofn BitVec.ushiftRight (fun value _ => value == 0) 10 h value

end encode

/-! ### Reading -/

section decode

variable {σ : Type} (ifn : σ → Option (Byte × σ))

/-- The loop of the readers: the value, the shift after the last byte, that byte and the state of the callback.
`none` when there is no byte, and when a shift reaches the width of the value. -/
def decodeLoop (value : BitVec 64) (shift : ℕ) (h : σ) : Option (BitVec 64 × ℕ × Byte × σ) :=
  if 64 ≤ shift then none
  else
    match ifn h with
    | none => none
    | some (byte, h) =>
        let value := value ||| ((byte &&& 0x7f).setWidth 64 <<< shift)
        let shift := shift + 7
        if byte &&& 0x80 = 0 then some (value, shift, byte, h) else decodeLoop value shift h
termination_by 64 - shift

/-- `DecodeSLEB128`. -/
def decodeSLEB128 (h : σ) : Option (BitVec 64 × σ) :=
  match decodeLoop ifn 0 0 h with
  | none => none
  | some (value, shift, byte, h) =>
      if byte &&& 0x40 ≠ 0 ∧ shift < 64 then some (value ||| ((~~~0 : BitVec 64) <<< shift), h) else some (value, h)

/-- `DecodeULEB128`. -/
def decodeULEB128 (h : σ) : Option (BitVec 64 × σ) :=
  match decodeLoop ifn 0 0 h with
  | none => none
  | some (value, _, _, h) => some (value, h)

end decode

/-- The callback that reads from the front of a list. -/
def getByte : List Byte → Option (Byte × List Byte)
  | [] => none
  | b :: l => some (b, l)

/-! ### Bytes of groups -/

/-- Groups of seven bits as bytes; all but the last are marked. -/
def marked : List ℕ → List Byte
  | [] => []
  | [g] => [BitVec.ofNat 8 g]
  | g :: l => BitVec.ofNat 8 (g + 128) :: marked l

variable {l : List ℕ} {g : ℕ}

theorem marked_cons (hl : l ≠ []) : marked (g :: l) = BitVec.ofNat 8 (g + 128) :: marked l := by
  cases l with
  | nil => exact absurd rfl hl
  | cons a l => rfl

@[simp] theorem marked_length (l : List ℕ) : (marked l).length = l.length := by
  induction l with
  | nil => rfl
  | cons g l ih =>
      cases l with
      | nil => rfl
      | cons a l => rw [marked_cons (List.cons_ne_nil a l), List.length_cons, ih, List.length_cons (a := g)]

theorem low_group (b : Byte) : (b &&& 0x7f).toNat = b.toNat % 128 := by
  rw [BitVec.toNat_and]
  exact Nat.and_two_pow_sub_one_eq_mod b.toNat 7

theorem high_bit_eq_zero (b : Byte) : b &&& 0x80 = 0 ↔ b.toNat < 128 := by
  revert b
  decide

theorem sign_bit_eq_zero {b : Byte} (hb : b.toNat < 128) : b &&& 0x40 = 0 ↔ b.toNat < 64 := by
  revert b
  decide

theorem or_high_bit {b : Byte} (hb : b.toNat < 128) : b ||| 0x80 = BitVec.ofNat 8 (b.toNat + 128) := by
  revert b
  decide

/-! ### The writers write the groups -/

section encode

variable {σ : Type} {ofn : σ → Byte → σ}

theorem byte_toNat (value : BitVec 64) : ((value &&& 0x7f).setWidth 8 : Byte).toNat = value.toNat % 128 := by
  have hand : (value &&& 0x7f).toNat = value.toNat % 128 := by
    rw [BitVec.toNat_and]
    exact Nat.and_two_pow_sub_one_eq_mod value.toNat 7
  rw [BitVec.toNat_setWidth, hand]
  omega

theorem byte_toInt (value : BitVec 64) :
    ((value &&& 0x7f).setWidth 8 : Byte).toNat = (value.toInt % (2 * (64 : ℕ))).toNat := by
  rw [byte_toNat, BitVec.toInt_eq_toNat_bmod, Int.bmod_def]
  push_cast
  split <;> omega

theorem shr_toNat (value : BitVec 64) : (value.ushiftRight 7).toNat = value.toNat / 128 := by
  rw [BitVec.ushiftRight_eq, BitVec.toNat_ushiftRight, Nat.shiftRight_eq_div_pow]

theorem sar_toInt (value : BitVec 64) : (value.sshiftRight 7).toInt = value.toInt / (2 * (64 : ℕ)) := by
  rw [BitVec.toInt_sshiftRight, Int.shiftRight_eq_div_pow]
  norm_num

/-- One turn: the loop stops at the last group, or goes on with what is left. -/
theorem encodeLoop_step {shr : BitVec 64 → ℕ → BitVec 64} {done : BitVec 64 → Byte → Bool} {turns : ℕ} {h : σ}
    {value : BitVec 64} {b : Byte} (hb : (value &&& 0x7f).setWidth 8 = b) :
    encodeLoop ofn shr done (turns + 1) h value =
      if done (shr value 7) b then some (ofn h b)
      else encodeLoop ofn shr done turns (ofn h (b ||| 0x80)) (shr value 7) := by
  rw [encodeLoop, hb]

theorem encodeLoop_unsigned {turns : ℕ} {value : BitVec 64} (hturns : (unsignedGroups 128 value.toNat).length ≤ turns)
    (h : σ) : encodeLoop ofn BitVec.ushiftRight (fun value _ => value == 0) turns h value =
      some ((marked (unsignedGroups 128 value.toNat)).foldl ofn h) := by
  induction turns generalizing value h with
  | zero =>
      have hne := List.length_pos_iff.mpr (unsignedGroups_ne_nil 128 value.toNat)
      omega
  | succ turns ih =>
      have hbyte := byte_toNat value
      rw [encodeLoop_step rfl]
      by_cases hsmall : value.toNat < 128
      · have hzero : value.ushiftRight 7 = 0 := by
          apply BitVec.eq_of_toNat_eq
          rw [shr_toNat, Nat.div_eq_of_lt hsmall]
          rfl
        rw [Nat.mod_eq_of_lt hsmall] at hbyte
        have hval : (value &&& 0x7f).setWidth 8 = BitVec.ofNat 8 value.toNat := by
          apply BitVec.eq_of_toNat_eq
          rw [hbyte, BitVec.toNat_ofNat]
          omega
        rw [hzero, hval, unsignedGroups_of_lt hsmall]
        rfl
      · have hnot : ¬ value.ushiftRight 7 = 0 := by
          intro hzero
          have hquot := shr_toNat value
          rw [hzero] at hquot
          have hdiv : value.toNat / 128 = 0 := hquot.symm
          omega
        have hgroups := unsignedGroups_of_le (by norm_num : 1 < 128) (not_lt.mp hsmall)
        rw [hgroups, List.length_cons, ← shr_toNat] at hturns
        rw [if_neg (by simpa using hnot), ih (Nat.le_of_succ_le_succ hturns), or_high_bit (by omega), hbyte, hgroups,
          marked_cons (unsignedGroups_ne_nil 128 _), List.foldl_cons, shr_toNat]

/-- Either test of the signed writer tells the numbers that one group holds. -/
theorem encodeLoop_signed {done : BitVec 64 → Byte → Bool} {turns : ℕ} {value : BitVec 64}
    {p : ℤ → Prop} (hp : ∀ x, p x → p (x / (2 * (64 : ℕ))))
    (hdone : ∀ value : BitVec 64, p value.toInt → (done (value.sshiftRight 7) ((value &&& 0x7f).setWidth 8) = true ↔
      -(64 : ℕ) ≤ value.toInt ∧ value.toInt < (64 : ℕ)))
    (hvalue : p value.toInt) (hturns : (signedGroups 64 value.toInt).length ≤ turns) (h : σ) :
    encodeLoop ofn BitVec.sshiftRight done turns h value =
      some ((marked (signedGroups 64 value.toInt)).foldl ofn h) := by
  induction turns generalizing value h with
  | zero =>
      have hne := List.length_pos_iff.mpr (signedGroups_ne_nil 64 value.toInt)
      omega
  | succ turns ih =>
      have hbyte := byte_toInt value
      have hlow : ((value &&& 0x7f).setWidth 8 : Byte).toNat < 128 := by
        rw [byte_toNat]
        omega
      rw [encodeLoop_step rfl]
      by_cases hlast : -(64 : ℕ) ≤ value.toInt ∧ value.toInt < (64 : ℕ)
      · have hval : (value &&& 0x7f).setWidth 8 = BitVec.ofNat 8 (value.toInt % (2 * (64 : ℕ))).toNat := by
          apply BitVec.eq_of_toNat_eq
          rw [hbyte, BitVec.toNat_ofNat]
          omega
        rw [if_pos ((hdone value hvalue).mpr hlast), signedGroups_of_mem hlast.1 hlast.2, hval]
        rfl
      · have hgroups := signedGroups_of_not_mem (by norm_num : 0 < 64) hlast
        rw [hgroups, List.length_cons, ← sar_toInt] at hturns
        have hrest : p (value.sshiftRight 7).toInt := by
          rw [sar_toInt]
          exact hp _ hvalue
        rw [if_neg (fun hd => hlast ((hdone value hvalue).mp hd)), ih hrest (Nat.le_of_succ_le_succ hturns),
          or_high_bit hlow, hbyte, hgroups, marked_cons (signedGroups_ne_nil 64 _), List.foldl_cons, sar_toInt]

theorem signed_small (x : BitVec 64) : (signedGroups 64 x.toInt).length ≤ 10 := by
  have hlow := BitVec.le_toInt x
  have hhigh := BitVec.toInt_lt (x := x)
  apply signedGroups_length_le (by norm_num)
  · norm_num at hlow ⊢
    omega
  · norm_num at hhigh ⊢
    omega

theorem unsigned_small (x : BitVec 64) : (unsignedGroups 128 x.toNat).length ≤ 10 := by
  have hlt := x.isLt
  exact unsignedGroups_length_le (by norm_num) (by norm_num) (by norm_num; omega)

theorem encodeULEB128_eq (h : σ) (value : BitVec 64) :
    encodeULEB128 ofn h value = some ((marked (unsignedGroups 128 value.toNat)).foldl ofn h) := by
  exact encodeLoop_unsigned (unsigned_small value) h

theorem encodeSLEB128_eq (h : σ) (value : BitVec 64) :
    encodeSLEB128 ofn h value = some ((marked (signedGroups 64 value.toInt)).foldl ofn h) := by
  have hbyte (value : BitVec 64) : ((value &&& 0x7f).setWidth 8 : Byte).toNat < 128 := by
    rw [byte_toNat]
    omega
  unfold encodeSLEB128
  split
  · rename_i hsign
    refine encodeLoop_signed (p := (0 ≤ ·)) (fun x hx => Int.ediv_nonneg hx (by norm_num)) ?_ hsign
      (signed_small value) h
    intro value hvalue
    rw [Bool.and_eq_true, beq_iff_eq, beq_iff_eq, sign_bit_eq_zero (hbyte value), byte_toInt, ← BitVec.toInt_inj,
      sar_toInt]
    change _ = 0 ∧ _ ↔ _
    omega
  · rename_i hsign
    refine encodeLoop_signed (p := (· < 0)) (fun x hx => Int.ediv_neg_of_neg_of_pos hx (by norm_num)) ?_
      (not_le.mp hsign) (signed_small value) h
    intro value hvalue
    rw [Bool.and_eq_true, beq_iff_eq, bne_iff_ne, ne_eq, sign_bit_eq_zero (hbyte value), byte_toInt, ← BitVec.toInt_inj,
      sar_toInt]
    change _ = -1 ∧ _ ↔ _
    omega

end encode

/-! ### The readers read the groups -/

theorem getByte_cons (b : Byte) (l : List Byte) : getByte (b :: l) = some (b, l) := rfl

/-- One group is added above the bits that are there. -/
theorem value_step {value : BitVec 64} {shift : ℕ} (hshift : shift < 64) (hvalue : value.toNat < 2 ^ shift) (b : Byte) :
    (value ||| ((b &&& 0x7f).setWidth 64 <<< shift)).toNat = (value.toNat + b.toNat % 128 * 2 ^ shift) % 2 ^ 64 ∧
      (value ||| ((b &&& 0x7f).setWidth 64 <<< shift)).toNat < 2 ^ (shift + 7) := by
  have hlow := low_group b
  obtain ⟨k, hk⟩ : ∃ k, 64 = shift + k := ⟨64 - shift, by omega⟩
  have hwide : ((b &&& 0x7f).setWidth 64 : BitVec 64).toNat = b.toNat % 128 := by
    rw [BitVec.toNat_setWidth, hlow]
    omega
  have hpart : (b.toNat % 128 * 2 ^ shift) % 2 ^ 64 = 2 ^ shift * (b.toNat % 128 % 2 ^ k) := by
    rw [hk, pow_add, mul_comm, Nat.mul_mod_mul_left]
  have hor : (value ||| ((b &&& 0x7f).setWidth 64 <<< shift)).toNat =
      value.toNat + 2 ^ shift * (b.toNat % 128 % 2 ^ k) := by
    rw [BitVec.toNat_or, BitVec.toNat_shiftLeft, Nat.shiftLeft_eq, hwide, hpart, Nat.or_comm, Nat.add_comm,
      Nat.two_pow_add_eq_or_of_lt hvalue]
  have hmod : b.toNat % 128 % 2 ^ k ≤ b.toNat % 128 := Nat.mod_le _ _
  have hmul : 2 ^ shift * (b.toNat % 128 % 2 ^ k) ≤ 2 ^ shift * 127 := Nat.mul_le_mul_left _ (by omega)
  constructor
  · have hlt := (value ||| ((b &&& 0x7f).setWidth 64 <<< shift)).isLt
    rw [hor] at hlt ⊢
    rw [Nat.add_mod, hpart, Nat.mod_eq_of_lt value.isLt, Nat.mod_eq_of_lt hlt]
  · rw [hor, pow_add]
    omega

/-- What the loop of the readers answers on marked groups. -/
theorem decodeLoop_marked {value : BitVec 64} {shift : ℕ} (hl : l ≠ []) (hg : ∀ g ∈ l, g < 128)
    (hshift : shift + 7 * (l.length - 1) < 64) (hvalue : value.toNat < 2 ^ shift) (rest : List Byte) :
    decodeLoop getByte value shift (marked l ++ rest) =
      some (BitVec.ofNat 64 (value.toNat + Nat.ofDigits 128 l * 2 ^ shift), shift + 7 * l.length,
        BitVec.ofNat 8 (l.getLast hl), rest) := by
  induction l generalizing value shift with
  | nil => exact absurd rfl hl
  | cons g l ih =>
      have hg0 := hg g List.mem_cons_self
      by_cases hnil : l = []
      · subst hnil
        have hbyte : (BitVec.ofNat 8 g).toNat = g := by
          rw [BitVec.toNat_ofNat]
          omega
        obtain ⟨hval, -⟩ := value_step (by omega) hvalue (BitVec.ofNat 8 g)
        rw [hbyte, Nat.mod_eq_of_lt hg0] at hval
        rw [decodeLoop, if_neg (by omega), marked, List.cons_append, getByte_cons]
        dsimp only
        rw [if_pos ((high_bit_eq_zero _).mpr (by omega)), Nat.ofDigits_singleton, List.getLast_singleton,
          List.length_singleton]
        congr 2
        apply BitVec.eq_of_toNat_eq
        rw [hval, BitVec.toNat_ofNat]
      · have hlen := List.length_pos_iff.mpr hnil
        rw [List.length_cons] at hshift
        have hbyte : (BitVec.ofNat 8 (g + 128)).toNat = g + 128 := by
          rw [BitVec.toNat_ofNat]
          omega
        obtain ⟨hval, hlt⟩ := value_step (by omega) hvalue (BitVec.ofNat 8 (g + 128))
        rw [hbyte, show (g + 128) % 128 = g by omega] at hval
        rw [decodeLoop, if_neg (by omega), marked_cons hnil, List.cons_append, getByte_cons]
        dsimp only
        rw [if_neg (by rw [high_bit_eq_zero]; omega),
          ih hnil (fun g hg' => hg g (List.mem_cons_of_mem _ hg')) (by omega) hlt, hval, List.getLast_cons hnil,
          Nat.ofDigits_cons, List.length_cons]
        congr 2
        · apply BitVec.eq_of_toNat_eq
          rw [BitVec.toNat_ofNat, BitVec.toNat_ofNat, Nat.mod_add_mod, pow_add]
          congr 1
          ring
        · congr 1
          ring

/-- What the loop of the readers takes is marked groups, and no shift reaches the width. -/
theorem decodeLoop_eq_some {value out : BitVec 64} {shift shift' : ℕ} {b : Byte} {h rest : List Byte}
    (hdec : decodeLoop getByte value shift h = some (out, shift', b, rest)) :
    ∃ l, l ≠ [] ∧ (∀ g ∈ l, g < 128) ∧ shift + 7 * (l.length - 1) < 64 ∧ h = marked l ++ rest := by
  induction value, shift, h using decodeLoop.induct getByte with
  | case1 value shift h hge =>
      rw [decodeLoop, if_pos hge] at hdec
      exact absurd hdec (by simp)
  | case2 value shift h hlt hnone =>
      rw [decodeLoop, if_neg hlt, hnone] at hdec
      exact absurd hdec (by simp)
  | case3 value shift h hlt byte h' hread hlast =>
      rw [decodeLoop, if_neg hlt, hread] at hdec
      dsimp only at hdec
      rw [if_pos hlast] at hdec
      rw [high_bit_eq_zero] at hlast
      simp only [Option.some.injEq, Prod.mk.injEq] at hdec
      obtain ⟨-, -, -, rfl⟩ := hdec
      refine ⟨[byte.toNat], List.cons_ne_nil _ _, ?_, ?_, ?_⟩
      · simpa using hlast
      · rw [List.length_singleton]
        omega
      · cases h with
        | nil => exact absurd hread (by simp [getByte])
        | cons a h =>
            rw [getByte_cons, Option.some.injEq, Prod.mk.injEq] at hread
            obtain ⟨rfl, rfl⟩ := hread
            rw [marked, List.cons_append, List.nil_append, BitVec.ofNat_toNat, BitVec.setWidth_eq]
  | case4 value shift h hlt byte h' hread value' shift' hmore ih =>
      rw [decodeLoop, if_neg hlt, hread] at hdec
      dsimp only at hdec
      rw [if_neg hmore] at hdec
      obtain ⟨l, hl, hg, hshift, rfl⟩ := ih hdec
      rw [high_bit_eq_zero] at hmore
      have hbyte := byte.isLt
      refine ⟨(byte.toNat - 128) :: l, List.cons_ne_nil _ _, ?_, ?_, ?_⟩
      · rw [List.forall_mem_cons]
        exact ⟨by omega, hg⟩
      · have hlen := List.length_pos_iff.mpr hl
        rw [List.length_cons]
        omega
      · cases h with
        | nil => exact absurd hread (by simp [getByte])
        | cons a h =>
            rw [getByte_cons, Option.some.injEq, Prod.mk.injEq] at hread
            obtain ⟨rfl, rfl⟩ := hread
            rw [marked_cons hl, Nat.sub_add_cancel (by omega), List.cons_append, BitVec.ofNat_toNat, BitVec.setWidth_eq]

theorem decodeULEB128_marked (hl : l ≠ []) (hg : ∀ g ∈ l, g < 128) (hlen : l.length ≤ 10) (rest : List Byte) :
    decodeULEB128 getByte (marked l ++ rest) = some (BitVec.ofNat 64 (Nat.ofDigits 128 l), rest) := by
  rw [decodeULEB128, decodeLoop_marked hl hg (by omega) (by decide)]
  simp

/-- The bits above the value, all set. -/
theorem sign_extend {u s : ℕ} (hs : s < 64) (hu : u < 2 ^ s) :
    BitVec.ofNat 64 u ||| ((~~~0 : BitVec 64) <<< s) = BitVec.ofInt 64 (u - 2 ^ s) := by
  obtain ⟨k, hk⟩ : ∃ k, 64 = s + k := ⟨64 - s, by omega⟩
  have hpow : 2 ^ 64 = 2 ^ s * 2 ^ k := by rw [← pow_add, ← hk]
  have hs1 : 1 ≤ 2 ^ s := Nat.one_le_two_pow
  have hk1 : 1 ≤ 2 ^ k := Nat.one_le_two_pow
  have hones : (2 ^ 64 - 1) % 2 ^ k = 2 ^ k - 1 := by
    have hsplit : 2 ^ 64 - 1 = 2 ^ k * (2 ^ s - 1) + (2 ^ k - 1) := by
      rw [hpow, Nat.mul_sub, mul_one, mul_comm (2 ^ k)]
      have hle : 2 ^ k * 1 ≤ 2 ^ k * 2 ^ s := Nat.mul_le_mul_left _ hs1
      rw [mul_comm (2 ^ k) (2 ^ s)] at hle
      omega
    rw [hsplit, Nat.mul_add_mod, Nat.mod_eq_of_lt (by omega)]
  have hhigh : ((~~~0 : BitVec 64) <<< s).toNat = 2 ^ s * (2 ^ k - 1) := by
    rw [BitVec.toNat_shiftLeft, Nat.shiftLeft_eq, show (~~~0 : BitVec 64).toNat = 2 ^ 64 - 1 from rfl, mul_comm]
    rw [show (2 : ℕ) ^ 64 = 2 ^ s * 2 ^ k from hpow] at hones ⊢
    rw [Nat.mul_mod_mul_left, hones]
  have hlow : (BitVec.ofNat 64 u).toNat = u := by
    rw [BitVec.toNat_ofNat, Nat.mod_eq_of_lt]
    exact hu.trans (Nat.pow_lt_pow_right (by norm_num) hs)
  have hfull : 2 ^ s * (2 ^ k - 1) + 2 ^ s = 2 ^ 64 := by
    rw [hpow, Nat.mul_sub, mul_one, Nat.sub_add_cancel (Nat.le_mul_of_pos_right _ hk1)]
  apply BitVec.eq_of_toNat_eq
  rw [BitVec.toNat_or, hhigh, hlow, Nat.or_comm, ← Nat.two_pow_add_eq_or_of_lt hu, BitVec.toNat_ofInt]
  have hmod : ((u : ℤ) - 2 ^ s) % (2 ^ 64 : ℕ) = (2 ^ s * (2 ^ k - 1) + u : ℕ) := by
    have hcast : ((2 ^ s * (2 ^ k - 1) : ℕ) : ℤ) + 2 ^ s = (2 ^ 64 : ℕ) := by exact_mod_cast hfull
    have hu' : (u : ℤ) < 2 ^ s := by exact_mod_cast hu
    rw [← Int.add_emod_right, ← hcast, Int.emod_eq_of_lt]
    · push_cast
      ring
    · linarith [Int.natCast_nonneg u, Int.natCast_nonneg (2 ^ s * (2 ^ k - 1))]
    · linarith
  rw [hmod, Int.toNat_natCast]

/-- Sign extension above the last group reads the groups as a signed number. -/
theorem decodeSLEB128_marked (hl : l ≠ []) (hg : ∀ g ∈ l, g < 128) (hlen : l.length ≤ 10) (rest : List Byte) :
    decodeSLEB128 getByte (marked l ++ rest) = some (BitVec.ofInt 64 (signedVal 64 l), rest) := by
  have hlast := hg _ (List.getLast_mem hl)
  have hbyte : (BitVec.ofNat 8 (l.getLast hl)).toNat = l.getLast hl := by
    rw [BitVec.toNat_ofNat]
    omega
  have hsign := sign_bit_eq_zero (b := BitVec.ofNat 8 (l.getLast hl)) (by omega)
  rw [hbyte] at hsign
  have hpos := List.length_pos_iff.mpr hl
  have hlt := Nat.ofDigits_lt_base_pow_length (b := 128) (by norm_num) hg
  have hpow : (128 : ℕ) ^ l.length = 2 ^ (7 * l.length) := by rw [pow_mul]; norm_num
  have hpow' : (2 * (64 : ℕ) : ℤ) ^ l.length = 2 ^ (7 * l.length) := by rw [pow_mul]; norm_num
  rw [decodeSLEB128, decodeLoop_marked hl hg (by omega) (by decide), signedVal_eq hl, hpow']
  dsimp only
  rw [hpow] at hlt
  rw [show (0 : BitVec 64).toNat = 0 from rfl, pow_zero, mul_one, Nat.zero_add, Nat.zero_add]
  by_cases hneg : l.getLast hl < 64
  · rw [if_neg (fun hbit => hbit.1 (hsign.mpr hneg)), if_pos hneg, sub_zero, BitVec.ofInt_natCast]
  · have hnot : ¬ BitVec.ofNat 8 (l.getLast hl) &&& 0x40 = 0 := by rwa [hsign]
    rw [if_neg hneg]
    by_cases hshort : 7 * l.length < 64
    · rw [if_pos ⟨hnot, hshort⟩, sign_extend hshort hlt]
    · -- the tenth byte: what the sign takes away is a multiple of the width
      have hten : l.length = 10 := by omega
      have hcong : (((Nat.ofDigits (2 * 64) l : ℕ) : ℤ) - 2 ^ (7 * 10)).bmod (2 ^ 64) =
          ((Nat.ofDigits 128 l : ℕ) : ℤ).bmod (2 ^ 64) := by
        rw [show (2 : ℤ) ^ (7 * 10) = (2 ^ 64 : ℕ) * 64 by norm_num, Int.sub_mul_bmod_self_left]
      rw [if_neg (fun hbit => hshort hbit.2), hten, Option.some.injEq, Prod.mk.injEq]
      refine ⟨BitVec.eq_of_toInt_eq ?_, rfl⟩
      rw [← BitVec.ofInt_natCast, BitVec.toInt_ofInt, BitVec.toInt_ofInt, hcong]

/-! ### Round trip -/

theorem decodeULEB128_shortest {v : BitVec 64} {bs rest : List Byte}
    (hdec : decodeULEB128 getByte (bs ++ rest) = some (v, rest)) :
    (unsignedGroups 128 v.toNat).length ≤ bs.length := by
  cases hloop : decodeLoop getByte 0 0 (bs ++ rest) with
  | none =>
      rw [decodeULEB128, hloop] at hdec
      exact absurd hdec (by simp)
  | some out =>
      obtain ⟨value, shift, b, h⟩ := out
      have hrest : h = rest := by
        rw [decodeULEB128, hloop] at hdec
        simp only [Option.some.injEq, Prod.mk.injEq] at hdec
        exact hdec.2
      subst hrest
      obtain ⟨l, hl, hg, hshift, happ⟩ := decodeLoop_eq_some hloop
      have hbs := List.append_cancel_right happ
      subst hbs
      have hpos := List.length_pos_iff.mpr hl
      have hlt := Nat.ofDigits_lt_base_pow_length (b := 128) (by norm_num) hg
      rw [decodeULEB128_marked hl hg (by omega), Option.some.injEq, Prod.mk.injEq] at hdec
      have hv : v.toNat ≤ Nat.ofDigits 128 l := by
        rw [← hdec.1, BitVec.toNat_ofNat]
        exact Nat.mod_le _ _
      rw [marked_length]
      exact unsignedGroups_length_le (by norm_num) (by omega) (by omega)

theorem decodeSLEB128_shortest {v : BitVec 64} {bs rest : List Byte}
    (hdec : decodeSLEB128 getByte (bs ++ rest) = some (v, rest)) :
    (signedGroups 64 v.toInt).length ≤ bs.length := by
  cases hloop : decodeLoop getByte 0 0 (bs ++ rest) with
  | none =>
      rw [decodeSLEB128, hloop] at hdec
      exact absurd hdec (by simp)
  | some out =>
      obtain ⟨value, shift, b, h⟩ := out
      have hrest : h = rest := by
        rw [decodeSLEB128, hloop] at hdec
        dsimp only at hdec
        split at hdec <;> (simp only [Option.some.injEq, Prod.mk.injEq] at hdec; exact hdec.2)
      subst hrest
      obtain ⟨l, hl, hg, hshift, happ⟩ := decodeLoop_eq_some hloop
      have hbs := List.append_cancel_right happ
      subst hbs
      have hpos := List.length_pos_iff.mpr hl
      rw [decodeSLEB128_marked hl hg (by omega), Option.some.injEq, Prod.mk.injEq] at hdec
      rw [marked_length]
      by_cases hten : l.length = 10
      · rw [hten]
        exact signed_small v
      · -- up to nine groups stay within the width, so the value is the number they stand for
        obtain ⟨hlow, hhigh⟩ := signedVal_bounds (h := 64) hl hg
        have hpow : ((64 : ℕ) * (2 * (64 : ℕ)) ^ (l.length - 1) : ℤ) ≤ 2 ^ 62 := by
          calc ((64 : ℕ) * (2 * (64 : ℕ)) ^ (l.length - 1) : ℤ)
              ≤ (64 : ℕ) * (2 * (64 : ℕ)) ^ 8 :=
                mul_le_mul_of_nonneg_left (pow_le_pow_right₀ (by norm_num) (by omega)) (by norm_num)
            _ = 2 ^ 62 := by norm_num
        have hv : v.toInt = signedVal 64 l := by
          rw [← hdec.1, BitVec.toInt_ofInt, Int.bmod_eq_of_le]
          · omega
          · omega
        rw [hv]
        have hlen := signedGroups_length_le (h := 64) (by norm_num) hlow hhigh
        omega

/-- The bytes that the writers hand over are read back, whatever follows; no other bytes for the number are fewer. -/
theorem leb128_round_trip (v : BitVec 64) :
    (∃ bs, (∀ (σ : Type) (ofn : σ → Byte → σ) (h : σ), encodeSLEB128 ofn h v = some (bs.foldl ofn h)) ∧
      (∀ rest, decodeSLEB128 getByte (bs ++ rest) = some (v, rest)) ∧
      ∀ bs' rest, decodeSLEB128 getByte (bs' ++ rest) = some (v, rest) → bs.length ≤ bs'.length) ∧
    ∃ bs, (∀ (σ : Type) (ofn : σ → Byte → σ) (h : σ), encodeULEB128 ofn h v = some (bs.foldl ofn h)) ∧
      (∀ rest, decodeULEB128 getByte (bs ++ rest) = some (v, rest)) ∧
      ∀ bs' rest, decodeULEB128 getByte (bs' ++ rest) = some (v, rest) → bs.length ≤ bs'.length := by
  constructor
  · refine ⟨marked (signedGroups 64 v.toInt), fun _ _ h => encodeSLEB128_eq h v, ?_, ?_⟩
    · intro rest
      have hg : ∀ g ∈ signedGroups 64 v.toInt, g < 128 := fun g hg => signedGroups_lt (by norm_num) hg
      rw [decodeSLEB128_marked (signedGroups_ne_nil _ _) hg (signed_small v), signedVal_signedGroups (by norm_num),
        BitVec.ofInt_toInt]
    · intro bs' rest hdec
      rw [marked_length]
      exact decodeSLEB128_shortest hdec
  · refine ⟨marked (unsignedGroups 128 v.toNat), fun _ _ h => encodeULEB128_eq h v, ?_, ?_⟩
    · intro rest
      have hg : ∀ g ∈ unsignedGroups 128 v.toNat, g < 128 := fun g hg => unsignedGroups_lt (by norm_num) hg
      rw [decodeULEB128_marked (unsignedGroups_ne_nil _ _) hg (unsigned_small v), ofDigits_unsignedGroups,
        BitVec.ofNat_toNat, BitVec.setWidth_eq]
    · intro bs' rest hdec
      rw [marked_length]
      exact decodeULEB128_shortest hdec

end OpenWatcom.Watcom
