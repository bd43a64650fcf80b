import OpenWatcom.Lib.Runs
import Mathlib.Tactic.Ring

/-! # The break of the near heap

`__brk` and `sbrk` move `_curbrk`, the top of the near heap, inside the static array `wc_arena`.  The only
comparison is with the end of the array, and `sbrk` adds its increment in 16 bits. -/

namespace OpenWatcom.Clib

/-- `WC_ARENA_BYTES`. -/
def wcArenaBytes : ℕ := 36352

/-- Where `wc_arena` lies in DGROUP.  The address behind its last byte is an offset too. -/
structure Arena where
  base : BitVec 16
  fits : base.toNat + wcArenaBytes < 2 ^ 16

/-- `arena_end`. -/
def Arena.arenaEnd (a : Arena) : BitVec 16 := a.base + BitVec.ofNat 16 wcArenaBytes

@[simp] theorem Arena.toNat_arenaEnd (a : Arena) :
    a.arenaEnd.toNat = a.base.toNat + wcArenaBytes := by
  have hfits := a.fits
  unfold wcArenaBytes at hfits
  rw [arenaEnd, BitVec.toNat_add, BitVec.toNat_ofNat]
  unfold wcArenaBytes
  omega

/-- `_curbrk` and `_amblksiz`. -/
structure BreakState where
  curbrk : BitVec 16
  amblksiz : BitVec 16
deriving DecidableEq

/-- `wc_heap_init`. -/
def wcHeapInit (a : Arena) : BreakState := ⟨a.base, 16#16⟩

/-- `__brk`: the old top, or `~0` with nothing changed. -/
def brk (a : Arena) (st : BreakState) (brkValue : BitVec 16) : BitVec 16 × BreakState :=
  if a.arenaEnd < brkValue then (0xFFFF#16, st)
  else (st.curbrk, { st with curbrk := brkValue })

/-- `sbrk`; the increment is an `int` of 16 bits. -/
def sbrk (a : Arena) (st : BreakState) (increment : BitVec 16) : BitVec 16 × BreakState :=
  brk a st (st.curbrk + increment)

inductive BreakCall where
  | brk (brkValue : BitVec 16)
  | sbrk (increment : BitVec 16)
deriving DecidableEq

namespace BreakCall

/-- What the call returns, and the state after it. -/
def exec (a : Arena) (st : BreakState) : BreakCall → BitVec 16 × BreakState
  | brk v => Clib.brk a st v
  | sbrk i => Clib.sbrk a st i

/-- The address that the call asks for, as an integer. -/
def request (st : BreakState) : BreakCall → ℤ
  | brk v => v.toNat
  | sbrk i => st.curbrk.toNat + i.toInt

/-- The 16 bits of the request, which is all that `__brk` sees. -/
def brkValue (st : BreakState) : BreakCall → BitVec 16
  | brk v => v
  | sbrk i => st.curbrk + i

theorem exec_eq (a : Arena) (st : BreakState) (c : BreakCall) :
    c.exec a st = Clib.brk a st (c.brkValue st) := by
  cases c <;> rfl

theorem request_bounds (st : BreakState) (c : BreakCall) :
    (0 ≤ c.request st ∨ (st.curbrk.toNat : ℤ) - 2 ^ 15 ≤ c.request st) ∧
      c.request st < 2 ^ 16 + 2 ^ 15 := by
  cases c with
  | brk v =>
      have hv := v.isLt
      simp only [request]
      omega
  | sbrk i =>
      have hcur := st.curbrk.isLt
      have hlow := BitVec.le_toInt i
      have hhigh := BitVec.toInt_lt (x := i)
      simp only [request]
      omega

theorem brkValue_toNat (st : BreakState) (c : BreakCall) :
    ((c.brkValue st).toNat : ℤ) = c.request st % 2 ^ 16 := by
  cases c with
  | brk v =>
      have hv := v.isLt
      simp only [brkValue, request]
      omega
  | sbrk i =>
      have hi := BitVec.toInt_eq_toNat_cond i
      have hlt := i.isLt
      simp only [brkValue, request, BitVec.toNat_add]
      split at hi <;> omega

end BreakCall

/-- The address lies in the arena, or just behind it. -/
def Arena.Holds (a : Arena) (addr : ℤ) : Prop :=
  (a.base.toNat : ℤ) ≤ addr ∧ addr ≤ a.base.toNat + wcArenaBytes

instance (a : Arena) (addr : ℤ) : Decidable (a.Holds addr) :=
  inferInstanceAs (Decidable (_ ∧ _))

def breakStep (a : Arena) (st : BreakState) (c : BreakCall) : BreakState := (c.exec a st).2

/-- The break is in the arena after the call, and a request outside fails and changes nothing. -/
def BreakBounded (a : Arena) (st : BreakState) (c : BreakCall) : Prop :=
  a.Holds (breakStep a st c).curbrk.toNat ∧
    (¬ a.Holds (c.request st) → c.exec a st = (0xFFFF#16, st))

instance (a : Arena) (st : BreakState) (c : BreakCall) : Decidable (BreakBounded a st c) :=
  inferInstanceAs (Decidable (_ ∧ (_ → _)))

/-- The request is not below the arena and needs no carry, or it is so far below 0 that its 16 bits are
behind the arena. -/
def BreakAdmissible (a : Arena) (st : BreakState) (c : BreakCall) : Prop :=
  (a.base.toNat : ℤ) ≤ c.request st ∧ c.request st < 2 ^ 16 ∨
    c.request st < 0 ∧ (a.base.toNat : ℤ) + wcArenaBytes < c.request st + 2 ^ 16

instance (a : Arena) (st : BreakState) (c : BreakCall) : Decidable (BreakAdmissible a st c) :=
  inferInstanceAs (Decidable (_ ∨ _))

/-- The 16 bits of the request decide: behind the arena the call fails, otherwise they are the new break. -/
theorem brkStep_bounded_iff_value (a : Arena) {st : BreakState} (hst : a.Holds st.curbrk.toNat)
    (c : BreakCall) :
    BreakBounded a st c ↔ a.arenaEnd < c.brkValue st ∨ a.Holds (c.request st) := by
  have hvalue := c.brkValue_toNat st
  have hend := a.toNat_arenaEnd
  have hfits := a.fits
  have hrange := c.request_bounds st
  unfold BreakBounded breakStep
  rw [c.exec_eq, brk]
  by_cases hlt : a.arenaEnd < c.brkValue st
  · simp [hlt, hst]
  · have hle : (c.brkValue st).toNat ≤ a.base.toNat + wcArenaBytes := by
      rw [BitVec.lt_def, hend] at hlt
      omega
    rw [if_neg hlt]
    constructor
    · rintro ⟨hin, hfail⟩
      refine Or.inr (by_contra fun hout => ?_)
      -- `~0` is the old top of an arena that ends there; then the request is for that top again
      have heq := hfail hout
      have hcur : st.curbrk.toNat = 0xFFFF :=
        congrArg BitVec.toNat (show st.curbrk = 0xFFFF#16 from congrArg Prod.fst heq)
      have hnext : (c.brkValue st).toNat = st.curbrk.toNat :=
        congrArg (fun r => r.2.curbrk.toNat) heq
      apply hout
      unfold Arena.Holds at hst ⊢
      omega
    · rintro (hbig | hin)
      · exact absurd hbig hlt
      · refine ⟨?_, fun hout => absurd hin hout⟩
        have hlow := hin.1
        have hhigh := hin.2
        have hsame : ((c.brkValue st).toNat : ℤ) = c.request st := by
          rw [hvalue]
          omega
        exact hsame ▸ hin

theorem brkStep_bounded_iff (a : Arena) {st : BreakState} (hst : a.Holds st.curbrk.toNat)
    (c : BreakCall) : BreakBounded a st c ↔ BreakAdmissible a st c := by
  have hvalue := c.brkValue_toNat st
  have hend := a.toNat_arenaEnd
  have hfits := a.fits
  have hrange := c.request_bounds st
  rw [brkStep_bounded_iff_value a hst, BitVec.lt_def, hend]
  unfold BreakAdmissible Arena.Holds
  unfold wcArenaBytes at *
  omega

theorem wcHeapInit_holds (a : Arena) : a.Holds (wcHeapInit a).curbrk.toNat :=
  ⟨Int.le_refl _, by simp only [wcHeapInit]; omega⟩

theorem breakRun_bounded_iff_from (a : Arena) {st : BreakState} (hst : a.Holds st.curbrk.toNat)
    (cs : List BreakCall) :
    Along (breakStep a) (BreakBounded a) st cs ↔ Along (breakStep a) (BreakAdmissible a) st cs := by
  induction cs generalizing st with
  | nil => exact Iff.rfl
  | cons c cs ih =>
      unfold Along
      rw [brkStep_bounded_iff a hst]
      exact and_congr_right fun hc => ih ((brkStep_bounded_iff a hst c).2 hc).1

/-- A run of calls from `wc_heap_init` keeps the break in the arena, and its requests outside fail, exactly
if every request is admissible. -/
theorem breakRun_bounded_iff (a : Arena) (cs : List BreakCall) :
    a.Holds (wcHeapInit a).curbrk.toNat ∧ Along (breakStep a) (BreakBounded a) (wcHeapInit a) cs ↔
      Along (breakStep a) (BreakAdmissible a) (wcHeapInit a) cs := by
  rw [breakRun_bounded_iff_from a (wcHeapInit_holds a)]
  exact and_iff_right (wcHeapInit_holds a)

/-- `sbrk(-1)` after `wc_heap_init` moves the break below an arena at `0x6000`. -/
theorem not_bounded_sbrk_below :
    ¬ Along (breakStep ⟨0x6000#16, by decide⟩) (BreakBounded ⟨0x6000#16, by decide⟩)
      (wcHeapInit ⟨0x6000#16, by decide⟩) [.sbrk (-1#16)] := by
  decide

end OpenWatcom.Clib
