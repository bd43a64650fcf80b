import OpenWatcom.Wlink.VMemQSort

/-! # The library's quicksort

`qsort` where `int` and `size_t` have 16 bits. Elements are known by their numbers and compared and exchanged in the
array only; where the code computes with addresses and differences of them, it is done with 16 bits. -/

namespace OpenWatcom.Clib.QSort

open Wlink (CmpFn)
open Wlink.VMemQSort (cmpfn swapfn)

/-- An array: the size of an element, the number of them, and the address. -/
structure Layout where
  size : ℕ
  num : ℕ
  start : ℕ
  size_pos : 0 < size
  fits : num * size < 65536
  inside : start + num * size ≤ 65536

/-! ## The code -/

section

variable {α : Type*} (c : CmpFn α) (L : Layout)

/-- The element at an address. -/
def Layout.elem (p : ℤ) : Option ℕ :=
  if (L.start : ℤ) ≤ p ∧ (p - L.start) % L.size = 0 ∧ ((p - L.start) / L.size).toNat < L.num then
    some ((p - L.start) / L.size).toNat
  else none

/-- The inner loop of the shell sort, for so many rounds at most: `p2` goes down. -/
def sink (base shell : ℤ) : ℕ → (ℕ → α) → ℤ → Option (ℕ → α)
  | 0, _, _ => none
  | k + 1, arr, p2 =>
    if base < p2 then
      (L.elem ((p2 - shell) % 65536)).bind fun i =>
        (L.elem p2).bind fun j =>
          (cmpfn c L.num arr i j).bind fun comparison =>
            if 0 < comparison then
              (swapfn L.num arr j i).bind fun arr => sink base shell k arr ((p2 - shell) % 65536)
            else some arr
    else some arr

/-- A round of the shell sort, where `p1` goes up. -/
def shellPass (base shell stop : ℤ) : ℕ → (ℕ → α) → ℤ → Option (ℕ → α)
  | 0, _, _ => none
  | k + 1, arr, p1 =>
    if p1 < stop then
      (sink c L base shell 65536 arr p1).bind fun arr => shellPass base shell stop k arr ((p1 + shell) % 65536)
    else some arr

/-- The shell sort of a part, with `shell` in an `int`. -/
def shellSort (lo m : ℕ) : ℕ → (ℕ → α) → ℤ → Option (ℕ → α)
  | 0, _, _ => none
  | k + 1, arr, shell =>
    if 0 < shell then
      let base : ℤ := (L.start + lo * L.size : ℕ)
      (shellPass c L base shell ((base + m * L.size) % 65536) 65536 arr ((base + shell) % 65536)).bind fun arr =>
        shellSort lo m k arr (Int.bmod (shell - 2 * L.size) 65536)
    else some arr

/-- `med3`. -/
def med3 (arr : ℕ → α) (a b d : ℕ) : Option ℕ :=
  (cmpfn c L.num arr a b).bind fun ab =>
    if 0 < ab then
      (cmpfn c L.num arr a d).bind fun ad =>
        if 0 < ad then (cmpfn c L.num arr b d).map fun bd => if 0 < bd then b else d
        else some a
    else
      (cmpfn c L.num arr a d).bind fun ad =>
        if 0 ≤ ad then some a
        else (cmpfn c L.num arr b d).map fun bd => if 0 < bd then d else b

/-- The element for the pivot. -/
def choosePivot (arr : ℕ → α) (lo m : ℕ) : Option ℕ :=
  let mid := lo + m >>> 1
  if m > 29 then
    let p1 := lo
    let p2 := lo + (m - 1)
    if m > 42 then
      let s := m >>> 3
      (med3 c L arr p1 (p1 + s) (p1 + s <<< 1)).bind fun p1 =>
        (med3 c L arr (mid - s) mid (mid + s)).bind fun mid =>
          (med3 c L arr (p2 - s <<< 1) (p2 - s) p2).bind fun p2 => med3 c L arr p1 mid p2
    else med3 c L arr p1 mid p2
  else some mid

/-- The pivot is out of line, or an element. -/
inductive Pivot (α : Type*)
  | value (v : α)
  | elem (i : ℕ)

/-- A comparison with the pivot. -/
def cmpPivot (arr : ℕ → α) (i : ℕ) : Pivot α → Option ℤ
  | .value v => if i < L.num then some (c.cmp (arr i) v) else none
  | .elem j => cmpfn c L.num arr i j

/-- What the partitioning changes; `pc` and `pd` are given by the places behind their elements. -/
structure Scan (α : Type*) where
  arr : ℕ → α
  pa : ℕ
  pb : ℕ
  pc : ℕ
  pd : ℕ
  count : ℕ

/-- The loop over `pb`. -/
def scanLow (pv : Pivot α) : ℕ → Scan α → Option (Scan α)
  | 0, s => some { s with count := 0 }
  | count + 1, s =>
    (cmpPivot c L s.arr s.pb pv).bind fun comparison =>
      if comparison ≤ 0 then
        if comparison = 0 then
          (swapfn L.num s.arr s.pa s.pb).bind fun arr =>
            scanLow pv count { s with arr := arr, pa := s.pa + 1, pb := s.pb + 1 }
        else scanLow pv count { s with pb := s.pb + 1 }
      else some { s with count := count + 1 }

/-- The loop over `pc`. -/
def scanHigh (pv : Pivot α) : ℕ → Scan α → Option (Scan α)
  | 0, s => some { s with count := 0 }
  | count + 1, s =>
    (cmpPivot c L s.arr (s.pc - 1) pv).bind fun comparison =>
      if 0 ≤ comparison then
        if comparison = 0 then
          (swapfn L.num s.arr (s.pc - 1) (s.pd - 1)).bind fun arr =>
            scanHigh pv count { s with arr := arr, pd := s.pd - 1, pc := s.pc - 1 }
        else scanHigh pv count { s with pc := s.pc - 1 }
      else some { s with count := count + 1 }

/-- The loop around both, for so many rounds at most. -/
def scan (pv : Pivot α) : ℕ → Scan α → Option (Scan α)
  | 0, _ => none
  | k + 1, s =>
    (scanLow c L pv s.count s).bind fun s =>
      (scanHigh c L pv s.count s).bind fun s =>
        if s.count = 0 then some s
        else
          (swapfn L.num s.arr s.pb (s.pc - 1)).bind fun arr =>
            let s := { s with arr := arr, pb := s.pb + 1, count := s.count - 1 }
            if s.count = 0 then some s else scan pv k { s with pc := s.pc - 1, count := s.count - 1 }

/-- The pivot and the partitioning. -/
def partition (arr : ℕ → α) (lo m : ℕ) : Option (Scan α) :=
  (choosePivot c L arr lo m).bind fun mid =>
    -- word-size elements at even addresses are exchanged as words
    if L.start % 2 = 0 ∧ L.size = 2 then
      scan c L (.value (arr mid)) (m + 1) ⟨arr, lo, lo, lo + m, lo + m, m⟩
    else
      (swapfn L.num arr lo mid).bind fun arr => scan c L (.elem lo) (m + 1) ⟨arr, lo, lo, lo + m, lo + m, m⟩

/-- `inline_swap` of so many elements. -/
def inlineSwap (arr : ℕ → α) (p q : ℕ) : ℕ → Option (ℕ → α)
  | 0 => some arr
  | k + 1 => (inlineSwap arr p q k).bind fun arr => swapfn L.num arr (p + k) (q + k)

/-- The smaller one of the two parts in front, with the differences of pointers in an `int`. -/
def frontMin (lo pa pb : ℕ) : ℕ :=
  if Int.bmod ((pa - lo : ℕ) * L.size) 65536 < Int.bmod ((pb - pa : ℕ) * L.size) 65536 then pa - lo else pb - pa

/-- A round of the inner loop, and the parts that are left to sort: none, or the one that is gone on with and the one
that is stacked. -/
def pass (arr : ℕ → α) (lo m : ℕ) : Option ((ℕ → α) × List (ℕ × ℕ)) :=
  if m ≤ 1 then some (arr, [])
  else if m < 16 then
    (shellSort c L lo m 65536 arr (Int.bmod (L.size * 3) 65536)).map fun arr => (arr, [])
  else
    (partition c L arr lo m).bind fun s =>
      let front := frontMin L lo s.pa s.pb
      (inlineSwap L s.arr lo (s.pb - front) front).bind fun arr =>
        let back := min (s.pd - s.pc) (lo + m - s.pd)
        (inlineSwap L arr s.pb (lo + m - back) back).map fun arr =>
          let r := s.pb - s.pa
          let t := s.pd - s.pc
          (arr,
            if r ≤ t then [(lo, r), (lo + m - t, t)]
            else if r ≤ 1 then [] else [(lo + m - t, t), (lo, r)])

/-- Both loops, with the part in hand in front of the stack; nothing where the stack is too small. -/
def loop : ℕ → (ℕ → α) → List (ℕ × ℕ) → Option (ℕ → α)
  | _, arr, [] => some arr
  | 0, _, _ :: _ => none
  | fuel + 1, arr, (lo, m) :: stack =>
    (pass c L arr lo m).bind fun r =>
      if (r.2 ++ stack).length ≤ 32 + 1 then loop fuel r.1 (r.2 ++ stack) else none

/-- `qsort`. -/
def qsort (fuel : ℕ) (arr : ℕ → α) : Option (ℕ → α) := loop c L fuel arr [(0, L.num)]

/-- The branches that go wrong are not taken: the distances of the shell sort fit in an `int` and `p1` does not pass the
end of the segment, and the smaller part in front is found. -/
def Guard (arr : ℕ → α) (lo m : ℕ) : Prop :=
  (2 ≤ m → m < 16 → L.size * 3 < 32768 ∧ L.start + (lo + 3 * ((m + 2) / 3)) * L.size < 65536) ∧
    (16 ≤ m → ∀ s, partition c L arr lo m = some s → frontMin L lo s.pa s.pb = min (s.pa - lo) (s.pb - s.pa))

/-- All rounds of a run meet the guard. -/
def Meets : ℕ → (ℕ → α) → List (ℕ × ℕ) → Prop
  | _, _, [] => True
  | 0, _, _ :: _ => True
  | k + 1, arr, (lo, m) :: stack =>
    Guard c L arr lo m ∧ ∀ r, pass c L arr lo m = some r → Meets k r.1 (r.2 ++ stack)

end

/-! ## The shell sort -/

section

variable {α : Type*} {c : CmpFn α} {L : Layout} {arr : ℕ → α} {lo : ℕ}

open Wlink.VMemQSort (SortedOn cmpfn_eq swapfn_eq)

/-- The address of an element. -/
def Layout.addr (L : Layout) (i : ℕ) : ℕ := L.start + i * L.size

theorem Layout.addr_lt (L : Layout) {i : ℕ} (hi : i < L.num) : L.addr i < 65536 := by
  have hmul : (i + 1) * L.size ≤ L.num * L.size := Nat.mul_le_mul_right _ hi
  have hinside := L.inside
  have hpos := L.size_pos
  rw [Nat.add_mul, Nat.one_mul] at hmul
  unfold Layout.addr
  omega

theorem Layout.elem_addr (L : Layout) {i : ℕ} (hi : i < L.num) : L.elem (L.addr i) = some i := by
  have hpos : (L.size : ℤ) ≠ 0 := by
    have := L.size_pos
    omega
  have hdiff : (L.addr i : ℤ) - L.start = i * L.size := by
    unfold Layout.addr
    push_cast
    ring
  have hdiv : ((L.addr i : ℤ) - L.start) / L.size = i := by rw [hdiff, Int.mul_ediv_cancel _ hpos]
  unfold Layout.elem
  rw [hdiv, hdiff, Int.mul_emod_left, Int.toNat_natCast, if_pos]
  exact ⟨by unfold Layout.addr; omega, rfl, hi⟩

/-- What the inner loop does to the elements of a chain. -/
def insertDown (c : CmpFn α) (g lo : ℕ) : ℕ → (ℕ → α) → (ℕ → α)
  | 0, arr => arr
  | t + 1, arr =>
    if 0 < c.cmp (arr (lo + g * t)) (arr (lo + g * (t + 1))) then
      insertDown c g lo t (arr ∘ Equiv.swap (lo + g * (t + 1)) (lo + g * t))
    else arr

theorem sink_eq {g : ℕ} (hg : 0 < g) (t : ℕ) (arr : ℕ → α) (k : ℕ) (hk : t < k) (hin : lo + g * t < L.num) :
    sink c L (L.addr lo) (g * L.size : ℕ) k arr (L.addr (lo + g * t)) = some (insertDown c g lo t arr) := by
  induction t generalizing arr k with
  | zero =>
    obtain ⟨k, rfl⟩ : ∃ k', k = k' + 1 := ⟨k - 1, by omega⟩
    rw [sink, if_neg (by simp)]
    rfl
  | succ t ih =>
    obtain ⟨k, rfl⟩ : ∃ k', k = k' + 1 := ⟨k - 1, by omega⟩
    have hstep : g * (t + 1) = g * t + g := by ring
    have hin' : lo + g * t < L.num := by omega
    have hgt : (L.addr lo : ℤ) < L.addr (lo + g * (t + 1)) := by
      have hpos : 0 < g * (t + 1) * L.size := Nat.mul_pos (Nat.mul_pos hg (Nat.succ_pos t)) L.size_pos
      unfold Layout.addr
      rw [Nat.add_mul]
      omega
    have hprev : ((L.addr (lo + g * (t + 1)) : ℤ) - (g * L.size : ℕ)) % 65536 = L.addr (lo + g * t) := by
      have heq : (L.addr (lo + g * (t + 1)) : ℤ) - (g * L.size : ℕ) = L.addr (lo + g * t) := by
        unfold Layout.addr
        push_cast
        ring
      have hlt := L.addr_lt hin'
      rw [heq, Int.emod_eq_of_lt (by omega) (by omega)]
    rw [sink, if_pos hgt, hprev, L.elem_addr hin', Option.bind_some, L.elem_addr hin, Option.bind_some,
      cmpfn_eq arr hin' hin, Option.bind_some, insertDown]
    split_ifs with hcmp
    · rw [swapfn_eq arr hin hin', Option.bind_some, ih _ k (by omega) hin']
    · rfl

theorem insertDown_rearranged (g t : ℕ) (arr : ℕ → α) :
    Rearranged lo (lo + g * t + 1) arr (insertDown c g lo t arr) := by
  induction t generalizing arr with
  | zero => exact .refl arr
  | succ t ih =>
    have hstep : g * (t + 1) = g * t + g := by ring
    rw [insertDown]
    split_ifs with hcmp
    · exact (Rearranged.swap arr (by omega) (by omega)).trans ((ih _).mono le_rfl (by omega))
    · exact .refl arr

/-- All is in order but for the element that goes down, which is before what is behind it. -/
structure Inserting (c : CmpFn α) (lo t n : ℕ) (arr : ℕ → α) : Prop where
  sorted : ∀ i j, lo ≤ i → i ≤ j → j ≤ lo + n → i ≠ lo + t → j ≠ lo + t → c.cmp (arr i) (arr j) ≤ 0
  after : ∀ j, lo + t < j → j ≤ lo + n → c.cmp (arr (lo + t)) (arr j) ≤ 0

theorem Inserting.insertDown {t n : ℕ} (h : Inserting c lo t n arr) (ht : t ≤ n) :
    SortedOn c lo (lo + n + 1) (insertDown c 1 lo t arr) := by
  induction t generalizing arr with
  | zero =>
    intro i j hi hij hj
    by_cases hilo : i = lo
    · by_cases hjlo : j = lo
      · rw [hilo, hjlo]
        exact c.refl _
      · rw [hilo]
        exact h.after j (by omega) (by omega)
    · exact h.sorted i j hi hij (by omega) (by omega) (by omega)
  | succ t ih =>
    rw [QSort.insertDown, one_mul, one_mul]
    split_ifs with hcmp
    · have hleft : ∀ i, i ≠ lo + (t + 1) → i ≠ lo + t →
          (arr ∘ Equiv.swap (lo + (t + 1)) (lo + t)) i = arr i := fun i h₁ h₂ =>
        congrArg arr (Equiv.swap_apply_of_ne_of_ne h₁ h₂)
      have hnew : (arr ∘ Equiv.swap (lo + (t + 1)) (lo + t)) (lo + (t + 1)) = arr (lo + t) :=
        congrArg arr (Equiv.swap_apply_left _ _)
      have hdown : (arr ∘ Equiv.swap (lo + (t + 1)) (lo + t)) (lo + t) = arr (lo + (t + 1)) :=
        congrArg arr (Equiv.swap_apply_right _ _)
      refine ih ⟨?_, ?_⟩ (by omega)
      · intro i j hi hij hj hit hjt
        by_cases hi' : i = lo + (t + 1)
        · by_cases hj' : j = lo + (t + 1)
          · rw [hi', hj']
            exact c.refl _
          · rw [hi', hnew, hleft j hj' hjt]
            exact h.sorted (lo + t) j (by omega) (by omega) hj (by omega) hj'
        · by_cases hj' : j = lo + (t + 1)
          · rw [hj', hnew, hleft i hi' hit]
            exact h.sorted i (lo + t) hi (by omega) (by omega) hi' (by omega)
          · rw [hleft i hi' hit, hleft j hj' hjt]
            exact h.sorted i j hi hij hj hi' hj'
      · intro j hj hjn
        rw [hdown]
        by_cases hj' : j = lo + (t + 1)
        · rw [hj', hnew]
          exact c.nonpos_of_nonneg hcmp.le
        · rw [hleft j hj' (by omega)]
          exact h.after j (by omega) hjn
    · intro i j hi hij hj
      by_cases hi' : i = lo + (t + 1)
      · by_cases hj' : j = lo + (t + 1)
        · rw [hi', hj']
          exact c.refl _
        · rw [hi']
          exact h.after j (by omega) (by omega)
      · by_cases hj' : j = lo + (t + 1)
        · have hbefore : c.cmp (arr i) (arr (lo + t)) ≤ 0 :=
            h.sorted i (lo + t) hi (by omega) (by omega) hi' (by omega)
          rw [hj']
          exact c.trans _ _ _ hbefore (by omega)
        · exact h.sorted i j hi hij (by omega) hi' hj'

theorem inserting_of_sorted {n : ℕ} (h : SortedOn c lo (lo + n) arr) : Inserting c lo n n arr where
  sorted i j hi hij hj hin hjn := h i j hi hij (by omega)
  after j hj hjn := by omega

/-- A round of the shell sort that does not pass the end of the segment keeps the elements, and the last one sorts
them. -/
theorem shellPass_eq {g m : ℕ} (hg : 0 < g) (hm : lo + m ≤ L.num) (j : ℕ) :
    ∀ (t : ℕ) (arr : ℕ → α) (k : ℕ), j < k → m ≤ g * (t + j) → t + j ≤ 65535 →
      (∀ u, u ≤ t + j → L.addr (lo + g * u) < 65536) →
      ∃ arr', shellPass c L (L.addr lo) (g * L.size : ℕ) (L.addr (lo + m)) k arr (L.addr (lo + g * t)) = some arr' ∧
        Rearranged lo (lo + m) arr arr' ∧
        (g = 1 → t ≤ m → SortedOn c lo (lo + t) arr → SortedOn c lo (lo + m) arr') := by
  induction j with
  | zero =>
    intro t arr k hk hreach _ haddr
    obtain ⟨k, rfl⟩ : ∃ k', k = k' + 1 := ⟨k - 1, by omega⟩
    have hend : ¬ (L.addr (lo + g * t) : ℤ) < L.addr (lo + m) := by
      have hmul : m * L.size ≤ g * t * L.size := Nat.mul_le_mul_right _ hreach
      unfold Layout.addr
      rw [Nat.add_mul, Nat.add_mul]
      omega
    refine ⟨arr, by rw [shellPass, if_neg hend], .refl arr, fun hone ht hsorted => ?_⟩
    rw [hone, Nat.add_zero, one_mul] at hreach
    rwa [show m = t by omega]
  | succ j ih =>
    intro t arr k hk hreach hrounds haddr
    obtain ⟨k, rfl⟩ : ∃ k', k = k' + 1 := ⟨k - 1, by omega⟩
    by_cases hlt : g * t < m
    · have hin : lo + g * t < L.num := by omega
      have hgo : (L.addr (lo + g * t) : ℤ) < L.addr (lo + m) := by
        have hmul : (g * t + 1) * L.size ≤ m * L.size := Nat.mul_le_mul_right _ hlt
        have hpos := L.size_pos
        rw [Nat.add_mul, Nat.one_mul] at hmul
        unfold Layout.addr
        rw [Nat.add_mul, Nat.add_mul]
        omega
      have hnext : ((L.addr (lo + g * t) : ℤ) + (g * L.size : ℕ)) % 65536 = L.addr (lo + g * (t + 1)) := by
        have heq : (L.addr (lo + g * t) : ℤ) + (g * L.size : ℕ) = L.addr (lo + g * (t + 1)) := by
          unfold Layout.addr
          push_cast
          ring
        have hsmall := haddr (t + 1) (by omega)
        rw [heq, Int.emod_eq_of_lt (by omega) (by omega)]
      obtain ⟨arr', heq, hre, hsorted⟩ := ih (t + 1) (insertDown c g lo t arr) k (by omega)
        (hreach.trans (by rw [show t + 1 + j = t + (j + 1) by omega])) (by omega)
        fun u hu => haddr u (by omega)
      refine ⟨arr', ?_, ((insertDown_rearranged g t arr).mono le_rfl (by omega)).trans hre, fun hone ht hs => ?_⟩
      · rw [shellPass, if_pos hgo, sink_eq hg t arr 65536 (by omega) hin, Option.bind_some, hnext, heq]
      · refine hsorted hone (by rw [hone, one_mul] at hlt; omega) ?_
        subst hone
        exact (inserting_of_sorted hs).insertDown le_rfl
    · have hend : ¬ (L.addr (lo + g * t) : ℤ) < L.addr (lo + m) := by
        have hmul : m * L.size ≤ g * t * L.size := Nat.mul_le_mul_right _ (by omega)
        unfold Layout.addr
        rw [Nat.add_mul, Nat.add_mul]
        omega
      refine ⟨arr, by rw [shellPass, if_neg hend], .refl arr, fun hone ht hsorted => ?_⟩
      rw [hone, one_mul] at hlt
      rwa [show m = t by omega]

/-- The shell sort of a part sorts it when the guard is met. -/
theorem shellSort_sorts {m : ℕ} (hm : lo + m ≤ L.num) (htwo : 2 ≤ m) (hsmall : m < 16) (hint : L.size * 3 < 32768)
    (hwrap : L.start + (lo + 3 * ((m + 2) / 3)) * L.size < 65536) (arr : ℕ → α) :
    ∃ arr', shellSort c L lo m 65536 arr (Int.bmod (L.size * 3) 65536) = some arr' ∧
      Rearranged lo (lo + m) arr arr' ∧ SortedOn c lo (lo + m) arr' := by
  have hpos := L.size_pos
  have hle : ∀ i, i ≤ lo + 3 * ((m + 2) / 3) → L.addr i < 65536 := fun i hi => by
    have hmul : i * L.size ≤ (lo + 3 * ((m + 2) / 3)) * L.size := Nat.mul_le_mul_right _ hi
    unfold Layout.addr
    omega
  have hfirst : Int.bmod (L.size * 3) 65536 = (3 * L.size : ℕ) := by
    rw [Int.bmod_eq_of_le (by omega) (by omega)]
    push_cast
    ring
  have hsecond : Int.bmod ((3 * L.size : ℕ) - 2 * L.size) 65536 = (1 * L.size : ℕ) := by
    rw [Int.bmod_eq_of_le (by push_cast; omega) (by push_cast; omega)]
    push_cast
    ring
  have hthird : Int.bmod ((1 * L.size : ℕ) - 2 * L.size) 65536 = -(L.size : ℤ) := by
    rw [Int.bmod_eq_of_le (by push_cast; omega) (by push_cast; omega)]
    push_cast
    ring
  have hstop : ((L.start + lo * L.size : ℕ) + m * L.size : ℤ) % 65536 = L.addr (lo + m) := by
    have heq : ((L.start + lo * L.size : ℕ) + m * L.size : ℤ) = L.addr (lo + m) := by
      unfold Layout.addr
      push_cast
      ring
    have := hle (lo + m) (by omega)
    rw [heq, Int.emod_eq_of_lt (by omega) (by omega)]
  have hbegin : ∀ g, 0 < g → g ≤ 3 → ((L.start + lo * L.size : ℕ) + (g * L.size : ℕ) : ℤ) % 65536 =
      L.addr (lo + g * 1) := fun g hg hthree => by
    have heq : ((L.start + lo * L.size : ℕ) + (g * L.size : ℕ) : ℤ) = L.addr (lo + g * 1) := by
      unfold Layout.addr
      push_cast
      ring
    have := hle (lo + g * 1) (by omega)
    rw [heq, Int.emod_eq_of_lt (by omega) (by omega)]
  obtain ⟨arr₁, heq₁, hre₁, -⟩ := shellPass_eq (c := c) (show 0 < 3 by omega) hm ((m + 2) / 3 - 1) 1 arr 65536
    (by omega) (by omega) (by omega) fun u hu => hle _ (by omega)
  obtain ⟨arr₂, heq₂, hre₂, hsorted⟩ := shellPass_eq (c := c) (show 0 < 1 by omega) hm (m - 1) 1 arr₁ 65536 (by omega)
    (by omega) (by omega) fun u hu => hle _ (by omega)
  refine ⟨arr₂, ?_, hre₁.trans hre₂, hsorted rfl (by omega) fun i j hi hij hj => ?_⟩
  · rw [hfirst, shellSort, if_pos (by push_cast; omega)]
    dsimp only
    rw [hstop, hbegin 3 (by omega) le_rfl]
    change (shellPass c L (L.addr lo) _ _ _ _ _).bind _ = _
    rw [heq₁, Option.bind_some, hsecond, shellSort, if_pos (by push_cast; omega)]
    dsimp only
    rw [hstop, hbegin 1 (by omega) (by omega)]
    change (shellPass c L (L.addr lo) _ _ _ _ _).bind _ = _
    rw [heq₂, Option.bind_some, hthird, shellSort, if_neg (by omega)]
  · obtain rfl : i = j := by omega
    exact c.refl _

/-! ## The pivot -/

theorem med3_mem (arr : ℕ → α) (a b d : ℕ) (ha : a < L.num) (hb : b < L.num) (hd : d < L.num) :
    ∃ e, med3 c L arr a b d = some e ∧ (e = a ∨ e = b ∨ e = d) := by
  unfold med3
  rw [cmpfn_eq arr ha hb, cmpfn_eq arr ha hd, cmpfn_eq arr hb hd]
  simp only [Option.bind_some, Option.map_some]
  split_ifs
  · exact ⟨b, rfl, Or.inr (Or.inl rfl)⟩
  · exact ⟨d, rfl, Or.inr (Or.inr rfl)⟩
  · exact ⟨a, rfl, Or.inl rfl⟩
  · exact ⟨a, rfl, Or.inl rfl⟩
  · exact ⟨d, rfl, Or.inr (Or.inr rfl)⟩
  · exact ⟨b, rfl, Or.inr (Or.inl rfl)⟩

theorem choosePivot_mem {m : ℕ} (hm : lo + m ≤ L.num) (hlarge : 16 ≤ m) :
    ∃ mid, choosePivot c L arr lo m = some mid ∧ lo ≤ mid ∧ mid < lo + m := by
  have hhalf : m >>> 1 = m / 2 := Nat.shiftRight_eq_div_pow m 1
  have heighth : m >>> 3 = m / 8 := Nat.shiftRight_eq_div_pow m 3
  have hdouble : (m >>> 3) <<< 1 = m / 8 * 2 := by rw [Nat.shiftLeft_eq, heighth, pow_one]
  -- one of three places in the part is in the part
  have hpart : ∀ {a b d e : ℕ}, (lo ≤ a ∧ a < lo + m) → (lo ≤ b ∧ b < lo + m) → (lo ≤ d ∧ d < lo + m) →
      (e = a ∨ e = b ∨ e = d) → lo ≤ e ∧ e < lo + m := by
    rintro a b d e ha hb hd (rfl | rfl | rfl)
    exacts [ha, hb, hd]
  unfold choosePivot
  dsimp only
  rw [hdouble, hhalf, heighth]
  have hle8 : 8 * (m / 8) ≤ m := Nat.mul_div_le m 8
  have hle2 : 2 * (m / 2) ≤ m := Nat.mul_div_le m 2
  have hge2 : m < 2 * (m / 2) + 2 := by omega
  have hge8 : 2 ≤ m / 8 := by omega
  generalize m / 8 = eighth at *
  generalize m / 2 = half at *
  split_ifs with hmiddle hbig
  · obtain ⟨p1, hp1, hin1⟩ := med3_mem (c := c) (L := L) arr lo (lo + eighth) (lo + eighth * 2) (by omega)
      (by omega) (by omega)
    obtain ⟨mid, hmid, hinmid⟩ := med3_mem (c := c) (L := L) arr (lo + half - eighth) (lo + half)
      (lo + half + eighth) (by omega) (by omega) (by omega)
    obtain ⟨p2, hp2, hin2⟩ := med3_mem (c := c) (L := L) arr (lo + (m - 1) - eighth * 2)
      (lo + (m - 1) - eighth) (lo + (m - 1)) (by omega) (by omega) (by omega)
    replace hin1 := hpart (by omega) (by omega) (by omega) hin1
    replace hinmid := hpart (by omega) (by omega) (by omega) hinmid
    replace hin2 := hpart (by omega) (by omega) (by omega) hin2
    obtain ⟨e, he, hin⟩ := med3_mem (c := c) (L := L) arr p1 mid p2 (by omega) (by omega)
      (by omega)
    rw [hp1, Option.bind_some, hmid, Option.bind_some, hp2, Option.bind_some, he]
    exact ⟨e, rfl, hpart hin1 hinmid hin2 hin⟩
  · obtain ⟨e, he, hin⟩ := med3_mem (c := c) (L := L) arr lo (lo + half) (lo + (m - 1)) (by omega)
      (by omega) (by omega)
    rw [he]
    exact ⟨e, rfl, hpart (by omega) (by omega) (by omega) hin⟩
  · exact ⟨_, rfl, by omega, by omega⟩

/-! ## The partitioning -/

theorem cmp_self (c : CmpFn α) (a : α) : c.cmp a a = 0 := by
  have := c.refl a
  have := c.neg_iff a a
  omega

/-- The pivot is `p`: out of line, or the first element. -/
def Pivot.Is (lo : ℕ) (arr : ℕ → α) (p : α) : Pivot α → Prop
  | .value v => v = p
  | .elem j => j = lo ∧ arr lo = p

variable {pv : Pivot α} {p : α} {hi : ℕ}

theorem cmpPivot_eq (h : pv.Is lo arr p) {i : ℕ} (hi : i < L.num) (hlo : lo < L.num) :
    cmpPivot c L arr i pv = some (c.cmp (arr i) p) := by
  cases pv with
  | value v =>
    obtain rfl : v = p := h
    exact if_pos hi
  | elem j =>
    obtain ⟨rfl, rfl⟩ : j = lo ∧ arr lo = p := h
    exact cmpfn_eq arr hi hlo

/-- The pivot stays where neither element is the first one. -/
theorem Pivot.Is.swap (h : pv.Is lo arr p) {i j : ℕ} (hij : arr lo = p → i ≠ lo ∧ j ≠ lo ∨ i = j) :
    pv.Is lo (arr ∘ Equiv.swap i j) p := by
  cases pv with
  | value v => exact h
  | elem k =>
    refine ⟨h.1, ?_⟩
    rcases hij h.2 with hne | rfl
    · rw [Function.comp_apply, Equiv.swap_apply_of_ne_of_ne hne.1.symm hne.2.symm]
      exact h.2
    · rw [Equiv.swap_self]
      exact h.2

/-- The elements from `lo` to `hi`: some level with the pivot, some before it, so many that are still to be looked at,
some behind it, and some level with it. -/
structure ScanInv (c : CmpFn α) (pv : Pivot α) (p : α) (lo hi : ℕ) (arr : ℕ → α) (count : ℕ) (s : Scan α) : Prop where
  re : Rearranged lo hi arr s.arr
  pivot : pv.Is lo s.arr p
  lo_le : lo ≤ s.pa
  pa_le : s.pa ≤ s.pb
  pc_eq : s.pb + count = s.pc
  pc_le : s.pc ≤ s.pd
  pd_le : s.pd ≤ hi
  eqL : ∀ i, lo ≤ i → i < s.pa → c.cmp (s.arr i) p = 0
  lt : ∀ i, s.pa ≤ i → i < s.pb → c.cmp (s.arr i) p < 0
  gt : ∀ i, s.pc ≤ i → i < s.pd → 0 < c.cmp (s.arr i) p
  eqR : ∀ i, s.pd ≤ i → i < hi → c.cmp (s.arr i) p = 0

theorem ScanInv.low_eq {count : ℕ} {s : Scan α} (h : ScanInv c pv p lo hi arr (count + 1) s)
    (hzero : c.cmp (s.arr s.pb) p = 0) :
    ScanInv c pv p lo hi arr count
      { s with arr := s.arr ∘ Equiv.swap s.pa s.pb, pa := s.pa + 1, pb := s.pb + 1 } := by
  obtain ⟨re, pivot, lo_le, pa_le, pc_eq, pc_le, pd_le, eqL, lt, gt, eqR⟩ := h
  have hother : ∀ i, i ≠ s.pa → i ≠ s.pb → (s.arr ∘ Equiv.swap s.pa s.pb) i = s.arr i := fun i h₁ h₂ =>
    congrArg s.arr (Equiv.swap_apply_of_ne_of_ne h₁ h₂)
  have hpa : (s.arr ∘ Equiv.swap s.pa s.pb) s.pa = s.arr s.pb := congrArg s.arr (Equiv.swap_apply_left _ _)
  have hpb : (s.arr ∘ Equiv.swap s.pa s.pb) s.pb = s.arr s.pa := congrArg s.arr (Equiv.swap_apply_right _ _)
  constructor <;> dsimp only
  · exact re.trans (Rearranged.swap s.arr (by omega) (by omega))
  · refine pivot.swap fun hlo => ?_
    by_cases hfirst : s.pa = lo
    · refine Or.inr ?_
      by_contra hne
      have := lt lo (by omega) (by omega)
      rw [hlo, cmp_self] at this
      omega
    · exact Or.inl ⟨hfirst, by omega⟩
  · omega
  · omega
  · omega
  · exact pc_le
  · exact pd_le
  · intro i hi hia
    by_cases hlast : i = s.pa
    · rw [hlast, hpa]
      exact hzero
    · rw [hother i hlast (by omega)]
      exact eqL i hi (by omega)
  · intro i hia hib
    by_cases hlast : i = s.pb
    · rw [hlast, hpb]
      exact lt s.pa le_rfl (by omega)
    · rw [hother i (by omega) hlast]
      exact lt i (by omega) (by omega)
  · intro i hic hid
    rw [hother i (by omega) (by omega)]
    exact gt i hic hid
  · intro i hid hih
    rw [hother i (by omega) (by omega)]
    exact eqR i hid hih

theorem ScanInv.low_lt {count : ℕ} {s : Scan α} (h : ScanInv c pv p lo hi arr (count + 1) s)
    (hneg : c.cmp (s.arr s.pb) p < 0) : ScanInv c pv p lo hi arr count { s with pb := s.pb + 1 } := by
  obtain ⟨re, pivot, lo_le, pa_le, pc_eq, pc_le, pd_le, eqL, lt, gt, eqR⟩ := h
  refine ⟨re, pivot, lo_le, by dsimp only; omega, by dsimp only; omega, pc_le, pd_le, eqL, fun i hia hib => ?_, gt, eqR⟩
  by_cases hlast : i = s.pb
  · rw [hlast]
    exact hneg
  · exact lt i hia (by dsimp only at hib; omega)

/-- The loop over `pb` ends at an element behind the pivot. -/
theorem scanLow_spec (hhi : hi ≤ L.num) (count : ℕ) {s : Scan α} (h : ScanInv c pv p lo hi arr count s) :
    ∃ s', scanLow c L pv count s = some s' ∧ s'.count ≤ count ∧ ScanInv c pv p lo hi arr s'.count s' ∧
      (s'.count ≠ 0 → 0 < c.cmp (s'.arr s'.pb) p) := by
  induction count generalizing s with
  | zero =>
    refine ⟨_, rfl, le_rfl, ?_, fun hne => absurd rfl hne⟩
    obtain ⟨re, pivot, lo_le, pa_le, pc_eq, pc_le, pd_le, eqL, lt, gt, eqR⟩ := h
    exact ⟨re, pivot, lo_le, pa_le, pc_eq, pc_le, pd_le, eqL, lt, gt, eqR⟩
  | succ count ih =>
    have horder := h.pc_eq
    have := h.lo_le
    have := h.pa_le
    have := h.pc_le
    have := h.pd_le
    rw [scanLow, cmpPivot_eq h.pivot (by omega) (by omega), Option.bind_some]
    split_ifs with hle hzero
    · rw [swapfn_eq s.arr (by omega) (by omega), Option.bind_some]
      obtain ⟨s', heq, hcount, hinv, hstop⟩ := ih (h.low_eq hzero)
      exact ⟨s', heq, by omega, hinv, hstop⟩
    · obtain ⟨s', heq, hcount, hinv, hstop⟩ := ih (h.low_lt (by omega))
      exact ⟨s', heq, by omega, hinv, hstop⟩
    · refine ⟨_, rfl, le_rfl, ?_, fun _ => by dsimp only; omega⟩
      obtain ⟨re, pivot, lo_le, pa_le, pc_eq, pc_le, pd_le, eqL, lt, gt, eqR⟩ := h
      exact ⟨re, pivot, lo_le, pa_le, pc_eq, pc_le, pd_le, eqL, lt, gt, eqR⟩

theorem ScanInv.high_eq {count : ℕ} {s : Scan α} (h : ScanInv c pv p lo hi arr (count + 1) s)
    (hstop : 0 < c.cmp (s.arr s.pb) p) (hzero : c.cmp (s.arr (s.pc - 1)) p = 0) :
    ScanInv c pv p lo hi arr count
        { s with arr := s.arr ∘ Equiv.swap (s.pc - 1) (s.pd - 1), pd := s.pd - 1, pc := s.pc - 1 } ∧
      (s.arr ∘ Equiv.swap (s.pc - 1) (s.pd - 1)) s.pb = s.arr s.pb := by
  have hne : s.pb ≠ s.pc - 1 := fun heq => by
    rw [← heq] at hzero
    omega
  obtain ⟨re, pivot, lo_le, pa_le, pc_eq, pc_le, pd_le, eqL, lt, gt, eqR⟩ := h
  have hother : ∀ i, i ≠ s.pc - 1 → i ≠ s.pd - 1 → (s.arr ∘ Equiv.swap (s.pc - 1) (s.pd - 1)) i = s.arr i :=
    fun i h₁ h₂ => congrArg s.arr (Equiv.swap_apply_of_ne_of_ne h₁ h₂)
  have hpc : (s.arr ∘ Equiv.swap (s.pc - 1) (s.pd - 1)) (s.pc - 1) = s.arr (s.pd - 1) :=
    congrArg s.arr (Equiv.swap_apply_left _ _)
  have hpd : (s.arr ∘ Equiv.swap (s.pc - 1) (s.pd - 1)) (s.pd - 1) = s.arr (s.pc - 1) :=
    congrArg s.arr (Equiv.swap_apply_right _ _)
  refine ⟨?_, hother s.pb hne (by omega)⟩
  constructor <;> dsimp only
  · exact re.trans (Rearranged.swap s.arr (by omega) (by omega))
  · exact pivot.swap fun _ => Or.inl ⟨by omega, by omega⟩
  · exact lo_le
  · exact pa_le
  · omega
  · omega
  · omega
  · intro i hi hia
    rw [hother i (by omega) (by omega)]
    exact eqL i hi hia
  · intro i hia hib
    rw [hother i (by omega) (by omega)]
    exact lt i hia hib
  · intro i hic hid
    by_cases hlast : i = s.pc - 1
    · rw [hlast, hpc]
      exact gt (s.pd - 1) (by omega) (by omega)
    · rw [hother i hlast (by omega)]
      exact gt i (by omega) (by omega)
  · intro i hid hih
    by_cases hlast : i = s.pd - 1
    · rw [hlast, hpd]
      exact hzero
    · rw [hother i (by omega) hlast]
      exact eqR i (by omega) hih

theorem ScanInv.high_gt {count : ℕ} {s : Scan α} (h : ScanInv c pv p lo hi arr (count + 1) s)
    (hpos : 0 < c.cmp (s.arr (s.pc - 1)) p) : ScanInv c pv p lo hi arr count { s with pc := s.pc - 1 } := by
  obtain ⟨re, pivot, lo_le, pa_le, pc_eq, pc_le, pd_le, eqL, lt, gt, eqR⟩ := h
  refine ⟨re, pivot, lo_le, pa_le, by dsimp only; omega, by dsimp only; omega, pd_le, eqL, lt, fun i hic hid => ?_, eqR⟩
  by_cases hlast : i = s.pc - 1
  · rw [hlast]
    exact hpos
  · exact gt i (by dsimp only at hic; omega) hid

/-- The loop over `pc` ends at an element before the pivot, and leaves the one at `pb`. -/
theorem scanHigh_spec (hhi : hi ≤ L.num) (count : ℕ) {s : Scan α} (h : ScanInv c pv p lo hi arr count s)
    (hstop : count ≠ 0 → 0 < c.cmp (s.arr s.pb) p) :
    ∃ s', scanHigh c L pv count s = some s' ∧ s'.count ≤ count ∧ ScanInv c pv p lo hi arr s'.count s' ∧
      (s'.count ≠ 0 → 0 < c.cmp (s'.arr s'.pb) p ∧ c.cmp (s'.arr (s'.pc - 1)) p < 0) := by
  induction count generalizing s with
  | zero =>
    refine ⟨_, rfl, le_rfl, ?_, fun hne => absurd rfl hne⟩
    obtain ⟨re, pivot, lo_le, pa_le, pc_eq, pc_le, pd_le, eqL, lt, gt, eqR⟩ := h
    exact ⟨re, pivot, lo_le, pa_le, pc_eq, pc_le, pd_le, eqL, lt, gt, eqR⟩
  | succ count ih =>
    have hpos := hstop (Nat.succ_ne_zero count)
    have horder := h.pc_eq
    have := h.lo_le
    have := h.pa_le
    have := h.pc_le
    have := h.pd_le
    rw [scanHigh, cmpPivot_eq h.pivot (by omega) (by omega), Option.bind_some]
    split_ifs with hge hzero
    · rw [swapfn_eq s.arr (by omega) (by omega), Option.bind_some]
      obtain ⟨hinv, hkeep⟩ := h.high_eq hpos hzero
      obtain ⟨s', heq, hcount, hinv', hstop'⟩ := ih hinv fun _ => by
        dsimp only
        rw [hkeep]
        exact hpos
      exact ⟨s', heq, by omega, hinv', hstop'⟩
    · obtain ⟨s', heq, hcount, hinv', hstop'⟩ := ih (h.high_gt (by omega)) fun _ => hpos
      exact ⟨s', heq, by omega, hinv', hstop'⟩
    · refine ⟨_, rfl, le_rfl, ?_, fun _ => ⟨hpos, by dsimp only; omega⟩⟩
      obtain ⟨re, pivot, lo_le, pa_le, pc_eq, pc_le, pd_le, eqL, lt, gt, eqR⟩ := h
      exact ⟨re, pivot, lo_le, pa_le, pc_eq, pc_le, pd_le, eqL, lt, gt, eqR⟩

/-- The two elements at which the loops end are exchanged. -/
theorem ScanInv.exchange {count : ℕ} {s : Scan α} (h : ScanInv c pv p lo hi arr (count + 2) s)
    (hpos : 0 < c.cmp (s.arr s.pb) p) (hneg : c.cmp (s.arr (s.pc - 1)) p < 0) :
    ScanInv c pv p lo hi arr count
      { s with arr := s.arr ∘ Equiv.swap s.pb (s.pc - 1), pb := s.pb + 1, count := count, pc := s.pc - 1 } := by
  obtain ⟨re, pivot, lo_le, pa_le, pc_eq, pc_le, pd_le, eqL, lt, gt, eqR⟩ := h
  have hother : ∀ i, i ≠ s.pb → i ≠ s.pc - 1 → (s.arr ∘ Equiv.swap s.pb (s.pc - 1)) i = s.arr i :=
    fun i h₁ h₂ => congrArg s.arr (Equiv.swap_apply_of_ne_of_ne h₁ h₂)
  have hpb : (s.arr ∘ Equiv.swap s.pb (s.pc - 1)) s.pb = s.arr (s.pc - 1) :=
    congrArg s.arr (Equiv.swap_apply_left _ _)
  have hpc : (s.arr ∘ Equiv.swap s.pb (s.pc - 1)) (s.pc - 1) = s.arr s.pb :=
    congrArg s.arr (Equiv.swap_apply_right _ _)
  constructor <;> dsimp only
  · exact re.trans (Rearranged.swap s.arr (by omega) (by omega))
  · refine pivot.swap fun hlo => Or.inl ⟨fun heq => ?_, by omega⟩
    rw [heq, hlo, cmp_self] at hpos
    omega
  · exact lo_le
  · omega
  · omega
  · omega
  · exact pd_le
  · intro i hi hia
    rw [hother i (by omega) (by omega)]
    exact eqL i hi hia
  · intro i hia hib
    by_cases hlast : i = s.pb
    · rw [hlast, hpb]
      exact hneg
    · rw [hother i hlast (by omega)]
      exact lt i hia (by omega)
  · intro i hic hid
    by_cases hlast : i = s.pc - 1
    · rw [hlast, hpc]
      exact hpos
    · rw [hother i (by omega) hlast]
      exact gt i (by omega) hid
  · intro i hid hih
    rw [hother i (by omega) (by omega)]
    exact eqR i hid hih

theorem scan_spec (hhi : hi ≤ L.num) (k : ℕ) {s : Scan α} (hk : s.count < k)
    (h : ScanInv c pv p lo hi arr s.count s) :
    ∃ s', scan c L pv k s = some s' ∧ ScanInv c pv p lo hi arr 0 s' := by
  induction k generalizing s with
  | zero => cases hk
  | succ k ih =>
    obtain ⟨s₁, heq₁, hcount₁, hinv₁, hstop₁⟩ := scanLow_spec hhi s.count h
    obtain ⟨s₂, heq₂, hcount₂, hinv₂, hstop₂⟩ := scanHigh_spec hhi s₁.count hinv₁ hstop₁
    rw [scan, heq₁, Option.bind_some, heq₂, Option.bind_some]
    split_ifs with hzero
    · rw [hzero] at hinv₂
      exact ⟨s₂, rfl, hinv₂⟩
    · obtain ⟨hpos, hneg⟩ := hstop₂ hzero
      have horder := hinv₂.pc_eq
      have hbound := hinv₂.pc_le
      have hbound' := hinv₂.pd_le
      have htwo : s₂.count ≠ 1 := fun hone => by
        rw [hone] at horder
        rw [show s₂.pc - 1 = s₂.pb by omega] at hneg
        omega
      obtain ⟨count, hcount⟩ : ∃ count, s₂.count = count + 2 := ⟨s₂.count - 2, by omega⟩
      rw [hcount] at hinv₂
      rw [swapfn_eq s₂.arr (by omega) (by omega), Option.bind_some]
      dsimp only
      rw [if_neg (by omega), show s₂.count - 1 - 1 = count by omega]
      exact ih (by dsimp only; omega) (hinv₂.exchange hpos hneg)

/-- A part of 16 elements or more is partitioned by one of its elements. -/
theorem partition_spec {m : ℕ} (hm : lo + m ≤ L.num) (hlarge : 16 ≤ m) (arr : ℕ → α) :
    ∃ s pv mid, lo ≤ mid ∧ mid < lo + m ∧ partition c L arr lo m = some s ∧
      ScanInv c pv (arr mid) lo (lo + m) arr 0 s := by
  obtain ⟨mid, hmid, hlo, hlt⟩ := @choosePivot_mem α c L arr lo m hm hlarge
  unfold partition
  rw [hmid, Option.bind_some]
  split_ifs
  · obtain ⟨s, heq, hinv⟩ := @scan_spec α c L arr lo (.value (arr mid)) (arr mid) (lo + m) hm (m + 1)
      ⟨arr, lo, lo, lo + m, lo + m, m⟩ (by dsimp only; omega)
      ⟨.refl arr, rfl, le_rfl, le_rfl, rfl, le_rfl, le_rfl, fun i _ _ => by dsimp only at *; omega,
        fun i _ _ => by dsimp only at *; omega, fun i _ _ => by dsimp only at *; omega,
        fun i _ _ => by dsimp only at *; omega⟩
    exact ⟨s, _, mid, hlo, hlt, heq, hinv⟩
  · rw [swapfn_eq arr (by omega) (by omega), Option.bind_some]
    obtain ⟨s, heq, hinv⟩ := @scan_spec α c L arr lo (.elem lo) (arr mid) (lo + m) hm (m + 1)
      ⟨arr ∘ Equiv.swap lo mid, lo, lo, lo + m, lo + m, m⟩ (by dsimp only; omega)
      ⟨Rearranged.swap arr (by omega) (by omega), ⟨rfl, congrArg arr (Equiv.swap_apply_left _ _)⟩, le_rfl, le_rfl, rfl,
        le_rfl, le_rfl, fun i _ _ => by dsimp only at *; omega, fun i _ _ => by dsimp only at *; omega,
        fun i _ _ => by dsimp only at *; omega, fun i _ _ => by dsimp only at *; omega⟩
    exact ⟨s, _, mid, hlo, hlt, heq, hinv⟩

/-- Two blocks that do not overlap are exchanged. -/
theorem inlineSwap_eq (arr : ℕ → α) {q k : ℕ} (hdisjoint : lo + k ≤ q) (hhi : q + k ≤ hi) (hnum : hi ≤ L.num) :
    ∃ arr', inlineSwap L arr lo q k = some arr' ∧ Rearranged lo hi arr arr' ∧
      (∀ i, i < k → arr' (lo + i) = arr (q + i)) ∧ (∀ i, i < k → arr' (q + i) = arr (lo + i)) ∧
      ∀ i, i < lo ∨ lo + k ≤ i → i < q ∨ q + k ≤ i → arr' i = arr i := by
  induction k with
  | zero => exact ⟨arr, rfl, .refl arr, fun i hi => by omega, fun i hi => by omega, fun i _ _ => rfl⟩
  | succ k ih =>
    obtain ⟨arr', heq, hre, hfront, hback, hout⟩ := ih (by omega) (by omega)
    have hother : ∀ i, i ≠ lo + k → i ≠ q + k → (arr' ∘ Equiv.swap (lo + k) (q + k)) i = arr' i := fun i h₁ h₂ =>
      congrArg arr' (Equiv.swap_apply_of_ne_of_ne h₁ h₂)
    refine ⟨arr' ∘ Equiv.swap (lo + k) (q + k), ?_, hre.trans (Rearranged.swap arr' (by omega) (by omega)), ?_, ?_, ?_⟩
    · rw [inlineSwap, heq, Option.bind_some, swapfn_eq arr' (by omega) (by omega)]
    · intro i hik
      by_cases hlast : i = k
      · rw [hlast, Function.comp_apply, Equiv.swap_apply_left]
        exact hout (q + k) (by omega) (by omega)
      · rw [hother _ (by omega) (by omega)]
        exact hfront i (by omega)
    · intro i hik
      by_cases hlast : i = k
      · rw [hlast, Function.comp_apply, Equiv.swap_apply_right]
        exact hout (lo + k) (by omega) (by omega)
      · rw [hother _ (by omega) (by omega)]
        exact hback i (by omega)
    · intro i h₁ h₂
      rw [hother i (by omega) (by omega)]
      exact hout i (by omega) (by omega)

/-- Two neighbouring parts change places when as many elements as the smaller one has are exchanged. -/
theorem inlineSwap_parts {P Q : α → Prop} (lo mid hi : ℕ) (arr : ℕ → α) (hlo : lo ≤ mid) (hhi : mid ≤ hi)
    (hnum : hi ≤ L.num) (hP : ∀ i, lo ≤ i → i < mid → P (arr i)) (hQ : ∀ i, mid ≤ i → i < hi → Q (arr i)) :
    ∃ arr', inlineSwap L arr lo (hi - min (mid - lo) (hi - mid)) (min (mid - lo) (hi - mid)) = some arr' ∧
      Rearranged lo hi arr arr' ∧ (∀ i, lo ≤ i → i < lo + (hi - mid) → Q (arr' i)) ∧
      ∀ i, lo + (hi - mid) ≤ i → i < hi → P (arr' i) := by
  generalize hk : min (mid - lo) (hi - mid) = k
  obtain ⟨arr', heq, hre, hfront, hback, hout⟩ :=
    @inlineSwap_eq α L lo hi arr (hi - k) k (by omega) (by omega) hnum
  refine ⟨arr', heq, hre, ?_, ?_⟩
  · intro i hi₁ hi₂
    by_cases hik : i < lo + k
    · obtain ⟨j, rfl⟩ : ∃ j, i = lo + j := ⟨i - lo, by omega⟩
      rw [hfront j (by omega)]
      exact hQ _ (by omega) (by omega)
    · rw [hout i (by omega) (by omega)]
      exact hQ i (by omega) (by omega)
  · intro i hi₁ hi₂
    by_cases hik : hi - k ≤ i
    · obtain ⟨j, rfl⟩ : ∃ j, i = hi - k + j := ⟨i - (hi - k), by omega⟩
      rw [hback j (by omega)]
      exact hP _ (by omega) (by omega)
    · rw [hout i (by omega) (by omega)]
      exact hP i (by omega) (by omega)

/-! ## A round of the inner loop -/

open Wlink.VMemQSort (Split sortedOn_of_le_one)

/-- The parts that are left. -/
def parts (lo m r t : ℕ) : List (ℕ × ℕ) :=
  if r ≤ t then [(lo, r), (lo + m - t, t)] else if r ≤ 1 then [] else [(lo + m - t, t), (lo, r)]

theorem mem_parts {m r t : ℕ} {x : ℕ × ℕ} (hx : x ∈ parts lo m r t) : x = (lo, r) ∨ x = (lo + m - t, t) := by
  unfold parts at hx
  split_ifs at hx
  · exact (List.mem_cons.1 hx).imp_right List.mem_singleton.1
  · cases hx
  · exact ((List.mem_cons.1 hx).imp_right List.mem_singleton.1).symm

/-- A round puts what is before the pivot in front and what is behind it at the end. -/
theorem pass_large {m : ℕ} (hm : lo + m ≤ L.num) (hlarge : 16 ≤ m) (arr : ℕ → α) (hguard : Guard c L arr lo m) :
    ∃ arr' p r t, Rearranged lo (lo + m) arr arr' ∧ r + t < m ∧
      Split c p lo (lo + r) (lo + m - t) (lo + m) arr' ∧ pass c L arr lo m = some (arr', parts lo m r t) := by
  obtain ⟨s, pv, mid, hmidlo, hmidlt, heq, hinv⟩ := partition_spec (c := c) hm hlarge arr
  have hmin := hguard.2 hlarge s heq
  obtain ⟨re, pivot, lo_le, pa_le, pc_eq, pc_le, pd_le, eqL, lt, gt, eqR⟩ := hinv
  rw [Nat.add_zero] at pc_eq
  obtain ⟨arr₁, heq₁, hre₁, hless₁, hequal₁⟩ := inlineSwap_parts (L := L) (P := fun x => c.cmp x (arr mid) = 0)
    (Q := fun x => c.cmp x (arr mid) < 0) lo s.pa s.pb s.arr lo_le pa_le (by omega) eqL lt
  have hkeep₁ : ∀ i, s.pb ≤ i → arr₁ i = s.arr i := fun i hi => hre₁.outside (Or.inr hi)
  obtain ⟨arr₂, heq₂, hre₂, hequal₂, hmore₂⟩ := inlineSwap_parts (L := L) (P := fun x => 0 < c.cmp x (arr mid))
    (Q := fun x => c.cmp x (arr mid) = 0) s.pb s.pd (lo + m) arr₁ (by omega) pd_le hm
    (fun i h₁ h₂ => by rw [hkeep₁ i h₁]; exact gt i (by omega) h₂)
    (fun i h₁ h₂ => by rw [hkeep₁ i (by omega)]; exact eqR i h₁ h₂)
  have hkeep₂ : ∀ i, i < s.pb → arr₂ i = arr₁ i := fun i hi => hre₂.outside (Or.inl hi)
  refine ⟨arr₂, arr mid, s.pb - s.pa, s.pd - s.pc, ?_, ?_, ⟨?_, ?_, ?_⟩, ?_⟩
  · exact re.trans ((hre₁.mono le_rfl (by omega)).trans (hre₂.mono (by omega) le_rfl))
  · -- The pivot is level with itself.
    by_contra hall
    have hnone : ∀ i, lo ≤ i → i < lo + m → c.cmp (s.arr i) (arr mid) ≠ 0 := fun i h₁ h₂ => by
      by_cases hi : i < s.pb
      · have := lt i (by omega) hi
        omega
      · have := gt i (by omega) (by omega)
        omega
    exact re.symm.forall_mem (p := fun x => c.cmp x (arr mid) ≠ 0) hnone mid hmidlo hmidlt (cmp_self c _)
  · intro i h₁ h₂
    rw [hkeep₂ i (by omega)]
    exact (hless₁ i h₁ h₂).le
  · intro i h₁ h₂
    by_cases hi : i < s.pb
    · rw [hkeep₂ i hi]
      exact hequal₁ i h₁ hi
    · exact hequal₂ i (by omega) (by omega)
  · exact fun i h₁ h₂ => hmore₂ i (by omega) h₂
  · unfold pass
    rw [if_neg (by omega), if_neg (by omega), heq, Option.bind_some]
    dsimp only
    rw [hmin, heq₁, Option.bind_some, ← pc_eq, heq₂, Option.map_some]
    rfl

/-! ## The loops -/

/-- What becomes of a part: it is in order, and the parts behind it are gone on with. -/
def Done (c : CmpFn α) (L : Layout) (arr : ℕ → α) (lo m : ℕ) (stack : List (ℕ × ℕ)) : Prop :=
  ∃ k arr', Rearranged lo (lo + m) arr arr' ∧ SortedOn c lo (lo + m) arr' ∧
    (∀ fuel, loop c L (k + fuel) arr ((lo, m) :: stack) = loop c L fuel arr' stack) ∧ ∀ j, Meets c L j arr' stack

theorem loop_cons {m : ℕ} {stack ps : List (ℕ × ℕ)} {arr' : ℕ → α} (hpass : pass c L arr lo m = some (arr', ps))
    (hstack : (ps ++ stack).length ≤ 32 + 1) (fuel : ℕ) :
    loop c L (fuel + 1) arr ((lo, m) :: stack) = loop c L fuel arr' (ps ++ stack) := by
  rw [loop, hpass, Option.bind_some, if_pos hstack]

theorem meets_next {m : ℕ} {stack ps : List (ℕ × ℕ)} {arr' : ℕ → α} (hpass : pass c L arr lo m = some (arr', ps))
    (h : ∀ j, Meets c L j arr ((lo, m) :: stack)) (j : ℕ) : Meets c L j arr' (ps ++ stack) :=
  (h (j + 1)).2 _ hpass

/-- A part with nothing left. -/
theorem done_of_nil {m : ℕ} {stack : List (ℕ × ℕ)} {arr' : ℕ → α} (hpass : pass c L arr lo m = some (arr', []))
    (hstack : stack.length ≤ 32) (h : ∀ j, Meets c L j arr ((lo, m) :: stack))
    (hre : Rearranged lo (lo + m) arr arr') (hsorted : SortedOn c lo (lo + m) arr') : Done c L arr lo m stack :=
  ⟨1, arr', hre, hsorted, fun fuel => by
    rw [Nat.add_comm, loop_cons hpass (hstack.trans (Nat.le_succ _)), List.nil_append], meets_next hpass h⟩

/-- A part with two parts left, which are gone on with in turn. -/
theorem loop_two {m k k' : ℕ} {stack : List (ℕ × ℕ)} {x y : ℕ × ℕ} {arr' arr₁ arr₂ : ℕ → α}
    (hpass : pass c L arr lo m = some (arr', [x, y])) (hstack : stack.length + 1 ≤ 32)
    (h₁ : ∀ fuel, loop c L (k + fuel) arr' (x :: y :: stack) = loop c L fuel arr₁ (y :: stack))
    (h₂ : ∀ fuel, loop c L (k' + fuel) arr₁ (y :: stack) = loop c L fuel arr₂ stack) (fuel : ℕ) :
    loop c L (1 + (k + k') + fuel) arr ((lo, m) :: stack) = loop c L fuel arr₂ stack := by
  have hfuel : 1 + (k + k') + fuel = k + (k' + fuel) + 1 := by omega
  have hlen : ([x, y] ++ stack).length ≤ 32 + 1 := by
    rw [List.length_append, List.length_cons, List.length_singleton]
    omega
  calc loop c L (1 + (k + k') + fuel) arr ((lo, m) :: stack)
      = loop c L (k + (k' + fuel)) arr' (x :: y :: stack) := by rw [hfuel, loop_cons hpass hlen]; rfl
    _ = loop c L (k' + fuel) arr₁ (y :: stack) := h₁ (k' + fuel)
    _ = loop c L fuel arr₂ stack := h₂ fuel

/-- A part below `2 ^ d` needs `d` entries of the stack, since the larger part is stacked. -/
theorem loop_part (m : ℕ) : ∀ (d lo : ℕ) (arr : ℕ → α) (stack : List (ℕ × ℕ)), lo + m ≤ L.num → m < 2 ^ d →
    stack.length + d ≤ 32 → (∀ j, Meets c L j arr ((lo, m) :: stack)) → Done c L arr lo m stack := by
  induction m using Nat.strong_induction_on with
  | _ m ih =>
    intro d lo arr stack hm hd hstack hmeets
    have hguard : Guard c L arr lo m := (hmeets 1).1
    by_cases hone : m ≤ 1
    · exact done_of_nil (if_pos hone) (by omega) hmeets (.refl arr) (sortedOn_of_le_one hone)
    by_cases hsmall : m < 16
    · obtain ⟨hint, hwrap⟩ := hguard.1 (by omega) hsmall
      obtain ⟨arr', heq, hre, hsorted⟩ := shellSort_sorts (c := c) hm (by omega) hsmall hint hwrap arr
      have hpass : pass c L arr lo m = some (arr', []) := by
        rw [pass, if_neg hone, if_pos hsmall, heq, Option.map_some]
      exact done_of_nil hpass (by omega) hmeets hre hsorted
    obtain ⟨arr', p, r, t, hre, hless, hsplit, hpass⟩ := pass_large hm (by omega) arr hguard
    have hnext := meets_next hpass hmeets
    obtain ⟨d, rfl⟩ : ∃ e, d = e + 1 := by
      cases d with
      | zero => omega
      | succ d => exact ⟨d, rfl⟩
    rw [pow_succ] at hd
    have hend : lo + m - t + t = lo + m := by omega
    unfold parts at hpass hnext
    by_cases hle : r ≤ t
    · rw [if_pos hle] at hpass hnext
      obtain ⟨k, arr₁, hre₁, hsorted₁, hloop₁, hmeets₁⟩ :=
        ih r (by omega) d lo arr' ((lo + m - t, t) :: stack) (by omega) (by omega) (by rw [List.length_cons]; omega)
          hnext
      obtain ⟨k', arr₂, hre₂, hsorted₂, hloop₂, hmeets₂⟩ :=
        ih t (by omega) (d + 1) (lo + m - t) arr₁ stack (by omega) (by rw [pow_succ]; omega) hstack hmeets₁
      rw [hend] at hre₂ hsorted₂
      refine ⟨1 + (k + k'), arr₂, ?_, ?_, loop_two hpass (by omega) hloop₁ hloop₂, hmeets₂⟩
      · exact hre.trans ((hre₁.mono le_rfl (by omega)).trans (hre₂.mono (by omega) le_rfl))
      · refine ((hsplit.of_left (by omega) hre₁).of_right (by omega) hre₂).sorted ?_ hsorted₂
        exact hsorted₁.congr fun i _ hi => hre₂.outside (.inl (by omega))
    · rw [if_neg hle] at hpass hnext
      by_cases htiny : r ≤ 1
      · rw [if_pos htiny] at hpass
        refine done_of_nil hpass (by omega) hmeets hre (hsplit.sorted (sortedOn_of_le_one htiny) ?_)
        rw [show lo + m - t = lo + m by omega]
        exact fun i j hi hij hj => by omega
      · rw [if_neg htiny] at hpass hnext
        obtain ⟨k, arr₁, hre₁, hsorted₁, hloop₁, hmeets₁⟩ :=
          ih t (by omega) d (lo + m - t) arr' ((lo, r) :: stack) (by omega) (by omega) (by rw [List.length_cons]; omega)
            hnext
        obtain ⟨k', arr₂, hre₂, hsorted₂, hloop₂, hmeets₂⟩ :=
          ih r (by omega) (d + 1) lo arr₁ stack (by omega) (by rw [pow_succ]; omega) hstack hmeets₁
        rw [hend] at hre₁ hsorted₁
        refine ⟨1 + (k + k'), arr₂, ?_, ?_, loop_two hpass (by omega) hloop₁ hloop₂, hmeets₂⟩
        · exact hre.trans ((hre₁.mono (by omega) le_rfl).trans (hre₂.mono le_rfl (by omega)))
        · refine ((hsplit.of_right (by omega) hre₁).of_left (by omega) hre₂).sorted hsorted₂ ?_
          exact hsorted₁.congr fun i hi _ => hre₂.outside (.inr (by omega))

/-- What `qsort` should do: it ends with a sorted permutation, and changes nothing behind the array. -/
def Sorts (c : CmpFn α) (L : Layout) (arr : ℕ → α) : Prop :=
  ∃ k arr', (∀ fuel, k ≤ fuel → qsort c L fuel arr = some arr') ∧ (slice arr' 0 L.num).Perm (slice arr 0 L.num) ∧
    (slice arr' 0 L.num).Pairwise (fun a b => c.cmp a b ≤ 0) ∧ ∀ i, L.num ≤ i → arr' i = arr i

/-- `qsort` sorts when all rounds meet the guard: nothing outside of the array is compared or exchanged, and the stack
is large enough. -/
theorem qsort_sorts (c : CmpFn α) (L : Layout) (arr : ℕ → α) (hmeets : ∀ j, Meets c L j arr [(0, L.num)]) :
    Sorts c L arr := by
  have hnum : L.num < 2 ^ 16 := by
    have hmul : L.num * 1 ≤ L.num * L.size := Nat.mul_le_mul_left _ L.size_pos
    have := L.fits
    omega
  obtain ⟨k, arr', hre, hsorted, hloop, -⟩ : Done c L arr 0 L.num [] :=
    loop_part L.num 16 0 arr [] (by omega) hnum (by rw [List.length_nil]; omega) hmeets
  rw [Nat.zero_add] at hre hsorted
  refine ⟨k, arr', fun fuel hfuel => ?_, hre.perm_slice, ?_, fun i hi => hre.outside (.inr hi)⟩
  · obtain ⟨j, rfl⟩ := Nat.exists_eq_add_of_le hfuel
    unfold qsort
    rw [hloop j]
    cases j <;> rfl
  · unfold slice
    rw [List.pairwise_map]
    refine List.pairwise_lt_range.imp_of_mem fun {i j} _ hj hij => ?_
    rw [List.mem_range] at hj
    exact hsorted (0 + i) (0 + j) (Nat.zero_le _) (by omega) (by omega)

/-- The parts of an array below 32 KiB meet the guard if there is room for two elements behind it. -/
theorem guard_of_small (hbytes : L.num * L.size < 32768) (hint : L.size * 3 < 32768)
    (hroom : L.start + (L.num + 2) * L.size < 65536) {m : ℕ} (hm : lo + m ≤ L.num) : Guard c L arr lo m := by
  refine ⟨fun htwo hsmall => ⟨hint, ?_⟩, fun hlarge s heq => ?_⟩
  · have hmul : (lo + 3 * ((m + 2) / 3)) * L.size ≤ (L.num + 2) * L.size := Nat.mul_le_mul_right _ (by omega)
    omega
  · obtain ⟨s', pv, mid, -, -, heq', hinv⟩ := partition_spec (c := c) hm hlarge arr
    obtain rfl := Option.some.inj (heq.symm.trans heq')
    have hfits : ∀ j, j ≤ L.num → Int.bmod (j * L.size) 65536 = (j * L.size : ℕ) := fun j hj => by
      have hmul : j * L.size ≤ L.num * L.size := Nat.mul_le_mul_right _ hj
      rw [← Nat.cast_mul, Int.bmod_eq_of_le (by omega) (by omega)]
    have := hinv.lo_le
    have := hinv.pa_le
    have := hinv.pc_eq
    have := hinv.pc_le
    have := hinv.pd_le
    unfold frontMin
    rw [hfits _ (by omega), hfits _ (by omega)]
    split_ifs with hlt
    · have : s.pa - lo < s.pb - s.pa := Nat.lt_of_mul_lt_mul_right (by exact_mod_cast hlt)
      omega
    · have : s.pb - s.pa ≤ s.pa - lo := by
        by_contra hgt
        have hmul : (s.pa - lo) * L.size < (s.pb - s.pa) * L.size :=
          Nat.mul_lt_mul_of_pos_right (by omega) L.size_pos
        exact hlt (by exact_mod_cast hmul)
      omega

/-- Small arrays meet the guard in all rounds. -/
theorem meets_of_small (hbytes : L.num * L.size < 32768) (hint : L.size * 3 < 32768)
    (hroom : L.start + (L.num + 2) * L.size < 65536) (k : ℕ) (arr : ℕ → α) (stack : List (ℕ × ℕ))
    (hstack : ∀ x ∈ stack, x.1 + x.2 ≤ L.num) : Meets c L k arr stack := by
  induction k generalizing arr stack with
  | zero => cases stack <;> trivial
  | succ k ih =>
    cases stack with
    | nil => trivial
    | cons x stack =>
      obtain ⟨lo, m⟩ := x
      have hm : lo + m ≤ L.num := hstack (lo, m) List.mem_cons_self
      have hguard := @guard_of_small α c L arr lo hbytes hint hroom m hm
      refine ⟨hguard, fun r hpass => ih r.1 _ fun x hx => ?_⟩
      rcases List.mem_append.1 hx with hx | hx
      · by_cases hlarge : 16 ≤ m
        · obtain ⟨arr', p, a, b, -, hless, -, heq⟩ := pass_large hm hlarge arr hguard
          obtain rfl := Option.some.inj (hpass.symm.trans heq)
          rcases mem_parts hx with rfl | rfl
          · dsimp only
            omega
          · dsimp only
            omega
        · unfold pass at hpass
          split_ifs at hpass with hone hsmall
          · obtain rfl := Option.some.inj hpass
            cases hx
          · obtain ⟨arr', -, rfl⟩ := Option.map_eq_some_iff.1 hpass
            cases hx
          · exact absurd (by omega) hlarge
      · exact hstack x (List.mem_cons_of_mem _ hx)

end

open Wlink.CmpFn (intCmpFn)

/-- Three words. -/
theorem qsort_sorts_three : Sorts intCmpFn ⟨2, 3, 256, by decide, by decide, by decide⟩ (fun i => [2, 3, 1].getD i 0) :=
  qsort_sorts _ _ _ fun j =>
    meets_of_small (by decide) (by decide) (by decide) j _ _ fun x hx => by
      obtain rfl := List.mem_singleton.1 hx
      decide

/-- Two elements of 10923 bytes. -/
def bigElements : Layout := ⟨10923, 2, 256, by decide, by decide, by decide⟩

/-- The distance of the shell sort is negative, and the elements stay as they are. -/
theorem bigElements_unsorted : ¬ Sorts intCmpFn bigElements (fun i => [2, 1].getD i 0) := by
  rintro ⟨k, arr', hends, -, hsorted, -⟩
  have hpass : qsort intCmpFn bigElements (k + 1) (fun i => [2, 1].getD i 0) = some fun i => [2, 1].getD i 0 := by
    have hshell : shellSort intCmpFn bigElements 0 2 65536 (fun i => [2, 1].getD i 0)
        (Int.bmod (10923 * 3) 65536) = some fun i => [2, 1].getD i 0 := by
      rw [shellSort, if_neg (by decide)]
    have hround : pass intCmpFn bigElements (fun i => [2, 1].getD i 0) 0 2 = some (fun i => [2, 1].getD i 0, []) := by
      rw [pass, if_neg (by decide), if_pos (by decide)]
      exact congrArg (Option.map _) hshell
    unfold qsort
    change loop intCmpFn bigElements (k + 1) _ [(0, 2)] = _
    rw [loop_cons hround (by decide)]
    cases k <;> rfl
  obtain rfl := Option.some.inj ((hends (k + 1) (Nat.le_succ k)).symm.trans hpass)
  exact absurd hsorted (by decide)

end OpenWatcom.Clib.QSort
