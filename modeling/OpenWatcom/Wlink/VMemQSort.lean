import OpenWatcom.Lib.Rearrange

/-! # The linker's quicksort

`VMemQSort` sorts elements that only `cmpfn` and `swapfn` can reach, without recursion: parts that are still to be
sorted are put on a stack of `MAXDEPTH` entries, one for each bit of a `size_t`.

A part below `2 ^ d` needs `d` entries, because the part that is stacked is never the smaller one (`loop_part`), so that
the stack is large enough for every array (`vmemQSort_sorts`). -/

namespace OpenWatcom.Wlink

/-- A comparison that is a total preorder: negative, zero or positive as the first element is before, level with or
behind the second one. -/
structure CmpFn (α : Type*) where
  cmp : α → α → ℤ
  neg_iff : ∀ a b, cmp a b < 0 ↔ 0 < cmp b a
  trans : ∀ a b c, cmp a b ≤ 0 → cmp b c ≤ 0 → cmp a c ≤ 0

namespace CmpFn

variable {α : Type*} (c : CmpFn α)

theorem nonpos_of_nonneg {a b : α} (h : 0 ≤ c.cmp a b) : c.cmp b a ≤ 0 := by
  have := c.neg_iff a b
  omega

theorem refl (a : α) : c.cmp a a ≤ 0 := by
  have := c.neg_iff a a
  omega

/-- What is level with or before a pivot is before what is level with it or behind it. -/
theorem through {a b p : α} (ha : c.cmp a p ≤ 0) (hb : 0 ≤ c.cmp b p) : c.cmp a b ≤ 0 :=
  c.trans a p b ha (c.nonpos_of_nonneg hb)

/-- Numbers by their difference. -/
def intCmpFn : CmpFn ℤ where
  cmp := fun a b => a - b
  neg_iff := fun a b => by omega
  trans := fun a b c hab hbc => by omega

end CmpFn

open CmpFn (intCmpFn)

namespace VMemQSort

variable {α : Type*} (c : CmpFn α) (size : ℕ)

/-! ### The code

An address is the number of an element of the array, which has `size` elements; nothing is compared or exchanged
outside. -/

def cmpfn (arr : ℕ → α) (p q : ℕ) : Option ℤ := if p < size ∧ q < size then some (c.cmp (arr p) (arr q)) else none

def swapfn (arr : ℕ → α) (p q : ℕ) : Option (ℕ → α) :=
  if p < size ∧ q < size then some (arr ∘ Equiv.swap p q) else none

/-- What the loop over the elements of a part changes. -/
structure Scan (α : Type*) where
  arr : ℕ → α
  p1 : ℕ
  p2 : ℕ
  i : ℕ
  count : ℕ
  lastNonEqualCount : ℕ

/-- One round: an element that is not behind the pivot goes to the front. -/
def scanStep (base : ℕ) (s : Scan α) : Option (Scan α) :=
  (cmpfn c size s.arr s.p1 base).bind fun comparison =>
    (if comparison ≤ 0 then
      (if s.i ≠ s.count + 1 then swapfn size s.arr s.p1 (s.p2 + 1) else some s.arr).map fun arr =>
        { s with arr := arr, p2 := s.p2 + 1, count := s.count + 1 }
    else some s).map fun s' =>
      { s' with
        lastNonEqualCount := if comparison ≠ 0 then s'.count else s'.lastNonEqualCount
        p1 := s'.p1 + 1
        i := s'.i + 1 }

def scan (base : ℕ) : ℕ → Scan α → Option (Scan α)
  | 0, s => some s
  | k + 1, s => (scanStep c size base s).bind (scan base k)

/-- The pivot goes to `base`, and the elements that are not behind it to where it stands. -/
def partition (arr : ℕ → α) (base n : ℕ) : Option (Scan α) :=
  (swapfn size arr base (base + n >>> 1)).bind fun arr =>
    scan c size base (n - 1)
      { arr := arr, p1 := base + 1, p2 := base, i := 1, count := 0, lastNonEqualCount := 0 }

/-- A round of the inner loop, and the parts that are left to sort: none, or the one that is gone on with and the one
that is stacked. -/
def pass (arr : ℕ → α) (base n : ℕ) : Option ((ℕ → α) × List (ℕ × ℕ)) :=
  if n ≤ 1 then some (arr, [])
  else if n = 2 then
    (cmpfn c size arr base (base + 1)).bind fun comparison =>
      (if 0 < comparison then swapfn size arr base (base + 1) else some arr).map fun arr => (arr, [])
  else
    (partition c size arr base n).bind fun s =>
      if s.count = n - 1 ∧ s.lastNonEqualCount = 0 then some (s.arr, [])
      else
        (if s.count ≠ 0 then swapfn size s.arr base s.p2 else some s.arr).map fun arr =>
          let right := n - s.count - 1
          let count := if s.count ≠ s.lastNonEqualCount then s.lastNonEqualCount + 1 else s.count
          (arr, if count < right then [(base, count), (s.p2 + 1, right)] else [(s.p2 + 1, right), (base, count)])

/-- Both loops, with the part in hand in front of the stack; nothing where the stack is too small. -/
def loop (maxdepth : ℕ) : ℕ → (ℕ → α) → List (ℕ × ℕ) → Option (ℕ → α)
  | _, arr, [] => some arr
  | 0, _, _ :: _ => none
  | fuel + 1, arr, (base, n) :: stack =>
    (pass c size arr base n).bind fun r =>
      if (r.2 ++ stack).length ≤ maxdepth + 1 then loop maxdepth fuel r.1 (r.2 ++ stack) else none

/-- `VMemQSort`, where a `size_t` has `bits` bits. -/
def vmemQSort (bits fuel : ℕ) (arr : ℕ → α) (n : ℕ) : Option (ℕ → α) := loop c n bits fuel arr [(0, n)]

/-! ### Sorted parts -/

/-- The part from `lo` up to `hi` is in order. -/
def SortedOn (lo hi : ℕ) (arr : ℕ → α) : Prop := ∀ i j, lo ≤ i → i ≤ j → j < hi → c.cmp (arr i) (arr j) ≤ 0

/-- The elements from `lo` on: some that are not behind the pivot `p` up to `l`, some level with it up to `r`, and some
behind it up to `hi`. -/
structure Split (p : α) (lo l r hi : ℕ) (arr : ℕ → α) : Prop where
  left : ∀ i, lo ≤ i → i < l → c.cmp (arr i) p ≤ 0
  mid : ∀ i, l ≤ i → i < r → c.cmp (arr i) p = 0
  right : ∀ i, r ≤ i → i < hi → 0 < c.cmp (arr i) p

variable {c size} {p : α} {lo l r hi : ℕ} {arr arr' : ℕ → α}

theorem Split.of_left (h : Split c p lo l r hi arr) (hl : l ≤ r) (hre : Rearranged lo l arr arr') :
    Split c p lo l r hi arr' where
  left := hre.forall_mem (p := fun x => c.cmp x p ≤ 0) h.left
  mid := fun i hi hr => by
    rw [hre.outside (.inr hi)]
    exact h.mid i hi hr
  right := fun i hi hr => by
    rw [hre.outside (.inr (hl.trans hi))]
    exact h.right i hi hr

theorem Split.of_right (h : Split c p lo l r hi arr) (hl : l ≤ r) (hre : Rearranged r hi arr arr') :
    Split c p lo l r hi arr' where
  left := fun i hi hr => by
    rw [hre.outside (.inl (hr.trans_le hl))]
    exact h.left i hi hr
  mid := fun i hi hr => by
    rw [hre.outside (.inl hr)]
    exact h.mid i hi hr
  right := hre.forall_mem (p := fun x => 0 < c.cmp x p) h.right

/-- The next element is behind the pivot. -/
theorem Split.keep (h : Split c p lo l r hi arr) (hback : 0 < c.cmp (arr hi) p) : Split c p lo r r (hi + 1) arr where
  left := fun i hlo hr => by
    by_cases hil : i < l
    · exact h.left i hlo hil
    · exact (h.mid i (not_lt.mp hil) hr).le
  mid := fun i hl hr => absurd hl (not_le.mpr hr)
  right := fun i hr hi => by
    obtain hlt | rfl := Nat.lt_succ_iff_lt_or_eq.mp hi
    · exact h.right i hr hlt
    · exact hback

/-- The next element is not behind the pivot: the first one that is makes place for it. -/
theorem Split.push (h : Split c p lo l r hi arr) (hlr : l ≤ r) (hr : r ≤ hi) (hle : c.cmp (arr hi) p ≤ 0) :
    Split c p lo (if c.cmp (arr hi) p ≠ 0 then r + 1 else l) (r + 1) (hi + 1) (arr ∘ Equiv.swap hi r) := by
  have hfront : (arr ∘ Equiv.swap hi r) r = arr hi := by rw [Function.comp_apply, Equiv.swap_apply_right]
  have hback : (arr ∘ Equiv.swap hi r) hi = arr r := by rw [Function.comp_apply, Equiv.swap_apply_left]
  have hold : ∀ i, i < hi → i ≠ r → (arr ∘ Equiv.swap hi r) i = arr i := fun i hlt hne => by
    rw [Function.comp_apply, Equiv.swap_apply_of_ne_of_ne hlt.ne hne]
  refine ⟨fun i hlo hl => ?_, fun i hl hir => ?_, fun i hir hi => ?_⟩
  · by_cases heq : i = r
    · rw [heq, hfront]
      exact hle
    · have hin : i < r := by
        split_ifs at hl <;> omega
      rw [hold i (by omega) heq]
      by_cases hil : i < l
      · exact h.left i hlo hil
      · exact (h.mid i (by omega) hin).le
  · split_ifs at hl with hne
    · omega
    · by_cases heq : i = r
      · rw [heq, hfront]
        exact not_not.mp hne
      · rw [hold i (by omega) heq]
        exact h.mid i hl (by omega)
  · obtain hlt | rfl := Nat.lt_succ_iff_lt_or_eq.mp hi
    · rw [hold i hlt (by omega)]
      exact h.right i (by omega) hlt
    · rw [hback]
      exact h.right r le_rfl (by omega)

/-- The pivot at `base` changes places with the last element that is not behind it, at `q`. -/
theorem Split.place {base q : ℕ} (h : Split c p (base + 1) l (q + 1) hi arr) (hp : arr base = p) (hl : base < l)
    (hlq : l ≤ q + 1) :
    Split c p base (if q + 1 ≠ l then l else q) (q + 1) hi (arr ∘ Equiv.swap base q) := by
  have hlevel : c.cmp p p = 0 := by
    have := c.neg_iff p p
    omega
  refine ⟨fun i hlo hil => ?_, fun i hil hir => ?_, fun i hir hi => ?_⟩
  · by_cases hbase : i = base
    · -- The element that was at `q`.
      rw [hbase, Function.comp_apply, Equiv.swap_apply_left]
      by_cases h0 : q = base
      · rw [h0, hp, hlevel]
      · by_cases heq : q + 1 = l
        · exact h.left q (by omega) (by omega)
        · exact (h.mid q (by omega) (by omega)).le
    · have hne : i ≠ q := by
        split_ifs at hil <;> omega
      rw [Function.comp_apply, Equiv.swap_apply_of_ne_of_ne hbase hne]
      refine h.left i (by omega) ?_
      split_ifs at hil <;> omega
  · by_cases hplace : i = q
    · rw [hplace, Function.comp_apply, Equiv.swap_apply_right, hp, hlevel]
    · have hlow : l ≤ i := by
        split_ifs at hil <;> omega
      rw [Function.comp_apply, Equiv.swap_apply_of_ne_of_ne (by omega) hplace]
      exact h.mid i hlow (by omega)
  · rw [Function.comp_apply, Equiv.swap_apply_of_ne_of_ne (by omega) (by omega)]
    exact h.right i hir hi

/-- With both sides in order all is. -/
theorem Split.sorted (h : Split c p lo l r hi arr) (hleft : SortedOn c lo l arr) (hright : SortedOn c r hi arr) :
    SortedOn c lo hi arr := by
  intro i j hi hij hj
  by_cases hjl : j < l
  · exact hleft i j hi hij hjl
  · by_cases hri : r ≤ i
    · exact hright i j hri hij hj
    · -- The pivot is between them.
      have hip : c.cmp (arr i) p ≤ 0 := by
        by_cases hil : i < l
        · exact h.left i hi hil
        · exact (h.mid i (by omega) (by omega)).le
      have hjp : 0 ≤ c.cmp (arr j) p := by
        by_cases hjr : j < r
        · exact (h.mid j (by omega) hjr).ge
        · exact (h.right j (by omega) hj).le
      exact c.through hip hjp

theorem SortedOn.congr (h : SortedOn c lo hi arr) (heq : ∀ i, lo ≤ i → i < hi → arr' i = arr i) :
    SortedOn c lo hi arr' := by
  intro i j hi hij hj
  rw [heq i hi (by omega), heq j (by omega) hj]
  exact h i j hi hij hj

theorem sortedOn_of_le_one {n : ℕ} (hn : n ≤ 1) : SortedOn c lo (lo + n) arr := by
  intro i j hi hij hj
  obtain rfl : i = j := by omega
  exact c.refl (arr i)

/-! ### The scan -/

theorem cmpfn_eq (arr : ℕ → α) {i j : ℕ} (hi : i < size) (hj : j < size) :
    cmpfn c size arr i j = some (c.cmp (arr i) (arr j)) := if_pos ⟨hi, hj⟩

theorem swapfn_eq (arr : ℕ → α) {i j : ℕ} (hi : i < size) (hj : j < size) :
    swapfn size arr i j = some (arr ∘ Equiv.swap i j) :=
  if_pos ⟨hi, hj⟩

/-- The elements up to `count` are not behind the pivot at `base`, those above `lastNonEqualCount` are level with it,
and those up to `i` are behind it. -/
structure ScanInv (c : CmpFn α) (base n : ℕ) (arr : ℕ → α) (s : Scan α) : Prop where
  p1 : s.p1 = base + s.i
  p2 : s.p2 = base + s.count
  last : s.lastNonEqualCount ≤ s.count
  count : s.count < s.i
  i : s.i ≤ n
  rearranged : Rearranged (base + 1) (base + n) arr s.arr
  split : Split c (arr base) (base + 1) (base + s.lastNonEqualCount + 1) (base + s.count + 1) (base + s.i) s.arr

theorem ScanInv.pivot {base n : ℕ} {s : Scan α} (h : ScanInv c base n arr s) : s.arr base = arr base :=
  h.rearranged.outside (.inl (Nat.lt_succ_self base))

theorem ScanInv.step {base n : ℕ} {s : Scan α} (h : ScanInv c base n arr s) (hn : base + n ≤ size) (hi : s.i < n) :
    ∃ s', scanStep c size base s = some s' ∧ ScanInv c base n arr s' ∧ s'.i = s.i + 1 := by
  have hp1 := h.p1
  have hp2 := h.p2
  have hlast := h.last
  have hcount := h.count
  have hcmp := cmpfn_eq (c := c) s.arr (by omega : s.p1 < size) (by omega : base < size)
  rw [h.pivot] at hcmp
  unfold scanStep
  rw [hcmp, Option.bind_some]
  by_cases hle : c.cmp (s.arr s.p1) (arr base) ≤ 0
  · -- The element goes behind those at the front, and the first one behind the pivot to its place.
    have harr : (if s.i ≠ s.count + 1 then swapfn size s.arr s.p1 (s.p2 + 1) else some s.arr) =
        some (s.arr ∘ Equiv.swap s.p1 (s.p2 + 1)) := by
      split_ifs with hne
      · exact swapfn_eq s.arr (by omega) (by omega)
      · have heq : s.p1 = s.p2 + 1 := by omega
        rw [heq, Equiv.swap_self]
        rfl
    have hswap : Rearranged (base + 1) (base + n) s.arr (s.arr ∘ Equiv.swap s.p1 (s.p2 + 1)) :=
      Rearranged.swap s.arr (by omega) (by omega)
    have hsplit := h.split.push (by omega) (by omega) (hp1 ▸ hle)
    rw [if_pos hle, harr, Option.map_some, Option.map_some]
    refine ⟨_, rfl, ⟨?_, ?_, ?_, ?_, ?_, h.rearranged.trans hswap, ?_⟩, rfl⟩
    · dsimp only
      omega
    · dsimp only
      omega
    · dsimp only
      split_ifs <;> omega
    · dsimp only
      omega
    · dsimp only
      omega
    · dsimp only
      rw [hp1, hp2]
      split_ifs at hsplit ⊢ <;> exact hsplit
  · rw [if_neg hle, Option.map_some]
    have hne : c.cmp (s.arr s.p1) (arr base) ≠ 0 := by omega
    simp only [if_pos hne]
    refine ⟨_, rfl, ⟨?_, hp2, le_rfl, ?_, ?_, h.rearranged, ?_⟩, rfl⟩
    · dsimp only
      omega
    · dsimp only
      omega
    · dsimp only
      omega
    · exact h.split.keep (by rw [← hp1]; omega)

theorem scan_eq {base n : ℕ} (hn : base + n ≤ size) (k : ℕ) {s : Scan α} (h : ScanInv c base n arr s)
    (hk : s.i + k = n) : ∃ s', scan c size base k s = some s' ∧ ScanInv c base n arr s' ∧ s'.i = n := by
  induction k generalizing s with
  | zero => exact ⟨s, rfl, h, hk⟩
  | succ k ih =>
      obtain ⟨s', hs', hinv, hi⟩ := h.step hn (by omega)
      obtain ⟨t, ht, hinv', hi'⟩ := ih hinv (by omega)
      refine ⟨t, ?_, hinv', hi'⟩
      rw [scan, hs', Option.bind_some, ht]

/-- What the elements are like behind the loop, where `q` is the array with the pivot at `base`. -/
theorem partition_eq {base n : ℕ} (hn : base + n ≤ size) (hpos : 2 ≤ n) (arr : ℕ → α) :
    ∃ q s, Rearranged base (base + n) arr q ∧ partition c size arr base n = some s ∧ ScanInv c base n q s ∧
      s.i = n := by
  have hmid : n >>> 1 = n / 2 := by rw [Nat.shiftRight_eq_div_pow, pow_one]
  have hswap := swapfn_eq arr (by omega : base < size) (by omega : base + n >>> 1 < size)
  refine ⟨arr ∘ Equiv.swap base (base + n >>> 1), ?_⟩
  have hstart : ScanInv c base n (arr ∘ Equiv.swap base (base + n >>> 1))
      { arr := arr ∘ Equiv.swap base (base + n >>> 1), p1 := base + 1, p2 := base, i := 1, count := 0,
        lastNonEqualCount := 0 } :=
    ⟨rfl, rfl, le_rfl, Nat.one_pos, by dsimp only; omega, .refl _,
      ⟨fun i hlo hl => absurd hl (not_lt.mpr hlo), fun i hl hr => absurd hl (not_le.mpr hr),
        fun i hr hi => absurd hr (not_le.mpr hi)⟩⟩
  obtain ⟨s, hs, hinv, hi⟩ := scan_eq hn (n - 1) hstart (by dsimp only; omega)
  refine ⟨s, Rearranged.swap arr (by omega) (by omega), ?_, hinv, hi⟩
  unfold partition
  rw [hswap, Option.bind_some, hs]

/-! ### The parts -/

/-- The parts left and right of the elements that are in their places, the smaller one in front. -/
def parts (base n l r : ℕ) : List (ℕ × ℕ) :=
  if l < n - r then [(base, l), (base + r, n - r)] else [(base + r, n - r), (base, l)]

/-- What a round leaves of a part with three elements or more. -/
theorem pass_eq {base n : ℕ} (hn : base + n ≤ size) (hthree : 3 ≤ n) (arr : ℕ → α) :
    ∃ arr', Rearranged base (base + n) arr arr' ∧
      ((pass c size arr base n = some (arr', []) ∧ SortedOn c base (base + n) arr') ∨
        ∃ p l r, l < r ∧ r ≤ n ∧ Split c p base (base + l) (base + r) (base + n) arr' ∧
          pass c size arr base n = some (arr', parts base n l r)) := by
  obtain ⟨q, s, hq, hs, hinv, hi⟩ := partition_eq (c := c) hn (by omega) arr
  have hp2 := hinv.p2
  have hlast := hinv.last
  have hcount := hinv.count
  have hsplit := hinv.split
  have hpivot := hinv.pivot
  rw [hi] at hsplit
  have hre : Rearranged base (base + n) arr s.arr := hq.trans (hinv.rearranged.mono (Nat.le_succ base) le_rfl)
  unfold pass
  rw [if_neg (by omega), if_neg (by omega), hs, Option.bind_some]
  by_cases hall : s.count = n - 1 ∧ s.lastNonEqualCount = 0
  · -- All are level with the pivot.
    rw [if_pos hall]
    refine ⟨s.arr, hre, .inl ⟨rfl, ?_⟩⟩
    have hlevel : ∀ i, base ≤ i → i < base + n → c.cmp (s.arr i) (q base) = 0 := by
      intro i hlo hhi
      obtain rfl | hlt := hlo.eq_or_lt
      · rw [hpivot]
        have := c.neg_iff (q base) (q base)
        omega
      · exact hsplit.mid i (by omega) (by omega)
    intro i j hlo hij hhi
    exact c.through (hlevel i hlo (by omega)).le (hlevel j (by omega) hhi).ge
  · rw [if_neg hall]
    have harr : (if s.count ≠ 0 then swapfn size s.arr base s.p2 else some s.arr) =
        some (s.arr ∘ Equiv.swap base (base + s.count)) := by
      split_ifs with h0
      · rw [hp2]
        exact swapfn_eq s.arr (by omega) (by omega)
      · have h0' : base + s.count = base := by omega
        rw [h0', Equiv.swap_self]
        rfl
    have hswap : Rearranged base (base + n) s.arr (s.arr ∘ Equiv.swap base (base + s.count)) :=
      Rearranged.swap s.arr (by omega) (by omega)
    have hplace := hsplit.place hpivot (by omega) (by omega)
    rw [harr, Option.map_some]
    refine ⟨_, hre.trans hswap, .inr ⟨q base,
      if s.count ≠ s.lastNonEqualCount then s.lastNonEqualCount + 1 else s.count, s.count + 1, ?_, by omega, ?_, ?_⟩⟩
    · split_ifs <;> omega
    · have hl : (if base + s.count + 1 ≠ base + s.lastNonEqualCount + 1 then base + s.lastNonEqualCount + 1
          else base + s.count) =
          base + if s.count ≠ s.lastNonEqualCount then s.lastNonEqualCount + 1 else s.count := by
        split_ifs <;> omega
      rwa [hl] at hplace
    · unfold parts
      have hright : n - s.count - 1 = n - (s.count + 1) := Nat.sub_sub n s.count 1
      rw [hp2, hright, ← Nat.add_assoc]

/-! ### The loops -/

/-- What becomes of a part: it is in order, and the parts behind it are gone on with. -/
def Done (c : CmpFn α) (size maxdepth : ℕ) (arr : ℕ → α) (base n : ℕ) (stack : List (ℕ × ℕ)) : Prop :=
  ∃ k arr', Rearranged base (base + n) arr arr' ∧ SortedOn c base (base + n) arr' ∧
    ∀ fuel, loop c size maxdepth (k + fuel) arr ((base, n) :: stack) = loop c size maxdepth fuel arr' stack

theorem loop_cons {maxdepth base n : ℕ} {stack ps : List (ℕ × ℕ)} (hpass : pass c size arr base n = some (arr', ps))
    (hstack : (ps ++ stack).length ≤ maxdepth + 1) (fuel : ℕ) :
    loop c size maxdepth (fuel + 1) arr ((base, n) :: stack) = loop c size maxdepth fuel arr' (ps ++ stack) := by
  rw [loop, hpass, Option.bind_some, if_pos hstack]

/-- A part with nothing left. -/
theorem done_of_nil {maxdepth base n : ℕ} {stack : List (ℕ × ℕ)} (hpass : pass c size arr base n = some (arr', []))
    (hstack : stack.length ≤ maxdepth) (hre : Rearranged base (base + n) arr arr')
    (hsorted : SortedOn c base (base + n) arr') : Done c size maxdepth arr base n stack :=
  ⟨1, arr', hre, hsorted, fun fuel => by
    rw [Nat.add_comm, loop_cons hpass (hstack.trans (Nat.le_succ _)), List.nil_append]⟩

/-- A part of at most two elements. -/
theorem done_of_le_two {maxdepth base n : ℕ} {stack : List (ℕ × ℕ)} (hn : base + n ≤ size) (htwo : n ≤ 2)
    (hstack : stack.length ≤ maxdepth) (arr : ℕ → α) : Done c size maxdepth arr base n stack := by
  by_cases hone : n ≤ 1
  · exact done_of_nil (if_pos hone) hstack (.refl arr) (sortedOn_of_le_one hone)
  · obtain rfl : n = 2 := by omega
    have hcmp := cmpfn_eq (c := c) arr (by omega : base < size) (by omega : base + 1 < size)
    by_cases hgt : 0 < c.cmp (arr base) (arr (base + 1))
    · have hpass : pass c size arr base 2 = some (arr ∘ Equiv.swap base (base + 1), []) := by
        unfold pass
        rw [if_neg (by omega), if_pos rfl, hcmp, Option.bind_some, if_pos hgt, swapfn_eq arr (by omega) (by omega)]
        rfl
      refine done_of_nil hpass hstack (Rearranged.swap arr (by omega) (by omega)) fun i j hi hij hj => ?_
      obtain rfl | hlt := hij.eq_or_lt
      · exact c.refl _
      · obtain rfl : i = base := by omega
        obtain rfl : j = i + 1 := by omega
        rw [Function.comp_apply, Function.comp_apply, Equiv.swap_apply_left, Equiv.swap_apply_right]
        exact c.nonpos_of_nonneg hgt.le
    · have hpass : pass c size arr base 2 = some (arr, []) := by
        unfold pass
        rw [if_neg (by omega), if_pos rfl, hcmp, Option.bind_some, if_neg hgt]
        rfl
      refine done_of_nil hpass hstack (.refl arr) fun i j hi hij hj => ?_
      obtain rfl | hlt := hij.eq_or_lt
      · exact c.refl _
      · obtain rfl : i = base := by omega
        obtain rfl : j = i + 1 := by omega
        omega

/-- A part with two parts left, which are gone on with in turn. -/
theorem loop_two {maxdepth base n k k' : ℕ} {stack : List (ℕ × ℕ)} {x y : ℕ × ℕ} {arr₁ arr₂ : ℕ → α}
    (hpass : pass c size arr base n = some (arr', [x, y])) (hstack : stack.length + 1 ≤ maxdepth)
    (h₁ : ∀ fuel, loop c size maxdepth (k + fuel) arr' (x :: y :: stack) = loop c size maxdepth fuel arr₁ (y :: stack))
    (h₂ : ∀ fuel, loop c size maxdepth (k' + fuel) arr₁ (y :: stack) = loop c size maxdepth fuel arr₂ stack)
    (fuel : ℕ) :
    loop c size maxdepth (1 + (k + k') + fuel) arr ((base, n) :: stack) = loop c size maxdepth fuel arr₂ stack := by
  have hfuel : 1 + (k + k') + fuel = k + (k' + fuel) + 1 := by omega
  have hlen : ([x, y] ++ stack).length ≤ maxdepth + 1 := by
    rw [List.length_append, List.length_cons, List.length_singleton]
    omega
  calc loop c size maxdepth (1 + (k + k') + fuel) arr ((base, n) :: stack)
      = loop c size maxdepth (k + (k' + fuel)) arr' (x :: y :: stack) := by rw [hfuel, loop_cons hpass hlen]; rfl
    _ = loop c size maxdepth (k' + fuel) arr₁ (y :: stack) := h₁ (k' + fuel)
    _ = loop c size maxdepth fuel arr₂ stack := h₂ fuel

/-- A part below `2 ^ d` needs `d` entries of the stack. -/
theorem loop_part {maxdepth : ℕ} (n : ℕ) : ∀ (d base : ℕ) (arr : ℕ → α) (stack : List (ℕ × ℕ)), base + n ≤ size →
    n < 2 ^ d → stack.length + d ≤ maxdepth → Done c size maxdepth arr base n stack := by
  induction n using Nat.strong_induction_on with
  | _ n ih =>
      intro d base arr stack hn hd hstack
      by_cases hthree : 3 ≤ n
      · obtain ⟨arr', hre, ⟨hpass, hsorted⟩ | ⟨p, l, r, hlr, hrn, hsplit, hpass⟩⟩ := pass_eq (c := c) hn hthree arr
        · exact done_of_nil hpass (by omega) hre hsorted
        · obtain ⟨d, rfl⟩ : ∃ e, d = e + 1 := by
            cases d with
            | zero => omega
            | succ d => exact ⟨d, rfl⟩
          rw [pow_succ] at hd
          have hbase : base + r + (n - r) = base + n := by omega
          -- The two orders differ in the part that is stacked, which is never the smaller one.
          by_cases hless : l < n - r
          · obtain ⟨k, arr₁, hre₁, hsorted₁, hloop₁⟩ :=
              ih l (by omega) d base arr' ((base + r, n - r) :: stack) (by omega) (by omega)
                (by rw [List.length_cons]; omega)
            obtain ⟨k', arr₂, hre₂, hsorted₂, hloop₂⟩ :=
              ih (n - r) (by omega) (d + 1) (base + r) arr₁ stack (by omega) (by rw [pow_succ]; omega) hstack
            rw [hbase] at hre₂ hsorted₂
            rw [parts, if_pos hless] at hpass
            refine ⟨1 + (k + k'), arr₂, ?_, ?_, loop_two hpass (by omega) hloop₁ hloop₂⟩
            · exact hre.trans ((hre₁.mono le_rfl (by omega)).trans (hre₂.mono (by omega) le_rfl))
            · refine ((hsplit.of_left (by omega) hre₁).of_right (by omega) hre₂).sorted ?_ hsorted₂
              exact hsorted₁.congr fun i _ hi => hre₂.outside (.inl (by omega))
          · obtain ⟨k, arr₁, hre₁, hsorted₁, hloop₁⟩ :=
              ih (n - r) (by omega) d (base + r) arr' ((base, l) :: stack) (by omega) (by omega)
                (by rw [List.length_cons]; omega)
            obtain ⟨k', arr₂, hre₂, hsorted₂, hloop₂⟩ :=
              ih l (by omega) (d + 1) base arr₁ stack (by omega) (by rw [pow_succ]; omega) hstack
            rw [hbase] at hre₁ hsorted₁
            rw [parts, if_neg hless] at hpass
            refine ⟨1 + (k + k'), arr₂, ?_, ?_, loop_two hpass (by omega) hloop₁ hloop₂⟩
            · exact hre.trans ((hre₁.mono (by omega) le_rfl).trans (hre₂.mono le_rfl (by omega)))
            · refine ((hsplit.of_right (by omega) hre₁).of_left (by omega) hre₂).sorted hsorted₂ ?_
              exact hsorted₁.congr fun i hi _ => hre₂.outside (.inr (by omega))
      · exact done_of_le_two hn (by omega) (by omega) arr

/-- Every array is sorted: nothing outside it is compared or exchanged, and the stack is large enough. -/
theorem vmemQSort_sorts (c : CmpFn α) {bits n : ℕ} (hn : n < 2 ^ bits) (arr : ℕ → α) :
    ∃ k arr', (∀ fuel, k ≤ fuel → vmemQSort c bits fuel arr n = some arr') ∧
      (slice arr' 0 n).Perm (slice arr 0 n) ∧ (slice arr' 0 n).Pairwise (fun a b => c.cmp a b ≤ 0) ∧
      ∀ i, n ≤ i → arr' i = arr i := by
  obtain ⟨k, arr', hre, hsorted, hloop⟩ : Done c n bits arr 0 n [] :=
    loop_part n bits 0 arr [] (by omega) hn (by rw [List.length_nil]; omega)
  rw [Nat.zero_add] at hre hsorted
  refine ⟨k, arr', fun fuel hfuel => ?_, hre.perm_slice, ?_, fun i hi => hre.outside (.inr hi)⟩
  · obtain ⟨m, rfl⟩ := Nat.exists_eq_add_of_le hfuel
    unfold vmemQSort
    rw [hloop m]
    cases m <;> rfl
  · unfold slice
    rw [List.pairwise_map]
    refine List.pairwise_lt_range.imp_of_mem fun {i j} _ hj hij => ?_
    rw [List.mem_range] at hj
    exact hsorted (0 + i) (0 + j) (Nat.zero_le _) (by omega) (by omega)

/-- Three numbers. -/
theorem vmemQSort_sorts_three :
    ∃ k arr', (∀ fuel, k ≤ fuel → vmemQSort intCmpFn 32 fuel (fun i => [2, 3, 1].getD i 0) 3 = some arr') ∧
      (slice arr' 0 3).Perm (slice (fun i => [2, 3, 1].getD i 0) 0 3) ∧
      (slice arr' 0 3).Pairwise (fun a b => intCmpFn.cmp a b ≤ 0) ∧
      ∀ i, 3 ≤ i → arr' i = [2, 3, 1].getD i 0 :=
  vmemQSort_sorts intCmpFn (by decide) _

end VMemQSort

end OpenWatcom.Wlink
