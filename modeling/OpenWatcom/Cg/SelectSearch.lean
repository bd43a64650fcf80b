import OpenWatcom.Cg.Select
import OpenWatcom.Lib.Intervals

/-! # The comparison tree of a selection

`key sortTipe` reads a 64-bit value as the integer that `selCompare` compares, and
`toSpan` an entry of the case list as an interval of keys. -/

namespace OpenWatcom.Cg

open ForwardCode LabelSpan

variable {L : Type}

/-! ### Keys -/

/-- The integer that `selCompare` compares. -/
def key (sortTipe : TypeDef) (x : BitVec 64) : ℤ :=
  if sortTipe.signed then x.toInt else x.toNat

theorem key_inj (sortTipe : TypeDef) {a b : BitVec 64} (h : key sortTipe a = key sortTipe b) :
    a = b := by
  unfold key at h
  split_ifs at h with hs
  · exact BitVec.eq_of_toInt_eq h
  · exact BitVec.eq_of_toNat_eq (by exact_mod_cast h)

theorem toNat_eq_key (t : TypeDef) (x : BitVec 64) : (x.toNat : ℤ) = key t x % 2 ^ 64 := by
  have hx := x.isLt
  unfold key
  split_ifs
  · rw [BitVec.toInt_eq_toNat_cond]
    split_ifs <;> omega
  · omega

/-- The order goes once through all values, from the least key on. -/
theorem key_bounds (s : TypeDef) : ∃ least : ℤ, ∀ x, least ≤ key s x ∧ key s x < least + 2 ^ 64 := by
  refine ⟨if s.signed then -2 ^ 63 else 0, fun x => ?_⟩
  unfold key
  split_ifs
  · exact ⟨BitVec.le_toInt x, BitVec.toInt_lt⟩
  · have := x.isLt
    omega

theorem toNat_sub_eq_key (t : TypeDef) (x a : BitVec 64) : ((x - a).toNat : ℤ) = (key t x - key t a) % 2 ^ 64 := by
  have hx := toNat_eq_key t x
  have ha := toNat_eq_key t a
  rw [BitVec.toNat_sub]
  omega

theorem selCompare_neg_iff (sortTipe : TypeDef) (a b : BitVec 64) :
    selCompare sortTipe a b < 0 ↔ key sortTipe a < key sortTipe b := by
  unfold selCompare key i64Cmp u64Cmp
  split_ifs <;> omega

theorem selCompare_nonpos_iff (sortTipe : TypeDef) (a b : BitVec 64) :
    selCompare sortTipe a b ≤ 0 ↔ key sortTipe a ≤ key sortTipe b := by
  unfold selCompare key i64Cmp u64Cmp
  split_ifs <;> omega

/-- Adding one to a value that is not the last in the order. -/
theorem key_add_one (sortTipe : TypeDef) {a b : BitVec 64} (h : key sortTipe a < key sortTipe b) :
    key sortTipe (a + 1) = key sortTipe a + 1 := by
  obtain ⟨least, hall⟩ := key_bounds sortTipe
  have ha := hall a
  have hb := hall b
  have hnext := hall (a + 1)
  have hmod := toNat_eq_key sortTipe a
  have hmod' := toNat_eq_key sortTipe (a + 1)
  have hadd : (a + 1).toNat = (a.toNat + 1) % 2 ^ 64 := BitVec.toNat_add a 1
  omega

/-- Subtracting one from a value that is not the first in the order. -/
theorem key_sub_one (sortTipe : TypeDef) {a b : BitVec 64} (h : key sortTipe a < key sortTipe b) :
    key sortTipe (b - 1) = key sortTipe b - 1 := by
  obtain ⟨least, hall⟩ := key_bounds sortTipe
  have ha := hall a
  have hb := hall b
  have hprev := hall (b - 1)
  have hmod := toNat_eq_key sortTipe b
  have hmod' := toNat_eq_key sortTipe (b - 1)
  have hsub : (b - 1).toNat = (2 ^ 64 - 1 + b.toNat) % 2 ^ 64 := BitVec.toNat_sub b 1
  omega

/-- A bound that was set to the value after `a` bounds every key above `a`. -/
theorem key_add_one_le (sortTipe : TypeDef) {a k : BitVec 64}
    (h : key sortTipe a < key sortTipe k) : key sortTipe (a + 1) ≤ key sortTipe k := by
  rw [key_add_one sortTipe h]
  omega

/-- A bound that was set to the value before `b` bounds every key under `b`. -/
theorem le_key_sub_one (sortTipe : TypeDef) {b k : BitVec 64}
    (h : key sortTipe k < key sortTipe b) : key sortTipe k ≤ key sortTipe (b - 1) := by
  rw [key_sub_one sortTipe h]
  omega

/-- The entry as an interval of keys. -/
def toSpan (sortTipe : TypeDef) (e : SelectList L) : LabelSpan ℤ L :=
  ⟨key sortTipe e.low, key sortTipe e.high, e.label⟩

theorem toSpan_contains (sortTipe : TypeDef) (e : SelectList L) (k : ℤ) :
    (toSpan sortTipe e).Contains k ↔ key sortTipe e.low ≤ k ∧ k ≤ key sortTipe e.high := Iff.rfl

theorem toSpan_contains_single (sortTipe : TypeDef) {e : SelectList L} (h : e.low = e.high)
    (k : ℤ) : (toSpan sortTipe e).Contains k ↔ k = key sortTipe e.low := by
  rw [toSpan_contains, ← h]
  omega

/-! ### Local labels -/

theorem labels_ltTest (sortTipe : TypeDef) (mid : SelectList L) (lob hib : BitVec 64)
    (haveL haveH : Bool) (lt : ℕ) : labels (ltTest sortTipe mid lob hib haveL haveH lt) = [] := by
  unfold ltTest
  split_ifs <;> rfl

theorem labels_leTest (sortTipe : TypeDef) (mid : SelectList L) (lob hib : BitVec 64)
    (haveL haveH : Bool) : labels (leTest sortTipe mid lob hib haveL haveH) = [] := by
  unfold leTest
  split_ifs <;> rfl

theorem labels_gotoOther (other : Option L) : labels (gotoOther other) = [] := by
  cases other <;> rfl

/-- The two tests at an entry, the code for the entries above it, and behind the label the
code for those below. -/
theorem fresh_node (sortTipe : TypeDef) (mid : SelectList L) (lob hib : BitVec 64)
    (haveL haveH : Bool) {next : ℕ} {above below : Code L × ℕ}
    (ha : Fresh (next + 1) above.2 above.1) (hb : Fresh above.2 below.2 below.1) :
    Fresh next below.2 (ltTest sortTipe mid lob hib haveL haveH next ++
      leTest sortTipe mid lob hib haveL haveH ++ above.1 ++ .label next :: below.1) := by
  rw [List.append_assoc]
  refine Fresh.cons_of_labels_nil ?_ (ha.branch hb)
  rw [labels_append, labels_ltTest, labels_leTest]
  rfl

/-- Each local label of the tree is defined once, with a number drawn between the two
values of the counter. -/
theorem doBinarySearch_fresh (sortTipe : TypeDef) (list : List (SelectList L)) (other : Option L)
    (lo hi : ℕ) (lob hib : BitVec 64) (haveL haveH : Bool) (next : ℕ) :
    Fresh next (doBinarySearch sortTipe list other lo hi lob hib haveL haveH next).2
      (doBinarySearch sortTipe list other lo hi lob hib haveL haveH next).1 := by
  induction h : hi - lo using Nat.strong_induction_on generalizing lo hi lob hib haveL haveH next with
  | _ n ih =>
    rw [doBinarySearch]
    cases hmid : list[lo + (hi - lo) / 2]? with
    | none => exact Fresh.of_labels_nil rfl next
    | some m =>
        by_cases h1 : lo = hi ∧ haveL ∧ lob = m.low ∧ haveH ∧ hib = m.high
        · simp only [if_pos h1]
          exact Fresh.of_labels_nil rfl next
        simp only [if_neg h1]
        by_cases h2 : lo = hi ∧ m.low = m.high
        · simp only [if_pos h2]
          exact Fresh.of_labels_nil rfl next
        simp only [if_neg h2]
        by_cases h3 : hi = lo + (hi - lo) / 2 + 1 ∧ isSingle list[hi]?
        · simp only [dif_pos h3]
          cases hlast : list[hi]? with
          | none => exact Fresh.of_labels_nil rfl next
          | some last =>
              exact Fresh.cons_of_labels_nil (p := [_]) rfl (ih _ (by omega) _ _ _ _ _ _ _ rfl)
        simp only [dif_neg h3]
        refine fresh_node sortTipe m lob hib haveL haveH ?_ ?_
        · split_ifs with hlt
          · exact ih _ (by omega) _ _ _ _ _ _ _ rfl
          · exact Fresh.of_labels_nil (labels_gotoOther other) _
        · split_ifs with hlt
          · exact ih _ (by omega) _ _ _ _ _ _ _ rfl
          · exact Fresh.of_labels_nil (labels_gotoOther other) _
          · exact ih _ (by omega) _ _ _ _ _ _ _ rfl
          · exact Fresh.of_labels_nil (labels_gotoOther other) _

/-! ### What the tests do -/

/-- The comparisons of the switch value with the constant `c` compare `k` with its key. -/
structure Agrees (sortTipe : TypeDef) (v : BitVec sortTipe.length.bits) (k : BitVec 64)
    (c : BitVec 64) : Prop where
  eq : Compare.holds sortTipe v ⟨.eq, c⟩ = decide (key sortTipe k = key sortTipe c)
  lt : Compare.holds sortTipe v ⟨.lt, c⟩ = decide (key sortTipe k < key sortTipe c)
  le : Compare.holds sortTipe v ⟨.le, c⟩ = decide (key sortTipe k ≤ key sortTipe c)

section tests

variable {sortTipe : TypeDef} {v : BitVec sortTipe.length.bits} {k : BitVec 64}
  {mid : SelectList L} {lob hib : BitVec 64} {haveL haveH : Bool}

theorem exec_ltTest (hm : Agrees sortTipe v k mid.low)
    (hl : haveL → key sortTipe lob ≤ key sortTipe k)
    (hh : haveH → key sortTipe k ≤ key sortTipe hib) (lt : ℕ) (rest : Code L) :
    exec (Compare.holds sortTipe v) none (ltTest sortTipe mid lob hib haveL haveH lt ++ rest) =
      if key sortTipe k < key sortTipe mid.low then exec (Compare.holds sortTipe v) (some lt) rest
      else exec (Compare.holds sortTipe v) none rest := by
  unfold ltTest
  simp only [selCompare_neg_iff]
  split_ifs with h1 h2 h3 h3 h3
  · rfl
  · have := hh h2.1
    omega
  · simp [hm.lt, h3]
  · simp [hm.lt, h3]
  · simp only [Bool.not_eq_true', not_or, Bool.not_eq_false] at h1
    have := hl h1.1
    omega
  · rfl

theorem exec_leTest (hm : Agrees sortTipe v k mid.high)
    (hl : haveL → key sortTipe lob ≤ key sortTipe k)
    (hh : haveH → key sortTipe k ≤ key sortTipe hib) (rest : Code L) :
    exec (Compare.holds sortTipe v) none (leTest sortTipe mid lob hib haveL haveH ++ rest) =
      if key sortTipe k ≤ key sortTipe mid.high then some mid.label
      else exec (Compare.holds sortTipe v) none rest := by
  unfold leTest
  simp only [selCompare_nonpos_iff]
  split_ifs with h1 h2 h3 h3 h3
  · rfl
  · have := hh h2.1
    omega
  · simp [hm.le, h3]
  · simp [hm.le, h3]
  · simp only [Bool.not_eq_true', not_or, Bool.not_eq_false] at h1
    have := hl h1.1
    omega
  · rfl

theorem exec_eqTest {c : BitVec 64} (hc : Agrees sortTipe v k c) (l : L) (rest : Code L) :
    exec (Compare.holds sortTipe v) none (.ifTrue ⟨.eq, c⟩ (.final l) :: rest) =
      if key sortTipe k = key sortTipe c then some l
      else exec (Compare.holds sortTipe v) none rest := by
  simp [hc.eq]

/-- The tests at an entry and the code behind them: a value under the entry is looked up in
`below`, a value above it in `above`. -/
theorem exec_node (hlow : Agrees sortTipe v k mid.low) (hhigh : Agrees sortTipe v k mid.high)
    (hl : haveL → key sortTipe lob ≤ key sortTipe k)
    (hh : haveH → key sortTipe k ≤ key sortTipe hib) {lt : ℕ} {above : Code L}
    (hlt : lt ∉ labels above) (below : Code L) :
    exec (Compare.holds sortTipe v) none
        (ltTest sortTipe mid lob hib haveL haveH lt ++ leTest sortTipe mid lob hib haveL haveH ++
          above ++ .label lt :: below) =
      if key sortTipe k < key sortTipe mid.low then exec (Compare.holds sortTipe v) none below
      else if key sortTipe k ≤ key sortTipe mid.high then some mid.label
      else exec (Compare.holds sortTipe v) none (above ++ .label lt :: below) := by
  have hskip : exec (Compare.holds sortTipe v) (some lt)
      (leTest sortTipe mid lob hib haveL haveH ++ (above ++ .label lt :: below)) =
      exec (Compare.holds sortTipe v) none below := by
    rw [exec_search_append _ _ _ _ (by simp [labels_leTest]), exec_search_append _ _ _ _ hlt,
      exec_search_label]
  rw [List.append_assoc, List.append_assoc, exec_ltTest hlow hl hh, exec_leTest hhigh hl hh, hskip]

end tests

/-! ### Soundness of the search -/

section search

variable (sortTipe : TypeDef) (list : List (SelectList L)) (other : Option L)
  (v : BitVec sortTipe.length.bits) (k : BitVec 64)

theorem getElem?_toSpan {i : ℕ} {e : SelectList L} (h : list[i]? = some e) :
    (list.map (toSpan sortTipe))[i]? = some (toSpan sortTipe e) := by
  rw [List.getElem?_map, h]
  rfl

/-- The code for the entries from `lo` to `hi` finds the entry that contains the value. -/
theorem doBinarySearch_routed (hsep : Separated (list.map (toSpan sortTipe)))
    (hag : ∀ e ∈ list, Agrees sortTipe v k e.low ∧ Agrees sortTipe v k e.high)
    (lo hi : ℕ) (lob hib : BitVec 64) (haveL haveH : Bool) (next : ℕ) (rest : Code L)
    (hlo : lo ≤ hi) (hhi : hi < list.length)
    (hl : haveL → key sortTipe lob ≤ key sortTipe k)
    (hh : haveH → key sortTipe k ≤ key sortTipe hib) :
    RoutedFrom (list.map (toSpan sortTipe)) other lo hi (key sortTipe k)
      (exec (Compare.holds sortTipe v) none
        ((doBinarySearch sortTipe list other lo hi lob hib haveL haveH next).1 ++ rest)) := by
  induction h : hi - lo using Nat.strong_induction_on
    generalizing lo hi lob hib haveL haveH next rest with
  | _ n ih =>
    rw [doBinarySearch]
    have hmidlt : lo + (hi - lo) / 2 < list.length := by omega
    obtain ⟨m, hmid⟩ : ∃ m, list[lo + (hi - lo) / 2]? = some m :=
      ⟨_, List.getElem?_eq_getElem hmidlt⟩
    have hm := hag m (List.mem_of_getElem? hmid)
    have hspan := getElem?_toSpan sortTipe list hmid
    simp only [hmid]
    by_cases h1 : lo = hi ∧ haveL ∧ lob = m.low ∧ haveH ∧ hib = m.high
    · -- both bounds are the ends of the entry, so the value is in it
      simp only [if_pos h1]
      obtain ⟨rfl, h2, rfl, h3, rfl⟩ := h1
      exact RoutedFrom.of_hit hsep hspan (by omega) (by omega) ⟨hl h2, hh h3⟩
    simp only [if_neg h1]
    by_cases h2 : lo = hi ∧ m.low = m.high
    · simp only [if_pos h2]
      obtain ⟨rfl, h2⟩ := h2
      rw [List.cons_append, exec_eqTest hm.1]
      by_cases hk : key sortTipe k = key sortTipe m.low
      · rw [if_pos hk]
        exact RoutedFrom.of_hit hsep hspan (by omega) (by omega)
          ((toSpan_contains_single sortTipe h2 _).mpr hk)
      · rw [if_neg hk]
        have hout : ∀ o, other = some o → exec (Compare.holds sortTipe v) none
            ([.jump (other.map .final)] ++ rest) = some o := by
          rintro o rfl
          rfl
        have hhigh : (toSpan sortTipe m).hi = key sortTipe m.low := by rw [h2]; rfl
        rcases lt_or_gt_of_ne hk with hlt | hgt
        · exact RoutedFrom.of_lt hsep hspan hlt (by omega) (fun h => by omega) (fun _ => hout)
        · exact RoutedFrom.of_gt hsep hspan hgt.le (hhigh ▸ hgt) (by omega) (fun h => by omega)
            (fun _ => hout)
    simp only [if_neg h2]
    by_cases h3 : hi = lo + (hi - lo) / 2 + 1 ∧ isSingle list[hi]?
    · -- the last two entries, and the last is a single value
      simp only [dif_pos h3]
      obtain ⟨last, hlast⟩ : ∃ last, list[hi]? = some last := ⟨_, List.getElem?_eq_getElem hhi⟩
      obtain ⟨h3, h4⟩ := h3
      have hsingle : last.low = last.high := by simpa [isSingle, hlast] using h4
      have hlastspan := getElem?_toSpan sortTipe list hlast
      simp only [hlast]
      rw [List.cons_append, exec_eqTest (hag last (List.mem_of_getElem? hlast)).1]
      by_cases hk : key sortTipe k = key sortTipe last.low
      · rw [if_pos hk]
        exact RoutedFrom.of_hit hsep hlastspan hlo le_rfl
          ((toSpan_contains_single sortTipe hsingle _).mpr hk)
      · rw [if_neg hk]
        have hno := mt (toSpan_contains_single sortTipe hsingle (key sortTipe k)).mp hk
        have hbound : haveH → key sortTipe k ≤
            key sortTipe (if haveH ∧ hib = last.low then hib - 1 else hib) := by
          intro hH
          have hk' := hh hH
          split_ifs with hdec
          · rw [hdec.2] at hk' ⊢
            exact le_key_sub_one sortTipe (lt_of_le_of_ne hk' hk)
          · exact hk'
        have hrec := ih _ (by omega) lo (lo + (hi - lo) / 2) lob _ haveL haveH next rest
          (by omega) (by omega) hl hbound rfl
        rw [h3] at hlastspan
        have := RoutedFrom.of_not_last hlastspan hno hrec
        rwa [← h3] at this
    simp only [dif_neg h3]
    rw [List.append_assoc, List.cons_append, exec_node hm.1 hm.2 hl hh]
    · by_cases hlow : key sortTipe k < key sortTipe m.low
      · -- under the entry
        rw [if_pos hlow]
        refine RoutedFrom.of_lt hsep hspan hlow (by omega) (fun hlt => ?_) (fun hlt => ?_)
        · rw [dif_pos hlt]
          exact ih _ (by omega) lo _ _ _ haveL true _ rest (by omega) (by omega) hl
            (fun _ => le_key_sub_one sortTipe hlow) rfl
        · rw [dif_neg (by omega)]
          rintro o rfl
          rfl
      rw [if_neg hlow]
      by_cases hhigh : key sortTipe k ≤ key sortTipe m.high
      · rw [if_pos hhigh]
        exact RoutedFrom.of_hit hsep hspan (by omega) (by omega) ⟨not_lt.mp hlow, hhigh⟩
      · -- above the entry
        rw [if_neg hhigh]
        refine RoutedFrom.of_gt hsep hspan (not_lt.mp hlow) (not_le.mp hhigh) (by omega)
          (fun hlt => ?_) (fun hlt => ?_)
        · rw [dif_pos hlt]
          exact ih _ (by omega) _ hi _ _ true haveH _ _ (by omega) hhi
            (fun _ => key_add_one_le sortTipe (not_le.mp hhigh)) hh rfl
        · rw [dif_neg (by omega)]
          rintro o rfl
          rfl
    · -- the label is not one of the entries above
      split_ifs with hlt
      · exact (doBinarySearch_fresh sortTipe list other _ _ _ _ _ _ _).notMem (by omega)
      · simp [labels_gotoOther]

/-- The code for a value under all the lower bounds takes every jump to the entries below, and
ends at the otherwise label, or nowhere. -/
theorem doBinarySearch_below (hag : ∀ e ∈ list, Agrees sortTipe v k e.low ∧ Agrees sortTipe v k e.high)
    (hk : ∀ e ∈ list, key sortTipe k < key sortTipe e.low)
    (lo hi : ℕ) (lob hib : BitVec 64) (haveL haveH : Bool) (next : ℕ)
    (hlo : lo ≤ hi) (hhi : hi < list.length)
    (hl : haveL → key sortTipe lob ≤ key sortTipe k)
    (hh : haveH → key sortTipe k ≤ key sortTipe hib) :
    exec (Compare.holds sortTipe v) none
      (doBinarySearch sortTipe list other lo hi lob hib haveL haveH next).1 = other := by
  induction h : hi - lo using Nat.strong_induction_on
    generalizing lo hi lob hib haveL haveH next with
  | _ n ih =>
    rw [doBinarySearch]
    have hmidlt : lo + (hi - lo) / 2 < list.length := by omega
    obtain ⟨m, hmid⟩ : ∃ m, list[lo + (hi - lo) / 2]? = some m :=
      ⟨_, List.getElem?_eq_getElem hmidlt⟩
    have hmem := List.mem_of_getElem? hmid
    have hm := hag m hmem
    have hkm := hk m hmem
    simp only [hmid]
    by_cases h1 : lo = hi ∧ haveL ∧ lob = m.low ∧ haveH ∧ hib = m.high
    · obtain ⟨-, h2, rfl, -⟩ := h1
      exact absurd (hl h2) (not_le.mpr hkm)
    simp only [if_neg h1]
    by_cases h2 : lo = hi ∧ m.low = m.high
    · simp only [if_pos h2]
      rw [exec_eqTest hm.1, if_neg hkm.ne]
      cases other <;> rfl
    simp only [if_neg h2]
    by_cases h3 : hi = lo + (hi - lo) / 2 + 1 ∧ isSingle list[hi]?
    · simp only [dif_pos h3]
      obtain ⟨last, hlast⟩ : ∃ last, list[hi]? = some last := ⟨_, List.getElem?_eq_getElem hhi⟩
      have hlmem := List.mem_of_getElem? hlast
      simp only [hlast]
      rw [exec_eqTest (hag last hlmem).1, if_neg (hk last hlmem).ne]
      refine ih _ (by omega) lo _ lob _ haveL haveH next (by omega) (by omega) hl ?_ rfl
      intro hH
      split_ifs with hdec
      · rw [hdec.2]
        exact le_key_sub_one sortTipe (hk last hlmem)
      · exact hh hH
    simp only [dif_neg h3]
    rw [exec_node hm.1 hm.2 hl hh, if_pos hkm]
    · by_cases hlt : lo < lo + (hi - lo) / 2
      · rw [dif_pos hlt]
        exact ih _ (by omega) lo _ _ _ haveL true _ (by omega) (by omega) hl
          (fun _ => le_key_sub_one sortTipe hkm) rfl
      · rw [dif_neg hlt]
        cases other <;> rfl
    · split_ifs with hlt
      · exact (doBinarySearch_fresh sortTipe list other _ _ _ _ _ _ _).notMem (by omega)
      · simp [labels_gotoOther]

end search

end OpenWatcom.Cg
