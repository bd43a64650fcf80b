import Mathlib.Tactic

/-! # Labelled intervals

A partial map from keys to labels given by a list of labelled closed intervals, with a
default label for the keys outside all of them.  `Routed l other k out` says that `out`
is an answer for the key `k`, and `RoutedFrom` the same for the entries from one index to
another.  `Separated` lists are sorted by their lower ends, and each interval that is not
empty ends before the next ones begin; a search that compares `k` with one interval may go on
with the entries on one side of it (`RoutedFrom.of_lt`, `RoutedFrom.of_gt`).

An interval with `hi < lo` contains nothing.  Such intervals are allowed in a `Separated` list. -/

namespace OpenWatcom

/-- A closed interval of keys with the label of its elements. -/
structure LabelSpan (K L : Type) where
  lo : K
  hi : K
  label : L

namespace LabelSpan

variable {K L : Type} [LinearOrder K]

/-- The key lies in the interval. -/
def Contains (e : LabelSpan K L) (k : K) : Prop := e.lo ≤ k ∧ k ≤ e.hi

instance (e : LabelSpan K L) (k : K) : Decidable (e.Contains k) :=
  inferInstanceAs (Decidable (_ ∧ _))

/-- `out` answers for the key `k`: the label of every interval that contains it, and the
default label, if there is one, where no interval does. -/
structure Routed (l : List (LabelSpan K L)) (other : Option L) (k : K) (out : Option L) :
    Prop where
  inside : ∀ e ∈ l, e.Contains k → out = some e.label
  outside : (∀ e ∈ l, ¬ e.Contains k) → ∀ o, other = some o → out = some o

/-- `out` answers for the key `k` among the entries from `lo` to `hi`. -/
structure RoutedFrom (l : List (LabelSpan K L)) (other : Option L) (lo hi : ℕ) (k : K)
    (out : Option L) : Prop where
  inside : ∀ i e, lo ≤ i → i ≤ hi → l[i]? = some e → e.Contains k → out = some e.label
  outside : (∀ i e, lo ≤ i → i ≤ hi → l[i]? = some e → ¬ e.Contains k) →
    ∀ o, other = some o → out = some o

/-- Sorted by lower ends, and no interval reaches into a later one. -/
def Separated (l : List (LabelSpan K L)) : Prop :=
  l.Pairwise fun a b => a.lo < b.lo ∧ (a.lo ≤ a.hi → a.hi < b.lo)

section separated

variable {l : List (LabelSpan K L)} (h : Separated l) {i j : ℕ} {a b : LabelSpan K L}
include h

theorem Separated.get (hij : i < j) (ha : l[i]? = some a) (hb : l[j]? = some b) :
    a.lo < b.lo ∧ (a.lo ≤ a.hi → a.hi < b.lo) := by
  obtain ⟨hi, rfl⟩ := List.getElem?_eq_some_iff.mp ha
  obtain ⟨hj, rfl⟩ := List.getElem?_eq_some_iff.mp hb
  exact List.pairwise_iff_getElem.mp h i j hi hj hij

/-- Under the lower end of an entry there is nothing of this entry or of a later one. -/
theorem Separated.not_contains_of_lt (hij : i ≤ j) (ha : l[i]? = some a) (hb : l[j]? = some b)
    {k : K} (hk : k < a.lo) : ¬ b.Contains k := by
  intro hc
  rcases Nat.lt_or_eq_of_le hij with hlt | rfl
  · exact absurd hc.1 (not_le.mpr (hk.trans (h.get hlt ha hb).1))
  · obtain rfl : a = b := by simpa [ha] using hb
    exact absurd hc.1 (not_le.mpr hk)

/-- At or above the lower end of an entry there is nothing of an earlier one. -/
theorem Separated.not_contains_of_le (hij : i < j) (ha : l[i]? = some a) (hb : l[j]? = some b)
    {k : K} (hk : b.lo ≤ k) : ¬ a.Contains k := by
  intro hc
  exact absurd ((h.get hij ha hb).2 (hc.1.trans hc.2)) (not_lt.mpr (hk.trans hc.2))

/-- In a separated list a key lies in at most one entry. -/
theorem Separated.index_unique (ha : l[i]? = some a) (hb : l[j]? = some b) {k : K}
    (hak : a.Contains k) (hbk : b.Contains k) : i = j := by
  rcases lt_trichotomy i j with hlt | heq | hgt
  · exact absurd hak (h.not_contains_of_le hlt ha hb hbk.1)
  · exact heq
  · exact absurd hbk (h.not_contains_of_le hgt hb ha hak.1)

variable {other : Option L} {lo hi mid : ℕ} {k : K} {out : Option L}

/-- The key lies in an entry of the range. -/
theorem RoutedFrom.of_hit (ha : l[mid]? = some a) (hlo : lo ≤ mid) (hhi : mid ≤ hi)
    (hk : a.Contains k) : RoutedFrom l other lo hi k (some a.label) := by
  refine ⟨fun i e _ _ he hc => ?_, fun hno => absurd hk (hno mid a hlo hhi ha)⟩
  obtain rfl := h.index_unique ha he hk hc
  rw [ha] at he
  rw [Option.some.inj he]

/-- The key lies under an entry: only the earlier entries matter. -/
theorem RoutedFrom.of_lt (ha : l[mid]? = some a) (hk : k < a.lo) (hhi : mid ≤ hi)
    (hr : lo < mid → RoutedFrom l other lo (mid - 1) k out)
    (hn : mid ≤ lo → ∀ o, other = some o → out = some o) : RoutedFrom l other lo hi k out := by
  refine ⟨fun i e hi1 hi2 he hc => ?_, fun hno o ho => ?_⟩
  · by_cases hm : mid ≤ i
    · exact absurd hc (h.not_contains_of_lt hm ha he hk)
    · exact (hr (by omega)).inside i e hi1 (by omega) he hc
  · by_cases hm : lo < mid
    · exact (hr hm).outside (fun i e h1 h2 => hno i e h1 (by omega)) o ho
    · exact hn (by omega) o ho

/-- The key lies above an entry: only the later entries matter. -/
theorem RoutedFrom.of_gt (ha : l[mid]? = some a) (hk : a.lo ≤ k) (hk' : a.hi < k) (hlo : lo ≤ mid)
    (hr : mid < hi → RoutedFrom l other (mid + 1) hi k out)
    (hn : hi ≤ mid → ∀ o, other = some o → out = some o) : RoutedFrom l other lo hi k out := by
  refine ⟨fun i e hi1 hi2 he hc => ?_, fun hno o ho => ?_⟩
  · rcases lt_trichotomy i mid with hlt | rfl | hgt
    · exact absurd hc (h.not_contains_of_le hlt he ha hk)
    · obtain rfl : a = e := by simpa [ha] using he
      exact absurd hc.2 (not_le.mpr hk')
    · exact (hr (by omega)).inside i e hgt hi2 he hc
  · by_cases hm : mid < hi
    · exact (hr hm).outside (fun i e h1 h2 => hno i e (by omega) h2) o ho
    · exact hn (by omega) o ho

end separated

/-- The last entry of the range does not contain the key: only the earlier ones matter. -/
theorem RoutedFrom.of_not_last {l : List (LabelSpan K L)} {other : Option L} {lo mid : ℕ} {k : K}
    {out : Option L} {a : LabelSpan K L} (ha : l[mid + 1]? = some a) (hk : ¬ a.Contains k)
    (hr : RoutedFrom l other lo mid k out) : RoutedFrom l other lo (mid + 1) k out := by
  refine ⟨fun i e hi1 hi2 he hc => ?_, fun hno o ho => ?_⟩
  · rcases Nat.lt_or_eq_of_le hi2 with hlt | rfl
    · exact hr.inside i e hi1 (by omega) he hc
    · obtain rfl : a = e := by simpa [ha] using he
      exact absurd hc hk
  · exact hr.outside (fun i e h1 h2 => hno i e h1 (by omega)) o ho

/-- The whole list. -/
theorem RoutedFrom.routed {l : List (LabelSpan K L)} {other : Option L} {k : K} {out : Option L}
    (h : RoutedFrom l other 0 (l.length - 1) k out) : Routed l other k out := by
  refine ⟨fun e he hc => ?_, fun hno => h.outside fun i e _ _ he => hno e (List.mem_of_getElem? he)⟩
  obtain ⟨i, hi, rfl⟩ := List.mem_iff_getElem.mp he
  exact h.inside i _ (Nat.zero_le i) (by omega) (List.getElem?_eq_getElem hi) hc

/-! ### The first entry -/

section first

variable {l : List (LabelSpan K L)} {other : Option L} {k : K} {out : Option L}
  {a b : LabelSpan K L}

theorem Routed.of_first (hk : a.Contains k) (hno : ∀ e ∈ l, ¬ e.Contains k) :
    Routed (a :: l) other k (some a.label) := by
  refine ⟨fun e he hc => ?_, fun h => absurd hk (h a List.mem_cons_self)⟩
  rcases List.mem_cons.mp he with rfl | he
  · rfl
  · exact absurd hc (hno e he)

theorem routed_cons_of_not (hk : ¬ a.Contains k) :
    Routed (a :: l) other k out ↔ Routed l other k out := by
  refine ⟨fun h => ⟨fun e he => h.inside e (List.mem_cons_of_mem _ he), fun hno => h.outside ?_⟩,
    fun h => ⟨fun e he hc => ?_, fun hno => h.outside fun e he => hno e (List.mem_cons_of_mem _ he)⟩⟩
  · intro e he
    rcases List.mem_cons.mp he with rfl | he
    · exact hk
    · exact hno e he
  · rcases List.mem_cons.mp he with rfl | he
    · exact absurd hc hk
    · exact h.inside e he hc

/-- Two intervals with nothing between them and the same label may be made one, where an
interval that is empty has the default label. -/
theorem Routed.of_joined (h : Separated (a :: b :: l)) (hab : ∀ k, a.hi < k → b.lo ≤ k)
    (hlabel : a.label = b.label) (hb : b.hi < b.lo → other = some b.label)
    (hr : Routed (⟨a.lo, b.hi, a.label⟩ :: l) other k out) : Routed (a :: b :: l) other k out := by
  have hsb := (List.pairwise_cons.mp (List.pairwise_cons.mp h).2).1
  have hsa := (List.pairwise_cons.mp h).1
  by_cases hj : (⟨a.lo, b.hi, a.label⟩ : LabelSpan K L).Contains k
  · obtain rfl := hr.inside _ List.mem_cons_self hj
    by_cases hka : a.Contains k
    · refine Routed.of_first hka fun e he hc => ?_
      exact absurd hc.1 (not_le.mpr (lt_of_le_of_lt hka.2 ((hsa e he).2 (hka.1.trans hka.2))))
    · have hkb : b.Contains k := ⟨hab k (not_le.mp fun h => hka ⟨hj.1, h⟩), hj.2⟩
      rw [routed_cons_of_not hka, show (⟨a.lo, b.hi, a.label⟩ : LabelSpan K L).label = b.label
        from hlabel]
      refine Routed.of_first hkb fun e he hc => ?_
      exact absurd hc.1 (not_le.mpr (lt_of_le_of_lt hkb.2 ((hsb e he).2 (hkb.1.trans hkb.2))))
  · rw [routed_cons_of_not hj] at hr
    have hkb : ¬ b.Contains k := fun hc => hj ⟨(hsa b List.mem_cons_self).1.le.trans hc.1, hc.2⟩
    by_cases hka : a.Contains k
    · -- the key was lost with the join, so the second interval is empty
      have hempty : b.hi < b.lo :=
        (not_le.mp fun h => hj ⟨hka.1, h⟩).trans_le
          (hka.2.trans ((hsa b List.mem_cons_self).2 (hka.1.trans hka.2)).le)
      have hno : ∀ e ∈ b :: l, ¬ e.Contains k := fun e he hc =>
        absurd hc.1 (not_le.mpr (lt_of_le_of_lt hka.2 ((hsa e he).2 (hka.1.trans hka.2))))
      obtain rfl := hr.outside (fun e he => hno e (List.mem_cons_of_mem _ he)) _ (hb hempty)
      rw [← hlabel]
      exact Routed.of_first hka hno
    · rwa [routed_cons_of_not hka, routed_cons_of_not hkb]

end first

end LabelSpan
end OpenWatcom
