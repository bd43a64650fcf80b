import OpenWatcom.Cg.FloSearch

/-! # The intervals of a flow graph

`FindIntervals` groups the intervals of a level into those of the next one until no fewer are left. -/

namespace OpenWatcom.FloGraph

open Chains
open Function (update)

variable {β : Type*} [DecidableEq β]

/-- A graph in depth first order: every block is reached, none has an edge to itself, the head has no input edges. -/
structure Ordered (s : Flow β) (h : β) (q : List β) : Prop where
  consistent : Consistent (h :: q) s
  noSelf : ∀ x ∈ h :: q, x ∉ s.dest x
  noInput : ∀ x ∈ h :: q, h ∉ s.dest x
  tree : TreeOrdered s.dest (h :: q)
  nodup : (h :: q).Nodup

namespace Intervals

/-- What the intervals are when the levels up to `n` are complete.  An interval is entered at its first block only, and
all that leads to one of its parts but the first comes from the parts before. -/
structure Levels (s : Flow β) (h : β) (l : List β) (n : ℕ) (iv : Intervals β) : Prop where
  mem : ∀ m ≤ n, ∀ b ∈ l, iv.intervalNo b m ∈ l
  idem : ∀ m ≤ n, ∀ b ∈ l, iv.intervalNo (iv.intervalNo b m) m = iv.intervalNo b m
  head : ∀ m ≤ n, iv.intervalNo h m = h
  entry : ∀ m ≤ n, ∀ u ∈ l, ∀ v ∈ s.dest u, iv.intervalNo u m ≠ iv.intervalNo v m → iv.intervalNo v m = v
  parent : ∀ m < n, ∀ b ∈ l, iv.parent m (iv.intervalNo b m) = some (iv.intervalNo b (m + 1))
  mem_subs : ∀ m < n, ∀ p ∈ l, iv.intervalNo p (m + 1) = p →
    ∀ g, g ∈ iv.subs (m + 1) p ↔ g ∈ l ∧ iv.intervalNo g m = g ∧ iv.intervalNo g (m + 1) = p
  head_subs : ∀ m < n, ∀ p ∈ l, iv.intervalNo p (m + 1) = p → (iv.subs (m + 1) p).head? = some p
  nodup_subs : ∀ m < n, ∀ p ∈ l, iv.intervalNo p (m + 1) = p → (iv.subs (m + 1) p).Nodup
  ordered : ∀ m < n, ∀ p ∈ l, iv.intervalNo p (m + 1) = p → ∀ l₁ g l₂, iv.subs (m + 1) p = l₁ ++ g :: l₂ → l₁ ≠ [] →
    ∀ u ∈ l, g ∈ s.dest u → iv.intervalNo u m ≠ g → iv.intervalNo u m ∈ l₁
  unset : ∀ m, n ≤ m → ∀ b, iv.parent m b = none
  last_zero : ∀ b, iv.last 0 b = b

variable {s : Flow β} {h : β} {q l : List β} {n m : ℕ} {iv iv' : Intervals β}

omit [DecidableEq β] in
theorem intervalNo_congr (hsame : ∀ k < m, iv'.parent k = iv.parent k) (b : β) :
    iv'.intervalNo b m = iv.intervalNo b m := by
  induction m with
  | zero => rfl
  | succ m ih =>
      have hm := ih fun k hk => hsame k (Nat.lt_succ_of_lt hk)
      rw [intervalNo, intervalNo, hm, hsame m (Nat.lt_succ_self m)]

/-- The first block of an interval comes first in the order. -/
theorem Levels.first_before (hlv : Levels s h (h :: q) n iv) (hord : Ordered s h q) (hm : m ≤ n) :
    ∀ (k : ℕ) (done : List β) (x : β) (rest : List β), done.length ≤ k → h :: q = done ++ x :: rest →
      iv.intervalNo x m = x ∨ iv.intervalNo x m ∈ done := by
  intro k
  induction k with
  | zero =>
      intro done x rest hk hsplit
      obtain rfl := List.length_eq_zero_iff.mp (Nat.le_zero.mp hk)
      obtain rfl := (List.cons.inj hsplit).1
      exact .inl (hlv.head m hm)
  | succ k ih =>
      intro done x rest hk hsplit
      obtain rfl | hdone := eq_or_ne done []
      · exact ih [] x rest (Nat.zero_le k) hsplit
      · obtain ⟨y, hy, hxy⟩ := hord.tree done x rest hsplit hdone
        have hmem : ∀ z ∈ done, z ∈ h :: q := fun z hz => hsplit ▸ List.mem_append_left _ hz
        by_cases hsame : iv.intervalNo y m = iv.intervalNo x m
        · obtain ⟨d₁, d₂, rfl⟩ := List.append_of_mem hy
          right
          obtain heq | hbefore := ih d₁ y (d₂ ++ x :: rest) (by simp at hk; omega) (by simpa using hsplit)
          · rw [← hsame, heq]
            exact hy
          · rw [← hsame]
            exact List.mem_append_left _ hbefore
        · exact .inl (hlv.entry m hm y (hmem y hy) x hxy hsame)

theorem newInterval_last_zero {x : β} : (iv.newInterval n x).last 0 = iv.last 0 :=
  Function.update_of_ne (Nat.succ_ne_zero n).symm (update (iv.last (n + 1)) x x) iv.last

theorem join_last_zero {x p : β} : (iv.join n x p).last 0 = iv.last 0 :=
  Function.update_of_ne (Nat.succ_ne_zero n).symm (update (iv.last (n + 1)) p (iv.last n x)) iv.last

/-- What the loop of `FindIntervals` for the level after `n` has made of the blocks in `done`. -/
structure Grown (s : Flow β) (h : β) (l : List β) (n : ℕ) (iv : Intervals β) (done : List β) (t : Intervals β × ℕ) :
    Prop where
  parent_ne : ∀ m, m ≠ n → t.1.parent m = iv.parent m
  subs_ne : ∀ m, m ≠ n + 1 → t.1.subs m = iv.subs m
  assigned : ∀ g ∈ l, iv.intervalNo g n = g → (g ∈ done ↔ (t.1.parent n g).isSome = true)
  first : ∀ g p, t.1.parent n g = some p → (g ∈ l ∧ iv.intervalNo g n = g) ∧ t.1.parent n p = some p
  last_zero : ∀ b, t.1.last 0 b = b
  head : t.1.parent n h = some h
  mem_subs : ∀ p, t.1.parent n p = some p → ∀ g, g ∈ t.1.subs (n + 1) p ↔ t.1.parent n g = some p
  head_subs : ∀ p, t.1.parent n p = some p → (t.1.subs (n + 1) p).head? = some p
  nodup_subs : ∀ p, t.1.parent n p = some p → (t.1.subs (n + 1) p).Nodup
  ordered : ∀ p, t.1.parent n p = some p → ∀ l₁ g l₂, t.1.subs (n + 1) p = l₁ ++ g :: l₂ → l₁ ≠ [] →
    ∀ u ∈ l, g ∈ s.dest u → iv.intervalNo u n ≠ g → iv.intervalNo u n ∈ l₁
  count : t.2 = (done.filter fun g => t.1.parent n g = some g).length

theorem Grown.intervalNo {done : List β} {t : Intervals β × ℕ} (hg : Grown s h l n iv done t) (hm : m ≤ n) (b : β) :
    t.1.intervalNo b m = iv.intervalNo b m :=
  intervalNo_congr (fun k hk => hg.parent_ne k (by omega)) b

theorem Grown.start (hlv : Levels s h (h :: q) n iv) (hord : Ordered s h q) :
    Grown s h (h :: q) n iv [h] (iv.newInterval n h, 1) := by
  have hhead := hlv.head n le_rfl
  have hparent : ∀ g, (iv.newInterval n h).parent n g = if g = h then some h else none := by
    intro g
    simp only [newInterval, hhead, Function.update_self, Function.update_apply, hlv.unset n le_rfl]
  have hsubs : (iv.newInterval n h).subs (n + 1) h = [h] := by
    simp [newInterval, hhead]
  constructor
  · exact fun m hm => Function.update_of_ne hm _ _
  · exact fun m hm => Function.update_of_ne hm _ _
  · intro g _ _
    rw [hparent, List.mem_singleton]
    split <;> simp_all
  · intro g p hp
    rw [hparent] at hp ⊢
    split at hp
    case isTrue heq =>
      obtain rfl := Option.some.inj hp
      exact ⟨⟨heq ▸ List.mem_cons_self, heq ▸ hhead⟩, if_pos rfl⟩
    case isFalse => cases hp
  · exact fun b => (congrFun newInterval_last_zero b).trans (hlv.last_zero b)
  · rw [hparent, if_pos rfl]
  · intro p hp g
    rw [hparent] at hp
    split at hp
    case isTrue heq =>
      subst heq
      rw [hsubs, hparent, List.mem_singleton]
      split <;> simp_all
    case isFalse => cases hp
  · intro p hp
    rw [hparent] at hp
    split at hp
    case isTrue heq => rw [heq, hsubs, List.head?_cons]
    case isFalse => cases hp
  · intro p hp
    rw [hparent] at hp
    split at hp
    case isTrue heq => rw [heq, hsubs]; exact List.nodup_singleton h
    case isFalse => cases hp
  · intro p hp l₁ g l₂ hsplit hne
    rw [hparent] at hp
    split at hp
    case isTrue heq =>
      rw [heq, hsubs] at hsplit
      cases l₁ with
      | nil => exact absurd rfl hne
      | cons y l₁ => simp at hsplit
    case isFalse => cases hp
  · simp [hparent]

/-- What the loop over the input edges says. -/
theorem scanInputs_spec (iv : Intervals β) (curr : β) (edges : List (Edge β)) (prev : Option β) :
    (∀ p, iv.scanInputs n curr edges prev = some (some p) →
      (∀ e ∈ edges, iv.intervalNo e.source n ≠ curr → iv.parent n (iv.intervalNo e.source n) = some p) ∧
        (prev = some p ∨ prev = none ∧ ∃ e ∈ edges, iv.intervalNo e.source n ≠ curr)) ∧
      (iv.scanInputs n curr edges prev = some none →
        prev = none ∧ ∀ e ∈ edges, iv.intervalNo e.source n = curr) := by
  induction edges generalizing prev with
  | nil =>
      refine ⟨fun p hp => ⟨by simp, .inl (Option.some.inj hp)⟩, fun hnone => ⟨Option.some.inj hnone, by simp⟩⟩
  | cons e edges ih =>
      unfold scanInputs
      dsimp only
      by_cases hcurr : iv.intervalNo e.source n = curr
      · rw [if_pos hcurr]
        obtain ⟨hsome, hnone⟩ := ih prev
        refine ⟨fun p hp => ?_, fun hn => ?_⟩
        · obtain ⟨hall, hprev⟩ := hsome p hp
          refine ⟨fun e' he' hne => ?_, hprev.imp_right fun ⟨hn, e', he', hne⟩ =>
            ⟨hn, e', List.mem_cons_of_mem e he', hne⟩⟩
          obtain rfl | he' := List.mem_cons.mp he'
          · exact absurd hcurr hne
          · exact hall e' he' hne
        · obtain ⟨hprev, hall⟩ := hnone hn
          refine ⟨hprev, fun e' he' => ?_⟩
          obtain rfl | he' := List.mem_cons.mp he'
          · exact hcurr
          · exact hall e' he'
      · rw [if_neg hcurr]
        cases hparent : iv.parent n (iv.intervalNo e.source n) with
        | none => exact ⟨fun p hp => (by cases hp), fun hn => (by cases hn)⟩
        | some r =>
            cases prev with
            | none =>
                obtain ⟨hsome, hnone⟩ := ih (some r)
                refine ⟨fun p hp => ?_, fun hn => by cases (hnone hn).1⟩
                obtain ⟨hall, hprev⟩ := hsome p hp
                obtain rfl : r = p := by
                  obtain hprev | ⟨hprev, -⟩ := hprev
                  · exact Option.some.inj hprev
                  · cases hprev
                refine ⟨fun e' he' hne => ?_, .inr ⟨rfl, e, List.mem_cons_self, hcurr⟩⟩
                obtain rfl | he' := List.mem_cons.mp he'
                · exact hparent
                · exact hall e' he' hne
            | some v =>
                dsimp only
                by_cases hrv : r = v
                · rw [if_neg (not_not.mpr hrv)]
                  obtain ⟨hsome, hnone⟩ := ih (some v)
                  refine ⟨fun p hp => ?_, fun hn => by cases (hnone hn).1⟩
                  obtain ⟨hall, hprev⟩ := hsome p hp
                  obtain rfl : v = p := by
                    obtain hprev | ⟨hprev, -⟩ := hprev
                    · exact Option.some.inj hprev
                    · cases hprev
                  refine ⟨fun e' he' hne => ?_, .inl rfl⟩
                  obtain rfl | he' := List.mem_cons.mp he'
                  · rw [hparent, hrv]
                  · exact hall e' he' hne
                · rw [if_pos hrv]
                  exact ⟨fun p hp => (by cases hp), fun hn => (by cases hn)⟩

/-- A block that is not the first one of its interval changes nothing. -/
theorem Grown.skip {done : List β} {t : Intervals β × ℕ} {x : β} (hg : Grown s h l n iv done t)
    (hx : iv.intervalNo x n ≠ x) : Grown s h l n iv (done ++ [x]) t :=
  { hg with
    assigned := fun g hmem hgroup => by
      have hne : g ≠ x := fun heq => hx (heq ▸ hgroup)
      rw [List.mem_append, List.mem_singleton, or_iff_left hne]
      exact hg.assigned g hmem hgroup
    count := by
      have hnot : t.1.parent n x ≠ some x := fun heq => hx (hg.first x x heq).1.2
      rw [List.filter_append, List.filter_cons_of_neg (by simpa using hnot), List.filter_nil, List.append_nil]
      exact hg.count }

/-- A new interval. -/
theorem Grown.add {done : List β} {t : Intervals β × ℕ} {x : β} (hg : Grown s h l n iv done t) (hxl : x ∈ l)
    (hx : iv.intervalNo x n = x) (hnew : t.1.parent n x = none) (hdone : x ∉ done) :
    Grown s h l n iv (done ++ [x]) (t.1.newInterval n x, t.2 + 1) := by
  have hxt : t.1.intervalNo x n = x := (hg.intervalNo le_rfl x).trans hx
  have hparent : ∀ g, (t.1.newInterval n x).parent n g = if g = x then some x else t.1.parent n g := by
    intro g
    simp only [newInterval, hxt, Function.update_self, Function.update_apply]
  have hsubs : ∀ p, (t.1.newInterval n x).subs (n + 1) p = if p = x then [x] else t.1.subs (n + 1) p := by
    intro p
    simp only [newInterval, hxt, Function.update_self, Function.update_apply]
  have hnot : ∀ g, t.1.parent n g ≠ some x := fun g heq => by
    have := (hg.first g x heq).2
    rw [hnew] at this
    cases this
  have hcases : ∀ p g, (t.1.newInterval n x).parent n g = some p →
      g = x ∧ p = x ∨ p ≠ x ∧ g ≠ x ∧ t.1.parent n g = some p := by
    intro p g hp
    rw [hparent] at hp
    split at hp
    case isTrue heq => exact .inl ⟨heq, (Option.some.inj hp).symm⟩
    case isFalse hne => exact .inr ⟨fun heq => hnot g (heq ▸ hp), hne, hp⟩
  constructor
  · exact fun m hm => (Function.update_of_ne hm _ _).trans (hg.parent_ne m hm)
  · exact fun m hm => (Function.update_of_ne hm _ _).trans (hg.subs_ne m hm)
  · intro g hmem hgroup
    rw [hparent, List.mem_append, List.mem_singleton, hg.assigned g hmem hgroup]
    split <;> simp_all
  · intro g p hp
    obtain ⟨rfl, rfl⟩ | ⟨hpx, -, hp⟩ := hcases p g hp
    · exact ⟨⟨hxl, hx⟩, by rw [hparent, if_pos rfl]⟩
    · exact ⟨(hg.first g p hp).1, by rw [hparent, if_neg hpx]; exact (hg.first g p hp).2⟩
  · exact fun b => (congrFun newInterval_last_zero b).trans (hg.last_zero b)
  · rw [hparent, hg.head]
    split <;> simp_all
  · intro p hp g
    obtain ⟨-, rfl⟩ | ⟨hpx, -, hp⟩ := hcases p p hp
    · rw [hsubs, if_pos rfl, hparent, List.mem_singleton]
      split <;> simp_all
    · rw [hsubs, if_neg hpx, hparent, hg.mem_subs p hp]
      have hxp : x ≠ p := Ne.symm hpx
      split <;> simp_all
  · intro p hp
    rw [hsubs]
    obtain ⟨-, rfl⟩ | ⟨hpx, -, hp⟩ := hcases p p hp
    · rw [if_pos rfl, List.head?_cons]
    · rw [if_neg hpx, hg.head_subs p hp]
  · intro p hp
    rw [hsubs]
    obtain ⟨-, rfl⟩ | ⟨hpx, -, hp⟩ := hcases p p hp
    · rw [if_pos rfl]
      exact List.nodup_singleton p
    · rw [if_neg hpx]
      exact hg.nodup_subs p hp
  · intro p hp l₁ g l₂ hsplit hne
    rw [hsubs] at hsplit
    obtain ⟨-, rfl⟩ | ⟨hpx, -, hp⟩ := hcases p p hp
    · rw [if_pos rfl] at hsplit
      cases l₁ with
      | nil => exact absurd rfl hne
      | cons y l₁ => simp at hsplit
    · rw [if_neg hpx] at hsplit
      exact hg.ordered p hp l₁ g l₂ hsplit hne
  · rw [List.filter_append, List.length_append]
    have hsame : done.filter (fun g => (t.1.newInterval n x).parent n g = some g) =
        done.filter fun g => t.1.parent n g = some g := by
      refine List.filter_congr fun g hmem => ?_
      rw [hparent, if_neg (ne_of_mem_of_not_mem hmem hdone)]
    rw [hsame, ← hg.count]
    simp [hparent]

/-- The interval of a block becomes the last one of an interval from which all its edges come. -/
theorem Grown.joined {done : List β} {t : Intervals β × ℕ} {x p₀ : β} (hg : Grown s h l n iv done t) (hxl : x ∈ l)
    (hx : iv.intervalNo x n = x) (hnew : t.1.parent n x = none) (hdone : x ∉ done) (hp₀ : t.1.parent n p₀ = some p₀)
    (hedges : ∀ u ∈ l, x ∈ s.dest u → iv.intervalNo u n ≠ x → t.1.parent n (iv.intervalNo u n) = some p₀) :
    Grown s h l n iv (done ++ [x]) (t.1.join n x p₀, t.2) := by
  have hparent : ∀ g, (t.1.join n x p₀).parent n g = if g = x then some p₀ else t.1.parent n g := by
    intro g
    simp only [join, Function.update_self, Function.update_apply]
  have hsubs : ∀ p, (t.1.join n x p₀).subs (n + 1) p =
      if p = p₀ then t.1.subs (n + 1) p₀ ++ [x] else t.1.subs (n + 1) p := by
    intro p
    simp only [join, Function.update_self, Function.update_apply]
  have hp₀x : p₀ ≠ x := by
    rintro rfl
    rw [hnew] at hp₀
    cases hp₀
  have hroot : ∀ p, (t.1.join n x p₀).parent n p = some p → p ≠ x ∧ t.1.parent n p = some p := by
    intro p hp
    rw [hparent] at hp
    split at hp
    case isTrue heq => exact absurd ((Option.some.inj hp).trans heq) hp₀x
    case isFalse hne => exact ⟨hne, hp⟩
  have hnot : x ∉ t.1.subs (n + 1) p₀ := fun hmem => by
    have := (hg.mem_subs p₀ hp₀ x).mp hmem
    rw [hnew] at this
    cases this
  constructor
  · exact fun m hm => (Function.update_of_ne hm _ _).trans (hg.parent_ne m hm)
  · exact fun m hm => (Function.update_of_ne hm _ _).trans (hg.subs_ne m hm)
  · intro g hmem hgroup
    rw [hparent, List.mem_append, List.mem_singleton, hg.assigned g hmem hgroup]
    split <;> simp_all
  · intro g p hp
    rw [hparent] at hp
    split at hp
    case isTrue heq =>
      obtain rfl := Option.some.inj hp
      exact ⟨⟨heq ▸ hxl, heq ▸ hx⟩, by rw [hparent, if_neg hp₀x, hp₀]⟩
    case isFalse =>
      obtain ⟨hfirst, hp⟩ := hg.first g p hp
      have hpx : p ≠ x := fun heq => by rw [heq, hnew] at hp; cases hp
      exact ⟨hfirst, by rw [hparent, if_neg hpx, hp]⟩
  · exact fun b => (congrFun join_last_zero b).trans (hg.last_zero b)
  · have hhx : h ≠ x := fun heq => by
      have := hg.head
      rw [heq, hnew] at this
      cases this
    rw [hparent, if_neg hhx, hg.head]
  · intro p hp g
    obtain ⟨hpx, hpt⟩ := hroot p hp
    rw [hsubs, hparent]
    by_cases hpp : p = p₀
    · subst hpp
      rw [if_pos rfl, List.mem_append, List.mem_singleton, hg.mem_subs p hpt]
      split <;> simp_all
    · rw [if_neg hpp, hg.mem_subs p hpt]
      have : p₀ ≠ p := fun heq => hpp heq.symm
      split <;> simp_all
  · intro p hp
    obtain ⟨hpx, hpt⟩ := hroot p hp
    rw [hsubs]
    split
    case isTrue heq =>
      subst heq
      rw [List.head?_append, hg.head_subs p hpt, Option.some_or]
    case isFalse => exact hg.head_subs p hpt
  · intro p hp
    obtain ⟨hpx, hpt⟩ := hroot p hp
    rw [hsubs]
    split
    case isTrue heq =>
      refine List.nodup_append'.mpr ⟨hg.nodup_subs p₀ hp₀, List.nodup_singleton x, ?_⟩
      exact List.disjoint_singleton.mpr hnot
    case isFalse => exact hg.nodup_subs p hpt
  · intro p hp l₁ g l₂ hsplit hne u hu hgu hug
    obtain ⟨hpx, hpt⟩ := hroot p hp
    rw [hsubs] at hsplit
    split at hsplit
    case isTrue heq =>
      subst heq
      obtain ⟨a, hl₁, ha⟩ | ⟨a, hpre, ha⟩ := List.append_eq_append_iff.mp hsplit
      · have hgx : l₁ = t.1.subs (n + 1) p ∧ g = x := by
          cases a with
          | nil =>
              rw [List.nil_append] at ha
              exact ⟨by simpa using hl₁, (List.cons.inj ha).1.symm⟩
          | cons y a => simp at ha
        obtain ⟨rfl, rfl⟩ := hgx
        exact (hg.mem_subs p hpt _).mpr (hedges u hu hgu hug)
      · cases a with
        | nil =>
            rw [List.nil_append] at ha
            obtain ⟨rfl, -⟩ := List.cons.inj ha
            rw [List.append_nil] at hpre
            exact hpre ▸ (hg.mem_subs p hpt _).mpr (hedges u hu hgu hug)
        | cons y a =>
            obtain ⟨rfl, -⟩ := List.cons.inj ha
            exact hg.ordered p hpt l₁ g a hpre hne u hu hgu hug
    case isFalse => exact hg.ordered p hpt l₁ g l₂ hsplit hne u hu hgu hug
  · have hx' : (t.1.join n x p₀).parent n x ≠ some x := by
      rw [hparent, if_pos rfl]
      exact fun heq => hp₀x (Option.some.inj heq)
    have hsame : done.filter (fun g => (t.1.join n x p₀).parent n g = some g) =
        done.filter fun g => t.1.parent n g = some g := by
      refine List.filter_congr fun g hmem => ?_
      rw [hparent, if_neg (ne_of_mem_of_not_mem hmem hdone)]
    rw [List.filter_append, hsame, List.filter_cons_of_neg (by simpa using hx'), List.filter_nil, List.append_nil]
    exact hg.count

/-- A block of the list. -/
theorem Grown.findInterval {done rest : List β} {t : Intervals β × ℕ} {x : β} (hg : Grown s h (h :: q) n iv done t)
    (hlv : Levels s h (h :: q) n iv) (hord : Ordered s h q) (hsplit : h :: q = done ++ x :: rest) (hdone : done ≠ []) :
    ∃ t', findInterval s.inputs n t x = some t' ∧ Grown s h (h :: q) n iv (done ++ [x]) t' := by
  have hxl : x ∈ h :: q := by rw [hsplit]; simp
  have hnodup : (done ++ x :: rest).Nodup := hsplit ▸ hord.nodup
  have hxdone : x ∉ done := fun hmem => (List.nodup_append'.mp hnodup).2.2 hmem List.mem_cons_self
  have hcurr : t.1.intervalNo x n = iv.intervalNo x n := hg.intervalNo le_rfl x
  obtain hx | hbefore := hlv.first_before hord le_rfl _ done x rest le_rfl hsplit
  · -- the block is the first one of its interval, which has no parent yet
    have hnew : t.1.parent n x = none := by
      have := hg.assigned x hxl hx
      simpa [hxdone] using this
    have hsources : ∀ e, e ∈ s.inputs x ↔ e.source ∈ h :: q ∧ (s.dest e.source)[e.index]? = some x :=
      hord.consistent.inputs_iff x hxl
    obtain ⟨hsome, hnone⟩ := scanInputs_spec (n := n) t.1 x (s.inputs x) none
    unfold FloGraph.findInterval
    dsimp only
    rw [hcurr, hx, hnew, if_neg (by simp)]
    cases hscan : t.1.scanInputs n x (s.inputs x) none with
    | none => exact ⟨_, rfl, hg.add hxl hx hnew hxdone⟩
    | some found =>
        cases found with
        | none =>
            obtain ⟨-, hall⟩ := hnone hscan
            obtain ⟨y, hy, hxy⟩ := hord.tree done x rest hsplit hdone
            have hyl : y ∈ h :: q := hsplit ▸ List.mem_append_left _ hy
            obtain ⟨i, hi⟩ := List.mem_iff_getElem?.mp hxy
            have hyx := hall ⟨y, i⟩ ((hsources ⟨y, i⟩).mpr ⟨hyl, hi⟩)
            rw [hg.intervalNo le_rfl] at hyx
            dsimp only at hyx
            obtain ⟨d₁, d₂, rfl⟩ := List.append_of_mem hy
            obtain heq | hmem := hlv.first_before hord le_rfl _ d₁ y (d₂ ++ x :: rest) le_rfl (by simpa using hsplit)
            · exact absurd (hyx.symm.trans heq ▸ hy) hxdone
            · exact absurd (List.mem_append_left _ (hyx ▸ hmem)) hxdone
        | some p =>
            obtain ⟨hall, hex⟩ := hsome p hscan
            obtain ⟨e, he, hne⟩ := (hex.resolve_left (by simp)).2
            refine ⟨_, rfl, hg.joined hxl hx hnew hxdone (hg.first _ p (hall e he hne)).2 fun u hu hux huP => ?_⟩
            obtain ⟨i, hi⟩ := List.mem_iff_getElem?.mp hux
            have := hall ⟨u, i⟩ ((hsources ⟨u, i⟩).mpr ⟨hu, hi⟩)
            rw [hg.intervalNo le_rfl] at this
            exact this huP
  · -- the first block of the interval has been seen
    have hx : iv.intervalNo x n ≠ x := fun heq => hxdone (heq ▸ hbefore)
    have hmem := hlv.mem n le_rfl x hxl
    have hparent := (hg.assigned _ hmem (hlv.idem n le_rfl x hxl)).mp hbefore
    refine ⟨t, ?_, hg.skip hx⟩
    unfold FloGraph.findInterval
    dsimp only
    rw [hcurr, if_pos hparent]

/-- The loop over the blocks. -/
theorem Grown.foldlM (hlv : Levels s h (h :: q) n iv) (hord : Ordered s h q) :
    ∃ t, q.foldlM (FloGraph.findInterval s.inputs n) (iv.newInterval n h, 1) = some t ∧
      Grown s h (h :: q) n iv (h :: q) t := by
  have hloop : ∀ (rest done : List β) (t : Intervals β × ℕ), h :: q = done ++ rest → done ≠ [] →
      Grown s h (h :: q) n iv done t → ∃ t', rest.foldlM (FloGraph.findInterval s.inputs n) t = some t' ∧
        Grown s h (h :: q) n iv (h :: q) t' := by
    intro rest
    induction rest with
    | nil =>
        intro done t hsplit _ hg
        rw [List.append_nil] at hsplit
        exact ⟨t, rfl, hsplit ▸ hg⟩
    | cons x rest ih =>
        intro done t hsplit hdone hg
        obtain ⟨t', hstep, hg'⟩ := hg.findInterval hlv hord hsplit hdone
        obtain ⟨t'', hrest, hg''⟩ := ih (done ++ [x]) t' (by simpa using hsplit) (by simp) hg'
        refine ⟨t'', ?_, hg''⟩
        rw [List.foldlM_cons, hstep]
        exact hrest
  exact hloop q [h] _ rfl (by simp) (.start hlv hord)

/-- When the loop is done the level is complete. -/
theorem Grown.levels {t : Intervals β × ℕ} (hg : Grown s h (h :: q) n iv (h :: q) t)
    (hlv : Levels s h (h :: q) n iv) (hord : Ordered s h q) : Levels s h (h :: q) (n + 1) t.1 ∧
      t.2 = ((h :: q).filter fun g => t.1.intervalNo g (n + 1) = g).length := by
  have hlow : ∀ m ≤ n, ∀ b, t.1.intervalNo b m = iv.intervalNo b m := fun m hm b => hg.intervalNo hm b
  have hparent : ∀ b ∈ h :: q, t.1.parent n (iv.intervalNo b n) = some (t.1.intervalNo b (n + 1)) := by
    intro b hb
    have hsome := (hg.assigned _ (hlv.mem n le_rfl b hb) (hlv.idem n le_rfl b hb)).mp (hlv.mem n le_rfl b hb)
    obtain ⟨p, hp⟩ := Option.isSome_iff_exists.mp hsome
    rw [Intervals.intervalNo, hlow n le_rfl, hp, Option.getD_some]
  have hfirst : ∀ b ∈ h :: q, t.1.parent n (t.1.intervalNo b (n + 1)) = some (t.1.intervalNo b (n + 1)) :=
    fun b hb => (hg.first _ _ (hparent b hb)).2
  have hroot : ∀ p ∈ h :: q, t.1.intervalNo p (n + 1) = p ↔ t.1.parent n p = some p := by
    intro p hp
    constructor
    · intro heq
      have := hfirst p hp
      rwa [heq] at this
    · intro heq
      have := hparent p hp
      rw [(hg.first p p heq).1.2, heq] at this
      exact (Option.some.inj this).symm
  have hmemRoot : ∀ b ∈ h :: q, t.1.intervalNo b (n + 1) ∈ h :: q := fun b hb =>
    (hg.first _ _ (hfirst b hb)).1.1
  have hsub : ∀ m < n, t.1.subs (m + 1) = iv.subs (m + 1) := fun m hm => hg.subs_ne (m + 1) (by omega)
  have hsubs : ∀ p ∈ h :: q, t.1.intervalNo p (n + 1) = p → ∀ g, g ∈ t.1.subs (n + 1) p ↔
      g ∈ h :: q ∧ iv.intervalNo g n = g ∧ t.1.intervalNo g (n + 1) = p := by
    intro p hp heq g
    rw [hg.mem_subs p ((hroot p hp).mp heq)]
    constructor
    · intro hgp
      obtain ⟨⟨hmem, hgn⟩, -⟩ := hg.first g p hgp
      have := hparent g hmem
      rw [hgn, hgp] at this
      exact ⟨hmem, hgn, (Option.some.inj this).symm⟩
    · rintro ⟨hmem, hgn, hgp⟩
      have := hparent g hmem
      rwa [hgn, hgp] at this
  refine ⟨?_, ?_⟩
  · constructor
    · intro m hm b hb
      obtain hm | rfl := Nat.le_succ_iff.mp hm
      · rw [hlow m hm]
        exact hlv.mem m hm b hb
      · exact hmemRoot b hb
    · intro m hm b hb
      obtain hm | rfl := Nat.le_succ_iff.mp hm
      · rw [hlow m hm, hlow m hm]
        exact hlv.idem m hm b hb
      · exact (hroot _ (hmemRoot b hb)).mpr (hfirst b hb)
    · intro m hm
      obtain hm | rfl := Nat.le_succ_iff.mp hm
      · rw [hlow m hm]
        exact hlv.head m hm
      · exact (hroot h List.mem_cons_self).mpr hg.head
    · intro m hm u hu v hv hne
      obtain hm | rfl := Nat.le_succ_iff.mp hm
      · rw [hlow m hm, hlow m hm] at hne
        rw [hlow m hm]
        exact hlv.entry m hm u hu v hv hne
      · -- an edge between intervals of the level comes from the parts before, or leads to the first one
        have hvl := hord.consistent.dest_mem u hu v hv
        have hne' : iv.intervalNo u n ≠ iv.intervalNo v n := fun heq => hne (by
          have hu' := hparent u hu
          rw [heq, hparent v hvl] at hu'
          exact (Option.some.inj hu').symm)
        have hvn := hlv.entry n le_rfl u hu v hv hne'
        have hvp := hparent v hvl
        rw [hvn] at hvp hne'
        by_contra hvroot
        have hmem := (hg.mem_subs _ (hfirst v hvl) v).mpr hvp
        obtain ⟨l₁, l₂, hsplit⟩ := List.append_of_mem hmem
        have hl₁ : l₁ ≠ [] := by
          rintro rfl
          have hhead := hg.head_subs _ (hfirst v hvl)
          rw [hsplit, List.nil_append, List.head?_cons] at hhead
          exact hvroot (Option.some.inj hhead).symm
        have hun := hg.ordered _ (hfirst v hvl) l₁ v l₂ hsplit hl₁ u hu hv hne'
        have hup := (hg.mem_subs _ (hfirst v hvl) _).mp (hsplit ▸ List.mem_append_left _ hun)
        rw [hparent u hu] at hup
        exact hne (Option.some.inj hup)
    · intro m hm b hb
      obtain hm | rfl := Nat.lt_succ_iff_lt_or_eq.mp hm
      · rw [hg.parent_ne m hm.ne, hlow m hm.le, hlow (m + 1) hm]
        exact hlv.parent m hm b hb
      · rw [hlow m le_rfl]
        exact hparent b hb
    · intro m hm p hp heq g
      obtain hm | rfl := Nat.lt_succ_iff_lt_or_eq.mp hm
      · rw [hlow (m + 1) hm] at heq
        rw [hsub m hm, hlow m hm.le, hlow (m + 1) hm]
        exact hlv.mem_subs m hm p hp heq g
      · rw [hlow m le_rfl]
        exact hsubs p hp heq g
    · intro m hm p hp heq
      obtain hm | rfl := Nat.lt_succ_iff_lt_or_eq.mp hm
      · rw [hlow (m + 1) hm] at heq
        rw [hsub m hm]
        exact hlv.head_subs m hm p hp heq
      · exact hg.head_subs p ((hroot p hp).mp heq)
    · intro m hm p hp heq
      obtain hm | rfl := Nat.lt_succ_iff_lt_or_eq.mp hm
      · rw [hlow (m + 1) hm] at heq
        rw [hsub m hm]
        exact hlv.nodup_subs m hm p hp heq
      · exact hg.nodup_subs p ((hroot p hp).mp heq)
    · intro m hm p hp heq l₁ g l₂ hsplit hne u hu hgu hug
      obtain hm | rfl := Nat.lt_succ_iff_lt_or_eq.mp hm
      · rw [hlow (m + 1) hm] at heq
        rw [hsub m hm] at hsplit
        rw [hlow m hm.le] at hug ⊢
        exact hlv.ordered m hm p hp heq l₁ g l₂ hsplit hne u hu hgu hug
      · rw [hlow m le_rfl] at hug ⊢
        exact hg.ordered p ((hroot p hp).mp heq) l₁ g l₂ hsplit hne u hu hgu hug
    · intro m hm b
      rw [hg.parent_ne m (by omega)]
      exact hlv.unset m (by omega) b
    · exact hg.last_zero
  · rw [hg.count]
    refine congrArg List.length (List.filter_congr fun g hmem => ?_)
    exact decide_eq_decide.mpr (hroot g hmem).symm

omit [DecidableEq β] in
theorem Levels.zero : Levels s h l 0 ⟨fun _ _ => none, fun _ _ => [], fun _ blk => blk⟩ := by
  refine ⟨fun m hm b hb => ?_, fun m hm b hb => ?_, fun m hm => ?_, fun m hm u hu v hv hne => ?_,
    fun m hm => absurd hm (Nat.not_lt_zero m), fun m hm => absurd hm (Nat.not_lt_zero m),
    fun m hm => absurd hm (Nat.not_lt_zero m), fun m hm => absurd hm (Nat.not_lt_zero m),
    fun m hm => absurd hm (Nat.not_lt_zero m), fun m _ b => rfl, fun b => rfl⟩
  · obtain rfl := Nat.le_zero.mp hm
    exact hb
  · obtain rfl := Nat.le_zero.mp hm
    rfl
  · obtain rfl := Nat.le_zero.mp hm
    rfl
  · obtain rfl := Nat.le_zero.mp hm
    rfl

/-- How many intervals a level has. -/
def count (l : List β) (n : ℕ) (iv : Intervals β) : ℕ := (l.filter fun g => iv.intervalNo g n = g).length

omit [DecidableEq β] in
/-- The first block of an interval is the first one of a part of it. -/
theorem Levels.below (hlv : Levels s h l n iv) (hm : m < n) {g : β} (hg : g ∈ l)
    (hroot : iv.intervalNo g (m + 1) = g) : iv.intervalNo g m = g :=
  ((hlv.mem_subs m hm g hg hroot g).mp (List.mem_of_head? (hlv.head_subs m hm g hg hroot))).2.1

/-- The levels of `FindIntervals` end. -/
theorem Levels.findLevels (hord : Ordered s h q) (k : ℕ) : ∀ (n : ℕ) (iv : Intervals β), count (h :: q) n iv ≤ k →
    Levels s h (h :: q) n iv →
      ∃ (top : ℕ) (iv' : Intervals β),
        Ends (fun fuel => findLevels s.inputs h q fuel n (count (h :: q) n iv) iv)
          (count (h :: q) top iv' == 1, top, iv') ∧ Levels s h (h :: q) top iv' ∧ 1 ≤ top := by
  induction k with
  | zero =>
      intro n iv hk hlv
      have hmem : h ∈ (h :: q).filter fun g => iv.intervalNo g n = g :=
        List.mem_filter.mpr ⟨List.mem_cons_self, by simpa using hlv.head n le_rfl⟩
      exact absurd (List.length_pos_of_mem hmem) (by unfold count at hk; omega)
  | succ k ih =>
      intro n iv hk hlv
      obtain ⟨t, hfold, hg⟩ := Grown.foldlM hlv hord
      obtain ⟨hlv', hcount⟩ := hg.levels hlv hord
      have hcount' : t.2 = count (h :: q) (n + 1) t.1 := hcount
      have hle : count (h :: q) (n + 1) t.1 ≤ count (h :: q) n iv := by
        unfold count
        rw [← List.countP_eq_length_filter, ← List.countP_eq_length_filter]
        refine List.countP_mono_left fun g hmem hroot => ?_
        have := hlv'.below (Nat.lt_succ_self n) hmem (of_decide_eq_true hroot)
        rw [hg.intervalNo le_rfl] at this
        exact decide_eq_true this
      by_cases hend : t.2 = count (h :: q) n iv ∨ t.2 = 1
      · refine ⟨n + 1, t.1, (Ends.const _).succ fun fuel => ?_, hlv', by omega⟩
        rw [FloGraph.findLevels, hfold, Option.bind_some, if_pos hend, hcount']
      · obtain ⟨top, iv', hends, hlv'', htop⟩ := ih (n + 1) t.1 (by omega) hlv'
        refine ⟨top, iv', hends.succ fun fuel => ?_, hlv'', htop⟩
        rw [FloGraph.findLevels, hfold, Option.bind_some, if_neg hend, hcount']

/-- `FindIntervals` ends, and says whether all blocks are in one interval at the last level. -/
theorem Levels.findIntervals (hord : Ordered s h q) (hhead : s.headBlock = some h)
    (hchain : Chain s.next s.headBlock (h :: q)) :
    ∃ (single : Bool) (top : ℕ) (iv : Intervals β), Ends (fun fuel => findIntervals fuel s) (single, top, iv) ∧
      Levels s h (h :: q) top iv ∧ 1 ≤ top ∧ (single = true ↔ ∀ b ∈ h :: q, iv.intervalNo b top = h) := by
  obtain ⟨top, iv, hends, hlv, htop⟩ := Levels.findLevels hord _ 0 _ le_rfl (Levels.zero (s := s) (h := h))
  refine ⟨count (h :: q) top iv == 1, top, iv, ?_, hlv, htop, ?_⟩
  · have hcount : count (h :: q) 0 (⟨fun _ _ => none, fun _ _ => [], fun _ blk => blk⟩ : Intervals β) =
        (h :: q).length := by
      simp [count, intervalNo]
    rw [hcount] at hends
    refine ((Ends.walk hchain).bind (h := fun fuel blks => FloGraph.findLevels s.inputs h blks.tail fuel 0 blks.length
      ⟨fun _ _ => none, fun _ _ => [], fun _ blk => blk⟩) hends).congr fun fuel => ?_
    rw [FloGraph.findIntervals, hhead]
    rfl
  · rw [beq_iff_eq]
    have hmem : ∀ b ∈ h :: q, iv.intervalNo b top ∈ (h :: q).filter fun g => iv.intervalNo g top = g := fun b hb =>
      List.mem_filter.mpr ⟨hlv.mem top le_rfl b hb, by simpa using hlv.idem top le_rfl b hb⟩
    have hh : h ∈ (h :: q).filter fun g => iv.intervalNo g top = g :=
      List.mem_filter.mpr ⟨List.mem_cons_self, by simpa using hlv.head top le_rfl⟩
    constructor
    · intro hone b hb
      obtain ⟨x, hx⟩ := List.length_eq_one_iff.mp hone
      have hb' := hmem b hb
      rw [hx, List.mem_singleton] at hb' hh
      rw [hb', hh]
    · intro hall
      have hfilter : (h :: q).filter (fun g => iv.intervalNo g top = g) = [h] := by
        rw [List.filter_cons_of_pos (by simpa using hlv.head top le_rfl)]
        refine congrArg (h :: ·) (List.filter_eq_nil_iff.mpr fun g hg heq => ?_)
        have hgh : g = h := (of_decide_eq_true heq).symm.trans (hall g (List.mem_cons_of_mem h hg))
        exact (List.nodup_cons.mp hord.nodup).1 (hgh ▸ hg)
      rw [count, hfilter, List.length_singleton]

end Intervals

end OpenWatcom.FloGraph
