import OpenWatcom.Lib.StableSort
import OpenWatcom.Watcom.ListSort

/-! # The list sort of the code generator

`SortList`, whose arrays `ShellSort` sorts.

* `weight`: elements count for more the further behind they stand;
* `ShellSort.sweepLoop_spec`: exchanges of elements that stand wrong come to an end;
* `shellSort_fits`: `ShellSort` sorts every array. -/

namespace OpenWatcom.Cg

open Chains Watcom

variable {α : Type*}

namespace ShellSort

/-- One comparison of the inner loop, with `swap`. -/
def swapStep (before : α → α → Bool) (gap : ℕ) (st : List α × Bool) (i : ℕ) : List α × Bool :=
  match st.1[i]?, st.1[i + gap]? with
  | some a, some b => if before b a then ((st.1.set i b).set (i + gap) a, true) else st
  | _, _ => st

/-- The inner loop. -/
def pass (before : α → α → Bool) (gap : ℕ) (array : List α) : List α × Bool :=
  (List.range (array.length - gap)).foldl (swapStep before gap) (array, false)

/-- `do .. while( swap )`. -/
def sweepLoop (before : α → α → Bool) (gap : ℕ) : ℕ → List α → Option (List α)
  | 0, _ => none
  | n + 1, array =>
    if (pass before gap array).2 then sweepLoop before gap n (pass before gap array).1
    else some (pass before gap array).1

/-- `do .. while( gap != 1 )`. -/
def gapLoop (before : α → α → Bool) (fuel : ℕ) : ℕ → ℕ → Bool → List α → Option (List α)
  | 0, _, _, _ => none
  | n + 1, gap, adjust, array =>
    (sweepLoop before (gap / 2 + (!adjust).toNat) fuel array).bind fun array =>
    if gap / 2 + (!adjust).toNat ≠ 1 then gapLoop before fuel n (gap / 2 + (!adjust).toNat) (!adjust) array
    else some array

end ShellSort

/-- `ShellSort`. -/
def shellSort (before : α → α → Bool) (fuel : ℕ) (array : List α) : Option (List α) :=
  ShellSort.gapLoop before fuel fuel array.length true array

/-- The sum of the ranks, each times the place of the element. -/
def weight (rank : α → ℕ) : ℕ → List α → ℕ
  | _, [] => 0
  | k, a :: l => k * rank a + weight rank (k + 1) l

section Weight

variable {rank : α → ℕ}

theorem weight_append (k : ℕ) (l m : List α) :
    weight rank k (l ++ m) = weight rank k l + weight rank (k + l.length) m := by
  induction l generalizing k with
  | nil => simp [weight]
  | cons a l ih =>
      simp only [List.cons_append, weight, ih, List.length_cons]
      rw [show k + 1 + l.length = k + (l.length + 1) by omega, add_assoc]

theorem weight_le {R : ℕ} (k : ℕ) (l : List α) (hR : ∀ a ∈ l, rank a ≤ R) :
    weight rank k l ≤ l.length * ((k + l.length) * R) := by
  induction l generalizing k with
  | nil => simp [weight]
  | cons a l ih =>
      have h1 := ih (k + 1) fun b hb => hR b (List.mem_cons_of_mem a hb)
      have h2 : k * rank a ≤ (k + (l.length + 1)) * R := Nat.mul_le_mul (by omega) (hR a List.mem_cons_self)
      rw [show k + 1 + l.length = k + (l.length + 1) by omega] at h1
      simp only [weight, List.length_cons, Nat.succ_mul]
      omega

/-- The larger element comes to stand behind. -/
theorem weight_exchange {a b : α} (h : rank b < rank a) (pre mid post : List α) :
    weight rank 0 (pre ++ a :: (mid ++ b :: post)) < weight rank 0 (pre ++ b :: (mid ++ a :: post)) := by
  simp only [weight_append, weight, Nat.zero_add]
  obtain ⟨d, hd⟩ := Nat.exists_eq_add_of_lt h
  rw [hd]
  ring_nf
  omega

end Weight

theorem split_at {l : List α} {i : ℕ} {a : α} (h : l[i]? = some a) :
    ∃ pre post, l = pre ++ a :: post ∧ pre.length = i := by
  obtain ⟨hi, rfl⟩ := List.getElem?_eq_some_iff.mp h
  exact ⟨l.take i, l.drop (i + 1), by simp, by simp; omega⟩

/-- Two elements of a list are exchanged. -/
theorem exchange {l : List α} {i gap : ℕ} {a b : α} (hgap : 0 < gap) (ha : l[i]? = some a) (hb : l[i + gap]? = some b) :
    ∃ pre mid post, l = pre ++ a :: (mid ++ b :: post) ∧
      (l.set i b).set (i + gap) a = pre ++ b :: (mid ++ a :: post) := by
  obtain ⟨pre, rest, rfl, rfl⟩ := split_at ha
  have hrest : rest[gap - 1]? = some b := by
    rw [List.getElem?_append_right (by omega), show pre.length + gap - pre.length = gap - 1 + 1 by omega,
      List.getElem?_cons_succ] at hb
    exact hb
  obtain ⟨mid, post, rfl, hmid⟩ := split_at hrest
  refine ⟨pre, mid, post, rfl, ?_⟩
  rw [List.set_append_right _ _ (by omega), Nat.sub_self, List.set_cons_zero, List.set_append_right _ _ (by omega),
    show pre.length + gap - pre.length = mid.length + 1 by omega, List.set_cons_succ,
    List.set_append_right _ _ (by omega), Nat.sub_self, List.set_cons_zero]

namespace ShellSort

variable {before : α → α → Bool} {gap : ℕ} {rank : α → ℕ} {l : List α}

/-- The elements at that distance stand right. -/
def Ordered (before : α → α → Bool) (gap : ℕ) (l : List α) (i : ℕ) : Prop :=
  ∀ a b, l[i]? = some a → l[i + gap]? = some b → ¬ before b a

/-- The ranks follow the order of the elements. -/
def Ranks (before : α → α → Bool) (rank : α → ℕ) (l : List α) : Prop :=
  ∀ a ∈ l, ∀ b ∈ l, before b a → rank b < rank a

theorem Ranks.perm {l' : List α} (h : Ranks before rank l) (hp : l'.Perm l) : Ranks before rank l' :=
  fun a ha b hb => h a (hp.mem_iff.mp ha) b (hp.mem_iff.mp hb)

/-- A comparison that finds an exchange, and one that does not. -/
theorem swapStep_cases (gap : ℕ) (hr : Ranks before rank l) (f : Bool) (i : ℕ) :
    (swapStep before gap (l, f) i = (l, f) ∧ Ordered before gap l i) ∨
      ∃ l', swapStep before gap (l, f) i = (l', true) ∧ l'.Perm l ∧ weight rank 0 l < weight rank 0 l' := by
  cases ha : l[i]? with
  | none => exact .inl ⟨by simp [swapStep, ha], fun a b h _ => nomatch ha.symm.trans h⟩
  | some a =>
      cases hb : l[i + gap]? with
      | none => exact .inl ⟨by simp [swapStep, ha, hb], fun a b _ h => nomatch hb.symm.trans h⟩
      | some b =>
          by_cases hba : before b a
          · have hrank := hr a (List.mem_of_getElem? ha) b (List.mem_of_getElem? hb) hba
            have hgap : 0 < gap := by
              refine Nat.pos_of_ne_zero fun h0 => ?_
              subst h0
              obtain rfl := Option.some.inj (ha.symm.trans hb)
              exact lt_irrefl _ hrank
            obtain ⟨pre, mid, post, rfl, hset⟩ := exchange hgap ha hb
            refine .inr ⟨_, by simp [swapStep, ha, hb, hba], ?_, hset ▸ weight_exchange hrank pre mid post⟩
            rw [hset]
            refine List.Perm.append_left pre ?_
            calc (b :: (mid ++ a :: post)).Perm (b :: a :: (mid ++ post)) := List.Perm.cons b List.perm_middle
              _ |>.Perm (a :: b :: (mid ++ post)) := List.Perm.swap a b _
              _ |>.Perm (a :: (mid ++ b :: post)) := List.Perm.cons a List.perm_middle.symm
          · refine .inl ⟨by simp [swapStep, ha, hb, hba], fun x y hx hy => ?_⟩
            obtain rfl := Option.some.inj (ha.symm.trans hx)
            obtain rfl := Option.some.inj (hb.symm.trans hy)
            exact hba

theorem foldl_swapStep (gap : ℕ) (hr : Ranks before rank l) (f : Bool) (is : List ℕ) :
    (is.foldl (swapStep before gap) (l, f)).1.Perm l ∧
      weight rank 0 l ≤ weight rank 0 (is.foldl (swapStep before gap) (l, f)).1 ∧
      ((is.foldl (swapStep before gap) (l, f)).2 = true →
        f = true ∨ weight rank 0 l < weight rank 0 (is.foldl (swapStep before gap) (l, f)).1) ∧
      ((is.foldl (swapStep before gap) (l, f)).2 = false →
        f = false ∧ (is.foldl (swapStep before gap) (l, f)).1 = l ∧ ∀ i ∈ is, Ordered before gap l i) := by
  induction is generalizing l f with
  | nil => simp
  | cons i is ih =>
      rw [List.foldl_cons]
      obtain ⟨hstep, hord⟩ | ⟨l', hstep, hperm, hw⟩ := swapStep_cases gap hr f i
      · rw [hstep]
        obtain ⟨h1, h2, h3, h4⟩ := ih hr f
        refine ⟨h1, h2, h3, fun hf => ?_⟩
        obtain ⟨hff, hl, his⟩ := h4 hf
        exact ⟨hff, hl, by simpa using ⟨hord, his⟩⟩
      · rw [hstep]
        obtain ⟨h1, h2, h3, h4⟩ := ih (hr.perm hperm) true
        exact ⟨h1.trans hperm, by omega, fun _ => .inr (by omega), fun hf => nomatch (h4 hf).1⟩

/-- The sweeps with one gap come to an end, as each of them adds to the weight. -/
theorem sweepLoop_spec (gap : ℕ) {B : ℕ} (n : ℕ) (hr : Ranks before rank l)
    (hB : ∀ l', l'.Perm l → weight rank 0 l' ≤ B) (hn : B < weight rank 0 l + n) :
    ∃ l', sweepLoop before gap n l = some l' ∧ l'.Perm l ∧ ∀ i, i + gap < l.length → Ordered before gap l' i := by
  induction n generalizing l with
  | zero =>
      have := hB l (.refl l)
      omega
  | succ n ih =>
      obtain ⟨hperm, -, hswap, hdone⟩ := foldl_swapStep gap hr false (List.range (l.length - gap))
      by_cases hs : (pass before gap l).2 = true
      · have hw := (hswap hs).resolve_left (by simp)
        obtain ⟨l', hl', hp, hord⟩ := ih (l := (pass before gap l).1) (hr.perm hperm)
          (fun l' hl' => hB l' (hl'.trans hperm)) (by simp only [pass]; omega)
        exact ⟨l', by rw [sweepLoop, if_pos hs, hl'], hp.trans hperm,
          fun i hi => hord i (by rw [pass, hperm.length_eq]; exact hi)⟩
      · obtain ⟨-, hl, hord⟩ := hdone (by simpa [pass] using hs)
        refine ⟨l, by rw [sweepLoop, if_neg hs, pass, hl], .refl l, fun i hi => hord i (by simp; omega)⟩

/-- What the gap and `adjust` come down to. -/
def gapRank (gap : ℕ) (adjust : Bool) : ℕ := if gap = 0 ∧ adjust = false then 0 else 2 * gap + if adjust then 1 else 2

theorem gapRank_lt {adjust : Bool} (h : gap / 2 + (!adjust).toNat ≠ 1) :
    gapRank (gap / 2 + (!adjust).toNat) (!adjust) < gapRank gap adjust := by
  cases adjust with
  | false =>
      simp only [gapRank, Bool.not_false, Bool.toNat_true] at h ⊢
      simp
      split_ifs <;> omega
  | true =>
      simp only [gapRank, Bool.not_true, Bool.toNat_false] at h ⊢
      simp
      split_ifs <;> omega

theorem gapLoop_spec (gap : ℕ) {B fuel : ℕ} (n : ℕ) (adjust : Bool) (hr : Ranks before rank l)
    (hB : ∀ l', l'.Perm l → weight rank 0 l' ≤ B) (hfuel : B < fuel) (hn : gapRank gap adjust < n) :
    ∃ l', gapLoop before fuel n gap adjust l = some l' ∧ l'.Perm l ∧
      ∀ i, i + 1 < l.length → Ordered before 1 l' i := by
  induction n generalizing gap adjust l with
  | zero => omega
  | succ n ih =>
      obtain ⟨l1, hl1, hp1, hord1⟩ := sweepLoop_spec (gap / 2 + (!adjust).toNat) fuel hr hB (by omega)
      by_cases hone : gap / 2 + (!adjust).toNat = 1
      · rw [hone] at hord1 hl1
        exact ⟨l1, by simp [gapLoop, hone, hl1], hp1, hord1⟩
      · obtain ⟨l2, hl2, hp2, hord2⟩ := ih (gap / 2 + (!adjust).toNat) (!adjust) (hr.perm hp1)
          (fun l' hl' => hB l' (hl'.trans hp1)) (by
            have := gapRank_lt hone
            omega)
        exact ⟨l2, by simp [gapLoop, hl1, hone, hl2], hp2.trans hp1, fun i hi => hord2 i (hp1.length_eq ▸ hi)⟩

theorem pairwise_of_ordered (lt : α → α → Prop) [IsStrictWeakOrder α lt] (l : List α)
    (h : ∀ i a b, l[i]? = some a → l[i + 1]? = some b → ¬ lt b a) : l.Pairwise fun a b => ¬ lt b a := by
  induction l with
  | nil => exact .nil
  | cons a l ih =>
      have hl := ih fun i => h (i + 1)
      refine List.pairwise_cons.mpr ⟨fun x hx => ?_, hl⟩
      cases l with
      | nil => exact nomatch hx
      | cons b l =>
          have hab : ¬ lt b a := h 0 a b rfl rfl
          obtain rfl | hx := List.mem_cons.mp hx
          · exact hab
          · intro hxa
            exact List.rel_of_pairwise_cons hl hx (lt_of_lt_of_not_lt hxa hab)

theorem sweepLoop_perm {n : ℕ} (hr : Ranks before rank l) {l' : List α} (h : sweepLoop before gap n l = some l') :
    l'.Perm l := by
  induction n generalizing l with
  | zero => exact nomatch h
  | succ n ih =>
      have hperm : (pass before gap l).1.Perm l := (foldl_swapStep gap hr false _).1
      rw [sweepLoop] at h
      split at h
      · exact (ih (hr.perm hperm) h).trans hperm
      · exact Option.some.inj h ▸ hperm

theorem gapLoop_perm {fuel n : ℕ} {adjust : Bool} (hr : Ranks before rank l) {l' : List α}
    (h : gapLoop before fuel n gap adjust l = some l') : l'.Perm l := by
  induction n generalizing gap adjust l with
  | zero => exact nomatch h
  | succ n ih =>
      obtain ⟨l1, hl1, h⟩ := Option.bind_eq_some_iff.mp h
      have hperm := sweepLoop_perm hr hl1
      split at h
      · exact (ih (hr.perm hperm) h).trans hperm
      · exact Option.some.inj h ▸ hperm

/-- The number of elements of the list that come before. -/
def rankIn [DecidableEq α] (before : α → α → Bool) (l : List α) (a : α) : ℕ := {b ∈ l.toFinset | before b a}.card

theorem ranks_rankIn [DecidableEq α] (before : α → α → Bool) [IsStrictWeakOrder α (before · ·)] (l : List α) :
    Ranks before (rankIn before l) l := by
  intro a ha b hb hba
  have hsub : {x ∈ l.toFinset | before x b} ⊆ {x ∈ l.toFinset | before x a} := by
    intro x hx
    simp only [Finset.mem_filter] at hx ⊢
    exact ⟨hx.1, IsTrans.trans (r := (before · ·)) x b a hx.2 hba⟩
  refine Finset.card_lt_card ((Finset.ssubset_iff_of_subset hsub).mpr ⟨b, ?_, ?_⟩)
  · simpa using ⟨hb, hba⟩
  · simpa using fun _ => irrefl_of (before · ·) b

theorem shellSort_spec [DecidableEq α] {before : α → α → Bool} [IsStrictWeakOrder α (before · ·)] {N fuel : ℕ}
    (hfuel : N * (N * N) + 2 * N + 1 < fuel) (l : List α) (hN : l.length ≤ N) :
    ∃ l', shellSort before fuel l = some l' ∧ l'.Pairwise fun a b => ¬ before b a := by
  have hrank := ranks_rankIn before l
  have hR : ∀ a, rankIn before l a ≤ N := fun a =>
    (Finset.card_filter_le _ _).trans ((List.toFinset_card_le l).trans hN)
  have hB (l' : List α) (hl' : l'.Perm l) : weight (rankIn before l) 0 l' ≤ N * (N * N) := by
    have hlen : l'.length ≤ N := hl'.length_eq ▸ hN
    calc weight (rankIn before l) 0 l' ≤ l'.length * ((0 + l'.length) * N) := weight_le 0 l' fun a _ => hR a
      _ ≤ N * (N * N) := Nat.mul_le_mul hlen (Nat.mul_le_mul_right N (by omega))
  obtain ⟨l', hl', hp, hord⟩ := gapLoop_spec l.length fuel true hrank hB
    (show N * (N * N) < fuel by omega) (show gapRank l.length true < fuel by simp [gapRank]; omega)
  refine ⟨l', hl', pairwise_of_ordered (before · ·) l' fun i a b ha hb => ?_⟩
  refine hord i ?_ a b ha hb
  rw [← hp.length_eq]
  exact (List.getElem?_eq_some_iff.mp hb).1

end ShellSort

/-- `SortList`; `cgAlloc` says which calls of the allocator get memory. -/
def sortList [DecidableEq α] (before : α → α → Bool) (cgAlloc : ℕ → Bool) (fuel : ℕ) (next : α → Option α)
    (list : Option α) : Option (Links α) :=
  (countLoop next fuel list).bind fun length =>
  if 1 < length then
    (Sorter.doSortList ⟨before, shellSort before, fun call _ => (cgAlloc call, call + 1)⟩
      fuel next list length 0).map (·.1)
  else some ⟨next, list⟩

theorem sortList_sorts_iff [DecidableEq α] (before : α → α → Bool) [IsStrictWeakOrder α (before · ·)]
    {cgAlloc : ℕ → Bool} {next : α → Option α} {list : Option α} {C : List α} (hC : Chain next list C) :
    Sorts (fun fuel => sortList before cgAlloc fuel next list) C (fun a b => ¬ before b a) ↔
      (Watcom.pattern (fun call _ => (cgAlloc call, call + 1)) C.length 0).1 ≠ .broken := by
  have hcount (fuel : ℕ) (hfuel : fuel ≥ C.length + 1) : countLoop next fuel list = some C.length :=
    countLoop_chain hC (by omega)
  by_cases hlen : 1 < C.length
  · have hrun (fuel : ℕ) (hfuel : fuel ≥ C.length + 1) : sortList before cgAlloc fuel next list =
        (Sorter.doSortList ⟨before, shellSort before, fun call _ => (cgAlloc call, call + 1)⟩
          fuel next list C.length 0).map (·.1) := by
      simp [sortList, hcount fuel hfuel, hlen]
    rw [← Sorter.sorts_iff (r := fun a b => ¬ before b a)
      (w := ⟨before, shellSort before, fun call _ => (cgAlloc call, call + 1)⟩) hC]
    · exact ⟨Sorts.congr (C.length + 1) hrun, Sorts.congr (C.length + 1) fun fuel hfuel => (hrun fuel hfuel).symm⟩
    · refine ⟨C.length * (C.length * C.length) + 2 * C.length + 2, fun fuel hfuel => ⟨?_, ?_, ?_, ?_, ?_, by omega⟩⟩
      · exact fun l l' h => ShellSort.gapLoop_perm (ShellSort.ranks_rankIn before l) h
      · intro l hl
        exact ShellSort.shellSort_spec (by omega) l hl
      · intro a b c hab hbc hca
        exact hbc (@lt_of_lt_of_not_lt α (before · ·) _ c a b hca hab)
      · exact fun a b hab hba => asymm_of (before · ·) hab hba
      · exact fun a b hab => hab
  · -- a list of at most one node is in order
    refine iff_of_true ⟨C.length + 1, fun fuel hfuel => ⟨⟨next, list⟩, C, ?_, hC, .refl C, ?_⟩⟩
      (Sorter.pattern_ne_broken _ (by omega))
    · simp [sortList, hcount fuel hfuel, hlen]
    · match C with
      | [] => exact .nil
      | [a] => exact List.pairwise_singleton _ a
      | _ :: _ :: _ => simp at hlen

/-- Both routines sort a list exactly when every piece of one node, except for the last node of the list, gets an
array, or is in a larger piece that gets one. -/
theorem lists_sorted_iff [DecidableEq α] {next : α → Option α} {list : Option α} {C : List α}
    (hC : Chain next list C) :
    (∀ (ptrSize : ℕ) (compare : α → α → ℤ) (qsort : List α → List α) (allocrtn : ℕ → Bool),
      TotalPreorder compare → QSorts compare qsort →
      (Sorts (fun fuel => sortLinkedList ptrSize compare qsort allocrtn fuel next list) C (fun a b => compare a b ≤ 0) ↔
        (Watcom.pattern (tryAllocrtn ptrSize allocrtn) C.length 0).1 ≠ .broken)) ∧
    ∀ (before : α → α → Bool) (cgAlloc : ℕ → Bool), IsStrictWeakOrder α (before · ·) →
      (Sorts (fun fuel => sortList before cgAlloc fuel next list) C (fun a b => ¬ before b a) ↔
        (Watcom.pattern (fun call _ => (cgAlloc call, call + 1)) C.length 0).1 ≠ .broken) :=
  ⟨fun _ _ _ _ hc hq => sortLinkedList_sorts_iff hC hc hq, fun before _ _ => sortList_sorts_iff before hC⟩

section Numbers

/-- Nodes that are numbers, which are compared as such. -/
def compareNumbers (a b : ℕ) : ℤ := a - b

theorem compareNumbers_preorder : TotalPreorder compareNumbers where
  swap a b := by simp only [compareNumbers]; omega
  trans a b c := by simp only [compareNumbers]; omega

/-- An array sort of numbers. -/
def sortNumbers (array : List ℕ) : List ℕ := array.mergeSort fun a b => a ≤ b

theorem sortNumbers_sorts : QSorts compareNumbers sortNumbers where
  perm array := List.mergeSort_perm array _
  sorted array := by
    have : (sortNumbers array).Pairwise fun a b => decide (a ≤ b) = true :=
      List.pairwise_mergeSort (by simp; omega) (by simp; omega) array
    refine this.imp fun h => ?_
    simp only [compareNumbers]
    simp only [decide_eq_true_eq] at h
    omega

/-- The first array is not allocated, those of its halves are. -/
theorem lists_sorted_iff_three :
    Sorts (fun fuel => sortLinkedList 8 compareNumbers sortNumbers (fun call => 0 < call) fuel
      (fun a => if a = 2 then some 0 else if a = 0 then some 1 else none) (some 2)) [2, 0, 1]
      (fun a b => compareNumbers a b ≤ 0) := by
  refine ((lists_sorted_iff (C := [2, 0, 1]) (by simp)).1 8 compareNumbers sortNumbers (fun call => 0 < call)
    compareNumbers_preorder sortNumbers_sorts).mpr ?_
  simp [Watcom.pattern, tryAllocrtn, intMax, Outcome.halves]

/-- Two nodes, and no memory: the first one is still linked to the second one when they are merged. -/
theorem not_lists_sorted_two :
    Chain (fun a : ℕ => if a = 0 then some 1 else none) (some 0) [0, 1] ∧
      TotalPreorder compareNumbers ∧ QSorts compareNumbers sortNumbers ∧
      ¬ Sorts (fun fuel => sortLinkedList 8 compareNumbers sortNumbers (fun _ => false) fuel
        (fun a : ℕ => if a = 0 then some 1 else none) (some 0)) [0, 1] (fun a b => compareNumbers a b ≤ 0) ∧
      ¬ Sorts (fun fuel => sortList (fun a b : ℕ => decide (a < b)) (fun _ => false) fuel
        (fun a : ℕ => if a = 0 then some 1 else none) (some 0)) [0, 1] (fun a b => ¬ decide (b < a)) := by
  have hC : Chain (fun a : ℕ => if a = 0 then some 1 else none) (some 0) [0, 1] := by simp
  have horder : IsStrictWeakOrder ℕ (fun a b => decide (a < b) = true) :=
    { irrefl := by simp
      trans := by simp; omega
      incomp_trans := by simp; omega }
  refine ⟨hC, compareNumbers_preorder, sortNumbers_sorts, ?_, ?_⟩
  · rw [sortLinkedList_sorts_iff hC compareNumbers_preorder sortNumbers_sorts, not_not]
    simp [Watcom.pattern, tryAllocrtn, intMax, Outcome.halves]
  · rw [sortList_sorts_iff (fun a b : ℕ => decide (a < b)) hC, not_not]
    simp [Watcom.pattern, Outcome.halves]

end Numbers

end OpenWatcom.Cg
