import Mathlib.Data.List.Perm.Basic

/-! # Stable selection sort

A list is sorted by taking the first of its least elements, again and again, for a strict weak order `lt`.

* `StableSorted lt l r`: `r` is `l` in order, and elements that are tied stay in their order;
* `Earliest lt pre m post`: `m` is the first least element of `pre ++ m :: post`;
* `Selecting.step`: taking it out of the list keeps what makes the sort correct. -/

namespace OpenWatcom

variable {α : Type*} {lt : α → α → Prop}

/-- Neither is less. -/
def Tied (lt : α → α → Prop) (a b : α) : Prop := ¬ lt a b ∧ ¬ lt b a

instance [DecidableRel lt] : DecidableRel (Tied lt) :=
  fun _ _ => inferInstanceAs (Decidable (_ ∧ _))

/-- `r` holds the elements of `l` in order, those tied with each other in the order of `l`. -/
structure StableSorted (lt : α → α → Prop) [DecidableRel lt] (l r : List α) : Prop where
  perm : r.Perm l
  sorted : r.Pairwise fun a b => ¬ lt b a
  stable : ∀ x, r.filter (Tied lt x ·) = l.filter (Tied lt x ·)

/-- The first least element. -/
structure Earliest (lt : α → α → Prop) (pre : List α) (m : α) (post : List α) : Prop where
  before : ∀ y ∈ pre, lt m y
  behind : ∀ y ∈ post, ¬ lt y m

theorem lt_of_lt_of_not_lt [IsStrictWeakOrder α lt] {a b c : α} (hab : lt a b) (hcb : ¬ lt c b) :
    lt a c := by
  by_contra hac
  have hca : ¬ lt c a := fun h => hcb (IsTrans.trans _ _ _ h hab)
  have hbc : ¬ lt b c := fun h => hac (IsTrans.trans _ _ _ hab h)
  exact (IsStrictWeakOrder.incomp_trans a c b ⟨hac, hca⟩ ⟨hcb, hbc⟩).1 hab

theorem Tied.trans [IsStrictWeakOrder α lt] {a b c : α} (hab : Tied lt a b) (hbc : Tied lt b c) :
    Tied lt a c :=
  IsStrictWeakOrder.incomp_trans a b c hab hbc

theorem Tied.symm {a b : α} (h : Tied lt a b) : Tied lt b a := ⟨h.2, h.1⟩

namespace Earliest

theorem single (m : α) : Earliest lt [] m [] where
  before := by simp
  behind := by simp

variable {pre post : List α} {m g : α}

theorem keep (h : Earliest lt pre m post) (hg : ¬ lt g m) : Earliest lt pre m (post ++ [g]) where
  before := h.before
  behind y hy := by
    rcases List.mem_append.1 hy with hy | hy
    · exact h.behind y hy
    · rwa [List.mem_singleton.1 hy]

theorem take [IsStrictWeakOrder α lt] (h : Earliest lt pre m post) (hg : lt g m) :
    Earliest lt (pre ++ m :: post) g [] where
  before y hy := by
    rcases List.mem_append.1 hy with hy | hy
    · exact IsTrans.trans _ _ _ hg (h.before y hy)
    · rcases List.mem_cons.1 hy with rfl | hy
      · exact hg
      · exact lt_of_lt_of_not_lt hg (h.behind y hy)
  behind := by simp

end Earliest

/-- `done` are the elements of `l` taken so far, `rest` those that are left. -/
structure Selecting (lt : α → α → Prop) [DecidableRel lt] (l done rest : List α) : Prop where
  perm : (done ++ rest).Perm l
  sorted : done.Pairwise fun a b => ¬ lt b a
  below : ∀ a ∈ done, ∀ b ∈ rest, ¬ lt b a
  stable : ∀ x, (done ++ rest).filter (Tied lt x ·) = l.filter (Tied lt x ·)

namespace Selecting

variable [DecidableRel lt] {l done pre post : List α} {m : α}

theorem init (l : List α) : Selecting lt l [] l where
  perm := List.Perm.refl l
  sorted := List.Pairwise.nil
  below := by simp
  stable _ := rfl

/-- No element before the first least one is tied with it. -/
theorem filter_pre [IsStrictWeakOrder α lt] (hm : Earliest lt pre m post) {x : α}
    (hx : Tied lt x m) : pre.filter (Tied lt x ·) = [] := by
  rw [List.filter_eq_nil_iff]
  intro y hy htied
  have hmy : Tied lt m y := hx.symm.trans (of_decide_eq_true htied)
  exact hmy.1 (hm.before y hy)

theorem step [IsStrictWeakOrder α lt] (h : Selecting lt l done (pre ++ m :: post))
    (hm : Earliest lt pre m post) : Selecting lt l (done ++ [m]) (pre ++ post) where
  perm := by
    refine List.Perm.trans ?_ h.perm
    rw [List.append_assoc, List.singleton_append]
    exact List.Perm.append_left done List.perm_middle.symm
  sorted := by
    rw [List.pairwise_append]
    refine ⟨h.sorted, List.pairwise_singleton _ _, fun a ha b hb => ?_⟩
    rw [List.mem_singleton.1 hb]
    exact h.below a ha m (by simp)
  below a ha b hb := by
    rcases List.mem_append.1 ha with ha | ha
    · refine h.below a ha b ?_
      rcases List.mem_append.1 hb with hb | hb
      · exact List.mem_append_left _ hb
      · exact List.mem_append_right _ (List.mem_cons_of_mem _ hb)
    · rw [List.mem_singleton.1 ha]
      rcases List.mem_append.1 hb with hb | hb
      · exact asymm (hm.before b hb)
      · exact hm.behind b hb
  stable x := by
    rw [← h.stable x]
    by_cases hx : Tied lt x m
    · simp [List.filter_append, filter_pre hm hx, hx]
    · simp [List.filter_append, hx]

theorem finish (h : Selecting lt l done []) : StableSorted lt l done where
  perm := by simpa using h.perm
  sorted := h.sorted
  stable x := by simpa using h.stable x

end Selecting

end OpenWatcom
