import OpenWatcom.Lib.Records

/-! # Rearrangements of a part of an array

`Rearranged lo hi a b` says that the array `b` has the elements of `a`, in another order from `lo` to `hi`.

* `Rearranged.swap`: two elements are exchanged;
* `Rearranged.mem`: an element of the part comes from the part;
* `Rearranged.perm_slice`: the elements of the part as lists. -/

namespace OpenWatcom

variable {α : Type*}

/-- The array `b` has the elements of `a`, in another order from `lo` up to `hi`. -/
def Rearranged (lo hi : ℕ) (a b : ℕ → α) : Prop :=
  ∃ σ : Equiv.Perm ℕ, (∀ i, i < lo ∨ hi ≤ i → σ i = i) ∧ b = a ∘ σ

namespace Rearranged

variable {lo hi : ℕ} {a b c : ℕ → α}

theorem refl (a : ℕ → α) : Rearranged lo hi a a := ⟨Equiv.refl ℕ, fun _ _ => rfl, rfl⟩

theorem trans (hab : Rearranged lo hi a b) (hbc : Rearranged lo hi b c) : Rearranged lo hi a c := by
  obtain ⟨σ, hσ, rfl⟩ := hab
  obtain ⟨τ, hτ, rfl⟩ := hbc
  refine ⟨τ.trans σ, fun i hout => ?_, rfl⟩
  rw [Equiv.trans_apply, hτ i hout, hσ i hout]

theorem symm (h : Rearranged lo hi a b) : Rearranged lo hi b a := by
  obtain ⟨σ, hσ, rfl⟩ := h
  refine ⟨σ.symm, fun i hout => ?_, ?_⟩
  · rw [Equiv.symm_apply_eq]
    exact (hσ i hout).symm
  · funext i
    exact congrArg a (σ.apply_symm_apply i).symm

theorem mono {lo' hi' : ℕ} (h : Rearranged lo hi a b) (hlo : lo' ≤ lo) (hhi : hi ≤ hi') :
    Rearranged lo' hi' a b := by
  obtain ⟨σ, hσ, rfl⟩ := h
  exact ⟨σ, fun i hi => hσ i (by omega), rfl⟩

theorem swap (a : ℕ → α) {i j : ℕ} (h : lo ≤ i ∧ i < hi) (h' : lo ≤ j ∧ j < hi) :
    Rearranged lo hi a (a ∘ Equiv.swap i j) :=
  ⟨Equiv.swap i j, fun k hk => Equiv.swap_apply_of_ne_of_ne (by omega) (by omega), rfl⟩

theorem outside (h : Rearranged lo hi a b) {i : ℕ} (hout : i < lo ∨ hi ≤ i) : b i = a i := by
  obtain ⟨σ, hσ, rfl⟩ := h
  exact congrArg a (hσ i hout)

theorem mem (h : Rearranged lo hi a b) {i : ℕ} (hin : lo ≤ i ∧ i < hi) : ∃ j, (lo ≤ j ∧ j < hi) ∧ b i = a j := by
  obtain ⟨σ, hσ, rfl⟩ := h
  refine ⟨σ i, ?_, rfl⟩
  by_contra hout
  have hfix : σ i = i := σ.injective (hσ (σ i) (by omega))
  omega

/-- What all elements of the part have they keep. -/
theorem forall_mem {p : α → Prop} (h : Rearranged lo hi a b) (ha : ∀ i, lo ≤ i → i < hi → p (a i)) :
    ∀ i, lo ≤ i → i < hi → p (b i) := by
  intro i hlo hhi
  obtain ⟨j, hj, heq⟩ := h.mem ⟨hlo, hhi⟩
  rw [heq]
  exact ha j hj.1 hj.2

theorem perm_slice {n : ℕ} (h : Rearranged 0 n a b) : (slice b 0 n).Perm (slice a 0 n) := by
  obtain ⟨σ, hσ, rfl⟩ := h
  have hrange : ((List.range n).map σ).Perm (List.range n) := by
    refine (List.perm_ext_iff_of_nodup (List.nodup_range.map σ.injective) List.nodup_range).mpr fun i => ?_
    rw [List.mem_map, List.mem_range]
    constructor
    · rintro ⟨j, hj, rfl⟩
      by_contra hout
      have hfix : σ j = j := σ.injective (hσ (σ j) (by omega))
      rw [List.mem_range] at hj
      omega
    · intro hi
      refine ⟨σ.symm i, ?_, σ.apply_symm_apply i⟩
      rw [List.mem_range]
      by_contra hout
      have hfix := hσ (σ.symm i) (by omega)
      rw [σ.apply_symm_apply] at hfix
      omega
  have hmap := hrange.map a
  unfold slice
  simpa [Function.comp_def] using hmap

end Rearranged

end OpenWatcom
