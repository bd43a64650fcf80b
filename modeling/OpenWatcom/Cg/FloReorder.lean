import OpenWatcom.Lib.Iteration
import OpenWatcom.Cg.FloIntervals

/-! # The order of the blocks by intervals

`ReorderBlocks` links the blocks so that every interval is a range of the list, and `EdgeLevels` finds for each edge the
last level at which its ends are in different intervals. -/

namespace OpenWatcom.FloGraph

open Chains
open Function (update)

variable {β : Type*} [DecidableEq β]

/-- Two elements that follow each other in a joined list are in one part, or end one part and begin the next one. -/
theorem consecutive_flatMap {α γ : Type*} {f : α → List γ} {L : List α} (hne : ∀ x ∈ L, f x ≠ []) {x y : List γ}
    {b c : γ} (h : L.flatMap f = x ++ b :: c :: y) :
    (∃ g ∈ L, ∃ x' y', f g = x' ++ b :: c :: y') ∨
      ∃ s₁ g₁ g₂ s₂, L = s₁ ++ g₁ :: g₂ :: s₂ ∧ (f g₁).getLast? = some b ∧ (f g₂).head? = some c := by
  induction L generalizing x with
  | nil => simp at h
  | cons g L ih =>
      have hL : ∀ x ∈ L, f x ≠ [] := fun x hx => hne x (List.mem_cons_of_mem g hx)
      have hrest : ∀ x, L.flatMap f = x ++ b :: c :: y → (∃ g' ∈ g :: L, ∃ x' y', f g' = x' ++ b :: c :: y') ∨
          ∃ s₁ g₁ g₂ s₂, g :: L = s₁ ++ g₁ :: g₂ :: s₂ ∧ (f g₁).getLast? = some b ∧ (f g₂).head? = some c := by
        intro x hx
        obtain ⟨g', hg', hsplit⟩ | ⟨s₁, g₁, g₂, s₂, hsplit, hends⟩ := ih hL hx
        · exact .inl ⟨g', List.mem_cons_of_mem g hg', hsplit⟩
        · exact .inr ⟨g :: s₁, g₁, g₂, s₂, by rw [hsplit]; rfl, hends⟩
      rw [List.flatMap_cons] at h
      obtain ⟨t, -, ht⟩ | ⟨t, hg, ht⟩ := List.append_eq_append_iff.mp h
      · exact hrest t ht
      · rcases t with _ | ⟨b', _ | ⟨c', t⟩⟩
        · exact hrest [] ht.symm
        · rw [List.singleton_append, List.cons.injEq] at ht
          obtain ⟨rfl, hcy⟩ := ht
          cases L with
          | nil => cases hcy
          | cons g₂ L =>
              have hhead : (c :: y).head? = ((g₂ :: L).flatMap f).head? := congrArg List.head? hcy
              rw [List.flatMap_cons, List.head?_append_of_ne_nil _ (hL g₂ List.mem_cons_self)] at hhead
              exact .inr ⟨[], g, g₂, L, rfl, by rw [hg, List.getLast?_concat], hhead.symm⟩
        · rw [List.cons_append, List.cons_append, List.cons.injEq, List.cons.injEq] at ht
          obtain ⟨rfl, rfl, -⟩ := ht
          exact .inl ⟨g, List.mem_cons_self, x, t, hg⟩

namespace Intervals

/-- The blocks of an interval, in the order of its parts. -/
def blocks (iv : Intervals β) : ℕ → β → List β
  | 0, first => [first]
  | level + 1, first => (iv.subs (level + 1) first).flatMap (blocks iv level)

variable {s : Flow β} {h : β} {q l : List β} {n m k top : ℕ} {iv : Intervals β} {a b c p g u v : β}

omit [DecidableEq β] in
theorem Levels.succ_congr (hlv : Levels s h l n iv) (hm : m < n) (ha : a ∈ l) (hb : b ∈ l)
    (heq : iv.intervalNo a m = iv.intervalNo b m) : iv.intervalNo a (m + 1) = iv.intervalNo b (m + 1) := by
  have hparent := hlv.parent m hm a ha
  rw [heq, hlv.parent m hm b hb] at hparent
  exact (Option.some.inj hparent).symm

omit [DecidableEq β] in
theorem Levels.congr_le (hlv : Levels s h l n iv) (ha : a ∈ l) (hb : b ∈ l) (hmk : m ≤ k) (hk : k ≤ n)
    (heq : iv.intervalNo a m = iv.intervalNo b m) : iv.intervalNo a k = iv.intervalNo b k := by
  induction k, hmk using Nat.le_induction with
  | base => exact heq
  | succ k _ ih => exact hlv.succ_congr hk ha hb (ih (Nat.le_of_succ_le hk))

omit [DecidableEq β] in
theorem Levels.root_le (hlv : Levels s h l n iv) (hg : g ∈ l) (hmk : m ≤ k) (hk : k ≤ n)
    (hroot : iv.intervalNo g k = g) : iv.intervalNo g m = g := by
  induction k, hmk using Nat.le_induction with
  | base => exact hroot
  | succ k _ ih => exact ih (Nat.le_of_succ_le hk) (hlv.below hk hg hroot)

omit [DecidableEq β] in
theorem Levels.mem_blocks (hlv : Levels s h l n iv) (hm : m ≤ n) (hp : p ∈ l) (hroot : iv.intervalNo p m = p) :
    b ∈ iv.blocks m p ↔ b ∈ l ∧ iv.intervalNo b m = p := by
  induction m generalizing p with
  | zero =>
      rw [blocks, List.mem_singleton]
      constructor
      · rintro rfl
        exact ⟨hp, rfl⟩
      · rintro ⟨-, rfl⟩
        rfl
  | succ m ih =>
      rw [blocks, List.mem_flatMap]
      constructor
      · rintro ⟨g, hg, hb⟩
        obtain ⟨hgl, hgm, hgp⟩ := (hlv.mem_subs m hm p hp hroot g).mp hg
        obtain ⟨hbl, hbg⟩ := (ih (Nat.le_of_succ_le hm) hgl hgm).mp hb
        exact ⟨hbl, (hlv.succ_congr hm hbl hgl (hbg.trans hgm.symm)).trans hgp⟩
      · rintro ⟨hbl, hbp⟩
        have hm' := Nat.le_of_succ_le hm
        have hgl := hlv.mem m hm' b hbl
        have hidem := hlv.idem m hm' b hbl
        refine ⟨iv.intervalNo b m, (hlv.mem_subs m hm p hp hroot _).mpr ⟨hgl, hidem, ?_⟩, (ih hm' hgl hidem).mpr
          ⟨hbl, rfl⟩⟩
        rw [hlv.succ_congr hm hgl hbl hidem, hbp]

omit [DecidableEq β] in
theorem Levels.head_blocks (hlv : Levels s h l n iv) (hm : m ≤ n) (hp : p ∈ l) (hroot : iv.intervalNo p m = p) :
    (iv.blocks m p).head? = some p := by
  induction m with
  | zero => rfl
  | succ m ih =>
      obtain ⟨rest, hsubs⟩ := List.head?_eq_some_iff.mp (hlv.head_subs m hm p hp hroot)
      have hfirst := ih (Nat.le_of_succ_le hm) (hlv.below hm hp hroot)
      rw [blocks, hsubs, List.flatMap_cons, List.head?_append, hfirst, Option.some_or]

omit [DecidableEq β] in
theorem Levels.nodup_blocks (hlv : Levels s h l n iv) (hm : m ≤ n) (hp : p ∈ l) (hroot : iv.intervalNo p m = p) :
    (iv.blocks m p).Nodup := by
  induction m generalizing p with
  | zero => exact List.nodup_singleton p
  | succ m ih =>
      have hm' := Nat.le_of_succ_le hm
      have hmem := fun g => hlv.mem_subs m hm p hp hroot g
      refine List.nodup_flatMap.mpr ⟨fun g hg => ih hm' ((hmem g).mp hg).1 ((hmem g).mp hg).2.1, ?_⟩
      refine (hlv.nodup_subs m hm p hp hroot).imp_of_mem fun {g g'} hg hg' hne x hx hx' => hne ?_
      obtain ⟨hgl, hgm, -⟩ := (hmem g).mp hg
      obtain ⟨hgl', hgm', -⟩ := (hmem g').mp hg'
      exact ((hlv.mem_blocks hm' hgl hgm).mp hx).2.symm.trans ((hlv.mem_blocks hm' hgl' hgm').mp hx').2

omit [DecidableEq β] in
/-- Every interval is a range of the interval around it. -/
theorem Levels.range_blocks (hlv : Levels s h l n iv) (hmk : m ≤ k) (hk : k ≤ n) (hp : p ∈ l)
    (hroot : iv.intervalNo p m = p) :
    ∃ before after, iv.blocks k (iv.intervalNo p k) = before ++ iv.blocks m p ++ after := by
  induction k, hmk using Nat.le_induction with
  | base => exact ⟨[], [], by rw [hroot]; simp⟩
  | succ k _ ih =>
      have hk' := Nat.le_of_succ_le hk
      obtain ⟨before, after, hrange⟩ := ih hk'
      have hPl := hlv.mem (k + 1) hk p hp
      have hgl := hlv.mem k hk' p hp
      have hmem : iv.intervalNo p k ∈ iv.subs (k + 1) (iv.intervalNo p (k + 1)) :=
        (hlv.mem_subs k hk _ hPl (hlv.idem (k + 1) hk p hp) _).mpr
          ⟨hgl, hlv.idem k hk' p hp, hlv.succ_congr hk hgl hp (hlv.idem k hk' p hp)⟩
      obtain ⟨s₁, s₂, hsubs⟩ := List.append_of_mem hmem
      refine ⟨s₁.flatMap (iv.blocks k) ++ before, after ++ s₂.flatMap (iv.blocks k), ?_⟩
      rw [blocks, hsubs, List.flatMap_append, List.flatMap_cons, hrange]
      simp

omit [DecidableEq β] in
theorem Levels.descend (hlv : Levels s h l n iv) (hm : m ≤ n) (hp : p ∈ l) (hroot : iv.intervalNo p m = p) :
    iv.descend m p = p := by
  induction m with
  | zero => rfl
  | succ m ih =>
      rw [Intervals.descend, List.headD_eq_head?_getD, hlv.head_subs m hm p hp hroot, Option.getD_some]
      exact ih (Nat.le_of_succ_le hm) (hlv.below hm hp hroot)

theorem Levels.nextSub (hlv : Levels s h l n iv) (hm : m < n) (hp : p ∈ l) (hroot : iv.intervalNo p (m + 1) = p)
    {s₁ s₂ : List β} (hsubs : iv.subs (m + 1) p = s₁ ++ g :: s₂) :
    iv.parent m g = some p ∧ iv.nextSub m g = s₂.head? := by
  have hg : g ∈ iv.subs (m + 1) p := by rw [hsubs]; simp
  obtain ⟨hgl, hgm, hgp⟩ := (hlv.mem_subs m hm p hp hroot g).mp hg
  have hparent := hlv.parent m hm g hgl
  rw [hgm, hgp] at hparent
  have hnot : g ∉ s₁ := fun hmem => by
    have := hlv.nodup_subs m hm p hp hroot
    rw [hsubs] at this
    exact (List.nodup_append'.mp this).2.2 hmem List.mem_cons_self
  refine ⟨hparent, ?_⟩
  rw [Intervals.nextSub, hparent, Option.bind_some, hsubs, List.idxOf_append_of_notMem hnot, List.idxOf_cons_self,
    Nat.add_zero, List.getElem?_append_right (Nat.le_succ _), show s₁.length + 1 - s₁.length = 1 by omega,
    List.getElem?_cons_succ, List.head?_eq_getElem?]

/-- From the last block of an interval `ReorderBlocks` climbs to the interval, whose `last_block` it sets. -/
theorem Levels.climb_last (hlv : Levels s h l top iv) (hm : m ≤ top) (hp : p ∈ l) (hroot : iv.intervalNo p m = p)
    (hb : (iv.blocks m p).getLast? = some b) (last : ℕ → β → β) :
    ∃ last', iv.climb b (top + 1) 0 b last = iv.climb b (top + 1 - m) m p last' ∧
      (∀ k f, last' k f = if 1 ≤ k ∧ k ≤ m ∧ f = iv.intervalNo b k then b else last k f) ∧
        ∀ k ≤ m, (iv.blocks k (iv.intervalNo b k)).getLast? = some b := by
  induction m generalizing p with
  | zero =>
      obtain rfl : p = b := by simpa [blocks] using hb
      refine ⟨last, rfl, fun k f => (if_neg (by omega)).symm, fun k hk => ?_⟩
      obtain rfl := Nat.le_zero.mp hk
      rfl
  | succ m ih =>
      have hm' := Nat.le_of_succ_le hm
      have hbmem : b ∈ iv.blocks (m + 1) p := List.mem_of_getLast? hb
      obtain ⟨hbl, hbp⟩ := (hlv.mem_blocks hm hp hroot).mp hbmem
      obtain ⟨s₁, g, hsubs⟩ : ∃ s₁ g, iv.subs (m + 1) p = s₁ ++ [g] := by
        obtain hnil | ⟨s₁, g, hsubs⟩ := List.eq_nil_or_concat (iv.subs (m + 1) p)
        · have := hlv.head_subs m hm p hp hroot
          rw [hnil] at this
          cases this
        · exact ⟨s₁, g, by simpa using hsubs⟩
      obtain ⟨hgl, hgm, hgp⟩ := (hlv.mem_subs m hm p hp hroot g).mp (by rw [hsubs]; simp)
      have hlast : (iv.blocks m g).getLast? = some b := by
        have hne : iv.blocks m g ≠ [] := by
          have := hlv.head_blocks hm' hgl hgm
          rintro hnil
          rw [hnil] at this
          cases this
        rw [blocks, hsubs, List.flatMap_append, List.flatMap_singleton, List.getLast?_append_of_ne_nil _ hne] at hb
        exact hb
      obtain ⟨last', hclimb, hlast', hends⟩ := ih hm' hgl hgm hlast
      obtain ⟨hparent, hnext⟩ := hlv.nextSub hm hp hroot hsubs
      refine ⟨update last' (m + 1) (update (last' (m + 1)) p b), ?_, fun k f => ?_, fun k hk => ?_⟩
      · rw [hclimb, show top + 1 - m = (top + 1 - (m + 1)) + 1 by omega, climb, hnext, hparent]
        rfl
      · obtain rfl | hne := eq_or_ne k (m + 1)
        · rw [Function.update_self, Function.update_apply, hlast' (m + 1) f, hbp]
          simp
        · rw [Function.update_of_ne hne, hlast' k f]
          refine if_congr ?_ rfl rfl
          rw [show k ≤ m + 1 ↔ k ≤ m by omega]
      · obtain hk | rfl := Nat.le_succ_iff.mp hk
        · exact hends k hk
        · rw [hbp]
          exact hb

omit [DecidableEq β] in
theorem Levels.blocks_ne_nil (hlv : Levels s h l n iv) (hm : m ≤ n) (hp : p ∈ l) (hroot : iv.intervalNo p m = p) :
    iv.blocks m p ≠ [] := by
  intro hnil
  have := hlv.head_blocks hm hp hroot
  rw [hnil] at this
  cases this

omit [DecidableEq β] in
/-- Of two blocks that follow each other one ends an interval and the other begins the next one around it. -/
theorem Levels.consecutive (hlv : Levels s h l top iv) (hm : m ≤ top) (hp : p ∈ l) (hroot : iv.intervalNo p m = p)
    {x y : List β} (hsplit : iv.blocks m p = x ++ b :: c :: y) :
    ∃ k < m, ∃ P ∈ l, iv.intervalNo P (k + 1) = P ∧ ∃ s₁ g s₂, iv.subs (k + 1) P = s₁ ++ g :: c :: s₂ ∧
      (iv.blocks k g).getLast? = some b := by
  induction m generalizing p x y with
  | zero =>
      have := congrArg List.length hsplit
      simp [blocks] at this
      omega
  | succ m ih =>
      have hmem := hlv.mem_subs m hm p hp hroot
      have hm' := Nat.le_of_succ_le hm
      have hne : ∀ g ∈ iv.subs (m + 1) p, iv.blocks m g ≠ [] := fun g hg =>
        hlv.blocks_ne_nil hm' ((hmem g).mp hg).1 ((hmem g).mp hg).2.1
      rw [blocks] at hsplit
      obtain ⟨g, hg, x', y', hin⟩ | ⟨s₁, g₁, g₂, s₂, hsubs, hlast, hfirst⟩ := consecutive_flatMap hne hsplit
      · obtain ⟨k, hk, hrest⟩ := ih hm' ((hmem g).mp hg).1 ((hmem g).mp hg).2.1 hin
        exact ⟨k, Nat.lt_succ_of_lt hk, hrest⟩
      · have hg₂ := (hmem g₂).mp (by rw [hsubs]; simp)
        have hhead := hlv.head_blocks hm' hg₂.1 hg₂.2.1
        rw [hfirst] at hhead
        obtain rfl := Option.some.inj hhead
        exact ⟨m, Nat.lt_succ_self m, p, hp, hroot, s₁, g₁, s₂, hsubs, hlast⟩

/-- From a block `ReorderBlocks` comes to the one that follows. -/
theorem Levels.climb_next (hlv : Levels s h l top iv) (hh : h ∈ l) {x y : List β}
    (hsplit : iv.blocks top h = x ++ b :: c :: y) (last : ℕ → β → β) :
    ∃ last' m, iv.climb b (top + 1) 0 b last = (some c, last') ∧ m < top ∧
      iv.intervalNo b (m + 1) = iv.intervalNo c (m + 1) ∧
      (∀ k f, last' k f = if 1 ≤ k ∧ k ≤ m ∧ f = iv.intervalNo b k then b else last k f) ∧
        ∀ k ≤ m, (iv.blocks k (iv.intervalNo b k)).getLast? = some b := by
  obtain ⟨m, hm, P, hP, hroot, s₁, g, s₂, hsubs, hlast⟩ :=
    hlv.consecutive le_rfl hh (hlv.head top le_rfl) hsplit
  obtain ⟨hgl, hgm, hgP⟩ := (hlv.mem_subs m hm P hP hroot g).mp (by rw [hsubs]; simp)
  obtain ⟨hcl, hcm, hcP⟩ := (hlv.mem_subs m hm P hP hroot c).mp (by rw [hsubs]; simp)
  obtain ⟨last', hclimb, hlast', hends⟩ := hlv.climb_last hm.le hgl hgm hlast last
  obtain ⟨-, hnext⟩ := hlv.nextSub hm hP hroot hsubs
  obtain ⟨hbl, hbg⟩ := (hlv.mem_blocks hm.le hgl hgm).mp (List.mem_of_getLast? hlast)
  refine ⟨last', m, ?_, hm, ?_, hlast', hends⟩
  · rw [hclimb, show top + 1 - m = (top - m) + 1 by omega, climb, hnext, List.head?_cons]
    dsimp only
    rw [hlv.descend hm.le hcl hcm]
  · rw [hcP, ← hgP]
    exact hlv.succ_congr hm hbl hgl (hbg.trans hgm.symm)

/-- `ReorderBlocks` makes a block list of the blocks in the order of the intervals, numbers them, and sets `last_block`
of every interval. -/
theorem Levels.reorderBlocks (hlv : Levels s h (h :: q) top iv) (hhead : s.headBlock = some h) (hprev : s.prev h = none)
    (hid : s.blkId h = 1) (hall : ∀ b ∈ h :: q, iv.intervalNo b top = h) :
    ∃ last s', Ends (fun fuel => reorderBlocks top fuel iv s) (last, s') ∧ Linked s' (iv.blocks top h) ∧
      (∀ i x, (iv.blocks top h)[i]? = some x → s'.blkId x = (i + 1) % 2 ^ 16) ∧
        (∀ m ≤ top, ∀ p ∈ h :: q, iv.intervalNo p m = p → (iv.blocks m p).getLast? = some (last m p)) ∧
          s' = { s with blockList := s'.blockList, next := s'.next, prev := s'.prev, blkId := s'.blkId } := by
  have hh : h ∈ h :: q := List.mem_cons_self
  have hnodup := hlv.nodup_blocks le_rfl hh (hlv.head top le_rfl)
  have hmemTop : ∀ b, b ∈ iv.blocks top h ↔ b ∈ h :: q := fun b =>
    (hlv.mem_blocks le_rfl hh (hlv.head top le_rfl)).trans ⟨fun hb => hb.1, fun hb => ⟨hb, hall b hb⟩⟩
  -- what `last_block` is when the blocks of `done` have been left
  let LastOf := fun (done : List β) (last : ℕ → β → β) => ∀ m ≤ top, ∀ p ∈ h :: q, iv.intervalNo p m = p →
    ∀ b, (iv.blocks m p).getLast? = some b → m = 0 ∨ b ∈ done → last m p = b
  have hloop : ∀ (rest done : List β) (b : β) (last : ℕ → β → β) (s₁ : Flow β),
      iv.blocks top h = done ++ b :: rest → s₁.headBlock = some h → Path s₁.next (some h) done (some b) →
      Chain s₁.prev (some b) (b :: done.reverse) → s₁.blkId b = (done.length + 1) % 2 ^ 16 →
      (∀ i x, done[i]? = some x → s₁.blkId x = (i + 1) % 2 ^ 16) → LastOf done last →
      ∃ last' s', Ends (fun fuel => reorderFrom top iv fuel b last s₁) (last', s') ∧ Linked s' (iv.blocks top h) ∧
        (∀ i x, (iv.blocks top h)[i]? = some x → s'.blkId x = (i + 1) % 2 ^ 16) ∧ LastOf (iv.blocks top h) last' ∧
          s' = { s₁ with blockList := s'.blockList, next := s'.next, prev := s'.prev, blkId := s'.blkId } := by
    intro rest
    induction rest with
    | nil =>
        intro done b last s₁ hsplit hhead₁ hpath hback hidb hids hlast
        have hbdone : b ∉ done := fun hmem => by
          rw [hsplit] at hnodup
          exact (List.nodup_append'.mp hnodup).2.2 hmem List.mem_cons_self
        obtain ⟨last', hclimb, hlast', hends⟩ := hlv.climb_last (b := b) le_rfl hh (hlv.head top le_rfl)
          (by rw [hsplit, List.getLast?_concat]) last
        have hnone : iv.climb b (top + 1) 0 b last = (none, last') := by
          rw [hclimb, show top + 1 - top = 0 + 1 by omega, climb, Intervals.nextSub, hlv.unset top le_rfl h]
          rfl
        refine ⟨last', { s₁ with next := update s₁.next b none, blockList := some b },
          (Ends.const _).succ fun fuel => ?_, ⟨?_, ?_⟩, fun i x hi => ?_, ?_, rfl⟩
        · rw [reorderFrom, hnone]
        · rw [hsplit, hhead₁]
          exact path_append.mpr ⟨some b, Path.update hpath hbdone _, rfl, Function.update_self _ _ _⟩
        · rw [hsplit, List.reverse_append]
          exact hback
        · rw [hsplit, List.getElem?_append] at hi
          split at hi
          case isTrue => exact hids i x hi
          case isFalse hge =>
            obtain ⟨hi0, hx⟩ := List.getElem?_eq_some_iff.mp hi
            simp only [List.length_singleton] at hi0
            obtain rfl : i = done.length := by omega
            simp only [Nat.sub_self, List.getElem_cons_zero] at hx
            exact hx ▸ hidb
        · intro m hm p hp hroot z hz hcase
          rw [hlast' m p]
          split
          case isTrue hcond =>
            have := hends m hcond.2.1
            rw [← hcond.2.2, hz] at this
            exact (Option.some.inj this).symm
          case isFalse hcond =>
            refine hlast m hm p hp hroot z hz ?_
            rcases hcase with h0 | hz'
            · exact .inl h0
            · rw [hsplit] at hz'
              obtain hz' | hzb := List.mem_append.mp hz'
              · exact .inr hz'
              · obtain rfl := List.mem_singleton.mp hzb
                have hzp := ((hlv.mem_blocks hm hp hroot).mp (List.mem_of_getLast? hz)).2
                exact .inl (by_contra fun hm0 => hcond ⟨by omega, hm, hzp.symm⟩)
    | cons c rest ih =>
        intro done b last s₁ hsplit hhead₁ hpath hback hidb hids hlast
        have hnodup' := hnodup
        rw [hsplit] at hnodup'
        obtain ⟨-, hbc, hdisjoint⟩ := List.nodup_append'.mp hnodup'
        have hbdone : b ∉ done := fun hmem => hdisjoint hmem List.mem_cons_self
        have hcdone : c ∉ done := fun hmem => hdisjoint hmem (List.mem_cons_of_mem b List.mem_cons_self)
        have hbrest := (List.nodup_cons.mp hbc).1
        have hcb : c ≠ b := fun heq => hbrest (heq ▸ List.mem_cons_self)
        obtain ⟨last', m, hclimb, hm, hsame, hlast', hends⟩ := hlv.climb_next hh hsplit last
        set s₂ : Flow β := { s₁ with
          prev := update s₁.prev c (some b)
          next := update s₁.next b (some c)
          blkId := update s₁.blkId c ((s₁.blkId b + 1) % 2 ^ 16) } with hs₂
        obtain ⟨last'', s', hrun, hlinked, hids', hlastOf, hframe⟩ := ih (done ++ [b]) c last' s₂
          (by rw [hsplit]; simp) hhead₁
          (path_append.mpr ⟨some b, Path.update hpath hbdone _, rfl, Function.update_self _ _ _⟩)
          (by
            rw [List.reverse_append]
            exact Chain.push hback (by simp [hcb, hcdone]))
          (by
            rw [hs₂]
            dsimp only
            rw [Function.update_self, hidb, List.length_append, List.length_singleton, Nat.mod_add_mod])
          (by
            intro i x hi
            have hxc : x ≠ c := by
              rintro rfl
              have := List.mem_of_getElem? hi
              simp [hcb, hcdone] at this
            rw [hs₂]
            dsimp only
            rw [Function.update_of_ne hxc]
            rw [List.getElem?_append] at hi
            split at hi
            case isTrue => exact hids i x hi
            case isFalse hge =>
              obtain ⟨hi0, hx⟩ := List.getElem?_eq_some_iff.mp hi
              simp only [List.length_singleton] at hi0
              obtain rfl : i = done.length := by omega
              simp only [Nat.sub_self, List.getElem_cons_zero] at hx
              exact hx ▸ hidb)
          (by
            intro k hk p hp hroot z hz hcase
            rw [hlast' k p]
            split
            case isTrue hcond =>
              have := hends k hcond.2.1
              rw [← hcond.2.2, hz] at this
              exact (Option.some.inj this).symm
            case isFalse hcond =>
              refine hlast k hk p hp hroot z hz ?_
              rcases hcase with h0 | hz'
              · exact .inl h0
              · obtain hz' | hzb := List.mem_append.mp hz'
                · exact .inr hz'
                · obtain rfl := List.mem_singleton.mp hzb
                  obtain ⟨hzl, hzp⟩ := (hlv.mem_blocks hk hp hroot).mp (List.mem_of_getLast? hz)
                  refine .inl (by_contra fun hk0 => ?_)
                  have hmk : m + 1 ≤ k := by
                    by_contra hlt
                    exact hcond ⟨by omega, by omega, hzp.symm⟩
                  -- the interval goes on with the next block
                  have hcl : c ∈ h :: q := (hmemTop c).mp (by rw [hsplit]; simp)
                  have hcp : c ∈ iv.blocks k p := (hlv.mem_blocks hk hp hroot).mpr
                    ⟨hcl, (hlv.congr_le hzl hcl hmk hk hsame).symm.trans hzp⟩
                  obtain ⟨before, after, hrange⟩ := hlv.range_blocks hk le_rfl hp hroot
                  rw [hall p hp] at hrange
                  obtain ⟨w, hw⟩ := List.getLast?_eq_some_iff.mp hz
                  have htwo : (before ++ w) ++ z :: after = done ++ z :: c :: rest := by
                    rw [← hsplit, hrange, hw]
                    simp
                  have hnot : z ∉ before ++ w ∧ z ∉ after := by
                    have hnd := hnodup
                    rw [hsplit, ← htwo] at hnd
                    obtain ⟨-, hza, hd⟩ := List.nodup_append'.mp hnd
                    exact ⟨fun hmem => hd hmem List.mem_cons_self, (List.nodup_cons.mp hza).1⟩
                  obtain ⟨hdone, -, -⟩ := (List.append_cons_inj_of_notMem hnot.1 hnot.2).mp htwo
                  rw [hw, List.mem_append, List.mem_singleton] at hcp
                  obtain hcw | hcz := hcp
                  · exact hcdone (hdone ▸ List.mem_append_right before hcw)
                  · exact hcb hcz)
        refine ⟨last'', s', hrun.succ fun fuel => ?_, hlinked, hids', hlastOf, hframe⟩
        rw [reorderFrom, hclimb]
  obtain ⟨rest, hrest⟩ := List.head?_eq_some_iff.mp (hlv.head_blocks le_rfl hh (hlv.head top le_rfl))
  obtain ⟨last, s', hrun, hlinked, hids, hlast, hframe⟩ := hloop rest [] h iv.last s (by rw [hrest]; rfl) hhead rfl
    ⟨rfl, hprev⟩ hid (by simp) (by
      intro m hm p hp hroot z hz hcase
      obtain rfl : m = 0 := hcase.resolve_right (by simp)
      rw [hlv.last_zero]
      simpa [blocks] using hz)
  refine ⟨last, s', hrun.congr fun fuel => ?_, hlinked, hids, fun m hm p hp hroot => ?_, hframe⟩
  · rw [FloGraph.reorderBlocks, hhead]
    rfl
  · obtain hnil | ⟨w, z, hz⟩ := List.eq_nil_or_concat (iv.blocks m p)
    · exact absurd hnil (hlv.blocks_ne_nil hm hp hroot)
    · have hz' : (iv.blocks m p).getLast? = some z := by simp [hz]
      have hzl := ((hlv.mem_blocks hm hp hroot).mp (List.mem_of_getLast? hz')).1
      rw [hz', hlast m hm p hp hroot z hz' (.inr ((hmemTop z).mpr hzl))]

end Intervals

/-- In a list without repetition a range is what lies between its ends. -/
theorem mem_iff_idxOf {A B C : List β} {f e u : β} (hnodup : (A ++ B ++ C).Nodup) (hf : B.head? = some f)
    (he : B.getLast? = some e) (hu : u ∈ A ++ B ++ C) :
    (A ++ B ++ C).idxOf f ≤ (A ++ B ++ C).idxOf u ∧ (A ++ B ++ C).idxOf u ≤ (A ++ B ++ C).idxOf e ↔ u ∈ B := by
  obtain ⟨hAB, -, hdisjC⟩ := List.nodup_append.mp hnodup
  obtain ⟨-, hB, hdisjA⟩ := List.nodup_append.mp hAB
  have hfB : f ∈ B := List.mem_of_head? hf
  have heB : e ∈ B := List.mem_of_getLast? he
  have hin : ∀ x ∈ B, (A ++ B ++ C).idxOf x = A.length + B.idxOf x := by
    intro x hx
    have hxA : x ∉ A := fun h => hdisjA x h x hx rfl
    rw [List.idxOf_append_of_mem (List.mem_append_right A hx), List.idxOf_append_of_notMem hxA]
  have hf0 : B.idxOf f = 0 := by
    obtain ⟨t, rfl⟩ := List.head?_eq_some_iff.mp hf
    exact List.idxOf_cons_self
  have he0 : B.idxOf e = B.length - 1 := by
    obtain ⟨t, rfl⟩ := List.getLast?_eq_some_iff.mp he
    have het : e ∉ t := fun h => (List.nodup_append.mp hB).2.2 e h e (by simp) rfl
    rw [List.idxOf_append_of_notMem het]
    simp
  have hpos : 0 < B.length := List.length_pos_of_mem hfB
  rw [hin f hfB, hin e heB, hf0, he0]
  constructor
  · rintro ⟨hlow, hhigh⟩
    by_contra hnot
    rcases List.mem_append.mp hu with huAB | huC
    · rcases List.mem_append.mp huAB with huA | huB
      · have hlt : (A ++ B ++ C).idxOf u < A.length := by
          rw [List.idxOf_append_of_mem huAB, List.idxOf_append_of_mem huA]
          exact List.idxOf_lt_length_of_mem huA
        omega
      · exact hnot huB
    · have huAB : u ∉ A ++ B := fun h => hdisjC u h u huC rfl
      rw [List.idxOf_append_of_notMem huAB, List.length_append] at hhigh
      omega
  · intro huB
    have hlt : B.idxOf u < B.length := List.idxOf_lt_length_of_mem huB
    rw [hin u huB]
    omega

/-- A field that each turn sets whatever it was is what the last turn for it makes of it. -/
theorem foldl_update {α γ δ : Type*} [DecidableEq δ] (key : γ → δ) (f : γ → α → α) {Q : α → Prop} {e : δ} :
    ∀ {L : List γ} {field : δ → α}, (∀ x ∈ L, key x = e → ∀ a, Q (f x a)) → (e ∈ L.map key ∨ Q (field e)) →
      Q (L.foldl (fun field x => update field (key x) (f x (field (key x)))) field e) := by
  intro L
  induction L with
  | nil => exact fun _ h => h.resolve_left List.not_mem_nil
  | cons x L ih =>
      intro field hf h
      refine ih (fun y hy => hf y (List.mem_cons_of_mem x hy)) ?_
      by_cases hx : key x = e
      · right
        subst hx
        dsimp only
        rw [Function.update_self]
        exact hf x List.mem_cons_self rfl _
      · dsimp only
        rw [Function.update_of_ne (Ne.symm hx)]
        rcases h with h | h
        · exact .inl ((List.mem_cons.mp h).resolve_left (Ne.symm hx))
        · exact .inr h

/-- The blocks are numbered as they stand in the list. -/
def Numbered (s : Flow β) (l : List β) : Prop := ∀ x ∈ l, s.blkId x = l.idxOf x + 1

theorem numbered {s : Flow β} {l : List β} (hid : ∀ i x, l[i]? = some x → s.blkId x = (i + 1) % 2 ^ 16)
    (hlength : l.length < 2 ^ 16) : Numbered s l := by
  intro x hx
  have hlt : l.idxOf x < l.length := List.idxOf_lt_length_of_mem hx
  have hget : l[l.idxOf x]? = some x := by
    rw [List.getElem?_eq_getElem hlt, List.getElem_idxOf]
  rw [hid _ x hget, Nat.mod_eq_of_lt (by omega)]

namespace Intervals

/-! ### The levels of the edges -/

/-- `join_level` of an edge is the last level at which its ends are in different intervals. -/
def Joined (s : Flow β) (l : List β) (top : ℕ) (iv : Intervals β) (join : Edge β → Option ℕ) : Prop :=
  ∀ u ∈ l, ∀ i v, (s.dest u)[i]? = some v → ∃ m < top, join ⟨u, i⟩ = some m ∧
    iv.intervalNo u m ≠ iv.intervalNo v m ∧ iv.intervalNo u (m + 1) = iv.intervalNo v (m + 1)

variable {s : Flow β} {h : β} {q l : List β} {n m top : ℕ} {iv : Intervals β} {last : ℕ → β → β} {u v f : β}
  {join : Edge β → Option ℕ}

/-- The test of `EdgeLevels` says whether a block is in an interval. -/
theorem Levels.mem_range (hlv : Levels s h (h :: q) top iv) (hall : ∀ b ∈ h :: q, iv.intervalNo b top = h) {s' : Flow β}
    (hnum : Numbered s' (iv.blocks top h))
    (hlast : ∀ m ≤ top, ∀ p ∈ h :: q, iv.intervalNo p m = p → (iv.blocks m p).getLast? = some (last m p))
    (hm : m ≤ top) (hf : f ∈ h :: q) (hroot : iv.intervalNo f m = f) (hu : u ∈ h :: q) :
    s'.blkId f ≤ s'.blkId u ∧ s'.blkId u ≤ s'.blkId (last m f) ↔ iv.intervalNo u m = f := by
  have hh : h ∈ h :: q := List.mem_cons_self
  have hmem : ∀ b ∈ h :: q, b ∈ iv.blocks top h := fun b hb =>
    (hlv.mem_blocks le_rfl hh (hlv.head top le_rfl)).mpr ⟨hb, hall b hb⟩
  have hlastmem : last m f ∈ h :: q :=
    ((hlv.mem_blocks hm hf hroot).mp (List.mem_of_getLast? (hlast m hm f hf hroot))).1
  obtain ⟨before, after, hsplit⟩ := hlv.range_blocks hm le_rfl hf hroot
  rw [hall f hf] at hsplit
  have hnodup := hlv.nodup_blocks le_rfl hh (hlv.head top le_rfl)
  have huO := hmem u hu
  have hmid := hlv.mem_blocks (b := u) hm hf hroot
  rw [hnum f (hmem f hf), hnum u huO, hnum _ (hmem _ hlastmem)]
  rw [hsplit] at hnodup huO ⊢
  have hrange := mem_iff_idxOf hnodup (hlv.head_blocks hm hf hroot) (hlast m hm f hf hroot) huO
  rw [Nat.add_le_add_iff_right, Nat.add_le_add_iff_right, hrange, hmid]
  exact and_iff_right hu

theorem Levels.joinLevel (hlv : Levels s h (h :: q) top iv) (hall : ∀ b ∈ h :: q, iv.intervalNo b top = h) {s' : Flow β}
    (hnum : Numbered s' (iv.blocks top h))
    (hlast : ∀ m ≤ top, ∀ p ∈ h :: q, iv.intervalNo p m = p → (iv.blocks m p).getLast? = some (last m p))
    (hu : u ∈ h :: q) (hv : v ∈ h :: q) (k : ℕ) : ∀ m, m + k = top → iv.intervalNo u m ≠ iv.intervalNo v m →
      ∀ j, ∃ M < top, FloGraph.joinLevel iv last s'.blkId u (k + 1) m (iv.intervalNo v m) j = some M ∧
        iv.intervalNo u M ≠ iv.intervalNo v M ∧ iv.intervalNo u (M + 1) = iv.intervalNo v (M + 1) := by
  have htest : ∀ m ≤ top, (s'.blkId (iv.intervalNo v m) ≤ s'.blkId u ∧
      s'.blkId u ≤ s'.blkId (last m (iv.intervalNo v m)) ↔ iv.intervalNo u m = iv.intervalNo v m) := fun m hm =>
    hlv.mem_range hall hnum hlast hm (hlv.mem m hm v hv) (hlv.idem m hm v hv) hu
  induction k with
  | zero =>
      intro m hm hne
      obtain rfl : m = top := hm
      exact absurd ((hall u hu).trans (hall v hv).symm) hne
  | succ k ih =>
      intro m hm hne j
      rw [FloGraph.joinLevel, if_neg (mt (htest m (by omega)).mp hne), hlv.parent m (by omega) v hv]
      by_cases heq : iv.intervalNo u (m + 1) = iv.intervalNo v (m + 1)
      · refine ⟨m, by omega, ?_, hne, heq⟩
        simp only
        rw [FloGraph.joinLevel, if_pos ((htest (m + 1) (by omega)).mpr heq)]
      · exact ih (m + 1) (by omega) heq (some m)

/-- `EdgeLevels` finds the levels. -/
theorem Levels.edgeLevels (hlv : Levels s h (h :: q) top iv) (hall : ∀ b ∈ h :: q, iv.intervalNo b top = h)
    {s' : Flow β} (hnum : Numbered s' (iv.blocks top h))
    (hlast : ∀ m ≤ top, ∀ p ∈ h :: q, iv.intervalNo p m = p → (iv.blocks m p).getLast? = some (last m p))
    (hcons : Consistent (h :: q) s') (hself : ∀ x ∈ h :: q, x ∉ s'.dest x)
    (hchain : Chain s'.next s'.headBlock (iv.blocks top h)) :
    ∃ join, Ends (fun fuel => edgeLevels top fuel iv last s') join ∧ Joined s' (h :: q) top iv join := by
  refine ⟨_, (Ends.walk hchain).map _, ?_⟩
  have hmem : ∀ b, b ∈ iv.blocks top h ↔ b ∈ h :: q := fun b =>
    (hlv.mem_blocks le_rfl List.mem_cons_self (hlv.head top le_rfl)).trans
      (and_iff_left_of_imp fun hb => hall b hb)
  intro u hu i v hv
  have hvl : v ∈ h :: q := hcons.dest_mem u hu v (List.mem_of_getElem? hv)
  have hin : (⟨u, i⟩ : Edge β) ∈ s'.inputs v := (hcons.inputs_iff v hvl ⟨u, i⟩).mpr ⟨hu, hv⟩
  refine foldl_update (fun x : β × Edge β => x.2)
    (fun x j => FloGraph.joinLevel iv last s'.blkId x.2.source (top + 1) 0 x.1 j)
    (Q := fun j => ∃ m < top, j = some m ∧ iv.intervalNo u m ≠ iv.intervalNo v m ∧
      iv.intervalNo u (m + 1) = iv.intervalNo v (m + 1)) ?_ (.inl ?_)
  · rintro ⟨blk, e⟩ hx rfl j
    obtain ⟨b, hb, hx⟩ := List.mem_flatMap.mp hx
    obtain ⟨e, he, heq⟩ := List.mem_map.mp hx
    obtain ⟨rfl, rfl⟩ := Prod.mk.inj heq
    have htarget := ((hcons.inputs_iff b ((hmem b).mp hb) _).mp he).2
    obtain rfl : v = b := Option.some.inj (hv.symm.trans htarget)
    have hne : u ≠ v := fun huv => hself v hvl (by
      have := List.mem_of_getElem? hv
      rwa [huv] at this)
    exact hlv.joinLevel hall hnum hlast hu hvl top 0 (by omega) hne j
  · refine List.mem_map.mpr ⟨(v, ⟨u, i⟩), List.mem_flatMap.mpr ⟨v, (hmem v).mpr hvl, ?_⟩, rfl⟩
    exact List.mem_map.mpr ⟨⟨u, i⟩, hin, rfl⟩

end Intervals

end OpenWatcom.FloGraph
