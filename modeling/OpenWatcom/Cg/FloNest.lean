import OpenWatcom.Cg.FloReorder

/-! # The nesting of loops

At a level the blocks from which an edge leads back to the first block of their interval are marked, and then all that
lead to a marked block inside the interval; `next` of a block is the head that it has been given. -/

namespace OpenWatcom.FloGraph

open Chains
open Function (update update_self update_of_ne)

variable {β : Type*} [DecidableEq β]

/-- The blocks of a list have edges from each to the next one, and from the last to the first. -/
structure Cycle (dest : β → List β) (C : List β) : Prop where
  ne_nil : C ≠ []
  edge : ∀ i, ∀ b ∈ C[i % C.length]?, ∀ c ∈ C[(i + 1) % C.length]?, c ∈ dest b

/-- What the heads of the loops are: each lies on a cycle and is on every way to its blocks, and each cycle has one. -/
structure Heads (s : Flow β) (h : β) (l : List β) : Prop where
  header : ∀ t ∈ l, s.loopHeader t = true → ∃ C, Cycle s.dest C ∧ t ∈ C
  loopHead : ∀ x ∈ l, ∀ t, s.loopHead x = some t → ∀ way, Iteration.Walk (fun a c => c ∈ s.dest a) h way x → t ∈ way
  cycle : ∀ C, Cycle s.dest C → (∀ x ∈ C, x ∈ l) → ∃ x ∈ C, s.loopHeader x = true

section Cycle

variable {dest : β → List β} {C l : List β} {b h : β} {P : β → Prop}

omit [DecidableEq β] in
/-- A cycle as a run that repeats. -/
theorem Cycle.run (hC : Cycle dest C) : ∃ c : ℕ → β, (∀ i, c (i + 1) ∈ dest (c i)) ∧
    (∀ i, c (i + C.length) = c i) ∧ ∀ x, x ∈ C ↔ ∃ i, c i = x := by
  have hpos : 0 < C.length := List.length_pos_iff.mpr hC.ne_nil
  refine ⟨fun i => C.get ⟨i % C.length, Nat.mod_lt _ hpos⟩, fun i => ?_, fun i => ?_, fun x => ⟨fun hx => ?_, ?_⟩⟩
  · exact hC.edge i _ (List.getElem?_eq_getElem _) _ (List.getElem?_eq_getElem _)
  · simp only [Nat.add_mod_right]
  · obtain ⟨i, hi, rfl⟩ := List.getElem_of_mem hx
    exact ⟨i, by simp only [Nat.mod_eq_of_lt hi, List.get_eq_getElem]⟩
  · rintro ⟨i, rfl⟩
    exact List.getElem_mem _

omit [DecidableEq β] in
/-- A way back to a block makes a cycle. -/
theorem Reach.cycle {S : β} (hreach : Reach dest b S) (hedge : b ∈ dest S) : ∃ C, Cycle dest C ∧ b ∈ C := by
  obtain ⟨l, hchain, hlast⟩ := List.exists_isChain_cons_of_relationReflTransGen hreach
  refine ⟨b :: l, ⟨List.cons_ne_nil b l, fun i => ?_⟩, List.mem_cons_self⟩
  have hlt : i % (b :: l).length < (b :: l).length := Nat.mod_lt _ (by simp)
  rw [← Nat.mod_add_mod]
  generalize i % (b :: l).length = k at hlt
  rintro x hx y hy
  by_cases hk : k + 1 < (b :: l).length
  · rw [Nat.mod_eq_of_lt hk] at hy
    have hxy := List.isChain_iff_getElem.mp hchain k hk
    rw [List.getElem?_eq_getElem (by omega)] at hx
    rw [List.getElem?_eq_getElem hk] at hy
    obtain rfl := Option.some.inj hx
    obtain rfl := Option.some.inj hy
    exact hxy
  · have hk' : k + 1 = (b :: l).length := by omega
    rw [hk', Nat.mod_self] at hy
    rw [List.getLast_eq_getElem] at hlast
    rw [List.getElem?_eq_getElem hlt] at hx
    obtain rfl := Option.some.inj hx
    obtain rfl := Option.some.inj hy
    have hk'' : k = (b :: l).length - 1 := by omega
    subst hk''
    rw [hlast]
    exact hedge

end Cycle

/-- A measure that never falls along a run that repeats does not change. -/
theorem run_const {f : ℕ → ℕ} {n : ℕ} (hn : 0 < n) (hle : ∀ i, f i ≤ f (i + 1)) (hback : ∀ i, f (i + n) = f i) :
    ∀ i, f i = f 0 := by
  have hmono : Monotone f := monotone_nat_of_le_succ hle
  have hsucc : ∀ i, f (i + 1) = f i := fun i =>
    le_antisymm ((hmono (by omega : i + 1 ≤ i + n)).trans_eq (hback i)) (hle i)
  intro i
  induction i with
  | zero => rfl
  | succ i ih => rw [hsucc, ih]

namespace Intervals

variable {s : Flow β} {h : β} {q l : List β} {n m top : ℕ} {iv : Intervals β} {b p t u v : β} {C : List β}
  {join : Edge β → Option ℕ}

omit [DecidableEq β] in
/-- The first block of an interval is on every way from the head to a block of it. -/
theorem Levels.dominates (hlv : Levels s h l n iv) (hh : h ∈ l) (hclosed : ∀ u ∈ l, ∀ v ∈ s.dest u, v ∈ l) (hm : m ≤ n)
    {way : List β} (hway : Iteration.Walk (fun a c => c ∈ s.dest a) h way b) :
    b ∈ l ∧ iv.intervalNo b m ∈ way := by
  induction hway with
  | single => exact ⟨hh, by rw [hlv.head m hm]; exact List.mem_singleton_self h⟩
  | @snoc b c way hway hbc ih =>
      obtain ⟨hb, hmem⟩ := ih
      refine ⟨hclosed b hb c hbc, ?_⟩
      by_cases heq : iv.intervalNo b m = iv.intervalNo c m
      · exact List.mem_append_left [c] (heq ▸ hmem)
      · rw [hlv.entry m hm b hb c hbc heq]
        exact List.mem_append_right way (List.mem_singleton_self c)

/-- The first block of an interval leads to all its blocks. -/
theorem Levels.reach (hlv : Levels s h (h :: q) n iv) (hord : Ordered s h q) (hm : m ≤ n) :
    ∀ (k : ℕ) (done : List β) (x : β) (rest : List β), done.length ≤ k → h :: q = done ++ x :: rest →
      Reach s.dest (iv.intervalNo x m) x := by
  intro k
  induction k with
  | zero =>
      intro done x rest hlen hsplit
      obtain rfl := List.eq_nil_of_length_eq_zero (Nat.le_zero.mp hlen)
      obtain rfl : h = x := (List.cons.inj hsplit).1
      rw [hlv.head m hm]
  | succ k ih =>
      intro done x rest hlen hsplit
      by_cases hroot : iv.intervalNo x m = x
      · rw [hroot]
      · have hdone : done ≠ [] := by
          rintro rfl
          obtain rfl : h = x := (List.cons.inj hsplit).1
          exact hroot (hlv.head m hm)
        obtain ⟨y, hy, hxy⟩ := hord.tree done x rest hsplit hdone
        obtain ⟨before, after, rfl⟩ := List.append_of_mem hy
        have hyl : y ∈ h :: q := by rw [hsplit]; simp
        have heq : iv.intervalNo y m = iv.intervalNo x m := by
          by_contra hne
          exact hroot (hlv.entry m hm y hyl x hxy hne)
        have hyreach := ih before y (after ++ x :: rest) (by simp at hlen; omega) (by simp [hsplit])
        rw [heq] at hyreach
        exact hyreach.tail hxy

/-- A cycle in an interval but in more than one of its parts enters it. -/
theorem Levels.enters (hlv : Levels s h l n iv) (hm : m < n) {c : ℕ → β} {k : ℕ} (hk : 0 < k)
    (hc : ∀ i, c i ∈ l) (hedge : ∀ i, c (i + 1) ∈ s.dest (c i)) (hback : ∀ i, c (i + k) = c i)
    (hin : ∀ i, iv.intervalNo (c i) (m + 1) = p) (hout : ∃ i, iv.intervalNo (c i) m ≠ iv.intervalNo (c 0) m) :
    ∃ i, c (i + 1) = p ∧ iv.intervalNo (c i) m ≠ p := by
  have hp : p ∈ l := hin 0 ▸ hlv.mem (m + 1) hm (c 0) (hc 0)
  have hroot : iv.intervalNo p (m + 1) = p := by
    have := hlv.idem (m + 1) hm (c 0) (hc 0)
    rwa [hin 0] at this
  have hsub : ∀ i, iv.intervalNo (c i) m ∈ iv.subs (m + 1) p := fun i => by
    refine (hlv.mem_subs m hm p hp hroot _).mpr
      ⟨hlv.mem m (by omega) _ (hc i), hlv.idem m (by omega) _ (hc i), ?_⟩
    rw [← hin i]
    exact hlv.succ_congr hm (hlv.mem m (by omega) _ (hc i)) (hc i) (hlv.idem m (by omega) _ (hc i))
  by_contra hnot
  push Not at hnot
  -- the place of the part does not fall along an edge that does not enter the interval
  have hle : ∀ i, (iv.subs (m + 1) p).idxOf (iv.intervalNo (c i) m) ≤
      (iv.subs (m + 1) p).idxOf (iv.intervalNo (c (i + 1)) m) := by
    intro i
    by_cases heq : iv.intervalNo (c i) m = iv.intervalNo (c (i + 1)) m
    · rw [heq]
    · have hentry := hlv.entry m (by omega) (c i) (hc i) (c (i + 1)) (hedge i) heq
      have hne : c (i + 1) ≠ p := fun h => heq ((hnot i h).trans (hentry.trans h).symm)
      rw [hentry] at heq ⊢
      have hmem : c (i + 1) ∈ iv.subs (m + 1) p := hentry ▸ hsub (i + 1)
      obtain ⟨l₁, l₂, hsplit⟩ := List.append_of_mem hmem
      have hl₁ : l₁ ≠ [] := by
        rintro rfl
        have hhead := hlv.head_subs m hm p hp hroot
        rw [hsplit] at hhead
        exact hne (Option.some.inj hhead)
      have hmem₁ := hlv.ordered m hm p hp hroot l₁ _ l₂ hsplit hl₁ (c i) (hc i) (hedge i) heq
      have hnodup := hlv.nodup_subs m hm p hp hroot
      rw [hsplit] at hnodup ⊢
      have hnot₁ : c (i + 1) ∉ l₁ := fun h => (List.nodup_append'.mp hnodup).2.2 h List.mem_cons_self
      rw [List.idxOf_append_of_mem hmem₁, List.idxOf_append_of_notMem hnot₁]
      exact (List.idxOf_lt_length_of_mem hmem₁).le.trans (Nat.le_add_right ..)
  obtain ⟨i, hi⟩ := hout
  have hconst := run_const hk hle (fun i => by rw [hback]) i
  exact hi ((List.idxOf_inj (hsub i)).mp hconst)

/-! ### The blocks that are marked at a level -/

/-- A graph that is reduced to one interval, with the levels of its edges. -/
structure Reduced (s : Flow β) (h : β) (q : List β) (top : ℕ) (iv : Intervals β) (join : Edge β → Option ℕ) : Prop where
  ordered : Ordered s h q
  levels : Levels s h (h :: q) top iv
  all : ∀ b ∈ h :: q, iv.intervalNo b top = h
  numbered : Numbered s (iv.blocks top h)
  joined : Joined s (h :: q) top iv join

theorem Reduced.mem_blocks (hred : Reduced s h q top iv join) : b ∈ iv.blocks top h ↔ b ∈ h :: q :=
  (hred.levels.mem_blocks le_rfl List.mem_cons_self (hred.levels.head top le_rfl)).trans
    (and_iff_left_of_imp fun hb => hred.all b hb)

theorem Reduced.nodup (hred : Reduced s h q top iv join) : (iv.blocks top h).Nodup :=
  hred.levels.nodup_blocks le_rfl List.mem_cons_self (hred.levels.head top le_rfl)

/-- An edge back to an earlier block leads to the first block of the interval of its level. -/
theorem Reduced.target (hred : Reduced s h q top iv join) {i : ℕ} (hu : u ∈ h :: q) (hv : (s.dest u)[i]? = some v)
    (hjoin : join ⟨u, i⟩ = some m) (hid : s.blkId v ≤ s.blkId u) : iv.intervalNo u (m + 1) = v := by
  have hlv := hred.levels
  have hvl : v ∈ h :: q := hred.ordered.consistent.dest_mem u hu v (List.mem_of_getElem? hv)
  obtain ⟨m', hm, hjoin', hne, heq⟩ := hred.joined u hu i v hv
  obtain rfl : m' = m := Option.some.inj (hjoin'.symm.trans hjoin)
  have hentry := hlv.entry m' hm.le u hu v (List.mem_of_getElem? hv) hne
  have hp := hlv.mem (m' + 1) hm u hu
  have hroot := hlv.idem (m' + 1) hm u hu
  by_contra hnot
  -- otherwise the part of the source comes before the block
  have hsub : v ∈ iv.subs (m' + 1) (iv.intervalNo u (m' + 1)) :=
    (hlv.mem_subs m' hm _ hp hroot v).mpr ⟨hvl, hentry, heq.symm⟩
  obtain ⟨l₁, l₂, hsplit⟩ := List.append_of_mem hsub
  have hl₁ : l₁ ≠ [] := by
    rintro rfl
    have hhead := hlv.head_subs m' hm _ hp hroot
    rw [hsplit] at hhead
    exact hnot (Option.some.inj hhead).symm
  rw [hentry] at hne
  have hmem₁ := hlv.ordered m' hm _ hp hroot l₁ v l₂ hsplit hl₁ u hu (List.mem_of_getElem? hv) hne
  obtain ⟨before, after, hO⟩ := hlv.range_blocks hm le_rfl hp hroot
  rw [hred.all _ hp, Intervals.blocks, hsplit, List.flatMap_append, List.flatMap_cons] at hO
  have hfront : u ∈ before ++ l₁.flatMap (iv.blocks m') := by
    refine List.mem_append_right before (List.mem_flatMap.mpr ⟨_, hmem₁, ?_⟩)
    exact (hlv.mem_blocks hm.le (hlv.mem m' hm.le u hu) (hlv.idem m' hm.le u hu)).mpr ⟨hu, rfl⟩
  have hvblocks : v ∈ iv.blocks m' v := (hlv.mem_blocks hm.le hvl hentry).mpr ⟨hvl, hentry⟩
  have hO' : iv.blocks top h = (before ++ l₁.flatMap (iv.blocks m')) ++
      (iv.blocks m' v ++ (l₂.flatMap (iv.blocks m') ++ after)) := by
    rw [hO]
    simp only [List.append_assoc]
  have hnodup := hred.nodup
  have hnumu := hred.numbered u (hred.mem_blocks.mpr hu)
  have hnumv := hred.numbered v (hred.mem_blocks.mpr hvl)
  rw [hO'] at hnodup hnumu hnumv
  have hvfront : v ∉ before ++ l₁.flatMap (iv.blocks m') := fun h =>
    (List.nodup_append'.mp hnodup).2.2 h (List.mem_append_left _ hvblocks)
  rw [List.idxOf_append_of_mem hfront] at hnumu
  rw [List.idxOf_append_of_notMem hvfront] at hnumv
  have hlt := List.idxOf_lt_length_of_mem hfront
  omega

/-- An edge into the first block of the interval from another part of it leads back. -/
theorem Reduced.leads_back (hred : Reduced s h q top iv join) {i : ℕ} (hu : u ∈ h :: q)
    (hv : (s.dest u)[i]? = some v) (hm : m < top) (hne : iv.intervalNo u m ≠ v)
    (heq : iv.intervalNo u (m + 1) = v) : join ⟨u, i⟩ = some m ∧ s.blkId v ≤ s.blkId u := by
  have hlv := hred.levels
  have hvl : v ∈ h :: q := heq ▸ hlv.mem (m + 1) hm u hu
  have hroot : iv.intervalNo v (m + 1) = v := by
    have := hlv.idem (m + 1) hm u hu
    rwa [heq] at this
  have hrootm : iv.intervalNo v m = v := hlv.root_le hvl (Nat.le_succ m) hm hroot
  refine ⟨?_, ?_⟩
  · obtain ⟨M, hM, hjoin, hneM, heqM⟩ := hred.joined u hu i v hv
    rw [hjoin]
    rcases Nat.lt_trichotomy M m with hlt | rfl | hlt
    · exact absurd ((hlv.congr_le hu hvl hlt hm.le heqM).trans hrootm) hne
    · rfl
    · exact absurd (hlv.congr_le hu hvl hlt hM.le (heq.trans hroot.symm)) hneM
  · obtain ⟨before, after, hO⟩ := hlv.range_blocks hm le_rfl hvl hroot
    rw [hred.all v hvl] at hO
    have hnodup := hred.nodup
    have hnumu := hred.numbered u (hred.mem_blocks.mpr hu)
    have hnumv := hred.numbered v (hred.mem_blocks.mpr hvl)
    obtain ⟨rest, hrest⟩ := List.head?_eq_some_iff.mp (hlv.head_blocks hm hvl hroot)
    have humem : u ∈ v :: rest := hrest ▸ (hlv.mem_blocks hm hvl hroot).mpr ⟨hu, heq⟩
    rw [hO, hrest, List.append_assoc] at hnodup hnumu hnumv
    have hdisj := (List.nodup_append'.mp hnodup).2.2
    have hufront : u ∉ before := fun h => hdisj h (List.mem_append_left _ humem)
    have hvfront : v ∉ before := fun h => hdisj h (by simp)
    rw [List.idxOf_append_of_notMem hufront] at hnumu
    rw [List.idxOf_append_of_notMem hvfront, List.cons_append, List.idxOf_cons_self] at hnumv
    omega

/-! ### What a turn does -/

/-- What is known of the heads throughout: an edge leads into each from a block of its interval, and it is the first
block of an interval of the blocks that have it. -/
structure Nested (s₀ : Flow β) (l : List β) (top : ℕ) (iv : Intervals β) (s : Flow β) : Prop where
  header : ∀ t ∈ l, s.loopHeader t = true → ∃ m ≤ top, ∃ S ∈ l, iv.intervalNo S m = t ∧ t ∈ s₀.dest S
  loopHead : ∀ x ∈ l, ∀ t, s.loopHead x = some t → ∃ m ≤ top, iv.intervalNo x m = t
  frame : s = { s₀ with next := s.next, loopHeader := s.loopHeader, loopHead := s.loopHead, depth := s.depth }

/-- What is known of the blocks that are marked at a level. -/
structure Marked (s₀ : Flow β) (l : List β) (iv : Intervals β) (m : ℕ) (L : List β) (s : Flow β) : Prop where
  back : ∀ x ∈ L, ∀ t, s.next x = some t →
    iv.intervalNo x (m + 1) = t ∧ ∃ S ∈ l, iv.intervalNo S (m + 1) = t ∧ t ∈ s₀.dest S
  header : ∀ x ∈ L, ∀ t, s.next x = some t → t ∈ s₀.dest x ∨ s.loopHeader t = true
  source : ∀ x ∈ L, iv.intervalNo x m ≠ iv.intervalNo x (m + 1) → iv.intervalNo x (m + 1) ∈ s₀.dest x →
    (s.next x).isSome = true

variable {s₀ s' : Flow β} {L : List β} {x y : β}

omit [DecidableEq β] in
theorem Nested.dest (hn : Nested s₀ l top iv s) : s.dest = s₀.dest := by rw [hn.frame]

omit [DecidableEq β] in
theorem Nested.blkId (hn : Nested s₀ l top iv s) : s.blkId = s₀.blkId := by rw [hn.frame]

omit [DecidableEq β] in
theorem mem_edgesDown {e : Edge β} : (y, e) ∈ edgesDown s x ↔ ∃ i, (s.dest x)[i]? = some y ∧ e = ⟨x, i⟩ := by
  simp only [edgesDown, List.mem_reverse, List.mem_map, Prod.mk.injEq, Prod.exists, List.mem_zipIdx_iff_getElem?]
  constructor
  · rintro ⟨c, i, hc, rfl, rfl⟩
    exact ⟨i, hc, rfl⟩
  · rintro ⟨i, hi, rfl⟩
    exact ⟨y, i, hi, rfl, rfl⟩

/-- A block is searched for a back edge. -/
theorem Marked.markBack (hred : Reduced s₀ h q top iv join) (hm : m < top) (hn : Nested s₀ (h :: q) top iv s)
    (hk : Marked s₀ (h :: q) iv m L s) (hx : x ∈ h :: q) :
    Nested s₀ (h :: q) top iv (markBack join m s x) ∧ Marked s₀ (h :: q) iv m (x :: L) (markBack join m s x) ∧
      (markBack join m s x).loopHeader = s.loopHeader := by
  have hother : ∀ {f : Option β}, ∀ y ∈ x :: L, ∀ t, update s.next x f y = some t →
      y = x ∧ f = some t ∨ y ∈ L ∧ s.next y = some t := by
    intro f y hy t ht
    by_cases hyx : y = x
    · subst hyx
      rw [update_self] at ht
      exact .inl ⟨rfl, ht⟩
    · rw [update_of_ne hyx] at ht
      exact .inr ⟨(List.mem_cons.mp hy).resolve_left hyx, ht⟩
  unfold FloGraph.markBack
  cases hfind : (edgesDown s x).find? fun y => s.blkId y.1 ≤ s.blkId x ∧ join y.2 = some m with
  | none =>
      refine ⟨⟨hn.header, hn.loopHead, ?_⟩, ⟨fun y hy t ht => ?_, fun y hy t ht => ?_, fun y hy hne hmem => ?_⟩, rfl⟩
      · conv_lhs => rw [hn.frame]
      · exact (hother y hy t ht).elim (fun h => nomatch h.2) fun h => hk.back y h.1 t h.2
      · exact (hother y hy t ht).elim (fun h => nomatch h.2) fun h => hk.header y h.1 t h.2
      · by_cases hyx : y = x
        · subst hyx
          obtain ⟨i, hi⟩ := List.getElem?_of_mem hmem
          obtain ⟨hjoin, hid⟩ := hred.leads_back hx hi hm hne rfl
          have hnot := List.find?_eq_none.mp hfind (iv.intervalNo y (m + 1), ⟨y, i⟩)
            (mem_edgesDown.mpr ⟨i, by rw [hn.dest]; exact hi, rfl⟩)
          exact absurd (by simpa only [hn.blkId, decide_eq_true_eq] using ⟨hid, hjoin⟩) hnot
        · dsimp only
          rw [update_of_ne hyx]
          exact hk.source y ((List.mem_cons.mp hy).resolve_left hyx) hne hmem
  | some found =>
      obtain ⟨target, e⟩ := found
      obtain ⟨i, hi, rfl⟩ := mem_edgesDown.mp (List.mem_of_find?_eq_some hfind)
      have hsome := List.find?_some hfind
      simp only [hn.blkId, decide_eq_true_eq] at hsome
      rw [hn.dest] at hi
      have htarget := hred.target hx hi hsome.2 hsome.1
      refine ⟨⟨hn.header, fun y hy t ht => ?_, ?_⟩, ⟨fun y hy t ht => ?_, fun y hy t ht => ?_,
        fun y hy hne hmem => ?_⟩, rfl⟩
      · dsimp only at ht
        split_ifs at ht with hnone
        · by_cases hyx : y = x
          · subst hyx
            rw [update_self] at ht
            exact ⟨m + 1, hm, htarget.trans (Option.some.inj ht)⟩
          · rw [update_of_ne hyx] at ht
            exact hn.loopHead y hy t ht
        · exact hn.loopHead y hy t ht
      · conv_lhs => rw [hn.frame]
      · rcases hother y hy t ht with ⟨rfl, htt⟩ | ⟨hyL, htt⟩
        · obtain rfl := Option.some.inj htt
          exact ⟨htarget, y, hx, htarget, List.mem_of_getElem? hi⟩
        · exact hk.back y hyL t htt
      · rcases hother y hy t ht with ⟨rfl, htt⟩ | ⟨hyL, htt⟩
        · obtain rfl := Option.some.inj htt
          exact .inl (List.mem_of_getElem? hi)
        · exact hk.header y hyL t htt
      · by_cases hyx : y = x
        · subst hyx
          dsimp only
          rw [update_self]
          rfl
        · dsimp only
          rw [update_of_ne hyx]
          exact hk.source y ((List.mem_cons.mp hy).resolve_left hyx) hne hmem

/-- All blocks are searched. -/
theorem Marked.foldl_markBack (hred : Reduced s₀ h q top iv join) (hm : m < top) :
    ∀ (L done : List β) (s : Flow β), L ⊆ h :: q → Nested s₀ (h :: q) top iv s → Marked s₀ (h :: q) iv m done s →
      Nested s₀ (h :: q) top iv (L.foldl (FloGraph.markBack join m) s) ∧
        Marked s₀ (h :: q) iv m (L.reverse ++ done) (L.foldl (FloGraph.markBack join m) s) ∧
          (L.foldl (FloGraph.markBack join m) s).loopHeader = s.loopHeader := by
  intro L
  induction L with
  | nil => exact fun done s _ hn hk => ⟨hn, hk, rfl⟩
  | cons x L ih =>
      intro done s hL hn hk
      obtain ⟨hn', hk', hheader⟩ := hk.markBack hred hm hn (hL List.mem_cons_self)
      obtain ⟨hn'', hk'', hheader'⟩ := ih (x :: done) _ (fun y hy => hL (List.mem_cons_of_mem x hy)) hn' hk'
      refine ⟨hn'', ?_, hheader'.trans hheader⟩
      rw [List.reverse_cons, List.append_assoc]
      exact hk''

/-- What the turns for a level leave of what was there. -/
structure Kept (s s' : Flow β) : Prop where
  next : ∀ x, (s.next x).isSome = true → (s'.next x).isSome = true
  loopHeader : ∀ x, s.loopHeader x = true → s'.loopHeader x = true

omit [DecidableEq β] in
theorem Kept.refl (s : Flow β) : Kept s s := ⟨fun _ h => h, fun _ h => h⟩

omit [DecidableEq β] in
theorem Kept.trans {s'' : Flow β} (h : Kept s s') (h' : Kept s' s'') : Kept s s'' :=
  ⟨fun x hx => h'.next x (h.next x hx), fun x hx => h'.loopHeader x (h.loopHeader x hx)⟩

/-- A block that is not marked has no edge inside the interval to one that is. -/
def Settled (s₀ : Flow β) (iv : Intervals β) (m : ℕ) (s : Flow β) (x : β) : Prop :=
  s.next x = none → ∀ y ∈ s₀.dest x, iv.intervalNo x (m + 1) = iv.intervalNo y (m + 1) → s.next y = none

/-- A block is marked when it leads to a marked one, or is settled. -/
theorem Marked.spreadBack (hred : Reduced s₀ h q top iv join) (hm : m < top) (hn : Nested s₀ (h :: q) top iv s)
    (hk : Marked s₀ (h :: q) iv m (h :: q) s) (hx : x ∈ h :: q) (change : Bool) :
    Nested s₀ (h :: q) top iv (spreadBack join m (s, change) x).1 ∧
      Marked s₀ (h :: q) iv m (h :: q) (spreadBack join m (s, change) x).1 ∧
        Kept s (spreadBack join m (s, change) x).1 ∧
          (spreadBack join m (s, change) x = (s, change) ∧ Settled s₀ iv m s x ∨
            (spreadBack join m (s, change) x).2 = true ∧ s.next x = none ∧
              ((spreadBack join m (s, change) x).1.next x).isSome = true) := by
  unfold FloGraph.spreadBack
  by_cases hnone : (s.next x).isSome = true
  · rw [if_pos hnone]
    exact ⟨hn, hk, .refl s, .inl ⟨rfl, fun h => by rw [h] at hnone; exact absurd hnone Bool.false_ne_true⟩⟩
  · rw [if_neg hnone]
    have hnext : s.next x = none := by simpa using hnone
    cases hfind : (edgesDown s x).findSome? fun y => if (join y.2).any (· ≤ m) then s.next y.1 else none with
    | none =>
        refine ⟨hn, hk, .refl s, .inl ⟨rfl, fun _ y hy heq => ?_⟩⟩
        obtain ⟨i, hi⟩ := List.getElem?_of_mem hy
        obtain ⟨M, hM, hjoin, hne, -⟩ := hred.joined x hx i y hi
        have hyl := hred.ordered.consistent.dest_mem x hx y hy
        have hMm : M ≤ m := by
          by_contra hlt
          exact hne (hred.levels.congr_le hx hyl (by omega) hM.le heq)
        have hnot := List.findSome?_eq_none_iff.mp hfind (y, ⟨x, i⟩)
          (mem_edgesDown.mpr ⟨i, by rw [hn.dest]; exact hi, rfl⟩)
        simpa [hjoin, hMm] using hnot
    | some target =>
        obtain ⟨⟨y, e⟩, hmem, hsome⟩ := List.exists_of_findSome?_eq_some hfind
        obtain ⟨i, hi, rfl⟩ := mem_edgesDown.mp hmem
        rw [hn.dest] at hi
        have hyl := hred.ordered.consistent.dest_mem x hx y (List.mem_of_getElem? hi)
        obtain ⟨M, hM, hjoin, -, heq⟩ := hred.joined x hx i y hi
        simp only [hjoin, Option.any_some, decide_eq_true_eq] at hsome
        split_ifs at hsome with hMm
        have heqm : iv.intervalNo x (m + 1) = iv.intervalNo y (m + 1) :=
          hred.levels.congr_le hx hyl (by omega) hm heq
        obtain ⟨htarget, S, hS, hSt, hSdest⟩ := hk.back y hyl target hsome
        refine ⟨⟨fun t ht hh => ?_, fun z hz t ht => ?_, ?_⟩, ⟨fun z hz t ht => ?_, fun z hz t ht => ?_,
          fun z hz hne hmem => ?_⟩, ⟨fun z hz => ?_, fun z hz => ?_⟩, .inr ⟨rfl, hnext, ?_⟩⟩
        · by_cases htt : t = target
          · subst htt
            exact ⟨m + 1, hm, S, hS, hSt, hSdest⟩
          · refine hn.header t ht ?_
            dsimp only at hh
            rwa [update_of_ne htt] at hh
        · dsimp only at ht
          split_ifs at ht with hcond
          · by_cases hzx : z = x
            · subst hzx
              rw [update_self] at ht
              exact ⟨m + 1, hm, (heqm.trans htarget).trans (Option.some.inj ht)⟩
            · rw [update_of_ne hzx] at ht
              exact hn.loopHead z hz t ht
          · exact hn.loopHead z hz t ht
        · conv_lhs => rw [hn.frame]
        · by_cases hzx : z = x
          · subst hzx
            dsimp only at ht
            rw [update_self] at ht
            obtain rfl := Option.some.inj ht
            exact ⟨heqm.trans htarget, S, hS, hSt, hSdest⟩
          · dsimp only at ht
            rw [update_of_ne hzx] at ht
            exact hk.back z hz t ht
        · by_cases hzx : z = x
          · subst hzx
            dsimp only at ht ⊢
            rw [update_self] at ht
            obtain rfl := Option.some.inj ht
            exact .inr (update_self ..)
          · dsimp only at ht ⊢
            rw [update_of_ne hzx] at ht
            refine (hk.header z hz t ht).imp_right fun hh => ?_
            by_cases htt : t = target
            · subst htt
              exact update_self ..
            · rwa [update_of_ne htt]
        · by_cases hzx : z = x
          · subst hzx
            dsimp only
            rw [update_self]
            rfl
          · dsimp only
            rw [update_of_ne hzx]
            exact hk.source z hz hne hmem
        · by_cases hzx : z = x
          · subst hzx
            dsimp only
            rw [update_self]
            rfl
          · dsimp only
            rwa [update_of_ne hzx]
        · by_cases hzt : z = target
          · subst hzt
            exact update_self ..
          · dsimp only
            rwa [update_of_ne hzt]
        · dsimp only
          rw [update_self]
          rfl

end Intervals

end OpenWatcom.FloGraph
