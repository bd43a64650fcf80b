import OpenWatcom.Cg.FloNest

/-! # The heads of loops

`NestingDepth` over all levels: each loop head lies on a cycle, and each cycle has one, found at the first level at
which the cycle is in one interval.  `Degenerate` only looks. -/

namespace OpenWatcom.FloGraph

open Chains
open Function (update update_self update_of_ne)

variable {β : Type*} [DecidableEq β]

namespace Intervals

variable {s₀ s s' : Flow β} {h : β} {q l : List β} {m top : ℕ} {iv : Intervals β} {join : Edge β → Option ℕ}

omit [DecidableEq β] in
theorem Marked.mono {L L' : List β} (hk : Marked s₀ l iv m L s) (hsub : L' ⊆ L) : Marked s₀ l iv m L' s :=
  ⟨fun x hx => hk.back x (hsub hx), fun x hx => hk.header x (hsub hx), fun x hx => hk.source x (hsub hx)⟩

/-! ### The turns of a level -/

/-- A turn over the blocks keeps what each block keeps, and marks another block unless it changes nothing. -/
theorem foldl_spreadBack {I : Flow β → Prop}
    (hI : ∀ s change, ∀ x ∈ l, I s → I (FloGraph.spreadBack join m (s, change) x).1) :
    ∀ (L : List β) (s : Flow β) (change : Bool), L ⊆ l → I s →
      I (L.foldl (FloGraph.spreadBack join m) (s, change)).1 ∧
        (L.foldl (FloGraph.spreadBack join m) (s, change) = (s, change) ∧
            (∀ x ∈ L, FloGraph.spreadBack join m (s, change) x = (s, change)) ∨
          (L.foldl (FloGraph.spreadBack join m) (s, change)).2 = true ∧
            unvisitedCount l (fun x => ((L.foldl (FloGraph.spreadBack join m) (s, change)).1.next x).isSome) <
              unvisitedCount l fun x => (s.next x).isSome) := by
  intro L
  induction L with
  | nil => exact fun s change _ hs => ⟨hs, .inl ⟨rfl, fun x hx => absurd hx List.not_mem_nil⟩⟩
  | cons x L ih =>
      intro s change hL hs
      have hx : x ∈ l := hL List.mem_cons_self
      have hL' : L ⊆ l := fun y hy => hL (List.mem_cons_of_mem x hy)
      have hs' := hI s change x hx hs
      have hstep : FloGraph.spreadBack join m (s, change) x = (s, change) ∨
          (FloGraph.spreadBack join m (s, change) x).2 = true ∧
            unvisitedCount l (fun y => ((FloGraph.spreadBack join m (s, change) x).1.next y).isSome) <
              unvisitedCount l fun y => (s.next y).isSome := by
        unfold FloGraph.spreadBack
        split_ifs with hsome
        · exact .inl rfl
        · split
          · exact .inl rfl
          · refine .inr ⟨rfl, lt_of_le_of_lt (unvisitedCount_le fun y hy => ?_)
              (unvisitedCount_lt (b := x) hx (by simpa using hsome))⟩
            dsimp only
            by_cases hyx : y = x
            · rw [hyx, update_self]
              rfl
            · rw [update_of_ne hyx] at hy
              rwa [update_of_ne hyx]
      rw [List.foldl_cons]
      rcases hstep with heq | ⟨htrue, hlt⟩
      · rw [heq]
        obtain ⟨hs'', hrest⟩ := ih s change hL' hs
        exact ⟨hs'', hrest.imp_left fun h => ⟨h.1, List.forall_mem_cons.mpr ⟨heq, h.2⟩⟩⟩
      · generalize FloGraph.spreadBack join m (s, change) x = t at hs' htrue hlt
        obtain ⟨s₁, change₁⟩ := t
        obtain ⟨hs'', hrest⟩ := ih s₁ change₁ hL' hs'
        refine ⟨hs'', .inr ?_⟩
        rcases hrest with ⟨heq, -⟩ | ⟨htrue', hlt'⟩
        · rw [heq]
          exact ⟨htrue, hlt⟩
        · exact ⟨htrue', hlt'.trans hlt⟩

/-- The `do` loop ends, keeps what each block keeps, and stops where no block changes anything. -/
theorem spread_ends (join : Edge β → Option ℕ) (m : ℕ) {I : Flow β → Prop}
    (hI : ∀ s change, ∀ x ∈ l, I s → I (FloGraph.spreadBack join m (s, change) x).1) (blks : List β)
    (hblks : blks ⊆ l) (k : ℕ) : ∀ s : Flow β, unvisitedCount l (fun x => (s.next x).isSome) ≤ k → I s →
      ∃ s', Ends (fun fuel => spread join m blks fuel s) s' ∧ I s' ∧
        ∀ x ∈ blks, FloGraph.spreadBack join m (s', false) x = (s', false) := by
  induction k with
  | zero =>
      intro s hcount hs
      obtain ⟨-, ⟨heq, hall⟩ | ⟨-, hlt⟩⟩ := foldl_spreadBack hI blks s false hblks hs
      · refine ⟨s, (Ends.const s).succ fun fuel => ?_, hs, hall⟩
        simp only [FloGraph.spread, heq, Bool.false_eq_true, if_false]
      · omega
  | succ k ih =>
      intro s hcount hs
      obtain ⟨hs', ⟨heq, hall⟩ | ⟨htrue, hlt⟩⟩ := foldl_spreadBack hI blks s false hblks hs
      · refine ⟨s, (Ends.const s).succ fun fuel => ?_, hs, hall⟩
        simp only [FloGraph.spread, heq, Bool.false_eq_true, if_false]
      · obtain ⟨s', hends, hrest⟩ := ih (blks.foldl (FloGraph.spreadBack join m) (s, false)).1 (by omega) hs'
        refine ⟨s', hends.succ fun fuel => ?_, hrest⟩
        simp only [FloGraph.spread, htrue, if_true]

/-- The `do` loop ends when all blocks are settled. -/
theorem Marked.spread (hred : Reduced s₀ h q top iv join) (hm : m < top) {blks : List β}
    (hblks : ∀ x, x ∈ blks ↔ x ∈ h :: q) (hn : Nested s₀ (h :: q) top iv s)
    (hk : Marked s₀ (h :: q) iv m (h :: q) s) :
    ∃ s', Ends (fun fuel => spread join m blks fuel s) s' ∧ Nested s₀ (h :: q) top iv s' ∧
      Marked s₀ (h :: q) iv m (h :: q) s' ∧ Kept s s' ∧ ∀ x ∈ h :: q, Settled s₀ iv m s' x := by
  obtain ⟨s', hends, ⟨hn', hk', hkept⟩, hstop⟩ := spread_ends join m
    (I := fun s' => Nested s₀ (h :: q) top iv s' ∧ Marked s₀ (h :: q) iv m (h :: q) s' ∧ Kept s s')
    (by
      rintro s₁ change x hx ⟨hn, hk, hkept⟩
      obtain ⟨hn', hk', hkept', -⟩ := hk.spreadBack hred hm hn hx change
      exact ⟨hn', hk', hkept.trans hkept'⟩)
    blks (fun x hx => (hblks x).mp hx) _ s le_rfl ⟨hn, hk, .refl s⟩
  refine ⟨s', hends, hn', hk', hkept, fun x hx => ?_⟩
  obtain ⟨-, -, -, ⟨-, hset⟩ | ⟨-, hnone, hsome⟩⟩ := hk'.spreadBack hred hm hn' hx false
  · exact hset
  · rw [hstop x ((hblks x).mpr hx), hnone] at hsome
    exact absurd hsome Bool.false_ne_true

/-- The cycles that a level has caught: those inside one interval of the next level but not of this one. -/
def Caught (s₀ : Flow β) (l : List β) (iv : Intervals β) (m : ℕ) (s : Flow β) : Prop :=
  ∀ C, Cycle s₀.dest C → (∀ x ∈ C, x ∈ l) → (∀ x ∈ C, ∀ y ∈ C, iv.intervalNo x (m + 1) = iv.intervalNo y (m + 1)) →
    (∃ x ∈ C, ∃ y ∈ C, iv.intervalNo x m ≠ iv.intervalNo y m) → ∃ x ∈ C, s.loopHeader x = true

/-- Such a cycle as a run, with an edge by which it enters its interval. -/
theorem Levels.enters_cycle (hlv : Levels s h l top iv) (hm : m < top) {C : List β} (hC : Cycle s.dest C)
    (hCl : ∀ x ∈ C, x ∈ l) (hin : ∀ x ∈ C, ∀ y ∈ C, iv.intervalNo x (m + 1) = iv.intervalNo y (m + 1))
    (hout : ∃ x ∈ C, ∃ y ∈ C, iv.intervalNo x m ≠ iv.intervalNo y m) :
    ∃ (c : ℕ → β) (p : β) (i : ℕ), (∀ i, c i ∈ C) ∧ (∀ i, c (i + 1) ∈ s.dest (c i)) ∧
      (∀ i, c (i + C.length) = c i) ∧ (∀ i, iv.intervalNo (c i) (m + 1) = p) ∧ c (i + 1) = p ∧
        iv.intervalNo (c i) m ≠ p := by
  obtain ⟨c, hedge, hback, hmem⟩ := hC.run
  have hcC : ∀ i, c i ∈ C := fun i => (hmem _).mpr ⟨i, rfl⟩
  have hp : ∀ i, iv.intervalNo (c i) (m + 1) = iv.intervalNo (c 0) (m + 1) := fun i => hin _ (hcC i) _ (hcC 0)
  obtain ⟨i, hi, hne⟩ := hlv.enters hm (List.length_pos_iff.mpr hC.ne_nil) (fun i => hCl _ (hcC i)) hedge hback hp
    (by
      by_contra hnot
      push Not at hnot
      obtain ⟨x, hx, y, hy, hne⟩ := hout
      obtain ⟨i, rfl⟩ := (hmem x).mp hx
      obtain ⟨j, rfl⟩ := (hmem y).mp hy
      exact hne ((hnot i).trans (hnot j).symm))
  exact ⟨c, _, i, hcC, hedge, hback, hp, hi, hne⟩

/-- When the blocks are settled the level has caught its cycles. -/
theorem Marked.caught (hred : Reduced s₀ h q top iv join) (hm : m < top)
    (hk : Marked s₀ (h :: q) iv m (h :: q) s) (hset : ∀ x ∈ h :: q, Settled s₀ iv m s x) :
    Caught s₀ (h :: q) iv m s := by
  intro C hC hCl hin hout
  obtain ⟨c, p, i, hcC, hedge, hback, hp, hi, hne⟩ := hred.levels.enters_cycle hm hC hCl hin hout
  have hcl : ∀ i, c i ∈ h :: q := fun i => hCl _ (hcC i)
  have hpos : 0 < C.length := List.length_pos_iff.mpr hC.ne_nil
  -- the source of the edge is marked, and with each block the one before it
  have hsource : (s.next (c i)).isSome = true := by
    refine hk.source _ (hcl i) (by rwa [hp]) ?_
    rw [hp, ← hi]
    exact hedge i
  have hdown : ∀ d ≤ i + C.length, (s.next (c (i + C.length - d))).isSome = true := by
    intro d
    induction d with
    | zero => exact fun _ => by rw [Nat.sub_zero, hback]; exact hsource
    | succ d ih =>
        intro hd
        have hnext : i + C.length - d = i + C.length - (d + 1) + 1 := by omega
        have hih := ih (by omega)
        rw [hnext] at hih
        by_contra hnone
        have hnone' : s.next (c (i + C.length - (d + 1))) = none := by simpa using hnone
        rw [hset _ (hcl _) hnone' _ (hedge _) ((hp _).trans (hp _).symm)] at hih
        exact absurd hih Bool.false_ne_true
  have hmarked := hdown (C.length - 1) (by omega)
  have hplace : i + C.length - (C.length - 1) = i + 1 := by omega
  rw [hplace] at hmarked
  obtain ⟨t, ht⟩ := Option.isSome_iff_exists.mp hmarked
  have htp : t = c (i + 1) := by
    rw [hi, ← hp (i + 1)]
    exact (hk.back _ (hcl _) t ht).1.symm
  rcases hk.header _ (hcl _) t ht with hself | hheader
  · exact absurd (htp ▸ hself) (hred.ordered.noSelf _ (hcl (i + 1)))
  · exact ⟨c (i + 1), hcC _, htp ▸ hheader⟩

/-- A level of `NestingDepth`. -/
theorem Nested.level (hred : Reduced s₀ h q top iv join) (hm : m < top) {blks : List β}
    (hblks : ∀ x, x ∈ blks ↔ x ∈ h :: q) (hn : Nested s₀ (h :: q) top iv s) :
    ∃ s', Ends (fun fuel => spread join m blks fuel (blks.foldl (markBack join m) s)) s' ∧
      Nested s₀ (h :: q) top iv s' ∧ (∀ x, s.loopHeader x = true → s'.loopHeader x = true) ∧
        Caught s₀ (h :: q) iv m s' := by
  have hempty : Marked s₀ (h :: q) iv m [] s :=
    ⟨fun x hx => absurd hx List.not_mem_nil, fun x hx => absurd hx List.not_mem_nil,
      fun x hx => absurd hx List.not_mem_nil⟩
  obtain ⟨hn', hk', hheader⟩ :=
    hempty.foldl_markBack hred hm blks [] s (fun x hx => (hblks x).mp hx) hn
  have hk'' : Marked s₀ (h :: q) iv m (h :: q) (blks.foldl (markBack join m) s) :=
    hk'.mono fun x hx => by simpa using (hblks x).mpr hx
  obtain ⟨s', hends, hn'', hk''', hkept, hset⟩ := hk''.spread hred hm hblks hn'
  refine ⟨s', hends, hn'', fun x hx => hkept.loopHeader x ?_, hk'''.caught hred hm hset⟩
  rw [hheader]
  exact hx

/-- What differs when only the marks are changed. -/
def SameGraph (s s' : Flow β) : Prop :=
  s' = { s with next := s'.next, loopHeader := s'.loopHeader, loopHead := s'.loopHead, depth := s'.depth }

omit [DecidableEq β] in
theorem SameGraph.trans {s'' : Flow β} (h : SameGraph s s') (h' : SameGraph s' s'') : SameGraph s s'' := by
  unfold SameGraph at h h' ⊢
  rw [h] at h'
  exact h'

theorem sameGraph_markBack (x : β) : SameGraph s (FloGraph.markBack join m s x) := by
  unfold FloGraph.markBack
  split
  · rfl
  · rfl

theorem sameGraph_spreadBack (change : Bool) (x : β) : SameGraph s (FloGraph.spreadBack join m (s, change) x).1 := by
  unfold FloGraph.spreadBack
  split_ifs
  · rfl
  · split
    · rfl
    · rfl

/-- A level ends, whatever the levels of the edges are. -/
theorem level_ends (blks : List β) (s : Flow β) :
    ∃ s', Ends (fun fuel => spread join m blks fuel (blks.foldl (FloGraph.markBack join m) s)) s' ∧
      SameGraph s s' := by
  have hmark : ∀ (L : List β) (s : Flow β), SameGraph s (L.foldl (FloGraph.markBack join m) s) := by
    intro L
    induction L with
    | nil => exact fun s => rfl
    | cons x L ih => exact fun s => (sameGraph_markBack x).trans (ih _)
  obtain ⟨s', hends, hsame, -⟩ := spread_ends join m (I := SameGraph s)
    (fun s₁ change x _ h => h.trans (sameGraph_spreadBack change x)) blks (List.Subset.refl blks) _ _ le_rfl
    (hmark blks s)
  exact ⟨s', hends, hsame⟩

/-! ### The whole search -/

/-- `next` and `HeadBlock` are restored from the list of the links back. -/
theorem foldl_restore : ∀ (L m : List β) (s : Flow β), (L.reverse ++ m).Nodup → Chain s.next s.headBlock m →
    Chain (L.foldl (fun s blk => { s with next := update s.next blk s.headBlock, headBlock := some blk }) s).next
      (L.foldl (fun s blk => { s with next := update s.next blk s.headBlock, headBlock := some blk }) s).headBlock
      (L.reverse ++ m) ∧
    L.foldl (fun s blk => { s with next := update s.next blk s.headBlock, headBlock := some blk }) s = { s with
      next := (L.foldl (fun s blk => { s with next := update s.next blk s.headBlock, headBlock := some blk }) s).next
      headBlock :=
        (L.foldl (fun s blk => { s with next := update s.next blk s.headBlock, headBlock := some blk }) s).headBlock }
    := by
  intro L
  induction L with
  | nil => exact fun m s _ hchain => ⟨hchain, rfl⟩
  | cons b L ih =>
      intro m s hnodup hchain
      rw [List.reverse_cons, List.append_assoc] at hnodup ⊢
      have hb : b ∉ m := (List.nodup_cons.mp (List.nodup_append'.mp hnodup).2.1).1
      obtain ⟨hchain', hframe⟩ := ih (b :: m)
        { s with next := update s.next b s.headBlock, headBlock := some b } hnodup (Chain.push hchain hb)
      exact ⟨hchain', hframe⟩

/-- A head is on a cycle, and on every way to the blocks that have it. -/
theorem Nested.heads (hred : Reduced s₀ h q top iv join) (hn : Nested s₀ (h :: q) top iv s)
    (hcaught : ∀ m < top - 1, Caught s₀ (h :: q) iv m s) : Heads s h (h :: q) where
  header t ht hheader := by
    obtain ⟨m, hm, S, hS, rfl, hedge⟩ := hn.header t ht hheader
    obtain ⟨done, rest, hsplit⟩ := List.append_of_mem hS
    rw [hn.dest]
    exact Reach.cycle (hred.levels.reach hred.ordered hm done.length done S rest le_rfl hsplit) hedge
  loopHead x hx t ht way hway := by
    obtain ⟨m, hm, rfl⟩ := hn.loopHead x hx t ht
    rw [hn.dest] at hway
    exact (hred.levels.dominates List.mem_cons_self hred.ordered.consistent.dest_mem hm hway).2
  cycle C hC hCl := by
    rw [hn.dest] at hC
    -- the first level at which the cycle is in one interval
    have hex : ∃ k, k ≤ top ∧ ∀ x ∈ C, ∀ y ∈ C, iv.intervalNo x k = iv.intervalNo y k :=
      ⟨top, le_rfl, fun x hx y hy => (hred.all x (hCl x hx)).trans (hred.all y (hCl y hy)).symm⟩
    classical
    obtain ⟨hk, hin⟩ := Nat.find_spec hex
    cases hfind : Nat.find hex with
    | zero =>
        rw [hfind] at hin
        obtain ⟨c, hedge, -, hmem⟩ := hC.run
        have heq : c 0 = c 1 := hin _ ((hmem _).mpr ⟨0, rfl⟩) _ ((hmem _).mpr ⟨1, rfl⟩)
        have hself := hedge 0
        rw [Nat.zero_add, ← heq] at hself
        exact absurd hself (hred.ordered.noSelf _ (hCl _ ((hmem _).mpr ⟨0, rfl⟩)))
    | succ m =>
        rw [hfind] at hk hin
        have hout : ∃ x ∈ C, ∃ y ∈ C, iv.intervalNo x m ≠ iv.intervalNo y m := by
          have hnot := Nat.find_min hex (m := m) (by omega)
          push Not at hnot
          exact hnot (by omega)
        by_cases hlast : m + 1 = top
        · -- the head has no input edges
          obtain ⟨c, p, i, hcC, hedge, -, hp, hi, -⟩ := hred.levels.enters_cycle hk hC hCl hin hout
          have hph : p = h := by
            rw [← hp 0, hlast]
            exact hred.all _ (hCl _ (hcC 0))
          exact absurd (hph ▸ hi ▸ hedge i) (hred.ordered.noInput _ (hCl _ (hcC i)))
        · exact hcaught m (by omega) C hC hCl hin hout

/-- `NestingDepth` ends and leaves the block list, with what the levels leave. -/
theorem nestingDepth_ends (top : ℕ) (join : Edge β → Option ℕ) {P : List ℕ → Flow β → Prop} (hlinked : Linked s l)
    (hstart : P [] s)
    (hlevel : ∀ done m rest, List.range (top - 1) = done ++ m :: rest → ∀ s₁, P done s₁ →
      ∃ s₂, Ends (fun fuel => spread join m l.reverse fuel (l.reverse.foldl (markBack join m) s₁)) s₂ ∧
        P (done ++ [m]) s₂)
    (hsame : ∀ s₁, P (List.range (top - 1)) s₁ → SameGraph s s₁) :
    ∃ s₁ s', Ends (fun fuel => nestingDepth top fuel join s) s' ∧ Linked s' l ∧ SameGraph s s' ∧
      P (List.range (top - 1)) s₁ ∧ s'.loopHeader = s₁.loopHeader ∧ s'.loopHead = s₁.loopHead := by
  obtain ⟨s₁, hends, hP⟩ := Ends.foldlM
    (k := fun fuel s level => spread join level l.reverse fuel (l.reverse.foldl (markBack join level) s))
    hstart hlevel
  have hsame₁ := hsame s₁ hP
  obtain ⟨hchain, hframe⟩ := foldl_restore l.reverse [] { s₁ with headBlock := none }
    (by simpa using hlinked.next.nodup) rfl
  rw [List.reverse_reverse, List.append_nil] at hchain
  obtain ⟨s₂, hs₂⟩ : ∃ s₂, l.reverse.foldl
      (fun s blk => { s with next := update s.next blk s.headBlock, headBlock := some blk })
      { s₁ with headBlock := none } = s₂ := ⟨_, rfl⟩
  rw [hs₂] at hchain hframe
  have hprev : s₂.prev = s.prev := by rw [hframe, hsame₁]
  have hlist : s₂.blockList = s.blockList := by rw [hframe, hsame₁]
  have hheadBlock : s₂.headBlock = s.headBlock := (chain_head? hchain).trans (chain_head? hlinked.next).symm
  refine ⟨s₁, s₂, ?_, ⟨hchain, by rw [hprev, hlist]; exact hlinked.prev⟩, ?_, hP, by rw [hframe], by rw [hframe]⟩
  · rw [← hs₂]
    exact (Ends.walk hlinked.prev).bind (h := fun fuel blks => ((List.range (top - 1)).foldlM (fun s level =>
      spread join level blks fuel (blks.foldl (markBack join level) s)) s).map fun s =>
        blks.foldl (fun s blk => { s with next := update s.next blk s.headBlock, headBlock := some blk })
          { s with headBlock := none }) (hends.map _)
  · unfold SameGraph at hsame₁ ⊢
    rw [hframe] at hheadBlock ⊢
    rw [hsame₁] at hheadBlock ⊢
    dsimp only at hheadBlock ⊢
    rw [hheadBlock]

/-- When the graph is reduced it finds the heads of the loops. -/
theorem Reduced.nestingDepth (hred : Reduced s h q top iv join) (hlinked : Linked s (iv.blocks top h))
    (hheader : ∀ t ∈ h :: q, s.loopHeader t = false) (hloopHead : ∀ x ∈ h :: q, s.loopHead x = none) :
    ∃ s', Ends (fun fuel => nestingDepth top fuel join s) s' ∧ Linked s' (iv.blocks top h) ∧ SameGraph s s' ∧
      Heads s' h (h :: q) := by
  have hblks : ∀ x, x ∈ (iv.blocks top h).reverse ↔ x ∈ h :: q := fun x => by
    rw [List.mem_reverse, hred.mem_blocks]
  have hstart : Nested s (h :: q) top iv s :=
    ⟨fun t ht hh => by rw [hheader t ht] at hh; exact absurd hh Bool.false_ne_true,
      fun x hx t ht => absurd (hloopHead x hx ▸ ht) (Option.some_ne_none t).symm, rfl⟩
  obtain ⟨s₁, s', hends, hlinked', hsame, ⟨hn, hcaught⟩, hheader', hloopHead'⟩ := nestingDepth_ends top join
    (P := fun done s' => Nested s (h :: q) top iv s' ∧ ∀ m ∈ done, Caught s (h :: q) iv m s') hlinked
    ⟨hstart, fun m hm => absurd hm List.not_mem_nil⟩
    (by
      rintro done m rest hsplit s₁ ⟨hn, hcaught⟩
      have hm : m ∈ List.range (top - 1) := by rw [hsplit]; simp
      have hlt : m < top := by have := List.mem_range.mp hm; omega
      obtain ⟨s₂, hends, hn', hkept, hcaught'⟩ := hn.level hred hlt hblks
      refine ⟨s₂, hends, hn', fun m' hm' C hC hCl hin hout => ?_⟩
      rcases List.mem_append.mp hm' with hm' | hm'
      · obtain ⟨x, hx, hh⟩ := hcaught m' hm' C hC hCl hin hout
        exact ⟨x, hx, hkept x hh⟩
      · obtain rfl := List.mem_singleton.mp hm'
        exact hcaught' C hC hCl hin hout)
    fun s₁ h => h.1.frame
  have hheads := hn.heads hred fun m hm => hcaught m (List.mem_range.mpr hm)
  have hdest : s'.dest = s₁.dest := by rw [hsame, hn.dest]
  refine ⟨s', hends, hlinked', hsame, ⟨?_, ?_, ?_⟩⟩
  · rw [hheader', hdest]
    exact hheads.header
  · rw [hloopHead', hdest]
    exact hheads.loopHead
  · rw [hheader', hdest]
    exact hheads.cycle

end Intervals

/-! ### The flood -/

section Flood

variable {s : Flow β} {l : List β}

/-- A flood ends: each block is entered once. -/
theorem Ends.flood (parm : β) {dest : β → List β} (hclosed : ∀ x ∈ l, ∀ c ∈ dest x, c ∈ l) (n : ℕ) :
    ∀ (blk : β) (t : (β → Bool) × Bool), blk ∈ l → unvisitedCount l t.1 ≤ n →
      ∃ t', Ends (fun fuel => flood dest parm fuel blk t) t' ∧ ∀ x, t.1 x = true → t'.1 x = true := by
  induction n using Nat.strong_induction_on with
  | _ n ih =>
      have hedges : ∀ (L : List β) (t : (β → Bool) × Bool), L ⊆ l → unvisitedCount l t.1 ≤ n →
          ∃ t', Ends (fun fuel => floodEdges parm (FloGraph.flood dest parm fuel) L t) t' ∧
            ∀ x, t.1 x = true → t'.1 x = true := by
        intro L
        induction L with
        | nil => exact fun t _ _ => ⟨t, .const t, fun x hx => hx⟩
        | cons next L ihL =>
            intro t hL hn
            have hL' : L ⊆ l := fun x hx => hL (List.mem_cons_of_mem next hx)
            by_cases hvisited : t.1 next = true
            · obtain ⟨t', hends, hkept⟩ := ihL t hL' hn
              exact ⟨t', hends.congr fun fuel => by rw [floodEdges, if_pos hvisited], hkept⟩
            · by_cases hparm : next = parm
              · refine ⟨(t.1, true), (Ends.const _).congr fun fuel => ?_, fun x hx => hx⟩
                rw [floodEdges, if_neg hvisited, if_pos hparm]
              · have hlt := unvisitedCount_lt (hL List.mem_cons_self) (by simpa using hvisited)
                obtain ⟨t₁, hends₁, hkept₁⟩ :=
                  ih _ (lt_of_lt_of_le hlt hn) next (update t.1 next true, t.2) (hL List.mem_cons_self) le_rfl
                have hcount : unvisitedCount l t₁.1 ≤ n :=
                  (unvisitedCount_le hkept₁).trans (hlt.le.trans hn)
                obtain ⟨t₂, hends₂, hkept₂⟩ := ihL t₁ hL' hcount
                refine ⟨t₂, (hends₁.bind (h := fun fuel => floodEdges parm (FloGraph.flood dest parm fuel) L)
                  hends₂).congr fun fuel => ?_, fun x hx => hkept₂ x (hkept₁ x ?_)⟩
                · rw [floodEdges, if_neg hvisited, if_neg hparm]
                · by_cases hxn : x = next
                  · rw [hxn]
                    exact update_self ..
                  · dsimp only
                    rwa [update_of_ne hxn]
      intro blk t hblk hn
      obtain ⟨t', hends, hkept⟩ := hedges (dest blk) t (hclosed blk hblk) hn
      exact ⟨t', hends.succ fun fuel => rfl, hkept⟩

/-- `Degenerate` ends. -/
theorem Ends.degenerate (hcons : Consistent l s) (hchain : Chain s.next s.headBlock l) :
    ∃ found, Ends (fun fuel => degenerate fuel s) found := by
  have hall : ∀ L : List (β × β), (∀ x ∈ L, x.1 ∈ l) → ∃ found, Ends (fun fuel => floodAll s fuel L) found := by
    intro L
    induction L with
    | nil => exact fun _ => ⟨false, .const false⟩
    | cons x L ih =>
        intro hL
        obtain ⟨t, hends, -⟩ := Ends.flood x.2 hcons.dest_mem _ x.1 (fun _ => false, false)
          (hL x List.mem_cons_self) le_rfl
        obtain ⟨found, hrest⟩ := ih fun y hy => hL y (List.mem_cons_of_mem x hy)
        by_cases ht : t.2 = true
        · refine ⟨true, (hends.bind (h := fun fuel (t : (β → Bool) × Bool) => if t.2 then some true else
            floodAll s fuel L) ?_).congr fun fuel => by rw [floodAll]⟩
          simp only [ht, if_true]
          exact .const true
        · refine ⟨found, (hends.bind (h := fun fuel (t : (β → Bool) × Bool) => if t.2 then some true else
            floodAll s fuel L) ?_).congr fun fuel => by rw [floodAll]⟩
          simp only [ht, if_false, Bool.false_eq_true]
          exact hrest
  obtain ⟨found, hends⟩ := hall (selectInputs s l) fun x hx => by
    obtain ⟨blk, hblk, hx⟩ := List.mem_flatMap.mp hx
    obtain ⟨source, hsource, rfl⟩ := List.mem_map.mp hx
    obtain ⟨e, he, rfl⟩ := List.mem_map.mp (List.mem_filter.mp hsource).1
    exact ((hcons.inputs_iff blk (List.mem_filter.mp hblk).1 e).mp he).1
  exact ⟨found, (Ends.walk hchain).bind (h := fun fuel blks => floodAll s fuel (selectInputs s blks)) hends⟩

end Flood

end OpenWatcom.FloGraph
