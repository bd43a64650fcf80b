import OpenWatcom.Cg.FloDepth

/-! # The flow graph that is made

`MakeFlowGraph` always ends with a block list of all blocks, those that it has put into the edges from a block to itself
included, and marks loops only when the graph is reduced to one interval. -/

namespace OpenWatcom.FloGraph

open Chains

variable {β : Type*} [DecidableEq β] {s s' : Flow β} {h : β} {q l : List β} {n top : ℕ}

omit [DecidableEq β] in
theorem Ordered.congr (hord : Ordered s h q) (hdest : s'.dest = s.dest) (hinputs : s'.inputs = s.inputs) :
    Ordered s' h q where
  consistent := ⟨by rw [hdest, hinputs]; exact hord.consistent.inputs_iff,
    by rw [hinputs]; exact hord.consistent.inputs_nodup, by rw [hdest]; exact hord.consistent.dest_mem⟩
  noSelf := by rw [hdest]; exact hord.noSelf
  noInput := by rw [hdest]; exact hord.noInput
  tree := by rw [hdest]; exact hord.tree
  nodup := hord.nodup

omit [DecidableEq β] in
theorem Consistent.congr {l' : List β} (h : Consistent l s) (hmem : ∀ b, b ∈ l' ↔ b ∈ l) : Consistent l' s where
  inputs_iff b hb e := by rw [hmem]; exact h.inputs_iff b ((hmem b).mp hb) e
  inputs_nodup b hb := h.inputs_nodup b ((hmem b).mp hb)
  dest_mem b hb c hc := (hmem c).mpr (h.dest_mem b ((hmem b).mp hb) c hc)

omit [DecidableEq β] in
theorem Intervals.Levels.congr {iv : Intervals β} (hlv : Levels s h l n iv) (hdest : s'.dest = s.dest) :
    Levels s' h l n iv :=
  { hlv with
    entry := by rw [hdest]; exact hlv.entry
    ordered := by rw [hdest]; exact hlv.ordered }

omit [DecidableEq β] in
/-- A head from which other blocks are reached does not return. -/
theorem Ordered.head_return (hord : Ordered s h q) (hret : ∀ b ∈ h :: q, s.isReturn b = true → s.dest b = []) :
    s.isReturn h = false ∨ q = [] := by
  cases q with
  | nil => exact .inr rfl
  | cons b q =>
      left
      obtain ⟨y, hy, hedge⟩ := hord.tree [h] b q rfl (List.cons_ne_nil h [])
      obtain rfl := List.mem_singleton.mp hy
      by_contra hreturn
      rw [hret y List.mem_cons_self (by simpa using hreturn)] at hedge
      exact absurd hedge List.not_mem_nil

/-- `ReturnsToBottom` when the head does not return or is the only block. -/
theorem Ends.returnsToBottom_of (hlinked : Linked s l) (hhead : s.headBlock = some h)
    (hret : s.isReturn h = false ∨ l = [h]) :
    ∃ s' l', Ends (fun fuel => FloGraph.returnsToBottom fuel s) s' ∧ Linked s' l' ∧ l'.Perm l ∧
      s' = { s with blockList := s'.blockList, next := s'.next, prev := s'.prev } := by
  rcases hret with hret | rfl
  · exact Ends.returnsToBottom hlinked hhead hret
  · have hlist : s.blockList = some h := hlinked.prev.1
    have hprev : s.prev h = none := hlinked.prev.2
    refine ⟨s, [h], ?_, hlinked, List.Perm.refl _, rfl⟩
    refine (Ends.walk hlinked.next).bind (h := fun fuel blks => blks.getLast?.bind fun last =>
      returnsToBottomFrom fuel (s.prev last) last s) ((Ends.const s).succ fun fuel => ?_)
    simp only [List.getLast?_singleton, Option.bind_some, hprev, returnsToBottomFrom]
    rw [← hlist]

/-! ### From the depth first order on -/

/-- What is known before the intervals are looked for. -/
structure Entered (s : Flow β) (h : β) (q : List β) : Prop where
  ordered : Ordered s h q
  links : Chain s.prev s.blockList (h :: q)
  header : ∀ b ∈ h :: q, s.loopHeader b = false
  loopHead : ∀ b ∈ h :: q, s.loopHead b = none
  returns : ∀ b ∈ h :: q, s.isReturn b = true → s.dest b = []

/-- What is left when the marks are taken back. -/
theorem Linked.give_up (hlinked : Linked s l) (hhead : s.headBlock = some h) (hret : s.isReturn h = false ∨ l = [h]) :
    ∃ s' l', Ends (fun fuel => (irreducable fuel s).bind fun s => returnsToBottom fuel s) s' ∧ Linked s' l' ∧
      l'.Perm l ∧ (∀ b ∈ l, s'.loopHeader b = false) ∧ s'.headBlock = s.headBlock ∧ s'.dest = s.dest ∧
        s'.inputs = s.inputs := by
  obtain ⟨s₁, hends₁, hclear, hframe₁⟩ := Ends.irreducable hlinked.next
  have hlinked₁ : Linked s₁ l := by
    rw [hframe₁]
    exact ⟨hlinked.next, hlinked.prev⟩
  obtain ⟨s₂, l', hends₂, hlinked₂, hperm, hframe₂⟩ := Ends.returnsToBottom_of (h := h) hlinked₁
    (by rw [hframe₁]; exact hhead) (by rw [hframe₁]; exact hret)
  refine ⟨s₂, l', hends₁.bind (h := fun fuel s => returnsToBottom fuel s) hends₂, hlinked₂, hperm, fun b hb => ?_,
    ?_, ?_, ?_⟩
  · rw [hframe₂]
    exact (hclear b hb).1
  · rw [hframe₂, hframe₁]
  · rw [hframe₂, hframe₁]
  · rw [hframe₂, hframe₁]

/-- What `FixLinks` and `FindIntervals` find. -/
structure Entered.Found (s : Flow β) (h : β) (q : List β) (s₁ : Flow β) (single : Bool) (top : ℕ)
    (iv : Intervals β) : Prop where
  fixLinks : Ends (fun fuel => (fixLinks fuel s).bind (startIntervals fuel)) s₁
  findIntervals : Ends (fun fuel => findIntervals fuel s₁) (single, top, iv)
  links : Linked s₁ (h :: q)
  head : s₁.headBlock = some h
  id : s₁.blkId h = 1
  frame : s₁ = { s with
    headBlock := s₁.headBlock
    blockList := s₁.blockList
    next := s₁.next
    prev := s₁.prev
    depth := s₁.depth
    blkId := s₁.blkId }
  ordered : Ordered s₁ h q
  levels : Intervals.Levels s₁ h (h :: q) top iv
  single_iff : single = true ↔ ∀ b ∈ h :: q, iv.intervalNo b top = h

theorem Entered.found (hent : Entered s h q) : ∃ s₁ single top iv, Entered.Found s h q s₁ single top iv := by
  obtain ⟨s₁, hfix, hlinked, hhead, hid, hframe⟩ := Ends.fixLinks hent.links
  have hhead₁ : s₁.headBlock = some h := hhead.trans hent.links.1
  set s₂ : Flow β := { s₁ with depth := (h :: q).foldl (fun depth blk => Function.update depth blk 0) s₁.depth } with hs₂
  have hord : Ordered s₂ h q := hent.ordered.congr (by rw [hs₂, hframe]) (by rw [hs₂, hframe])
  obtain ⟨single, top, iv, hfind, hlv, -, hsingle⟩ :=
    Intervals.Levels.findIntervals (s := s₂) hord hhead₁ hlinked.next
  refine ⟨s₂, single, top, iv, hfix.bind (h := startIntervals) ?_, hfind, ⟨hlinked.next, hlinked.prev⟩, hhead₁,
    hid 0 h rfl, by rw [hs₂, hframe], hord, hlv, hsingle⟩
  exact (Ends.walk hlinked.next).map _

/-- What `ReorderBlocks` and `EdgeLevels` leave when there is one interval. -/
structure Entered.Sorted (h : β) (q : List β) (s₁ : Flow β) (top : ℕ) (iv : Intervals β) (last : ℕ → β → β)
    (s₂ : Flow β) : Prop where
  reorderBlocks : Ends (fun fuel => reorderBlocks top fuel iv s₁) (last, s₂)
  links : Linked s₂ (iv.blocks top h)
  id : ∀ i x, (iv.blocks top h)[i]? = some x → s₂.blkId x = (i + 1) % 2 ^ 16
  last : ∀ m ≤ top, ∀ p ∈ h :: q, iv.intervalNo p m = p → (iv.blocks m p).getLast? = some (last m p)
  frame : s₂ = { s₁ with blockList := s₂.blockList, next := s₂.next, prev := s₂.prev, blkId := s₂.blkId }

theorem Entered.Found.sorted {s₁ : Flow β} {iv : Intervals β} (hf : Entered.Found s h q s₁ true top iv) :
    ∃ last s₂, Entered.Sorted h q s₁ top iv last s₂ := by
  have hprev : s₁.prev h = none := by
    have hlinks := hf.links.prev
    rw [List.reverse_cons] at hlinks
    obtain ⟨r, -, hr⟩ := path_append.mp hlinks
    exact hr.2
  obtain ⟨last, s₂, hends, hlinked, hid, hlast, hframe⟩ :=
    hf.levels.reorderBlocks hf.head hprev hf.id (hf.single_iff.mp rfl)
  exact ⟨last, s₂, hends, hlinked, hid, hlast, hframe⟩

theorem Entered.Found.mem_blocks {s₁ : Flow β} {iv : Intervals β} (hf : Entered.Found s h q s₁ true top iv) (b : β) :
    b ∈ iv.blocks top h ↔ b ∈ h :: q :=
  (hf.levels.mem_blocks le_rfl List.mem_cons_self (hf.levels.head top le_rfl)).trans
    (and_iff_left_of_imp fun hb => hf.single_iff.mp rfl b hb)

theorem Entered.Found.perm {s₁ : Flow β} {iv : Intervals β} (hf : Entered.Found s h q s₁ true top iv) :
    (iv.blocks top h).Perm (h :: q) :=
  (List.perm_ext_iff_of_nodup (hf.levels.nodup_blocks le_rfl List.mem_cons_self (hf.levels.head top le_rfl))
    hf.ordered.nodup).mpr hf.mem_blocks

/-- The levels of the edges and the search for loops; the heads are right when the numbers of the blocks are. -/
theorem Entered.Sorted.loops {s₁ s₂ : Flow β} {iv : Intervals β} {last : ℕ → β → β} (hent : Entered s h q)
    (hf : Entered.Found s h q s₁ true top iv) (hs : Entered.Sorted h q s₁ top iv last s₂) :
    ∃ join s₃, Ends (fun fuel => edgeLevels top fuel iv last s₂) join ∧
      Ends (fun fuel => nestingDepth top fuel join s₂) s₃ ∧ Linked s₃ (iv.blocks top h) ∧
        Intervals.SameGraph s₂ s₃ ∧ ((h :: q).length < 2 ^ 16 → Heads s₃ h (h :: q)) := by
  have hdest₂ : s₂.dest = s₁.dest := by rw [hs.frame]
  have hinputs₂ : s₂.inputs = s₁.inputs := by rw [hs.frame]
  have hord₂ : Ordered s₂ h q := hf.ordered.congr hdest₂ hinputs₂
  by_cases hsize : (h :: q).length < 2 ^ 16
  · have hnum : Numbered s₂ (iv.blocks top h) := numbered hs.id (by rw [hf.perm.length_eq]; exact hsize)
    obtain ⟨join, hjoin, hjoined⟩ := hf.levels.edgeLevels (hf.single_iff.mp rfl) hnum hs.last hord₂.consistent
      hord₂.noSelf hs.links.next
    have hred : Intervals.Reduced s₂ h q top iv join :=
      ⟨hord₂, hf.levels.congr hdest₂, hf.single_iff.mp rfl, hnum, hjoined⟩
    obtain ⟨s₃, hnest, hlinked₃, hsame, hheads⟩ := hred.nestingDepth hs.links
      (by rw [hs.frame, hf.frame]; exact hent.header) (by rw [hs.frame, hf.frame]; exact hent.loopHead)
    exact ⟨join, s₃, hjoin, hnest, hlinked₃, hsame, fun _ => hheads⟩
  · have hjoin := (Ends.walk hs.links.next).map fun blks =>
      (blks.flatMap fun blk => (s₂.inputs blk).map fun edge => (blk, edge)).foldl (fun join x =>
        Function.update join x.2 (joinLevel iv last s₂.blkId x.2.source (top + 1) 0 x.1 (join x.2))) fun _ => none
    obtain ⟨s₁', s₃, hnest, hlinked₃, hsame, -⟩ := Intervals.nestingDepth_ends top _
      (P := fun _ s' => Intervals.SameGraph s₂ s') hs.links rfl
      (fun done m rest _ s' h => (Intervals.level_ends _ s').imp fun s'' h' => ⟨h'.1, h.trans h'.2⟩)
      fun s' h => h
    exact ⟨_, s₃, hjoin, hnest, hlinked₃, hsame, fun h => absurd h hsize⟩

/-- The passes from the depth first order on. -/
theorem Entered.makeIntervals (hent : Entered s h q) :
    ∃ ending s' l', Ends (fun fuel => makeIntervals fuel s) (ending, s') ∧ Linked s' l' ∧ s'.headBlock = some h ∧
      l'.Perm (h :: q) ∧ ending ≠ .unreachable ∧ s'.dest = s.dest ∧ s'.inputs = s.inputs ∧
        (ending ≠ .nested → ∀ b ∈ h :: q, s'.loopHeader b = false) ∧
          (ending = .nested → (h :: q).length < 2 ^ 16 → Heads s' h (h :: q)) := by
  obtain ⟨s₁, single, top, iv, hf⟩ := hent.found
  have hdest₁ : s₁.dest = s.dest := by rw [hf.frame]
  have hinputs₁ : s₁.inputs = s.inputs := by rw [hf.frame]
  have hret₁ : s₁.isReturn h = false ∨ h :: q = [h] := by
    rw [hf.frame]
    exact (hent.ordered.head_return hent.returns).imp_right fun hq => by rw [hq]
  cases single with
  | false =>
      obtain ⟨s₂, l', hends, hlinked, hperm, hclear, hhead, hdest, hinputs⟩ := hf.links.give_up hf.head hret₁
      refine ⟨.irreducable, s₂, l', ?_, hlinked, hhead.trans hf.head, hperm, by simp, hdest.trans hdest₁,
        hinputs.trans hinputs₁, fun _ => hclear, by simp⟩
      refine hf.fixLinks.bind (h := fun fuel s => _) (hf.findIntervals.bind (h := fun fuel found => _) ?_)
      refine (hends.map fun s => (Ending.irreducable, s)).congr fun fuel => ?_
      simp only [Bool.false_eq_true, if_false, Option.map_bind]
      rfl
  | true =>
      obtain ⟨last, s₂, hs⟩ := hf.sorted
      obtain ⟨join, s₃, hjoin, hnest, hlinked₃, hsame, hheads⟩ := hs.loops hent hf
      have hframe₃ := hsame
      unfold Intervals.SameGraph at hframe₃
      have hmem := hf.mem_blocks
      have hperm := hf.perm
      have hdest₃ : s₃.dest = s.dest := by rw [hframe₃, hs.frame]; exact hdest₁
      have hinputs₃ : s₃.inputs = s.inputs := by rw [hframe₃, hs.frame]; exact hinputs₁
      have hhead₃ : s₃.headBlock = some h := by
        rw [hframe₃, hs.frame]
        exact hf.head
      have hret₃ : s₃.isReturn h = false ∨ iv.blocks top h = [h] := by
        rw [hframe₃, hs.frame]
        exact hret₁.imp_right fun hq => by
          rw [hq] at hperm
          exact List.perm_singleton.mp hperm
      obtain ⟨isDegenerate, hdeg⟩ :=
        Ends.degenerate ((hent.ordered.congr hdest₃ hinputs₃).consistent.congr hmem) hlinked₃.next
      cases isDegenerate with
      | true =>
          obtain ⟨s₄, l', hends, hlinked, hperm', hclear, hhead, hdest, hinputs⟩ := hlinked₃.give_up hhead₃ hret₃
          refine ⟨.degenerate, s₄, l', ?_, hlinked, hhead.trans hhead₃, hperm'.trans hperm, by simp,
            hdest.trans hdest₃, hinputs.trans hinputs₃, fun _ b hb => hclear b ((hmem b).mpr hb), by simp⟩
          refine hf.fixLinks.bind (h := fun fuel s => _) (hf.findIntervals.bind (h := fun fuel found => _) ?_)
          refine (hs.reorderBlocks.bind (h := fun fuel t => _) (hjoin.bind (h := fun fuel join => _)
            (hnest.bind (h := fun fuel s => _) (hdeg.bind (h := fun fuel found => _)
              ((hends.map fun s => (Ending.degenerate, s)).congr fun fuel => ?_)))))
          simp only [if_true, Option.map_bind]
          rfl
      | false =>
          obtain ⟨s₄, l', hends, hlinked, hperm', hframe₄⟩ := Ends.returnsToBottom_of hlinked₃ hhead₃ hret₃
          refine ⟨.nested, s₄, l', ?_, hlinked, by rw [hframe₄]; exact hhead₃, hperm'.trans hperm, by simp,
            by rw [hframe₄]; exact hdest₃, by rw [hframe₄]; exact hinputs₃, fun h => absurd rfl h, fun _ hsize => ?_⟩
          · refine hf.fixLinks.bind (h := fun fuel s => _) (hf.findIntervals.bind (h := fun fuel found => _) ?_)
            refine (hs.reorderBlocks.bind (h := fun fuel t => _) (hjoin.bind (h := fun fuel join => _)
              (hnest.bind (h := fun fuel s => _) (hdeg.bind (h := fun fuel found => _)
                ((hends.map fun s => (Ending.nested, s)).congr fun fuel => ?_)))))
            simp only [Bool.false_eq_true, if_false]
          · rw [hframe₄]
            exact ⟨(hheads hsize).header, (hheads hsize).loopHead, (hheads hsize).cycle⟩

/-! ### The whole pass -/

section Routine

variable {fresh : Edge β → β}

/-- The blocks that are put into the edges from a block to itself. -/
def made (fresh : Edge β → β) (s : Flow β) (l : List β) : List β := (l.flatMap (selfs s)).map fresh

theorem mem_made {x : β} (hcons : Consistent l s) : x ∈ made fresh s l ↔
    ∃ e : Edge β, (e.source ∈ l ∧ (s.dest e.source)[e.index]? = some e.source) ∧ x = fresh e := by
  simp only [made, List.mem_map, List.mem_flatMap]
  constructor
  · rintro ⟨e, ⟨b, hb, he⟩, rfl⟩
    obtain ⟨rfl, hself⟩ := (hcons.mem_selfs hb).mp he
    exact ⟨e, ⟨hb, hself⟩, rfl⟩
  · rintro ⟨e, ⟨hb, hself⟩, rfl⟩
    exact ⟨e, ⟨e.source, hb, (hcons.mem_selfs hb).mpr ⟨rfl, hself⟩⟩, rfl⟩

theorem nodup_made (hfresh : Fresh fresh l) (hcons : Consistent l s) (hl : l.Nodup) : (l ++ made fresh s l).Nodup := by
  have hsource : ∀ b ∈ l, ∀ e ∈ selfs s b, e.source = b := fun b hb e he => ((hcons.mem_selfs hb).mp he).1
  have hselfs : (l.flatMap (selfs s)).Nodup := by
    refine List.nodup_flatMap.mpr ⟨fun b hb => (hcons.inputs_nodup b hb).filter _, ?_⟩
    refine (List.Pairwise.imp_of_mem ?_ hl)
    intro b c hb hc hne e he he'
    exact hne ((hsource b hb e he).symm.trans (hsource c hc e he'))
  refine List.nodup_append'.mpr ⟨hl, List.Nodup.map_on ?_ hselfs, fun x hx hmade => ?_⟩
  · intro e he e' he' heq
    obtain ⟨b, hb, he⟩ := List.mem_flatMap.mp he
    obtain ⟨c, hc, he'⟩ := List.mem_flatMap.mp he'
    exact hfresh.injective e e' (hsource b hb e he ▸ hb) (hsource c hc e' he' ▸ hc) heq
  · obtain ⟨e, ⟨he, -⟩, rfl⟩ := (mem_made hcons).mp hmade
    exact hfresh.not_mem e he hx

/-- The blocks that the head leads to are the same before and after. -/
theorem Split.reach {s₀ : Flow β} {P : List (Edge β)} (hsplit : Split fresh l s₀ P s) (hcons : Consistent l s₀)
    (hP : ∀ e, e ∈ P ↔ e.source ∈ l ∧ (s₀.dest e.source)[e.index]? = some e.source) {l' : List β}
    (hl' : ∀ x, x ∈ l' ↔ x ∈ l ∨ ∃ e ∈ P, x = fresh e) (hfresh : Fresh fresh l) (hh : h ∈ l) :
    (∀ b ∈ l', Reach s.dest h b) ↔ ∀ b ∈ l, Reach s₀.dest h b := by
  have hkeep : ∀ x ∈ l, ∀ y ∈ s₀.dest x, y ≠ x → y ∈ s.dest x := by
    intro x hx y hy hne
    obtain ⟨i, hi⟩ := List.getElem?_of_mem hy
    rw [hsplit.dest x hx]
    refine List.mem_of_getElem? (i := i) ?_
    rw [List.getElem?_mapIdx, hi, Option.map_some, if_neg]
    rw [hP]
    rintro ⟨-, hself⟩
    exact hne (Option.some.inj (hi.symm.trans hself))
  have hold : ∀ x ∈ l, ∀ y ∈ s.dest x, y ∈ s₀.dest x ∨ ∃ e ∈ P, e.source = x ∧ y = fresh e := by
    intro x hx y hy
    obtain ⟨i, hi⟩ := List.getElem?_of_mem hy
    rw [hsplit.dest x hx, List.getElem?_mapIdx, Option.map_eq_some_iff] at hi
    obtain ⟨c, hc, rfl⟩ := hi
    split_ifs with hmem
    · exact .inr ⟨_, hmem, rfl, rfl⟩
    · exact .inl (List.mem_of_getElem? hc)
  have hforth : ∀ b, Reach s₀.dest h b → b ∈ l ∧ Reach s.dest h b := by
    intro b hb
    induction hb with
    | refl => exact ⟨hh, .refl⟩
    | @tail b c _ hbc ih =>
        refine ⟨hcons.dest_mem b ih.1 c hbc, ?_⟩
        by_cases hcb : c = b
        · exact hcb ▸ ih.2
        · exact ih.2.tail (hkeep b ih.1 c hbc hcb)
  have hnew : ∀ e ∈ P, fresh e ∈ s.dest e.source := by
    intro e he
    obtain ⟨hsource, hself⟩ := (hP e).mp he
    rw [hsplit.dest _ hsource]
    refine List.mem_of_getElem? (i := e.index) ?_
    rw [List.getElem?_mapIdx, hself, Option.map_some, if_pos he]
  have hback : ∀ b, Reach s.dest h b → (b ∈ l ∧ Reach s₀.dest h b) ∨
      ∃ e ∈ P, b = fresh e ∧ Reach s₀.dest h e.source := by
    intro b hb
    induction hb with
    | refl => exact .inl ⟨hh, .refl⟩
    | @tail b c _ hbc ih =>
        rcases ih with ⟨hb, hreach⟩ | ⟨e, he, rfl, hreach⟩
        · rcases hold b hb c hbc with hc | ⟨e, he, rfl, rfl⟩
          · exact .inl ⟨hcons.dest_mem b hb c hc, hreach.tail hc⟩
          · exact .inr ⟨e, he, rfl, hreach⟩
        · rw [hsplit.dest_new e he] at hbc
          obtain rfl := List.mem_singleton.mp hbc
          exact .inl ⟨((hP e).mp he).1, hreach⟩
  constructor
  · intro hall b hb
    rcases hback b (hall b ((hl' b).mpr (.inl hb))) with ⟨-, hreach⟩ | ⟨e, he, rfl, -⟩
    · exact hreach
    · exact absurd hb (hfresh.not_mem e ((hP e).mp he).1)
  · intro hall b hb
    rcases (hl' b).mp hb with hb | ⟨e, he, rfl⟩
    · exact (hforth b (hall b hb)).2
    · exact (hforth _ (hall _ ((hP e).mp he).1)).2.tail (hnew e he)

/-- A routine with its flow graph. -/
structure Routine (fresh : Edge β → β) (s : Flow β) (h : β) (l : List β) : Prop where
  links : Chain s.next s.headBlock l
  head : s.headBlock = some h
  consistent : Consistent l s
  noInput : ∀ b ∈ l, h ∉ s.dest b
  returns : ∀ b ∈ l, s.isReturn b = true → s.dest b = []
  unvisited : ∀ b ∈ l, s.visited b = false
  fresh : Fresh fresh l

/-- What `MakeFlowGraph` leaves of a routine. -/
structure Routine.Outcome (fresh : Edge β → β) (s : Flow β) (h : β) (l : List β) (ending : Ending) (s' : Flow β)
    (l' : List β) : Prop where
  links : Linked s' l'
  head : s'.headBlock = some h
  perm : l'.Perm (l ++ made fresh s l)
  dest : ∀ b ∈ l, s'.dest b = (s.dest b).mapIdx fun i c => if c = b then fresh ⟨b, i⟩ else c
  dest_made : ∀ b ∈ l, ∀ e ∈ selfs s b, s'.dest (fresh e) = [b]
  consistent : Consistent l' s'
  unreachable_iff : ending = .unreachable ↔ ∃ b ∈ l, ¬ Reach s.dest h b
  unmarked : ending ≠ .nested → ∀ b ∈ l', s'.loopHeader b = false
  marked : ending = .nested → l'.length < 2 ^ 16 → Heads s' h l'

/-- `MakeFlowGraph` ends, and leaves the block list, the edges and the marks as it should; for the marks the blocks
must have different numbers. -/
theorem Routine.makeFlowGraph_outcome (hr : Routine fresh s h l) : ∃ ending s' l',
    Ends (fun fuel => makeFlowGraph fresh fuel s) (ending, s') ∧ Routine.Outcome fresh s h l ending s' l' := by
  obtain ⟨s₁, hends₁, hclear₁, hframe₁⟩ := Ends.irreducable hr.links
  have hdest₁ : s₁.dest = s.dest := by rw [hframe₁]
  have hinputs₁ : s₁.inputs = s.inputs := by rw [hframe₁]
  have hcons₁ : Consistent l s₁ := ⟨by rw [hdest₁, hinputs₁]; exact hr.consistent.inputs_iff,
    by rw [hinputs₁]; exact hr.consistent.inputs_nodup, by rw [hdest₁]; exact hr.consistent.dest_mem⟩
  obtain ⟨s₂, P, l', hends₂, hsplit, hP, hchain₂, hl'⟩ := Ends.noBlocksToSelf hr.fresh hcons₁
    (by rw [hframe₁]; exact hr.links)
  obtain ⟨hcons₂, hself₂, hnoInput₂⟩ := hsplit.consistent hr.fresh hcons₁ hP hl'
  have hh : h ∈ l := Chain.head_mem (hr.head ▸ hr.links)
  have hhead₂ : s₂.headBlock = some h := by
    rw [hsplit.headBlock, hframe₁]
    exact hr.head
  have hmade : ∀ x, x ∈ made fresh s l ↔ ∃ e ∈ P, x = fresh e := fun x => by
    rw [mem_made hr.consistent]
    simp only [hP, hdest₁]
  have hperm : l'.Perm (l ++ made fresh s l) :=
    (List.perm_ext_iff_of_nodup hchain₂.nodup (nodup_made hr.fresh hr.consistent hr.links.nodup)).mpr fun x => by
      rw [List.mem_append, hmade, hl']
  have hdest₂ : ∀ b ∈ l, s₂.dest b = (s.dest b).mapIdx fun i c => if c = b then fresh ⟨b, i⟩ else c := by
    intro b hb
    rw [hsplit.dest b hb, hdest₁]
    refine List.ext_getElem? fun i => ?_
    rw [List.getElem?_mapIdx, List.getElem?_mapIdx]
    cases hi : (s.dest b)[i]? with
    | none => rfl
    | some c =>
        have hiff : (⟨b, i⟩ : Edge β) ∈ P ↔ c = b := by
          rw [hP, hdest₁, and_iff_right hb, hi, Option.some_inj]
        simp only [Option.map_some, hiff]
  have hdestMade : ∀ b ∈ l, ∀ e ∈ selfs s b, s₂.dest (fresh e) = [b] := by
    intro b hb e he
    obtain ⟨rfl, hself⟩ := (hr.consistent.mem_selfs hb).mp he
    exact hsplit.dest_new e ((hP e).mpr ⟨hb, by rw [hdest₁]; exact hself⟩)
  have hreach : (∀ b ∈ l', Reach s₂.dest h b) ↔ ∀ b ∈ l, Reach s.dest h b := by
    rw [hsplit.reach hcons₁ hP hl' hr.fresh hh, hdest₁]
  have hvisited : ∀ b ∈ l', s₂.visited b = false := by
    intro b hb
    rcases (hl' b).mp hb with hb | ⟨e, he, rfl⟩
    · rw [hsplit.visited b hb, hframe₁]
      exact hr.unvisited b hb
    · exact hsplit.visited_new e he
  obtain ⟨red, s₃, hends₃, hframe₃, hred, horder⟩ := Ends.depthFirstSearch hcons₂.dest_mem hhead₂ hchain₂ hvisited
  have hdest₃ : s₃.dest = s₂.dest := by rw [hframe₃]
  have hinputs₃ : s₃.inputs = s₂.inputs := by rw [hframe₃]
  cases red with
  | false =>
      have hchain₃ : Chain s₃.next s₃.headBlock l' := by
        rw [hframe₃]
        exact hchain₂
      obtain ⟨s₄, hends₄, hclear₄, hframe₄⟩ := Ends.irreducable hchain₃
      have hchain₄ : Chain s₄.next s₄.headBlock l' := by
        rw [hframe₄]
        exact hchain₃
      obtain ⟨s₅, hends₅, hprev₅, hframe₅⟩ := Ends.restoreLinks hchain₄
      have hdest₅ : s₅.dest = s₂.dest := by rw [hframe₅, hframe₄, hframe₃]
      have hinputs₅ : s₅.inputs = s₂.inputs := by rw [hframe₅, hframe₄, hframe₃]
      refine ⟨.unreachable, s₅, l', ?_, ⟨⟨?_, hprev₅⟩, ?_, hperm, ?_, ?_, ?_, ?_, fun _ b hb => ?_, by simp⟩⟩
      · refine hends₁.bind (h := fun fuel s => _) (hends₂.bind (h := fun fuel s => _)
          (hends₃.bind (h := fun fuel t => _) ?_))
        refine (hends₄.bind (h := fun fuel s => (restoreLinks fuel s).map fun s => (Ending.unreachable, s))
          (hends₅.map fun s => (Ending.unreachable, s))).congr fun fuel => ?_
        simp only [Bool.false_eq_true, if_false]
      · rw [hframe₅]
        exact hchain₄
      · rw [hframe₅, hframe₄, hframe₃]
        exact hhead₂
      · rw [hdest₅]
        exact hdest₂
      · rw [hdest₅]
        exact hdestMade
      · exact ⟨by rw [hdest₅, hinputs₅]; exact hcons₂.inputs_iff, by rw [hinputs₅]; exact hcons₂.inputs_nodup,
          by rw [hdest₅]; exact hcons₂.dest_mem⟩
      · have hnot := mt hred.mpr Bool.false_ne_true
        rw [hreach] at hnot
        push Not at hnot
        exact ⟨fun _ => hnot, fun _ => rfl⟩
      · rw [hframe₅]
        exact (hclear₄ b hb).1
  | true =>
      obtain ⟨q, hlinks₃, hmem, htree⟩ := horder rfl
      have hent : Entered s₃ h q :=
        { ordered :=
            { consistent := by
                refine Consistent.congr ?_ hmem
                exact ⟨by rw [hdest₃, hinputs₃]; exact hcons₂.inputs_iff, by rw [hinputs₃]; exact hcons₂.inputs_nodup,
                  by rw [hdest₃]; exact hcons₂.dest_mem⟩
              noSelf := fun x hx => by rw [hdest₃]; exact hself₂ x ((hmem x).mp hx)
              noInput := fun x hx => by
                rw [hdest₃]
                exact hnoInput₂ h hh (by rw [hdest₁]; exact hr.noInput) x ((hmem x).mp hx)
              tree := by rw [hdest₃]; exact htree
              nodup := hlinks₃.nodup }
          links := hlinks₃
          header := fun b hb => by
            rw [hframe₃]
            rcases (hl' b).mp ((hmem b).mp hb) with hb | ⟨e, he, rfl⟩
            · exact (hsplit.loopHeader b hb).trans (hclear₁ b hb).1
            · exact hsplit.loopHeader_new e he
          loopHead := fun b hb => by
            rw [hframe₃]
            rcases (hl' b).mp ((hmem b).mp hb) with hb | ⟨e, he, rfl⟩
            · exact (hsplit.loopHead b hb).trans (hclear₁ b hb).2
            · exact hsplit.loopHead_new e he
          returns := fun b hb hreturn => by
            rw [hframe₃] at hreturn ⊢
            rcases (hl' b).mp ((hmem b).mp hb) with hb | ⟨e, he, rfl⟩
            · rw [show s₂.isReturn b = s.isReturn b by rw [hsplit.isReturn b hb, hframe₁]] at hreturn
              rw [hdest₂ b hb, hr.returns b hb hreturn]
              rfl
            · exact absurd hreturn (by rw [hsplit.isReturn_new e he]; exact Bool.false_ne_true) }
      obtain ⟨ending, s₄, l'', hends₄, hlinked, hhead₄, hperm₄, hne, hdest₄, hinputs₄, hclear, hheads⟩ :=
        hent.makeIntervals
      have hmem'' : ∀ b, b ∈ l'' ↔ b ∈ l' := fun b => hperm₄.mem_iff.trans (hmem b)
      have hperm' : (h :: q).Perm l' := (List.perm_ext_iff_of_nodup hlinks₃.nodup hchain₂.nodup).mpr hmem
      refine ⟨ending, s₄, l'', ?_, ⟨hlinked, hhead₄, hperm₄.trans (hperm'.trans hperm), ?_, ?_, ?_, ?_, ?_, ?_⟩⟩
      · refine hends₁.bind (h := fun fuel s => _) (hends₂.bind (h := fun fuel s => _)
          (hends₃.bind (h := fun fuel t => _) (hends₄.congr fun fuel => ?_)))
        simp only [if_true]
      · rw [hdest₄, hdest₃]
        exact hdest₂
      · rw [hdest₄, hdest₃]
        exact hdestMade
      · refine Consistent.congr ?_ hmem''
        exact ⟨by rw [hdest₄, hdest₃, hinputs₄, hinputs₃]; exact hcons₂.inputs_iff,
          by rw [hinputs₄, hinputs₃]; exact hcons₂.inputs_nodup, by rw [hdest₄, hdest₃]; exact hcons₂.dest_mem⟩
      · refine ⟨fun h => absurd h hne, fun ⟨b, hb, hnot⟩ => ?_⟩
        exact absurd (hreach.mp (hred.mp rfl) b hb) hnot
      · exact fun hend b hb => hclear hend b (hperm₄.mem_iff.mp hb)
      · intro hend hsize
        obtain ⟨hheader, hloopHead, hcycle⟩ := hheads hend (by rw [← hperm₄.length_eq]; exact hsize)
        exact ⟨fun t ht => hheader t (hperm₄.mem_iff.mp ht), fun x hx => hloopHead x (hperm₄.mem_iff.mp hx),
          fun C hC hCl => hcycle C hC fun x hx => hperm₄.mem_iff.mp (hCl x hx)⟩

end Routine

end OpenWatcom.FloGraph
