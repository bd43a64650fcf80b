import OpenWatcom.Cg.FloGraph

/-! # The block list of a flow graph

What the passes of `MakeFlowGraph` do to the links of the blocks. -/

namespace OpenWatcom.FloGraph

open Chains
open Function (update)

/-! ### Results that every large enough bound gives -/

/-- With enough fuel the result is `a`. -/
def Ends {α : Type*} (f : ℕ → Option α) (a : α) : Prop := ∃ turns, ∀ fuel, turns ≤ fuel → f fuel = some a

section Ends

variable {α γ : Type*} {f g : ℕ → Option α} {a : α} {b : γ}

theorem Ends.const (a : α) : Ends (fun _ => some a) a := ⟨0, fun _ _ => rfl⟩

theorem Ends.congr (h : Ends f a) (heq : ∀ fuel, f fuel = g fuel) : Ends g a := by
  obtain ⟨turns, hturns⟩ := h
  exact ⟨turns, fun fuel hle => (heq fuel).symm.trans (hturns fuel hle)⟩

theorem Ends.bind {h : ℕ → α → Option γ} (hf : Ends f a) (hh : Ends (fun fuel => h fuel a) b) :
    Ends (fun fuel => (f fuel).bind (h fuel)) b := by
  obtain ⟨turns, hturns⟩ := hf
  obtain ⟨turns', hturns'⟩ := hh
  refine ⟨max turns turns', fun fuel hle => ?_⟩
  dsimp only
  rw [hturns fuel (le_of_max_le_left hle), Option.bind_some]
  exact hturns' fuel (le_of_max_le_right hle)

theorem Ends.map (hf : Ends f a) (h : α → γ) : Ends (fun fuel => (f fuel).map h) (h a) := by
  obtain ⟨turns, hturns⟩ := hf
  exact ⟨turns, fun fuel hle => by simp [hturns fuel hle]⟩

theorem Ends.succ (h : Ends g a) (heq : ∀ fuel, f (fuel + 1) = g fuel) : Ends f a := by
  obtain ⟨turns, hturns⟩ := h
  refine ⟨turns + 1, fun fuel hle => ?_⟩
  obtain ⟨fuel, rfl⟩ := Nat.exists_eq_add_of_le' (show 1 ≤ fuel by omega)
  exact (heq fuel).trans (hturns fuel (by omega))

/-- A fold whose steps end. -/
theorem Ends.foldlM {δ : Type*} {k : ℕ → α → δ → Option α} {l : List δ} {P : List δ → α → Prop} (h0 : P [] a)
    (hstep : ∀ done x rest, l = done ++ x :: rest → ∀ a, P done a → ∃ a', Ends (fun fuel => k fuel a x) a' ∧
      P (done ++ [x]) a') : ∃ a', Ends (fun fuel => l.foldlM (k fuel) a) a' ∧ P l a' := by
  have hloop : ∀ (rest done : List δ), l = done ++ rest → ∀ a, P done a →
      ∃ a', Ends (fun fuel => rest.foldlM (k fuel) a) a' ∧ P l a' := by
    intro rest
    induction rest with
    | nil =>
        intro done hl a ha
        rw [List.append_nil] at hl
        exact ⟨a, .const a, hl ▸ ha⟩
    | cons x rest ih =>
        intro done hl a ha
        obtain ⟨b, hb, hP⟩ := hstep done x rest hl a ha
        obtain ⟨c, hc, hP'⟩ := ih (done ++ [x]) (by simp [hl]) b hP
        refine ⟨c, (hb.bind (h := fun fuel a => rest.foldlM (k fuel) a) hc).congr fun fuel => ?_, hP'⟩
        rw [List.foldlM_cons]
        rfl
  exact hloop l [] rfl a h0

end Ends

variable {β : Type*} [DecidableEq β] {next prev : β → Option β} {p q : Option β} {l m : List β} {b c : β}

omit [DecidableEq β] in
theorem Ends.walk (h : Chain next p l) : Ends (fun fuel => walk next fuel p) l := by
  induction l generalizing p with
  | nil =>
      obtain rfl : p = none := h
      exact (Ends.const []).succ fun _ => rfl
  | cons b l ih =>
      obtain ⟨rfl, h⟩ := h
      exact ((ih h).map (b :: ·)).succ fun _ => rfl

/-! ### Links -/

theorem Path.update (h : Path next p l q) (hb : b ∉ l) (x : Option β) : Path (update next b x) p l q :=
  h.congr fun _ ha => Function.update_of_ne (ne_of_mem_of_not_mem ha hb) _ _

/-- A block is linked in after another one. -/
theorem Chain.insert {after : List β} (h : Chain next p (m ++ b :: after)) (hc : c ∉ m ++ b :: after) :
    Chain (update (update next c (next b)) b (some c)) p (m ++ b :: c :: after) := by
  have hnodup := h.nodup
  obtain ⟨r, hm, rfl, hafter⟩ := path_append.mp h
  obtain ⟨-, hba, hdisjoint⟩ := List.nodup_append'.mp hnodup
  have hbm : b ∉ m := fun hb => List.disjoint_left.mp hdisjoint hb List.mem_cons_self
  have hbafter := (List.nodup_cons.mp hba).1
  simp only [List.mem_append, List.mem_cons, not_or] at hc
  refine path_append.mpr ⟨some b, Path.update (Path.update hm hc.1 _) hbm _, rfl, ?_, ?_⟩
  · exact Function.update_self _ _ _
  · rw [Function.update_of_ne hc.2.1, Function.update_self]
    exact Path.update (Path.update hafter hc.2.2 _) hbafter _

/-- A block is put before a list. -/
theorem Chain.push (h : Path prev p l q) (hb : b ∉ l) : Path (update prev b p) (some b) (b :: l) q := by
  refine ⟨rfl, ?_⟩
  rw [Function.update_self]
  exact Path.update h hb p

/-! ### The loops over all blocks -/

theorem foldl_irreducableBlock (l : List β) (s : Flow β) :
    l.foldl irreducableBlock s = { s with
      iterationsKnown := fun b => if b ∈ l then false else s.iterationsKnown b
      loopHeader := fun b => if b ∈ l then false else s.loopHeader b
      loopHead := fun b => if b ∈ l then none else s.loopHead b
      depth := fun b => if b ∈ l then 1 else s.depth b } := by
  induction l generalizing s with
  | nil => simp
  | cons c l ih =>
      rw [List.foldl_cons, ih]
      simp only [irreducableBlock, Flow.mk.injEq, true_and, and_true, List.mem_cons]
      refine ⟨?_, ?_, ?_, ?_⟩ <;> funext b <;> by_cases hb : b = c <;> simp [hb]

/-- What `Irreducable` leaves. -/
theorem Ends.irreducable {s : Flow β} (h : Chain s.next s.headBlock l) :
    ∃ s', Ends (fun fuel => irreducable fuel s) s' ∧ (∀ b ∈ l, s'.loopHeader b = false ∧ s'.loopHead b = none) ∧
      s' = { s with
        iterationsKnown := s'.iterationsKnown
        loopHeader := s'.loopHeader
        loopHead := s'.loopHead
        depth := s'.depth } := by
  refine ⟨_, (Ends.walk h).map (fun blks => blks.foldl irreducableBlock s), ?_, ?_⟩
  · intro b hb
    simp [foldl_irreducableBlock, hb]
  · rw [foldl_irreducableBlock]

/-- What `RestoreLinks` leaves. -/
theorem Ends.restoreLinks {s : Flow β} (h : Chain s.next s.headBlock l) :
    ∃ s', Ends (fun fuel => restoreLinks fuel s) s' ∧ Chain s'.prev s'.blockList l.reverse ∧
      s' = { s with prev := s'.prev, blockList := s'.blockList } := by
  refine ⟨_, (Ends.walk h).map _, ?_, rfl⟩
  have hloop : ∀ (rest done : List β) (t : (β → Option β) × Option β), (done ++ rest).Nodup →
      Chain t.1 t.2 done.reverse →
      Chain (rest.foldl (fun (t : (β → Option β) × Option β) blk => (update t.1 blk t.2, some blk)) t).1
        (rest.foldl (fun (t : (β → Option β) × Option β) blk => (update t.1 blk t.2, some blk)) t).2
        (done ++ rest).reverse := by
    intro rest
    induction rest with
    | nil => intro done t _ ht; simpa using ht
    | cons b rest ih =>
        intro done t hnodup ht
        have hb : b ∉ done.reverse := by
          intro hb
          exact (List.nodup_append'.mp hnodup).2.2 (List.mem_reverse.mp hb) List.mem_cons_self
        have := ih (done ++ [b]) (update t.1 b t.2, some b) (by simpa using hnodup) (by simpa using Chain.push ht hb)
        simpa using this
  exact hloop l [] (s.prev, none) (by simpa using h.nodup) rfl

/-! ### Self edges -/

section Split

variable (fresh : Edge β → β) (l : List β) (s₀ : Flow β)

/-- The blocks that are made are new and different. -/
structure Fresh : Prop where
  not_mem : ∀ e : Edge β, e.source ∈ l → fresh e ∉ l
  injective : ∀ e e' : Edge β, e.source ∈ l → e'.source ∈ l → fresh e = fresh e' → e = e'

/-- Edges and input edges say the same, and stay in the list. -/
structure Consistent (s : Flow β) : Prop where
  inputs_iff : ∀ b ∈ l, ∀ e, e ∈ s.inputs b ↔ e.source ∈ l ∧ (s.dest e.source)[e.index]? = some b
  inputs_nodup : ∀ b ∈ l, (s.inputs b).Nodup
  dest_mem : ∀ b ∈ l, ∀ c ∈ s.dest b, c ∈ l

/-- The edges to the block itself. -/
def selfs (b : β) : List (Edge β) := (s₀.inputs b).filter fun e => e.source = b

/-- The edges and flags when the edges of `P` have got their blocks. -/
structure Split (P : List (Edge β)) (s : Flow β) : Prop where
  dest : ∀ b ∈ l, s.dest b = (s₀.dest b).mapIdx fun i c => if ⟨b, i⟩ ∈ P then fresh ⟨b, i⟩ else c
  dest_new : ∀ e ∈ P, s.dest (fresh e) = [e.source]
  inputs : ∀ b ∈ l, s.inputs b = (s₀.inputs b).map fun e => if e ∈ P then ⟨fresh e, 0⟩ else e
  inputs_new : ∀ e ∈ P, s.inputs (fresh e) = [e]
  isReturn : ∀ b ∈ l, s.isReturn b = s₀.isReturn b
  isReturn_new : ∀ e ∈ P, s.isReturn (fresh e) = false
  visited : ∀ b ∈ l, s.visited b = s₀.visited b
  visited_new : ∀ e ∈ P, s.visited (fresh e) = false
  loopHeader : ∀ b ∈ l, s.loopHeader b = s₀.loopHeader b
  loopHeader_new : ∀ e ∈ P, s.loopHeader (fresh e) = false
  loopHead : ∀ b ∈ l, s.loopHead b = s₀.loopHead b
  loopHead_new : ∀ e ∈ P, s.loopHead (fresh e) = none
  headBlock : s.headBlock = s₀.headBlock

variable {fresh l s₀} {P : List (Edge β)} {s : Flow β} {e : Edge β}

theorem update_fresh {α : Type*} (hfresh : Fresh fresh l) (he : e.source ∈ l) (f : β → α) (x : α) (hb : b ∈ l) :
    update f (fresh e) x b = f b :=
  Function.update_of_ne (ne_of_mem_of_not_mem hb (hfresh.not_mem e he)) _ _

theorem update_fresh_new {α : Type*} (hfresh : Fresh fresh l) (he : e.source ∈ l) {f : β → α} {x : α} {v : Edge β → α}
    (hP : ∀ e' ∈ P, e'.source ∈ l) (hx : x = v e) (hf : ∀ e' ∈ P, f (fresh e') = v e') :
    ∀ e' ∈ e :: P, update f (fresh e) x (fresh e') = v e' := by
  intro e' he'
  obtain rfl | hne := eq_or_ne e' e
  · rw [Function.update_self, hx]
  · have hmem := (List.mem_cons.mp he').resolve_left hne
    have hother : fresh e' ≠ fresh e := fun heq => hne (hfresh.injective e' e (hP e' hmem) he heq)
    rw [Function.update_of_ne hother, hf e' hmem]

/-- A self edge gets its block. -/
theorem Split.splitEdge (h : Split fresh l s₀ P s) (hfresh : Fresh fresh l) (hP : ∀ e ∈ P, e.source ∈ l)
    (hb : b ∈ l) (he : e.source = b) (hnew : e ∉ P) (hother : ∀ c ∈ l, c ≠ b → e ∉ s₀.inputs c) :
    Split fresh l s₀ (e :: P) (splitEdge fresh b s e) := by
  have hsource : e.source ∈ l := he ▸ hb
  have hne : ∀ e' ∈ e :: P, fresh e' ≠ b := by
    intro e' he' heq
    obtain rfl | he' := List.mem_cons.mp he'
    · exact hfresh.not_mem e' hsource (heq ▸ hb)
    · exact hfresh.not_mem e' (hP e' he') (heq ▸ hb)
  have hedge : ∀ c i, c ≠ b → (⟨c, i⟩ : Edge β) ≠ e := by
    rintro c i hc rfl
    exact hc he
  unfold FloGraph.splitEdge
  rw [if_pos he]
  dsimp only
  constructor <;> dsimp only
  · intro c hc
    obtain rfl | hcb := eq_or_ne c b
    · rw [Function.update_self, h.dest c hc]
      refine List.ext_getElem (by simp) fun i hi hi' => ?_
      simp only [List.length_set, List.length_mapIdx] at hi
      have hmem : (⟨c, i⟩ : Edge β) ∈ e :: P ↔ e.index = i ∨ (⟨c, i⟩ : Edge β) ∈ P := by
        rw [List.mem_cons]
        refine or_congr_left ⟨fun heq => heq ▸ rfl, fun heq => ?_⟩
        rw [← he, ← heq]
      rw [List.getElem_set, List.getElem_mapIdx, List.getElem_mapIdx]
      split_ifs with hi0 hold hold' hnew'
      · rw [show e = ⟨c, i⟩ by rw [← he, ← hi0]]
      · exact absurd (hmem.mpr (.inl hi0)) hold
      · rfl
      · exact absurd (hmem.mpr (.inr hold')) hnew'
      · rename_i hnot
        exact absurd ((hmem.mp hnot).resolve_left hi0) hold'
      · rfl
    · rw [Function.update_of_ne hcb, update_fresh hfresh hsource _ _ hc, h.dest c hc]
      simp [List.mem_cons, hedge c _ hcb]
  · intro e' he'
    rw [Function.update_of_ne (hne e' he')]
    exact update_fresh_new hfresh hsource (v := fun e => [e.source]) hP (by rw [he]) h.dest_new e' he'
  · intro c hc
    obtain rfl | hcb := eq_or_ne c b
    · rw [Function.update_self, h.inputs c hc, List.map_map]
      refine List.map_congr_left fun x _ => ?_
      simp only [Function.comp_apply, List.mem_cons]
      by_cases hx : x ∈ P
      · have : (⟨fresh x, 0⟩ : Edge β) ≠ e := by
          intro heq
          exact hfresh.not_mem x (hP x hx) (by rw [← heq] at hsource; exact hsource)
        simp [hx, this]
      · by_cases hxe : x = e
        · simp [hxe, hnew]
        · simp [hx, hxe]
    · rw [Function.update_of_ne hcb, update_fresh hfresh hsource _ _ hc, h.inputs c hc]
      refine List.map_congr_left fun x hx => ?_
      have hxe : x ≠ e := ne_of_mem_of_not_mem hx (hother c hc hcb)
      simp [hxe]
  · intro e' he'
    rw [Function.update_of_ne (hne e' he')]
    exact update_fresh_new hfresh hsource (v := fun e => [e]) hP rfl h.inputs_new e' he'
  · exact fun c hc => (update_fresh hfresh hsource _ _ hc).trans (h.isReturn c hc)
  · exact update_fresh_new hfresh hsource (v := fun _ => false) hP rfl h.isReturn_new
  · exact fun c hc => (update_fresh hfresh hsource _ _ hc).trans (h.visited c hc)
  · exact update_fresh_new hfresh hsource (v := fun _ => false) hP rfl h.visited_new
  · exact fun c hc => (update_fresh hfresh hsource _ _ hc).trans (h.loopHeader c hc)
  · exact update_fresh_new hfresh hsource (v := fun _ => false) hP rfl h.loopHeader_new
  · exact fun c hc => (update_fresh hfresh hsource _ _ hc).trans (h.loopHead c hc)
  · exact update_fresh_new hfresh hsource (v := fun _ => none) hP rfl h.loopHead_new
  · exact h.headBlock

/-- The input edges of a block get their blocks, which are linked in after it. -/
theorem Split.foldl (hfresh : Fresh fresh l) (hb : b ∈ l) {m after : List β} (hother : ∀ e ∈ selfs s₀ b, ∀ c ∈ l,
    c ≠ b → e ∉ s₀.inputs c) (edges : List (Edge β)) (hedges : edges ⊆ s₀.inputs b) (hnodup : edges.Nodup)
    (h : Split fresh l s₀ P s) (hP : ∀ e ∈ P, e.source ∈ l) (hnew : ∀ e ∈ edges, e ∉ P)
    (hlinks : Chain s.next s.headBlock (m ++ b :: after))
    (hafter : ∀ e ∈ edges, e.source = b → fresh e ∉ m ++ b :: after) :
    ∃ made : List (Edge β), (∀ e, e ∈ made ↔ e ∈ edges ∧ e.source = b) ∧
      Split fresh l s₀ (made ++ P) (edges.foldl (FloGraph.splitEdge fresh b) s) ∧
        Chain (edges.foldl (FloGraph.splitEdge fresh b) s).next s.headBlock
          (m ++ b :: (made.map fresh ++ after)) := by
  induction edges generalizing s P after with
  | nil => exact ⟨[], by simp, h, hlinks⟩
  | cons e edges ih =>
      obtain ⟨he, hrest⟩ := List.nodup_cons.mp hnodup
      have hsub := (List.cons_subset.mp hedges)
      by_cases hself : e.source = b
      · have hmem : e ∈ selfs s₀ b := List.mem_filter.mpr ⟨hsub.1, by simpa using hself⟩
        have hstep := h.splitEdge hfresh hP hb hself (hnew e List.mem_cons_self) (hother e hmem)
        have hhead : (FloGraph.splitEdge fresh b s e).headBlock = s.headBlock := by
          rw [FloGraph.splitEdge, if_pos hself]
        have hinsert : Chain (FloGraph.splitEdge fresh b s e).next s.headBlock (m ++ b :: fresh e :: after) := by
          rw [FloGraph.splitEdge, if_pos hself]
          exact Chain.insert hlinks (hafter e List.mem_cons_self hself)
        obtain ⟨made, hmade, hsplit, hchain⟩ := ih hsub.2 hrest hstep
          (by
            intro e' he'
            obtain rfl | he' := List.mem_cons.mp he'
            · exact hself ▸ hb
            · exact hP e' he')
          (by
            intro e' he' hmem'
            obtain rfl | hmem' := List.mem_cons.mp hmem'
            · exact he he'
            · exact hnew e' (List.mem_cons_of_mem e he') hmem')
          (hhead.symm ▸ hinsert)
          (by
            intro e' he' hs hmem'
            have hold := hafter e' (List.mem_cons_of_mem e he') hs
            simp only [List.mem_append, List.mem_cons, not_or] at hold hmem'
            obtain hm | rfl | heq | ha := hmem'
            · exact hold.1 hm
            · exact hold.2.1 rfl
            · exact he (hfresh.injective e' e (hs ▸ hb) (hself ▸ hb) heq ▸ he')
            · exact hold.2.2 ha)
        refine ⟨made ++ [e], fun e' => ?_, by simpa using hsplit, by simpa [hhead] using hchain⟩
        rw [List.mem_append, hmade, List.mem_singleton, List.mem_cons]
        constructor
        · rintro (⟨hmem', hs⟩ | rfl)
          · exact ⟨.inr hmem', hs⟩
          · exact ⟨.inl rfl, hself⟩
        · rintro ⟨rfl | hmem', hs⟩
          · exact .inr rfl
          · exact .inl ⟨hmem', hs⟩
      · have hsame : FloGraph.splitEdge fresh b s e = s := by rw [FloGraph.splitEdge, if_neg hself]
        obtain ⟨made, hmade, hsplit, hchain⟩ := ih hsub.2 hrest h hP
          (fun e' he' => hnew e' (List.mem_cons_of_mem e he')) hlinks
          (fun e' he' => hafter e' (List.mem_cons_of_mem e he'))
        refine ⟨made, fun e' => ?_, by rwa [List.foldl_cons, hsame], by rwa [List.foldl_cons, hsame]⟩
        rw [hmade, List.mem_cons]
        constructor
        · rintro ⟨hmem', hs⟩
          exact ⟨.inr hmem', hs⟩
        · rintro ⟨rfl | hmem', hs⟩
          · exact absurd hs hself
          · exact ⟨hmem', hs⟩

/-- Blocks without an edge to themselves are left alone. -/
theorem noBlocksToSelfFrom_skip {s' : Flow β} (made : List β) (h : Path s.next p made q)
    (hmade : ∀ x ∈ made, ∀ e ∈ s.inputs x, e.source ≠ x)
    (hrest : Ends (fun fuel => noBlocksToSelfFrom fresh fuel q s) s') :
    Ends (fun fuel => noBlocksToSelfFrom fresh fuel p s) s' := by
  induction made generalizing p with
  | nil => exact h ▸ hrest
  | cons x made ih =>
      obtain ⟨rfl, h⟩ := h
      have hsame : ∀ (edges : List (Edge β)), (∀ e ∈ edges, e.source ≠ x) →
          edges.foldl (FloGraph.splitEdge fresh x) s = s := by
        intro edges hedges
        induction edges with
        | nil => rfl
        | cons e edges ih =>
            rw [List.foldl_cons, FloGraph.splitEdge, if_neg (hedges e List.mem_cons_self)]
            exact ih fun e' he' => hedges e' (List.mem_cons_of_mem e he')
      refine (ih h fun y hy => hmade y (List.mem_cons_of_mem x hy)).succ fun fuel => ?_
      rw [noBlocksToSelfFrom, hsame _ (hmade x List.mem_cons_self)]


theorem Consistent.mem_selfs (h : Consistent l s₀) (hb : b ∈ l) :
    e ∈ selfs s₀ b ↔ e.source = b ∧ (s₀.dest e.source)[e.index]? = some e.source := by
  rw [selfs, List.mem_filter, h.inputs_iff b hb, decide_eq_true_eq]
  constructor
  · rintro ⟨⟨-, hdest⟩, rfl⟩
    exact ⟨rfl, hdest⟩
  · rintro ⟨rfl, hdest⟩
    exact ⟨⟨hb, hdest⟩, rfl⟩

/-- `NoBlocksToSelf` gives every self edge its block. -/
theorem Ends.noBlocksToSelf (hfresh : Fresh fresh l) (hcons : Consistent l s₀)
    (hchain : Chain s₀.next s₀.headBlock l) :
    ∃ (s : Flow β) (P : List (Edge β)) (l' : List β), Ends (fun fuel => noBlocksToSelf fresh fuel s₀) s ∧
      Split fresh l s₀ P s ∧
        (∀ e, e ∈ P ↔ e.source ∈ l ∧ (s₀.dest e.source)[e.index]? = some e.source) ∧
          Chain s.next s.headBlock l' ∧ ∀ x, x ∈ l' ↔ x ∈ l ∨ ∃ e ∈ P, x = fresh e := by
  have hnodup := hchain.nodup
  have hloop : ∀ (rest done m : List β) (P : List (Edge β)) (s : Flow β) (p : Option β), l = done ++ rest →
      Split fresh l s₀ P s → (∀ e, e ∈ P ↔ e.source ∈ done ∧ e ∈ selfs s₀ e.source) →
      Path s.next s.headBlock m p → Path s.next p rest none → (∀ x, x ∈ m ↔ x ∈ done ∨ ∃ e ∈ P, x = fresh e) →
      ∃ (s' : Flow β) (P : List (Edge β)) (l' : List β), Ends (fun fuel => noBlocksToSelfFrom fresh fuel p s) s' ∧
        Split fresh l s₀ P s' ∧ (∀ e, e ∈ P ↔ e.source ∈ l ∧ e ∈ selfs s₀ e.source) ∧
          Chain s'.next s'.headBlock l' ∧ ∀ x, x ∈ l' ↔ x ∈ l ∨ ∃ e ∈ P, x = fresh e := by
    intro rest
    induction rest with
    | nil =>
        intro done m P s p hl hsplit hP hm hp hmem
        obtain rfl : p = none := hp
        rw [List.append_nil] at hl
        subst hl
        exact ⟨s, P, m, (Ends.const s).succ fun _ => rfl, hsplit, hP, hm, hmem⟩
    | cons b rest ih =>
        intro done m P s p hl hsplit hP hm hp hmem
        obtain ⟨rfl, hp⟩ := hp
        have hb : b ∈ l := by rw [hl]; simp
        have hbdone : b ∉ done := fun hmem => by
          rw [hl] at hnodup
          exact (List.nodup_append'.mp hnodup).2.2 hmem List.mem_cons_self
        have hsub : ∀ x ∈ done, x ∈ l := fun x hx => hl ▸ List.mem_append_left _ hx
        have hPl : ∀ e ∈ P, e.source ∈ l := fun e he => hsub _ ((hP e).mp he).1
        have hnotP : ∀ e ∈ s₀.inputs b, e ∉ P := by
          intro e he heP
          obtain ⟨hdone, hself⟩ := (hP e).mp heP
          have hdest := ((hcons.mem_selfs (hsub _ hdone)).mp hself).2
          rw [((hcons.inputs_iff b hb e).mp he).2] at hdest
          exact hbdone (Option.some.inj hdest ▸ hdone)
        have hinputs : s.inputs b = s₀.inputs b := by
          rw [hsplit.inputs b hb]
          exact (List.map_congr_left (g := id) fun e he => if_neg (hnotP e he)).trans (List.map_id _)
        have hrest : ∀ x ∈ b :: rest, x ∈ l ∧ x ∉ done := fun x hx => by
          refine ⟨hl ▸ List.mem_append_right done hx, fun hdone => ?_⟩
          rw [hl] at hnodup
          exact (List.nodup_append'.mp hnodup).2.2 hdone hx
        obtain ⟨made, hmade, hsplit', hchain'⟩ := Split.foldl (m := m) hfresh hb
          (fun e he c hc hcb hec => by
            have hdest := (hcons.mem_selfs hb).mp he
            have := ((hcons.inputs_iff c hc e).mp hec).2
            rw [hdest.2] at this
            exact hcb ((Option.some.inj this).symm.trans hdest.1))
          (s₀.inputs b) (List.Subset.refl _) (hcons.inputs_nodup b hb) hsplit hPl hnotP
          (path_append.mpr ⟨some b, hm, rfl, hp⟩)
          (fun e he hs hmem' => by
            have hsl : e.source ∈ l := hs ▸ hb
            obtain hmem' | hmem' := List.mem_append.mp hmem'
            · obtain hdone | ⟨e', he', heq⟩ := (hmem _).mp hmem'
              · exact hfresh.not_mem e hsl (hsub _ hdone)
              · obtain rfl := hfresh.injective e e' hsl (hPl e' he') heq
                exact hnotP e he he'
            · exact hfresh.not_mem e hsl (hrest _ hmem').1)
        set s' := (s₀.inputs b).foldl (FloGraph.splitEdge fresh b) s with hs'
        have hhead : s'.headBlock = s.headBlock := hsplit'.headBlock.trans hsplit.headBlock.symm
        obtain ⟨r, hmr, hbr⟩ := path_append.mp hchain'
        obtain ⟨rfl, hbr⟩ := hbr
        obtain ⟨q, hmadeq, hrestq⟩ := path_append.mp hbr
        have hnoself : ∀ x ∈ made.map fresh, ∀ e ∈ s'.inputs x, e.source ≠ x := by
          intro x hx e he
          obtain ⟨e', he', rfl⟩ := List.mem_map.mp hx
          rw [hsplit'.inputs_new e' (List.mem_append_left P he')] at he
          obtain rfl := List.mem_singleton.mp he
          have hsl : e.source ∈ l := ((hmade e).mp he').2 ▸ hb
          exact fun heq => hfresh.not_mem e hsl (heq ▸ hsl)
        have hP' : ∀ e, e ∈ made ++ P ↔ e.source ∈ done ++ [b] ∧ e ∈ selfs s₀ e.source := by
          intro e
          rw [List.mem_append, hmade, hP, List.mem_append, List.mem_singleton]
          constructor
          · rintro (⟨he, hs⟩ | ⟨hdone, hself⟩)
            · exact ⟨.inr hs, List.mem_filter.mpr ⟨hs.symm ▸ he, by simp⟩⟩
            · exact ⟨.inl hdone, hself⟩
          · rintro ⟨hdone | hs, hself⟩
            · exact .inr ⟨hdone, hself⟩
            · exact .inl ⟨hs ▸ (List.mem_filter.mp hself).1, hs⟩
        obtain ⟨t, P', l', ht, hsplitt, hPt, hlinks, hmemt⟩ := ih (done ++ [b]) (m ++ b :: made.map fresh) (made ++ P)
          s' q (by simp [hl]) hsplit' hP'
          (hhead ▸ path_append.mpr ⟨some b, hmr, rfl, hmadeq⟩) hrestq (fun x => by
            simp only [List.mem_append, List.mem_cons, List.mem_map, hmem, List.not_mem_nil, or_false]
            constructor
            · rintro ((hx | ⟨e, he, rfl⟩) | rfl | ⟨e, he, rfl⟩)
              · exact .inl (.inl hx)
              · exact .inr ⟨e, .inr he, rfl⟩
              · exact .inl (.inr rfl)
              · exact .inr ⟨e, .inl he, rfl⟩
            · rintro ((hx | rfl) | ⟨e, he | he, rfl⟩)
              · exact .inl (.inl hx)
              · exact .inr (.inl rfl)
              · exact .inr (.inr ⟨e, he, rfl⟩)
              · exact .inl (.inr ⟨e, he, rfl⟩))
        refine ⟨t, P', l', ?_, hsplitt, hPt, hlinks, hmemt⟩
        refine (noBlocksToSelfFrom_skip (made.map fresh) hmadeq hnoself ht).succ fun fuel => ?_
        rw [noBlocksToSelfFrom, hinputs]
  obtain ⟨s, P, l', hs, hsplit, hP, hlinks, hmem⟩ := hloop l [] [] [] s₀ s₀.headBlock rfl
    ⟨fun b _ => List.ext_getElem (by simp) (by simp), by simp, by simp, by simp, by simp, by simp, by simp, by simp,
      by simp, by simp, by simp, by simp, rfl⟩
    (by simp) rfl hchain (by simp)
  refine ⟨s, P, l', hs, hsplit, fun e => (hP e).trans (and_congr_right fun he => ?_), hlinks, hmem⟩
  exact (hcons.mem_selfs he).trans (and_iff_right rfl)

/-- Afterwards the edges and the input edges say the same again, and no block has an edge to itself. -/
theorem Split.consistent {l' : List β} (h : Split fresh l s₀ P s) (hfresh : Fresh fresh l) (hcons : Consistent l s₀)
    (hP : ∀ e, e ∈ P ↔ e.source ∈ l ∧ (s₀.dest e.source)[e.index]? = some e.source)
    (hl' : ∀ x, x ∈ l' ↔ x ∈ l ∨ ∃ e ∈ P, x = fresh e) :
    Consistent l' s ∧ (∀ x ∈ l', x ∉ s.dest x) ∧
      ∀ x ∈ l, (∀ y ∈ l, x ∉ s₀.dest y) → ∀ y ∈ l', x ∉ s.dest y := by
  have hPl : ∀ e ∈ P, e.source ∈ l := fun e he => ((hP e).mp he).1
  have hnew : ∀ e ∈ P, fresh e ∉ l := fun e he => hfresh.not_mem e (hPl e he)
  have hval : ∀ e x, e.source ∈ l → ((s.dest e.source)[e.index]? = some x ↔
      e ∈ P ∧ fresh e = x ∨ e ∉ P ∧ (s₀.dest e.source)[e.index]? = some x) := by
    intro e x he
    rw [h.dest _ he, List.getElem?_mapIdx, Option.map_eq_some_iff]
    by_cases heP : e ∈ P
    · simp [heP, ((hP e).mp heP).2]
    · simp [heP]
  have hvalNew : ∀ e ∈ P, ∀ i x, (s.dest (fresh e))[i]? = some x ↔ i = 0 ∧ e.source = x := by
    intro e he i x
    rw [h.dest_new e he]
    cases i <;> simp
  have hmemNew : ∀ e ∈ P, fresh e ∈ l' := fun e he => (hl' _).mpr (.inr ⟨e, he, rfl⟩)
  have hmem : ∀ x ∈ l, x ∈ l' := fun x hx => (hl' x).mpr (.inl hx)
  refine ⟨⟨fun x hx e => ?_, fun x hx => ?_, fun x hx c hc => ?_⟩, fun x hx hself => ?_, fun x hx hno y hy hmemy => ?_⟩
  · obtain hx | ⟨e₀, he₀, rfl⟩ := (hl' x).mp hx
    · rw [h.inputs x hx, List.mem_map]
      constructor
      · rintro ⟨e₁, he₁, rfl⟩
        have hdest := (hcons.inputs_iff x hx e₁).mp he₁
        by_cases heP : e₁ ∈ P
        · rw [if_pos heP]
          refine ⟨hmemNew e₁ heP, (hvalNew e₁ heP 0 x).mpr ⟨rfl, ?_⟩⟩
          have := ((hP e₁).mp heP).2
          rw [hdest.2] at this
          exact (Option.some.inj this).symm
        · rw [if_neg heP]
          exact ⟨hmem _ hdest.1, (hval e₁ x hdest.1).mpr (.inr ⟨heP, hdest.2⟩)⟩
      · rintro ⟨hsource, hdest⟩
        obtain hsource | ⟨e₁, he₁, hsource⟩ := (hl' _).mp hsource
        · obtain ⟨heP, heq⟩ | ⟨heP, hdest⟩ := (hval e x hsource).mp hdest
          · exact absurd (heq ▸ hx) (hnew e heP)
          · exact ⟨e, (hcons.inputs_iff x hx e).mpr ⟨hsource, hdest⟩, if_neg heP⟩
        · rw [hsource, hvalNew e₁ he₁] at hdest
          refine ⟨e₁, (hcons.inputs_iff x hx e₁).mpr ⟨hPl e₁ he₁, ?_⟩, ?_⟩
          · rw [((hP e₁).mp he₁).2, hdest.2]
          · rw [if_pos he₁, ← hsource, ← hdest.1]
    · rw [h.inputs_new e₀ he₀, List.mem_singleton]
      constructor
      · rintro rfl
        exact ⟨hmem _ (hPl e he₀), (hval e _ (hPl e he₀)).mpr (.inl ⟨he₀, rfl⟩)⟩
      · rintro ⟨hsource, hdest⟩
        obtain hsource | ⟨e₁, he₁, hsource⟩ := (hl' _).mp hsource
        · obtain ⟨heP, heq⟩ | ⟨heP, hdest⟩ := (hval e _ hsource).mp hdest
          · exact hfresh.injective e e₀ hsource (hPl e₀ he₀) heq
          · exact absurd (hcons.dest_mem _ hsource _ (List.mem_of_getElem? hdest)) (hnew e₀ he₀)
        · rw [hsource, hvalNew e₁ he₁] at hdest
          exact absurd (hdest.2 ▸ hPl e₁ he₁) (hnew e₀ he₀)
  · obtain hx | ⟨e₀, he₀, rfl⟩ := (hl' x).mp hx
    · rw [h.inputs x hx]
      refine List.Nodup.map_on (fun e₁ he₁ e₂ he₂ heq => ?_) (hcons.inputs_nodup x hx)
      have hs₁ := ((hcons.inputs_iff x hx e₁).mp he₁).1
      have hs₂ := ((hcons.inputs_iff x hx e₂).mp he₂).1
      split_ifs at heq with h₁ h₂ h₂
      · exact hfresh.injective e₁ e₂ hs₁ hs₂ (congrArg Edge.source heq)
      · rw [← heq] at hs₂
        exact absurd hs₂ (hnew e₁ h₁)
      · rw [heq] at hs₁
        exact absurd hs₁ (hnew e₂ h₂)
      · exact heq
    · rw [h.inputs_new e₀ he₀]
      exact List.nodup_singleton _
  · obtain ⟨i, hi⟩ := List.mem_iff_getElem?.mp hc
    obtain hx | ⟨e₀, he₀, rfl⟩ := (hl' x).mp hx
    · obtain ⟨heP, rfl⟩ | ⟨-, hdest⟩ := (hval ⟨x, i⟩ c hx).mp hi
      · exact hmemNew _ heP
      · exact hmem c (hcons.dest_mem x hx c (List.mem_of_getElem? hdest))
    · obtain ⟨-, rfl⟩ := (hvalNew e₀ he₀ i c).mp hi
      exact hmem _ (hPl e₀ he₀)
  · obtain ⟨i, hi⟩ := List.mem_iff_getElem?.mp hself
    obtain hx | ⟨e₀, he₀, rfl⟩ := (hl' x).mp hx
    · obtain ⟨heP, heq⟩ | ⟨heP, hdest⟩ := (hval ⟨x, i⟩ x hx).mp hi
      · exact hnew _ heP (by rwa [heq])
      · exact heP ((hP ⟨x, i⟩).mpr ⟨hx, hdest⟩)
    · obtain ⟨-, heq⟩ := (hvalNew e₀ he₀ i _).mp hi
      exact hnew e₀ he₀ (heq ▸ hPl e₀ he₀)
  · obtain ⟨i, hi⟩ := List.mem_iff_getElem?.mp hmemy
    obtain hy | ⟨e₀, he₀, rfl⟩ := (hl' y).mp hy
    · obtain ⟨heP, heq⟩ | ⟨-, hdest⟩ := (hval ⟨y, i⟩ x hy).mp hi
      · exact hnew _ heP (heq ▸ hx)
      · exact hno y hy (List.mem_of_getElem? hdest)
    · obtain ⟨-, heq⟩ := (hvalNew e₀ he₀ i _).mp hi
      refine hno e₀.source (hPl e₀ he₀) (heq ▸ List.mem_of_getElem? ((hP e₀).mp he₀).2)

end Split

end OpenWatcom.FloGraph
