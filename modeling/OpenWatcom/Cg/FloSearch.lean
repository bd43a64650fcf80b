import OpenWatcom.Cg.FloLinks

/-! # The depth first order of a flow graph

`DepthFirstSearch` links the blocks that it reaches so that each but the first comes after a block with an edge to it,
`FixLinks` turns the order into the block list, and `ReturnsToBottom` moves the blocks that return to its end. -/

namespace OpenWatcom.FloGraph

open Chains
open Function (update)

variable {β : Type*} [DecidableEq β] {dest : β → List β} {l m p q : List β} {r r' : Search β} {b c h : β}

/-! ### The search -/

/-- Every block but the first has an edge from an earlier one. -/
def TreeOrdered (dest : β → List β) (p : List β) : Prop :=
  ∀ l₁ x l₂, p = l₁ ++ x :: l₂ → l₁ ≠ [] → ∃ y ∈ l₁, x ∈ dest y

/-- What a search from some blocks has done: it has put the blocks of `p` before the list. -/
structure Pushed (dest : β → List β) (l : List β) (r r' : Search β) (p : List β) : Prop where
  visited : ∀ x, r'.visited x = true ↔ r.visited x = true ∨ x ∈ p
  links : Path r'.prev r'.blockList p r.blockList
  others : ∀ x, x ∉ p → r'.prev x = r.prev x
  unvisited : ∀ x ∈ p, r.visited x = false
  mem : ∀ x ∈ p, x ∈ l
  closed : ∀ x ∈ p, ∀ c ∈ dest x, r'.visited c = true

omit [DecidableEq β] in
theorem Pushed.refl (r : Search β) : Pushed dest l r r [] :=
  ⟨by simp, rfl, fun _ _ => rfl, by simp, by simp, by simp⟩

omit [DecidableEq β] in
theorem Pushed.trans {r'' : Search β} (h : Pushed dest l r r' p) (h' : Pushed dest l r' r'' q) :
    Pushed dest l r r'' (q ++ p) where
  visited x := by
    rw [h'.visited, h.visited, List.mem_append, or_assoc, or_comm (a := x ∈ p)]
  links := by
    refine path_append.mpr ⟨r'.blockList, h'.links, h.links.congr fun x hx => h'.others x fun hq => ?_⟩
    have := h'.unvisited x hq
    rw [(h.visited x).mpr (.inr hx)] at this
    cases this
  others x hx := by
    rw [List.mem_append, not_or] at hx
    rw [h'.others x hx.1, h.others x hx.2]
  unvisited x hx := by
    obtain hx | hx := List.mem_append.mp hx
    · by_contra hvisited
      have := h'.unvisited x hx
      rw [(h.visited x).mpr (.inl (eq_true_of_ne_false hvisited))] at this
      cases this
    · exact h.unvisited x hx
  mem x hx := (List.mem_append.mp hx).elim (h'.mem x) (h.mem x)
  closed x hx c hc := by
    obtain hx | hx := List.mem_append.mp hx
    · exact h'.closed x hx c hc
    · exact (h'.visited c).mpr (.inl (h.closed x hx c hc))

/-- How many blocks are not visited. -/
def unvisitedCount (l : List β) (visited : β → Bool) : ℕ := (l.toFinset.filter fun x => visited x = false).card

theorem unvisitedCount_le {visited visited' : β → Bool} (h : ∀ x, visited x = true → visited' x = true) :
    unvisitedCount l visited' ≤ unvisitedCount l visited := by
  refine Finset.card_le_card fun x hx => ?_
  obtain ⟨hmem, hx⟩ := Finset.mem_filter.mp hx
  refine Finset.mem_filter.mpr ⟨hmem, ?_⟩
  by_contra hvisited
  rw [h x (eq_true_of_ne_false hvisited)] at hx
  cases hx

theorem unvisitedCount_lt {visited : β → Bool} (hb : b ∈ l) (hvisited : visited b = false) :
    unvisitedCount l (update visited b true) < unvisitedCount l visited := by
  refine Finset.card_lt_card ((Finset.ssubset_iff_of_subset (fun x hx => ?_)).mpr ⟨b, ?_, ?_⟩)
  · obtain ⟨hmem, hx⟩ := Finset.mem_filter.mp hx
    refine Finset.mem_filter.mpr ⟨hmem, ?_⟩
    obtain rfl | hne := eq_or_ne x b
    · exact hvisited
    · simpa [hne] using hx
  · simpa using ⟨hb, hvisited⟩
  · simp

/-- `MarkVisited` ends, and has put the blocks that it has reached before the list, the block itself first. -/
theorem markVisited_pushed (hl : ∀ x ∈ l, ∀ c ∈ dest x, c ∈ l) (n : ℕ) : ∀ (r : Search β) (b : β),
    unvisitedCount l r.visited ≤ n → b ∈ l → r.visited b = false →
      ∃ r' q, Ends (fun fuel => markVisited dest fuel b r) r' ∧ Pushed dest l r r' (b :: q) ∧
        TreeOrdered dest (b :: q) := by
  induction n with
  | zero =>
      intro r b hn hb hvisited
      exact absurd (unvisitedCount_lt hb hvisited) (by omega)
  | succ n ih =>
      intro r b hn hb hvisited
      set r₀ : Search β := { r with visited := update r.visited b true } with hr₀
      have hcount : unvisitedCount l r₀.visited < unvisitedCount l r.visited := unvisitedCount_lt hb hvisited
      have hchildren : ∃ r₁, Ends (fun fuel => (dest b).foldlM
            (fun r next => if r.visited next then some r else markVisited dest fuel next r) r₀) r₁ ∧
          ∃ p, Pushed dest l r₀ r₁ p ∧ (∀ c ∈ dest b, r₁.visited c = true) ∧
            ∀ l₁ x l₂, p = l₁ ++ x :: l₂ → x ∈ dest b ∨ ∃ y ∈ l₁, x ∈ dest y := by
        refine Ends.foldlM (P := fun done r₁ => ∃ p, Pushed dest l r₀ r₁ p ∧ (∀ c ∈ done, r₁.visited c = true) ∧
          ∀ l₁ x l₂, p = l₁ ++ x :: l₂ → x ∈ dest b ∨ ∃ y ∈ l₁, x ∈ dest y)
          ⟨[], .refl r₀, by simp, by simp⟩ ?_
        rintro done c rest hdest r₁ ⟨p, hpushed, hdone, htree⟩
        have hc : c ∈ dest b := by rw [hdest]; simp
        by_cases hcv : r₁.visited c = true
        · refine ⟨r₁, (Ends.const r₁).congr fun fuel => by rw [if_pos hcv], p, hpushed, fun x hx => ?_, htree⟩
          obtain hx | hx := List.mem_append.mp hx
          · exact hdone x hx
          · exact List.mem_singleton.mp hx ▸ hcv
        · have hle : unvisitedCount l r₁.visited ≤ n := by
            have := unvisitedCount_le (l := l) fun x hx => (hpushed.visited x).mpr (.inl hx)
            omega
          obtain ⟨r₂, q, hends, hpushed', htree'⟩ := ih r₁ c hle (hl b hb c hc) (eq_false_of_ne_true hcv)
          refine ⟨r₂, hends.congr fun fuel => by rw [if_neg hcv], (c :: q) ++ p, hpushed.trans hpushed',
            fun x hx => ?_, ?_⟩
          · obtain hx | hx := List.mem_append.mp hx
            · exact (hpushed'.visited x).mpr (.inl (hdone x hx))
            · exact (hpushed'.visited x).mpr (.inr (List.mem_singleton.mp hx ▸ List.mem_cons_self))
          · intro l₁ x l₂ hsplit
            obtain ⟨t, hl₁, hp⟩ | ⟨t, hq, hxt⟩ := List.append_eq_append_iff.mp hsplit
            · obtain hx | ⟨y, hy, hxy⟩ := htree t x l₂ hp
              · exact .inl hx
              · exact .inr ⟨y, hl₁ ▸ List.mem_append_right _ hy, hxy⟩
            · cases t with
              | nil =>
                  rw [List.nil_append] at hxt
                  obtain hx | ⟨y, hy, -⟩ := htree [] x l₂ hxt.symm
                  · exact .inl hx
                  · cases hy
              | cons x' t =>
                  obtain ⟨rfl, -⟩ := List.cons.inj hxt
                  cases l₁ with
                  | nil => exact .inl ((List.cons.inj hq).1 ▸ hc)
                  | cons y l₁ => exact .inr (htree' (y :: l₁) x t hq (List.cons_ne_nil y l₁))
      obtain ⟨r₁, hends, p, hpushed, hdest, htree⟩ := hchildren
      have hbp : b ∉ p := fun hbp => by
        have := hpushed.unvisited b hbp
        simp [hr₀] at this
      refine ⟨{ r₁ with prev := update r₁.prev b r₁.blockList, blockList := some b }, p, ?_, ?_, ?_⟩
      · exact (hends.bind (h := fun _ r => some { r with prev := update r.prev b r.blockList, blockList := some b })
          (.const _)).succ fun fuel => rfl
      · refine ⟨fun x => ?_, Chain.push hpushed.links hbp, fun x hx => ?_, fun x hx => ?_, fun x hx => ?_,
          fun x hx c hc => ?_⟩
        · dsimp only
          rw [hpushed.visited, List.mem_cons, hr₀]
          dsimp only
          obtain rfl | hne := eq_or_ne x b
          · simp
          · simp [hne]
        · rw [List.mem_cons, not_or] at hx
          dsimp only
          rw [Function.update_of_ne hx.1, hpushed.others x hx.2]
        · obtain rfl | hx := List.mem_cons.mp hx
          · exact hvisited
          · have := hpushed.unvisited x hx
            have hne : x ≠ b := ne_of_mem_of_not_mem hx hbp
            simpa [hr₀, hne] using this
        · exact (List.mem_cons.mp hx).elim (fun heq => heq ▸ hb) (hpushed.mem x)
        · obtain rfl | hx := List.mem_cons.mp hx
          · exact hdest c hc
          · exact hpushed.closed x hx c hc
      · intro l₁ x l₂ hsplit hne
        cases l₁ with
        | nil => exact absurd rfl hne
        | cons y l₁ =>
            obtain ⟨rfl, hp⟩ := List.cons.inj hsplit
            obtain hx | ⟨z, hz, hxz⟩ := htree l₁ x l₂ hp
            · exact ⟨b, List.mem_cons_self, hx⟩
            · exact ⟨z, List.mem_cons_of_mem b hz, hxz⟩

/-- There is a path along the edges. -/
abbrev Reach (dest : β → List β) : β → β → Prop := Relation.ReflTransGen fun a c => c ∈ dest a

omit [DecidableEq β] in
theorem TreeOrdered.reach (h : TreeOrdered dest (b :: q)) : ∀ x ∈ b :: q, Reach dest b x := by
  have hloop : ∀ (l₂ l₁ : List β), l₁ ++ l₂ = b :: q → (∀ x ∈ l₁, Reach dest b x) → ∀ x ∈ b :: q, Reach dest b x := by
    intro l₂
    induction l₂ with
    | nil => exact fun l₁ hl h₁ => by rwa [← hl, List.append_nil]
    | cons c l₂ ih =>
        intro l₁ hl h₁
        refine ih (l₁ ++ [c]) (by simpa using hl) fun x hx => ?_
        obtain hx | hx := List.mem_append.mp hx
        · exact h₁ x hx
        · obtain rfl := List.mem_singleton.mp hx
          cases l₁ with
          | nil => exact (List.cons.inj hl).1 ▸ .refl
          | cons y l₁ =>
              obtain ⟨z, hz, hxz⟩ := h (y :: l₁) x l₂ hl.symm (List.cons_ne_nil y l₁)
              exact (h₁ z hz).tail hxz
  exact hloop (b :: q) [] rfl (by simp)

theorem foldl_pushUnvisited (r : Search β) (l : List β) (hnodup : l.Nodup) :
    ((l.foldl pushUnvisited (true, r)).1 = true ↔ ∀ b ∈ l, r.visited b = true) ∧
      ((l.foldl pushUnvisited (true, r)).1 = true → (l.foldl pushUnvisited (true, r)).2.prev = r.prev ∧
        (l.foldl pushUnvisited (true, r)).2.blockList = r.blockList) := by
  have hfalse : ∀ (l : List β) (t : Bool × Search β), t.1 = false → (l.foldl pushUnvisited t).1 = false := by
    intro l
    induction l with
    | nil => exact fun t ht => ht
    | cons b l ih =>
        intro t ht
        refine ih _ ?_
        unfold pushUnvisited
        split <;> simp [ht]
  induction l generalizing r with
  | nil => simp
  | cons b l ih =>
      obtain ⟨hb, hl⟩ := List.nodup_cons.mp hnodup
      rw [List.foldl_cons, List.forall_mem_cons]
      by_cases hvisited : r.visited b = true
      · have hstep : pushUnvisited (true, r) b = (true, { r with visited := update r.visited b false }) :=
          if_pos hvisited
        obtain ⟨hall, hsame⟩ := ih { r with visited := update r.visited b false } hl
        rw [hstep]
        refine ⟨hall.trans ?_, hsame⟩
        refine (forall₂_congr fun x hx => ?_).trans (and_iff_right hvisited).symm
        dsimp only
        rw [Function.update_of_ne (ne_of_mem_of_not_mem hx hb)]
      · have hstep : (pushUnvisited (true, r) b).1 = false := by simp [pushUnvisited, hvisited]
        rw [hfalse l _ hstep]
        simp [hvisited]

/-- `DepthFirstSearch` says whether every block can be reached, and then has linked the blocks in an order in which
each has an edge from an earlier one. -/
theorem Ends.depthFirstSearch {s : Flow β} (hl : ∀ x ∈ l, ∀ c ∈ s.dest x, c ∈ l) (hhead : s.headBlock = some h)
    (hchain : Chain s.next s.headBlock l) (hvisited : ∀ b ∈ l, s.visited b = false) :
    ∃ red s', Ends (fun fuel => depthFirstSearch fuel s) (red, s') ∧
      s' = { s with visited := s'.visited, prev := s'.prev, blockList := s'.blockList } ∧
        (red = true ↔ ∀ b ∈ l, Reach s.dest h b) ∧
          (red = true → ∃ q, Chain s'.prev s'.blockList (h :: q) ∧ (∀ x, x ∈ h :: q ↔ x ∈ l) ∧
            TreeOrdered s.dest (h :: q)) := by
  have hmem : h ∈ l := (hhead ▸ hchain : Chain s.next (some h) l).head_mem
  obtain ⟨r, q, hends, hpushed, htree⟩ := markVisited_pushed hl _ ⟨s.visited, s.prev, none⟩ h le_rfl hmem
    (hvisited h hmem)
  obtain ⟨hall, hsame⟩ := foldl_pushUnvisited r l hchain.nodup
  set t := l.foldl pushUnvisited (true, r) with ht
  have hvisited' : ∀ x ∈ l, r.visited x = true ↔ x ∈ h :: q := by
    intro x hx
    rw [hpushed.visited]
    simp [hvisited x hx]
  have hreach : ∀ x, x ∈ h :: q ↔ Reach s.dest h x := by
    refine fun x => ⟨htree.reach x, fun hr => ?_⟩
    induction hr with
    | refl => exact List.mem_cons_self
    | @tail y c _ hstep ih => exact (hvisited' c (hl y (hpushed.mem y ih) c hstep)).mp (hpushed.closed y ih c hstep)
  refine ⟨t.1, (s.withSearch t).2, ?_, rfl, ?_, ?_⟩
  · have hlast := (Ends.walk hchain).map fun blks => s.withSearch (blks.foldl pushUnvisited (true, r))
    have hbind := hends.bind (h := fun fuel r => (FloGraph.walk s.next fuel s.headBlock).map fun blks =>
      s.withSearch (blks.foldl pushUnvisited (true, r))) hlast
    refine hbind.congr fun fuel => ?_
    rw [FloGraph.depthFirstSearch, hhead]
    rfl
  · rw [hall]
    exact forall₂_congr fun x hx => (hvisited' x hx).trans (hreach x)
  · intro hred
    obtain ⟨hprev, hlist⟩ := hsame hred
    refine ⟨q, ?_, fun x => ⟨hpushed.mem x, fun hx => (hvisited' x hx).mp (hall.mp hred x hx)⟩, htree⟩
    dsimp only [Flow.withSearch]
    rw [hprev, hlist]
    exact hpushed.links

/-! ### The links of the order -/

/-- A block list: `next` leads through it from `HeadBlock`, `prev` back through it from `BlockList`. -/
structure Linked (s : Flow β) (l : List β) : Prop where
  next : Chain s.next s.headBlock l
  prev : Chain s.prev s.blockList l.reverse

/-- `FixLinks` makes a block list of the order, and numbers the blocks. -/
theorem Ends.fixLinks {s : Flow β} (hp : Chain s.prev s.blockList p) :
    ∃ s', Ends (fun fuel => fixLinks fuel s) s' ∧ Linked s' p ∧ s'.headBlock = s.blockList ∧
      (∀ i b, p[i]? = some b → s'.blkId b = (i + 1) % 2 ^ 16) ∧
        s' = { s with
          headBlock := s'.headBlock
          blockList := s'.blockList
          next := s'.next
          prev := s'.prev
          blkId := s'.blkId } := by
  have hloop : ∀ (rest done : List β) (s : Flow β) (blk prev : Option β), (done ++ rest).Nodup →
      Chain s.prev blk rest → Path s.next s.blockList done blk → Chain s.prev prev done.reverse →
      (∀ i b, done[i]? = some b → s.blkId b = (i + 1) % 2 ^ 16) →
      ∃ s', Ends (fun fuel => fixLinksFrom fuel blk prev ((done.length + 1) % 2 ^ 16) s) s' ∧
        Linked s' (done ++ rest) ∧ s'.headBlock = s.blockList ∧
        (∀ i b, (done ++ rest)[i]? = some b → s'.blkId b = (i + 1) % 2 ^ 16) ∧
          s' = { s with
            headBlock := s'.headBlock
            blockList := s'.blockList
            next := s'.next
            prev := s'.prev
            blkId := s'.blkId } := by
    intro rest
    induction rest with
    | nil =>
        intro done s blk prev hnodup hrest hdone hback hids
        obtain rfl : blk = none := hrest
        rw [List.append_nil]
        exact ⟨_, (Ends.const _).succ fun _ => rfl, ⟨hdone, hback⟩, rfl, hids, rfl⟩
    | cons b rest ih =>
        intro done s blk prev hnodup hrest hdone hback hids
        obtain ⟨rfl, hrest⟩ := hrest
        obtain ⟨-, hbrest, hdisjoint⟩ := List.nodup_append'.mp hnodup
        have hbd : b ∉ done := fun hb => hdisjoint hb List.mem_cons_self
        have hbr := (List.nodup_cons.mp hbrest).1
        set s₁ : Flow β := { s with
          next := update s.next b (s.prev b)
          prev := update s.prev b prev
          blkId := update s.blkId b ((done.length + 1) % 2 ^ 16) } with hs₁
        have hnext : s₁.next b = s.prev b := Function.update_self _ _ _
        obtain ⟨s', hends, hlinked, hhead, hids', hsame⟩ := ih (done ++ [b]) s₁ (s₁.next b) (some b)
          (by simpa using hnodup)
          (hnext ▸ Path.update hrest hbr _)
          (path_append.mpr ⟨some b, Path.update hdone hbd _, rfl, rfl⟩)
          (by
            rw [List.reverse_append]
            exact Chain.push hback (by simpa using hbd))
          (by
            intro i c hi
            rw [List.getElem?_append] at hi
            split at hi
            case isTrue hlt =>
              have hne : c ≠ b := fun heq => hbd (heq ▸ List.mem_of_getElem? hi)
              simpa [hs₁, hne] using hids i c hi
            case isFalse hge =>
              obtain ⟨hi0, hc⟩ := List.getElem?_eq_some_iff.mp hi
              simp only [List.length_singleton] at hi0
              obtain rfl : i = done.length := by omega
              simp only [Nat.sub_self, List.getElem_cons_zero] at hc
              simp [hs₁, ← hc])
        refine ⟨s', ?_, by simpa using hlinked, hhead, by simpa using hids', hsame⟩
        refine hends.succ fun fuel => ?_
        rw [fixLinksFrom, List.length_append, List.length_singleton, Nat.add_mod (done.length + 1) 1]
        rfl
  exact hloop p [] s s.blockList none hp.nodup hp rfl rfl (by simp)

omit [DecidableEq β] in
theorem chain_head? {next : β → Option β} {x : Option β} (h : Chain next x l) : x = l.head? := by
  cases l with
  | nil => exact h
  | cons a l => exact h.1

/-- A block that is neither the first nor the last one of a list goes behind its last one. -/
theorem next_toBottom {next : β → Option β} {x : Option β} {front between : List β} {a b last : β}
    (hchain : Chain next x (front ++ b :: a :: (between ++ [last]))) :
    Chain (update (update (update next b (next a)) last (some a)) a none) x
      (front ++ b :: (between ++ [last, a])) := by
  have hnodup := hchain.nodup
  obtain ⟨y, hfront, rfl, hb, hrest⟩ := path_append.mp hchain
  obtain ⟨z, hbetween, rfl, hlast⟩ := path_append.mp hrest
  simp only [List.nodup_append', List.nodup_cons, List.mem_append, List.mem_cons, List.not_mem_nil, or_false,
    List.disjoint_cons_right, List.disjoint_append_right, not_or] at hnodup
  obtain ⟨-, ⟨⟨hba, hbbetween, hblast⟩, ⟨habetween, halast⟩, -, -, hlbetween, -⟩, hbf, haf, -, hlf, -⟩ := hnodup
  refine path_append.mpr ⟨some b, ?_, rfl, ?_⟩
  · exact Path.update (Path.update (Path.update hfront hbf _) hlf _) haf _
  · rw [Function.update_of_ne hba, Function.update_of_ne hblast, Function.update_self]
    refine path_append.mpr ⟨some last, ?_, rfl, ?_, ?_⟩
    · exact Path.update (Path.update (Path.update hbetween hbbetween _) hlbetween _) habetween _
    · rw [Function.update_of_ne (Ne.symm halast), Function.update_self]
    · exact Function.update_self _ _ _

theorem prev_toBottom {prev : β → Option β} {front between : List β} {a b c last : β}
    (hchain : Chain prev (some last) ((c :: between).reverse ++ a :: b :: front)) :
    Chain (update (update prev c (some b)) a (some last)) (some a) (a :: ((c :: between).reverse ++ b :: front)) := by
  have hnodup := hchain.nodup
  rw [List.reverse_cons] at hchain hnodup ⊢
  obtain ⟨y, hbetween, rfl, hfront⟩ := path_append.mp hchain
  obtain ⟨z, hbetween, rfl, hca⟩ := path_append.mp hbetween
  obtain ⟨hleft, hright, hdisjoint⟩ := List.nodup_append'.mp hnodup
  have hcbetween : c ∉ between.reverse := by
    have := List.disjoint_of_nodup_append hleft
    exact fun hc => this hc (List.mem_singleton_self c)
  have habetween : a ∉ between.reverse := fun ha => hdisjoint (List.mem_append_left _ ha) List.mem_cons_self
  have hac : a ≠ c := fun heq =>
    hdisjoint (List.mem_append_right _ (List.mem_singleton_self c)) (heq ▸ List.mem_cons_self)
  have hafront : a ∉ b :: front := (List.nodup_cons.mp hright).1
  have hcfront : c ∉ b :: front := fun hc =>
    hdisjoint (List.mem_append_right _ (List.mem_singleton_self c)) (List.mem_cons_of_mem a hc)
  refine ⟨rfl, ?_⟩
  rw [Function.update_self, List.append_assoc]
  refine path_append.mpr ⟨some c, Path.update (Path.update hbetween hcbetween _) habetween _, rfl, ?_⟩
  rw [Function.update_of_ne hac.symm, Function.update_self]
  have hpath : Path prev (some b) (b :: front) none := path_cons.mpr ⟨rfl, (path_cons.mp hfront).2⟩
  exact Path.update (Path.update hpath hcfront _) hafront _

/-- `ReturnsToBottom` leaves a block list of the same blocks with the same head, when the head does not return. -/
theorem Ends.returnsToBottom {s : Flow β} (hlinked : Linked s l) (hhead : s.headBlock = some h)
    (hret : s.isReturn h = false) :
    ∃ s' l', Ends (fun fuel => returnsToBottom fuel s) s' ∧ Linked s' l' ∧ l'.Perm l ∧
      s' = { s with blockList := s'.blockList, next := s'.next, prev := s'.prev } := by
  have hloop : ∀ (rest done : List β) (s : Flow β) (last : β), s.headBlock = some h → s.isReturn h = false →
      Chain s.next s.headBlock (rest.reverse ++ done) → Chain s.prev (some last) (done.reverse ++ rest) → done ≠ [] →
      ∃ s' l', Ends (fun fuel => returnsToBottomFrom fuel rest.head? last s) s' ∧ Linked s' l' ∧
        l'.Perm (rest.reverse ++ done) ∧
          s' = { s with blockList := s'.blockList, next := s'.next, prev := s'.prev } := by
    intro rest
    induction rest with
    | nil =>
        intro done s last hhead hret hnext hprev _
        refine ⟨{ s with blockList := some last }, done, (Ends.const _).succ fun _ => rfl, ⟨hnext, ?_⟩, .refl _, rfl⟩
        rwa [List.append_nil] at hprev
    | cons a rest ih =>
        intro done s last hhead hret hnext hprev hdone
        obtain ⟨y, -, rfl, hrest⟩ := path_append.mp hprev
        have hprevious : s.prev a = rest.head? := chain_head? hrest
        by_cases ha : s.isReturn a = true
        · obtain ⟨c, between, rfl⟩ := List.exists_cons_of_ne_nil hdone
          cases rest with
          | nil =>
              have hah : some h = some a := by
                rw [← hhead]
                exact chain_head? hnext
              rw [Option.some.inj hah, ha] at hret
              cases hret
          | cons b rest =>
              have hlast : ∃ between', c :: between = between' ++ [last] := by
                have hreverse : (c :: between).reverse.head? = some last := by
                  have := chain_head? hprev
                  rw [List.head?_append_of_ne_nil _ (by simp)] at this
                  exact this.symm
                obtain ⟨t, ht⟩ := List.head?_eq_some_iff.mp hreverse
                exact ⟨t.reverse, by rw [← List.reverse_reverse (c :: between), ht, List.reverse_cons]⟩
              obtain ⟨between', hbetween'⟩ := hlast
              have hnextA : s.next a = some c := by
                rw [List.reverse_cons, List.append_assoc] at hnext
                obtain ⟨y, -, rfl, hc⟩ := path_append.mp hnext
                exact chain_head? hc
              rw [List.reverse_cons, List.reverse_cons, List.append_assoc, List.append_assoc, List.singleton_append,
                List.singleton_append, hbetween'] at hnext
              set s₁ : Flow β := { s with
                next := update (update (update s.next b (s.next a)) last (some a)) a none
                prev := update (update s.prev c (some b)) a (some last) } with hs₁
              have hnext₁ := next_toBottom hnext
              have hprev₁ := prev_toBottom hprev
              obtain ⟨s', l', hends, hlinked, hperm, hsame⟩ := ih (c :: between ++ [a]) s₁ a hhead hret
                (by
                  rw [hbetween', List.reverse_cons, List.append_assoc, List.append_assoc]
                  exact hnext₁)
                (by
                  rw [List.reverse_append]
                  exact hprev₁)
                (by simp)
              refine ⟨s', l', hends.succ fun fuel => ?_, hlinked, hperm.trans ?_, hsame⟩
              · rw [List.head?_cons, returnsToBottomFrom, if_pos ha, hnextA, hprevious, hs₁, hnextA]
                rfl
              · simp only [List.reverse_cons, List.append_assoc, List.singleton_append]
                refine List.Perm.append_left _ (List.Perm.cons b ?_)
                exact List.perm_append_comm
        · obtain ⟨s', l', hends, hlinked, hperm, hsame⟩ := ih (a :: done) s last hhead hret (by simpa using hnext)
            (by simpa using hprev) (List.cons_ne_nil a done)
          refine ⟨s', l', hends.succ fun fuel => ?_, hlinked, by simpa using hperm, hsame⟩
          rw [List.head?_cons, returnsToBottomFrom, if_neg ha, hprevious]
  obtain ⟨front, last, rfl⟩ : ∃ front last, l = front ++ [last] := by
    rcases List.eq_nil_or_concat l with rfl | ⟨front, last, rfl⟩
    · have hnone : s.headBlock = none := hlinked.next
      rw [hhead] at hnone
      cases hnone
    · exact ⟨front, last, by simp⟩
  have hlist := hlinked.prev
  rw [List.reverse_append, List.reverse_singleton, List.singleton_append] at hlist
  obtain ⟨hblockList, hfront⟩ := hlist
  obtain ⟨s', l', hends, hlinked', hperm, hsame⟩ := hloop front.reverse [last] s last hhead hret
    (by simpa using hlinked.next) (path_cons.mpr ⟨rfl, hfront⟩) (by simp)
  refine ⟨s', l', ?_, hlinked', by simpa using hperm, hsame⟩
  refine ((Ends.walk hlinked.next).bind (h := fun fuel blks => blks.getLast?.bind fun last =>
    returnsToBottomFrom fuel (s.prev last) last s) (hends.congr fun fuel => ?_))
  rw [List.getLast?_concat, Option.bind_some, chain_head? hfront]

end OpenWatcom.FloGraph
