import OpenWatcom.Wpack.MatchTree

/-! # The match trees of all first bytes

What `InsertNode` and `DeleteNode` do to the arrays as a whole. -/

namespace OpenWatcom.Wpack

open PointerTrees BinaryTree

variable {text : ℕ → UInt8} {r : ℕ}

/-! ### The trees of all first bytes -/

/-- The arrays hold, for each first byte, a search tree of the positions of `live` with that byte, and no father for
other positions. -/
structure Trees (m : Tables) (live : List ℕ) (T : UInt8 → BinaryTree ℕ) : Prop where
  rep : ∀ c, TreeAt nilNode m.toLinks (rootOf c) (m.son true (rootOf c)) (T c)
  ordered : ∀ c, (keys (T c)).Pairwise (Before m.text)
  first : ∀ c, ∀ q ∈ keys (T c), m.text q = c
  mem : ∀ q, q ∈ live ↔ ∃ c, q ∈ keys (T c)
  unregistered : ∀ q < nilNode, q ∉ live → m.dad q = nilNode

/-- There are such trees. -/
def TreeOk (m : Tables) (live : List ℕ) : Prop := ∃ T, Trees m live T

/-- The match that `InsertNode` reports for `r`, among the positions that were in the tree: the longest one, unless all
are too short. -/
structure MatchOk (m : Tables) (r : ℕ) (others : List ℕ) : Prop where
  longest : ∀ q ∈ others, ∀ n ≤ laheadSize, Agree m.text r q n → n ≤ threshold ∨ n ≤ m.matchLength
  found : m.matchLength = 0 ∨ ∃ q ∈ others, q = (r + strbufSize - 1 - m.matchPosition) % strbufSize ∧
    threshold < m.matchLength ∧ m.matchLength ≤ laheadSize ∧ Agree m.text r q m.matchLength

instance decidableAgree (text : ℕ → UInt8) (r q n : ℕ) : Decidable (Agree text r q n) :=
  inferInstanceAs (Decidable (∀ j < n, text (r + j) = text (q + j)))

theorem rootOf_injective : Function.Injective rootOf := fun _ _ h => UInt8.toNat_inj.mp (Nat.add_left_cancel h)

theorem nilNode_lt_rootOf (c : UInt8) : nilNode < rootOf c :=
  Nat.lt_of_lt_of_le (Nat.lt_succ_self _) (Nat.le_add_right _ _)

section Forest

variable {m m' : Tables} {live live' : List ℕ} {T : UInt8 → BinaryTree ℕ}

theorem Trees.lt (h : Trees m live T) {q : ℕ} (hq : q ∈ live) : q < nilNode := by
  obtain ⟨c, hc⟩ := (h.mem q).mp hq
  exact (h.rep c).lt q hc

theorem Trees.nodup (h : Trees m live T) (c : UInt8) : (keys (T c)).Nodup :=
  (h.ordered c).imp fun {a b} hab => by
    rintro rfl
    exact Before.irrefl _ _ hab

theorem Trees.numNodes_lt (h : Trees m live T) (c : UInt8) : (T c).numNodes < strbufSize + 1 :=
  Nat.lt_succ_of_le ((h.rep c).numNodes_le (h.nodup c))

theorem Trees.root_notMem (h : Trees m live T) (c c' : UInt8) : rootOf c ∉ keys (T c') := fun hc =>
  lt_asymm ((h.rep c').lt _ hc) (nilNode_lt_rootOf c)

theorem Trees.below (h : Trees m live T) (c : UInt8) : Below nilNode m.toLinks (rootOf c) true (T c) :=
  ⟨h.rep c, h.nodup c, h.root_notMem c c, fun hs => nomatch hs⟩

/-- The trees when that of one first byte is changed. -/
theorem Trees.update (h : Trees m live T) {c₀ : UInt8} {t' : BinaryTree ℕ} {S : ℕ → Prop} (htext : m'.text = m.text)
    (hrep : TreeAt nilNode m'.toLinks (rootOf c₀) (m'.son true (rootOf c₀)) t')
    (hord : (keys t').Pairwise (Before m.text)) (hfirst : ∀ q ∈ keys t', m.text q = c₀)
    (hchange : Change nilNode m.toLinks m'.toLinks S true (rootOf c₀)) (hS : ∀ q, S q → q < nilNode ∧ m.text q = c₀)
    (hSt : ∀ q ∈ keys (T c₀), S q) (hlive : ∀ q, q ∈ live' ↔ q ∈ keys t' ∨ ∃ c ≠ c₀, q ∈ keys (T c))
    (hgone : ∀ q, S q → q ∉ keys t' → m'.dad q = nilNode) : Trees m' live' (Function.update T c₀ t') where
  rep c := by
    by_cases hc : c = c₀
    · subst hc
      rwa [Function.update_self]
    · rw [Function.update_of_ne hc, hchange.son true (rootOf c) (fun h => lt_asymm (hS _ h).1 (nilNode_lt_rootOf c))
        (.inr fun h => hc (rootOf_injective h))]
      refine (h.rep c).of_change hchange (fun q hq hSq => hc ?_) (h.root_notMem _ _)
      rw [← h.first c q hq, (hS q hSq).2]
  ordered c := by
    rw [htext]
    by_cases hc : c = c₀
    · subst hc
      rwa [Function.update_self]
    · rw [Function.update_of_ne hc]
      exact h.ordered c
  first c := by
    rw [htext]
    by_cases hc : c = c₀
    · subst hc
      rwa [Function.update_self]
    · rw [Function.update_of_ne hc]
      exact h.first c
  mem q := by
    rw [hlive]
    constructor
    · rintro (hq | ⟨c, hc, hq⟩)
      · exact ⟨c₀, by rwa [Function.update_self]⟩
      · exact ⟨c, by rwa [Function.update_of_ne hc]⟩
    · rintro ⟨c, hq⟩
      by_cases hc : c = c₀
      · subst hc
        rw [Function.update_self] at hq
        exact .inl hq
      · rw [Function.update_of_ne hc] at hq
        exact .inr ⟨c, hc, hq⟩
  unregistered q hlt hq := by
    rw [hlive, not_or] at hq
    by_cases hSq : S q
    · exact hgone q hSq hq.1
    · rw [hchange.dad q hSq hlt.ne]
      refine h.unregistered q hlt fun hqlive => ?_
      obtain ⟨c, hc⟩ := (h.mem q).mp hqlive
      by_cases hcc : c = c₀
      · exact hSq (hSt q (hcc ▸ hc))
      · exact hq.2 ⟨c, hcc, hc⟩

/-- The positions after `r` was inserted: those with the same bytes are replaced. -/
def replaced (text : ℕ → UInt8) (r : ℕ) (live : List ℕ) : List ℕ :=
  r :: live.filter fun q => ¬ Agree text r q laheadSize

theorem mem_replaced {q : ℕ} : q ∈ replaced text r live ↔ q = r ∨ (q ∈ live ∧ ¬ Agree text r q laheadSize) := by
  rw [replaced, List.mem_cons, List.mem_filter, decide_eq_true_iff]

/-- `InsertNode`. -/
theorem insertNode_spec (h : Trees m live T) (hr : r < nilNode) (hlive : r ∉ live) :
    ∃ m', insertNode m r = some m' ∧ m'.text = m.text ∧ TreeOk m' (replaced m.text r live) ∧ MatchOk m' r live := by
  have hrT : ∀ c, r ∉ keys (T c) := fun c hc => hlive ((h.mem r).mpr ⟨c, hc⟩)
  have hroot : rootOf (m.text r) ≠ r := fun heq => lt_asymm (heq ▸ hr) (nilNode_lt_rootOf _)
  -- The sons of `r` are cleared.
  set m₀ : Tables := { m with toLinks := (m.setSon false r nilNode).setSon true r nilNode, matchLength := 0 } with hm₀
  have hdad₀ : ∀ q, m₀.dad q = m.dad q := fun _ => rfl
  have hson₀ : ∀ d q, q ≠ r → m₀.son d q = m.son d q := fun d q hq => by simp [hm₀, hq]
  have hsons : ∀ d, m₀.son d r = nilNode := fun d => by cases d <;> simp [hm₀]
  have h₀ : Trees m₀ live T := by
    refine ⟨fun c => ?_, h.ordered, h.first, h.mem, h.unregistered⟩
    rw [hson₀ true _ fun heq => lt_asymm (heq ▸ hr) (nilNode_lt_rootOf _)]
    exact (h.rep c).congr (fun q _ => hdad₀ q) fun d q hq => hson₀ d q fun heq => hrT c (heq ▸ hq)
  obtain ⟨m', t', hrun, htext, hrep, hins, hchange, hgone, hmatched⟩ := insertLoop_spec hr (T (m.text r))
    (strbufSize + 1) m₀ (rootOf (m.text r)) 1 (h.numNodes_lt _)
    ⟨h₀.below _, h.ordered _, hrT _, hroot, hsons, h.first _⟩ (show 0 < laheadSize by decide)
  have hmem := hins.mem_iff (h.ordered _)
  refine ⟨m', hrun, htext, ⟨_, h₀.update htext hrep (hins.ordered (h.ordered _)) (fun q hq => ?_) hchange
    (fun q hq => ?_) (fun q hq => .inl hq) (fun q => ?_) fun q hq hq' => ?_⟩, fun q hq n hn hag => ?_, ?_⟩
  · obtain rfl | ⟨hq, -⟩ := (hmem q).mp hq
    · rfl
    · exact h.first _ q hq
  · obtain hq | rfl := hq
    · exact ⟨(h.rep _).lt q hq, h.first _ q hq⟩
    · exact ⟨hr, rfl⟩
  · -- The positions with another first byte do not agree with `r`.
    rw [mem_replaced, hmem, h.mem]
    have hother : ∀ c, q ∈ keys (T c) → Agree m.text r q laheadSize → c = m.text r := fun c hc hag => by
      rw [← h.first c q hc]
      exact (hag 0 (by decide)).symm
    constructor
    · rintro (rfl | ⟨⟨c, hc⟩, hag⟩)
      · exact .inl (.inl rfl)
      · by_cases hcr : c = m.text r
        · exact .inl (.inr ⟨hcr ▸ hc, hag⟩)
        · exact .inr ⟨c, hcr, hc⟩
    · rintro ((rfl | ⟨hq, hag⟩) | ⟨c, hcr, hc⟩)
      · exact .inl rfl
      · exact .inr ⟨⟨_, hq⟩, hag⟩
      · exact .inr ⟨⟨c, hc⟩, fun hag => hcr (hother c hc hag)⟩
  · obtain hq | rfl := hq
    · exact hgone q hq hq'
    · exact absurd ((hmem q).mpr (.inl rfl)) hq'
  · rw [htext] at hag
    obtain ⟨c, hc⟩ := (h.mem q).mp hq
    obtain rfl | hpos := Nat.eq_zero_or_pos n
    · exact .inl (by decide)
    · have hcr : c = m.text r := by
        rw [← h.first c q hc]
        exact (hag 0 hpos).symm
      exact hmatched.longest q (hcr ▸ hc) n hn hag
  · obtain ⟨hl, -⟩ | ⟨q, hq, hlong, hle, hag, hpos⟩ := hmatched.found
    · exact .inl hl
    · have hqlt := (h.rep _).lt q hq
      have hqr : q ≠ r := fun heq => hrT _ (heq ▸ hq)
      refine .inr ⟨q, (h.mem q).mpr ⟨_, hq⟩, ?_, hlong, hle, htext ▸ hag⟩
      rw [hpos]
      unfold backward
      unfold nilNode strbufSize at *
      omega

/-- `DeleteNode`. -/
theorem deleteNode_spec (h : Trees m live T) (hp : p < nilNode) :
    ∃ m', deleteNode m.toLinks p = some m' ∧ TreeOk { m with toLinks := m' } (live.filter (· ≠ p)) := by
  have hmem : ∀ q, q ∈ live.filter (· ≠ p) ↔ q ∈ live ∧ q ≠ p := fun q => by
    rw [List.mem_filter, decide_eq_true_iff]
  by_cases hlive : p ∈ live
  · obtain ⟨c, hc⟩ := (h.mem p).mp hlive
    obtain ⟨m', t', hrun, hrep, hkeys, hchange, hnil⟩ := deleteNode_below (T c) m.toLinks (rootOf c) true
      (h.below c) (nilNode_lt_rootOf c).ne' p hc
    have hkeys' : ∀ q, q ∈ keys t' ↔ q ≠ p ∧ q ∈ keys (T c) := fun q => by rw [hkeys, (h.nodup c).mem_erase_iff]
    refine ⟨m', hrun, _, Trees.update h rfl hrep
      ((h.ordered c).sublist (by rw [hkeys]; exact List.erase_sublist))
      (fun q hq => h.first c q ((hkeys' q).mp hq).2) hchange (fun q hq => ⟨(h.rep c).lt q hq, h.first c q hq⟩)
      (fun q hq => hq) (fun q => ?_) fun q hq hq' => ?_⟩
    · rw [hmem, hkeys', h.mem]
      constructor
      · rintro ⟨⟨c', hc'⟩, hne⟩
        by_cases hcc : c' = c
        · exact .inl ⟨hne, hcc ▸ hc'⟩
        · exact .inr ⟨c', hcc, hc'⟩
      · rintro (⟨hne, hq⟩ | ⟨c', hcc, hc'⟩)
        · exact ⟨⟨c, hq⟩, hne⟩
        · refine ⟨⟨c', hc'⟩, ?_⟩
          rintro rfl
          exact hcc ((h.first c' q hc').symm.trans (h.first c q hc))
    · obtain rfl : q = p := by
        by_contra hne
        exact hq' ((hkeys' q).mpr ⟨hne, hq⟩)
      exact hnil
  · -- The position is not registered.
    refine ⟨m.toLinks, by rw [deleteNode, if_pos (h.unregistered p hp hlive)], T, h.rep, h.ordered, h.first, ?_, ?_⟩
    · intro q
      rw [hmem, ← h.mem]
      exact ⟨fun hq => hq.1, fun hq => ⟨hq, fun heq => hlive (heq ▸ hq)⟩⟩
    · intro q hlt hq
      rw [hmem] at hq
      exact h.unregistered q hlt fun hq' => hq ⟨hq', fun heq => hlive (heq ▸ hq')⟩

/-- The arrays hold one set of positions. -/
theorem TreeOk.subset (h : TreeOk m live) (h' : TreeOk m live') {q : ℕ} (hq : q ∈ live) : q ∈ live' := by
  obtain ⟨T, h⟩ := h
  obtain ⟨T', h'⟩ := h'
  obtain ⟨c, hc⟩ := (h.mem q).mp hq
  by_contra hnot
  have hnil := h'.unregistered q (h.lt hq) hnot
  obtain hdad | hdad := (h.rep c).dad_mem q hc
  · exact (nilNode_lt_rootOf c).ne (hnil.symm.trans hdad)
  · exact ((h.rep c).lt _ hdad).ne hnil

/-- Bytes that are not compared do not matter. -/
theorem TreeOk.of_text (h : TreeOk m live) (hlinks : m'.toLinks = m.toLinks)
    (htext : ∀ q ∈ live, ∀ j < laheadSize, m'.text (q + j) = m.text (q + j)) : TreeOk m' live := by
  obtain ⟨T, h⟩ := h
  have hlive : ∀ c, ∀ q ∈ keys (T c), q ∈ live := fun c q hq => (h.mem q).mpr ⟨c, hq⟩
  refine ⟨T, fun c => ?_, fun c => ?_, fun c q hq => ?_, h.mem, fun q hlt hq => ?_⟩
  · rw [hlinks]
    exact h.rep c
  · refine (h.ordered c).imp_of_mem fun {a b} ha hb hab => ?_
    obtain ⟨i, hi, heq, hlt⟩ := hab
    refine ⟨i, hi, fun j hj => ?_, ?_⟩
    · rw [htext a (hlive c a ha) j (hj.trans hi), htext b (hlive c b hb) j (hj.trans hi)]
      exact heq j hj
    · rwa [htext a (hlive c a ha) i hi, htext b (hlive c b hb) i hi]
  · have h0 := htext q (hlive c q hq) 0 (by decide)
    exact h0.trans (h.first c q hq)
  · rw [hlinks]
    exact h.unregistered q hlt hq

end Forest

end OpenWatcom.Wpack
