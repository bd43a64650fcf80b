import Mathlib.Tactic

/-! # Binary trees in arrays

A tree whose nodes are indices below `null`, linked to their sons and to their fathers, against the trees of Mathlib. -/

namespace OpenWatcom.PointerTrees

open BinaryTree

/-- The nodes, from left to right. -/
def keys {α : Type*} : BinaryTree α → List α
  | .nil => []
  | .node k l r => keys l ++ k :: keys r

@[simp] theorem keys_nil {α : Type*} : keys (.nil : BinaryTree α) = [] := rfl

@[simp] theorem keys_node {α : Type*} (k : α) (l r : BinaryTree α) : keys (.node k l r) = keys l ++ k :: keys r := rfl

/-- Sons, the left one at `false`, and fathers. -/
structure Links where
  son : Bool → ℕ → ℕ
  dad : ℕ → ℕ

namespace Links

def setSon (m : Links) (d : Bool) (q v : ℕ) : Links :=
  { m with son := fun d' q' => if d' = d ∧ q' = q then v else m.son d' q' }

def setDad (m : Links) (q v : ℕ) : Links := { m with dad := fun q' => if q' = q then v else m.dad q' }

@[simp, grind =] theorem son_setSon (m : Links) (d d' : Bool) (q q' v : ℕ) :
    (m.setSon d q v).son d' q' = if d' = d ∧ q' = q then v else m.son d' q' := rfl

@[simp, grind =] theorem dad_setSon (m : Links) (d : Bool) (q q' v : ℕ) : (m.setSon d q v).dad q' = m.dad q' := rfl

@[simp, grind =] theorem son_setDad (m : Links) (d : Bool) (q q' v : ℕ) : (m.setDad q v).son d q' = m.son d q' := rfl

@[simp, grind =] theorem dad_setDad (m : Links) (q q' v : ℕ) :
    (m.setDad q v).dad q' = if q' = q then v else m.dad q' := rfl

end Links

variable {null : ℕ}

/-- The links below `x`, a son of `par`, are the tree. -/
def TreeAt (null : ℕ) (m : Links) : ℕ → ℕ → BinaryTree ℕ → Prop
  | _, x, .nil => x = null
  | par, x, .node k l r =>
    x = k ∧ k < null ∧ m.dad k = par ∧ TreeAt null m k (m.son false k) l ∧ TreeAt null m k (m.son true k) r

/-- Links are changed at most at the nodes of `S`, at a son of `par`, and at the father of `null`. -/
structure Change (null : ℕ) (m m' : Links) (S : ℕ → Prop) (side : Bool) (par : ℕ) : Prop where
  dad : ∀ q, ¬ S q → q ≠ null → m'.dad q = m.dad q
  son : ∀ d q, ¬ S q → d ≠ side ∨ q ≠ par → m'.son d q = m.son d q

variable {m m' m'' : Links} {par x : ℕ} {t : BinaryTree ℕ} {S : ℕ → Prop} {side : Bool}

theorem TreeAt.eq_null_iff (h : TreeAt null m par x t) : x = null ↔ t = .nil := by
  cases t with
  | nil => exact ⟨fun _ => rfl, fun _ => h⟩
  | node k l r =>
      obtain ⟨rfl, hk, -⟩ := h
      exact ⟨fun hx => absurd hx hk.ne, fun ht => nomatch ht⟩

theorem TreeAt.lt (h : TreeAt null m par x t) : ∀ q ∈ keys t, q < null := by
  induction t generalizing par x with
  | nil => exact fun q hq => nomatch hq
  | node k l r ihl ihr =>
      obtain ⟨rfl, hk, -, hl, hr⟩ := h
      intro q hq
      obtain hq | hq := List.mem_append.mp hq
      · exact ihl hl q hq
      · obtain rfl | hq := List.mem_cons.mp hq
        · exact hk
        · exact ihr hr q hq

/-- The root is a node. -/
theorem TreeAt.mem (h : TreeAt null m par x t) (hne : x ≠ null) : x ∈ keys t := by
  cases t with
  | nil => exact absurd h hne
  | node k l r =>
      obtain ⟨rfl, -⟩ := h
      exact List.mem_append_right _ List.mem_cons_self

/-- The father of a node is `par` or a node. -/
theorem TreeAt.dad_mem (h : TreeAt null m par x t) : ∀ q ∈ keys t, m.dad q = par ∨ m.dad q ∈ keys t := by
  induction t generalizing par x with
  | nil => exact fun q hq => nomatch hq
  | node k l r ihl ihr =>
      obtain ⟨rfl, -, hdad, hl, hr⟩ := h
      intro q hq
      rw [keys_node] at hq ⊢
      obtain hq | hq := List.mem_append.mp hq
      · obtain h | h := ihl hl q hq
        · exact .inr (by rw [h]; exact List.mem_append_right _ List.mem_cons_self)
        · exact .inr (List.mem_append_left _ h)
      · obtain rfl | hq := List.mem_cons.mp hq
        · exact .inl hdad
        · obtain h | h := ihr hr q hq
          · exact .inr (by rw [h]; exact List.mem_append_right _ List.mem_cons_self)
          · exact .inr (List.mem_append_right _ (List.mem_cons_of_mem _ h))

/-- The father of the root is the one in its link. -/
theorem TreeAt.of_root (h : TreeAt null m par x t) : TreeAt null m (m.dad x) x t := by
  cases t with
  | nil => exact h
  | node k l r =>
      obtain ⟨rfl, hk, -, hl, hr⟩ := h
      exact ⟨rfl, hk, rfl, hl, hr⟩

/-- The root of a tree and those of its two trees. -/
theorem TreeAt.roots {k : ℕ} {l r : BinaryTree ℕ} (h : TreeAt null m par x (.node k l r))
    (hnodup : (keys (.node k l r)).Nodup) :
    (m.son false k ∈ keys l ∨ m.son false k = null) ∧ (m.son true k ∈ keys r ∨ m.son true k = null) ∧
      k ∉ keys l ∧ k ∉ keys r ∧ (∀ q ∈ keys l, q ∉ keys r) ∧ (keys l).Nodup ∧ (keys r).Nodup := by
  obtain ⟨rfl, hk, -, hl, hr⟩ := h
  rw [keys_node, List.nodup_append] at hnodup
  obtain ⟨hnl, hxr, hlr⟩ := hnodup
  obtain ⟨hxr, hnr⟩ := List.nodup_cons.mp hxr
  exact ⟨or_iff_not_imp_right.mpr hl.mem, or_iff_not_imp_right.mpr hr.mem, fun hx => hlr x hx x List.mem_cons_self rfl,
    hxr, fun q hq hq' => hlr q hq q (List.mem_cons_of_mem _ hq') rfl, hnl, hnr⟩

/-- Links that are not changed. -/
theorem TreeAt.congr (h : TreeAt null m par x t) (hdad : ∀ q ∈ keys t, m'.dad q = m.dad q)
    (hson : ∀ d, ∀ q ∈ keys t, m'.son d q = m.son d q) : TreeAt null m' par x t := by
  induction t generalizing par x with
  | nil => exact h
  | node k l r ihl ihr =>
      obtain ⟨rfl, hk, hd, hl, hr⟩ := h
      have hmem : x ∈ keys (.node x l r) := List.mem_append_right _ List.mem_cons_self
      refine ⟨rfl, hk, (hdad x hmem).trans hd, ?_, ?_⟩
      · rw [hson false x hmem]
        exact ihl hl (fun q hq => hdad q (List.mem_append_left _ hq)) fun d q hq => hson d q (List.mem_append_left _ hq)
      · rw [hson true x hmem]
        exact ihr hr (fun q hq => hdad q (List.mem_append_right _ (List.mem_cons_of_mem _ hq)))
          fun d q hq => hson d q (List.mem_append_right _ (List.mem_cons_of_mem _ hq))

/-- A tree that gets another father. -/
theorem TreeAt.reroot {par' : ℕ} (h : TreeAt null m par x t) (hnodup : (keys t).Nodup)
    (hroot : x ≠ null → m'.dad x = par') (hdad : ∀ q ∈ keys t, q ≠ x → m'.dad q = m.dad q)
    (hson : ∀ d, ∀ q ∈ keys t, m'.son d q = m.son d q) : TreeAt null m' par' x t := by
  cases t with
  | nil => exact h
  | node k l r =>
      obtain ⟨rfl, hk, hd, hl, hr⟩ := h
      have hmem : x ∈ keys (.node x l r) := List.mem_append_right _ List.mem_cons_self
      rw [keys_node, List.nodup_append] at hnodup
      obtain ⟨-, hxr, hlr⟩ := hnodup
      have hxl : x ∉ keys l := fun hx => hlr x hx x List.mem_cons_self rfl
      have hxr := (List.nodup_cons.mp hxr).1
      refine ⟨rfl, hk, hroot hk.ne, ?_, ?_⟩
      · rw [hson false x hmem]
        refine hl.congr (fun q hq => hdad q (List.mem_append_left _ hq) ?_) fun d q hq =>
          hson d q (List.mem_append_left _ hq)
        rintro rfl
        exact hxl hq
      · rw [hson true x hmem]
        refine hr.congr (fun q hq => hdad q (List.mem_append_right _ (List.mem_cons_of_mem _ hq)) ?_) fun d q hq =>
          hson d q (List.mem_append_right _ (List.mem_cons_of_mem _ hq))
        rintro rfl
        exact hxr hq

/-- A tree beside the change. -/
theorem TreeAt.of_change (h : TreeAt null m par x t) {side : Bool} {p : ℕ} (hc : Change null m m' S side p)
    (hS : ∀ q ∈ keys t, ¬ S q) (hp : p ∉ keys t) : TreeAt null m' par x t := by
  refine h.congr (fun q hq => hc.dad q (hS q hq) (h.lt q hq).ne) fun d q hq => hc.son d q (hS q hq) (.inr ?_)
  rintro rfl
  exact hp hq

theorem Change.mono {S' : ℕ → Prop} (hc : Change null m m' S side par) (hS : ∀ q, S q → S' q) :
    Change null m m' S' side par :=
  ⟨fun q hq => hc.dad q (mt (hS q) hq), fun d q hq => hc.son d q (mt (hS q) hq)⟩

theorem Change.trans (hc : Change null m m' S side par) (hc' : Change null m' m'' S side par) :
    Change null m m'' S side par :=
  ⟨fun q hq hnull => (hc'.dad q hq hnull).trans (hc.dad q hq hnull),
    fun d q hq hslot => (hc'.son d q hq hslot).trans (hc.son d q hq hslot)⟩

/-- A change below a node of `S'` is one of `S'`. -/
theorem Change.of_below {S' : ℕ → Prop} {d : Bool} {k : ℕ} (hc : Change null m m' S d k) (hS : ∀ q, S q → S' q)
    (hk : S' k) : Change null m m' S' side par :=
  ⟨fun q hq => hc.dad q (mt (hS q) hq), fun d' q hq _ => hc.son d' q (mt (hS q) hq) (.inr fun h => hq (h ▸ hk))⟩

/-! ### The tree below a son -/

/-- The tree at a son of `par`. -/
structure Below (null : ℕ) (m : Links) (par : ℕ) (side : Bool) (t : BinaryTree ℕ) : Prop where
  rep : TreeAt null m par (m.son side par) t
  nodup : (keys t).Nodup
  notMem : par ∉ keys t
  other : side = false → m.son true par ∉ keys t

namespace Below

variable {k : ℕ} {l r t' : BinaryTree ℕ}

theorem left (h : Below null m par side (.node k l r)) : Below null m k false l := by
  obtain ⟨-, hr', hkl, -, hlr, hnl, -⟩ := h.rep.roots h.nodup
  obtain ⟨-, -, -, hl, -⟩ := h.rep
  exact ⟨hl, hnl, hkl, fun _ hm => hr'.elim (hlr _ hm) (hl.lt _ hm).ne⟩

theorem right (h : Below null m par side (.node k l r)) : Below null m k true r := by
  obtain ⟨-, -, -, hkr, -, -, hnr⟩ := h.rep.roots h.nodup
  obtain ⟨-, -, -, -, hr⟩ := h.rep
  exact ⟨hr, hnr, hkr, fun hs => nomatch hs⟩

theorem ne (h : Below null m par side (.node k l r)) : par ≠ k := by
  rintro rfl
  exact h.notMem (List.mem_append_right _ List.mem_cons_self)

theorem root_other (h : Below null m par side (.node k l r)) (hs : side = false) : m.son true par ≠ k := by
  rintro rfl
  exact h.other hs (List.mem_append_right _ List.mem_cons_self)

/-- The left tree is changed. -/
theorem replace_left (h : Below null m par side (.node k l r)) (hc : Change null m m' S false k)
    (hrep : TreeAt null m' k (m'.son false k) t') (hk : ¬ S k) (hpar : ¬ S par) (hS : ∀ q ∈ keys r, ¬ S q) :
    TreeAt null m' par (m'.son side par) (.node k t' r) := by
  have hkr := h.right.notMem
  obtain ⟨hson, hlt, hdad, -, hr⟩ := h.rep
  rw [hc.son side par hpar (.inr h.ne), hson]
  refine ⟨rfl, hlt, (hc.dad k hk hlt.ne).trans hdad, hrep, ?_⟩
  rw [hc.son true k hk (.inl (by decide))]
  exact hr.of_change hc hS hkr

/-- The right tree is changed. -/
theorem replace_right (h : Below null m par side (.node k l r)) (hc : Change null m m' S true k)
    (hrep : TreeAt null m' k (m'.son true k) t') (hk : ¬ S k) (hpar : ¬ S par) (hS : ∀ q ∈ keys l, ¬ S q) :
    TreeAt null m' par (m'.son side par) (.node k l t') := by
  have hkl := h.left.notMem
  obtain ⟨hson, hlt, hdad, hl, -⟩ := h.rep
  rw [hc.son side par hpar (.inr h.ne), hson]
  refine ⟨rfl, hlt, (hc.dad k hk hlt.ne).trans hdad, ?_, hrep⟩
  rw [hc.son false k hk (.inl (by decide))]
  exact hl.of_change hc hS hkl

end Below

/-! ### The last node -/

/-- The last node is replaced by its left tree. -/
def spliceMax (m : Links) (q : ℕ) : Links :=
  (m.setSon true (m.dad q) (m.son false q)).setDad (m.son false q) (m.dad q)

/-- The last node. -/
inductive IsMax (null : ℕ) (m : Links) : ℕ → ℕ → ℕ → Prop
  | last {q : ℕ} (h : m.son true q = null) : IsMax null m q q 0
  | next {q q' n : ℕ} (h : m.son true q ≠ null) (hq : IsMax null m (m.son true q) q' n) : IsMax null m q q' (n + 1)

theorem Below.splice_max (h : Below null m par true t) (hx : m.son true par ≠ null) :
    ∃ q t' n, IsMax null m (m.son true par) q n ∧ n < t.numNodes ∧ keys t = keys t' ++ [q] ∧
      TreeAt null (spliceMax m q) par ((spliceMax m q).son true par) t' ∧
      Change null m (spliceMax m q) (fun q' => q' ∈ keys t) true par := by
  induction t generalizing par with
  | nil => exact absurd h.rep hx
  | node k l r ihl ihr =>
      obtain ⟨-, -, hkl, hkr, hlr, hnl, hnr⟩ := h.rep.roots h.nodup
      obtain ⟨hson, hk, hd, hl, hr⟩ := h.rep
      have hparl : par ∉ keys l := fun hp => h.notMem (List.mem_append_left _ hp)
      have hparr : par ∉ keys r := fun hp => h.notMem (List.mem_append_right _ (List.mem_cons_of_mem _ hp))
      rw [hson]
      by_cases hlast : m.son true k = null
      · obtain rfl := hr.eq_null_iff.mp hlast
        refine ⟨k, l, 0, .last hlast, by rw [numNodes]; omega, rfl, ?_, ?_, ?_⟩
        · have hnew : (spliceMax m k).son true par = m.son false k := by
            simp [spliceMax, hd]
          rw [hnew]
          refine hl.reroot hnl (fun _ => ?_) (fun q hq hne => ?_) fun d q hq => ?_
          · simp [spliceMax, hd]
          · simp [spliceMax, hne]
          · have hne : q ≠ par := by
              rintro rfl
              exact hparl hq
            simp [spliceMax, hd, hne]
        · intro q hq hnull
          have hne : q ≠ m.son false k := by
            rintro rfl
            exact hq (List.mem_append_left _ (hl.mem hnull))
          simp [spliceMax, hne]
        · intro d q hq hslot
          have hne : ¬ (d = true ∧ q = par) := fun hdq => hslot.elim (fun h => h hdq.1) fun h => h hdq.2
          simp [spliceMax, hd, hne]
      · obtain ⟨q, t', n, hmax, hn, hkeys', hrep, hchange⟩ := ihr h.right hlast
        refine ⟨q, .node k l t', n + 1, .next hlast hmax, by rw [numNodes]; omega, ?_, ?_, ?_⟩
        · rw [keys_node, keys_node, hkeys', List.append_assoc, List.cons_append]
        · exact h.replace_right hchange hrep hkr hparr fun q' hq' => hlr q' hq'
        · exact hchange.of_below (fun q' hq' => List.mem_append_right _ (List.mem_cons_of_mem _ hq'))
            (List.mem_append_right _ List.mem_cons_self)

/-- There are no more nodes than indices. -/
theorem TreeAt.numNodes_le (h : TreeAt null m par x t) (hnodup : (keys t).Nodup) : t.numNodes ≤ null := by
  have hlen : ∀ s : BinaryTree ℕ, (keys s).length = s.numNodes := by
    intro s
    induction s with
    | nil => rfl
    | node k l r ihl ihr =>
        rw [keys_node, List.length_append, List.length_cons, ihl, ihr, numNodes]
        omega
  have hsub : (keys t).toFinset ⊆ Finset.range null := fun q hq =>
    Finset.mem_range.mpr (h.lt q (List.mem_toFinset.mp hq))
  have hcard := Finset.card_le_card hsub
  rwa [List.toFinset_card_of_nodup hnodup, hlen, Finset.card_range] at hcard

end OpenWatcom.PointerTrees
