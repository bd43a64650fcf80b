import OpenWatcom.Lib.PointerTrees

/-! # The match trees of the packer

`InsertNode` and `DeleteNode` of the encoder: for each first byte a binary search tree of positions of the text, ordered
by the `LAHEAD_SIZE` bytes there, in the arrays `lson`, `rson` and `dad`. -/

namespace OpenWatcom.Wpack

open PointerTrees BinaryTree

/-- `STRBUF_SIZE`. -/
def strbufSize : ℕ := 4096

/-- `LAHEAD_SIZE`. -/
def laheadSize : ℕ := 60

/-- `THRESHOLD`. -/
def threshold : ℕ := 2

/-- `NIL`. -/
def nilNode : ℕ := strbufSize

/-- The tree arrays, `text_buf`, and the match that was found last. -/
structure Tables extends Links where
  text : ℕ → UInt8
  matchPosition : ℕ
  matchLength : ℕ

/-! ### The code -/

/-- The portable loop that compares the bytes at two positions from `i` on: where they differ, and how. -/
def compareLoop (text : ℕ → UInt8) (r p : ℕ) : ℕ → ℕ → ℕ × ℤ
  | 0, i => (i, 0)
  | k + 1, i =>
    if text (r + i) ≠ text (p + i) then (i, (text (r + i)).toNat - (text (p + i)).toNat)
    else compareLoop text r p k (i + 1)

/-- How far `p` is back from `r`, less one. -/
def backward (r p : ℕ) : ℕ := (r + strbufSize - p) % strbufSize - 1

/-- A match of `i` bytes is noted if it is the longest so far, or the nearest of these. -/
def noteMatch (m : Tables) (r p i : ℕ) : Tables :=
  if threshold < i then
    let m := if m.matchLength < i then { m with matchPosition := backward r p, matchLength := i } else m
    if i = m.matchLength then
      if backward r p < m.matchPosition then { m with matchPosition := backward r p } else m
    else m
  else m

/-- `r` takes the place of `p`. -/
def replaceNode (m : Links) (r p : ℕ) : Links :=
  let m := m.setDad r (m.dad p)
  let m := m.setSon false r (m.son false p)
  let m := m.setSon true r (m.son true p)
  let m := m.setDad (m.son false p) r
  let m := m.setDad (m.son true p) r
  let m := if m.son true (m.dad p) = p then m.setSon true (m.dad p) r else m.setSon false (m.dad p) r
  m.setDad p nilNode

/-- The loop of `InsertNode`, with the sign of the last comparison. -/
def insertLoop : ℕ → Tables → ℕ → ℕ → ℤ → Option Tables
  | 0, _, _, _, _ => none
  | fuel + 1, m, r, p, cmp =>
    if m.son (decide (0 ≤ cmp)) p ≠ nilNode then
      let q := m.son (decide (0 ≤ cmp)) p
      let c := compareLoop m.text r q (laheadSize - 1) 1
      if threshold < c.1 ∧ m.matchLength < c.1 ∧ laheadSize ≤ c.1 then
        some { noteMatch m r q c.1 with toLinks := replaceNode m.toLinks r q }
      else insertLoop fuel (noteMatch m r q c.1) r q c.2
    else some { m with toLinks := (m.setSon (decide (0 ≤ cmp)) p r).setDad r p }

/-- The root of the positions with a first byte. -/
def rootOf (c : UInt8) : ℕ := strbufSize + 1 + c.toNat

/-- `InsertNode`. -/
def insertNode (m : Tables) (r : ℕ) : Option Tables :=
  insertLoop (strbufSize + 1)
    { m with toLinks := (m.setSon false r nilNode).setSon true r nilNode, matchLength := 0 } r (rootOf (m.text r)) 1

/-- The loop over right sons of `DeleteNode`. -/
def maxLoop (m : Links) : ℕ → ℕ → Option ℕ
  | 0, _ => none
  | fuel + 1, q => if m.son true q ≠ nilNode then maxLoop m fuel (m.son true q) else some q

/-- `q` takes the place of `p`. -/
def unlinkNode (m : Links) (p q : ℕ) : Links :=
  let m := m.setDad q (m.dad p)
  let m := if m.son true (m.dad p) = p then m.setSon true (m.dad p) q else m.setSon false (m.dad p) q
  m.setDad p nilNode

/-- The right tree of `p` goes below `q`. -/
def takeRight (m : Links) (p q : ℕ) : Links := (m.setSon true q (m.son true p)).setDad (m.son true p) q

/-- The left tree of `p` goes below `q`. -/
def takeLeft (m : Links) (p q : ℕ) : Links := (m.setSon false q (m.son false p)).setDad (m.son false p) q

/-- `DeleteNode`. -/
def deleteNode (m : Links) (p : ℕ) : Option Links :=
  if m.dad p = nilNode then some m
  else if m.son true p = nilNode then some (unlinkNode m p (m.son false p))
  else if m.son false p = nilNode then some (unlinkNode m p (m.son true p))
  else if m.son true (m.son false p) ≠ nilNode then
    (maxLoop m (strbufSize + 1) (m.son true (m.son false p))).map fun q =>
      unlinkNode (takeRight (takeLeft (spliceMax m q) p q) p q) p q
  else some (unlinkNode (takeRight m p (m.son false p)) p (m.son false p))

/-! ### The order of positions -/

/-- The first `n` bytes at two positions are equal. -/
def Agree (text : ℕ → UInt8) (r q n : ℕ) : Prop := ∀ j < n, text (r + j) = text (q + j)

/-- The bytes at `a` are before those at `b`. -/
def Before (text : ℕ → UInt8) (a b : ℕ) : Prop :=
  ∃ i < laheadSize, Agree text a b i ∧ (text (a + i)).toNat < (text (b + i)).toNat

variable {text : ℕ → UInt8} {a b c r p q n : ℕ}

theorem Agree.symm (h : Agree text a b n) : Agree text b a n := fun j hj => (h j hj).symm

theorem Agree.mono {k : ℕ} (h : Agree text a b n) (hk : k ≤ n) : Agree text a b k := fun j hj => h j (hj.trans_le hk)

theorem Before.irrefl (text : ℕ → UInt8) (a : ℕ) : ¬ Before text a a := fun ⟨_, _, _, h⟩ => lt_irrefl _ h

theorem Before.trans (hab : Before text a b) (hbc : Before text b c) : Before text a c := by
  obtain ⟨i, hi, heq, hlt⟩ := hab
  obtain ⟨j, hj, heq', hlt'⟩ := hbc
  obtain h | rfl | h := lt_trichotomy i j
  · exact ⟨i, hi, fun k hk => (heq k hk).trans (heq' k (hk.trans h)), by rw [← heq' i h]; exact hlt⟩
  · exact ⟨i, hi, fun k hk => (heq k hk).trans (heq' k hk), hlt.trans hlt'⟩
  · exact ⟨j, hj, fun k hk => (heq k (hk.trans h)).trans (heq' k hk), by rw [heq j h]; exact hlt'⟩

theorem Before.of_agree_left (hab : Before text a b) (h : Agree text a c laheadSize) : Before text c b := by
  obtain ⟨i, hi, heq, hlt⟩ := hab
  exact ⟨i, hi, fun k hk => (h k (hk.trans hi)).symm.trans (heq k hk), by rw [← h i hi]; exact hlt⟩

theorem Before.of_agree_right (hab : Before text a b) (h : Agree text b c laheadSize) : Before text a c := by
  obtain ⟨i, hi, heq, hlt⟩ := hab
  exact ⟨i, hi, fun k hk => (heq k hk).trans (h k (hk.trans hi)), by rw [← h i hi]; exact hlt⟩

/-- What is beyond `b` does not agree longer. -/
theorem Agree.between (hab : Before text a b) (hbc : Before text b c) (h : Agree text a c n) : Agree text a b n := by
  obtain ⟨i, hi, heq, hlt⟩ := hab
  obtain ⟨j, hj, heq', hlt'⟩ := hbc
  have hni : n ≤ i := by
    by_contra hin
    obtain hji | hij := Nat.lt_or_ge j i
    · rw [← heq j hji, h j (by omega)] at hlt'
      exact lt_irrefl _ hlt'
    · obtain rfl | hij := hij.eq_or_lt
      · rw [h i (by omega)] at hlt
        exact lt_asymm hlt hlt'
      · rw [h i (by omega), ← heq' i hij] at hlt
        exact lt_irrefl _ hlt
  exact heq.mono hni

/-- The same from the other side. -/
theorem Agree.between' (hba : Before text b a) (hcb : Before text c b) (h : Agree text a c n) : Agree text a b n := by
  obtain ⟨i, hi, heq, hlt⟩ := hba
  obtain ⟨j, hj, heq', hlt'⟩ := hcb
  have hni : n ≤ i := by
    by_contra hin
    obtain hji | hij := Nat.lt_or_ge j i
    · rw [heq j hji, h j (by omega)] at hlt'
      exact lt_irrefl _ hlt'
    · obtain rfl | hij := hij.eq_or_lt
      · rw [h i (by omega)] at hlt
        exact lt_asymm hlt hlt'
      · rw [h i (by omega), heq' i hij] at hlt
        exact lt_irrefl _ hlt
  exact heq.symm.mono hni

/-- What the comparison finds. -/
theorem compareLoop_spec (text : ℕ → UInt8) (r p : ℕ) (k i : ℕ) (h : Agree text r p i) :
    Agree text r p (compareLoop text r p k i).1 ∧ (compareLoop text r p k i).1 ≤ i + k ∧
      ((compareLoop text r p k i).1 = i + k ∨
        ((compareLoop text r p k i).1 < i + k ∧
          text (r + (compareLoop text r p k i).1) ≠ text (p + (compareLoop text r p k i).1) ∧
          (compareLoop text r p k i).2 = (text (r + (compareLoop text r p k i).1)).toNat -
            (text (p + (compareLoop text r p k i).1)).toNat)) := by
  induction k generalizing i with
  | zero => exact ⟨h, le_rfl, .inl rfl⟩
  | succ k ih =>
      unfold compareLoop
      split_ifs with hne
      · exact ⟨h, by omega, .inr ⟨by dsimp only; omega, hne, rfl⟩⟩
      · have hnext : Agree text r p (i + 1) := fun j hj => by
          obtain hj | rfl := Nat.lt_succ_iff_lt_or_eq.mp hj
          · exact h j hj
          · exact not_not.mp hne
        have hsum : i + (k + 1) = i + 1 + k := by omega
        rw [hsum]
        exact ih (i + 1) hnext

/-- A node that is compared with: how long it agrees, and on which side `r` belongs. -/
theorem compare_node (hfirst : text p = text r) :
    ∃ i cmp, compareLoop text r p (laheadSize - 1) 1 = (i, cmp) ∧ i ≤ laheadSize ∧ Agree text r p i ∧
      (∀ n ≤ laheadSize, Agree text r p n → n ≤ i) ∧
      (i = laheadSize ∨ (i < laheadSize ∧ (0 ≤ cmp ∧ Before text p r ∨ ¬ 0 ≤ cmp ∧ Before text r p))) := by
  have hone : Agree text r p 1 := fun j hj => by
    obtain rfl : j = 0 := by omega
    exact hfirst.symm
  obtain ⟨hagree, hle, hcases⟩ := compareLoop_spec text r p (laheadSize - 1) 1 hone
  have hsize : 1 + (laheadSize - 1) = laheadSize := rfl
  rw [hsize] at hle hcases
  generalize compareLoop text r p (laheadSize - 1) 1 = found at hagree hle hcases ⊢
  refine ⟨found.1, found.2, rfl, hle, hagree, fun n hn hag => ?_, ?_⟩
  · obtain heq | ⟨-, hne, -⟩ := hcases
    · exact hn.trans heq.ge
    · by_contra hlt
      exact hne (hag _ (not_le.mp hlt))
  · obtain heq | ⟨hlt, hne, hcmp⟩ := hcases
    · exact .inl heq
    · refine .inr ⟨hlt, ?_⟩
      have hne' : (text (r + found.1)).toNat ≠ (text (p + found.1)).toNat := fun h => hne (UInt8.toNat_inj.mp h)
      obtain hless | hmore := Nat.lt_or_gt_of_ne hne'
      · exact .inr ⟨by omega, _, hlt, hagree, hless⟩
      · exact .inl ⟨by omega, _, hlt, hagree.symm, hmore⟩

/-! ### Insertion -/

/-- The positions of a tree, in order, before and after `r` was inserted: it is a new one, or takes the place of one
with the same bytes. -/
inductive Inserted (text : ℕ → UInt8) (r : ℕ) : List ℕ → List ℕ → Prop
  | new {A B : List ℕ} (hA : ∀ a ∈ A, Before text a r) (hB : ∀ b ∈ B, Before text r b) :
      Inserted text r (A ++ B) (A ++ r :: B)
  | same {A B : List ℕ} {k : ℕ} (hk : Agree text r k laheadSize) : Inserted text r (A ++ k :: B) (A ++ r :: B)

/-- The match that was found among positions of `L`, starting with `m`. -/
structure Matched (m m' : Tables) (r : ℕ) (L : List ℕ) : Prop where
  le : m.matchLength ≤ m'.matchLength
  longest : ∀ q ∈ L, ∀ n ≤ laheadSize, Agree m.text r q n → n ≤ threshold ∨ n ≤ m'.matchLength
  found : (m'.matchLength = m.matchLength ∧ m'.matchPosition = m.matchPosition) ∨
    ∃ q ∈ L, threshold < m'.matchLength ∧ m'.matchLength ≤ laheadSize ∧ Agree m.text r q m'.matchLength ∧
      m'.matchPosition = backward r q

theorem noteMatch_links (m : Tables) (r p i : ℕ) :
    (noteMatch m r p i).toLinks = m.toLinks ∧ (noteMatch m r p i).text = m.text := by
  unfold noteMatch
  dsimp only
  split_ifs <;> exact ⟨rfl, rfl⟩

/-- Noting a match with one position. -/
theorem noteMatch_matched {m : Tables} {r p i : ℕ} (hi : i ≤ laheadSize) (hagree : Agree m.text r p i)
    (hmax : ∀ n ≤ laheadSize, Agree m.text r p n → n ≤ i) : Matched m (noteMatch m r p i) r [p] := by
  have hlongest : ∀ l, i ≤ threshold ∨ i ≤ l → ∀ q ∈ [p], ∀ n ≤ laheadSize, Agree m.text r q n →
      n ≤ threshold ∨ n ≤ l := by
    intro l hl q hq n hn hag
    rw [List.mem_singleton.mp hq] at hag
    have := hmax n hn hag
    omega
  unfold noteMatch
  by_cases hlong : threshold < i
  · rw [if_pos hlong]
    by_cases hmore : m.matchLength < i
    · simp only [if_pos hmore, lt_irrefl, if_false, if_true]
      exact ⟨hmore.le, hlongest i (.inr le_rfl), .inr ⟨p, List.mem_singleton_self p, hlong, hi, hagree, rfl⟩⟩
    · simp only [if_neg hmore]
      split_ifs with heq hnear
      · exact ⟨le_rfl, hlongest _ (.inr heq.le),
          .inr ⟨p, List.mem_singleton_self p, heq ▸ hlong, heq ▸ hi, heq ▸ hagree, rfl⟩⟩
      · exact ⟨le_rfl, hlongest _ (.inr heq.le), .inl ⟨rfl, rfl⟩⟩
      · exact ⟨le_rfl, hlongest _ (.inr (not_lt.mp hmore)), .inl ⟨rfl, rfl⟩⟩
  · rw [if_neg hlong]
    exact ⟨le_rfl, hlongest _ (.inl (not_lt.mp hlong)), .inl ⟨rfl, rfl⟩⟩

/-- A match among the positions on one side of `k` is one among all, if the others are no nearer than `k`. -/
theorem Matched.join {m m' m'' : Tables} {r k : ℕ} {L L' : List ℕ} (htext : m'.text = m.text)
    (hk : Matched m m' r [k]) (hL : Matched m' m'' r L) (hkL : k ∈ L') (hsub : ∀ q ∈ L, q ∈ L')
    (hfar : ∀ q ∈ L', q ∈ L ∨ q = k ∨ ∀ n ≤ laheadSize, Agree m.text r q n → Agree m.text r k n) :
    Matched m m'' r L' where
  le := hk.le.trans hL.le
  longest := by
    intro q hq n hn hag
    have hnear : Agree m.text r k n → n ≤ threshold ∨ n ≤ m''.matchLength := fun hagk => by
      have := hk.longest k (List.mem_singleton_self k) n hn hagk
      have := hL.le
      omega
    obtain hqL | rfl | hfar := hfar q hq
    · exact hL.longest q hqL n hn (htext ▸ hag)
    · exact hnear hag
    · exact hnear (hfar n hn hag)
  found := by
    obtain ⟨hl, hp⟩ | ⟨q, hq, hlong, hle, hag, hpos⟩ := hL.found
    · obtain ⟨hl', hp'⟩ | ⟨q, hq, hlong, hle, hag, hpos⟩ := hk.found
      · exact .inl ⟨hl.trans hl', hp.trans hp'⟩
      · rw [List.mem_singleton.mp hq] at hag hpos
        exact .inr ⟨k, hkL, hl ▸ hlong, hl ▸ hle, hl ▸ hag, hp.trans hpos⟩
    · exact .inr ⟨q, hsub q hq, hlong, hle, htext ▸ hag, hpos⟩

/-- In a tree on the left of `k` and what is behind it. -/
theorem Inserted.append {L L' R : List ℕ} (h : Inserted text r L L') (hR : ∀ b ∈ R, Before text r b) :
    Inserted text r (L ++ R) (L' ++ R) := by
  cases h with
  | @new A B hA hB =>
      rw [List.append_assoc, List.append_assoc, List.cons_append]
      refine .new hA fun b hb => ?_
      obtain hb | hb := List.mem_append.mp hb
      · exact hB b hb
      · exact hR b hb
  | @same A B k hk =>
      rw [List.append_assoc, List.append_assoc, List.cons_append, List.cons_append]
      exact .same hk

/-- In a tree on the right of `k` and what is before it. -/
theorem Inserted.prepend {L L' R : List ℕ} (h : Inserted text r L L') (hR : ∀ a ∈ R, Before text a r) :
    Inserted text r (R ++ L) (R ++ L') := by
  cases h with
  | @new A B hA hB =>
      rw [← List.append_assoc, ← List.append_assoc]
      refine .new (fun a ha => ?_) hB
      obtain ha | ha := List.mem_append.mp ha
      · exact hR a ha
      · exact hA a ha
  | @same A B k hk =>
      rw [← List.append_assoc, ← List.append_assoc]
      exact .same hk

/-- `r` takes the place of the root. -/
theorem treeAt_replaceNode {m : Links} {par k : ℕ} {l rr : BinaryTree ℕ} {side : Bool}
    (h : Below nilNode m par side (.node k l rr)) (hr : r < nilNode) (hrt : r ∉ keys (.node k l rr)) (hparr : par ≠ r) :
    TreeAt nilNode (replaceNode m r k) par ((replaceNode m r k).son side par) (.node r l rr) ∧
      Change nilNode m (replaceNode m r k) (fun q => q ∈ keys (.node k l rr) ∨ q = r) side par ∧
      (replaceNode m r k).dad k = nilNode := by
  obtain ⟨hl', hr', hkl, hkr, hlr, hnl, hnr⟩ := h.rep.roots h.nodup
  have hother := h.root_other
  have hpar := h.notMem
  obtain ⟨hson, hk, hdad, hl, hrr⟩ := h.rep
  have hltl := hl.lt
  have hltr := hrr.lt
  simp only [keys_node, List.mem_append, List.mem_cons, not_or] at hrt hpar
  obtain ⟨hrl, hrk, hrrr⟩ := hrt
  obtain ⟨hparl, hpark, hparrr⟩ := hpar
  generalize hleft : m.son false k = a at hl' hl
  generalize hright : m.son true k = b at hr' hrr
  have hak : a ≠ k := by
    rintro rfl
    exact hl'.elim hkl hk.ne
  have hbk : b ≠ k := by
    rintro rfl
    exact hr'.elim hkr hk.ne
  have har : a ≠ r := by
    rintro rfl
    exact hl'.elim hrl hr.ne
  have hbr : b ≠ r := by
    rintro rfl
    exact hr'.elim hrrr hr.ne
  have heq : replaceNode m r k =
      (((((((m.setDad r par).setSon false r a).setSon true r b).setDad a r).setDad b r).setSon side par r).setDad k
        nilNode) := by
    cases side with
    | false => simp [replaceNode, hdad, hleft, hright, Ne.symm hrk, Ne.symm hak, Ne.symm hbk, hparr, hother rfl]
    | true => simp [replaceNode, hdad, hleft, hright, Ne.symm hrk, Ne.symm hak, Ne.symm hbk, hparr, hson]
  rw [heq]
  refine ⟨?_, ⟨fun q hq hnull => ?_, fun d q hq hslot => ?_⟩, by simp⟩
  · have hnew : ((((((((m.setDad r par).setSon false r a).setSon true r b).setDad a r).setDad b r).setSon side par
        r).setDad k nilNode).son side par) = r := by simp
    rw [hnew]
    refine ⟨rfl, hr, ?_, ?_, ?_⟩
    · simp [hrk, Ne.symm har, Ne.symm hbr]
    · have hfalse : ((((((((m.setDad r par).setSon false r a).setSon true r b).setDad a r).setDad b r).setSon side par
          r).setDad k nilNode).son false r) = a := by simp [Ne.symm hparr]
      rw [hfalse]
      refine hl.reroot hnl (fun _ => ?_) (fun q hq hne => ?_) fun d q hq => ?_
      · simp [hak]
      · have h1 : q ≠ k := fun h => hkl (h ▸ hq)
        have h2 : q ≠ b := fun h => hr'.elim (hlr q hq ∘ (h ▸ ·)) fun hb => (hltl q hq).ne (h.trans hb)
        have h3 : q ≠ r := fun h => hrl (h ▸ hq)
        simp [h1, h2, h3, hne]
      · have h1 : q ≠ r := fun h => hrl (h ▸ hq)
        have h2 : q ≠ par := fun h => hparl (h ▸ hq)
        simp [h1, h2]
    · have htrue : ((((((((m.setDad r par).setSon false r a).setSon true r b).setDad a r).setDad b r).setSon side par
          r).setDad k nilNode).son true r) = b := by simp [Ne.symm hparr]
      rw [htrue]
      refine hrr.reroot hnr (fun _ => ?_) (fun q hq hne => ?_) fun d q hq => ?_
      · simp [hbk]
      · have h1 : q ≠ k := fun h => hkr (h ▸ hq)
        have h2 : q ≠ a := fun h => hl'.elim (fun ha => hlr a ha (h ▸ hq)) fun ha => (hltr q hq).ne (h.trans ha)
        have h3 : q ≠ r := fun h => hrrr (h ▸ hq)
        simp [h1, h2, h3, hne]
      · have h1 : q ≠ r := fun h => hrrr (h ▸ hq)
        have h2 : q ≠ par := fun h => hparrr (h ▸ hq)
        simp [h1, h2]
  · simp only [keys_node, List.mem_append, List.mem_cons, not_or] at hq
    obtain ⟨⟨hql, hqk, hqr⟩, hqr'⟩ := hq
    have h1 : q ≠ a := fun h => hl'.elim (hql ∘ (h ▸ ·)) fun ha => hnull (h.trans ha)
    have h2 : q ≠ b := fun h => hr'.elim (hqr ∘ (h ▸ ·)) fun hb => hnull (h.trans hb)
    simp [hqk, hqr', h1, h2]
  · have hqr : q ≠ r := fun h => hq (.inr h)
    have hne : ¬ (d = side ∧ q = par) := fun hdq => hslot.elim (fun h => h hdq.1) fun h => h hdq.2
    simp [hqr, hne]

/-- `r` becomes a leaf. -/
theorem treeAt_link {m : Links} {par : ℕ} (side : Bool) (hr : r < nilNode) (hparr : par ≠ r)
    (hsons : ∀ d, m.son d r = nilNode) :
    TreeAt nilNode ((m.setSon side par r).setDad r par) par (((m.setSon side par r).setDad r par).son side par)
        (.node r .nil .nil) ∧
      Change nilNode m ((m.setSon side par r).setDad r par) (fun q => q ∈ keys (.nil : BinaryTree ℕ) ∨ q = r) side
        par := by
  refine ⟨?_, fun q hq _ => ?_, fun d q hq hslot => ?_⟩
  · have hnew : ((m.setSon side par r).setDad r par).son side par = r := by simp
    rw [hnew]
    refine ⟨rfl, hr, by simp, ?_, ?_⟩
    · simpa [TreeAt, Ne.symm hparr] using hsons false
    · simpa [TreeAt, Ne.symm hparr] using hsons true
  · have hqr : q ≠ r := fun h => hq (.inr h)
    simp [hqr]
  · have hne : ¬ (d = side ∧ q = par) := fun hdq => hslot.elim (fun h => h hdq.1) fun h => h hdq.2
    simp [hne]

/-- `r` can be inserted into the tree at a son of `p`. -/
structure Insertable (m : Tables) (r p : ℕ) (side : Bool) (t : BinaryTree ℕ) : Prop
    extends Below nilNode m.toLinks p side t where
  ordered : (keys t).Pairwise (Before m.text)
  new : r ∉ keys t
  ne : p ≠ r
  sons : ∀ d, m.son d r = nilNode
  first : ∀ q ∈ keys t, m.text q = m.text r

/-- `r` was inserted into that tree. -/
structure InsertedBelow (m m' : Tables) (r p : ℕ) (side : Bool) (t t' : BinaryTree ℕ) : Prop where
  text : m'.text = m.text
  rep : TreeAt nilNode m'.toLinks p (m'.son side p) t'
  inserted : Inserted m.text r (keys t) (keys t')
  change : Change nilNode m.toLinks m'.toLinks (fun q => q ∈ keys t ∨ q = r) side p
  gone : ∀ q ∈ keys t, q ∉ keys t' → m'.dad q = nilNode
  matched : Matched m m' r (keys t)

section Loop

variable {m m₁ m' : Tables} {k : ℕ} {side : Bool} {l rr t' : BinaryTree ℕ}

theorem Insertable.left (h : Insertable m r p side (.node k l rr)) (hlinks : m₁.toLinks = m.toLinks)
    (htext : m₁.text = m.text) : Insertable m₁ r k false l := by
  have hmem : ∀ q ∈ keys l, q ∈ keys (.node k l rr) := fun q hq => List.mem_append_left _ hq
  have hbelow := h.toBelow.left
  refine ⟨by rwa [hlinks], ?_, fun hr => h.new (hmem r hr), ?_, by rw [hlinks]; exact h.sons, fun q hq => ?_⟩
  · rw [htext]
    exact (List.pairwise_append.mp h.ordered).1
  · rintro rfl
    exact h.new (List.mem_append_right _ List.mem_cons_self)
  · rw [htext]
    exact h.first q (hmem q hq)

theorem Insertable.right (h : Insertable m r p side (.node k l rr)) (hlinks : m₁.toLinks = m.toLinks)
    (htext : m₁.text = m.text) : Insertable m₁ r k true rr := by
  have hmem : ∀ q ∈ keys rr, q ∈ keys (.node k l rr) := fun q hq =>
    List.mem_append_right _ (List.mem_cons_of_mem _ hq)
  have hbelow := h.toBelow.right
  refine ⟨by rwa [hlinks], ?_, fun hr => h.new (hmem r hr), ?_, by rw [hlinks]; exact h.sons, fun q hq => ?_⟩
  · rw [htext]
    exact (List.pairwise_cons.mp (List.pairwise_append.mp h.ordered).2.1).2
  · rintro rfl
    exact h.new (List.mem_append_right _ List.mem_cons_self)
  · rw [htext]
    exact h.first q (hmem q hq)

/-- `r` comes into the left tree of `k`. -/
theorem InsertedBelow.left (h : Insertable m r p side (.node k l rr)) (hlinks : m₁.toLinks = m.toLinks)
    (htext : m₁.text = m.text) (hmatch : Matched m m₁ r [k]) (hbefore : Before m.text r k)
    (h' : InsertedBelow m₁ m' r k false l t') : InsertedBelow m m' r p side (.node k l rr) (.node k t' rr) := by
  obtain ⟨htext', hrep, hins, hchange, hgone, hmatched⟩ := h'
  rw [hlinks] at hchange
  rw [htext] at hins
  obtain ⟨-, -, hkl, -, hlr, -, -⟩ := h.rep.roots h.nodup
  have hmemk : k ∈ keys (.node k l rr) := List.mem_append_right _ List.mem_cons_self
  have hmeml : ∀ q ∈ keys l, q ∈ keys (.node k l rr) := fun q hq => List.mem_append_left _ hq
  have hkrr := (List.pairwise_cons.mp (List.pairwise_append.mp h.ordered).2.1).1
  refine ⟨htext'.trans htext, ?_, ?_, ?_, fun q hq hq' => ?_, ?_⟩
  · refine h.toBelow.replace_left hchange hrep (not_or.mpr ⟨hkl, fun hr => h.new (hr ▸ hmemk)⟩)
      (not_or.mpr ⟨fun hp => h.notMem (hmeml p hp), h.ne⟩) fun q hq => not_or.mpr ⟨fun hq' => hlr q hq' hq, ?_⟩
    rintro rfl
    exact h.new (List.mem_append_right _ (List.mem_cons_of_mem _ hq))
  · refine hins.append fun b hb => ?_
    obtain rfl | hb := List.mem_cons.mp hb
    · exact hbefore
    · exact hbefore.trans (hkrr b hb)
  · exact hchange.of_below (fun q hq => hq.imp (hmeml q) id) (.inl hmemk)
  · simp only [keys_node, List.mem_append, List.mem_cons, not_or] at hq hq'
    obtain hq | hq | hq := hq
    · exact hgone q hq hq'.1
    · exact absurd hq hq'.2.1
    · exact absurd hq hq'.2.2
  · refine hmatch.join htext hmatched hmemk hmeml fun q hq => ?_
    obtain hq | hq := List.mem_append.mp hq
    · exact .inl hq
    · obtain hq | hq := List.mem_cons.mp hq
      · exact .inr (.inl hq)
      · exact .inr (.inr fun n _ hag => hag.between hbefore (hkrr q hq))

/-- `r` comes into the right tree of `k`. -/
theorem InsertedBelow.right (h : Insertable m r p side (.node k l rr)) (hlinks : m₁.toLinks = m.toLinks)
    (htext : m₁.text = m.text) (hmatch : Matched m m₁ r [k]) (hbefore : Before m.text k r)
    (h' : InsertedBelow m₁ m' r k true rr t') : InsertedBelow m m' r p side (.node k l rr) (.node k l t') := by
  obtain ⟨htext', hrep, hins, hchange, hgone, hmatched⟩ := h'
  rw [hlinks] at hchange
  rw [htext] at hins
  obtain ⟨-, -, -, hkr, hlr, -, -⟩ := h.rep.roots h.nodup
  have hmemk : k ∈ keys (.node k l rr) := List.mem_append_right _ List.mem_cons_self
  have hmemr : ∀ q ∈ keys rr, q ∈ keys (.node k l rr) := fun q hq =>
    List.mem_append_right _ (List.mem_cons_of_mem _ hq)
  have hlk : ∀ a ∈ keys l, Before m.text a k := fun a ha =>
    (List.pairwise_append.mp h.ordered).2.2 a ha k List.mem_cons_self
  refine ⟨htext'.trans htext, ?_, ?_, ?_, fun q hq hq' => ?_, ?_⟩
  · refine h.toBelow.replace_right hchange hrep (not_or.mpr ⟨hkr, fun hr => h.new (hr ▸ hmemk)⟩)
      (not_or.mpr ⟨fun hp => h.notMem (hmemr p hp), h.ne⟩) fun q hq => not_or.mpr ⟨hlr q hq, ?_⟩
    rintro rfl
    exact h.new (List.mem_append_left _ hq)
  · have hpre := hins.prepend (R := keys l ++ [k]) fun a ha => by
      obtain ha | ha := List.mem_append.mp ha
      · exact (hlk a ha).trans hbefore
      · rw [List.mem_singleton.mp ha]
        exact hbefore
    rwa [List.append_assoc, List.append_assoc] at hpre
  · exact hchange.of_below (fun q hq => hq.imp (hmemr q) id) (.inl hmemk)
  · simp only [keys_node, List.mem_append, List.mem_cons, not_or] at hq hq'
    obtain hq | hq | hq := hq
    · exact absurd hq hq'.1
    · exact absurd hq hq'.2.1
    · exact hgone q hq hq'.2.2
  · refine hmatch.join htext hmatched hmemk hmemr fun q hq => ?_
    obtain hq | hq := List.mem_append.mp hq
    · exact .inr (.inr fun n _ hag => hag.between' hbefore (hlk q hq))
    · obtain hq | hq := List.mem_cons.mp hq
      · exact .inr (.inl hq)
      · exact .inl hq

/-- All bytes at `k` are those at `r`, which takes its place. -/
theorem InsertedBelow.same (h : Insertable m r p side (.node k l rr)) (hr : r < nilNode) (htext : m₁.text = m.text)
    (hagree : Agree m.text r k laheadSize) (hmatch : Matched m m₁ r [k]) :
    InsertedBelow m { m₁ with toLinks := replaceNode m.toLinks r k } r p side (.node k l rr) (.node r l rr) := by
  have hmemk : k ∈ keys (.node k l rr) := List.mem_append_right _ List.mem_cons_self
  obtain ⟨hnew, hchange, hnil⟩ := treeAt_replaceNode h.toBelow hr h.new h.ne
  refine ⟨htext, hnew, .same hagree, hchange, fun q hq hq' => ?_, hmatch.le, fun q _ n hn _ => ?_, ?_⟩
  · obtain rfl : q = k := by
      simp only [keys_node, List.mem_append, List.mem_cons, not_or] at hq hq'
      tauto
    exact hnil
  · have hlong := hmatch.longest k (List.mem_singleton_self k) laheadSize le_rfl hagree
    exact .inr (hn.trans (hlong.resolve_left (by decide)))
  · obtain h | ⟨q, hq, hfound⟩ := hmatch.found
    · exact .inl h
    · rw [List.mem_singleton.mp hq] at hfound
      exact .inr ⟨k, hmemk, hfound⟩

/-- There is no tree at that son: `r` becomes a leaf. -/
theorem InsertedBelow.leaf (h : Insertable m r p side .nil) (hr : r < nilNode) :
    InsertedBelow m { m with toLinks := (m.setSon side p r).setDad r p } r p side .nil (.node r .nil .nil) := by
  obtain ⟨hnew, hchange⟩ := treeAt_link side hr h.ne h.sons
  exact ⟨rfl, hnew, .new (A := []) (B := []) (fun _ h => nomatch h) (fun _ h => nomatch h), hchange,
    fun q hq => (nomatch hq), le_rfl, fun q hq => (nomatch hq), .inl ⟨rfl, rfl⟩⟩

end Loop

/-- What the loop of `InsertNode` does to the tree at a son of `p`: by induction on the tree, with a match that is not
complete yet. -/
theorem insertLoop_spec (hr : r < nilNode) (t : BinaryTree ℕ) : ∀ (fuel : ℕ) (m : Tables) (p : ℕ) (cmp : ℤ),
    t.numNodes < fuel → Insertable m r p (decide (0 ≤ cmp)) t → m.matchLength < laheadSize →
    ∃ m' t', insertLoop fuel m r p cmp = some m' ∧ InsertedBelow m m' r p (decide (0 ≤ cmp)) t t' := by
  induction t with
  | nil =>
      intro fuel m p cmp hfuel h _
      obtain ⟨fuel, rfl⟩ : ∃ f, fuel = f + 1 := ⟨fuel - 1, by omega⟩
      have hnull : m.son (decide (0 ≤ cmp)) p = nilNode := h.rep
      exact ⟨_, _, by rw [insertLoop, if_neg (not_not.mpr hnull)], .leaf h hr⟩
  | node k l rr ihl ihr =>
      intro fuel m p cmp hfuel h hshort
      obtain ⟨fuel, rfl⟩ : ∃ f, fuel = f + 1 := ⟨fuel - 1, by omega⟩
      rw [numNodes] at hfuel
      have hmemk : k ∈ keys (.node k l rr) := List.mem_append_right _ List.mem_cons_self
      obtain ⟨i, cmp', hcmp, hi, hagree, hmax, hcases⟩ := compare_node (h.first k hmemk)
      have hmatch := noteMatch_matched hi hagree hmax
      obtain ⟨hlinks, htext⟩ := noteMatch_links m r k i
      have hloop : insertLoop (fuel + 1) m r p cmp =
          if threshold < i ∧ m.matchLength < i ∧ laheadSize ≤ i then
            some { noteMatch m r k i with toLinks := replaceNode m.toLinks r k }
          else insertLoop fuel (noteMatch m r k i) r k cmp' := by
        obtain ⟨hson, hk, -⟩ := h.rep
        rw [insertLoop, if_pos (by rw [hson]; exact hk.ne)]
        dsimp only
        rw [hson, hcmp]
      rw [hloop]
      obtain rfl | ⟨hlt, hside⟩ := hcases
      · rw [if_pos ⟨by decide, hshort, le_rfl⟩]
        exact ⟨_, _, rfl, .same h hr htext hagree hmatch⟩
      · rw [if_neg (fun hlong => by omega)]
        have hshort' : (noteMatch m r k i).matchLength < laheadSize := by
          obtain ⟨hl, -⟩ | ⟨q, hq, -, hle, hag, -⟩ := hmatch.found
          · exact hl ▸ hshort
          · rw [List.mem_singleton.mp hq] at hag
            exact (hmax _ hle hag).trans_lt hlt
        obtain ⟨hcmp', hbefore⟩ | ⟨hcmp', hbefore⟩ := hside
        · have hih := ihr fuel (noteMatch m r k i) k cmp' (by omega)
          rw [decide_eq_true hcmp'] at hih
          obtain ⟨m', t', hrun, h'⟩ := hih (h.right hlinks htext) hshort'
          exact ⟨m', _, hrun, .right h hlinks htext hmatch hbefore h'⟩
        · have hih := ihl fuel (noteMatch m r k i) k cmp' (by omega)
          rw [decide_eq_false hcmp'] at hih
          obtain ⟨m', t', hrun, h'⟩ := hih (h.left hlinks htext) hshort'
          exact ⟨m', _, hrun, .left h hlinks htext hmatch hbefore h'⟩

/-- The order after an insertion. -/
theorem Inserted.ordered {L L' : List ℕ} (h : Inserted text r L L') (hL : L.Pairwise (Before text)) :
    L'.Pairwise (Before text) := by
  cases h with
  | @new A B hA hB =>
      rw [List.pairwise_append, List.pairwise_cons] at *
      refine ⟨hL.1, ⟨hB, hL.2.1⟩, fun a ha b hb => ?_⟩
      obtain rfl | hb := List.mem_cons.mp hb
      · exact hA a ha
      · exact hL.2.2 a ha b hb
  | @same A B k hk =>
      rw [List.pairwise_append, List.pairwise_cons] at *
      refine ⟨hL.1, ⟨fun b hb => (hL.2.1.1 b hb).of_agree_left hk.symm, hL.2.1.2⟩, fun a ha b hb => ?_⟩
      obtain rfl | hb := List.mem_cons.mp hb
      · exact (hL.2.2 a ha k List.mem_cons_self).of_agree_right hk.symm
      · exact hL.2.2 a ha b (List.mem_cons_of_mem _ hb)

theorem Before.not_agree (h : Before text a b) : ¬ Agree text a b laheadSize := by
  obtain ⟨i, hi, -, hlt⟩ := h
  intro hag
  rw [hag i hi] at hlt
  exact lt_irrefl _ hlt

/-- The positions after an insertion. -/
theorem Inserted.mem_iff {L L' : List ℕ} (h : Inserted text r L L') (hL : L.Pairwise (Before text)) (q : ℕ) :
    q ∈ L' ↔ q = r ∨ (q ∈ L ∧ ¬ Agree text r q laheadSize) := by
  cases h with
  | @new A B hA hB =>
      have hout : ∀ q, q ∈ A ∨ q ∈ B → ¬ Agree text r q laheadSize := fun q hq hag =>
        hq.elim (fun hq => (hA q hq).not_agree hag.symm) fun hq => (hB q hq).not_agree hag
      have := hout q
      simp only [List.mem_append, List.mem_cons]
      tauto
  | @same A B k hk =>
      rw [List.pairwise_append, List.pairwise_cons] at hL
      have hout : ∀ q, q ∈ A ∨ q ∈ B → ¬ Agree text r q laheadSize := fun q hq hag =>
        hq.elim (fun hq => (hL.2.2 q hq k List.mem_cons_self).not_agree fun j hj => (hag j hj).symm.trans (hk j hj))
          fun hq => (hL.2.1.1 q hq).not_agree fun j hj => (hk j hj).symm.trans (hag j hj)
      have := hout q
      have hkout : q = k → Agree text r q laheadSize := fun hq => hq ▸ hk
      simp only [List.mem_append, List.mem_cons]
      tauto

/-! ### Deletion -/

theorem maxLoop_of_isMax {m : Links} {x q n : ℕ} (h : IsMax nilNode m x q n) : ∀ fuel, n < fuel →
    maxLoop m fuel x = some q := by
  induction h with
  | last h =>
      intro fuel hfuel
      obtain ⟨fuel, rfl⟩ : ∃ f, fuel = f + 1 := ⟨fuel - 1, by omega⟩
      rw [maxLoop, if_neg (not_not.mpr h)]
  | next h _ ih =>
      intro fuel hfuel
      obtain ⟨fuel, rfl⟩ : ∃ f, fuel = f + 1 := ⟨fuel - 1, by omega⟩
      rw [maxLoop, if_pos h]
      exact ih fuel (by omega)

/-- The tree of `q` takes the place of `k`. -/
theorem treeAt_unlinkNode {m : Links} {par k q fa : ℕ} {t : BinaryTree ℕ} {side : Bool} (h : TreeAt nilNode m fa q t)
    (hnodup : (keys t).Nodup) (hk : k < nilNode) (hdad : m.dad k = par) (hson : m.son side par = k)
    (hother : side = false → m.son true par ≠ k) (hkt : k ∉ keys t) (hpar : par ∉ keys t) :
    TreeAt nilNode (unlinkNode m k q) par ((unlinkNode m k q).son side par) t ∧
      Change nilNode m (unlinkNode m k q) (fun s => s ∈ keys t ∨ s = k) side par ∧
      (unlinkNode m k q).dad k = nilNode := by
  have hroot : q ∈ keys t ∨ q = nilNode := or_iff_not_imp_right.mpr h.mem
  have hqk : q ≠ k := by
    rintro rfl
    exact hroot.elim hkt hk.ne
  have heq : unlinkNode m k q = ((m.setDad q par).setSon side par q).setDad k nilNode := by
    cases side with
    | false => simp [unlinkNode, hdad, Ne.symm hqk, hother rfl]
    | true => simp [unlinkNode, hdad, Ne.symm hqk, hson]
  rw [heq]
  refine ⟨?_, ⟨fun s hs hnull => ?_, fun d s hs hslot => ?_⟩, by simp⟩
  · have hnew : (((m.setDad q par).setSon side par q).setDad k nilNode).son side par = q := by simp
    rw [hnew]
    refine h.reroot hnodup (fun _ => by simp [hqk]) (fun s hs hne => ?_) fun d s hs => ?_
    · have hsk : s ≠ k := fun h => hkt (h ▸ hs)
      simp [hsk, hne]
    · have hsp : s ≠ par := fun h => hpar (h ▸ hs)
      simp [hsp]
  · obtain ⟨hst, hsk⟩ := not_or.mp hs
    have hsq : s ≠ q := fun h => hroot.elim (hst ∘ (h ▸ ·)) fun hq => hnull (h.trans hq)
    simp [hsk, hsq]
  · have hne : ¬ (d = side ∧ s = par) := fun hds => hslot.elim (fun h => h hds.1) fun h => h hds.2
    simp [hne]

/-- The right tree of `k` is put below `q`, which has none. -/
theorem treeAt_takeRight {m : Links} {k q : ℕ} {l rr : BinaryTree ℕ} (side : Bool) (par : ℕ) (hq : q < nilNode)
    (hl : TreeAt nilNode m q (m.son false q) l) (hrr : TreeAt nilNode m k (m.son true k) rr) (hnr : (keys rr).Nodup)
    (hql : q ∉ keys l) (hqr : q ∉ keys rr) (hlr : ∀ s ∈ keys l, s ∉ keys rr) :
    TreeAt nilNode (takeRight m k q) ((takeRight m k q).dad q) q (.node q l rr) ∧
      Change nilNode m (takeRight m k q) (fun s => s ∈ keys rr ∨ s = q) side par := by
  have hroot : m.son true k ∈ keys rr ∨ m.son true k = nilNode := or_iff_not_imp_right.mpr hrr.mem
  have hlt := hl.lt
  refine ⟨⟨rfl, hq, rfl, ?_, ?_⟩, fun s hs hnull => ?_, fun d s hs _ => ?_⟩
  · have hnew : (takeRight m k q).son false q = m.son false q := by simp [takeRight]
    rw [hnew]
    refine hl.congr (fun s hs => ?_) fun d s hs => ?_
    · have hne : s ≠ m.son true k := fun h => hroot.elim (hlr s hs ∘ (h ▸ ·)) fun hk => (hlt s hs).ne (h.trans hk)
      simp [takeRight, hne]
    · have hne : s ≠ q := fun h => hql (h ▸ hs)
      simp [takeRight, hne]
  · have hnew : (takeRight m k q).son true q = m.son true k := by simp [takeRight]
    rw [hnew]
    refine hrr.reroot hnr (fun _ => by simp [takeRight]) (fun s _ hne => by simp [takeRight, hne]) fun d s hs => ?_
    have hne : s ≠ q := fun h => hqr (h ▸ hs)
    simp [takeRight, hne]
  · obtain ⟨hsr, hsq⟩ := not_or.mp hs
    have hne : s ≠ m.son true k := fun h => hroot.elim (hsr ∘ (h ▸ ·)) fun hk => hnull (h.trans hk)
    simp [takeRight, hne]
  · obtain ⟨-, hsq⟩ := not_or.mp hs
    simp [takeRight, hsq]

/-- The left tree of `k` is put below `q`. -/
theorem treeAt_takeLeft {m : Links} {k q : ℕ} {l : BinaryTree ℕ} (side : Bool) (par : ℕ)
    (hl : TreeAt nilNode m k (m.son false k) l) (hnl : (keys l).Nodup) (hql : q ∉ keys l) :
    TreeAt nilNode (takeLeft m k q) q ((takeLeft m k q).son false q) l ∧
      Change nilNode m (takeLeft m k q) (fun s => s ∈ keys l ∨ s = q) side par := by
  have hroot : m.son false k ∈ keys l ∨ m.son false k = nilNode := or_iff_not_imp_right.mpr hl.mem
  refine ⟨?_, fun s hs hnull => ?_, fun d s hs _ => ?_⟩
  · have hnew : (takeLeft m k q).son false q = m.son false k := by simp [takeLeft]
    rw [hnew]
    refine hl.reroot hnl (fun _ => by simp [takeLeft]) (fun s _ hne => by simp [takeLeft, hne]) fun d s hs => ?_
    have hne : s ≠ q := fun h => hql (h ▸ hs)
    simp [takeLeft, hne]
  · obtain ⟨hsl, hsq⟩ := not_or.mp hs
    have hne : s ≠ m.son false k := fun h => hroot.elim (hsl ∘ (h ▸ ·)) fun hk => hnull (h.trans hk)
    simp [takeLeft, hne]
  · obtain ⟨-, hsq⟩ := not_or.mp hs
    simp [takeLeft, hsq]

/-- The last node of the left tree goes above the two trees of `k`. -/
theorem treeAt_spliceMax {m : Links} {par k a : ℕ} {la ra rr : BinaryTree ℕ} {side : Bool}
    (h : Below nilNode m par side (.node k (.node a la ra) rr)) (hlast : m.son true a ≠ nilNode) :
    ∃ q t', maxLoop m (strbufSize + 1) (m.son true a) = some q ∧
      TreeAt nilNode (takeRight (takeLeft (spliceMax m q) k q) k q)
        ((takeRight (takeLeft (spliceMax m q) k q) k q).dad q) q t' ∧ keys t' = keys (.node a la ra) ++ keys rr ∧
      Change nilNode m (takeRight (takeLeft (spliceMax m q) k q) k q)
        (fun s => s ∈ keys (.node a la ra) ∨ s ∈ keys rr) true k := by
  obtain ⟨-, -, hkl, hkr, hlr, hnl, hnr⟩ := h.rep.roots h.nodup
  have hbelow := h.left
  obtain ⟨-, hk, -, hl, hrr⟩ := h.rep
  obtain ⟨-, -, hala, hara, hlara, -, hnra⟩ := hl.roots hnl
  obtain ⟨ha, halt, hadad, hla, hra⟩ := hl
  have hmema : a ∈ keys (.node a la ra) := List.mem_append_right _ List.mem_cons_self
  have hmemra : ∀ s ∈ keys ra, s ∈ keys (.node a la ra) := fun s hs =>
    List.mem_append_right _ (List.mem_cons_of_mem _ hs)
  obtain ⟨q, ra', n, hmax, hn, hkeys, hrep, hchange⟩ := hbelow.right.splice_max hlast
  have hnodes := hra.numNodes_le hnra
  have hqra : q ∈ keys ra := by
    rw [hkeys]
    exact List.mem_append_right _ (List.mem_singleton_self q)
  have hka : k ≠ a := fun h => hkl (h ▸ hmema)
  have hkra : k ∉ keys ra := fun h => hkl (hmemra k h)
  have hkq : k ≠ q := fun h => hkra (h ▸ hqra)
  have hsublist : (keys (.node a la ra')).Sublist (keys (.node a la ra)) := by
    rw [keys_node, keys_node, hkeys]
    exact (List.Sublist.refl _).append ((List.sublist_append_left _ _).cons_cons a)
  have hsub : ∀ s ∈ keys (.node a la ra'), s ∈ keys (.node a la ra) := fun s hs => hsublist.subset hs
  have hql' : q ∉ keys (.node a la ra') := by
    rw [hkeys, List.nodup_append] at hnra
    rw [keys_node, List.mem_append, List.mem_cons]
    rintro (hq | rfl | hq)
    · exact hlara q hq hqra
    · exact hara hqra
    · exact hnra.2.2 q hq q (List.mem_singleton_self q) rfl
  -- The left tree without its last node, then with that node above it, then with the right tree.
  have hl1 : TreeAt nilNode (spliceMax m q) k ((spliceMax m q).son false k) (.node a la ra') :=
    hbelow.replace_right hchange hrep hara hkra hlara
  have hr1 : TreeAt nilNode (spliceMax m q) k ((spliceMax m q).son true k) rr := by
    rw [hchange.son true k hkra (.inr hka)]
    exact hrr.of_change hchange (fun s hs hs' => hlr s (hmemra s hs') hs) (hlr a hmema)
  obtain ⟨hl2, hchange2⟩ := treeAt_takeLeft true q hl1 (hsublist.nodup hnl) hql'
  have hr2 : TreeAt nilNode (takeLeft (spliceMax m q) k q) k ((takeLeft (spliceMax m q) k q).son true k) rr := by
    rw [hchange2.son true k (not_or.mpr ⟨fun hs => hkl (hsub k hs), hkq⟩) (.inr hkq)]
    exact hr1.of_change hchange2 (fun s hs => not_or.mpr ⟨fun hs' => hlr s (hsub s hs') hs, fun heq =>
      hlr q (hmemra q hqra) (heq ▸ hs)⟩) (hlr q (hmemra q hqra))
  obtain ⟨hl3, hchange3⟩ := treeAt_takeRight true q (hra.lt q hqra) hl2 hr2 hnr hql' (hlr q (hmemra q hqra))
    fun s hs => hlr s (hsub s hs)
  have hqmem : q ∈ keys (.node a la ra) ∨ q ∈ keys rr := .inl (hmemra q hqra)
  refine ⟨q, _, maxLoop_of_isMax hmax _ (by unfold nilNode at hnodes; omega), hl3, by simp [hkeys], ?_⟩
  exact ((hchange.of_below (fun s hs => .inl (hmemra s hs)) (.inl hmema)).trans
    (hchange2.of_below (fun s hs => hs.elim (fun hs => .inl (hsub s hs)) fun hs => hs ▸ hqmem) hqmem)).trans
    (hchange3.of_below (fun s hs => hs.elim .inr fun hs => hs ▸ hqmem) hqmem)

/-- The two trees of `k` are made one before `k` is unlinked. -/
theorem deleteNode_gather {m : Links} {par k : ℕ} {l rr : BinaryTree ℕ} {side : Bool}
    (h : Below nilNode m par side (.node k l rr)) (hpar : par ≠ nilNode) :
    ∃ m' q t', deleteNode m k = some (unlinkNode m' k q) ∧ TreeAt nilNode m' (m'.dad q) q t' ∧
      keys t' = keys l ++ keys rr ∧ Change nilNode m m' (fun s => s ∈ keys l ∨ s ∈ keys rr) true k := by
  obtain ⟨-, -, hkl, hkr, hlr, hnl, hnr⟩ := h.rep.roots h.nodup
  obtain ⟨-, hk, hdad, hl, hrr⟩ := h.rep
  unfold deleteNode
  rw [if_neg (by rw [hdad]; exact hpar)]
  by_cases hright : m.son true k = nilNode
  · obtain rfl := hrr.eq_null_iff.mp hright
    rw [if_pos hright]
    exact ⟨m, m.son false k, l, rfl, hl.of_root, (List.append_nil _).symm, fun _ _ _ => rfl, fun _ _ _ _ => rfl⟩
  rw [if_neg hright]
  by_cases hleft : m.son false k = nilNode
  · obtain rfl := hl.eq_null_iff.mp hleft
    rw [if_pos hleft]
    exact ⟨m, m.son true k, rr, rfl, hrr.of_root, rfl, fun _ _ _ => rfl, fun _ _ _ _ => rfl⟩
  rw [if_neg hleft]
  cases l with
  | nil => exact absurd hl hleft
  | node a la ra =>
      obtain ⟨-, -, hala, -, -, -, -⟩ := hl.roots hnl
      obtain ⟨ha, halt, -, hla, hra⟩ := hl
      have hmema : a ∈ keys (.node a la ra) := List.mem_append_right _ List.mem_cons_self
      rw [ha]
      by_cases hlast : m.son true a = nilNode
      · obtain rfl := hra.eq_null_iff.mp hlast
        rw [if_neg (not_not.mpr hlast)]
        obtain ⟨hnew, hchange⟩ := treeAt_takeRight true k halt hla hrr hnr hala (hlr a hmema) fun s hs =>
          hlr s (List.mem_append_left _ hs)
        refine ⟨_, a, _, rfl, hnew, by simp, hchange.mono fun s hs => ?_⟩
        obtain hs | rfl := hs
        · exact .inr hs
        · exact .inl hmema
      · rw [if_pos hlast]
        obtain ⟨q, t', hmax, hrep, hkeys, hchange⟩ := treeAt_spliceMax h hlast
        exact ⟨_, q, t', by rw [hmax, Option.map_some], hrep, hkeys, hchange⟩

/-- `DeleteNode` of the root of a tree. -/
theorem deleteNode_root {m : Links} {par k : ℕ} {l rr : BinaryTree ℕ} {side : Bool}
    (h : Below nilNode m par side (.node k l rr)) (hnull : par ≠ nilNode) :
    ∃ m' t', deleteNode m k = some m' ∧ TreeAt nilNode m' par (m'.son side par) t' ∧ keys t' = keys l ++ keys rr ∧
      Change nilNode m m' (fun s => s ∈ keys (.node k l rr)) side par ∧ m'.dad k = nilNode := by
  obtain ⟨-, -, hkl, hkr, -, -, -⟩ := h.rep.roots h.nodup
  obtain ⟨m', q, t', hrun, hrep, hkeys, hchange⟩ := deleteNode_gather h hnull
  have hother := h.root_other
  have hpar := h.notMem
  have hnodup := h.nodup
  obtain ⟨hson, hk, hdad, -, -⟩ := h.rep
  simp only [keys_node, List.mem_append, List.mem_cons, not_or] at hpar
  obtain ⟨hparl, hpark, hparr⟩ := hpar
  have hmem : ∀ s, s ∈ keys t' ↔ s ∈ keys l ∨ s ∈ keys rr := fun s => by rw [hkeys, List.mem_append]
  have hnodup' : (keys t').Nodup := by
    rw [hkeys]
    exact ((List.Sublist.refl _).append (List.sublist_cons_self k _)).nodup hnodup
  have hslot : ∀ d, m'.son d par = m.son d par := fun d =>
    hchange.son d par (not_or.mpr ⟨hparl, hparr⟩) (.inr hpark)
  obtain ⟨hrep', hchange', hnil⟩ := treeAt_unlinkNode (k := k) hrep hnodup' hk
    ((hchange.dad k (not_or.mpr ⟨hkl, hkr⟩) hk.ne).trans hdad) ((hslot side).trans hson)
    (fun hs => by rw [hslot true]; exact hother hs) (by rw [hmem]; exact not_or.mpr ⟨hkl, hkr⟩)
    (by rw [hmem]; exact not_or.mpr ⟨hparl, hparr⟩)
  have hmemk : k ∈ keys (.node k l rr) := List.mem_append_right _ List.mem_cons_self
  have hsub : ∀ s, s ∈ keys l ∨ s ∈ keys rr → s ∈ keys (.node k l rr) := fun s hs => by
    rw [keys_node, List.mem_append, List.mem_cons]
    exact hs.imp_right .inr
  refine ⟨_, t', hrun, hrep', hkeys, (hchange.of_below hsub hmemk).trans (hchange'.mono fun s hs => ?_), hnil⟩
  obtain hs | rfl := hs
  · exact hsub s ((hmem s).mp hs)
  · exact hmemk

/-- `DeleteNode` of a node of the tree at a son of `par`. -/
theorem deleteNode_below (t : BinaryTree ℕ) : ∀ (m : Links) (par : ℕ) (side : Bool),
    Below nilNode m par side t → par ≠ nilNode → ∀ p ∈ keys t,
    ∃ m' t', deleteNode m p = some m' ∧ TreeAt nilNode m' par (m'.son side par) t' ∧ keys t' = (keys t).erase p ∧
      Change nilNode m m' (fun s => s ∈ keys t) side par ∧ m'.dad p = nilNode := by
  induction t with
  | nil => exact fun _ _ _ _ _ p hp => nomatch hp
  | node k l rr ihl ihr =>
      intro m par side h hnull p hp
      obtain ⟨-, -, hkl, hkr, hlr, -, -⟩ := h.rep.roots h.nodup
      have hk : k < nilNode := h.rep.lt k (List.mem_append_right _ List.mem_cons_self)
      have hmemk : k ∈ keys (.node k l rr) := List.mem_append_right _ List.mem_cons_self
      have hmeml : ∀ s ∈ keys l, s ∈ keys (.node k l rr) := fun s hs => List.mem_append_left _ hs
      have hmemr : ∀ s ∈ keys rr, s ∈ keys (.node k l rr) := fun s hs =>
        List.mem_append_right _ (List.mem_cons_of_mem _ hs)
      obtain hpl | rfl | hpr : p ∈ keys l ∨ p = k ∨ p ∈ keys rr := by
        rwa [keys_node, List.mem_append, List.mem_cons] at hp
      · obtain ⟨m', t', hrun, hrep, hkeys, hchange, hnil⟩ := ihl m k false h.left hk.ne p hpl
        refine ⟨m', .node k t' rr, hrun, ?_, ?_, hchange.of_below hmeml hmemk, hnil⟩
        · exact h.replace_left hchange hrep hkl (fun hs => h.notMem (hmeml par hs)) fun s hs hs' => hlr s hs' hs
        · rw [keys_node, keys_node, hkeys, List.erase_append_left _ hpl]
      · obtain ⟨m', t', hrun, hrep, hkeys, hchange, hnil⟩ := deleteNode_root h hnull
        refine ⟨m', t', hrun, hrep, ?_, hchange, hnil⟩
        rw [hkeys, keys_node, List.erase_append_right _ hkl, List.erase_cons_head]
      · obtain ⟨m', t', hrun, hrep, hkeys, hchange, hnil⟩ := ihr m k true h.right hk.ne p hpr
        refine ⟨m', .node k l t', hrun, ?_, ?_, hchange.of_below hmemr hmemk, hnil⟩
        · exact h.replace_right hchange hrep hkr (fun hs => h.notMem (hmemr par hs)) hlr
        · have hkp : k ≠ p := fun hkp => hkr (hkp ▸ hpr)
          rw [keys_node, keys_node, hkeys, List.erase_append_right _ fun hl => hlr p hl hpr,
            List.erase_cons_tail (by simpa using hkp)]

end OpenWatcom.Wpack
