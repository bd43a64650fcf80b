import OpenWatcom.Cg.SelectSearch

/-! # Where a selection sends a value

The list that the comparison tree is generated for: sorted, in the signed or the unsigned
order, and with adjacent ranges of one label merged.  `Cases tipe L` are case ranges of an
integer type, as sets of integers, no two with a common value.  The order that the list is sorted
in need not be the order of the type: a range that crosses the end of the sorted order has
`low` after `high` there, and the tree finds no value in it. -/

namespace OpenWatcom.Cg

open ForwardCode LabelSpan

variable {L : Type}

/-! ### Two orders of the 64-bit patterns -/

/-- Between the bounds is what is at most as far behind the lower one as the upper one is. -/
theorem between_iff_sub (s : TypeDef) {a b x : BitVec 64} (h : key s a ≤ key s b) :
    key s a ≤ key s x ∧ key s x ≤ key s b ↔ (x - a).toNat ≤ (b - a).toNat := by
  obtain ⟨least, hall⟩ := key_bounds s
  have ha := hall a
  have hb := hall b
  have hx := hall x
  have hxa := toNat_sub_eq_key s x a
  have hba := toNat_sub_eq_key s b a
  omega

/-- A range that is not empty in either order has the same values in both. -/
theorem between_iff (t s : TypeDef) {a b : BitVec 64} (ht : key t a ≤ key t b)
    (hs : key s a ≤ key s b) (x : BitVec 64) :
    (key t a ≤ key t x ∧ key t x ≤ key t b) ↔ (key s a ≤ key s x ∧ key s x ≤ key s b) := by
  rw [between_iff_sub t ht, between_iff_sub s hs]

/-- A range that is empty in one order only contains the first value of that order. -/
theorem exists_first_between (t s : TypeDef) {a b : BitVec 64} (ht : key t a ≤ key t b)
    (hs : key s b < key s a) : ∃ w, (∀ x, key s w ≤ key s x) ∧ key t a ≤ key t w ∧
      key t w ≤ key t b := by
  have ha := a.isLt
  have hb := b.isLt
  cases hsign : s.signed with
  | true =>
      refine ⟨BitVec.ofNat 64 (2 ^ 63), fun x => ?_, ?_⟩
      · have hx := x.isLt
        simp only [key, hsign, if_true, BitVec.toInt_eq_toNat_cond, BitVec.toNat_ofNat]
        split_ifs <;> omega
      · simp only [key, hsign, if_true, BitVec.toInt_eq_toNat_cond, BitVec.toNat_ofNat] at *
        split_ifs at * <;> omega
  | false =>
      refine ⟨0, fun x => ?_, ?_⟩
      · simp [key, hsign]
      · simp only [key, hsign, BitVec.toInt_eq_toNat_cond, Bool.false_eq_true, if_false] at *
        have h0 : (0 : BitVec 64).toNat = 0 := rfl
        split_ifs at * <;> omega

/-! ### The sorted list -/

/-- The range of the entry is not empty in the order of the type. -/
def Ordered (t : TypeDef) (e : SelectList L) : Prop := key t e.low ≤ key t e.high

/-- The ranges of two entries have no value of the type in common. -/
def Apart (t : TypeDef) (a b : SelectList L) : Prop :=
  key t a.high < key t b.low ∨ key t b.high < key t a.low

theorem Apart.symm {t : TypeDef} {a b : SelectList L} (h : Apart t a b) : Apart t b a := Or.symm h

/-- Entries of disjoint ranges that share a value are the same entry. -/
theorem eq_of_common {t : TypeDef} {l : List (SelectList L)} (h : l.Pairwise (Apart t))
    {a b : SelectList L} (ha : a ∈ l) (hb : b ∈ l) {x : ℤ} (hax : (toSpan t a).Contains x)
    (hbx : (toSpan t b).Contains x) : a = b := by
  by_contra hne
  rw [toSpan_contains] at hax hbx
  have : Std.Symm (Apart (L := L) t) := ⟨fun _ _ => Apart.symm⟩
  rcases h.forall ha hb hne with h | h <;> omega

theorem nodeLess_iff (s : TypeDef) (a b : SelectList L) :
    nodeLess s a b = true ↔ key s a.low < key s b.low := by
  rw [nodeLess, decide_eq_true_iff, selCompare_neg_iff]

theorem not_nodeLess_iff (s : TypeDef) (a b : SelectList L) :
    (!nodeLess s b a) = true ↔ key s a.low ≤ key s b.low := by
  rw [Bool.not_eq_true', ← Bool.not_eq_true, nodeLess_iff, not_lt]

theorem sortNodeList_perm (s : TypeDef) (n : SelectNode L) :
    (sortNodeList s n).list.Perm n.list := List.mergeSort_perm _ _

theorem sortNodeList_sorted (s : TypeDef) (n : SelectNode L) :
    (sortNodeList s n).list.Pairwise fun a b => key s a.low ≤ key s b.low := by
  have h : (sortNodeList s n).list.Pairwise fun a b => (!nodeLess s b a) = true :=
    List.pairwise_mergeSort (fun a b c hab hbc => by
      rw [not_nodeLess_iff] at hab hbc ⊢
      exact hab.trans hbc)
    (fun a b => by
      rw [Bool.or_eq_true, not_nodeLess_iff, not_nodeLess_iff]
      exact le_total _ _) n.list
  exact h.imp fun hab => (not_nodeLess_iff s _ _).mp hab

/-- Disjoint ranges, sorted by any of the two orders, are separated in that order. -/
theorem sorted_separated (t s : TypeDef) {l : List (SelectList L)} (ho : ∀ e ∈ l, Ordered t e)
    (hd : l.Pairwise (Apart t)) (hs : l.Pairwise fun a b => key s a.low ≤ key s b.low) :
    Separated (l.map (toSpan s)) := by
  rw [Separated, List.pairwise_map]
  refine (hd.and hs).imp_of_mem fun {a b} ha hb hab => ?_
  obtain ⟨hab, hle⟩ := hab
  have hao := ho a ha
  have hbo := ho b hb
  unfold Ordered at hao hbo
  unfold Apart at hab
  refine ⟨lt_of_le_of_ne hle fun heq => ?_, fun hne => ?_⟩
  · rw [key_inj s heq] at hab hao
    omega
  · -- otherwise the low end of `b` lies in `a`, in either order
    by_contra hlt
    have := (between_iff t s hao hne b.low).mpr ⟨hle, not_lt.mp hlt⟩
    omega

/-! ### The merged list -/

/-- Where the next range continues this one, it does so in the order of the list too. -/
theorem key_of_continues (s : TypeDef) {e next : SelectList L}
    (hsep : key s e.low < key s next.low ∧ (key s e.low ≤ key s e.high →
      key s e.high < key s next.low)) (hj : e.high + 1 = next.low) :
    key s next.low = key s e.high + 1 := by
  have hlt : key s e.high < key s next.low := by
    by_cases hle : key s e.low ≤ key s e.high
    · exact hsep.2 hle
    · omega
  rw [← hj, key_add_one s hlt]

theorem separated_join (s : TypeDef) {e next : SelectList L} {rest : List (SelectList L)}
    (h : Separated ((e :: next :: rest).map (toSpan s))) (hj : e.high + 1 = next.low)
    (count : BitVec 64) :
    Separated (({ e with high := next.high, count := count } :: rest).map (toSpan s)) := by
  rw [Separated, List.pairwise_map] at h ⊢
  obtain ⟨he, hnext⟩ := List.pairwise_cons.mp h
  obtain ⟨hn, hrest⟩ := List.pairwise_cons.mp hnext
  have hk := key_of_continues s (he next List.mem_cons_self) hj
  refine List.pairwise_cons.mpr ⟨fun a ha => ⟨(he a (List.mem_cons_of_mem _ ha)).1, fun hle => ?_⟩,
    hrest⟩
  have han := hn a ha
  simp only [toSpan] at hle han ⊢
  by_cases hnn : key s next.low ≤ key s next.high
  · exact han.2 hnn
  · omega

section merge

variable [DecidableEq L]

theorem mergeFrom_ne_nil (e : SelectList L) : ∀ rest, mergeFrom e rest ≠ []
  | [] => by simp [mergeFrom]
  | next :: rest => by
      rw [mergeFrom]
      split_ifs with h
      · exact mergeFrom_ne_nil _ rest
      · simp

/-- The ends of the merged ranges are ends of ranges of the list. -/
theorem mergeFrom_ends (p : BitVec 64 → Prop) : ∀ (e : SelectList L) (rest : List (SelectList L)),
    (∀ a ∈ e :: rest, p a.low ∧ p a.high) → ∀ a ∈ mergeFrom e rest, p a.low ∧ p a.high
  | e, [], h => by simpa [mergeFrom] using h
  | e, next :: rest, h => by
      rw [mergeFrom]
      have he := h e (by simp)
      have hnext := h next (by simp)
      split_ifs with hj
      · refine mergeFrom_ends p _ rest fun a ha => ?_
        rcases List.mem_cons.mp ha with rfl | ha
        · exact ⟨he.1, hnext.2⟩
        · exact h a (by simp [ha])
      · intro a ha
        rcases List.mem_cons.mp ha with rfl | ha
        · exact he
        · exact mergeFrom_ends p next rest (fun a ha => h a (List.mem_cons_of_mem _ ha)) a ha

/-- The low ends of the merged ranges are low ends of ranges of the list. -/
theorem mergeFrom_lows (p : BitVec 64 → Prop) : ∀ (e : SelectList L) (rest : List (SelectList L)),
    (∀ a ∈ e :: rest, p a.low) → ∀ a ∈ mergeFrom e rest, p a.low
  | e, [], h => by simpa [mergeFrom] using h
  | e, next :: rest, h => by
      rw [mergeFrom]
      split_ifs with hj
      · refine mergeFrom_lows p _ rest fun a ha => ?_
        rcases List.mem_cons.mp ha with rfl | ha
        · exact h e (by simp)
        · exact h a (by simp [ha])
      · intro a ha
        rcases List.mem_cons.mp ha with rfl | ha
        · exact h a (by simp)
        · exact mergeFrom_lows p next rest (fun a ha => h a (List.mem_cons_of_mem _ ha)) a ha

theorem mergeFrom_separated (s : TypeDef) : ∀ (e : SelectList L) (rest : List (SelectList L)),
    Separated ((e :: rest).map (toSpan s)) → Separated ((mergeFrom e rest).map (toSpan s))
  | e, [], h => by simpa [mergeFrom] using h
  | e, next :: rest, h => by
      rw [mergeFrom]
      split_ifs with hj
      · exact mergeFrom_separated s _ rest (separated_join s h hj.1 _)
      · rw [Separated, List.map_cons, List.pairwise_cons]
        rw [Separated, List.map_cons, List.pairwise_cons] at h
        refine ⟨?_, mergeFrom_separated s next rest h.2⟩
        intro a ha
        obtain ⟨b, hb, rfl⟩ := List.mem_map.mp ha
        refine mergeFrom_lows (fun x => key s e.low < key s x ∧
          (key s e.low ≤ key s e.high → key s e.high < key s x)) next rest (fun c hc => ?_) b hb
        exact h.1 _ (List.mem_map_of_mem hc)

/-- An entry that is empty in the order of the list has the otherwise label. -/
def EmptyIsOther (s : TypeDef) (other : Option L) (e : SelectList L) : Prop :=
  key s e.high < key s e.low → other = some e.label

/-- The merged list gives the answers of the list. -/
theorem mergeFrom_routed (s : TypeDef) (other : Option L) (k : ℤ) :
    ∀ (e : SelectList L) (rest : List (SelectList L)) (out : Option L),
      Separated ((e :: rest).map (toSpan s)) → (∀ a ∈ e :: rest, EmptyIsOther s other a) →
      Routed ((mergeFrom e rest).map (toSpan s)) other k out →
      Routed ((e :: rest).map (toSpan s)) other k out
  | e, [], out, _, _, hr => by simpa [mergeFrom] using hr
  | e, next :: rest, out, h, hempty, hr => by
      rw [mergeFrom] at hr
      have htail : Separated ((next :: rest).map (toSpan s)) := by
        rw [Separated, List.map_cons, List.pairwise_cons] at h
        exact h.2
      have hfirst := (List.pairwise_cons.mp (List.pairwise_map.mp h)).1
      split_ifs at hr with hj
      · have hk := key_of_continues s (hfirst next List.mem_cons_self) hj.1
        have hnext := hempty next (by simp)
        refine Routed.of_joined h (fun k hk' => ?_) hj.2 hnext ?_
        · simp only [toSpan] at hk' ⊢
          omega
        · refine mergeFrom_routed s other k _ rest out (separated_join s h hj.1 _) ?_ hr
          intro a ha hlt
          rcases List.mem_cons.mp ha with rfl | ha
          · rw [show other = some next.label from hnext (by
              have := (hfirst next List.mem_cons_self).1
              simp only [toSpan] at this hlt
              omega), hj.2]
          · exact hempty a (by simp [ha]) hlt
      · rw [List.map_cons] at hr ⊢
        by_cases hc : (toSpan s e).Contains k
        · obtain rfl := hr.inside _ List.mem_cons_self hc
          refine Routed.of_first hc fun a ha hca => ?_
          obtain ⟨b, hb, rfl⟩ := List.mem_map.mp ha
          exact absurd hca.1 (not_le.mpr (lt_of_le_of_lt hc.2 ((hfirst b hb).2 (hc.1.trans hc.2))))
        · rw [routed_cons_of_not hc] at hr ⊢
          exact mergeFrom_routed s other k next rest out htail
            (fun a ha => hempty a (List.mem_cons_of_mem _ ha)) hr

end merge

/-! ### Values of the switch type -/

/-- The integers of the type. -/
def InType (t : TypeDef) (x : ℤ) : Prop :=
  if t.signed then -2 ^ (t.length.bits - 1) ≤ x ∧ x < 2 ^ (t.length.bits - 1)
  else 0 ≤ x ∧ x < 2 ^ t.length.bits

/-- An integer as the 64-bit value the front end passes. -/
def pattern (x : ℤ) : BitVec 64 := BitVec.ofInt 64 x

theorem key_pattern {t : TypeDef} {x : ℤ} (hx : InType t x) : key t (pattern x) = x := by
  obtain ⟨len, sign⟩ := t
  unfold InType at hx
  unfold key pattern
  cases sign <;> cases len <;>
    simp only [IntLength.bits, if_true, Bool.false_eq_true, if_false, BitVec.toInt_ofInt,
      BitVec.toNat_ofInt, Int.bmod_def] at hx ⊢ <;> omega

/-- The integers of a type are as many as its bits can tell apart, from the least one on. -/
theorem inType_bounds (t : TypeDef) : ∃ least : ℤ, -2 ^ t.length.bits ≤ least ∧ least ≤ 0 ∧
    ∀ x, InType t x ↔ least ≤ x ∧ x < least + 2 ^ t.length.bits := by
  obtain ⟨len, sign⟩ := t
  refine ⟨if sign then -2 ^ (len.bits - 1) else 0, ?_⟩
  unfold InType
  cases sign <;> cases len <;> simp [IntLength.bits]

/-- The integer that a comparison at the width of the type compares. -/
def widthKey (s : TypeDef) (v : BitVec s.length.bits) : ℤ := if s.signed then v.toInt else v.toNat

theorem bgIntegerSel_eq (c : BitVec 64) (s : TypeDef) : bgIntegerSel c s = c.setWidth _ := by
  obtain ⟨len, sign⟩ := s
  unfold bgIntegerSel
  cases len <;> simp [IntLength.bits]

theorem holds_eq (s : TypeDef) (v : BitVec s.length.bits) (op : CompareOp) (c : BitVec 64) :
    Compare.holds s v ⟨op, c⟩ = match op with
      | .eq => decide (widthKey s v = widthKey s (c.setWidth _))
      | .lt => decide (widthKey s v < widthKey s (c.setWidth _))
      | .le => decide (widthKey s v ≤ widthKey s (c.setWidth _)) := by
  unfold Compare.holds widthKey
  rw [bgIntegerSel_eq]
  generalize c.setWidth s.length.bits = w
  cases op <;> cases hs : s.signed <;>
    simp [BitVec.ult_eq_decide, BitVec.ule_eq_decide, BitVec.slt_eq_decide, BitVec.sle_eq_decide,
      BitVec.toInt_inj, BitVec.toNat_inj, beq_eq_decide]

/-- Values of the type compare the same way at 64 bits and at the width of the type, where the
signed order is used for a signed type or for the full width only. -/
theorem widthKey_lt_iff (t : TypeDef) (sign : Bool) (hsign : sign → t.signed ∨ t.length = .eight)
    {x c : BitVec 64} (hx : InType t (key t x)) (hc : InType t (key t c)) :
    widthKey ⟨t.length, sign⟩ (x.setWidth _) < widthKey ⟨t.length, sign⟩ (c.setWidth _) ↔
      key ⟨t.length, sign⟩ x < key ⟨t.length, sign⟩ c := by
  cases sign with
  | false =>
      obtain ⟨least, hlow, hhigh, hin⟩ := inType_bounds t
      rw [hin] at hx hc
      have hx' := toNat_eq_key t x
      have hc' := toNat_eq_key t c
      unfold widthKey
      show ((x.setWidth t.length.bits).toNat : ℤ) < (c.setWidth t.length.bits).toNat ↔ (x.toNat : ℤ) < c.toNat
      rw [BitVec.toNat_setWidth, BitVec.toNat_setWidth]
      generalize key t x = kx at *
      generalize key t c = kc at *
      generalize t.length = len at *
      cases len <;> dsimp only [IntLength.bits] at * <;> omega
  | true =>
      have hkey : ∀ {y : BitVec 64}, InType t (key t y) → (y.setWidth t.length.bits).toInt = y.toInt := by
        intro y hy
        have hy' : (y.toNat : ℤ) = y.toInt % 2 ^ 64 := toNat_eq_key ⟨t.length, true⟩ y
        have hlow := BitVec.le_toInt y
        have hhigh := @BitVec.toInt_lt 64 y
        have hbounds : -2 ^ (t.length.bits - 1) ≤ y.toInt ∧ y.toInt < 2 ^ (t.length.bits - 1) := by
          rcases hsign rfl with hs | hlen
          · unfold InType key at hy
            rwa [if_pos hs, if_pos hs] at hy
          · rw [hlen]
            exact ⟨hlow, hhigh⟩
        rw [BitVec.toInt_setWidth, Int.bmod_def]
        generalize t.length = len at *
        cases len <;> dsimp only [IntLength.bits] at * <;> split_ifs <;> omega
      unfold widthKey key
      exact iff_of_eq (congrArg₂ (· < ·) (hkey hx) (hkey hc))

theorem agrees_of_inType (t : TypeDef) (sign : Bool) (hsign : sign → t.signed ∨ t.length = .eight)
    {x c : BitVec 64} (hx : InType t (key t x)) (hc : InType t (key t c)) :
    Agrees ⟨t.length, sign⟩ (x.setWidth _) x c := by
  have h1 := widthKey_lt_iff t sign hsign hx hc
  have h2 := widthKey_lt_iff t sign hsign hc hx
  constructor <;> rw [holds_eq, decide_eq_decide]
  · omega
  · exact h1
  · omega

/-- Case ranges of the switch type: at least one, each with a value, no two with a common one. -/
structure Cases (t : TypeDef) (L : Type) where
  ranges : List (LabelSpan ℤ L)
  nonempty : ranges ≠ []
  inType : ∀ c ∈ ranges, InType t c.lo ∧ InType t c.hi
  ordered : ∀ c ∈ ranges, c.lo ≤ c.hi
  disjoint : ranges.Pairwise fun a b => a.hi < b.lo ∨ b.hi < a.lo

/-- The selection node of the cases: one `BGSelRange` each, then `BGSelOther`. -/
def switchNode (ranges : List (LabelSpan ℤ L)) (other : Option L) : SelectNode L :=
  bgSelOther
    (ranges.foldl (fun s c => bgSelRange s (pattern c.lo) (pattern c.hi) c.label) bgSelInit) other

/-- The entry of a case range. -/
def entry (c : LabelSpan ℤ L) : SelectList L := newCase (pattern c.lo) (pattern c.hi) c.label

theorem foldl_bgSelRange_list (ranges : List (LabelSpan ℤ L)) (s : SelectNode L) :
    (ranges.foldl (fun s c => bgSelRange s (pattern c.lo) (pattern c.hi) c.label) s).list =
      (ranges.map entry).reverse ++ s.list := by
  induction ranges generalizing s with
  | nil => rfl
  | cons c ranges ih =>
      rw [List.foldl_cons, ih]
      simp [bgSelRange, entry]

theorem switchNode_list (ranges : List (LabelSpan ℤ L)) (other : Option L) :
    (switchNode ranges other).list = (ranges.map entry).reverse := by
  simp [switchNode, bgSelOther, foldl_bgSelRange_list, bgSelInit]

section entries

variable {t : TypeDef} (cases : Cases t L) {l : List (SelectList L)}
  (hl : l.Perm (cases.ranges.map entry))
include hl

theorem exists_range {e : SelectList L} (he : e ∈ l) :
    ∃ c ∈ cases.ranges, entry c = e ∧ toSpan t e = c := by
  obtain ⟨c, hc, rfl⟩ := List.mem_map.mp (hl.mem_iff.mp he)
  refine ⟨c, hc, rfl, ?_⟩
  have := cases.inType c hc
  simp only [toSpan, entry, newCase, key_pattern this.1, key_pattern this.2]

theorem entry_mem {c : LabelSpan ℤ L} (hc : c ∈ cases.ranges) : entry c ∈ l ∧ toSpan t (entry c) = c := by
  have := cases.inType c hc
  refine ⟨hl.mem_iff.mpr (List.mem_map_of_mem hc), ?_⟩
  simp only [toSpan, entry, newCase, key_pattern this.1, key_pattern this.2]

theorem entries_inType {e : SelectList L} (he : e ∈ l) :
    InType t (key t e.low) ∧ InType t (key t e.high) := by
  obtain ⟨c, hc, -, rfl⟩ := exists_range cases hl he
  exact cases.inType _ hc

theorem entries_ordered {e : SelectList L} (he : e ∈ l) : Ordered t e := by
  obtain ⟨c, hc, -, rfl⟩ := exists_range cases hl he
  exact cases.ordered _ hc

theorem entries_apart : l.Pairwise (Apart t) := by
  refine (hl.pairwise_iff fun h => Apart.symm h).mpr (List.pairwise_map.mpr ?_)
  refine cases.disjoint.imp_of_mem fun {a b} ha hb hab => ?_
  have h1 := (entry_mem cases hl ha).2
  have h2 := (entry_mem cases hl hb).2
  rw [← h1, ← h2] at hab
  exact hab

end entries

/-! ### The tree -/

/-- Where the generated code sends the value `v`. -/
def dispatch (sortTipe : TypeDef) (code : Code L) (v : ℤ) : Option L :=
  exec (Compare.holds sortTipe (BitVec.ofInt _ v)) none code

theorem ofInt_eq_setWidth (n : IntLength) (v : ℤ) :
    BitVec.ofInt n.bits v = (pattern v).setWidth n.bits := by
  apply BitVec.eq_of_toNat_eq
  unfold pattern
  cases n <;> simp only [IntLength.bits, BitVec.toNat_ofInt, BitVec.toNat_setWidth] <;> omega

section tree

variable [DecidableEq L] {t : TypeDef} (cases : Cases t L) {n : SelectNode L}
  (hn : n.list.Perm (cases.ranges.map entry)) (sign : Bool)
  (hsign : sign → t.signed ∨ t.length = .eight)

/-- The tree for a list in the order of `⟨t.length, sign⟩`. -/
def treeOf (t : TypeDef) (sign : Bool) (n : SelectNode L) : Code L :=
  genIfStmts ⟨t.length, sign⟩ (mergeListEntries (sortNodeList ⟨t.length, sign⟩ n))

theorem treeOf_eq {e : SelectList L} {rest : List (SelectList L)}
    (h : (sortNodeList ⟨t.length, sign⟩ n).list = e :: rest) :
    treeOf t sign n = (doBinarySearch ⟨t.length, sign⟩ (mergeFrom e rest) n.otherWise 0
      ((mergeFrom e rest).length - 1) 0 0 false false 0).1 := by
  have hm : mergeListEntries (sortNodeList ⟨t.length, sign⟩ n) =
      { sortNodeList ⟨t.length, sign⟩ n with list := mergeFrom e rest } := by
    unfold mergeListEntries
    rw [h]
  unfold treeOf genIfStmts
  rw [hm]
  rfl

include hn hsign

/-- For each value of the type the tree answers for the sorted list. -/
theorem treeOf_routed {e : SelectList L} {rest : List (SelectList L)}
    (h : (sortNodeList ⟨t.length, sign⟩ n).list = e :: rest)
    (hempty : ∀ a ∈ e :: rest, EmptyIsOther ⟨t.length, sign⟩ n.otherWise a)
    {v : ℤ} (hv : InType t v) :
    Routed ((e :: rest).map (toSpan ⟨t.length, sign⟩)) n.otherWise
      (key ⟨t.length, sign⟩ (pattern v)) (dispatch ⟨t.length, sign⟩ (treeOf t sign n) v) := by
  have hperm := (sortNodeList_perm ⟨t.length, sign⟩ n).trans hn
  rw [h] at hperm
  have hsep : Separated ((e :: rest).map (toSpan ⟨t.length, sign⟩)) :=
    sorted_separated t _ (fun _ he => entries_ordered cases hperm he)
      (entries_apart cases hperm) (h ▸ sortNodeList_sorted _ n)
  refine mergeFrom_routed _ _ _ e rest _ hsep hempty (RoutedFrom.routed ?_)
  have hne : 0 < (mergeFrom e rest).length := List.length_pos_iff.mpr (mergeFrom_ne_nil e rest)
  have hag := mergeFrom_ends (fun c => Agrees ⟨t.length, sign⟩ (BitVec.ofInt _ v) (pattern v) c)
    e rest fun a ha => by
      have hin := entries_inType cases hperm ha
      have hkv : InType t (key t (pattern v)) := by rwa [key_pattern hv]
      rw [ofInt_eq_setWidth]
      exact ⟨agrees_of_inType t sign hsign hkv hin.1, agrees_of_inType t sign hsign hkv hin.2⟩
  have hr := doBinarySearch_routed ⟨t.length, sign⟩ (mergeFrom e rest) n.otherWise
    (BitVec.ofInt _ v) (pattern v) (mergeFrom_separated _ e rest hsep) hag 0
    ((mergeFrom e rest).length - 1) 0 0 false false 0 [] (by omega) (by omega) (by simp) (by simp)
  rw [List.append_nil, ← treeOf_eq sign h] at hr
  rwa [List.length_map]

/-- A value that comes before all entries in the order of the list reaches the otherwise label. -/
theorem treeOf_below {e : SelectList L} {rest : List (SelectList L)}
    (h : (sortNodeList ⟨t.length, sign⟩ n).list = e :: rest) {v : ℤ} (hv : InType t v)
    (hlow : ∀ a ∈ e :: rest, key ⟨t.length, sign⟩ (pattern v) < key ⟨t.length, sign⟩ a.low) :
    dispatch ⟨t.length, sign⟩ (treeOf t sign n) v = n.otherWise := by
  have hperm := (sortNodeList_perm ⟨t.length, sign⟩ n).trans hn
  rw [h] at hperm
  have hne : 0 < (mergeFrom e rest).length := List.length_pos_iff.mpr (mergeFrom_ne_nil e rest)
  have hag := mergeFrom_ends (fun c => Agrees ⟨t.length, sign⟩ (BitVec.ofInt _ v) (pattern v) c)
    e rest fun a ha => by
      have hin := entries_inType cases hperm ha
      have hkv : InType t (key t (pattern v)) := by rwa [key_pattern hv]
      rw [ofInt_eq_setWidth]
      exact ⟨agrees_of_inType t sign hsign hkv hin.1, agrees_of_inType t sign hsign hkv hin.2⟩
  unfold dispatch
  rw [treeOf_eq sign h]
  exact doBinarySearch_below ⟨t.length, sign⟩ (mergeFrom e rest) n.otherWise (BitVec.ofInt _ v)
    (pattern v) hag
    (mergeFrom_lows (fun c => key ⟨t.length, sign⟩ (pattern v) < key ⟨t.length, sign⟩ c) e rest hlow)
    0 _ 0 0 false false 0 (by omega) (by omega) (by simp) (by simp)

/-- The tree is right for every value exactly when each range that does not have the otherwise
label has `low` up to `high` in the order of the list. -/
theorem treeOf_routes_iff :
    (∀ v, InType t v → Routed cases.ranges n.otherWise v
      (dispatch ⟨t.length, sign⟩ (treeOf t sign n) v)) ↔
    ∀ c ∈ cases.ranges, selCompare ⟨t.length, sign⟩ (pattern c.lo) (pattern c.hi) ≤ 0 ∨
      n.otherWise = some c.label := by
  have hperm := (sortNodeList_perm ⟨t.length, sign⟩ n).trans hn
  obtain ⟨e, rest, h⟩ : ∃ e rest, (sortNodeList ⟨t.length, sign⟩ n).list = e :: rest := by
    refine List.exists_cons_of_ne_nil fun hnil => cases.nonempty ?_
    rw [hnil] at hperm
    exact List.map_eq_nil_iff.mp hperm.nil_eq.symm
  rw [h] at hperm
  have happart := entries_apart cases hperm
  constructor
  · intro hall c hc
    by_contra hbad
    obtain ⟨hcmp, hother⟩ := not_or.mp hbad
    rw [selCompare_nonpos_iff, not_le] at hcmp
    obtain ⟨hmem, hspan⟩ := entry_mem cases hperm hc
    -- the first value of the order lies in the range, and the tree takes it to be under it
    obtain ⟨w, hfirst, hw⟩ := exists_first_between t ⟨t.length, sign⟩
      (entries_ordered cases hperm hmem) hcmp
    have hcw : c.Contains (key t w) := by rwa [← hspan]
    have hwt : InType t (key t w) := by
      have hct := cases.inType c hc
      unfold InType at hct ⊢
      unfold LabelSpan.Contains at hcw
      split_ifs at hct ⊢ <;> omega
    have hpw : pattern (key t w) = w := key_inj t (key_pattern hwt)
    have hout := treeOf_below cases hn sign hsign h hwt fun a ha => by
      rw [hpw]
      refine lt_of_le_of_ne (hfirst _) fun heq => ?_
      obtain rfl := key_inj _ heq
      have := eq_of_common happart ha hmem
        ⟨le_rfl, entries_ordered cases hperm ha⟩ (by rwa [hspan])
      rw [this] at hfirst
      exact absurd (hfirst (entry c).high) (not_le.mpr hcmp)
    exact hother (hout ▸ (hall _ hwt).inside c hc hcw)
  · intro hok v hv
    have hempty : ∀ a ∈ e :: rest, EmptyIsOther ⟨t.length, sign⟩ n.otherWise a := by
      intro a ha hlt
      obtain ⟨c, hc, rfl, -⟩ := exists_range cases hperm ha
      rcases hok c hc with hle | hother
      · rw [selCompare_nonpos_iff] at hle
        exact absurd hlt (not_lt.mpr hle)
      · exact hother
    have hr := treeOf_routed cases hn sign hsign h hempty hv
    have hkv := key_pattern hv
    -- an entry that contains the value in the order of the list contains it as a range
    have hback : ∀ a ∈ e :: rest, (toSpan ⟨t.length, sign⟩ a).Contains
        (key ⟨t.length, sign⟩ (pattern v)) → (toSpan t a).Contains v := by
      intro a ha hc
      rw [← hkv]
      exact (between_iff t _ (entries_ordered cases hperm ha) (hc.1.trans hc.2) _).mpr hc
    refine ⟨fun c hc hcv => ?_, fun hno => hr.outside fun s hs hsc => ?_⟩
    · obtain ⟨hmem, hspan⟩ := entry_mem cases hperm hc
      by_cases hle : key ⟨t.length, sign⟩ (entry c).low ≤ key ⟨t.length, sign⟩ (entry c).high
      · refine hr.inside (toSpan _ (entry c)) (List.mem_map_of_mem hmem) ?_
        refine (between_iff t _ (entries_ordered cases hperm hmem) hle _).mp ?_
        rwa [hkv, ← toSpan_contains, hspan]
      · refine hr.outside (fun s hs hsc => ?_) c.label (hempty _ hmem (not_le.mp hle))
        obtain ⟨a, ha, rfl⟩ := List.mem_map.mp hs
        obtain rfl := eq_of_common happart ha hmem (hback a ha hsc) (by rwa [hspan])
        exact hle (hsc.1.trans hsc.2)
    · obtain ⟨a, ha, rfl⟩ := List.mem_map.mp hs
      obtain ⟨c, hc, -, hspan⟩ := exists_range cases hperm ha
      exact hno c hc (hspan ▸ hback a ha hsc)

end tree

/-! ### The order that is chosen -/

/-- The type of the table entries does not depend on the sign of the sort type. -/
theorem selType_signed (len : IntLength) (r : BitVec 64) :
    selType ⟨len, true⟩ r = selType ⟨len, false⟩ r := by
  unfold selType TypeDef.refno
  cases len <;> dsimp only <;> split_ifs <;> simp_all

theorem scanCost_signed (tg : Target) (len : IntLength) (s : SelectNode L) :
    scanCost tg ⟨len, true⟩ s = scanCost tg ⟨len, false⟩ s := by
  unfold scanCost
  rw [selType_signed]

theorem jumpCost_signed (tg : Target) (len : IntLength) (s : SelectNode L) :
    jumpCost tg ⟨len, true⟩ s = jumpCost tg ⟨len, false⟩ s := by
  unfold jumpCost
  rw [selType_signed]

theorem ifCost_signed (tg : Target) (len : IntLength) (s : SelectNode L) (entries : UInt32) :
    ifCost tg ⟨len, true⟩ s entries = ifCost tg ⟨len, false⟩ s entries := by
  unfold ifCost
  rw [selType_signed, selType_signed]

/-- A signed best method that costs no less than one of the methods still to be tried. -/
def Best.Beatable (b : Best) (methods : List (Bool × UInt32)) : Prop :=
  b.signed = true → ∃ m ∈ methods, m.1 = true ∧ m.2 ≤ b.cost

theorem Best.Beatable.consider {b : Best} {a : Bool} {c : UInt32} {ms : List (Bool × UInt32)}
    (h : b.Beatable ((a, c) :: ms)) (kind : SelKind) :
    (b.consider a c kind false).Beatable ms := by
  unfold Best.consider
  split_ifs with hc
  · intro hs
    cases hs
  · intro hs
    obtain ⟨m, hm, ha, hle⟩ := h hs
    rcases List.mem_cons.mp hm with rfl | hm
    · exact absurd ⟨ha, hle⟩ hc
    · exact ⟨m, hm, ha, hle⟩

theorem Best.Beatable.of_consider {b : Best} {a : Bool} {c : UInt32} {ms : List (Bool × UInt32)}
    (h : b.Beatable ms) (kind : SelKind) (hm : (a, c) ∈ ms) :
    (b.consider a c kind true).Beatable ms := by
  unfold Best.consider
  split_ifs with hc
  · exact fun _ => ⟨_, hm, hc.1, UInt32.le_refl _⟩
  · exact h

/-- Sorting changes nothing in a node that is sorted and has the bounds of its list. -/
theorem sortNodeList_eq_self (tipe : TypeDef) (s : SelectNode L)
    (hs : s.list.Pairwise fun a b => key tipe a.low ≤ key tipe b.low)
    (hlower : (s.list.head?.map SelectList.low).getD s.lower = s.lower)
    (hupper : (s.list.getLast?.map SelectList.high).getD s.upper = s.upper) :
    sortNodeList tipe s = s := by
  have hlist : s.list.mergeSort (fun a b => !nodeLess tipe b a) = s.list :=
    List.mergeSort_of_pairwise (hs.imp fun hab => (not_nodeLess_iff tipe _ _).mpr hab)
  unfold sortNodeList
  simp only [hlist, hlower, hupper]

/-- A list whose values have the same order in both types is not changed by the second sort. -/
theorem sortNodeList_again (len : IntLength) (s : SelectNode L)
    (hs : ∀ e ∈ s.list, key ⟨len, true⟩ e.low = key ⟨len, false⟩ e.low) :
    sortNodeList ⟨len, false⟩ (sortNodeList ⟨len, true⟩ s) = sortNodeList ⟨len, true⟩ s := by
  have hmem : ∀ {e}, e ∈ (sortNodeList ⟨len, true⟩ s).list → e ∈ s.list :=
    (sortNodeList_perm ⟨len, true⟩ s).mem_iff.mp
  refine sortNodeList_eq_self _ _ ?_ ?_ ?_
  · refine (sortNodeList_sorted ⟨len, true⟩ s).imp_of_mem fun {a b} ha hb hab => ?_
    rwa [← hs a (hmem ha), ← hs b (hmem hb)]
  · unfold sortNodeList
    cases (s.list.mergeSort fun a b => !nodeLess ⟨len, true⟩ b a) <;> rfl
  · unfold sortNodeList
    cases h : (s.list.mergeSort fun a b => !nodeLess ⟨len, true⟩ b a).getLast? <;> simp [h]

section choice

variable [DecidableEq L]

theorem distinctIfCost_signed (tg : Target) (len : IntLength) (s : SelectNode L) :
    distinctIfCost tg ⟨len, true⟩ s = distinctIfCost tg ⟨len, false⟩ s := by
  unfold distinctIfCost
  cases s.list <;> exact ifCost_signed tg len s _

/-- On one list the unsigned order, which is tried second, is as good as the signed one and
replaces it. -/
theorem sweep_unsigned (tg : Target) (allowed : Allowed) (len : IntLength) (s : SelectNode L)
    (b : Best) (hb : b.signed = false) :
    ((b.sweep tg allowed ⟨len, true⟩ s).sweep tg allowed ⟨len, false⟩ s).signed = false := by
  let ms := [(allowed.scan, scanCost tg ⟨len, false⟩ s), (allowed.table, jumpCost tg ⟨len, false⟩ s),
    (allowed.bsearch, distinctIfCost tg ⟨len, false⟩ s)]
  have h0 : b.Beatable ms := fun h => by simp [hb] at h
  have h1 : (b.sweep tg allowed ⟨len, true⟩ s).Beatable ms := by
    unfold Best.sweep
    rw [scanCost_signed, jumpCost_signed, distinctIfCost_signed]
    exact ((h0.of_consider .scan (by simp [ms])).of_consider .jump (by simp [ms])).of_consider
      .ifs (by simp [ms])
  have h2 : ((b.sweep tg allowed ⟨len, true⟩ s).sweep tg allowed ⟨len, false⟩ s).Beatable [] :=
    ((h1.consider .scan).consider .jump).consider .ifs
  by_contra hs
  obtain ⟨m, hm, -⟩ := h2 (by simpa using hs)
  simp at hm

/-- The tree is generated for the list in the order of the type it compares in. -/
theorem bgSelect_tree {tg : Target} {s : SelectNode L} {len : IntLength} {allowed : Allowed}
    {sortTipe : TypeDef} {code : Code L} (h : bgSelect tg s len allowed = .tree sortTipe code) :
    sortTipe.length = len ∧ ∃ s' : SelectNode L, s'.list.Perm s.list ∧
      s'.otherWise = s.otherWise ∧
      code = genIfStmts sortTipe (mergeListEntries (sortNodeList sortTipe s')) := by
  unfold bgSelect at h
  split_ifs at h with h0
  dsimp only at h
  split at h
  · injection h with h1 h2
    subst h1 h2
    split_ifs with hsign
    · exact ⟨rfl, sortNodeList ⟨len, false⟩ (sortNodeList ⟨len, true⟩ s),
        (sortNodeList_perm _ _).trans (sortNodeList_perm _ _), rfl, rfl⟩
    · exact ⟨rfl, sortNodeList ⟨len, true⟩ s, sortNodeList_perm _ _, rfl, rfl⟩
  · cases h

/-- For values that are in the same order as signed and as unsigned ones the tree is the
unsigned one. -/
theorem bgSelect_tree_unsigned {tg : Target} {s : SelectNode L} {len : IntLength}
    {allowed : Allowed} {sortTipe : TypeDef} {code : Code L}
    (h : bgSelect tg s len allowed = .tree sortTipe code)
    (hs : ∀ e ∈ s.list, key ⟨len, true⟩ e.low = key ⟨len, false⟩ e.low) :
    sortTipe.signed = false := by
  unfold bgSelect at h
  simp only [selNodeType, sortNodeList_again len s hs] at h
  have hsweep := sweep_unsigned tg allowed.fix len (sortNodeList ⟨len, true⟩ s)
    ⟨maxCost, .scan, false⟩ rfl
  simp only [hsweep, Bool.false_eq_true, if_false] at h
  split_ifs at h with h0
  split at h
  · injection h with h1 h2
    rw [← h1]
  · cases h

/-- The comparison tree of a selection sends every value of the switch type to the label of its
range, or to the otherwise label if it is in no range, exactly when each range that does not have
the otherwise label itself is in order in the type of the comparisons. -/
theorem bgSelect_tree_routes_iff (tg : Target) (allowed : Allowed) (t : TypeDef)
    (cases : Cases t L) (other : Option L) (sortTipe : TypeDef) (code : Code L)
    (h : bgSelect tg (switchNode cases.ranges other) t.length allowed = .tree sortTipe code) :
    (∀ v, InType t v → Routed cases.ranges other v (dispatch sortTipe code v)) ↔
    ∀ c ∈ cases.ranges,
      selCompare sortTipe (pattern c.lo) (pattern c.hi) ≤ 0 ∨ other = some c.label := by
  obtain ⟨hlen, s', hperm, hother, rfl⟩ := bgSelect_tree h
  have hs' : s'.list.Perm (cases.ranges.map entry) := by
    refine hperm.trans ?_
    rw [switchNode_list]
    exact List.reverse_perm _
  have hsign : sortTipe.signed → t.signed ∨ t.length = .eight := by
    intro hsigned
    by_contra hno
    obtain ⟨hns, hlt⟩ := not_or.mp hno
    refine absurd (bgSelect_tree_unsigned h fun e he => ?_) (by simp [hsigned])
    -- the values of an unsigned type shorter than 64 bits have a clear top bit
    have hin := (entries_inType cases (hperm.symm.trans hs') he).1
    have hel := e.low.isLt
    obtain ⟨len, sign⟩ := t
    unfold InType key at *
    simp only [BitVec.toInt_eq_toNat_cond] at *
    cases sign <;> cases len <;> simp_all [IntLength.bits] <;> omega
  obtain ⟨len, sign⟩ := sortTipe
  dsimp only at hlen hsign
  subst hlen
  have := treeOf_routes_iff cases hs' sign hsign
  rw [hother] at this
  exact this

end choice

/-- One range of a signed 16-bit type that contains zero, as in `SELECT CASE( -5:5 )`. -/
def crossing : Cases ⟨.two, true⟩ ℕ where
  ranges := [⟨-5, 5, 1⟩]
  nonempty := by simp
  inType := by simp [InType, IntLength.bits]
  ordered := by simp
  disjoint := by simp

/-- The tree for `crossing`: the costs of the two orders are equal, so it compares unsigned. -/
def crossingTree : Code ℕ :=
  [.ifTrue ⟨.lt, pattern (-5)⟩ (.here 0), .ifTrue ⟨.le, pattern 5⟩ (.final 1),
    .jump (some (.final 0)), .label 0, .jump (some (.final 0))]

theorem bgSelect_crossing : bgSelect ⟨true, 50⟩ (switchNode crossing.ranges (some 0)) .two
    ⟨true, true, true⟩ = .tree ⟨.two, false⟩ crossingTree := by
  decide +kernel

/-- The value 3 is in the range from -5 to 5 and goes to the otherwise label. -/
theorem bgSelect_tree_misroutes : ¬ ∀ (cases : Cases ⟨.two, true⟩ ℕ) (other : Option ℕ)
    (sortTipe : TypeDef) (code : Code ℕ),
    bgSelect ⟨true, 50⟩ (switchNode cases.ranges other) .two ⟨true, true, true⟩ =
      .tree sortTipe code →
    ∀ v, InType ⟨.two, true⟩ v → Routed cases.ranges other v (dispatch sortTipe code v) := by
  intro hall
  have h := (hall crossing (some 0) _ _ bgSelect_crossing 3
    (by simp [InType, IntLength.bits])).inside ⟨-5, 5, 1⟩ (by simp [crossing])
    (by simp [LabelSpan.Contains])
  revert h
  decide +kernel

theorem bgSelect_tree_routes_iff_crossing :
    (∀ v, InType ⟨.two, true⟩ v → Routed crossing.ranges (some 0) v
      (dispatch ⟨.two, false⟩ crossingTree v)) ↔
    ∀ c ∈ crossing.ranges, selCompare ⟨.two, false⟩ (pattern c.lo) (pattern c.hi) ≤ 0 ∨
      some 0 = some c.label :=
  bgSelect_tree_routes_iff ⟨true, 50⟩ ⟨true, true, true⟩ ⟨.two, true⟩ crossing (some 0) _ _
    bgSelect_crossing

end OpenWatcom.Cg
