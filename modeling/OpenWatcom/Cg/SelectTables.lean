import OpenWatcom.Cg.SelectRoute

/-! # Jump tables and scan tables of a selection

`MakeJmpTab` and `MakeScanTab` of `x86sel.c` walk the sorted and merged list of a selection, each
from `lower` to `upper`: the jump table has an entry for every value between the bounds, the scan
table a value and a label for every value of a range.  `segment a b` are the values from `a` up to
`b`, and `pairs l` the values of all the ranges of a list with their labels. -/

namespace OpenWatcom.Cg

open LabelSpan

variable {L : Type}

/-! ### The loops -/

theorem key_room (sortTipe : TypeDef) {curr upper : BitVec 64}
    (h : ¬ 0 ≤ selCompare sortTipe curr upper) :
    (key sortTipe upper - key sortTipe (curr + 1)).toNat <
      (key sortTipe upper - key sortTipe curr).toNat := by
  rw [not_le, selCompare_neg_iff] at h
  rw [key_add_one sortTipe h]
  omega

theorem key_room_below (sortTipe : TypeDef) {curr lower : BitVec 64}
    (h : ¬ selCompare sortTipe curr lower ≤ 0) :
    (key sortTipe (curr - 1) - key sortTipe lower).toNat <
      (key sortTipe curr - key sortTipe lower).toNat := by
  rw [selCompare_nonpos_iff, not_le] at h
  rw [key_sub_one sortTipe h]
  omega

/-- The loop of `MakeJmpTab` at the value `curr`, where `list` are the entries that do not end
before it.  The entry of a value is a label handle, which is `NULL` for a value in no range where
there is no otherwise label. -/
def jumpWalk (sortTipe : TypeDef) (other : Option L) (upper : BitVec 64) :
    List (SelectList L) → BitVec 64 → List (Option L)
  | [], _ => []
  | list :: rest, curr =>
    (if selCompare sortTipe curr list.low < 0 then other else some list.label) ::
      if _ : 0 ≤ selCompare sortTipe curr upper then []
      else if 0 ≤ selCompare sortTipe curr list.high then
        jumpWalk sortTipe other upper rest (curr + 1)
      else
        jumpWalk sortTipe other upper (list :: rest) (curr + 1)
termination_by _ curr => (key sortTipe upper - key sortTipe curr).toNat
decreasing_by all_goals exact key_room sortTipe ‹_›

/-- The walk through the values of the list that `GenValuesForward` makes for the values and
`MakeScanTab` for the labels. -/
def walkForward (sortTipe : TypeDef) (upper : BitVec 64) :
    List (SelectList L) → BitVec 64 → List (BitVec 64 × L)
  | [], _ => []
  | list :: rest, curr =>
    (curr, list.label) ::
      if _ : 0 ≤ selCompare sortTipe curr upper then []
      else if 0 ≤ selCompare sortTipe curr list.high then
        match rest with
        | [] => []
        | next :: rest => walkForward sortTipe upper (next :: rest) next.low
      else
        walkForward sortTipe upper (list :: rest) (curr + 1)
termination_by list curr => (list.length, (key sortTipe upper - key sortTipe curr).toNat)
decreasing_by
  · exact Prod.Lex.left _ _ (by simp)
  · exact Prod.Lex.right _ (key_room sortTipe ‹_›)

/-- The walk of `GenValuesBackward`, where `list` is the entry of `curr` and those before it,
from the last to the first. -/
def walkBackward (sortTipe : TypeDef) (lower : BitVec 64) :
    List (SelectList L) → BitVec 64 → List (BitVec 64)
  | [], _ => []
  | list :: before, curr =>
    curr ::
      if _ : selCompare sortTipe curr lower ≤ 0 then []
      else if selCompare sortTipe curr list.low ≤ 0 then
        match before with
        | [] => []
        | prev :: before => walkBackward sortTipe lower (prev :: before) prev.high
      else
        walkBackward sortTipe lower (list :: before) (curr - 1)
termination_by list curr => (list.length, (key sortTipe curr - key sortTipe lower).toNat)
decreasing_by
  · exact Prod.Lex.left _ _ (by simp)
  · exact Prod.Lex.right _ (key_room_below sortTipe ‹_›)

/-! ### The tables -/

/-- A jump table: the number of entries that are allocated, and the label handles emitted. -/
structure JumpTable (L : Type) where
  size : UInt32
  cases : List (Option L)

def makeJmpTab (sortTipe : TypeDef) (s : SelectNode L) : JumpTable L :=
  { size := UInt32.ofNat (s.upper - s.lower + 1).toNat
    cases := jumpWalk sortTipe s.otherWise s.upper s.list s.lower }

/-- `SelIdx`: the offset of an entry, in the arithmetic of `TY_WORD`. -/
def selIdx (t : Target) (index : ℕ) : ℕ :=
  index * t.wordSize.toNat % 2 ^ (8 * t.wordSize.toNat)

/-- Where the code of `GenSelTable` sends the value `v`: `none` if there is no label at the place
it jumps through. -/
def genSelTable (t : Target) (sortTipe : TypeDef) (s : SelectNode L) (v : ℤ) : Option L :=
  let value : BitVec sortTipe.length.bits := BitVec.ofInt _ v
  let node := if s.lower ≠ 0 then value - bgIntegerSel s.lower sortTipe else value
  let tmp := s.upper - s.lower
  if s.otherWise.isSome ∧ ¬ node.ule (bgIntegerSel tmp sortTipe) then s.otherWise
  else ((makeJmpTab sortTipe s).cases[selIdx t node.toNat / t.wordSize.toNat]?).join

/-- `TY_WORD`. -/
def Target.tyWord (t : Target) : TypeDef := if t.is8086 then ⟨.two, false⟩ else ⟨.four, false⟩

/-- A scan table for values of `w` bits: the number of labels that are allocated, the values, the
labels, and the code pointers emitted for the labels and for the otherwise label.  A pointer is
`none` if what it is made from is no label handle. -/
structure ScanTable (L : Type) (w : ℕ) where
  size : UInt32
  values : List (BitVec w)
  labels : List L
  pointers : List (Option L)

def genValuesForward (sortTipe : TypeDef) (s : SelectNode L) (toSub : BitVec 64) (w : ℕ) :
    List (BitVec w) :=
  (walkForward sortTipe s.upper s.list s.lower).map fun p => (p.1 - toSub).setWidth w

/-- `GenValuesBackward` starts at the first entry that ends at `upper`. -/
def genValuesBackward (sortTipe : TypeDef) (s : SelectNode L) (toSub : BitVec 64) (w : ℕ) :
    List (BitVec w) :=
  let start := (s.list.take (s.list.findIdx (fun e => e.high == s.upper) + 1)).reverse
  (walkBackward sortTipe s.lower start s.upper).map fun curr => (curr - toSub).setWidth w

/-- What `MakeScanTab` subtracts from the values. -/
def scanBase (s : SelectNode L) (valueType realType : TypeDef) : BitVec 64 :=
  if valueType ≠ realType then s.lower else 0

/-- `MakeScanTab`.  `first` is what the memory allocated for `cases[0]` holds before the labels are
stored there: it stands in for a missing otherwise label. -/
def makeScanTab (t : Target) (first : Option L) (sortTipe : TypeDef) (s : SelectNode L)
    (valueType realType : TypeDef) : ScanTable L valueType.length.bits :=
  let toSub := scanBase s valueType realType
  let other := if s.otherWise.isNone then first else s.otherWise
  let labels := (walkForward sortTipe s.upper s.list s.lower).map Prod.snd
  { size := UInt32.ofNat s.numCases.toNat
    values :=
      if valueType = t.tyWord then genValuesForward sortTipe s toSub _
      else genValuesBackward sortTipe s toSub _
    labels := labels
    pointers :=
      if valueType = t.tyWord then labels.map some ++ [other] else other :: labels.map some }

/-! ### What the tables are for -/

/-- The values of the case ranges with their labels. -/
def casePairs (ranges : List (LabelSpan ℤ L)) : List (ℤ × L) :=
  ranges.flatMap fun c => (List.range (c.hi - c.lo + 1).toNat).map fun i : ℕ => (c.lo + i, c.label)

/-- A jump table is written inside the memory allocated for it, and sends every value of the type
to the label of its range, or to the otherwise label if it is in no range. -/
def JumpOk (tg : Target) (t : TypeDef) (ranges : List (LabelSpan ℤ L)) (other : Option L)
    (sortTipe : TypeDef) (s : SelectNode L) : Prop :=
  (makeJmpTab sortTipe s).cases.length = (makeJmpTab sortTipe s).size.toNat ∧
    ∀ v, InType t v → Routed ranges other v (genSelTable tg sortTipe s v)

/-- A scan table has one value and one label for each value of a range, the values from the last
to the first unless they have the length of a word, and no other labels than those of the
ranges and the otherwise label. -/
structure ScanOk (tg : Target) (ranges : List (LabelSpan ℤ L)) (other : Option L)
    (sortTipe : TypeDef) (s : SelectNode L) (valueType : TypeDef)
    (table : ScanTable L valueType.length.bits) : Prop where
  size : table.labels.length = table.size.toNat
  count : table.values.length = table.labels.length
  pairs : ((if valueType = tg.tyWord then table.values else table.values.reverse).zip
    table.labels).Perm ((casePairs ranges).map fun p =>
      ((pattern p.1 - scanBase s valueType sortTipe).setWidth _, p.2))
  once : table.values.Nodup
  pointers : ∀ l ∈ table.pointers, (∃ c ∈ ranges, l = some c.label) ∨ (l = other ∧ l.isSome)

/-- The generated table does what it is for, whatever the memory held that it was allocated in. -/
def TableOk (tg : Target) (t : TypeDef) (ranges : List (LabelSpan ℤ L)) (other : Option L)
    (kind : SelKind) (sortTipe : TypeDef) (s : SelectNode L) : Prop :=
  match kind with
  | .scan => ∀ first, let valueType := selType sortTipe (s.upper - s.lower)
      ScanOk tg ranges other sortTipe s valueType (makeScanTab tg first sortTipe s valueType sortTipe)
  | .jump => JumpOk tg t ranges other sortTipe s
  | .ifs => True

/-- The label of a value: that of the range it is in, or the otherwise label. -/
def caseLabel (ranges : List (LabelSpan ℤ L)) (other : Option L) (v : ℤ) : Option L :=
  match ranges.find? fun c => decide (c.Contains v) with
  | some c => some c.label
  | none => other

/-- No range crosses the end of the order of `sortTipe`. -/
def NoneCrosses (sortTipe : TypeDef) (ranges : List (LabelSpan ℤ L)) : Prop :=
  ∀ c ∈ ranges, selCompare sortTipe (pattern c.lo) (pattern c.hi) ≤ 0

/-- How many entries of a jump table an offset of `TY_WORD` reaches. -/
def Target.reach (t : Target) : ℕ := 2 ^ (8 * t.wordSize.toNat) / t.wordSize.toNat

/-- When a table does what it is for.  A value whose entry is out of the reach of an offset needs
the label of the value whose entry is used for it. -/
def TableFits (tg : Target) (t : TypeDef) (ranges : List (LabelSpan ℤ L)) (other : Option L)
    (kind : SelKind) (sortTipe : TypeDef) (lower upper : BitVec 64) : Prop :=
  match kind with
  | .scan => NoneCrosses sortTipe ranges ∧ other.isSome ∧
      (ranges.map fun c => c.hi - c.lo + 1).sum < 2 ^ 32
  | .jump => NoneCrosses sortTipe ranges ∧ (upper - lower).toNat + 1 < 2 ^ 32 ∧
      ∀ i ≤ (upper - lower).toNat, Routed ranges other (key t (lower + BitVec.ofNat 64 i))
        (caseLabel ranges other (key t (lower + BitVec.ofNat 64 (i % tg.reach))))
  | .ifs => True

/-! ### Segments of the order -/

/-- The values from `a` up to `b`. -/
def segment (a b : BitVec 64) : List (BitVec 64) :=
  (List.range ((b - a).toNat + 1)).map fun i => a + BitVec.ofNat 64 i

theorem segment_self (a : BitVec 64) : segment a a = [a] := by simp [segment]

theorem toNat_sub_succ {a b : BitVec 64} (h : a ≠ b) :
    (b - a).toNat = (b - (a + 1)).toNat + 1 := by
  bv_omega

theorem segment_cons {a b : BitVec 64} (h : a ≠ b) : segment a b = a :: segment (a + 1) b := by
  unfold segment
  rw [toNat_sub_succ h, List.range_succ_eq_map]
  simp only [List.map_cons, List.map_map, List.cons.injEq]
  refine ⟨by simp, List.map_congr_left fun i _ => ?_⟩
  rw [Function.comp_apply, Nat.succ_eq_one_add, BitVec.ofNat_add, ← BitVec.add_assoc]
  rfl

theorem segment_concat {a b : BitVec 64} (h : a ≠ b) : segment a b = segment a (b - 1) ++ [b] := by
  have hlen : (b - a).toNat = (b - 1 - a).toNat + 1 := by bv_omega
  have hlast : a + BitVec.ofNat 64 ((b - 1 - a).toNat + 1) = b := by bv_omega
  unfold segment
  rw [hlen, List.range_succ, List.map_append, List.map_singleton, hlast]

theorem length_segment (a b : BitVec 64) : (segment a b).length = (b - a).toNat + 1 := by
  simp [segment]

theorem getElem?_segment {a b : BitVec 64} {i : ℕ} (hi : i ≤ (b - a).toNat) :
    (segment a b)[i]? = some (a + BitVec.ofNat 64 i) := by
  unfold segment
  rw [List.getElem?_map, List.getElem?_range (by omega), Option.map_some]

/-- A range that crosses the end of the order `s` has the values behind its start and those before
its end. -/
theorem between_of_crossing (t s : TypeDef) {a b x : BitVec 64} (ht : key t a ≤ key t b)
    (hs : key s b < key s a) (hx : key s a ≤ key s x ∨ key s x ≤ key s b) :
    key t a ≤ key t x ∧ key t x ≤ key t b := by
  have ha := a.isLt
  have hb := b.isLt
  have hxl := x.isLt
  unfold key at *
  simp only [BitVec.toInt_eq_toNat_cond] at *
  split_ifs at * <;> omega

/-- The distance of two values in the order. -/
theorem toNat_sub_of_le (s : TypeDef) {a b : BitVec 64} (h : key s a ≤ key s b) :
    ((b - a).toNat : ℤ) = key s b - key s a := by
  obtain ⟨least, hall⟩ := key_bounds s
  have ha := hall a
  have hb := hall b
  rw [toNat_sub_eq_key s b a]
  exact Int.emod_eq_of_lt (by omega) (by omega)

theorem key_add (s : TypeDef) {a b : BitVec 64} (h : key s a ≤ key s b) {i : ℕ}
    (hi : i ≤ (b - a).toNat) : key s (a + BitVec.ofNat 64 i) = key s a + i := by
  obtain ⟨least, hall⟩ := key_bounds s
  have ha := hall a
  have hb := hall b
  have hd := toNat_sub_of_le s h
  have hnext := hall (a + BitVec.ofNat 64 i)
  have hdist := toNat_sub_eq_key s (a + BitVec.ofNat 64 i) a
  rw [BitVec.add_comm, BitVec.add_sub_cancel, BitVec.add_comm, BitVec.toNat_ofNat] at hdist
  omega

theorem mem_segment (s : TypeDef) {a b x : BitVec 64} (h : key s a ≤ key s b) :
    x ∈ segment a b ↔ key s a ≤ key s x ∧ key s x ≤ key s b := by
  have hd := toNat_sub_of_le s h
  unfold segment
  simp only [List.mem_map, List.mem_range]
  constructor
  · rintro ⟨i, hi, rfl⟩
    rw [key_add s h (by omega)]
    omega
  · rintro ⟨hax, hxb⟩
    have hdx := toNat_sub_of_le s hax
    refine ⟨(x - a).toNat, by omega, ?_⟩
    rw [BitVec.ofNat_toNat, BitVec.setWidth_eq]
    bv_omega

/-- From the end of a part of the order back to a value before it. -/
theorem up_induction {s : TypeDef} {b : BitVec 64} {P : ∀ a, key s a ≤ key s b → Prop}
    (last : P b le_rfl)
    (step : ∀ a (hlt : key s a < key s b) (hnext : key s (a + 1) ≤ key s b), a ≠ b →
      P (a + 1) hnext → P a hlt.le)
    (a : BitVec 64) (ha : key s a ≤ key s b) : P a ha := by
  induction h : (b - a).toNat generalizing a with
  | zero =>
      obtain rfl : a = b := by bv_omega
      exact last
  | succ n ih =>
      have hne : a ≠ b := by
        rintro rfl
        simp at h
      have hlt : key s a < key s b := lt_of_le_of_ne ha fun heq => hne (key_inj s heq)
      have hnext : key s (a + 1) ≤ key s b := by
        rw [key_add_one s hlt]
        omega
      exact step a hlt hnext hne (ih (a + 1) hnext (by have := toNat_sub_succ hne; omega))

/-- From the begin of a part of the order on to a value behind it. -/
theorem down_induction {s : TypeDef} {a : BitVec 64} {P : ∀ b, key s a ≤ key s b → Prop}
    (first : P a le_rfl)
    (step : ∀ b (hlt : key s a < key s b) (hprev : key s a ≤ key s (b - 1)), a ≠ b →
      P (b - 1) hprev → P b hlt.le)
    (b : BitVec 64) (hb : key s a ≤ key s b) : P b hb := by
  induction h : (b - a).toNat generalizing b with
  | zero =>
      obtain rfl : b = a := by bv_omega
      exact first
  | succ n ih =>
      have hne : a ≠ b := by
        rintro rfl
        simp at h
      have hlt : key s a < key s b := lt_of_le_of_ne hb fun heq => hne (key_inj s heq)
      have hprev : key s a ≤ key s (b - 1) := by
        rw [key_sub_one s hlt]
        omega
      exact step b hlt hprev hne (ih (b - 1) hprev (by bv_omega))

/-- The values up to `b` and those after it. -/
theorem segment_append (s : TypeDef) {a b c : BitVec 64} (hab : key s a ≤ key s b)
    (hbc : key s b < key s c) : segment a b ++ segment (b + 1) c = segment a c := by
  induction a, hab using up_induction with
  | last =>
      have hne : b ≠ c := by
        rintro rfl
        exact lt_irrefl _ hbc
      rw [segment_self, List.singleton_append, segment_cons hne]
  | step a hlt _ hne ih =>
      have hnc : a ≠ c := by
        rintro rfl
        omega
      rw [segment_cons hne, segment_cons hnc, List.cons_append, ih]

/-! ### What the loops emit -/

/-- The values of the ranges of a list with their labels. -/
def pairs (l : List (SelectList L)) : List (BitVec 64 × L) :=
  l.flatMap fun e => (segment e.low e.high).map fun x => (x, e.label)

/-- A list in the order of `s`: each range has a value, and ends before the next ones begin. -/
structure InOrder (s : TypeDef) (l : List (SelectList L)) : Prop where
  ordered : ∀ e ∈ l, Ordered s e
  separated : Separated (l.map (toSpan s))

theorem InOrder.tail {s : TypeDef} {e : SelectList L} {l : List (SelectList L)}
    (h : InOrder s (e :: l)) : InOrder s l :=
  ⟨fun a ha => h.ordered a (List.mem_cons_of_mem _ ha), (List.pairwise_cons.mp h.separated).2⟩

theorem InOrder.first {s : TypeDef} {e : SelectList L} {l : List (SelectList L)}
    (h : InOrder s (e :: l)) {a : SelectList L} (ha : a ∈ l) : key s e.high < key s a.low :=
  ((List.pairwise_cons.mp h.separated).1 _ (List.mem_map_of_mem ha)).2
    (h.ordered e List.mem_cons_self)

/-- A range and one that continues it, as one range. -/
theorem InOrder.join {s : TypeDef} {e next : SelectList L} {rest : List (SelectList L)}
    (h : InOrder s (e :: next :: rest)) (hj : e.high + 1 = next.low) (count : BitVec 64) :
    InOrder s ({ e with high := next.high, count := count } :: rest) := by
  refine ⟨fun a ha => ?_, separated_join s h.separated hj count⟩
  rcases List.mem_cons.mp ha with rfl | ha
  · exact (h.ordered e List.mem_cons_self).trans
      ((h.first List.mem_cons_self).le.trans (h.tail.ordered next List.mem_cons_self))
  · exact h.tail.tail.ordered a ha

/-- The last range ends behind the others. -/
theorem InOrder.le_last {s : TypeDef} {l : List (SelectList L)} (h : InOrder s l)
    {last : SelectList L} (hlast : l.getLast? = some last) {a : SelectList L} (ha : a ∈ l) :
    key s a.high ≤ key s last.high := by
  induction l with
  | nil => cases ha
  | cons e l ih =>
      rcases List.mem_cons.mp ha with rfl | ha
      · rcases List.mem_cons.mp (List.mem_of_getLast? hlast) with rfl | hl
        · exact le_rfl
        · exact (h.first hl).le.trans (h.tail.ordered _ hl)
      · refine ih h.tail ?_ ha
        rwa [List.getLast?_cons_of_ne_nil (List.ne_nil_of_mem ha)] at hlast

theorem walkForward_stop {s : TypeDef} {upper curr : BitVec 64} (e : SelectList L)
    (rest : List (SelectList L)) (h : 0 ≤ selCompare s curr upper) :
    walkForward s upper (e :: rest) curr = [(curr, e.label)] := by
  cases rest <;> rw [walkForward, dif_pos h]

theorem walkForward_step {s : TypeDef} {upper curr : BitVec 64} {e : SelectList L}
    (rest : List (SelectList L)) (h : ¬ 0 ≤ selCompare s curr upper)
    (he : ¬ 0 ≤ selCompare s curr e.high) : walkForward s upper (e :: rest) curr =
      (curr, e.label) :: walkForward s upper (e :: rest) (curr + 1) := by
  cases rest <;> rw [walkForward, dif_neg h, if_neg he]

theorem walkBackward_stop {s : TypeDef} {lower curr : BitVec 64} (e : SelectList L)
    (before : List (SelectList L)) (h : selCompare s curr lower ≤ 0) :
    walkBackward s lower (e :: before) curr = [curr] := by
  cases before <;> rw [walkBackward, dif_pos h]

theorem walkBackward_step {s : TypeDef} {lower curr : BitVec 64} {e : SelectList L}
    (before : List (SelectList L)) (h : ¬ selCompare s curr lower ≤ 0)
    (he : ¬ selCompare s curr e.low ≤ 0) : walkBackward s lower (e :: before) curr =
      curr :: walkBackward s lower (e :: before) (curr - 1) := by
  cases before <;> rw [walkBackward, dif_neg h, if_neg he]

/-- In the last range the walk goes on to its end. -/
theorem walkForward_last (s : TypeDef) (e : SelectList L) (rest : List (SelectList L))
    {curr : BitVec 64} (hc : key s curr ≤ key s e.high) :
    walkForward s e.high (e :: rest) curr = (segment curr e.high).map fun x => (x, e.label) := by
  induction curr, hc using up_induction with
  | last =>
      have hstop : 0 ≤ selCompare s e.high e.high := by
        rw [← not_lt, selCompare_neg_iff]
        exact lt_irrefl _
      rw [walkForward_stop e rest hstop, segment_self]
      rfl
  | step curr hlt _ hne ih =>
      have hgo : ¬ 0 ≤ selCompare s curr e.high := by
        rwa [not_le, selCompare_neg_iff]
      rw [walkForward_step rest hgo hgo, ih, segment_cons hne]
      rfl

/-- In another range it goes on to its end, and then to the next range. -/
theorem walkForward_next (s : TypeDef) {upper : BitVec 64} (e next : SelectList L)
    (rest : List (SelectList L)) (hu : key s e.high < key s upper) {curr : BitVec 64}
    (hc : key s curr ≤ key s e.high) :
    walkForward s upper (e :: next :: rest) curr =
      ((segment curr e.high).map fun x => (x, e.label)) ++
        walkForward s upper (next :: rest) next.low := by
  have hbelow : ∀ {x}, key s x ≤ key s e.high → ¬ 0 ≤ selCompare s x upper := fun hx => by
    rw [not_le, selCompare_neg_iff]
    omega
  induction curr, hc using up_induction with
  | last =>
      have hend : 0 ≤ selCompare s e.high e.high := by
        rw [← not_lt, selCompare_neg_iff]
        exact lt_irrefl _
      rw [walkForward, dif_neg (hbelow le_rfl), if_pos hend, segment_self]
      rfl
  | step curr hlt _ hne ih =>
      have hgo : ¬ 0 ≤ selCompare s curr e.high := by
        rwa [not_le, selCompare_neg_iff]
      rw [walkForward_step _ (hbelow hlt.le) hgo, ih, segment_cons hne]
      rfl

/-- The walk forwards visits every value of every range, from the first to the last. -/
theorem walkForward_eq (s : TypeDef) {e last : SelectList L} {rest : List (SelectList L)}
    (h : InOrder s (e :: rest)) (hlast : (e :: rest).getLast? = some last) :
    walkForward s last.high (e :: rest) e.low = pairs (e :: rest) := by
  induction rest generalizing e with
  | nil =>
      obtain rfl : e = last := by simpa using hlast
      rw [walkForward_last s e [] (h.ordered e List.mem_cons_self)]
      simp [pairs]
  | cons next rest ih =>
      rw [List.getLast?_cons_cons] at hlast
      have hlt : key s e.high < key s last.high :=
        (h.first List.mem_cons_self).trans_le
          ((h.tail.ordered next List.mem_cons_self).trans (h.tail.le_last hlast List.mem_cons_self))
      rw [walkForward_next s e next rest hlt (h.ordered e List.mem_cons_self), ih h.tail hlast]
      rfl

/-- In the first range the walk backwards goes on to its begin. -/
theorem walkBackward_first (s : TypeDef) (e : SelectList L) (before : List (SelectList L))
    {curr : BitVec 64} (hc : key s e.low ≤ key s curr) :
    walkBackward s e.low (e :: before) curr = (segment e.low curr).reverse := by
  induction curr, hc using down_induction with
  | first =>
      have hstop : selCompare s e.low e.low ≤ 0 := by
        rw [selCompare_nonpos_iff]
      rw [walkBackward_stop e before hstop, segment_self]
      rfl
  | step curr hlt _ hne ih =>
      have hgo : ¬ selCompare s curr e.low ≤ 0 := by
        rwa [selCompare_nonpos_iff, not_le]
      rw [walkBackward_step before hgo hgo, ih, segment_concat hne, List.reverse_append]
      rfl

theorem walkBackward_prev (s : TypeDef) {lower : BitVec 64} (e prev : SelectList L)
    (before : List (SelectList L)) (hl : key s lower < key s e.low) {curr : BitVec 64}
    (hc : key s e.low ≤ key s curr) :
    walkBackward s lower (e :: prev :: before) curr =
      (segment e.low curr).reverse ++ walkBackward s lower (prev :: before) prev.high := by
  have habove : ∀ {x}, key s e.low ≤ key s x → ¬ selCompare s x lower ≤ 0 := fun hx => by
    rw [selCompare_nonpos_iff]
    omega
  induction curr, hc using down_induction with
  | first =>
      have hend : selCompare s e.low e.low ≤ 0 := by
        rw [selCompare_nonpos_iff]
      rw [walkBackward, dif_neg (habove le_rfl), if_pos hend, segment_self]
      rfl
  | step curr hlt _ hne ih =>
      have hgo : ¬ selCompare s curr e.low ≤ 0 := by
        rwa [selCompare_nonpos_iff, not_le]
      rw [walkBackward_step _ (habove hlt.le) hgo, ih, segment_concat hne, List.reverse_append]
      rfl

theorem pairs_append (a b : List (SelectList L)) : pairs (a ++ b) = pairs a ++ pairs b := by
  simp [pairs]

/-- The walk backwards visits the same values from the last to the first. -/
theorem walkBackward_eq (s : TypeDef) {first last : SelectList L} {before : List (SelectList L)}
    (h : InOrder s (last :: before).reverse) (hfirst : (last :: before).getLast? = some first) :
    walkBackward s first.low (last :: before) last.high =
      ((pairs (last :: before).reverse).map Prod.fst).reverse := by
  induction before generalizing last with
  | nil =>
      obtain rfl : last = first := by simpa using hfirst
      rw [walkBackward_first s last [] (h.ordered last (by simp))]
      simp [pairs, Function.comp_def]
  | cons prev before ih =>
      rw [List.getLast?_cons_cons] at hfirst
      rw [List.reverse_cons] at h
      have hinit : InOrder s (prev :: before).reverse :=
        ⟨fun a ha => h.ordered a (List.mem_append_left _ ha), by
          have := h.separated
          rw [List.map_append] at this
          exact (List.pairwise_append.mp this).1⟩
      have hmem : first ∈ (prev :: before).reverse := by
        rw [List.mem_reverse]
        exact List.mem_of_getLast? hfirst
      have hlt : key s first.low < key s last.low := by
        have := h.separated
        rw [List.map_append] at this
        exact ((List.pairwise_append.mp this).2.2 _ (List.mem_map_of_mem hmem) _
          (List.mem_map_of_mem (List.mem_singleton.mpr rfl))).1
      rw [walkBackward_prev s last prev before hlt (h.ordered last (by simp)), ih hinit hfirst,
        show (last :: prev :: before).reverse = (prev :: before).reverse ++ [last] from List.reverse_cons,
        pairs_append, List.map_append, List.reverse_append]
      simp [pairs, Function.comp_def]

/-- The label of a value in a list: that of the entry it is in, or the otherwise label. -/
def labelAt (s : TypeDef) (other : Option L) (l : List (SelectList L)) (x : BitVec 64) :
    Option L :=
  match l.find? fun e => decide ((toSpan s e).Contains (key s x)) with
  | some e => some e.label
  | none => other

theorem labelAt_of_contains {s : TypeDef} (other : Option L) {e : SelectList L}
    (rest : List (SelectList L)) {x : BitVec 64} (h : (toSpan s e).Contains (key s x)) :
    labelAt s other (e :: rest) x = some e.label := by
  unfold labelAt
  rw [List.find?_cons_of_pos (by simpa using h)]

theorem labelAt_of_not_contains {s : TypeDef} (other : Option L) {e : SelectList L}
    (rest : List (SelectList L)) {x : BitVec 64} (h : ¬ (toSpan s e).Contains (key s x)) :
    labelAt s other (e :: rest) x = labelAt s other rest x := by
  unfold labelAt
  rw [List.find?_cons_of_neg (by simpa using h)]

theorem labelAt_eq_other {s : TypeDef} (other : Option L) {l : List (SelectList L)} {x : BitVec 64}
    (h : ∀ e ∈ l, ¬ (toSpan s e).Contains (key s x)) : labelAt s other l x = other := by
  unfold labelAt
  rw [List.find?_eq_none.mpr fun e he => by simpa using h e he]

/-- The entry for `curr`, which is not behind the first range. -/
theorem jumpWalk_head {s : TypeDef} (other : Option L) {e : SelectList L}
    {rest : List (SelectList L)} {curr : BitVec 64} (h : InOrder s (e :: rest))
    (hc : key s curr ≤ key s e.high) :
    (if selCompare s curr e.low < 0 then other else some e.label) =
      labelAt s other (e :: rest) curr := by
  split_ifs with hlow
  · rw [selCompare_neg_iff] at hlow
    refine (labelAt_eq_other other fun a ha hca => ?_).symm
    have hle : key s e.low ≤ key s a.low := by
      rcases List.mem_cons.mp ha with rfl | ha
      · exact le_rfl
      · exact (h.ordered e List.mem_cons_self).trans (h.first ha).le
    have := hca.1
    simp only [toSpan] at this
    omega
  · rw [selCompare_neg_iff, not_lt] at hlow
    exact (labelAt_of_contains other rest ⟨hlow, hc⟩).symm

/-- The entries of the jump table, from the value `curr` on. -/
theorem jumpWalk_eq (s : TypeDef) (other : Option L) {last : SelectList L} {curr : BitVec 64}
    (hc : key s curr ≤ key s last.high) : ∀ {l : List (SelectList L)}, InOrder s l →
    l.getLast? = some last → (∀ e ∈ l, key s curr ≤ key s e.high) →
    jumpWalk s other last.high l curr = (segment curr last.high).map (labelAt s other l) := by
  induction curr, hc using up_induction with
  | last =>
      intro l hl hlast hends
      obtain ⟨e, rest, rfl⟩ :=
        List.exists_cons_of_ne_nil (List.ne_nil_of_mem (List.mem_of_getLast? hlast))
      have hstop : 0 ≤ selCompare s last.high last.high := by
        rw [← not_lt, selCompare_neg_iff]
        exact lt_irrefl _
      rw [jumpWalk, dif_pos hstop, segment_self,
        jumpWalk_head other hl (hends e List.mem_cons_self)]
      rfl
  | step curr hlt hc' hne ih =>
      intro l hl hlast hends
      obtain ⟨e, rest, rfl⟩ :=
        List.exists_cons_of_ne_nil (List.ne_nil_of_mem (List.mem_of_getLast? hlast))
      have hgo : ¬ 0 ≤ selCompare s curr last.high := by
        rwa [not_le, selCompare_neg_iff]
      have he := hends e List.mem_cons_self
      rw [jumpWalk, dif_neg hgo, segment_cons hne, List.map_cons, jumpWalk_head other hl he]
      congr 1
      split_ifs with hend
      · -- `curr` is the end of the first range, which has no value of the segment
        rw [← not_lt, selCompare_neg_iff, not_lt] at hend
        obtain rfl : curr = e.high := key_inj s (le_antisymm he hend)
        have hrest : rest.getLast? = some last := by
          cases rest with
          | nil =>
              obtain rfl : e = last := by simpa using hlast
              exact absurd rfl hne
          | cons next rest => rwa [List.getLast?_cons_cons] at hlast
        rw [ih hl.tail hrest fun a ha => by
          rw [key_add_one s hlt]
          have h1 := hl.first ha
          have h2 := hl.tail.ordered a ha
          unfold Ordered at h2
          omega]
        refine List.map_congr_left fun x hx => (labelAt_of_not_contains other rest ?_).symm
        rw [mem_segment s hc', key_add_one s hlt] at hx
        rw [toSpan_contains]
        omega
      · rw [not_le, selCompare_neg_iff] at hend
        refine ih hl hlast fun a ha => ?_
        rw [key_add_one s hlt]
        rcases List.mem_cons.mp ha with rfl | ha
        · omega
        · have h1 := hl.first ha
          have h2 := hl.tail.ordered a ha
          unfold Ordered at h2
          omega

/-! ### The index of a value -/

theorem selIdx_div (tg : Target) (i : ℕ) : selIdx tg i / tg.wordSize.toNat = i % tg.reach := by
  unfold selIdx Target.reach Target.wordSize
  split_ifs
  · rw [show (2 : UInt32).toNat = 2 from rfl]
    omega
  · rw [show (4 : UInt32).toNat = 4 from rfl]
    omega

theorem sub_setWidth (s : TypeDef) (a b : BitVec 64) :
    (a - b).setWidth s.length.bits = a.setWidth _ - b.setWidth _ := by
  have hle := s.length.bits_le
  rw [BitVec.sub_eq_add_neg, BitVec.setWidth_add _ _ hle, BitVec.setWidth_neg_of_le hle,
    ← BitVec.sub_eq_add_neg]

/-- The index is the distance from the lower bound, at the width of the type. -/
theorem genSelTable_eq (tg : Target) (s : TypeDef) (n : SelectNode L) (v : ℤ) :
    genSelTable tg s n v =
      if n.otherWise.isSome ∧ ¬ (pattern v - n.lower).toNat % 2 ^ s.length.bits ≤
        (n.upper - n.lower).toNat % 2 ^ s.length.bits then n.otherWise
      else ((makeJmpTab s n).cases[(pattern v - n.lower).toNat % 2 ^ s.length.bits % tg.reach]?).join := by
  have hnode : (if n.lower ≠ 0 then BitVec.ofInt s.length.bits v - bgIntegerSel n.lower s
      else BitVec.ofInt s.length.bits v) = (pattern v - n.lower).setWidth _ := by
    rw [ofInt_eq_setWidth, bgIntegerSel_eq, sub_setWidth]
    split_ifs with h
    · rfl
    · rw [not_not.mp h]
      simp
  unfold genSelTable
  dsimp only
  rw [hnode]
  simp only [bgIntegerSel_eq, selIdx_div, BitVec.ule_eq_decide, decide_eq_true_iff,
    BitVec.toNat_setWidth]

/-- The unsigned comparison of the index is true for the values between the bounds. -/
theorem index_le_iff {t s : TypeDef} (hlen : s.length = t.length) {x a b : BitVec 64}
    (hx : InType t (key t x)) (ha : InType t (key t a)) (hb : InType t (key t b))
    (hab : key s a ≤ key s b) (hspan : (b - a).toNat + 1 < 2 ^ 32) :
    (x - a).toNat % 2 ^ s.length.bits ≤ (b - a).toNat % 2 ^ s.length.bits ↔
      key s a ≤ key s x ∧ key s x ≤ key s b := by
  rw [between_iff_sub s hab, hlen]
  obtain ⟨least, -, -, hin⟩ := inType_bounds t
  rw [hin] at hx ha hb
  have hxa := toNat_sub_eq_key t x a
  have hba := toNat_sub_eq_key t b a
  generalize (x - a).toNat = i at hxa ⊢
  generalize (b - a).toNat = j at hba hspan ⊢
  generalize key t x = kx at *
  generalize key t a = ka at *
  generalize key t b = kb at *
  generalize t.length = len at *
  cases len <;> dsimp only [IntLength.bits] at * <;> omega

/-- Different values of the type have different indices. -/
theorem index_ne_zero {t : TypeDef} {a b : BitVec 64} (ha : InType t (key t a))
    (hb : InType t (key t b)) (hab : a ≠ b) : (b - a).toNat % 2 ^ t.length.bits ≠ 0 := by
  obtain ⟨least, -, -, hin⟩ := inType_bounds t
  rw [hin] at ha hb
  have hba := toNat_sub_eq_key t b a
  have hne := mt (key_inj t) hab
  generalize (b - a).toNat = j at hba ⊢
  generalize t.length = len at *
  cases len <;> dsimp only [IntLength.bits] at * <;> omega

/-- The entries of a scan table have the width of the type, or one that all distances have. -/
theorem selType_cases (s : TypeDef) (d : BitVec 64) :
    (selType s d).length = s.length ∨ d.toNat < 2 ^ (selType s d).length.bits := by
  have hd := d.isLt
  unfold selType
  dsimp only
  split_ifs with hs <;> simp only [true_or, IntLength.bits] <;> right <;> omega

theorem dvd_of_setWidth_eq (len : IntLength) {x y b : BitVec 64}
    (h : (x - b).setWidth len.bits = (y - b).setWidth len.bits) :
    (y - x).toNat % 2 ^ len.bits = 0 := by
  have hx := x.isLt
  have hy := y.isLt
  have hb := b.isLt
  rw [← BitVec.toNat_inj] at h
  cases len <;>
    simp only [IntLength.bits, BitVec.toNat_setWidth, BitVec.toNat_sub] at h ⊢ <;> omega

/-- What lies between the bounds is of the type, and its distance is the index. -/
theorem inType_of_between {t s : TypeDef} (hlen : s.length = t.length) {a b : BitVec 64}
    (ha : InType t (key t a)) (hb : InType t (key t b)) (hspan : (b - a).toNat + 1 < 2 ^ 32) {i : ℕ}
    (hi : i ≤ (b - a).toNat) :
    InType t (key t (a + BitVec.ofNat 64 i)) ∧ i < 2 ^ s.length.bits := by
  rw [hlen]
  have hba := toNat_sub_eq_key t b a
  by_cases hle : key t a ≤ key t b
  · obtain ⟨least, -, -, hin⟩ := inType_bounds t
    rw [hin] at ha hb ⊢
    rw [key_add t hle hi]
    generalize (b - a).toNat = j at hba hi
    generalize t.length = len at *
    cases len <;> dsimp only [IntLength.bits] at * <;> omega
  · -- the distance wraps around, so that all values are of the type
    have height : t.length = .eight := by
      obtain ⟨least, -, -, hin⟩ := inType_bounds t
      rw [hin] at ha hb
      generalize t.length = len at *
      cases len <;> first | rfl | (dsimp only [IntLength.bits] at *; omega)
    have hlt := (a + BitVec.ofNat 64 i).isLt
    rw [height]
    refine ⟨?_, by dsimp only [IntLength.bits]; omega⟩
    unfold InType key
    rw [height]
    split_ifs
    · exact ⟨BitVec.le_toInt _, BitVec.toInt_lt⟩
    · exact ⟨by omega, by dsimp only [IntLength.bits]; omega⟩

/-! ### The merged list -/

section merge

variable [DecidableEq L]

/-- The merged list has the values and labels of the list. -/
theorem pairs_mergeFrom (s : TypeDef) : ∀ (e : SelectList L) (rest : List (SelectList L)),
    InOrder s (e :: rest) → pairs (mergeFrom e rest) = pairs (e :: rest)
  | e, [], _ => by rw [mergeFrom]
  | e, next :: rest, h => by
      rw [mergeFrom]
      split_ifs with hj
      · rw [pairs_mergeFrom s _ rest (h.join hj.1 _)]
        have hseg := segment_append s (h.ordered e List.mem_cons_self)
          ((h.first List.mem_cons_self).trans_le (h.tail.ordered next List.mem_cons_self))
        simp only [pairs, List.flatMap_cons, ← List.append_assoc, ← hseg, hj.1, List.map_append, hj.2]
      · rw [pairs, List.flatMap_cons, pairs, List.flatMap_cons]
        congr 1
        exact pairs_mergeFrom s next rest h.tail

theorem InOrder.merge {s : TypeDef} : ∀ {e : SelectList L} {rest : List (SelectList L)},
    InOrder s (e :: rest) → InOrder s (mergeFrom e rest)
  | e, [], h => by rwa [mergeFrom]
  | e, next :: rest, h => by
      rw [mergeFrom]
      split_ifs with hj
      · exact (h.join hj.1 _).merge
      · have hrest := h.tail.merge
        refine ⟨fun a ha => ?_, ?_⟩
        · rcases List.mem_cons.mp ha with rfl | ha
          · exact h.ordered a List.mem_cons_self
          · exact hrest.ordered a ha
        · have := mergeFrom_separated s e (next :: rest) h.separated
          rwa [mergeFrom, if_neg hj] at this

theorem mergeFrom_head : ∀ (e : SelectList L) (rest : List (SelectList L)),
    ∃ e' rest', mergeFrom e rest = e' :: rest' ∧ e'.low = e.low
  | e, [] => ⟨e, [], by rw [mergeFrom], rfl⟩
  | e, next :: rest => by
      rw [mergeFrom]
      split_ifs with hj
      · obtain ⟨e', rest', h, hlow⟩ := mergeFrom_head { e with high := next.high, count := _ } rest
        exact ⟨e', rest', h, hlow⟩
      · exact ⟨e, _, rfl, rfl⟩

theorem mergeFrom_last : ∀ (e : SelectList L) (rest : List (SelectList L)),
    (mergeFrom e rest).getLast?.map SelectList.high = (e :: rest).getLast?.map SelectList.high
  | e, [] => by rw [mergeFrom]
  | e, next :: rest => by
      rw [mergeFrom]
      split_ifs with hj
      · rw [mergeFrom_last, List.getLast?_cons_cons]
        cases rest <;> simp [List.getLast?_cons_cons]
      · rw [List.getLast?_cons_of_ne_nil (mergeFrom_ne_nil next rest), mergeFrom_last,
          List.getLast?_cons_cons]

end merge

/-! ### The node of a table -/

/-- The labels of a list in order do not depend on how it is cut into ranges. -/
theorem labelAt_of_mem {s : TypeDef} (other : Option L) {l : List (SelectList L)}
    (h : InOrder s l) {e : SelectList L} (he : e ∈ l) {x : BitVec 64}
    (hx : (toSpan s e).Contains (key s x)) : labelAt s other l x = some e.label := by
  induction l with
  | nil => cases he
  | cons a l ih =>
      rcases List.mem_cons.mp he with rfl | he
      · exact labelAt_of_contains other l hx
      · rw [labelAt_of_not_contains other l, ih h.tail he]
        intro ha
        have := h.first he
        rw [toSpan_contains] at hx ha
        omega

theorem mem_pairs {s : TypeDef} {l : List (SelectList L)} (h : InOrder s l) {x : BitVec 64}
    {label : L} : (x, label) ∈ pairs l ↔
      ∃ e ∈ l, (toSpan s e).Contains (key s x) ∧ e.label = label := by
  unfold pairs
  rw [List.mem_flatMap]
  constructor
  · rintro ⟨e, he, hx⟩
    obtain ⟨y, hy, heq⟩ := List.mem_map.mp hx
    obtain ⟨rfl, rfl⟩ := Prod.mk.inj heq
    exact ⟨e, he, (mem_segment s (h.ordered e he)).mp hy, rfl⟩
  · rintro ⟨e, he, hx, rfl⟩
    exact ⟨e, he, List.mem_map_of_mem ((mem_segment s (h.ordered e he)).mpr hx)⟩

theorem mem_casePairs {ranges : List (LabelSpan ℤ L)} {v : ℤ} {label : L} :
    (v, label) ∈ casePairs ranges ↔ ∃ c ∈ ranges, c.Contains v ∧ c.label = label := by
  unfold casePairs LabelSpan.Contains
  simp only [List.mem_flatMap, List.mem_map, List.mem_range, Prod.mk.injEq]
  constructor
  · rintro ⟨c, hc, i, hi, rfl, rfl⟩
    exact ⟨c, hc, by omega, rfl⟩
  · rintro ⟨c, hc, hv, rfl⟩
    exact ⟨c, hc, (v - c.lo).toNat, by omega, by omega, rfl⟩

theorem length_casePairs {ranges : List (LabelSpan ℤ L)} (h : ∀ c ∈ ranges, c.lo ≤ c.hi) :
    ((casePairs ranges).length : ℤ) = (ranges.map fun c => c.hi - c.lo + 1).sum := by
  unfold casePairs
  induction ranges with
  | nil => rfl
  | cons c ranges ih =>
      have hc := h c List.mem_cons_self
      rw [List.flatMap_cons, List.length_append, List.map_cons, List.sum_cons, Nat.cast_add,
        ih fun c hc => h c (List.mem_cons_of_mem _ hc), List.length_map, List.length_range]
      omega

/-- No value is in two ranges. -/
theorem casePairs_nodup {ranges : List (LabelSpan ℤ L)}
    (h : ranges.Pairwise fun a b => a.hi < b.lo ∨ b.hi < a.lo) :
    ((casePairs ranges).map Prod.fst).Nodup := by
  unfold casePairs
  rw [List.map_flatMap, List.nodup_flatMap]
  refine ⟨fun c _ => ?_, h.imp fun {a b} hab => ?_⟩
  · rw [List.map_map]
    refine List.nodup_range.map fun i j hij => ?_
    simp only [Function.comp_apply] at hij
    omega
  · intro v hva hvb
    simp only [List.map_map, List.mem_map, List.mem_range, Function.comp_apply] at hva hvb
    obtain ⟨i, hi, rfl⟩ := hva
    obtain ⟨j, hj, heq⟩ := hvb
    omega

theorem pattern_sub_one (v : ℤ) : pattern (v - 1) = pattern v - 1 := by
  have h : BitVec.ofInt 64 (-1) = -1 := by decide
  unfold pattern
  rw [Int.sub_eq_add_neg, BitVec.ofInt_add, h, ← BitVec.sub_eq_add_neg]

section node

variable {t : TypeDef} (cases : Cases t L)

theorem segment_pattern {c : LabelSpan ℤ L} (hc : c ∈ cases.ranges) :
    segment (pattern c.lo) (pattern c.hi) =
      (List.range (c.hi - c.lo + 1).toNat).map fun i : ℕ => pattern (c.lo + i) := by
  obtain ⟨hlo, hhi⟩ := cases.inType c hc
  have hle := cases.ordered c hc
  have hd := toNat_sub_of_le t (a := pattern c.lo) (b := pattern c.hi)
    (by rwa [key_pattern hlo, key_pattern hhi])
  rw [key_pattern hlo, key_pattern hhi] at hd
  unfold segment
  rw [show (pattern c.hi - pattern c.lo).toNat + 1 = (c.hi - c.lo + 1).toNat by omega]
  refine List.map_congr_left fun i _ => ?_
  unfold pattern
  rw [BitVec.ofInt_add, BitVec.ofInt_natCast]

theorem pairs_entries : pairs (cases.ranges.map entry) =
    (casePairs cases.ranges).map fun p => (pattern p.1, p.2) := by
  unfold pairs casePairs
  rw [List.flatMap_map, List.map_flatMap]
  refine List.flatMap_congr fun c hc => ?_
  rw [entry, newCase, segment_pattern cases hc]
  simp [Function.comp_def]

/-- The value of the type that a range contains. -/
theorem Cases.contains_inType {c : LabelSpan ℤ L} (hc : c ∈ cases.ranges) {v : ℤ}
    (hv : c.Contains v) : InType t v := by
  have hct := cases.inType c hc
  unfold InType at hct ⊢
  unfold LabelSpan.Contains at hv
  split_ifs at hct ⊢ <;> omega

/-- Ranges of the cases that share a value have the same label. -/
theorem Cases.caseLabel_of_contains (other : Option L) {c : LabelSpan ℤ L} (hc : c ∈ cases.ranges)
    {v : ℤ} (hv : c.Contains v) : caseLabel cases.ranges other v = some c.label := by
  unfold caseLabel
  cases hf : cases.ranges.find? fun c => decide (c.Contains v) with
  | none => exact absurd hv (by simpa using List.find?_eq_none.mp hf c hc)
  | some d =>
      have hd : d.Contains v := by simpa using List.find?_some hf
      have hmem := List.mem_of_find?_eq_some hf
      by_cases heq : c = d
      · rw [heq]
      · have : Std.Symm fun a b : LabelSpan ℤ L => a.hi < b.lo ∨ b.hi < a.lo := ⟨fun _ _ => Or.symm⟩
        have := cases.disjoint.forall hc hmem heq
        unfold LabelSpan.Contains at hv hd
        omega

theorem caseLabel_eq_other {ranges : List (LabelSpan ℤ L)} (other : Option L) {v : ℤ}
    (h : ∀ c ∈ ranges, ¬ c.Contains v) : caseLabel ranges other v = other := by
  unfold caseLabel
  rw [List.find?_eq_none.mpr fun c hc => by simpa using h c hc]

theorem foldl_bgSelRange_numCases (ranges : List (LabelSpan ℤ L)) (s : SelectNode L) :
    (ranges.foldl (fun s c => bgSelRange s (pattern c.lo) (pattern c.hi) c.label) s).numCases =
      s.numCases + pattern (ranges.map fun c => c.hi - c.lo + 1).sum := by
  induction ranges generalizing s with
  | nil => simp [pattern]
  | cons c ranges ih =>
      have hcount : pattern c.hi - pattern c.lo + 1 = pattern (c.hi - c.lo + 1) := by
        unfold pattern
        apply BitVec.eq_of_toNat_eq
        simp only [BitVec.toNat_add, BitVec.toNat_sub, BitVec.toNat_ofInt]
        have h1 : (1 : BitVec 64).toNat = 1 := rfl
        omega
      rw [List.foldl_cons, ih, List.map_cons, List.sum_cons]
      simp only [bgSelRange, newCase, hcount]
      unfold pattern
      rw [BitVec.ofInt_add (_ + _), BitVec.add_assoc]

variable [DecidableEq L]

/-- A table is generated for the sorted and merged list. -/
theorem bgSelect_table {tg : Target} {s : SelectNode L} {len : IntLength} {allowed : Allowed}
    {kind : SelKind} {sortTipe : TypeDef} {n : SelectNode L}
    (h : bgSelect tg s len allowed = .table kind sortTipe n) :
    sortTipe.length = len ∧ ∃ s' : SelectNode L, s'.list.Perm s.list ∧
      s'.otherWise = s.otherWise ∧ s'.numCases = s.numCases ∧
      n = mergeListEntries (sortNodeList sortTipe s') := by
  unfold bgSelect at h
  split_ifs at h with h0
  dsimp only at h
  split at h
  · cases h
  · injection h with h1 h2 h3
    subst h2 h3
    split_ifs with hsign
    · exact ⟨rfl, sortNodeList ⟨len, false⟩ (sortNodeList ⟨len, true⟩ s),
        (sortNodeList_perm _ _).trans (sortNodeList_perm _ _), rfl, rfl, rfl⟩
    · exact ⟨rfl, sortNodeList ⟨len, true⟩ s, sortNodeList_perm _ _, rfl, rfl, rfl⟩

/-- The node `n` of a table: the ranges `e :: rest` in the order of their low ends, merged. -/
structure TableNode (s : TypeDef) (other : Option L) (n : SelectNode L) (e last : SelectList L)
    (rest : List (SelectList L)) : Prop where
  perm : (e :: rest).Perm (cases.ranges.map entry)
  sorted : (e :: rest).Pairwise fun a b => key s a.low ≤ key s b.low
  list : n.list = mergeFrom e rest
  isLast : (e :: rest).getLast? = some last
  lower : n.lower = e.low
  upper : n.upper = last.high
  otherWise : n.otherWise = other
  numCases : n.numCases = pattern (cases.ranges.map fun c => c.hi - c.lo + 1).sum

theorem tableNode_of_bgSelect {tg : Target} {other : Option L} {allowed : Allowed}
    {kind : SelKind} {sortTipe : TypeDef} {n : SelectNode L}
    (h : bgSelect tg (switchNode cases.ranges other) t.length allowed = .table kind sortTipe n) :
    sortTipe.length = t.length ∧ ∃ e last rest, TableNode cases sortTipe other n e last rest := by
  obtain ⟨hlen, s', hperm, hother, hnum, rfl⟩ := bgSelect_table h
  have hp : (sortNodeList sortTipe s').list.Perm (cases.ranges.map entry) := by
    refine (sortNodeList_perm _ _).trans (hperm.trans ?_)
    rw [switchNode_list]
    exact List.reverse_perm _
  obtain ⟨e, rest, hl⟩ : ∃ e rest, (sortNodeList sortTipe s').list = e :: rest := by
    refine List.exists_cons_of_ne_nil fun hnil => cases.nonempty ?_
    rw [hnil] at hp
    exact List.map_eq_nil_iff.mp hp.nil_eq.symm
  have hms : s'.list.mergeSort (fun a b => !nodeLess sortTipe b a) = e :: rest := hl
  have hm : mergeListEntries (sortNodeList sortTipe s') =
      { sortNodeList sortTipe s' with list := mergeFrom e rest } := by
    unfold mergeListEntries
    rw [hl]
  refine ⟨hlen, e, (e :: rest).getLast (by simp), rest, ?_, ?_, ?_, ?_, ?_, ?_, ?_, ?_⟩
  · rwa [hl] at hp
  · exact hl ▸ sortNodeList_sorted sortTipe s'
  · rw [hm]
  · exact List.getLast?_eq_getLast_of_ne_nil _
  · rw [hm]
    simp only [sortNodeList, hms]
    rfl
  · rw [hm]
    simp only [sortNodeList, hms, List.getLast?_eq_getLast_of_ne_nil (List.cons_ne_nil e rest)]
    rfl
  · rw [hm]
    exact hother
  · rw [hm]
    refine hnum.trans ?_
    simp only [switchNode, bgSelOther, foldl_bgSelRange_numCases, bgSelInit]
    simp

section tables

variable {cases} {s : TypeDef} {other : Option L} {n : SelectNode L} {e last : SelectList L}
  {rest : List (SelectList L)} (hn : TableNode cases s other n e last rest)

include hn

theorem TableNode.ordered_of (hnc : NoneCrosses s cases.ranges) {a : SelectList L}
    (ha : a ∈ e :: rest) : Ordered s a := by
  obtain ⟨c, hc, rfl, -⟩ := exists_range cases hn.perm ha
  exact (selCompare_nonpos_iff _ _ _).mp (hnc c hc)

theorem TableNode.inOrder (hnc : NoneCrosses s cases.ranges) : InOrder s (e :: rest) :=
  ⟨fun _ ha => hn.ordered_of hnc ha,
    sorted_separated t s (fun _ ha => entries_ordered cases hn.perm ha)
      (entries_apart cases hn.perm) hn.sorted⟩

theorem TableNode.pairs_perm (hnc : NoneCrosses s cases.ranges) :
    (pairs n.list).Perm ((casePairs cases.ranges).map fun p => (pattern p.1, p.2)) := by
  rw [hn.list, pairs_mergeFrom s e rest (hn.inOrder hnc), ← pairs_entries cases]
  exact hn.perm.flatMap_right _

/-- The merged list starts at `lower` and ends at `upper`. -/
theorem TableNode.ends : ∃ e' rest' last', n.list = e' :: rest' ∧ e'.low = n.lower ∧
    n.list.getLast? = some last' ∧ last'.high = n.upper := by
  obtain ⟨e', rest', hlist, hlow⟩ := mergeFrom_head e rest
  have hl := mergeFrom_last e rest
  rw [hn.isLast, hlist, List.getLast?_eq_getLast_of_ne_nil (List.cons_ne_nil e' rest')] at hl
  refine ⟨e', rest', (e' :: rest').getLast (List.cons_ne_nil e' rest'), hn.list.trans hlist,
    hlow.trans hn.lower.symm, ?_, ?_⟩
  · rw [hn.list, hlist]
    exact List.getLast?_eq_getLast_of_ne_nil _
  · rw [hn.upper]
    exact Option.some.inj hl

theorem TableNode.bounds (hnc : NoneCrosses s cases.ranges) {a : SelectList L}
    (ha : a ∈ e :: rest) : key s n.lower ≤ key s a.low ∧ key s a.high ≤ key s n.upper := by
  have hin := hn.inOrder hnc
  rw [hn.lower, hn.upper]
  refine ⟨?_, hin.le_last hn.isLast ha⟩
  rcases List.mem_cons.mp ha with rfl | ha
  · exact le_rfl
  · exact (hin.ordered e List.mem_cons_self).trans (hin.first ha).le

theorem TableNode.lower_le_upper (hnc : NoneCrosses s cases.ranges) :
    key s n.lower ≤ key s n.upper := by
  obtain ⟨h1, h2⟩ := hn.bounds hnc List.mem_cons_self
  exact h1.trans ((hn.ordered_of hnc List.mem_cons_self).trans h2)

/-- The values of a range lie between the bounds. -/
theorem TableNode.between (hnc : NoneCrosses s cases.ranges) {c : LabelSpan ℤ L}
    (hc : c ∈ cases.ranges) {v : ℤ} (hv : c.Contains v) :
    key s n.lower ≤ key s (pattern v) ∧ key s (pattern v) ≤ key s n.upper := by
  obtain ⟨hmem, hspan⟩ := entry_mem cases hn.perm hc
  obtain ⟨h1, h2⟩ := hn.bounds hnc hmem
  have hvt := cases.contains_inType hc hv
  rw [← hspan, toSpan_contains, ← key_pattern hvt] at hv
  have := (between_iff t s (entries_ordered cases hn.perm hmem) (hn.ordered_of hnc hmem) _).mp hv
  omega

theorem TableNode.labelAt_pattern (hnc : NoneCrosses s cases.ranges) {v : ℤ} (hv : InType t v) :
    labelAt s other n.list (pattern v) = caseLabel cases.ranges other v := by
  have hin : InOrder s n.list := hn.list ▸ (hn.inOrder hnc).merge
  have hmem : ∀ label, (∃ a ∈ n.list, (toSpan s a).Contains (key s (pattern v)) ∧ a.label = label) ↔
      ∃ c ∈ cases.ranges, c.Contains v ∧ c.label = label := by
    intro label
    rw [← mem_pairs hin, (hn.pairs_perm hnc).mem_iff, ← mem_casePairs, List.mem_map]
    constructor
    · rintro ⟨p, hp, heq⟩
      obtain ⟨hval, rfl⟩ := Prod.mk.inj heq
      obtain ⟨c, hc, hcv, -⟩ := mem_casePairs.mp hp
      have hpv : p.1 = v := by
        rw [← key_pattern (cases.contains_inType hc hcv), hval, key_pattern hv]
      rwa [← hpv]
    · exact fun hp => ⟨_, hp, rfl⟩
  by_cases h : ∃ c ∈ cases.ranges, c.Contains v
  · obtain ⟨c, hc, hcv⟩ := h
    obtain ⟨a, ha, hav, hlab⟩ := (hmem c.label).mpr ⟨c, hc, hcv, rfl⟩
    rw [labelAt_of_mem other hin ha hav, cases.caseLabel_of_contains other hc hcv, hlab]
  · have hno : ∀ c ∈ cases.ranges, ¬ c.Contains v := fun c hc hcv => h ⟨c, hc, hcv⟩
    rw [caseLabel_eq_other other hno]
    refine labelAt_eq_other other fun a ha hav => ?_
    obtain ⟨c, hc, hcv, -⟩ := (hmem a.label).mp ⟨a, ha, hav, rfl⟩
    exact hno c hc hcv

/-- The jump table has an entry for every value between the bounds. -/
theorem TableNode.jump_cases (hnc : NoneCrosses s cases.ranges) :
    (makeJmpTab s n).cases = (segment n.lower n.upper).map (labelAt s other n.list) := by
  obtain ⟨e', rest', last', hlist, hlow, hlast, hhigh⟩ := hn.ends
  have hin : InOrder s n.list := hn.list ▸ (hn.inOrder hnc).merge
  have hle := hn.lower_le_upper hnc
  unfold makeJmpTab
  dsimp only
  rw [hn.otherWise, ← hhigh]
  refine jumpWalk_eq s other (hhigh ▸ hle) hin hlast fun a ha => ?_
  rw [hlist] at ha hin
  rw [← hlow]
  rcases List.mem_cons.mp ha with rfl | ha
  · exact hin.ordered a List.mem_cons_self
  · exact (hin.ordered e' List.mem_cons_self).trans
      ((hin.first ha).le.trans (hin.tail.ordered a ha))

/-- A range that crosses the end of the order is the last one, so the list ends before it begins. -/
theorem TableNode.crossed {c : LabelSpan ℤ L} (hc : c ∈ cases.ranges)
    (hcross : key s (pattern c.hi) < key s (pattern c.lo)) :
    key s n.upper < key s n.lower ∧ n.upper = pattern c.hi := by
  obtain ⟨hmem, hspan⟩ := entry_mem cases hn.perm hc
  have hord := entries_ordered cases hn.perm hmem
  have hlastmem := List.mem_of_getLast? hn.isLast
  have happart := entries_apart cases hn.perm
  -- what comes behind the start of the range, or before its end, is in it
  have hin : ∀ a ∈ e :: rest, key s (pattern c.lo) ≤ key s a.low ∨
      key s a.low ≤ key s (pattern c.hi) → entry c = a := by
    intro a ha hx
    refine eq_of_common happart hmem ha (between_of_crossing t s hord hcross hx) ?_
    exact ⟨le_rfl, entries_ordered cases hn.perm ha⟩
  have hlast : entry c = last := by
    have hsorted := hn.sorted
    obtain ⟨init, hinit⟩ := List.getLast?_eq_some_iff.mp hn.isLast
    rw [hinit] at hsorted
    rcases List.mem_append.mp (hinit ▸ hmem) with hmem' | hmem'
    · exact hin last hlastmem
        (Or.inl ((List.pairwise_append.mp hsorted).2.2 _ hmem' last (List.mem_singleton.mpr rfl)))
    · exact List.mem_singleton.mp hmem'
  have hupper : n.upper = pattern c.hi := by
    rw [hn.upper, ← hlast]
    rfl
  refine ⟨?_, hupper⟩
  rw [hupper, hn.lower]
  by_contra hle
  have hfirst := hin e List.mem_cons_self (Or.inr (not_lt.mp hle))
  rw [← hfirst] at hle
  exact hle hcross

theorem TableNode.inType : InType t (key t n.lower) ∧ InType t (key t n.upper) := by
  rw [hn.lower, hn.upper]
  exact ⟨(entries_inType cases hn.perm List.mem_cons_self).1,
    (entries_inType cases hn.perm (List.mem_of_getLast? hn.isLast)).2⟩

section jump

variable (hlen : s.length = t.length)

include hlen

/-- The entry of the value at distance `i` from the lower bound. -/
theorem TableNode.jump_entry (hnc : NoneCrosses s cases.ranges)
    (hspan : (n.upper - n.lower).toNat + 1 < 2 ^ 32) {i : ℕ} (hi : i ≤ (n.upper - n.lower).toNat) :
    (makeJmpTab s n).cases[i]? =
      some (caseLabel cases.ranges other (key t (n.lower + BitVec.ofNat 64 i))) := by
  obtain ⟨hlow, hhigh⟩ := hn.inType
  have hin := (inType_of_between hlen hlow hhigh hspan hi).1
  rw [hn.jump_cases hnc, List.getElem?_map, getElem?_segment hi, Option.map_some,
    ← hn.labelAt_pattern hnc hin, show pattern (key t (n.lower + BitVec.ofNat 64 i)) =
      n.lower + BitVec.ofNat 64 i from key_inj t (key_pattern hin)]

/-- Where the table sends a value between the bounds. -/
theorem TableNode.genSelTable_between (tg : Target) (hnc : NoneCrosses s cases.ranges)
    (hspan : (n.upper - n.lower).toNat + 1 < 2 ^ 32) {i : ℕ} (hi : i ≤ (n.upper - n.lower).toNat) :
    genSelTable tg s n (key t (n.lower + BitVec.ofNat 64 i)) =
      caseLabel cases.ranges other (key t (n.lower + BitVec.ofNat 64 (i % tg.reach))) := by
  obtain ⟨hlow, hhigh⟩ := hn.inType
  have hle := hn.lower_le_upper hnc
  obtain ⟨hin, hbits⟩ := inType_of_between hlen hlow hhigh hspan hi
  have hupper := (inType_of_between hlen hlow hhigh hspan le_rfl).2
  have hpat : pattern (key t (n.lower + BitVec.ofNat 64 i)) = n.lower + BitVec.ofNat 64 i :=
    key_inj t (key_pattern hin)
  have hdist : (n.lower + BitVec.ofNat 64 i - n.lower).toNat = i := by bv_omega
  have hmod := Nat.mod_le i tg.reach
  rw [genSelTable_eq, hpat, hdist, Nat.mod_eq_of_lt hbits, Nat.mod_eq_of_lt hupper,
    if_neg (fun h => h.2 hi), hn.jump_entry hlen hnc hspan (hmod.trans hi)]
  rfl

/-- With a range that crosses the end of the order the table has one entry, and a value of the range
has another index. -/
theorem TableNode.not_jumpOk_of_crossing (tg : Target) {c : LabelSpan ℤ L} (hc : c ∈ cases.ranges)
    (hcross : key s (pattern c.hi) < key s (pattern c.lo)) :
    ¬ JumpOk tg t cases.ranges other s n := by
  rintro ⟨-, hroute⟩
  obtain ⟨hlt, hupper⟩ := hn.crossed hc hcross
  obtain ⟨hlo, hhi⟩ := cases.inType c hc
  have hlohi : c.lo < c.hi := by
    refine lt_of_le_of_ne (cases.ordered c hc) fun heq => ?_
    rw [heq] at hcross
    exact lt_irrefl _ hcross
  have hlast : InType t (c.hi - 1) := cases.contains_inType hc ⟨by omega, by omega⟩
  -- the only entry is the one for `lower`
  have hone : ∀ j, j ≠ 0 → (makeJmpTab s n).cases[j]? = none := by
    intro j hj
    obtain ⟨e', rest', -, hlist, -⟩ := hn.ends
    have hstop : 0 ≤ selCompare s n.lower n.upper := by
      rw [← not_lt, selCompare_neg_iff]
      omega
    unfold makeJmpTab
    dsimp only
    rw [hlist, jumpWalk, dif_pos hstop]
    obtain ⟨k, rfl⟩ := Nat.exists_eq_succ_of_ne_zero hj
    rfl
  have hmiss : ∀ v, c.Contains v → (pattern v - n.lower).toNat % 2 ^ s.length.bits ≤
      (n.upper - n.lower).toNat % 2 ^ s.length.bits →
      (pattern v - n.lower).toNat % 2 ^ s.length.bits % tg.reach = 0 := by
    intro v hcv hle
    by_contra hne
    have hv := cases.contains_inType hc hcv
    have hout := (hroute v hv).inside c hc hcv
    rw [genSelTable_eq, if_neg (fun h => h.2 hle), hone _ hne] at hout
    cases hout
  have hne := index_ne_zero hn.inType.1 hn.inType.2 fun heq => by
    rw [heq] at hlt
    exact lt_irrefl _ hlt
  rw [← hlen] at hne
  have h1 := hmiss c.hi ⟨by omega, le_rfl⟩ (by rw [hupper])
  have hprev : (pattern (c.hi - 1) - n.lower).toNat % 2 ^ s.length.bits =
      (n.upper - n.lower).toNat % 2 ^ s.length.bits - 1 := by
    have hp : pattern (c.hi - 1) = n.upper - 1 := by
      rw [hupper, pattern_sub_one]
    rw [hp]
    revert hne
    generalize n.upper = u
    generalize n.lower = l
    have hul := u.isLt
    have hll := l.isLt
    cases s.length <;> simp only [IntLength.bits, BitVec.toNat_sub] <;>
      rw [show (1 : BitVec 64).toNat = 1 from rfl] <;> omega
  have h2 := hmiss (c.hi - 1) ⟨by omega, by omega⟩ (by omega)
  rw [← hupper] at h1
  rw [hprev] at h2
  have hreach : tg.reach = 32768 ∨ tg.reach = 1073741824 := by
    unfold Target.reach Target.wordSize
    split_ifs
    · exact Or.inl rfl
    · exact Or.inr rfl
  rcases hreach with hr | hr <;> rw [hr] at h1 h2 <;> omega

theorem TableNode.jumpOk_iff (tg : Target) : JumpOk tg t cases.ranges other s n ↔
    TableFits tg t cases.ranges other .jump s n.lower n.upper := by
  unfold TableFits
  dsimp only
  constructor
  · intro hok
    have hnc : NoneCrosses s cases.ranges := by
      intro c hc
      rw [selCompare_nonpos_iff, ← not_lt]
      intro hcross
      exact hn.not_jumpOk_of_crossing hlen tg hc hcross hok
    have hspan : (n.upper - n.lower).toNat + 1 < 2 ^ 32 := by
      have hsize := hok.1
      rw [hn.jump_cases hnc, List.length_map, length_segment] at hsize
      rw [hsize]
      exact UInt32.toNat_lt _
    refine ⟨hnc, hspan, fun i hi => ?_⟩
    rw [← hn.genSelTable_between hlen tg hnc hspan hi]
    exact hok.2 _ (inType_of_between hlen hn.inType.1 hn.inType.2 hspan hi).1
  · rintro ⟨hnc, hspan, hwrap⟩
    have hle := hn.lower_le_upper hnc
    constructor
    · rw [hn.jump_cases hnc, List.length_map, length_segment]
      unfold makeJmpTab
      dsimp only
      rw [UInt32.toNat_ofNat', BitVec.toNat_add]
      have h1 : (1 : BitVec 64).toNat = 1 := rfl
      omega
    · intro v hv
      have hvt : InType t (key t (pattern v)) := by rwa [key_pattern hv]
      by_cases hb : key s n.lower ≤ key s (pattern v) ∧ key s (pattern v) ≤ key s n.upper
      · have hd := toNat_sub_of_le s hb.1
        have hd' := toNat_sub_of_le s hle
        have hi : (pattern v - n.lower).toNat ≤ (n.upper - n.lower).toNat := by omega
        have hx : n.lower + BitVec.ofNat 64 (pattern v - n.lower).toNat = pattern v := by bv_omega
        have hr := hwrap _ hi
        rw [← hn.genSelTable_between hlen tg hnc hspan hi, hx, key_pattern hv] at hr
        exact hr
      · refine ⟨fun c hc hcv => absurd (hn.between hnc hc hcv) hb, fun _ o ho => ?_⟩
        have hcmp := mt (index_le_iff hlen hvt hn.inType.1 hn.inType.2 hle hspan).mp hb
        have hsome : n.otherWise.isSome := by simp [hn.otherWise, ho]
        rw [genSelTable_eq, if_pos ⟨hsome, hcmp⟩, hn.otherWise, ho]

end jump

/-- The walk forwards for the labels, and for the values. -/
theorem TableNode.walkForward_eq_pairs (hnc : NoneCrosses s cases.ranges) :
    walkForward s n.upper n.list n.lower = pairs n.list := by
  obtain ⟨e', rest', last', hlist, hlow, hlast, hhigh⟩ := hn.ends
  have hin : InOrder s n.list := hn.list ▸ (hn.inOrder hnc).merge
  rw [hlist] at hin hlast ⊢
  rw [← hlow, ← hhigh]
  exact walkForward_eq s hin hlast

/-- The walk backwards starts at the last entry. -/
theorem TableNode.walkBackward_eq_pairs (hnc : NoneCrosses s cases.ranges) :
    walkBackward s n.lower (n.list.take (n.list.findIdx (fun e => e.high == n.upper) + 1)).reverse
      n.upper = ((pairs n.list).map Prod.fst).reverse := by
  obtain ⟨e', rest', last', hlist, hlow, hlast, hhigh⟩ := hn.ends
  have hin : InOrder s n.list := hn.list ▸ (hn.inOrder hnc).merge
  obtain ⟨init, hinit⟩ := List.getLast?_eq_some_iff.mp hlast
  have hfind : n.list.findIdx (fun e => e.high == n.upper) = init.length := by
    rw [hinit, List.findIdx_append, List.findIdx_eq_length.mpr fun a ha => ?_]
    · rw [if_neg (lt_irrefl _)]
      simp [hhigh]
    · have hsep := hin.separated
      rw [hinit, List.map_append] at hsep
      have hlt := ((List.pairwise_append.mp hsep).2.2 _ (List.mem_map_of_mem ha) _
        (List.mem_map_of_mem (List.mem_singleton.mpr rfl))).2
        (hin.ordered a (by rw [hinit]; exact List.mem_append_left _ ha))
      have hle := hin.ordered last' (List.mem_of_getLast? hlast)
      simp only [toSpan] at hlt
      unfold Ordered at hle
      simp only [beq_eq_false_iff_ne]
      rintro heq
      rw [heq, ← hhigh] at hlt
      omega
  have hrev : (last' :: init.reverse).reverse = n.list := by
    rw [List.reverse_cons, List.reverse_reverse, hinit]
  have hfirst : (last' :: init.reverse).getLast? = some e' := by
    rw [← List.head?_reverse, hrev, hlist]
    rfl
  rw [hfind, List.take_of_length_le (by rw [hinit]; simp), ← hrev, List.reverse_reverse, ← hlow,
    ← hhigh, walkBackward_eq s (hrev ▸ hin) hfirst]

/-- In the width of the entries different values of the ranges have different entries. -/
theorem TableNode.scan_injective (hlen : s.length = t.length) (hnc : NoneCrosses s cases.ranges)
    {x y : BitVec 64} (hx : InType t (key t x)) (hy : InType t (key t y))
    (hxb : key s n.lower ≤ key s x ∧ key s x ≤ key s n.upper)
    (hyb : key s n.lower ≤ key s y ∧ key s y ≤ key s n.upper)
    (heq : (x - scanBase n (selType s (n.upper - n.lower)) s).setWidth
        (selType s (n.upper - n.lower)).length.bits =
      (y - scanBase n (selType s (n.upper - n.lower)) s).setWidth _) : x = y := by
  by_contra hne
  have hdvd := dvd_of_setWidth_eq _ heq
  have hdvd' := dvd_of_setWidth_eq _ heq.symm
  by_cases hwidth : (selType s (n.upper - n.lower)).length = s.length
  · rw [hwidth, hlen] at hdvd
    exact index_ne_zero hx hy hne hdvd
  · have hsmall := (selType_cases s (n.upper - n.lower)).resolve_left hwidth
    have hspan := toNat_sub_of_le s (hn.lower_le_upper hnc)
    rcases le_total (key s x) (key s y) with hle | hle
    · have hd := toNat_sub_of_le s hle
      rw [Nat.mod_eq_of_lt (by omega)] at hdvd
      exact hne (by bv_omega)
    · have hd := toNat_sub_of_le s hle
      rw [Nat.mod_eq_of_lt (by omega)] at hdvd'
      exact hne (by bv_omega)

omit hn in
/-- A range that crosses the end of the order leaves one label, and it has two values. -/
theorem TableNode.not_scanOk_of_crossing (tg : Target) (first : Option L) {valueType : TypeDef}
    (hn : TableNode cases s other n e last rest) {c : LabelSpan ℤ L} (hc : c ∈ cases.ranges)
    (hcross : key s (pattern c.hi) < key s (pattern c.lo)) :
    ¬ ScanOk tg cases.ranges other s n valueType (makeScanTab tg first s n valueType s) := by
  intro hok
  obtain ⟨hlt, -⟩ := hn.crossed hc hcross
  obtain ⟨e', rest', -, hlist, -⟩ := hn.ends
  have hstop : 0 ≤ selCompare s n.lower n.upper := by
    rw [← not_lt, selCompare_neg_iff]
    omega
  have hone : (makeScanTab tg first s n valueType s).labels.length = 1 := by
    unfold makeScanTab
    dsimp only
    rw [hlist, walkForward_stop e' rest' hstop]
    rfl
  have hlen := hok.pairs.length_eq
  rw [List.length_zip, hone, List.length_map] at hlen
  have hlohi : c.lo ≠ c.hi := by
    intro heq
    rw [heq] at hcross
    exact lt_irrefl _ hcross
  have hord := cases.ordered c hc
  have hlo := mem_casePairs.mpr ⟨c, hc, ⟨le_rfl, hord⟩, rfl⟩
  have hhi := mem_casePairs.mpr ⟨c, hc, ⟨hord, le_rfl⟩, rfl⟩
  match hp : casePairs cases.ranges with
  | [] => rw [hp] at hlo; cases hlo
  | [p] =>
      rw [hp, List.mem_singleton] at hlo hhi
      exact hlohi (congrArg Prod.fst (hlo.trans hhi.symm))
  | p :: q :: ps =>
      rw [hp, List.length_cons, List.length_cons] at hlen
      omega

/-- The number of values, in the width of a table. -/
theorem TableNode.toNat_numCases : ((UInt32.ofNat n.numCases.toNat).toNat : ℤ) =
    (cases.ranges.map fun c => c.hi - c.lo + 1).sum % 2 ^ 32 := by
  rw [hn.numCases, UInt32.toNat_ofNat']
  unfold pattern
  rw [BitVec.toNat_ofInt]
  omega

theorem TableNode.fits_of_scanOk (tg : Target) (hok : TableOk tg t cases.ranges other .scan s n) :
    TableFits tg t cases.ranges other .scan s n.lower n.upper := by
  unfold TableOk at hok
  unfold TableFits
  dsimp only at hok ⊢
  have hsize := hn.toNat_numCases
  have hlength := length_casePairs cases.ordered
  have hother : other.isSome := by
    by_contra hnone
    rw [Bool.not_eq_true, Option.isSome_eq_false_iff, Option.isNone_iff_eq_none] at hnone
    have hmem : none ∈ (makeScanTab tg none s n (selType s (n.upper - n.lower)) s).pointers := by
      unfold makeScanTab
      dsimp only
      rw [hn.otherWise, hnone]
      split_ifs <;> simp
    rcases (hok none).pointers none hmem with ⟨c, -, hc⟩ | ⟨-, hc⟩ <;> cases hc
  have hnc : NoneCrosses s cases.ranges := by
    intro c hc
    rw [selCompare_nonpos_iff, ← not_lt]
    intro hcross
    exact hn.not_scanOk_of_crossing tg none hc hcross (hok none)
  refine ⟨hnc, hother, ?_⟩
  have hs := (hok none).size
  have hperm := (hn.pairs_perm hnc).length_eq
  unfold makeScanTab at hs
  dsimp only at hs
  rw [List.length_map, hn.walkForward_eq_pairs hnc] at hs
  rw [List.length_map] at hperm
  omega

/-- The values are in the order of the labels, or in the other one. -/
theorem TableNode.scan_values (tg : Target) (first : Option L) (hnc : NoneCrosses s cases.ranges)
    (vt : TypeDef) : (makeScanTab tg first s n vt s).values =
      if vt = tg.tyWord then (pairs n.list).map fun p => (p.1 - scanBase n vt s).setWidth _
      else ((pairs n.list).map fun p => (p.1 - scanBase n vt s).setWidth _).reverse := by
  unfold makeScanTab genValuesForward genValuesBackward
  dsimp only
  rw [hn.walkForward_eq_pairs hnc, hn.walkBackward_eq_pairs hnc, List.map_reverse, List.map_map]
  rfl

theorem TableNode.scan_labels (tg : Target) (first : Option L) (hnc : NoneCrosses s cases.ranges)
    (vt : TypeDef) : (makeScanTab tg first s n vt s).labels = (pairs n.list).map Prod.snd := by
  unfold makeScanTab
  dsimp only
  rw [hn.walkForward_eq_pairs hnc]

/-- No value is twice in a table. -/
theorem TableNode.scan_nodup (hlen : s.length = t.length) (hnc : NoneCrosses s cases.ranges) :
    ((pairs n.list).map fun p => (p.1 - scanBase n (selType s (n.upper - n.lower)) s).setWidth
      (selType s (n.upper - n.lower)).length.bits).Nodup := by
  have hfst := (hn.pairs_perm hnc).map fun p => (p.1 - scanBase n (selType s (n.upper - n.lower)) s).setWidth
    (selType s (n.upper - n.lower)).length.bits
  rw [List.map_map] at hfst
  have hmap : (((casePairs cases.ranges).map Prod.fst).map fun v : ℤ =>
      (pattern v - scanBase n (selType s (n.upper - n.lower)) s).setWidth
        (selType s (n.upper - n.lower)).length.bits).Nodup := by
    refine List.Nodup.map_on (fun v hv w hw heq => ?_) (casePairs_nodup cases.disjoint)
    obtain ⟨p, hp, rfl⟩ := List.mem_map.mp hv
    obtain ⟨q, hq, rfl⟩ := List.mem_map.mp hw
    obtain ⟨c, hc, hcp, -⟩ := mem_casePairs.mp hp
    obtain ⟨d, hd, hdq, -⟩ := mem_casePairs.mp hq
    have htp := cases.contains_inType hc hcp
    have htq := cases.contains_inType hd hdq
    have hpat := hn.scan_injective hlen hnc (by rwa [key_pattern htp]) (by rwa [key_pattern htq])
      (hn.between hnc hc hcp) (hn.between hnc hd hdq) heq
    rw [← key_pattern htp, hpat, key_pattern htq]
  rw [List.map_map] at hmap
  exact hfst.nodup_iff.mpr hmap

/-- The pointers of a table are the labels of cases and the other label. -/
theorem TableNode.scan_pointers (tg : Target) (first : Option L) (hnc : NoneCrosses s cases.ranges)
    (hother : other.isSome) (vt : TypeDef) {l : Option L} (hl : l ∈ (makeScanTab tg first s n vt s).pointers) :
    (∃ c ∈ cases.ranges, l = some c.label) ∨ l = other := by
  obtain ⟨o, ho⟩ := Option.isSome_iff_exists.mp hother
  have hl' : l = other ∨ l ∈ ((pairs n.list).map Prod.snd).map some := by
    unfold makeScanTab at hl
    dsimp only at hl
    rw [hn.walkForward_eq_pairs hnc, hn.otherWise, ho] at hl
    simp only [Option.isNone_some, Bool.false_eq_true, if_false] at hl
    rw [ho]
    split_ifs at hl
    · exact (List.mem_append.mp hl).symm.imp_left List.mem_singleton.mp
    · exact List.mem_cons.mp hl
  rcases hl' with rfl | hl'
  · exact .inr rfl
  · obtain ⟨label, hlabel, rfl⟩ := List.mem_map.mp hl'
    obtain ⟨p, hp, rfl⟩ := List.mem_map.mp hlabel
    obtain ⟨q, hq, rfl⟩ := List.mem_map.mp ((hn.pairs_perm hnc).mem_iff.mp hp)
    obtain ⟨c, hc, -, hlabel⟩ := mem_casePairs.mp hq
    exact .inl ⟨c, hc, congrArg some hlabel.symm⟩

theorem TableNode.scanOk_iff (tg : Target) (hlen : s.length = t.length) :
    TableOk tg t cases.ranges other .scan s n ↔
      TableFits tg t cases.ranges other .scan s n.lower n.upper := by
  refine ⟨hn.fits_of_scanOk tg, ?_⟩
  unfold TableOk TableFits
  dsimp only
  have hsize := hn.toNat_numCases
  have hlength := length_casePairs cases.ordered
  rintro ⟨hnc, hother, hcount⟩ first
  have hperm := hn.pairs_perm hnc
  have hvalues := hn.scan_values tg first hnc (selType s (n.upper - n.lower))
  have hlabels := hn.scan_labels tg first hnc (selType s (n.upper - n.lower))
  have hpointers := fun l => hn.scan_pointers tg first hnc hother (selType s (n.upper - n.lower)) (l := l)
  have hnodup := hn.scan_nodup hlen hnc
  have hwalk := hn.walkForward_eq_pairs hnc
  generalize selType s (n.upper - n.lower) = vt at *
  have horder : (if vt = tg.tyWord then (makeScanTab tg first s n vt s).values
      else (makeScanTab tg first s n vt s).values.reverse) =
      (pairs n.list).map fun p => (p.1 - scanBase n vt s).setWidth _ := by
    rw [hvalues]
    split_ifs
    · rfl
    · exact List.reverse_reverse _
  constructor
  · have hlen := hperm.length_eq
    rw [List.length_map] at hlen
    rw [hlabels, List.length_map]
    unfold makeScanTab
    dsimp only
    omega
  · rw [hvalues, hlabels]
    split_ifs <;> simp
  · have hzip := hperm.map fun p => ((p.1 - scanBase n vt s).setWidth vt.length.bits, p.2)
    rw [List.map_map] at hzip
    rw [horder, hlabels, List.zip_map']
    exact hzip
  · rw [hvalues]
    split_ifs
    · exact hnodup
    · exact List.nodup_reverse.mpr hnodup
  · intro l hl
    obtain hcase | rfl := hpointers l hl
    · exact .inl hcase
    · exact .inr ⟨rfl, hother⟩

end tables

/-- The table that is generated for a selection does what it is for exactly when no range crosses
the end of the order, the number of its entries fits the size field and, for a scan table,
there is an otherwise label, or, for a jump table, a value whose entry is out of reach has the label
of the entry that is reached. -/
theorem bgSelect_table_iff (tg : Target) (allowed : Allowed) (other : Option L) (kind : SelKind)
    (sortTipe : TypeDef) (n : SelectNode L)
    (h : bgSelect tg (switchNode cases.ranges other) t.length allowed = .table kind sortTipe n) :
    TableOk tg t cases.ranges other kind sortTipe n ↔
      TableFits tg t cases.ranges other kind sortTipe n.lower n.upper := by
  obtain ⟨hlen, e, last, rest, hn⟩ := tableNode_of_bgSelect cases h
  cases kind with
  | scan => exact hn.scanOk_iff tg hlen
  | jump => exact hn.jumpOk_iff hlen tg
  | ifs => exact Iff.rfl

end node

/-- Cases of a signed 16-bit type, one of them a range up to zero: the table is generated for the
unsigned order, in which this range begins behind its end. -/
def upToZero : Cases ⟨.two, true⟩ ℕ where
  ranges := [⟨-1, 0, 4⟩, ⟨-2, -2, 3⟩, ⟨-3, -3, 2⟩, ⟨-4, -4, 1⟩]
  nonempty := by simp
  inType := by simp [InType, IntLength.bits]
  ordered := by simp
  disjoint := by simp

/-- The node of the table for `upToZero`. -/
def upToZeroNode : SelectNode ℕ :=
  { numCases := 5
    otherWise := some 0
    list := [newCase (-4) (-4) 1, newCase (-3) (-3) 2, newCase (-2) (-2) 3, newCase (-1) 0 4]
    lower := -4
    upper := 0 }

theorem sortNodeList_upToZero (sign : Bool) :
    sortNodeList ⟨.two, sign⟩ (switchNode upToZero.ranges (some 0)) = upToZeroNode ∧
      sortNodeList ⟨.two, sign⟩ upToZeroNode = upToZeroNode := by
  have hsorted : upToZeroNode.list.mergeSort (fun a b => !nodeLess ⟨.two, sign⟩ b a) =
      upToZeroNode.list := by
    refine List.mergeSort_of_pairwise ?_
    cases sign <;> decide +kernel
  constructor
  · have hlist : (switchNode upToZero.ranges (some 0)).list = upToZeroNode.list := by decide +kernel
    unfold sortNodeList
    rw [hlist, hsorted]
    decide +kernel
  · unfold sortNodeList
    rw [hsorted]
    decide +kernel

theorem bgSelect_upToZero : bgSelect ⟨true, 50⟩ (switchNode upToZero.ranges (some 0)) .two
    ⟨true, true, true⟩ = .table .jump ⟨.two, false⟩ upToZeroNode := by
  unfold bgSelect
  simp only [selNodeType, (sortNodeList_upToZero _).1, (sortNodeList_upToZero _).2]
  decide +kernel

/-- Five entries are allocated for the table, and only one is written. -/
theorem bgSelect_table_unwritten : ¬ ∀ (cases : Cases ⟨.two, true⟩ ℕ) (other : Option ℕ)
    (kind : SelKind) (sortTipe : TypeDef) (n : SelectNode ℕ),
    bgSelect ⟨true, 50⟩ (switchNode cases.ranges other) .two ⟨true, true, true⟩ =
      .table kind sortTipe n → TableOk ⟨true, 50⟩ ⟨.two, true⟩ cases.ranges other kind sortTipe n := by
  intro hall
  have h := (hall upToZero (some 0) _ _ _ bgSelect_upToZero).1
  revert h
  decide +kernel

theorem bgSelect_table_iff_upToZero :
    TableOk ⟨true, 50⟩ ⟨.two, true⟩ upToZero.ranges (some 0) .jump ⟨.two, false⟩ upToZeroNode ↔
      TableFits ⟨true, 50⟩ ⟨.two, true⟩ upToZero.ranges (some 0) .jump ⟨.two, false⟩
        upToZeroNode.lower upToZeroNode.upper :=
  bgSelect_table_iff upToZero ⟨true, 50⟩ ⟨true, true, true⟩ (some 0) .jump _ _ bgSelect_upToZero

end OpenWatcom.Cg
