import Mathlib.Data.Nat.Bitwise
import OpenWatcom.Lib.Layout

/-! # String tables of the linker

A table is a ring of blocks of 4K.  Items that cross a block are either split or moved to the next block; the low bit
of the running base tells which.  `place` says where an item goes, and `Inv.add` that the code puts it there. -/

namespace OpenWatcom.Wlink.StringTable

open Extent

abbrev Byte := UInt8

/-- `STR_BLOCK_SIZE`. -/
def strBlockSize : ℕ := 4096

/-- `stringtable`: what the blocks before the last one hold, what the last one holds, and the running base, a
`size_t` of 64 bits. -/
structure Table where
  full : List (List Byte)
  last : List Byte
  currbase : ℕ

/-- `TableNoSplitItems`. -/
def Table.noSplitItems (t : Table) : Bool := t.currbase % 2 == 1

/-- `GetTableLastBlkStart`; the mask is `~1U`. -/
def Table.lastBlkStart (t : Table) : ℕ := t.currbase &&& 0xFFFFFFFE

/-- `AllocNewBlock`. -/
def Table.allocNewBlock (t : Table) : Table := { t with full := t.full ++ [t.last], last := [] }

/-- `InitStringTable`. -/
def initStringTable (dontsplit : Bool) : Table := ⟨[], [], if dontsplit then 1 else 0⟩

/-- The rest of a round of the loop of `AddToStringTable`: the block is full, and the base goes on. -/
def Table.nextBlock (t : Table) : Table :=
  { t with currbase := (t.currbase + strBlockSize) % 2 ^ 64 }.allocNewBlock

/-- The loop of `AddToStringTable`, with the data and the length that are left and the start once it is known.  `none`
when it reads behind the data, or has no end. -/
def addLoop : ℕ → Table → List Byte → ℕ → Option ℕ → Option (Table × List Byte × ℕ × Option ℕ)
  | 0, _, _, _, _ => none
  | turns + 1, t, data, len, start =>
      if strBlockSize < t.last.length + len then
        let start := start.getD (t.lastBlkStart + if t.noSplitItems then strBlockSize else t.last.length)
        let diff := strBlockSize - t.last.length
        if t.noSplitItems then
          addLoop turns { t with last := t.last ++ List.replicate diff 0 }.nextBlock data len (some start)
        else if diff ≤ data.length then
          addLoop turns { t with last := t.last ++ data.take diff }.nextBlock (data.drop diff) (len - diff) (some start)
        else none
      else some (t, data, len, start)

/-- What `AddToStringTable` leaves: the table, the offset, and whether it reports a name that is too long. -/
structure Added where
  table : Table
  offs : ℕ
  tooLong : Bool

/-- `AddToStringTable`. -/
def addToStringTable (t : Table) (data : List Byte) (addnullchar : Bool) : Option Added :=
  let len := if addnullchar then data.length + 1 else data.length
  let tooLong := t.noSplitItems && decide (strBlockSize < len)
  let len := if tooLong then strBlockSize else len
  (addLoop (len + 2) t data len none).map fun (t, data, len, start) =>
    let offs := start.getD (t.lastBlkStart + t.last.length)
    let bytes := if addnullchar then data.take (len - 1) ++ [0] else data.take len
    ⟨{ t with last := t.last ++ bytes }, offs, tooLong⟩

/-- The calls that add to a table. -/
inductive Addition where
  | char (data : Byte)
  | string (data : List Byte)
  | buffer (data : List Byte)
  | symbol (data : List Byte)

/-- `AddCharStringTable`, `AddStringStringTable`, `AddBufferStringTable` and `AddSymbolStringTable`. -/
def add (t : Table) : Addition → Option Added
  | .char data => addToStringTable t [data] false
  | .string data => addToStringTable t (data ++ [0]) false
  | .buffer data => addToStringTable t data false
  | .symbol data => addToStringTable t data true

/-- `ZeroStringTable`; `none` when its assertion fails. -/
def zeroStringTable (t : Table) (len : ℕ) : Option Table :=
  if t.last.length + len ≤ strBlockSize then some { t with last := t.last ++ List.replicate len 0 } else none

/-- `WriteStringTable`, with the callback `fn` and its state. -/
def writeStringTable {σ : Type} (t : Table) (fn : σ → List Byte → σ) (info : σ) : σ :=
  (t.full ++ [t.last]).foldl fn info

/-- `GetStringTableSize`. -/
def getStringTableSize (t : Table) : ℕ := t.lastBlkStart + t.last.length

/-- A sequence of additions, with the offset of each. -/
def addAll (t : Table) : List Addition → Option (Table × List ℕ)
  | [] => some (t, [])
  | a :: l => (add t a).bind fun r => (addAll r.table l).map fun p => (p.1, r.offs :: p.2)

/-! ### Where items go -/

/-- The bytes of an item. -/
def Addition.bytes : Addition → List Byte
  | .char data => [data]
  | .string data => data ++ [0]
  | .buffer data => data
  | .symbol data => data ++ [0]

/-- Where an item of `len` bytes goes when the items before it end at `pos`. -/
def place (dontsplit : Bool) (pos len : ℕ) : ℕ :=
  if dontsplit && decide (strBlockSize < pos % strBlockSize + len) then (pos / strBlockSize + 1) * strBlockSize
  else pos

/-- The items at their places. -/
def extents (dontsplit : Bool) : ℕ → List (List Byte) → List (Extent Byte)
  | _, [] => []
  | pos, d :: l => ⟨place dontsplit pos d.length, d⟩ :: extents dontsplit (place dontsplit pos d.length + d.length) l

/-- Where the last item ends. -/
def tableEnd (dontsplit : Bool) : ℕ → List (List Byte) → ℕ
  | pos, [] => pos
  | pos, d :: l => tableEnd dontsplit (place dontsplit pos d.length + d.length) l

variable {dontsplit : Bool} {t : Table} {data : List Byte} {pos len : ℕ}

theorem le_place : pos ≤ place dontsplit pos len := by
  unfold place strBlockSize
  split <;> omega

theorem place_block (h : len ≤ strBlockSize) : place true pos len % strBlockSize + len ≤ strBlockSize := by
  unfold place
  unfold strBlockSize at *
  split
  · omega
  · rename_i hfit
    simp only [Bool.true_and, decide_eq_true_eq] at hfit
    omega

theorem extents_ascending (dontsplit : Bool) (pos : ℕ) (l : List (List Byte)) :
    Ascending pos ((extents dontsplit pos l).map span) := by
  induction l generalizing pos with
  | nil => exact trivial
  | cons d l ih => exact ⟨le_place, Nat.le_add_right _ _, ih _⟩

theorem le_tableEnd (dontsplit : Bool) (pos : ℕ) (l : List (List Byte)) : pos ≤ tableEnd dontsplit pos l := by
  induction l generalizing pos with
  | nil => exact le_rfl
  | cons d l ih => exact le_place.trans ((Nat.le_add_right _ _).trans (ih _))

/-! ### The invariant -/

/-- Everything that is in the table. -/
def Table.written (t : Table) : List Byte := t.full.flatten ++ t.last

/-- Full blocks before the last one; the base counts them. -/
structure Filling (dontsplit : Bool) (t : Table) : Prop where
  full : ∀ b ∈ t.full, b.length = strBlockSize
  last : t.last.length ≤ strBlockSize
  base : t.currbase = (strBlockSize * t.full.length + if dontsplit then 1 else 0) % 2 ^ 64

/-- Between additions the last block is not empty behind others. -/
structure Inv (dontsplit : Bool) (t : Table) : Prop extends Filling dontsplit t where
  used : t.last = [] → t.full = []

theorem mask_eq (x : ℕ) : x &&& 0xFFFFFFFE = 2 * (x / 2 % 2 ^ 31) := by
  have hhalf : (x &&& 0xFFFFFFFE) / 2 = x / 2 % 2 ^ 31 := by
    rw [Nat.and_div_two]
    exact Nat.and_two_pow_sub_one_eq_mod (x / 2) 31
  have hlow : (x &&& 0xFFFFFFFE) % 2 = 0 := by
    have h := Nat.and_mod_two_pow (a := x) (b := 0xFFFFFFFE) (n := 1)
    rw [pow_one] at h
    rw [h]
    exact Nat.and_zero _
  omega

theorem Inv.init (dontsplit : Bool) : Inv dontsplit (initStringTable dontsplit) where
  full := by simp [initStringTable]
  last := by simp [initStringTable]
  base := by cases dontsplit <;> rfl
  used := by simp [initStringTable]

namespace Filling

theorem noSplitItems (h : Filling dontsplit t) : t.noSplitItems = dontsplit := by
  unfold Table.noSplitItems
  rw [h.base]
  unfold strBlockSize
  cases dontsplit
  · simp only [Bool.false_eq_true, if_false, beq_eq_false_iff_ne]
    omega
  · simp only [if_true, beq_iff_eq]
    omega

theorem flatten_length (h : Filling dontsplit t) : t.full.flatten.length = strBlockSize * t.full.length := by
  have hmap : t.full.map List.length = List.replicate t.full.length strBlockSize :=
    List.eq_replicate_iff.mpr ⟨List.length_map .., fun n hn => by
      obtain ⟨b, hb, rfl⟩ := List.mem_map.mp hn
      exact h.full b hb⟩
  rw [List.length_flatten, hmap, List.sum_replicate, smul_eq_mul, mul_comm]

theorem written_length (h : Filling dontsplit t) :
    t.written.length = strBlockSize * t.full.length + t.last.length := by
  rw [Table.written, List.length_append, h.flatten_length]

/-- The start of the last block is what the base says as long as it fits in 32 bits, and never above that. -/
theorem lastBlkStart (h : Filling dontsplit t) (hlt : strBlockSize * t.full.length < 2 ^ 32) :
    t.lastBlkStart = strBlockSize * t.full.length := by
  unfold Table.lastBlkStart
  rw [mask_eq, h.base]
  unfold strBlockSize at *
  split <;> omega

theorem lastBlkStart_lt (t : Table) : t.lastBlkStart < 2 ^ 32 := by
  unfold Table.lastBlkStart
  rw [mask_eq]
  omega

/-- A block is filled up, and the next one begins. -/
theorem nextBlock (h : Filling dontsplit t) (bytes : List Byte) (hlen : t.last.length + bytes.length = strBlockSize) :
    Filling dontsplit { t with last := t.last ++ bytes }.nextBlock where
  full b hb := by
    rcases List.mem_append.mp hb with hb | hb
    · exact h.full b hb
    · rw [List.mem_singleton.mp hb, List.length_append, hlen]
  last := Nat.zero_le _
  base := by
    have hfull : ({ t with last := t.last ++ bytes }.nextBlock).full.length = t.full.length + 1 := by
      simp [Table.nextBlock, Table.allocNewBlock]
    rw [hfull]
    change (t.currbase + strBlockSize) % 2 ^ 64 = _
    rw [h.base, Nat.mod_add_mod]
    congr 1
    ring

end Filling

@[simp] theorem nextBlock_last (t : Table) : t.nextBlock.last = [] := rfl

theorem nextBlock_written (t : Table) : t.nextBlock.written = t.written := by
  simp [Table.nextBlock, Table.allocNewBlock, Table.written]

theorem written_append (t : Table) (bytes : List Byte) :
    { t with last := t.last ++ bytes }.written = t.written ++ bytes := by
  simp [Table.written]

/-! ### The loop -/

/-- The last block begins below the limit of the mask when the table ends there. -/
theorem Inv.base_lt (h : Inv dontsplit t) (hend : t.written.length ≤ 2 ^ 32) :
    strBlockSize * t.full.length < 2 ^ 32 := by
  have hpos := h.written_length
  by_cases hlast : t.last = []
  · rw [h.used hlast]
    norm_num
  · have hlen := List.length_pos_iff.mpr hlast
    omega

theorem place_of_fits (h : Filling dontsplit t) (hfits : t.last.length + len ≤ strBlockSize) :
    place dontsplit t.written.length len = t.written.length := by
  have hpos := h.written_length
  have hlast := h.last
  unfold place
  unfold strBlockSize at *
  rw [if_neg]
  simp only [Bool.and_eq_true, decide_eq_true_eq, not_and]
  omega

theorem place_of_not_fits (h : Filling true t) (hlen : len ≤ strBlockSize)
    (hover : strBlockSize < t.last.length + len) :
    place true t.written.length len = strBlockSize * (t.full.length + 1) := by
  have hpos := h.written_length
  have hlast := h.last
  unfold place
  unfold strBlockSize at *
  simp only [Bool.true_and, decide_eq_true_eq]
  split <;> omega

/-- The loop without splitting: a block that the item does not fit in is filled up with zeros. -/
theorem addLoop_noSplit (h : Inv true t) (turns : ℕ) (hlen : len ≤ strBlockSize) (data : List Byte) :
    ∃ t' start, addLoop (turns + 2) t data len none = some (t', data, len, start) ∧ Filling true t' ∧
      t'.written = t.written ++ List.replicate (place true t.written.length len - t.written.length) 0 ∧
      t'.last.length + len ≤ strBlockSize ∧ (t' = t ∨ 0 < len) ∧
      (place true t.written.length len ≤ 2 ^ 32 →
        start.getD (t'.lastBlkStart + t'.last.length) = place true t.written.length len) := by
  have hpos := h.written_length
  have hlast := h.last
  by_cases hover : strBlockSize < t.last.length + len
  · have hfill : t.last.length + (List.replicate (strBlockSize - t.last.length) (0 : Byte)).length = strBlockSize := by
      rw [List.length_replicate]
      omega
    have hplace := place_of_not_fits h.toFilling hlen hover
    refine ⟨_, some (t.lastBlkStart + strBlockSize), ?_, h.nextBlock _ hfill, ?_, ?_, Or.inr (by omega), ?_⟩
    · rw [addLoop, if_pos hover]
      dsimp only
      rw [if_pos h.noSplitItems, addLoop, nextBlock_last, if_neg (by simpa using hlen), if_pos h.noSplitItems]
      rfl
    · rw [nextBlock_written, written_append, hplace, hpos]
      congr 2
      unfold strBlockSize
      omega
    · simpa using hlen
    · intro hlt
      rw [hplace] at hlt ⊢
      rw [Option.getD_some, h.lastBlkStart (by unfold strBlockSize at *; omega)]
      ring
  · have hfits := not_lt.mp hover
    rw [place_of_fits h.toFilling hfits]
    refine ⟨t, none, ?_, h.toFilling, by simp, hfits, Or.inl rfl, ?_⟩
    · rw [addLoop, if_neg hover]
    · intro hlt
      rw [Option.getD_none, h.lastBlkStart (h.base_lt hlt), hpos]

/-- The loop with splitting: full blocks take what they hold of the data. -/
theorem addLoop_split (h : Filling false t) (turns : ℕ) (data : List Byte) (nul : ℕ) (hnul : nul ≤ 1)
    (hturns : data.length + nul + (if t.last = [] then 0 else 1) < turns) (start : Option ℕ) :
    ∃ t' data' start', addLoop turns t data (data.length + nul) start = some (t', data', data'.length + nul, start') ∧
      Filling false t' ∧ t'.written ++ data' = t.written ++ data ∧
      t'.last.length + (data'.length + nul) ≤ strBlockSize ∧ (t' = t ∧ data' = data ∨ 0 < data'.length + nul) ∧
      start'.getD (t'.lastBlkStart + t'.last.length) = start.getD (t.lastBlkStart + t.last.length) := by
  induction turns generalizing t data start with
  | zero => omega
  | succ turns ih =>
      have hlast := h.last
      by_cases hover : strBlockSize < t.last.length + (data.length + nul)
      · have hdiff : strBlockSize - t.last.length ≤ data.length := by omega
        have htake : (data.take (strBlockSize - t.last.length)).length = strBlockSize - t.last.length := by
          rw [List.length_take]
          omega
        have hdrop : (data.drop (strBlockSize - t.last.length)).length + nul =
            data.length + nul - (strBlockSize - t.last.length) := by
          rw [List.length_drop]
          omega
        have hnext := h.nextBlock (data.take (strBlockSize - t.last.length)) (by omega)
        obtain ⟨t', data', start', hloop, hfilling, hwritten, hfits, hused, hstart⟩ := ih hnext
          (data.drop (strBlockSize - t.last.length)) (by
            rw [nextBlock_last, if_pos rfl, hdrop]
            split at hturns
            · rename_i hnil
              rw [hnil, List.length_nil]
              unfold strBlockSize at *
              omega
            · omega)
          (some (start.getD (t.lastBlkStart + t.last.length)))
        refine ⟨t', data', start', ?_, hfilling, ?_, hfits, Or.inr ?_, hstart⟩
        · rw [addLoop, if_pos hover]
          simp only [h.noSplitItems, Bool.false_eq_true, if_false] at hloop ⊢
          rw [if_pos hdiff, ← hdrop, hloop]
        · rw [hwritten, nextBlock_written, written_append, List.append_assoc, List.take_append_drop]
        · rcases hused with ⟨-, rfl⟩ | hpos
          · omega
          · exact hpos
      · refine ⟨t, data, start, ?_, h, rfl, not_lt.mp hover, Or.inl ⟨rfl, rfl⟩, rfl⟩
        rw [addLoop, if_neg hover]

/-! ### Additions -/

/-- The bytes of a call: the data, and the zero that `addnullchar` asks for. -/
def itemOf (data : List Byte) (addnullchar : Bool) : List Byte := if addnullchar then data ++ [0] else data

theorem itemOf_length (data : List Byte) (addnullchar : Bool) :
    (itemOf data addnullchar).length = data.length + addnullchar.toNat := by
  cases addnullchar <;> simp [itemOf]

theorem itemOf_append (d e : List Byte) (addnullchar : Bool) :
    itemOf (d ++ e) addnullchar = d ++ itemOf e addnullchar := by
  cases addnullchar <;> simp [itemOf]

/-- What is copied into the last block is the rest of the item. -/
theorem copy_eq (data : List Byte) (addnullchar : Bool) :
    (if addnullchar then data.take (data.length + addnullchar.toNat - 1) ++ [0]
      else data.take (data.length + addnullchar.toNat)) = itemOf data addnullchar := by
  cases addnullchar <;> simp [itemOf]

/-- The rest of an item is copied into a block that holds it. -/
theorem Filling.copy (h : Filling dontsplit t) {bytes : List Byte} (hfits : t.last.length + bytes.length ≤ strBlockSize)
    (hused : t.last ++ bytes = [] → t.full = []) : Inv dontsplit { t with last := t.last ++ bytes } where
  full := h.full
  last := by rwa [List.length_append]
  base := h.base
  used := hused

/-- `ZeroStringTable` writes zeros into the last block. -/
theorem zeroStringTable_spec {t' : Table} (h : Inv dontsplit t) (hzero : zeroStringTable t len = some t') :
    Inv dontsplit t' ∧ t'.written = t.written ++ List.replicate len 0 := by
  unfold zeroStringTable at hzero
  split at hzero
  · rename_i hfits
    rw [Option.some.injEq] at hzero
    subst hzero
    refine ⟨h.toFilling.copy (by rwa [List.length_replicate]) ?_, written_append t _⟩
    intro hnil
    exact h.used (List.append_eq_nil_iff.mp hnil).1
  · exact absurd hzero (by simp)

/-- An item is put at its place, with zeros in the gap. -/
theorem addToStringTable_spec (h : Inv dontsplit t) (addnullchar : Bool)
    (hlen : dontsplit → (itemOf data addnullchar).length ≤ strBlockSize) :
    ∃ r, addToStringTable t data addnullchar = some r ∧ Inv dontsplit r.table ∧
      r.table.written = put 0 t.written
        ⟨place dontsplit t.written.length (itemOf data addnullchar).length, itemOf data addnullchar⟩ ∧
      (place dontsplit t.written.length (itemOf data addnullchar).length ≤ 2 ^ 32 →
        r.offs = place dontsplit t.written.length (itemOf data addnullchar).length) := by
  rw [itemOf_length] at hlen ⊢
  have hnul : (if addnullchar then data.length + 1 else data.length) = data.length + addnullchar.toNat := by
    cases addnullchar <;> rfl
  have hshort : (t.noSplitItems && decide (strBlockSize < data.length + addnullchar.toNat)) = false := by
    rw [h.noSplitItems]
    cases dontsplit
    · rfl
    · simpa using hlen rfl
  unfold addToStringTable
  dsimp only
  rw [hnul, hshort, if_neg (by decide)]
  cases dontsplit with
  | false =>
      obtain ⟨t', data', start, hloop, hfilling, hwritten, hfits, hused, hstart⟩ :=
        addLoop_split h.toFilling (data.length + addnullchar.toNat + 2) data addnullchar.toNat
          (by cases addnullchar <;> decide) (by split <;> omega) none
      rw [hloop]
      refine ⟨_, rfl, hfilling.copy ?_ ?_, ?_, ?_⟩
      · rw [copy_eq, itemOf_length]
        exact hfits
      · rw [copy_eq]
        intro hnil
        obtain ⟨hlast, hitem⟩ := List.append_eq_nil_iff.mp hnil
        have hzero := congrArg List.length hitem
        rw [itemOf_length, List.length_nil] at hzero
        rcases hused with ⟨rfl, -⟩ | hpos
        · exact h.used hlast
        · omega
      · rw [written_append, copy_eq, ← itemOf_append, hwritten, itemOf_append, put]
        simp [place]
      · intro hle
        have hpos := h.written_length
        change t.written.length ≤ 2 ^ 32 at hle
        change start.getD (t'.lastBlkStart + t'.last.length) = t.written.length
        rw [hstart, Option.getD_none, h.lastBlkStart (h.base_lt hle), hpos]
  | true =>
      obtain ⟨t', start, hloop, hfilling, hwritten, hfits, hused, hstart⟩ :=
        addLoop_noSplit h (data.length + addnullchar.toNat) (hlen rfl) data
      rw [hloop]
      refine ⟨_, rfl, hfilling.copy ?_ ?_, ?_, ?_⟩
      · rw [copy_eq, itemOf_length]
        exact hfits
      · rw [copy_eq]
        intro hnil
        obtain ⟨hlast, hitem⟩ := List.append_eq_nil_iff.mp hnil
        have hzero := congrArg List.length hitem
        rw [itemOf_length, List.length_nil] at hzero
        rcases hused with rfl | hpos
        · exact h.used hlast
        · omega
      · rw [written_append, copy_eq, hwritten, put]
      · exact hstart

theorem add_spec (h : Inv dontsplit t) (a : Addition) (hlen : dontsplit → a.bytes.length ≤ strBlockSize) :
    ∃ r, add t a = some r ∧ Inv dontsplit r.table ∧
      r.table.written = put 0 t.written ⟨place dontsplit t.written.length a.bytes.length, a.bytes⟩ ∧
      (place dontsplit t.written.length a.bytes.length ≤ 2 ^ 32 →
        r.offs = place dontsplit t.written.length a.bytes.length) := by
  cases a with
  | char data => exact addToStringTable_spec h false hlen
  | string data => exact addToStringTable_spec h false hlen
  | buffer data => exact addToStringTable_spec h false hlen
  | symbol data => exact addToStringTable_spec h true hlen

theorem addAll_spec (h : Inv dontsplit t) (l : List Addition)
    (hlen : ∀ a ∈ l, dontsplit → a.bytes.length ≤ strBlockSize) :
    ∃ t' offs, addAll t l = some (t', offs) ∧ Inv dontsplit t' ∧
      t'.written = putAll 0 t.written (extents dontsplit t.written.length (l.map Addition.bytes)) ∧
      t'.written.length = tableEnd dontsplit t.written.length (l.map Addition.bytes) ∧
      (t'.written.length ≤ 2 ^ 32 →
        offs = (extents dontsplit t.written.length (l.map Addition.bytes)).map Extent.start) := by
  induction l generalizing t with
  | nil => exact ⟨t, [], rfl, h, rfl, rfl, fun _ => rfl⟩
  | cons a l ih =>
      obtain ⟨hlen1, hlen2⟩ := List.forall_mem_cons.mp hlen
      obtain ⟨r, hadd, hinv, hwritten, hoffs⟩ := add_spec h a hlen1
      obtain ⟨t', offs, hall, hinv', hwritten', hend, hoffs'⟩ := ih hinv hlen2
      have hpos : r.table.written.length = place dontsplit t.written.length a.bytes.length + a.bytes.length := by
        rw [hwritten, put_length 0 le_place]
        rfl
      have hle := le_tableEnd dontsplit r.table.written.length (l.map Addition.bytes)
      refine ⟨t', r.offs :: offs, ?_, hinv', ?_, ?_, ?_⟩
      · rw [addAll, hadd, Option.bind_some, hall, Option.map_some]
      · rw [hwritten', hpos, hwritten]
        rfl
      · rw [hend, hpos]
        rfl
      · intro hlt
        rw [hoffs' hlt, hoffs (by omega), hpos]
        rfl

/-! ### The table as a whole -/

/-- What `WriteStringTable` hands out, put together. -/
def output (t : Table) : List Byte := writeStringTable t (· ++ ·) []

theorem output_eq (t : Table) : output t = t.written := by
  have hfold (l : List (List Byte)) (acc : List Byte) : l.foldl (· ++ ·) acc = acc ++ l.flatten := by
    induction l generalizing acc with
    | nil => simp
    | cons b l ih => rw [List.foldl_cons, ih, List.flatten_cons, List.append_assoc]
  rw [output, writeStringTable, hfold]
  simp [Table.written]

/-- The item `d` lies at `s` in `out`. -/
def LiesAt (out : List Byte) (s : ℕ) (d : List Byte) : Prop := ∀ j < d.length, out[s + j]? = d[j]?

/-- The table is written as the items say: its size is the one reported; split items follow one another, at the offsets
returned; unsplit items lie in one block each, at the offsets returned, with zeros between them. -/
def WrittenFaithfully (dontsplit : Bool) (l : List Addition) : Prop :=
  ∃ t offs, addAll (initStringTable dontsplit) l = some (t, offs) ∧ offs.length = l.length ∧
    (output t).length = getStringTableSize t ∧
    (dontsplit = false → output t = (l.map Addition.bytes).flatten ∧
      ∀ i < l.length, offs[i]? = some ((l.take i).map Addition.bytes).flatten.length) ∧
    (dontsplit = true →
      (∀ p ∈ l.zip offs, LiesAt (output t) p.2 p.1.bytes ∧ p.2 % strBlockSize + p.1.bytes.length ≤ strBlockSize) ∧
      ∀ k < (output t).length, (∀ p ∈ l.zip offs, k < p.2 ∨ p.2 + p.1.bytes.length ≤ k) → (output t)[k]? = some 0)

/-- The size that is reported is right as long as the mask leaves the base alone. -/
theorem size_eq_iff (h : Inv dontsplit t) : (output t).length = getStringTableSize t ↔ (output t).length ≤ 2 ^ 32 := by
  have hpos := h.written_length
  have hlast := h.last
  have hstart := Filling.lastBlkStart_lt t
  rw [output_eq, getStringTableSize]
  constructor
  · intro heq
    unfold strBlockSize at *
    omega
  · intro hle
    rw [h.lastBlkStart (h.base_lt hle), hpos]

theorem extents_length (l : List (List Byte)) : (extents dontsplit pos l).length = l.length := by
  induction l generalizing pos with
  | nil => rfl
  | cons d l ih => rw [extents, List.length_cons, ih, List.length_cons]

theorem extents_split (l : List (List Byte)) (file : List Byte) :
    putAll 0 file (extents false file.length l) = file ++ l.flatten ∧
      ∀ i < l.length, ((extents false file.length l).map Extent.start)[i]? =
        some (file.length + (l.take i).flatten.length) := by
  induction l generalizing file with
  | nil => exact ⟨by simp [extents], fun i hi => absurd hi (Nat.not_lt_zero i)⟩
  | cons d l ih =>
      have hplace : place false file.length d.length = file.length := by simp [place]
      obtain ⟨hput, hstart⟩ := ih (file ++ d)
      rw [List.length_append] at hput hstart
      have hfirst : put 0 file ⟨file.length, d⟩ = file ++ d := by simp [put]
      constructor
      · rw [extents, hplace, putAll_cons, hfirst, hput, List.flatten_cons, List.append_assoc]
      · intro i hi
        rw [extents, hplace, List.map_cons]
        cases i with
        | zero => simp
        | succ i =>
            rw [List.getElem?_cons_succ, hstart i (Nat.lt_of_succ_lt_succ hi), List.take_succ_cons, List.flatten_cons,
              List.length_append, Nat.add_assoc]

theorem extents_block {l : List (List Byte)} (hlen : ∀ d ∈ l, d.length ≤ strBlockSize) :
    ∀ e ∈ extents true pos l, e.start % strBlockSize + e.bytes.length ≤ strBlockSize := by
  induction l generalizing pos with
  | nil => exact fun e he => absurd he List.not_mem_nil
  | cons d l ih =>
      obtain ⟨hd, hl⟩ := List.forall_mem_cons.mp hlen
      rw [extents, List.forall_mem_cons]
      exact ⟨place_block hd, ih hl⟩

/-- The extents of items are the items at their starts. -/
theorem zip_extents (dontsplit : Bool) (pos : ℕ) (l : List Addition) :
    (l.zip ((extents dontsplit pos (l.map Addition.bytes)).map Extent.start)).map
      (fun p => (⟨p.2, p.1.bytes⟩ : Extent Byte)) = extents dontsplit pos (l.map Addition.bytes) := by
  induction l generalizing pos with
  | nil => rfl
  | cons a l ih => rw [List.map_cons, extents, List.map_cons, List.zip_cons_cons, List.map_cons, ih]

theorem finish_extents (l : List (List Byte)) :
    finish pos ((extents dontsplit pos l).map span) = tableEnd dontsplit pos l := by
  induction l generalizing pos with
  | nil => rfl
  | cons d l ih =>
      rw [extents, List.map_cons, finish_cons, tableEnd, ← ih]
      rfl

/-- Tables that end within 32 bits are written as they should be. -/
theorem written_of_le {l : List Addition} (hlen : ∀ a ∈ l, dontsplit → a.bytes.length ≤ strBlockSize)
    (hend : tableEnd dontsplit 0 (l.map Addition.bytes) ≤ 2 ^ 32) : WrittenFaithfully dontsplit l := by
  obtain ⟨t, offs, hall, hinv, hwritten, hlength, hoffs⟩ := addAll_spec (Inv.init dontsplit) l hlen
  have hempty : (initStringTable dontsplit).written = [] := rfl
  rw [hempty, List.length_nil] at hwritten hlength hoffs
  have hstarts := hoffs (by omega)
  refine ⟨t, offs, hall, ?_, (size_eq_iff hinv).mpr (by rw [output_eq]; omega), ?_, ?_⟩
  · rw [hstarts, List.length_map, extents_length, List.length_map]
  · rintro rfl
    obtain ⟨hput, hstart⟩ := extents_split (l.map Addition.bytes) []
    refine ⟨by rw [output_eq, hwritten]; exact hput, fun i hi => ?_⟩
    have hat := hstart i (by rwa [List.length_map])
    rw [List.length_nil, Nat.zero_add, ← List.map_take] at hat
    rw [hstarts, hat]
  · rintro rfl
    have hzip := zip_extents true 0 l
    rw [← hstarts] at hzip
    have hasc := extents_ascending true 0 (l.map Addition.bytes)
    constructor
    · intro p hp
      have hmem : (⟨p.2, p.1.bytes⟩ : Extent Byte) ∈ extents true 0 (l.map Addition.bytes) := by
        rw [← hzip]
        exact List.mem_map_of_mem hp
      refine ⟨fun j hj => ?_, ?_⟩
      · rw [output_eq, hwritten]
        exact putAll_getElem?_of_mem 0 [] _ hasc _ hmem j hj
      · refine extents_block (fun d hd => ?_) _ hmem
        obtain ⟨a, ha, rfl⟩ := List.mem_map.mp hd
        exact hlen a ha rfl
    · intro k hk hgap
      rw [output_eq] at hk ⊢
      rw [hwritten]
      refine putAll_getElem?_of_gap 0 [] _ hasc k (Nat.zero_le k) ?_ ?_
      · rw [List.length_nil, finish_extents]
        omega
      · intro e he
        rw [← hzip] at he
        obtain ⟨p, hp, rfl⟩ := List.mem_map.mp he
        exact hgap p hp

/-- Longer tables have the wrong size. -/
theorem not_written_of_lt {l : List Addition} (hlen : ∀ a ∈ l, dontsplit → a.bytes.length ≤ strBlockSize)
    (hend : 2 ^ 32 < tableEnd dontsplit 0 (l.map Addition.bytes)) : ¬ WrittenFaithfully dontsplit l := by
  rintro ⟨t, offs, hall, -, hsize, -⟩
  obtain ⟨t', offs', hall', hinv, -, hlength, -⟩ := addAll_spec (Inv.init dontsplit) l hlen
  rw [hall, Option.some.injEq, Prod.mk.injEq] at hall'
  obtain ⟨rfl, rfl⟩ := hall'
  rw [size_eq_iff hinv, output_eq, hlength] at hsize
  exact absurd hsize (not_le.mpr hend)

/-- String tables are written as they should be exactly when they end within 32 bits. -/
theorem string_table_written (dontsplit : Bool) (l : List Addition)
    (hlen : ∀ a ∈ l, dontsplit → a.bytes.length ≤ strBlockSize) :
    WrittenFaithfully dontsplit l ↔ tableEnd dontsplit 0 (l.map Addition.bytes) ≤ 2 ^ 32 :=
  ⟨fun h => not_lt.mp fun hlt => not_written_of_lt hlen hlt h, written_of_le hlen⟩

theorem string_table_written_two :
    WrittenFaithfully true [.symbol [65], .char 66] ↔ tableEnd true 0 [[65, 0], [66]] ≤ 2 ^ 32 :=
  string_table_written true [.symbol [65], .char 66] (by decide)

/-- One buffer of `2 ^ 32 + 1` bytes: the size that is reported is 1. -/
theorem not_string_table_written : ¬ WrittenFaithfully false [.buffer (List.replicate (2 ^ 32 + 1) 0)] := by
  apply not_written_of_lt
  · intro a ha hsplit
    exact absurd hsplit (by decide)
  · rw [List.map_cons, List.map_nil, tableEnd, tableEnd, Addition.bytes, List.length_replicate]
    norm_num [place]

end OpenWatcom.Wlink.StringTable
