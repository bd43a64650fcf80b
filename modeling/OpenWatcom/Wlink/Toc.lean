import OpenWatcom.Wlink.HashTable
import Mathlib.Data.BitVec

/-! # The table of contents

The words that position independent code loads addresses from. An entry is asked for by a symbol, or by a segment and
an offset; the pointer to a symbol and the offset are in a union, of which an offset fills the first four bytes only.

* `Toc.Holds`: the table after the requests;
* `Toc.Prepared`: the table after `PrepareToc`, in which the symbols of segments have become offsets;
* `Toc.works_iff`: the lookups that find a slot, with the address that is written there. -/

namespace OpenWatcom.Wlink

/-- `offset`. -/
abbrev Offset := BitVec 32

namespace Toc

def BOGUS : Offset := 0xa5a5a5a5

variable {Seg H : Type*} [DecidableEq Seg] [DecidableEq H]

/-- The union is its first four bytes and the rest of a pointer: none on a host of 32 bits. -/
structure TocEntryId (Seg H : Type*) where
  sdata : Option Seg
  first : Offset
  rest : H
deriving DecidableEq

structure TocEntry (Seg H : Type*) where
  e : TocEntryId Seg H
  pos : Offset

/-- A pointer to a symbol. -/
abbrev SymPtr (H : Type*) := Offset × H

/-- The type of a symbol, its segment where it has one, and its offset; for a group, the linear address. -/
inductive Symbol (Seg : Type*)
  | imported (seg : Option Seg) (off : Offset)
  | group (linear off : Offset)
  | regular (seg : Option Seg) (off : Offset)

structure SegData where
  delta : Offset
  /-- The offset of the leader. -/
  leaderOff : Offset
  /-- The linear address of the group of the leader. -/
  linear : Offset

/-- What the linker knows of symbols and segments at a time. -/
structure Layout (Seg H : Type*) where
  sym : SymPtr H → Symbol Seg
  seg : Seg → SegData
  base : Offset

/-- `AddSymToToc`, and `AddSdataOffToToc` with what is left of the union before the offset is put into it. -/
inductive Request (Seg H : Type*)
  | sym (sym : SymPtr H)
  | sdataOff (sdata : Seg) (off : Offset) (rest : H)

/-- The identifier of a request. -/
def Request.id : Request Seg H → TocEntryId Seg H
  | .sym s => ⟨none, s.1, s.2⟩
  | .sdataOff sdata off rest => ⟨some sdata, off, rest⟩

namespace Layout

/-- `SymbolAbsAddr`. -/
def symbolAbsAddr (σ : Layout Seg H) (sym : SymPtr H) : Offset :=
  match σ.sym sym with
  | .imported (some seg) off => off + ((σ.seg seg).linear + σ.base)
  | .imported none off => off
  | .group linear off => off + (linear + σ.base)
  | .regular (some seg) off => off + ((σ.seg seg).linear + σ.base)
  | .regular none off => off

/-- `ConvertTocEntryId`. -/
def convert (σ : Layout Seg H) (e : TocEntryId Seg H) : TocEntryId Seg H :=
  match e.sdata with
  | some _ => e
  | none =>
    match σ.sym (e.first, e.rest) with
    | .regular (some seg) off =>
      { e with sdata := some seg, first := off - (σ.seg seg).delta - (σ.seg seg).leaderOff }
    | _ => e

/-- The address that `WriteOutTokElem` writes for an entry. -/
def entryAddr (σ : Layout Seg H) (e : TocEntryId Seg H) : Offset :=
  match e.sdata with
  | some sdata =>
    e.first + (σ.seg sdata).delta + (σ.seg sdata).linear + (σ.seg sdata).leaderOff + σ.base
  | none => σ.symbolAbsAddr (e.first, e.rest)

/-- The segment of a symbol, and its offset from there. -/
def place (σ : Layout Seg H) (sym : SymPtr H) : Option (Seg × Offset) :=
  match σ.sym sym with
  | .regular (some seg) off => some (seg, off - (σ.seg seg).delta - (σ.seg seg).leaderOff)
  | _ => none

/-- The addresses that `CalcAddresses` gives to symbols move with their segments. -/
def Moves (σ σ' : Layout Seg H) : Prop := ∀ sym, σ'.place sym = σ.place sym

omit [DecidableEq Seg] [DecidableEq H] in
theorem convert_eq (σ : Layout Seg H) (sym : SymPtr H) :
    σ.convert ⟨none, sym.1, sym.2⟩ =
      match σ.place sym with
      | some (seg, off) => ⟨some seg, off, sym.2⟩
      | none => ⟨none, sym.1, sym.2⟩ := by
  simp only [convert, place]
  cases σ.sym sym with
  | regular seg off => cases seg <;> rfl
  | imported seg off => rfl
  | group linear off => rfl

omit [DecidableEq Seg] [DecidableEq H] in
theorem Moves.convert {σ σ' : Layout Seg H} (h : Moves σ σ') (q : Request Seg H) :
    σ'.convert q.id = σ.convert q.id := by
  cases q with
  | sym sym => rw [Request.id, convert_eq, convert_eq, h sym]
  | sdataOff sdata off rest => rfl

omit [DecidableEq Seg] [DecidableEq H] in
/-- A symbol has the address of the place it is converted to. -/
theorem entryAddr_convert (σ : Layout Seg H) (q : Request Seg H) :
    σ.entryAddr (σ.convert q.id) = σ.entryAddr q.id := by
  cases q with
  | sdataOff sdata off rest => rfl
  | sym sym =>
      rw [Request.id, convert_eq, place]
      simp only [entryAddr, symbolAbsAddr]
      cases hs : σ.sym sym with
      | imported seg off => rw [hs]
      | group linear off => rw [hs]
      | regular seg off =>
          cases seg with
          | none => rw [hs]
          | some seg =>
              simp only
              ring

end Layout

/-- The table, `TocSize` and `TocShift`. -/
structure State (Seg H : Type*) where
  table : HTable (TocEntry Seg H)
  tocSize : Offset
  tocShift : Offset

/-- The bytes of an identifier, as signed numbers, and the bits of an `unsigned long`. -/
structure Host (Seg H : Type*) where
  bytes : TocEntryId Seg H → List ℤ
  long : ℕ

/-- `TocEntryHashFunc`, for the size of the table. -/
def tocEntryHash (host : Host Seg H) (entry : TocEntry Seg H) : ℕ := dataHashFunc host.long (host.bytes entry.e) 1024

/-- `TocEntryCmp` finds all bytes equal. -/
def tocEntryCmp (e1 e2 : TocEntry Seg H) : Bool := e1.e = e2.e

/-- `InitToc`, for a PE program or for another one. -/
def initToc (pe : Bool) : State Seg H := ⟨HTable.create 1024, 0, if pe then 0x8000 else BOGUS⟩

/-- `AddToToc`. -/
def addToToc (host : Host Seg H) (toc : State Seg H) (e : TocEntryId Seg H) : State Seg H :=
  match toc.table.findElem (tocEntryHash host) tocEntryCmp ⟨e, 0⟩ with
  | some _ => toc
  | none =>
    { toc with
      table := toc.table.addElem (tocEntryHash host) tocEntryCmp ⟨e, toc.tocSize⟩
      tocSize := toc.tocSize + 4 }

/-- The requests, one after the other. -/
def addRequests (host : Host Seg H) (toc : State Seg H) (reqs : List (Request Seg H)) : State Seg H :=
  reqs.foldl (fun toc q => addToToc host toc q.id) toc

/-- `ConvertTocEntry`. -/
def convertEntry (σ : Layout Seg H) (entry : TocEntry Seg H) : TocEntry Seg H := { entry with e := σ.convert entry.e }

/-- `PrepareToc`. -/
def prepareToc (host : Host Seg H) (σ : Layout Seg H) (toc : State Seg H) : State Seg H :=
  { toc with table := (toc.table.walk (convertEntry σ)).rehash (tocEntryHash host) }

/-- `OffFromToc`, and whether it says that the table is too big. -/
def offFromToc (toc : State Seg H) (off : Offset) : Offset × Bool :=
  (off - toc.tocShift, ((off - toc.tocShift).truncate 16).signExtend 32 ≠ off - toc.tocShift)

/-- `FindEntryPosInToc`. -/
def findEntryPosInToc (host : Host Seg H) (toc : State Seg H) (e : TocEntryId Seg H) : Offset × Bool :=
  match toc.table.findElem (tocEntryHash host) tocEntryCmp ⟨e, 0⟩ with
  | some entry => offFromToc toc entry.pos
  | none => (BOGUS, false)

/-- `FindSymPosInToc` and `FindSdataOffPosInToc`. -/
def findPosInToc (host : Host Seg H) (σ : Layout Seg H) (toc : State Seg H) : Request Seg H → Offset × Bool
  | .sym sym => findEntryPosInToc host toc (σ.convert (Request.sym sym).id)
  | .sdataOff sdata off rest => findEntryPosInToc host toc (Request.sdataOff sdata off rest).id

/-- `WriteToc`: the word at each place of the buffer that is written to. -/
def writeToc (σ : Layout Seg H) (toc : State Seg H) : Offset → Option Offset :=
  toc.table.walkCookie (fun buf entry => Function.update buf entry.pos (some (σ.entryAddr entry.e))) fun _ => none

/-- A lookup gives the position of a slot of the table, and the address of what is looked up is written there. -/
def Works (host : Host Seg H) (σ : Layout Seg H) (toc : State Seg H) (q : Request Seg H) : Prop :=
  ∃ pos : Offset, pos.toNat % 4 = 0 ∧ pos < toc.tocSize ∧ (findPosInToc host σ toc q).1 = pos - toc.tocShift ∧
    (findPosInToc host σ toc q).1 ≠ BOGUS ∧ writeToc σ toc pos = some (σ.entryAddr q.id)

variable {host : Host Seg H} {toc : State Seg H} {reqs : List (Request Seg H)} {σ σ' : Layout Seg H}

omit [DecidableEq Seg] [DecidableEq H] in
theorem tocEntryHash_lt (host : Host Seg H) (entry : TocEntry Seg H) : tocEntryHash host entry < 1024 :=
  dataHashFunc_lt _ _ (by decide)

theorem findPosInToc_eq (q : Request Seg H) :
    findPosInToc host σ toc q = findEntryPosInToc host toc (σ.convert q.id) := by
  cases q <;> rfl

/-- The entries of a table: identifiers of the requests, and a slot of its own for each. -/
structure Slots (toc : State Seg H) (ids : List (TocEntryId Seg H)) (n : ℕ) : Prop where
  size : toc.table.size = 1024
  entry_id : ∀ entry ∈ toc.table, entry.e ∈ ids
  id_entry : ∀ e ∈ ids, ∃ entry ∈ toc.table, entry.e = e
  tocSize : toc.tocSize.toNat = 4 * n
  slot : ∀ entry ∈ toc.table, ∃ k < n, entry.pos.toNat = 4 * k
  own : ∀ entry ∈ toc.table, ∀ entry' ∈ toc.table, entry.pos = entry'.pos → entry.e = entry'.e

/-- The table after requests. -/
structure Holds (host : Host Seg H) (toc : State Seg H) (reqs : List (Request Seg H)) : Prop where
  placed : toc.table.Placed (tocEntryHash host)
  slots : ∃ n ≤ reqs.length, Slots toc (reqs.map Request.id) n

theorem Holds.addToToc (h : Holds host toc reqs) (q : Request Seg H) (hlen : 4 * (reqs.length + 1) < 2 ^ 32) :
    Holds host (addToToc host toc q.id) (reqs ++ [q]) := by
  obtain ⟨n, hn, hs⟩ := h.slots
  have hlt (e : TocEntry Seg H) : tocEntryHash host e < toc.table.size := hs.size ▸ tocEntryHash_lt host e
  unfold Toc.addToToc
  cases hf : toc.table.findElem (tocEntryHash host) tocEntryCmp ⟨q.id, 0⟩ with
  | some entry =>
      obtain ⟨hmem, hcmp⟩ := HTable.mem_of_findElem (hlt _) hf
      refine ⟨h.placed, n, by simp; omega, hs.size, fun e he => ?_, fun e he => ?_, hs.tocSize, hs.slot, hs.own⟩
      · simpa using .inl (by simpa using hs.entry_id e he)
      · rw [List.map_append, List.mem_append] at he
        obtain he | he := he
        · exact hs.id_entry e he
        · obtain rfl : e = q.id := by simpa using he
          exact ⟨entry, hmem, by simpa [tocEntryCmp, eq_comm] using hcmp⟩
  | none =>
      have hnone (entry : TocEntry Seg H) (hmem : entry ∈ toc.table) : entry.e ≠ q.id := by
        intro heq
        have := h.placed.find_none hf entry hmem (by simp only [tocEntryHash, heq])
        simp [tocEntryCmp, heq] at this
      have hnew (e : TocEntry Seg H) :
          e ∈ toc.table.addElem (tocEntryHash host) tocEntryCmp ⟨q.id, toc.tocSize⟩ ↔
            e = ⟨q.id, toc.tocSize⟩ ∨ e ∈ toc.table :=
        HTable.mem_addElem (hlt _) (fun e he _ hc => hnone e he (by simpa [tocEntryCmp, eq_comm] using hc)) h.placed
      have hold {entry : TocEntry Seg H} (he : entry ∈ toc.table) : entry.pos ≠ toc.tocSize := by
        obtain ⟨k, hk, hpos⟩ := hs.slot entry he
        intro heq
        have := hs.tocSize
        rw [heq] at hpos
        omega
      refine ⟨HTable.addElem_placed h.placed, n + 1, by simp; omega, by simpa using hs.size, fun e he => ?_,
        fun e he => ?_, ?_, fun e he => ?_, fun e he e' he' hpos => ?_⟩
      · obtain rfl | he := (hnew e).mp he
        · simp
        · simpa using .inl (by simpa using hs.entry_id e he)
      · rw [List.map_append, List.mem_append] at he
        obtain he | he := he
        · obtain ⟨entry, hentry, rfl⟩ := hs.id_entry e he
          exact ⟨entry, (hnew entry).mpr (.inr hentry), rfl⟩
        · obtain rfl : e = q.id := by simpa using he
          exact ⟨⟨q.id, toc.tocSize⟩, (hnew _).mpr (.inl rfl), rfl⟩
      · have := hs.tocSize
        simp only [BitVec.toNat_add, this]
        simp
        omega
      · obtain rfl | he := (hnew e).mp he
        · exact ⟨n, by omega, hs.tocSize⟩
        · obtain ⟨k, hk, hpos⟩ := hs.slot e he
          exact ⟨k, by omega, hpos⟩
      · obtain rfl | he := (hnew e).mp he
        · obtain rfl | he' := (hnew e').mp he'
          · rfl
          · exact absurd hpos.symm (hold he')
        · obtain rfl | he' := (hnew e').mp he'
          · exact absurd hpos (hold he)
          · exact hs.own e he e' he' hpos

theorem addRequests_holds (host : Host Seg H) (pe : Bool) (reqs : List (Request Seg H))
    (hlen : 4 * reqs.length < 2 ^ 32) : Holds host (addRequests host (initToc pe) reqs) reqs := by
  induction reqs using List.reverseRecOn with
  | nil =>
      refine ⟨HTable.create_placed _ _, 0, le_rfl, rfl, fun e he => ?_, fun e he => ?_, rfl, fun e he => ?_,
        fun e he => ?_⟩
      · exact absurd he HTable.not_mem_create
      · exact nomatch he
      · exact absurd he HTable.not_mem_create
      · exact absurd he HTable.not_mem_create
  | append_singleton reqs q ih =>
      rw [List.length_append, List.length_singleton] at hlen
      rw [addRequests, List.foldl_append]
      exact (ih (by omega)).addToToc q hlen

omit [DecidableEq Seg] [DecidableEq H] in
theorem prepareToc_placed (host : Host Seg H) (σ : Layout Seg H) (h : toc.table.size = 1024) :
    (prepareToc host σ toc).table.Placed (tocEntryHash host) :=
  HTable.rehash_placed fun e => (tocEntryHash_lt host e).trans_eq h.symm

omit [DecidableEq Seg] [DecidableEq H] in
theorem mem_prepareToc (h : toc.table.size = 1024) {entry : TocEntry Seg H} :
    entry ∈ (prepareToc host σ toc).table ↔ ∃ old ∈ toc.table, convertEntry σ old = entry := by
  have hlt (e : TocEntry Seg H) : tocEntryHash host e < (toc.table.walk (convertEntry σ)).size :=
    (tocEntryHash_lt host e).trans_eq h.symm
  exact (HTable.mem_rehash hlt).trans HTable.mem_walk

omit [DecidableEq Seg] [DecidableEq H] in
/-- Each entry keeps its slot, also when two of them are now for one place. -/
theorem Slots.prepareToc (host : Host Seg H) (σ : Layout Seg H) {ids : List (TocEntryId Seg H)} {n : ℕ} (hs : Slots toc ids n) :
    Slots (prepareToc host σ toc) (ids.map σ.convert) n where
  size := hs.size
  tocSize := hs.tocSize
  entry_id := by
    intro e he
    obtain ⟨old, hold, rfl⟩ := (mem_prepareToc hs.size).mp he
    exact List.mem_map_of_mem (hs.entry_id old hold)
  id_entry := by
    intro e he
    obtain ⟨i, hi, rfl⟩ := List.mem_map.mp he
    obtain ⟨old, hold, rfl⟩ := hs.id_entry i hi
    exact ⟨convertEntry σ old, (mem_prepareToc hs.size).mpr ⟨old, hold, rfl⟩, rfl⟩
  slot := by
    intro e he
    obtain ⟨old, hold, rfl⟩ := (mem_prepareToc hs.size).mp he
    exact hs.slot old hold
  own := by
    intro e he e' he' hpos
    obtain ⟨old, hold, rfl⟩ := (mem_prepareToc hs.size).mp he
    obtain ⟨old', hold', rfl⟩ := (mem_prepareToc hs.size).mp he'
    exact congrArg σ.convert (hs.own old hold old' hold' hpos)

omit [DecidableEq Seg] [DecidableEq H] in
theorem foldl_update (σ : Layout Seg H) (l : List (TocEntry Seg H)) (buf : Offset → Option Offset) {pos a : Offset}
    (hsame : ∀ entry ∈ l, entry.pos = pos → σ.entryAddr entry.e = a)
    (h : buf pos = some a ∨ ∃ entry ∈ l, entry.pos = pos) :
    l.foldl (fun (buf : Offset → Option Offset) entry => Function.update buf entry.pos (some (σ.entryAddr entry.e)))
      buf pos = some a := by
  induction l generalizing buf with
  | nil => simpa using h
  | cons entry l ih =>
      refine ih (Function.update buf entry.pos (some (σ.entryAddr entry.e)))
        (fun e he => hsame e (List.mem_cons_of_mem entry he)) ?_
      by_cases hpos : entry.pos = pos
      · subst hpos
        exact .inl (by rw [Function.update_self, hsame entry List.mem_cons_self rfl])
      · rw [Function.update_of_ne (Ne.symm hpos)]
        obtain h | ⟨e, he, hep⟩ := h
        · exact .inl h
        · obtain rfl | he := List.mem_cons.mp he
          · exact absurd hep hpos
          · exact .inr ⟨e, he, hep⟩

omit [DecidableEq Seg] [DecidableEq H] in
/-- The word at the slot of an entry. -/
theorem Slots.writeToc {ids : List (TocEntryId Seg H)} {n : ℕ} (hs : Slots toc ids n) (σ : Layout Seg H)
    {entry : TocEntry Seg H} (he : entry ∈ toc.table) : writeToc σ toc entry.pos = some (σ.entryAddr entry.e) := by
  have hmem (e : TocEntry Seg H) : e ∈ (List.range toc.table.size).flatMap toc.table.tbl ↔ e ∈ toc.table := by
    simp [HTable.mem_def]
  rw [Toc.writeToc, HTable.walkCookie, ← List.foldl_flatMap]
  refine foldl_update σ _ _ (fun e hel hpos => ?_) (.inr ⟨entry, (hmem entry).mpr he, rfl⟩)
  rw [hs.own e ((hmem e).mp hel) entry he hpos]

/-- What a lookup of an identifier finds. -/
theorem Slots.find {ids : List (TocEntryId Seg H)} {n : ℕ} (hs : Slots toc ids n)
    (hp : toc.table.Placed (tocEntryHash host)) (e : TocEntryId Seg H) :
    (e ∈ ids → ∃ entry ∈ toc.table, entry.e = e ∧
      findEntryPosInToc host toc e = offFromToc toc entry.pos) ∧
    (e ∉ ids → findEntryPosInToc host toc e = (BOGUS, false)) := by
  have hlt (e : TocEntry Seg H) : tocEntryHash host e < toc.table.size := hs.size ▸ tocEntryHash_lt host e
  unfold findEntryPosInToc
  cases hf : toc.table.findElem (tocEntryHash host) tocEntryCmp ⟨e, 0⟩ with
  | some entry =>
      obtain ⟨hmem, hcmp⟩ := HTable.mem_of_findElem (hlt _) hf
      have hid : entry.e = e := by simpa [tocEntryCmp, eq_comm] using hcmp
      exact ⟨fun _ => ⟨entry, hmem, hid, rfl⟩, fun h => absurd (hid ▸ hs.entry_id entry hmem) h⟩
  | none =>
      refine ⟨fun h => ?_, fun _ => rfl⟩
      obtain ⟨entry, hmem, hid⟩ := hs.id_entry e h
      have := hp.find_none hf entry hmem (by simp only [tocEntryHash, hid])
      simp [tocEntryCmp, hid] at this

/-- A slot is never at the position that stands for none. -/
theorem offFromToc_ne_bogus {pos shift : Offset} (h : pos.toNat % 4 = 0) (hs : shift = 0x8000 ∨ shift = BOGUS) :
    pos - shift ≠ BOGUS := by
  intro heq
  have hpos : pos = BOGUS + shift := by rw [← heq, BitVec.sub_add_cancel]
  subst hpos
  obtain rfl | rfl := hs
  · revert h
    decide
  · revert h
    decide

theorem addToToc_tocShift (host : Host Seg H) (toc : State Seg H) (e : TocEntryId Seg H) :
    (addToToc host toc e).tocShift = toc.tocShift := by
  unfold addToToc
  split <;> rfl

theorem addRequests_tocShift (host : Host Seg H) (reqs : List (Request Seg H))
    (toc : State Seg H) : (addRequests host toc reqs).tocShift = toc.tocShift := by
  induction reqs generalizing toc with
  | nil => rfl
  | cons q reqs ih => exact (ih _).trans (addToToc_tocShift host toc q.id)

/-- The lookups that work are those whose identifier is that of a request. -/
theorem works_prepareToc_iff (host : Host Seg H) (pe : Bool) (hlen : 4 * reqs.length < 2 ^ 32) (hm : σ.Moves σ')
    (q : Request Seg H) :
    Works host σ' (prepareToc host σ (addRequests host (initToc pe) reqs)) q ↔
      ∃ q' ∈ reqs, σ.convert q'.id = σ.convert q.id := by
  have h := addRequests_holds host pe reqs hlen
  have hshift := addRequests_tocShift host reqs (initToc pe)
  generalize addRequests host (initToc pe) reqs = toc at h hshift
  obtain ⟨n, -, hs⟩ := h.slots
  have hp := prepareToc_placed host σ hs.size
  have hs' := hs.prepareToc host σ
  have hids : σ.convert q.id ∈ (reqs.map Request.id).map σ.convert ↔ ∃ q' ∈ reqs, σ.convert q'.id = σ.convert q.id := by
    simp
  obtain ⟨hin, hout⟩ := hs'.find hp (σ.convert q.id)
  rw [← hids, Works, findPosInToc_eq, hm.convert]
  constructor
  · rintro ⟨pos, -, -, -, hb, -⟩
    by_contra hq
    exact hb (by rw [hout hq])
  · intro hq
    obtain ⟨entry, hmem, hid, hfind⟩ := hin hq
    obtain ⟨k, hk, hpos⟩ := hs'.slot entry hmem
    refine ⟨entry.pos, by omega, ?_, by rw [hfind]; rfl, ?_, ?_⟩
    · rw [BitVec.lt_def, hs'.tocSize]
      omega
    · rw [hfind]
      refine offFromToc_ne_bogus (by omega) ?_
      rw [show (prepareToc host σ toc).tocShift = toc.tocShift from rfl, hshift]
      cases pe <;> simp [initToc]
    · rw [hs'.writeToc σ' hmem, hid, ← hm.convert, Layout.entryAddr_convert]

/-- Symbols are always found. An offset is found when the rest of the union holds what it held at a request for that
place, which on a host whose pointers are no longer than an offset it always does. -/
theorem toc_lookups_iff (host : Host Seg H) (pe : Bool) (reqs : List (Request Seg H))
    (hlen : 4 * reqs.length < 2 ^ 32) (σ σ' : Layout Seg H) (hm : σ.Moves σ') :
    (∀ s, .sym s ∈ reqs → Works host σ' (prepareToc host σ (addRequests host (initToc pe) reqs)) (.sym s)) ∧
    (∀ sdata off rest rest', .sdataOff sdata off rest ∈ reqs →
      (Works host σ' (prepareToc host σ (addRequests host (initToc pe) reqs)) (.sdataOff sdata off rest') ↔
        ∃ q ∈ reqs, σ.convert q.id = ⟨some sdata, off, rest'⟩)) ∧
    (Subsingleton H → ∀ sdata off rest rest', .sdataOff sdata off rest ∈ reqs →
      Works host σ' (prepareToc host σ (addRequests host (initToc pe) reqs)) (.sdataOff sdata off rest')) := by
  refine ⟨fun s hs => ?_, fun sdata off rest rest' _ => ?_, fun _ sdata off rest rest' hreq => ?_⟩
  · exact (works_prepareToc_iff host pe hlen hm _).mpr ⟨_, hs, rfl⟩
  · exact works_prepareToc_iff host pe hlen hm _
  · rw [Subsingleton.elim rest' rest]
    exact (works_prepareToc_iff host pe hlen hm _).mpr ⟨_, hreq, rfl⟩

section Example

/-- A symbol in the first segment, and a host of 64 bits that hashes nothing. -/
def oneSymbol : Layout ℕ (BitVec 32) := ⟨fun _ => .regular (some 0) 16, fun _ => ⟨0, 0, 0x1000⟩, 0x400000⟩

def plainHost : Host ℕ (BitVec 32) := ⟨fun _ => [], 64⟩

theorem toc_lookups_iff_two :
    Works plainHost oneSymbol (prepareToc plainHost oneSymbol (addRequests plainHost (initToc true)
      [.sdataOff 0 16 7, .sym (4, 7)])) (.sym (4, 7)) :=
  (toc_lookups_iff plainHost true [.sdataOff 0 16 7, .sym (4, 7)] (by simp) oneSymbol oneSymbol fun _ => rfl).1 (4, 7)
    (by simp)

/-- The rest of the union is not what it was at the request. -/
theorem not_toc_lookups :
    oneSymbol.Moves oneSymbol ∧ (.sdataOff 0 16 0 : Request ℕ (BitVec 32)) ∈ [Request.sdataOff 0 16 0] ∧
      ¬ Works plainHost oneSymbol (prepareToc plainHost oneSymbol (addRequests plainHost (initToc true)
        [.sdataOff 0 16 0])) (.sdataOff 0 16 1) := by
  have hm : oneSymbol.Moves oneSymbol := fun _ => rfl
  refine ⟨hm, by simp, ?_⟩
  rw [works_prepareToc_iff plainHost true (by simp) hm]
  simp [Request.id, Layout.convert]

end Example

end Toc

end OpenWatcom.Wlink
