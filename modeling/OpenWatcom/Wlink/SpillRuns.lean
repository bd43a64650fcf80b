import Mathlib.Data.List.GetD
import OpenWatcom.Lib.Runs
import OpenWatcom.Wlink.SpillFile

/-! # Runs of the spill file

The areas of a spill file against what is written to them: `Areas` keeps the bytes that were last written to each area,
and `Kept` says that a call seeks to no negative position and, if it reads, gives these bytes.

An access to offset `off` of an area at `base` is to the byte before `base + off`, so that areas stay apart, but the
first byte of an area at 0 is nowhere (`spill_kept`). -/

namespace OpenWatcom.Wlink

/-- A call, which names its area by the number of the allocation. -/
inductive SpillCall where
  | alloc (amt : ℕ)
  | write (area off : ℕ) (data : List Byte)
  | null (area off size : ℕ)
  | read (area off size : ℕ)
  deriving DecidableEq

namespace SpillFile

variable (f : SpillFile)

/-- `tmp_write_nulls`, which writes `NullArray`, 64 bytes, again and again. -/
def tmpWriteNulls (f : SpillFile) (len : ℕ) : SpillFile :=
  if 64 < len then tmpWriteNulls (f.tmpWrite (List.replicate 64 0)) (len - 64)
  else if 0 < len then f.tmpWrite (List.replicate len 0)
  else f
termination_by len

/-- `SpillNull`. -/
def spillNull (base off size : ℕ) : SpillFile := (f.tmpSeek (base + off - 1)).tmpWriteNulls size

/-- `SpillWrite` of any length: `tmp_write` returns at once when there is nothing to write. -/
def spillWriteAny (base off : ℕ) (data : List Byte) : SpillFile :=
  if data = [] then f.tmpSeek (base + off - 1) else f.spillWrite base off data

theorem tmpWrite_append (l m : List Byte) : (f.tmpWrite l).tmpWrite m = f.tmpWrite (l ++ m) := by
  unfold tmpWrite
  dsimp only
  rw [overlay_append, List.length_append]
  congr 1 <;> omega

theorem tmpWriteNulls_eq {f : SpillFile} {len : ℕ} (h : 0 < len) :
    f.tmpWriteNulls len = f.tmpWrite (List.replicate len 0) := by
  induction f, len using tmpWriteNulls.induct with
  | case1 f len hlen ih =>
      rw [tmpWriteNulls, if_pos hlen, ih (by omega), tmpWrite_append, ← List.replicate_add]
      congr 2
      omega
  | case2 f len hlen hpos => rw [tmpWriteNulls, if_neg hlen, if_pos hpos]
  | case3 f len hlen hzero => exact absurd h hzero

/-- Nulls are written as any bytes. -/
theorem spillNull_eq (base off size : ℕ) :
    f.spillNull base off size = f.spillWriteAny base off (List.replicate size 0) := by
  unfold spillNull spillWriteAny
  obtain rfl | h := Nat.eq_zero_or_pos size
  · rw [List.replicate_zero, if_pos rfl, tmpWriteNulls, if_neg (by decide), if_neg (lt_irrefl 0)]
  · rw [if_neg (by rw [List.replicate_eq_nil_iff]; omega), tmpWriteNulls_eq h]
    rfl

end SpillFile

/-- The file with the areas that were allocated. -/
structure SpillState where
  file : SpillFile
  bases : List ℕ

namespace SpillState

/-- A call. -/
def call (s : SpillState) : SpillCall → SpillState
  | .alloc amt => { file := (s.file.spillAlloc amt).2, bases := s.bases ++ [(s.file.spillAlloc amt).1] }
  | .write area off data => { s with file := s.file.spillWriteAny (s.bases.getD area 0) off data }
  | .null area off size => { s with file := s.file.spillNull (s.bases.getD area 0) off size }
  | .read area off size => { s with file := s.file.spillRead (s.bases.getD area 0) off size }

end SpillState

/-! ### What a spill file is for -/

/-- The sizes of the areas and the bytes that were last written to them. -/
structure Areas where
  sizes : List ℕ
  cells : ℕ → ℕ → Option Byte

namespace Areas

/-- Writing to an area changes no other one. -/
def put (a : Areas) (area off : ℕ) (data : List Byte) : Areas :=
  { a with cells := Function.update a.cells area (overlay (a.cells area) off (data.map some)) }

def call (a : Areas) : SpillCall → Areas
  | .alloc amt => { a with sizes := a.sizes ++ [amt] }
  | .write area off data => a.put area off data
  | .null area off size => a.put area off (List.replicate size 0)
  | .read _ _ _ => a

/-- The offset and the length lie inside the area. -/
def Inside (a : Areas) : SpillCall → Prop
  | .alloc _ => True
  | .write area off data => area < a.sizes.length ∧ off + data.length ≤ a.sizes.getD area 0
  | .null area off size => area < a.sizes.length ∧ off + size ≤ a.sizes.getD area 0
  | .read area off size => area < a.sizes.length ∧ off + size ≤ a.sizes.getD area 0

instance (a : Areas) : (c : SpillCall) → Decidable (a.Inside c)
  | .alloc _ => instDecidableTrue
  | .write _ _ _ => instDecidableAnd
  | .null _ _ _ => instDecidableAnd
  | .read _ _ _ => instDecidableAnd

end Areas

/-- The file and what it should keep. -/
structure SpillRun where
  spill : SpillState
  areas : Areas

namespace SpillRun

/-- Before the first call; `tokBuff` is what is in the buffer. -/
def start (tokBuff : ℕ → Byte) : SpillRun where
  spill := { file := .init tokBuff, bases := [] }
  areas := { sizes := [], cells := fun _ _ => none }

def call (r : SpillRun) (c : SpillCall) : SpillRun := { spill := r.spill.call c, areas := r.areas.call c }

/-- Allocations stay below 4 GB, and no access is to the first byte of an area at 0. -/
def HasPlace (r : SpillRun) : SpillCall → Prop
  | .alloc amt => (r.spill.file.filesize + 511) / 512 * 512 + amt < 2 ^ 32
  | .write area off _ => 0 < r.spill.bases.getD area 0 + off
  | .null area off _ => 0 < r.spill.bases.getD area 0 + off
  | .read area off _ => 0 < r.spill.bases.getD area 0 + off

instance (r : SpillRun) : (c : SpillCall) → Decidable (r.HasPlace c)
  | .alloc _ => Nat.decLt _ _
  | .write _ _ _ => Nat.decLt _ _
  | .null _ _ _ => Nat.decLt _ _
  | .read _ _ _ => Nat.decLt _ _

/-- The condition on a step. -/
def Meets (r : SpillRun) (c : SpillCall) : Prop := r.areas.Inside c ∧ r.HasPlace c

/-- The call seeks to no negative position, and what it reads are the bytes last written. -/
def Kept (r : SpillRun) (c : SpillCall) : Prop :=
  (r.call c).spill.file.error = false ∧
    ∀ area off size, c = .read area off size →
      ∀ i < size, ∀ b, r.areas.cells area (off + i) = some b → (r.call c).spill.file.tokBuff i = b

/-- Areas lie behind one another, and every byte that was written is in its place. -/
structure Inv (r : SpillRun) : Prop where
  error : r.spill.file.error = false
  length_eq : r.spill.bases.length = r.areas.sizes.length
  small : r.spill.file.filesize < 2 ^ 32
  below : ∀ k < r.areas.sizes.length, r.spill.bases.getD k 0 + r.areas.sizes.getD k 0 ≤ r.spill.file.filesize
  apart : ∀ j k, j < k → k < r.areas.sizes.length →
    r.spill.bases.getD j 0 + r.areas.sizes.getD j 0 ≤ r.spill.bases.getD k 0
  kept : ∀ k i b, r.areas.cells k i = some b → k < r.areas.sizes.length ∧ i < r.areas.sizes.getD k 0 ∧
    0 < r.spill.bases.getD k 0 + i ∧ r.spill.bases.getD k 0 + i - 1 < r.spill.file.length ∧
    r.spill.file.bytes (r.spill.bases.getD k 0 + i - 1) = b

theorem inv_start (tokBuff : ℕ → Byte) : (start tokBuff).Inv where
  error := rfl
  length_eq := rfl
  small := Nat.two_pow_pos 32
  below := fun k hk => absurd hk (Nat.not_lt_zero k)
  apart := fun _ k _ hk => absurd hk (Nat.not_lt_zero k)
  kept := fun _ _ _ h => nomatch h

/-! ### One lemma for each call -/

variable {r : SpillRun}

theorem getD_append_lt {l : List ℕ} {k : ℕ} (h : k < l.length) (x : ℕ) : (l ++ [x]).getD k 0 = l.getD k 0 := by
  rw [List.getD_append _ _ _ _ h]

theorem getD_append_self (l : List ℕ) (x : ℕ) : (l ++ [x]).getD l.length 0 = x := by
  rw [List.getD_append_right _ _ _ _ le_rfl, Nat.sub_self, List.getD_cons_zero]

/-- A new area lies behind the others. -/
theorem Inv.alloc (h : r.Inv) {amt : ℕ} (hm : r.Meets (.alloc amt)) : (r.call (.alloc amt)).Inv := by
  obtain ⟨-, hroom⟩ := hm
  have hsmall := h.small
  have hbase : (r.spill.file.spillAlloc amt).1 = (r.spill.file.filesize + 511) / 512 * 512 := by
    unfold HasPlace at hroom
    unfold SpillFile.spillAlloc SpillFile.nextSector
    dsimp only
    omega
  have hsize : (r.spill.file.spillAlloc amt).2.filesize = (r.spill.file.spillAlloc amt).1 + amt := by
    unfold HasPlace at hroom
    rw [hbase]
    unfold SpillFile.spillAlloc SpillFile.nextSector
    dsimp only
    omega
  have hle : r.spill.file.filesize ≤ (r.spill.file.spillAlloc amt).1 := by
    rw [hbase]
    omega
  have hlt : (r.spill.file.spillAlloc amt).1 + amt < 2 ^ 32 := by
    rw [hbase]
    exact hroom
  have hlen := h.length_eq
  refine ⟨h.error, ?_, ?_, fun k hk => ?_, fun j k hjk hk => ?_, fun k i b hb => ?_⟩
  · simp only [call, SpillState.call, Areas.call, List.length_append, List.length_singleton, hlen]
  · exact hsize.trans_lt hlt
  · simp only [call, SpillState.call, Areas.call, List.length_append, List.length_singleton] at hk ⊢
    rw [hsize]
    obtain hk | rfl := Nat.lt_succ_iff_lt_or_eq.mp hk
    · have hk' : k < r.spill.bases.length := by omega
      rw [getD_append_lt hk', getD_append_lt hk]
      have := h.below k hk
      omega
    · rw [getD_append_self, ← hlen, getD_append_self]
  · simp only [call, SpillState.call, Areas.call, List.length_append, List.length_singleton] at hk ⊢
    obtain hk | rfl := Nat.lt_succ_iff_lt_or_eq.mp hk
    · have hj' : j < r.spill.bases.length := by omega
      have hk' : k < r.spill.bases.length := by omega
      rw [getD_append_lt hj', getD_append_lt (hjk.trans hk), getD_append_lt hk']
      exact h.apart j k hjk hk
    · have hj' : j < r.spill.bases.length := by omega
      rw [getD_append_lt hj', getD_append_lt hjk, ← hlen, getD_append_self]
      exact (h.below j hjk).trans hle
  · obtain ⟨hk, hi, hpos, hin, hbyte⟩ := h.kept k i b hb
    simp only [call, SpillState.call, Areas.call, List.length_append, List.length_singleton]
    have hk' : k < r.spill.bases.length := by omega
    rw [getD_append_lt hk', getD_append_lt hk]
    exact ⟨by omega, hi, hpos, hin, hbyte⟩

/-- Bytes of areas are at one place only if they are one byte. -/
theorem Inv.place_inj (h : r.Inv) {j k i i' : ℕ} (hj : j < r.areas.sizes.length) (hk : k < r.areas.sizes.length)
    (hi : i < r.areas.sizes.getD j 0) (hi' : i' < r.areas.sizes.getD k 0)
    (heq : r.spill.bases.getD j 0 + i = r.spill.bases.getD k 0 + i') : j = k ∧ i = i' := by
  obtain hlt | rfl | hgt := lt_trichotomy j k
  · have := h.apart j k hlt hk
    omega
  · exact ⟨rfl, by omega⟩
  · have := h.apart k j hgt hj
    omega

/-- What a write does to the file. -/
theorem spillWriteAny_file {f : SpillFile} {base off : ℕ} (hpos : 0 < base + off) (data : List Byte) :
    (f.spillWriteAny base off data).error = f.error ∧ (f.spillWriteAny base off data).filesize = f.filesize ∧
      (f.spillWriteAny base off data).bytes = overlay f.bytes (base + off - 1) data ∧
      f.length ≤ (f.spillWriteAny base off data).length ∧
      (data ≠ [] → base + off - 1 + data.length ≤ (f.spillWriteAny base off data).length) := by
  have hseek := SpillFile.tmpSeek_of_pos (f := f) hpos
  rw [Nat.cast_add] at hseek
  unfold SpillFile.spillWriteAny SpillFile.spillWrite
  rw [hseek]
  split_ifs with hdata
  · rw [hdata, overlay_nil]
    exact ⟨rfl, rfl, rfl, le_rfl, fun hne => absurd rfl hne⟩
  · exact ⟨rfl, rfl, rfl, le_max_left _ _, fun _ => le_max_right _ _⟩

/-- A write puts its bytes in their places and no others anywhere. -/
theorem Inv.write (h : r.Inv) {area off : ℕ} {data : List Byte} (hm : r.Meets (.write area off data)) :
    (r.call (.write area off data)).Inv := by
  obtain ⟨⟨harea, hin⟩, hplace⟩ := hm
  have hpos : 0 < r.spill.bases.getD area 0 + off := hplace
  obtain ⟨herror, hsize, hbytes, hlen, hend⟩ := spillWriteAny_file (f := r.spill.file) hpos data
  refine ⟨herror.trans h.error, h.length_eq, hsize.trans_lt h.small, fun k hk => (h.below k hk).trans hsize.ge, h.apart,
    fun k i b hb => ?_⟩
  simp only [call, SpillState.call, Areas.call, Areas.put] at hb ⊢
  rw [hbytes]
  have hout : ∀ {k i}, r.areas.cells k i = some b → (k ≠ area ∨ i < off ∨ off + data.length ≤ i) →
      k < r.areas.sizes.length ∧ i < r.areas.sizes.getD k 0 ∧ 0 < r.spill.bases.getD k 0 + i ∧
        r.spill.bases.getD k 0 + i - 1 < (r.spill.file.spillWriteAny (r.spill.bases.getD area 0) off data).length ∧
        overlay r.spill.file.bytes (r.spill.bases.getD area 0 + off - 1) data (r.spill.bases.getD k 0 + i - 1) = b := by
    intro k i hb hne
    obtain ⟨hk, hi, hpos', hlt, hbyte⟩ := h.kept k i b hb
    refine ⟨hk, hi, hpos', hlt.trans_le hlen, ?_⟩
    rw [← hbyte]
    by_cases hbefore : r.spill.bases.getD k 0 + i < r.spill.bases.getD area 0 + off
    · exact overlay_of_lt (by omega)
    · by_cases hbehind : r.spill.bases.getD area 0 + off + data.length ≤ r.spill.bases.getD k 0 + i
      · exact overlay_of_ge (by omega)
      · obtain ⟨i', hi'⟩ : ∃ i', r.spill.bases.getD k 0 + i = r.spill.bases.getD area 0 + i' :=
          ⟨r.spill.bases.getD k 0 + i - r.spill.bases.getD area 0, by omega⟩
        obtain ⟨rfl, rfl⟩ := h.place_inj hk harea hi (by omega) hi'
        omega
  by_cases hk : k = area
  · subst hk
    rw [Function.update_self] at hb
    by_cases hmem : off ≤ i ∧ i < off + data.length
    · obtain ⟨n, rfl⟩ := Nat.exists_eq_add_of_le hmem.1
      have hn : n < data.length := by omega
      rw [overlay_of_mem (by rwa [List.length_map]), List.getElem_map] at hb
      have hplace : r.spill.bases.getD k 0 + (off + n) - 1 = r.spill.bases.getD k 0 + off - 1 + n := by omega
      rw [hplace, overlay_of_mem hn]
      have := hend (by rintro rfl; exact Nat.not_lt_zero n hn)
      exact ⟨harea, by omega, by omega, by omega, Option.some.inj hb⟩
    · by_cases hbefore : i < off
      · rw [overlay_of_lt hbefore] at hb
        exact hout hb (.inr (.inl hbefore))
      · rw [overlay_of_ge (by rw [List.length_map]; omega)] at hb
        exact hout hb (.inr (.inr (by omega)))
  · rw [Function.update_of_ne hk] at hb
    exact hout hb (.inl hk)

/-- Nulls are a write. -/
theorem Inv.null (h : r.Inv) {area off size : ℕ} (hm : r.Meets (.null area off size)) :
    (r.call (.null area off size)).Inv := by
  obtain ⟨⟨harea, hin⟩, hpos⟩ := hm
  have hwrite : r.Meets (.write area off (List.replicate size 0)) :=
    ⟨⟨harea, by rwa [List.length_replicate]⟩, hpos⟩
  have hcall : r.call (.null area off size) = r.call (.write area off (List.replicate size 0)) := by
    simp only [call, SpillState.call, Areas.call, SpillFile.spillNull_eq]
  rw [hcall]
  exact h.write hwrite

/-- What a read does. -/
theorem spillRead_file_eq {f : SpillFile} {base off : ℕ} (hpos : 0 < base + off) (size : ℕ) :
    f.spillRead base off size = { f with
      tokBuff := overlay f.tokBuff 0 (slice f.bytes (base + off - 1) (min size (f.length - (base + off - 1))))
      pos := base + off - 1 + min size (f.length - (base + off - 1)) } := by
  have hseek := SpillFile.tmpSeek_of_pos (f := f) hpos
  rw [Nat.cast_add] at hseek
  unfold SpillFile.spillRead
  rw [hseek]
  rfl

theorem Inv.read (h : r.Inv) {area off size : ℕ} (hm : r.Meets (.read area off size)) :
    (r.call (.read area off size)).Inv ∧
      ∀ i < size, ∀ b, r.areas.cells area (off + i) = some b →
        (r.call (.read area off size)).spill.file.tokBuff i = b := by
  have hread := spillRead_file_eq (f := r.spill.file) hm.2 size
  have hcall : r.call (.read area off size) =
      { r with spill := { r.spill with file := r.spill.file.spillRead (r.spill.bases.getD area 0) off size } } := rfl
  rw [hcall, hread]
  refine ⟨⟨h.error, h.length_eq, h.small, h.below, h.apart, h.kept⟩, fun i hi b hb => ?_⟩
  obtain ⟨-, -, hpos, hlt, hbyte⟩ := h.kept area (off + i) b hb
  have hmem : i < (slice r.spill.file.bytes (r.spill.bases.getD area 0 + off - 1)
      (min size (r.spill.file.length - (r.spill.bases.getD area 0 + off - 1)))).length := by
    rw [slice_length]
    have := hm.2
    unfold HasPlace at this
    omega
  have hplace := overlay_of_mem (f := r.spill.file.tokBuff) (p := 0) hmem
  rw [Nat.zero_add, slice_getElem] at hplace
  dsimp only
  rw [hplace, ← hbyte]
  have := hm.2
  unfold HasPlace at this
  congr 1
  omega

/-! ### Runs -/

/-- A call that meets the condition keeps the bytes. -/
theorem Inv.call (h : r.Inv) {c : SpillCall} (hm : r.Meets c) : (r.call c).Inv ∧ r.Kept c := by
  cases c with
  | alloc amt => exact ⟨h.alloc hm, (h.alloc hm).error, fun _ _ _ hc => nomatch hc⟩
  | write area off data => exact ⟨h.write hm, (h.write hm).error, fun _ _ _ hc => nomatch hc⟩
  | null area off size => exact ⟨h.null hm, (h.null hm).error, fun _ _ _ hc => nomatch hc⟩
  | read area off size =>
      refine ⟨(h.read hm).1, (h.read hm).1.error, fun area' off' size' hc => ?_⟩
      obtain ⟨rfl, rfl, rfl⟩ := SpillCall.read.inj hc
      exact (h.read hm).2

/-- In a run whose calls all meet the condition, all keep the bytes. -/
theorem spill_kept (tokBuff : ℕ → Byte) (calls : List SpillCall) (h : Along call Meets (start tokBuff) calls) :
    Along call Kept (start tokBuff) calls :=
  along_of_along (fun _ _ hinv hm => hinv.call hm) (inv_start tokBuff) h

/-- In two areas, the first at 0. -/
theorem spill_kept_areas :
    Along call Kept (start fun _ => 0)
      [.alloc 64, .write 0 1 [7], .alloc 64, .write 1 0 [8, 9], .null 1 1 2, .read 0 1 1] :=
  spill_kept _ _ ⟨⟨trivial, by decide⟩, ⟨by decide, by decide⟩, ⟨trivial, by decide⟩, ⟨by decide, by decide⟩,
    ⟨by decide, by decide⟩, ⟨by decide, by decide⟩, trivial⟩

/-- The first byte of the first area is nowhere. -/
theorem not_kept_first : ¬ ∀ calls : List SpillCall,
    Along call (fun r c => r.areas.Inside c) (start fun _ => 0) calls → Along call Kept (start fun _ => 0) calls := by
  intro h
  obtain ⟨-, hkept, -⟩ := h [.alloc 64, .write 0 0 [7]] ⟨trivial, by decide, trivial⟩
  exact absurd hkept.1 (by decide)

end SpillRun

end OpenWatcom.Wlink
