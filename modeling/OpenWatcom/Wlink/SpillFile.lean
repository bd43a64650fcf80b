import OpenWatcom.Lib.Records
import OpenWatcom.Wlink.CmdImage

/-! # The linker's spill file

`spillio.c`: a temporary file that relocation blocks and pages of virtual memory are put in when
there is no memory for them.  `SpillAlloc` hands out sectors from the end of the file, and an access to
an area at `base` seeks to `base + off - 1`.

An area at 0 has no place for its first byte: the seek fails and the file stays where it is. -/

namespace OpenWatcom.Wlink

/-- The temporary file with its position, `tmp_filesize`, whether an I/O error was reported, and
`TokBuff`, the buffer that what is read is put in. -/
structure SpillFile where
  bytes : ℕ → Byte
  length : ℕ
  pos : ℕ
  filesize : ℕ
  error : Bool
  tokBuff : ℕ → Byte

/-- After `InitSpillFile`. -/
def SpillFile.init (tokBuff : ℕ → Byte) : SpillFile :=
  { bytes := fun _ => 0, length := 0, pos := 0, filesize := 0, error := false, tokBuff := tokBuff }

namespace SpillFile

variable (f : SpillFile)

/-- `__ROUND_UP_SIZE_SECTOR` of the file size, in 32 bits. -/
def nextSector : ℕ := (f.filesize + 511) % 2 ^ 32 / 512 * 512

/-- `SpillAlloc`. -/
def spillAlloc (amt : ℕ) : ℕ × SpillFile :=
  (f.nextSector, { f with filesize := (f.nextSector + amt) % 2 ^ 32 })

/-- `tmp_seek`: a seek before the start of the file fails. -/
def tmpSeek (offset : ℤ) : SpillFile :=
  if offset < 0 then { f with error := true } else { f with pos := offset.toNat }

def tmpWrite (data : List Byte) : SpillFile :=
  { f with
    bytes := overlay f.bytes f.pos data
    length := max f.length (f.pos + data.length)
    pos := f.pos + data.length }

/-- `tmp_read` to `TokBuff`: what there is of `len` bytes. -/
def tmpRead (len : ℕ) : SpillFile :=
  let n := min len (f.length - f.pos)
  { f with tokBuff := overlay f.tokBuff 0 (slice f.bytes f.pos n), pos := f.pos + n }

def spillWrite (base off : ℕ) (data : List Byte) : SpillFile :=
  (f.tmpSeek (base + off - 1)).tmpWrite data

def spillRead (base off len : ℕ) : SpillFile := (f.tmpSeek (base + off - 1)).tmpRead len

/-- There is room for the allocation behind what is allocated, which is not nothing. -/
def AllocOk (amt : ℕ) : Prop := 0 < f.filesize ∧ (f.filesize + 511) / 512 * 512 + amt < 2 ^ 32

instance (amt : ℕ) : Decidable (f.AllocOk amt) := inferInstanceAs (Decidable (_ ∧ _))

variable {f}

theorem tmpSeek_of_pos {p : ℕ} (h : 0 < p) : f.tmpSeek (p - 1) = { f with pos := p - 1 } := by
  unfold tmpSeek
  rw [if_neg (by omega)]
  congr 1
  omega

/-- A write with a place changes the bytes there and no others. -/
theorem spillWrite_bytes {base : ℕ} (off : ℕ) (h : 0 < base) (data : List Byte) :
    (f.spillWrite base off data).bytes = overlay f.bytes (base - 1 + off) data ∧
      (f.spillWrite base off data).length = max f.length (base - 1 + off + data.length) ∧
      (f.spillWrite base off data).filesize = f.filesize := by
  have hseek := tmpSeek_of_pos (f := f) (p := base + off) (by omega)
  have hpos : base + off - 1 = base - 1 + off := by omega
  unfold spillWrite
  rw [← Nat.cast_add, hseek, hpos]
  exact ⟨rfl, rfl, rfl⟩

/-- A read with a place gives the bytes there. -/
theorem spillRead_tokBuff {base : ℕ} (off len : ℕ) (h : 0 < base) (hlen : base - 1 + off + len ≤ f.length) :
    slice (f.spillRead base off len).tokBuff 0 len = slice f.bytes (base - 1 + off) len := by
  have hseek := tmpSeek_of_pos (f := f) (p := base + off) (by omega)
  have hpos : base + off - 1 = base - 1 + off := by omega
  have hn : min len (f.length - (base - 1 + off)) = len := by omega
  unfold spillRead
  rw [← Nat.cast_add, hseek, hpos]
  unfold tmpRead
  dsimp only
  rw [hn]
  have hs := slice_overlay_self f.tokBuff 0 (slice f.bytes (base - 1 + off) len)
  rwa [slice_length] at hs

/-- Reading leaves the file as it is. -/
theorem spillRead_file (f : SpillFile) (base off len : ℕ) :
    (f.spillRead base off len).bytes = f.bytes ∧ (f.spillRead base off len).length = f.length ∧
      (f.spillRead base off len).filesize = f.filesize := by
  unfold spillRead tmpRead tmpSeek
  split_ifs <;> exact ⟨rfl, rfl, rfl⟩

/-- Allocating leaves the file as it is. -/
theorem spillAlloc_file (f : SpillFile) (amt : ℕ) :
    (f.spillAlloc amt).2.bytes = f.bytes ∧ (f.spillAlloc amt).2.length = f.length := ⟨rfl, rfl⟩

/-- An allocation with room gives a sector behind what is allocated. -/
theorem spillAlloc_of_ok {amt : ℕ} (h : f.AllocOk amt) :
    f.filesize ≤ (f.spillAlloc amt).1 ∧ 0 < (f.spillAlloc amt).1 ∧ (f.spillAlloc amt).1 % 512 = 0 ∧
      (f.spillAlloc amt).2.filesize = (f.spillAlloc amt).1 + amt := by
  obtain ⟨h0, hroom⟩ := h
  unfold spillAlloc nextSector
  dsimp only
  omega

end SpillFile

end OpenWatcom.Wlink
