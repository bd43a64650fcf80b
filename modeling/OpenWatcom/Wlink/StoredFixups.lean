import OpenWatcom.Lib.LittleEndian
import OpenWatcom.Lib.Records
import OpenWatcom.Wlink.StringTable

/-! # Stored fixups

`StoreFixup` appends a record for each fixup to the table of relocations, and the modules are gone through again from
these records. Pointers are numbers of 4 or 8 bytes, and what a record does not set is what was in the buffer. -/

namespace OpenWatcom.Wlink.StoredFixups

open StringTable

/-- The size of a pointer of the host. -/
structure Host where
  ptr : ℕ
  ptr_eq : ptr = 4 ∨ ptr = 8

/-! ## Fixup types -/

def fixChangeSeg : BitVec 32 := 0x00000001
def fixAddendZero : BitVec 32 := 0x00000002
def fixUnsafe : BitVec 32 := 0x00000004
def fixBase : BitVec 32 := 0x00000010
def fixHigh : BitVec 32 := 0x00000020
def fixShift : BitVec 32 := 0x00000080
def fixTargetMask : BitVec 32 := 0x00000700
def fixSigned : BitVec 32 := 0x00002000
def fixFrameMask : BitVec 32 := 0x07000000
def fixOffsetMask : BitVec 32 := 0x00070000
def fixBaseOffset32 : BitVec 32 := 0x00040010
def fixHighOffset16 : BitVec 32 := 0x00020020

/-- `frame_type`. -/
inductive FrameType
  | seg | grp | ext | abs | loc | targ | flat
  deriving DecidableEq

/-- `target_type`. -/
inductive TargetType
  | seg | grp | ext | abs
  deriving DecidableEq

/-- `FRAME_HAS_DATA`. -/
def FrameType.hasData : FrameType → Bool
  | .seg | .grp | .ext | .abs => true
  | _ => false

/-- `FIX_SET_FRAME`. -/
def setFrame : FrameType → BitVec 32
  | .seg => 0x00000000
  | .grp => 0x01000000
  | .ext => 0x02000000
  | .abs => 0x03000000
  | .loc => 0x04000000
  | .targ => 0x05000000
  | .flat => 0x06000000

/-- `FIX_SET_TARGET`. -/
def setTarget : TargetType → BitVec 32
  | .seg => 0x000
  | .grp => 0x100
  | .ext => 0x200
  | .abs => 0x300

/-- `FIX_GET_FRAME`. -/
def getFrame (x : BitVec 32) : FrameType :=
  match ((x &&& fixFrameMask) >>> 24).toNat with
  | 0 => .seg
  | 1 => .grp
  | 2 => .ext
  | 3 => .abs
  | 4 => .loc
  | 5 => .targ
  | _ => .flat

/-- `FIX_GET_TARGET`. -/
def getTarget (x : BitVec 32) : TargetType :=
  match ((x &&& fixTargetMask) >>> 8).toNat with
  | 0 => .seg
  | 1 => .grp
  | 2 => .ext
  | _ => .abs

/-- `FIX_GET_OFFSET`. -/
def getOffset (x : BitVec 32) : ℕ := ((x &&& fixOffsetMask) >>> 16).toNat

/-- The bits that are kept for the records, besides `FIX_UNSAFE`. -/
def ownBits : BitVec 32 := 0x07000703

/-- A type that `StoreFixup` is called with. -/
structure FixType where
  bits : BitVec 32
  own : bits &&& ownBits = 0
  offset : getOffset bits ≤ 6

/-- `OffsetSizes`. -/
def offsetSizes : List ℕ := [0, 1, 2, 4, 4, 4, 4]

/-- `CalcFixupSize`. -/
def calcFixupSize (fixtype : BitVec 32) : ℕ :=
  offsetSizes.getD (getOffset fixtype) 0 + if fixtype &&& fixBase ≠ 0 then 2 else 0

/-- `CalcAddendSize`. -/
def calcAddendSize (fixtype : BitVec 32) : ℕ :=
  if fixtype &&& fixAddendZero ≠ 0 then 0
  else if fixtype &&& (fixOffsetMask ||| fixBase) = fixBaseOffset32 then 8
  else 4

/-- `__ROUND_UP_SIZE`. -/
def roundUp (x amt : ℕ) : ℕ := (x + (amt - 1)) / amt * amt

/-- Where the data of a record is: `sizeof( fixupf_t )` or `sizeof( fixup_t )`. -/
def dataOff (host : Host) (frame : FrameType) : ℕ := if frame.hasData then 2 * host.ptr + 8 else host.ptr + 8

/-- `CalcSavedFixSize`. -/
def calcSavedFixSize (host : Host) (fixtype : BitVec 32) : ℕ :=
  let retval :=
    if fixtype &&& fixChangeSeg ≠ 0 then host.ptr + 4
    else dataOff host (getFrame fixtype) + calcAddendSize fixtype
  roundUp retval host.ptr

/-! ## Storing -/

/-- The two bytes of a number with a sign. -/
def signed16 (n : ℕ) : ℕ := if n < 2 ^ 15 then n else n + (2 ^ 32 - 2 ^ 16)

/-- `PatchOffset` for a change of what is in memory at `p`, with `FixupOverflow`. -/
def patchOffset (type : BitVec 32) (val : ℕ) (mem : ℕ → UInt8) (p : ℕ) : (ℕ → UInt8) × Bool :=
  let patch16 (val : ℕ) : (ℕ → UInt8) × Bool :=
    if type &&& fixSigned ≠ 0 then
      let val := (val + signed16 (leVal (slice mem p 2))) % 2 ^ 32
      if 0x7FFF < val ∧ val < 2 ^ 31 then
        let val := val &&& 0xFFFF
        if 0x7FFF < val then (overlay mem p (leBytes 2 (val + 2 ^ 32 - 0x10000)), true)
        else (overlay mem p (leBytes 2 val), false)
      else (overlay mem p (leBytes 2 val), false)
    else (overlay mem p (leBytes 2 (val + leVal (slice mem p 2))), false)
  if val = 0 then (mem, false)
  else
    let val := if type &&& fixShift ≠ 0 then val / 4 else val
    match getOffset type with
    | 1 => (overlay mem p (leBytes 1 ((mem p).toNat + if type &&& fixHigh ≠ 0 then val / 2 ^ 8 else val)), false)
    | 2 => patch16 (if type &&& fixHigh ≠ 0 then val / 2 ^ 16 else val)
    | 0 => patch16 val
    | 3 =>
      let oldval := leVal (slice mem p 4)
      (overlay mem p (leBytes 4 (oldval &&& 0xFFE00000 ||| (val + oldval) &&& 0x001FFFFF)), false)
    | 5 | 6 =>
      let oldval := leVal (slice mem p 4)
      (overlay mem p (leBytes 4 (oldval &&& 0xFC000000 ||| (val + oldval) &&& 0x03FFFFFF)), false)
    | 4 => (overlay mem p (leBytes 4 (leVal (slice mem p 4) + val)), false)
    | _ => (mem, false)

/-- A call of `StoreFixup`: `CurrRec`, the arguments, and what is in the buffer at first. -/
structure Call (host : Host) where
  seg : Fin (256 ^ host.ptr)
  objOffset : ℕ
  isUnsafe : Bool
  off : ℕ
  type : FixType
  frame : FrameType
  framePtr : Fin (256 ^ host.ptr)
  target : TargetType
  targetPtr : Fin (256 ^ host.ptr)
  addend : ℕ
  save : ℕ → UInt8

/-- What changes: `StoredRelocs`, `LastSegData`, the contents of the segments and `FixupOverflow`. -/
structure St where
  table : Table
  lastSegData : Option ℕ
  object : ℕ → ℕ → UInt8
  overflow : Bool

/-- `PermSaveFixup`. -/
def permSaveFixup (table : Table) (fix : List UInt8) : Option Table := (add table (.buffer fix)).map Added.table

variable {host : Host}

/-- Where the fixup is in its segment. -/
def Call.loc (c : Call host) : ℕ := (c.off + c.objOffset) % 2 ^ 32

/-- The record of a change of the segment. -/
def Call.segRecord (c : Call host) : ℕ → UInt8 :=
  overlay (overlay c.save host.ptr (leBytes 4 fixChangeSeg.toNat)) 0 (leBytes host.ptr c.seg)

/-- The members before the flags are known, in a buffer. -/
def Call.members (c : Call host) (save : ℕ → UInt8) : ℕ → UInt8 :=
  let save := overlay save (host.ptr + 4) (leBytes 4 c.loc)
  let save := overlay save 0 (leBytes host.ptr c.targetPtr)
  if c.frame.hasData then overlay save (host.ptr + 8) (leBytes host.ptr c.framePtr) else save

/-- The type with target, frame and `FIX_UNSAFE`. -/
def Call.fixtype (c : Call host) : BitVec 32 :=
  c.type.bits ||| (setTarget c.target ||| setFrame c.frame ||| if c.isUnsafe then fixUnsafe else 0)

/-- The addend that is put into the data, with the overflow of the low part. -/
def Call.fullAddend (c : Call host) (overflow : Bool) : ℕ :=
  if c.type.bits &&& (fixOffsetMask ||| fixHigh) = fixHighOffset16 ∧ overflow then (c.addend + 0x10000) % 2 ^ 32
  else c.addend

/-- The record with its data, and `FixupOverflow`. -/
def Call.patched (c : Call host) (st : St) (save : ℕ → UInt8) : (ℕ → UInt8) × Bool :=
  let data := dataOff host c.frame
  let size := calcFixupSize c.type.bits
  patchOffset c.type.bits (c.fullAddend st.overflow)
    (overlay (c.members save) data (slice (st.object c.seg) c.loc size)) data

/-- The bytes that are put into the object. -/
def Call.bytes (c : Call host) (st : St) (save : ℕ → UInt8) : List UInt8 :=
  slice (c.patched st save).1 (dataOff host c.frame) (calcFixupSize c.type.bits)

/-- The record of the fixup. -/
def Call.record (c : Call host) (st : St) (save : ℕ → UInt8) : List UInt8 :=
  let fixtype := if (c.bytes st save).all (· == 0) then c.fixtype ||| fixAddendZero else c.fixtype
  slice (overlay (c.patched st save).1 host.ptr (leBytes 4 fixtype.toNat)) 0 (calcSavedFixSize host fixtype)

/-- `StoreFixup` once `LastSegData` is the segment. -/
def Call.store (c : Call host) (st : St) (save : ℕ → UInt8) : Option (St × List UInt8) :=
  (permSaveFixup st.table (c.record st save)).map fun table =>
    ({ table := table
       lastSegData := some c.seg.val
       object := Function.update st.object c.seg (overlay (st.object c.seg) c.loc (c.bytes st save))
       overflow := (c.patched st save).2 }, c.bytes st save)

/-- `StoreFixup`, and the bytes that it puts into the object. -/
def storeFixup (st : St) (c : Call host) : Option (St × List UInt8) :=
  if st.lastSegData ≠ some c.seg.val then
    (permSaveFixup st.table (slice c.segRecord 0 (roundUp (host.ptr + 4) host.ptr))).bind fun table =>
      c.store { st with table := table } c.segRecord
  else c.store st c.save

/-- The calls of a module, with the bytes that each puts into the object. -/
def storeFixups : St → List (Call host) → Option (St × List (List UInt8))
  | st, [] => some (st, [])
  | st, c :: calls => (storeFixup st c).bind fun r => (storeFixups r.1 calls).map fun s => (s.1, r.2 :: s.2)

/-- `relocs` and `sizerelocs` of a `mod_entry`. -/
structure ModEntry where
  relocs : ℕ
  sizerelocs : ℕ

/-- A module: `RelocStartMod`, `PermStartMod`, its fixups and `PermEndMod`. -/
def pass1 (st : St) (calls : List (Call host)) : Option (St × ModEntry × List (List UInt8)) :=
  let relocs := getStringTableSize st.table
  (storeFixups { st with lastSegData := none } calls).map fun r =>
    (r.1, ⟨relocs, getStringTableSize r.1.table - relocs⟩, r.2)

def pass1All : St → List (List (Call host)) → Option (St × List (ModEntry × List (List UInt8)))
  | st, [] => some (st, [])
  | st, calls :: modules => (pass1 st calls).bind fun r => (pass1All r.1 modules).map fun s => (s.1, r.2 :: s.2)

/-! ## Reading -/

/-- `IncP2Start` with `FiniStringBlock` and `SaveRelocData`: what `ReadRelocs` points at. -/
def incP2Start (table : Table) : Option (List UInt8) :=
  let rawsize := getStringTableSize table
  let size := roundUp rawsize 512
  (if size ≠ rawsize then zeroStringTable table (size - rawsize) else some table).map output

/-- A fixup as it is visited. -/
structure Fixup where
  seg : Option ℕ
  off : ℕ
  type : BitVec 32
  target : TargetType
  targetPtr : ℕ
  frame : FrameType
  framePtr : Option ℕ
  data : List UInt8
  deriving DecidableEq

/-- What a call of the callback gives: the size, `LastSegData`, and the fixup. -/
structure Visit where
  size : ℕ
  lastSegData : Option ℕ
  fixup : Option Fixup

/-- A member of `k` bytes. -/
def member (save : List UInt8) (i k : ℕ) : ℕ := leVal ((save.drop i).take k)

/-- `LastSegData` for a segment. -/
def live (isdead : ℕ → Bool) (seg : ℕ) : Option ℕ := if isdead seg then none else some seg

/-- What `IncExecRelocs` and `IncSaveRelocs` read from a record; dead segments have no fixups. -/
def incExecRelocs (host : Host) (isdead : ℕ → Bool) (save : List UInt8) (lastSegData : Option ℕ) : Visit :=
  let fixtype : BitVec 32 := .ofNat 32 (member save host.ptr 4)
  let size := calcSavedFixSize host fixtype
  if fixtype &&& fixChangeSeg ≠ 0 then
    let sdata := member save 0 host.ptr
    ⟨size, live isdead sdata, none⟩
  else
    let frame := getFrame fixtype
    let datasize := calcFixupSize fixtype
    ⟨size, lastSegData, some {
      seg := lastSegData
      off := member save (host.ptr + 4) 4
      type := fixtype &&& ~~~ownBits
      target := getTarget fixtype
      targetPtr := member save 0 host.ptr
      frame := frame
      framePtr := if frame.hasData then some (member save (host.ptr + 8) host.ptr) else none
      data := if fixtype &&& fixAddendZero ≠ 0 then List.replicate datasize 0
        else (save.drop (dataOff host frame)).take datasize }⟩

/-- `IterateModRelocs`, with the fixups that are visited; `none` when a step goes beyond the slice or stands still. -/
def iterateModRelocs (host : Host) (isdead : ℕ → Bool) (readRelocs : List UInt8) (fixoff sizeleft : ℕ)
    (lastSegData : Option ℕ) : Option (List Fixup) :=
  if sizeleft = 0 then some []
  else
    let visit := incExecRelocs host isdead (readRelocs.drop fixoff) lastSegData
    if _h : 0 < visit.size ∧ visit.size ≤ sizeleft then
      (iterateModRelocs host isdead readRelocs (fixoff + visit.size) (sizeleft - visit.size) visit.lastSegData).map
        (visit.fixup.toList ++ ·)
    else none
  termination_by sizeleft
  decreasing_by exact Nat.sub_lt (Nat.pos_of_ne_zero ‹_›) _h.1

/-- The fixup that should be visited for a call. -/
def Call.stored (c : Call host) (isdead : ℕ → Bool) (bytes : List UInt8) : Fixup where
  seg := live isdead c.seg
  off := c.loc
  type := c.type.bits ||| if c.isUnsafe then fixUnsafe else 0
  target := c.target
  targetPtr := c.targetPtr
  frame := c.frame
  framePtr := if c.frame.hasData then some c.framePtr else none
  data := bytes

/-- The calls with the bytes that they put. -/
def storedAll (isdead : ℕ → Bool) (calls : List (Call host)) (bytes : List (List UInt8)) : List Fixup :=
  List.zipWith (fun c bytes => c.stored isdead bytes) calls bytes

/-! ## The bits of a type -/

theorem or_and_of_disjoint {x e m : BitVec 32} (h : e &&& m = 0) : (x ||| e) &&& m = x &&& m := by
  rw [BitVec.and_comm, BitVec.and_or_distrib_left, BitVec.and_comm m e, h, BitVec.and_comm]
  exact BitVec.or_zero

/-- The bits of the records are not set by the caller. -/
theorem FixType.and_own (type : FixType) {m : BitVec 32} (hm : ownBits &&& m = m) : type.bits &&& m = 0 := by
  rw [← hm, ← BitVec.and_assoc, type.own]
  exact BitVec.zero_and

theorem FixType.or_and (type : FixType) {e m : BitVec 32} (hm : ownBits &&& m = m) :
    (type.bits ||| e) &&& m = e &&& m := by
  rw [BitVec.and_comm, BitVec.and_or_distrib_left, BitVec.and_comm m, type.and_own hm, BitVec.and_comm]
  exact BitVec.zero_or

/-- What is added to the type. -/
def extra (target : TargetType) (frame : FrameType) (isUnsafe zero : Bool) : BitVec 32 :=
  setTarget target ||| setFrame frame ||| (if isUnsafe then fixUnsafe else 0) ||| if zero then fixAddendZero else 0

/-- The flags of a record. -/
def Call.flags (c : Call host) (zero : Bool) : BitVec 32 :=
  c.type.bits ||| extra c.target c.frame c.isUnsafe zero

theorem Call.flags_eq (c : Call host) (zero : Bool) :
    (if zero then c.fixtype ||| fixAddendZero else c.fixtype) = c.flags zero := by
  unfold Call.fixtype Call.flags extra
  cases zero with
  | true => exact BitVec.or_assoc ..
  | false =>
    exact congrArg (c.type.bits ||| ·) BitVec.or_zero.symm

theorem extra_bits (target : TargetType) (frame : FrameType) (isUnsafe zero : Bool) :
    extra target frame isUnsafe zero &&& fixChangeSeg = 0 ∧
      (extra target frame isUnsafe zero &&& fixAddendZero ≠ 0 ↔ zero = true) ∧
      extra target frame isUnsafe zero &&& fixBase = 0 ∧ extra target frame isUnsafe zero &&& fixOffsetMask = 0 ∧
      extra target frame isUnsafe zero &&& (fixOffsetMask ||| fixBase) = 0 ∧
      getFrame (extra target frame isUnsafe zero) = frame ∧ getTarget (extra target frame isUnsafe zero) = target ∧
      extra target frame isUnsafe zero &&& ~~~ownBits = if isUnsafe then fixUnsafe else 0 := by
  cases target <;> cases frame <;> cases isUnsafe <;> cases zero <;> decide

/-- What is read back from the flags. -/
structure Reads (c : Call host) (zero : Bool) (flags : BitVec 32) : Prop where
  changeSeg : flags &&& fixChangeSeg = 0
  addendZero : flags &&& fixAddendZero ≠ 0 ↔ zero = true
  base : flags &&& fixBase = c.type.bits &&& fixBase
  offset : getOffset flags = getOffset c.type.bits
  pointer : flags &&& (fixOffsetMask ||| fixBase) = c.type.bits &&& (fixOffsetMask ||| fixBase)
  frame : getFrame flags = c.frame
  target : getTarget flags = c.target
  type : flags &&& ~~~ownBits = c.type.bits ||| if c.isUnsafe then fixUnsafe else 0

theorem Call.reads (c : Call host) (zero : Bool) : Reads c zero (c.flags zero) := by
  obtain ⟨hchange, hzero, hbase, hoffset, hpointer, hframe, htarget, hown⟩ :=
    extra_bits c.target c.frame c.isUnsafe zero
  unfold Call.flags
  refine ⟨?_, ?_, or_and_of_disjoint hbase, ?_, or_and_of_disjoint hpointer, ?_, ?_, ?_⟩
  · rw [c.type.or_and (by decide), hchange]
  · rw [c.type.or_and (by decide), hzero]
  · unfold getOffset
    rw [or_and_of_disjoint hoffset]
  · unfold getFrame at hframe ⊢
    rw [c.type.or_and (by decide), hframe]
  · unfold getTarget at htarget ⊢
    rw [c.type.or_and (by decide), htarget]
  · rw [BitVec.and_comm, BitVec.and_or_distrib_left, BitVec.and_comm _ (extra _ _ _ _), hown]
    congr 1
    have hall : c.type.bits &&& BitVec.allOnes 32 = c.type.bits := BitVec.and_allOnes
    rw [show BitVec.allOnes 32 = ownBits ||| ~~~ownBits by decide, BitVec.and_or_distrib_left, c.type.own] at hall
    rw [BitVec.and_comm]
    exact BitVec.zero_or.symm.trans hall

/-- The field that a record has room for: on a host with pointers of 4 bytes it has no segment behind an offset of 21,
24 or 26 bits. -/
def FixType.Fits (type : FixType) (host : Host) : Prop :=
  host.ptr = 8 ∨ type.bits &&& fixBase = 0 ∨
    (getOffset type.bits ≠ 3 ∧ getOffset type.bits ≠ 5 ∧ getOffset type.bits ≠ 6)

/-- The bits of an offset of 32 bits with a segment. -/
theorem baseOffset32 {x : BitVec 32} (hoffset : getOffset x = 4) (hbase : x &&& fixBase ≠ 0) :
    x &&& (fixOffsetMask ||| fixBase) = fixBaseOffset32 := by
  have hlow : (x &&& fixOffsetMask).toNat % 2 ^ 16 = 0 := by
    rw [← Nat.and_two_pow_sub_one_eq_mod]
    have hand : x &&& fixOffsetMask &&& 0xFFFF = 0 := by
      rw [BitVec.and_assoc]
      exact BitVec.and_zero
    exact congrArg BitVec.toNat hand
  have hmask : x &&& fixOffsetMask = 0x00040000 := by
    unfold getOffset at hoffset
    rw [BitVec.toNat_ushiftRight, Nat.shiftRight_eq_div_pow] at hoffset
    apply BitVec.eq_of_toNat_eq
    change _ = 0x00040000
    omega
  have hbit : x &&& fixBase = fixBase := by
    have htwo : fixBase = BitVec.twoPow 32 4 := by decide
    rw [htwo, BitVec.and_twoPow] at hbase ⊢
    split_ifs at hbase ⊢ with hb
    · rfl
    · exact absurd rfl hbase
  rw [BitVec.and_or_distrib_left, hmask, hbit]
  decide

theorem roundUp_ptr (host : Host) (x : ℕ) : x ≤ roundUp x host.ptr := by
  unfold roundUp
  rcases host.ptr_eq with h | h <;> rw [h] <;> omega

theorem dataOff_ge (host : Host) (frame : FrameType) : host.ptr + 8 ≤ dataOff host frame := by
  unfold dataOff
  split_ifs <;> omega

/-- A record has its header, and its field if that is not zero. -/
theorem record_size {c : Call host} {zero : Bool} {flags : BitVec 32} (h : Reads c zero flags)
    (hfits : c.type.Fits host) :
    dataOff host c.frame ≤ calcSavedFixSize host flags ∧
      (zero = false → dataOff host c.frame + calcFixupSize c.type.bits ≤ calcSavedFixSize host flags) := by
  have hsize : calcSavedFixSize host flags = roundUp (dataOff host c.frame + calcAddendSize flags) host.ptr := by
    unfold calcSavedFixSize
    rw [h.changeSeg, h.frame]
    rfl
  rw [hsize]
  refine ⟨le_trans (Nat.le_add_right _ _) (roundUp_ptr host _), fun hzero => ?_⟩
  have haddend : calcAddendSize flags =
      if c.type.bits &&& (fixOffsetMask ||| fixBase) = fixBaseOffset32 then 8 else 4 := by
    unfold calcAddendSize
    rw [h.pointer, if_neg (by rw [h.addendZero, hzero]; decide)]
  rw [haddend]
  have hoffset := c.type.offset
  have hsmall : calcFixupSize c.type.bits ≤ 6 ∧ (c.type.bits &&& fixBase = 0 → calcFixupSize c.type.bits ≤ 4) ∧
      (getOffset c.type.bits < 3 → calcFixupSize c.type.bits ≤ 4) := by
    unfold calcFixupSize
    have hentry : offsetSizes.getD (getOffset c.type.bits) 0 ≤ 4 ∧
        (getOffset c.type.bits < 3 → offsetSizes.getD (getOffset c.type.bits) 0 ≤ 2) := by
      generalize getOffset c.type.bits = i at hoffset ⊢
      interval_cases i <;> decide
    split_ifs with hb
    · exact ⟨by omega, fun h => absurd h hb, fun h => by have := hentry.2 h; omega⟩
    · exact ⟨by omega, fun _ => by omega, fun _ => by omega⟩
  have hup := roundUp_ptr host (dataOff host c.frame +
    if c.type.bits &&& (fixOffsetMask ||| fixBase) = fixBaseOffset32 then 8 else 4)
  rcases hfits with hptr | hbase | hoffsets
  · have hround : dataOff host c.frame + 8 ≤ roundUp (dataOff host c.frame +
        if c.type.bits &&& (fixOffsetMask ||| fixBase) = fixBaseOffset32 then 8 else 4) host.ptr := by
      unfold roundUp dataOff
      rw [hptr]
      split_ifs <;> decide
    omega
  · have := hsmall.2.1 hbase
    split_ifs at hup ⊢ <;> omega
  · by_cases hbase : c.type.bits &&& fixBase = 0
    · have := hsmall.2.1 hbase
      split_ifs at hup ⊢ <;> omega
    · by_cases h4 : getOffset c.type.bits = 4
      · rw [if_pos (baseOffset32 h4 hbase)] at hup ⊢
        omega
      · have := hsmall.2.2 (by omega)
        split_ifs at hup ⊢ <;> omega

/-! ## The members of a record -/

theorem slice_overlay_apart {f : ℕ → UInt8} {l : List UInt8} {p q k : ℕ} (h : q + k ≤ p ∨ p + l.length ≤ q) :
    slice (overlay f p l) q k = slice f q k := by
  refine slice_congr fun i hi hi' => ?_
  rcases h with h | h
  · exact overlay_of_lt (by omega)
  · exact overlay_of_ge (by omega)

theorem drop_take_slice {f : ℕ → UInt8} {i k n : ℕ} (h : i + k ≤ n) (rest : List UInt8) :
    ((slice f 0 n ++ rest).drop i).take k = slice f i k := by
  rw [List.drop_append_of_le_length (by rw [slice_length]; omega), slice_drop, zero_add,
    List.take_append_of_le_length (by rw [slice_length]; omega), slice_take f i (by omega)]

/-- A member that has been written is read back. -/
theorem member_slice {f : ℕ → UInt8} {i k n v : ℕ} (h : i + k ≤ n) (hv : v < 256 ^ k)
    (hslice : slice f i k = leBytes k v) (rest : List UInt8) : member (slice f 0 n ++ rest) i k = v := by
  rw [member, drop_take_slice h, hslice, leVal_leBytes hv]

theorem slice_leBytes (f : ℕ → UInt8) (p k v : ℕ) : slice (overlay f p (leBytes k v)) p k = leBytes k v := by
  have hself := slice_overlay_self f p (leBytes k v)
  rwa [leBytes_length] at hself

/-- `PatchOffset` leaves what is before the data. -/
theorem patchOffset_of_lt (type : BitVec 32) (val : ℕ) (mem : ℕ → UInt8) {p q : ℕ} (h : q < p) :
    (patchOffset type val mem p).1 q = mem q := by
  have hoverlay : ∀ k v, overlay mem p (leBytes k v) q = mem q := fun _ _ => overlay_of_lt h
  unfold patchOffset
  dsimp only
  split_ifs <;> first | rfl | (split <;> first | exact hoverlay _ _ | rfl)

section

variable {c : Call host}

/-- The members of a fixup before its data, once the flags are there. -/
theorem patched_members (st : St) (save : ℕ → UInt8) (flags : BitVec 32) :
    let record := overlay (c.patched st save).1 host.ptr (leBytes 4 flags.toNat)
    slice record host.ptr 4 = leBytes 4 flags.toNat ∧ slice record (host.ptr + 4) 4 = leBytes 4 c.loc ∧
      slice record 0 host.ptr = leBytes host.ptr c.targetPtr ∧
      (c.frame.hasData = true → slice record (host.ptr + 8) host.ptr = leBytes host.ptr c.framePtr) := by
  intro record
  have hdata := dataOff_ge host c.frame
  have hflags : ∀ q k, q + k ≤ host.ptr ∨ host.ptr + 4 ≤ q → q + k ≤ dataOff host c.frame →
      slice record q k = slice (c.members save) q k := by
    intro q k hapart hbelow
    rw [show slice record q k = slice (c.patched st save).1 q k from
      slice_overlay_apart (by rw [leBytes_length]; exact hapart)]
    refine slice_congr fun i _ hi => ?_
    unfold Call.patched
    dsimp only
    rw [patchOffset_of_lt _ _ _ (by omega), overlay_of_lt (by omega)]
  refine ⟨slice_leBytes _ _ _ _, ?_, ?_, fun hframe => ?_⟩
  · rw [hflags _ _ (by omega) (by omega)]
    unfold Call.members
    dsimp only
    split_ifs
    · rw [slice_overlay_apart (by omega), slice_overlay_apart (by rw [leBytes_length]; omega), slice_leBytes]
    · rw [slice_overlay_apart (by rw [leBytes_length]; omega), slice_leBytes]
  · rw [hflags _ _ (by omega) (by omega)]
    unfold Call.members
    dsimp only
    split_ifs
    · rw [slice_overlay_apart (by omega), slice_leBytes]
    · rw [slice_leBytes]
  · have hoff : dataOff host c.frame = 2 * host.ptr + 8 := if_pos hframe
    rw [hflags _ _ (by omega) (by omega)]
    unfold Call.members
    dsimp only
    rw [if_pos hframe, slice_leBytes]

theorem loc_lt (c : Call host) : c.loc < 256 ^ 4 := Nat.mod_lt _ (by decide)

/-- The record of a change of the segment is read back. -/
theorem visit_segRecord (c : Call host) (isdead : ℕ → Bool) (rest : List UInt8) (last : Option ℕ) :
    incExecRelocs host isdead (slice c.segRecord 0 (roundUp (host.ptr + 4) host.ptr) ++ rest) last =
      ⟨roundUp (host.ptr + 4) host.ptr, live isdead c.seg, none⟩ := by
  have hsize := roundUp_ptr host (host.ptr + 4)
  have hflags : member (slice c.segRecord 0 (roundUp (host.ptr + 4) host.ptr) ++ rest) host.ptr 4 =
      fixChangeSeg.toNat := by
    refine member_slice hsize (by decide) ?_ rest
    unfold Call.segRecord
    rw [slice_overlay_apart (by rw [leBytes_length]; omega), slice_leBytes]
  have hseg : member (slice c.segRecord 0 (roundUp (host.ptr + 4) host.ptr) ++ rest) 0 host.ptr = c.seg :=
    member_slice (by omega) c.seg.isLt (slice_leBytes _ _ _ _) rest
  have hchange : fixChangeSeg &&& fixChangeSeg ≠ 0 := by decide
  unfold incExecRelocs
  rw [hflags, hseg, BitVec.ofNat_toNat, BitVec.setWidth_eq]
  dsimp only
  rw [if_pos hchange]
  unfold calcSavedFixSize
  dsimp only
  rw [if_pos hchange]

/-- The record of a fixup is read back. -/
theorem visit_record (c : Call host) (hfits : c.type.Fits host) (st : St) (save : ℕ → UInt8) (isdead : ℕ → Bool)
    (rest : List UInt8) :
    incExecRelocs host isdead (c.record st save ++ rest) (live isdead c.seg) =
      ⟨(c.record st save).length, live isdead c.seg, some (c.stored isdead (c.bytes st save))⟩ := by
  unfold Call.record
  rw [Call.flags_eq]
  dsimp only
  generalize hzero : (c.bytes st save).all (· == 0) = zero
  rw [slice_length]
  have hreads := c.reads zero
  obtain ⟨hsize, hroom⟩ := record_size hreads hfits
  have hdata := dataOff_ge host c.frame
  obtain ⟨hflags, hoff, htarget, hframe⟩ := @patched_members host c st save (c.flags zero)
  have hfixup : calcFixupSize (c.flags zero) = calcFixupSize c.type.bits := by
    unfold calcFixupSize
    rw [hreads.offset, hreads.base]
  unfold incExecRelocs
  rw [member_slice (by omega) (c.flags zero).isLt hflags, BitVec.ofNat_toNat, BitVec.setWidth_eq]
  dsimp only
  rw [if_neg (by rw [hreads.changeSeg]; simp), member_slice (by omega) (loc_lt c) hoff,
    member_slice (by omega) c.targetPtr.isLt htarget, hreads.frame, hreads.target, hreads.type, hfixup]
  unfold Call.stored
  congr 3
  · by_cases hhas : c.frame.hasData = true
    · have hdataOff : dataOff host c.frame = 2 * host.ptr + 8 := if_pos hhas
      rw [if_pos hhas, if_pos hhas, member_slice (by omega) c.framePtr.isLt (hframe hhas)]
    · rw [if_neg hhas, if_neg hhas]
  · cases zero with
    | true =>
      rw [if_pos (hreads.addendZero.2 rfl)]
      refine (List.eq_replicate_iff.2 ⟨slice_length _ _ _, fun b hb => ?_⟩).symm
      exact eq_of_beq (List.all_eq_true.1 hzero b hb)
    | false =>
      rw [if_neg (by rw [hreads.addendZero]; decide), drop_take_slice (hroom rfl)]
      exact slice_overlay_apart (by rw [leBytes_length]; omega)

end

/-! ## Going through the records -/

/-- The records are gone through, with the fixups `fixups`, and then the rest of the slice. -/
def Plays (host : Host) (isdead : ℕ → Bool) (last : Option ℕ) (records : List UInt8) (fixups : List Fixup)
    (last' : Option ℕ) : Prop :=
  ∀ before rest sizeleft,
    iterateModRelocs host isdead (before ++ (records ++ rest)) before.length (records.length + sizeleft) last =
      (iterateModRelocs host isdead (before ++ (records ++ rest)) (before.length + records.length) sizeleft last').map
        (fixups ++ ·)

theorem Plays.nil (host : Host) (isdead : ℕ → Bool) (last : Option ℕ) : Plays host isdead last [] [] last := by
  intro before rest sizeleft
  simp

theorem Plays.append {isdead : ℕ → Bool} {a b d : Option ℕ} {r r' : List UInt8} {l l' : List Fixup}
    (h : Plays host isdead a r l b) (h' : Plays host isdead b r' l' d) : Plays host isdead a (r ++ r') (l ++ l') d := by
  intro before rest sizeleft
  have hfirst := h before (r' ++ rest) (r'.length + sizeleft)
  have hsecond := h' (before ++ r) rest sizeleft
  rw [List.append_assoc, List.length_append] at hsecond
  rw [List.length_append, List.append_assoc, add_assoc, hfirst, hsecond, Option.map_map, ← add_assoc]
  congr 1
  funext m
  exact (List.append_assoc ..).symm

/-- One record. -/
theorem Plays.record {isdead : ℕ → Bool} {last : Option ℕ} {record : List UInt8} {visit : Visit}
    (hpos : 0 < visit.size) (hsize : visit.size = record.length)
    (h : ∀ rest, incExecRelocs host isdead (record ++ rest) last = visit) :
    Plays host isdead last record visit.fixup.toList visit.lastSegData := by
  intro before rest sizeleft
  have hvisit : incExecRelocs host isdead ((before ++ (record ++ rest)).drop before.length) last = visit := by
    rw [List.drop_left]
    exact h rest
  rw [iterateModRelocs, if_neg (by omega)]
  dsimp only
  rw [hvisit, dif_pos ⟨hpos, by omega⟩, hsize, Nat.add_sub_cancel_left]

theorem permSaveFixup_spec {table : Table} (h : Inv false table) (fix : List UInt8) :
    ∃ table', permSaveFixup table fix = some table' ∧ Inv false table' ∧ table'.written = table.written ++ fix := by
  obtain ⟨r, hadd, hinv, hwritten, -⟩ := add_spec h (.buffer fix) (fun hsplit => by cases hsplit)
  refine ⟨r.table, by rw [permSaveFixup, hadd]; rfl, hinv, ?_⟩
  rw [hwritten]
  simp [Extent.put, place, Addition.bytes]

/-- The record of a fixup is added and can be gone through. -/
theorem store_spec {st : St} (h : Inv false st.table) (isdead : ℕ → Bool) {c : Call host} (hfits : c.type.Fits host)
    (save : ℕ → UInt8) :
    ∃ st' record, c.store st save = some (st', c.bytes st save) ∧ Inv false st'.table ∧
      st'.table.written = st.table.written ++ record ∧ st'.lastSegData = some c.seg.val ∧
      Plays host isdead (live isdead c.seg) record [c.stored isdead (c.bytes st save)] (live isdead c.seg) := by
  obtain ⟨table, hsave, hinv, hwritten⟩ := permSaveFixup_spec h (c.record st save)
  refine ⟨_, c.record st save, by rw [Call.store, hsave]; rfl, hinv, hwritten, rfl, ?_⟩
  refine Plays.record ?_ rfl fun rest => visit_record c hfits st save isdead rest
  have hsize := (record_size (c.reads ((c.bytes st save).all (· == 0))) hfits).1
  have hdata := dataOff_ge host c.frame
  unfold Call.record
  rw [Call.flags_eq]
  dsimp only
  rw [slice_length]
  omega

theorem segRecord_plays (c : Call host) (isdead : ℕ → Bool) (last : Option ℕ) :
    Plays host isdead last (slice c.segRecord 0 (roundUp (host.ptr + 4) host.ptr)) [] (live isdead c.seg) := by
  have hup := roundUp_ptr host (host.ptr + 4)
  have hpos : 0 < roundUp (host.ptr + 4) host.ptr := by omega
  generalize hsize : roundUp (host.ptr + 4) host.ptr = size at hpos
  refine @Plays.record host isdead last _ ⟨size, live isdead c.seg, none⟩ hpos (slice_length _ _ _).symm fun rest => ?_
  rw [← hsize]
  exact visit_segRecord c isdead rest last

/-- One fixup: its record, after one of the segment if that has changed, is added and can be gone through. -/
theorem storeFixup_spec {st : St} (h : Inv false st.table) (isdead : ℕ → Bool) {c : Call host}
    (hfits : c.type.Fits host) :
    ∃ st' bytes records, storeFixup st c = some (st', bytes) ∧ Inv false st'.table ∧
      st'.table.written = st.table.written ++ records ∧ st'.lastSegData = some c.seg.val ∧
      ∀ last, (∀ s, st.lastSegData = some s → last = live isdead s) →
        Plays host isdead last records [c.stored isdead bytes] (live isdead c.seg) := by
  by_cases hchanged : st.lastSegData ≠ some c.seg.val
  · -- The segment has changed: its record comes first.
    obtain ⟨table, hseg, hinv, hwritten⟩ :=
      permSaveFixup_spec h (slice c.segRecord 0 (roundUp (host.ptr + 4) host.ptr))
    obtain ⟨st', record, hstore, hinv', hwritten', hlast', hplays⟩ :=
      @store_spec host { st with table := table } hinv isdead c hfits c.segRecord
    refine ⟨st', c.bytes { st with table := table } c.segRecord,
      slice c.segRecord 0 (roundUp (host.ptr + 4) host.ptr) ++ record, ?_, hinv', ?_, hlast', fun last _ => ?_⟩
    · rw [storeFixup, if_pos hchanged, hseg, Option.bind_some, hstore]
    · rw [hwritten', hwritten, List.append_assoc]
    · exact (segRecord_plays c isdead last).append hplays
  · obtain ⟨st', record, hstore, hinv', hwritten', hlast', hplays⟩ := store_spec h isdead hfits c.save
    refine ⟨st', c.bytes st c.save, record, ?_, hinv', hwritten', hlast', fun last hlast => ?_⟩
    · rw [storeFixup, if_neg hchanged, hstore]
    · rw [hlast c.seg (not_ne_iff.1 hchanged)]
      exact hplays

/-- The fixups of a module, from where the segment is known or not. -/
theorem storeFixups_spec {st : St} (h : Inv false st.table) (isdead : ℕ → Bool) {calls : List (Call host)}
    (hfits : ∀ c ∈ calls, c.type.Fits host) :
    ∃ st' bytes records, storeFixups st calls = some (st', bytes) ∧ Inv false st'.table ∧
      st'.table.written = st.table.written ++ records ∧ bytes.length = calls.length ∧
      ∀ last, (∀ s, st.lastSegData = some s → last = live isdead s) →
        ∃ last', Plays host isdead last records (storedAll isdead calls bytes) last' := by
  induction calls generalizing st with
  | nil => exact ⟨st, [], [], rfl, h, (List.append_nil _).symm, rfl, fun last _ => ⟨last, Plays.nil host isdead last⟩⟩
  | cons c calls ih =>
    rw [List.forall_mem_cons] at hfits
    obtain ⟨st', bytes, records, hstore, hinv, hwritten, hseg, hplays⟩ := storeFixup_spec h isdead hfits.1
    obtain ⟨st'', more, records', hstores, hinv', hwritten', hlength, hrest⟩ := ih hinv hfits.2
    refine ⟨st'', bytes :: more, records ++ records', ?_, hinv', ?_, ?_, fun last hlast => ?_⟩
    · rw [storeFixups, hstore, Option.bind_some, hstores]
      rfl
    · rw [hwritten', hwritten, List.append_assoc]
    · rw [List.length_cons, List.length_cons, hlength]
    · obtain ⟨last', hlast'⟩ := hrest (live isdead c.seg) fun s hs => by
        rw [hseg] at hs
        rw [Option.some.inj hs]
      exact ⟨last', (hplays last hlast).append hlast'⟩

/-- A module has a slice of the relocations that plays its fixups. -/
def HasSlice (host : Host) (isdead : ℕ → Bool) (written : List UInt8) (calls : List (Call host))
    (run : ModEntry × List (List UInt8)) : Prop :=
  run.2.length = calls.length ∧ ∃ before records after, written = before ++ (records ++ after) ∧
    run.1 = ⟨before.length, records.length⟩ ∧
    ∀ last, ∃ last', Plays host isdead last records (storedAll isdead calls run.2) last'

theorem HasSlice.append {isdead : ℕ → Bool} {written : List UInt8} {calls : List (Call host)}
    {run : ModEntry × List (List UInt8)} (h : HasSlice host isdead written calls run) (tail : List UInt8) :
    HasSlice host isdead (written ++ tail) calls run := by
  obtain ⟨hlength, before, records, after, rfl, hentry, hplays⟩ := h
  exact ⟨hlength, before, records, after ++ tail, by simp only [List.append_assoc], hentry, hplays⟩

theorem getStringTableSize_eq {table : Table} (h : Inv false table) (hsize : table.written.length ≤ 2 ^ 32) :
    getStringTableSize table = table.written.length := by
  rw [← output_eq] at hsize ⊢
  exact ((size_eq_iff h).2 hsize).symm

/-- The modules one after the other. -/
theorem pass1All_spec {st : St} (h : Inv false st.table) (isdead : ℕ → Bool) {modules : List (List (Call host))}
    (hfits : ∀ calls ∈ modules, ∀ c ∈ calls, c.type.Fits host) :
    ∃ st' runs tail, pass1All st modules = some (st', runs) ∧ Inv false st'.table ∧
      st'.table.written = st.table.written ++ tail ∧
      (st'.table.written.length ≤ 2 ^ 32 → List.Forall₂ (HasSlice host isdead st'.table.written) modules runs) := by
  induction modules generalizing st with
  | nil => exact ⟨st, [], [], rfl, h, (List.append_nil _).symm, fun _ => .nil⟩
  | cons calls modules ih =>
    rw [List.forall_mem_cons] at hfits
    obtain ⟨st', bytes, records, hstores, hinv, hwritten, hlength, hplays⟩ :=
      @storeFixups_spec host { st with lastSegData := none } h isdead calls hfits.1
    obtain ⟨st'', runs, tail, hall, hinv', hwritten', hslices⟩ := ih hinv hfits.2
    refine ⟨st'', (⟨getStringTableSize st.table, getStringTableSize st'.table - getStringTableSize st.table⟩, bytes) ::
      runs, records ++ tail, ?_, hinv', ?_, fun hsize => .cons ?_ (hslices hsize)⟩
    · rw [pass1All, pass1, hstores, Option.map_some, Option.bind_some, hall]
      rfl
    · rw [hwritten', hwritten, List.append_assoc]
    · change st'.table.written = st.table.written ++ records at hwritten
      have hlong : st''.table.written.length = st.table.written.length + records.length + tail.length := by
        rw [hwritten', hwritten, List.length_append, List.length_append]
      have hbefore := getStringTableSize_eq h (by omega)
      have hafter : getStringTableSize st'.table = st.table.written.length + records.length := by
        rw [getStringTableSize_eq hinv (by rw [hwritten, List.length_append]; omega), hwritten,
          List.length_append]
      refine ⟨hlength, st.table.written, records, tail, ?_, ?_, fun last => hplays last fun s hs => by cases hs⟩
      · rw [hwritten', hwritten, List.append_assoc]
      · rw [hbefore, hafter, Nat.add_sub_cancel_left]

/-- The relocations are read as they have been written, with zeros behind them. -/
theorem incP2Start_spec {table : Table} (h : Inv false table) (hsize : table.written.length ≤ 2 ^ 32) :
    ∃ zeros, incP2Start table = some (table.written ++ zeros) := by
  unfold incP2Start
  dsimp only
  rw [getStringTableSize_eq h hsize]
  by_cases hround : roundUp table.written.length 512 ≠ table.written.length
  · have hfits : table.last.length + (roundUp table.written.length 512 - table.written.length) ≤ strBlockSize := by
      have hwritten := h.written_length
      have hlast := h.last
      unfold roundUp
      unfold strBlockSize at *
      omega
    have hzero : zeroStringTable table (roundUp table.written.length 512 - table.written.length) = some _ :=
      if_pos hfits
    obtain ⟨-, hwritten⟩ := zeroStringTable_spec h hzero
    rw [if_pos hround, hzero, Option.map_some, output_eq, hwritten]
    exact ⟨_, rfl⟩
  · rw [if_neg hround, Option.map_some, output_eq]
    exact ⟨[], by rw [List.append_nil]⟩

/-- From the stored relocations each module is visited as its fixups were stored, as long as they take no more than
4 GiB. -/
theorem stored_fixups_replayed (host : Host) (isdead : ℕ → Bool) (modules : List (List (Call host)))
    (lastSegData : Option ℕ) (object : ℕ → ℕ → UInt8) (overflow : Bool)
    (hfits : ∀ calls ∈ modules, ∀ c ∈ calls, c.type.Fits host) :
    ∃ st runs, pass1All ⟨initStringTable false, lastSegData, object, overflow⟩ modules = some (st, runs) ∧
      (st.table.written.length ≤ 2 ^ 32 → ∃ readRelocs, incP2Start st.table = some readRelocs ∧
        List.Forall₂ (fun calls run => run.2.length = calls.length ∧ ∀ last,
          iterateModRelocs host isdead readRelocs run.1.relocs run.1.sizerelocs last =
            some (storedAll isdead calls run.2)) modules runs) := by
  obtain ⟨st, runs, tail, hall, hinv, -, hslices⟩ :=
    @pass1All_spec host ⟨initStringTable false, lastSegData, object, overflow⟩ (Inv.init false) isdead modules hfits
  refine ⟨st, runs, hall, fun hsize => ?_⟩
  obtain ⟨zeros, hread⟩ := incP2Start_spec hinv hsize
  refine ⟨_, hread, (hslices hsize).imp fun calls run hslice => ⟨hslice.1, fun last => ?_⟩⟩
  obtain ⟨-, before, records, after, hwritten, hentry, hplays⟩ := hslice.append zeros
  obtain ⟨last', hplays⟩ := hplays last
  have hiterate := hplays before after 0
  rw [hwritten, hentry, ← add_zero records.length, hiterate, iterateModRelocs, if_pos rfl, Option.map_some,
    List.append_nil]

/-- A host with pointers of 4 bytes. -/
def host4 : Host := ⟨4, .inl rfl⟩

/-- A fixup without an addend, in the segment 1. -/
def plainCall (type : FixType) : Call host4 where
  seg := ⟨1, by norm_num [host4]⟩
  objOffset := 0
  isUnsafe := false
  off := 0
  type := type
  frame := .loc
  framePtr := ⟨0, by norm_num [host4]⟩
  target := .seg
  targetPtr := ⟨0, by norm_num [host4]⟩
  addend := 0
  save _ := 0

/-- `FIX_OFFSET_32`. -/
def offset32 : FixType := ⟨0x00040000, by decide, by decide⟩

/-- `FIX_BASE` with `FIX_OFFSET_24`. -/
def baseOffset24 : FixType := ⟨0x00050010, by decide, by decide⟩

theorem offset32_replayed : ∃ st runs,
    pass1All ⟨initStringTable false, none, fun _ _ => 1, false⟩ [[plainCall offset32]] = some (st, runs) ∧
      (st.table.written.length ≤ 2 ^ 32 → ∃ readRelocs, incP2Start st.table = some readRelocs ∧
        List.Forall₂ (fun calls run => run.2.length = calls.length ∧ ∀ last,
          iterateModRelocs host4 (fun _ => false) readRelocs run.1.relocs run.1.sizerelocs last =
            some (storedAll (fun _ => false) calls run.2)) [[plainCall offset32]] runs) :=
  stored_fixups_replayed host4 (fun _ => false) [[plainCall offset32]] none (fun _ _ => 1) false
    (by simp [plainCall, FixType.Fits, offset32, fixBase])

/-- The record of the segment 1, and that of the fixup. -/
def baseOffset24Record : List UInt8 :=
  [1, 0, 0, 0, 1, 0, 0, 0] ++ [0, 0, 0, 0, 0x10, 0, 5, 4, 0, 0, 0, 0, 1, 1, 1, 1]

/-- Six bytes are put into the object, but the record has room for four of them. -/
theorem baseOffset24_not_replayed : ∃ st relocs sizerelocs bytes readRelocs,
    pass1All ⟨initStringTable false, none, fun _ _ => 1, false⟩ [[plainCall baseOffset24]] =
      some (st, [(⟨relocs, sizerelocs⟩, [bytes])]) ∧
    incP2Start st.table = some readRelocs ∧ bytes = [1, 1, 1, 1, 1, 1] ∧
    iterateModRelocs host4 (fun _ => false) readRelocs relocs sizerelocs none ≠
      some (storedAll (fun _ => false) [plainCall baseOffset24] [bytes]) := by
  refine ⟨_, 0, 24, _, baseOffset24Record ++ List.replicate 488 0, rfl, by decide +kernel, by decide, ?_⟩
  rw [iterateModRelocs, if_neg (by decide)]
  dsimp only
  rw [dif_pos (by decide +kernel), iterateModRelocs, if_neg (by decide +kernel)]
  dsimp only
  rw [dif_pos (by decide +kernel), iterateModRelocs, if_pos (by decide +kernel)]
  decide +kernel

end OpenWatcom.Wlink.StoredFixups
