import Mathlib.Data.BitVec
import OpenWatcom.Lib.LittleEndian

/-! # Fixup records of flat modules

`CheckSpecials`, `PatchData` and `formatBaseReloc` turn a fixup of an LE, LX or VxD module into a record, and
`DumpReloc` puts the record in the list of its page. A record is read by its flags. Offsets are of 32 bits. -/

namespace OpenWatcom.Wlink.FlatRecords

/-! ## Fixups -/

/-- `FmtData.type`, with `MK_OS2_LE`, `MK_OS2_LX` and `MK_WIN_VXD`. -/
inductive Format
  | le | lx | vxd
  deriving DecidableEq

/-- `targ_addr`. -/
structure Addr where
  seg : BitVec 16
  off : BitVec 32

/-- The offsets of `FIX_OFFSET_MASK` that such a module has. -/
inductive Offset
  | noOffset | offset8 | offset16 | offset32
  deriving DecidableEq

/-- `OffsetSizes`. -/
def Offset.size : Offset → ℕ
  | .noOffset => 0
  | .offset8 => 1
  | .offset16 => 2
  | .offset32 => 4

/-- `fix_type`; `frameFlat` says that `FIX_GET_FRAME` is `FIX_FRAME_FLAT`. -/
structure FixType where
  base : Bool
  offset : Offset
  rel : Bool
  noAdj : Bool
  abs : Bool
  frameFlat : Bool

/-- `CalcFixupSize`. -/
def calcFixupSize (type : FixType) : ℕ := type.offset.size + if type.base then 2 else 0

/-- `dll_sym_info`: an imported symbol by the number of its name or by its ordinal. -/
inductive Entry
  | name (num : BitVec 32)
  | ordinal (num : ℕ)

structure Dll where
  modnum : Option (BitVec 16)
  entry : Entry

/-- `group_entry`. -/
structure Group where
  off : BitVec 32
  linear : BitVec 32
  level2 : Bool
  conforming : Bool

/-- What is known of a target: that it is imported, the ordinal it is exported with, that its segment has 16 bits, and
its group. -/
structure Target where
  dll : Option Dll
  exported : Option ℕ
  bits16 : Bool
  group : Group

/-- What kinds of fields there are: offsets, selectors, and pointers of both. -/
inductive Kind
  | off8 | off16 | off32 | selector | ptr16 | ptr32
  deriving DecidableEq

def Kind.offset : Kind → Offset
  | .off8 => .offset8
  | .off16 | .ptr16 => .offset16
  | .off32 | .ptr32 => .offset32
  | .selector => .noOffset

def Kind.base : Kind → Bool
  | .off8 | .off16 | .off32 => false
  | .selector | .ptr16 | .ptr32 => true

/-- A fixup as `Relocate` has it, with the offset that its field holds. -/
structure Fixup where
  kind : Kind
  rel : Bool
  noAdj : Bool
  abs : Bool
  frameFlat : Bool
  loc : Addr
  tgt : Addr
  target : Target
  data : BitVec 32
  data_lt : data.toNat < 256 ^ kind.offset.size

def Fixup.type (f : Fixup) : FixType := ⟨f.kind.base, f.kind.offset, f.rel, f.noAdj, f.abs, f.frameFlat⟩

/-- The settings, and the group of the segment with the fixup. -/
structure Linker where
  format : Format
  genRelRelocs : Bool
  genIntRelocs : Bool
  makeRelocs : Bool
  group : Group

/-- What of `fix_relo_data` changes. -/
structure Fix where
  type : FixType
  data : BitVec 32
  value : BitVec 32
  imported : Bool
  additive : Bool
  selfrel : Bool
  done : Bool

/-- The fixup before anything is done. -/
def Fixup.start (f : Fixup) : Fix := ⟨f.type, f.data, 0, f.target.dll.isSome, false, false, false⟩

/-- `PatchOffset`. -/
def patchOffset (type : FixType) (data val : BitVec 32) : BitVec 32 :=
  match type.offset with
  | .offset8 => (data + val) &&& 0xFF
  | .offset16 | .noOffset => (data + val) &&& 0xFFFF
  | .offset32 => data + val

/-- `CheckSpecials`: nothing if the fixup is handled or there is a message. The type is never `FIX_OFFSET_16` alone
here, so that the range of offsets of 16 bits is not checked. -/
def checkSpecials (link : Linker) (f : Fixup) (fix : Fix) : Option Fix :=
  if !fix.type.rel then some fix
  else if fix.imported then some fix
  else if f.loc.seg ≠ f.tgt.seg then some fix
  else if fix.type.abs then none
  else if fix.type.base then none
  else
    let off := f.tgt.off - f.loc.off
    let off := if fix.type.noAdj then off else off - BitVec.ofNat 32 (calcFixupSize fix.type)
    if link.format = .lx && link.genRelRelocs then
      some { fix with data := patchOffset fix.type fix.data off, selfrel := true }
    else none

/-- `FindRealAddr`. -/
def findRealAddr (link : Linker) (f : Fixup) (fix : Fix) : BitVec 32 :=
  if fix.type.abs then f.tgt.off
  else if link.format = .le ∨ link.format = .vxd then f.tgt.off
  else f.tgt.off + (f.target.group.linear - f.target.group.off)

/-- `PatchData`, where the field has an offset or is a selector. -/
def patchData (link : Linker) (f : Fixup) (fix : Fix) : Fix :=
  let value := (if fix.imported then f.tgt.off else 0) + if fix.type.offset = .noOffset then 0 else fix.data
  let fix :=
    if fix.type.noAdj && fix.imported then
      -- the mask leaves no other flag
      { fix with
        value := value + BitVec.ofNat 32 (calcFixupSize fix.type)
        type := ⟨false, .noOffset, false, true, false, false⟩ }
    else { fix with value := value }
  let fix := { fix with additive := fix.value != 0 }
  if fix.type.rel then fix
  else if fix.imported then fix
  else
    let fix := { fix with done := fix.type.abs }
    if !fix.type.base then
      { fix with
        data := patchOffset fix.type fix.data (findRealAddr link f fix)
        done := fix.done || (link.format = .lx && !link.genIntRelocs) }
    else fix

/-! ## Records -/

/-- `OSF_SOURCE_MASK`. -/
inductive Source
  | byte | undefined | seg | ptr32 | off16 | ptr48 | off32 | off32Rel
  deriving DecidableEq

/-- `OSF_TARGET_MASK`. -/
inductive TargetKind
  | internal | extOrd | extName | intViaEntry

/-- `nr_flags`: `OSF_TFLAG_ADDITIVE_VAL`, `OSF_TFLAG_OFF_32BIT`, `OSF_TFLAG_ADD_32BIT`, `OSF_TFLAG_OBJ_MOD_16BIT` and
`OSF_TFLAG_ORDINAL_8BIT`. -/
structure Flags where
  target : TargetKind
  additive : Bool
  off32 : Bool
  add32 : Bool
  objMod16 : Bool
  ordinal8 : Bool

/-- `os2_flat_reloc_item`; `toAlias` is `OSF_SFLAG_FIXUP_TO_ALIAS`. -/
structure Record where
  source : Source
  toAlias : Bool
  flags : Flags
  soff : ℤ
  buff : List UInt8

/-- `OS2OffsetFixTypeMap`. -/
def os2OffsetFixTypeMap : Offset → Source
  | .noOffset => .undefined
  | .offset8 => .byte
  | .offset16 => .off16
  | .offset32 => .off32

/-- `OS2SegmentedFixTypeMap`. -/
def os2SegmentedFixTypeMap : Offset → Source
  | .noOffset => .seg
  | .offset8 => .undefined
  | .offset16 => .ptr32
  | .offset32 => .ptr48

/-- `MapOS2FixType`. -/
def mapOS2FixType (type : FixType) : Source :=
  if type.base then os2SegmentedFixTypeMap type.offset else os2OffsetFixTypeMap type.offset

/-- `ChkOS2IntEntry`: the ordinal, 0 if there is no entry, and nothing if there is a message. -/
def chkOS2IntEntry (group seg : Group) (target : Target) : Option ℕ :=
  if group.level2 ≠ seg.level2 then
    if group.level2 && !group.conforming then target.exported
    else some 0
  else some 0

/-- The number of an object or a module. -/
def putObject (num : ℕ) (flags : Flags) : Flags × List UInt8 :=
  if num > 0xFF then ({ flags with objMod16 := true }, leBytes 2 num) else (flags, leBytes 1 num)

/-- An offset in an object, or the number of a name. -/
def putOffset (off : ℕ) (flags : Flags) : Flags × List UInt8 :=
  if off > 0xFFFF then ({ flags with off32 := true }, leBytes 4 off) else (flags, leBytes 2 off)

/-- An ordinal. -/
def putOrdinal (num : ℕ) (flags : Flags) : Flags × List UInt8 :=
  if num > 0xFF then (flags, leBytes 2 num) else ({ flags with ordinal8 := true }, leBytes 1 num)

/-- The value that is added to an imported address. -/
def putAdditive (fix : Fix) (flags : Flags) : Flags × List UInt8 :=
  if fix.additive then
    if fix.value.toNat > 0x7fff then
      ({ flags with additive := true, add32 := true }, leBytes 4 fix.value.toNat)
    else ({ flags with additive := true }, leBytes 2 fix.value.toNat)
  else (flags, [])

/-- No flags but the target. -/
def Flags.only (target : TargetKind) : Flags := ⟨target, false, false, false, false, false⟩

/-- The fields of an imported target; this module itself is 0. -/
def putImport (dll : Dll) (fix : Fix) : Flags × List UInt8 :=
  let first := putObject (dll.modnum.getD 0).toNat
    (.only (match dll.entry with | .ordinal _ => .extOrd | .name _ => .extName))
  let second := match dll.entry with
    | .name num => putOffset num.toNat first.1
    | .ordinal num => putOrdinal num first.1
  let third := putAdditive fix second.1
  (third.1, first.2 ++ second.2 ++ third.2)

/-- The fields of an internal target; a selector has no offset. -/
def putInternal (f : Fixup) (fix : Fix) : Flags × List UInt8 :=
  let off := (if fix.selfrel then f.tgt.off else f.tgt.off + fix.value) - f.target.group.off
  let first := putObject f.tgt.seg.toNat (.only .internal)
  let second :=
    if fix.type.base && fix.type.offset = .noOffset then (first.1, []) else putOffset off.toNat first.1
  (second.1, first.2 ++ second.2)

/-- The fields of a target in the entry table. -/
def putEntry (ordinal : ℕ) : Flags × List UInt8 := putOrdinal ordinal (.only .intViaEntry)

/-- `FindOS2ExportSym`, for a relative fixup in its own object. -/
def findOS2ExportSym (f : Fixup) (fix : Fix) : Option Dll :=
  if fix.type.rel && fix.selfrel then f.target.exported.map fun num => ⟨none, .ordinal num⟩ else none

/-- The alias of a target of 16 bits is asked for, or its entry is. -/
def wantsEntry (f : Fixup) (fix : Fix) (source : Source) : Bool :=
  f.target.dll.isNone && f.target.bits16 &&
    match source with
    | .seg | .ptr48 => !fix.type.frameFlat
    | .ptr32 | .off16 => true
    | _ => false

/-- `formatBaseReloc` for a flat module; nothing if there is a message. -/
def formatBaseReloc (link : Linker) (f : Fixup) (fix : Fix) : Option Record :=
  let source := if fix.type.rel then .off32Rel else mapOS2FixType fix.type
  let exported := findOS2ExportSym f fix
  let entry := if wantsEntry f fix source then chkOS2IntEntry f.target.group link.group f.target else some 0
  entry.map fun ordinal =>
    let fields :=
      if ordinal ≠ 0 then putEntry ordinal
      else
        match exported.or f.target.dll with
        | none => putInternal f fix
        | some dll => putImport dll fix
    { source := source
      toAlias := wantsEntry f fix source && source ≠ .off16 || source = .ptr32
      flags := fields.1
      soff := ((f.loc.off - link.group.off).toNat % 4096 : ℕ)
      buff := fields.2 }

/-- `FmtReloc`, with the size of the field; nothing if there is no record. -/
def fmtReloc (link : Linker) (f : Fixup) (fix : Fix) : Option (Record × ℕ) :=
  if fix.done then none
  else if fix.type.abs && !fix.imported then none
  else if !link.makeRelocs then none
  else (formatBaseReloc link f fix).map fun record => (record, calcFixupSize fix.type)

/-- `DumpReloc`: the records with their pages (`WriteReloc`). -/
def dumpReloc (link : Linker) (f : Fixup) (record : Record) (size : ℕ) : List (ℕ × Record) :=
  let page := (f.loc.off - link.group.off).toNat / 4096
  if 4096 - f.loc.off.toNat % 4096 < size then
    [(page, record), ((f.loc.off + 4096 - link.group.off).toNat / 4096, { record with soff := record.soff - 4096 })]
  else [(page, record)]

/-- `Relocate`: the records of a fixup that reaches `formatBaseReloc` without a message. -/
def relocate (link : Linker) (f : Fixup) : Option (List (ℕ × Record)) :=
  (checkSpecials link f f.start).bind fun fix =>
    (fmtReloc link f (patchData link f fix)).map fun made => dumpReloc link f made.1 made.2

/-! ## Reading a record -/

/-- What a record refers to. -/
inductive Ref
  | internal (object : ℕ) (off : ℕ)
  | entry (ordinal : ℕ)
  | ordinal (module num : ℕ)
  | name (module num : ℕ)

/-- The target and what is added to it. -/
structure Decoded where
  ref : Ref
  additive : ℕ

/-- What is added, at the end of a record. -/
def readAdditive (flags : Flags) (l : List UInt8) : Option ℕ :=
  (if flags.additive then readLe (if flags.add32 then 4 else 2) l else some (0, l)).bind fun r =>
    if r.2 = [] then some r.1 else none

/-- A record by its flags. -/
def decode (record : Record) : Option Decoded :=
  (readLe (if record.flags.objMod16 then 2 else 1) record.buff).bind fun first =>
    match record.flags.target with
    | .internal =>
      if record.source = .seg then if first.2 = [] then some ⟨.internal first.1 0, 0⟩ else none
      else
        (readLe (if record.flags.off32 then 4 else 2) first.2).bind fun off =>
          if off.2 = [] then some ⟨.internal first.1 off.1, 0⟩ else none
    | .extOrd =>
      (readLe (if record.flags.ordinal8 then 1 else if record.flags.off32 then 4 else 2) first.2).bind fun num =>
        (readAdditive record.flags num.2).map fun additive => ⟨.ordinal first.1 num.1, additive⟩
    | .extName =>
      (readLe (if record.flags.off32 then 4 else 2) first.2).bind fun num =>
        (readAdditive record.flags num.2).map fun additive => ⟨.name first.1 num.1, additive⟩
    | .intViaEntry => (readAdditive record.flags first.2).map fun additive => ⟨.entry first.1, additive⟩

/-! ## What was asked -/

/-- The source of a record for the field, if there is one: relative fields have 32 bits. -/
def sourceOf (f : Fixup) : Option Source :=
  if f.rel then if f.kind = .off32 then some .off32Rel else none
  else
    some <| match f.kind with
      | .off8 => .byte
      | .off16 => .off16
      | .off32 => .off32
      | .selector => .seg
      | .ptr16 => .ptr32
      | .ptr32 => .ptr48

/-- What the loader adds to the fixup's target, if the record refers to it: an object and an offset, an entry of this
module (which has no module number), or an import. -/
def addend (f : Fixup) (d : Decoded) : Option (BitVec 32) :=
  match f.target.dll, d.ref with
  | none, .internal object off =>
    if object = f.tgt.seg.toNat then
      some (BitVec.ofNat 32 off + BitVec.ofNat 32 d.additive - (f.tgt.off - f.target.group.off))
    else none
  | none, .entry num => if f.target.exported = some num then some (BitVec.ofNat 32 d.additive) else none
  | none, .ordinal 0 num => if f.target.exported = some num then some (BitVec.ofNat 32 d.additive) else none
  | some ⟨modnum, .ordinal num⟩, .ordinal module num' =>
    if module = (modnum.getD 0).toNat ∧ num' = num then some (BitVec.ofNat 32 d.additive - f.tgt.off) else none
  | some ⟨modnum, .name num⟩, .name module num' =>
    if module = (modnum.getD 0).toNat ∧ num' = num.toNat then some (BitVec.ofNat 32 d.additive - f.tgt.off) else none
  | _, _ => none

/-- The addend of the fixup. The loader subtracts the end of a relative field; without adjustment it is the field. -/
def wanted (f : Fixup) : BitVec 32 := f.data + if f.rel && f.noAdj then 4 else 0

/-- Where the field is in its object, and how many bytes it has. -/
def place (link : Linker) (f : Fixup) : ℕ := (f.loc.off - link.group.off).toNat

def fieldSize (f : Fixup) : ℕ := calcFixupSize f.type

/-- The record says what was asked. -/
def Says (f : Fixup) (record : Record) : Prop :=
  some record.source = sourceOf f ∧
    ∃ d, decode record = some d ∧ ∃ a, addend f d = some a ∧
      a.toNat % 256 ^ f.kind.offset.size = (wanted f).toNat % 256 ^ f.kind.offset.size

/-- Each page that the field is in has one record, which is about the field. -/
def Recorded (link : Linker) (f : Fixup) (records : List (ℕ × Record)) : Prop :=
  records.map Prod.fst =
      (if place link f % 4096 + fieldSize f > 4096 then [place link f / 4096, place link f / 4096 + 1]
        else [place link f / 4096]) ∧
    ∀ r ∈ records, (r.1 * 4096 : ℕ) + r.2.soff = (place link f : ℤ) ∧ Says f r.2

/-- The target is in a segment of 16 bits that other levels reach through a call gate only. -/
def NeedsEntry (link : Linker) (f : Fixup) : Prop :=
  f.target.bits16 = true ∧ (f.frameFlat = true → f.kind = .off16 ∨ f.kind = .ptr16) ∧ f.kind ≠ .off8 ∧ f.kind ≠ .off32 ∧
    f.target.group.level2 = true ∧ link.group.level2 = false ∧ f.target.group.conforming = false

/-- When the records are right. -/
def Meets (link : Linker) (f : Fixup) : Prop :=
  (4096 - f.loc.off.toNat % 4096 < fieldSize f ↔ 4096 - place link f % 4096 < fieldSize f) ∧
    (f.rel = true → f.kind = .off32) ∧
    match f.target.dll with
    | some dll => f.noAdj = false ∧ ∀ num, dll.entry = .ordinal num → num < 65536
    | none =>
      if f.rel then
        if f.loc.seg ≠ f.tgt.seg then f.noAdj = false
        else
          match f.target.exported with
          | none => f.data = if f.noAdj then -4 else 0
          | some num => num < 65536 ∧ f.tgt.off - f.loc.off = 4
      else NeedsEntry link f → ∀ num, f.target.exported = some num → num ≠ 0 → num < 256 ∧ f.data = 0

/-! ## Records read back -/

theorem leVal_leBytes_mod (k n : ℕ) : leVal (leBytes k n) = n % 256 ^ k := by
  induction k generalizing n with
  | zero => simp [leBytes, leVal, Nat.mod_one]
  | succ k ih =>
    rw [leBytes, leVal, ih, pow_succ, Nat.mul_comm (256 ^ k), Nat.mod_mul]
    simp

theorem readLe_leBytes (k n : ℕ) (l : List UInt8) : readLe k (leBytes k n ++ l) = some (n % 256 ^ k, l) := by
  have hlen := leBytes_length k n
  unfold readLe
  rw [if_pos (by rw [List.length_append]; omega), List.take_left' hlen, List.drop_left' hlen, leVal_leBytes_mod]

theorem readLe_leBytes_nil (k n : ℕ) : readLe k (leBytes k n) = some (n % 256 ^ k, []) := by
  have h := readLe_leBytes k n []
  rwa [List.append_nil] at h

theorem putObject_spec (num : ℕ) (flags : Flags) (hnum : num < 65536) (hflags : flags.objMod16 = false)
    (l : List UInt8) :
    readLe (if (putObject num flags).1.objMod16 then 2 else 1) ((putObject num flags).2 ++ l) = some (num, l) ∧
      (putObject num flags).1 = { flags with objMod16 := (putObject num flags).1.objMod16 } := by
  unfold putObject
  by_cases hbig : num > 0xFF
  · simp only [if_pos hbig, if_true, readLe_leBytes, and_true]
    rw [Nat.mod_eq_of_lt (by norm_num; omega)]
  · simp only [if_neg hbig, hflags, Bool.false_eq_true, if_false, readLe_leBytes]
    rw [Nat.mod_eq_of_lt (by norm_num; omega)]
    exact ⟨rfl, by cases flags; simp_all⟩

theorem putOffset_spec (off : ℕ) (flags : Flags) (hoff : off < 2 ^ 32) (hflags : flags.off32 = false) (l : List UInt8) :
    readLe (if (putOffset off flags).1.off32 then 4 else 2) ((putOffset off flags).2 ++ l) = some (off, l) ∧
      (putOffset off flags).1 = { flags with off32 := (putOffset off flags).1.off32 } := by
  unfold putOffset
  by_cases hbig : off > 0xFFFF
  · simp only [if_pos hbig, if_true, readLe_leBytes, and_true]
    rw [Nat.mod_eq_of_lt (by norm_num; omega)]
  · simp only [if_neg hbig, hflags, Bool.false_eq_true, if_false, readLe_leBytes]
    rw [Nat.mod_eq_of_lt (by norm_num; omega)]
    exact ⟨rfl, by cases flags; simp_all⟩

/-- An ordinal has two bytes at most. -/
theorem putOrdinal_spec (num : ℕ) (flags : Flags) (hoff : flags.off32 = false) (hflags : flags.ordinal8 = false)
    (l : List UInt8) :
    readLe (if (putOrdinal num flags).1.ordinal8 then 1 else if (putOrdinal num flags).1.off32 then 4 else 2)
        ((putOrdinal num flags).2 ++ l) = some (num % 65536, l) ∧
      (putOrdinal num flags).1 = { flags with ordinal8 := (putOrdinal num flags).1.ordinal8 } := by
  unfold putOrdinal
  by_cases hbig : num > 0xFF
  · simp only [if_pos hbig, hoff, hflags, Bool.false_eq_true, if_false, readLe_leBytes]
    exact ⟨rfl, by cases flags; simp_all⟩
  · simp only [if_neg hbig, if_true, readLe_leBytes, and_true]
    rw [Nat.mod_eq_of_lt (by norm_num; omega), Nat.mod_eq_of_lt (by omega)]

/-- The value is there if it is not zero. -/
theorem putAdditive_spec (fix : Fix) (flags : Flags) (hadditive : fix.additive = (fix.value != 0))
    (hflags : flags.additive = false) (hadd32 : flags.add32 = false) :
    readAdditive (putAdditive fix flags).1 (putAdditive fix flags).2 = some fix.value.toNat ∧
      (putAdditive fix flags).1 = { flags with
        additive := (putAdditive fix flags).1.additive
        add32 := (putAdditive fix flags).1.add32 } := by
  have hlt := fix.value.isLt
  unfold putAdditive readAdditive
  by_cases hadd : fix.additive = true
  · by_cases hbig : fix.value.toNat > 0x7fff
    · simp only [if_pos hadd, if_pos hbig, if_true, readLe_leBytes_nil, Option.bind_some, and_true]
      rw [Nat.mod_eq_of_lt (by norm_num; omega)]
    · simp only [if_pos hadd, if_neg hbig, hadd32, if_true, Bool.false_eq_true, if_false, readLe_leBytes_nil,
        Option.bind_some]
      rw [Nat.mod_eq_of_lt (by norm_num; omega)]
      exact ⟨rfl, trivial⟩
  · have hzero : fix.value = 0 := by
      rw [hadditive] at hadd
      simpa using hadd
    cases flags
    simp_all

/-- What an imported target reads back as: its ordinal has lost what is above 16 bits. -/
theorem decode_import (dll : Dll) (fix : Fix) (record : Record) (hadditive : fix.additive = (fix.value != 0))
    (hflags : record.flags = (putImport dll fix).1) (hbuff : record.buff = (putImport dll fix).2) :
    decode record = some
      ⟨match dll.entry with
        | .name num => .name (dll.modnum.getD 0).toNat num.toNat
        | .ordinal num => .ordinal (dll.modnum.getD 0).toNat (num % 65536), fix.value.toNat⟩ := by
  obtain ⟨modnum, entry⟩ := dll
  have hlt : (modnum.getD 0).toNat < 65536 := (modnum.getD 0).isLt
  unfold putImport at hflags hbuff
  unfold decode
  cases entry with
  | name num =>
    dsimp only at hflags hbuff ⊢
    generalize hfirst : putObject (modnum.getD 0).toNat (Flags.only .extName) = first at hflags hbuff
    generalize hsecond : putOffset num.toNat first.1 = second at hflags hbuff
    generalize hthird : putAdditive fix second.1 = third at hflags hbuff
    obtain ⟨hread, hkeep⟩ := putObject_spec _ (Flags.only .extName) hlt rfl (second.2 ++ third.2)
    rw [hfirst] at hread hkeep
    obtain ⟨hread', hkeep'⟩ := putOffset_spec num.toNat first.1 num.isLt (by rw [hkeep]; rfl) third.2
    rw [hsecond] at hread' hkeep'
    obtain ⟨hread'', hkeep''⟩ := putAdditive_spec fix second.1 hadditive (by rw [hkeep', hkeep]; rfl)
      (by rw [hkeep', hkeep]; rfl)
    rw [hthird] at hread'' hkeep''
    have hobject : third.1.objMod16 = first.1.objMod16 := by rw [hkeep'', hkeep']
    have hoff : third.1.off32 = second.1.off32 := by rw [hkeep'']
    have htarget : third.1.target = .extName := by rw [hkeep'', hkeep', hkeep]; rfl
    rw [hflags, hbuff, List.append_assoc, hobject, hread, Option.bind_some, htarget]
    dsimp only
    rw [hoff, hread', Option.bind_some, hread'', Option.map_some]
  | ordinal num =>
    dsimp only at hflags hbuff ⊢
    generalize hfirst : putObject (modnum.getD 0).toNat (Flags.only .extOrd) = first at hflags hbuff
    generalize hsecond : putOrdinal num first.1 = second at hflags hbuff
    generalize hthird : putAdditive fix second.1 = third at hflags hbuff
    obtain ⟨hread, hkeep⟩ := putObject_spec _ (Flags.only .extOrd) hlt rfl (second.2 ++ third.2)
    rw [hfirst] at hread hkeep
    obtain ⟨hread', hkeep'⟩ := putOrdinal_spec num first.1 (by rw [hkeep]; rfl) (by rw [hkeep]; rfl) third.2
    rw [hsecond] at hread' hkeep'
    obtain ⟨hread'', hkeep''⟩ := putAdditive_spec fix second.1 hadditive (by rw [hkeep', hkeep]; rfl)
      (by rw [hkeep', hkeep]; rfl)
    rw [hthird] at hread'' hkeep''
    have hobject : third.1.objMod16 = first.1.objMod16 := by rw [hkeep'', hkeep']
    have hoff : third.1.off32 = second.1.off32 := by rw [hkeep'']
    have hordinal : third.1.ordinal8 = second.1.ordinal8 := by rw [hkeep'']
    have htarget : third.1.target = .extOrd := by rw [hkeep'', hkeep', hkeep]; rfl
    rw [hflags, hbuff, List.append_assoc, hobject, hread, Option.bind_some, htarget]
    dsimp only
    rw [hoff, hordinal, hread', Option.bind_some, hread'', Option.map_some]

/-- What an internal target reads back as. -/
theorem decode_internal (f : Fixup) (fix : Fix) (record : Record)
    (hsource : record.source = .seg ↔ (fix.type.base && fix.type.offset = .noOffset) = true)
    (hflags : record.flags = (putInternal f fix).1) (hbuff : record.buff = (putInternal f fix).2) :
    decode record = some ⟨.internal f.tgt.seg.toNat
      (if record.source = .seg then 0
        else ((if fix.selfrel then f.tgt.off else f.tgt.off + fix.value) - f.target.group.off).toNat), 0⟩ := by
  have hlt : f.tgt.seg.toNat < 65536 := f.tgt.seg.isLt
  unfold putInternal at hflags hbuff
  unfold decode
  dsimp only at hflags hbuff
  generalize (if fix.selfrel then f.tgt.off else f.tgt.off + fix.value) - f.target.group.off = off at hflags hbuff ⊢
  by_cases hseg : record.source = .seg
  · rw [if_pos (hsource.1 hseg)] at hflags hbuff
    dsimp only at hflags hbuff
    obtain ⟨hread, hkeep⟩ := putObject_spec _ (Flags.only .internal) hlt rfl []
    have htarget : (putObject f.tgt.seg.toNat (Flags.only .internal)).1.target = .internal := by rw [hkeep]; rfl
    rw [hflags, hbuff, hread, Option.bind_some, htarget]
    simp only [if_pos hseg, if_true]
  · rw [if_neg (fun h => hseg (hsource.2 h))] at hflags hbuff
    generalize hfirst : putObject f.tgt.seg.toNat (Flags.only .internal) = first at hflags hbuff
    generalize hsecond : putOffset off.toNat first.1 = second at hflags hbuff
    obtain ⟨hread, hkeep⟩ := putObject_spec _ (Flags.only .internal) hlt rfl second.2
    rw [hfirst] at hread hkeep
    obtain ⟨hread', hkeep'⟩ := putOffset_spec off.toNat first.1 off.isLt (by rw [hkeep]; rfl) []
    rw [hsecond, List.append_nil] at hread'
    rw [hsecond] at hkeep'
    have hobject : second.1.objMod16 = first.1.objMod16 := by rw [hkeep']
    have htarget : second.1.target = .internal := by rw [hkeep', hkeep]; rfl
    rw [hflags, hbuff, hobject, hread, Option.bind_some, htarget]
    simp only [if_neg hseg, hread', Option.bind_some, if_true]

/-- What an entry reads back as: the flags give the ordinal one byte. -/
theorem decode_entry (ordinal : ℕ) (record : Record) (hflags : record.flags = (putEntry ordinal).1)
    (hbuff : record.buff = (putEntry ordinal).2) :
    decode record = if ordinal < 256 then some ⟨.entry ordinal, 0⟩ else none := by
  unfold putEntry putOrdinal at hflags hbuff
  unfold decode
  by_cases hbig : ordinal > 0xFF
  · rw [if_pos hbig] at hflags hbuff
    rw [hflags, hbuff, if_neg (show ¬ ordinal < 256 by omega)]
    simp [leBytes, readLe, Flags.only, readAdditive]
  · rw [if_neg hbig] at hflags hbuff
    rw [hflags, hbuff, if_pos (show ordinal < 256 by omega)]
    have hread := readLe_leBytes_nil 1 ordinal
    rw [Nat.mod_eq_of_lt (by norm_num; omega)] at hread
    simp [Flags.only, readAdditive, hread]

/-! ## What reaches a record -/

/-- Without the mask, the type stays and the value is what the field holds, with the offset of an import. -/
structure Patched (f : Fixup) (fix : Fix) : Prop where
  type : fix.type = f.type
  additive : fix.additive = (fix.value != 0)
  imported : ∀ dll, f.target.dll = some dll → fix.selfrel = false ∧ fix.value = f.tgt.off + f.data
  absolute : f.target.dll = none → f.rel = false → fix.selfrel = false ∧ fix.value = f.data
  other : f.target.dll = none → f.rel = true → f.loc.seg ≠ f.tgt.seg → fix.selfrel = false ∧ fix.value = f.data
  same : f.target.dll = none → f.rel = true → f.loc.seg = f.tgt.seg → fix.selfrel = true ∧
    (f.kind = .off32 → fix.value = f.data + (f.tgt.off - f.loc.off - if f.noAdj then 0 else 4))

/-- A field without an offset holds none. -/
theorem Fixup.data_eq_zero (f : Fixup) (h : f.kind.offset = .noOffset) : f.data = 0 := by
  have hlt := f.data_lt
  rw [h] at hlt
  exact BitVec.eq_of_toNat_eq (by simpa [Offset.size] using hlt)

/-- What `CheckSpecials` gives: the fixup as it is, or one that is relative within its segment. -/
theorem checkSpecials_cases {link : Linker} {f : Fixup} {fix fix' : Fix} (h : checkSpecials link f fix = some fix') :
    (fix.type.rel = false ∨ fix.imported = true ∨ f.loc.seg ≠ f.tgt.seg) ∧ fix' = fix ∨
      (fix.type.rel = true ∧ fix.imported = false ∧ f.loc.seg = f.tgt.seg) ∧ fix.type.base = false ∧
        fix' = { fix with
          data := patchOffset fix.type fix.data (if fix.type.noAdj then f.tgt.off - f.loc.off
            else f.tgt.off - f.loc.off - BitVec.ofNat 32 (calcFixupSize fix.type))
          selfrel := true } := by
  unfold checkSpecials at h
  split_ifs at h with hrel himported hseg habs hbase hadj hlx
  · exact .inl ⟨.inl (by simpa using hrel), (Option.some.inj h).symm⟩
  · exact .inl ⟨.inr (.inl himported), (Option.some.inj h).symm⟩
  · exact .inl ⟨.inr (.inr hseg), (Option.some.inj h).symm⟩
  all_goals
    have hguard : fix.type.rel = true ∧ fix.imported = false ∧ f.loc.seg = f.tgt.seg :=
      ⟨by simpa using hrel, Bool.eq_false_iff.2 himported, not_not.1 hseg⟩
    refine .inr ⟨hguard, Bool.eq_false_iff.2 hbase, ?_⟩
  · rw [if_pos hadj]
    exact (Option.some.inj h).symm
  · rw [if_neg hadj]
    exact (Option.some.inj h).symm

theorem checkSpecials_other {link : Linker} {f : Fixup} {fix : Fix} (h : checkSpecials link f f.start = some fix)
    (hother : f.target.dll.isSome = true ∨ f.rel = false ∨ f.loc.seg ≠ f.tgt.seg) : fix = f.start := by
  obtain ⟨-, heq⟩ | ⟨⟨hrel, himported, hseg⟩, -⟩ := checkSpecials_cases h
  · exact heq
  · rcases hother with hdll | hrel' | hseg'
    · cases hdll.symm.trans himported
    · cases hrel.symm.trans hrel'
    · exact absurd hseg hseg'

theorem checkSpecials_same {link : Linker} {f : Fixup} {fix : Fix} (h : checkSpecials link f f.start = some fix)
    (hdll : f.target.dll = none) (hrel : f.rel = true) (hseg : f.loc.seg = f.tgt.seg) :
    f.kind.base = false ∧ fix = { f.start with
      data := patchOffset f.type f.data (if f.noAdj then f.tgt.off - f.loc.off
        else f.tgt.off - f.loc.off - BitVec.ofNat 32 (calcFixupSize f.type))
      selfrel := true } := by
  obtain ⟨hrel' | himported | hseg', -⟩ | ⟨-, hfix⟩ := checkSpecials_cases h
  · cases hrel.symm.trans hrel'
  · rw [show f.start.imported = f.target.dll.isSome from rfl, hdll] at himported
    cases himported
  · exact absurd hseg hseg'
  · exact hfix

theorem patchData_spec {link : Linker} {f : Fixup} {fix : Fix} (hmask : (fix.type.noAdj && fix.imported) = false) :
    (patchData link f fix).type = fix.type ∧
      (patchData link f fix).value =
        (if fix.imported then f.tgt.off else 0) + (if fix.type.offset = .noOffset then 0 else fix.data) ∧
      (patchData link f fix).additive = ((patchData link f fix).value != 0) ∧
      (patchData link f fix).selfrel = fix.selfrel ∧ (patchData link f fix).imported = fix.imported := by
  unfold patchData
  dsimp only
  rw [hmask]
  simp only [Bool.false_eq_true, if_false]
  split_ifs <;> exact ⟨rfl, rfl, rfl, rfl, rfl⟩

/-- The mask leaves no source that a field has. -/
theorem patchData_masked {link : Linker} {f : Fixup} {fix : Fix} (hmask : (fix.type.noAdj && fix.imported) = true) :
    (patchData link f fix).type = ⟨false, .noOffset, false, true, false, false⟩ := by
  have himported : fix.imported = true := (Bool.and_eq_true_iff.1 hmask).2
  unfold patchData
  dsimp only
  rw [hmask]
  simp only [if_true, himported, Bool.false_eq_true, if_false]

theorem patched {link : Linker} {f : Fixup} {fix : Fix} (h : checkSpecials link f f.start = some fix)
    (hmask : (f.noAdj && f.target.dll.isSome) = false) : Patched f (patchData link f fix) := by
  have hfield : (if f.kind.offset = .noOffset then 0 else f.data) = f.data := by
    split_ifs with hoffset
    · exact (f.data_eq_zero hoffset).symm
    · rfl
  by_cases hother : f.target.dll.isSome = true ∨ f.rel = false ∨ f.loc.seg ≠ f.tgt.seg
  · obtain rfl := checkSpecials_other h hother
    obtain ⟨htype, hvalue, hadditive, hselfrel, -⟩ := @patchData_spec link f f.start hmask
    rw [show f.start.type.offset = f.kind.offset from rfl, show f.start.data = f.data from rfl, hfield] at hvalue
    have hinternal : f.target.dll = none → (patchData link f f.start).value = f.data := fun hdll => by
      rw [hvalue, show f.start.imported = f.target.dll.isSome from rfl, hdll]
      exact BitVec.zero_add _
    refine ⟨htype, hadditive, ?_, ?_, ?_, ?_⟩
    · intro dll hdll
      refine ⟨hselfrel, ?_⟩
      rw [hvalue, show f.start.imported = f.target.dll.isSome from rfl, hdll]
      rfl
    · exact fun hdll _ => ⟨hselfrel, hinternal hdll⟩
    · exact fun hdll _ _ => ⟨hselfrel, hinternal hdll⟩
    · intro hdll hrel hseg
      rcases hother with hdll' | hrel' | hseg'
      · rw [hdll] at hdll'
        cases hdll'
      · cases hrel.symm.trans hrel'
      · exact absurd hseg hseg'
  · push Not at hother
    obtain ⟨hdll, hrel, hseg⟩ := hother
    have hdll : f.target.dll = none := by simpa using hdll
    have hrel : f.rel = true := by simpa using hrel
    obtain ⟨hbase, rfl⟩ := checkSpecials_same h hdll hrel hseg
    obtain ⟨htype, hvalue, hadditive, hselfrel, -⟩ := @patchData_spec link f
      { f.start with
        data := patchOffset f.type f.data (if f.noAdj then f.tgt.off - f.loc.off
          else f.tgt.off - f.loc.off - BitVec.ofNat 32 (calcFixupSize f.type))
        selfrel := true } hmask
    refine ⟨htype, hadditive, ?_, ?_, ?_, ?_⟩
    · intro dll hdll'
      rw [hdll] at hdll'
      cases hdll'
    · intro _ hrel'
      cases hrel.symm.trans hrel'
    · exact fun _ _ hseg' => absurd hseg hseg'
    · refine fun _ _ _ => ⟨hselfrel, fun hkind => ?_⟩
      have hoffset : f.type.offset = .offset32 := by
        change f.kind.offset = .offset32
        rw [hkind]
        rfl
      have hsize : calcFixupSize f.type = 4 := by
        unfold calcFixupSize
        rw [hoffset, show f.type.base = false from hbase]
        rfl
      rw [hvalue, show f.start.imported = f.target.dll.isSome from rfl, hdll, show f.start.type = f.type from rfl,
        hoffset, hsize]
      simp only [patchOffset, hoffset, Option.isSome_none, Bool.false_eq_true, if_false, reduceCtorEq]
      cases f.noAdj with
      | false =>
        simp only [Bool.false_eq_true, if_false]
        bv_omega
      | true =>
        simp only [if_true]
        bv_omega

/-! ## When a record is right -/

/-- The source of the record, for a type that stays. -/
def recordSource (f : Fixup) : Source := if f.rel then .off32Rel else mapOS2FixType f.type

theorem recordSource_iff (f : Fixup) :
    some (recordSource f) = sourceOf f ↔ (f.rel = true → f.kind = .off32) := by
  unfold recordSource sourceOf mapOS2FixType
  change some (if f.rel then Source.off32Rel else if f.kind.base then os2SegmentedFixTypeMap f.kind.offset
    else os2OffsetFixTypeMap f.kind.offset) = _ ↔ _
  cases f.rel <;> cases f.kind <;>
    simp [Kind.base, Kind.offset, os2SegmentedFixTypeMap, os2OffsetFixTypeMap]

/-- Equal values leave equal fields. -/
theorem field_eq {f : Fixup} (hrel : f.rel = true → f.kind = .off32) (a : BitVec 32)
    (hf : f.rel = true) :
    a.toNat % 256 ^ f.kind.offset.size = (wanted f).toNat % 256 ^ f.kind.offset.size ↔ a = wanted f := by
  rw [hrel hf]
  change a.toNat % 256 ^ 4 = (wanted f).toNat % 256 ^ 4 ↔ _
  have ha := a.isLt
  have hw := (wanted f).isLt
  rw [Nat.mod_eq_of_lt (by norm_num; omega), Nat.mod_eq_of_lt (by norm_num; omega)]
  exact BitVec.toNat_inj

theorem says_import {f : Fixup} {fix : Fix} {record : Record} {dll : Dll} (hdll : f.target.dll = some dll)
    (hadj : f.noAdj = false) (hfix : Patched f fix) (hsource : record.source = recordSource f)
    (hflags : record.flags = (putImport dll fix).1) (hbuff : record.buff = (putImport dll fix).2) :
    Says f record ↔ (f.rel = true → f.kind = .off32) ∧ ∀ num, dll.entry = .ordinal num → num < 65536 := by
  have hdecode := decode_import dll fix record hfix.additive hflags hbuff
  have hwanted : wanted f = f.data := by
    unfold wanted
    rw [hadj]
    simp
  have hvalue : BitVec.ofNat 32 fix.value.toNat - f.tgt.off = f.data := by
    rw [(hfix.imported dll hdll).2, BitVec.ofNat_toNat, BitVec.setWidth_eq]
    bv_omega
  unfold Says
  rw [hsource, recordSource_iff, hdecode, hwanted]
  refine and_congr_right fun _ => ?_
  obtain ⟨modnum, entry⟩ := dll
  simp only [Option.some.injEq, exists_eq_left', addend, hdll]
  cases entry with
  | name num =>
    refine ⟨fun _ num' h => (by cases h), fun _ => ?_⟩
    dsimp only
    rw [if_pos ⟨rfl, rfl⟩]
    exact ⟨_, rfl, by rw [hvalue]⟩
  | ordinal num =>
    simp only [true_and, Entry.ordinal.injEq, forall_eq']
    constructor
    · rintro ⟨a, ha, -⟩
      split_ifs at ha with hnum
      omega
    · intro hnum
      rw [if_pos (Nat.mod_eq_of_lt hnum)]
      exact ⟨_, rfl, by rw [hvalue]⟩

/-- The source is a selector where the type has no offset. -/
theorem recordSource_seg (f : Fixup) (hrel : f.rel = false) :
    recordSource f = .seg ↔ (f.type.base && f.type.offset = .noOffset) = true := by
  unfold recordSource mapOS2FixType
  change (if f.rel then Source.off32Rel else if f.kind.base then os2SegmentedFixTypeMap f.kind.offset
    else os2OffsetFixTypeMap f.kind.offset) = _ ↔ (f.kind.base && f.kind.offset = .noOffset) = true
  rw [hrel]
  cases f.kind <;> simp [Kind.base, Kind.offset, os2SegmentedFixTypeMap, os2OffsetFixTypeMap]

/-- An absolute field with an internal target is always right. -/
theorem says_internal {f : Fixup} {fix : Fix} {record : Record} (hdll : f.target.dll = none) (hrel : f.rel = false)
    (hfix : Patched f fix) (hsource : record.source = recordSource f)
    (hflags : record.flags = (putInternal f fix).1) (hbuff : record.buff = (putInternal f fix).2) :
    Says f record := by
  have hdecode := decode_internal f fix record (by rw [hsource, hfix.type]; exact recordSource_seg f hrel) hflags hbuff
  obtain ⟨hselfrel, hvalue⟩ := hfix.absolute hdll hrel
  have hwanted : wanted f = f.data := by
    unfold wanted
    rw [hrel]
    simp
  refine ⟨?_, _, hdecode, ?_⟩
  · rw [hsource, recordSource_iff, hrel]
    exact fun h => (by cases h)
  · unfold addend
    rw [hdll, hwanted, hselfrel, hvalue]
    dsimp only
    rw [if_pos rfl]
    refine ⟨_, rfl, ?_⟩
    by_cases hseg : record.source = .seg
    · have hoffset : f.kind.offset = .noOffset := by
        have h := (recordSource_seg f hrel).1 (hsource ▸ hseg)
        exact of_decide_eq_true (Bool.and_eq_true_iff.1 h).2
      rw [hoffset]
      simp [Offset.size, Nat.mod_one]
    · rw [if_neg hseg]
      congr 2
      simp only [Bool.false_eq_true, if_false, BitVec.ofNat_toNat, BitVec.setWidth_eq]
      bv_omega

theorem Says.kind {f : Fixup} {record : Record} (hsource : record.source = recordSource f) (h : Says f record) :
    f.rel = true → f.kind = .off32 := (recordSource_iff f).1 (hsource ▸ h.1)

/-- A relative field is right when what is added is its addend; in its own object nothing is added. -/
theorem says_relative {f : Fixup} {fix : Fix} {record : Record} (hdll : f.target.dll = none) (hrel : f.rel = true)
    (hkind : f.kind = .off32) (hfix : Patched f fix) (hsource : record.source = recordSource f)
    (hflags : record.flags = (putInternal f fix).1) (hbuff : record.buff = (putInternal f fix).2) :
    Says f record ↔ (if fix.selfrel then 0 else fix.value) = wanted f := by
  have hoff32 : record.source = .off32Rel := by
    rw [hsource]
    unfold recordSource
    rw [if_pos hrel]
  have hoffset : (fix.type.base && fix.type.offset = .noOffset) = false := by
    rw [hfix.type]
    change (f.kind.base && f.kind.offset = .noOffset) = false
    rw [hkind]
    rfl
  have hdecode := decode_internal f fix record (by rw [hoff32, hoffset]; simp) hflags hbuff
  have hadd : BitVec.ofNat 32 ((if fix.selfrel then f.tgt.off else f.tgt.off + fix.value) - f.target.group.off).toNat +
      BitVec.ofNat 32 0 - (f.tgt.off - f.target.group.off) = if fix.selfrel then 0 else fix.value := by
    rw [BitVec.ofNat_toNat, BitVec.setWidth_eq]
    cases fix.selfrel with
    | false =>
      simp only [Bool.false_eq_true, if_false]
      bv_omega
    | true =>
      simp only [if_true]
      bv_omega
  unfold Says
  rw [hsource, recordSource_iff, hdecode]
  simp only [Option.some.injEq, exists_eq_left', addend, hdll, hoff32, reduceCtorEq, if_false, if_true, hadd]
  rw [field_eq (fun _ => hkind) _ hrel]
  exact ⟨fun h => h.2, fun h => ⟨fun _ => hkind, h⟩⟩

/-- A relative field with an exported target in its own object has what it holds as the value. -/
theorem says_exported {f : Fixup} {fix : Fix} {record : Record} {num : ℕ} (hdll : f.target.dll = none)
    (hrel : f.rel = true) (hkind : f.kind = .off32) (hexported : f.target.exported = some num) (hfix : Patched f fix)
    (hsource : record.source = recordSource f) (hflags : record.flags = (putImport ⟨none, .ordinal num⟩ fix).1)
    (hbuff : record.buff = (putImport ⟨none, .ordinal num⟩ fix).2) :
    Says f record ↔ num < 65536 ∧ fix.value = wanted f := by
  have hdecode := decode_import ⟨none, .ordinal num⟩ fix record hfix.additive hflags hbuff
  unfold Says
  rw [hsource, recordSource_iff, hdecode]
  simp only [Option.some.injEq, exists_eq_left', addend, hdll, hexported]
  change (_ ∧ ∃ a, (if num = num % 65536 then some (BitVec.ofNat 32 fix.value.toNat) else none) = some a ∧ _) ↔ _
  rw [BitVec.ofNat_toNat, BitVec.setWidth_eq]
  constructor
  · rintro ⟨-, a, ha, heq⟩
    split_ifs at ha with hnum
    obtain rfl := Option.some.inj ha
    exact ⟨by omega, (field_eq (fun _ => hkind) _ hrel).1 heq⟩
  · rintro ⟨hnum, hvalue⟩
    rw [if_pos (Nat.mod_eq_of_lt hnum).symm]
    exact ⟨fun _ => hkind, _, rfl, (field_eq (fun _ => hkind) _ hrel).2 hvalue⟩

/-- An entry is right when its ordinal has one byte and nothing is added. -/
theorem says_entry {f : Fixup} {record : Record} {num : ℕ} (hdll : f.target.dll = none) (hrel : f.rel = false)
    (hexported : f.target.exported = some num) (hsource : record.source = recordSource f)
    (hflags : record.flags = (putEntry num).1) (hbuff : record.buff = (putEntry num).2) :
    Says f record ↔ num < 256 ∧ f.data = 0 := by
  have hdecode := decode_entry num record hflags hbuff
  have hwanted : wanted f = f.data := by
    unfold wanted
    rw [hrel]
    simp
  unfold Says
  rw [hsource, recordSource_iff, hrel, hdecode, hwanted]
  constructor
  · rintro ⟨-, d, hd, a, ha, heq⟩
    split_ifs at hd with hnum
    obtain rfl := Option.some.inj hd
    simp only [addend, hdll, hexported, if_true, Option.some.injEq] at ha
    subst ha
    rw [Nat.mod_eq_of_lt f.data_lt] at heq
    exact ⟨hnum, BitVec.eq_of_toNat_eq (by rw [← heq]; simp)⟩
  · rintro ⟨hnum, hdata⟩
    rw [if_pos hnum, hdata]
    refine ⟨fun h => (by cases h), _, rfl, 0, ?_, rfl⟩
    simp [addend, hdll, hexported]

/-! ## The pages -/

/-- The records are in the pages of the field when both tests for the end of a page agree. -/
theorem recorded_iff {link : Linker} {f : Fixup} {record : Record} {size : ℕ}
    (hinside : place link f + fieldSize f ≤ 2 ^ 32) (hsoff : record.soff = (place link f % 4096 : ℕ)) :
    Recorded link f (dumpReloc link f record size) ↔
      (4096 - f.loc.off.toNat % 4096 < size ↔ 4096 - place link f % 4096 < fieldSize f) ∧ Says f record := by
  have hfirst : ((place link f / 4096 * 4096 : ℕ) : ℤ) + record.soff = place link f := by
    rw [hsoff]
    omega
  unfold Recorded dumpReloc
  by_cases hsize : 4096 - f.loc.off.toNat % 4096 < size
  · by_cases hcross : place link f % 4096 + fieldSize f > 4096
    · have hnext : (f.loc.off + 4096 - link.group.off).toNat = place link f + 4096 := by
        have hmod : f.loc.off + 4096 - link.group.off = (f.loc.off - link.group.off) + 4096 := by bv_omega
        rw [hmod, BitVec.toNat_add]
        exact Nat.mod_eq_of_lt (by change place link f + 4096 < 2 ^ 32; omega)
      rw [if_pos hsize, if_pos hcross]
      constructor
      · rintro ⟨-, hall⟩
        exact ⟨⟨fun _ => by omega, fun _ => hsize⟩, (hall _ List.mem_cons_self).2⟩
      · rintro ⟨-, hright⟩
        refine ⟨?_, fun r hr => ?_⟩
        · simp only [List.map_cons, List.map_nil, hnext]
          rw [Nat.add_div_right _ (by norm_num)]
          rfl
        · rcases List.mem_cons.1 hr with rfl | hr
          · exact ⟨hfirst, hright⟩
          · obtain rfl := List.mem_singleton.1 hr
            refine ⟨?_, hright⟩
            dsimp only
            rw [hnext, Nat.add_div_right _ (by norm_num), hsoff]
            push_cast
            have hdiv := Int.mul_ediv_add_emod (place link f : ℤ) 4096
            linarith
    · rw [if_pos hsize, if_neg hcross]
      constructor
      · rintro ⟨hpages, -⟩
        exact absurd (congrArg List.length hpages) (by simp)
      · rintro ⟨hboth, -⟩
        exact absurd (hboth.1 hsize) (by omega)
  · by_cases hcross : place link f % 4096 + fieldSize f > 4096
    · rw [if_neg hsize, if_pos hcross]
      constructor
      · rintro ⟨hpages, -⟩
        exact absurd (congrArg List.length hpages) (by simp)
      · rintro ⟨hboth, -⟩
        exact absurd (hboth.2 (by omega)) hsize
    · rw [if_neg hsize, if_neg hcross]
      constructor
      · rintro ⟨-, hall⟩
        exact ⟨⟨fun h => absurd h hsize, fun h => absurd h (by omega)⟩, (hall _ List.mem_cons_self).2⟩
      · rintro ⟨-, hright⟩
        refine ⟨rfl, fun r hr => ?_⟩
        obtain rfl := List.mem_singleton.1 hr
        exact ⟨hfirst, hright⟩

/-! ## The records of a fixup -/

/-- `formatBaseReloc` by the ordinal of the entry that is used. -/
theorem formatBaseReloc_some {link : Linker} {f : Fixup} {fix : Fix} {record : Record}
    (h : formatBaseReloc link f fix = some record) :
    ∃ ordinal,
      (if wantsEntry f fix record.source then chkOS2IntEntry f.target.group link.group f.target else some 0) =
        some ordinal ∧
      record.source = (if fix.type.rel then .off32Rel else mapOS2FixType fix.type) ∧
      record.soff = (place link f % 4096 : ℕ) ∧
      (record.flags, record.buff) =
        if ordinal ≠ 0 then putEntry ordinal
        else
          match (findOS2ExportSym f fix).or f.target.dll with
          | none => putInternal f fix
          | some dll => putImport dll fix := by
  unfold formatBaseReloc at h
  obtain ⟨ordinal, hordinal, rfl⟩ := Option.map_eq_some_iff.1 h
  exact ⟨ordinal, hordinal, rfl, rfl, rfl⟩

theorem wantsEntry_absolute {link : Linker} {f : Fixup} {fix : Fix} {ordinal : ℕ} (hdll : f.target.dll = none)
    (htype : fix.type = f.type) (hrel : f.rel = false)
    (h : (if wantsEntry f fix (recordSource f) then chkOS2IntEntry f.target.group link.group f.target else some 0) =
      some ordinal) :
    (NeedsEntry link f ∧ f.target.exported = some ordinal) ∨ (¬ NeedsEntry link f ∧ ordinal = 0) := by
  have hwants : wantsEntry f fix (recordSource f) = true ↔ f.target.bits16 = true ∧
      (f.frameFlat = true → f.kind = .off16 ∨ f.kind = .ptr16) ∧ f.kind ≠ .off8 ∧ f.kind ≠ .off32 := by
    unfold wantsEntry recordSource mapOS2FixType
    rw [htype, hdll, hrel]
    change (_ && f.target.bits16 && match (if f.kind.base then os2SegmentedFixTypeMap f.kind.offset
      else os2OffsetFixTypeMap f.kind.offset) with
      | .seg | .ptr48 => !f.frameFlat
      | .ptr32 | .off16 => true
      | _ => false) = true ↔ _
    cases f.kind <;> simp [Kind.base, Kind.offset, os2SegmentedFixTypeMap, os2OffsetFixTypeMap]
  unfold chkOS2IntEntry at h
  unfold NeedsEntry
  by_cases hentry : wantsEntry f fix (recordSource f) = true
  · obtain ⟨hbits, hflat, hoff8, hoff32⟩ := hwants.1 hentry
    rw [if_pos hentry] at h
    split_ifs at h with hlevel hconforming
    · simp only [Bool.and_eq_true, Bool.not_eq_true'] at hconforming
      refine Or.inl ⟨⟨hbits, hflat, hoff8, hoff32, hconforming.1, ?_, hconforming.2⟩, h⟩
      rw [hconforming.1] at hlevel
      simpa using hlevel.symm
    · refine Or.inr ⟨fun hneeds => hconforming ?_, (Option.some.inj h).symm⟩
      rw [hneeds.2.2.2.2.1, hneeds.2.2.2.2.2.2]
      rfl
    · refine Or.inr ⟨fun hneeds => hlevel ?_, (Option.some.inj h).symm⟩
      rw [hneeds.2.2.2.2.1, hneeds.2.2.2.2.2.1]
      decide
  · rw [if_neg hentry] at h
    exact Or.inr ⟨fun hneeds => hentry (hwants.2 ⟨hneeds.1, hneeds.2.1, hneeds.2.2.1, hneeds.2.2.2.1⟩),
      (Option.some.inj h).symm⟩

/-- What an internal fixup has to meet apart from its pages and its size. -/
theorem says_none {link : Linker} {f : Fixup} {fix : Fix} {record : Record} (hdll : f.target.dll = none)
    (hkind : f.rel = true → f.kind = .off32) (hfix : Patched f fix)
    (hformat : formatBaseReloc link f fix = some record) :
    Says f record ↔
      if f.rel then
        if f.loc.seg ≠ f.tgt.seg then f.noAdj = false
        else
          match f.target.exported with
          | none => f.data = if f.noAdj then -4 else 0
          | some num => num < 65536 ∧ f.tgt.off - f.loc.off = 4
      else NeedsEntry link f → ∀ num, f.target.exported = some num → num ≠ 0 → num < 256 ∧ f.data = 0 := by
  obtain ⟨ordinal, hordinal, hsource, -, hfields⟩ := formatBaseReloc_some hformat
  have hsource' : record.source = recordSource f := by rw [hsource, hfix.type]; rfl
  have htyperel : fix.type.rel = f.rel := by rw [hfix.type]; rfl
  cases hrel : f.rel with
  | false =>
    have hnoexport : findOS2ExportSym f fix = none := by
      unfold findOS2ExportSym
      rw [htyperel, hrel]
      rfl
    rw [hsource'] at hordinal
    rw [hnoexport, hdll] at hfields
    simp only [Bool.false_eq_true, if_false]
    have hinternal : ordinal = 0 → Says f record := fun hzero => by
      rw [hzero] at hfields
      have h := Prod.mk.inj (hfields.trans (if_neg (by simp)))
      exact says_internal hdll hrel hfix hsource' h.1 h.2
    rcases wantsEntry_absolute hdll hfix.type hrel hordinal with ⟨hneeds, hexported⟩ | ⟨hnot, hzero⟩
    · by_cases hzero : ordinal = 0
      · refine iff_of_true (hinternal hzero) fun _ num hnum hne => ?_
        rw [hexported, hzero] at hnum
        exact absurd (Option.some.inj hnum).symm hne
      · have h := Prod.mk.inj (hfields.trans (if_pos hzero))
        rw [says_entry hdll hrel hexported hsource' h.1 h.2]
        constructor
        · intro hright _ num hnum _
          rw [hexported] at hnum
          obtain rfl := Option.some.inj hnum
          exact hright
        · exact fun hmeets => hmeets hneeds ordinal hexported hzero
    · exact iff_of_true (hinternal hzero) fun hneeds => absurd hneeds hnot
  | true =>
    have hwants : wantsEntry f fix record.source = false := by
      unfold wantsEntry
      rw [hsource', recordSource, if_pos hrel, Bool.and_false]
    rw [hwants] at hordinal
    obtain rfl := Option.some.inj hordinal
    simp only [if_true]
    have hwanted : wanted f = f.data + if f.noAdj then 4 else 0 := by
      unfold wanted
      rw [hrel, Bool.true_and]
    by_cases hseg : f.loc.seg = f.tgt.seg
    · obtain ⟨hselfrel, hvalue⟩ := hfix.same hdll hrel hseg
      rw [if_neg (by simpa using hseg)]
      have hexport : findOS2ExportSym f fix = f.target.exported.map fun num => ⟨none, .ordinal num⟩ := by
        unfold findOS2ExportSym
        rw [htyperel, hrel, hselfrel]
        rfl
      rw [hexport, hdll, Option.or_none] at hfields
      cases hexported : f.target.exported with
      | none =>
        rw [hexported] at hfields
        have h := Prod.mk.inj (hfields.trans (if_neg (by simp)))
        rw [says_relative hdll hrel (hkind hrel) hfix hsource' h.1 h.2, hselfrel, hwanted]
        simp only [if_true]
        cases f.noAdj with
        | false =>
          simp only [Bool.false_eq_true, if_false]
          constructor <;> intro heq <;> bv_omega
        | true =>
          simp only [if_true]
          constructor <;> intro heq <;> bv_omega
      | some num =>
        rw [hexported] at hfields
        have h := Prod.mk.inj (hfields.trans (if_neg (by simp)))
        rw [says_exported hdll hrel (hkind hrel) hexported hfix hsource' h.1 h.2, hvalue (hkind hrel), hwanted]
        refine and_congr_right fun _ => ?_
        cases f.noAdj with
        | false =>
          simp only [Bool.false_eq_true, if_false]
          constructor <;> intro heq <;> bv_omega
        | true =>
          simp only [if_true]
          constructor <;> intro heq <;> bv_omega
    · obtain ⟨hselfrel, hvalue⟩ := hfix.other hdll hrel hseg
      rw [if_pos hseg]
      have hnoexport : findOS2ExportSym f fix = none := by
        unfold findOS2ExportSym
        rw [hselfrel, Bool.and_false]
        rfl
      rw [hnoexport, hdll] at hfields
      have h := Prod.mk.inj (hfields.trans (if_neg (by simp)))
      rw [says_relative hdll hrel (hkind hrel) hfix hsource' h.1 h.2, hselfrel, hvalue, hwanted]
      cases f.noAdj with
      | false => simp
      | true =>
        simp only [Bool.false_eq_true, if_false, if_true, reduceCtorEq, iff_false]
        intro heq
        bv_omega

/-- What an imported fixup has to meet apart from its pages. -/
theorem says_some {link : Linker} {f : Fixup} {fix : Fix} {record : Record} {dll : Dll}
    (hdll : f.target.dll = some dll) (hadj : f.noAdj = false) (hfix : Patched f fix)
    (hformat : formatBaseReloc link f fix = some record) :
    Says f record ↔ (f.rel = true → f.kind = .off32) ∧ ∀ num, dll.entry = .ordinal num → num < 65536 := by
  obtain ⟨ordinal, hordinal, hsource, -, hfields⟩ := formatBaseReloc_some hformat
  have hsource' : record.source = recordSource f := by rw [hsource, hfix.type]; rfl
  have hwants : wantsEntry f fix record.source = false := by
    unfold wantsEntry
    rw [hdll]
    rfl
  rw [hwants] at hordinal
  obtain rfl := Option.some.inj hordinal
  have hnoexport : findOS2ExportSym f fix = none := by
    unfold findOS2ExportSym
    rw [(hfix.imported dll hdll).1, Bool.and_false]
    rfl
  rw [hnoexport, hdll] at hfields
  have h := Prod.mk.inj (hfields.trans (if_neg (by simp)))
  exact says_import hdll hadj hfix hsource' h.1 h.2

/-- An imported fixup without adjustment gets a source that no field has. -/
theorem not_says_masked {link : Linker} {f : Fixup} {fix : Fix} {record : Record}
    (htype : fix.type = ⟨false, .noOffset, false, true, false, false⟩)
    (hformat : formatBaseReloc link f fix = some record) : ¬ Says f record := by
  obtain ⟨-, -, hsource, -, -⟩ := formatBaseReloc_some hformat
  rintro ⟨hwrong, -⟩
  rw [hsource, htype] at hwrong
  unfold sourceOf at hwrong
  revert hwrong
  cases f.rel <;> cases f.kind <;> decide

/-- The records of a fixup that reaches `formatBaseReloc` say what was asked exactly when the fixup meets the
condition. -/
theorem relocate_recorded_iff (link : Linker) (f : Fixup) (records : List (ℕ × Record))
    (hinside : place link f + fieldSize f ≤ 2 ^ 32) (h : relocate link f = some records) :
    Recorded link f records ↔ Meets link f := by
  unfold relocate at h
  obtain ⟨fix, hspecial, hmade⟩ := Option.bind_eq_some_iff.1 h
  obtain ⟨⟨record, size⟩, hfmt, rfl⟩ := Option.map_eq_some_iff.1 hmade
  unfold fmtReloc at hfmt
  split_ifs at hfmt
  obtain ⟨record', hformat, heq⟩ := Option.map_eq_some_iff.1 hfmt
  obtain ⟨rfl, rfl⟩ := Prod.mk.inj heq
  obtain ⟨-, -, -, hsoff, -⟩ := formatBaseReloc_some hformat
  rw [recorded_iff hinside hsoff]
  unfold Meets
  cases hmask : (f.noAdj && f.target.dll.isSome) with
  | true =>
    have hkeep : fix = f.start := checkSpecials_other hspecial (Or.inl (Bool.and_eq_true_iff.1 hmask).2)
    have htype := @patchData_masked link f fix (by rw [hkeep]; exact hmask)
    refine iff_of_false (fun hright => not_says_masked htype hformat hright.2) fun hmeets => ?_
    obtain ⟨dll, hdll⟩ := Option.isSome_iff_exists.1 (Bool.and_eq_true_iff.1 hmask).2
    rw [hdll] at hmeets
    cases hmeets.2.2.1.symm.trans (Bool.and_eq_true_iff.1 hmask).1
  | false =>
    have hfix := patched hspecial hmask
    rw [show calcFixupSize (patchData link f fix).type = fieldSize f by rw [hfix.type]; rfl]
    refine and_congr_right fun _ => ?_
    cases hdll : f.target.dll with
    | some dll =>
      have hadj : f.noAdj = false := by simpa [hdll] using hmask
      rw [says_some hdll hadj hfix hformat]
      exact and_congr_right fun _ => ⟨fun hnum => ⟨hadj, hnum⟩, fun hboth => hboth.2⟩
    | none =>
      obtain ⟨-, -, hsource, -, -⟩ := formatBaseReloc_some hformat
      have hsource' : record'.source = recordSource f := by rw [hsource, hfix.type]; rfl
      constructor
      · exact fun hright => ⟨hright.kind hsource', (says_none hdll (hright.kind hsource') hfix hformat).1 hright⟩
      · exact fun hmeets => (says_none hdll hmeets.1 hfix hformat).2 hmeets.2

/-- A linker of an LX module, with a group at 0. -/
def lxModule : Linker := ⟨.lx, false, true, true, ⟨0, 0x10000, false, false⟩⟩

/-- A far pointer at the end of a page, to another object. -/
def farPointer : Fixup where
  kind := .ptr32
  rel := false
  noAdj := false
  abs := false
  frameFlat := false
  loc := ⟨1, 0x0FFE⟩
  tgt := ⟨2, 0x12340⟩
  target := ⟨none, none, false, ⟨0, 0x20000, false, false⟩⟩
  data := 8
  data_lt := by decide

/-- The pointer has a record in each of its pages. -/
theorem farPointer_recorded :
    ∃ records, relocate lxModule farPointer = some records ∧ records.length = 2 ∧
      Recorded lxModule farPointer records := by
  refine ⟨_, rfl, rfl, (relocate_recorded_iff lxModule farPointer _ (by decide) rfl).2 ⟨by decide, by decide, ?_⟩⟩
  rintro ⟨hbits, -⟩
  cases hbits

/-- A call of an imported function from an ELF object: the field holds -4, and is not adjusted. -/
def elfCall : Fixup where
  kind := .off32
  rel := true
  noAdj := true
  abs := false
  frameFlat := false
  loc := ⟨1, 0x100⟩
  tgt := ⟨0, 0⟩
  target := ⟨some ⟨some 1, .ordinal 5⟩, none, false, ⟨0, 0, false, false⟩⟩
  data := -4
  data_lt := by decide

/-- The record of the call has an undefined source. -/
theorem elfCall_undefined :
    ∃ records, relocate lxModule elfCall = some records ∧ ¬ Recorded lxModule elfCall records := by
  refine ⟨_, rfl, fun hrecorded => ?_⟩
  have hsource := (hrecorded.2 _ List.mem_cons_self).2.1
  exact absurd hsource (by decide)

end OpenWatcom.Wlink.FlatRecords
