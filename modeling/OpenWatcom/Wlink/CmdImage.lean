import OpenWatcom.Lib.Layout

/-! # The CP/M-86 `.CMD` writer

`loadcpm86.c` with the group writers of `loadfile.c`: the coalesced CODE, DATA and EXTRA
images, the 128-byte header with its group descriptors, and the table of load-time fixups.

A group is named by its segment number `grp_addr.seg`; `AllocFileSegs` numbers the groups
1, 2, 3, … in the order of the list, with offset 0.  The load file is the list of bytes written so
far, so `PosLoad` is its length; the header record is reserved first and rewritten last.  The
contents of the pieces are read from the linker's virtual memory `vm`. -/

namespace OpenWatcom.Wlink

abbrev Byte := UInt8

/-! ### Groups -/

/-- The attributes of a `class_entry` that the writers look at. -/
structure ClassEntry where
  name : String
  noemit : Bool   -- CLASS_NOEMIT
  stack : Bool    -- CLASS_STACK
  deriving DecidableEq, Repr

/-- A piece of a segment, `segdata`: its offset `a.delta` in the segment, and where the linker keeps
its contents. -/
structure SegData where
  delta : ℕ
  length : ℕ
  vmData : ℕ
  isuninit : Bool
  isdead : Bool
  deriving DecidableEq, Repr

/-- A segment, `seg_leader`: `groupDelta` is its offset in the group (`SEG_GROUP_DELTA`). -/
structure SegLeader where
  groupDelta : ℕ
  cls : ClassEntry
  noemit : Bool   -- SEG_NOEMIT
  pieces : List SegData
  deriving DecidableEq, Repr

/-- A group, `group_entry`: its segment number, its size with the uninitialised parts, whether
`leaders->class` is a CLASS_CODE class, whether it is the linker's `DataGroup`, and its segments. -/
structure GroupEntry where
  seg : ℕ
  totalsize : ℕ
  isCode : Bool
  isDataGroup : Bool
  leaders : List SegLeader
  deriving DecidableEq, Repr

/-- `CalcGroupSize`; a split DGROUP does not occur in this format. -/
def calcGroupSize (group : GroupEntry) : ℕ := group.totalsize

/-- `OrderGroups`: take the first of the groups with the lowest address, then the others.  Offsets
are 0, so addresses compare by segment number. -/
def orderGroups : ℕ → List GroupEntry → List GroupEntry
  | 0, groups => groups
  | _ + 1, [] => []
  | n + 1, g :: rest =>
    let low := rest.foldl (fun low group => if group.seg < low.seg then group else low) g
    low :: orderGroups n ((g :: rest).erase low)

/-! ### Group writers -/

/-- The load file: the bytes written so far, the padding byte and the linker's virtual memory. -/
structure Loader where
  fillChar : Byte
  vm : ℕ → Byte

/-- `WriteInfoLoad`: the contents of a piece. -/
def Loader.infoBytes (ld : Loader) (sdata : SegData) : List Byte :=
  (List.range sdata.length).map fun i => ld.vm (sdata.vmData + i)

/-- `PadLoad`. -/
def Loader.padLoad (ld : Loader) (n : ℕ) (file : List Byte) : List Byte :=
  file ++ List.replicate n ld.fillChar

/-- The pieces that have contents to write. -/
def SegData.written (sdata : SegData) : Bool :=
  !sdata.isuninit && !sdata.isdead && decide (0 < sdata.length)

/-- `WriteSegData`, for a segment that starts at the file position `segStart`. -/
def Loader.writeSegData (ld : Loader) (segStart : ℕ) (file : List Byte) (sdata : SegData) :
    List Byte :=
  if sdata.written then
    ld.padLoad (segStart + sdata.delta - file.length) file ++ ld.infoBytes sdata
  else file

/-- `DoWriteLeader`. -/
def Loader.doWriteLeader (ld : Loader) (segStart : ℕ) (file : List Byte) (seg : SegLeader) :
    List Byte :=
  seg.pieces.foldl (ld.writeSegData segStart) file

/-- The segments that `DoGroupLeader` writes: `EMIT_CLASS` and `EMIT_SEG`. -/
def SegLeader.emitted (seg : SegLeader) : Bool := !seg.cls.noemit && !seg.noemit

/-- The segments that `DoGroupLeaderInitOnly` passes over: class `BSS`, in any case, and stack. -/
def SegLeader.bssOrStack (seg : SegLeader) : Bool :=
  seg.cls.stack || decide (seg.cls.name.toLower = "bss")

/-- `DoGroupLeader` for the segments that `emit` accepts. -/
def Loader.doGroupLeader (ld : Loader) (emit : SegLeader → Bool) (grpStart : ℕ) (file : List Byte)
    (seg : SegLeader) : List Byte :=
  if emit seg then ld.doWriteLeader (grpStart + seg.groupDelta) file seg else file

/-- The segments of the group, written one after the other at the end of the file. -/
def Loader.writeLeaders (ld : Loader) (emit : SegLeader → Bool) (group : GroupEntry)
    (file : List Byte) : List Byte :=
  group.leaders.foldl (ld.doGroupLeader emit file.length) file

/-- `WriteGroupLoad`; the bytes it returns are those it added to the file. -/
def Loader.writeGroupLoad (ld : Loader) : GroupEntry → List Byte → List Byte :=
  ld.writeLeaders SegLeader.emitted

/-- `WriteGroupLoadInitOnly`. -/
def Loader.writeGroupLoadInitOnly (ld : Loader) : GroupEntry → List Byte → List Byte :=
  ld.writeLeaders fun seg => !seg.bssOrStack && seg.emitted

/-! ### Descriptors -/

/-- The `CMD_TYPE_…` of a group descriptor. -/
inductive CmdType where
  | code | data | extra
  deriving DecidableEq, Repr

def CmdType.num : CmdType → ℕ
  | .code => 1
  | .data => 2
  | .extra => 3

/-- `cpm86GroupCmdType`. -/
def cpm86GroupCmdType (target : GroupEntry) : CmdType :=
  if target.isCode then .code else if target.isDataGroup then .data else .extra

/-- `CMD_PARAS`: 32-bit rounding to paragraphs, as an `unsigned_16`. -/
def cmdParas (size : ℕ) : ℕ := (size + 15) % 2 ^ 32 / 16 % 65536

/-- The sum over the groups of a descriptor before the group `target`, in the order of the list. -/
def parasBefore (type : CmdType) (target : ℕ) : List GroupEntry → ℕ
  | [] => 0
  | group :: rest =>
    if group.seg = target then 0
    else if calcGroupSize group = 0 ∨ cpm86GroupCmdType group ≠ type then
      parasBefore type target rest
    else cmdParas (calcGroupSize group) + parasBefore type target rest

/-- `cpm86GroupImgPara`. -/
def cpm86GroupImgPara (groups : List GroupEntry) (target : GroupEntry) : ℕ :=
  match cpm86GroupCmdType target with
  | .data => 0
  | type => parasBefore type target.seg groups

/-- `FindGroup`. -/
def findGroup (groups : List GroupEntry) (seg : ℕ) : Option GroupEntry :=
  groups.find? fun group => group.seg = seg

/-- A group descriptor of the header. -/
structure Descriptor where
  type : ℕ
  length : ℕ
  base : ℕ
  minp : ℕ
  maxp : ℕ
  deriving DecidableEq, Repr

/-- `putU16`: low byte, high byte. -/
def putU16 (val : ℕ) : List Byte := [UInt8.ofNat val, UInt8.ofNat (val / 256)]

def Descriptor.bytes (d : Descriptor) : List Byte :=
  UInt8.ofNat d.type :: (putU16 d.length ++ putU16 d.base ++ putU16 d.minp ++ putU16 d.maxp)

/-! ### The images -/

/-- A coalesced image while it is written: the file, the paragraphs stored and allocated, and
whether there was any group. -/
structure Bucket where
  file : List Byte
  imgParas : ℕ
  allocParas : ℕ
  present : Bool

/-- One round of the loops of `FiniCPM86LoadFile`: the groups of the descriptor `type` that are not
empty are written with `write` and padded to a paragraph. -/
def Loader.writeGroup (ld : Loader) (type : CmdType)
    (write : GroupEntry → List Byte → List Byte) (b : Bucket) (group : GroupEntry) : Bucket :=
  if calcGroupSize group = 0 ∨ cpm86GroupCmdType group ≠ type then b
  else
    let file := write group b.file
    let imgLen := file.length - b.file.length
    let pad := (16 - imgLen % 16) % 16
    { file := ld.padLoad pad file
      imgParas := b.imgParas + cmdParas imgLen
      allocParas := b.allocParas + cmdParas (calcGroupSize group)
      present := true }

def Loader.writeBucket (ld : Loader) (type : CmdType)
    (write : GroupEntry → List Byte → List Byte) (groups : List GroupEntry) (file : List Byte) :
    Bucket :=
  groups.foldl (ld.writeGroup type write) ⟨file, 0, 0, false⟩

/-- A descriptor for the image, unless there is none or the header is full. -/
def Bucket.describe (b : Bucket) (type : CmdType) (descs : List Descriptor) : List Descriptor :=
  if b.present ∧ descs.length < 8 then
    descs ++ [⟨type.num, b.imgParas % 65536, 0, b.allocParas % 65536, b.allocParas % 65536⟩]
  else descs

/-- `OPTION FARHEAP`: raise the maximum of the EXTRA descriptor, or append one without an image. -/
def farHeap (size : ℕ) (haveExtra : Bool) (descs : List Descriptor) : List Descriptor :=
  if size = 0 then descs
  else
    let paras := cmdParas size
    if haveExtra then
      descs.map fun d =>
        if d.type = CmdType.extra.num then
          let want := (d.maxp + paras) % 65536
          { d with maxp := if want < d.maxp then 0xFFFF else want }
        else d
    else if descs.length < 8 then descs ++ [⟨CmdType.extra.num, 0, 0, 1, paras⟩]
    else descs

/-! ### Fixups -/

/-- A captured far segment reference, `cpm86_fixup`. -/
structure Cpm86Fixup where
  locSeg : ℕ
  locOff : ℕ
  tgtSeg : ℕ
  deriving DecidableEq, Repr

/-- A far relocation as the object reader hands it on: where it is, the size of the offset part that
comes before the segment word (`OffsetSizes`), the target, and whether it has a segment part. -/
structure FixReloData where
  locSeg : ℕ
  locOff : ℕ
  offsetSize : ℕ
  tgtSeg : ℕ
  isBase : Bool
  deriving DecidableEq, Repr

/-- `AddCPM86Fixup`: in front of the list. -/
def addCPM86Fixup (fixups : List Cpm86Fixup) (locSeg locOff tgtSeg : ℕ) : List Cpm86Fixup :=
  ⟨locSeg, locOff, tgtSeg⟩ :: fixups

/-- `formatBaseReloc` for this format. -/
def formatBaseReloc (fixups : List Cpm86Fixup) (fix : FixReloData) : List Cpm86Fixup :=
  if fix.isBase then addCPM86Fixup fixups fix.locSeg (fix.locOff + fix.offsetSize) fix.tgtSeg
  else fixups

/-- The number of a group's descriptor type, 0 for no group. -/
def cmdTypeNum : Option GroupEntry → ℕ
  | none => 0
  | some group => (cpm86GroupCmdType group).num

/-- The four bytes of a fixup record. -/
def fixupRecord (groups : List GroupEntry) (fix : Cpm86Fixup) : List Byte :=
  let locGrp := findGroup groups fix.locSeg
  let tgtGrp := findGroup groups fix.tgtSeg
  let imgPara := (locGrp.map (cpm86GroupImgPara groups)).getD 0
  let locFlat := imgPara * 16 + fix.locOff
  let para := locFlat / 16 % 65536
  UInt8.ofNat (cmdTypeNum locGrp * 16 + cmdTypeNum tgtGrp % 16) ::
    (putU16 para ++ [UInt8.ofNat (locFlat % 16)])

/-- `NullAlign`. -/
def Loader.nullAlign (ld : Loader) (align : ℕ) (file : List Byte) : List Byte :=
  ld.padLoad ((align - file.length % align) % align) file

/-- `cpm86WriteFixups`: the new file and header. -/
def Loader.cpm86WriteFixups (ld : Loader) (groups : List GroupEntry) (fixups : List Cpm86Fixup)
    (header file : List Byte) : List Byte × List Byte :=
  if fixups = [] then (header, file)
  else
    let file := ld.nullAlign 128 file
    let fixrec := file.length / 128 % 65536
    let file := file ++ fixups.flatMap (fixupRecord groups) ++ [0, 0, 0, 0]
    let file := ld.nullAlign 128 file
    (((header.set 0x7D (UInt8.ofNat fixrec)).set 0x7E (UInt8.ofNat (fixrec / 256))).set 0x7F
      (header.getD 0x7F 0 ||| 0x80), file)

/-! ### The file -/

/-- What the writer is given: the groups in the linker's order, `CPM86FarHeapSize`, the captured
fixups and the debugging information that `DBIWrite` appends. -/
structure LinkInput where
  groups : List GroupEntry
  farHeapSize : ℕ
  fixups : List Cpm86Fixup
  dbi : List Byte

section fini

variable (ld : Loader) (inp : LinkInput)

/-- The groups in the order they are written. -/
def LinkInput.ordered : List GroupEntry := orderGroups inp.groups.length inp.groups

/-- The coalesced code image, behind the reserved header record. -/
def Loader.codeBucket : Bucket :=
  ld.writeBucket .code ld.writeGroupLoad inp.ordered (List.replicate 128 0)

/-- The image of DGROUP, without BSS and stack. -/
def Loader.dataBucket : Bucket :=
  ld.writeBucket .data ld.writeGroupLoadInitOnly inp.ordered (ld.codeBucket inp).file

/-- The coalesced far data image. -/
def Loader.extraBucket : Bucket :=
  ld.writeBucket .extra ld.writeGroupLoad inp.ordered (ld.dataBucket inp).file

/-- The group descriptors. -/
def Loader.descriptors : List Descriptor :=
  farHeap inp.farHeapSize (ld.extraBucket inp).present
    ((ld.extraBucket inp).describe .extra
      ((ld.dataBucket inp).describe .data ((ld.codeBucket inp).describe .code [])))

/-- The header record before the fixup table is known. -/
def Loader.header : List Byte :=
  let descs := (ld.descriptors inp).flatMap Descriptor.bytes
  descs ++ List.replicate (128 - descs.length) 0

/-- `FiniCPM86LoadFile`. -/
def Loader.finiCPM86LoadFile : List Byte :=
  let (header, file) := ld.cpm86WriteFixups inp.ordered inp.fixups (ld.header inp)
    (ld.extraBucket inp).file
  header ++ (file ++ inp.dbi).drop 128

end fini

end OpenWatcom.Wlink
