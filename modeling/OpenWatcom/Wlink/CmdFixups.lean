import OpenWatcom.Wlink.CmdLoad

/-! # Reading the fixup table back

`readFixups` is the loader's reader of the table that `cpm86WriteFixups` appends: bit 7 of the last
header byte says that there is one, the header word 0x7D names the 128-byte record it starts at, and
it ends with a record of zeros. -/

namespace OpenWatcom.Wlink

open Extent

/-! ### The loader's reader -/

/-- A fixup as the loader understands it: the type of the descriptor that has the word, the type of
the descriptor whose load segment is added to it, and the address of the word in its descriptor. -/
structure FixupRecord where
  source : ℕ
  target : ℕ
  addr : ℕ
  deriving DecidableEq, Repr

/-- The loop of `_apply_fixups`: records of four bytes, up to the first one of zeros. -/
def readRecords : List Byte → List FixupRecord
  | grp :: paraLo :: paraHi :: offs :: rest =>
    if grp = 0 ∧ paraLo = 0 ∧ paraHi = 0 ∧ offs = 0 then []
    else
      ⟨grp.toNat / 16, grp.toNat % 16, (paraLo.toNat + 256 * paraHi.toNat) * 16 + offs.toNat⟩ ::
        readRecords rest
  | _ => []

/-- The records that `_apply_fixups` finds in a load file. -/
def readFixups (data : List Byte) : List FixupRecord :=
  if data.getD 0x7F 0 &&& 0x80 = 0 then []
  else readRecords (data.drop (le16 data 0x7D * 128))

/-! ### The writer's records -/

/-- The record of a word at `16 * para + locOff` of its descriptor. -/
def fixupAt (groups : List GroupEntry) (para : GroupEntry → ℕ) (fix : Cpm86Fixup) : FixupRecord :=
  let locGrp := findGroup groups fix.locSeg
  ⟨cmdTypeNum locGrp, cmdTypeNum (findGroup groups fix.tgtSeg),
    (locGrp.map para).getD 0 * 16 + fix.locOff⟩

/-- A program with its captured fixups: each is a word in a stored piece of a group and refers to
a group. -/
structure Relocated extends Program where
  /-- The word is in a piece that is stored. -/
  patched : ∀ fix ∈ fixups, ∃ g ∈ groups, g.seg = fix.locSeg ∧
    ∃ p ∈ g.pieces (cpm86GroupCmdType g).emit,
      (pieceSpan p).1 ≤ fix.locOff ∧ fix.locOff + 2 ≤ (pieceSpan p).2
  /-- The target is a group. -/
  target : ∀ fix ∈ fixups, ∃ g ∈ groups, g.seg = fix.tgtSeg

/-- The loader reads one record for each captured fixup: the address of the patched word in the image of
its descriptor, and the types of the two groups. -/
def FixupsRead (prog : Program) (file : List Byte) : Prop :=
  readFixups file = prog.fixups.map (fixupAt prog.groups prog.storedBefore)

section records

variable (prog : Relocated)

theorem cmdTypeNum_le (g : Option GroupEntry) : cmdTypeNum g ≤ 3 := by
  cases g with
  | none => decide
  | some g => cases h : cpm86GroupCmdType g <;> simp [cmdTypeNum, h, CmdType.num]

theorem cmdTypeNum_pos (g : GroupEntry) : 0 < cmdTypeNum (some g) := by
  cases h : cpm86GroupCmdType g <;> simp [cmdTypeNum, h, CmdType.num]

/-- The group of the patched word. -/
theorem Relocated.exists_locGroup {fix : Cpm86Fixup} (hfix : fix ∈ prog.fixups) :
    ∃ g ∈ prog.groups, findGroup prog.groups fix.locSeg = some g ∧ g.totalsize ≠ 0 := by
  obtain ⟨g, hg, hseg, p, hp, -, hend⟩ := prog.patched fix hfix
  refine ⟨g, hg, by rw [← hseg, findGroup_seg prog.segs hg], ?_⟩
  have hfin := ((prog.ascending_pieces hg (cpm86GroupCmdType g)).bounds _
    (List.mem_map_of_mem (f := pieceSpan) hp)).2.2
  have hle := prog.initLength_le hg
  unfold GroupEntry.initLength at hle
  omega

/-- The record that the loader reads for a fixup: the paragraph offset of the group, and the paragraph
as a 16-bit word. -/
def readAs (groups : List GroupEntry) (fix : Cpm86Fixup) : FixupRecord :=
  let locGrp := findGroup groups fix.locSeg
  ⟨cmdTypeNum locGrp, cmdTypeNum (findGroup groups fix.tgtSeg),
    ((locGrp.map (cpm86GroupImgPara groups)).getD 0 + fix.locOff / 16) % 65536 * 16 +
      fix.locOff % 16⟩

theorem readRecords_fixupRecord {groups : List GroupEntry} {fix : Cpm86Fixup} {g : GroupEntry}
    (hg : findGroup groups fix.locSeg = some g) (rest : List Byte) :
    readRecords (fixupRecord groups fix ++ rest) = readAs groups fix :: readRecords rest := by
  have hsrc := cmdTypeNum_le (some g)
  have hpos := cmdTypeNum_pos g
  have htgt := cmdTypeNum_le (findGroup groups fix.tgtSeg)
  have htype : (UInt8.ofNat (cmdTypeNum (some g) * 16 +
      cmdTypeNum (findGroup groups fix.tgtSeg) % 16)).toNat =
      cmdTypeNum (some g) * 16 + cmdTypeNum (findGroup groups fix.tgtSeg) := by
    rw [UInt8.toNat_ofNat']
    omega
  unfold fixupRecord readAs
  simp only [hg, Option.map_some, Option.getD_some, putU16, List.cons_append, List.nil_append]
  rw [readRecords, if_neg, htype, toNat_ofNat_add _ (Nat.mod_lt _ (by decide)), UInt8.toNat_ofNat']
  · congr 2
    · omega
    · omega
    · omega
  · rintro ⟨hzero, -⟩
    rw [hzero] at htype
    change 0 = _ at htype
    omega

/-- The records of the table read back, up to the record of zeros. -/
theorem readRecords_fixupRecords {groups : List GroupEntry} {fixups : List Cpm86Fixup}
    (h : ∀ fix ∈ fixups, ∃ g, findGroup groups fix.locSeg = some g) (rest : List Byte) :
    readRecords (fixups.flatMap (fixupRecord groups) ++ 0 :: 0 :: 0 :: 0 :: rest) =
      fixups.map (readAs groups) := by
  induction fixups with
  | nil =>
      rw [List.flatMap_nil, List.nil_append, readRecords]
      simp
  | cons fix fixups ih =>
      obtain ⟨g, hg⟩ := h fix List.mem_cons_self
      rw [List.flatMap_cons, List.append_assoc, readRecords_fixupRecord hg, List.map_cons,
        ih fun f hf => h f (List.mem_cons_of_mem _ hf)]

end records

/-! ### The table in the file -/

section table

variable (ld : Loader) (prog : Program)

/-- The 128-byte record at which the table starts. -/
def Program.tableRecord : ℕ :=
  (128 + 16 * (CmdType.code.imgParas prog.groups + CmdType.data.imgParas prog.groups +
    CmdType.extra.imgParas prog.groups) + 127) / 128

theorem images_length : (ld.images prog).length = 16 * (CmdType.code.imgParas prog.groups +
    CmdType.data.imgParas prog.groups + CmdType.extra.imgParas prog.groups) := by
  have hlen : ∀ type : CmdType, (ld.bucketImage type prog.groups).length =
      16 * type.imgParas prog.groups := fun type => bucketImage_length ld prog type fun _ h => h
  unfold Loader.images
  rw [List.length_append, List.length_append, hlen, hlen, hlen]
  ring

/-- What comes before the table. -/
def Loader.beforeTable (ld : Loader) (prog : Program) : List Byte :=
  ld.finalHeader prog ++ ld.images prog ++
    List.replicate (128 * prog.tableRecord - 128 - (ld.images prog).length) ld.fillChar

theorem beforeTable_length : (ld.beforeTable prog).length = 128 * prog.tableRecord := by
  have hlen := images_length ld prog
  unfold Loader.beforeTable Program.tableRecord at *
  rw [List.length_append, List.length_append, List.length_replicate, finalHeader_length, hlen]
  omega

/-- The table starts at its record, and a record of zeros follows it. -/
theorem file_eq_table (hne : prog.fixups ≠ []) : ∃ rest,
    ld.finiCPM86LoadFile prog.toLinkInput = ld.beforeTable prog ++
      (prog.fixups.flatMap (fixupRecord prog.groups) ++ 0 :: 0 :: 0 :: 0 :: rest) := by
  have hlen := images_length ld prog
  have hpad : (128 - (128 + (ld.images prog).length) % 128) % 128 =
      128 * prog.tableRecord - 128 - (ld.images prog).length := by
    unfold Program.tableRecord
    omega
  rw [finiCPM86LoadFile_eq, Loader.fixupTable, if_neg hne, hpad, Loader.beforeTable]
  simp only [List.append_assoc, List.cons_append, List.nil_append]
  exact ⟨_, rfl⟩

theorem header_getElem?_last : (ld.header prog.toLinkInput)[0x7F]? = some 0 := by
  have hdescs := descriptors_length prog
  rw [header_eq, List.getElem?_append_right (by rw [flatMap_bytes_length]; omega),
    List.getElem?_replicate]
  exact if_pos (by rw [flatMap_bytes_length]; omega)

/-- The header names the record, as a 16-bit word, and says that there is a table. -/
theorem header_table (hne : prog.fixups ≠ []) :
    le16 (ld.finiCPM86LoadFile prog.toLinkInput) 0x7D = prog.tableRecord % 65536 ∧
      (ld.finiCPM86LoadFile prog.toLinkInput).getD 0x7F 0 = 0x80 := by
  have hlen := images_length ld prog
  have hhead := header_length ld prog
  have hlast := header_getElem?_last ld prog
  have hrec : (ld.nullAlign 128 (ld.extraBucket prog.toLinkInput).file).length / 128 =
      prog.tableRecord := by
    rw [extraBucket_eq]
    unfold Loader.nullAlign Loader.padLoad Program.tableRecord
    rw [List.length_append, List.length_replicate, List.length_append, List.length_replicate, hlen]
    omega
  have hfinal : ld.finalHeader prog =
      (((ld.header prog.toLinkInput).set 0x7D (UInt8.ofNat (prog.tableRecord % 65536))).set 0x7E
        (UInt8.ofNat (prog.tableRecord % 65536 / 256))).set 0x7F 0x80 := by
    unfold Loader.finalHeader Loader.cpm86WriteFixups
    rw [if_neg hne]
    dsimp only
    rw [hrec, List.getD_eq_getElem?_getD, hlast]
    rfl
  have hget : ∀ i < 128, (ld.finiCPM86LoadFile prog.toLinkInput).getD i 0 =
      (ld.finalHeader prog).getD i 0 := by
    intro i hi
    rw [finiCPM86LoadFile_eq, List.getD_eq_getElem?_getD, List.getD_eq_getElem?_getD,
      List.getElem?_append_left (by rw [finalHeader_length]; exact hi)]
  constructor
  · unfold le16
    rw [hget _ (by decide), hget _ (by decide), hfinal]
    simp only [List.getD_eq_getElem?_getD, List.getElem?_set, List.length_set, hhead]
    exact toNat_ofNat_add _ (Nat.mod_lt _ (by decide))
  · rw [hget _ (by decide), hfinal]
    simp [List.getD_eq_getElem?_getD, hhead]

theorem readFixups_nil (hnil : prog.fixups = []) :
    readFixups (ld.finiCPM86LoadFile prog.toLinkInput) = [] := by
  have hfinal : ld.finalHeader prog = ld.header prog.toLinkInput := by
    unfold Loader.finalHeader Loader.cpm86WriteFixups
    rw [if_pos hnil]
  unfold readFixups
  rw [if_pos]
  rw [finiCPM86LoadFile_eq, List.getD_eq_getElem?_getD,
    List.getElem?_append_left (by rw [finalHeader_length]; decide), hfinal, header_getElem?_last]
  rfl

/-- The loader reads from the record that the header names. -/
theorem readFixups_eq (hne : prog.fixups ≠ []) :
    readFixups (ld.finiCPM86LoadFile prog.toLinkInput) = readRecords
      ((ld.finiCPM86LoadFile prog.toLinkInput).drop (prog.tableRecord % 65536 * 128)) := by
  obtain ⟨hrec, hbit⟩ := header_table ld prog hne
  unfold readFixups
  rw [hbit, hrec, if_neg (by decide)]

end table

/-- The table reads back, if its record number fits in the header word. -/
theorem readFixups_file (ld : Loader) (prog : Relocated) (hrec : prog.tableRecord < 65536) :
    readFixups (ld.finiCPM86LoadFile prog.toLinkInput) = prog.fixups.map (readAs prog.groups) := by
  by_cases hne : prog.fixups = []
  · rw [readFixups_nil ld prog.toProgram hne, hne]
    rfl
  · obtain ⟨rest, hfile⟩ := file_eq_table ld prog.toProgram hne
    have hlen := beforeTable_length ld prog.toProgram
    rw [readFixups_eq ld prog.toProgram hne, hfile, Nat.mod_eq_of_lt hrec, Nat.mul_comm, ← hlen,
      List.drop_left]
    apply readRecords_fixupRecords
    intro fix hfix
    obtain ⟨g, -, hg, -⟩ := prog.exists_locGroup hfix
    exact ⟨g, hg⟩

/-! ### A record number that does not fit -/

/-- If the contents of all pieces are fill, the images are nothing but fill. -/
theorem images_of_fill (prog : Program) (fill : Byte) :
    (Loader.mk fill fun _ => fill).images prog =
      List.replicate ((Loader.mk fill fun _ => fill).images prog).length fill := by
  have hgroup : ∀ g, ∀ b ∈ (Loader.mk fill fun _ => fill).paddedImage g, b = fill := by
    intro g b hb
    obtain ⟨n, hn⟩ := putAll_of_fill fill [] ((g.pieces (cpm86GroupCmdType g).emit).map
      (Loader.mk fill fun _ => fill).extent) (by
        intro e he c hc
        obtain ⟨p, -, rfl⟩ := List.mem_map.mp he
        obtain ⟨i, -, rfl⟩ := List.mem_map.mp hc
        rfl)
    unfold Loader.paddedImage Loader.groupImage at hb
    rcases List.mem_append.mp hb with hb | hb
    · rw [hn, List.nil_append] at hb
      exact List.eq_of_mem_replicate hb
    · exact List.eq_of_mem_replicate hb
  refine List.eq_replicate_of_mem fun b hb => ?_
  unfold Loader.images Loader.bucketImage at hb
  rcases List.mem_append.mp hb with hb | hb
  · rcases List.mem_append.mp hb with hb | hb
    · obtain ⟨g, -, hb⟩ := List.mem_flatMap.mp hb
      exact hgroup g b hb
    · obtain ⟨g, -, hb⟩ := List.mem_flatMap.mp hb
      exact hgroup g b hb
  · obtain ⟨g, -, hb⟩ := List.mem_flatMap.mp hb
    exact hgroup g b hb

/-- Records of fill other than zeros are all read. -/
theorem readRecords_replicate {fill : Byte} (hfill : fill ≠ 0) (k : ℕ) (rest : List Byte) :
    (readRecords (List.replicate (4 * k) fill ++ rest)).length =
      k + (readRecords rest).length := by
  induction k with
  | zero => simp
  | succ k ih =>
      have hrep : List.replicate (4 * (k + 1)) fill ++ rest =
          fill :: fill :: fill :: fill :: (List.replicate (4 * k) fill ++ rest) := rfl
      rw [hrep, readRecords, if_neg fun h => hfill h.1, List.length_cons, ih]
      omega

/-- A header reads as a record of descriptor type 0. -/
theorem readRecords_header (ld : Loader) (prog : Program) (hne : prog.descriptors ≠ []) :
    ∃ r rs, readRecords (ld.finiCPM86LoadFile prog.toLinkInput) = r :: rs ∧ r.source = 0 := by
  obtain ⟨rest, hhead⟩ := finalHeader_eq_append ld prog
  match hd : prog.descriptors with
  | [] => exact absurd hd hne
  | d :: ds =>
      have htype : 0 < d.type ∧ d.type ≤ 3 := by
        have hmem : d ∈ prog.descriptors := by simp [hd]
        rw [descriptors_split prog .code] at hmem
        rcases List.mem_append.mp hmem with hmem | hmem
        · rcases List.mem_append.mp hmem with hmem | hmem
          · simp [Program.descriptorsBefore] at hmem
          · rw [descriptorOf_type prog .code hmem]
            decide
        · rcases List.mem_append.mp hmem with hmem | hmem
          · rw [descriptorOf_type prog .data hmem]
            decide
          · rw [descriptorOf_type prog .extra hmem]
            decide
      have hnat : (UInt8.ofNat d.type).toNat = d.type := by
        rw [UInt8.toNat_ofNat']
        omega
      rw [finiCPM86LoadFile_eq, hhead, hd, List.flatMap_cons, Descriptor.bytes]
      simp only [putU16, List.cons_append, List.nil_append]
      rw [readRecords.eq_1, if_neg]
      · refine ⟨_, _, rfl, ?_⟩
        dsimp only
        omega
      · rintro ⟨hzero, -⟩
        rw [hzero] at hnat
        change 0 = _ at hnat
        omega

/-- A table whose record number does not fit does not read back, where the pieces are filled. -/
theorem tableRecord_lt (prog : Relocated) (fill : Byte) (hne : prog.fixups ≠ [])
    (h : FixupsRead prog.toProgram
      ((Loader.mk fill fun _ => fill).finiCPM86LoadFile prog.toLinkInput)) :
    prog.tableRecord < 65536 := by
  by_contra hlarge
  have hlen := images_length (Loader.mk fill fun _ => fill) prog.toProgram
  have hread := readFixups_eq (Loader.mk fill fun _ => fill) prog.toProgram hne
  rw [h] at hread
  obtain ⟨rest, hfile⟩ := file_eq_table (Loader.mk fill fun _ => fill) prog.toProgram hne
  have hlocs : ∀ fix ∈ prog.fixups, ∃ g, findGroup prog.groups fix.locSeg = some g := by
    intro fix hfix
    obtain ⟨g, -, hg, -⟩ := prog.exists_locGroup hfix
    exact ⟨g, hg⟩
  by_cases hzero : prog.tableRecord % 65536 = 0
  · -- the reader starts at the header
    have hdescs : prog.descriptors ≠ [] := by
      have hgroups : ∃ type : CmdType, type.groups prog.groups ≠ [] := by
        by_contra hnone
        simp only [not_exists, not_not] at hnone
        unfold Program.tableRecord CmdType.imgParas at hlarge
        rw [hnone, hnone, hnone] at hlarge
        simp at hlarge
      obtain ⟨type, htype⟩ := hgroups
      rw [descriptors_split prog.toProgram type]
      simp [descriptorOf_ne_nil prog.toProgram htype]
    obtain ⟨r, rs, hr, hsource⟩ := readRecords_header (Loader.mk fill fun _ => fill) prog.toProgram
      hdescs
    rw [hzero, Nat.zero_mul, List.drop_zero, hr] at hread
    match hf : prog.fixups with
    | [] => exact hne hf
    | fix :: fixups =>
        obtain ⟨g, hg⟩ := hlocs fix (by simp [hf])
        rw [hf, List.map_cons] at hread
        have hpos := cmdTypeNum_pos g
        have hsrc := congrArg FixupRecord.source (List.cons.inj hread).1
        simp only [fixupAt, hg, hsource] at hsrc
        omega
  · -- the reader starts in the images
    have hfront : (Loader.mk fill fun _ => fill).beforeTable prog.toProgram =
        (Loader.mk fill fun _ => fill).finalHeader prog.toProgram ++
          List.replicate (128 * (prog.tableRecord - 1)) fill := by
      unfold Loader.beforeTable
      rw [images_of_fill, List.append_assoc, List.replicate_append_replicate, List.length_replicate]
      congr 2
      unfold Program.tableRecord
      omega
    have hdrop : ((Loader.mk fill fun _ => fill).finiCPM86LoadFile prog.toLinkInput).drop
        (prog.tableRecord % 65536 * 128) =
          List.replicate (4 * (32 * (prog.tableRecord - prog.tableRecord % 65536))) fill ++
            (prog.fixups.flatMap (fixupRecord prog.groups) ++ 0 :: 0 :: 0 :: 0 :: rest) := by
      have hsplit : 128 * (prog.tableRecord - 1) = (prog.tableRecord % 65536 * 128 - 128) +
          4 * (32 * (prog.tableRecord - prog.tableRecord % 65536)) := by omega
      have hskip : ((Loader.mk fill fun _ => fill).finalHeader prog.toProgram ++
          List.replicate (prog.tableRecord % 65536 * 128 - 128) fill).length =
            prog.tableRecord % 65536 * 128 := by
        rw [List.length_append, finalHeader_length, List.length_replicate]
        omega
      rw [hfile, hfront, hsplit, List.replicate_add]
      rw [← List.append_assoc (Loader.finalHeader _ _), List.append_assoc (_ ++ _),
        List.drop_left' hskip]
    rw [hdrop] at hread
    have hpos : 0 < 32 * (prog.tableRecord - prog.tableRecord % 65536) := by omega
    generalize 32 * (prog.tableRecord - prog.tableRecord % 65536) = k at hread hpos
    by_cases hfill : fill = 0
    · obtain ⟨k, rfl⟩ : ∃ j, k = j + 1 := ⟨k - 1, by omega⟩
      have hrep : ∀ tail, List.replicate (4 * (k + 1)) fill ++ tail =
          fill :: fill :: fill :: fill :: (List.replicate (4 * k) fill ++ tail) := fun _ => rfl
      rw [hrep, readRecords, if_pos ⟨hfill, hfill, hfill, hfill⟩] at hread
      exact hne (List.map_eq_nil_iff.mp hread)
    · have hcount := congrArg List.length hread
      rw [readRecords_replicate hfill, readRecords_fixupRecords hlocs, List.length_map,
        List.length_map] at hcount
      omega

/-! ### Exactly when the addresses are right -/

/-- When the paragraph that a fixup record can hold is the one where the word is stored. -/
def Program.ParaStored (prog : Program) (fix : Cpm86Fixup) : Prop :=
  ∀ g, findGroup prog.groups fix.locSeg = some g →
    (cpm86GroupImgPara prog.groups g + fix.locOff / 16) % 65536 =
      prog.storedBefore g + fix.locOff / 16

theorem readAs_eq_iff {prog : Relocated} {fix : Cpm86Fixup} (hfix : fix ∈ prog.fixups) :
    readAs prog.groups fix = fixupAt prog.groups prog.storedBefore fix ↔
      prog.ParaStored fix := by
  obtain ⟨g, -, hg, -⟩ := prog.exists_locGroup hfix
  unfold readAs fixupAt Program.ParaStored
  simp only [hg, FixupRecord.mk.injEq, Option.map_some, Option.getD_some, Option.some.injEq,
    true_and, forall_eq']
  omega

/-- Far data with two initialised bytes at its start. -/
def farWordGroup (seg totalsize vmData : ℕ) : GroupEntry :=
  ⟨seg, totalsize, false, false,
    [⟨0, ⟨"FAR_DATA", false, false⟩, false, [⟨0, 2, vmData, false, false⟩]⟩]⟩

/-- Two groups of far data, the first with a tail of 46 uninitialised bytes, and a far reference in
the second. -/
def farReference : Relocated where
  groups := [farWordGroup 1 48 0, farWordGroup 2 16 2]
  farHeapSize := 0
  fixups := [⟨2, 0, 1⟩]
  dbi := []
  segs := by decide
  oneData := by decide
  ascending := by decide +kernel
  within := by decide +kernel
  small := by decide
  patched := by decide +kernel
  target := by decide

end OpenWatcom.Wlink
