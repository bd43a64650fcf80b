import OpenWatcom.Wlink.CmdImage

/-! # Where the `.CMD` writer puts the groups

`Program` is what the linker hands to the writer: groups numbered in the order of the list, whose
pieces lie one after the other inside the group.  `groupImage` is the stored image of one group and
`bucketImage` the coalesced image of one descriptor; `finiCPM86LoadFile_eq` gives the load
file in their terms.

The stored image of a group ends with its last initialised byte (`initLength`), rounded up to a
paragraph (`initParas`), while its memory is its total size (`allocParas`). -/

namespace OpenWatcom.Wlink

open Extent

/-! ### Pieces -/

/-- The pieces with contents of the segments that `emit` accepts, with their segments. -/
def GroupEntry.pieces (group : GroupEntry) (emit : SegLeader → Bool) : List (SegLeader × SegData) :=
  (group.leaders.flatMap fun seg => seg.pieces.map (seg, ·)).filter fun p => emit p.1 && p.2.written

/-- First position of a piece in its group, and the position after its last. -/
def pieceSpan (p : SegLeader × SegData) : ℕ × ℕ :=
  (p.1.groupDelta + p.2.delta, p.1.groupDelta + p.2.delta + p.2.length)

/-- The segments of the DGROUP that are stored. -/
def SegLeader.initOnly (seg : SegLeader) : Bool := !seg.bssOrStack && seg.emitted

/-- The segments of a group that the writer for its descriptor type stores. -/
def CmdType.emit : CmdType → SegLeader → Bool
  | .data => SegLeader.initOnly
  | _ => SegLeader.emitted

/-- The end of the last piece that is stored. -/
def GroupEntry.initLength (group : GroupEntry) : ℕ :=
  finish 0 ((group.pieces (cpm86GroupCmdType group).emit).map pieceSpan)

/-- The paragraphs of the stored image. -/
def GroupEntry.initParas (group : GroupEntry) : ℕ := (group.initLength + 15) / 16

/-- The paragraphs of the group in memory. -/
def GroupEntry.allocParas (group : GroupEntry) : ℕ := (group.totalsize + 15) / 16

/-- The initialised byte at offset `o` of the group is kept at `a`. -/
def GroupEntry.HoldsAt (group : GroupEntry) (o a : ℕ) : Prop :=
  ∃ p ∈ group.pieces SegLeader.emitted, ∃ i < p.2.length,
    o = (pieceSpan p).1 + i ∧ a = p.2.vmData + i

/-- What the linker gives the writer. -/
structure Program extends LinkInput where
  /-- `AllocFileSegs` numbers the groups in the order of the list. -/
  segs : groups.Pairwise fun a b => a.seg < b.seg
  /-- There is one `DataGroup`. -/
  oneData : groups.Pairwise fun a b => ¬ (a.isDataGroup ∧ b.isDataGroup)
  /-- The pieces follow each other, which `WriteSegData` asserts. -/
  ascending : ∀ g ∈ groups, Ascending 0 ((g.pieces SegLeader.emitted).map pieceSpan)
  /-- The pieces are in the group. -/
  within : ∀ g ∈ groups, finish 0 ((g.pieces SegLeader.emitted).map pieceSpan) ≤ g.totalsize
  /-- A 16-bit group is at most 64K long. -/
  small : ∀ g ∈ groups, g.totalsize ≤ 0x10000

theorem written_length {d : SegData} (h : d.written = true) : 0 < d.length := by
  simp only [SegData.written, Bool.and_eq_true, decide_eq_true_eq] at h
  exact h.2

theorem pieces_length_pos {g : GroupEntry} {emit : SegLeader → Bool} {p : SegLeader × SegData}
    (hp : p ∈ g.pieces emit) : 0 < p.2.length := by
  have h := (List.mem_filter.mp hp).2
  rw [Bool.and_eq_true] at h
  exact written_length h.2

theorem initOnly_emitted {seg : SegLeader} (h : seg.initOnly = true) : seg.emitted = true := by
  simp only [SegLeader.initOnly, Bool.and_eq_true] at h
  exact h.2

/-- The stored segments are emitted ones. -/
theorem pieces_sublist (g : GroupEntry) (type : CmdType) :
    (g.pieces type.emit).Sublist (g.pieces SegLeader.emitted) := by
  refine List.monotone_filter_right _ fun p hp => ?_
  rw [Bool.and_eq_true] at hp ⊢
  refine ⟨?_, hp.2⟩
  cases type with
  | data => exact initOnly_emitted hp.1
  | code => exact hp.1
  | extra => exact hp.1

theorem mem_pieces_data_iff {g : GroupEntry} {p : SegLeader × SegData} :
    p ∈ g.pieces CmdType.data.emit ↔ p ∈ g.pieces SegLeader.emitted ∧ p.1.bssOrStack = false := by
  simp only [GroupEntry.pieces, List.mem_filter, CmdType.emit, SegLeader.initOnly, Bool.and_eq_true,
    Bool.not_eq_true']
  tauto

namespace Program

variable (prog : Program) {g : GroupEntry} (hg : g ∈ prog.groups)
include hg

theorem ascending_pieces (type : CmdType) : Ascending 0 ((g.pieces type.emit).map pieceSpan) :=
  (prog.ascending g hg).sublist ((pieces_sublist g type).map pieceSpan)

/-- The stored image is no longer than the group. -/
theorem initLength_le : g.initLength ≤ g.totalsize := by
  refine le_trans ?_ (prog.within g hg)
  unfold GroupEntry.initLength
  cases hp : (g.pieces (cpm86GroupCmdType g).emit).map pieceSpan with
  | nil => exact (prog.ascending g hg).le_finish
  | cons s spans =>
      obtain ⟨t, ht, hfin⟩ := exists_stop_eq_finish 0 (s :: spans) (by simp)
      rw [← hfin]
      rw [← hp] at ht
      exact ((prog.ascending g hg).bounds t
        (((pieces_sublist g _).map pieceSpan).subset ht)).2.2

theorem initParas_le : g.initParas ≤ g.allocParas := by
  have := prog.initLength_le hg
  unfold GroupEntry.initParas GroupEntry.allocParas
  omega

theorem cmdParas_totalsize : cmdParas (calcGroupSize g) = g.allocParas := by
  have := prog.small g hg
  unfold cmdParas calcGroupSize GroupEntry.allocParas
  omega

theorem cmdParas_initLength : cmdParas g.initLength = g.initParas := by
  have := prog.small g hg
  have := prog.initLength_le hg
  unfold cmdParas GroupEntry.initParas
  omega

/-- A group with an initialised byte at `o` reaches past it. -/
theorem HoldsAt.lt {o a : ℕ} (h : g.HoldsAt o a) : o < g.totalsize := by
  obtain ⟨p, hp, i, hi, rfl, -⟩ := h
  have := ((prog.ascending g hg).bounds _ (List.mem_map_of_mem hp)).2.2
  have := prog.within g hg
  simp only [pieceSpan] at *
  omega

end Program

/-! ### The image of a group -/

/-- A piece as an extent of the group's image. -/
def Loader.extent (ld : Loader) (p : SegLeader × SegData) : Extent Byte :=
  ⟨(pieceSpan p).1, ld.infoBytes p.2⟩

theorem infoBytes_length (ld : Loader) (d : SegData) : (ld.infoBytes d).length = d.length := by
  simp [Loader.infoBytes]

theorem span_extent (ld : Loader) (p : SegLeader × SegData) : (ld.extent p).span = pieceSpan p := by
  simp [Loader.extent, Extent.span, Extent.stop, infoBytes_length, pieceSpan]

theorem map_span_extent (ld : Loader) (ps : List (SegLeader × SegData)) :
    (ps.map ld.extent).map Extent.span = ps.map pieceSpan := by
  rw [List.map_map]
  exact List.map_congr_left fun p _ => span_extent ld p

/-- The stored image of a group. -/
def Loader.groupImage (ld : Loader) (group : GroupEntry) : List Byte :=
  putAll ld.fillChar []
    ((group.pieces (cpm86GroupCmdType group).emit).map ld.extent)

theorem writeSegData_eq (ld : Loader) (base : ℕ) (seg : SegLeader) (d : SegData) (file : List Byte) :
    ld.writeSegData (base + seg.groupDelta) file d =
      if d.written then put ld.fillChar file ((ld.extent (seg, d)).shift base) else file := by
  unfold Loader.writeSegData Loader.padLoad put
  simp only [Extent.shift, Loader.extent, pieceSpan, Nat.add_assoc]

theorem doWriteLeader_eq (ld : Loader) (base : ℕ) (seg : SegLeader) (file : List Byte) :
    ld.doWriteLeader (base + seg.groupDelta) file seg =
      putAll ld.fillChar file
        ((seg.pieces.filter SegData.written).map fun d => (ld.extent (seg, d)).shift base) := by
  unfold Loader.doWriteLeader
  induction seg.pieces generalizing file with
  | nil => rfl
  | cons d ds ih =>
      rw [List.foldl_cons, ih, writeSegData_eq]
      by_cases hd : d.written
      · rw [if_pos hd, List.filter_cons_of_pos hd, List.map_cons, putAll_cons]
      · rw [if_neg hd, List.filter_cons_of_neg hd]

theorem doGroupLeader_eq (ld : Loader) (emit : SegLeader → Bool) (base : ℕ) (file : List Byte)
    (seg : SegLeader) : ld.doGroupLeader emit base file seg =
      putAll ld.fillChar file
        ((((seg.pieces.map (seg, ·)).filter fun p => emit p.1 && p.2.written).map ld.extent).map
          (Extent.shift base)) := by
  unfold Loader.doGroupLeader
  rw [List.filter_map, List.map_map, List.map_map]
  by_cases he : emit seg
  · rw [if_pos he, doWriteLeader_eq]
    simp [Function.comp_def, he]
  · rw [if_neg he]
    simp [Function.comp_def, he]

/-- The segments are written as extents behind the end of the file. -/
theorem writeLeaders_eq (ld : Loader) (emit : SegLeader → Bool) (g : GroupEntry)
    (file : List Byte) : ld.writeLeaders emit g file =
      file ++ putAll ld.fillChar [] ((g.pieces emit).map ld.extent) := by
  have hall : ∀ (segs : List SegLeader) (f : List Byte),
      segs.foldl (ld.doGroupLeader emit file.length) f = putAll ld.fillChar f
        ((((segs.flatMap fun seg => seg.pieces.map (seg, ·)).filter
          fun p => emit p.1 && p.2.written).map ld.extent).map (Extent.shift file.length)) := by
    intro segs
    induction segs with
    | nil => exact fun _ => rfl
    | cons seg segs ih =>
        intro f
        rw [List.foldl_cons, ih, doGroupLeader_eq]
        simp only [putAll, List.flatMap_cons, List.filter_append, List.map_append,
          List.foldl_append]
  unfold Loader.writeLeaders GroupEntry.pieces
  rw [← putAll_shift, List.append_nil]
  exact hall g.leaders file

/-! ### The image of a descriptor -/

/-- The groups of the descriptor: those of its type that are not empty. -/
def CmdType.groups (type : CmdType) (groups : List GroupEntry) : List GroupEntry :=
  groups.filter fun g => calcGroupSize g ≠ 0 ∧ cpm86GroupCmdType g = type

/-- The writer of the groups of a descriptor. -/
def Loader.write (ld : Loader) (type : CmdType) : GroupEntry → List Byte → List Byte :=
  ld.writeLeaders type.emit

/-- The stored image of a group, padded to a paragraph. -/
def Loader.paddedImage (ld : Loader) (group : GroupEntry) : List Byte :=
  ld.groupImage group ++
    List.replicate ((16 - (ld.groupImage group).length % 16) % 16) ld.fillChar

/-- The coalesced image of a descriptor. -/
def Loader.bucketImage (ld : Loader) (type : CmdType) (groups : List GroupEntry) : List Byte :=
  (type.groups groups).flatMap ld.paddedImage

/-- The paragraphs of the image of a descriptor. -/
def CmdType.imgParas (type : CmdType) (groups : List GroupEntry) : ℕ :=
  ((type.groups groups).map GroupEntry.initParas).sum

/-- The paragraphs of the memory of a descriptor. -/
def CmdType.allocParas (type : CmdType) (groups : List GroupEntry) : ℕ :=
  ((type.groups groups).map GroupEntry.allocParas).sum

section image

variable (ld : Loader) (prog : Program)

theorem groupImage_length {g : GroupEntry} (hg : g ∈ prog.groups) :
    (ld.groupImage g).length = g.initLength := by
  unfold Loader.groupImage GroupEntry.initLength
  rw [putAll_length, map_span_extent]
  · rfl
  · rw [map_span_extent]
    exact prog.ascending_pieces hg _

theorem paddedImage_length {g : GroupEntry} (hg : g ∈ prog.groups) :
    (ld.paddedImage g).length = 16 * g.initParas := by
  unfold Loader.paddedImage GroupEntry.initParas
  rw [List.length_append, List.length_replicate, groupImage_length ld prog hg]
  omega

/-- The loop over the groups of a descriptor appends its image. -/
theorem writeBucket_eq (type : CmdType) (file : List Byte) :
    ld.writeBucket type (ld.write type) prog.groups file =
      ⟨file ++ ld.bucketImage type prog.groups, type.imgParas prog.groups,
        type.allocParas prog.groups, !(type.groups prog.groups).isEmpty⟩ := by
  have hall : ∀ (groups : List GroupEntry) (b : Bucket), (∀ g ∈ groups, g ∈ prog.groups) →
      groups.foldl (ld.writeGroup type (ld.write type)) b =
        ⟨b.file ++ ld.bucketImage type groups, b.imgParas + type.imgParas groups,
          b.allocParas + type.allocParas groups, b.present || !(type.groups groups).isEmpty⟩ := by
    intro groups
    induction groups with
    | nil =>
        intro b _
        simp [Loader.bucketImage, CmdType.imgParas, CmdType.allocParas, CmdType.groups]
    | cons g rest ih =>
        intro b hmem
        have hg := hmem g List.mem_cons_self
        rw [List.foldl_cons, ih _ fun g hg => hmem g (List.mem_cons_of_mem _ hg)]
        unfold Loader.writeGroup
        by_cases hsel : calcGroupSize g = 0 ∨ cpm86GroupCmdType g ≠ type
        · have hskip : type.groups (g :: rest) = type.groups rest :=
            List.filter_cons_of_neg (by
              rw [decide_eq_true_eq]
              tauto)
          simp only [if_pos hsel, Loader.bucketImage, CmdType.imgParas, CmdType.allocParas, hskip]
        · obtain ⟨hsize, htype⟩ := not_or.mp hsel
          rw [not_not] at htype
          have htake : type.groups (g :: rest) = g :: type.groups rest :=
            List.filter_cons_of_pos (by simp [hsize, htype])
          have himage : ld.write type g b.file = b.file ++ ld.groupImage g := by
            rw [Loader.write, writeLeaders_eq, Loader.groupImage, htype]
          have hlen : (b.file ++ ld.groupImage g).length - b.file.length = g.initLength := by
            rw [List.length_append, groupImage_length ld prog hg]
            omega
          simp only [if_neg hsel, Loader.bucketImage, CmdType.imgParas, CmdType.allocParas, htake,
            himage, hlen, prog.cmdParas_initLength hg, prog.cmdParas_totalsize hg]
          simp [Loader.padLoad, Loader.paddedImage, groupImage_length ld prog hg, Nat.add_assoc]
  rw [Loader.writeBucket, hall prog.groups ⟨file, 0, 0, false⟩ fun _ h => h]
  simp

/-- The image is as long as the descriptor says. -/
theorem bucketImage_length (type : CmdType) {groups : List GroupEntry}
    (hsub : ∀ g ∈ groups, g ∈ prog.groups) :
    (ld.bucketImage type groups).length = 16 * type.imgParas groups := by
  unfold Loader.bucketImage CmdType.imgParas
  rw [List.length_flatMap, ← List.sum_map_mul_left]
  congr 1
  refine List.map_congr_left fun g hg => ?_
  exact paddedImage_length ld prog (hsub g (List.mem_filter.mp hg).1)

/-- A stored byte is at its offset in the image of its group. -/
theorem groupImage_getElem?_of_stored {g : GroupEntry} (hg : g ∈ prog.groups)
    {p : SegLeader × SegData} (hp : p ∈ g.pieces (cpm86GroupCmdType g).emit) {i : ℕ}
    (hi : i < p.2.length) :
    (ld.groupImage g)[(pieceSpan p).1 + i]? = some (ld.vm (p.2.vmData + i)) := by
  have h := putAll_getElem?_of_mem ld.fillChar [] ((g.pieces (cpm86GroupCmdType g).emit).map ld.extent)
    (by
      rw [map_span_extent]
      exact prog.ascending_pieces hg _) (ld.extent p) (List.mem_map_of_mem hp) i
    (by simpa [Loader.extent, infoBytes_length] using hi)
  refine h.trans ?_
  simp [Loader.extent, Loader.infoBytes, hi]

/-- What is stored of a group between its pieces, and after the last of them, is fill. -/
theorem paddedImage_getElem?_of_gap {g : GroupEntry} (hg : g ∈ prog.groups) {o : ℕ}
    (ho : o < 16 * g.initParas)
    (hno : ∀ p ∈ g.pieces (cpm86GroupCmdType g).emit, o < (pieceSpan p).1 ∨ (pieceSpan p).2 ≤ o) :
    (ld.paddedImage g)[o]? = some ld.fillChar := by
  have hlen := groupImage_length ld prog hg
  by_cases hin : o < g.initLength
  · rw [Loader.paddedImage, List.getElem?_append_left (by omega)]
    refine putAll_getElem?_of_gap ld.fillChar [] _ ?_ o (Nat.zero_le o) ?_ fun e he => ?_
    · rw [map_span_extent]
      exact prog.ascending_pieces hg _
    · rw [map_span_extent]
      exact hin
    · obtain ⟨p, hp, rfl⟩ := List.mem_map.mp he
      have := hno p hp
      rw [← span_extent ld p] at this
      exact this
  · have hpad := paddedImage_length ld prog hg
    rw [Loader.paddedImage, List.length_append, List.length_replicate] at hpad
    rw [Loader.paddedImage, List.getElem?_append_right (by omega), List.getElem?_replicate]
    exact if_pos (by omega)

theorem groups_sub {type : CmdType} {groups : List GroupEntry} {g : GroupEntry}
    (h : g ∈ type.groups groups) : g ∈ groups ∧ cpm86GroupCmdType g = type := by
  have := List.mem_filter.mp h
  rw [decide_eq_true_eq] at this
  exact ⟨this.1, this.2.2⟩

theorem mem_groups {g : GroupEntry} (hg : g ∈ prog.groups) (hsize : g.totalsize ≠ 0) :
    g ∈ (cpm86GroupCmdType g).groups prog.groups :=
  List.mem_filter.mpr ⟨hg, decide_eq_true ⟨hsize, rfl⟩⟩

/-- The image of each group starts after the images of the groups before it. -/
theorem bucketImage_getElem? {type : CmdType} {pre post : List GroupEntry} {g : GroupEntry}
    (hsplit : type.groups prog.groups = pre ++ g :: post) {o : ℕ} (ho : o < 16 * g.initParas) :
    (ld.bucketImage type prog.groups)[16 * (pre.map GroupEntry.initParas).sum + o]? =
      (ld.paddedImage g)[o]? := by
  have hmem : ∀ h ∈ pre ++ g :: post, h ∈ prog.groups := fun h hh =>
    (groups_sub (hsplit ▸ hh)).1
  have hpre : (pre.flatMap ld.paddedImage).length = 16 * (pre.map GroupEntry.initParas).sum := by
    rw [List.length_flatMap, ← List.sum_map_mul_left]
    congr 1
    exact List.map_congr_left fun h hh => paddedImage_length ld prog (hmem h (by simp [hh]))
  unfold Loader.bucketImage
  rw [hsplit, List.flatMap_append, List.flatMap_cons, List.getElem?_append_right (by omega), hpre,
    List.getElem?_append_left (by
      rw [paddedImage_length ld prog (hmem g (by simp))]
      omega)]
  congr 1
  omega

end image

/-! ### Paragraph offsets -/

/-- A list whose first element is the lowest is taken as it is. -/
theorem foldl_low_eq (g : GroupEntry) : ∀ rest : List GroupEntry, (∀ h ∈ rest, g.seg < h.seg) →
    rest.foldl (fun low group => if group.seg < low.seg then group else low) g = g
  | [], _ => rfl
  | h :: rest, hlt => by
      rw [List.foldl_cons, if_neg (by
        have := hlt h List.mem_cons_self
        omega)]
      exact foldl_low_eq g rest fun h' hh => hlt h' (List.mem_cons_of_mem _ hh)

/-- The groups are in order already. -/
theorem orderGroups_eq_self : ∀ groups : List GroupEntry,
    (groups.Pairwise fun a b => a.seg < b.seg) → orderGroups groups.length groups = groups
  | [], _ => rfl
  | g :: rest, h => by
      obtain ⟨hg, hrest⟩ := List.pairwise_cons.mp h
      rw [List.length_cons, orderGroups, foldl_low_eq g rest hg, List.erase_cons_head,
        orderGroups_eq_self rest hrest]

theorem Program.ordered_eq (prog : Program) : prog.ordered = prog.groups :=
  orderGroups_eq_self _ prog.segs

/-- `FindGroup` finds a group of the list by its number. -/
theorem findGroup_seg : ∀ {groups : List GroupEntry} {g : GroupEntry},
    (groups.Pairwise fun a b => a.seg < b.seg) → g ∈ groups → findGroup groups g.seg = some g
  | h :: rest, g, hp, hg => by
      obtain ⟨hh, hrest⟩ := List.pairwise_cons.mp hp
      unfold findGroup
      rcases List.mem_cons.mp hg with rfl | hg
      · simp
      · have := hh g hg
        rw [List.find?_cons_of_neg (by simp; omega)]
        exact findGroup_seg hrest hg

/-- The paragraph offset of a group is the memory of the groups of its descriptor before it. -/
theorem parasBefore_eq (prog : Program) (type : CmdType) : ∀ {groups : List GroupEntry}
    {g : GroupEntry}, (∀ h ∈ groups, h ∈ prog.groups) →
      (groups.Pairwise fun a b => a.seg < b.seg) → g ∈ type.groups groups →
      ∃ pre post, type.groups groups = pre ++ g :: post ∧
        parasBefore type g.seg groups = (pre.map GroupEntry.allocParas).sum
  | [], g, _, _, hg => by simp [CmdType.groups] at hg
  | h :: rest, g, hsub, hp, hg => by
      obtain ⟨hh, hrest⟩ := List.pairwise_cons.mp hp
      have hsub' : ∀ h ∈ rest, h ∈ prog.groups := fun h hm => hsub h (List.mem_cons_of_mem _ hm)
      by_cases hgh : g = h
      · subst hgh
        have hsel := (List.mem_filter.mp hg).2
        refine ⟨[], type.groups rest, List.filter_cons_of_pos hsel, ?_⟩
        simp [parasBefore]
      · have hgrest : g ∈ rest := by
          rcases List.mem_cons.mp (groups_sub hg).1 with rfl | hm
          · exact absurd rfl hgh
          · exact hm
        have hne : ¬ h.seg = g.seg := by
          have := hh g hgrest
          omega
        have hg' : g ∈ type.groups rest := List.mem_filter.mpr ⟨hgrest, (List.mem_filter.mp hg).2⟩
        obtain ⟨pre, post, heq, hsum⟩ := parasBefore_eq prog type hsub' hrest hg'
        rw [parasBefore, if_neg hne, hsum]
        by_cases hsel : calcGroupSize h = 0 ∨ cpm86GroupCmdType h ≠ type
        · rw [if_pos hsel]
          refine ⟨pre, post, ?_, rfl⟩
          rw [← heq]
          exact List.filter_cons_of_neg (by
            rw [decide_eq_true_eq]
            tauto)
        · rw [if_neg hsel]
          refine ⟨h :: pre, post, ?_, ?_⟩
          · rw [List.cons_append, ← heq]
            exact List.filter_cons_of_pos (by
              rw [decide_eq_true_eq]
              tauto)
          · rw [prog.cmdParas_totalsize (hsub h List.mem_cons_self), List.map_cons, List.sum_cons]

/-- Groups of one descriptor before another one are before it in the list. -/
theorem CmdType.pairwise_groups {r : GroupEntry → GroupEntry → Prop} (type : CmdType)
    {groups pre post : List GroupEntry} {g : GroupEntry} (h : groups.Pairwise r)
    (hsplit : type.groups groups = pre ++ g :: post) : ∀ a ∈ pre, r a g := by
  have hp : (pre ++ g :: post).Pairwise r := hsplit ▸ h.sublist List.filter_sublist
  intro a ha
  exact (List.pairwise_append.mp hp).2.2 a ha g List.mem_cons_self

theorem isDataGroup_of_type {g : GroupEntry} (h : cpm86GroupCmdType g = .data) :
    g.isDataGroup = true := by
  unfold cpm86GroupCmdType at h
  split_ifs at h with hcode hdata
  exact hdata

/-- The groups of a descriptor before a group: their memory is the paragraph offset of the group, and
there are none in DATA. -/
theorem Program.cpm86GroupImgPara_eq (prog : Program) {g : GroupEntry} (hg : g ∈ prog.groups)
    (hsize : g.totalsize ≠ 0) : ∃ pre post,
      (cpm86GroupCmdType g).groups prog.groups = pre ++ g :: post ∧
      cpm86GroupImgPara prog.groups g = (pre.map GroupEntry.allocParas).sum ∧
      (cpm86GroupCmdType g = .data → pre = []) := by
  obtain ⟨pre, post, hsplit, hsum⟩ := parasBefore_eq prog (cpm86GroupCmdType g)
    (fun _ h => h) prog.segs (mem_groups prog hg hsize)
  have hdata : cpm86GroupCmdType g = .data → pre = [] := by
    intro htype
    refine List.eq_nil_iff_forall_not_mem.mpr fun a ha => ?_
    have htypea : cpm86GroupCmdType a = .data := by
      rw [← htype]
      exact (groups_sub (hsplit ▸ List.mem_append_left _ ha)).2
    exact CmdType.pairwise_groups _ prog.oneData hsplit a ha ⟨isDataGroup_of_type htypea, isDataGroup_of_type htype⟩
  refine ⟨pre, post, hsplit, ?_, hdata⟩
  unfold cpm86GroupImgPara
  split
  · rename_i htype
    rw [hdata htype]
    rfl
  · exact hsum

theorem sum_initParas_split (prog : Program) {type : CmdType} {pre post : List GroupEntry}
    {g : GroupEntry} (hsplit : type.groups prog.groups = pre ++ g :: post) :
    type.imgParas prog.groups =
      (pre.map GroupEntry.initParas).sum + g.initParas + (post.map GroupEntry.initParas).sum := by
  unfold CmdType.imgParas
  rw [hsplit]
  simp [Nat.add_assoc]

/-- The paragraphs that are stored before a group in the image of its descriptor. -/
def Program.storedBefore (prog : Program) (g : GroupEntry) : ℕ :=
  ((((cpm86GroupCmdType g).groups prog.groups).filter fun h => h.seg < g.seg).map
    GroupEntry.initParas).sum

theorem Program.storedBefore_eq (prog : Program) {pre post : List GroupEntry} {g : GroupEntry}
    (hsplit : (cpm86GroupCmdType g).groups prog.groups = pre ++ g :: post) :
    prog.storedBefore g = (pre.map GroupEntry.initParas).sum := by
  have hsegs : (pre ++ g :: post).Pairwise fun a b => a.seg < b.seg :=
    hsplit ▸ prog.segs.sublist List.filter_sublist
  obtain ⟨-, hpost, hpre⟩ := List.pairwise_append.mp hsegs
  unfold Program.storedBefore
  rw [hsplit, List.filter_append, List.filter_eq_self.mpr, List.filter_eq_nil_iff.mpr,
    List.append_nil]
  · intro a ha
    rw [decide_eq_true_eq]
    rcases List.mem_cons.mp ha with rfl | ha
    · omega
    · have := (List.pairwise_cons.mp hpost).1 a ha
      omega
  · intro a ha
    exact decide_eq_true (hpre a ha g List.mem_cons_self)

/-- A piece that is stored ends in the image of its group. -/
theorem Program.stored_lt (prog : Program) {g : GroupEntry} (hg : g ∈ prog.groups)
    {p : SegLeader × SegData} (hp : p ∈ g.pieces (cpm86GroupCmdType g).emit) :
    (pieceSpan p).2 ≤ g.initLength :=
  ((prog.ascending_pieces hg (cpm86GroupCmdType g)).bounds _
    (List.mem_map_of_mem (f := pieceSpan) hp)).2.2

/-- The bytes of a piece are at their offset behind what is stored before the group. -/
theorem bucketImage_of_stored (ld : Loader) (prog : Program) {g : GroupEntry}
    (hg : g ∈ prog.groups) {p : SegLeader × SegData}
    (hp : p ∈ g.pieces (cpm86GroupCmdType g).emit) {i : ℕ} (hi : i < p.2.length) :
    16 * prog.storedBefore g + ((pieceSpan p).1 + i) <
        16 * (cpm86GroupCmdType g).imgParas prog.groups ∧
      (ld.bucketImage (cpm86GroupCmdType g) prog.groups)[16 * prog.storedBefore g +
        ((pieceSpan p).1 + i)]? = some (ld.vm (p.2.vmData + i)) := by
  have hin : (pieceSpan p).1 + i < g.initLength := by
    have := prog.stored_lt hg hp
    simp only [pieceSpan] at this ⊢
    omega
  have hparas : (pieceSpan p).1 + i < 16 * g.initParas := by
    unfold GroupEntry.initParas
    omega
  have hle := prog.initLength_le hg
  obtain ⟨pre, post, hsplit, -, -⟩ := prog.cpm86GroupImgPara_eq hg (by omega)
  rw [prog.storedBefore_eq hsplit]
  constructor
  · rw [sum_initParas_split prog hsplit]
    omega
  · rw [bucketImage_getElem? ld prog hsplit hparas, Loader.paddedImage,
      List.getElem?_append_left (by rw [groupImage_length ld prog hg]; exact hin),
      groupImage_getElem?_of_stored ld prog hg hp hi]

/-! ### The whole file -/

/-- The descriptor of a coalesced image, if there are groups for it. -/
def Program.imageDescriptor (prog : Program) (type : CmdType) : List Descriptor :=
  if (type.groups prog.groups).isEmpty then []
  else
    [⟨type.num, type.imgParas prog.groups % 65536, 0, type.allocParas prog.groups % 65536,
      type.allocParas prog.groups % 65536⟩]

/-- The EXTRA descriptor: far data with the maximum raised, or only the far heap. -/
def Program.extraDescriptor (prog : Program) : List Descriptor :=
  farHeap prog.farHeapSize (!(CmdType.extra.groups prog.groups).isEmpty)
    (prog.imageDescriptor .extra)

/-- The group descriptors, in the order CODE, DATA, EXTRA. -/
def Program.descriptors (prog : Program) : List Descriptor :=
  prog.imageDescriptor .code ++ prog.imageDescriptor .data ++ prog.extraDescriptor

/-- The stored images behind the header. -/
def Loader.images (ld : Loader) (prog : Program) : List Byte :=
  ld.bucketImage .code prog.groups ++ ld.bucketImage .data prog.groups ++
    ld.bucketImage .extra prog.groups

/-- What `cpm86WriteFixups` appends to a file of length `n`. -/
def Loader.fixupTable (ld : Loader) (prog : Program) (n : ℕ) : List Byte :=
  if prog.fixups = [] then []
  else
    let front := List.replicate ((128 - n % 128) % 128) ld.fillChar ++
      prog.fixups.flatMap (fixupRecord prog.groups) ++ [0, 0, 0, 0]
    front ++ List.replicate ((128 - (n + front.length) % 128) % 128) ld.fillChar

/-- The header with the place of the fixup table. -/
def Loader.finalHeader (ld : Loader) (prog : Program) : List Byte :=
  (ld.cpm86WriteFixups prog.ordered prog.fixups (ld.header prog.toLinkInput)
    (ld.extraBucket prog.toLinkInput).file).1

theorem imageDescriptor_length (prog : Program) (type : CmdType) :
    (prog.imageDescriptor type).length ≤ 1 := by
  unfold Program.imageDescriptor
  split_ifs <;> simp

theorem extraDescriptor_length (prog : Program) : prog.extraDescriptor.length ≤ 1 := by
  unfold Program.extraDescriptor farHeap Program.imageDescriptor
  split_ifs <;> simp_all

section file

variable (ld : Loader) (prog : Program)

theorem codeBucket_eq : ld.codeBucket prog.toLinkInput =
    ⟨List.replicate 128 0 ++ ld.bucketImage .code prog.groups, CmdType.code.imgParas prog.groups,
      CmdType.code.allocParas prog.groups, !(CmdType.code.groups prog.groups).isEmpty⟩ := by
  unfold Loader.codeBucket
  rw [prog.ordered_eq]
  exact writeBucket_eq ld prog .code _

theorem dataBucket_eq : ld.dataBucket prog.toLinkInput =
    ⟨List.replicate 128 0 ++ ld.bucketImage .code prog.groups ++ ld.bucketImage .data prog.groups,
      CmdType.data.imgParas prog.groups, CmdType.data.allocParas prog.groups,
      !(CmdType.data.groups prog.groups).isEmpty⟩ := by
  unfold Loader.dataBucket
  rw [prog.ordered_eq, codeBucket_eq]
  exact writeBucket_eq ld prog .data _

theorem extraBucket_eq : ld.extraBucket prog.toLinkInput =
    ⟨List.replicate 128 0 ++ ld.images prog, CmdType.extra.imgParas prog.groups,
      CmdType.extra.allocParas prog.groups, !(CmdType.extra.groups prog.groups).isEmpty⟩ := by
  unfold Loader.extraBucket Loader.images
  rw [prog.ordered_eq, dataBucket_eq, ← List.append_assoc, ← List.append_assoc]
  exact writeBucket_eq ld prog .extra _

theorem describe_eq (prog : Program) (type : CmdType) (file : List Byte) {descs : List Descriptor}
    (h : descs.length < 8) :
    Bucket.describe ⟨file, type.imgParas prog.groups, type.allocParas prog.groups,
      !(type.groups prog.groups).isEmpty⟩ type descs = descs ++ prog.imageDescriptor type := by
  unfold Bucket.describe Program.imageDescriptor
  cases (type.groups prog.groups).isEmpty <;> simp [h]

theorem imageDescriptor_type {prog : Program} {type : CmdType} {d : Descriptor}
    (hd : d ∈ prog.imageDescriptor type) : d.type = type.num := by
  unfold Program.imageDescriptor at hd
  split_ifs at hd
  · simp at hd
  · rw [List.mem_singleton.mp hd]

/-- Raising the maximum of EXTRA leaves the other descriptors alone. -/
theorem farHeap_append (size : ℕ) (haveExtra : Bool) {descs extra : List Descriptor}
    (htype : ∀ d ∈ descs, d.type ≠ CmdType.extra.num) (hlen : descs.length ≤ 2)
    (hextra : extra.length ≤ 1) :
    farHeap size haveExtra (descs ++ extra) = descs ++ farHeap size haveExtra extra := by
  unfold farHeap
  split_ifs with h1 h2 h3 h4 h4
  · rfl
  · rw [List.map_append]
    congr 1
    refine (List.map_congr_left fun d hd => ?_).trans (List.map_id descs)
    exact if_neg (htype d hd)
  · rw [List.append_assoc]
  · omega
  · rw [List.length_append] at h3
    omega
  · rfl

theorem descriptors_eq : ld.descriptors prog.toLinkInput = prog.descriptors := by
  have h1 := imageDescriptor_length prog .code
  have h2 := imageDescriptor_length prog .data
  have h3 := imageDescriptor_length prog .extra
  unfold Loader.descriptors Program.descriptors Program.extraDescriptor
  rw [codeBucket_eq, dataBucket_eq, extraBucket_eq, describe_eq prog .code _ (by simp),
    describe_eq prog .data _ (by simp; omega), describe_eq prog .extra _ (by simp; omega),
    List.nil_append, farHeap_append _ _ ?_ (by simp; omega) h3]
  intro d hd
  rcases List.mem_append.mp hd with hd | hd <;> rw [imageDescriptor_type hd] <;> decide

theorem descriptor_bytes_length (d : Descriptor) : d.bytes.length = 9 := rfl

theorem flatMap_bytes_length (ds : List Descriptor) : (ds.flatMap Descriptor.bytes).length =
    9 * ds.length := by
  rw [List.length_flatMap]
  simp [descriptor_bytes_length, Nat.mul_comm]

theorem descriptors_length : prog.descriptors.length ≤ 3 := by
  have h1 := imageDescriptor_length prog .code
  have h2 := imageDescriptor_length prog .data
  have h3 := extraDescriptor_length prog
  unfold Program.descriptors
  simp only [List.length_append]
  omega

theorem header_eq : ld.header prog.toLinkInput = prog.descriptors.flatMap Descriptor.bytes ++
    List.replicate (128 - 9 * prog.descriptors.length) 0 := by
  unfold Loader.header
  simp only [descriptors_eq, flatMap_bytes_length]

theorem header_length : (ld.header prog.toLinkInput).length = 128 := by
  have := descriptors_length prog
  rw [header_eq, List.length_append, flatMap_bytes_length, List.length_replicate]
  omega

theorem finalHeader_length : (ld.finalHeader prog).length = 128 := by
  unfold Loader.finalHeader Loader.cpm86WriteFixups
  split_ifs
  · exact header_length ld prog
  · simp [header_length]

/-- The load file: header, images, fixup table, debugging information. -/
theorem finiCPM86LoadFile_eq : ld.finiCPM86LoadFile prog.toLinkInput =
    ld.finalHeader prog ++ (ld.images prog ++
      (ld.fixupTable prog (128 + (ld.images prog).length) ++ prog.dbi)) := by
  have htable : (ld.cpm86WriteFixups prog.ordered prog.fixups (ld.header prog.toLinkInput)
      (ld.extraBucket prog.toLinkInput).file).2 = List.replicate 128 0 ++ (ld.images prog ++
        ld.fixupTable prog (128 + (ld.images prog).length)) := by
    rw [extraBucket_eq, prog.ordered_eq]
    unfold Loader.cpm86WriteFixups Loader.fixupTable
    split_ifs with h
    · simp
    · simp [Loader.nullAlign, Loader.padLoad, List.append_assoc, Nat.add_assoc]
      omega
  unfold Loader.finiCPM86LoadFile Loader.finalHeader
  dsimp only
  rw [htable, List.append_assoc, List.append_assoc, List.drop_append_of_le_length (by simp)]
  simp

end file

end OpenWatcom.Wlink
