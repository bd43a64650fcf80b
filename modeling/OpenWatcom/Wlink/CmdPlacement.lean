import OpenWatcom.Wlink.CmdLoad

/-! # Initialised bytes after loading

The linker stores `ImgPara`, the memory of the groups before a group in its descriptor, into far
relocations; the writer puts the stored images of the groups one after the other.  The two agree
when the groups before one with initialised bytes are stored in full, and then every initialised
byte is where the relocations look for it: `imagesMirror_iff`.

The stored image of a group ends with its last initialised byte, so a group with an
uninitialised tail of a paragraph or more moves the groups behind it. -/

namespace OpenWatcom.Wlink

open Extent

/-- When the stored images lie as `cpm86GroupImgPara` counts them. -/
structure ImagesMirror (prog : Program) : Prop where
  /-- A group before one with initialised bytes, in the CODE or the EXTRA descriptor, is stored up
  to its last paragraph. -/
  full : prog.groups.Pairwise fun a b => cpm86GroupCmdType a = cpm86GroupCmdType b →
    cpm86GroupCmdType b ≠ .data → 0 < b.initLength → a.initParas = a.allocParas
  /-- DGROUP has no initialised piece in a BSS or stack segment. -/
  noBss : ∀ g ∈ prog.groups, cpm86GroupCmdType g = .data →
    ∀ p ∈ g.pieces SegLeader.emitted, p.1.bssOrStack = false
  /-- The stored paragraphs of each descriptor fit into its length field. -/
  short : ∀ type : CmdType, type.imgParas prog.groups < 65536

/-- The load file of a program. -/
def Program.file (prog : Program) (fill : Byte) (vm : ℕ → Byte) : List Byte :=
  (Loader.mk fill vm).finiCPM86LoadFile prog.toLinkInput

/-- Wherever the file is loaded, every initialised byte is at its offset behind the load segment
and the paragraph offset that relocations use. -/
def ImagesPlaced (prog : Program) (fill : Byte) (vm : ℕ → Byte) : Prop :=
  ∀ segOf, Placement (parseHeader (prog.file fill vm)) segOf → ∀ g ∈ prog.groups, ∀ o a,
    g.HoldsAt o a →
    loadByte ((prog.file fill vm).drop 128) segOf
      ((segOf (cpm86GroupCmdType g).num + cpm86GroupImgPara prog.groups g) * 16 + o)
      (parseHeader (prog.file fill vm)) 0 = some (vm a)

variable (prog : Program) (fill : Byte)

/-- In each descriptor, the images before a group with initialised bytes. -/
theorem ImagesMirror.sum_eq (h : ImagesMirror prog) {g : GroupEntry} (hpos : 0 < g.initLength)
    {pre post : List GroupEntry} (hsplit : (cpm86GroupCmdType g).groups prog.groups = pre ++ g :: post)
    (hdata : cpm86GroupCmdType g = .data → pre = []) :
    (pre.map GroupEntry.allocParas).sum = (pre.map GroupEntry.initParas).sum := by
  congr 1
  refine List.map_congr_left fun a ha => ?_
  have htype := (groups_sub (hsplit ▸ List.mem_append_left (g :: post) ha)).2
  by_cases hd : cpm86GroupCmdType g = .data
  · rw [hdata hd] at ha
    simp at ha
  · exact (CmdType.pairwise_groups _ h.full hsplit a ha htype hd hpos).symm

/-- Where the images mirror the paragraph offsets, initialised bytes are placed. -/
theorem ImagesMirror.placed (h : ImagesMirror prog) (vm : ℕ → Byte) : ImagesPlaced prog fill vm := by
  intro segOf hpl g hg o a hold
  have hsize : g.totalsize ≠ 0 := by
    have := Program.HoldsAt.lt prog hg hold
    omega
  obtain ⟨p, hp, i, hi, rfl, rfl⟩ := hold
  obtain ⟨pre, post, hsplit, hpara, hdata⟩ := prog.cpm86GroupImgPara_eq hg hsize
  -- the piece is one of those that are stored
  have hstored : p ∈ g.pieces (cpm86GroupCmdType g).emit := by
    cases htype : cpm86GroupCmdType g with
    | data => exact mem_pieces_data_iff.mpr ⟨hp, h.noBss g hg htype p hp⟩
    | code => exact hp
    | extra => exact hp
  have hpos : 0 < g.initLength := by
    have := prog.stored_lt hg hstored
    simp only [pieceSpan] at this
    omega
  have hsum : cpm86GroupImgPara prog.groups g = prog.storedBefore g := by
    rw [hpara, h.sum_eq prog hpos hsplit hdata, prog.storedBefore_eq hsplit]
  obtain ⟨hlt, hbyte⟩ := bucketImage_of_stored (Loader.mk fill vm) prog hg hstored hi
  -- the descriptor and its image
  obtain ⟨d, hd, hdtype, hdlen⟩ := exists_descriptor prog
    (List.ne_nil_of_mem (mem_groups prog hg hsize))
  have hshort := h.short (cpm86GroupCmdType g)
  rw [Program.file, parseHeader_file, descriptors_split prog (cpm86GroupCmdType g), hd] at hpl ⊢
  rw [List.append_assoc, List.singleton_append] at hpl ⊢
  rw [← hdtype, hsum, show (segOf d.type + prog.storedBefore g) * 16 + ((pieceSpan p).1 + i) =
    segOf d.type * 16 + (16 * prog.storedBefore g + ((pieceSpan p).1 + i)) by ring,
    loadByte_of_image (by rw [hdlen, Nat.mod_eq_of_lt hshort]; exact hlt) 0 hpl,
    lengths_before prog _ fun t _ => h.short t, drop_header, Nat.zero_add,
    List.getD_eq_getElem?_getD, body_getElem? prog _ _ _ hlt, hbyte]
  rfl

/-! ### Where they do not mirror each other -/

/-- A group whose stored image is not empty has an initialised byte at its end. -/
theorem holdsAt_last {g : GroupEntry} (hpos : 0 < g.initLength) :
    ∃ a, g.HoldsAt (g.initLength - 1) a := by
  have hne : (g.pieces (cpm86GroupCmdType g).emit).map pieceSpan ≠ [] := by
    intro hnil
    unfold GroupEntry.initLength at hpos
    rw [hnil] at hpos
    simp at hpos
  obtain ⟨s, hs, hfin⟩ := exists_stop_eq_finish 0 _ hne
  obtain ⟨p, hp, rfl⟩ := List.mem_map.mp hs
  have hlen := pieces_length_pos hp
  refine ⟨p.2.vmData + (p.2.length - 1), p, (pieces_sublist g _).subset hp, p.2.length - 1,
    by omega, ?_, rfl⟩
  unfold GroupEntry.initLength
  rw [← hfin]
  simp only [pieceSpan]
  omega

/-- The last group of a descriptor with initialised bytes. -/
theorem exists_last_group {type : CmdType}
    (h : ∃ g ∈ type.groups prog.groups, 0 < g.initLength) :
    ∃ g ∈ type.groups prog.groups, 0 < g.initLength ∧
      ∀ b ∈ type.groups prog.groups, 0 < b.initLength → b.seg ≤ g.seg := by
  obtain ⟨g₀, hg₀, hpos₀⟩ := h
  obtain ⟨g, hg, hmax⟩ := ((type.groups prog.groups).filter
    fun g => 0 < g.initLength).toFinset.exists_max_image GroupEntry.seg
      ⟨g₀, List.mem_toFinset.mpr (List.mem_filter.mpr ⟨hg₀, by simpa using hpos₀⟩)⟩
  have hg' := List.mem_filter.mp (List.mem_toFinset.mp hg)
  refine ⟨g, hg'.1, by simpa using hg'.2, fun b hb hpos => hmax b ?_⟩
  exact List.mem_toFinset.mpr (List.mem_filter.mpr ⟨hb, by simpa using hpos⟩)

/-- A byte that is found where the descriptor of type `t` is at the top of the memory, at or above its
load segment, comes from the image of that descriptor. -/
theorem loadByte_top {body : List Byte} {segOf : ℕ → ℕ} {t : CmdType} {addr : ℕ} {b : Byte}
    (hb : b ≠ 0) (hlow : ∀ x ∈ prog.descriptors, x.type ≠ t.num →
      segOf x.type + x.memParas ≤ segOf t.num) (haddr : segOf t.num * 16 ≤ addr)
    (h : loadByte body segOf addr prog.descriptors 0 = some b) :
    ∃ d, prog.descriptorOf t = [d] ∧ addr - segOf t.num * 16 < 16 * d.length ∧
      body.getD (16 * ((prog.descriptorsBefore t).map Descriptor.length).sum +
        (addr - segOf t.num * 16)) 0 = b := by
  have hno : ∀ x ∈ prog.descriptors, x.type ≠ t.num → ¬ x.HasAddr segOf addr := by
    intro x hx hne hhas
    have := hlow x hx hne
    unfold Descriptor.HasAddr at hhas
    omega
  have hpre : ∀ x ∈ prog.descriptorsBefore t, ¬ x.HasAddr segOf addr := fun x hx =>
    hno x (by rw [descriptors_split prog t]; simp [hx]) (descriptorsBefore_type prog hx)
  have hpost : ∀ x ∈ prog.descriptorsAfter t, ¬ x.HasAddr segOf addr := fun x hx =>
    hno x (by rw [descriptors_split prog t]; simp [hx]) (descriptorsAfter_type prog hx)
  have hlen := descriptorOf_length_le prog t
  rw [descriptors_split prog t, List.append_assoc, loadByte_append 0 hpre] at h
  match hd : prog.descriptorOf t with
  | [] =>
      rw [hd, List.nil_append, loadByte_eq_none _ hpost] at h
      cases h
  | [d] =>
      have htype : d.type = t.num := descriptorOf_type prog t (by rw [hd]; simp)
      rw [hd, List.singleton_append, loadByte, loadByte_eq_none _ hpost, Nat.zero_add] at h
      split_ifs at h with hhas
      dsimp only at h
      rw [htype] at h
      split_ifs at h with hrel
      · exact ⟨d, rfl, hrel, Option.some.inj h⟩
      · exact absurd (Option.some.inj h).symm hb
  | _ :: _ :: _ => simp [hd] at hlen

/-- The program can be loaded at all: there is room for its descriptors in 1 MB. -/
def Program.Loadable (prog : Program) : Prop := ∃ segOf, Placement prog.descriptors segOf

section converse

variable {prog fill}

/-- If every initialised byte is found, also with the descriptor of its group at the top of the memory
and the same byte `x` in all pieces, then `x` is in the image of that descriptor. -/
theorem image_of_placed (hload : prog.Loadable) {x : Byte} (hx : x ≠ 0)
    (h : ImagesPlaced prog fill fun _ => x) {g : GroupEntry} (hg : g ∈ prog.groups) {o a : ℕ}
    (hold : g.HoldsAt o a) :
    cpm86GroupImgPara prog.groups g * 16 + o <
        16 * ((cpm86GroupCmdType g).imgParas prog.groups % 65536) ∧
      ((prog.file fill fun _ => x).drop 128).getD
        (16 * ((prog.descriptorsBefore (cpm86GroupCmdType g)).map Descriptor.length).sum +
          (cpm86GroupImgPara prog.groups g * 16 + o)) 0 = x := by
  have hsize : g.totalsize ≠ 0 := by
    have := Program.HoldsAt.lt prog hg hold
    omega
  obtain ⟨segOf, hpl⟩ := hload
  obtain ⟨top, htop, hlow, -⟩ := exists_top_placement (imageDescriptor_length prog .code)
    (imageDescriptor_length prog .data) (extraDescriptor_length prog)
    (fun _ => imageDescriptor_type) (fun _ => imageDescriptor_type)
    (fun _ => descriptorOf_type prog .extra) hpl (cpm86GroupCmdType g)
  have hfound := h top (by rw [Program.file, parseHeader_file]; exact htop) g hg o a hold
  have hhead : parseHeader (prog.file fill fun _ => x) = prog.descriptors := parseHeader_file _ prog
  rw [hhead] at hfound
  obtain ⟨d, hd, hlt, hbyte⟩ := loadByte_top prog hx hlow (by omega) hfound
  obtain ⟨d', hd', -, hdlen⟩ := exists_descriptor prog
    (List.ne_nil_of_mem (mem_groups prog hg hsize))
  obtain rfl : d = d' := (List.cons.inj (hd.symm.trans hd')).1
  have hrel : (top (cpm86GroupCmdType g).num + cpm86GroupImgPara prog.groups g) * 16 + o -
      top (cpm86GroupCmdType g).num * 16 = cpm86GroupImgPara prog.groups g * 16 + o := by
    rw [Nat.add_mul]
    omega
  rw [hrel] at hlt hbyte
  rw [hdlen] at hlt
  exact ⟨hlt, hbyte⟩

/-- The last group with initialised bytes of a descriptor has only groups before it that are stored in
full, and the image fits. -/
theorem stored_of_placed (hload : prog.Loadable) {x : Byte} (hx : x ≠ 0)
    (h : ImagesPlaced prog fill fun _ => x) {type : CmdType} {g : GroupEntry}
    (hg : g ∈ type.groups prog.groups) (hpos : 0 < g.initLength)
    (hlast : ∀ b ∈ type.groups prog.groups, 0 < b.initLength → b.seg ≤ g.seg) :
    (type ≠ .data → ∀ b ∈ type.groups prog.groups, b.seg < g.seg → b.initParas = b.allocParas) ∧
      type.imgParas prog.groups < 65536 := by
  obtain ⟨hmem, htype⟩ := groups_sub hg
  have hsize : g.totalsize ≠ 0 := by
    have := prog.initLength_le hmem
    omega
  obtain ⟨a, hold⟩ := holdsAt_last hpos
  obtain ⟨hlt, -⟩ := image_of_placed hload hx h hmem hold
  obtain ⟨pre, post, hsplit, hpara, -⟩ := prog.cpm86GroupImgPara_eq hmem hsize
  rw [htype] at hlt hsplit
  have hin : ∀ b ∈ pre ++ g :: post, b ∈ type.groups prog.groups := fun b hb => hsplit ▸ hb
  -- nothing behind the group is stored
  have hpost : (post.map GroupEntry.initParas).sum = 0 := by
    refine List.sum_eq_zero fun n hn => ?_
    obtain ⟨b, hb, rfl⟩ := List.mem_map.mp hn
    have hseg : g.seg < b.seg := by
      have hp : (pre ++ g :: post).Pairwise fun a b => a.seg < b.seg :=
        hsplit ▸ prog.segs.sublist List.filter_sublist
      exact (List.pairwise_cons.mp (List.pairwise_append.mp hp).2.1).1 b hb
    have hzero : ¬ 0 < b.initLength := fun hb' => by
      have := hlast b (hin b (by simp [hb])) hb'
      omega
    unfold GroupEntry.initParas
    omega
  have hsum := sum_initParas_split prog hsplit
  have hmod : type.imgParas prog.groups % 65536 ≤ type.imgParas prog.groups := Nat.mod_le _ _
  have hparas : 16 * g.initParas < g.initLength + 16 := by
    unfold GroupEntry.initParas
    omega
  -- the paragraph offset is no more than what is stored before the group
  have hle : (pre.map GroupEntry.allocParas).sum ≤ (pre.map GroupEntry.initParas).sum := by
    omega
  have heach : ∀ b ∈ pre, b.initParas ≤ b.allocParas := fun b hb =>
    prog.initParas_le (groups_sub (hin b (by simp [hb]))).1
  have hge : (pre.map GroupEntry.initParas).sum ≤ (pre.map GroupEntry.allocParas).sum :=
    List.sum_le_sum heach
  refine ⟨fun _ b hb hseg => ?_, by omega⟩
  have hbpre : b ∈ pre := by
    have hp : (pre ++ g :: post).Pairwise fun a b => a.seg < b.seg :=
      hsplit ▸ prog.segs.sublist List.filter_sublist
    rw [hsplit] at hb
    rcases List.mem_append.mp hb with hb | hb
    · exact hb
    · rcases List.mem_cons.mp hb with rfl | hb
      · omega
      · have := (List.pairwise_cons.mp (List.pairwise_append.mp hp).2.1).1 b hb
        omega
  by_contra hne
  have := List.sum_lt_sum _ _ heach ⟨b, hbpre, lt_of_le_of_ne (heach b hbpre) hne⟩
  omega

/-- A descriptor whose groups have nothing stored has an empty image. -/
theorem imgParas_eq_zero {type : CmdType}
    (h : ¬ ∃ g ∈ type.groups prog.groups, 0 < g.initLength) : type.imgParas prog.groups = 0 := by
  refine List.sum_eq_zero fun n hn => ?_
  obtain ⟨b, hb, rfl⟩ := List.mem_map.mp hn
  have : ¬ 0 < b.initLength := fun hb' => h ⟨b, hb, hb'⟩
  unfold GroupEntry.initParas
  omega

theorem short_of_placed (hload : prog.Loadable) {x : Byte} (hx : x ≠ 0)
    (h : ImagesPlaced prog fill fun _ => x) (type : CmdType) :
    type.imgParas prog.groups < 65536 := by
  by_cases hany : ∃ g ∈ type.groups prog.groups, 0 < g.initLength
  · obtain ⟨g, hg, hpos, hlast⟩ := exists_last_group prog hany
    exact (stored_of_placed hload hx h hg hpos hlast).2
  · rw [imgParas_eq_zero hany]
    decide

theorem full_of_placed (hload : prog.Loadable) {x : Byte} (hx : x ≠ 0)
    (h : ImagesPlaced prog fill fun _ => x) :
    prog.groups.Pairwise fun a b => cpm86GroupCmdType a = cpm86GroupCmdType b →
      cpm86GroupCmdType b ≠ .data → 0 < b.initLength → a.initParas = a.allocParas := by
  refine prog.segs.imp_of_mem fun {a b} ha hb hseg htype hdata hpos => ?_
  have hsize : b.totalsize ≠ 0 := by
    have := prog.initLength_le hb
    omega
  obtain ⟨g, hg, hgpos, hlast⟩ := exists_last_group prog ⟨b, mem_groups prog hb hsize, hpos⟩
  have hbg := hlast b (mem_groups prog hb hsize) hpos
  by_cases ha0 : a.totalsize = 0
  · have := prog.initParas_le ha
    unfold GroupEntry.allocParas at this ⊢
    omega
  · exact (stored_of_placed hload hx h hg hgpos hlast).1 hdata a
      (htype ▸ mem_groups prog ha ha0) (by omega)

/-- Different pieces of a group lie apart. -/
theorem pieces_disjoint {g : GroupEntry} (hg : g ∈ prog.groups) {p q : SegLeader × SegData}
    (hp : p ∈ g.pieces SegLeader.emitted) (hq : q ∈ g.pieces SegLeader.emitted) (hne : p ≠ q) :
    (pieceSpan p).2 ≤ (pieceSpan q).1 ∨ (pieceSpan q).2 ≤ (pieceSpan p).1 := by
  have hpair := List.pairwise_map.mp (prog.ascending g hg).pairwise
  have hsymm : Std.Symm fun p q : SegLeader × SegData =>
      (pieceSpan p).2 ≤ (pieceSpan q).1 ∨ (pieceSpan q).2 ≤ (pieceSpan p).1 := ⟨fun _ _ h => h.symm⟩
  have hpairs : (g.pieces SegLeader.emitted).Pairwise fun p q =>
      (pieceSpan p).2 ≤ (pieceSpan q).1 ∨ (pieceSpan q).2 ≤ (pieceSpan p).1 :=
    hpair.imp fun h => .inl h
  exact hpairs.forall hp hq hne

theorem noBss_of_placed (hload : prog.Loadable) {x : Byte} (hx : x ≠ 0) (hfill : x ≠ fill)
    (h : ImagesPlaced prog fill fun _ => x) : ∀ g ∈ prog.groups, cpm86GroupCmdType g = .data →
      ∀ p ∈ g.pieces SegLeader.emitted, p.1.bssOrStack = false := by
  intro g hg htype p hp
  by_contra hbss
  have hlen := pieces_length_pos hp
  have hold : g.HoldsAt (pieceSpan p).1 p.2.vmData := ⟨p, hp, 0, hlen, rfl, rfl⟩
  have hsize : g.totalsize ≠ 0 := by
    have := Program.HoldsAt.lt prog hg hold
    omega
  obtain ⟨hlt, hbyte⟩ := image_of_placed hload hx h hg hold
  obtain ⟨pre, post, hsplit, hpara, hpre⟩ := prog.cpm86GroupImgPara_eq hg hsize
  have hpost : post = [] := by
    refine List.eq_nil_iff_forall_not_mem.mpr fun b hb => ?_
    have hp : (pre ++ g :: post).Pairwise fun a b => ¬ (a.isDataGroup ∧ b.isDataGroup) :=
      hsplit ▸ prog.oneData.sublist List.filter_sublist
    have hbtype := (groups_sub (hsplit ▸ List.mem_append_right pre (List.mem_cons_of_mem g hb))).2
    exact (List.pairwise_cons.mp (List.pairwise_append.mp hp).2.1).1 b hb
      ⟨isDataGroup_of_type htype, isDataGroup_of_type (hbtype.trans htype)⟩
  have hparas := sum_initParas_split prog hsplit
  rw [hpre htype] at hsplit hpara hparas
  rw [hpost] at hparas
  simp only [List.map_nil, List.sum_nil, Nat.zero_add, Nat.add_zero] at hpara hparas
  have hshort := short_of_placed hload hx h
  rw [hpara, hparas, Nat.zero_mul, Nat.zero_add,
    Nat.mod_eq_of_lt (hparas ▸ hshort (cpm86GroupCmdType g))] at hlt
  -- the image holds fill where the piece should be
  have hgap : ((Loader.mk fill fun _ => x).paddedImage g)[(pieceSpan p).1]? = some fill := by
    refine paddedImage_getElem?_of_gap _ prog hg hlt fun q hq => ?_
    rw [htype] at hq
    obtain ⟨hq, hqbss⟩ := mem_pieces_data_iff.mp hq
    have hne : p ≠ q := by
      rintro rfl
      exact hbss hqbss
    have hspan : (pieceSpan p).1 < (pieceSpan p).2 := by
      simp only [pieceSpan]
      omega
    rcases pieces_disjoint hg hp hq hne with hd | hd
    · exact .inl (by omega)
    · exact .inr hd
  have himage := bucketImage_getElem? (Loader.mk fill fun _ => x) prog hsplit hlt
  have hbody := body_getElem? prog (Loader.mk fill fun _ => x) (cpm86GroupCmdType g)
    ((Loader.mk fill fun _ => x).fixupTable prog
      (128 + ((Loader.mk fill fun _ => x).images prog).length) ++ prog.dbi)
    (i := (pieceSpan p).1) (by omega)
  simp only [List.map_nil, List.sum_nil, Nat.mul_zero, Nat.zero_add] at himage
  rw [himage, hgap] at hbody
  rw [hpara, Nat.zero_mul, Nat.zero_add, lengths_before prog _ fun t _ => hshort t, Program.file,
    drop_header, List.getD_eq_getElem?_getD, hbody] at hbyte
  exact hfill hbyte.symm

end converse

/-- A group of far data with one initialised byte at its start. -/
def farDataGroup (seg totalsize vmData : ℕ) : GroupEntry :=
  ⟨seg, totalsize, false, false,
    [⟨0, ⟨"FAR_DATA", false, false⟩, false, [⟨0, 1, vmData, false, false⟩]⟩]⟩

/-- Two of them, the first with a tail of 47 uninitialised bytes. -/
def twoFarGroups : Program where
  groups := [farDataGroup 1 48 0, farDataGroup 2 16 1]
  farHeapSize := 0
  fixups := []
  dbi := []
  segs := by decide
  oneData := by decide
  ascending := by decide +kernel
  within := by decide +kernel
  small := by decide

end OpenWatcom.Wlink
