import Mathlib.Tactic

/-! # The places of segments in real mode

`CalcSegSizes` puts the pieces of each segment one behind the other, `AllocClasses` gives every segment an address of
paragraph and offset, and `CalcGrpAddr` finds what each group spans. Segments are known by numbers; no class and no
segment has a fixed address, and a paragraph has 16 bytes. -/

namespace OpenWatcom.Wlink.RealMode

/-- `targ_addr`. -/
structure Loc where
  seg : ℕ
  off : ℕ
deriving DecidableEq

/-- The address without the frame. -/
def Loc.linear (a : Loc) : ℕ := a.seg * 16 + a.off

/-- `MK_REAL_ADDR`. -/
def realAddr (a : Loc) : ℕ := (a.seg * 16 + a.off) % 2 ^ 32

/-- `segdata`. -/
structure Piece where
  align : ℕ
  length : ℕ
  isdead : Bool

/-- `seg_leader`; its class is known by its place in the list. -/
structure Seg where
  group : ℕ
  cls : ℕ
  align : ℕ
  absolute : Bool
  dwarf : Bool
  lxdataSeen : Bool
  pieces : List Piece

/-- `class_entry`. -/
structure Class where
  debugInfo : Bool
  /-- `DupClass` of a copy. -/
  copy : Option ℕ
  segs : List ℕ

/-- `group_entry`. -/
structure Group where
  isautogrp : Bool
  leaders : List ℕ

structure Link where
  seg : ℕ → Seg
  classes : List Class
  group : ℕ → Group
  groups : List ℕ

/-- `CAlign`. -/
def cAlign (off align : ℕ) : ℕ :=
  if 0 < align then
    let part := off % 2 ^ align
    if part ≠ 0 then (off + (2 ^ align - part)) % 2 ^ 32 else off
  else off

/-! ## The pieces -/

/-- What the pieces leave in their segment. -/
structure Leader where
  vsize : ℕ
  size : ℕ
  align : ℕ

/-- `AddUpSegData` for a live piece: the segment and `delta` of the piece. -/
def addUpSegData (absolute : Bool) (leader : Leader) (piece : Piece) : Leader × ℕ :=
  let align := if leader.align < piece.align then piece.align else leader.align
  if absolute then
    if leader.size < piece.length then (⟨piece.length, piece.length, align⟩, 0) else (⟨0, leader.size, align⟩, 0)
  else
    let delta := cAlign leader.vsize piece.align
    if 0 < piece.length then
      (⟨(delta + piece.length) % 2 ^ 32, (delta + piece.length) % 2 ^ 32, align⟩, delta)
    else (⟨delta, leader.size, align⟩, delta)

/-- The walk over the pieces: the live ones with their `delta`, and the segment. -/
def walkPieces (absolute : Bool) : Leader → List Piece → List (Piece × ℕ) × Leader
  | leader, [] => ([], leader)
  | leader, piece :: pieces =>
    if piece.isdead then walkPieces absolute leader pieces
    else
      let added := addUpSegData absolute leader piece
      let rest := walkPieces absolute added.1 pieces
      ((piece, added.2) :: rest.1, rest.2)

/-- `CalcSeg`. -/
def calcSeg (seg : Seg) : List (Piece × ℕ) × Leader := walkPieces seg.absolute ⟨0, 0, seg.align⟩ seg.pieces

/-! ## The segments -/

structure St where
  loc : Loc
  addr : ℕ → Loc
  size : ℕ → ℕ
  grpAddr : ℕ → Loc
  totalsize : ℕ → ℕ

/-- `NormalizeAddr`. -/
def normalizeAddr (loc : Loc) : Loc := ⟨(loc.off / 16 + loc.seg) % 2 ^ 16, loc.off % 16⟩

/-- `AddSize`. -/
def addSize (loc : Loc) (size : ℕ) : Loc := ⟨loc.seg, (loc.off + size) % 2 ^ 32⟩

/-- The alignment of a segment after `CalcSegSizes`. -/
def Link.align (link : Link) (id : ℕ) : ℕ := (calcSeg (link.seg id)).2.align

/-- Whether the segment is in an automatic group and not its first. -/
def Link.autoGroup (link : Link) (id : ℕ) : Bool :=
  (link.group (link.seg id).group).isautogrp && (link.group (link.seg id).group).leaders.head? != some id

/-- The location from which a segment is aligned. -/
def Link.before (link : Link) (loc : Loc) (id : ℕ) : Loc := if link.autoGroup id then loc else normalizeAddr loc

/-- The location that `NewSegment` gives to a segment. -/
def Link.segStart (link : Link) (loc : Loc) (id : ℕ) : Loc :=
  let loc := link.before loc id
  let off := cAlign loc.off (link.align id)
  let loc := addSize loc ((off + 2 ^ 32 - loc.off) % 2 ^ 32)
  if link.autoGroup id then loc else normalizeAddr loc

/-- `NewSegment`. -/
def newSegment (link : Link) (st : St) (id : ℕ) : St :=
  let loc := link.segStart st.loc id
  { st with addr := Function.update st.addr id loc, loc := addSize loc (st.size id) }

/-- `NewSegment` for debugging information. -/
def newDebugSegment (link : Link) (st : St) (id : ℕ) : St :=
  let off := cAlign st.loc.off (link.align id)
  let loc := addSize st.loc ((off + 2 ^ 32 - st.loc.off) % 2 ^ 32)
  { st with addr := Function.update st.addr id loc, loc := addSize loc (st.size id) }

/-- `AllocSeg`. -/
def allocSeg (link : Link) (debug : Bool) (st : St) (id : ℕ) : St :=
  if (link.seg id).absolute then st
  else
    let st := if (link.seg id).dwarf then { st with loc := ⟨st.loc.seg, 0⟩ } else st
    if debug then newDebugSegment link st id else newSegment link st id

/-- `AllocClasses` for one class. -/
def allocClass (link : Link) (st : St) (cls : Class) : St :=
  if cls.debugInfo then
    { cls.segs.foldl (allocSeg link true) { st with loc := ⟨0, 0⟩ } with loc := st.loc }
  else cls.segs.foldl (allocSeg link false) st

/-- `AllocClasses`. -/
def allocClasses (link : Link) (st : St) (classes : List Class) : St := classes.foldl (allocClass link) st

/-! ## The groups -/

/-- `grpaddrinfo`, with the address that is put into the group. -/
structure Info where
  firstTime : Bool
  loc : Loc
  grpAddr : ℕ
  endAddr : ℕ
  lastgrp : Option ℕ

def Info.start : Info := ⟨true, ⟨0, 0⟩, 0, 0, none⟩

/-- `FindEndAddr`. -/
def findEndAddr (st : St) (info : Info) (id : ℕ) : Info :=
  let segAddr := realAddr (st.addr id)
  let segEnd := (segAddr + st.size id) % 2 ^ 32
  if info.firstTime then { info with loc := st.addr id, grpAddr := segAddr, endAddr := segEnd, firstTime := false }
  else
    let info := if segAddr < info.grpAddr then { info with loc := st.addr id, grpAddr := segAddr } else info
    if info.endAddr < segEnd then { info with endAddr := segEnd } else info

/-- `FindInitEndAddr`. -/
def findInitEndAddr (link : Link) (st : St) (info : Info) (id : ℕ) : Info :=
  if (link.seg id).lxdataSeen then findEndAddr st info id else info

/-- `FindCopyGroups`. -/
def findCopyGroups (link : Link) (st : St) (info : Info) (id : ℕ) : Info :=
  if info.lastgrp ≠ some (link.seg id).group then
    (link.group (link.seg id).group).leaders.foldl (findInitEndAddr link st)
      { info with lastgrp := some (link.seg id).group }
  else info

/-- The class that the first segment of a group copies. -/
def Link.copied (link : Link) (id : ℕ) : Option Class :=
  link.classes[(link.seg id).cls]?.bind fun cls => cls.copy.bind fun dup => link.classes[dup]?

/-- `CalcGrpAddr` for one group. -/
def calcGroup (link : Link) (st : St) (g : ℕ) : St :=
  match (link.group g).leaders.head? with
  | none => st
  | some seg =>
    match link.copied seg with
    | some dup =>
      let info := dup.segs.foldl (findCopyGroups link st) Info.start
      let total := (info.endAddr + 2 ^ 32 - info.grpAddr) % 2 ^ 32
      let addr := (realAddr (st.addr seg) + total) % 2 ^ 32
      let st := { st with
        grpAddr := Function.update st.grpAddr g (st.addr seg)
        totalsize := Function.update st.totalsize g total
        size := Function.update st.size seg total
        loc := ⟨addr / 16 % 2 ^ 16, addr % 16⟩ }
      ((link.classes.drop ((link.seg seg).cls + 1)).filter fun cls => !cls.debugInfo).foldl
        (fun st cls => cls.segs.foldl (allocSeg link false) st) st
    | none =>
      let info := (link.group g).leaders.foldl (findEndAddr st) Info.start
      { st with
        grpAddr := Function.update st.grpAddr g info.loc
        totalsize := Function.update st.totalsize g ((info.endAddr + 2 ^ 32 - info.grpAddr) % 2 ^ 32) }

/-- `CalcGrpAddr`. -/
def calcGrpAddr (link : Link) (st : St) : St := link.groups.foldl (calcGroup link) st

/-- `CalcSegSizes`, `AllocClasses` and `CalcGrpAddr`, from where the section starts; absolute segments have
addresses. -/
def calcAddresses (link : Link) (loc : Loc) (addr : ℕ → Loc) : St :=
  calcGrpAddr link
    (allocClasses link ⟨loc, addr, fun id => (calcSeg (link.seg id)).2.size, fun _ => ⟨0, 0⟩, fun _ => 0⟩ link.classes)

/-! ## What is asked for -/

/-- The segments that get addresses, in the order of classes and segments. -/
def Link.order (link : Link) : List ℕ :=
  ((link.classes.filter fun cls => !cls.debugInfo).flatMap Class.segs).filter fun id => !(link.seg id).absolute

/-- The pieces of a segment are behind each other inside it, and each starts at a multiple of its alignment. -/
structure PiecesRight (link : Link) (st : St) (id : ℕ) : Prop where
  disjoint : (calcSeg (link.seg id)).1.Pairwise fun p q => p.2 + p.1.length ≤ q.2
  inside : ∀ p ∈ (calcSeg (link.seg id)).1, 0 < p.1.length → p.2 + p.1.length ≤ st.size id
  aligned : ∀ p ∈ (calcSeg (link.seg id)).1, 2 ^ p.1.align ∣ (st.addr id).linear + p.2

/-- The group begins where its lowest segment begins and ends where its highest segment ends. -/
structure GroupRight (link : Link) (st : St) (g : ℕ) : Prop where
  start : ∃ id ∈ (link.group g).leaders, st.grpAddr g = st.addr id
  lowest : ∀ id ∈ (link.group g).leaders, (st.grpAddr g).linear ≤ (st.addr id).linear
  ends : ∃ id ∈ (link.group g).leaders, (st.grpAddr g).linear + st.totalsize g = (st.addr id).linear + st.size id
  highest : ∀ id ∈ (link.group g).leaders,
    (st.addr id).linear + st.size id ≤ (st.grpAddr g).linear + st.totalsize g

/-- What is asked for. -/
structure Right (link : Link) (st : St) : Prop where
  pieces : ∀ id ∈ link.order, PiecesRight link st id
  aligned : ∀ id ∈ link.order, 2 ^ link.align id ∣ (st.addr id).linear
  ascending : link.order.Pairwise fun i j => (st.addr i).linear + st.size i ≤ (st.addr j).linear
  groups : ∀ g ∈ link.groups, GroupRight link st g

/-! ## The condition -/

/-- The next multiple of the alignment. -/
def alignUp (off align : ℕ) : ℕ := (off + 2 ^ align - 1) / 2 ^ align * 2 ^ align

/-- The segments with the location before each is placed. -/
def Link.placings (link : Link) : Loc → List ℕ → List (ℕ × Loc)
  | _, [] => []
  | loc, id :: ids =>
    (id, loc) :: link.placings (addSize (link.segStart loc id) (calcSeg (link.seg id)).2.size) ids

/-- The pieces of a segment stay below 4 GiB. -/
def PiecesFit : ℕ → List Piece → Prop
  | _, [] => True
  | vsize, piece :: pieces =>
    if piece.isdead then PiecesFit vsize pieces
    else alignUp vsize piece.align + piece.length < 2 ^ 32 ∧
      PiecesFit (alignUp vsize piece.align + piece.length) pieces

/-- Placing a segment: it is not too big for DOS, and no offset wraps. -/
structure SegFits (link : Link) (loc : Loc) (id : ℕ) : Prop where
  pieces : PiecesFit 0 (link.seg id).pieces
  before : link.autoGroup id = false → loc.off / 16 + loc.seg < 2 ^ 16
  start : link.autoGroup id = false →
    alignUp (link.before loc id).off (link.align id) / 16 + (link.before loc id).seg < 2 ^ 16
  stop : (link.before loc id).seg * 16 + alignUp (link.before loc id).off (link.align id) +
    (calcSeg (link.seg id)).2.size < 2 ^ 32

/-- The link is one that is not rejected, and whose parts are what they should be: each segment is once in the classes,
no class is a copy, and every group has segments, which end below 4 GiB. -/
structure Link.Fits (link : Link) (loc : Loc) (addr : ℕ → Loc) : Prop where
  nodup : (link.classes.flatMap Class.segs).Nodup
  nocopy : ∀ cls ∈ link.classes, cls.copy = none
  dwarf : ∀ id ∈ link.order, (link.seg id).dwarf = false
  segs : ∀ p ∈ link.placings loc link.order, SegFits link p.2 p.1
  leaders : ∀ g ∈ link.groups, (link.group g).leaders ≠ [] ∧ ∀ id ∈ (link.group g).leaders,
    id ∈ link.order ∨ (link.seg id).absolute = true ∧ (addr id).linear + (calcSeg (link.seg id)).2.size < 2 ^ 32

/-- Every segment that is aligned to more than a paragraph is placed in a frame at a multiple of its alignment. -/
def Link.FramesOk (link : Link) (loc : Loc) : Prop :=
  ∀ p ∈ link.placings loc link.order, 4 < link.align p.1 → 2 ^ link.align p.1 ∣ (link.before p.2 p.1).seg * 16

/-! ## Alignment -/

theorem dvd_alignUp (off align : ℕ) : 2 ^ align ∣ alignUp off align := Dvd.intro_left _ rfl

theorem le_alignUp (off align : ℕ) : off ≤ alignUp off align := by
  have hpos : 0 < 2 ^ align := by positivity
  have hdiv := Nat.div_add_mod (off + 2 ^ align - 1) (2 ^ align)
  have hmod := Nat.mod_lt (off + 2 ^ align - 1) hpos
  unfold alignUp
  rw [mul_comm]
  omega

theorem alignUp_of_dvd {off align : ℕ} (h : 2 ^ align ∣ off) : alignUp off align = off := by
  obtain ⟨k, rfl⟩ := h
  have hpos : 0 < 2 ^ align := by positivity
  unfold alignUp
  rw [show 2 ^ align * k + 2 ^ align - 1 = (2 ^ align - 1) + 2 ^ align * k by omega, Nat.add_mul_div_left _ _ hpos,
    Nat.div_eq_of_lt (by omega), zero_add, mul_comm]

theorem alignUp_of_mod {off align : ℕ} (h : off % 2 ^ align ≠ 0) :
    alignUp off align = off + (2 ^ align - off % 2 ^ align) := by
  have hpos : 0 < 2 ^ align := by positivity
  have hmod := Nat.mod_lt off hpos
  have hdiv := Nat.div_add_mod off (2 ^ align)
  unfold alignUp
  rw [show off + 2 ^ align - 1 = (off % 2 ^ align - 1) + 2 ^ align * (off / 2 ^ align + 1) by
      rw [mul_add, mul_one]; omega,
    Nat.add_mul_div_left _ _ hpos, Nat.div_eq_of_lt (by omega), zero_add, add_mul, one_mul, mul_comm (off / _)]
  omega

theorem cAlign_eq {off align : ℕ} (h : alignUp off align < 2 ^ 32) : cAlign off align = alignUp off align := by
  unfold cAlign
  rcases Nat.eq_zero_or_pos align with rfl | hpos
  · rw [if_neg (by decide), alignUp_of_dvd (by simp)]
  rw [if_pos hpos]
  dsimp only
  split_ifs with hpart
  · rw [← alignUp_of_mod hpart, Nat.mod_eq_of_lt h]
  · rw [not_not] at hpart
    exact (alignUp_of_dvd (Nat.dvd_of_mod_eq_zero hpart)).symm

/-! ## Pieces -/

/-- What the walk over pieces that fit does, from where it starts. -/
theorem walkPieces_spec {leader : Leader} {pieces : List Piece} (hfit : PiecesFit leader.vsize pieces)
    (hsize : leader.size ≤ leader.vsize) :
    (walkPieces false leader pieces).1.Pairwise (fun p q => p.2 + p.1.length ≤ q.2) ∧
      (∀ p ∈ (walkPieces false leader pieces).1, leader.vsize ≤ p.2 ∧ 2 ^ p.1.align ∣ p.2 ∧
        (0 < p.1.length → p.2 + p.1.length ≤ (walkPieces false leader pieces).2.size) ∧
        p.1.align ≤ (walkPieces false leader pieces).2.align) ∧
      leader.size ≤ (walkPieces false leader pieces).2.size ∧
      leader.align ≤ (walkPieces false leader pieces).2.align := by
  induction pieces generalizing leader with
  | nil => exact ⟨.nil, by simp [walkPieces], le_rfl, le_rfl⟩
  | cons piece pieces ih =>
    rw [walkPieces]
    rw [PiecesFit] at hfit
    by_cases hdead : piece.isdead = true
    · rw [if_pos hdead] at hfit ⊢
      exact ih hfit hsize
    rw [if_neg hdead] at hfit ⊢
    have hup := le_alignUp leader.vsize piece.align
    have hdelta : cAlign leader.vsize piece.align = alignUp leader.vsize piece.align := cAlign_eq (by omega)
    have hadded : (addUpSegData false leader piece).2 = alignUp leader.vsize piece.align ∧
        (addUpSegData false leader piece).1.vsize = alignUp leader.vsize piece.align + piece.length ∧
        (addUpSegData false leader piece).1.size ≤ alignUp leader.vsize piece.align + piece.length ∧
        leader.size ≤ (addUpSegData false leader piece).1.size ∧
        (0 < piece.length → (addUpSegData false leader piece).1.size =
          alignUp leader.vsize piece.align + piece.length) ∧
        leader.align ≤ (addUpSegData false leader piece).1.align ∧
        piece.align ≤ (addUpSegData false leader piece).1.align := by
      unfold addUpSegData
      simp only [hdelta, Bool.false_eq_true, if_false, Nat.mod_eq_of_lt hfit.1]
      split_ifs <;> refine ⟨rfl, ?_⟩ <;> dsimp only <;> omega
    obtain ⟨hat, hvsize, hle, hkeep, hnew, halign, hpiece⟩ := hadded
    obtain ⟨hpair, hall, hmore, hmoreAlign⟩ := @ih (addUpSegData false leader piece).1
      (by rw [hvsize]; exact hfit.2) (by rw [hvsize]; exact hle)
    dsimp only
    refine ⟨List.pairwise_cons.2 ⟨fun q hq => ?_, hpair⟩, ?_, le_trans hkeep hmore, le_trans halign hmoreAlign⟩
    · rw [hat, ← hvsize]
      exact (hall q hq).1
    · intro p hp
      rcases List.mem_cons.1 hp with rfl | hp
      · dsimp only
        rw [hat]
        refine ⟨hup, dvd_alignUp _ _, fun hpos => ?_, le_trans hpiece hmoreAlign⟩
        rw [← hnew hpos]
        exact hmore
      · obtain ⟨hlow, hrest⟩ := hall p hp
        exact ⟨by omega, hrest⟩

/-! ## Segments -/

theorem normalizeAddr_linear {loc : Loc} (h : loc.off / 16 + loc.seg < 2 ^ 16) :
    (normalizeAddr loc).linear = loc.linear := by
  unfold normalizeAddr Loc.linear
  rw [Nat.mod_eq_of_lt h]
  dsimp only
  omega

theorem before_linear {link : Link} {loc : Loc} {id : ℕ} (h : SegFits link loc id) :
    (link.before loc id).linear = loc.linear := by
  unfold Link.before
  split_ifs with hauto
  · rfl
  · exact normalizeAddr_linear (h.before (by simpa using hauto))

/-- Where a segment starts: at an aligned offset in the frame from which it was aligned. -/
theorem segStart_linear {link : Link} {loc : Loc} {id : ℕ} (h : SegFits link loc id) :
    (link.segStart loc id).linear =
        (link.before loc id).seg * 16 + alignUp (link.before loc id).off (link.align id) ∧
      (link.segStart loc id).seg * 16 + (link.segStart loc id).off + (calcSeg (link.seg id)).2.size < 2 ^ 32 := by
  have hstop := h.stop
  have hle := le_alignUp (link.before loc id).off (link.align id)
  have hoff : addSize (link.before loc id) ((cAlign (link.before loc id).off (link.align id) + 2 ^ 32 -
      (link.before loc id).off) % 2 ^ 32) =
      ⟨(link.before loc id).seg, alignUp (link.before loc id).off (link.align id)⟩ := by
    rw [cAlign_eq (by omega), addSize]
    congr 1
    omega
  unfold Link.segStart
  dsimp only
  rw [hoff]
  split_ifs with hauto
  · exact ⟨rfl, hstop⟩
  · have hnorm : (normalizeAddr ⟨(link.before loc id).seg,
        alignUp (link.before loc id).off (link.align id)⟩).linear =
        (link.before loc id).seg * 16 + alignUp (link.before loc id).off (link.align id) :=
      normalizeAddr_linear (h.start (by simpa using hauto))
    refine ⟨hnorm, ?_⟩
    have hlinear : (normalizeAddr ⟨(link.before loc id).seg,
        alignUp (link.before loc id).off (link.align id)⟩).linear + (calcSeg (link.seg id)).2.size < 2 ^ 32 := by
      rw [hnorm]
      exact hstop
    exact hlinear

theorem segStart_le {link : Link} {loc : Loc} {id : ℕ} (h : SegFits link loc id) :
    loc.linear ≤ (link.segStart loc id).linear := by
  rw [(segStart_linear h).1, ← before_linear h]
  have := le_alignUp (link.before loc id).off (link.align id)
  unfold Loc.linear
  omega

/-- The start is aligned exactly if the frame is. -/
theorem segStart_aligned_iff {link : Link} {loc : Loc} {id : ℕ} (h : SegFits link loc id) :
    2 ^ link.align id ∣ (link.segStart loc id).linear ↔
      (4 < link.align id → 2 ^ link.align id ∣ (link.before loc id).seg * 16) := by
  rw [(segStart_linear h).1, Nat.dvd_add_left (dvd_alignUp _ _)]
  constructor
  · exact fun hdvd _ => hdvd
  · intro hframe
    rcases Nat.lt_or_ge 4 (link.align id) with hlt | hge
    · exact hframe hlt
    · exact Dvd.dvd.mul_left (pow_dvd_pow 2 hge) _

theorem addSize_linear {link : Link} {loc : Loc} {id : ℕ} (h : SegFits link loc id) :
    (addSize (link.segStart loc id) (calcSeg (link.seg id)).2.size).linear =
      (link.segStart loc id).linear + (calcSeg (link.seg id)).2.size := by
  have hend := (segStart_linear h).2
  unfold addSize Loc.linear
  dsimp only
  rw [Nat.mod_eq_of_lt (by omega)]
  omega

/-- The segments that are placed are behind each other. -/
theorem placings_ascending {link : Link} {loc : Loc} {ids : List ℕ}
    (h : ∀ p ∈ link.placings loc ids, SegFits link p.2 p.1) :
    (∀ p ∈ link.placings loc ids, loc.linear ≤ (link.segStart p.2 p.1).linear) ∧
      (link.placings loc ids).Pairwise fun p q =>
        (link.segStart p.2 p.1).linear + (calcSeg (link.seg p.1)).2.size ≤ (link.segStart q.2 q.1).linear := by
  induction ids generalizing loc with
  | nil => exact ⟨by simp [Link.placings], .nil⟩
  | cons id ids ih =>
    rw [Link.placings] at h ⊢
    have hid := h (id, loc) (by simp)
    obtain ⟨hlow, hpair⟩ := ih fun p hp => h p (List.mem_cons_of_mem _ hp)
    rw [addSize_linear hid] at hlow
    refine ⟨List.forall_mem_cons.2 ⟨segStart_le hid, fun p hp => ?_⟩, List.pairwise_cons.2 ⟨hlow, hpair⟩⟩
    have hfirst : loc.linear ≤ (link.segStart loc id).linear := segStart_le hid
    exact le_trans hfirst (le_trans (Nat.le_add_right _ _) (hlow p hp))

theorem placings_map_fst (link : Link) (loc : Loc) (ids : List ℕ) :
    (link.placings loc ids).map Prod.fst = ids := by
  induction ids generalizing loc with
  | nil => rfl
  | cons id ids ih => rw [Link.placings, List.map_cons, ih]

/-- The location after segments are placed. -/
def Link.endLoc (link : Link) (loc : Loc) (ids : List ℕ) : Loc :=
  ids.foldl (fun loc id => addSize (link.segStart loc id) (calcSeg (link.seg id)).2.size) loc

theorem placings_append (link : Link) (loc : Loc) (ids ids' : List ℕ) :
    link.placings loc (ids ++ ids') = link.placings loc ids ++ link.placings (link.endLoc loc ids) ids' := by
  induction ids generalizing loc with
  | nil => rfl
  | cons id ids ih =>
    rw [List.cons_append, Link.placings, ih, Link.placings]
    rfl

/-- The segments that get an address. -/
def Link.placed (link : Link) (ids : List ℕ) : List ℕ := ids.filter fun id => !(link.seg id).absolute

/-- What stands after segments have been placed. -/
structure PlacedSpec (link : Link) (st st' : St) (places : List (ℕ × Loc)) (touched : List ℕ) : Prop where
  size : st'.size = st.size
  addr : ∀ p ∈ places, st'.addr p.1 = link.segStart p.2 p.1
  other : ∀ id ∉ touched, st'.addr id = st.addr id

theorem allocSegs_spec {link : Link} {st : St} {ids : List ℕ} (hnodup : ids.Nodup)
    (hsize : st.size = fun id => (calcSeg (link.seg id)).2.size)
    (hdwarf : ∀ id ∈ link.placed ids, (link.seg id).dwarf = false) :
    PlacedSpec link st (ids.foldl (allocSeg link false) st) (link.placings st.loc (link.placed ids))
        (link.placed ids) ∧
      (ids.foldl (allocSeg link false) st).loc = link.endLoc st.loc (link.placed ids) := by
  induction ids generalizing st with
  | nil => exact ⟨⟨rfl, by simp [Link.placed, Link.placings], fun _ _ => rfl⟩, rfl⟩
  | cons id ids ih =>
    rw [List.nodup_cons] at hnodup
    rw [List.foldl_cons]
    by_cases habs : (link.seg id).absolute = true
    · have hplaced : link.placed (id :: ids) = link.placed ids := List.filter_cons_of_neg (by simp [habs])
      rw [hplaced] at hdwarf ⊢
      rw [show allocSeg link false st id = st from if_pos habs]
      exact ih hnodup.2 hsize hdwarf
    · have hplaced : link.placed (id :: ids) = id :: link.placed ids := List.filter_cons_of_pos (by simp [habs])
      rw [hplaced] at hdwarf ⊢
      have hstep : allocSeg link false st id = newSegment link st id := by
        unfold allocSeg
        rw [if_neg habs, hdwarf id (by simp)]
        rfl
      have hnext : (newSegment link st id).loc =
          addSize (link.segStart st.loc id) (calcSeg (link.seg id)).2.size := by
        change addSize (link.segStart st.loc id) (st.size id) = _
        rw [hsize]
      rw [hstep]
      obtain ⟨hspec, hloc⟩ := @ih (newSegment link st id) hnodup.2 hsize
        fun i hi => hdwarf i (List.mem_cons_of_mem _ hi)
      rw [hnext] at hspec hloc
      refine ⟨⟨hspec.size, ?_, fun i hi => ?_⟩, hloc⟩
      · rw [Link.placings]
        refine List.forall_mem_cons.2 ⟨?_, hspec.addr⟩
        rw [hspec.other id fun hmem => hnodup.1 (List.mem_filter.1 hmem).1]
        exact Function.update_self id _ st.addr
      · rw [List.mem_cons, not_or] at hi
        rw [hspec.other i hi.2]
        exact Function.update_of_ne hi.1 _ st.addr

/-- Debugging information touches the addresses of its own segments only. -/
theorem allocDebug_spec (link : Link) (st : St) (ids : List ℕ) :
    (ids.foldl (allocSeg link true) st).size = st.size ∧
      ∀ id ∉ link.placed ids, (ids.foldl (allocSeg link true) st).addr id = st.addr id := by
  induction ids generalizing st with
  | nil => exact ⟨rfl, fun _ _ => rfl⟩
  | cons id ids ih =>
    rw [List.foldl_cons]
    obtain ⟨hsize, hother⟩ := ih (allocSeg link true st id)
    by_cases habs : (link.seg id).absolute = true
    · have hstep : allocSeg link true st id = st := if_pos habs
      have hplaced : link.placed (id :: ids) = link.placed ids := List.filter_cons_of_neg (by simp [habs])
      rw [hstep] at hsize hother ⊢
      rw [hplaced]
      exact ⟨hsize, hother⟩
    · have hplaced : link.placed (id :: ids) = id :: link.placed ids := List.filter_cons_of_pos (by simp [habs])
      rw [hplaced]
      have hstep : (allocSeg link true st id).size = st.size ∧
          ∀ i ≠ id, (allocSeg link true st id).addr i = st.addr i := by
        unfold allocSeg newDebugSegment
        rw [if_neg habs]
        split_ifs <;> exact ⟨rfl, fun i hi => Function.update_of_ne hi _ st.addr⟩
      refine ⟨hsize.trans hstep.1, fun i hi => ?_⟩
      rw [List.mem_cons, not_or] at hi
      rw [hother i hi.2, hstep.2 i hi.1]

/-- The segments of the classes that are placed. -/
def Link.orderOf (link : Link) (classes : List Class) : List ℕ :=
  link.placed ((classes.filter fun cls => !cls.debugInfo).flatMap Class.segs)

theorem allocClasses_spec {link : Link} {st : St} {classes : List Class}
    (hnodup : (classes.flatMap Class.segs).Nodup) (hsize : st.size = fun id => (calcSeg (link.seg id)).2.size)
    (hdwarf : ∀ id ∈ link.orderOf classes, (link.seg id).dwarf = false) :
    PlacedSpec link st (allocClasses link st classes) (link.placings st.loc (link.orderOf classes))
      (link.placed (classes.flatMap Class.segs)) := by
  induction classes generalizing st with
  | nil => exact ⟨rfl, by simp [Link.orderOf, Link.placed, Link.placings], fun _ _ => rfl⟩
  | cons cls classes ih =>
    rw [List.flatMap_cons, List.nodup_append] at hnodup
    obtain ⟨hcls, hclasses, hdisjoint⟩ := hnodup
    have htouched : link.placed ((cls :: classes).flatMap Class.segs) =
        link.placed cls.segs ++ link.placed (classes.flatMap Class.segs) := by
      rw [List.flatMap_cons]
      exact List.filter_append ..
    have hapart : ∀ id ∈ cls.segs, id ∉ link.placed (classes.flatMap Class.segs) := by
      intro id hid hmem
      exact hdisjoint id hid id (List.mem_filter.1 hmem).1 rfl
    rw [htouched]
    change PlacedSpec link st (allocClasses link (allocClass link st cls) classes) _ _
    by_cases hdebug : cls.debugInfo = true
    · have horder : link.orderOf (cls :: classes) = link.orderOf classes := by
        rw [Link.orderOf, List.filter_cons_of_neg (by simp [hdebug])]
        rfl
      rw [horder] at hdwarf ⊢
      obtain ⟨hdsize, hdother⟩ := allocDebug_spec link { st with loc := ⟨0, 0⟩ } cls.segs
      have hclass : allocClass link st cls =
          { cls.segs.foldl (allocSeg link true) { st with loc := ⟨0, 0⟩ } with loc := st.loc } := if_pos hdebug
      have hspec := @ih (allocClass link st cls) hclasses (by rw [hclass]; exact hdsize.trans hsize) hdwarf
      have hloc : (allocClass link st cls).loc = st.loc := by rw [hclass]
      rw [hloc] at hspec
      refine ⟨hspec.size.trans (by rw [hclass]; exact hdsize), hspec.addr, fun id hid => ?_⟩
      rw [List.mem_append, not_or] at hid
      rw [hspec.other id hid.2, hclass]
      exact hdother id hid.1
    · have horder : link.orderOf (cls :: classes) = link.placed cls.segs ++ link.orderOf classes := by
        rw [Link.orderOf, List.filter_cons_of_pos (by simp [hdebug]), List.flatMap_cons]
        exact List.filter_append ..
      rw [horder] at hdwarf ⊢
      obtain ⟨hfirst, hloc⟩ := allocSegs_spec hcls hsize fun id hid => hdwarf id (List.mem_append_left _ hid)
      have hclass : allocClass link st cls = cls.segs.foldl (allocSeg link false) st := if_neg hdebug
      have hspec := @ih (allocClass link st cls) hclasses (by rw [hclass, hfirst.size]; exact hsize)
        fun id hid => hdwarf id (List.mem_append_right _ hid)
      rw [hclass, hloc] at hspec
      rw [hclass, placings_append]
      refine ⟨hspec.size.trans hfirst.size, fun p hp => ?_, fun id hid => ?_⟩
      · rcases List.mem_append.1 hp with hp | hp
        · have hid : p.1 ∈ link.placed cls.segs := by
            rw [← placings_map_fst link st.loc (link.placed cls.segs)]
            exact List.mem_map_of_mem hp
          rw [hspec.other p.1 (hapart p.1 (List.mem_filter.1 hid).1)]
          exact hfirst.addr p hp
        · exact hspec.addr p hp
      · rw [List.mem_append, not_or] at hid
        rw [hspec.other id hid.2, hfirst.other id hid.1]

/-! ## Groups -/

/-- What is known of the segments that have been seen. -/
structure Info.Spans (info : Info) (st : St) (seen : List ℕ) : Prop where
  later : info.firstTime = false
  start : ∃ id ∈ seen, info.loc = st.addr id ∧ info.grpAddr = (st.addr id).linear
  lowest : ∀ id ∈ seen, info.grpAddr ≤ (st.addr id).linear
  ends : ∃ id ∈ seen, info.endAddr = (st.addr id).linear + st.size id
  highest : ∀ id ∈ seen, (st.addr id).linear + st.size id ≤ info.endAddr

theorem realAddr_eq {st : St} {id : ℕ} (h : (st.addr id).linear + st.size id < 2 ^ 32) :
    realAddr (st.addr id) = (st.addr id).linear :=
  Nat.mod_eq_of_lt (show (st.addr id).linear < 2 ^ 32 by omega)

theorem findEndAddr_first {st : St} {info : Info} {id : ℕ} (hfirst : info.firstTime = true)
    (h : (st.addr id).linear + st.size id < 2 ^ 32) : (findEndAddr st info id).Spans st [id] := by
  unfold findEndAddr
  rw [if_pos hfirst, realAddr_eq h, Nat.mod_eq_of_lt h]
  exact ⟨rfl, ⟨id, by simp, rfl, rfl⟩, by simp, ⟨id, by simp, rfl⟩, by simp⟩

theorem forall_mem_snoc {seen : List ℕ} {id : ℕ} {p : ℕ → Prop} (hseen : ∀ k ∈ seen, p k) (hid : p id) :
    ∀ k ∈ seen ++ [id], p k := by
  intro k hk
  rcases List.mem_append.1 hk with hk | hk
  · exact hseen k hk
  · rw [List.mem_singleton.1 hk]
    exact hid

theorem findEndAddr_next {st : St} {info : Info} {seen : List ℕ} {id : ℕ} (hspans : info.Spans st seen)
    (h : (st.addr id).linear + st.size id < 2 ^ 32) : (findEndAddr st info id).Spans st (seen ++ [id]) := by
  obtain ⟨hlater, ⟨i, hi, hloc, hgrp⟩, hlow, ⟨j, hj, hend⟩, hhigh⟩ := hspans
  unfold findEndAddr
  rw [if_neg (by rw [hlater]; decide), realAddr_eq h, Nat.mod_eq_of_lt h]
  have hmem : ∀ k ∈ seen, k ∈ seen ++ [id] := fun k hk => List.mem_append_left _ hk
  have hlast : id ∈ seen ++ [id] := by simp
  by_cases hlt : (st.addr id).linear < info.grpAddr
  · rw [if_pos hlt]
    have hfirst : ∀ k ∈ seen ++ [id], (st.addr id).linear ≤ (st.addr k).linear :=
      forall_mem_snoc (fun k hk => hlt.le.trans (hlow k hk)) le_rfl
    by_cases hgt : info.endAddr < (st.addr id).linear + st.size id
    · rw [if_pos hgt]
      exact ⟨hlater, ⟨id, hlast, rfl, rfl⟩, hfirst, ⟨id, hlast, rfl⟩,
        forall_mem_snoc (fun k hk => (hhigh k hk).trans hgt.le) le_rfl⟩
    · rw [if_neg hgt]
      exact ⟨hlater, ⟨id, hlast, rfl, rfl⟩, hfirst, ⟨j, hmem j hj, hend⟩, forall_mem_snoc hhigh (not_lt.1 hgt)⟩
  · rw [if_neg hlt]
    have hfirst : ∀ k ∈ seen ++ [id], info.grpAddr ≤ (st.addr k).linear := forall_mem_snoc hlow (not_lt.1 hlt)
    by_cases hgt : info.endAddr < (st.addr id).linear + st.size id
    · rw [if_pos hgt]
      exact ⟨hlater, ⟨i, hmem i hi, hloc, hgrp⟩, hfirst, ⟨id, hlast, rfl⟩,
        forall_mem_snoc (fun k hk => (hhigh k hk).trans hgt.le) le_rfl⟩
    · rw [if_neg hgt]
      exact ⟨hlater, ⟨i, hmem i hi, hloc, hgrp⟩, hfirst, ⟨j, hmem j hj, hend⟩, forall_mem_snoc hhigh (not_lt.1 hgt)⟩

theorem findEndAddr_all {st : St} {info : Info} {seen ids : List ℕ} (hspans : info.Spans st seen)
    (h : ∀ id ∈ ids, (st.addr id).linear + st.size id < 2 ^ 32) :
    (ids.foldl (findEndAddr st) info).Spans st (seen ++ ids) := by
  induction ids generalizing info seen with
  | nil =>
    rw [List.append_nil]
    exact hspans
  | cons id ids ih =>
    have hnext := ih (findEndAddr_next hspans (h id (by simp))) fun i hi => h i (List.mem_cons_of_mem _ hi)
    rw [List.append_assoc] at hnext
    exact hnext

/-- What `CalcGrpAddr` puts into a group. -/
def groupInfo (link : Link) (st : St) (g : ℕ) : Info := (link.group g).leaders.foldl (findEndAddr st) Info.start

theorem calcGroup_eq {link : Link} {st : St} {g : ℕ} (hnocopy : ∀ cls ∈ link.classes, cls.copy = none)
    (hne : (link.group g).leaders ≠ []) :
    calcGroup link st g =
      { st with
        grpAddr := Function.update st.grpAddr g (groupInfo link st g).loc
        totalsize := Function.update st.totalsize g
          (((groupInfo link st g).endAddr + 2 ^ 32 - (groupInfo link st g).grpAddr) % 2 ^ 32) } := by
  obtain ⟨seg, rest, hleaders⟩ := List.exists_cons_of_ne_nil hne
  have hcopied : link.copied seg = none := by
    unfold Link.copied
    cases hget : link.classes[(link.seg seg).cls]? with
    | none => rfl
    | some cls => simp [hnocopy cls (List.mem_of_getElem? hget)]
  unfold calcGroup
  rw [hleaders]
  simp only [List.head?_cons, hcopied]
  rw [← hleaders]
  rfl

theorem groupInfo_spans {link : Link} {st : St} {g : ℕ} (hne : (link.group g).leaders ≠ [])
    (h : ∀ id ∈ (link.group g).leaders, (st.addr id).linear + st.size id < 2 ^ 32) :
    (groupInfo link st g).Spans st (link.group g).leaders := by
  obtain ⟨seg, rest, hleaders⟩ := List.exists_cons_of_ne_nil hne
  unfold groupInfo
  rw [hleaders] at h ⊢
  exact findEndAddr_all (findEndAddr_first rfl (h seg (by simp))) fun id hid => h id (List.mem_cons_of_mem _ hid)

/-- The groups of the list are right, and the segments stay as they are. -/
theorem calcGrpAddr_spec {link : Link} (hnocopy : ∀ cls ∈ link.classes, cls.copy = none) {st : St} {gs : List ℕ}
    (hleaders : ∀ g ∈ gs, (link.group g).leaders ≠ [] ∧
      ∀ id ∈ (link.group g).leaders, (st.addr id).linear + st.size id < 2 ^ 32) :
    (gs.foldl (calcGroup link) st).addr = st.addr ∧ (gs.foldl (calcGroup link) st).size = st.size ∧
      ∀ g, GroupRight link st g ∨ g ∈ gs → GroupRight link (gs.foldl (calcGroup link) st) g := by
  induction gs generalizing st with
  | nil =>
    refine ⟨rfl, rfl, fun g hg => ?_⟩
    rcases hg with hg | hg
    · exact hg
    · simp at hg
  | cons g gs ih =>
    obtain ⟨hne, hends⟩ := hleaders g (by simp)
    have heq := @calcGroup_eq link st g hnocopy hne
    have hspans := groupInfo_spans hne hends
    rw [List.foldl_cons]
    obtain ⟨haddr, hsize, hgroups⟩ := @ih (calcGroup link st g) fun k hk => by
      rw [heq]
      exact hleaders k (List.mem_cons_of_mem _ hk)
    -- The group that has just been done is right.
    have hright : GroupRight link (calcGroup link st g) g := by
      obtain ⟨-, ⟨i, hi, hloc, hgrp⟩, hlow, ⟨j, hj, hend⟩, hhigh⟩ := hspans
      have hle : (groupInfo link st g).grpAddr ≤ (groupInfo link st g).endAddr := by
        have := hlow j hj
        omega
      have htotal : ((groupInfo link st g).endAddr + 2 ^ 32 - (groupInfo link st g).grpAddr) % 2 ^ 32 =
          (groupInfo link st g).endAddr - (groupInfo link st g).grpAddr := by
        have := hends j hj
        omega
      have hstart : (calcGroup link st g).grpAddr g = st.addr i := by
        rw [heq]
        exact (Function.update_self g _ st.grpAddr).trans hloc
      have hsum : ((calcGroup link st g).grpAddr g).linear + (calcGroup link st g).totalsize g =
          (groupInfo link st g).endAddr := by
        have htot : (calcGroup link st g).totalsize g =
            (groupInfo link st g).endAddr - (groupInfo link st g).grpAddr := by
          rw [heq]
          exact (Function.update_self g _ st.totalsize).trans htotal
        rw [hstart, htot, ← hgrp]
        omega
      have hsame : (calcGroup link st g).addr = st.addr ∧ (calcGroup link st g).size = st.size := by
        rw [heq]
        exact ⟨rfl, rfl⟩
      refine ⟨⟨i, hi, ?_⟩, fun k hk => ?_, ⟨j, hj, ?_⟩, fun k hk => ?_⟩
      · rw [hstart, hsame.1]
      · rw [hstart, hsame.1, ← hgrp]
        exact hlow k hk
      · rw [hsum, hsame.1, hsame.2, hend]
      · rw [hsum, hsame.1, hsame.2]
        exact hhigh k hk
    refine ⟨by rw [haddr, heq], by rw [hsize, heq], fun k hk => hgroups k ?_⟩
    by_cases hkg : k = g
    · exact .inl (hkg ▸ hright)
    · rcases hk with hk | hk
      · refine .inl ?_
        rw [heq]
        have hga : Function.update st.grpAddr g (groupInfo link st g).loc k = st.grpAddr k :=
          Function.update_of_ne hkg _ _
        have hts : Function.update st.totalsize g
            (((groupInfo link st g).endAddr + 2 ^ 32 - (groupInfo link st g).grpAddr) % 2 ^ 32) k =
            st.totalsize k := Function.update_of_ne hkg _ _
        constructor
        · dsimp only
          rw [hga]
          exact hk.start
        · dsimp only
          rw [hga]
          exact hk.lowest
        · dsimp only
          rw [hga, hts]
          exact hk.ends
        · dsimp only
          rw [hga, hts]
          exact hk.highest
      · exact .inr ((List.mem_cons.1 hk).resolve_left hkg)

/-! ## Everything together -/

theorem calcSeg_pieces {link : Link} {loc : Loc} {id : ℕ} (hfit : SegFits link loc id)
    (habs : (link.seg id).absolute = false) :
    (calcSeg (link.seg id)).1.Pairwise (fun p q => p.2 + p.1.length ≤ q.2) ∧
      ∀ p ∈ (calcSeg (link.seg id)).1, 2 ^ p.1.align ∣ p.2 ∧
        (0 < p.1.length → p.2 + p.1.length ≤ (calcSeg (link.seg id)).2.size) ∧ p.1.align ≤ link.align id := by
  have hwalk := @walkPieces_spec ⟨0, 0, (link.seg id).align⟩ _ hfit.pieces le_rfl
  have hseg : calcSeg (link.seg id) = walkPieces false ⟨0, 0, (link.seg id).align⟩ (link.seg id).pieces := by
    rw [calcSeg, habs]
  unfold Link.align
  rw [hseg]
  exact ⟨hwalk.1, fun p hp => (hwalk.2.1 p hp).2⟩

theorem right_iff_framesOk {link : Link} {loc : Loc} {addr : ℕ → Loc} (h : link.Fits loc addr) :
    Right link (calcAddresses link loc addr) ↔ link.FramesOk loc := by
  set st : St := ⟨loc, addr, fun id => (calcSeg (link.seg id)).2.size, fun _ => ⟨0, 0⟩, fun _ => 0⟩ with hst
  have hspec : PlacedSpec link st (allocClasses link st link.classes) (link.placings loc link.order)
      (link.placed (link.classes.flatMap Class.segs)) := @allocClasses_spec link st _ h.nodup rfl h.dwarf
  obtain ⟨-, hpair⟩ := placings_ascending h.segs
  have hmem : ∀ id ∈ link.order, ∃ l, (id, l) ∈ link.placings loc link.order := by
    intro id hid
    rw [← placings_map_fst link loc link.order] at hid
    obtain ⟨p, hp, rfl⟩ := List.mem_map.1 hid
    exact ⟨p.2, hp⟩
  have habs : ∀ id ∈ link.order, (link.seg id).absolute = false := by
    intro id hid
    simpa using (List.mem_filter.1 hid).2
  have hsizes : (allocClasses link st link.classes).size = fun id => (calcSeg (link.seg id)).2.size := hspec.size
  -- Every segment of a group ends below 4 GiB.
  have hends : ∀ g ∈ link.groups, (link.group g).leaders ≠ [] ∧ ∀ id ∈ (link.group g).leaders,
      ((allocClasses link st link.classes).addr id).linear + (allocClasses link st link.classes).size id <
        2 ^ 32 := by
    intro g hg
    obtain ⟨hne, hall⟩ := h.leaders g hg
    refine ⟨hne, fun id hid => ?_⟩
    rw [hsizes]
    rcases hall id hid with hin | ⟨habsolute, hfit⟩
    · obtain ⟨l, hl⟩ := hmem id hin
      rw [hspec.addr _ hl]
      exact (segStart_linear (h.segs _ hl)).2
    · rw [hspec.other id fun htouched => by simp [Link.placed, habsolute] at htouched]
      exact hfit
  obtain ⟨haddr, hsize, hgroups⟩ := calcGrpAddr_spec h.nocopy hends
  change (calcAddresses link loc addr).addr = _ at haddr
  change (calcAddresses link loc addr).size = _ at hsize
  have hplace : ∀ p ∈ link.placings loc link.order,
      (calcAddresses link loc addr).addr p.1 = link.segStart p.2 p.1 := by
    intro p hp
    rw [haddr]
    exact hspec.addr p hp
  have hfinal : (calcAddresses link loc addr).size = fun id => (calcSeg (link.seg id)).2.size := by
    rw [hsize]
    exact hsizes
  have haligned : (∀ id ∈ link.order, 2 ^ link.align id ∣ ((calcAddresses link loc addr).addr id).linear) ↔
      link.FramesOk loc := by
    constructor
    · intro hall p hp
      have hid : p.1 ∈ link.order := by
        rw [← placings_map_fst link loc link.order]
        exact List.mem_map_of_mem hp
      have hdvd := hall p.1 hid
      rw [hplace p hp] at hdvd
      exact (segStart_aligned_iff (h.segs p hp)).1 hdvd
    · intro hframes id hid
      obtain ⟨l, hl⟩ := hmem id hid
      rw [hplace _ hl]
      exact (segStart_aligned_iff (h.segs _ hl)).2 (hframes _ hl)
  rw [← haligned]
  constructor
  · exact fun hright => hright.aligned
  · intro hall
    refine ⟨fun id hid => ?_, hall, ?_, fun g hg => hgroups g (.inr hg)⟩
    · obtain ⟨l, hl⟩ := hmem id hid
      obtain ⟨hdisjoint, hpieces⟩ := calcSeg_pieces (h.segs _ hl) (habs id hid)
      refine ⟨hdisjoint, fun p hp hpos => ?_, fun p hp => ?_⟩
      · rw [hfinal]
        exact (hpieces p hp).2.1 hpos
      · obtain ⟨hdelta, -, hle⟩ := hpieces p hp
        exact Nat.dvd_add (dvd_trans (pow_dvd_pow 2 hle) (hall id hid)) hdelta
    · rw [← placings_map_fst link loc link.order, List.pairwise_map]
      refine hpair.imp_of_mem fun {p q} hp hq hpq => ?_
      rw [hplace p hp, hplace q hq, hfinal]
      exact hpq

/-- A class with a segment of 16 bytes and an aligned one of 4 bytes, each in its group. -/
def twoSegs (align : ℕ) : Link where
  seg id :=
    if id = 0 then ⟨0, 0, 0, false, false, false, [⟨0, 16, false⟩]⟩
    else ⟨1, 0, 0, false, false, false, [⟨align, 4, false⟩]⟩
  classes := [⟨false, none, [0, 1]⟩]
  group g := ⟨false, [g]⟩
  groups := [0, 1]

theorem twoSegs_fits : (twoSegs 4).Fits ⟨0, 0⟩ fun _ => ⟨0, 0⟩ where
  nodup := by decide
  nocopy := by simp [twoSegs]
  dwarf := by decide
  segs := by
    intro p hp
    have hplacings : (twoSegs 4).placings ⟨0, 0⟩ (twoSegs 4).order = [(0, ⟨0, 0⟩), (1, ⟨0, 16⟩)] := by rfl
    rw [hplacings] at hp
    simp only [List.mem_cons, List.not_mem_nil, or_false] at hp
    rcases hp with rfl | rfl
    · exact ⟨⟨by decide, trivial⟩, by decide, by decide, by decide⟩
    · exact ⟨⟨by decide, trivial⟩, by decide, by decide, by decide⟩
  leaders := by
    intro g hg
    have hlist : g = 0 ∨ g = 1 := by simpa [twoSegs] using hg
    refine ⟨by simp [twoSegs], fun id hid => .inl ?_⟩
    have hself : id = g := by simpa [twoSegs] using hid
    rcases hlist with rfl | rfl <;> rw [hself] <;> decide

end OpenWatcom.Wlink.RealMode
