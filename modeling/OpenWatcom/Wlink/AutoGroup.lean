import OpenWatcom.Wlink.RealMode

/-! # Automatic groups

`AutoGroup` packs runs of segments into groups (`AutoGroupSect`, `PackSegs`) and then rebuilds the list of groups and
the list of each group's segments in the order of the segments (`SortGroupList`). Segments are known by numbers. -/

namespace OpenWatcom.Wlink.AutoGroup

open RealMode (cAlign alignUp)

/-- `seg_leader`. -/
structure Seg where
  isCode : Bool
  use32 : Bool
  absolute : Bool
  lastSegment : Bool
  combineInvalid : Bool
  segflags : ℕ
  align : ℕ
  size : ℕ
  cls : ℕ

/-- The flags of a class. -/
structure ClassFlags where
  fixed : Bool
  readOnly : Bool
  copy : Bool

/-- What does not change; a section is its classes, each with whether it has debugging information. -/
structure Link where
  realMode : Bool
  winNe : Bool
  /-- `PackCodeLimit`, with `LF_PACKCODE_FLAG`. -/
  packCode : Option ℕ
  /-- `PackDataLimit`, with `LF_PACKDATA_FLAG`. -/
  packData : Option ℕ
  seg : ℕ → Seg
  cls : ℕ → ClassFlags
  sects : List (List (Bool × List ℕ))

/-- A group of the input, or the automatic group that was made for a segment. -/
inductive GroupId where
  | named (n : ℕ)
  | auto (seg : ℕ)
deriving DecidableEq

/-- The flags of a group. -/
structure GroupFlags where
  data : Bool
  readOnly : Bool
  isdup : Bool

structure St where
  group : ℕ → Option GroupId
  leaders : GroupId → List ℕ
  flags : GroupId → GroupFlags
  groups : List GroupId
  absGroups : List GroupId

def segFixed : ℕ := 0x1000

/-- `GetSegGroupPackLimit`. -/
def getSegGroupPackLimit (link : Link) (s : ℕ) : ℕ :=
  let limit := if (link.seg s).use32 then 0xFFFFFFFF else if link.winNe then 0xFFF0 else 0xFFFF
  if (link.seg s).isCode then link.packCode.getD limit else link.packData.getD limit

/-- `CanPack`. -/
def canPack (link : Link) (group : ℕ → Option GroupId) (one two : ℕ) : Bool :=
  let a := link.seg one
  let b := link.seg two
  if a.isCode && b.combineInvalid then false
  else if !a.isCode && a.align != b.align then false
  else if a.use32 != b.use32 || a.isCode != b.isCode then false
  else if a.segflags != b.segflags || b.segflags &&& segFixed != 0 then false
  else if a.cls != b.cls && (link.cls b.cls).fixed then false
  else if group one ≠ group two then false
  else true

/-- `AllocGroup` for an automatic group. -/
def getAutoGroup (st : St) (absSeg : Bool) (g : GroupId) : St :=
  { st with
    leaders := Function.update st.leaders g []
    flags := Function.update st.flags g ⟨false, true, false⟩
    groups := if absSeg then st.groups else st.groups ++ [g]
    absGroups := if absSeg then st.absGroups ++ [g] else st.absGroups }

/-- What a segment does to the flags of its group. -/
def GroupFlags.add (flags : GroupFlags) (link : Link) (s : ℕ) : GroupFlags where
  data := flags.data || !(link.seg s).isCode
  readOnly := flags.readOnly && (link.cls (link.seg s).cls).readOnly
  isdup := flags.isdup || (link.cls (link.seg s).cls).copy

/-- A segment that is packed into a group. -/
def packSeg (link : Link) (g : GroupId) (st : St) (s : ℕ) : St :=
  let st := { st with flags := Function.update st.flags g ((st.flags g).add link s) }
  if st.group s = none then
    { st with
      group := Function.update st.group s (some g)
      leaders := Function.update st.leaders g (st.leaders g ++ [s]) }
  else st

/-- The walk of `PackSegs`, with the segments that it counts. -/
def packWalk (link : Link) (g : GroupId) : List ℕ → ℕ → St → St × List ℕ
  | _, 0, st => (st, [])
  | [], _ + 1, st => (st, [])
  | s :: segs, n + 1, st =>
    if st.group s = none ∨ st.group s = some g then
      let rest := packWalk link g segs n (packSeg link g st s)
      (rest.1, s :: rest.2)
    else packWalk link g segs (n + 1) st

/-- `PackSegs` for the segments from `segs` on. -/
def packSegs (link : Link) (st : St) (segs : List ℕ) (num : ℕ) : St × List ℕ :=
  match num, segs with
  | 0, _ => (st, [])
  | _ + 1, [] => (st, [])
  | n + 1, s :: rest =>
    match st.group s with
    | some g => packWalk link g (s :: rest) (n + 1) st
    | none => packWalk link (.auto s) (s :: rest) (n + 1) (getAutoGroup st (link.seg s).absolute (.auto s))

/-- A run that was packed: the segments that were counted for it, those that were packed, and where it starts. -/
structure Run where
  counted : List ℕ
  packed : List ℕ
  start : ℕ

/-- The variables of `AutoGroupSect`; `num_segs` is the length of `counted`. -/
structure Scan where
  st : St
  packstart : List ℕ
  counted : List ℕ
  size : ℕ
  lastseg : Bool
  limit : ℕ
  start : ℕ
  runs : List Run

/-- The test that ends a run. -/
def endsRun (link : Link) (scan : Scan) (seg : ℕ) : Bool :=
  let newSize := (cAlign scan.size (link.seg seg).align + (link.seg seg).size) % 2 ^ 32
  scan.limit ≤ newSize || newSize < scan.size || scan.lastseg ||
    !canPack link scan.st.group (scan.packstart.headD seg) seg

/-- A run that is packed. -/
def Scan.pack (link : Link) (scan : Scan) : Scan :=
  let packed := packSegs link scan.st scan.packstart scan.counted.length
  { scan with st := packed.1, runs := scan.runs ++ [⟨scan.counted, packed.2, scan.start⟩] }

/-- The first segment of a section. -/
def Scan.first (link : Link) (scan : Scan) (segs : List ℕ) (seg : ℕ) : Scan :=
  if scan.packstart = [] then { scan with limit := getSegGroupPackLimit link seg, packstart := segs } else scan

/-- A segment that is not absolute; `segs` are the segments from it on. -/
def Scan.count (link : Link) (scan : Scan) (segs : List ℕ) (seg : ℕ) : Scan :=
  let alignSize := cAlign scan.size (link.seg seg).align
  if endsRun link scan seg then
    let start := if link.realMode then alignSize % 16 else 0
    { scan.pack link with
      packstart := segs
      counted := [seg]
      start := start
      size := (start + (link.seg seg).size) % 2 ^ 32
      lastseg := (link.seg seg).lastSegment
      limit := getSegGroupPackLimit link seg }
  else
    { scan with
      size := (alignSize + (link.seg seg).size) % 2 ^ 32
      counted := scan.counted ++ [seg]
      lastseg := scan.lastseg || (link.seg seg).lastSegment }

/-- The loop of `AutoGroupSect`. -/
def scanSegs (link : Link) : List ℕ → Scan → Scan
  | [], scan => scan
  | seg :: segs, scan =>
    if (link.seg seg).absolute then
      scanSegs link segs { scan with st := (packSegs link scan.st (seg :: segs) 1).1 }
    else scanSegs link segs ((scan.first link (seg :: segs) seg).count link (seg :: segs) seg)

/-- The start of a section, with the runs of the sections before. -/
def Scan.init (acc : St × List Run) : Scan := ⟨acc.1, [], [], 0, false, 0, 0, acc.2⟩

/-- The segments of a section in the order of `GetNextSeg`. -/
def sectOrder (sect : List (Bool × List ℕ)) : List ℕ := (sect.filter fun cls => !cls.1).flatMap Prod.snd

/-- `AutoGroupSect`. -/
def autoGroupSect (link : Link) (acc : St × List Run) (sect : List (Bool × List ℕ)) : St × List Run :=
  let scan := (scanSegs link (sectOrder sect) (Scan.init acc)).pack link
  (scan.st, scan.runs)

/-- All segments in the order of `WalkLeaders`. -/
def Link.walkOrder (link : Link) : List ℕ := link.sects.flatMap fun sect => sect.flatMap Prod.snd

/-- The segments outside classes with debugging information. -/
def Link.order (link : Link) : List ℕ := link.sects.flatMap sectOrder

/-- `SortGroup`; a group whose link is set is one that is in the new list. -/
def sortGroup (link : Link) (acc : St × List GroupId) (s : ℕ) : St × List GroupId :=
  match acc.1.group s with
  | none => acc
  | some g =>
    if (link.seg s).absolute then acc
    else
      ({ acc.1 with leaders := Function.update acc.1.leaders g (acc.1.leaders g ++ [s]) },
        if g ∈ acc.2 then acc.2 else acc.2 ++ [g])

/-- `SortGroupList`; without a group in the new list it goes through a null pointer. -/
def sortGroupList (link : Link) (st : St) : Option St :=
  if st.groups = [] then some st
  else
    let emptied := { st with leaders := fun g => if g ∈ st.groups then [] else st.leaders g }
    let sorted := link.walkOrder.foldl (sortGroup link) (emptied, [])
    if sorted.2 = [] then none else some { sorted.1 with groups := sorted.2 }

/-- The sections one after the other. -/
def autoGroupSects (link : Link) (st : St) : St × List Run := link.sects.foldl (autoGroupSect link) (st, [])

/-- `AutoGroup`. -/
def autoGroup (link : Link) (st : St) : Option (St × List Run) :=
  (sortGroupList link (autoGroupSects link st).1).map fun sorted => (sorted, (autoGroupSects link st).2)

/-! ## What is asked for -/

/-- Where the segments end when they are put behind each other from `start` on, each at its alignment. -/
def alignedEnd (link : Link) (start : ℕ) : List ℕ → ℕ
  | [] => start
  | s :: segs => alignedEnd link (alignUp start (link.seg s).align + (link.seg s).size) segs

/-- The end of a run; its first segment is at the start. -/
def runEnd (link : Link) (start : ℕ) : List ℕ → ℕ
  | [] => start
  | s :: segs => alignedEnd link (start + (link.seg s).size) segs

/-- The segments that are not absolute. -/
def Link.plain (link : Link) (l : List ℕ) : List ℕ := l.filter fun s => !(link.seg s).absolute

/-- A run is what was counted for it, its segments are in one group and can be packed with the first, and if there is
more than one they end below the limit. -/
structure RunRight (link : Link) (group : ℕ → Option GroupId) (run : Run) : Prop where
  packed : run.packed = run.counted
  together : ∃ g, ∀ s ∈ run.counted, group s = some g
  canPack : ∀ first rest, run.counted = first :: rest → ∀ s ∈ rest, canPack link group first s = true
  size : ∀ first rest, run.counted = first :: rest → rest ≠ [] →
    runEnd link run.start run.counted < getSegGroupPackLimit link first

/-- What is asked for. -/
structure Right (link : Link) (res : St) (runs : List Run) : Prop where
  grouped : ∀ s ∈ link.order, ∃ g, res.group s = some g ∧ ∀ h, (res.leaders h).count s = if h = g then 1 else 0
  order : ∀ s ∈ link.order, ∀ g, res.group s = some g → (res.leaders g).Sublist link.walkOrder
  members : ∀ g, g ∈ res.groups ↔ ∃ s ∈ link.plain link.walkOrder, res.group s = some g
  nodup : res.groups.Nodup
  firsts : (res.groups.filterMap fun g => (res.leaders g).head?).Sublist link.walkOrder
  allRuns : runs.flatMap Run.counted = link.plain link.order
  runs : ∀ run ∈ runs, RunRight link res.group run

/-- What the input is: each segment is once in the classes, segments are in groups of the list, no group has been made
yet, and limits are numbers of 32 bits. -/
structure Init (link : Link) (st : St) : Prop where
  nodup : link.walkOrder.Nodup
  named : ∀ s g, st.group s = some g → g ∈ st.groups
  groups : ∀ g ∈ st.groups, ∃ n, g = .named n
  leaders : ∀ s g, s ∈ st.leaders g → st.group s = some g
  absGroups : st.absGroups = []
  limit : ∀ s, getSegGroupPackLimit link s < 2 ^ 32

/-! ## The condition -/

/-- Where a segment is added to others in a run, they end below 4 GiB. -/
def SegFits (link : Link) (scan : Scan) (seg : ℕ) : Prop :=
  endsRun link scan seg = false → scan.counted ≠ [] → runEnd link scan.start (scan.counted ++ [seg]) < 2 ^ 32

/-- No run wraps in a section. -/
def ScanFits (link : Link) : List ℕ → Scan → Prop
  | [], _ => True
  | seg :: segs, scan =>
    if (link.seg seg).absolute then ScanFits link segs { scan with st := (packSegs link scan.st (seg :: segs) 1).1 }
    else
      SegFits link (scan.first link (seg :: segs) seg) seg ∧
        ScanFits link segs ((scan.first link (seg :: segs) seg).count link (seg :: segs) seg)

/-- No run wraps in the sections. -/
def SectsFit (link : Link) : List (List (Bool × List ℕ)) → St × List Run → Prop
  | [], _ => True
  | sect :: sects, acc =>
    ScanFits link (sectOrder sect) (Scan.init acc) ∧ SectsFit link sects (autoGroupSect link acc sect)

/-- No absolute segment is in a group of the input, where there are groups there is a segment for the list, and no run
wraps. -/
structure Fits (link : Link) (st : St) : Prop where
  absolute : ∀ s ∈ link.order, (link.seg s).absolute = true → st.group s = none
  some : st.groups ≠ [] → ∃ s ∈ link.plain link.walkOrder, s ∈ link.order ∨ st.group s ≠ none
  sizes : SectsFit link link.sects (st, [])

/-! ## Packing -/

theorem packSeg_group (link : Link) (g : GroupId) (st : St) (s t : ℕ) (h : st.group s = none ∨ st.group s = some g) :
    (packSeg link g st s).group t = if t = s then some g else st.group t := by
  unfold packSeg
  dsimp only
  rcases h with h | h
  · rw [if_pos h]
    exact Function.update_apply st.group s (some g) t
  · rw [if_neg (by rw [h]; exact Option.some_ne_none g)]
    split_ifs with hts
    · rw [hts]
      exact h
    · rfl

theorem packSeg_leaders (link : Link) (g : GroupId) (st : St) (s : ℕ) (k : GroupId) :
    (packSeg link g st s).leaders k =
      if k = g ∧ st.group s = none then st.leaders g ++ [s] else st.leaders k := by
  unfold packSeg
  dsimp only
  by_cases h : st.group s = none
  · rw [if_pos h]
    dsimp only
    rw [Function.update_apply]
    by_cases hk : k = g <;> simp [hk, h]
  · rw [if_neg h, if_neg fun hand => h hand.2]

theorem packSeg_lists (link : Link) (g : GroupId) (st : St) (s : ℕ) :
    (packSeg link g st s).groups = st.groups ∧ (packSeg link g st s).absGroups = st.absGroups := by
  unfold packSeg
  dsimp only
  split_ifs <;> exact ⟨rfl, rfl⟩

/-- What a walk of `PackSegs` does when it packs the given segments. -/
structure Packed (g : GroupId) (st st' : St) (members : List ℕ) : Prop where
  group : ∀ t, st'.group t = if t ∈ members then some g else st.group t
  leaders : ∀ k, st'.leaders k = if k = g then st.leaders g ++ members.filter (fun s => st.group s = none)
    else st.leaders k
  groups : st'.groups = st.groups
  absGroups : st'.absGroups = st.absGroups

theorem Packed.refl (g : GroupId) (st : St) : Packed g st st [] where
  group t := by simp
  leaders k := by
    split_ifs with h
    · rw [h]
      simp
    · rfl
  groups := rfl
  absGroups := rfl

/-- The walk packs the plain segments of what it goes over when all others are in other groups. -/
theorem packWalk_spec {link : Link} {g : GroupId} {st : St} {pend rest : List ℕ} (hnodup : pend.Nodup)
    (hplain : ∀ s ∈ link.plain pend, st.group s = none ∨ st.group s = some g)
    (hother : ∀ s ∈ pend, (link.seg s).absolute = true → st.group s ≠ none ∧ st.group s ≠ some g) :
    (packWalk link g (pend ++ rest) (link.plain pend).length st).2 = link.plain pend ∧
      Packed g st (packWalk link g (pend ++ rest) (link.plain pend).length st).1 (link.plain pend) := by
  induction pend generalizing st with
  | nil =>
    have hnil : packWalk link g ([] ++ rest) (link.plain []).length st = (st, []) := by
      cases rest <;> rfl
    rw [hnil]
    exact ⟨rfl, Packed.refl g st⟩
  | cons s pend ih =>
    rw [List.nodup_cons] at hnodup
    by_cases habs : (link.seg s).absolute = true
    · have hp : link.plain (s :: pend) = link.plain pend := List.filter_cons_of_neg (by simp [habs])
      obtain ⟨hn, hg⟩ := hother s (by simp) habs
      rw [hp] at hplain ⊢
      have hskip : packWalk link g (s :: pend ++ rest) (link.plain pend).length st =
          packWalk link g (pend ++ rest) (link.plain pend).length st := by
        cases hlen : (link.plain pend).length with
        | zero => cases hpr : pend ++ rest <;> rfl
        | succ n => exact if_neg (by rw [not_or]; exact ⟨hn, hg⟩)
      rw [hskip]
      exact ih hnodup.2 hplain fun t ht => hother t (List.mem_cons_of_mem _ ht)
    · have hp : link.plain (s :: pend) = s :: link.plain pend := List.filter_cons_of_pos (by simp [habs])
      rw [hp] at hplain ⊢
      have hs := hplain s (by simp)
      have hgroup := packSeg_group link g st s
      have hstep : packWalk link g (s :: pend ++ rest) (s :: link.plain pend).length st =
          ((packWalk link g (pend ++ rest) (link.plain pend).length (packSeg link g st s)).1,
            s :: (packWalk link g (pend ++ rest) (link.plain pend).length (packSeg link g st s)).2) := if_pos hs
      have hne : ∀ t ∈ pend, t ≠ s := fun t ht heq => hnodup.1 (heq ▸ ht)
      obtain ⟨hpacked, hspec⟩ := @ih (packSeg link g st s) hnodup.2
        (fun t ht => by
          rw [hgroup t hs, if_neg (hne t (List.mem_filter.1 ht).1)]
          exact hplain t (List.mem_cons_of_mem _ ht))
        (fun t ht ha => by
          rw [hgroup t hs, if_neg (hne t ht)]
          exact hother t (List.mem_cons_of_mem _ ht) ha)
      rw [hstep]
      refine ⟨by rw [hpacked], ?_, ?_, ?_, ?_⟩
      · intro t
        rw [hspec.group t, hgroup t hs]
        by_cases hts : t = s
        · simp [hts]
        · simp [hts]
      · intro k
        rw [hspec.leaders k, packSeg_leaders, packSeg_leaders]
        have hfilter : (link.plain pend).filter (fun t => (packSeg link g st s).group t = none) =
            (link.plain pend).filter (fun t => st.group t = none) := by
          refine List.filter_congr fun t ht => ?_
          rw [hgroup t hs, if_neg (hne t (List.mem_filter.1 ht).1)]
        rw [hfilter]
        by_cases hk : k = g
        · by_cases hn : st.group s = none <;> simp [hk, hn]
        · simp [hk]
      · rw [hspec.groups]
        exact (packSeg_lists link g st s).1
      · rw [hspec.absGroups]
        exact (packSeg_lists link g st s).2

/-! ## What holds while segments are packed -/

/-- The segments of `done` have got their groups. -/
structure Inv (link : Link) (init st : St) (done : ℕ → Prop) : Prop where
  open_ : ∀ s, ¬ done s → st.group s = init.group s
  absolute : ∀ s, done s → (link.seg s).absolute = true →
    st.group s = some (.auto s) ∧ st.leaders (.auto s) = [s]
  plain : ∀ s, done s → (link.seg s).absolute = false → ∃ g ∈ st.groups, st.group s = some g
  kept : ∀ s g, init.group s = some g → st.group s = some g
  groups : ∀ g ∈ st.groups, g ∈ init.groups ∨ ∃ s, g = .auto s ∧ done s ∧ (link.seg s).absolute = false
  initial : ∀ g ∈ init.groups, g ∈ st.groups
  leaders : ∀ s g, s ∈ st.leaders g → st.group s = some g

theorem Inv.start {link : Link} {init : St} (h : Init link init) : Inv link init init fun _ => False where
  open_ _ _ := rfl
  absolute _ h := h.elim
  plain _ h := h.elim
  kept _ _ h := h
  groups _ hg := .inl hg
  initial _ h := h
  leaders := h.leaders

/-- A segment that is done is in a group. -/
theorem Inv.group_of_done {link : Link} {init st : St} {done : ℕ → Prop} (h : Inv link init st done) {s : ℕ}
    (hs : done s) : ∃ g, st.group s = some g := by
  by_cases habs : (link.seg s).absolute = true
  · exact ⟨_, (h.absolute s hs habs).1⟩
  · obtain ⟨g, -, hg⟩ := h.plain s hs (by simpa using habs)
    exact ⟨g, hg⟩

theorem getAutoGroup_leaders (st : St) (absSeg : Bool) (g k : GroupId) :
    (getAutoGroup st absSeg g).leaders k = if k = g then [] else st.leaders k := by
  unfold getAutoGroup
  exact Function.update_apply st.leaders g [] k

/-- An absolute segment gets a group of its own. -/
theorem packSegs_absolute {link : Link} {init st : St} {done : ℕ → Prop} {s : ℕ} {rest : List ℕ}
    (h : Inv link init st done) (hs : ¬ done s) (hnone : init.group s = none)
    (habs : (link.seg s).absolute = true) :
    Inv link init (packSegs link st (s :: rest) 1).1 (fun t => done t ∨ t = s) ∧
      ∀ t ≠ s, (packSegs link st (s :: rest) 1).1.group t = st.group t := by
  have hst : st.group s = none := (h.open_ s hs).trans hnone
  have hgs : (getAutoGroup st true (.auto s)).group s = none := hst
  have hres : (packSegs link st (s :: rest) 1).1 = packSeg link (.auto s) (getAutoGroup st true (.auto s)) s := by
    unfold packSegs
    simp only [hst]
    rw [habs]
    unfold packWalk
    rw [if_pos (.inl hgs)]
    cases rest <;> rfl
  have hgroup : ∀ t, (packSegs link st (s :: rest) 1).1.group t = if t = s then some (.auto s) else st.group t := by
    intro t
    rw [hres]
    exact packSeg_group link (.auto s) (getAutoGroup st true (.auto s)) s t (.inl hgs)
  have hleaders : ∀ k, (packSegs link st (s :: rest) 1).1.leaders k = if k = .auto s then [s] else st.leaders k := by
    intro k
    rw [hres, packSeg_leaders, getAutoGroup_leaders, getAutoGroup_leaders]
    by_cases hk : k = .auto s <;> simp [hk, hgs]
  have hgroups : (packSegs link st (s :: rest) 1).1.groups = st.groups := by
    rw [hres]
    exact (packSeg_lists link (.auto s) (getAutoGroup st true (.auto s)) s).1
  refine ⟨⟨?_, ?_, ?_, ?_, ?_, ?_, ?_⟩, fun t ht => by rw [hgroup, if_neg ht]⟩
  · intro t ht
    rw [not_or] at ht
    rw [hgroup, if_neg ht.2]
    exact h.open_ t ht.1
  · intro t ht ha
    by_cases hts : t = s
    · subst hts
      exact ⟨by rw [hgroup, if_pos rfl], by rw [hleaders, if_pos rfl]⟩
    · obtain ⟨hg, hl⟩ := h.absolute t (ht.resolve_right hts) ha
      rw [hgroup, if_neg hts, hleaders, if_neg (fun heq => hts (GroupId.auto.inj heq))]
      exact ⟨hg, hl⟩
  · intro t ht ha
    have hts : t ≠ s := by
      rintro rfl
      rw [habs] at ha
      cases ha
    rw [hgroup, if_neg hts, hgroups]
    exact h.plain t (ht.resolve_right hts) ha
  · intro t g ht
    have hts : t ≠ s := by
      rintro rfl
      rw [hnone] at ht
      cases ht
    rw [hgroup, if_neg hts]
    exact h.kept t g ht
  · intro g hg
    rw [hgroups] at hg
    rcases h.groups g hg with hn | ⟨u, hu, hd, hp⟩
    · exact .inl hn
    · exact .inr ⟨u, hu, .inl hd, hp⟩
  · intro g hg
    rw [hgroups]
    exact h.initial g hg
  · intro t g ht
    rw [hleaders] at ht
    split_ifs at ht with hk
    · rw [List.mem_singleton.1 ht, hgroup, if_pos rfl, hk]
    · have hgt := h.leaders t g ht
      have hts : t ≠ s := by
        rintro rfl
        rw [hst] at hgt
        cases hgt
      rw [hgroup, if_neg hts]
      exact hgt

/-- A run is packed into the group of its first segment, or into a new one. -/
theorem packSegs_run {link : Link} {init st : St} {done : ℕ → Prop} {first : ℕ} {pend rest : List ℕ}
    (hinit : Init link init) (h : Inv link init st done) (hnodup : (first :: pend).Nodup)
    (hfirst : (link.seg first).absolute = false) (hopen : ∀ s ∈ link.plain (first :: pend), ¬ done s)
    (habs : ∀ s ∈ first :: pend, (link.seg s).absolute = true → done s)
    (hsame : ∀ s ∈ link.plain (first :: pend), init.group s = init.group first) :
    (packSegs link st (first :: pend ++ rest) (link.plain (first :: pend)).length).2 = link.plain (first :: pend) ∧
      Inv link init (packSegs link st (first :: pend ++ rest) (link.plain (first :: pend)).length).1
        (fun t => done t ∨ t ∈ link.plain (first :: pend)) ∧
      (∃ g, ∀ s ∈ link.plain (first :: pend),
        (packSegs link st (first :: pend ++ rest) (link.plain (first :: pend)).length).1.group s = some g) ∧
      ∀ t, t ∉ link.plain (first :: pend) →
        (packSegs link st (first :: pend ++ rest) (link.plain (first :: pend)).length).1.group t = st.group t := by
  have hin : first ∈ link.plain (first :: pend) := List.mem_filter.2 ⟨by simp, by simp [hfirst]⟩
  have hplainabs : ∀ s ∈ link.plain (first :: pend), (link.seg s).absolute = false := by
    intro s hs
    simpa using (List.mem_filter.1 hs).2
  obtain ⟨n, hn⟩ : ∃ n, (link.plain (first :: pend)).length = n + 1 :=
    ⟨_, (Nat.succ_pred_eq_of_pos (List.length_pos_of_mem hin)).symm⟩
  -- The group, and the state in which the walk starts.
  obtain ⟨g, st₁, hwalk, hg₁, hgroup₁, hleaders₁, hgroups₁, hgin, hauto⟩ :
      ∃ g st₁, packSegs link st (first :: pend ++ rest) (link.plain (first :: pend)).length =
          packWalk link g (first :: pend ++ rest) (link.plain (first :: pend)).length st₁ ∧
        (∀ s ∈ link.plain (first :: pend), st₁.group s = none ∨ st₁.group s = some g) ∧
        st₁.group = st.group ∧ (∀ k, st₁.leaders k = st.leaders k ∨ k = g ∧ g = .auto first ∧ st₁.leaders k = []) ∧
        (∀ k, k ∈ st₁.groups ↔ k ∈ st.groups ∨ k = g) ∧ g ∈ st₁.groups ∧
        (g ∈ init.groups ∨ g = .auto first ∧ init.group first = none) := by
    have hstfirst : st.group first = init.group first := h.open_ first (hopen first hin)
    cases hgf : init.group first with
    | none =>
      refine ⟨.auto first, getAutoGroup st false (.auto first), ?_, ?_, rfl, ?_, ?_, ?_, .inr ⟨rfl, rfl⟩⟩
      · rw [hn, ← hfirst]
        change (match st.group first with
          | some g => packWalk link g (first :: (pend ++ rest)) (n + 1) st
          | none => packWalk link (.auto first) (first :: (pend ++ rest)) (n + 1)
            (getAutoGroup st (link.seg first).absolute (.auto first))) = _
        rw [hstfirst, hgf]
        rfl
      · intro s hs
        exact .inl ((h.open_ s (hopen s hs)).trans ((hsame s hs).trans hgf))
      · intro k
        rw [getAutoGroup_leaders]
        by_cases hk : k = .auto first
        · exact .inr ⟨hk, rfl, by simp [hk]⟩
        · exact .inl (by simp [hk])
      · intro k
        unfold getAutoGroup
        simp
      · unfold getAutoGroup
        simp
    | some g =>
      have hmem : g ∈ init.groups := hinit.named first g hgf
      refine ⟨g, st, ?_, ?_, rfl, fun k => .inl rfl, ?_, h.initial g hmem, .inl hmem⟩
      · rw [hn]
        change (match st.group first with
          | some g => packWalk link g (first :: (pend ++ rest)) (n + 1) st
          | none => packWalk link (.auto first) (first :: (pend ++ rest)) (n + 1)
            (getAutoGroup st (link.seg first).absolute (.auto first))) = _
        rw [hstfirst, hgf]
        rfl
      · intro s hs
        exact .inr ((h.open_ s (hopen s hs)).trans ((hsame s hs).trans hgf))
      · intro k
        constructor
        · exact .inl
        · rintro (hk | rfl)
          · exact hk
          · exact h.initial k hmem
  have hother : ∀ s ∈ first :: pend, (link.seg s).absolute = true → st₁.group s ≠ none ∧ st₁.group s ≠ some g := by
    intro s hs ha
    rw [hgroup₁, (h.absolute s (habs s hs ha) ha).1]
    refine ⟨Option.some_ne_none _, fun heq => ?_⟩
    rcases hauto with hin | ⟨rfl, -⟩
    · obtain ⟨m, rfl⟩ := hinit.groups g hin
      cases heq
    · cases heq
      rw [ha] at hfirst
      cases hfirst
  obtain ⟨hpacked, hspec⟩ := @packWalk_spec _ _ _ _ rest hnodup hg₁ hother
  rw [hwalk]
  generalize hst' : (packWalk link g (first :: pend ++ rest) (link.plain (first :: pend)).length st₁).1 = st' at *
  have hgroup : ∀ t, st'.group t = if t ∈ link.plain (first :: pend) then some g else st.group t := by
    intro t
    rw [hspec.group t, hgroup₁]
  refine ⟨hpacked, ⟨?_, ?_, ?_, ?_, ?_, ?_, ?_⟩, ⟨g, fun s hs => by rw [hgroup, if_pos hs]⟩,
    fun t ht => by rw [hgroup, if_neg ht]⟩
  · intro t ht
    rw [not_or] at ht
    rw [hgroup, if_neg ht.2]
    exact h.open_ t ht.1
  · intro t ht ha
    have hnot : t ∉ link.plain (first :: pend) := fun hmem => by
      rw [hplainabs t hmem] at ha
      cases ha
    obtain ⟨hgt, hl⟩ := h.absolute t (ht.resolve_right hnot) ha
    have hne : GroupId.auto t ≠ g := by
      rintro rfl
      rcases hauto with hin | ⟨hm, -⟩
      · obtain ⟨m, hm⟩ := hinit.groups _ hin
        cases hm
      · cases hm
        rw [ha] at hfirst
        cases hfirst
    rw [hgroup, if_neg hnot, hspec.leaders, if_neg hne]
    rcases hleaders₁ (.auto t) with hl₁ | ⟨hk, -⟩
    · exact ⟨hgt, hl₁.trans hl⟩
    · exact absurd hk hne
  · intro t ht ha
    rw [hgroup, hspec.groups]
    split_ifs with hmem
    · exact ⟨g, hgin, rfl⟩
    · obtain ⟨k, hk, hkt⟩ := h.plain t (ht.resolve_right hmem) ha
      exact ⟨k, (hgroups₁ k).2 (.inl hk), hkt⟩
  · intro t k ht
    rw [hgroup]
    split_ifs with hmem
    · rw [hsame t hmem] at ht
      have hgt := hg₁ t hmem
      rw [hgroup₁, h.open_ t (hopen t hmem), hsame t hmem, ht] at hgt
      rcases hgt with hgt | hgt
      · cases hgt
      · exact hgt.symm
    · exact h.kept t k ht
  · intro k hk
    rw [hspec.groups, hgroups₁] at hk
    rcases hk with hk | rfl
    · rcases h.groups k hk with hnm | ⟨u, hu, hd, hp⟩
      · exact .inl hnm
      · exact .inr ⟨u, hu, .inl hd, hp⟩
    · rcases hauto with hnm | ⟨hk, -⟩
      · exact .inl hnm
      · exact .inr ⟨first, hk, .inr hin, hfirst⟩
  · intro k hk
    rw [hspec.groups, hgroups₁]
    exact .inl (h.initial k hk)
  · intro t k ht
    rw [hspec.leaders] at ht
    have hold : t ∈ st₁.leaders k → st.group t = some k := by
      intro hmem
      rcases hleaders₁ k with hl | ⟨-, -, hl⟩
      · rw [hl] at hmem
        exact h.leaders t k hmem
      · rw [hl] at hmem
        cases hmem
    split_ifs at ht with hk
    · subst hk
      rw [List.mem_append] at ht
      rcases ht with ht | ht
      · rw [hgroup, hold ht]
        split_ifs <;> rfl
      · rw [hgroup, if_pos (List.mem_filter.1 ht).1]
    · have hgt := hold ht
      rw [hgroup]
      split_ifs with hmem
      · rcases hg₁ t hmem with hn' | hs'
        · rw [hgroup₁, hgt] at hn'
          cases hn'
        · rw [hgroup₁, hgt] at hs'
          exact absurd (Option.some.inj hs') hk
      · exact hgt

/-! ## The scan -/

theorem Inv.congr {link : Link} {init st : St} {done done' : ℕ → Prop} (h : Inv link init st done)
    (hiff : ∀ t, done t ↔ done' t) : Inv link init st done' := by
  have heq : done = done' := funext fun t => propext (hiff t)
  exact heq ▸ h

theorem canPack_iff (link : Link) (group : ℕ → Option GroupId) (one two : ℕ) :
    canPack link group one two = true ↔ canPack link (fun _ => none) one two = true ∧ group one = group two := by
  unfold canPack
  dsimp only
  split_ifs <;> simp_all

theorem RunRight.congr {link : Link} {group group' : ℕ → Option GroupId} {run : Run} (h : RunRight link group run)
    (hsame : ∀ s ∈ run.counted, group' s = group s) : RunRight link group' run where
  packed := h.packed
  together := by
    obtain ⟨g, hg⟩ := h.together
    exact ⟨g, fun s hs => (hsame s hs).trans (hg s hs)⟩
  canPack first rest hcounted s hs := by
    have hold := (canPack_iff _ _ _ _).1 (h.canPack first rest hcounted s hs)
    refine (canPack_iff _ _ _ _).2 ⟨hold.1, ?_⟩
    rw [hsame first (by rw [hcounted]; simp), hsame s (by rw [hcounted]; exact List.mem_cons_of_mem _ hs)]
    exact hold.2
  size := h.size

theorem alignedEnd_append (link : Link) (start : ℕ) (l m : List ℕ) :
    alignedEnd link start (l ++ m) = alignedEnd link (alignedEnd link start l) m := by
  induction l generalizing start with
  | nil => rfl
  | cons s l ih => exact ih _

theorem runEnd_append {link : Link} {start : ℕ} {l : List ℕ} (hne : l ≠ []) (s : ℕ) :
    runEnd link start (l ++ [s]) = alignUp (runEnd link start l) (link.seg s).align + (link.seg s).size := by
  obtain ⟨a, l, rfl⟩ := List.exists_cons_of_ne_nil hne
  rw [List.cons_append, runEnd, alignedEnd_append]
  rfl

/-- The segments from the first one of the run on, with what is known of them. -/
structure OpenRun (link : Link) (init : St) (doneSeg rest : List ℕ) (scan : Scan) (first : ℕ) (pend : List ℕ) :
    Prop where
  packstart : scan.packstart = first :: pend ++ rest
  suffix : first :: pend <:+ doneSeg
  plain : (link.seg first).absolute = false
  counted : scan.counted = link.plain (first :: pend)
  limit : scan.limit = getSegGroupPackLimit link first
  same : ∀ s ∈ scan.counted, init.group s = init.group first
  canPack : ∀ s ∈ link.plain pend, canPack link (fun _ => none) first s = true
  size : runEnd link scan.start scan.counted < 2 ^ 32 → scan.size = runEnd link scan.start scan.counted
  below : link.plain pend ≠ [] → runEnd link scan.start scan.counted < getSegGroupPackLimit link first

/-- Nothing has been counted. -/
structure NoRun (scan : Scan) : Prop where
  packstart : scan.packstart = []
  counted : scan.counted = []
  size : scan.size = 0
  start : scan.start = 0

/-- What holds in the scan of a section, of which `doneSeg` is done and `rest` is left. -/
structure ScanInv (link : Link) (init : St) (doneSeg rest : List ℕ) (scan : Scan) : Prop where
  st : Inv link init scan.st fun t => t ∈ doneSeg ∧ t ∉ scan.counted
  run : NoRun scan ∨ ∃ first pend, OpenRun link init doneSeg rest scan first pend
  all : scan.runs.flatMap Run.counted ++ scan.counted = link.plain doneSeg
  runs : ∀ run ∈ scan.runs, RunRight link scan.st.group run

/-- What holds when what was counted has been packed. -/
structure PackedInv (link : Link) (init : St) (doneSeg : List ℕ) (st : St) (runs : List Run) :
    Prop where
  inv : Inv link init st fun t => t ∈ doneSeg
  all : runs.flatMap Run.counted = link.plain doneSeg
  runs : ∀ run ∈ runs, RunRight link st.group run

theorem PackedInv.start {link : Link} {init st : St} {doneSeg : List ℕ} {runs : List Run}
    (h : PackedInv link init doneSeg st runs) (rest : List ℕ) :
    ScanInv link init doneSeg rest (Scan.init (st, runs)) where
  st := h.inv.congr fun t => by simp [Scan.init]
  run := .inl ⟨rfl, rfl, rfl, rfl⟩
  all := (List.append_nil _).trans h.all
  runs := h.runs

theorem ScanInv.pack {link : Link} {init : St} {doneSeg rest : List ℕ} {scan : Scan}
    (hinit : Init link init) (h : ScanInv link init doneSeg rest scan) (hnodup : doneSeg.Nodup) :
    PackedInv link init doneSeg (scan.pack link).st (scan.pack link).runs ∧
      ∀ t, t ∉ doneSeg → (scan.pack link).st.group t = scan.st.group t := by
  have hcountedOf : ∀ s ∈ scan.counted, s ∈ doneSeg := by
    intro s hs
    have hmem : s ∈ link.plain doneSeg := h.all ▸ List.mem_append_right _ hs
    exact (List.mem_filter.1 hmem).1
  have hall : (scan.runs ++ [(⟨scan.counted, (packSegs link scan.st scan.packstart scan.counted.length).2,
      scan.start⟩ : Run)]).flatMap Run.counted = link.plain doneSeg := by
    rw [List.flatMap_append, ← h.all]
    simp
  rcases h.run with hno | ⟨first, pend, hopen⟩
  · have hnone : packSegs link scan.st scan.packstart scan.counted.length = (scan.st, []) := by
      rw [hno.counted]
      rfl
    unfold Scan.pack
    rw [hnone] at hall ⊢
    refine ⟨⟨h.st.congr fun t => by simp [hno.counted], hall, fun run hrun => ?_⟩, fun t _ => rfl⟩
    rcases List.mem_append.1 hrun with hrun | hrun
    · exact h.runs run hrun
    · rw [List.mem_singleton.1 hrun, hno.counted]
      exact ⟨rfl, ⟨.auto 0, by simp⟩, by simp, by simp⟩
  · have hsuffix := hopen.suffix
    obtain ⟨hpacked, hinv, htogether, hothers⟩ := @packSegs_run _ _ _ _ _ _ rest hinit h.st
      (hnodup.sublist hsuffix.sublist) hopen.plain
      (fun s hs hdone => by
        rw [← hopen.counted] at hs
        exact hdone.2 hs)
      (fun s hs ha => ⟨hsuffix.subset hs, fun hmem => by
        rw [hopen.counted] at hmem
        simp [Link.plain, ha] at hmem⟩)
      (fun s hs => hopen.same s (hopen.counted ▸ hs))
    rw [← hopen.counted, ← hopen.packstart] at hpacked hinv htogether hothers
    have hrun : RunRight link (packSegs link scan.st scan.packstart scan.counted.length).1.group
        ⟨scan.counted, (packSegs link scan.st scan.packstart scan.counted.length).2, scan.start⟩ := by
      have hcons : scan.counted = first :: link.plain pend := by
        rw [hopen.counted]
        exact List.filter_cons_of_pos (by simp [hopen.plain])
      refine ⟨hpacked, htogether, fun f r hfr s hs => ?_, fun f r hfr hr => ?_⟩
      · dsimp only at hfr
        rw [hcons] at hfr
        obtain ⟨rfl, rfl⟩ := List.cons.inj hfr
        obtain ⟨g, hg⟩ := htogether
        refine (canPack_iff _ _ _ _).2 ⟨hopen.canPack s hs, ?_⟩
        rw [hg first (by rw [hcons]; simp), hg s (by rw [hcons]; exact List.mem_cons_of_mem _ hs)]
      · dsimp only at hfr ⊢
        have hcons' := hcons
        rw [hfr] at hcons'
        obtain ⟨rfl, rfl⟩ := List.cons.inj hcons'
        exact hopen.below hr
    unfold Scan.pack
    refine ⟨⟨hinv.congr fun t => ?_, hall, fun run hmem => ?_⟩,
      fun t ht => hothers t fun hmem => ht (hcountedOf t hmem)⟩
    · constructor
      · rintro (⟨hd, -⟩ | hc)
        · exact hd
        · exact hcountedOf t hc
      · intro hd
        by_cases hc : t ∈ scan.counted
        · exact .inr hc
        · exact .inl ⟨hd, hc⟩
    · rcases List.mem_append.1 hmem with hmem | hmem
      · refine (h.runs run hmem).congr fun s hs => hothers s fun hc => ?_
        -- A segment of an earlier run is not counted again.
        have hnd : (scan.runs.flatMap Run.counted ++ scan.counted).Nodup := by
          rw [h.all]
          exact hnodup.filter _
        exact (List.nodup_append.1 hnd).2.2 s (List.mem_flatMap.2 ⟨run, hmem, hs⟩) s hc rfl
      · rw [List.mem_singleton.1 hmem]
        exact hrun

theorem plain_append (link : Link) (l m : List ℕ) : link.plain (l ++ m) = link.plain l ++ link.plain m :=
  List.filter_append ..

theorem plain_singleton {link : Link} {s : ℕ} (h : (link.seg s).absolute = false) : link.plain [s] = [s] := by
  simp [Link.plain, h]

theorem plain_singleton_absolute {link : Link} {s : ℕ} (h : (link.seg s).absolute = true) : link.plain [s] = [] := by
  simp [Link.plain, h]

/-- The run that starts with a segment. -/
theorem PackedInv.newRun {link : Link} {init st : St} {doneSeg rest : List ℕ} {runs : List Run}
    {s : ℕ} (h : PackedInv link init doneSeg st runs) (hs : s ∉ doneSeg)
    (hplain : (link.seg s).absolute = false) (start : ℕ) (lastseg : Bool) :
    ScanInv link init (doneSeg ++ [s]) rest
      ⟨st, s :: rest, [s], (start + (link.seg s).size) % 2 ^ 32, lastseg, getSegGroupPackLimit link s, start,
        runs⟩ where
  st := h.inv.congr fun t => by
    simp only [List.mem_append, List.mem_singleton]
    constructor
    · exact fun hd => ⟨.inl hd, fun heq => hs (heq ▸ hd)⟩
    · rintro ⟨hd | hd, hne⟩
      · exact hd
      · exact absurd hd hne
  run := .inr ⟨s, [], {
    packstart := rfl
    suffix := List.suffix_append doneSeg [s]
    plain := hplain
    counted := (plain_singleton hplain).symm
    limit := rfl
    same := fun t ht => by rw [List.mem_singleton.1 ht]
    canPack := by simp [Link.plain]
    size := fun hlt => Nat.mod_eq_of_lt hlt
    below := fun hne => absurd rfl hne }⟩
  all := by
    rw [plain_append, plain_singleton hplain, h.all]
  runs := h.runs

theorem ScanInv.absolute {link : Link} {init : St} {doneSeg rest : List ℕ} {scan : Scan} {s : ℕ}
    (h : ScanInv link init doneSeg (s :: rest) scan) (hs : s ∉ doneSeg)
    (hnone : init.group s = none) (habs : (link.seg s).absolute = true) :
    ScanInv link init (doneSeg ++ [s]) rest
      { scan with st := (packSegs link scan.st (s :: rest) 1).1 } := by
  have hcounted : s ∉ scan.counted := fun hmem => by
    have hmem' : s ∈ link.plain doneSeg := h.all ▸ List.mem_append_right _ hmem
    exact hs (List.mem_filter.1 hmem').1
  obtain ⟨hinv, hother⟩ := @packSegs_absolute _ _ _ _ _ rest h.st (fun hd => hs hd.1) hnone habs
  refine ⟨hinv.congr fun t => ?_, ?_, ?_, fun run hrun => (h.runs run hrun).congr fun t ht => hother t ?_⟩
  · simp only [List.mem_append, List.mem_singleton]
    constructor
    · rintro (⟨hd, hc⟩ | rfl)
      · exact ⟨.inl hd, hc⟩
      · exact ⟨.inr rfl, hcounted⟩
    · rintro ⟨hd | rfl, hc⟩
      · exact .inl ⟨hd, hc⟩
      · exact .inr rfl
  · rcases h.run with hno | ⟨first, pend, hopen⟩
    · exact .inl ⟨hno.packstart, hno.counted, hno.size, hno.start⟩
    · have hpend : link.plain (pend ++ [s]) = link.plain pend := by
        rw [plain_append, plain_singleton_absolute habs, List.append_nil]
      refine .inr ⟨first, pend ++ [s], {
        packstart := by simp [hopen.packstart]
        suffix := ?_
        plain := hopen.plain
        counted := ?_
        limit := hopen.limit
        same := hopen.same
        canPack := by rw [hpend]; exact hopen.canPack
        size := hopen.size
        below := by rw [hpend]; exact hopen.below }⟩
      · obtain ⟨front, hfront⟩ := hopen.suffix
        exact ⟨front, by rw [← hfront]; simp⟩
      · rw [← List.cons_append, plain_append, plain_singleton_absolute habs, List.append_nil]
        exact hopen.counted
  · rw [plain_append, plain_singleton_absolute habs, List.append_nil]
    exact h.all
  · rintro rfl
    have hmem : t ∈ link.plain doneSeg := h.all ▸ List.mem_append_left _ (List.mem_flatMap.2 ⟨run, hrun, ht⟩)
    exact hs (List.mem_filter.1 hmem).1

theorem cAlign_zero (align : ℕ) : cAlign 0 align = 0 := by
  unfold cAlign
  simp

theorem ScanInv.plain {link : Link} {init : St} {doneSeg rest : List ℕ} {scan : Scan} {s : ℕ}
    (hinit : Init link init) (h : ScanInv link init doneSeg (s :: rest) scan) (hnodup : doneSeg.Nodup)
    (hs : s ∉ doneSeg)
    (hplain : (link.seg s).absolute = false) (hfits : SegFits link (scan.first link (s :: rest) s) s) :
    ScanInv link init (doneSeg ++ [s]) rest ((scan.first link (s :: rest) s).count link (s :: rest) s) := by
  obtain ⟨hpacked, -⟩ := h.pack hinit hnodup
  rcases h.run with hno | ⟨first, pend, hopen⟩
  · have hfirst : scan.first link (s :: rest) s =
        { scan with limit := getSegGroupPackLimit link s, packstart := s :: rest } := if_pos hno.packstart
    unfold Scan.count
    dsimp only
    by_cases hends : endsRun link (scan.first link (s :: rest) s) s = true
    · rw [if_pos hends]
      have hpack : ((scan.first link (s :: rest) s).pack link).st = (scan.pack link).st ∧
          ((scan.first link (s :: rest) s).pack link).runs = (scan.pack link).runs := by
        rw [hfirst]
        unfold Scan.pack
        rw [hno.counted]
        exact ⟨rfl, rfl⟩
      rw [hpack.1, hpack.2]
      exact hpacked.newRun hs hplain _ _
    · rw [if_neg hends, hfirst]
      have hsame : PackedInv link init doneSeg scan.st scan.runs :=
        ⟨h.st.congr fun t => by simp [hno.counted], by simpa [hno.counted] using h.all, h.runs⟩
      have hnew := @PackedInv.newRun _ _ _ _ rest _ _ hsame hs hplain 0 (scan.lastseg || (link.seg s).lastSegment)
      dsimp only
      rw [hno.counted, hno.size, hno.start, cAlign_zero]
      exact hnew
  · have hne : scan.packstart ≠ [] := by
      rw [hopen.packstart]
      exact List.cons_ne_nil _ _
    have hfirst : scan.first link (s :: rest) s = scan := if_neg hne
    rw [hfirst] at hfits ⊢
    unfold Scan.count
    dsimp only
    by_cases hends : endsRun link scan s = true
    · rw [if_pos hends]
      exact hpacked.newRun hs hplain _ _
    · rw [if_neg hends]
      have hcons : scan.counted = first :: link.plain pend := by
        rw [hopen.counted]
        exact List.filter_cons_of_pos (by simp [hopen.plain])
      have hcne : scan.counted ≠ [] := by
        rw [hcons]
        exact List.cons_ne_nil _ _
      have hends' : endsRun link scan s = false := by simpa using hends
      have hlt := hfits hends' hcne
      rw [runEnd_append hcne] at hlt
      have hup := RealMode.le_alignUp (runEnd link scan.start scan.counted) (link.seg s).align
      have hsize : scan.size = runEnd link scan.start scan.counted := hopen.size (by omega)
      have halign : cAlign scan.size (link.seg s).align =
          alignUp (runEnd link scan.start scan.counted) (link.seg s).align := by
        rw [hsize]
        exact RealMode.cAlign_eq (by omega)
      have hnew : (cAlign scan.size (link.seg s).align + (link.seg s).size) % 2 ^ 32 =
          runEnd link scan.start (scan.counted ++ [s]) := by
        rw [halign, runEnd_append hcne]
        exact Nat.mod_eq_of_lt hlt
      unfold endsRun at hends'
      rw [hnew] at hends' ⊢
      simp only [Bool.or_eq_false_iff, decide_eq_false_iff_not, not_le, Bool.not_eq_false'] at hends'
      obtain ⟨⟨⟨hlimit, -⟩, -⟩, hcan⟩ := hends'
      have hhead : scan.packstart.headD s = first := by
        rw [hopen.packstart]
        rfl
      rw [hhead] at hcan
      obtain ⟨hstatic, hgroups⟩ := (canPack_iff _ _ _ _).1 hcan
      have hopenS : scan.st.group s = init.group s :=
        h.st.open_ s fun hd => hs hd.1
      have hopenF : scan.st.group first = init.group first := by
        refine h.st.open_ first fun hd => hd.2 ?_
        rw [hcons]
        simp
      have hpend : link.plain (pend ++ [s]) = link.plain pend ++ [s] := by
        rw [plain_append, plain_singleton hplain]
      refine ⟨h.st.congr fun t => ?_, .inr ⟨first, pend ++ [s], ?_⟩, ?_, h.runs⟩
      · simp only [List.mem_append, List.mem_singleton, not_or]
        constructor
        · rintro ⟨hd, hc⟩
          exact ⟨.inl hd, hc, fun heq => hs (heq ▸ hd)⟩
        · rintro ⟨hd | hd, hc, hne'⟩
          · exact ⟨hd, hc⟩
          · exact absurd hd hne'
      · exact {
          packstart := by simp [hopen.packstart]
          suffix := by
            obtain ⟨front, hfront⟩ := hopen.suffix
            exact ⟨front, by rw [← hfront]; simp⟩
          plain := hopen.plain
          counted := by
            rw [← List.cons_append, plain_append, plain_singleton hplain, ← hopen.counted]
          limit := hopen.limit
          same := fun t ht => by
            rcases List.mem_append.1 ht with ht | ht
            · exact hopen.same t ht
            · rw [List.mem_singleton.1 ht, ← hopenS, ← hgroups, hopenF]
          canPack := fun t ht => by
            rw [hpend] at ht
            rcases List.mem_append.1 ht with ht | ht
            · exact hopen.canPack t ht
            · rw [List.mem_singleton.1 ht]
              exact hstatic
          size := fun _ => rfl
          below := fun _ => by
            rw [← hopen.limit]
            exact hlimit }
      · dsimp only
        rw [plain_append, plain_singleton hplain, ← h.all, List.append_assoc]

/-- The scan of a section. -/
theorem ScanInv.scanSegs {link : Link} {init : St} {doneSeg rest : List ℕ} {scan : Scan}
    (hinit : Init link init) (h : ScanInv link init doneSeg rest scan) (hnodup : (doneSeg ++ rest).Nodup)
    (hnone : ∀ s ∈ rest, (link.seg s).absolute = true → init.group s = none) (hfits : ScanFits link rest scan) :
    ScanInv link init (doneSeg ++ rest) [] (AutoGroup.scanSegs link rest scan) := by
  induction rest generalizing doneSeg scan with
  | nil =>
    rw [List.append_nil]
    exact h
  | cons s rest ih =>
    have hs : s ∉ doneSeg := fun hmem => (List.nodup_append.1 hnodup).2.2 s hmem s (by simp) rfl
    have happ : doneSeg ++ s :: rest = doneSeg ++ [s] ++ rest := by simp
    rw [happ] at hnodup ⊢
    rw [AutoGroup.scanSegs]
    rw [ScanFits] at hfits
    by_cases habs : (link.seg s).absolute = true
    · rw [if_pos habs] at hfits ⊢
      exact ih (h.absolute hs (hnone s (by simp) habs) habs) hnodup
        (fun t ht => hnone t (List.mem_cons_of_mem _ ht)) hfits
    · rw [if_neg habs] at hfits ⊢
      have hfront : doneSeg.Nodup := (List.nodup_append.1 (List.nodup_append.1 hnodup).1).1
      exact ih (h.plain hinit hfront hs (by simpa using habs) hfits.1)
        hnodup (fun t ht => hnone t (List.mem_cons_of_mem _ ht)) hfits.2

theorem autoGroupSect_spec {link : Link} {init : St} {doneSeg : List ℕ} {acc : St × List Run}
    {sect : List (Bool × List ℕ)} (hinit : Init link init) (h : PackedInv link init doneSeg acc.1 acc.2)
    (hnodup : (doneSeg ++ sectOrder sect).Nodup)
    (hnone : ∀ s ∈ sectOrder sect, (link.seg s).absolute = true → init.group s = none)
    (hfits : ScanFits link (sectOrder sect) (Scan.init acc)) :
    PackedInv link init (doneSeg ++ sectOrder sect) (autoGroupSect link acc sect).1
      (autoGroupSect link acc sect).2 :=
  (((h.start (sectOrder sect)).scanSegs hinit hnodup hnone hfits).pack hinit hnodup).1

/-- The sections one after the other. -/
theorem autoGroupSects_spec {link : Link} {init : St} {doneSeg : List ℕ} {acc : St × List Run}
    {sects : List (List (Bool × List ℕ))} (hinit : Init link init) (h : PackedInv link init doneSeg acc.1 acc.2)
    (hnodup : (doneSeg ++ sects.flatMap sectOrder).Nodup)
    (hnone : ∀ s ∈ sects.flatMap sectOrder, (link.seg s).absolute = true → init.group s = none)
    (hfits : SectsFit link sects acc) :
    PackedInv link init (doneSeg ++ sects.flatMap sectOrder) (sects.foldl (autoGroupSect link) acc).1
      (sects.foldl (autoGroupSect link) acc).2 := by
  induction sects generalizing doneSeg acc with
  | nil =>
    rw [List.flatMap_nil, List.append_nil]
    exact h
  | cons sect sects ih =>
    rw [List.flatMap_cons] at hnodup hnone ⊢
    rw [← List.append_assoc] at hnodup ⊢
    rw [SectsFit] at hfits
    exact ih (autoGroupSect_spec hinit h (List.nodup_append.1 hnodup).1
      (fun s hs => hnone s (List.mem_append_left _ hs)) hfits.1) hnodup
      (fun s hs => hnone s (List.mem_append_right _ hs)) hfits.2

/-! ## Sorting -/

theorem order_sublist (link : Link) : link.order.Sublist link.walkOrder := by
  unfold Link.order Link.walkOrder
  induction link.sects with
  | nil => exact .slnil
  | cons sect sects ih =>
    rw [List.flatMap_cons, List.flatMap_cons]
    refine List.Sublist.append ?_ ih
    unfold sectOrder
    induction sect with
    | nil => exact .slnil
    | cons cls sect ih =>
      by_cases hdebug : cls.1 = true
      · rw [List.filter_cons_of_neg (by simp [hdebug]), List.flatMap_cons]
        exact ih.trans (List.sublist_append_right _ _)
      · rw [List.filter_cons_of_pos (by simp [hdebug]), List.flatMap_cons, List.flatMap_cons]
        exact List.Sublist.append (List.Sublist.refl _) ih

/-- The segments of a group among some segments. -/
def segsOf (link : Link) (st : St) (seen : List ℕ) (g : GroupId) : List ℕ :=
  (link.plain seen).filter fun s => st.group s = some g

theorem mem_segsOf {link : Link} {st : St} {seen : List ℕ} {g : GroupId} {s : ℕ} :
    s ∈ segsOf link st seen g ↔ s ∈ link.plain seen ∧ st.group s = some g := by
  simp [segsOf]

theorem segsOf_append_self {link : Link} {st : St} (seen : List ℕ) {g : GroupId} {s : ℕ}
    (hplain : (link.seg s).absolute = false) (hg : st.group s = some g) :
    segsOf link st (seen ++ [s]) g = segsOf link st seen g ++ [s] := by
  unfold segsOf
  rw [plain_append, plain_singleton hplain, List.filter_append]
  simp [hg]

theorem segsOf_append_other {link : Link} {st : St} (seen : List ℕ) {g : GroupId} {s : ℕ}
    (h : (link.seg s).absolute = true ∨ st.group s ≠ some g) :
    segsOf link st (seen ++ [s]) g = segsOf link st seen g := by
  unfold segsOf
  rw [plain_append, List.filter_append]
  rcases h with habs | hg
  · rw [plain_singleton_absolute habs, List.filter_nil, List.append_nil]
  · by_cases habs : (link.seg s).absolute = true
    · rw [plain_singleton_absolute habs, List.filter_nil, List.append_nil]
    · rw [plain_singleton (by simpa using habs)]
      simp [hg]

/-- What `SortGroup` has done for the segments that it has seen. -/
structure Sorted (link : Link) (st : St) (seen : List ℕ) (acc : St × List GroupId) : Prop where
  group : acc.1.group = st.group
  leaders : ∀ g, acc.1.leaders g = st.leaders g ++ segsOf link st seen g
  members : ∀ g, g ∈ acc.2 ↔ segsOf link st seen g ≠ []
  nodup : acc.2.Nodup
  firsts : ∃ heads : List ℕ, heads.Sublist seen ∧
    List.Forall₂ (fun g s => (segsOf link st seen g).head? = some s) acc.2 heads

/-- A segment that is in no group of the list changes nothing. -/
theorem Sorted.skip {link : Link} {st : St} {seen : List ℕ} {acc : St × List GroupId} (h : Sorted link st seen acc)
    {s : ℕ} (hs : (link.seg s).absolute = true ∨ st.group s = none) : Sorted link st (seen ++ [s]) acc := by
  have hsame : ∀ g, segsOf link st (seen ++ [s]) g = segsOf link st seen g := by
    intro g
    refine segsOf_append_other seen (hs.imp_right fun hn => ?_)
    rw [hn]
    exact (Option.some_ne_none g).symm
  obtain ⟨heads, hsub, hheads⟩ := h.firsts
  refine ⟨h.group, fun g => ?_, fun g => ?_, h.nodup, heads, hsub.trans (List.sublist_append_left _ _), ?_⟩
  · rw [hsame]
    exact h.leaders g
  · rw [hsame]
    exact h.members g
  · simpa only [hsame] using hheads

theorem Sorted.step {link : Link} {st : St} {seen : List ℕ} {acc : St × List GroupId} (h : Sorted link st seen acc)
    (s : ℕ) : Sorted link st (seen ++ [s]) (sortGroup link acc s) := by
  unfold sortGroup
  rw [h.group]
  cases hg : st.group s with
  | none => exact h.skip (.inr hg)
  | some g =>
    dsimp only
    by_cases habs : (link.seg s).absolute = true
    · rw [if_pos habs]
      exact h.skip (.inl habs)
    rw [if_neg habs]
    have hself := segsOf_append_self seen (by simpa using habs) hg
    have hother : ∀ k, k ≠ g → segsOf link st (seen ++ [s]) k = segsOf link st seen k := by
      intro k hk
      refine segsOf_append_other seen (.inr fun heq => hk ?_)
      rw [hg] at heq
      exact (Option.some.inj heq).symm
    obtain ⟨heads, hsub, hheads⟩ := h.firsts
    -- The heads of groups that have segments already stay.
    have hkept : List.Forall₂ (fun k t => (segsOf link st (seen ++ [s]) k).head? = some t) acc.2 heads := by
      refine hheads.imp fun k t ht => ?_
      by_cases hk : k = g
      · rw [hk] at ht ⊢
        rw [hself, List.head?_append, ht]
        rfl
      · rw [hother k hk]
        exact ht
    refine ⟨h.group, fun k => ?_, fun k => ?_, ?_, ?_⟩
    · by_cases hk : k = g
      · rw [hk, hself]
        refine (Function.update_self g _ acc.1.leaders).trans ?_
        rw [h.leaders g, List.append_assoc]
      · rw [hother k hk]
        exact (Function.update_of_ne hk _ acc.1.leaders).trans (h.leaders k)
    · by_cases hk : k = g
      · rw [hk, hself]
        split_ifs with hmem <;> simp [hmem]
      · rw [hother k hk, ← h.members k]
        split_ifs with hmem <;> simp [hk]
    · dsimp only
      split_ifs with hmem
      · exact h.nodup
      · exact List.nodup_append.2 ⟨h.nodup, List.nodup_singleton g, fun a ha b hb heq => by
          rw [List.mem_singleton.1 hb] at heq
          exact hmem (heq ▸ ha)⟩
    · dsimp only
      split_ifs with hmem
      · exact ⟨heads, hsub.trans (List.sublist_append_left _ _), hkept⟩
      · have hempty : segsOf link st seen g = [] := by
          by_contra hne
          exact hmem ((h.members g).2 hne)
        refine ⟨heads ++ [s], List.Sublist.append hsub (List.Sublist.refl _), ?_⟩
        refine List.rel_append hkept (.cons ?_ .nil)
        rw [hself, hempty]
        rfl

theorem sortGroup_all (link : Link) (st : St) (order : List ℕ) :
    Sorted link st order (order.foldl (sortGroup link) (st, [])) := by
  have hrun : ∀ seen acc, Sorted link st seen acc →
      Sorted link st (seen ++ order) (order.foldl (sortGroup link) acc) := by
    induction order with
    | nil =>
      intro seen acc h
      rw [List.append_nil]
      exact h
    | cons s order ih =>
      intro seen acc h
      have hnext := ih (seen ++ [s]) _ (h.step s)
      rw [List.append_assoc] at hnext
      exact hnext
  have hstart : Sorted link st [] (st, []) :=
    ⟨rfl, fun g => (List.append_nil _).symm, fun g => by simp [segsOf, Link.plain], List.nodup_nil, [], .slnil, .nil⟩
  exact hrun [] (st, []) hstart

/-- The heads of the groups of the list are in the order of the segments. -/
theorem Sorted.firsts_sublist {link : Link} {st : St} {seen : List ℕ} {acc : St × List GroupId}
    (h : Sorted link st seen acc) (hempty : ∀ g ∈ acc.2, st.leaders g = []) :
    (acc.2.filterMap fun g => (acc.1.leaders g).head?).Sublist seen := by
  obtain ⟨heads, hsub, hheads⟩ := h.firsts
  have heq : (acc.2.filterMap fun g => (acc.1.leaders g).head?) = heads := by
    clear hsub
    have hleaders : ∀ g ∈ acc.2, acc.1.leaders g = segsOf link st seen g := by
      intro g hg
      rw [h.leaders g, hempty g hg, List.nil_append]
    revert hleaders
    generalize acc.2 = l at hheads
    intro hleaders
    induction hheads with
    | nil => rfl
    | cons hhead _ ih =>
      rw [List.filterMap_cons, hleaders _ (by simp), hhead]
      exact congrArg _ (ih fun k hk => hleaders k (List.mem_cons_of_mem _ hk))
  rw [heq]
  exact hsub

/-! ## The condition is enough -/

theorem PackedInv.empty {link : Link} {init : St} (hinit : Init link init) : PackedInv link init [] init [] :=
  ⟨(Inv.start hinit).congr fun t => by simp, rfl, by simp⟩

/-- An absolute segment is alone in its group, before and after sorting. -/
theorem Inv.count_absolute {link : Link} {init st : St} {done : ℕ → Prop} (h : Inv link init st done) {s : ℕ}
    (hs : done s) (habs : (link.seg s).absolute = true) (k : GroupId) :
    (st.leaders k).count s = if k = .auto s then 1 else 0 := by
  obtain ⟨hg, hl⟩ := h.absolute s hs habs
  split_ifs with hk
  · rw [hk, hl]
    simp
  · refine List.count_eq_zero.2 fun hmem => hk ?_
    have := h.leaders s k hmem
    rw [hg] at this
    exact (Option.some.inj this).symm

theorem right_unsorted {link : Link} {init st : St} {runs : List Run} (hinit : Init link init)
    (h : PackedInv link init link.order st runs) (hgroups : st.groups = []) : Right link st runs := by
  have hnoplain : ∀ s ∈ link.plain link.walkOrder, ∀ g, st.group s ≠ some g := by
    intro s hs g hg
    by_cases hin : s ∈ link.order
    · obtain ⟨k, hk, -⟩ := h.inv.plain s hin (by simpa using (List.mem_filter.1 hs).2)
      rw [hgroups] at hk
      cases hk
    · rw [h.inv.open_ s hin] at hg
      have hk := h.inv.initial g (hinit.named s g hg)
      rw [hgroups] at hk
      cases hk
  have habs : ∀ s ∈ link.order, (link.seg s).absolute = true := by
    intro s hs
    by_contra hplain
    obtain ⟨k, hk, -⟩ := h.inv.plain s hs (by simpa using hplain)
    rw [hgroups] at hk
    cases hk
  refine ⟨fun s hs => ⟨.auto s, (h.inv.absolute s hs (habs s hs)).1, h.inv.count_absolute hs (habs s hs)⟩,
    fun s hs g hg => ?_, fun g => ?_, ?_, ?_, h.all, h.runs⟩
  · obtain ⟨hgs, hl⟩ := h.inv.absolute s hs (habs s hs)
    rw [hgs] at hg
    cases hg
    rw [hl]
    exact List.singleton_sublist.2 ((order_sublist link).subset hs)
  · rw [hgroups]
    constructor
    · intro hmem
      cases hmem
    · rintro ⟨s, hs, hg⟩
      exact absurd hg (hnoplain s hs g)
  · rw [hgroups]
    exact List.nodup_nil
  · rw [hgroups]
    exact List.nil_sublist _

/-- The state in which sorting starts. -/
def emptied (st : St) : St := { st with leaders := fun g => if g ∈ st.groups then [] else st.leaders g }

theorem right_sorted {link : Link} {init st : St} {runs : List Run} (hinit : Init link init)
    (h : PackedInv link init link.order st runs) :
    Right link
      { (link.walkOrder.foldl (sortGroup link) (emptied st, [])).1 with
        groups := (link.walkOrder.foldl (sortGroup link) (emptied st, [])).2 } runs := by
  have hsorted := sortGroup_all link (emptied st) link.walkOrder
  generalize link.walkOrder.foldl (sortGroup link) (emptied st, []) = acc at hsorted
  have hgroup : ∀ s, acc.1.group s = st.group s := fun s => congrFun hsorted.group s
  have hseg : ∀ s ∈ link.order, s ∈ link.walkOrder := fun s hs => (order_sublist link).subset hs
  -- A group that a plain segment is in is in the list, so that its leaders have been rebuilt.
  have hlisted : ∀ s ∈ link.plain link.walkOrder, ∀ g, st.group s = some g → g ∈ st.groups := by
    intro s hs g hg
    by_cases hin : s ∈ link.order
    · obtain ⟨k, hk, hks⟩ := h.inv.plain s hin (by simpa using (List.mem_filter.1 hs).2)
      rw [hks] at hg
      cases hg
      exact hk
    · rw [h.inv.open_ s hin] at hg
      exact h.inv.initial g (hinit.named s g hg)
  have hleaders : ∀ g ∈ st.groups, acc.1.leaders g = segsOf link (emptied st) link.walkOrder g := by
    intro g hg
    rw [hsorted.leaders g]
    change (if g ∈ st.groups then [] else st.leaders g) ++ _ = _
    rw [if_pos hg, List.nil_append]
  have hin : ∀ g ∈ acc.2, g ∈ st.groups := by
    intro g hg
    obtain ⟨s, hs⟩ := List.exists_mem_of_ne_nil _ ((hsorted.members g).1 hg)
    obtain ⟨hs, hsg⟩ := mem_segsOf.1 hs
    exact hlisted s hs g hsg
  refine ⟨fun s hs => ?_, fun s hs g hg => ?_, fun g => ?_, hsorted.nodup, ?_, h.all, fun run hrun => ?_⟩
  · by_cases habs : (link.seg s).absolute = true
    · refine ⟨.auto s, (hgroup s).trans (h.inv.absolute s hs habs).1, fun k => ?_⟩
      have hnot : s ∉ segsOf link (emptied st) link.walkOrder k := fun hmem => by
        have := (List.mem_filter.1 (mem_segsOf.1 hmem).1).2
        simp [habs] at this
      dsimp only
      rw [hsorted.leaders k, List.count_append, List.count_eq_zero.2 hnot, add_zero]
      change (if k ∈ st.groups then [] else st.leaders k).count s = _
      split_ifs with hk hks hks
      · rw [hks] at hk
        rcases h.inv.groups _ hk with hinits | ⟨u, hu, -, hplain⟩
        · obtain ⟨n, hn⟩ := hinit.groups _ hinits
          cases hn
        · cases hu
          rw [habs] at hplain
          cases hplain
      · rfl
      · rw [h.inv.count_absolute hs habs, if_pos hks]
      · rw [h.inv.count_absolute hs habs, if_neg hks]
    · have hplain : s ∈ link.plain link.walkOrder := List.mem_filter.2 ⟨hseg s hs, by simpa using habs⟩
      obtain ⟨g, hg, hsg⟩ := h.inv.plain s hs (by simpa using habs)
      refine ⟨g, (hgroup s).trans hsg, fun k => ?_⟩
      dsimp only
      split_ifs with hk
      · rw [hk, hleaders g hg]
        refine List.count_eq_one_of_mem ?_ (mem_segsOf.2 ⟨hplain, hsg⟩)
        exact (hinit.nodup.filter _).filter _
      · refine List.count_eq_zero.2 fun hmem => hk ?_
        rw [hsorted.leaders k, List.mem_append] at hmem
        have hks : st.group s = some k := by
          rcases hmem with hmem | hmem
          · change s ∈ (if k ∈ st.groups then [] else st.leaders k) at hmem
            split_ifs at hmem
            · cases hmem
            · exact h.inv.leaders s k hmem
          · exact (mem_segsOf.1 hmem).2
        rw [hsg] at hks
        exact (Option.some.inj hks).symm
  · dsimp only at hg ⊢
    rw [hgroup] at hg
    by_cases habs : (link.seg s).absolute = true
    · obtain ⟨hgs, hl⟩ := h.inv.absolute s hs habs
      rw [hgs] at hg
      cases hg
      have hnone : segsOf link (emptied st) link.walkOrder (.auto s) = [] := by
        rw [List.eq_nil_iff_forall_not_mem]
        intro t ht
        obtain ⟨htp, htg⟩ := mem_segsOf.1 ht
        rcases h.inv.groups _ (hlisted t htp _ htg) with hinits | ⟨u, hu, -, hplain⟩
        · obtain ⟨n, hn⟩ := hinit.groups _ hinits
          cases hn
        · cases hu
          rw [habs] at hplain
          cases hplain
      rw [hsorted.leaders, hnone, List.append_nil]
      change (if GroupId.auto s ∈ st.groups then [] else st.leaders (.auto s)).Sublist _
      split_ifs
      · exact List.nil_sublist _
      · rw [hl]
        exact List.singleton_sublist.2 (hseg s hs)
    · have hplain : s ∈ link.plain link.walkOrder := List.mem_filter.2 ⟨hseg s hs, by simpa using habs⟩
      rw [hleaders g (hlisted s hplain g hg)]
      exact List.filter_sublist.trans List.filter_sublist
  · dsimp only
    rw [hsorted.members g]
    constructor
    · intro hne
      obtain ⟨s, hs⟩ := List.exists_mem_of_ne_nil _ hne
      obtain ⟨hs, hsg⟩ := mem_segsOf.1 hs
      exact ⟨s, hs, (hgroup s).trans hsg⟩
    · rintro ⟨s, hs, hsg⟩
      exact List.ne_nil_of_mem (mem_segsOf.2 ⟨hs, (hgroup s).symm.trans hsg⟩)
  · refine hsorted.firsts_sublist fun g hg => ?_
    exact if_pos (hin g hg)
  · exact (h.runs run hrun).congr fun s _ => hgroup s

theorem right_of_fits {link : Link} {init : St} (hinit : Init link init) (h : Fits link init) :
    ∃ res runs, autoGroup link init = some (res, runs) ∧ Right link res runs := by
  have hnodup : ([] ++ link.sects.flatMap sectOrder).Nodup := hinit.nodup.sublist (order_sublist link)
  have hpacked : PackedInv link init link.order (autoGroupSects link init).1 (autoGroupSects link init).2 :=
    @autoGroupSects_spec link init [] (init, []) link.sects hinit (PackedInv.empty hinit) hnodup h.absolute h.sizes
  by_cases hgroups : (autoGroupSects link init).1.groups = []
  · refine ⟨_, _, ?_, right_unsorted hinit hpacked hgroups⟩
    unfold autoGroup sortGroupList
    rw [if_pos hgroups]
    rfl
  · refine ⟨_, _, ?_, right_sorted hinit hpacked⟩
    have hne : (link.walkOrder.foldl (sortGroup link) (emptied (autoGroupSects link init).1, [])).2 ≠ [] := by
      have hsorted := sortGroup_all link (emptied (autoGroupSects link init).1) link.walkOrder
      -- Some plain segment is in a group.
      obtain ⟨s, hs, g, hg⟩ : ∃ s ∈ link.plain link.walkOrder, ∃ g,
          (autoGroupSects link init).1.group s = some g := by
        by_cases hinits : init.groups = []
        · obtain ⟨g, hg⟩ := List.exists_mem_of_ne_nil _ hgroups
          rcases hpacked.inv.groups g hg with hin | ⟨s, -, hs, hplain⟩
          · rw [hinits] at hin
            cases hin
          · obtain ⟨k, -, hk⟩ := hpacked.inv.plain s hs hplain
            exact ⟨s, List.mem_filter.2 ⟨(order_sublist link).subset hs, by simp [hplain]⟩, k, hk⟩
        · obtain ⟨s, hs, hcase⟩ := h.some hinits
          refine ⟨s, hs, ?_⟩
          rcases hcase with hin | hsome
          · exact hpacked.inv.group_of_done hin
          · obtain ⟨g, hg⟩ := Option.ne_none_iff_exists'.1 hsome
            exact ⟨g, hpacked.inv.kept s g hg⟩
      have hmem := (hsorted.members g).2 (List.ne_nil_of_mem (mem_segsOf.2 ⟨hs, hg⟩))
      exact List.ne_nil_of_mem hmem
    unfold autoGroup sortGroupList
    rw [if_neg hgroups]
    dsimp only
    change Option.map _ (if (link.walkOrder.foldl (sortGroup link) (emptied _, [])).2 = [] then none else _) = _
    rw [if_neg hne]
    rfl

/-! ## The condition is needed -/

/-- Segments that have a group keep it, and only the segments of a list get one. -/
structure Frame (touched : List ℕ) (st st' : St) : Prop where
  kept : ∀ s g, st.group s = some g → st'.group s = some g
  other : ∀ s, s ∉ touched → st'.group s = st.group s
  groups : ∀ g ∈ st.groups, g ∈ st'.groups

theorem Frame.refl (touched : List ℕ) (st : St) : Frame touched st st :=
  ⟨fun _ _ h => h, fun _ _ => rfl, fun _ h => h⟩

theorem Frame.trans {touched : List ℕ} {a b c : St} (h : Frame touched a b) (h' : Frame touched b c) :
    Frame touched a c :=
  ⟨fun s g hg => h'.kept s g (h.kept s g hg), fun s hs => (h'.other s hs).trans (h.other s hs),
    fun g hg => h'.groups g (h.groups g hg)⟩

theorem packWalk_frame {link : Link} {g : GroupId} {touched segs : List ℕ} {n : ℕ} {st : St}
    (hsub : segs ⊆ touched) : Frame touched st (packWalk link g segs n st).1 := by
  induction segs generalizing n st with
  | nil => cases n <;> exact Frame.refl touched st
  | cons s segs ih =>
    rw [List.cons_subset] at hsub
    cases n with
    | zero => exact Frame.refl touched st
    | succ n =>
      rw [packWalk]
      split_ifs with hg
      · refine Frame.trans ⟨fun t k ht => ?_, fun t ht => ?_, fun k hk => ?_⟩ (ih hsub.2)
        · rw [packSeg_group link g st s t hg]
          split_ifs with hts
          · rw [hts] at ht
            rcases hg with hg | hg
            · rw [hg] at ht
              cases ht
            · exact hg.symm.trans ht
          · exact ht
        · rw [packSeg_group link g st s t hg, if_neg]
          rintro rfl
          exact ht hsub.1
        · rw [(packSeg_lists link g st s).1]
          exact hk
      · exact ih hsub.2

theorem getAutoGroup_frame (touched : List ℕ) (st : St) (absSeg : Bool) (g : GroupId) :
    Frame touched st (getAutoGroup st absSeg g) := by
  refine ⟨fun _ _ ht => ht, fun _ _ => rfl, fun k hk => ?_⟩
  unfold getAutoGroup
  dsimp only
  split_ifs
  · exact hk
  · exact List.mem_append_left _ hk

theorem packSegs_frame {link : Link} {touched segs : List ℕ} {n : ℕ} {st : St} (hsub : segs ⊆ touched) :
    Frame touched st (packSegs link st segs n).1 := by
  unfold packSegs
  split
  · exact Frame.refl touched st
  · exact Frame.refl touched st
  · split
    · exact packWalk_frame hsub
    · exact (getAutoGroup_frame touched st _ _).trans (packWalk_frame hsub)

/-- The runs that a scan has recorded stay, and the one that is open becomes a part of one. -/
structure Extends (touched : List ℕ) (scan : Scan) (st : St) (runs : List Run) : Prop where
  frame : Frame touched scan.st st
  recorded : scan.runs ⊆ runs
  open_ : scan.counted ≠ [] → ∃ run ∈ runs, scan.counted <+: run.counted ∧ run.start = scan.start

theorem pack_extends {link : Link} {touched : List ℕ} {scan : Scan} (hsub : scan.packstart ⊆ touched) :
    Extends touched scan (scan.pack link).st (scan.pack link).runs where
  frame := packSegs_frame hsub
  recorded := List.subset_append_left _ _
  open_ _ := ⟨_, List.mem_append_right _ (List.mem_singleton.2 rfl), List.prefix_rfl, rfl⟩

theorem first_packstart {link : Link} {touched segs : List ℕ} {scan : Scan} (hsub : scan.packstart ⊆ touched)
    (hsegs : segs ⊆ touched) (s : ℕ) :
    (scan.first link segs s).packstart ⊆ touched ∧ (scan.first link segs s).st = scan.st ∧
      (scan.first link segs s).runs = scan.runs ∧ (scan.first link segs s).counted = scan.counted ∧
      (scan.first link segs s).start = scan.start := by
  unfold Scan.first
  split_ifs
  · exact ⟨hsegs, rfl, rfl, rfl, rfl⟩
  · exact ⟨hsub, rfl, rfl, rfl, rfl⟩

/-- One segment: the scan after it is extended by what extends the scan before it. -/
theorem count_extends {link : Link} {touched segs : List ℕ} {scan : Scan} {s : ℕ} {st : St} {runs : List Run}
    (hsub : scan.packstart ⊆ touched) (h : Extends touched (scan.count link segs s) st runs) :
    Extends touched scan st runs := by
  unfold Scan.count at h
  dsimp only at h
  by_cases hends : endsRun link scan s = true
  · rw [if_pos hends] at h
    have hpack := @pack_extends link _ _ hsub
    refine ⟨hpack.frame.trans h.frame, List.Subset.trans hpack.recorded h.recorded, fun hne => ?_⟩
    obtain ⟨run, hrun, hprefix, hstart⟩ := hpack.open_ hne
    exact ⟨run, h.recorded hrun, hprefix, hstart⟩
  · rw [if_neg hends] at h
    refine ⟨h.frame, h.recorded, fun _ => ?_⟩
    obtain ⟨run, hrun, hprefix, hstart⟩ := h.open_ (by simp)
    exact ⟨run, hrun, (List.prefix_append _ _).trans hprefix, hstart⟩

theorem count_packstart {link : Link} {touched segs : List ℕ} {scan : Scan} (hsub : scan.packstart ⊆ touched)
    (hsegs : segs ⊆ touched) (s : ℕ) : (scan.count link segs s).packstart ⊆ touched := by
  unfold Scan.count
  dsimp only
  by_cases hends : endsRun link scan s = true
  · rw [if_pos hends]
    exact hsegs
  · rw [if_neg hends]
    exact hsub

theorem scanSegs_extends {link : Link} {touched segs : List ℕ} {scan : Scan} (hsub : scan.packstart ⊆ touched)
    (hsegs : segs ⊆ touched) :
    Extends touched scan ((scanSegs link segs scan).pack link).st ((scanSegs link segs scan).pack link).runs := by
  induction segs generalizing scan with
  | nil => exact pack_extends hsub
  | cons s segs ih =>
    have hrest : segs ⊆ touched := (List.cons_subset.1 hsegs).2
    rw [scanSegs]
    split_ifs with habs
    · have hnext := @ih { scan with st := (packSegs link scan.st (s :: segs) 1).1 } hsub hrest
      exact ⟨(packSegs_frame hsegs).trans hnext.frame, hnext.recorded, hnext.open_⟩
    · obtain ⟨hfirst, hst, hruns, hcounted, hstart⟩ := @first_packstart link _ _ _ hsub hsegs s
      have hcount := @count_packstart link _ _ _ hfirst hsegs s
      have hnext := count_extends hfirst (ih hcount hrest)
      refine ⟨?_, ?_, ?_⟩
      · rw [← hst]
        exact hnext.frame
      · rw [← hruns]
        exact hnext.recorded
      · rw [← hcounted, ← hstart]
        exact hnext.open_

theorem autoGroupSects_frame {link : Link} {touched : List ℕ} {sects : List (List (Bool × List ℕ))}
    {acc : St × List Run} (hsub : sects.flatMap sectOrder ⊆ touched) :
    Frame touched acc.1 (sects.foldl (autoGroupSect link) acc).1 ∧
      acc.2 ⊆ (sects.foldl (autoGroupSect link) acc).2 := by
  induction sects generalizing acc with
  | nil => exact ⟨Frame.refl touched acc.1, List.Subset.refl _⟩
  | cons sect sects ih =>
    rw [List.flatMap_cons, List.append_subset] at hsub
    have hsect := @scanSegs_extends link _ _ (Scan.init acc) (List.nil_subset _) hsub.1
    obtain ⟨hframe, hruns⟩ := @ih (autoGroupSect link acc sect) hsub.2
    exact ⟨hsect.frame.trans hframe, List.Subset.trans hsect.recorded hruns⟩

theorem alignedEnd_le (link : Link) (start : ℕ) (l : List ℕ) : start ≤ alignedEnd link start l := by
  induction l generalizing start with
  | nil => exact le_rfl
  | cons s l ih =>
    have := RealMode.le_alignUp start (link.seg s).align
    exact le_trans (by omega) (ih _)

theorem runEnd_mono {link : Link} {start : ℕ} {l m : List ℕ} (hne : l ≠ []) (h : l <+: m) :
    runEnd link start l ≤ runEnd link start m := by
  obtain ⟨rest, rfl⟩ := h
  obtain ⟨a, l, rfl⟩ := List.exists_cons_of_ne_nil hne
  rw [List.cons_append, runEnd, runEnd, alignedEnd_append]
  exact alignedEnd_le link _ rest

/-- The runs of a list that has several segments end below their limits. -/
def RunsFit (link : Link) (runs : List Run) : Prop :=
  ∀ run ∈ runs, ∀ first rest, run.counted = first :: rest → rest ≠ [] →
    runEnd link run.start run.counted < getSegGroupPackLimit link first

theorem scanFits_of_runsFit {link : Link} {segs : List ℕ} {scan : Scan} {runs : List Run}
    (hlimit : ∀ s, getSegGroupPackLimit link s < 2 ^ 32) (hfit : RunsFit link runs)
    (hruns : ((scanSegs link segs scan).pack link).runs ⊆ runs) : ScanFits link segs scan := by
  induction segs generalizing scan with
  | nil => trivial
  | cons s segs ih =>
    rw [scanSegs] at hruns
    rw [ScanFits]
    by_cases habs : (link.seg s).absolute = true
    · rw [if_pos habs] at hruns ⊢
      exact ih hruns
    rw [if_neg habs] at hruns ⊢
    refine ⟨fun hends hne => ?_, ih hruns⟩
    -- The run that goes on has the segment, and it ends below the limit.
    set scan' := scan.first link (s :: segs) s
    have hcount : (scan'.count link (s :: segs) s).counted = scan'.counted ++ [s] ∧
        (scan'.count link (s :: segs) s).start = scan'.start := by
      unfold Scan.count
      dsimp only
      rw [if_neg (by rw [hends]; decide)]
      exact ⟨rfl, rfl⟩
    have hextends := @scanSegs_extends link ((scan'.count link (s :: segs) s).packstart ++ segs) segs
      (scan'.count link (s :: segs) s) (List.subset_append_left _ _)
      (List.subset_append_right _ _)
    obtain ⟨run, hrun, hprefix, hstart⟩ := hextends.open_ (by rw [hcount.1]; simp)
    rw [hcount.1] at hprefix
    rw [hcount.2] at hstart
    obtain ⟨first, rest, hcons⟩ := List.exists_cons_of_ne_nil hne
    obtain ⟨more, hmore⟩ := hprefix
    have hrunCounted : run.counted = first :: (rest ++ [s] ++ more) := by
      rw [← hmore, hcons]
      simp
    have hlt := hfit run (hruns hrun) first _ hrunCounted (by simp)
    have hle := @runEnd_mono link scan'.start (scan'.counted ++ [s]) _ (by simp) ⟨more, hmore⟩
    rw [hstart] at hlt
    exact lt_of_le_of_lt hle (lt_trans hlt (hlimit first))

theorem sectsFit_of_runsFit {link : Link} {sects : List (List (Bool × List ℕ))} {acc : St × List Run}
    {runs : List Run} (hlimit : ∀ s, getSegGroupPackLimit link s < 2 ^ 32) (hfit : RunsFit link runs)
    (hruns : (sects.foldl (autoGroupSect link) acc).2 ⊆ runs) : SectsFit link sects acc := by
  induction sects generalizing acc with
  | nil => trivial
  | cons sect sects ih =>
    have hnext := (@autoGroupSects_frame link _ _ (autoGroupSect link acc sect)
      (List.Subset.refl (sects.flatMap sectOrder))).2
    exact ⟨scanFits_of_runsFit hlimit hfit (List.Subset.trans hnext hruns), ih hruns⟩

theorem fits_of_right {link : Link} {init res : St} {runs : List Run} (hinit : Init link init)
    (hres : autoGroup link init = some (res, runs)) (h : Right link res runs) : Fits link init := by
  obtain ⟨hframe, -⟩ := @autoGroupSects_frame link _ _ (init, []) (List.Subset.refl link.order)
  change Frame link.order init (autoGroupSects link init).1 at hframe
  unfold autoGroup at hres
  obtain ⟨sorted, hsort, heq⟩ := Option.map_eq_some_iff.1 hres
  obtain ⟨rfl, rfl⟩ := Prod.mk.inj heq
  have hspec := sortGroup_all link (emptied (autoGroupSects link init).1) link.walkOrder
  -- With groups in the input the list is sorted.
  have hsorted : init.groups ≠ [] →
      (link.walkOrder.foldl (sortGroup link) (emptied (autoGroupSects link init).1, [])).2 ≠ [] ∧
        sorted = { (link.walkOrder.foldl (sortGroup link) (emptied (autoGroupSects link init).1, [])).1 with
          groups := (link.walkOrder.foldl (sortGroup link) (emptied (autoGroupSects link init).1, [])).2 } := by
    intro hne
    obtain ⟨g, hg⟩ := List.exists_mem_of_ne_nil _ hne
    have hgroups : (autoGroupSects link init).1.groups ≠ [] := List.ne_nil_of_mem (hframe.groups g hg)
    unfold sortGroupList at hsort
    rw [if_neg hgroups] at hsort
    change (if (link.walkOrder.foldl (sortGroup link) (emptied (autoGroupSects link init).1, [])).2 = [] then none
      else some _) = some sorted at hsort
    split_ifs at hsort with hempty
    exact ⟨hempty, (Option.some.inj hsort).symm⟩
  refine ⟨fun s hs habs => ?_, fun hne => ?_, ?_⟩
  · -- An absolute segment of a group of the input would not be among its leaders any more.
    cases hg : init.group s with
    | none => rfl
    | some g =>
      exfalso
      have hin := hinit.named s g hg
      obtain ⟨-, rfl⟩ := hsorted (List.ne_nil_of_mem hin)
      obtain ⟨k, hk, hcount⟩ := h.grouped s hs
      dsimp only at hk hcount
      rw [hspec.group] at hk
      have hkg : some k = some g := hk.symm.trans (hframe.kept s g hg)
      cases hkg
      have hone := hcount g
      rw [if_pos rfl, hspec.leaders g] at hone
      change ((if g ∈ (autoGroupSects link init).1.groups then [] else _) ++ _).count s = 1 at hone
      rw [if_pos (hframe.groups g hin), List.nil_append] at hone
      have hnot : s ∉ segsOf link (emptied (autoGroupSects link init).1) link.walkOrder g := fun hmem => by
        have := (List.mem_filter.1 (mem_segsOf.1 hmem).1).2
        simp [habs] at this
      rw [List.count_eq_zero.2 hnot] at hone
      cases hone
  · obtain ⟨hlist, -⟩ := hsorted hne
    obtain ⟨g, hg⟩ := List.exists_mem_of_ne_nil _ hlist
    obtain ⟨s, hs⟩ := List.exists_mem_of_ne_nil _ ((hspec.members g).1 hg)
    obtain ⟨hs, hsg⟩ := mem_segsOf.1 hs
    refine ⟨s, hs, ?_⟩
    by_cases hin : s ∈ link.order
    · exact .inl hin
    · refine .inr ?_
      rw [← hframe.other s hin]
      exact fun hnone => Option.some_ne_none g (hsg.symm.trans hnone)
  · exact sectsFit_of_runsFit hinit.limit (fun run hrun first rest => (h.runs run hrun).size first rest)
      (List.Subset.refl _)

/-- `AutoGroup` does what is asked for exactly if no absolute segment is in a group of the input, where there are groups
some segment can be put into the list, and no run is longer than 4 GiB. -/
theorem autoGroup_right_iff (link : Link) (init : St) (hinit : Init link init) :
    (∃ res runs, autoGroup link init = some (res, runs) ∧ Right link res runs) ↔ Fits link init := by
  constructor
  · rintro ⟨res, runs, hres, h⟩
    exact fits_of_right hinit hres h
  · exact right_of_fits hinit

/-- A plain segment, in a group of the input, and an absolute one. -/
def twoSegs : Link where
  realMode := false
  winNe := false
  packCode := none
  packData := none
  seg s := ⟨false, false, s == 1, false, false, 0, 4, 16, 0⟩
  cls _ := ⟨false, false, false⟩
  sects := [[(false, [0, 1])]]

/-- The group `0` of the input has the segments of `l`. -/
def oneGroup (l : List ℕ) : St where
  group s := if s ∈ l then some (.named 0) else none
  leaders g := if g = .named 0 then l else []
  flags _ := ⟨false, true, false⟩
  groups := [.named 0]
  absGroups := []

theorem oneGroup_init (l : List ℕ) : Init twoSegs (oneGroup l) where
  nodup := by decide
  named s g h := by
    change (if s ∈ l then some (GroupId.named 0) else none) = some g at h
    split_ifs at h
    cases h
    exact List.mem_singleton.2 rfl
  groups g hg := ⟨0, List.mem_singleton.1 hg⟩
  leaders s g h := by
    change s ∈ if g = .named 0 then l else [] at h
    split_ifs at h with hg
    · exact (if_pos h).trans (congrArg some hg.symm)
    · cases h
  absGroups := rfl
  limit s := by
    unfold getSegGroupPackLimit twoSegs
    simp

/-- The absolute segment gets a group of its own. -/
theorem twoSegs_autoGroup : ∃ res runs, autoGroup twoSegs (oneGroup [0]) = some (res, runs) ∧ Right twoSegs res runs :=
  (autoGroup_right_iff twoSegs (oneGroup [0]) (oneGroup_init [0])).2
    ⟨by decide, fun _ => ⟨0, by decide, .inl (by decide)⟩, ⟨⟨fun _ h => absurd rfl h, trivial⟩, trivial⟩⟩

/-- In a group of the input the absolute segment is no leader any more. -/
theorem twoSegs_absolute_lost : ∃ res runs, autoGroup twoSegs (oneGroup [0, 1]) = some (res, runs) ∧
    1 ∈ twoSegs.order ∧ res.group 1 = some (.named 0) ∧ res.leaders (.named 0) = [0] ∧ ¬ Right twoSegs res runs := by
  refine ⟨_, _, rfl, by decide, by decide, by decide, fun h => ?_⟩
  obtain ⟨g, hg, hcount⟩ := h.grouped 1 (by decide)
  have hnamed : g = .named 0 := Option.some.inj (hg.symm.trans (by decide))
  have hone := hcount (.named 0)
  rw [if_pos hnamed.symm] at hone
  exact absurd hone (by decide)

end OpenWatcom.Wlink.AutoGroup
