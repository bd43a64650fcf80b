import OpenWatcom.Wlink.FlatTables

/-! # The data pages of LE and LX files

Where `WriteDataPages` puts the bytes of the groups, and when the page map says so. -/

namespace OpenWatcom.Wlink

/-! ### Where the bytes are -/

section data

variable (kind : FlatKind) (gs : FlatGroups) (fill : Byte) (bytes : ℕ → ℕ → Byte)

/-- The padding before the next data, behind a last page of so many bytes. -/
def FlatKind.padAfter (lastPage : ℕ) : ℕ := if lastPage = 0 then 0 else kind.padding lastPage

/-- The bytes of a group and the padding behind them. -/
def dataBlock (g : ℕ) : List Byte :=
  slice (bytes g) 0 (gs.group g).size ++
    List.replicate (kind.padAfter ((gs.group g).size % 4096)) fill

theorem length_dataBlock (g : ℕ) :
    (dataBlock kind gs fill bytes g).length = kind.written (gs.group g).size := by
  unfold dataBlock
  rw [List.length_append, slice_length, List.length_replicate]
  rfl

theorem length_dataBlocks (n : ℕ) :
    (blocks (dataBlock kind gs fill bytes) n).length = dataPlace kind gs n := by
  rw [length_blocks]
  simp only [length_dataBlock]
  rfl

theorem groupPages_succ (n : ℕ) : groupPages kind gs fill bytes (n + 1) =
    writeGroupPages kind fill (gs.group n) (bytes n) (groupPages kind gs fill bytes n) := by
  unfold groupPages
  rw [List.range_succ, List.foldl_append]
  rfl

theorem writeGroupPages_eq (group : RelocGroup) (image : ℕ → Byte) (o : PagesOut) (h : group.size ≠ 0) :
    writeGroupPages kind fill group image o =
      ⟨o.out ++ List.replicate (kind.padAfter o.lastPage) fill ++ slice image 0 group.size,
        group.size % 4096⟩ := by
  unfold writeGroupPages FlatKind.padAfter
  rw [if_pos h]
  by_cases h0 : o.lastPage = 0
  · simp [h0]
  · simp [h0]

/-- With the padding that is due, the groups' blocks have been written. -/
theorem groupPages_padded (n : ℕ) : (groupPages kind gs fill bytes n).out ++
    List.replicate (kind.padAfter (groupPages kind gs fill bytes n).lastPage) fill =
      blocks (dataBlock kind gs fill bytes) n := by
  induction n with
  | zero => rfl
  | succ n ih =>
      rw [groupPages_succ, blocks_succ, ← ih]
      by_cases h : (gs.group n).size = 0
      · have hnone : dataBlock kind gs fill bytes n = [] := by
          unfold dataBlock
          rw [h]
          rfl
        rw [hnone, List.append_nil, writeGroupPages, if_neg (not_not.mpr h)]
      · rw [writeGroupPages_eq kind fill _ _ _ h, dataBlock, List.append_assoc]

theorem groupPages_mono {m n : ℕ} (h : m ≤ n) :
    (groupPages kind gs fill bytes m).out <+: (groupPages kind gs fill bytes n).out := by
  induction n, h using Nat.le_induction with
  | base => exact List.prefix_rfl
  | succ n _ ih =>
      refine ih.trans ?_
      rw [groupPages_succ]
      by_cases h : (gs.group n).size = 0
      · rw [writeGroupPages, if_neg (not_not.mpr h)]
      · rw [writeGroupPages_eq kind fill _ _ _ h, List.append_assoc]
        exact List.prefix_append _ _

theorem data_extends_groupPages :
    (groupPages kind gs fill bytes gs.count).out <+: (writeDataPages kind gs fill bytes).out := by
  unfold writeDataPages
  dsimp only
  split_ifs
  · exact List.prefix_rfl
  · cases kind with
    | le => exact List.prefix_rfl
    | lx shift => exact List.prefix_append _ _

theorem blocks_extends_data :
    (writeDataPages kind gs fill bytes).out <+: blocks (dataBlock kind gs fill bytes) gs.count := by
  rw [← groupPages_padded]
  unfold writeDataPages
  dsimp only
  split_ifs with h0
  · exact List.prefix_append _ _
  · cases kind with
    | le => exact List.prefix_append _ _
    | lx shift =>
        rw [FlatKind.padAfter, if_neg h0]

/-- Each byte of a group is at its offset from the place of the group. -/
theorem writeDataPages_at {g a : ℕ} (hg : g < gs.count) (ha : a < (gs.group g).size) :
    (writeDataPages kind gs fill bytes).out[dataPlace kind gs g + a]? = some (bytes g a) := by
  have hne : (gs.group g).size ≠ 0 := Nat.ne_zero_of_lt ha
  have hout : (groupPages kind gs fill bytes (g + 1)).out =
      blocks (dataBlock kind gs fill bytes) g ++ slice (bytes g) 0 (gs.group g).size := by
    rw [groupPages_succ, writeGroupPages_eq kind fill _ _ _ hne, groupPages_padded]
  obtain ⟨tail, htail⟩ := (groupPages_mono kind gs fill bytes hg).trans
    (data_extends_groupPages kind gs fill bytes)
  rw [← htail, hout, List.append_assoc, ← length_dataBlocks kind gs fill bytes,
    List.getElem?_append_right (Nat.le_add_right _ _), Nat.add_sub_cancel_left,
    List.getElem?_append_left (by rwa [slice_length]),
    List.getElem?_eq_getElem (by rwa [slice_length]), slice_getElem, Nat.zero_add]

/-- A byte that is not fill, and that one group alone has at one offset, is there and nowhere else. -/
theorem writeDataPages_mem {g a p : ℕ} {b : Byte} (hb : b ≠ fill)
    (honly : ∀ j l, bytes j l = b → j = g ∧ l = a)
    (h : (writeDataPages kind gs fill bytes).out[p]? = some b) : p = dataPlace kind gs g + a := by
  obtain ⟨tail, htail⟩ := blocks_extends_data kind gs fill bytes
  have hp := (List.getElem?_eq_some_iff.mp h).1
  have hleft : ((writeDataPages kind gs fill bytes).out ++ tail)[p]? = _ := List.getElem?_append_left hp
  rw [← hleft, htail] at h
  refine eq_startOf_of_mem (length_dataBlock kind gs fill bytes) ?_ h
  intro j _ l hl hjl
  unfold dataBlock at hjl
  rcases Nat.lt_or_ge l (gs.group j).size with hlt | hge
  · rw [List.getElem?_append_left (by rwa [slice_length]),
      List.getElem?_eq_getElem (by rwa [slice_length]), slice_getElem, Nat.zero_add,
      Option.some.injEq] at hjl
    exact honly j l hjl
  · rw [List.getElem?_append_right (by rwa [slice_length])] at hjl
    obtain ⟨-, heq⟩ := List.mem_replicate.mp (List.mem_of_getElem? hjl)
    exact absurd heq hb

/-! ### The pages in their places -/

/-- The entry for the page of a byte has the place where the byte is, and the page's size covers it. -/
def InPlace (g a : ℕ) : Prop :=
  ∃ e, (pageMap kind gs gs.count).1[firstPage gs g + a / 4096]? = some e ∧
    a % 4096 < e.dataSize ∧ e.place kind + a % 4096 = dataPlace kind gs g + a

theorem pageByte_eq {g a : ℕ} (hg : g < gs.count) (ha : a < (gs.group g).size) {e : MapEntry}
    (he : (pageMap kind gs gs.count).1[firstPage gs g + a / 4096]? = some e) (data : List Byte) :
    pageByte kind (objRecords gs gs.count).1 (pageMap kind gs gs.count).1 data (objIndex gs g) a =
      if a % 4096 < e.dataSize then data[e.place kind + a % 4096]? else some 0 := by
  have htotal : (gs.group g).totalsize ≠ 0 := by
    have := gs.size_le g
    omega
  have hpage : a / 4096 < pageCount (gs.group g).size := by
    unfold pageCount
    omega
  unfold pageByte
  rw [objRecords_getElem? gs hg htotal, Option.bind_some, if_pos hpage, Nat.add_sub_cancel, he,
    Option.bind_some]

theorem exists_entry {g a : ℕ} (hg : g < gs.count) (ha : a < (gs.group g).size) :
    ∃ e, (pageMap kind gs gs.count).1[firstPage gs g + a / 4096]? = some e := by
  have hpage : a / 4096 < pageCount (gs.group g).size := by
    unfold pageCount
    omega
  rw [pageMap_getElem? kind gs hg hpage]
  exact ⟨_, List.getElem?_eq_getElem (by rwa [(groupMap_bounds kind gs g).length])⟩

/-- A byte that differs from `fill` and from 0. -/
def markerOf (fill : Byte) : Byte := if fill = 1 then 2 else 1

theorem markerOf_ne (fill : Byte) : markerOf fill ≠ fill ∧ markerOf fill ≠ 0 := by
  unfold markerOf
  split_ifs with h
  · subst h
    decide
  · exact ⟨fun heq => h heq.symm, by decide⟩

/-- The loader finds the bytes, whatever they are, exactly if they are in place. -/
theorem loads_iff_inPlace : (∀ bytes, Loads kind gs fill bytes) ↔
    ∀ g < gs.count, ∀ a < (gs.group g).size, InPlace kind gs g a := by
  constructor
  · intro h g hg a ha
    obtain ⟨e, he⟩ := exists_entry kind gs hg ha
    obtain ⟨hfill, hzero⟩ := markerOf_ne fill
    -- images of fill alone, but for the byte in question
    obtain ⟨image, himage⟩ : ∃ image : ℕ → ℕ → Byte,
        ∀ j l, image j l = if j = g ∧ l = a then markerOf fill else fill := ⟨_, fun _ _ => rfl⟩
    have hload := h image g hg a ha
    rw [pageByte_eq kind gs hg ha he, himage, if_pos (And.intro rfl rfl)] at hload
    refine ⟨e, he, ?_⟩
    split_ifs at hload with hsize
    · refine ⟨hsize, writeDataPages_mem kind gs fill image hfill (fun j l hjl => ?_) hload⟩
      by_contra hne
      rw [himage, if_neg hne] at hjl
      exact hfill hjl.symm
    · exact absurd (Option.some.inj hload).symm hzero
  · intro h bytes g hg a ha
    obtain ⟨e, he, hsize, hplace⟩ := h g hg a ha
    rw [pageByte_eq kind gs hg ha he, if_pos hsize, hplace]
    exact writeDataPages_at kind gs fill bytes hg ha

/-! ### When the pages are in their places -/

variable {kind gs}

/-- With units of at most a page the map follows the data pages: the next number and, in the map of each
group, the entries. -/
theorem pageMap_next (h : kind.pageShift ≤ 12) (n : ℕ) :
    kind.unit ∣ dataPlace kind gs n ∧ (pageMap kind gs n).2 = kind.counter (dataPlace kind gs n) := by
  induction n with
  | zero =>
      refine ⟨dvd_zero _, ?_⟩
      rw [dataPlace, startOf_zero, FlatKind.counter_zero]
      rfl
  | succ n ih =>
      obtain ⟨hdvd, hnext⟩ := ih
      have hmapped := mapped_numberGroup h hdvd ((gs.group n).size / pageMapBufSize) (gs.group n).size
      rw [pageMap_succ, dataPlace, startOf_succ, ← dataPlace, groupMap, hnext]
      exact ⟨dvd_add hdvd (kind.unit_dvd_written h _), hmapped.next⟩

theorem dataPlace_succ (kind : FlatKind) (gs : FlatGroups) (n : ℕ) :
    dataPlace kind gs (n + 1) = dataPlace kind gs n + kind.written (gs.group n).size :=
  startOf_succ _ n

/-- The place of the last page bounds the places of the others. -/
theorem page_lt_limit {g a : ℕ} (ha : a < (gs.group g).size)
    (h : dataPlace kind gs g + 4096 * (pageCount (gs.group g).size - 1) < kind.placeLimit) :
    dataPlace kind gs g + 4096 * (a / 4096) < kind.placeLimit := by
  have hpage : a / 4096 ≤ pageCount (gs.group g).size - 1 := by
    unfold pageCount
    omega
  omega

theorem inPlace_of_small (h : kind.pageShift ≤ 12) {g a : ℕ} (hg : g < gs.count)
    (ha : a < (gs.group g).size)
    (hplace : dataPlace kind gs g + 4096 * (a / 4096) < kind.placeLimit) : InPlace kind gs g a := by
  have hpage : a / 4096 < pageCount (gs.group g).size := by
    unfold pageCount
    omega
  obtain ⟨hdvd, hnext⟩ : kind.unit ∣ dataPlace kind gs g ∧
      (pageMap kind gs g).2 = kind.counter (dataPlace kind gs g) := pageMap_next h g
  have hmapped := mapped_numberGroup h hdvd ((gs.group g).size / pageMapBufSize) (gs.group g).size
  obtain ⟨e, he, hat, hsize⟩ := hmapped.page _ hpage hplace
  refine ⟨e, ?_, by omega, by omega⟩
  rw [pageMap_getElem? kind gs hg hpage, groupMap, hnext]
  exact he

/-! ### Units of more than a page -/

/-- The group's bytes are on one page. -/
theorem groupMap_one {shift start size : ℕ} (h0 : size ≠ 0) (h : size ≤ 4096) :
    groupMap (.lx shift) start size =
      ([.lx (start / 2 ^ shift) (roundUpPwrof2 size shift % 2 ^ 16)],
        (start + roundUpPwrof2 size shift % 2 ^ 16) % 2 ^ 32) := by
  have hcount : pageCount size = 1 := by
    unfold pageCount
    omega
  have hfull : size / pageMapBufSize = 0 := Nat.div_eq_of_lt (h.trans_lt (by decide))
  rw [groupMap, hfull, numberGroup, numberBuf_lx, hcount, numberLx_one _ _ h.not_gt]

theorem roundUpPwrof2_one {shift size : ℕ} (hshift : 12 < shift) (h0 : size ≠ 0) (h : size ≤ 4096) :
    roundUpPwrof2 size shift = 2 ^ shift := by
  have hpow : 2 ^ 12 ≤ 2 ^ shift := Nat.pow_le_pow_right (by norm_num) hshift.le
  apply le_antisymm
  · exact roundUpPwrof2_le (by omega) dvd_rfl
  · have hge := le_roundUpPwrof2 size shift
    exact Nat.le_of_dvd (by omega) (dvd_roundUpPwrof2 size shift)

theorem written_one {shift size : ℕ} (hshift : 12 < shift) (h0 : size ≠ 0) (h : size < 4096) :
    (FlatKind.lx shift).written size = 2 ^ shift := by
  have hround := roundUpPwrof2_one hshift h0 h.le
  have hge := le_roundUpPwrof2 size shift
  rw [FlatKind.written, Nat.mod_eq_of_lt h, if_neg h0, FlatKind.padding_lx]
  omega

theorem two_pow_mod {shift : ℕ} (h : shift ≤ 15) : 2 ^ shift % 2 ^ 16 = 2 ^ shift :=
  Nat.mod_eq_of_lt (Nat.pow_lt_pow_right (by norm_num) (by omega))

/-- Groups that do not fill their page leave the map at the data's place. -/
theorem pageMap_next_one {shift : ℕ} (hshift : 12 < shift) (h15 : shift ≤ 15) {n : ℕ}
    (hsmall : ∀ i < n, (gs.group i).size < 4096) :
    2 ^ shift ∣ dataPlace (.lx shift) gs n ∧
      (pageMap (.lx shift) gs n).2 = dataPlace (.lx shift) gs n % 2 ^ 32 := by
  induction n with
  | zero => exact ⟨dvd_zero _, rfl⟩
  | succ n ih =>
      obtain ⟨hdvd, hnext⟩ := ih fun i hi => hsmall i (hi.trans (Nat.lt_succ_self n))
      rw [pageMap_succ, dataPlace_succ, hnext]
      by_cases h0 : (gs.group n).size = 0
      · rw [h0]
        exact ⟨hdvd, rfl⟩
      · have hlt := hsmall n (Nat.lt_succ_self n)
        rw [groupMap_one h0 hlt.le, roundUpPwrof2_one hshift h0 hlt.le, two_pow_mod h15,
          written_one hshift h0 hlt]
        exact ⟨dvd_add hdvd dvd_rfl, Nat.mod_add_mod _ _ _⟩

theorem inPlace_of_one {shift : ℕ} (hshift : 12 < shift) (h15 : shift ≤ 15) {g a : ℕ}
    (hg : g < gs.count) (ha : a < (gs.group g).size) (hsize : (gs.group g).size ≤ 4096)
    (hsmall : ∀ i < g, (gs.group i).size < 4096)
    (hplace : dataPlace (.lx shift) gs g < 2 ^ 32) : InPlace (.lx shift) gs g a := by
  have h0 : (gs.group g).size ≠ 0 := Nat.ne_zero_of_lt ha
  have hfirst : a / 4096 = 0 := Nat.div_eq_of_lt (ha.trans_le hsize)
  have hmod : a % 4096 = a := Nat.mod_eq_of_lt (ha.trans_le hsize)
  have hpow : 2 ^ 12 ≤ 2 ^ shift := Nat.pow_le_pow_right (by norm_num) hshift.le
  obtain ⟨hdvd, hnext⟩ := pageMap_next_one hshift h15 hsmall
  refine ⟨.lx (dataPlace (.lx shift) gs g / 2 ^ shift) (2 ^ shift), ?_, ?_, ?_⟩
  · rw [pageMap_getElem? _ gs hg (hfirst ▸ pageCount_pos h0), groupMap_one h0 hsize, hnext, hfirst,
      roundUpPwrof2_one hshift h0 hsize, two_pow_mod h15, Nat.mod_eq_of_lt hplace]
    rfl
  · rw [hmod]
    exact (ha.trans_le hsize).trans_le hpow
  · rw [hmod]
    exact congrArg (· + a) (Nat.div_mul_cancel hdvd)

/-- What is in place is at a multiple of the unit that a map entry can give. -/
theorem InPlace.bounds {g k : ℕ} (h : InPlace kind gs g (4096 * k)) :
    dataPlace kind gs g + 4096 * k < kind.placeLimit ∧ kind.unit ∣ dataPlace kind gs g + 4096 * k := by
  obtain ⟨e, he, -, hplace⟩ := h
  obtain ⟨hlt, hdvd⟩ := (pageMap_bounds kind gs gs.count).entry e (List.mem_of_getElem? he)
  rw [Nat.mul_mod_right, Nat.add_zero] at hplace
  rw [← hplace]
  exact ⟨hlt, hdvd⟩

theorem not_two_pow_dvd {shift : ℕ} (h : 12 < shift) : ¬ 2 ^ shift ∣ 4096 := fun hdvd =>
  absurd (Nat.le_of_dvd (by norm_num) hdvd)
    (Nat.not_le.mpr (Nat.pow_lt_pow_right (a := 2) (m := 12) (by norm_num) h))

/-- In units of more than a page only one page of a group can be in its place, and nothing behind a
full one. -/
theorem shiftFits_of_inPlace {shift : ℕ} (hshift : 12 < shift)
    (h : ∀ g < gs.count, ∀ a < (gs.group g).size, InPlace (.lx shift) gs g a) {g : ℕ}
    (hg : g < gs.count) (h0 : (gs.group g).size ≠ 0) : ShiftFits (.lx shift) gs g := by
  have hstart : ∀ g < gs.count, (gs.group g).size ≠ 0 → 2 ^ shift ∣ dataPlace (.lx shift) gs g := by
    intro g hg h0
    have hpos := Nat.pos_of_ne_zero h0
    exact (InPlace.bounds (k := 0) (h g hg 0 hpos)).2
  have hsize : (gs.group g).size ≤ 4096 := by
    by_contra hgt
    have h1 : 4096 * 1 < (gs.group g).size := by omega
    have hsecond := (InPlace.bounds (h g hg _ h1)).2
    exact not_two_pow_dvd hshift ((Nat.dvd_add_right (hstart g hg h0)).mp hsecond)
  refine Or.inr ⟨?_, hsize, fun hfull g' hg' hgg' => ?_⟩
  · by_contra h15
    obtain ⟨e, he, hdata, -⟩ := h g hg 0 (Nat.pos_of_ne_zero h0)
    rw [pageMap_getElem? _ gs hg (pageCount_pos h0), groupMap_one h0 hsize,
      roundUpPwrof2_one hshift h0 hsize] at he
    obtain rfl := Option.some.inj he
    have hzero : 2 ^ shift % 2 ^ 16 = 0 := Nat.mod_eq_zero_of_dvd (pow_dvd_pow 2 (by omega))
    exact absurd hdata (by rw [MapEntry.dataSize, hzero]; exact Nat.not_lt_zero _)
  · -- the first group with bytes behind the full page would start in the middle of a unit
    by_contra hne
    have hex : ∃ i, g < i ∧ i < gs.count ∧ (gs.group i).size ≠ 0 := ⟨g', hgg', hg', hne⟩
    obtain ⟨hlt, hcount, hbytes⟩ := Nat.find_spec hex
    have hempty : ∀ i, g + 1 ≤ i → i < Nat.find hex → (gs.group i).size = 0 := by
      intro i hi hfind
      by_contra hi0
      exact Nat.find_min hex hfind ⟨hi, hfind.trans hcount, hi0⟩
    have hnext : dataPlace (.lx shift) gs (Nat.find hex) = dataPlace (.lx shift) gs g + 4096 := by
      rw [dataPlace, startOf_eq_of_zero _ hlt fun i h1 h2 => by rw [hempty i h1 h2]; rfl,
        startOf_succ, hfull, FlatKind.written_of_dvd _ dvd_rfl, dataPlace]
    have hsecond := hstart _ hcount hbytes
    rw [hnext] at hsecond
    exact not_two_pow_dvd hshift ((Nat.dvd_add_right (hstart g hg h0)).mp hsecond)

/-- The bytes of the groups are in place exactly if the pages fit the map. -/
theorem pages_iff : (∀ g < gs.count, ∀ a < (gs.group g).size, InPlace kind gs g a) ↔
    PagesFit kind gs := by
  constructor
  · intro h g hg h0
    have hlast : 4096 * (pageCount (gs.group g).size - 1) < (gs.group g).size := by
      unfold pageCount
      omega
    refine ⟨(InPlace.bounds (h g hg _ hlast)).1, ?_⟩
    cases kind with
    | le => exact trivial
    | lx shift =>
        rcases Nat.lt_or_ge 12 shift with hshift | hshift
        · exact shiftFits_of_inPlace hshift h hg h0
        · exact Or.inl hshift
  · intro h g hg a ha
    obtain ⟨hplace, hfits⟩ := h g hg (Nat.ne_zero_of_lt ha)
    have hpage := page_lt_limit ha hplace
    cases kind with
    | le =>
        have hsmall : FlatKind.le.pageShift ≤ 12 := Nat.zero_le 12
        exact inPlace_of_small hsmall hg ha hpage
    | lx shift =>
        rcases Nat.lt_or_ge 12 shift with hshift | hshift
        · obtain ⟨h15, hsize, -⟩ := hfits.resolve_left hshift.not_ge
          refine inPlace_of_one hshift h15 hg ha hsize (fun i hi => ?_) ?_
          · by_contra hge
            have hi0 : (gs.group i).size ≠ 0 := by omega
            obtain ⟨-, hifits⟩ := h i (hi.trans hg) hi0
            obtain ⟨-, hile, hilast⟩ := hifits.resolve_left hshift.not_ge
            exact Nat.ne_zero_of_lt ha (hilast (by omega) g hg hi)
          · rw [FlatKind.placeLimit_lx] at hpage
            omega
        · have hsmall : (FlatKind.lx shift).pageShift ≤ 12 := hshift
          exact inPlace_of_small hsmall hg ha hpage

end data

end OpenWatcom.Wlink
