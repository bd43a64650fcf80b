import Mathlib.Data.Nat.Size
import Mathlib.Tactic

/-! # The alignment of a file of segments

Where no alignment is given, `FiniOS2LoadFile` picks one from an estimate of the size of the file. Segments and
resources are written at multiples of it, and the table keeps each multiple in 16 bits. -/

namespace OpenWatcom.Wlink.NeAlign

/-- A segment of the file; its size in memory, its size in the file and the number of its relocations. -/
structure Group where
  totalsize : ℕ
  size : ℕ
  relocs : ℕ

/-- What the file is made of: the place after the stub and the tables, the segments, and the lengths of the resources if
there is a directory of them. -/
structure LoadFile where
  stubLen : ℕ
  temp : ℕ
  groups : List Group
  resources : Option (List ℕ)

/-- `__ROUND_UP_SIZE`. -/
def roundUp (size align : ℕ) : ℕ := (size + align - 1) / align * align

/-- `NullAlign`: the place after the padding. -/
def nullAlign (align pos : ℕ) : ℕ := roundUp pos align

/-- The loop of `log2_16`. -/
def log2Loop : ℕ → ℕ → ℕ
  | 0, _ => 0
  | log + 1, value => if 0x8000 ≤ value then log + 1 else log2Loop log (value * 2 % 2 ^ 16)

/-- `log2_16`. -/
def log2_16 (value : ℕ) : ℕ := if value = 0 then 0 else log2Loop 15 value

/-- The argument that `log2_16` gets for a size. -/
def sizeArg (imageguess : ℕ) : ℕ := imageguess / 2 ^ 16 * 2 % 2 ^ 16

/-- `ComputeResourceSize`. -/
def computeResourceSize : Option (List ℕ) → ℕ
  | none => 0
  | some lengths => lengths.sum

/-- The groups that become segments. -/
def LoadFile.written (file : LoadFile) : List Group := file.groups.filter fun group => group.totalsize ≠ 0

/-- `exe_head.segments`. -/
def LoadFile.segments (file : LoadFile) : ℕ := file.written.length % 2 ^ 16

/-- `Root->relocs`. -/
def LoadFile.relocs (file : LoadFile) : ℕ := (file.groups.map Group.relocs).sum

/-- The estimate before the padding. -/
def LoadFile.imageguess (file : LoadFile) : ℕ :=
  (file.written.map Group.size).sum + (file.temp + file.relocs * 8 + file.stubLen + file.segments * 3)

/-- The alignment that is picked. -/
def LoadFile.segmentShift (file : LoadFile) : ℕ :=
  let padLen := log2_16 (sizeArg file.imageguess)
  let imageguess := file.imageguess + (2 ^ padLen - 1) * file.segments + computeResourceSize file.resources
  let shift := log2_16 (sizeArg imageguess)
  if shift = 0 then 1 else shift

/-- What a table says about a place in the file, and where the data was written. -/
structure Placed where
  recorded : ℕ
  written : ℕ
deriving DecidableEq

/-- `WriteOS2Data`: the records of the segments with data, and the place that is reached. -/
def writeOS2Data (shift : ℕ) : ℕ → List Group → List Placed × ℕ
  | pos, [] => ([], pos)
  | pos, group :: groups =>
    if group.totalsize = 0 then writeOS2Data shift pos groups
    else if roundUp group.size 2 ≠ 0 then
      let off := nullAlign (2 ^ shift) pos
      let segAddr := off / 2 ^ shift
      let loaded := nullAlign 2 (off + group.size)
      let relocated := if group.relocs = 0 then loaded else loaded + 2 + group.relocs * 8
      let rest := writeOS2Data shift relocated groups
      (⟨segAddr % 2 ^ 16, off⟩ :: rest.1, rest.2)
    else writeOS2Data shift pos groups

/-- The loop of `WriteOS2Resources`. -/
def writeResources (shift : ℕ) : ℕ → ℕ → List ℕ → List Placed
  | _, _, [] => []
  | pos, outResOff, length :: lengths =>
    ⟨outResOff % 2 ^ 16, pos⟩ ::
      writeResources shift (nullAlign (2 ^ shift) (pos + length))
        (outResOff + (length + 2 ^ shift - 1) / 2 ^ shift) lengths

/-- `WriteOS2Resources`. -/
def writeOS2Resources (shift pos : ℕ) : Option (List ℕ) → List Placed
  | none => []
  | some lengths =>
    let aligned := nullAlign (2 ^ shift) pos
    writeResources shift aligned (aligned / 2 ^ shift) lengths

/-- What `FiniOS2LoadFile` places. -/
def LoadFile.placed (file : LoadFile) : List Placed :=
  let shift := file.segmentShift
  let data := writeOS2Data shift (nullAlign (2 ^ shift) file.temp) file.groups
  data.1 ++ writeOS2Resources shift data.2 file.resources

/-- Every record times the alignment is where the data was written. -/
def LoadFile.Right (file : LoadFile) : Prop :=
  ∀ placed ∈ file.placed, placed.recorded * 2 ^ file.segmentShift = placed.written

/-! ## The condition -/

/-- How many bits a size needs beyond 16, where only sizes below 2 GiB count. -/
def bitsBeyond (size : ℕ) : ℕ := Nat.size (size % 2 ^ 31 / 2 ^ 16)

/-- The estimate with the padding of the segments and the resources. -/
def LoadFile.estimate (file : LoadFile) : ℕ :=
  file.imageguess + (2 ^ bitsBeyond file.imageguess - 1) * file.segments + (file.resources.getD []).sum

/-- The bytes of a segment in the file. -/
def Group.bytes (group : Group) : ℕ :=
  roundUp group.size 2 + if group.relocs = 0 then 0 else 2 + group.relocs * 8

/-- The lengths of what is placed: the segments with data and the resources. -/
def LoadFile.lengths (file : LoadFile) : List ℕ :=
  ((file.groups.filter fun group => group.totalsize ≠ 0 ∧ group.size ≠ 0).map Group.bytes) ++
    file.resources.getD []

/-- The number of units that some bytes take. -/
def units (shift n : ℕ) : ℕ := (n + 2 ^ shift - 1) / 2 ^ shift

/-- With the tables and everything but the last item padded to the size of the estimate, there are fewer than 65536
units. -/
def LoadFile.Fits (file : LoadFile) : Prop :=
  file.lengths ≠ [] →
    units (max 1 (bitsBeyond file.estimate)) file.temp +
      (file.lengths.dropLast.map (units (max 1 (bitsBeyond file.estimate)))).sum < 2 ^ 16

/-! ## The logarithm -/

theorem log2Loop_eq {log value : ℕ} (hlog : log ≤ 15) (hpos : 0 < value) (hlow : 2 ^ (15 - log) ≤ value)
    (hhigh : value < 2 ^ 16) : log2Loop log value = log + Nat.log2 value - 15 := by
  induction log generalizing value with
  | zero =>
    have : Nat.log2 value = 15 := (Nat.log2_eq_iff hpos.ne').2 ⟨by simpa using hlow, hhigh⟩
    rw [log2Loop, this]
  | succ log ih =>
    rw [log2Loop]
    by_cases hbit : 0x8000 ≤ value
    · have : Nat.log2 value = 15 := (Nat.log2_eq_iff hpos.ne').2 ⟨hbit, hhigh⟩
      rw [if_pos hbit, this]
      omega
    · have hdouble : value * 2 % 2 ^ 16 = value * 2 := Nat.mod_eq_of_lt (by omega)
      have hpow : 2 ^ (15 - log) = 2 ^ (15 - (log + 1)) * 2 := by
        rw [← pow_succ]
        congr 1
        omega
      have hlog2 : Nat.log2 (value * 2) = Nat.log2 value + 1 := by
        rw [mul_comm]
        exact Nat.log2_two_mul hpos.ne'
      rw [if_neg hbit, hdouble, ih (by omega) (by omega) (by omega) (by omega), hlog2]
      omega

theorem log2_16_eq {value : ℕ} (h : value < 2 ^ 16) : log2_16 value = Nat.log2 value := by
  unfold log2_16
  split_ifs with hzero
  · rw [hzero]
    rfl
  · rw [log2Loop_eq le_rfl (by omega) (Nat.one_le_iff_ne_zero.2 hzero) h]
    omega

theorem size_eq_log2 {n : ℕ} (h : 0 < n) : Nat.size n = Nat.log2 n + 1 := by
  obtain ⟨hlow, hhigh⟩ := (Nat.log2_eq_iff h.ne').1 rfl
  exact le_antisymm (Nat.size_le.2 hhigh) (Nat.lt_size.2 hlow)

/-- What `log2_16` is asked for is the number of bits beyond 16. -/
theorem log2_sizeArg (imageguess : ℕ) : log2_16 (sizeArg imageguess) = bitsBeyond imageguess := by
  have harg : sizeArg imageguess = 2 * (imageguess % 2 ^ 31 / 2 ^ 16) := by
    unfold sizeArg
    omega
  have hlt : imageguess % 2 ^ 31 / 2 ^ 16 < 2 ^ 15 := by omega
  rw [harg, log2_16_eq (by omega), bitsBeyond]
  rcases Nat.eq_zero_or_pos (imageguess % 2 ^ 31 / 2 ^ 16) with hzero | hpos
  · rw [hzero]
    rfl
  · rw [Nat.log2_two_mul hpos.ne']
    exact (size_eq_log2 hpos).symm

theorem segmentShift_eq (file : LoadFile) : file.segmentShift = max 1 (bitsBeyond file.estimate) := by
  have hres : computeResourceSize file.resources = (file.resources.getD []).sum := by
    cases file.resources <;> rfl
  simp only [LoadFile.segmentShift, log2_sizeArg, hres]
  change (if bitsBeyond file.estimate = 0 then 1 else bitsBeyond file.estimate) = _
  split_ifs <;> omega

/-! ## The places -/

/-- Where items of the given lengths start, in units. -/
def starts (shift : ℕ) : ℕ → List ℕ → List ℕ
  | _, [] => []
  | u, n :: ns => u :: starts shift (u + units shift n) ns

/-- What is recorded for a place and where it is. -/
def placedAt (shift u : ℕ) : Placed := ⟨u % 2 ^ 16, u * 2 ^ shift⟩

theorem starts_append (shift u : ℕ) (l m : List ℕ) :
    starts shift u (l ++ m) = starts shift u l ++ starts shift (u + (l.map (units shift)).sum) m := by
  induction l generalizing u with
  | nil => rfl
  | cons n l ih =>
    rw [List.cons_append, starts, ih, starts, List.map_cons, List.sum_cons, List.cons_append, add_assoc]

/-- The last item starts last. -/
theorem starts_lt_iff (shift u bound : ℕ) (l : List ℕ) :
    (∀ v ∈ starts shift u l, v < bound) ↔ (l ≠ [] → u + (l.dropLast.map (units shift)).sum < bound) := by
  induction l generalizing u with
  | nil => simp [starts]
  | cons n l ih =>
    rw [starts, List.forall_mem_cons, ih]
    cases l with
    | nil => simp
    | cons m l =>
      rw [List.dropLast_cons_cons, List.map_cons, List.sum_cons]
      constructor
      · intro h _
        have := h.2 (by simp)
        omega
      · intro h
        have := h (by simp)
        exact ⟨by omega, fun _ => by omega⟩

theorem nullAlign_eq (shift pos : ℕ) : nullAlign (2 ^ shift) pos = units shift pos * 2 ^ shift := rfl

theorem units_add (shift u n : ℕ) : units shift (u * 2 ^ shift + n) = u + units shift n := by
  unfold units
  have hpos : 0 < 2 ^ shift := by positivity
  rw [show u * 2 ^ shift + n + 2 ^ shift - 1 = (n + 2 ^ shift - 1) + u * 2 ^ shift by omega,
    Nat.add_mul_div_right _ _ hpos, add_comm]

theorem units_mul (shift u : ℕ) : units shift (u * 2 ^ shift) = u := by
  have hpos : 0 < 2 ^ shift := by positivity
  have hzero : units shift 0 = 0 := Nat.div_eq_of_lt (by omega)
  have hadd := units_add shift u 0
  rwa [add_zero, hzero, add_zero] at hadd

/-- The even place after the data of a segment that starts at a unit. -/
theorem nullAlign_two {shift : ℕ} (h : 0 < shift) (u n : ℕ) :
    nullAlign 2 (u * 2 ^ shift + n) = u * 2 ^ shift + roundUp n 2 := by
  obtain ⟨k, rfl⟩ : ∃ k, shift = k + 1 := ⟨shift - 1, by omega⟩
  unfold nullAlign roundUp
  rw [pow_succ, ← mul_assoc]
  omega

theorem roundUp_two_eq_zero (n : ℕ) : roundUp n 2 = 0 ↔ n = 0 := by
  unfold roundUp
  omega

theorem writeOS2Data_spec {shift : ℕ} (h : 0 < shift) (pos : ℕ) (groups : List Group) :
    (writeOS2Data shift pos groups).1 =
        (starts shift (units shift pos)
          ((groups.filter fun group => group.totalsize ≠ 0 ∧ group.size ≠ 0).map Group.bytes)).map (placedAt shift) ∧
      units shift (writeOS2Data shift pos groups).2 = units shift pos +
        (((groups.filter fun group => group.totalsize ≠ 0 ∧ group.size ≠ 0).map Group.bytes).map
          (units shift)).sum := by
  induction groups generalizing pos with
  | nil => exact ⟨rfl, rfl⟩
  | cons group groups ih =>
    rw [writeOS2Data]
    by_cases htotal : group.totalsize = 0
    · rw [if_pos htotal, List.filter_cons_of_neg (by simp [htotal])]
      exact ih pos
    by_cases hsize : group.size = 0
    · rw [if_neg htotal, if_neg (by rw [not_not, roundUp_two_eq_zero]; exact hsize),
        List.filter_cons_of_neg (by simp [hsize])]
      exact ih pos
    · have hplace : (if group.relocs = 0 then nullAlign 2 (nullAlign (2 ^ shift) pos + group.size)
          else nullAlign 2 (nullAlign (2 ^ shift) pos + group.size) + 2 + group.relocs * 8) =
          units shift pos * 2 ^ shift + group.bytes := by
        rw [nullAlign_eq, nullAlign_two h, Group.bytes]
        split_ifs <;> omega
      have hpos : 0 < 2 ^ shift := by positivity
      obtain ⟨hrest, hend⟩ := ih (units shift pos * 2 ^ shift + group.bytes)
      rw [if_neg htotal, if_pos (by rw [ne_eq, roundUp_two_eq_zero]; exact hsize),
        List.filter_cons_of_pos (by simp [htotal, hsize]), List.map_cons, starts, List.map_cons, List.map_cons,
        List.sum_cons]
      dsimp only
      rw [hplace, hrest, hend, units_add, nullAlign_eq, Nat.mul_div_cancel _ hpos]
      exact ⟨rfl, by omega⟩

theorem writeResources_spec (shift u : ℕ) (lengths : List ℕ) :
    writeResources shift (u * 2 ^ shift) u lengths = (starts shift u lengths).map (placedAt shift) := by
  induction lengths generalizing u with
  | nil => rfl
  | cons length lengths ih =>
    rw [writeResources, nullAlign_eq, units_add, starts, List.map_cons]
    change _ :: writeResources shift _ (u + units shift length) lengths = _
    rw [ih]
    rfl

theorem placed_eq (file : LoadFile) :
    file.placed = (starts file.segmentShift (units file.segmentShift file.temp) file.lengths).map
      (placedAt file.segmentShift) := by
  have hshift : 0 < file.segmentShift := by
    rw [segmentShift_eq]
    omega
  have hpos : 0 < 2 ^ file.segmentShift := by positivity
  obtain ⟨hdata, hend⟩ := writeOS2Data_spec hshift (nullAlign (2 ^ file.segmentShift) file.temp) file.groups
  rw [nullAlign_eq, units_mul] at hdata hend
  unfold LoadFile.placed LoadFile.lengths
  dsimp only
  rw [starts_append, List.map_append, nullAlign_eq, hdata, ← hend]
  congr 1
  cases file.resources with
  | none => rfl
  | some lengths =>
    rw [writeOS2Resources, nullAlign_eq, Nat.mul_div_cancel _ hpos, writeResources_spec]
    rfl

/-- A place is recorded exactly when it has fewer than 65536 units before it. -/
theorem placedAt_right_iff (shift u : ℕ) :
    (placedAt shift u).recorded * 2 ^ shift = (placedAt shift u).written ↔ u < 2 ^ 16 := by
  change u % 2 ^ 16 * 2 ^ shift = u * 2 ^ shift ↔ _
  rw [Nat.mul_left_inj (by positivity)]
  exact Nat.mod_eq_iff_lt (by decide)

theorem right_iff_fits (file : LoadFile) : file.Right ↔ file.Fits := by
  unfold LoadFile.Right LoadFile.Fits
  rw [placed_eq, ← segmentShift_eq, ← starts_lt_iff]
  constructor
  · intro h u hu
    exact (placedAt_right_iff _ u).1 (h _ (List.mem_map_of_mem hu))
  · intro h placed hplaced
    obtain ⟨u, hu, rfl⟩ := List.mem_map.1 hplaced
    exact (placedAt_right_iff _ u).2 (h u hu)

theorem lt_of_bitsBeyond {size shift : ℕ} (h : size < 2 ^ 31) (hshift : bitsBeyond size ≤ shift) :
    size < 2 ^ (shift + 16) := by
  rw [bitsBeyond, Nat.mod_eq_of_lt h, Nat.size_le, Nat.div_lt_iff_lt_mul (by positivity), ← pow_add] at hshift
  exact hshift

/-- Padding adds less than a unit to each item. -/
theorem units_sum_le (shift : ℕ) (lengths : List ℕ) :
    (lengths.map (units shift)).sum * 2 ^ shift ≤ lengths.sum + lengths.length * (2 ^ shift - 1) := by
  have hpos : 0 < 2 ^ shift := by positivity
  induction lengths with
  | nil => simp
  | cons n lengths ih =>
    have hunit : units shift n * 2 ^ shift ≤ n + (2 ^ shift - 1) := by
      have := Nat.div_mul_le_self (n + 2 ^ shift - 1) (2 ^ shift)
      unfold units
      omega
    rw [List.map_cons, List.sum_cons, List.sum_cons, List.length_cons, add_mul, add_mul]
    omega

/-- Two per segment and one for an odd length: the estimate has three bytes for what is not counted of a segment. -/
theorem sum_bytes_le (groups : List Group) :
    ((groups.filter fun group => group.totalsize ≠ 0 ∧ group.size ≠ 0).map Group.bytes).sum ≤
      ((groups.filter fun group => group.totalsize ≠ 0).map Group.size).sum +
        (groups.map Group.relocs).sum * 8 + (groups.filter fun group => group.totalsize ≠ 0).length * 3 := by
  induction groups with
  | nil => simp
  | cons group groups ih =>
    by_cases htotal : group.totalsize = 0
    · rw [List.filter_cons_of_neg (by simp [htotal]), List.filter_cons_of_neg (by simp [htotal]), List.map_cons,
        List.sum_cons]
      omega
    · have hbytes : group.bytes ≤ group.size + group.relocs * 8 + 3 := by
        unfold Group.bytes roundUp
        split_ifs <;> omega
      rw [List.filter_cons_of_pos (p := fun group : Group => decide (group.totalsize ≠ 0)) (by simp [htotal])]
      by_cases hsize : group.size = 0
      · rw [List.filter_cons_of_neg (by simp [hsize])]
        simp only [List.map_cons, List.sum_cons, List.length_cons]
        omega
      · rw [List.filter_cons_of_pos (by simp [htotal, hsize])]
        simp only [List.map_cons, List.sum_cons, List.length_cons]
        omega

theorem units_sum_replicate (shift n a : ℕ) : ((List.replicate n a).map (units shift)).sum = n * units shift a := by
  rw [List.map_replicate, List.sum_replicate, smul_eq_mul]

/-- A segment and 4800 resources of 1665 bytes. -/
def manyResources : LoadFile := ⟨64, 60000, [⟨256, 256, 0⟩], some (List.replicate 4800 1665)⟩

end OpenWatcom.Wlink.NeAlign
