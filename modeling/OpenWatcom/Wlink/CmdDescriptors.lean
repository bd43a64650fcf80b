import OpenWatcom.Wlink.CmdLoad

/-! # The numbers of the group descriptors

A descriptor has its image, its minimum and its maximum as 16-bit numbers of paragraphs, which `CMD_PARAS` and
`putU16` cut from 32-bit sums. -/

namespace OpenWatcom.Wlink

/-- The paragraphs of the far data and of the far heap that was asked for. -/
def Program.farParas (prog : Program) : ℕ :=
  CmdType.extra.allocParas prog.groups + (prog.farHeapSize + 15) / 16

/-- Each image fits its minimum, and each minimum its maximum, where 0 is none; there is one descriptor of a type;
and the maximum of EXTRA is enough, or as large as it can be. -/
structure DescriptorsOk (prog : Program) (ds : List Descriptor) : Prop where
  sizes : ∀ d ∈ ds, d.length ≤ d.minp ∧ (d.maxp = 0 ∨ d.minp ≤ d.maxp)
  types : (ds.map Descriptor.type).Nodup
  extra : ∀ d ∈ ds, d.type = CmdType.extra.num → prog.farParas ≤ d.maxp ∨ d.maxp = 0xFFFF

/-- Cut to 16 bits, no image is longer than its memory; and either nothing is cut off from the far data and the far
heap, or what is left of them saturates the maximum. -/
def DescriptorsFit (prog : Program) : Prop :=
  (∀ type : CmdType, type.imgParas prog.groups % 65536 ≤ type.allocParas prog.groups % 65536) ∧
    (CmdType.extra.allocParas prog.groups < 65536 ∧ prog.farHeapSize ≤ 0xFFFF0 ∨
      0xFFFF ≤ CmdType.extra.allocParas prog.groups % 65536 + cmdParas prog.farHeapSize)

variable {prog : Program}

/-! ### One descriptor -/

theorem imgParas_of_isEmpty {type : CmdType} (h : (type.groups prog.groups).isEmpty = true) :
    type.imgParas prog.groups = 0 ∧ type.allocParas prog.groups = 0 := by
  have hnil := List.isEmpty_iff.mp h
  unfold CmdType.imgParas CmdType.allocParas
  rw [hnil]
  exact ⟨rfl, rfl⟩

/-- The minimum of an image is its maximum. -/
theorem imageDescriptor_sizes_iff (type : CmdType) :
    (∀ d ∈ prog.imageDescriptor type, d.length ≤ d.minp ∧ (d.maxp = 0 ∨ d.minp ≤ d.maxp)) ↔
      type.imgParas prog.groups % 65536 ≤ type.allocParas prog.groups % 65536 := by
  unfold Program.imageDescriptor
  by_cases hempty : (type.groups prog.groups).isEmpty = true
  · obtain ⟨himg, halloc⟩ := imgParas_of_isEmpty hempty
    simp [hempty, himg, halloc]
  · simp [hempty]

/-- The EXTRA descriptor has the image of the far data, if there is any. -/
theorem extraDescriptor_eq (prog : Program) :
    ((CmdType.extra.groups prog.groups).isEmpty = true ∧
      prog.extraDescriptor = if prog.farHeapSize = 0 then []
        else [⟨CmdType.extra.num, 0, 0, 1, cmdParas prog.farHeapSize⟩]) ∨
    ((CmdType.extra.groups prog.groups).isEmpty = false ∧ ∃ maxp,
      prog.extraDescriptor = [⟨CmdType.extra.num, CmdType.extra.imgParas prog.groups % 65536, 0,
        CmdType.extra.allocParas prog.groups % 65536, maxp⟩] ∧
      maxp = if prog.farHeapSize = 0 then CmdType.extra.allocParas prog.groups % 65536
        else if CmdType.extra.allocParas prog.groups % 65536 + cmdParas prog.farHeapSize < 65536 then
          CmdType.extra.allocParas prog.groups % 65536 + cmdParas prog.farHeapSize
        else 0xFFFF) := by
  have hparas : cmdParas prog.farHeapSize < 65536 := Nat.mod_lt _ (by decide)
  unfold Program.extraDescriptor Program.imageDescriptor farHeap
  by_cases hempty : (CmdType.extra.groups prog.groups).isEmpty = true
  · refine .inl ⟨hempty, ?_⟩
    simp [hempty]
  · rw [Bool.not_eq_true] at hempty
    refine .inr ⟨hempty, _, ?_, rfl⟩
    simp only [hempty, Bool.not_false, Bool.false_eq_true, if_false, if_true]
    by_cases hsize : prog.farHeapSize = 0
    · simp only [hsize, if_true]
    · simp only [if_neg hsize, List.map_cons, List.map_nil, if_true]
      congr 2
      split_ifs <;> omega

/-- The minimum of EXTRA is never above its maximum, but the maximum may not be enough. -/
theorem extraDescriptor_covers_iff (hsize : prog.farHeapSize < 2 ^ 32) :
    (∀ d ∈ prog.extraDescriptor, prog.farParas ≤ d.maxp ∨ d.maxp = 0xFFFF) ↔
      (CmdType.extra.allocParas prog.groups < 65536 ∧ prog.farHeapSize ≤ 0xFFFF0 ∨
        0xFFFF ≤ CmdType.extra.allocParas prog.groups % 65536 + cmdParas prog.farHeapSize) := by
  have hparas : cmdParas prog.farHeapSize = (prog.farHeapSize + 15) % 2 ^ 32 / 16 % 65536 := rfl
  unfold Program.farParas
  obtain ⟨hempty, heq⟩ | ⟨hsome, maxp, heq, hmax⟩ := extraDescriptor_eq prog
  · obtain ⟨-, halloc⟩ := imgParas_of_isEmpty hempty
    rw [heq, halloc]
    by_cases hzero : prog.farHeapSize = 0
    · simp [hzero]
    · simp only [if_neg hzero, List.mem_singleton, forall_eq]
      omega
  · simp only [heq, List.mem_singleton, forall_eq, hmax]
    split_ifs <;> omega

theorem extraDescriptor_sizes_iff :
    (∀ d ∈ prog.extraDescriptor, d.length ≤ d.minp ∧ (d.maxp = 0 ∨ d.minp ≤ d.maxp)) ↔
      CmdType.extra.imgParas prog.groups % 65536 ≤ CmdType.extra.allocParas prog.groups % 65536 := by
  obtain ⟨hempty, heq⟩ | ⟨hsome, maxp, heq, hmax⟩ := extraDescriptor_eq prog
  · obtain ⟨himg, halloc⟩ := imgParas_of_isEmpty hempty
    rw [heq, himg, halloc]
    by_cases hzero : prog.farHeapSize = 0
    · simp [hzero]
    · simp only [if_neg hzero, List.mem_singleton, forall_eq]
      omega
  · simp only [heq, List.mem_singleton, forall_eq, hmax]
    split_ifs <;> omega

/-! ### All descriptors -/

theorem extraDescriptor_type {d : Descriptor} (hd : d ∈ prog.extraDescriptor) : d.type = CmdType.extra.num := by
  obtain ⟨-, heq⟩ | ⟨-, maxp, heq, -⟩ := extraDescriptor_eq prog
  · rw [heq] at hd
    split_ifs at hd
    · simp at hd
    · rw [List.mem_singleton.mp hd]
  · rw [heq] at hd
    rw [List.mem_singleton.mp hd]

/-- Each type occurs at most once. -/
theorem descriptors_types (prog : Program) : (prog.descriptors.map Descriptor.type).Nodup := by
  have hone : ∀ {l : List Descriptor} {n : ℕ}, l.length ≤ 1 → (∀ d ∈ l, d.type = n) →
      l.map Descriptor.type = [] ∨ l.map Descriptor.type = [n] := by
    intro l n hlen htype
    match l with
    | [] => exact .inl rfl
    | [d] => exact .inr (by simp [htype d])
    | _ :: _ :: _ => simp at hlen
  unfold Program.descriptors
  rw [List.map_append, List.map_append]
  have hcode := hone (imageDescriptor_length prog .code) fun d hd => imageDescriptor_type hd
  have hdata := hone (imageDescriptor_length prog .data) fun d hd => imageDescriptor_type hd
  have hextra := hone (extraDescriptor_length prog) fun d hd => extraDescriptor_type hd
  rcases hcode with h1 | h1 <;> rcases hdata with h2 | h2 <;> rcases hextra with h3 | h3 <;>
    rw [h1, h2, h3] <;> decide

/-- No groups, and a far heap of 1 MB. -/
def megabyteHeap : Program where
  groups := []
  farHeapSize := 0x100000
  fixups := []
  dbi := []
  segs := List.Pairwise.nil
  oneData := List.Pairwise.nil
  ascending := fun _ h => absurd h List.not_mem_nil
  within := fun _ h => absurd h List.not_mem_nil
  small := fun _ h => absurd h List.not_mem_nil

end OpenWatcom.Wlink
