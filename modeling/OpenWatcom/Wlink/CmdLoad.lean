import OpenWatcom.Wlink.CmdLayout

/-! # Loading a `.CMD` file

The loader's side: `parseHeader` reads the group descriptors, and `loadByte` gives the memory of
the program by the P_LOAD rule: the images follow each other in the file behind the header, each
`length` paragraphs long, and the rest of the minimum of a descriptor is zero.  A `Placement`
gives each descriptor a load segment, in 1 MB and without overlap. -/

namespace OpenWatcom.Wlink

/-! ### Descriptors -/

/-- A little-endian word of the file. -/
def le16 (data : List Byte) (i : ℕ) : ℕ := (data.getD i 0).toNat + 256 * (data.getD (i + 1) 0).toNat

/-- The loop of `parse_header`: up to `n` descriptors of 9 bytes, up to the first zero type. -/
def parseDescriptors : ℕ → List Byte → List Descriptor
  | 0, _ => []
  | n + 1, data =>
    let gtype := (data.getD 0 0).toNat
    if gtype = 0 then []
    else ⟨gtype, le16 data 1, le16 data 3, le16 data 5, le16 data 7⟩ ::
      parseDescriptors n (data.drop 9)

/-- `parse_header`. -/
def parseHeader (data : List Byte) : List Descriptor := parseDescriptors 8 data

/-- The memory of a descriptor: its image and what its minimum adds. -/
def Descriptor.memParas (d : Descriptor) : ℕ := max d.length d.minp

/-- Load segments for the descriptors, by type. -/
structure Placement (descs : List Descriptor) (segOf : ℕ → ℕ) : Prop where
  fits : ∀ d ∈ descs, segOf d.type + d.memParas ≤ 0x10000
  disjoint : descs.Pairwise fun a b =>
    segOf a.type + a.memParas ≤ segOf b.type ∨ segOf b.type + b.memParas ≤ segOf a.type

/-- The address is in the memory of the descriptor. -/
def Descriptor.HasAddr (d : Descriptor) (segOf : ℕ → ℕ) (addr : ℕ) : Prop :=
  segOf d.type * 16 ≤ addr ∧ addr < segOf d.type * 16 + 16 * d.memParas

instance (d : Descriptor) (segOf : ℕ → ℕ) (addr : ℕ) : Decidable (d.HasAddr segOf addr) :=
  inferInstanceAs (Decidable (_ ∧ _))

/-- The byte at the address `addr` after loading: `body` is the file behind the header and `off` where
the image of the next descriptor starts in it. -/
def loadByte (body : List Byte) (segOf : ℕ → ℕ) (addr : ℕ) : List Descriptor → ℕ → Option Byte
  | [], _ => none
  | d :: descs, off =>
    if d.HasAddr segOf addr then
      let rel := addr - segOf d.type * 16
      some (if rel < 16 * d.length then body.getD (off + rel) 0 else 0)
    else loadByte body segOf addr descs (off + 16 * d.length)

/-- The fields of a descriptor fit in their bytes. -/
def Descriptor.InRange (d : Descriptor) : Prop :=
  (0 < d.type ∧ d.type < 256) ∧ d.length < 65536 ∧ d.base < 65536 ∧ d.minp < 65536 ∧ d.maxp < 65536

theorem toNat_ofNat_add (n : ℕ) (h : n < 65536) :
    (UInt8.ofNat n).toNat + 256 * (UInt8.ofNat (n / 256)).toNat = n := by
  rw [UInt8.toNat_ofNat', UInt8.toNat_ofNat']
  omega

theorem parseDescriptors_flatMap : ∀ (n : ℕ) (ds : List Descriptor) (rest : List Byte),
    ds.length ≤ n → (∀ d ∈ ds, d.InRange) → (ds.length < n → rest.getD 0 0 = 0) →
      parseDescriptors n (ds.flatMap Descriptor.bytes ++ rest) = ds
  | 0, [], _, _, _, _ => rfl
  | n + 1, [], rest, _, _, h => by
      have h0 := h (by simp)
      rw [List.flatMap_nil, List.nil_append, parseDescriptors, h0]
      rfl
  | n + 1, d :: ds, rest, hlen, hr, h => by
      obtain ⟨⟨ht, ht'⟩, h1, h2, h3, h4⟩ := hr d List.mem_cons_self
      have htype : (UInt8.ofNat d.type).toNat = d.type := by
        rw [UInt8.toNat_ofNat']
        omega
      have hrec := parseDescriptors_flatMap n ds rest (by simpa using hlen)
        (fun e he => hr e (List.mem_cons_of_mem _ he)) (fun hl => h (by simpa using hl))
      rw [parseDescriptors, List.flatMap_cons, List.append_assoc]
      have hd : (d.bytes ++ (ds.flatMap Descriptor.bytes ++ rest)).drop 9 =
          ds.flatMap Descriptor.bytes ++ rest := rfl
      have h0 : ((d.bytes ++ (ds.flatMap Descriptor.bytes ++ rest)).getD 0 0).toNat = d.type :=
        htype
      rw [hd, hrec, h0, if_neg (by omega)]
      congr 1
      have e1 : le16 (d.bytes ++ (ds.flatMap Descriptor.bytes ++ rest)) 1 = d.length :=
        toNat_ofNat_add _ h1
      have e2 : le16 (d.bytes ++ (ds.flatMap Descriptor.bytes ++ rest)) 3 = d.base :=
        toNat_ofNat_add _ h2
      have e3 : le16 (d.bytes ++ (ds.flatMap Descriptor.bytes ++ rest)) 5 = d.minp :=
        toNat_ofNat_add _ h3
      have e4 : le16 (d.bytes ++ (ds.flatMap Descriptor.bytes ++ rest)) 7 = d.maxp :=
        toNat_ofNat_add _ h4
      rw [e1, e2, e3, e4]

theorem descriptors_inRange (prog : Program) : ∀ d ∈ prog.descriptors, d.InRange := by
  have himg : ∀ type, ∀ d ∈ prog.imageDescriptor type, d.InRange := by
    intro type d hd
    unfold Program.imageDescriptor at hd
    split_ifs at hd
    · simp at hd
    · rw [List.mem_singleton.mp hd]
      refine ⟨by cases type <;> simp [CmdType.num], ?_⟩
      dsimp only
      omega
  intro d hd
  unfold Program.descriptors at hd
  rcases List.mem_append.mp hd with hd | hd
  · rcases List.mem_append.mp hd with hd | hd
    · exact himg _ d hd
    · exact himg _ d hd
  · have hparas : cmdParas prog.farHeapSize < 65536 := Nat.mod_lt _ (by decide)
    unfold Program.extraDescriptor farHeap at hd
    dsimp only at hd
    split_ifs at hd
    · exact himg _ d hd
    · obtain ⟨e, he, rfl⟩ := List.mem_map.mp hd
      obtain ⟨ht, hl, hb, hm, hx⟩ := himg _ e he
      by_cases h3 : e.type = CmdType.extra.num
      · rw [if_pos h3]
        refine ⟨ht, hl, hb, hm, ?_⟩
        change (if (e.maxp + cmdParas prog.farHeapSize) % 65536 < e.maxp then 0xFFFF
          else (e.maxp + cmdParas prog.farHeapSize) % 65536) < 65536
        split_ifs <;> omega
      · rw [if_neg h3]
        exact ⟨ht, hl, hb, hm, hx⟩
    · rcases List.mem_append.mp hd with hd | hd
      · exact himg _ d hd
      · rw [List.mem_singleton.mp hd]
        exact ⟨⟨Nat.succ_pos _, by simp [CmdType.num]⟩, Nat.succ_pos _, Nat.succ_pos _, by simp, hparas⟩
    · exact himg _ d hd

/-- The table of fixups leaves the descriptors and the zero after them alone. -/
theorem finalHeader_eq_append (ld : Loader) (prog : Program) : ∃ rest : List Byte,
    ld.finalHeader prog = prog.descriptors.flatMap Descriptor.bytes ++ 0 :: rest := by
  have hlen := descriptors_length prog
  have hzeros : List.replicate (128 - 9 * prog.descriptors.length) (0 : Byte) =
      0 :: List.replicate (127 - 9 * prog.descriptors.length) 0 := by
    rw [show 128 - 9 * prog.descriptors.length = 127 - 9 * prog.descriptors.length + 1 by omega]
    rfl
  unfold Loader.finalHeader Loader.cpm86WriteFixups
  split_ifs with h
  · exact ⟨_, by rw [header_eq, hzeros]⟩
  · have hset : ∀ (i : ℕ) (b : Byte) (rest : List Byte), 0x7D ≤ i →
        (prog.descriptors.flatMap Descriptor.bytes ++ 0 :: rest).set i b =
          prog.descriptors.flatMap Descriptor.bytes ++
            0 :: rest.set (i - 9 * prog.descriptors.length - 1) b := by
      intro i b rest hi
      rw [List.set_append_right _ _ (by rw [flatMap_bytes_length]; omega), flatMap_bytes_length,
        show i - 9 * prog.descriptors.length = i - 9 * prog.descriptors.length - 1 + 1 by omega]
      rfl
    rw [header_eq, hzeros]
    dsimp only
    rw [hset _ _ _ (by omega), hset _ _ _ (by omega), hset _ _ _ (by omega)]
    exact ⟨_, rfl⟩

/-- The header reads back as the descriptors. -/
theorem parseHeader_file (ld : Loader) (prog : Program) :
    parseHeader (ld.finiCPM86LoadFile prog.toLinkInput) = prog.descriptors := by
  have hlen := descriptors_length prog
  obtain ⟨rest, hhead⟩ := finalHeader_eq_append ld prog
  rw [finiCPM86LoadFile_eq, hhead, List.append_assoc]
  exact parseDescriptors_flatMap 8 _ _ (by omega) (descriptors_inRange prog) fun _ => rfl

/-! ### Memory -/

/-- Descriptors that do not have the address are passed over, and their images with them. -/
theorem loadByte_append {body : List Byte} {segOf : ℕ → ℕ} {addr : ℕ} {ds : List Descriptor} :
    ∀ {pre : List Descriptor} (off : ℕ), (∀ x ∈ pre, ¬ x.HasAddr segOf addr) →
      loadByte body segOf addr (pre ++ ds) off =
        loadByte body segOf addr ds (off + 16 * (pre.map Descriptor.length).sum)
  | [], _, _ => by simp
  | x :: pre, off, h => by
      rw [List.cons_append, loadByte, if_neg (h x List.mem_cons_self),
        loadByte_append _ fun y hy => h y (List.mem_cons_of_mem _ hy)]
      congr 1
      simp
      omega

theorem loadByte_eq_none {body : List Byte} {segOf : ℕ → ℕ} {addr : ℕ} {ds : List Descriptor}
    (off : ℕ) (h : ∀ x ∈ ds, ¬ x.HasAddr segOf addr) : loadByte body segOf addr ds off = none := by
  rw [← List.append_nil ds, loadByte_append off h]
  rfl

/-- The bytes of the image of a descriptor are in its memory. -/
theorem loadByte_of_image {body : List Byte} {segOf : ℕ → ℕ} {d : Descriptor} {rel : ℕ}
    {pre post : List Descriptor} (hrel : rel < 16 * d.length) (off : ℕ)
    (h : Placement (pre ++ d :: post) segOf) :
    loadByte body segOf (segOf d.type * 16 + rel) (pre ++ d :: post) off =
      some (body.getD (off + 16 * (pre.map Descriptor.length).sum + rel) 0) := by
  have hmem : d.length ≤ d.memParas := le_max_left _ _
  rw [loadByte_append, loadByte, if_pos ⟨by omega, by omega⟩]
  · dsimp only
    rw [Nat.add_sub_cancel_left, if_pos hrel]
  · intro x hx hhas
    have := (List.pairwise_append.mp h.disjoint).2.2 x hx d List.mem_cons_self
    unfold Descriptor.HasAddr at hhas
    omega

/-- The memory all descriptors need together. -/
def totalMem (ds : List Descriptor) : ℕ := (ds.map Descriptor.memParas).sum

section placement

variable {c d e : List Descriptor} (hc : c.length ≤ 1) (hd : d.length ≤ 1) (he : e.length ≤ 1)
  (hct : ∀ x ∈ c, x.type = CmdType.code.num) (hdt : ∀ x ∈ d, x.type = CmdType.data.num)
  (het : ∀ x ∈ e, x.type = CmdType.extra.num)
include hc hd he hct hdt het

/-- What has been placed fits into 1 MB together. -/
theorem totalMem_le {segOf : ℕ → ℕ} (h : Placement (c ++ d ++ e) segOf) :
    totalMem c + totalMem d + totalMem e ≤ 0x10000 := by
  obtain ⟨hfits, hdis⟩ := h
  match c, d, e with
  | [], [], [] => simp [totalMem]
  | [x], [], [] => simp_all [totalMem]; omega
  | [], [x], [] => simp_all [totalMem]; omega
  | [], [], [x] => simp_all [totalMem]; omega
  | [x], [y], [] => simp_all [totalMem]; omega
  | [x], [], [y] => simp_all [totalMem]; omega
  | [], [x], [y] => simp_all [totalMem]; omega
  | [x], [y], [z] => simp_all [totalMem]; omega

/-- Load segments that put the descriptor of type `t` at the top of the memory and the others at
its bottom. -/
def topSeg (sizeC sizeD sizeE : ℕ) (t : CmdType) (n : ℕ) : ℕ :=
  match t with
  | .code => if n = 1 then 0x10000 - sizeC else if n = 2 then 0 else sizeD
  | .data => if n = 2 then 0x10000 - sizeD else if n = 1 then 0 else sizeC
  | .extra => if n = 3 then 0x10000 - sizeE else if n = 1 then 0 else sizeC

/-- A program that can be placed can be placed with the descriptor of any type at the top. -/
theorem exists_top_placement {segOf : ℕ → ℕ} (h : Placement (c ++ d ++ e) segOf) (t : CmdType) :
    ∃ top : ℕ → ℕ, Placement (c ++ d ++ e) top ∧
      (∀ x ∈ c ++ d ++ e, x.type ≠ t.num → top x.type + x.memParas ≤ top t.num) ∧
      ∀ x ∈ c ++ d ++ e, x.type = t.num → top t.num + x.memParas = 0x10000 := by
  have hsum := totalMem_le hc hd he hct hdt het h
  have hone : ∀ {l : List Descriptor}, l.length ≤ 1 → ∀ x ∈ l, x.memParas = totalMem l := by
    intro l hl x hx
    match l with
    | [y] => simpa [totalMem] using congrArg Descriptor.memParas (List.mem_singleton.mp hx)
  have hpair : ∀ {l : List Descriptor} {r : Descriptor → Descriptor → Prop}, l.length ≤ 1 →
      l.Pairwise r := by
    intro l r hl
    match l with
    | [] => exact List.Pairwise.nil
    | [y] => exact List.pairwise_singleton r y
  have hcs : ∀ x ∈ c, x.type = 1 ∧ x.memParas = totalMem c := fun x hx => ⟨hct x hx, hone hc x hx⟩
  have hds : ∀ x ∈ d, x.type = 2 ∧ x.memParas = totalMem d := fun x hx => ⟨hdt x hx, hone hd x hx⟩
  have hes : ∀ x ∈ e, x.type = 3 ∧ x.memParas = totalMem e := fun x hx => ⟨het x hx, hone he x hx⟩
  have hall : ∀ x ∈ c ++ d ++ e, (x.type = 1 ∧ x.memParas = totalMem c) ∨
      (x.type = 2 ∧ x.memParas = totalMem d) ∨ (x.type = 3 ∧ x.memParas = totalMem e) := by
    intro x hx
    rcases List.mem_append.mp hx with hx | hx
    · rcases List.mem_append.mp hx with hx | hx
      · exact .inl (hcs x hx)
      · exact .inr (.inl (hds x hx))
    · exact .inr (.inr (hes x hx))
  refine ⟨topSeg (totalMem c) (totalMem d) (totalMem e) t, ⟨fun x hx => ?_, ?_⟩, fun x hx hne => ?_,
    fun x hx heq => ?_⟩
  · rcases hall x hx with ⟨h1, h2⟩ | ⟨h1, h2⟩ | ⟨h1, h2⟩ <;> rw [h1, h2] <;> cases t <;>
      simp [topSeg] <;> omega
  · refine List.pairwise_append.mpr ⟨List.pairwise_append.mpr ⟨hpair hc, hpair hd, ?_⟩, hpair he, ?_⟩
    · intro x hx y hy
      rw [(hcs x hx).1, (hcs x hx).2, (hds y hy).1, (hds y hy).2]
      cases t <;> simp [topSeg] <;> omega
    · intro x hx y hy
      rw [(hes y hy).1, (hes y hy).2]
      rcases List.mem_append.mp hx with hx | hx
      · rw [(hcs x hx).1, (hcs x hx).2]
        cases t <;> simp [topSeg] <;> omega
      · rw [(hds x hx).1, (hds x hx).2]
        cases t <;> simp [topSeg] <;> omega
  · rcases hall x hx with ⟨h1, h2⟩ | ⟨h1, h2⟩ | ⟨h1, h2⟩ <;> rw [h1] at hne ⊢ <;> rw [h2] <;>
      cases t <;> simp [topSeg, CmdType.num] at hne ⊢ <;> omega
  · rcases hall x hx with ⟨h1, h2⟩ | ⟨h1, h2⟩ | ⟨h1, h2⟩ <;> rw [h1] at heq <;> rw [h2] <;>
      cases t <;> simp [topSeg, CmdType.num] at heq ⊢ <;> omega

end placement

/-! ### The descriptors of a program -/

/-- The descriptor of a type: none, or one. -/
def Program.descriptorOf (prog : Program) : CmdType → List Descriptor
  | .extra => prog.extraDescriptor
  | type => prog.imageDescriptor type

/-- The descriptors that come before those of the type. -/
def Program.descriptorsBefore (prog : Program) : CmdType → List Descriptor
  | .code => []
  | .data => prog.imageDescriptor .code
  | .extra => prog.imageDescriptor .code ++ prog.imageDescriptor .data

def Program.descriptorsAfter (prog : Program) : CmdType → List Descriptor
  | .code => prog.imageDescriptor .data ++ prog.extraDescriptor
  | .data => prog.extraDescriptor
  | .extra => []

/-- The types whose images come before those of the type. -/
def CmdType.before : CmdType → List CmdType
  | .code => []
  | .data => [.code]
  | .extra => [.code, .data]

section descriptors

variable (prog : Program)

theorem descriptors_split (type : CmdType) : prog.descriptors =
    prog.descriptorsBefore type ++ prog.descriptorOf type ++ prog.descriptorsAfter type := by
  unfold Program.descriptors
  cases type <;> simp [Program.descriptorsBefore, Program.descriptorOf, Program.descriptorsAfter]

theorem descriptorOf_type (type : CmdType) {d : Descriptor} (hd : d ∈ prog.descriptorOf type) :
    d.type = type.num := by
  cases type with
  | code => exact imageDescriptor_type hd
  | data => exact imageDescriptor_type hd
  | extra =>
      unfold Program.descriptorOf Program.extraDescriptor farHeap at hd
      dsimp only at hd
      split_ifs at hd
      · exact imageDescriptor_type hd
      · obtain ⟨e, he, rfl⟩ := List.mem_map.mp hd
        have h := imageDescriptor_type he
        rw [if_pos h]
        exact h
      · rcases List.mem_append.mp hd with hd | hd
        · exact imageDescriptor_type hd
        · rw [List.mem_singleton.mp hd]
      · exact imageDescriptor_type hd

theorem descriptorsBefore_type {type : CmdType} {d : Descriptor}
    (hd : d ∈ prog.descriptorsBefore type) : d.type ≠ type.num := by
  cases type with
  | code => simp [Program.descriptorsBefore] at hd
  | data =>
      rw [imageDescriptor_type hd]
      decide
  | extra =>
      rcases List.mem_append.mp hd with hd | hd <;> rw [imageDescriptor_type hd] <;> decide

theorem descriptorsAfter_type {type : CmdType} {d : Descriptor}
    (hd : d ∈ prog.descriptorsAfter type) : d.type ≠ type.num := by
  cases type with
  | code =>
      rcases List.mem_append.mp hd with hd | hd
      · rw [imageDescriptor_type hd]
        decide
      · rw [descriptorOf_type prog .extra hd]
        decide
  | data =>
      rw [descriptorOf_type prog .extra hd]
      decide
  | extra => simp [Program.descriptorsAfter] at hd

/-- The lengths of the descriptors of a type, whether there is one or not. -/
theorem descriptorOf_lengths (type : CmdType) :
    (prog.descriptorOf type).map Descriptor.length =
      if prog.descriptorOf type = [] then [] else [type.imgParas prog.groups % 65536] := by
  have himg : ∀ t, (prog.imageDescriptor t).map Descriptor.length =
      if prog.imageDescriptor t = [] then [] else [t.imgParas prog.groups % 65536] := by
    intro t
    unfold Program.imageDescriptor
    split_ifs <;> simp_all
  cases type with
  | code => exact himg .code
  | data => exact himg .data
  | extra =>
      unfold Program.descriptorOf Program.extraDescriptor farHeap Program.imageDescriptor
      cases h : (CmdType.extra.groups prog.groups).isEmpty
      · by_cases hsize : prog.farHeapSize = 0 <;> simp [hsize, CmdType.num]
      · have hnil : CmdType.extra.groups prog.groups = [] := List.isEmpty_iff.mp h
        by_cases hsize : prog.farHeapSize = 0 <;> simp [hsize, CmdType.imgParas, hnil]

theorem descriptorOf_ne_nil {type : CmdType} (h : type.groups prog.groups ≠ []) :
    prog.descriptorOf type ≠ [] := by
  have himg : prog.imageDescriptor type ≠ [] := by
    unfold Program.imageDescriptor
    rw [if_neg (by simpa [List.isEmpty_iff] using h)]
    simp
  cases type with
  | code => exact himg
  | data => exact himg
  | extra =>
      unfold Program.descriptorOf Program.extraDescriptor farHeap
      dsimp only
      split_ifs <;> simp [himg]

theorem descriptorOf_length_le (type : CmdType) : (prog.descriptorOf type).length ≤ 1 := by
  cases type with
  | extra => exact extraDescriptor_length prog
  | code => exact imageDescriptor_length prog .code
  | data => exact imageDescriptor_length prog .data

/-- A type with groups has a descriptor, and it has the length of the image. -/
theorem exists_descriptor {type : CmdType} (h : type.groups prog.groups ≠ []) :
    ∃ d, prog.descriptorOf type = [d] ∧ d.type = type.num ∧
      d.length = type.imgParas prog.groups % 65536 := by
  have hne := descriptorOf_ne_nil prog h
  have hlen := descriptorOf_length_le prog type
  have hmap := descriptorOf_lengths prog type
  rw [if_neg hne] at hmap
  match hd : prog.descriptorOf type with
  | [] => exact absurd hd hne
  | [d] =>
      rw [hd] at hmap
      exact ⟨d, rfl, descriptorOf_type prog type (by rw [hd]; simp), by simpa using hmap⟩
  | _ :: _ :: _ => simp [hd] at hlen

/-- Where the image of a type starts in the file, by the lengths in the header. -/
theorem lengths_before (type : CmdType) (hshort : ∀ t ∈ type.before, t.imgParas prog.groups < 65536) :
    ((prog.descriptorsBefore type).map Descriptor.length).sum =
      (type.before.map fun t => t.imgParas prog.groups).sum := by
  have hone : ∀ t : CmdType, t ≠ .extra → t.imgParas prog.groups < 65536 →
      ((prog.imageDescriptor t).map Descriptor.length).sum = t.imgParas prog.groups := by
    intro t _ hlt
    unfold Program.imageDescriptor
    split_ifs with hempty
    · have hnil : t.groups prog.groups = [] := List.isEmpty_iff.mp hempty
      simp [CmdType.imgParas, hnil]
    · simpa using hlt
  cases type with
  | code => rfl
  | data =>
      have h1 := hone .code (by decide) (hshort .code (by simp [CmdType.before]))
      simp [Program.descriptorsBefore, CmdType.before, h1]
  | extra =>
      have h1 := hone .code (by decide) (hshort .code (by simp [CmdType.before]))
      have h2 := hone .data (by decide) (hshort .data (by simp [CmdType.before]))
      simp [Program.descriptorsBefore, CmdType.before, h1, h2]

/-- The bytes of a coalesced image are in the body of the file. -/
theorem body_getElem? (ld : Loader) (type : CmdType) (rest : List Byte) {i : ℕ}
    (hi : i < 16 * type.imgParas prog.groups) :
    (ld.images prog ++ rest)[16 * (type.before.map fun t => t.imgParas prog.groups).sum + i]? =
      (ld.bucketImage type prog.groups)[i]? := by
  have hlen : ∀ t : CmdType, (ld.bucketImage t prog.groups).length = 16 * t.imgParas prog.groups :=
    fun t => bucketImage_length ld prog t fun _ h => h
  have hc := hlen .code
  have hd := hlen .data
  have he := hlen .extra
  unfold Loader.images
  cases type with
  | code =>
      rw [List.append_assoc, List.append_assoc, List.getElem?_append_left (by simp [CmdType.before]; omega)]
      simp [CmdType.before]
  | data =>
      simp only [CmdType.before, List.map_cons, List.map_nil, List.sum_cons, List.sum_nil]
      rw [List.append_assoc, List.append_assoc, List.getElem?_append_right (by omega),
        List.getElem?_append_left (by omega)]
      congr 1
      omega
  | extra =>
      simp only [CmdType.before, List.map_cons, List.map_nil, List.sum_cons, List.sum_nil]
      rw [List.append_assoc, List.getElem?_append_right (by simp only [List.length_append]; omega),
        List.getElem?_append_left (by simp only [List.length_append]; omega)]
      congr 1
      simp only [List.length_append]
      omega

end descriptors

/-- The file behind the header record. -/
theorem drop_header (ld : Loader) (prog : Program) :
    (ld.finiCPM86LoadFile prog.toLinkInput).drop 128 = ld.images prog ++
      (ld.fixupTable prog (128 + (ld.images prog).length) ++ prog.dbi) := by
  rw [finiCPM86LoadFile_eq, ← finalHeader_length ld prog, List.drop_left]

end OpenWatcom.Wlink
