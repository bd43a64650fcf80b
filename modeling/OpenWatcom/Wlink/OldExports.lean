import OpenWatcom.Lib.LittleEndian

/-! # The exports of an old library

`ReadOldLib` looks up the export table of an old library and gives `CheckExport` its names and ordinals.  The names are
read into the token buffer, in several pieces when they seem not to fit. -/

namespace OpenWatcom.OldExports

/-- What `QRead` gets at a place of a file. -/
def readAt (file : List UInt8) (off len : ℕ) : List UInt8 := (file.drop off).take len

def u16At (file : List UInt8) (off : ℕ) : ℕ := leVal (readAt file off 2)

def u32At (file : List UInt8) (off : ℕ) : ℕ := leVal (readAt file off 4)

/-- The difference of two numbers of 32 bits. -/
def sub32 (a b : ℕ) : ℕ := (a + (2 ^ 32 - b)) % 2 ^ 32

/-- A number of 32 bits as an `ordinal_t`. -/
def ordinal_t (n : ℕ) : ℤ := (BitVec.ofNat 32 n).toInt

/-- The part of `pe_object` that is read. -/
structure PeObject where
  rva : ℕ
  physical_offset : ℕ

/-- `pe_dir_entry`. -/
structure PeDirEntry where
  rva : ℕ
  size : ℕ

/-- What the reading has done: the memory from `TokBuff` on, the calls of `CheckExport` and how much the reads into the
buffer asked for. -/
structure Progress where
  tokBuff : List UInt8
  calls : List (List UInt8 × ℤ)
  reads : List ℕ

/-- The loop of `ReadExports`: the name at `nameptr` with each ordinal. -/
def checkExports (tokBuff : List UInt8) (ord_base : ℤ) : List ℕ → ℕ → List (List UInt8 × ℤ)
  | [], _ => []
  | ord :: ords, nameptr =>
      let name := (tokBuff.drop nameptr).takeWhile (· ≠ 0)
      (name, ord + ord_base) :: checkExports tokBuff ord_base ords (nameptr + name.length + 1)

/-- `ReadExports`. -/
def readExports (file : List UInt8) (ord_base : ℤ) (namestart nameend ordstart numords : ℕ) (s : Progress) :
    Progress :=
  let ordbuf := (List.range numords).map fun i => u16At file (ordstart + 2 * i)
  let len := sub32 nameend namestart
  let got := readAt file namestart len
  let tokBuff := got ++ s.tokBuff.drop got.length
  ⟨tokBuff, s.calls ++ checkExports tokBuff ord_base ordbuf 0, s.reads ++ [len]⟩

/-- The loop of `ReadPEExportTable`, over the pointers from `curr` on. -/
def readPieces (file : List UInt8) (ord_base : ℤ) (tokSize : ℕ) :
    List ℕ → (prev namestart entrystart numentries : ℕ) → Progress → ℕ × ℕ × ℕ × Progress
  | [], _, namestart, entrystart, numentries, s => (namestart, entrystart, numentries, s)
  | curr :: rest, prev, namestart, entrystart, numentries, s =>
      if sub32 curr namestart > tokSize then
        readPieces file ord_base tokSize rest curr prev (entrystart + numentries * 2) (1 + 1)
          (readExports file ord_base namestart prev entrystart numentries s)
      else readPieces file ord_base tokSize rest curr namestart entrystart (numentries + 1) s

/-- `ReadPEExportTable`, with the file at `pos`. -/
def readPEExportTable (file : List UInt8) (tokSize pos : ℕ) (export_dir : PeDirEntry) (s : Progress) : Progress :=
  let ord_base := ordinal_t (u32At file (pos + 16))
  let num_name_ptrs := u32At file (pos + 24)
  let name_ptr_table_rva := u32At file (pos + 32)
  let ordinal_table_rva := u32At file (pos + 36)
  let nameptrs := (List.range num_name_ptrs).map fun i =>
    sub32 (u32At file (sub32 name_ptr_table_rva export_dir.rva + 4 * i)) export_dir.rva
  match nameptrs with
  | [] => s
  | first :: rest =>
      let (namestart, entrystart, numentries, s) :=
        readPieces file ord_base tokSize rest first first (sub32 ordinal_table_rva export_dir.rva) 1 s
      readExports file ord_base namestart ((export_dir.size + first) % 2 ^ 32) entrystart numentries s

/-- The branch of `ReadOldLib` for a PE file. -/
def readOldLib (file : List UInt8) (tokSize : ℕ) (objects : List PeObject) (dir : PeDirEntry) (s : Progress) :
    Progress :=
  match objects.find? (fun currobj => currobj.rva = dir.rva) with
  | none => s
  | some currobj =>
      readPEExportTable file tokSize currobj.physical_offset ⟨sub32 dir.rva currobj.physical_offset, dir.size⟩ s

/-! ### A table in a file -/

/-- An export table: its names in the order of the name table, each with its ordinal less the base. -/
structure Table where
  exports : List (List UInt8 × ℕ)
  ordinal_base : ℕ
  terminated : ∀ e ∈ exports, (0 : UInt8) ∉ e.1

namespace Table

variable (t : Table)

/-- The name table. -/
def nameTable (exports : List (List UInt8 × ℕ)) : List UInt8 := exports.flatMap fun e => e.1 ++ [0]

/-- Where each name starts in the name table. -/
def starts : List (List UInt8 × ℕ) → ℕ → List ℕ
  | [], _ => []
  | e :: es, o => o :: starts es (o + e.1.length + 1)

/-- The calls that the table asks for. -/
def expected : List (List UInt8 × ℤ) := t.exports.map fun e => (e.1, e.2 + ordinal_t t.ordinal_base)

/-- The table is in the section at a place of the file, where the linker writes it: with the name table, from `names`
on, at the end of the section. -/
structure StoredAt (file : List UInt8) (pos rva size : ℕ) (namePtrs ordinals names : ℕ) : Prop where
  file_length : file.length < 2 ^ 31
  inFile : pos + size ≤ file.length
  rva_fits : rva + size < 2 ^ 32
  ordinal_base_eq : u32At file (pos + 16) = t.ordinal_base
  num_name_ptrs_eq : u32At file (pos + 24) = t.exports.length
  name_ptr_table_eq : u32At file (pos + 32) = rva + namePtrs
  ordinal_table_eq : u32At file (pos + 36) = rva + ordinals
  namePtrs_le : namePtrs ≤ size
  ordinals_le : ordinals ≤ size
  nameptrs_eq : (List.range t.exports.length).map (fun i => u32At file (pos + namePtrs + 4 * i)) =
    (starts t.exports 0).map (rva + names + ·)
  ordinals_eq : (List.range t.exports.length).map (fun i => u16At file (pos + ordinals + 2 * i)) = t.exports.map (·.2)
  names_eq : readAt file (pos + names) (nameTable t.exports).length = nameTable t.exports
  size_eq : size = names + (nameTable t.exports).length

end Table

theorem sub32_of_le {a b : ℕ} (h : b ≤ a) (ha : a < 2 ^ 32) : sub32 a b = a - b := by
  unfold sub32
  omega

theorem sub32_sub32 {rva pos o : ℕ} (hpos : pos + o < 2 ^ 32) :
    sub32 (rva + o) (sub32 rva pos) = pos + o := by
  unfold sub32
  omega

theorem checkExports_length (tokBuff : List UInt8) (ord_base : ℤ) (ords : List ℕ) (nameptr : ℕ) :
    (checkExports tokBuff ord_base ords nameptr).length = ords.length := by
  induction ords generalizing nameptr with
  | nil => rfl
  | cons ord ords ih => simp [checkExports, ih]

theorem readExports_calls_length (file : List UInt8) (ord_base : ℤ) (namestart nameend ordstart numords : ℕ)
    (s : Progress) :
    (readExports file ord_base namestart nameend ordstart numords s).calls.length = s.calls.length + numords := by
  simp [readExports, checkExports_length]

/-- Names that lie in the buffer one after the other are all given. -/
theorem checkExports_names {tokBuff rest : List UInt8} {ord_base : ℤ} {exports : List (List UInt8 × ℕ)} {nameptr : ℕ}
    (h0 : ∀ e ∈ exports, (0 : UInt8) ∉ e.1) (h : tokBuff.drop nameptr = Table.nameTable exports ++ rest) :
    checkExports tokBuff ord_base (exports.map (·.2)) nameptr = exports.map fun e => (e.1, e.2 + ord_base) := by
  induction exports generalizing nameptr with
  | nil => rfl
  | cons e exports ih =>
      have hname : (tokBuff.drop nameptr).takeWhile (· ≠ 0) = e.1 := by
        rw [h, Table.nameTable, List.flatMap_cons, List.append_assoc, List.append_assoc,
          List.takeWhile_append_of_pos (fun a ha => by
            simp only [ne_eq, decide_not, Bool.not_eq_true', decide_eq_false_iff_not]
            rintro rfl
            exact h0 e List.mem_cons_self ha)]
        simp
      have hrest : tokBuff.drop (nameptr + e.1.length + 1) = Table.nameTable exports ++ rest := by
        rw [Nat.add_assoc, ← List.drop_drop, h, Table.nameTable, List.flatMap_cons, List.append_assoc,
          List.drop_left' (by simp)]
        rfl
      simp only [List.map_cons, checkExports, hname]
      rw [ih (fun e he => h0 e (List.mem_cons_of_mem _ he)) hrest]

/-- The loop either cuts nowhere, or asks for more calls than there are names. -/
theorem readPieces_cases (file : List UInt8) (ord_base : ℤ) (tokSize : ℕ) (rest : List ℕ)
    (prev namestart entrystart numentries : ℕ) (s : Progress) :
    let r := readPieces file ord_base tokSize rest prev namestart entrystart numentries s
    (r = (namestart, entrystart, numentries + rest.length, s) ∧ ∀ c ∈ rest, sub32 c namestart ≤ tokSize) ∨
      (s.calls.length + numentries + rest.length < r.2.2.2.calls.length + r.2.2.1 ∧
        ∃ c ∈ rest, tokSize < sub32 c namestart) := by
  induction rest generalizing prev namestart entrystart numentries s with
  | nil => exact .inl ⟨rfl, fun c hc => by cases hc⟩
  | cons curr rest ih =>
      rw [readPieces]
      split
      case isTrue hcut =>
        refine .inr ⟨?_, curr, List.mem_cons_self, hcut⟩
        have hcalls := readExports_calls_length file ord_base namestart prev entrystart numentries s
        rw [List.length_cons]
        obtain ⟨h, -⟩ | ⟨h, -⟩ := ih curr prev (entrystart + numentries * 2) (1 + 1)
          (readExports file ord_base namestart prev entrystart numentries s)
        · rw [h]
          dsimp only
          omega
        · omega
      case isFalse hfits =>
        rw [List.length_cons]
        obtain ⟨h, hall⟩ | ⟨h, c, hc, hlong⟩ := ih curr namestart entrystart (numentries + 1) s
        · refine .inl ⟨by rw [h, Nat.add_right_comm, Nat.add_assoc], fun c hc => ?_⟩
          obtain rfl | hc := List.mem_cons.mp hc
          · exact not_lt.mp hfits
          · exact hall c hc
        · exact .inr ⟨by omega, c, List.mem_cons_of_mem _ hc, hlong⟩

namespace Table

theorem starts_bounds {exports : List (List UInt8 × ℕ)} {o c : ℕ} (h : c ∈ starts exports o) :
    o ≤ c ∧ c < o + (nameTable exports).length := by
  induction exports generalizing o with
  | nil => cases h
  | cons e exports ih =>
      have hlen : (nameTable (e :: exports)).length = e.1.length + 1 + (nameTable exports).length := by
        simp [nameTable]
        omega
      obtain rfl | h := List.mem_cons.mp h
      · omega
      · have := ih h
        omega

theorem starts_length (exports : List (List UInt8 × ℕ)) (o : ℕ) : (starts exports o).length = exports.length := by
  induction exports generalizing o with
  | nil => rfl
  | cons e exports ih => simp [starts, ih]

variable {t : Table} {file : List UInt8} {pos rva size namePtrs ordinals names : ℕ}

/-- The pointers of the name table as places of the file. -/
theorem StoredAt.nameptrs (h : t.StoredAt file pos rva size namePtrs ordinals names) :
    ((List.range (u32At file (pos + 24))).map fun i =>
        sub32 (u32At file (sub32 (u32At file (pos + 32)) (sub32 rva pos) + 4 * i)) (sub32 rva pos)) =
      (starts t.exports 0).map (pos + names + ·) := by
  have hlen := h.file_length
  have hin := h.inFile
  have hptrs := h.namePtrs_le
  have hmap : (List.range t.exports.length).map (fun i => sub32 (u32At file (pos + namePtrs + 4 * i)) (sub32 rva pos)) =
      ((starts t.exports 0).map (rva + names + ·)).map (sub32 · (sub32 rva pos)) := by
    rw [← h.nameptrs_eq, List.map_map]
    rfl
  rw [h.num_name_ptrs_eq, h.name_ptr_table_eq, sub32_sub32 (by omega), hmap, List.map_map]
  refine List.map_congr_left fun c hc => ?_
  have := (starts_bounds hc).2
  have hsize := h.size_eq
  simp only [Function.comp_apply]
  rw [Nat.add_assoc, sub32_sub32 (by omega), Nat.add_assoc]

/-- What the last piece gives when it is the only one. -/
theorem StoredAt.readExports_all (h : t.StoredAt file pos rva size namePtrs ordinals names) (s : Progress) :
    let r := readExports file (ordinal_t t.ordinal_base) (pos + names) ((size + (pos + names)) % 2 ^ 32)
      (pos + ordinals) t.exports.length s
    r.calls = s.calls ++ t.expected ∧ r.reads = s.reads ++ [size] := by
  have hlen := h.file_length
  have hin := h.inFile
  have hsize := h.size_eq
  have hread : sub32 ((size + (pos + names)) % 2 ^ 32) (pos + names) = size := by
    rw [Nat.mod_eq_of_lt (by omega), sub32_of_le (by omega) (by omega)]
    omega
  have htake : (readAt file (pos + names) size).take (nameTable t.exports).length = nameTable t.exports := by
    rw [readAt, List.take_take, Nat.min_eq_left (by omega)]
    exact h.names_eq
  obtain ⟨rest, hrest⟩ : ∃ rest, readAt file (pos + names) size = nameTable t.exports ++ rest :=
    ⟨_, (List.take_append_drop (nameTable t.exports).length _).symm.trans (by rw [htake])⟩
  dsimp only
  unfold readExports
  dsimp only
  rw [hread, hrest, h.ordinals_eq, checkExports_names t.terminated (by rw [List.drop_zero, List.append_assoc])]
  exact ⟨rfl, rfl⟩

end Table

section Reading

variable {t : Table} {file : List UInt8} {objects : List PeObject} {namePtrs ordinals names : ℕ}
  (currobj : PeObject) (dir : PeDirEntry) (tokSize : ℕ) (tokBuff : List UInt8)

/-- The table is read in one piece as long as the section, or more calls are made than there are names. -/
theorem readOldLib_cases {e : List UInt8 × ℕ} {exports : List (List UInt8 × ℕ)}
    (hobj : objects.find? (fun currobj => currobj.rva = dir.rva) = some currobj)
    (h : t.StoredAt file currobj.physical_offset dir.rva dir.size namePtrs ordinals names)
    (hexp : t.exports = e :: exports) :
    let r := readOldLib file tokSize objects dir ⟨tokBuff, [], []⟩
    (r.calls = t.expected ∧ r.reads = [dir.size]) ∨ (t.expected.length < r.calls.length ∧ tokSize < dir.size) := by
  have hlen := h.file_length
  have hin := h.inFile
  have hords := h.ordinals_le
  have hsize := h.size_eq
  have hall := h.readExports_all ⟨tokBuff, [], []⟩
  dsimp only
  rw [readOldLib, hobj]
  dsimp only
  unfold readPEExportTable
  dsimp only
  rw [h.nameptrs, h.ordinal_base_eq, h.ordinal_table_eq, sub32_sub32 (by omega)]
  rw [hexp] at hall ⊢
  simp only [Table.starts, List.map_cons, Nat.add_zero]
  have hcases := readPieces_cases file (ordinal_t t.ordinal_base) tokSize
    ((Table.starts exports (0 + e.1.length + 1)).map (currobj.physical_offset + names + ·))
    (currobj.physical_offset + names) (currobj.physical_offset + names) (currobj.physical_offset + ordinals) 1
    ⟨tokBuff, [], []⟩
  rw [List.length_map, Table.starts_length] at hcases
  obtain ⟨hone, -⟩ | ⟨hmore, c, hc, hlong⟩ := hcases
  · refine .inl ?_
    rw [hone]
    dsimp only
    rw [Nat.add_comm 1, ← List.length_cons, hall.1, hall.2]
    exact ⟨rfl, rfl⟩
  · refine .inr ⟨?_, ?_⟩
    · rw [readExports_calls_length]
      simp only [Table.expected, List.length_map, hexp, List.length_cons, List.length_nil] at hmore ⊢
      exact lt_of_eq_of_lt (by omega) hmore
    · obtain ⟨start, hstart, rfl⟩ := List.mem_map.mp hc
      have hbounds := Table.starts_bounds hstart
      have htable : (Table.nameTable t.exports).length = e.1.length + 1 + (Table.nameTable exports).length := by
        rw [hexp]
        simp [Table.nameTable]
        omega
      rw [sub32_of_le (by omega) (by omega)] at hlong
      omega

/-- A section longer than the buffer is not read as it should be. -/
theorem not_correct_of_long (hobj : objects.find? (fun currobj => currobj.rva = dir.rva) = some currobj)
    (h : t.StoredAt file currobj.physical_offset dir.rva dir.size namePtrs ordinals names)
    (hne : t.exports ≠ []) (hlong : tokSize < dir.size) :
    let r := readOldLib file tokSize objects dir ⟨tokBuff, [], []⟩
    ¬ (r.calls.Perm t.expected ∧ ∀ len ∈ r.reads, len ≤ tokSize) := by
  rintro r ⟨hperm, hreads⟩
  obtain ⟨e, exports, hexp⟩ := List.exists_cons_of_ne_nil hne
  obtain ⟨-, hread⟩ | ⟨hmore, -⟩ := readOldLib_cases currobj dir tokSize tokBuff hobj h hexp
  · have := hreads dir.size (by rw [hread]; exact List.mem_singleton_self _)
    omega
  · exact absurd hperm.length_eq hmore.ne'

/-- Each name is given once with its ordinal and no read is longer than the buffer, exactly when there are no names or
the section of the table is not longer than the buffer. -/
theorem readOldLib_iff (hobj : objects.find? (fun currobj => currobj.rva = dir.rva) = some currobj)
    (h : t.StoredAt file currobj.physical_offset dir.rva dir.size namePtrs ordinals names) :
    let r := readOldLib file tokSize objects dir ⟨tokBuff, [], []⟩
    r.calls.Perm t.expected ∧ (∀ len ∈ r.reads, len ≤ tokSize) ↔ t.exports = [] ∨ dir.size ≤ tokSize := by
  constructor
  · intro hcorrect
    by_contra hno
    push Not at hno
    exact not_correct_of_long currobj dir tokSize tokBuff hobj h hno.1 hno.2 hcorrect
  · intro hfits
    cases hexp : t.exports with
    | nil =>
        have hnone : u32At file (currobj.physical_offset + 24) = 0 := by rw [h.num_name_ptrs_eq, hexp]; rfl
        simp [readOldLib, hobj, readPEExportTable, hnone, Table.expected, hexp]
    | cons e exports =>
        have hsize : dir.size ≤ tokSize := by simpa [hexp] using hfits
        obtain ⟨hcalls, hread⟩ | ⟨-, hlong⟩ := readOldLib_cases currobj dir tokSize tokBuff hobj h hexp
        · rw [hcalls, hread]
          exact ⟨List.Perm.refl _, by simpa using hsize⟩
        · omega

end Reading

/-! ### A table of one name -/

/-- The directory, the pointer of the name and its ordinal, for a section that is loaded at 4096. -/
def oneNameHeader : List UInt8 :=
  List.replicate 16 0 ++ leBytes 4 1 ++ leBytes 4 1 ++ leBytes 4 1 ++ leBytes 4 4136 ++ leBytes 4 4136 ++
    leBytes 4 4140 ++ leBytes 4 4142 ++ leBytes 2 0

/-- One name of `n` letters, with ordinal 1. -/
def oneName (n : ℕ) : Table where
  exports := [(List.replicate n 65, 0)]
  ordinal_base := 1
  terminated := by simp [List.mem_replicate]

theorem readAt_append_left {header rest : List UInt8} {off len : ℕ} (h : off + len ≤ header.length) :
    readAt (header ++ rest) off len = readAt header off len := by
  rw [readAt, List.drop_append_of_le_length (by omega), List.take_append_of_le_length (by simp; omega)]
  rfl

theorem oneName_storedAt {n : ℕ} (h : n < 2 ^ 30) :
    (oneName n).StoredAt (oneNameHeader ++ Table.nameTable (oneName n).exports) 0 4096 (46 + (n + 1)) 40 44 46 := by
  have hheader : oneNameHeader.length = 46 := by decide
  have htable : (Table.nameTable (oneName n).exports).length = n + 1 := by simp [Table.nameTable, oneName]
  have h32 : ∀ off, off + 4 ≤ 46 →
      u32At (oneNameHeader ++ Table.nameTable (oneName n).exports) off = u32At oneNameHeader off :=
    fun off hoff => congrArg leVal (readAt_append_left (by omega))
  have h16 : u16At (oneNameHeader ++ Table.nameTable (oneName n).exports) 44 = u16At oneNameHeader 44 :=
    congrArg leVal (readAt_append_left (by omega))
  refine ⟨?_, ?_, by omega, ?_, ?_, ?_, ?_, by omega, by omega, ?_, ?_, ?_, by omega⟩
  · rw [List.length_append, hheader, htable]
    omega
  · rw [List.length_append, hheader, htable]
    omega
  · exact (h32 16 (by omega)).trans (show u32At oneNameHeader 16 = 1 by decide)
  · exact (h32 24 (by omega)).trans (show u32At oneNameHeader 24 = 1 by decide)
  · exact (h32 32 (by omega)).trans (by decide)
  · exact (h32 36 (by omega)).trans (by decide)
  · exact congrArg (fun v => [v]) ((h32 40 (by omega)).trans (by decide))
  · exact congrArg (fun v => [v]) (h16.trans (show u16At oneNameHeader 44 = 0 by decide))
  · rw [readAt, Nat.zero_add, List.drop_left' hheader, List.take_length]

/-- A short name is read as it should be. -/
theorem readOldLib_iff_short :
    let r := readOldLib (oneNameHeader ++ Table.nameTable (oneName 1).exports) 4096 [⟨4096, 0⟩] ⟨4096, 48⟩ ⟨[], [], []⟩
    r.calls.Perm (oneName 1).expected ∧ (∀ len ∈ r.reads, len ≤ 4096) ↔ (oneName 1).exports = [] ∨ 48 ≤ 4096 :=
  readOldLib_iff ⟨4096, 0⟩ ⟨4096, 48⟩ 4096 [] rfl (oneName_storedAt (by decide))

/-- With a name that just fills the buffer more is read into the buffer than it holds. -/
theorem not_readOldLib_correct :
    ¬ ∀ (t : Table) (file : List UInt8) (pos rva size namePtrs ordinals names : ℕ),
      t.StoredAt file pos rva size namePtrs ordinals names → (∀ e ∈ t.exports, e.1.length < 4096) →
        let r := readOldLib file 4096 [⟨rva, pos⟩] ⟨rva, size⟩ ⟨[], [], []⟩
        r.calls.Perm t.expected ∧ ∀ len ∈ r.reads, len ≤ 4096 := by
  intro h
  have hshort : ∀ e ∈ (oneName 4095).exports, e.1.length < 4096 := by
    intro e he
    obtain rfl := List.mem_singleton.mp he
    exact (List.length_replicate).trans_lt (by decide)
  have hstored := oneName_storedAt (show 4095 < 2 ^ 30 by decide)
  exact not_correct_of_long ⟨4096, 0⟩ ⟨4096, 46 + (4095 + 1)⟩ 4096 [] rfl hstored (List.cons_ne_nil _ _) (by decide)
    (h _ _ _ _ _ _ _ _ hstored hshort)

end OpenWatcom.OldExports
