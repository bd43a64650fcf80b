import OpenWatcom.Lib.Records
import OpenWatcom.Wlink.PeExports

/-! # The import section of a PE file

`RegisterImport` keeps the imported symbols by module, `CalcIDataSize` lays the section out, and `WriteImportInfo` fills
it in several walks over the modules.

* `registerImports_spec`: the lists that the registration leaves;
* `writeImportInfo_image`: the walks write their parts one behind the other;
* `writeImportInfo_correct`: the section leads from each module and each symbol to its name, and the symbols get the
  addresses of their slots. -/

namespace OpenWatcom.PeImports

open OldExports (readAt u16At u32At)
open PeExports (CString stringAt)

/-! ### Registration -/

/-- `isordinal` with `u`: the name of the symbol in the module, or its ordinal there. -/
inductive ImportEntry where
  | entry (name : CString)
  | ordinal (ordinal : BitVec 32)

/-- The part of `dll_sym_info` that is read; `modnum` is a pointer to the name of the module, and `iatsym` to the symbol
that gets an address. -/
structure DllSymInfo where
  modnum : ℕ
  u : ImportEntry
  iatsym : ℕ

/-- `module_import`, with the symbols of its `import_name` list. -/
structure ModuleImport where
  mod : ℕ
  imports : List DllSymInfo
  num_entries : ℕ

/-- `PEImpList`, `NumMods` and `NumImports`. -/
structure ImpList where
  mods : List ModuleImport
  numMods : ℕ
  numImports : ℕ

/-- Whether the walk of `RegisterImport` stops at `chk`; `len` is the shorter of the two lengths. -/
def stopsAt (name : CString) (chk : DllSymInfo) : Bool :=
  match chk.u with
  | .entry chkName =>
      let len := if chkName.1.length > name.1.length then name.1.length else chkName.1.length
      match compare (chkName.1.take len) (name.1.take len) with
      | .gt => true
      | .eq => len > chkName.1.length
      | .lt => false
  | .ordinal _ => false

/-- The list with a symbol before the first one where the walk stops. -/
def insertBefore (sym : DllSymInfo) (stops : DllSymInfo → Bool) : List DllSymInfo → List DllSymInfo
  | [] => [sym]
  | chk :: rest => if stops chk then sym :: chk :: rest else chk :: insertBefore sym stops rest

/-- The list of a module with another symbol, which is the first one when it is imported by ordinal. -/
def addImport (sym : DllSymInfo) (imports : List DllSymInfo) : List DllSymInfo :=
  match sym.u with
  | .entry name => insertBefore sym (stopsAt name) imports
  | .ordinal _ => sym :: imports

/-- The symbol in the list of its module, when there is one. -/
def addToModule (sym : DllSymInfo) : List ModuleImport → Option (List ModuleImport)
  | [] => none
  | mod :: mods =>
      if mod.mod = sym.modnum then
        some ({ mod with imports := addImport sym mod.imports, num_entries := mod.num_entries + 1 } :: mods)
      else (addToModule sym mods).map (mod :: ·)

/-- `RegisterImport`. -/
def registerImport (s : ImpList) (sym : DllSymInfo) : ImpList :=
  match addToModule sym s.mods with
  | some mods => ⟨mods, s.numMods, s.numImports + 1⟩
  | none => ⟨⟨sym.modnum, addImport sym [], 1⟩ :: s.mods, s.numMods + 1, s.numImports + 1⟩

/-- The registration of symbols one after the other. -/
def registerImports (syms : List DllSymInfo) : ImpList := syms.foldl registerImport ⟨[], 0, 0⟩

/-! ### The layout -/

/-- `IData`. -/
structure IData where
  ilt_off : ℕ
  eof_ilt_off : ℕ
  iat_off : ℕ
  mod_name_off : ℕ
  hint_off : ℕ
  total_size : ℕ

/-- `__ROUND_UP_SIZE_EVEN`. -/
def roundUpEven (n : ℕ) : ℕ := (n + 1) / 2 * 2

/-- The place behind the hint and the name of a symbol, which go to an even place. -/
def nextHint (hint_off : ℕ) (sym : DllSymInfo) : ℕ :=
  match sym.u with
  | .entry name => roundUpEven hint_off + (name.1.length + 2 + 1)
  | .ordinal _ => hint_off

/-- The place behind the hints and names of a list of symbols. -/
def hintAt (hint_off : ℕ) (syms : List DllSymInfo) : ℕ := syms.foldl nextHint hint_off

section write

variable (modName : ℕ → CString)

/-- `CalcIDataSize`, when something is imported. -/
def calcIDataSize (s : ImpList) (tocSize : ℕ) : IData :=
  let iatsize := (s.numImports + s.numMods) * 4
  let ilt_off := (s.numMods + 1) * 20
  let eof_ilt_off := ilt_off + iatsize
  let iat_off := eof_ilt_off + tocSize
  let mod_name_off := iat_off + iatsize
  let hint_off := mod_name_off + s.mods.foldl (fun size mod => size + ((modName mod.mod).1.length + 1)) 0
  ⟨ilt_off, eof_ilt_off, iat_off, mod_name_off, hint_off,
    s.mods.foldl (fun size mod => hintAt size mod.imports) hint_off⟩

/-! ### Writing -/

/-- The memory of the section. -/
abbrev Mem := ℕ → UInt8

/-- `PutInfo`. -/
def putInfo (buf : Mem) (pos : ℕ) (data : List UInt8) : Mem := overlay buf pos data

/-- `PutInfoNulls`. -/
def putInfoNulls (buf : Mem) (pos len : ℕ) : Mem := putInfo buf pos (List.replicate len 0)

/-- `pe_import_directory`. -/
structure PeImportDirectory where
  import_lookup_table_rva : ℕ
  time_stamp : ℕ
  major : ℕ
  minor : ℕ
  name_rva : ℕ
  import_address_table_rva : ℕ

def PeImportDirectory.bytes (dir : PeImportDirectory) : List UInt8 :=
  leBytes 4 dir.import_lookup_table_rva ++ (leBytes 4 dir.time_stamp ++ (leBytes 2 dir.major ++ (leBytes 2 dir.minor ++
    (leBytes 4 dir.name_rva ++ leBytes 4 dir.import_address_table_rva))))

/-- The loop of `WriteImportInfo` over the directory. -/
def writeDirectory (d : IData) (linear : ℕ) : List ModuleImport → (size mod_name_rva pos : ℕ) → Mem → ℕ × Mem
  | [], _, _, pos, buf => (pos, buf)
  | mod :: mods, size, mod_name_rva, pos, buf =>
      let dir : PeImportDirectory := ⟨d.ilt_off + size + linear, 0, 0, 0, mod_name_rva, d.iat_off + size + linear⟩
      writeDirectory d linear mods (size + (mod.num_entries + 1) * 4) (mod_name_rva + ((modName mod.mod).1.length + 1))
        (pos + 20) (putInfo buf pos dir.bytes)

/-- The entry of a symbol in the tables: `PE_IMPORT_BY_NAME` or `PE_IMPORT_BY_ORDINAL`. -/
def iatEntry (hint_rva : ℕ) (sym : DllSymInfo) : ℕ :=
  match sym.u with
  | .entry _ => 0 ||| roundUpEven hint_rva
  | .ordinal ordinal => (0x80000000#32 ||| ordinal).toNat

/-- The inner loop of `WriteIAT`. -/
def writeRun : List DllSymInfo → (hint_rva pos : ℕ) → Mem → ℕ × ℕ × Mem
  | [], hint_rva, pos, buf => (hint_rva, pos, buf)
  | sym :: syms, hint_rva, pos, buf =>
      writeRun syms (nextHint hint_rva sym) (pos + 4) (putInfo buf pos (leBytes 4 (iatEntry hint_rva sym)))

/-- The outer loop of `WriteIAT`. -/
def writeIAT : List ModuleImport → (hint_rva pos : ℕ) → Mem → ℕ × Mem
  | [], _, pos, buf => (pos, buf)
  | mod :: mods, hint_rva, pos, buf =>
      let (hint_rva, pos, buf) := writeRun mod.imports hint_rva pos buf
      writeIAT mods hint_rva (pos + 4) (putInfoNulls buf pos 4)

/-- The loop over the names of the modules. -/
def writeModNames : List ModuleImport → ℕ → Mem → ℕ × Mem
  | [], pos, buf => (pos, buf)
  | mod :: mods, pos, buf =>
      writeModNames mods (pos + ((modName mod.mod).1.length + 1)) (putInfo buf pos ((modName mod.mod).1 ++ [0]))

/-- The inner loop over the names of the symbols. -/
def writeHints : List DllSymInfo → (hint pos : ℕ) → Mem → ℕ × Mem
  | [], _, pos, buf => (pos, buf)
  | sym :: syms, hint, pos, buf =>
      match sym.u with
      | .entry name =>
          let (pos, buf) := if pos % 2 = 1 then (pos + 1, putInfoNulls buf pos 1) else (pos, buf)
          let buf := putInfo buf pos (leBytes 2 hint)
          let buf := putInfo buf (pos + 2) name.1
          let buf := putInfoNulls buf (pos + 2 + name.1.length) 1
          writeHints syms (hint + 1) (pos + 2 + name.1.length + 1) buf
      | .ordinal _ => writeHints syms hint pos buf

/-- The outer loop over the names of the symbols. -/
def writeModHints : List ModuleImport → ℕ → Mem → ℕ × Mem
  | [], pos, buf => (pos, buf)
  | mod :: mods, pos, buf =>
      let (pos, buf) := writeHints mod.imports 1 pos buf
      writeModHints mods pos buf

/-- What `WriteImportInfo` leaves behind: the memory, and the places where the walks end. -/
structure Written where
  mem : Mem
  dirEnd : ℕ
  iltEnd : ℕ
  tocEnd : ℕ
  iatEnd : ℕ
  modNameEnd : ℕ
  hintEnd : ℕ

/-- `WriteImportInfo`, for a group at `linear`; `toc` is what `WriteToc` writes. -/
def writeImportInfo (mods : List ModuleImport) (d : IData) (linear : ℕ) (toc : List UInt8) (buf : Mem) : Written :=
  let (pos, buf) := writeDirectory modName d linear mods 0 (d.mod_name_off + linear) 0 buf
  let buf := putInfoNulls buf pos 20
  let (iltEnd, buf) := writeIAT mods (d.hint_off + linear) d.ilt_off buf
  let buf := putInfo buf d.eof_ilt_off toc
  let (iatEnd, buf) := writeIAT mods (d.hint_off + linear) d.iat_off buf
  let (modNameEnd, buf) := writeModNames modName mods d.mod_name_off buf
  let (hintEnd, buf) := writeModHints mods d.hint_off buf
  ⟨buf, pos + 20, iltEnd, d.eof_ilt_off + toc.length, iatEnd, modNameEnd, hintEnd⟩

end write

/-- `WalkImportsMods` with `CalcImpOff` over the symbols of a module: the symbols with their addresses. -/
def walkImports : List DllSymInfo → ℕ → List (ℕ × ℕ) × ℕ
  | [], off => ([], off)
  | sym :: syms, off => ((sym.iatsym, off) :: (walkImports syms (off + 4)).1, (walkImports syms (off + 4)).2)

/-- `WalkImportsMods` with `CalcImpOff`. -/
def walkImportsMods : List ModuleImport → ℕ → List (ℕ × ℕ)
  | [], _ => []
  | mod :: mods, off => (walkImports mod.imports off).1 ++ walkImportsMods mods ((walkImports mod.imports off).2 + 4)

/-! ### What the section is for -/

/-- The bytes of the section. -/
def Written.image (w : Written) (d : IData) : List UInt8 := slice w.mem 0 d.total_size

section spec

variable (image : List UInt8) (linear : ℕ)

/-- An entry of the lookup or the address table is that of a symbol: the address of its hint and name, or its
ordinal. -/
def EntryOf (hint v : ℕ) (sym : DllSymInfo) : Prop :=
  v ≠ 0 ∧ match sym.u with
    | .entry name => linear ≤ v ∧
        readAt image (v - linear) (2 + (name.1.length + 1)) = leBytes 2 hint ++ (name.1 ++ [0])
    | .ordinal ordinal => v = (0x80000000#32 ||| ordinal).toNat

/-- The hint of the next symbol. -/
def hintBehind (hint : ℕ) (sym : DllSymInfo) : ℕ :=
  match sym.u with
  | .entry _ => hint + 1
  | .ordinal _ => hint

/-- The hint of the symbol behind others of its module. -/
def hintOf (syms : List DllSymInfo) : ℕ := syms.foldl hintBehind 1

/-- The entries of a module are at `off`, with a null entry behind them. -/
structure RunAt (off : ℕ) (imports : List DllSymInfo) : Prop where
  entries : ∀ before sym behind, imports = before ++ sym :: behind →
    EntryOf image linear (hintOf before) (u32At image (off + 4 * before.length)) sym
  null : u32At image (off + 4 * imports.length) = 0

/-- The entry `i` of the directory is that of a module. -/
structure ModuleAt (modName : ℕ → CString) (i : ℕ) (mod : ModuleImport) : Prop where
  name : stringAt image (u32At image (20 * i + 12) - linear) = (modName mod.mod).1
  lookup : RunAt image linear (u32At image (20 * i) - linear) mod.imports
  address : RunAt image linear (u32At image (20 * i + 16) - linear) mod.imports

end spec

/-- The section `w` with the layout `d`, and the addresses given to the symbols, are right for the symbols that were
registered. -/
structure Correct (modName : ℕ → CString) (syms : List DllSymInfo) (s : ImpList) (d : IData) (linear base : ℕ)
    (w : Written) (addrs : List (ℕ × ℕ)) : Prop where
  registered : (s.mods.flatMap (·.imports)).Perm syms
  by_module : (s.mods.map (·.mod)).Nodup ∧ ∀ mod ∈ s.mods, ∀ sym ∈ mod.imports, sym.modnum = mod.mod
  -- each walk ends where the next part begins, and the last one at the end of the section
  dir_end : w.dirEnd = d.ilt_off
  ilt_end : w.iltEnd = d.eof_ilt_off
  toc_end : w.tocEnd = d.iat_off
  iat_end : w.iatEnd = d.mod_name_off
  modName_end : w.modNameEnd = d.hint_off
  hint_end : w.hintEnd = d.total_size
  modules : ∀ before mod behind, s.mods = before ++ mod :: behind →
    ModuleAt (w.image d) linear modName before.length mod
  dir_null : readAt (w.image d) (20 * s.mods.length) 20 = List.replicate 20 0
  addrs_length : addrs.length = syms.length
  addrs_slot : ∀ before mod behind, s.mods = before ++ mod :: behind → ∀ front sym back,
    mod.imports = front ++ sym :: back → addrs[(before.flatMap (·.imports)).length + front.length]? =
      some (sym.iatsym, base + u32At (w.image d) (20 * before.length + 16) + 4 * front.length)

/-! ### What the registration leaves -/

/-- The lists after the registration of `syms`. -/
structure ImpList.Holds (s : ImpList) (syms : List DllSymInfo) : Prop where
  numMods_eq : s.numMods = s.mods.length
  numImports_eq : s.numImports = (s.mods.map fun mod => mod.imports.length).sum
  num_entries_eq : ∀ mod ∈ s.mods, mod.num_entries = mod.imports.length
  modnum_eq : ∀ mod ∈ s.mods, ∀ sym ∈ mod.imports, sym.modnum = mod.mod
  nodup : (s.mods.map (·.mod)).Nodup
  perm : (s.mods.flatMap (·.imports)).Perm syms

section registration

variable (sym : DllSymInfo)

theorem insertBefore_perm (stops : DllSymInfo → Bool) (imports : List DllSymInfo) :
    (insertBefore sym stops imports).Perm (sym :: imports) := by
  induction imports with
  | nil => exact List.Perm.refl _
  | cons chk rest ih =>
      unfold insertBefore
      split
      case isTrue => exact List.Perm.refl _
      case isFalse => exact (ih.cons chk).trans (List.Perm.swap sym chk rest)

theorem addImport_perm (imports : List DllSymInfo) : (addImport sym imports).Perm (sym :: imports) := by
  unfold addImport
  split
  · exact insertBefore_perm sym _ _
  · exact List.Perm.refl _

/-- Either no module of the list is that of the symbol, or exactly one gets it. -/
theorem addToModule_cases (mods : List ModuleImport) :
    (addToModule sym mods = none ∧ ∀ mod ∈ mods, mod.mod ≠ sym.modnum) ∨
      ∃ before mod behind, mods = before ++ mod :: behind ∧ mod.mod = sym.modnum ∧
        addToModule sym mods = some (before ++
          { mod with imports := addImport sym mod.imports, num_entries := mod.num_entries + 1 } :: behind) := by
  induction mods with
  | nil => exact .inl ⟨rfl, (fun mod h => by cases h)⟩
  | cons mod mods ih =>
      unfold addToModule
      by_cases heq : mod.mod = sym.modnum
      · exact .inr ⟨[], mod, mods, rfl, heq, if_pos heq⟩
      · rw [if_neg heq]
        obtain ⟨hnone, hne⟩ | ⟨before, m, behind, rfl, hm, hsome⟩ := ih
        · refine .inl ⟨by rw [hnone]; rfl, fun m hmem => ?_⟩
          obtain rfl | hmem := List.mem_cons.mp hmem
          · exact heq
          · exact hne m hmem
        · exact .inr ⟨mod :: before, m, behind, rfl, hm, by rw [hsome]; rfl⟩

theorem ImpList.Holds.registerImport {s : ImpList} {syms : List DllSymInfo} (h : s.Holds syms) (sym : DllSymInfo) :
    (registerImport s sym).Holds (syms ++ [sym]) := by
  have hperm : (sym :: s.mods.flatMap (·.imports)).Perm (syms ++ [sym]) :=
    (h.perm.cons sym).trans (List.perm_append_singleton sym syms).symm
  unfold PeImports.registerImport
  obtain ⟨hnone, hne⟩ | ⟨before, mod, behind, hmods, hmod, hsome⟩ := addToModule_cases sym s.mods
  · -- a new module
    have hone := addImport_perm sym []
    rw [hnone]
    constructor
    case numMods_eq => exact congrArg (· + 1) h.numMods_eq
    case numImports_eq =>
      have hlen := hone.length_eq
      have hnum := h.numImports_eq
      simp only [List.map_cons, List.sum_cons, hlen, List.length_singleton]
      omega
    case num_entries_eq =>
      intro m hm
      obtain rfl | hm := List.mem_cons.mp hm
      · exact hone.length_eq.symm
      · exact h.num_entries_eq m hm
    case modnum_eq =>
      intro m hm x hx
      obtain rfl | hm := List.mem_cons.mp hm
      · rw [List.mem_singleton.mp (hone.mem_iff.mp hx)]
      · exact h.modnum_eq m hm x hx
    case nodup =>
      refine List.nodup_cons.mpr ⟨fun hmem => ?_, h.nodup⟩
      obtain ⟨m, hm, heq⟩ := List.mem_map.mp hmem
      exact hne m hm heq
    case perm =>
      rw [List.flatMap_cons]
      exact (hone.append_right _).trans hperm
  · -- a module that is there
    have hone := addImport_perm sym mod.imports
    have hmem : mod ∈ s.mods := hmods ▸ List.mem_append_right before List.mem_cons_self
    rw [hsome]
    constructor
    case numMods_eq =>
      rw [h.numMods_eq, hmods, List.length_append, List.length_append]
      rfl
    case numImports_eq =>
      have hlen := hone.length_eq
      have hnum := h.numImports_eq
      rw [hmods] at hnum
      simp only [List.map_append, List.map_cons, List.sum_append, List.sum_cons, hlen, List.length_cons] at hnum ⊢
      omega
    case num_entries_eq =>
      intro m hm
      obtain hm | hm := List.mem_append.mp hm
      · exact h.num_entries_eq m (hmods ▸ List.mem_append_left _ hm)
      · obtain rfl | hm := List.mem_cons.mp hm
        · rw [hone.length_eq, List.length_cons, h.num_entries_eq mod hmem]
        · exact h.num_entries_eq m (hmods ▸ List.mem_append_right before (List.mem_cons_of_mem _ hm))
    case modnum_eq =>
      intro m hm x hx
      obtain hm | hm := List.mem_append.mp hm
      · exact h.modnum_eq m (hmods ▸ List.mem_append_left _ hm) x hx
      · obtain rfl | hm := List.mem_cons.mp hm
        · obtain rfl | hx := List.mem_cons.mp (hone.mem_iff.mp hx)
          · exact hmod.symm
          · exact h.modnum_eq mod hmem x hx
        · exact h.modnum_eq m (hmods ▸ List.mem_append_right before (List.mem_cons_of_mem _ hm)) x hx
    case nodup =>
      have hnodup := h.nodup
      rw [hmods] at hnodup
      simpa only [List.map_append, List.map_cons] using hnodup
    case perm =>
      have hsplit : (before.flatMap (·.imports) ++ (addImport sym mod.imports ++ behind.flatMap (·.imports))).Perm
          (sym :: (before.flatMap (·.imports) ++ (mod.imports ++ behind.flatMap (·.imports)))) :=
        ((hone.append_right _).append_left _).trans List.perm_middle
      rw [hmods] at hperm
      simp only [List.flatMap_append, List.flatMap_cons] at hperm ⊢
      exact hsplit.trans hperm

theorem registerImports_spec (syms : List DllSymInfo) : (registerImports syms).Holds syms := by
  induction syms using List.reverseRecOn with
  | nil =>
      exact ⟨rfl, rfl, (fun mod h => by cases h), (fun mod h => by cases h), List.nodup_nil, List.Perm.refl _⟩
  | append_singleton syms sym ih =>
      unfold registerImports at ih ⊢
      rw [List.foldl_append]
      exact ih.registerImport sym

end registration

/-! ### The bytes of the parts -/

section bytes

variable (modName : ℕ → CString)

/-- The bytes of the directory; `size` is that of the runs before. -/
def dirBytes (d : IData) (linear : ℕ) : List ModuleImport → (size mod_name_rva : ℕ) → List UInt8
  | [], _, _ => []
  | mod :: mods, size, mod_name_rva =>
      PeImportDirectory.bytes ⟨d.ilt_off + size + linear, 0, 0, 0, mod_name_rva, d.iat_off + size + linear⟩ ++
        dirBytes d linear mods (size + (mod.num_entries + 1) * 4) (mod_name_rva + ((modName mod.mod).1.length + 1))

/-- The entries of a module. -/
def runBytes : List DllSymInfo → ℕ → List UInt8
  | [], _ => []
  | sym :: syms, hint_rva => leBytes 4 (iatEntry hint_rva sym) ++ runBytes syms (nextHint hint_rva sym)

/-- The entries of all modules, each run with a null entry behind it. -/
def iatBytes : List ModuleImport → ℕ → List UInt8
  | [], _ => []
  | mod :: mods, hint_rva =>
      runBytes mod.imports hint_rva ++ (List.replicate 4 0 ++ iatBytes mods (hintAt hint_rva mod.imports))

def nameBytes (mods : List ModuleImport) : List UInt8 := mods.flatMap fun mod => (modName mod.mod).1 ++ [0]

/-- The hint and the name of a symbol, from `pos` on. -/
def symBytes (hint pos : ℕ) (sym : DllSymInfo) : List UInt8 :=
  match sym.u with
  | .entry name => List.replicate (roundUpEven pos - pos) 0 ++ (leBytes 2 hint ++ (name.1 ++ [0]))
  | .ordinal _ => []

/-- The hints and names of a module. -/
def hintBytes : List DllSymInfo → (hint pos : ℕ) → List UInt8
  | [], _, _ => []
  | sym :: syms, hint, pos => symBytes hint pos sym ++ hintBytes syms (hintBehind hint sym) (nextHint pos sym)

/-- The hints and names of all modules. -/
def modHintBytes : List ModuleImport → ℕ → List UInt8
  | [], _ => []
  | mod :: mods, pos => hintBytes mod.imports 1 pos ++ modHintBytes mods (hintAt pos mod.imports)

theorem le_roundUpEven (n : ℕ) : n ≤ roundUpEven n := by
  unfold roundUpEven
  omega

theorem symBytes_length (hint pos : ℕ) (sym : DllSymInfo) :
    pos + (symBytes hint pos sym).length = nextHint pos sym := by
  have hle := le_roundUpEven pos
  unfold symBytes nextHint
  split
  · simp only [List.length_append, List.length_replicate, leBytes_length, List.length_singleton]
    omega
  · rfl

theorem PeImportDirectory.bytes_length (dir : PeImportDirectory) : dir.bytes.length = 20 := by
  simp [PeImportDirectory.bytes]

theorem overlay_overlay (buf : Mem) (pos : ℕ) (a b : List UInt8) {off : ℕ} (h : off = pos + a.length) :
    overlay (overlay buf pos a) off b = overlay buf pos (a ++ b) := by
  rw [h, overlay_append]

theorem writeDirectory_eq (d : IData) (linear : ℕ) (mods : List ModuleImport) (size mod_name_rva pos : ℕ) (buf : Mem) :
    writeDirectory modName d linear mods size mod_name_rva pos buf =
      (pos + 20 * mods.length, overlay buf pos (dirBytes modName d linear mods size mod_name_rva)) := by
  induction mods generalizing size mod_name_rva pos buf with
  | nil => simp [writeDirectory, dirBytes]
  | cons mod mods ih =>
      rw [writeDirectory, ih, dirBytes, putInfo, overlay_overlay _ _ _ _ (by rw [PeImportDirectory.bytes_length]),
        List.length_cons]
      congr 1
      ring

theorem writeRun_eq (syms : List DllSymInfo) (hint_rva pos : ℕ) (buf : Mem) :
    writeRun syms hint_rva pos buf =
      (hintAt hint_rva syms, pos + 4 * syms.length, overlay buf pos (runBytes syms hint_rva)) := by
  induction syms generalizing hint_rva pos buf with
  | nil => simp [writeRun, runBytes, hintAt]
  | cons sym syms ih =>
      rw [writeRun, ih, runBytes, putInfo, overlay_overlay _ _ _ _ (by rw [leBytes_length]), List.length_cons]
      refine Prod.ext rfl (Prod.ext ?_ rfl)
      dsimp only
      ring

theorem runBytes_length (syms : List DllSymInfo) (hint_rva : ℕ) :
    (runBytes syms hint_rva).length = 4 * syms.length := by
  induction syms generalizing hint_rva with
  | nil => rfl
  | cons sym syms ih =>
      rw [runBytes, List.length_append, leBytes_length, ih, List.length_cons]
      ring

/-- The size of the runs of the modules. -/
def runSize (mods : List ModuleImport) : ℕ := (mods.map fun mod => 4 * (mod.imports.length + 1)).sum

theorem writeIAT_eq (mods : List ModuleImport) (hint_rva pos : ℕ) (buf : Mem) :
    writeIAT mods hint_rva pos buf = (pos + runSize mods, overlay buf pos (iatBytes mods hint_rva)) := by
  induction mods generalizing hint_rva pos buf with
  | nil => simp [writeIAT, iatBytes, runSize]
  | cons mod mods ih =>
      have hlen := runBytes_length mod.imports hint_rva
      unfold writeIAT
      rw [writeRun_eq]
      dsimp only
      rw [ih, iatBytes, putInfoNulls, putInfo, overlay_overlay _ _ _ _ (by rw [List.length_replicate]),
        overlay_overlay _ _ _ _ (by rw [hlen])]
      congr 1
      simp only [runSize, List.map_cons, List.sum_cons]
      ring

theorem iatBytes_length (mods : List ModuleImport) (hint_rva : ℕ) : (iatBytes mods hint_rva).length = runSize mods := by
  induction mods generalizing hint_rva with
  | nil => rfl
  | cons mod mods ih =>
      simp only [iatBytes, List.length_append, runBytes_length, List.length_replicate, ih, runSize, List.map_cons,
        List.sum_cons]
      ring

theorem writeModNames_eq (mods : List ModuleImport) (pos : ℕ) (buf : Mem) :
    writeModNames modName mods pos buf =
      (pos + (nameBytes modName mods).length, overlay buf pos (nameBytes modName mods)) := by
  induction mods generalizing pos buf with
  | nil => simp [writeModNames, nameBytes]
  | cons mod mods ih =>
      have hlen : ((modName mod.mod).1 ++ [(0 : UInt8)]).length = (modName mod.mod).1.length + 1 := by simp
      rw [writeModNames, ih, putInfo, overlay_overlay _ _ _ _ (by rw [hlen])]
      unfold nameBytes
      rw [List.flatMap_cons, List.length_append, hlen, Nat.add_assoc]

theorem writeHints_eq (syms : List DllSymInfo) (hint pos : ℕ) (buf : Mem) :
    writeHints syms hint pos buf = (hintAt pos syms, overlay buf pos (hintBytes syms hint pos)) := by
  induction syms generalizing hint pos buf with
  | nil => simp [writeHints, hintBytes, hintAt]
  | cons sym syms ih =>
      have hlen := symBytes_length hint pos sym
      have hstep : writeHints (sym :: syms) hint pos buf =
          writeHints syms (hintBehind hint sym) (nextHint pos sym) (overlay buf pos (symBytes hint pos sym)) := by
        rw [writeHints]
        unfold hintBehind nextHint symBytes
        cases sym.u with
        | ordinal n =>
            dsimp only
            rw [overlay_nil]
        | entry name =>
            have hpad : (if pos % 2 = 1 then (pos + 1, putInfoNulls buf pos 1) else (pos, buf)) =
                (roundUpEven pos, overlay buf pos (List.replicate (roundUpEven pos - pos) 0)) := by
              unfold roundUpEven
              split
              case isTrue hodd =>
                rw [show (pos + 1) / 2 * 2 = pos + 1 by omega, Nat.add_sub_cancel_left]
                rfl
              case isFalse heven =>
                rw [show (pos + 1) / 2 * 2 = pos by omega, Nat.sub_self, List.replicate_zero, overlay_nil]
            have hle := le_roundUpEven pos
            dsimp only
            rw [hpad]
            dsimp only
            unfold putInfoNulls putInfo
            rw [overlay_overlay _ pos _ (leBytes 2 hint) (by rw [List.length_replicate]; omega),
              overlay_overlay _ pos _ name.1 (by rw [List.length_append, List.length_replicate, leBytes_length]; omega),
              overlay_overlay _ pos _ (List.replicate 1 0)
                (by rw [List.length_append, List.length_append, List.length_replicate, leBytes_length]; omega)]
            simp only [List.append_assoc, List.replicate_one]
            congr 1
            omega
      rw [hstep, ih, overlay_overlay _ _ _ _ hlen.symm, hintBytes]
      rfl

theorem hintBytes_length (syms : List DllSymInfo) (hint pos : ℕ) :
    pos + (hintBytes syms hint pos).length = hintAt pos syms := by
  induction syms generalizing hint pos with
  | nil => rfl
  | cons sym syms ih =>
      have hsym := symBytes_length hint pos sym
      rw [hintBytes, List.length_append, ← Nat.add_assoc, hsym, ih]
      rfl

/-- The place behind the names of all modules. -/
def modHintAt (pos : ℕ) (mods : List ModuleImport) : ℕ := mods.foldl (fun size mod => hintAt size mod.imports) pos

theorem writeModHints_eq (mods : List ModuleImport) (pos : ℕ) (buf : Mem) :
    writeModHints mods pos buf = (modHintAt pos mods, overlay buf pos (modHintBytes mods pos)) := by
  induction mods generalizing pos buf with
  | nil => simp [writeModHints, modHintBytes, modHintAt]
  | cons mod mods ih =>
      unfold writeModHints
      rw [writeHints_eq]
      dsimp only
      rw [ih, modHintBytes, overlay_overlay _ _ _ _ (hintBytes_length mod.imports 1 pos).symm]
      rfl

theorem modHintBytes_length (mods : List ModuleImport) (pos : ℕ) :
    pos + (modHintBytes mods pos).length = modHintAt pos mods := by
  induction mods generalizing pos with
  | nil => rfl
  | cons mod mods ih =>
      have hmod := hintBytes_length mod.imports 1 pos
      rw [modHintBytes, List.length_append, ← Nat.add_assoc, hmod, ih]
      rfl

theorem dirBytes_length (d : IData) (linear : ℕ) (mods : List ModuleImport) (size mod_name_rva : ℕ) :
    (dirBytes modName d linear mods size mod_name_rva).length = 20 * mods.length := by
  induction mods generalizing size mod_name_rva with
  | nil => rfl
  | cons mod mods ih =>
      rw [dirBytes, List.length_append, PeImportDirectory.bytes_length, ih, List.length_cons]
      ring

end bytes

/-! ### The section -/

section image

variable (modName : ℕ → CString) {syms : List DllSymInfo} {s : ImpList} (linear : ℕ) (toc : List UInt8) (buf : Mem)

theorem iatsize_eq (h : s.Holds syms) : (s.numImports + s.numMods) * 4 = runSize s.mods := by
  have hsum : ∀ mods : List ModuleImport,
      ((mods.map fun mod => mod.imports.length).sum + mods.length) * 4 = runSize mods := by
    intro mods
    induction mods with
    | nil => rfl
    | cons mod mods ih =>
        simp only [runSize, List.map_cons, List.sum_cons, List.length_cons] at ih ⊢
        omega
  rw [h.numImports_eq, h.numMods_eq, hsum]

theorem nameBytes_length (mods : List ModuleImport) (n : ℕ) :
    mods.foldl (fun size mod => size + ((modName mod.mod).1.length + 1)) n = n + (nameBytes modName mods).length := by
  induction mods generalizing n with
  | nil => rfl
  | cons mod mods ih =>
      have hcons : (nameBytes modName (mod :: mods)).length =
          (modName mod.mod).1.length + 1 + (nameBytes modName mods).length := by
        unfold nameBytes
        rw [List.flatMap_cons, List.length_append, List.length_append, List.length_singleton]
      rw [List.foldl_cons, ih, hcons]
      ring

/-- The parts of the layout have the sizes of what is written. -/
theorem calcIDataSize_parts (h : s.Holds syms) (tocSize : ℕ) :
    let d := calcIDataSize modName s tocSize
    d.ilt_off = 20 * s.mods.length + 20 ∧ d.eof_ilt_off = d.ilt_off + runSize s.mods ∧
      d.iat_off = d.eof_ilt_off + tocSize ∧ d.mod_name_off = d.iat_off + runSize s.mods ∧
      d.hint_off = d.mod_name_off + (nameBytes modName s.mods).length ∧
      d.total_size = modHintAt d.hint_off s.mods := by
  have hilt : (s.mods.length + 1) * 20 = 20 * s.mods.length + 20 := by ring
  unfold calcIDataSize
  dsimp only
  rw [iatsize_eq h, h.numMods_eq, hilt, nameBytes_length, Nat.zero_add]
  exact ⟨rfl, rfl, rfl, rfl, rfl, rfl⟩

/-- The section in front of the hints and names. -/
def headBytes (s : ImpList) (d : IData) : List UInt8 :=
  dirBytes modName d linear s.mods 0 (d.mod_name_off + linear) ++ (List.replicate 20 0 ++
    (iatBytes s.mods (d.hint_off + linear) ++ (toc ++ (iatBytes s.mods (d.hint_off + linear) ++
      nameBytes modName s.mods))))

/-- The walks write their parts one behind the other. -/
theorem writeImportInfo_eq (h : s.Holds syms) :
    let d := calcIDataSize modName s toc.length
    writeImportInfo modName s.mods d linear toc buf =
      ⟨overlay buf 0 (headBytes modName linear toc s d ++ modHintBytes s.mods d.hint_off), d.ilt_off, d.eof_ilt_off,
        d.iat_off, d.mod_name_off, d.hint_off, d.total_size⟩ := by
  dsimp only
  obtain ⟨hilt, heof, hiatOff, hname, hhint, htotal⟩ := calcIDataSize_parts modName h toc.length
  generalize calcIDataSize modName s toc.length = d at hilt heof hiatOff hname hhint htotal
  have hdir := dirBytes_length modName d linear s.mods 0 (d.mod_name_off + linear)
  have hiat := iatBytes_length s.mods (d.hint_off + linear)
  unfold writeImportInfo
  rw [writeDirectory_eq]
  dsimp only
  rw [writeIAT_eq]
  dsimp only
  rw [writeIAT_eq]
  dsimp only
  rw [writeModNames_eq]
  dsimp only
  rw [writeModHints_eq]
  dsimp only
  unfold putInfoNulls putInfo
  rw [overlay_overlay _ 0 _ (List.replicate 20 0) (by rw [hdir]),
    overlay_overlay _ 0 _ (iatBytes s.mods (d.hint_off + linear))
      (by rw [List.length_append, hdir, List.length_replicate]; omega),
    overlay_overlay _ 0 _ toc
      (by rw [List.length_append, List.length_append, hdir, hiat, List.length_replicate]; omega),
    overlay_overlay _ 0 _ (iatBytes s.mods (d.hint_off + linear))
      (by simp only [List.length_append, hdir, hiat, List.length_replicate]; omega),
    overlay_overlay _ 0 _ (nameBytes modName s.mods)
      (by simp only [List.length_append, hdir, hiat, List.length_replicate]; omega),
    overlay_overlay _ 0 _ (modHintBytes s.mods d.hint_off)
      (by simp only [List.length_append, hdir, hiat, List.length_replicate]; omega)]
  unfold headBytes
  simp only [List.append_assoc]
  rw [← heof, ← hiatOff, ← hname, ← hhint, ← htotal]
  congr 1
  omega

theorem headBytes_length (h : s.Holds syms) : (headBytes modName linear toc s
    (calcIDataSize modName s toc.length)).length = (calcIDataSize modName s toc.length).hint_off := by
  unfold headBytes
  obtain ⟨hilt, heof, hiatOff, hname, hhint, -⟩ := calcIDataSize_parts modName h toc.length
  simp only [List.length_append, dirBytes_length, iatBytes_length, List.length_replicate]
  omega

theorem writeImportInfo_image (h : s.Holds syms) :
    let d := calcIDataSize modName s toc.length
    (writeImportInfo modName s.mods d linear toc buf).image d =
      headBytes modName linear toc s d ++ modHintBytes s.mods d.hint_off := by
  have hhead := headBytes_length modName linear toc h
  have hhints := modHintBytes_length s.mods (calcIDataSize modName s toc.length).hint_off
  have htotal : (calcIDataSize modName s toc.length).total_size =
      (headBytes modName linear toc s (calcIDataSize modName s toc.length) ++
        modHintBytes s.mods (calcIDataSize modName s toc.length).hint_off).length := by
    rw [List.length_append, hhead, hhints]
    rfl
  dsimp only
  rw [writeImportInfo_eq modName linear toc buf h]
  unfold Written.image
  dsimp only
  rw [htotal]
  exact slice_overlay_self buf 0 _

end image

/-! ### Finding a module and a symbol -/

section splits

variable {linear : ℕ} (heven : linear % 2 = 0)

include heven in
theorem roundUpEven_add (n : ℕ) : roundUpEven (n + linear) = roundUpEven n + linear := by
  unfold roundUpEven
  omega

include heven in
theorem nextHint_add (n : ℕ) (sym : DllSymInfo) : nextHint (n + linear) sym = nextHint n sym + linear := by
  unfold nextHint
  split
  · rw [roundUpEven_add heven]
    omega
  · rfl

include heven in
theorem hintAt_add (n : ℕ) (syms : List DllSymInfo) : hintAt (n + linear) syms = hintAt n syms + linear := by
  induction syms generalizing n with
  | nil => rfl
  | cons sym syms ih =>
      have hnext := nextHint_add heven n sym
      unfold hintAt at ih ⊢
      rw [List.foldl_cons, hnext, ih, List.foldl_cons]

include heven in
theorem modHintAt_add (n : ℕ) (mods : List ModuleImport) : modHintAt (n + linear) mods = modHintAt n mods + linear := by
  induction mods generalizing n with
  | nil => rfl
  | cons mod mods ih =>
      have hmod := hintAt_add heven n mod.imports
      unfold modHintAt at ih ⊢
      rw [List.foldl_cons, hmod, ih, List.foldl_cons]

theorem runBytes_split (front : List DllSymInfo) (sym : DllSymInfo) (back : List DllSymInfo) (hint_rva : ℕ) :
    runBytes (front ++ sym :: back) hint_rva = runBytes front hint_rva ++
      (leBytes 4 (iatEntry (hintAt hint_rva front) sym) ++ runBytes back (nextHint (hintAt hint_rva front) sym)) := by
  induction front generalizing hint_rva with
  | nil => rfl
  | cons chk front ih =>
      rw [List.cons_append, runBytes, ih, runBytes, List.append_assoc]
      rfl

theorem iatBytes_split (before : List ModuleImport) (mod : ModuleImport) (behind : List ModuleImport) (hint_rva : ℕ) :
    iatBytes (before ++ mod :: behind) hint_rva = iatBytes before hint_rva ++
      (runBytes mod.imports (modHintAt hint_rva before) ++ (List.replicate 4 0 ++
        iatBytes behind (hintAt (modHintAt hint_rva before) mod.imports))) := by
  induction before generalizing hint_rva with
  | nil => rfl
  | cons m before ih =>
      rw [List.cons_append, iatBytes, ih, iatBytes]
      simp only [List.append_assoc]
      rfl

theorem hintBytes_split (front : List DllSymInfo) (sym : DllSymInfo) (back : List DllSymInfo) (hint pos : ℕ) :
    hintBytes (front ++ sym :: back) hint pos = hintBytes front hint pos ++
      (symBytes (front.foldl hintBehind hint) (hintAt pos front) sym ++
        hintBytes back (hintBehind (front.foldl hintBehind hint) sym) (nextHint (hintAt pos front) sym)) := by
  induction front generalizing hint pos with
  | nil => rfl
  | cons chk front ih =>
      rw [List.cons_append, hintBytes, ih, hintBytes, List.append_assoc]
      rfl

theorem modHintBytes_split (before : List ModuleImport) (mod : ModuleImport) (behind : List ModuleImport) (pos : ℕ) :
    modHintBytes (before ++ mod :: behind) pos = modHintBytes before pos ++
      (hintBytes mod.imports 1 (modHintAt pos before) ++
        modHintBytes behind (hintAt (modHintAt pos before) mod.imports)) := by
  induction before generalizing pos with
  | nil => rfl
  | cons m before ih =>
      rw [List.cons_append, modHintBytes, ih, modHintBytes, List.append_assoc]
      rfl

theorem dirBytes_split (linear : ℕ) (modName : ℕ → CString) (d : IData) (before : List ModuleImport)
    (mod : ModuleImport) (behind : List ModuleImport) (hnum : ∀ m ∈ before, m.num_entries = m.imports.length)
    (size mod_name_rva : ℕ) :
    ∃ rest, dirBytes modName d linear (before ++ mod :: behind) size mod_name_rva =
      dirBytes modName d linear before size mod_name_rva ++
        (PeImportDirectory.bytes ⟨d.ilt_off + (size + runSize before) + linear, 0, 0, 0,
          mod_name_rva + (nameBytes modName before).length, d.iat_off + (size + runSize before) + linear⟩ ++ rest) := by
  induction before generalizing size mod_name_rva with
  | nil => exact ⟨_, rfl⟩
  | cons m before ih =>
      obtain ⟨rest, heq⟩ := ih (fun x hx => hnum x (List.mem_cons_of_mem _ hx)) (size + (m.num_entries + 1) * 4)
        (mod_name_rva + ((modName m.mod).1.length + 1))
      have hsize : size + (m.num_entries + 1) * 4 + runSize before = size + runSize (m :: before) := by
        rw [hnum m List.mem_cons_self]
        simp only [runSize, List.map_cons, List.sum_cons]
        ring
      have hname : mod_name_rva + ((modName m.mod).1.length + 1) + (nameBytes modName before).length =
          mod_name_rva + (nameBytes modName (m :: before)).length := by
        unfold nameBytes
        rw [List.flatMap_cons, List.length_append, List.length_append, List.length_singleton]
        ring
      rw [hsize, hname] at heq
      exact ⟨rest, by rw [List.cons_append, dirBytes, heq, dirBytes, List.append_assoc]⟩

end splits

section find

variable {modName : ℕ → CString} {syms : List DllSymInfo} {s : ImpList} {linear : ℕ} {d : IData}
  {image head : List UInt8}

/-- The hint and the name of a symbol are in the section, where the walk over the entries counts them. -/
theorem readAt_hint (himage : image = head ++ modHintBytes s.mods d.hint_off) (hhead : head.length = d.hint_off)
    {before behind : List ModuleImport} {mod : ModuleImport} (hmods : s.mods = before ++ mod :: behind)
    {front back : List DllSymInfo} {sym : DllSymInfo} (himports : mod.imports = front ++ sym :: back) {name : CString}
    (hname : sym.u = .entry name) :
    readAt image (roundUpEven (hintAt (modHintAt d.hint_off before) front)) (2 + (name.1.length + 1)) =
        leBytes 2 (hintOf front) ++ (name.1 ++ [0]) ∧
      roundUpEven (hintAt (modHintAt d.hint_off before) front) + (2 + (name.1.length + 1)) ≤ image.length := by
  have hle := le_roundUpEven (hintAt (modHintAt d.hint_off before) front)
  have hbefore := modHintBytes_length before d.hint_off
  have hfront := hintBytes_length front 1 (modHintAt d.hint_off before)
  have hsym : symBytes (front.foldl hintBehind 1) (hintAt (modHintAt d.hint_off before) front) sym =
      List.replicate (roundUpEven (hintAt (modHintAt d.hint_off before) front) -
        hintAt (modHintAt d.hint_off before) front) 0 ++ (leBytes 2 (hintOf front) ++ (name.1 ++ [0])) := by
    unfold symBytes
    rw [hname]
    rfl
  have hpre : (head ++ (modHintBytes before d.hint_off ++ (hintBytes front 1 (modHintAt d.hint_off before) ++
      List.replicate (roundUpEven (hintAt (modHintAt d.hint_off before) front) -
        hintAt (modHintAt d.hint_off before) front) 0))).length =
      roundUpEven (hintAt (modHintAt d.hint_off before) front) := by
    simp only [List.length_append, List.length_replicate, hhead]
    omega
  have hlen : (leBytes 2 (hintOf front) ++ (name.1 ++ [(0 : UInt8)])).length = 2 + (name.1.length + 1) := by simp
  rw [hmods, modHintBytes_split, himports, hintBytes_split, hsym] at himage
  obtain ⟨pre, rest, hpre, hsplit⟩ : ∃ pre rest, pre.length =
      roundUpEven (hintAt (modHintAt d.hint_off before) front) ∧
        image = pre ++ ((leBytes 2 (hintOf front) ++ (name.1 ++ [0])) ++ rest) :=
    ⟨_, _, hpre, by rw [himage]; simp only [List.append_assoc]; rfl⟩
  constructor
  · rw [hsplit]
    exact PeExports.readAt_append hpre hlen
  · rw [hsplit, List.length_append, hpre, List.length_append, hlen]
    omega

/-- The entry of a symbol with a name leads to its hint. -/
theorem iatEntry_entry {sym : DllSymInfo} {name : CString} (hu : sym.u = .entry name) (heven : linear % 2 = 0)
    (hint : ℕ) : iatEntry (hint + linear) sym = roundUpEven hint + linear := by
  unfold iatEntry
  rw [hu, roundUpEven_add heven]
  exact Nat.zero_or _

/-- The entry of a symbol with an ordinal is never the null entry. -/
theorem iatEntry_ordinal {sym : DllSymInfo} {ordinal : BitVec 32} (hu : sym.u = .ordinal ordinal) (hint : ℕ) :
    iatEntry hint sym = (0x80000000#32 ||| ordinal).toNat ∧ (0x80000000#32 ||| ordinal).toNat ≠ 0 := by
  refine ⟨by unfold iatEntry; rw [hu], fun hzero => ?_⟩
  have hbits : 0x80000000#32 ||| ordinal = 0#32 := BitVec.eq_of_toNat_eq hzero
  exact absurd (BitVec.or_eq_zero_iff.mp hbits).1 (by decide)

/-- A table of entries at `off`. -/
theorem runAt (himage : image = head ++ modHintBytes s.mods d.hint_off) (hhead : head.length = d.hint_off)
    (heven : linear % 2 = 0) (hpos : 0 < d.hint_off) (hfits : linear + image.length ≤ 2 ^ 32) {a c : List UInt8}
    {off : ℕ} (ha : a.length = off) (htable : image = a ++ (iatBytes s.mods (d.hint_off + linear) ++ c))
    {before behind : List ModuleImport} {mod : ModuleImport} (hmods : s.mods = before ++ mod :: behind) :
    RunAt image linear (off + runSize before) mod.imports := by
  have hbefore := iatBytes_length before (d.hint_off + linear)
  rw [hmods, iatBytes_split] at htable
  constructor
  case entries =>
    intro front sym back himports
    have hfront := runBytes_length front (modHintAt (d.hint_off + linear) before)
    have hpre : (a ++ (iatBytes before (d.hint_off + linear) ++
        runBytes front (modHintAt (d.hint_off + linear) before))).length = off + runSize before + 4 * front.length := by
      rw [List.length_append, List.length_append, ha, hbefore, hfront, Nat.add_assoc]
    have hsplit : ∃ rest, image = (a ++ (iatBytes before (d.hint_off + linear) ++
        runBytes front (modHintAt (d.hint_off + linear) before))) ++
          (leBytes 4 (iatEntry (hintAt (modHintAt (d.hint_off + linear) before) front) sym) ++ rest) := by
      rw [himports, runBytes_split] at htable
      exact ⟨_, by rw [htable]; simp only [List.append_assoc]; rfl⟩
    obtain ⟨rest, hsplit⟩ := hsplit
    have hread : iatEntry (hintAt (modHintAt (d.hint_off + linear) before) front) sym < 2 ^ 32 →
        u32At image (off + runSize before + 4 * front.length) =
          iatEntry (hintAt (modHintAt (d.hint_off + linear) before) front) sym := by
      intro hlt
      conv_lhs => rw [hsplit]
      exact PeExports.u32At_append hpre hlt
    rw [modHintAt_add heven, hintAt_add heven] at hread
    cases hu : sym.u with
    | entry name =>
        obtain ⟨hhint, hle⟩ := readAt_hint himage hhead hmods himports hu
        have hvalue := iatEntry_entry hu heven (hintAt (modHintAt d.hint_off before) front)
        have hround := le_roundUpEven (hintAt (modHintAt d.hint_off before) front)
        have hlow1 := hintBytes_length front 1 (modHintAt d.hint_off before)
        have hlow2 := modHintBytes_length before d.hint_off
        rw [hread (by omega), hvalue]
        unfold EntryOf
        rw [hu]
        refine ⟨by omega, Nat.le_add_left _ _, ?_⟩
        rw [Nat.add_sub_cancel_right]
        exact hhint
    | ordinal ordinal =>
        obtain ⟨hvalue, hne⟩ := iatEntry_ordinal hu (hintAt (modHintAt d.hint_off before) front + linear)
        have hlt := (0x80000000#32 ||| ordinal).isLt
        rw [hread (by omega), hvalue]
        unfold EntryOf
        rw [hu]
        exact ⟨hne, rfl⟩
  case null =>
    have hrun := runBytes_length mod.imports (modHintAt (d.hint_off + linear) before)
    have hpre : (a ++ (iatBytes before (d.hint_off + linear) ++
        runBytes mod.imports (modHintAt (d.hint_off + linear) before))).length =
          off + runSize before + 4 * mod.imports.length := by
      rw [List.length_append, List.length_append, ha, hbefore, hrun, Nat.add_assoc]
    obtain ⟨rest, hsplit⟩ : ∃ rest, image = (a ++ (iatBytes before (d.hint_off + linear) ++
        runBytes mod.imports (modHintAt (d.hint_off + linear) before))) ++ (leBytes 4 0 ++ rest) :=
      ⟨_, by rw [htable]; simp only [List.append_assoc]; rfl⟩
    rw [hsplit]
    exact PeExports.u32At_append hpre (by decide)

theorem stringAt_append {a c : List UInt8} {off : ℕ} (ha : a.length = off) (name : CString) :
    stringAt (a ++ (name.1 ++ [0] ++ c)) off = name.1 := by
  have h0 := name.2
  rw [stringAt, List.drop_left' ha, List.append_assoc, List.takeWhile_append_of_pos]
  · simp
  · intro x hx
    have hne : x ≠ 0 := fun h => h0 (h ▸ hx)
    simpa using hne

/-- The fields of a directory entry at `off`. -/
theorem readAt_directory {a c : List UInt8} {off : ℕ} (ha : a.length = off) (dir : PeImportDirectory)
    (hilt : dir.import_lookup_table_rva < 2 ^ 32) (hname : dir.name_rva < 2 ^ 32)
    (hiat : dir.import_address_table_rva < 2 ^ 32) (himage : image = a ++ (dir.bytes ++ c)) :
    u32At image off = dir.import_lookup_table_rva ∧ u32At image (off + 12) = dir.name_rva ∧
      u32At image (off + 16) = dir.import_address_table_rva := by
  unfold PeImportDirectory.bytes at himage
  refine ⟨?_, ?_, ?_⟩
  · rw [himage, List.append_assoc]
    exact PeExports.u32At_append ha hilt
  · have hpre : (a ++ (leBytes 4 dir.import_lookup_table_rva ++ (leBytes 4 dir.time_stamp ++
        (leBytes 2 dir.major ++ leBytes 2 dir.minor)))).length = off + 12 := by simp [ha]
    have hsplit := PeExports.u32At_append (c := leBytes 4 dir.import_address_table_rva ++ c) hpre hname
    rw [himage]
    simpa only [List.append_assoc] using hsplit
  · have hpre : (a ++ (leBytes 4 dir.import_lookup_table_rva ++ (leBytes 4 dir.time_stamp ++
        (leBytes 2 dir.major ++ (leBytes 2 dir.minor ++ leBytes 4 dir.name_rva))))).length = off + 16 := by simp [ha]
    have hsplit := PeExports.u32At_append (c := c) hpre hiat
    rw [himage]
    simpa only [List.append_assoc] using hsplit

end find

/-! ### The addresses of the symbols -/

section walk

theorem walkImports_eq (syms : List DllSymInfo) (off : ℕ) : walkImports syms off =
    ((List.range syms.length).zipWith (fun i sym => (sym.iatsym, off + 4 * i)) syms, off + 4 * syms.length) := by
  induction syms generalizing off with
  | nil => rfl
  | cons sym syms ih =>
      rw [walkImports, ih, List.length_cons, List.range_succ_eq_map, List.zipWith_cons_cons, List.zipWith_map_left]
      have hoff : ∀ i, off + 4 + 4 * i = off + 4 * (i + 1) := fun i => by ring
      simp only [hoff, Nat.mul_zero, Nat.add_zero, Nat.succ_eq_add_one]

theorem walkImportsMods_length (mods : List ModuleImport) (off : ℕ) :
    (walkImportsMods mods off).length = (mods.flatMap (·.imports)).length := by
  induction mods generalizing off with
  | nil => rfl
  | cons mod mods ih =>
      rw [walkImportsMods, List.length_append, ih, List.flatMap_cons, List.length_append, walkImports_eq,
        List.length_zipWith, List.length_range, Nat.min_self]

theorem walkImportsMods_split (before : List ModuleImport) (mod : ModuleImport) (behind : List ModuleImport) (off : ℕ) :
    ∃ rest, walkImportsMods (before ++ mod :: behind) off =
      walkImportsMods before off ++ ((walkImports mod.imports (off + runSize before)).1 ++ rest) := by
  induction before generalizing off with
  | nil => exact ⟨_, rfl⟩
  | cons m before ih =>
      obtain ⟨rest, heq⟩ := ih ((walkImports m.imports off).2 + 4)
      have hoff : (walkImports m.imports off).2 + 4 + runSize before = off + runSize (m :: before) := by
        rw [walkImports_eq]
        simp only [runSize, List.map_cons, List.sum_cons]
        ring
      rw [hoff] at heq
      exact ⟨rest, by rw [List.cons_append, walkImportsMods, heq, walkImportsMods, List.append_assoc]⟩

theorem walkImportsMods_get (before : List ModuleImport) {mod : ModuleImport} (behind : List ModuleImport) (off : ℕ)
    {front back : List DllSymInfo} {sym : DllSymInfo} (himports : mod.imports = front ++ sym :: back) :
    (walkImportsMods (before ++ mod :: behind) off)[(before.flatMap (·.imports)).length + front.length]? =
      some (sym.iatsym, off + runSize before + 4 * front.length) := by
  obtain ⟨rest, heq⟩ := walkImportsMods_split before mod behind off
  have hlen := walkImportsMods_length before off
  have hfront : front.length < mod.imports.length := by
    rw [himports, List.length_append, List.length_cons]
    omega
  rw [heq, List.getElem?_append_right (by omega), hlen, Nat.add_sub_cancel_left, walkImports_eq,
    List.getElem?_append_left (by rwa [List.length_zipWith, List.length_range, Nat.min_self]),
    List.getElem?_zipWith, List.getElem?_range hfront, himports, List.getElem?_append_right le_rfl, Nat.sub_self]
  rfl

end walk

section modules

variable {modName : ℕ → CString} {syms : List DllSymInfo} {s : ImpList} {linear : ℕ} {d : IData}
  {image toc : List UInt8}

theorem runSize_le {before behind : List ModuleImport} {mod : ModuleImport} (hmods : s.mods = before ++ mod :: behind) :
    runSize before ≤ runSize s.mods := by
  rw [hmods]
  unfold runSize
  rw [List.map_append, List.sum_append]
  omega

/-- The entry of a module in the directory leads to the name and the two tables of the module. -/
theorem moduleAt (h : s.Holds syms) (heven : linear % 2 = 0) (hfits : linear + image.length ≤ 2 ^ 32)
    (hilt : d.ilt_off = 20 * s.mods.length + 20) (heof : d.eof_ilt_off = d.ilt_off + runSize s.mods)
    (hiatOff : d.iat_off = d.eof_ilt_off + toc.length) (hname : d.mod_name_off = d.iat_off + runSize s.mods)
    (hhint : d.hint_off = d.mod_name_off + (nameBytes modName s.mods).length)
    (hhead : (headBytes modName linear toc s d).length = d.hint_off)
    (himage : image = headBytes modName linear toc s d ++ modHintBytes s.mods d.hint_off)
    {before behind : List ModuleImport} {mod : ModuleImport} (hmods : s.mods = before ++ mod :: behind) :
    ModuleAt image linear modName before.length mod ∧
      u32At image (20 * before.length + 16) = d.iat_off + runSize before + linear := by
  have hle := runSize_le hmods
  have hlen : d.hint_off ≤ image.length := by rw [himage, List.length_append]; omega
  have hdirLen := dirBytes_length modName d linear s.mods 0 (d.mod_name_off + linear)
  have hiatLen := iatBytes_length s.mods (d.hint_off + linear)
  have hbeforeLen := dirBytes_length modName d linear before 0 (d.mod_name_off + linear)
  have hnames : nameBytes modName s.mods = nameBytes modName before ++ ((modName mod.mod).1 ++ [0] ++
      nameBytes modName behind) := by
    rw [hmods]
    unfold nameBytes
    rw [List.flatMap_append, List.flatMap_cons]
  have hnameLen : (nameBytes modName before).length < (nameBytes modName s.mods).length := by
    rw [hnames]
    simp only [List.length_append, List.length_singleton]
    omega
  obtain ⟨rest, hdir⟩ := dirBytes_split linear modName d before mod behind
    (fun m hm => h.num_entries_eq m (hmods ▸ List.mem_append_left _ hm)) 0 (d.mod_name_off + linear)
  rw [← hmods] at hdir
  have hhints := himage
  unfold headBytes at himage
  obtain ⟨hlookup, hptr, haddress⟩ := readAt_directory hbeforeLen
    ⟨d.ilt_off + (0 + runSize before) + linear, 0, 0, 0,
      d.mod_name_off + linear + (nameBytes modName before).length, d.iat_off + (0 + runSize before) + linear⟩
    (by dsimp only; omega) (by dsimp only; omega) (by dsimp only; omega)
    (show image = _ by rw [himage, hdir]; simp only [List.append_assoc]; rfl)
  dsimp only at hlookup hptr haddress
  rw [Nat.zero_add] at hlookup haddress
  refine ⟨⟨?_, ?_, ?_⟩, haddress⟩
  · -- the name
    have hpre : (dirBytes modName d linear s.mods 0 (d.mod_name_off + linear) ++ (List.replicate 20 0 ++
        (iatBytes s.mods (d.hint_off + linear) ++ (toc ++ (iatBytes s.mods (d.hint_off + linear) ++
          nameBytes modName before))))).length = d.mod_name_off + (nameBytes modName before).length := by
      simp only [List.length_append, hdirLen, hiatLen, List.length_replicate]
      omega
    obtain ⟨rest, hsplit⟩ : ∃ rest, image = (dirBytes modName d linear s.mods 0 (d.mod_name_off + linear) ++
        (List.replicate 20 0 ++ (iatBytes s.mods (d.hint_off + linear) ++ (toc ++
          (iatBytes s.mods (d.hint_off + linear) ++ nameBytes modName before))))) ++
            ((modName mod.mod).1 ++ [0] ++ rest) :=
      ⟨_, by rw [himage, hnames]; simp only [List.append_assoc]; rfl⟩
    have hoff : d.mod_name_off + linear + (nameBytes modName before).length - linear =
        d.mod_name_off + (nameBytes modName before).length := by omega
    rw [hptr, hoff, hsplit]
    exact stringAt_append hpre _
  · -- the lookup table
    have hpre : (dirBytes modName d linear s.mods 0 (d.mod_name_off + linear) ++ List.replicate 20 0).length =
        d.ilt_off := by
      rw [List.length_append, hdirLen, List.length_replicate]
      omega
    have hoff : d.ilt_off + runSize before + linear - linear = d.ilt_off + runSize before := by omega
    rw [hlookup, hoff]
    exact runAt hhints hhead heven (by omega) hfits hpre
      (by rw [himage]; simp only [List.append_assoc]; rfl) hmods
  · -- the address table
    have hpre : (dirBytes modName d linear s.mods 0 (d.mod_name_off + linear) ++ (List.replicate 20 0 ++
        (iatBytes s.mods (d.hint_off + linear) ++ toc))).length = d.iat_off := by
      simp only [List.length_append, hdirLen, hiatLen, List.length_replicate]
      omega
    have hoff : d.iat_off + runSize before + linear - linear = d.iat_off + runSize before := by omega
    rw [haddress, hoff]
    exact runAt hhints hhead heven (by omega) hfits hpre
      (by rw [himage]; simp only [List.append_assoc]; rfl) hmods

end modules

/-- The import section of any symbols, registered in any order, in a group at a multiple of the object alignment: the
walks fill exactly the size that was computed, one part behind the other, and every pointer of the section and every
address of a symbol leads to what it stands for. -/
theorem writeImportInfo_correct (modName : ℕ → CString) (syms : List DllSymInfo) (linear base : ℕ) (toc : List UInt8)
    (buf : Mem) (heven : linear % 2 = 0)
    (hfits : linear + (calcIDataSize modName (registerImports syms) toc.length).total_size ≤ 2 ^ 32) :
    Correct modName syms (registerImports syms) (calcIDataSize modName (registerImports syms) toc.length) linear base
      (writeImportInfo modName (registerImports syms).mods
        (calcIDataSize modName (registerImports syms) toc.length) linear toc buf)
      (walkImportsMods (registerImports syms).mods
        (linear + base + (calcIDataSize modName (registerImports syms) toc.length).iat_off)) := by
  have h := registerImports_spec syms
  have hw := writeImportInfo_eq modName linear toc buf h
  have himage := writeImportInfo_image modName linear toc buf h
  have hhead := headBytes_length modName linear toc h
  obtain ⟨hilt, heof, hiatOff, hname, hhint, htotal⟩ := calcIDataSize_parts modName h toc.length
  generalize registerImports syms = s at h hw himage hhead hilt heof hiatOff hname hhint htotal hfits ⊢
  generalize calcIDataSize modName s toc.length = d at hw himage hhead hilt heof hiatOff hname hhint htotal hfits ⊢
  dsimp only at hw himage
  rw [hw] at himage ⊢
  generalize himg : Written.image _ d = image at himage
  have hlen : image.length = d.total_size := by
    rw [himage, List.length_append, hhead, modHintBytes_length, htotal]
  rw [← hlen] at hfits
  have hmodule : ∀ before mod behind, s.mods = before ++ mod :: behind →
      ModuleAt image linear modName before.length mod ∧
        u32At image (20 * before.length + 16) = d.iat_off + runSize before + linear :=
    fun _ _ _ => moduleAt h heven hfits hilt heof hiatOff hname hhint hhead himage
  constructor
  case registered => exact h.perm
  case by_module => exact ⟨h.nodup, h.modnum_eq⟩
  case dir_end => rfl
  case ilt_end => rfl
  case toc_end => rfl
  case iat_end => rfl
  case modName_end => rfl
  case hint_end => rfl
  case modules =>
    intro before mod behind hmods
    rw [himg]
    exact (hmodule before mod behind hmods).1
  case dir_null =>
    have hpre := dirBytes_length modName d linear s.mods 0 (d.mod_name_off + linear)
    rw [himg, himage]
    unfold headBytes
    rw [List.append_assoc, List.append_assoc]
    exact PeExports.readAt_append hpre (List.length_replicate ..)
  case addrs_length => rw [walkImportsMods_length, h.perm.length_eq]
  case addrs_slot =>
    intro before mod behind hmods front sym back himports
    have hget := walkImportsMods_get before behind (linear + base + d.iat_off) himports
    rw [himg, (hmodule before mod behind hmods).2, hmods, hget]
    congr 2
    ring

theorem zero_notMem_f : (0 : UInt8) ∉ [102] := by decide

/-- Two symbols of two modules: `f` by its name, and another one by the ordinal 3. -/
def twoImports : List DllSymInfo := [⟨0, .entry ⟨[102], zero_notMem_f⟩, 0⟩, ⟨1, .ordinal 3, 1⟩]

/-- The modules `a` and `b`. -/
def twoNames (p : ℕ) : CString := if p = 0 then ⟨[97], by decide⟩ else ⟨[98], by decide⟩

theorem writeImportInfo_correct_two : 4096 % 2 = 0 ∧
    4096 + (calcIDataSize twoNames (registerImports twoImports) ([] : List UInt8).length).total_size ≤ 2 ^ 32 ∧
    Correct twoNames twoImports (registerImports twoImports)
      (calcIDataSize twoNames (registerImports twoImports) ([] : List UInt8).length) 4096 0x400000
      (writeImportInfo twoNames (registerImports twoImports).mods
        (calcIDataSize twoNames (registerImports twoImports) ([] : List UInt8).length) 4096 [] fun _ => 0)
      (walkImportsMods (registerImports twoImports).mods (4096 + 0x400000 +
        (calcIDataSize twoNames (registerImports twoImports) ([] : List UInt8).length).iat_off)) := by
  have hfits : 4096 + (calcIDataSize twoNames (registerImports twoImports)
      ([] : List UInt8).length).total_size ≤ 2 ^ 32 := by decide +kernel
  exact ⟨by decide, hfits, writeImportInfo_correct twoNames twoImports 4096 0x400000 [] (fun _ => 0) (by decide) hfits⟩

end OpenWatcom.PeImports
