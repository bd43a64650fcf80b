import OpenWatcom.Lib.Bisection
import OpenWatcom.Lib.Blocks
import OpenWatcom.Wlink.OldExports

/-! # The export section of a PE file

`WriteExportInfo` computes the addresses of its tables from the address of the section, and writes them behind each
other with zeros where the position in the load file asks for them. -/

namespace OpenWatcom.PeExports

open OldExports (readAt u16At u32At)

/-! ### The exports -/

/-- A string of C, without its terminator. -/
abbrev CString := {s : List UInt8 // (0 : UInt8) ∉ s}

/-- `strcmp`. -/
def strcmp (a b : CString) : Ordering := compare a.1 b.1

/-- The part of `entry_export` that is written. -/
structure EntryExport where
  name : CString
  ordinal : ℕ
  /-- `addr.off`. -/
  off : BitVec 32

/-- A list of exports, which the linker keeps in the order of the ordinals. -/
structure ExportList where
  exports : List EntryExport
  nonempty : exports ≠ []
  increasing : exports.Pairwise (·.ordinal < ·.ordinal)
  small : ∀ e ∈ exports, e.ordinal < 2 ^ 16
  distinct : exports.Pairwise (·.name ≠ ·.name)

/-! ### Writing -/

/-- The part of `pe_object` that is set. -/
structure PeObject where
  rva : ℕ
  physical_offset : ℕ
  physical_size : ℕ

/-- `pe_dir_entry`. -/
structure PeDirEntry where
  rva : ℕ
  size : ℕ

/-- `pe_export_directory`. -/
structure PeExportDirectory where
  flags : ℕ
  time_stamp : ℕ
  major : ℕ
  minor : ℕ
  name_rva : ℕ
  ordinal_base : ℕ
  num_eat_entries : ℕ
  num_name_ptrs : ℕ
  address_table_rva : ℕ
  name_ptr_table_rva : ℕ
  ordinal_table_rva : ℕ

def PeExportDirectory.bytes (dir : PeExportDirectory) : List UInt8 :=
  leBytes 4 dir.flags ++ leBytes 4 dir.time_stamp ++ leBytes 2 dir.major ++ leBytes 2 dir.minor ++
    leBytes 4 dir.name_rva ++ leBytes 4 dir.ordinal_base ++ leBytes 4 dir.num_eat_entries ++
    leBytes 4 dir.num_name_ptrs ++ leBytes 4 dir.address_table_rva ++ leBytes 4 dir.name_ptr_table_rva ++
    leBytes 4 dir.ordinal_table_rva

/-- `__ROUND_UP_SIZE`, for a power of two. -/
def roundUpSize (x amt : ℕ) : ℕ := (x + (amt - 1)) / amt * amt

/-- `PadLoad`. -/
def padLoad (file : List UInt8) (size : ℕ) : List UInt8 := file ++ List.replicate size 0

/-- `NullAlign`. -/
def nullAlign (file : List UInt8) (align : ℕ) : List UInt8 := padLoad file (roundUpSize file.length align - file.length)

/-- `FmtData.u.os2fam.exports->ordinal`. -/
def firstOrdinal : List EntryExport → ℕ
  | [] => 0
  | exp :: _ => exp.ordinal

/-- The loop that finds `high_ord`. -/
def highOrd (exports : List EntryExport) (high_ord : ℕ) : ℕ := exports.foldl (fun _ exp => exp.ordinal) high_ord

/-- The directory, for a section at `rva` and a module name of `namelen` bytes with its terminator. -/
def directory (rva namelen : ℕ) (exports : List EntryExport) : PeExportDirectory :=
  let num_entries := exports.length
  let name_rva := rva + 40
  let ordinal_base := firstOrdinal exports
  let address_table_rva := roundUpSize (name_rva + namelen) 4
  let num_eat_entries := highOrd exports 0 - ordinal_base + 1
  let name_ptr_table_rva := address_table_rva + num_eat_entries * 4
  ⟨0, 0, 0, 0, name_rva, ordinal_base, num_eat_entries, num_entries, address_table_rva, name_ptr_table_rva,
    name_ptr_table_rva + num_entries * 4⟩

/-- The loop that writes the address table. -/
def writeAddresses : List EntryExport → ℕ → List UInt8 → List UInt8
  | [], _, file => file
  | exp :: exps, next_ord, file =>
      let file := if next_ord < exp.ordinal then padLoad file ((exp.ordinal - next_ord) * 4) else file
      writeAddresses exps (exp.ordinal + 1) (file ++ leBytes 4 exp.off.toNat)

/-- The loop that writes the name pointers; `eat` is the address of the next name. -/
def writeNamePtrs : List EntryExport → ℕ → List UInt8 → ℕ × List UInt8
  | [], eat, file => (eat, file)
  | exp :: exps, eat, file => writeNamePtrs exps (eat + exp.name.1.length + 1) (file ++ leBytes 4 eat)

/-- The loop that writes the ordinals. -/
def writeOrdinals (ordinal_base : ℕ) : List EntryExport → List UInt8 → List UInt8
  | [], file => file
  | exp :: exps, file => writeOrdinals ordinal_base exps (file ++ leBytes 2 (exp.ordinal - ordinal_base))

/-- The loop that writes the names. -/
def writeNames : List EntryExport → List UInt8 → List UInt8
  | [], file => file
  | exp :: exps, file => writeNames exps (file ++ (exp.name.1 ++ [0]))

/-- What `WriteExportInfo` leaves behind: the load file, and the places in it where the module name and the tables
begin. -/
structure Written where
  object : PeObject
  dir : PeExportDirectory
  entry : PeDirEntry
  file : List UInt8
  namePos : ℕ
  addressPos : ℕ
  namePtrPos : ℕ
  ordinalPos : ℕ

/-- The exports in the order of `namecmp_exp`. -/
def sorted (exports : List EntryExport) : List EntryExport :=
  exports.mergeSort fun exp1 exp2 => (strcmp exp1.name exp2.name).isLE

/-- `WriteExportInfo`, behind `file` and for a section at `rva`. -/
def writeExportInfo (file : List UInt8) (file_align rva : ℕ) (name : CString) (exports : List EntryExport) : Written :=
  let start := nullAlign file file_align
  let dir := directory rva (name.1.length + 1) exports
  let head := start ++ dir.bytes
  let addresses := nullAlign (head ++ (name.1 ++ [0])) 4
  let namePtrs := writeAddresses exports dir.ordinal_base addresses
  let p := writeNamePtrs (sorted exports) (dir.ordinal_table_rva + dir.num_name_ptrs * 2) namePtrs
  let size := p.1 - rva
  { object := ⟨rva, start.length, roundUpSize size file_align⟩
    dir := dir
    entry := ⟨rva, size⟩
    file := writeNames (sorted exports) (writeOrdinals dir.ordinal_base (sorted exports) p.2)
    namePos := head.length
    addressPos := addresses.length
    namePtrPos := namePtrs.length
    ordinalPos := p.2.length }

/-! ### The loader -/

/-- The string at a place. -/
def stringAt (image : List UInt8) (off : ℕ) : List UInt8 := (image.drop off).takeWhile (· ≠ 0)

section loader

variable (image : List UInt8) (rva : ℕ)

/-- The address that the loader finds for an entry of the address table, in a section that is at `rva`. -/
def addressAt (i : ℕ) : ℕ := u32At image (u32At image 28 - rva + 4 * i)

/-- The name at an entry of the name pointer table. -/
def nameAt (i : ℕ) : List UInt8 := stringAt image (u32At image (u32At image 32 - rva + 4 * i) - rva)

/-- The lookup of a name: a binary search of the name pointers, then the ordinal table and the address table. -/
def lookupName (name : CString) : Option ℕ :=
  (bisect (fun i => compare name.1 (nameAt image rva i)) 0 (u32At image 24)).map fun i =>
    addressAt image rva (u16At image (u32At image 36 - rva + 2 * i))

/-- The lookup of an ordinal; 0 when the address table has no entry for it. -/
def lookupOrdinal (ordinal : ℕ) : ℕ :=
  if u32At image 16 ≤ ordinal ∧ ordinal - u32At image 16 < u32At image 20 then
    addressAt image rva (ordinal - u32At image 16)
  else 0

end loader

/-- The bytes of the section. -/
def Written.image (w : Written) : List UInt8 := w.file.drop w.object.physical_offset

/-- The place of the load file for an address of the section. -/
def Written.PosOf (w : Written) (addr pos : ℕ) : Prop := addr + w.object.physical_offset = pos + w.object.rva

/-- The section is right for a list of exports: the directory leads to what was written, and the lookups with it find
exactly the exports. -/
structure Correct (exports : List EntryExport) (w : Written) : Prop where
  name_pos : w.PosOf w.dir.name_rva w.namePos
  address_pos : w.PosOf w.dir.address_table_rva w.addressPos
  namePtr_pos : w.PosOf w.dir.name_ptr_table_rva w.namePtrPos
  ordinal_pos : w.PosOf w.dir.ordinal_table_rva w.ordinalPos
  entry_size : w.entry.rva = w.object.rva ∧ w.image.length = w.entry.size
  lookup_name : ∀ e ∈ exports, lookupName w.image w.entry.rva e.name = some e.off.toNat
  lookup_other : ∀ name, (∀ e ∈ exports, e.name ≠ name) → lookupName w.image w.entry.rva name = none
  lookup_ordinal : ∀ e ∈ exports, lookupOrdinal w.image w.entry.rva e.ordinal = e.off.toNat
  lookup_unused : ∀ n, (∀ e ∈ exports, e.ordinal ≠ n) → lookupOrdinal w.image w.entry.rva n = 0

/-! ### The tables -/

/-- The address of the export with an ordinal, or 0. -/
def addressOf (exports : List EntryExport) (n : ℕ) : ℕ :=
  ((exports.find? fun e => e.ordinal = n).map fun e => e.off.toNat).getD 0

/-- The ordinal behind the last one, or `next_ord`. -/
def endOrd (exports : List EntryExport) (next_ord : ℕ) : ℕ := exports.foldl (fun _ exp => exp.ordinal + 1) next_ord

section tables

variable {exports : List EntryExport}

theorem addressOf_of_forall_ne {n : ℕ} (h : ∀ e ∈ exports, e.ordinal ≠ n) : addressOf exports n = 0 := by
  have hnone : (exports.find? fun e => e.ordinal = n) = none :=
    List.find?_eq_none.mpr fun e he => by simpa using h e he
  rw [addressOf, hnone]
  rfl

theorem addressOf_of_mem (h : exports.Pairwise (·.ordinal < ·.ordinal)) {e : EntryExport} (he : e ∈ exports) :
    addressOf exports e.ordinal = e.off.toNat := by
  induction exports with
  | nil => cases he
  | cons exp exps ih =>
      obtain ⟨hhead, htail⟩ := List.pairwise_cons.mp h
      unfold addressOf
      obtain rfl | he := List.mem_cons.mp he
      · rw [List.find?_cons_of_pos (by simp)]
        rfl
      · rw [List.find?_cons_of_neg (by simpa using (hhead e he).ne)]
        exact ih htail he

theorem addressOf_lt (exports : List EntryExport) (n : ℕ) : addressOf exports n < 256 ^ 4 := by
  unfold addressOf
  cases exports.find? fun e => e.ordinal = n with
  | none => exact (by decide : 0 < 256 ^ 4)
  | some e => exact e.off.isLt

theorem le_endOrd (h : exports.Pairwise (·.ordinal < ·.ordinal)) {next_ord : ℕ}
    (hnext : ∀ e ∈ exports, next_ord ≤ e.ordinal) :
    next_ord ≤ endOrd exports next_ord ∧ ∀ e ∈ exports, e.ordinal < endOrd exports next_ord := by
  induction exports generalizing next_ord with
  | nil => exact ⟨le_rfl, fun e he => by cases he⟩
  | cons exp exps ih =>
      obtain ⟨hhead, htail⟩ := List.pairwise_cons.mp h
      obtain ⟨hle, hall⟩ := ih htail (show ∀ e ∈ exps, exp.ordinal + 1 ≤ e.ordinal from hhead)
      have hexp := hnext exp List.mem_cons_self
      constructor
      · exact le_trans (by omega) hle
      · intro e he
        obtain rfl | he := List.mem_cons.mp he
        · exact hle
        · exact hall e he

theorem endOrd_eq_highOrd (h : exports ≠ []) (m n : ℕ) : endOrd exports n = highOrd exports m + 1 := by
  induction exports generalizing m n with
  | nil => exact absurd rfl h
  | cons exp exps ih =>
      cases exps with
      | nil => rfl
      | cons exp' exps => exact ih (List.cons_ne_nil _ _) exp.ordinal (exp.ordinal + 1)

/-- The bytes of the address table from an ordinal on. -/
def addressTable (exports : List EntryExport) (first count : ℕ) : List UInt8 :=
  (List.range' first count).flatMap fun n => leBytes 4 (addressOf exports n)

theorem addressTable_zeros {first count : ℕ} (h : ∀ n, first ≤ n → n < first + count → addressOf exports n = 0) :
    addressTable exports first count = List.replicate (count * 4) 0 := by
  induction count generalizing first with
  | zero => rfl
  | succ count ih =>
      have htail := ih (show ∀ n, first + 1 ≤ n → n < first + 1 + count → addressOf exports n = 0 from
        fun n hlow hhigh => h n (by omega) (by omega))
      unfold addressTable at htail ⊢
      rw [List.range'_succ, List.flatMap_cons, htail, h first le_rfl (by omega), Nat.add_mul, Nat.add_comm,
        List.replicate_add]
      rfl

theorem range'_split {a b c : ℕ} (hab : a ≤ b) (hbc : b < c) :
    List.range' a (c - a) = List.range' a (b - a) ++ b :: List.range' (b + 1) (c - (b + 1)) := by
  obtain ⟨k, rfl⟩ := Nat.exists_eq_add_of_le hab
  obtain ⟨m, rfl⟩ := Nat.exists_eq_add_of_lt hbc
  rw [← List.range'_succ, Nat.add_sub_cancel_left, List.range'_append_1]
  congr 1
  omega

/-- The gaps between the ordinals are filled with zeros. -/
theorem writeAddresses_eq (h : exports.Pairwise (·.ordinal < ·.ordinal)) {next_ord : ℕ}
    (hnext : ∀ e ∈ exports, next_ord ≤ e.ordinal) (file : List UInt8) :
    writeAddresses exports next_ord file =
      file ++ addressTable exports next_ord (endOrd exports next_ord - next_ord) := by
  induction exports generalizing next_ord file with
  | nil => simp [writeAddresses, addressTable, endOrd]
  | cons exp exps ih =>
      obtain ⟨hhead, htail⟩ := List.pairwise_cons.mp h
      have hexp := hnext exp List.mem_cons_self
      have hend : exp.ordinal + 1 ≤ endOrd exps (exp.ordinal + 1) := (le_endOrd htail hhead).1
      have hpad : (if next_ord < exp.ordinal then padLoad file ((exp.ordinal - next_ord) * 4) else file) =
          file ++ addressTable (exp :: exps) next_ord (exp.ordinal - next_ord) := by
        rw [addressTable_zeros]
        · split
          case isTrue => rfl
          case isFalse hle =>
            rw [Nat.sub_eq_zero_of_le (not_lt.mp hle), Nat.zero_mul, List.replicate_zero, List.append_nil]
        · intro n hlow hhigh
          refine addressOf_of_forall_ne fun e he => ?_
          obtain rfl | he := List.mem_cons.mp he
          · omega
          · have hlt := hhead e he
            omega
      have hself : addressOf (exp :: exps) exp.ordinal = exp.off.toNat := addressOf_of_mem h List.mem_cons_self
      have hrest : addressTable exps (exp.ordinal + 1) (endOrd exps (exp.ordinal + 1) - (exp.ordinal + 1)) =
          addressTable (exp :: exps) (exp.ordinal + 1) (endOrd exps (exp.ordinal + 1) - (exp.ordinal + 1)) := by
        unfold addressTable
        refine List.flatMap_congr fun n hn => ?_
        have hne : exp.ordinal ≠ n := by
          have hlow := (List.mem_range'_1.mp hn).1
          omega
        have hfind : addressOf (exp :: exps) n = addressOf exps n := by
          unfold addressOf
          rw [List.find?_cons_of_neg (by simpa using hne)]
        rw [hfind]
      have hrange : List.range' next_ord (endOrd (exp :: exps) next_ord - next_ord) =
          List.range' next_ord (exp.ordinal - next_ord) ++
            exp.ordinal :: List.range' (exp.ordinal + 1) (endOrd exps (exp.ordinal + 1) - (exp.ordinal + 1)) :=
        range'_split hexp hend
      unfold writeAddresses
      dsimp only
      rw [ih htail hhead, hpad, hrest, ← hself]
      unfold addressTable
      rw [hrange, List.flatMap_append, List.flatMap_cons]
      simp only [List.append_assoc]

/-- The bytes of the names, each with its terminator. -/
def nameTable (exports : List EntryExport) : List UInt8 := exports.flatMap fun exp => exp.name.1 ++ [0]

/-- Each name pointer is behind the names before it. -/
theorem writeNamePtrs_eq (exports : List EntryExport) (eat : ℕ) (file : List UInt8) :
    writeNamePtrs exports eat file = (eat + (nameTable exports).length,
      file ++ (List.range exports.length).flatMap fun i => leBytes 4 (eat + (nameTable (exports.take i)).length)) := by
  induction exports generalizing eat file with
  | nil => simp [writeNamePtrs, nameTable]
  | cons exp exps ih =>
      have hlen : ∀ l, (nameTable (exp :: l)).length = exp.name.1.length + 1 + (nameTable l).length := by
        intro l
        simp [nameTable]
        omega
      rw [writeNamePtrs, ih, List.length_cons, List.range_succ_eq_map, List.flatMap_cons, List.flatMap_map]
      simp only [List.take_succ_cons, List.take_zero, hlen, List.append_assoc, ← Nat.add_assoc]
      rfl

theorem writeOrdinals_eq (ordinal_base : ℕ) (exports : List EntryExport) (file : List UInt8) :
    writeOrdinals ordinal_base exports file =
      file ++ exports.flatMap fun exp => leBytes 2 (exp.ordinal - ordinal_base) := by
  induction exports generalizing file with
  | nil => exact (List.append_nil _).symm
  | cons exp exps ih => rw [writeOrdinals, ih, List.flatMap_cons, List.append_assoc]

theorem writeNames_eq (exports : List EntryExport) (file : List UInt8) :
    writeNames exports file = file ++ nameTable exports := by
  induction exports generalizing file with
  | nil => exact (List.append_nil _).symm
  | cons exp exps ih => rw [writeNames, ih, nameTable, nameTable, List.flatMap_cons, List.append_assoc]

end tables

/-! ### Reading -/

section reading

theorem readAt_append {a b c : List UInt8} {off k : ℕ} (ha : a.length = off) (hb : b.length = k) :
    readAt (a ++ (b ++ c)) off k = b := by
  rw [readAt, List.drop_left' ha, List.take_left' hb]

theorem u32At_append {a c : List UInt8} {off n : ℕ} (ha : a.length = off) (hn : n < 2 ^ 32) :
    u32At (a ++ (leBytes 4 n ++ c)) off = n := by
  unfold u32At
  rw [readAt_append ha (leBytes_length 4 n)]
  exact leVal_leBytes (k := 4) (by omega)

theorem flatMap_split {α : Type} (f : α → List UInt8) {l : List α} {i : ℕ} (hi : i < l.length) :
    l.flatMap f = (l.take i).flatMap f ++ (f l[i] ++ (l.drop (i + 1)).flatMap f) := by
  conv_lhs => rw [← List.take_append_drop i l, List.drop_eq_getElem_cons hi]
  rw [List.flatMap_append, List.flatMap_cons]

/-- An entry of a table. -/
theorem readAt_table {α : Type} {f : α → List UInt8} {k : ℕ} (hf : ∀ x, (f x).length = k) {a c : List UInt8} {off : ℕ}
    (ha : a.length = off) {l : List α} {i : ℕ} (hi : i < l.length) :
    readAt (a ++ (l.flatMap f ++ c)) (off + k * i) k = f l[i] := by
  have hbefore : (a ++ (l.take i).flatMap f).length = off + k * i := by
    rw [List.length_append, ha, length_flatMap_of_length hf, List.length_take, Nat.min_eq_left hi.le]
    ring
  rw [flatMap_split f hi, List.append_assoc, ← List.append_assoc a, List.append_assoc (f l[i])]
  exact readAt_append hbefore (hf _)

/-- A name of the name table. -/
theorem stringAt_nameTable {a c : List UInt8} {off : ℕ} (ha : a.length = off) {l : List EntryExport} {i : ℕ}
    (hi : i < l.length) :
    stringAt (a ++ (nameTable l ++ c)) (off + (nameTable (l.take i)).length) = (l[i]).name.1 := by
  have hbefore : (a ++ nameTable (l.take i)).length = off + (nameTable (l.take i)).length := by
    rw [List.length_append, ha]
  have h0 := (l[i]).name.2
  rw [nameTable, flatMap_split _ hi, List.append_assoc, ← List.append_assoc a, stringAt]
  unfold nameTable at hbefore ⊢
  rw [List.drop_left' hbefore, List.append_assoc, List.append_assoc, List.takeWhile_append_of_pos]
  · simp
  · intro x hx
    have hne : x ≠ 0 := fun h => h0 (h ▸ hx)
    simpa using hne

end reading

/-! ### The section -/

section directory

theorem PeExportDirectory.bytes_length (dir : PeExportDirectory) : dir.bytes.length = 40 := by
  simp [PeExportDirectory.bytes]

/-- The fields of a directory that is at the front. -/
structure ReadsAs (image : List UInt8) (dir : PeExportDirectory) : Prop where
  ordinal_base : u32At image 16 = dir.ordinal_base
  num_eat_entries : u32At image 20 = dir.num_eat_entries
  num_name_ptrs : u32At image 24 = dir.num_name_ptrs
  address_table_rva : u32At image 28 = dir.address_table_rva
  name_ptr_table_rva : u32At image 32 = dir.name_ptr_table_rva
  ordinal_table_rva : u32At image 36 = dir.ordinal_table_rva

theorem readsAs (dir : PeExportDirectory) (hbase : dir.ordinal_base < 2 ^ 32) (heat : dir.num_eat_entries < 2 ^ 32)
    (hnum : dir.num_name_ptrs < 2 ^ 32) (haddress : dir.address_table_rva < 2 ^ 32)
    (hptr : dir.name_ptr_table_rva < 2 ^ 32) (hordinal : dir.ordinal_table_rva < 2 ^ 32) (rest : List UInt8) :
    ReadsAs (dir.bytes ++ rest) dir := by
  unfold PeExportDirectory.bytes
  constructor
  · have hlen : (leBytes 4 dir.flags ++ leBytes 4 dir.time_stamp ++ leBytes 2 dir.major ++ leBytes 2 dir.minor ++
        leBytes 4 dir.name_rva).length = 16 := by simp
    simpa only [List.append_assoc] using u32At_append hlen hbase
  · have hlen : (leBytes 4 dir.flags ++ leBytes 4 dir.time_stamp ++ leBytes 2 dir.major ++ leBytes 2 dir.minor ++
        leBytes 4 dir.name_rva ++ leBytes 4 dir.ordinal_base).length = 20 := by simp
    simpa only [List.append_assoc] using u32At_append hlen heat
  · have hlen : (leBytes 4 dir.flags ++ leBytes 4 dir.time_stamp ++ leBytes 2 dir.major ++ leBytes 2 dir.minor ++
        leBytes 4 dir.name_rva ++ leBytes 4 dir.ordinal_base ++ leBytes 4 dir.num_eat_entries).length = 24 := by simp
    simpa only [List.append_assoc] using u32At_append hlen hnum
  · have hlen : (leBytes 4 dir.flags ++ leBytes 4 dir.time_stamp ++ leBytes 2 dir.major ++ leBytes 2 dir.minor ++
        leBytes 4 dir.name_rva ++ leBytes 4 dir.ordinal_base ++ leBytes 4 dir.num_eat_entries ++
        leBytes 4 dir.num_name_ptrs).length = 28 := by simp
    simpa only [List.append_assoc] using u32At_append hlen haddress
  · have hlen : (leBytes 4 dir.flags ++ leBytes 4 dir.time_stamp ++ leBytes 2 dir.major ++ leBytes 2 dir.minor ++
        leBytes 4 dir.name_rva ++ leBytes 4 dir.ordinal_base ++ leBytes 4 dir.num_eat_entries ++
        leBytes 4 dir.num_name_ptrs ++ leBytes 4 dir.address_table_rva).length = 32 := by simp
    simpa only [List.append_assoc] using u32At_append hlen hptr
  · have hlen : (leBytes 4 dir.flags ++ leBytes 4 dir.time_stamp ++ leBytes 2 dir.major ++ leBytes 2 dir.minor ++
        leBytes 4 dir.name_rva ++ leBytes 4 dir.ordinal_base ++ leBytes 4 dir.num_eat_entries ++
        leBytes 4 dir.num_name_ptrs ++ leBytes 4 dir.address_table_rva ++
        leBytes 4 dir.name_ptr_table_rva).length = 36 := by
      simp
    simpa only [List.append_assoc] using u32At_append hlen hordinal

end directory

/-- The bytes of the name pointers, when the names begin at `eat`. -/
def namePtrTable (exports : List EntryExport) (eat : ℕ) : List UInt8 :=
  (List.range exports.length).flatMap fun i => leBytes 4 (eat + (nameTable (exports.take i)).length)

/-- The bytes of the ordinals. -/
def ordinalTable (ordinal_base : ℕ) (exports : List EntryExport) : List UInt8 :=
  exports.flatMap fun exp => leBytes 2 (exp.ordinal - ordinal_base)

theorem addressTable_length (exports : List EntryExport) (first count : ℕ) :
    (addressTable exports first count).length = 4 * count := by
  rw [addressTable, length_flatMap_of_length (fun _ => leBytes_length 4 _), List.length_range', Nat.mul_comm]

theorem namePtrTable_length (exports : List EntryExport) (eat : ℕ) :
    (namePtrTable exports eat).length = 4 * exports.length := by
  rw [namePtrTable, length_flatMap_of_length (fun _ => leBytes_length 4 _), List.length_range, Nat.mul_comm]

theorem ordinalTable_length (ordinal_base : ℕ) (exports : List EntryExport) :
    (ordinalTable ordinal_base exports).length = 2 * exports.length := by
  rw [ordinalTable, length_flatMap_of_length (fun _ => leBytes_length 2 _), Nat.mul_comm]

namespace ExportList

variable (t : ExportList)

theorem firstOrdinal_le {e : EntryExport} (he : e ∈ t.exports) : firstOrdinal t.exports ≤ e.ordinal := by
  have hinc := t.increasing
  cases h : t.exports with
  | nil => exact absurd h t.nonempty
  | cons exp exps =>
      rw [h] at he hinc
      obtain rfl | he := List.mem_cons.mp he
      · exact le_rfl
      · exact ((List.pairwise_cons.mp hinc).1 e he).le

/-- The entries of the address table go from the first ordinal to the last. -/
theorem num_eat_entries_eq : highOrd t.exports 0 - firstOrdinal t.exports + 1 =
    endOrd t.exports (firstOrdinal t.exports) - firstOrdinal t.exports := by
  have hend := endOrd_eq_highOrd t.nonempty 0 (firstOrdinal t.exports)
  obtain ⟨e, he⟩ := List.exists_mem_of_ne_nil _ t.nonempty
  have hlt := (le_endOrd t.increasing fun e he => t.firstOrdinal_le he).2 e he
  have hle := t.firstOrdinal_le he
  omega

theorem num_eat_entries_le : highOrd t.exports 0 - firstOrdinal t.exports + 1 ≤ 2 ^ 16 := by
  have hmem : ∃ e ∈ t.exports, highOrd t.exports 0 = e.ordinal := by
    have hlast := t.nonempty
    generalize t.exports = exports at hlast
    generalize 0 = m
    induction exports generalizing m with
    | nil => exact absurd rfl hlast
    | cons exp exps ih =>
        cases exps with
        | nil => exact ⟨exp, List.mem_singleton_self exp, rfl⟩
        | cons exp' exps =>
            obtain ⟨e, he, heq⟩ := ih (List.cons_ne_nil _ _) exp.ordinal
            exact ⟨e, List.mem_cons_of_mem _ he, heq⟩
  obtain ⟨e, he, heq⟩ := hmem
  have hsmall := t.small e he
  omega

theorem firstOrdinal_lt : firstOrdinal t.exports < 2 ^ 16 := by
  obtain ⟨e, he⟩ := List.exists_mem_of_ne_nil _ t.nonempty
  exact lt_of_le_of_lt (t.firstOrdinal_le he) (t.small e he)

theorem mem_sorted {e : EntryExport} : e ∈ sorted t.exports ↔ e ∈ t.exports := List.mem_mergeSort

theorem sorted_length : (sorted t.exports).length = t.exports.length := List.length_mergeSort _

/-- The names increase in the sorted list. -/
theorem sorted_strict : (sorted t.exports).Pairwise fun e1 e2 => strcmp e1.name e2.name = .lt := by
  have hle : (sorted t.exports).Pairwise fun e1 e2 => (strcmp e1.name e2.name).isLE = true := by
    refine List.pairwise_mergeSort (fun a b c hab hbc => ?_) (fun a b => ?_) t.exports
    · have hab : (compare a.name.1 b.name.1).isLE = true := hab
      have hac : (compare a.name.1 c.name.1).isLE = true := Std.TransCmp.isLE_trans hab hbc
      exact hac
    · have hswap : compare b.name.1 a.name.1 = (compare a.name.1 b.name.1).swap := Std.OrientedCmp.eq_swap
      unfold strcmp
      rw [hswap]
      cases compare a.name.1 b.name.1 <;> rfl
  have hne : (sorted t.exports).Pairwise fun e1 e2 => e1.name ≠ e2.name :=
    t.distinct.perm (List.mergeSort_perm _ _).symm fun h => h.symm
  refine (hle.and hne).imp fun {e1 e2} h => ?_
  cases hcmp : strcmp e1.name e2.name with
  | lt => rfl
  | eq => exact absurd (Subtype.ext (Std.LawfulEqCmp.eq_of_compare hcmp)) h.2
  | gt => rw [hcmp] at h; cases h.1

end ExportList

/-- The section of the exports at `rva`, with its tables where the directory says and the names from `names` on. -/
structure SectionAt (t : ExportList) (dir : PeExportDirectory) (rva names : ℕ) (image : List UInt8) : Prop where
  reads : ReadsAs image dir
  ordinal_base_eq : dir.ordinal_base = firstOrdinal t.exports
  num_eat_entries_eq : dir.num_eat_entries = endOrd t.exports (firstOrdinal t.exports) - firstOrdinal t.exports
  num_name_ptrs_eq : dir.num_name_ptrs = t.exports.length
  addresses : ∃ a c, a.length = dir.address_table_rva - rva ∧
    image = a ++ (addressTable t.exports dir.ordinal_base dir.num_eat_entries ++ c)
  namePtrs : ∃ a c, a.length = dir.name_ptr_table_rva - rva ∧
    image = a ++ (namePtrTable (sorted t.exports) (rva + names) ++ c)
  ordinals : ∃ a c, a.length = dir.ordinal_table_rva - rva ∧
    image = a ++ (ordinalTable dir.ordinal_base (sorted t.exports) ++ c)
  nameTable : ∃ a, a.length = names ∧ image = a ++ (nameTable (sorted t.exports) ++ [])
  fits : rva + image.length ≤ 2 ^ 32

namespace SectionAt

variable {t : ExportList} {dir : PeExportDirectory} {rva names : ℕ} {image : List UInt8}

theorem addressAt_eq (h : SectionAt t dir rva names image) {i : ℕ} (hi : i < dir.num_eat_entries) :
    addressAt image rva i = addressOf t.exports (dir.ordinal_base + i) := by
  obtain ⟨a, c, ha, himage⟩ := h.addresses
  have hi' : i < (List.range' dir.ordinal_base dir.num_eat_entries).length := by rwa [List.length_range']
  have hread := readAt_table (fun n => leBytes_length 4 (addressOf t.exports n)) (c := c) ha hi'
  rw [addressAt, h.reads.address_table_rva, u32At, himage]
  unfold addressTable
  rw [hread, leVal_leBytes (addressOf_lt _ _), List.getElem_range', Nat.one_mul]

theorem nameAt_eq (h : SectionAt t dir rva names image) {i : ℕ} (hi : i < (sorted t.exports).length) :
    nameAt image rva i = ((sorted t.exports)[i]).name.1 := by
  obtain ⟨a, c, ha, himage⟩ := h.namePtrs
  obtain ⟨b, hb, hnames⟩ := h.nameTable
  have hi' : i < (List.range (sorted t.exports).length).length := by rwa [List.length_range]
  have hread := readAt_table (fun i => leBytes_length 4 (rva + names +
    (PeExports.nameTable ((sorted t.exports).take i)).length)) (c := c) ha hi'
  -- the name lies in the section, so that its address has 32 bits
  have hlen : names + (PeExports.nameTable (sorted t.exports)).length = image.length := by
    rw [hnames, List.length_append, List.length_append, hb, List.length_nil, Nat.add_zero]
  have hpart : (PeExports.nameTable ((sorted t.exports).take i)).length <
      (PeExports.nameTable (sorted t.exports)).length := by
    have hsplit := congrArg List.length (flatMap_split (fun e : EntryExport => e.name.1 ++ [0]) hi)
    rw [List.length_append, List.length_append, List.length_append, List.length_singleton] at hsplit
    unfold PeExports.nameTable
    omega
  have hptr : u32At image (dir.name_ptr_table_rva - rva + 4 * i) =
      rva + names + (PeExports.nameTable ((sorted t.exports).take i)).length := by
    have hfits := h.fits
    rw [u32At, himage]
    unfold namePtrTable
    rw [hread, List.getElem_range]
    exact leVal_leBytes (by norm_num; omega)
  have hoff : rva + names + (PeExports.nameTable ((sorted t.exports).take i)).length - rva =
      names + (PeExports.nameTable ((sorted t.exports).take i)).length := by omega
  rw [nameAt, h.reads.name_ptr_table_rva, hptr, hoff, hnames]
  exact stringAt_nameTable hb hi

theorem ordinalAt_eq (h : SectionAt t dir rva names image) {i : ℕ} (hi : i < (sorted t.exports).length) :
    u16At image (u32At image 36 - rva + 2 * i) = ((sorted t.exports)[i]).ordinal - dir.ordinal_base := by
  obtain ⟨a, c, ha, himage⟩ := h.ordinals
  have hread := readAt_table (fun e : EntryExport => leBytes_length 2 (e.ordinal - dir.ordinal_base)) (c := c) ha hi
  have hsmall := t.small _ (t.mem_sorted.mp (List.getElem_mem hi))
  rw [h.reads.ordinal_table_rva, u16At, himage]
  unfold ordinalTable
  rw [hread]
  exact leVal_leBytes (by norm_num; omega)

/-- The ordinals of the exports have entries in the address table. -/
theorem ordinal_bounds (h : SectionAt t dir rva names image) {e : EntryExport} (he : e ∈ t.exports) :
    dir.ordinal_base ≤ e.ordinal ∧ e.ordinal - dir.ordinal_base < dir.num_eat_entries := by
  have hle := t.firstOrdinal_le he
  have hlt := (le_endOrd t.increasing fun e he => t.firstOrdinal_le he).2 e he
  rw [h.ordinal_base_eq, h.num_eat_entries_eq]
  omega

theorem addressAt_ordinal (h : SectionAt t dir rva names image) {e : EntryExport} (he : e ∈ t.exports) :
    addressAt image rva (e.ordinal - dir.ordinal_base) = e.off.toNat := by
  obtain ⟨hle, hlt⟩ := h.ordinal_bounds he
  rw [h.addressAt_eq hlt, Nat.add_sub_cancel' hle]
  exact addressOf_of_mem t.increasing he

theorem lookupOrdinal_mem (h : SectionAt t dir rva names image) {e : EntryExport} (he : e ∈ t.exports) :
    lookupOrdinal image rva e.ordinal = e.off.toNat := by
  unfold lookupOrdinal
  rw [h.reads.ordinal_base, h.reads.num_eat_entries, if_pos (h.ordinal_bounds he)]
  exact h.addressAt_ordinal he

theorem lookupOrdinal_unused (h : SectionAt t dir rva names image) {n : ℕ} (hn : ∀ e ∈ t.exports, e.ordinal ≠ n) :
    lookupOrdinal image rva n = 0 := by
  unfold lookupOrdinal
  rw [h.reads.ordinal_base, h.reads.num_eat_entries]
  split
  case isTrue hin =>
    rw [h.addressAt_eq hin.2, Nat.add_sub_cancel' hin.1]
    exact addressOf_of_forall_ne hn
  case isFalse => rfl

theorem lookupName_mem (h : SectionAt t dir rva names image) {e : EntryExport} (he : e ∈ t.exports) :
    lookupName image rva e.name = some e.off.toNat := by
  obtain ⟨k, hk, hget⟩ := List.getElem_of_mem (t.mem_sorted.mpr he)
  have hstrict := List.pairwise_iff_getElem.mp t.sorted_strict
  have hfind : bisect (fun i => compare e.name.1 (nameAt image rva i)) 0 (u32At image 24) = some k := by
    rw [h.reads.num_name_ptrs, h.num_name_ptrs_eq, ← t.sorted_length]
    refine bisect_eq (Nat.zero_le k) hk ?_ (fun i hi => ?_) fun i hi hlt => ?_
    · rw [h.nameAt_eq hk, hget]
      exact Std.ReflCmp.compare_self
    · have hcmp : compare ((sorted t.exports)[i]).name.1 e.name.1 = .lt := hget ▸ hstrict i k (hi.trans hk) hk hi
      rw [h.nameAt_eq (hi.trans hk)]
      exact Std.OrientedCmp.gt_iff_lt.mpr hcmp
    · have hcmp : compare e.name.1 ((sorted t.exports)[i]).name.1 = .lt := hget ▸ hstrict k i hk hlt hi
      rw [h.nameAt_eq hlt]
      exact hcmp
  unfold lookupName
  rw [hfind, Option.map_some, h.ordinalAt_eq hk, hget, h.addressAt_ordinal he]

theorem lookupName_other (h : SectionAt t dir rva names image) {name : CString}
    (hname : ∀ e ∈ t.exports, e.name ≠ name) : lookupName image rva name = none := by
  unfold lookupName
  rw [Option.map_eq_none_iff]
  by_contra hfound
  obtain ⟨k, hk⟩ := Option.ne_none_iff_exists'.mp hfound
  obtain ⟨-, hlt, heq⟩ := bisect_sound hk
  rw [h.reads.num_name_ptrs, h.num_name_ptrs_eq, ← t.sorted_length] at hlt
  rw [h.nameAt_eq hlt] at heq
  have hsame : name.1 = ((sorted t.exports)[k]).name.1 := Std.LawfulEqCmp.eq_of_compare heq
  exact hname _ (t.mem_sorted.mp (List.getElem_mem hlt)) (Subtype.ext hsame.symm)

end SectionAt

/-! ### Where the tables are written -/

section written

variable (t : ExportList) (file : List UInt8) (rva : ℕ) (name : CString)

theorem le_roundUpSize {x amt : ℕ} (h : 0 < amt) : x ≤ roundUpSize x amt := by
  have hdiv := Nat.div_add_mod (x + (amt - 1)) amt
  have hmod := Nat.mod_lt (x + (amt - 1)) h
  unfold roundUpSize
  rw [Nat.mul_comm]
  omega

theorem padLoad_length (size : ℕ) : (padLoad file size).length = file.length + size := by
  rw [padLoad, List.length_append, List.length_replicate]

theorem nullAlign_length {align : ℕ} (h : 0 < align) :
    (nullAlign file align).length = roundUpSize file.length align := by
  have hle : file.length ≤ roundUpSize file.length align := le_roundUpSize h
  rw [nullAlign, padLoad_length]
  omega

/-- The zeros behind the module name. -/
def namePad (physical_offset namelen : ℕ) : ℕ :=
  roundUpSize (physical_offset + 40 + namelen) 4 - (physical_offset + 40 + namelen)

variable (file_align : ℕ)

/-- What is written up to the address table. -/
def headBytes (physical_offset : ℕ) : List UInt8 :=
  (directory rva (name.1.length + 1) t.exports).bytes ++ ((name.1 ++ [0]) ++
    List.replicate (namePad physical_offset (name.1.length + 1)) 0)

/-- What is written behind the start of the section. -/
def sectionBytes (physical_offset : ℕ) : List UInt8 :=
  let dir := directory rva (name.1.length + 1) t.exports
  headBytes t rva name physical_offset ++ (addressTable t.exports dir.ordinal_base dir.num_eat_entries ++
    (namePtrTable (sorted t.exports) (dir.ordinal_table_rva + dir.num_name_ptrs * 2) ++
      (ordinalTable dir.ordinal_base (sorted t.exports) ++ nameTable (sorted t.exports))))

theorem headBytes_length (start : ℕ) : (headBytes t rva name start).length =
    40 + (name.1.length + 1) + namePad start (name.1.length + 1) := by
  unfold headBytes
  simp only [List.length_append, PeExportDirectory.bytes_length, List.length_singleton, List.length_replicate]
  omega

/-- The base of the ordinals, the length of the head and the number of addresses. -/
theorem directory_facts : (∀ e ∈ t.exports, (directory rva (name.1.length + 1) t.exports).ordinal_base ≤ e.ordinal) ∧
    (nullAlign file file_align ++ (directory rva (name.1.length + 1) t.exports).bytes ++ (name.1 ++ [0])).length =
      (nullAlign file file_align).length + 40 + (name.1.length + 1) ∧
    (directory rva (name.1.length + 1) t.exports).num_eat_entries =
      endOrd t.exports (directory rva (name.1.length + 1) t.exports).ordinal_base -
        (directory rva (name.1.length + 1) t.exports).ordinal_base := by
  refine ⟨fun e he => t.firstOrdinal_le he, ?_, t.num_eat_entries_eq⟩
  simp only [List.length_append, PeExportDirectory.bytes_length, List.length_singleton]

theorem writeExportInfo_file : (writeExportInfo file file_align rva name t.exports).file =
    nullAlign file file_align ++ sectionBytes t rva name (nullAlign file file_align).length := by
  obtain ⟨hnext, hlen, hnum⟩ := directory_facts t file rva name file_align
  unfold writeExportInfo sectionBytes headBytes
  dsimp only
  rw [writeNames_eq, writeOrdinals_eq, writeNamePtrs_eq, writeAddresses_eq t.increasing hnext, nullAlign.eq_def _ 4,
    hlen, padLoad, ← hnum]
  simp only [List.append_assoc]
  rfl

/-- The places where the module name and the tables begin. -/
theorem writeExportInfo_pos :
    let w := writeExportInfo file file_align rva name t.exports
    let start := (nullAlign file file_align).length
    w.namePos = start + 40 ∧ w.addressPos = roundUpSize (start + 40 + (name.1.length + 1)) 4 ∧
      w.namePtrPos = w.addressPos + 4 * w.dir.num_eat_entries ∧
      w.ordinalPos = w.namePtrPos + 4 * t.exports.length := by
  obtain ⟨hnext, hlen, hnum⟩ := directory_facts t file rva name file_align
  unfold writeExportInfo
  dsimp only
  refine ⟨?_, ?_, ?_, ?_⟩
  · rw [List.length_append, PeExportDirectory.bytes_length]
  · rw [nullAlign_length _ (by decide : 0 < 4), hlen]
  · rw [writeAddresses_eq t.increasing hnext, List.length_append, addressTable_length, ← hnum]
  · have htable := namePtrTable_length (sorted t.exports)
      ((directory rva (name.1.length + 1) t.exports).ordinal_table_rva +
        (directory rva (name.1.length + 1) t.exports).num_name_ptrs * 2)
    unfold namePtrTable at htable
    rw [writeNamePtrs_eq, List.length_append, htable, t.sorted_length]

theorem writeExportInfo_size : (writeExportInfo file file_align rva name t.exports).entry.size =
    (directory rva (name.1.length + 1) t.exports).ordinal_table_rva + t.exports.length * 2 +
      (nameTable (sorted t.exports)).length - rva := by
  unfold writeExportInfo
  dsimp only
  rw [writeNamePtrs_eq]
  rfl

theorem sectionBytes_length (start : ℕ) : (sectionBytes t rva name start).length =
    40 + (name.1.length + 1) + namePad start (name.1.length + 1) +
      4 * (directory rva (name.1.length + 1) t.exports).num_eat_entries + 4 * t.exports.length +
      2 * t.exports.length + (nameTable (sorted t.exports)).length := by
  unfold sectionBytes
  dsimp only
  simp only [List.length_append, headBytes_length, addressTable_length, namePtrTable_length, ordinalTable_length,
    t.sorted_length]
  omega

/-- The sums of the directory, from the start of the section on. -/
theorem directory_eq : (directory rva (name.1.length + 1) t.exports).address_table_rva =
      roundUpSize (rva + 40 + (name.1.length + 1)) 4 ∧
    (directory rva (name.1.length + 1) t.exports).name_ptr_table_rva =
      roundUpSize (rva + 40 + (name.1.length + 1)) 4 +
        4 * (directory rva (name.1.length + 1) t.exports).num_eat_entries ∧
    (directory rva (name.1.length + 1) t.exports).ordinal_table_rva =
      roundUpSize (rva + 40 + (name.1.length + 1)) 4 +
        4 * (directory rva (name.1.length + 1) t.exports).num_eat_entries + 4 * t.exports.length := by
  unfold directory
  dsimp only
  refine ⟨rfl, by rw [Nat.mul_comm], ?_⟩
  rw [Nat.mul_comm 4, Nat.mul_comm 4]

/-- The directory rounds the address up as the load file is padded, when the section begins at the same place modulo
four. -/
theorem roundUp_iff (start namelen : ℕ) :
    roundUpSize (rva + 40 + namelen) 4 + start = roundUpSize (start + 40 + namelen) 4 + rva ↔ start % 4 = rva % 4 := by
  unfold roundUpSize
  omega

theorem length_le_nameTable (exports : List EntryExport) : exports.length ≤ (nameTable exports).length := by
  induction exports with
  | nil => exact le_rfl
  | cons exp exps ih =>
      have hcons : (nameTable (exp :: exps)).length = exp.name.1.length + 1 + (nameTable exps).length := by
        simp [nameTable]
        omega
      rw [hcons, List.length_cons]
      omega

/-- The section is laid out as the directory says. -/
theorem sectionAt {start : ℕ} (hstart : start % 4 = rva % 4)
    (hfits : rva + (sectionBytes t rva name start).length ≤ 2 ^ 32) :
    SectionAt t (directory rva (name.1.length + 1) t.exports) rva
      ((directory rva (name.1.length + 1) t.exports).ordinal_table_rva + t.exports.length * 2 - rva)
      (sectionBytes t rva name start) := by
  obtain ⟨haddress, hptr, hordinal⟩ := directory_eq t rva name
  have hround := (roundUp_iff rva start (name.1.length + 1)).mpr hstart
  have hup : start + 40 + (name.1.length + 1) ≤ roundUpSize (start + 40 + (name.1.length + 1)) 4 :=
    le_roundUpSize (by decide)
  have hpad : namePad start (name.1.length + 1) + (start + 40 + (name.1.length + 1)) =
      roundUpSize (start + 40 + (name.1.length + 1)) 4 := by
    unfold namePad
    omega
  have hlen := sectionBytes_length t rva name start
  have hhead := headBytes_length t rva name start
  have heat_end : rva + ((directory rva (name.1.length + 1) t.exports).ordinal_table_rva + t.exports.length * 2 - rva) =
      (directory rva (name.1.length + 1) t.exports).ordinal_table_rva + t.exports.length * 2 := by omega
  have hnames := length_le_nameTable (sorted t.exports)
  have heat := t.num_eat_entries_le
  have hbase := t.firstOrdinal_lt
  have hpos : 0 < t.exports.length := List.length_pos_iff.mpr t.nonempty
  rw [t.sorted_length] at hnames
  constructor
  case reads =>
    have hreads := readsAs (directory rva (name.1.length + 1) t.exports) (lt_trans hbase (by decide))
      (lt_of_le_of_lt heat (by decide)) (lt_of_le_of_lt (le_refl t.exports.length) (by omega)) (by omega) (by omega)
      (by omega)
    unfold sectionBytes headBytes
    dsimp only
    rw [List.append_assoc]
    exact hreads _
  case ordinal_base_eq => rfl
  case num_eat_entries_eq => exact t.num_eat_entries_eq
  case num_name_ptrs_eq => rfl
  case addresses =>
    exact ⟨headBytes t rva name start, _, by omega, rfl⟩
  case namePtrs =>
    refine ⟨headBytes t rva name start ++ addressTable t.exports (firstOrdinal t.exports)
      (directory rva (name.1.length + 1) t.exports).num_eat_entries, ordinalTable (firstOrdinal t.exports)
        (sorted t.exports) ++ nameTable (sorted t.exports), ?_, ?_⟩
    · rw [List.length_append, addressTable_length]
      omega
    · rw [heat_end, List.append_assoc]
      rfl
  case ordinals =>
    refine ⟨headBytes t rva name start ++ (addressTable t.exports (firstOrdinal t.exports)
      (directory rva (name.1.length + 1) t.exports).num_eat_entries ++ namePtrTable (sorted t.exports)
        ((directory rva (name.1.length + 1) t.exports).ordinal_table_rva + t.exports.length * 2)),
      nameTable (sorted t.exports), ?_, ?_⟩
    · rw [List.length_append, List.length_append, addressTable_length, namePtrTable_length, t.sorted_length]
      omega
    · rw [List.append_assoc, List.append_assoc]
      rfl
  case nameTable =>
    refine ⟨headBytes t rva name start ++ (addressTable t.exports (firstOrdinal t.exports)
      (directory rva (name.1.length + 1) t.exports).num_eat_entries ++ (namePtrTable (sorted t.exports)
        ((directory rva (name.1.length + 1) t.exports).ordinal_table_rva + t.exports.length * 2) ++
      ordinalTable (firstOrdinal t.exports) (sorted t.exports))), ?_, ?_⟩
    · rw [List.length_append, List.length_append, List.length_append, addressTable_length, namePtrTable_length,
        ordinalTable_length, t.sorted_length]
      omega
    · rw [List.append_nil, List.append_assoc, List.append_assoc, List.append_assoc]
      rfl
  case fits => exact hfits

/-- The address table is where the directory says only when the section begins at the same place modulo four. -/
theorem start_of_correct {segment_shift : ℕ}
    (h : Correct t.exports (writeExportInfo file (2 ^ segment_shift) rva name t.exports)) :
    roundUpSize file.length (2 ^ segment_shift) % 4 = rva % 4 := by
  have hstart := nullAlign_length file (Nat.two_pow_pos segment_shift)
  obtain ⟨-, hpos, -, -⟩ := writeExportInfo_pos t file rva name (2 ^ segment_shift)
  have haddress := h.address_pos
  have hround : roundUpSize (rva + 40 + (name.1.length + 1)) 4 + (nullAlign file (2 ^ segment_shift)).length =
      roundUpSize ((nullAlign file (2 ^ segment_shift)).length + 40 + (name.1.length + 1)) 4 + rva := by
    rw [← hpos]
    exact haddress
  rw [← hstart]
  exact (roundUp_iff rva _ _).mp hround

theorem correct_of_start {segment_shift : ℕ}
    (hfits : rva + (writeExportInfo file (2 ^ segment_shift) rva name t.exports).entry.size ≤ 2 ^ 32)
    (h : roundUpSize file.length (2 ^ segment_shift) % 4 = rva % 4) :
    Correct t.exports (writeExportInfo file (2 ^ segment_shift) rva name t.exports) := by
  have hstart := nullAlign_length file (Nat.two_pow_pos segment_shift)
  rw [← hstart] at h
  obtain ⟨haddress, hptr, hordinal⟩ := directory_eq t rva name
  have hround := (roundUp_iff rva (nullAlign file (2 ^ segment_shift)).length (name.1.length + 1)).mpr h
  have hup : (nullAlign file (2 ^ segment_shift)).length + 40 + (name.1.length + 1) ≤
      roundUpSize ((nullAlign file (2 ^ segment_shift)).length + 40 + (name.1.length + 1)) 4 :=
    le_roundUpSize (by decide)
  have hsize := writeExportInfo_size t file rva name (2 ^ segment_shift)
  have hlen := sectionBytes_length t rva name (nullAlign file (2 ^ segment_shift)).length
  unfold namePad at hlen
  obtain ⟨hnamePos, haddressPos, hptrPos, hordinalPos⟩ :=
    writeExportInfo_pos t file rva name (2 ^ segment_shift)
  have himage : (writeExportInfo file (2 ^ segment_shift) rva name t.exports).image =
      sectionBytes t rva name (nullAlign file (2 ^ segment_shift)).length := by
    unfold Written.image
    rw [writeExportInfo_file]
    exact List.drop_left' rfl
  have hpos : ∀ addr pos, addr + (nullAlign file (2 ^ segment_shift)).length = pos + rva →
      (writeExportInfo file (2 ^ segment_shift) rva name t.exports).PosOf addr pos := fun _ _ hsum => hsum
  have hdir : (writeExportInfo file (2 ^ segment_shift) rva name t.exports).dir =
      directory rva (name.1.length + 1) t.exports := rfl
  have hname : (directory rva (name.1.length + 1) t.exports).name_rva = rva + 40 := rfl
  have hsection := sectionAt t rva name h (by omega)
  rw [← himage] at hsection
  rw [hdir] at hptrPos
  exact
    { name_pos := hpos _ _ (by rw [hdir]; omega)
      address_pos := hpos _ _ (by rw [hdir]; omega)
      namePtr_pos := hpos _ _ (by rw [hdir]; omega)
      ordinal_pos := hpos _ _ (by rw [hdir]; omega)
      entry_size := ⟨rfl, by rw [himage]; omega⟩
      lookup_name := fun e he => hsection.lookupName_mem he
      lookup_other := fun name hname => hsection.lookupName_other hname
      lookup_ordinal := fun e he => hsection.lookupOrdinal_mem he
      lookup_unused := fun n hn => hsection.lookupOrdinal_unused hn }

end written

/-- One export, `f` with the ordinal 1. -/
def oneExport : ExportList where
  exports := [⟨⟨[102], by decide⟩, 1, 0x1000⟩]
  nonempty := List.cons_ne_nil _ _
  increasing := List.pairwise_singleton _ _
  small := by decide
  distinct := List.pairwise_singleton _ _

end OpenWatcom.PeExports
