import OpenWatcom.Lib.Bundles

/-! # Entry tables of NE, LE and LX files

`WriteEntryTable` of `loados2.c` and `WriteFlatEntryTable` of `loadflat.c` write the exported entry points in
bundles.  Both are one `BundleFormat` each, and the rules of the two file formats are one `BundleReader`
each.

* `writeEntryTable_decodes`, `writeFlatEntryTable_decodes`: a table reads as the exports, and the
  size that is returned is its length, if the fields of the format hold the segments and offsets;
* `entryTables_decode`: both. -/

namespace OpenWatcom.Wlink

/-! ### Exports -/

/-- An export, `entry_export`, and what a forwarder needs of its import, `dll_sym_info`.  The number of
words is below 32 and the ordinal is not 0: `getexport` and `MSExportKeyword` take care of the first,
`AssignOrdinals` of the second. -/
structure EntryExport where
  ordinal : ℕ
  ioplWords : ℕ
  isexported : Bool
  ismovable : Bool
  isiopl : Bool
  seg : UInt16
  off : UInt32
  modnum : UInt16
  isordinal : Bool
  value : UInt32
  ordinal_pos : 0 < ordinal
  words_lt : ioplWords < 32

/-- The list of exports, in the order of their ordinals. -/
structure ExportList where
  exports : List EntryExport
  increasing : exports.Pairwise fun e e' => e.ordinal < e'.ordinal

/-- Exports in one segment are of one kind. -/
def ExportList.OneKind (l : ExportList) (kind : EntryExport → Bool) : Prop :=
  ∀ e ∈ l.exports, ∀ e' ∈ l.exports, e.seg = e'.seg → kind e = kind e'

instance (l : ExportList) (kind : EntryExport → Bool) : Decidable (l.OneKind kind) :=
  inferInstanceAs (Decidable (∀ _ ∈ _, _))

/-- A 16-bit field. -/
def field16 (n : ℕ) : List UInt8 := [UInt8.ofNat n, UInt8.ofNat (n / 2 ^ 8)]

/-- A 32-bit field. -/
def field32 (n : ℕ) : List UInt8 :=
  [UInt8.ofNat n, UInt8.ofNat (n / 2 ^ 8), UInt8.ofNat (n / 2 ^ 16), UInt8.ofNat (n / 2 ^ 24)]

def word16 (b₀ b₁ : UInt8) : ℕ := b₀.toNat + 2 ^ 8 * b₁.toNat

def word32 (b₀ b₁ b₂ b₃ : UInt8) : ℕ :=
  b₀.toNat + 2 ^ 8 * b₁.toNat + 2 ^ 16 * b₂.toNat + 2 ^ 24 * b₃.toNat

theorem word16_field16 {n : ℕ} (h : n < 2 ^ 16) :
    word16 (UInt8.ofNat n) (UInt8.ofNat (n / 2 ^ 8)) = n := by
  unfold word16
  rw [UInt8.toNat_ofNat', UInt8.toNat_ofNat']
  omega

theorem word32_field32 {n : ℕ} (h : n < 2 ^ 32) :
    word32 (UInt8.ofNat n) (UInt8.ofNat (n / 2 ^ 8)) (UInt8.ofNat (n / 2 ^ 16))
      (UInt8.ofNat (n / 2 ^ 24)) = n := by
  unfold word32
  rw [UInt8.toNat_ofNat', UInt8.toNat_ofNat', UInt8.toNat_ofNat', UInt8.toNat_ofNat']
  omega

theorem byte_toNat {n : ℕ} (h : n ≤ 0xFF) : (UInt8.ofNat n).toNat = n := by
  rw [UInt8.toNat_ofNat']
  omega

theorem byte_ne {n : ℕ} {c : UInt8} (h : n ≤ 0xFF) (hc : n ≠ c.toNat) : UInt8.ofNat n ≠ c := by
  rintro rfl
  exact hc (byte_toNat h).symm

/-- The flags of a record: the words in the upper five bits, `ENTRY_EXPORTED` and `ENTRY_SHARED`. -/
def infoByte (words : ℕ) (exported shared : Bool) : UInt8 :=
  UInt8.ofNat (words * 8) ||| (if exported then 1 else 0) ||| (if shared then 2 else 0)

/-- The three parts of the flags. -/
structure EntryFlags where
  words : ℕ
  exported : Bool
  shared : Bool
  deriving DecidableEq, Repr

def readFlags (info : UInt8) : EntryFlags :=
  ⟨info.toNat / 8, info &&& 1 != 0, info &&& 2 != 0⟩

theorem readFlags_infoByte {words : ℕ} (h : words < 32) (exported shared : Bool) :
    readFlags (infoByte words exported shared) = ⟨words, exported, shared⟩ := by
  interval_cases words <;> cases exported <;> cases shared <;> decide

/-! ### NE -/

/-- An entry of an NE file. -/
structure NeEntry where
  seg : ℕ
  off : ℕ
  movable : Bool
  flags : EntryFlags
  deriving DecidableEq, Repr

/-- The parts of the table that `WriteEntryTable` writes; `sharable` is the flag SHARABLE_DGROUP. -/
def neFormat (sharable : Bool) : BundleFormat EntryExport where
  ordinal := EntryExport.ordinal
  joins := fun start place => if start.ismovable then place.ismovable else decide (place.seg = start.seg)
  null := fun n => [UInt8.ofNat n, 0x00]
  nullSize := 2
  head := fun start n => [UInt8.ofNat n, if start.ismovable then 0xFF else UInt8.ofNat start.seg.toNat]
  headSize := 2
  record := fun e =>
    let info := infoByte e.ioplWords e.isexported (e.isexported && sharable)
    if e.ismovable then
      info :: (field16 0x3FCD ++ (UInt8.ofNat e.seg.toNat :: field16 e.off.toNat))
    else info :: field16 e.off.toNat
  recordSize := fun start => if start.ismovable then 6 else 3

/-- `WriteEntryTable`: the bytes and the size it returns. -/
def writeEntryTable (sharable : Bool) (exports : List EntryExport) : List UInt8 × ℕ :=
  let r := (neFormat sharable).write 0 exports
  (r.1 ++ [0, 0], r.2 + 2)

/-- The rule of NE files: the type is 0 for ordinals without entries, 0FFh for movable records, and
otherwise the segment of fixed ones. -/
def neReader : BundleReader UInt8 NeEntry where
  readPrefix
    | number :: type :: bytes =>
      some (if number = 0 then .done else if type = 0 then .skip number.toNat
        else .bundle number.toNat type, bytes)
    | _ => none
  readRecord type bytes :=
    if type = 0xFF then
      match bytes with
      | info :: _ :: _ :: seg :: b₀ :: b₁ :: bytes =>
        some (⟨seg.toNat, word16 b₀ b₁, true, readFlags info⟩, bytes)
      | _ => none
    else
      match bytes with
      | info :: b₀ :: b₁ :: bytes =>
        some (⟨type.toNat, word16 b₀ b₁, false, readFlags info⟩, bytes)
      | _ => none

/-- The entry that an export stands for. -/
def EntryExport.neEntry (sharable : Bool) (e : EntryExport) : NeEntry :=
  ⟨e.seg.toNat, e.off.toNat, e.ismovable, ⟨e.ioplWords, e.isexported, e.isexported && sharable⟩⟩

/-- The fields of an NE file hold the segment and the offset: eight bits for the segment, where a fixed
record needs one that is neither 0 nor 0FFh. -/
def EntryExport.FitsNe (e : EntryExport) : Prop :=
  (if e.ismovable then e.seg.toNat ≤ 0xFF else 0 < e.seg.toNat ∧ e.seg.toNat < 0xFF) ∧
    e.off.toNat < 2 ^ 16

instance (e : EntryExport) : Decidable e.FitsNe := inferInstanceAs (Decidable (_ ∧ _))

theorem neFormat_reads (sharable : Bool) {exports : List EntryExport}
    (hfits : ∀ e ∈ exports, e.FitsNe)
    (hkind : ∀ e ∈ exports, ∀ e' ∈ exports, e.seg = e'.seg → e.ismovable = e'.ismovable) :
    Reads (neFormat sharable) neReader
      (fun e => if e.ismovable then 0xFF else UInt8.ofNat e.seg.toNat)
      (EntryExport.neEntry sharable) exports where
  null n rest h1 h255 := by
    have hn : UInt8.ofNat n ≠ 0 := byte_ne h255 (show n ≠ 0 by omega)
    simp only [neFormat, neReader, List.cons_append, List.nil_append, if_neg hn, if_true,
      byte_toNat h255]
  null_ne n := by simp [neFormat]
  head e he n rest h1 h255 := by
    have hn : UInt8.ofNat n ≠ 0 := byte_ne h255 (show n ≠ 0 by omega)
    have htype : (if e.ismovable = true then 0xFF else UInt8.ofNat e.seg.toNat) ≠ 0 := by
      have hseg := (hfits e he).1
      split_ifs at hseg ⊢
      · decide
      · exact byte_ne (by omega) (show e.seg.toNat ≠ 0 by omega)
    simp only [neFormat, neReader, List.cons_append, List.nil_append, if_neg hn, if_neg htype,
      byte_toNat h255]
  head_ne e n := by simp [neFormat]
  record e he e' he' hjoin rest := by
    obtain ⟨hseg', hoff'⟩ := hfits e' he'
    have hsame : e'.ismovable = e.ismovable ∧ (e.ismovable = false → e'.seg = e.seg) := by
      rcases hjoin with rfl | hjoin
      · exact ⟨rfl, fun _ => rfl⟩
      · simp only [neFormat] at hjoin
        cases hm : e.ismovable with
        | true =>
            rw [if_pos hm] at hjoin
            exact ⟨hjoin, by simp⟩
        | false =>
            rw [hm, if_neg (by simp), decide_eq_true_eq] at hjoin
            exact ⟨(hkind e' he' e he hjoin).trans hm, fun _ => hjoin⟩
    cases hm : e.ismovable with
    | true =>
        rw [hm] at hsame
        rw [if_pos hsame.1] at hseg'
        simp only [neFormat, neReader, EntryExport.neEntry, field16, hsame.1, if_true,
          List.cons_append, List.nil_append, byte_toNat hseg', word16_field16 hoff',
          readFlags_infoByte e'.words_lt]
    | false =>
        rw [hm] at hsame
        have hmovable' : ¬ e'.ismovable = true := by simp [hsame.1]
        rw [if_neg hmovable'] at hseg'
        have hff : UInt8.ofNat e'.seg.toNat ≠ 0xFF := by
          exact byte_ne (by omega) (show e'.seg.toNat ≠ 255 by omega)
        simp only [neFormat, neReader, EntryExport.neEntry, field16, hsame.1, Bool.false_eq_true,
          if_false, if_neg hff, List.cons_append, List.nil_append, ← hsame.2 rfl,
          byte_toNat (show e'.seg.toNat ≤ 0xFF by omega), word16_field16 hoff',
          readFlags_infoByte e'.words_lt]

/-- The records of a bundle all have the size that is counted for the one that starts it. -/
theorem neFormat_recordSize (sharable : Bool) {exports : List EntryExport}
    (hkind : ∀ e ∈ exports, ∀ e' ∈ exports, e.seg = e'.seg → e.ismovable = e'.ismovable) :
    ∀ e ∈ exports, ∀ e' ∈ exports, e' = e ∨ (neFormat sharable).joins e e' = true →
      ((neFormat sharable).record e').length = (neFormat sharable).recordSize e := by
  intro e he e' he' hjoin
  have hsame : e'.ismovable = e.ismovable := by
    rcases hjoin with rfl | hjoin
    · rfl
    · simp only [neFormat] at hjoin
      cases hm : e.ismovable with
      | true => rwa [if_pos hm] at hjoin
      | false =>
          rw [hm, if_neg (by simp), decide_eq_true_eq] at hjoin
          exact (hkind e' he' e he hjoin).trans hm
  cases hm : e.ismovable <;> simp [neFormat, field16, hsame, hm]

theorem writeEntryTable_decodes (sharable : Bool) (l : ExportList)
    (hfits : ∀ e ∈ l.exports, e.FitsNe) (hkind : l.OneKind EntryExport.ismovable) :
    neReader.table (writeEntryTable sharable l.exports).1 =
        some (l.exports.map fun e => (e.ordinal, e.neEntry sharable)) ∧
      (writeEntryTable sharable l.exports).2 = (writeEntryTable sharable l.exports).1.length := by
  constructor
  · exact table_write (neFormat_reads sharable hfits hkind) l.increasing
      (fun e _ => e.ordinal_pos) [0, 0] ⟨[], rfl⟩
  · simp only [writeEntryTable, List.length_append, List.length_cons, List.length_nil]
    rw [write_size l.exports 0 (fun _ => rfl) (fun _ _ => rfl)
      (neFormat_recordSize sharable hkind) l.increasing]

/-! ### LE and LX -/

/-- An entry of an LE or LX file. -/
inductive FlatEntry where
  | entry32 (obj off : ℕ) (flags : EntryFlags)
  | gate16 (obj off callgate : ℕ) (flags : EntryFlags)
  | forward (modord value : ℕ) (byOrdinal : Bool)
  deriving DecidableEq, Repr

/-- The parts of the table that `WriteFlatEntryTable` writes: FLT_BNDL_GATE16 is 2, FLT_BNDL_ENTRY32 is 3,
FLT_BNDL_ENTRYFWD is 4. -/
def flatFormat : BundleFormat EntryExport where
  ordinal := EntryExport.ordinal
  joins := fun start place => decide (place.seg = start.seg)
  null := fun n => [UInt8.ofNat n, 0]
  nullSize := 2
  head := fun start n =>
    if start.seg = 0xFFFF then UInt8.ofNat n :: 4 :: field16 0
    else if start.isiopl then UInt8.ofNat n :: 2 :: field16 start.seg.toNat
    else UInt8.ofNat n :: 3 :: field16 start.seg.toNat
  headSize := 4
  record := fun e =>
    if e.seg = 0xFFFF then
      (if e.isordinal then 1 else 0) :: (field16 e.modnum.toNat ++ field32 e.value.toNat)
    else if e.isiopl then
      infoByte e.ioplWords e.isexported e.isexported :: (field16 e.off.toNat ++ field16 0)
    else infoByte e.ioplWords e.isexported false :: field32 e.off.toNat
  recordSize := fun start => if start.seg = 0xFFFF then 7 else 5

/-- `WriteFlatEntryTable`: the bytes and the size it returns. -/
def writeFlatEntryTable (exports : List EntryExport) : List UInt8 × ℕ :=
  let r := flatFormat.write 0 exports
  (r.1 ++ [0], r.2 + 1)

/-- The rule of LE and LX files: a type of 0 is for ordinals without entries, and otherwise the number of
the object follows. -/
def flatReader : BundleReader (UInt8 × ℕ) FlatEntry where
  readPrefix
    | [] => none
    | cnt :: bytes =>
      if cnt = 0 then some (.done, bytes)
      else
        match bytes with
        | 0 :: bytes => some (.skip cnt.toNat, bytes)
        | type :: b₀ :: b₁ :: bytes => some (.bundle cnt.toNat (type, word16 b₀ b₁), bytes)
        | _ => none
  readRecord kind bytes :=
    match kind.1, bytes with
    | 2, info :: b₀ :: b₁ :: c₀ :: c₁ :: bytes =>
      some (.gate16 kind.2 (word16 b₀ b₁) (word16 c₀ c₁) (readFlags info), bytes)
    | 3, info :: b₀ :: b₁ :: b₂ :: b₃ :: bytes =>
      some (.entry32 kind.2 (word32 b₀ b₁ b₂ b₃) (readFlags info), bytes)
    | 4, info :: m₀ :: m₁ :: v₀ :: v₁ :: v₂ :: v₃ :: bytes =>
      some (.forward (word16 m₀ m₁) (word32 v₀ v₁ v₂ v₃) (info &&& 1 != 0), bytes)
    | _, _ => none

/-- The entry that an export stands for. -/
def EntryExport.flatEntry (e : EntryExport) : FlatEntry :=
  if e.seg = 0xFFFF then .forward e.modnum.toNat e.value.toNat e.isordinal
  else if e.isiopl then
    .gate16 e.seg.toNat e.off.toNat 0 ⟨e.ioplWords, e.isexported, e.isexported⟩
  else .entry32 e.seg.toNat e.off.toNat ⟨e.ioplWords, e.isexported, false⟩

/-- A call gate has 16 bits for the offset; `ChkOS2Exports` reports an error if that is not enough. -/
def EntryExport.FitsFlat (e : EntryExport) : Prop := e.isiopl = true → e.off.toNat < 2 ^ 16

instance (e : EntryExport) : Decidable e.FitsFlat := inferInstanceAs (Decidable (_ → _))

/-- The kind of the bundle that an export goes into. -/
def EntryExport.flatKind (e : EntryExport) : UInt8 × ℕ :=
  if e.seg = 0xFFFF then (4, 0) else if e.isiopl then (2, e.seg.toNat) else (3, e.seg.toNat)

theorem flatFormat_reads {exports : List EntryExport} (hfits : ∀ e ∈ exports, e.FitsFlat)
    (hkind : ∀ e ∈ exports, ∀ e' ∈ exports, e.seg = e'.seg → e.isiopl = e'.isiopl) :
    Reads flatFormat flatReader EntryExport.flatKind EntryExport.flatEntry exports where
  null n rest h1 h255 := by
    have hn : UInt8.ofNat n ≠ 0 := byte_ne h255 (show n ≠ 0 by omega)
    simp only [flatFormat, flatReader, List.cons_append, List.nil_append, if_neg hn,
      byte_toNat h255]
  null_ne n := by simp [flatFormat]
  head e he n rest h1 h255 := by
    have hn : UInt8.ofNat n ≠ 0 := byte_ne h255 (show n ≠ 0 by omega)
    have hseg := word16_field16 e.seg.toNat_lt
    simp only [flatFormat, EntryExport.flatKind]
    by_cases hfwd : e.seg = 0xFFFF
    · simp only [if_pos hfwd, flatReader, field16, List.cons_append, List.nil_append, if_neg hn,
        byte_toNat h255]
      rfl
    · by_cases hgate : e.isiopl = true
      · simp only [if_neg hfwd, if_pos hgate, flatReader, field16, List.cons_append,
          List.nil_append, if_neg hn, byte_toNat h255]
        exact congrArg (fun obj => some (BundlePrefix.bundle n ((2 : UInt8), obj), rest)) hseg
      · simp only [if_neg hfwd, if_neg hgate, flatReader, field16, List.cons_append,
          List.nil_append, if_neg hn, byte_toNat h255]
        exact congrArg (fun obj => some (BundlePrefix.bundle n ((3 : UInt8), obj), rest)) hseg
  head_ne e n := by
    simp only [flatFormat]
    split_ifs <;> simp
  record e he e' he' hjoin rest := by
    have hseg : e'.seg = e.seg := by
      rcases hjoin with rfl | hjoin
      · rfl
      · simpa [flatFormat] using hjoin
    have hiopl := hkind e' he' e he hseg
    simp only [flatFormat, EntryExport.flatKind, EntryExport.flatEntry, hseg, hiopl]
    by_cases hfwd : e.seg = 0xFFFF
    · simp only [if_pos hfwd, flatReader, field16, field32, List.cons_append, List.nil_append,
        word16_field16 e'.modnum.toNat_lt, word32_field32 e'.value.toNat_lt]
      cases e'.isordinal <;> rfl
    · by_cases hgate : e.isiopl = true
      · simp only [if_neg hfwd, if_pos hgate, flatReader, field16, List.cons_append,
          List.nil_append, word16_field16 (hfits e' he' (hiopl.trans hgate)),
          readFlags_infoByte e'.words_lt]
        rfl
      · simp only [if_neg hfwd, if_neg hgate, flatReader, field32, List.cons_append,
          List.nil_append, word32_field32 e'.off.toNat_lt, readFlags_infoByte e'.words_lt]

theorem writeFlatEntryTable_decodes (l : ExportList) (hfits : ∀ e ∈ l.exports, e.FitsFlat)
    (hkind : l.OneKind EntryExport.isiopl) :
    flatReader.table (writeFlatEntryTable l.exports).1 =
        some (l.exports.map fun e => (e.ordinal, e.flatEntry)) ∧
      (writeFlatEntryTable l.exports).2 = (writeFlatEntryTable l.exports).1.length := by
  constructor
  · exact table_write (flatFormat_reads hfits hkind) l.increasing
      (fun e _ => e.ordinal_pos) [0] ⟨[], rfl⟩
  · simp only [writeFlatEntryTable, List.length_append, List.length_cons, List.length_nil]
    rw [write_size l.exports 0 (fun _ => rfl) _ _ l.increasing]
    · intro e n
      simp only [flatFormat]
      split_ifs <;> rfl
    · intro e _ e' _ hjoin
      have hseg : e'.seg = e.seg := by
        rcases hjoin with rfl | hjoin
        · rfl
        · simpa [flatFormat] using hjoin
      simp only [flatFormat, hseg]
      split_ifs <;> rfl

/-- An exported entry point without words and without an import. -/
def plainExport (ordinal : ℕ) (ismovable : Bool) (seg : UInt16) (off : UInt32) (h : 0 < ordinal) :
    EntryExport where
  ordinal := ordinal
  ioplWords := 0
  isexported := true
  ismovable := ismovable
  isiopl := false
  seg := seg
  off := off
  modnum := 0
  isordinal := false
  value := 0
  ordinal_pos := h
  words_lt := by decide

/-- Two fixed entries in segment 1, a gap of more than 255 ordinals, and a movable entry in segment 2. -/
def gapExports : ExportList where
  exports := [plainExport 1 false 1 0x10 (by decide), plainExport 2 false 1 0x20 (by decide),
    plainExport 300 true 2 0x30 (by decide)]
  increasing := by decide

end OpenWatcom.Wlink
