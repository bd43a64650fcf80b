import OpenWatcom.Clib.ByteFiles

/-! # The length of a file that was closed

The BDOS keeps the number of records of a file and the byte count of its last record.  `__close` stores the count
if the file was written and its length is no multiple of a record; `disk_len` computes the length from both when the
file is opened again. -/

namespace OpenWatcom.Clib

variable {σ : Type} {b : Bdos σ} {v : View σ}

/-! ### The stored count -/

/-- The count after `__close`. -/
def storedCount (wrote : Bool) (len : Int) (count : Byte) : Byte :=
  if wrote = true ∧ len % 128 ≠ 0 then UInt8.ofNat (len % 128).toNat else count

/-- When the length that is computed from the stored count is the length of the file: the file was not written, or
its records reach to its end and the count that is not stored would say that the last record is full. -/
def StoredRight (wrote : Bool) (len : Int) (records : ℕ) (count : Byte) : Prop :=
  wrote = false ∨ len ≤ records * 128 ∧
    (len % 128 ≠ 0 ∨ len = 0 ∨ count = 0 ∨ count = 128 ∨ count = 255)

instance (wrote : Bool) (len : Int) (records : ℕ) (count : Byte) :
    Decidable (StoredRight wrote len records count) := inferInstanceAs (Decidable (_ ∨ _))

theorem lengthOf_stored_iff {wrote : Bool} {len : Int} {records : ℕ} {count : Byte} (hlen : 0 ≤ len)
    (hcovers : (records : Int) * 128 < len + 128)
    (hfresh : wrote = false → lengthOf true records count = len) :
    lengthOf true records (storedCount wrote len count) = len ↔ StoredRight wrote len records count := by
  unfold StoredRight storedCount
  cases wrote with
  | false => simpa using hfresh rfl
  | true =>
      have hbyte := count.toNat_lt
      have h0 : count = 0 ↔ count.toNat = 0 := by
        rw [← UInt8.toNat_inj]
        rfl
      have h128 : count = 128 ↔ count.toNat = 128 := by
        rw [← UInt8.toNat_inj]
        rfl
      have h255 : count = 255 ↔ count.toNat = 255 := by
        rw [← UInt8.toNat_inj]
        rfl
      by_cases hpart : len % 128 = 0
      · simp only [hpart, ne_eq, not_true_eq_false, and_false, if_false, Bool.true_eq_false, false_or]
        unfold lengthOf
        simp only [ne_eq, h0, h128, h255, true_and]
        split_ifs <;> omega
      · have hcount : (UInt8.ofNat (len % 128).toNat).toNat = (len % 128).toNat := by
          rw [UInt8.toNat_ofNat']
          omega
        have hne0 : UInt8.ofNat (len % 128).toNat ≠ 0 := by
          intro heq
          have := congrArg UInt8.toNat heq
          rw [hcount] at this
          have hz : (0 : UInt8).toNat = 0 := rfl
          omega
        have hne255 : UInt8.ofNat (len % 128).toNat ≠ 255 := by
          intro heq
          have := congrArg UInt8.toNat heq
          rw [hcount] at this
          have hz : (255 : UInt8).toNat = 255 := rfl
          omega
        rw [if_pos ⟨rfl, hpart⟩]
        unfold lengthOf
        rw [if_neg hne0, hcount]
        simp only [hne255, ne_eq, not_false_eq_true, and_self, if_true, hpart, true_or, and_true,
          Bool.true_eq_false, false_or]
        split_ifs <;> omega

/-! ### Closing -/

theorem high_ne_zero (c : Byte) : (c ||| 0x80) &&& 0x80 ≠ 0 := by
  have h : (c ||| 0x80) &&& 0x80 = 0x80 := by
    apply UInt8.toBitVec_inj.mp
    ext i
    simp
    grind
  rw [h]
  decide

/-- Function 30 with F6' set stores the count. -/
theorem storeCount_count (hb : KeepsCount b v) (i : Fin 16) (lrbc : Byte) {st : DiskIo σ}
    (hpresent : v.present st.os (st.dfiles i).fcb.key) :
    v.count (storeCount b i lrbc st).os (st.dfiles i).fcb.key = lrbc := by
  have hkey : Fcb.key (Function.update (Function.update (st.dfiles i).fcb 6
      ((st.dfiles i).fcb 6 ||| 0x80)) 32 lrbc) = (st.dfiles i).fcb.key := by
    rw [Fcb.key_update _ _ (by decide), key_setF6 _ _ (and_or_high _)]
  have hflag : Function.update (Function.update (st.dfiles i).fcb 6
      ((st.dfiles i).fcb 6 ||| 0x80)) 32 lrbc 6 &&& 0x80 ≠ 0 := by
    rw [Function.update_of_ne (by decide), Function.update_self]
    exact high_ne_zero _
  have hcount := hb.attribCount _ st.dma st.os (by rwa [hkey]) hflag
  rw [hkey, Function.update_self] at hcount
  unfold storeCount
  simpa [bdosFile] using hcount

/-- The condition under which `__close` stores the count. -/
theorem stores_iff {fp : DFile} (hbinary : fp.text = false) :
    (fp.wrote && !fp.text && true && UInt8.ofNat (fp.len % 128).toNat != 0) = true ↔
      fp.wrote = true ∧ fp.len % 128 ≠ 0 := by
  have hzero : UInt8.ofNat (fp.len % 128).toNat = 0 ↔ fp.len % 128 = 0 := by
    rw [← UInt8.toNat_inj, UInt8.toNat_ofNat']
    have hz : (0 : UInt8).toNat = 0 := rfl
    omega
  simp [hbinary, hzero]

/-- What is stored when a file is closed. -/
theorem close_stored (hb : KeepsCount b v) {handle : Int} {i : Fin 16} {st : DiskIo σ}
    (h : FilesInv b v st) (hhandle : 3 ≤ handle) (hfd : fdToFile st handle = some i)
    (hpresent : v.present st.os (st.dfiles i).fcb.key) :
    v.count (close b handle st).2.os (st.dfiles i).fcb.key =
      storedCount (st.dfiles i).wrote (st.dfiles i).len
        (v.count st.os (st.dfiles i).fcb.key) := by
  have hinv := h.file i (fdToFile_used hfd)
  have hclose := reads_bdosFile hb.toDirectory i st (f := .closeFile) (by simp)
  have hmark : ∀ st₂ : DiskIo σ,
      (if st₂.cacheFp = some i then { st₂ with cacheFp := none } else st₂).os = st₂.os := by
    intro st₂
    split_ifs <;> rfl
  have hhas : osHasLrbc b = true := decide_eq_true hb.version
  unfold close
  rw [if_neg (not_lt.mpr hhandle), hfd]
  simp only [hinv.disk, Bool.false_eq_true, if_false]
  generalize (bdosFile b .closeFile i st).2 = st₁ at hclose ⊢
  rw [setFile_os, hmark, hhas]
  obtain ⟨fcb, x, hkey, hfile⟩ := hclose.file
  have hcount := hclose.count hb
  have htext : (st₁.dfiles i).text = false := by
    rw [hfile]
    exact hinv.binary
  have hiff := stores_iff htext
  have hwrote : (st₁.dfiles i).wrote = (st.dfiles i).wrote := by rw [hfile]
  have hlen : (st₁.dfiles i).len = (st.dfiles i).len := by rw [hfile]
  rw [hwrote, hlen] at hiff
  rw [hwrote, hlen]
  unfold storedCount
  by_cases hcond : (st.dfiles i).wrote = true ∧ (st.dfiles i).len % 128 ≠ 0
  · rw [if_pos hcond, if_pos (hiff.mpr hcond)]
    have hthere : v.present st₁.os (st₁.dfiles i).fcb.key := by
      rw [hclose.key]
      exact (hclose.disk _).present.mpr hpresent
    have hstored := storeCount_count hb i (UInt8.ofNat ((st.dfiles i).len % 128).toNat) hthere
    rwa [hclose.key] at hstored
  · rw [if_neg hcond, if_neg (mt hiff.mp hcond), hcount]

/-! ### Between opening and closing -/

/-- A file is there, and a slot is free for it. -/
structure Openable (b : Bdos σ) (v : View σ) (name : List Byte) (mode : OpenMode) (st : DiskIo σ) :
    Prop where
  slot : (freeSlot st).isSome = true
  binary : mode.binary = true
  trunc : mode.trunc = false
  legal : (nameToFcb name).1 = true
  console : isConsoleName name = false
  plain : (nameToFcb name).2.key.Plain
  apart : AllApart b v st (nameToFcb name).2.key
  present : v.present st.os (nameToFcb name).2.key

/-- A file that was opened with the stored count `c`: its records do not reach beyond the record that its end is
in, and its length is the stored one if it was not written. -/
structure Kept (b : Bdos σ) (v : View σ) (i : Fin 16) (k : Key) (c : Byte) (st : DiskIo σ) : Prop where
  files : FilesInv b v st
  used : (st.dfiles i).used = true
  key : (st.dfiles i).fcb.key = k
  present : v.present st.os k
  count : v.count st.os k = c
  covers : (v.size st.os k : Int) * 128 < (st.dfiles i).len + 128
  fresh : (st.dfiles i).wrote = false → lengthOf true (v.size st.os k) c = (st.dfiles i).len

theorem lengthOf_covers (records : ℕ) (c : Byte) : (records : Int) * 128 < lengthOf true records c + 128 := by
  have h0 : c = 0 ↔ c.toNat = 0 := by
    rw [← UInt8.toNat_inj]
    rfl
  unfold lengthOf
  simp only [ne_eq, h0, true_and]
  split_ifs <;> omega

/-- Opening. -/
theorem sopen_kept (hb : KeepsCount b v) {name : List Byte} {mode : OpenMode} {st : DiskIo σ}
    (h : FilesInv b v st) (hopen : Openable b v name mode st) :
    ∃ i : Fin 16, (sopen b name mode st).1 = 3 + (i.val : Int) ∧
      Kept b v i (nameToFcb name).2.key (v.count st.os (nameToFcb name).2.key)
        (sopen b name mode st).2 ∧
      ((sopen b name mode st).2.dfiles i).len =
        lengthOf true (v.size st.os (nameToFcb name).2.key) (v.count st.os (nameToFcb name).2.key) := by
  obtain ⟨i, hi⟩ := Option.isSome_iff_exists.mp hopen.slot
  have hcall : sopen b name mode st = sopenFile b i name mode st := by
    unfold sopen
    rw [hi]
    simp only [hopen.console, Bool.false_eq_true, if_false]
  have hcache := sopenFile_cache hb.toDirectory mode h hi hopen.apart
  obtain ⟨st₂, heq, hs, hsame, hcount, hkeep⟩ := sopenFile_present hb.toDirectory (i := i) hopen.binary
    hopen.trunc hopen.legal hopen.plain hopen.present
  have hhas : osHasLrbc b = true := decide_eq_true hb.version
  obtain ⟨⟨fcb, x, hkey, hfile⟩, -, hsame₅, hkeep₅⟩ := foundFile_spec hb.toDirectory hopen.binary hs
  obtain ⟨hfiles, -⟩ := h.found hb.toDirectory hopen.apart hopen.binary hs (hsame _) hcount
    (heq ▸ hcache)
  rw [hhas, hcount hhas, (hsame _).size] at hfile
  have hdisk := (hsame (nameToFcb name).2.key).trans (hsame₅ (nameToFcb name).2.key)
  have hcounts := congrFun ((hkeep₅ hb).trans (hkeep hb)) (nameToFcb name).2.key
  have hcovers := lengthOf_covers (v.size st.os (nameToFcb name).2.key)
    (v.count st.os (nameToFcb name).2.key)
  rw [hcall, heq]
  generalize foundFile b i st₂ = st₅ at hfiles hfile hdisk hcounts ⊢
  have hself : (sopenDone i mode st₅).2.dfiles i = { st₅.dfiles i with
      used := true, pos := if mode.append then (st₅.dfiles i).len else (st₅.dfiles i).pos } :=
    Function.update_self _ _ _
  have hos : (sopenDone i mode st₅).2.os = st₅.os := rfl
  refine ⟨i, rfl, ⟨hfiles, by rw [hself], by rw [hself, hfile]; exact hkey, ?_, ?_, ?_, fun _ => ?_⟩, ?_⟩
  · rw [hos]
    exact hdisk.present.mpr hopen.present
  · rw [hos]
    exact hcounts
  · rw [hos, hdisk.size, hself, hfile]
    exact hcovers
  · rw [hos, hdisk.size, hself, hfile]
  · rw [hself, hfile]

/-- A write or a seek on the handle; no call of the BDOS fails, and a seek does not leave the range of a
`long`. -/
def OnHandle (b : Bdos σ) (handle : Int) (st : DiskIo σ) (c : DiskCall) : Prop :=
  match c with
  | .qwrite handle' _ => handle' = handle ∧ WritesOk (execState b st c).log
  | .lseek handle' offset origin => handle' = handle ∧ ∀ i base, fdToFile st handle = some i →
      origin.base (st.dfiles i) = some base → -2 ^ 31 ≤ base + offset ∧ base + offset < 2 ^ 31
  | _ => False

theorem Kept.qwrite (hb : KeepsCount b v) {i : Fin 16} {k : Key} {c : Byte} {st : DiskIo σ}
    {bytes : List Byte} (h : Kept b v i k c st)
    (hlog : WritesOk (qwrite b (3 + (i.val : Int)) bytes st).2.log) :
    Kept b v i k c (qwrite b (3 + (i.val : Int)) bytes st).2 := by
  have hhandle : (3 : Int) ≤ 3 + (i.val : Int) := by omega
  have hfd := fdToFile_slot h.used
  cases hwritable : (st.dfiles i).writable with
  | false =>
      rw [qwrite_denied hhandle hfd hwritable]
      exact h
  | true =>
      obtain ⟨-, hwrites, hfiles, -⟩ :=
        qwrite_spec hb.toDirectory h.files hhandle hfd hwritable hlog
      have hself := setFile_self st i DFile.writing
      have hos := setFile_os st i DFile.writing
      obtain ⟨hfiles₁, -⟩ := h.files.writing h.used
      generalize st.setFile i DFile.writing = st₁ at hwrites hself hos hfiles₁
      have hkey₁ : (st₁.dfiles i).fcb.key = k := by rw [hself]; exact h.key
      have hused₁ : (st₁.dfiles i).used = true := by rw [hself]; exact h.used
      have hpos := (hfiles₁.file i hused₁).pos_nonneg
      have hsize := hwrites.size
      rw [hkey₁, hos] at hsize
      refine ⟨hfiles, hwrites.used.trans hused₁, hwrites.key.trans hkey₁, ?_, ?_, ?_, ?_⟩
      · have hpresent := hwrites.present
        rw [hkey₁, hos] at hpresent
        exact hpresent h.present
      · rw [hwrites.count hb, hos]
        exact h.count
      · have hcovers := h.covers
        obtain ⟨fcb, x, -, hfile⟩ := hwrites.file
        have hlen : (st₁.dfiles i).len = (st.dfiles i).len := by rw [hself]; rfl
        rw [hsize, hfile, DFile.grown, grownSize]
        dsimp only
        rw [hlen]
        split_ifs with hnil
        · exact hcovers
        · have := List.length_pos_of_ne_nil hnil
          omega
      · intro hno
        obtain ⟨fcb, x, -, hfile⟩ := hwrites.file
        rw [hfile, hself] at hno
        cases hno

theorem Kept.lseek {i : Fin 16} {k : Key} {c : Byte} {st : DiskIo σ} {offset : Int} {origin : Origin}
    (h : Kept b v i k c st)
    (hplace : ∀ j base, fdToFile st (3 + (i.val : Int)) = some j →
      origin.base (st.dfiles j) = some base → -2 ^ 31 ≤ base + offset ∧ base + offset < 2 ^ 31) :
    Kept b v i k c (lseek (3 + (i.val : Int)) offset origin st).2 := by
  obtain ⟨hfiles, -⟩ := lseek_files h.files hplace
  have hstate : (Clib.lseek (3 + (i.val : Int)) offset origin st).2 = st ∨
      ∃ pos, (Clib.lseek (3 + (i.val : Int)) offset origin st).2 =
        st.setFile i fun fp => { fp with pos := pos, ateof := false } := by
    unfold Clib.lseek
    rw [fdToFile_slot h.used]
    dsimp only
    generalize origin.base (st.dfiles i) = base
    cases base with
    | none => exact Or.inl rfl
    | some base =>
        dsimp only
        split_ifs
        · exact Or.inl rfl
        · exact Or.inr ⟨_, rfl⟩
  rcases hstate with heq | ⟨pos, heq⟩
  · rw [heq]
    exact h
  · rw [heq] at hfiles ⊢
    have hself := setFile_self st i fun fp => { fp with pos := pos, ateof := false }
    refine ⟨hfiles, by rw [hself]; exact h.used, by rw [hself]; exact h.key, h.present, h.count, ?_, ?_⟩
    · rw [hself]
      exact h.covers
    · rw [hself]
      exact h.fresh

theorem Kept.step (hb : KeepsCount b v) {i : Fin 16} {k : Key} {c : Byte} {st : DiskIo σ}
    {call : DiskCall} (h : Kept b v i k c st) (hcall : OnHandle b (3 + (i.val : Int)) st call) :
    Kept b v i k c (execState b st call) := by
  have h₀ : Kept b v i k c { st with log := [] } :=
    ⟨⟨⟨h.files.cache.coherent, h.files.cache.opened⟩, h.files.file, h.files.apart⟩, h.used, h.key,
      h.present, h.count, h.covers, h.fresh⟩
  cases call with
  | qwrite handle bytes =>
      obtain ⟨rfl, hlog⟩ := hcall
      exact h₀.qwrite hb hlog
  | lseek handle offset origin =>
      obtain ⟨rfl, hplace⟩ := hcall
      exact h₀.lseek hplace
  | sopen name mode => exact hcall.elim
  | qread handle n => exact hcall.elim
  | close handle => exact hcall.elim
  | remove name => exact hcall.elim
  | chmod name writable => exact hcall.elim
  | access name wOk => exact hcall.elim
  | stat name => exact hcall.elim
  | utime name => exact hcall.elim
  | dup handle => exact hcall.elim
  | rename old new => exact hcall.elim

theorem Kept.run (hb : KeepsCount b v) {i : Fin 16} {k : Key} {c : Byte} {st : DiskIo σ}
    {cs : List DiskCall} (h : Kept b v i k c st)
    (hcs : Along (execState b) (OnHandle b (3 + (i.val : Int))) st cs) :
    Kept b v i k c (run (execState b) st cs) :=
  run_invariant_of_along (fun _ _ h hcall => Kept.step hb h hcall) h hcs

/-! ### Opening again -/

/-- The length that `disk_len` finds when a file is opened. -/
def reopened (b : Bdos σ) (name : List Byte) (mode : OpenMode) (st : DiskIo σ) : Option Int :=
  (fdToFile (sopen b name mode st).2 (sopen b name mode st).1).map fun i =>
    ((sopen b name mode st).2.dfiles i).len

theorem reopened_eq (hb : KeepsCount b v) {name : List Byte} {mode : OpenMode} {st : DiskIo σ}
    (h : FilesInv b v st) (hopen : Openable b v name mode st) : reopened b name mode st =
      some (lengthOf true (v.size st.os (nameToFcb name).2.key)
        (v.count st.os (nameToFcb name).2.key)) := by
  obtain ⟨i, hret, hkept, hlen⟩ := sopen_kept hb h hopen
  rw [reopened, hret, fdToFile_slot hkept.used, Option.map_some, hlen]

/-- After closing the file can be opened again. -/
theorem openable_close (hb : KeepsCount b v) {name : List Byte} {mode mode' : OpenMode} {i : Fin 16}
    {c : Byte} {st₀ st : DiskIo σ} (hopen : Openable b v name mode st₀)
    (hmode : mode'.binary = true ∧ mode'.trunc = false)
    (h : Kept b v i (nameToFcb name).2.key c st) :
    FilesInv b v (close b (3 + (i.val : Int)) st).2 ∧
      Openable b v name mode' (close b (3 + (i.val : Int)) st).2 := by
  have hhandle : (3 : Int) ≤ 3 + (i.val : Int) := by omega
  obtain ⟨-, hothers, hclosed, hsame⟩ := close_state hb.toDirectory hhandle (fdToFile_slot h.used)
    (h.files.file i h.used).disk
  refine ⟨(close_files hb.toDirectory h.files hhandle).1, ?_, hmode.1, hmode.2, hopen.legal,
    hopen.console, hopen.plain, fun j hj => ?_, ?_⟩
  · rw [freeSlot, List.find?_isSome]
    exact ⟨i, List.mem_finRange i, by rw [hclosed]; rfl⟩
  · by_cases hji : j = i
    · subst hji
      exact absurd (hclosed.symm.trans hj) (by decide)
    · rw [hothers j hji] at hj ⊢
      rw [← h.key]
      exact ⟨h.files.apart i j (Ne.symm hji) h.used hj, h.files.apart j i hji hj h.used⟩
  · exact (hsame _).present.mpr h.present

/-- A file that was opened, written and closed has its length when it is opened again exactly if what is stored is
right for it: the condition is about the state before it is closed, and the count that was stored when it was
opened. -/
theorem reopened_iff (hb : KeepsCount b v) {name : List Byte} {mode mode' : OpenMode} {st : DiskIo σ}
    (h : FilesInv b v st) (hopen : Openable b v name mode st)
    (hmode : mode'.binary = true ∧ mode'.trunc = false) {cs : List DiskCall}
    (hcs : Along (execState b) (OnHandle b (sopen b name mode st).1) (sopen b name mode st).2 cs) :
    ∃ i : Fin 16, (sopen b name mode st).1 = 3 + (i.val : Int) ∧
      (reopened b name mode'
          (close b (3 + (i.val : Int)) (run (execState b) (sopen b name mode st).2 cs)).2 =
          some ((run (execState b) (sopen b name mode st).2 cs).dfiles i).len ↔
        StoredRight ((run (execState b) (sopen b name mode st).2 cs).dfiles i).wrote
          ((run (execState b) (sopen b name mode st).2 cs).dfiles i).len
          (v.size (run (execState b) (sopen b name mode st).2 cs).os (nameToFcb name).2.key)
          (v.count st.os (nameToFcb name).2.key)) := by
  obtain ⟨i, hret, hopened, -⟩ := sopen_kept hb h hopen
  rw [hret] at hcs
  refine ⟨i, hret, ?_⟩
  have hkept := hopened.run hb hcs
  generalize run (execState b) (sopen b name mode st).2 cs = st₁ at hkept ⊢
  have hhandle : (3 : Int) ≤ 3 + (i.val : Int) := by omega
  have hinv := hkept.files.file i hkept.used
  obtain ⟨hfiles, hagain⟩ := openable_close hb hopen hmode hkept
  have hstored := close_stored hb hkept.files hhandle (fdToFile_slot hkept.used)
    (by rw [hkept.key]; exact hkept.present)
  obtain ⟨-, -, -, hsame⟩ := close_state hb.toDirectory hhandle (fdToFile_slot hkept.used) hinv.disk
  rw [hkept.key, hkept.count] at hstored
  rw [reopened_eq hb hfiles hagain, hstored, (hsame _).size, Option.some_inj]
  exact lengthOf_stored_iff hinv.len_nonneg hkept.covers hkept.fresh

/-- A file of one record with the byte count 100. -/
def hundred : Ram := [((nameToFcb [0x41]).2.key, ⟨[some fun _ => 0x58], 100, by decide⟩)]

theorem hundred_openable : Openable ramBdos ramView [0x41] ⟨2, false, false, false, true⟩
    (DiskIo.start hundred) :=
  ⟨by decide +kernel, rfl, rfl, by decide, by decide, by decide, fun j hj => (by cases hj),
    (by decide +kernel : (Ram.file hundred (nameToFcb [0x41]).2.key).isSome)⟩

/-- It is written at its end, and has the right length afterwards. -/
theorem reopened_hundred : ∃ i : Fin 16, (sopen ramBdos [0x41] ⟨2, false, false, false, true⟩
    (DiskIo.start hundred)).1 = 3 + (i.val : Int) ∧
    (reopened ramBdos [0x41] ⟨0, false, false, false, true⟩
        (close ramBdos (3 + (i.val : Int)) (run (execState ramBdos)
          (sopen ramBdos [0x41] ⟨2, false, false, false, true⟩ (DiskIo.start hundred)).2
          [.lseek 3 100 .set, .qwrite 3 [0x59]])).2 =
        some ((run (execState ramBdos)
          (sopen ramBdos [0x41] ⟨2, false, false, false, true⟩ (DiskIo.start hundred)).2
          [.lseek 3 100 .set, .qwrite 3 [0x59]]).dfiles i).len ↔
      StoredRight ((run (execState ramBdos)
          (sopen ramBdos [0x41] ⟨2, false, false, false, true⟩ (DiskIo.start hundred)).2
          [.lseek 3 100 .set, .qwrite 3 [0x59]]).dfiles i).wrote
        ((run (execState ramBdos)
          (sopen ramBdos [0x41] ⟨2, false, false, false, true⟩ (DiskIo.start hundred)).2
          [.lseek 3 100 .set, .qwrite 3 [0x59]]).dfiles i).len
        (ramView.size (run (execState ramBdos)
          (sopen ramBdos [0x41] ⟨2, false, false, false, true⟩ (DiskIo.start hundred)).2
          [.lseek 3 100 .set, .qwrite 3 [0x59]]).os (nameToFcb [0x41]).2.key)
        (ramView.count (DiskIo.start hundred).os (nameToFcb [0x41]).2.key)) := by
  refine reopened_iff ramBdos_keepsCount (filesInv_start hundred) hundred_openable ⟨rfl, rfl⟩ ?_
  refine ⟨⟨by decide +kernel, ?_⟩, ⟨by decide +kernel, by decide +kernel⟩, trivial⟩
  intro i base _ hbase
  obtain rfl : 0 = base := Option.some.inj hbase
  decide

/-- It is written so that it ends with its second record, and is 28 bytes short afterwards. -/
theorem reopened_short : ¬ ∀ (σ : Type) (b : Bdos σ) (v : View σ), KeepsCount b v →
    ∀ (st : DiskIo σ), FilesInv b v st → ∀ (name : List Byte) (mode mode' : OpenMode),
      Openable b v name mode st → mode'.binary = true ∧ mode'.trunc = false →
      ∀ cs : List DiskCall,
        Along (execState b) (OnHandle b (sopen b name mode st).1) (sopen b name mode st).2 cs →
        ∃ i : Fin 16, (sopen b name mode st).1 = 3 + (i.val : Int) ∧
          reopened b name mode'
            (close b (3 + (i.val : Int)) (run (execState b) (sopen b name mode st).2 cs)).2 =
            some ((run (execState b) (sopen b name mode st).2 cs).dfiles i).len := by
  intro h
  obtain ⟨i, hi, heq⟩ := h Ram ramBdos ramView ramBdos_keepsCount (DiskIo.start hundred)
    (filesInv_start hundred) [0x41] ⟨2, false, false, false, true⟩ ⟨0, false, false, false, true⟩
    hundred_openable ⟨rfl, rfl⟩ [.lseek 3 255 .set, .qwrite 3 [0x59]]
    ⟨⟨by decide +kernel, by
      intro i base _ hbase
      obtain rfl : 0 = base := Option.some.inj hbase
      decide⟩, ⟨by decide +kernel, by decide +kernel⟩, trivial⟩
  have hfirst : (sopen ramBdos [0x41] ⟨2, false, false, false, true⟩ (DiskIo.start hundred)).1 = 3 := by
    decide +kernel
  obtain rfl : i = 0 := by
    apply Fin.ext
    rw [hfirst] at hi
    show i.val = 0
    omega
  revert heq
  decide +kernel

end OpenWatcom.Clib
