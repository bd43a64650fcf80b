import OpenWatcom.Clib.DiskFile

/-! # Handles as byte arrays

Files that are open in binary mode behave as byte arrays with a position each, although they share the record
buffer.  The abstract side, `ByteFile` and `byteExec`, knows nothing of records.

* `qread_files`, `qwrite_files`, `lseek_files`, `close_files`, `sopen_files`: a call does to the table of open files
  what the abstract call does to the table of byte arrays;
* `byteFiles_refine`: so does every run, with the same replies. -/

namespace OpenWatcom.Clib

variable {σ : Type}

/-! ### Byte files -/

/-- An open file: its bytes, the position, and how it was opened. -/
structure ByteFile where
  bytes : List Byte
  pos : ℕ
  readable : Bool
  writable : Bool
  append : Bool
  deriving DecidableEq

namespace ByteFile

variable (f : ByteFile)

/-- The next `n` bytes, or those that are left. -/
def next (n : ℕ) : List Byte := (f.bytes.drop f.pos).take n

/-- The position of a write: the end for a handle that appends. -/
def writePos : ℕ := if f.append then f.bytes.length else f.pos

/-- `data` lies over the bytes from the position on, and behind them if they end. -/
def put (data : List Byte) : ByteFile :=
  { f with
    bytes := f.bytes.take f.writePos ++ data ++ f.bytes.drop (f.writePos + data.length)
    pos := f.writePos + data.length }

def base : Origin → Option Int
  | .set => some 0
  | .cur => some f.pos
  | .end => some f.bytes.length
  | .other => none

end ByteFile

abbrev ByteTable := Fin 16 → Option ByteFile

/-- The calls on byte files; what `sopen` finds is given with it. -/
inductive ByteCall where
  | sopen (new : Option (Fin 16 × ByteFile))
  | qread (handle : Int) (n : ℕ)
  | qwrite (handle : Int) (bytes : List Byte)
  | lseek (handle offset : Int) (origin : Origin)
  | close (handle : Int)

/-- The slot of a handle, open or not. -/
def slotOf (handle : Int) : Option (Fin 16) :=
  if handle - 3 < 0 ∨ 16 ≤ handle - 3 then none else some (Fin.ofNat 16 (handle - 3).toNat)

/-- The file that is open under a handle. -/
def ByteTable.openAt (t : ByteTable) (handle : Int) : Option (Fin 16 × ByteFile) := do
  let i ← slotOf handle
  let f ← t i
  return (i, f)

def byteExec (t : ByteTable) : ByteCall → Reply × ByteTable
  | .sopen none => (⟨-1, [], none⟩, t)
  | .sopen (some (i, f)) => (⟨3 + (i.val : Int), [], none⟩, Function.update t i (some f))
  | .qread handle n =>
    match t.openAt handle with
    | none => (⟨0, [], none⟩, t)
    | some (i, f) =>
      if f.readable then
        (⟨toInt (f.next n).length, f.next n, none⟩,
          Function.update t i (some { f with pos := f.pos + (f.next n).length }))
      else (⟨0, [], none⟩, t)
  | .qwrite handle data =>
    match t.openAt handle with
    | none => (⟨-1, [], none⟩, t)
    | some (i, f) =>
      if f.writable then (⟨toInt data.length, [], none⟩, Function.update t i (some (f.put data)))
      else (⟨-1, [], none⟩, t)
  | .lseek handle offset origin =>
    match t.openAt handle with
    | none => (⟨-1, [], none⟩, t)
    | some (i, f) =>
      match f.base origin with
      | none => (⟨-1, [], none⟩, t)
      | some base =>
        if base + offset < 0 then (⟨-1, [], none⟩, t)
        else (⟨base + offset, [], none⟩,
          Function.update t i (some { f with pos := (base + offset).toNat }))
  | .close handle =>
    match t.openAt handle with
    | none => (⟨-1, [], none⟩, t)
    | some (i, _) => (⟨0, [], none⟩, Function.update t i none)

/-! ### Open files as byte files -/

section

variable (b : Bdos σ) (v : View σ)

/-- The bytes of an open file are the cells below its length. -/
def fileAt (os : σ) (fp : DFile) : ByteFile :=
  ⟨slice (cell cpmEof (v.record os fp.fcb.key)) 0 fp.len.toNat, fp.pos.toNat, fp.readable,
    fp.writable, fp.append⟩

def files (st : DiskIo σ) : ByteTable := fun i =>
  if (st.dfiles i).used then some (fileAt v st.os (st.dfiles i)) else none

/-- What is known of a file in binary mode. -/
structure FileInv (os : σ) (fp : DFile) : Prop where
  binary : fp.text = false
  disk : fp.isCon = false
  pos_nonneg : 0 ≤ fp.pos
  pos_lt : fp.pos < 2 ^ 31
  len_nonneg : 0 ≤ fp.len
  len_le : fp.len ≤ 2 ^ 26
  settled : Settled b v os fp

/-- The buffer is coherent, and the open files are different ones. -/
structure FilesInv (st : DiskIo σ) : Prop where
  cache : CacheInv v st
  file : ∀ i, (st.dfiles i).used = true → FileInv b v st.os (st.dfiles i)
  apart : ∀ i j, i ≠ j → (st.dfiles i).used = true → (st.dfiles j).used = true →
    Apart b v (st.dfiles i).fcb.key (st.dfiles j).fcb.key

end

variable {b : Bdos σ} {v : View σ}

theorem openAt_files (st : DiskIo σ) (handle : Int) : (files v st).openAt handle =
    (fdToFile st handle).map fun i => (i, fileAt v st.os (st.dfiles i)) := by
  unfold ByteTable.openAt slotOf fdToFile files
  dsimp only
  split_ifs with hrange hused
  · rfl
  · simp only [Option.bind_eq_bind, Option.bind_some, if_pos hused]
    rfl
  · simp only [Option.bind_eq_bind, Option.bind_some, if_neg hused]
    rfl

theorem SameAt.fileLen {os os' : σ} {fp : DFile} (h : SameAt v os os' fp.fcb.key) :
    fileLen b v os' fp = fileLen b v os fp := by
  unfold Clib.fileLen textEnd
  rw [h.size, h.record]

theorem FileInv.same {os os' : σ} {fp : DFile} (h : FileInv b v os fp)
    (hsame : SameAt v os os' fp.fcb.key) : FileInv b v os' fp := by
  refine ⟨h.binary, h.disk, h.pos_nonneg, h.pos_lt, h.len_nonneg, h.len_le, fun hwrote => ?_⟩
  rw [hsame.fileLen]
  exact h.settled hwrote

theorem SameAt.fileAt {os os' : σ} {fp : DFile} (h : SameAt v os os' fp.fcb.key) :
    fileAt v os' fp = fileAt v os fp := by
  unfold Clib.fileAt
  rw [h.record]

/-- One slot changes, and the files of the others stay as they are. -/
theorem FilesInv.change {i : Fin 16} {st st' : DiskIo σ} (h : FilesInv b v st) (hcache : CacheInv v st')
    (hothers : ∀ j, j ≠ i → st'.dfiles j = st.dfiles j)
    (hsame : ∀ j, j ≠ i → (st.dfiles j).used = true →
      SameAt v st.os st'.os (st.dfiles j).fcb.key)
    (hfile : (st'.dfiles i).used = true → FileInv b v st'.os (st'.dfiles i) ∧
      ∀ j, j ≠ i → (st.dfiles j).used = true →
        Apart b v (st'.dfiles i).fcb.key (st.dfiles j).fcb.key ∧
          Apart b v (st.dfiles j).fcb.key (st'.dfiles i).fcb.key) :
    FilesInv b v st' ∧ files v st' = Function.update (files v st) i (files v st' i) := by
  constructor
  · refine ⟨hcache, fun j hj => ?_, fun j k hjk hj hk => ?_⟩
    · by_cases hji : j = i
      · subst hji
        exact (hfile hj).1
      · rw [hothers j hji] at hj ⊢
        exact (h.file j hj).same (hsame j hji hj)
    · by_cases hji : j = i
      · subst hji
        rw [hothers k (Ne.symm hjk)] at hk ⊢
        exact ((hfile hj).2 k (Ne.symm hjk) hk).1
      · rw [hothers j hji] at hj ⊢
        by_cases hki : k = i
        · subst hki
          exact ((hfile hk).2 j hji hj).2
        · rw [hothers k hki] at hk ⊢
          exact h.apart j k hjk hj hk
  · funext j
    by_cases hji : j = i
    · subst hji
      rw [Function.update_self]
    · rw [Function.update_of_ne hji, files, files, hothers j hji]
      split_ifs with hj
      · rw [(hsame j hji hj).fileAt]
      · rfl

/-- Work on one file. -/
theorem FilesInv.work {i : Fin 16} {st st' : DiskIo σ} (h : FilesInv b v st)
    (hused : (st.dfiles i).used = true) (hcache : CacheInv v st')
    (hothers : ∀ j, j ≠ i → st'.dfiles j = st.dfiles j)
    (hused' : (st'.dfiles i).used = (st.dfiles i).used)
    (hkey : (st'.dfiles i).fcb.key = (st.dfiles i).fcb.key)
    (hsame : ∀ l, Apart b v (st.dfiles i).fcb.key l → SameAt v st.os st'.os l)
    (hfile : FileInv b v st'.os (st'.dfiles i)) :
    FilesInv b v st' ∧ files v st' =
      Function.update (files v st) i (some (fileAt v st'.os (st'.dfiles i))) := by
  obtain ⟨hfiles, htable⟩ := h.change hcache hothers
    (fun j hj hjused => hsame _ (h.apart i j (Ne.symm hj) hused hjused))
    fun _ => ⟨hfile, fun j hj hjused => by
      rw [hkey]
      exact ⟨h.apart i j (Ne.symm hj) hused hjused, h.apart j i hj hjused hused⟩⟩
  refine ⟨hfiles, htable.trans ?_⟩
  rw [files, if_pos (hused'.trans hused)]

/-! ### Reading -/

theorem slice_take_min {α : Type*} (f : ℕ → α) (p k n : ℕ) :
    (slice f p k).take n = slice f p (min n k) := by
  rcases Nat.le_total n k with h | h
  · rw [Nat.min_eq_left h, slice_take f p h]
  · rw [Nat.min_eq_right h, List.take_of_length_le (by rwa [slice_length])]

/-- What a read returns is the next part of the array. -/
theorem next_fileAt {os : σ} {fp : DFile} (h : FileInv b v os fp) (n : ℕ) :
    (fileAt v os fp).next n = ahead v os fp n := by
  have hpos := h.pos_nonneg
  have hsub : fp.len.toNat - fp.pos.toNat = (fp.len - fp.pos).toNat := by omega
  rw [ByteFile.next, fileAt, slice_drop, slice_take_min, Nat.zero_add, hsub]
  rfl

theorem FilesInv.reads {i : Fin 16} {k : ℕ} {st st' : DiskIo σ} (h : FilesInv b v st)
    (hused : (st.dfiles i).used = true) (hr : Reads b v i k st st')
    (hk : (st.dfiles i).pos + k < 2 ^ 31) :
    FilesInv b v st' ∧ files v st' = Function.update (files v st) i
      (some { fileAt v st.os (st.dfiles i) with pos := (st.dfiles i).pos.toNat + k }) := by
  have hinv := h.file i hused
  have hpos := hinv.pos_nonneg
  have hfile := hinv.same (hr.disk _)
  obtain ⟨fcb, x, hkey, heq⟩ := hr.file
  have hset := hinv.settled.reads hr
  have hcache := h.cache.touch hr.toTouches (by simp) hused hinv.disk
  have hnext : FileInv b v st'.os (st'.dfiles i) := by
    rw [heq] at hset ⊢
    exact ⟨hinv.binary, hinv.disk, Int.add_nonneg hpos (Int.natCast_nonneg k), hk, hinv.len_nonneg,
      hinv.len_le, hset⟩
  obtain ⟨hfiles, htable⟩ := h.work hused hcache hr.others hr.used hr.key (fun l _ => hr.disk l) hnext
  refine ⟨hfiles, htable.trans ?_⟩
  congr 2
  have hcells := (hr.disk (st.dfiles i).fcb.key).record
  have hadd : ((st.dfiles i).pos + (k : Int)).toNat = (st.dfiles i).pos.toNat + k := by omega
  rw [heq, fileAt, fileAt]
  dsimp only
  rw [hkey, hcells, hadd]

theorem qread_files (hb : Directory b v) {handle : Int} {n : ℕ} {st : DiskIo σ}
    (h : FilesInv b v st) (hhandle : 3 ≤ handle) (hlog : ReadsOk (qread b handle n st).2.log) :
    FilesInv b v (qread b handle n st).2 ∧ byteExec (files v st) (.qread handle n) =
      (⟨(qread b handle n st).1.1, (qread b handle n st).1.2, none⟩,
        files v (qread b handle n st).2) := by
  have hno : ¬ handle < 3 := not_lt.mpr hhandle
  unfold qread at hlog ⊢
  rw [byteExec, openAt_files]
  simp only [hno, false_and, if_false] at hlog ⊢
  cases hfd : fdToFile st handle with
  | none => exact ⟨h, rfl⟩
  | some i =>
      have hused := fdToFile_used hfd
      have hinv := h.file i hused
      rw [hfd] at hlog
      simp only [hinv.disk, Bool.or_false, Option.map_some] at hlog ⊢
      cases hread : (st.dfiles i).readable with
      | false =>
          have : (fileAt v st.os (st.dfiles i)).readable = false := hread
          simp only [this, Bool.not_false, if_true, Bool.false_eq_true, if_false]
          exact ⟨h, trivial⟩
      | true =>
          have hreadable : (fileAt v st.os (st.dfiles i)).readable = true := hread
          simp only [hread, Bool.not_true, Bool.false_eq_true, if_false] at hlog ⊢
          rw [if_pos hreadable]
          have hzero := reads_setFile (b := b) (v := v) i 0 false st
          simp only [Int.natCast_zero, Int.add_zero] at hzero
          generalize st.setFile i _ = st₁ at hzero hlog ⊢
          obtain ⟨hfiles₁, -⟩ := h.reads hused hzero (by simpa using hinv.pos_lt)
          have hinv₁ := hfiles₁.file i (hzero.used.trans hused)
          obtain ⟨hout, hreads⟩ := qreadLoop_spec hb i n [] st₁ hfiles₁.cache.coherent hinv₁.settled
            hinv₁.pos_nonneg (by have := hinv₁.len_le; omega) hlog
          have hahead := hzero.ahead n
          simp only [Int.natCast_zero, Int.add_zero] at hahead
          have hseen : seen (st₁.dfiles i).text (ahead v st₁.os (st₁.dfiles i) n) =
              (fileAt v st.os (st.dfiles i)).next n := by
            rw [hinv₁.binary, next_fileAt hinv, hahead]
            rfl
          rw [hseen] at hout hreads
          rw [List.nil_append] at hout
          have hall := hzero.trans hreads
          rw [Nat.zero_add] at hall
          have hlen := ahead_length v st.os (st.dfiles i) n
          rw [← next_fileAt hinv] at hlen
          obtain ⟨hfiles, htable⟩ := h.reads hused hall (by
            have := hinv.len_le
            have := hinv.pos_lt
            omega)
          refine ⟨hfiles, ?_⟩
          rw [htable, hout]
          rfl

/-! ### Writing and seeking -/

/-- Fields of a file other than its name and state are changed. -/
theorem FilesInv.setFile {i : Fin 16} {st : DiskIo σ} (h : FilesInv b v st)
    (hused : (st.dfiles i).used = true) (f : DFile → DFile)
    (hkey : (f (st.dfiles i)).fcb.key = (st.dfiles i).fcb.key)
    (hused' : (f (st.dfiles i)).used = (st.dfiles i).used)
    (hfile : FileInv b v st.os (f (st.dfiles i))) :
    FilesInv b v (st.setFile i f) ∧ files v (st.setFile i f) =
      Function.update (files v st) i (some (fileAt v st.os (f (st.dfiles i)))) := by
  have hself := setFile_self st i f
  have hcon := (h.file i hused).disk
  obtain ⟨hfiles, htable⟩ : FilesInv b v (st.setFile i f) ∧ files v (st.setFile i f) = _ := h.work hused
    (h.cache.setFile i f hkey hused' (hfile.disk.trans hcon.symm))
    (fun j hj => setFile_of_ne st f hj) (by rw [hself, hused']) (by rw [hself, hkey])
    (fun l _ => SameAt.refl st.os l) (by rw [hself]; exact hfile)
  rw [hself] at htable
  exact ⟨hfiles, htable⟩

/-- The bytes of a file with `data` written at a position that is not beyond its end. -/
theorem Writes.fileAt {i : Fin 16} {data : List Byte} {st st' : DiskIo σ}
    (h : Writes b v i data st st') (hpos : 0 ≤ (st.dfiles i).pos)
    (hle : (st.dfiles i).pos ≤ (st.dfiles i).len) :
    fileAt v st'.os (st'.dfiles i) =
      { fileAt v st.os (st.dfiles i) with
        bytes := (fileAt v st.os (st.dfiles i)).bytes.take (st.dfiles i).pos.toNat ++ data ++
          (fileAt v st.os (st.dfiles i)).bytes.drop ((st.dfiles i).pos.toNat + data.length)
        pos := (st.dfiles i).pos.toNat + data.length } := by
  obtain ⟨fcb, x, hkey, hfile⟩ := h.file
  have hlen : ((st.dfiles i).grown data).len.toNat =
      max (st.dfiles i).len.toNat ((st.dfiles i).pos.toNat + data.length) := by
    unfold DFile.grown
    dsimp only
    split_ifs with hnil
    · rw [hnil, List.length_nil]
      omega
    · omega
  have hadd : ((st.dfiles i).pos + (data.length : Int)).toNat =
      (st.dfiles i).pos.toNat + data.length := by omega
  have hcells := h.cells
  rw [hfile, Clib.fileAt, Clib.fileAt]
  dsimp only
  rw [hkey, hcells, hlen, slice_overlay _ _ (by omega)]
  unfold DFile.grown
  dsimp only
  rw [hadd]

theorem FilesInv.writes (hb : Directory b v) {i : Fin 16} {data : List Byte} {st st' : DiskIo σ}
    (h : FilesInv b v st) (hused : (st.dfiles i).used = true) (hw : Writes b v i data st st')
    (hwrote : (st.dfiles i).wrote = true) (hok : StoredWritesOk v st'.log) :
    FilesInv b v st' ∧ files v st' =
      Function.update (files v st) i (some (fileAt v st'.os (st'.dfiles i))) := by
  have hinv := h.file i hused
  have hcache := h.cache.touch hw.toTouches (fun _ => hok) hused hinv.disk
  have hpos : 0 ≤ (st'.dfiles i).pos ∧ (st'.dfiles i).pos < 2 ^ 31 ∧ 0 ≤ (st'.dfiles i).len ∧
      (st'.dfiles i).len ≤ 2 ^ 26 := by
    have hplace := hw.pos
    have hle := hw.pos_le hb hinv.pos_nonneg
    obtain ⟨fcb, x, hkey, hfile⟩ := hw.file
    have hlen : (st'.dfiles i).len = if data = [] then (st.dfiles i).len
        else max (st.dfiles i).len ((st.dfiles i).pos + data.length) := by
      rw [hfile]
      rfl
    have := hinv.pos_nonneg
    have := hinv.pos_lt
    have := hinv.len_nonneg
    have := hinv.len_le
    by_cases hnil : data = []
    · rw [if_pos hnil] at hlen
      rw [hnil, List.length_nil] at hplace
      omega
    · rw [if_neg hnil] at hlen
      have := hle hnil
      omega
  have hfile : FileInv b v st'.os (st'.dfiles i) := by
    obtain ⟨fcb, x, hkey, hfile⟩ := hw.file
    refine ⟨?_, ?_, hpos.1, hpos.2.1, hpos.2.2.1, hpos.2.2.2, ?_⟩
    · rw [hfile]
      exact hinv.binary
    · rw [hw.isCon]
      exact hinv.disk
    · intro hno
      rw [hfile] at hno
      exact absurd (hwrote.symm.trans hno) (by decide)
  exact h.work hused hcache hw.others hw.used hw.key hw.otherFiles hfile

/-- The file before the loop of `__qwrite`. -/
def DFile.writing (fp : DFile) : DFile :=
  { fp with pos := if fp.append then fp.len else fp.pos, wrote := true }

theorem FilesInv.writing {i : Fin 16} {st : DiskIo σ} (h : FilesInv b v st)
    (hused : (st.dfiles i).used = true) : FilesInv b v (st.setFile i DFile.writing) ∧
      files v (st.setFile i DFile.writing) =
        Function.update (files v st) i (some (fileAt v st.os (st.dfiles i).writing)) := by
  have hinv := h.file i hused
  have hlen := hinv.len_nonneg
  have hlen' := hinv.len_le
  have hpos := hinv.pos_nonneg
  have hpos' := hinv.pos_lt
  refine h.setFile hused DFile.writing rfl rfl
    ⟨hinv.binary, hinv.disk, ?_, ?_, hlen, hlen', fun hno => nomatch hno⟩
  · unfold DFile.writing
    dsimp only
    split_ifs <;> omega
  · unfold DFile.writing
    dsimp only
    split_ifs <;> omega

/-- `__qwrite` on a file that is open for writing, also where it starts beyond the end. -/
theorem qwrite_spec (hb : Directory b v) {handle : Int} {i : Fin 16} {bytes : List Byte}
    {st : DiskIo σ} (h : FilesInv b v st) (hhandle : 3 ≤ handle) (hfd : fdToFile st handle = some i)
    (hwritable : (st.dfiles i).writable = true) (hlog : WritesOk (qwrite b handle bytes st).2.log) :
    (qwrite b handle bytes st).1 = toInt bytes.length ∧
      Writes b v i bytes (st.setFile i DFile.writing) (qwrite b handle bytes st).2 ∧
      FilesInv b v (qwrite b handle bytes st).2 ∧
      files v (qwrite b handle bytes st).2 = Function.update (files v (st.setFile i DFile.writing)) i
        (some (fileAt v (qwrite b handle bytes st).2.os ((qwrite b handle bytes st).2.dfiles i))) := by
  have h1 : handle ≠ 1 := by omega
  have h2 : handle ≠ 2 := by omega
  have hused := fdToFile_used hfd
  have hinv := h.file i hused
  have hcall : qwrite b handle bytes st =
      (if (qwriteLoop b i bytes 0 (st.setFile i DFile.writing)).1 = 0 ∧ bytes ≠ [] then -1
        else toInt (qwriteLoop b i bytes 0 (st.setFile i DFile.writing)).1,
        (qwriteLoop b i bytes 0 (st.setFile i DFile.writing)).2) := by
    unfold qwrite
    simp only [h1, h2, false_and, or_false, if_false, hfd, hwritable, hinv.disk, Bool.not_true,
      Bool.false_eq_true]
    rfl
  obtain ⟨hfiles₁, -⟩ := h.writing hused
  have hself := setFile_self st i DFile.writing
  rw [hcall] at hlog ⊢
  generalize st.setFile i DFile.writing = st₁ at hfiles₁ hself hlog ⊢
  have hused₁ : (st₁.dfiles i).used = true := by rw [hself]; exact hused
  have hinv₁ := hfiles₁.file i hused₁
  obtain ⟨htotal, hwrites⟩ := qwriteLoop_spec hb i bytes 0 st₁ hfiles₁.cache.coherent
    hinv₁.pos_nonneg hinv₁.pos_lt hlog
  refine ⟨?_, hwrites, hfiles₁.writes hb hused₁ hwrites (by rw [hself]; rfl) hlog.stored⟩
  have hsome : ¬ ((qwriteLoop b i bytes 0 st₁).1 = 0 ∧ bytes ≠ []) := by
    rintro ⟨h0, hne⟩
    exact hne (List.eq_nil_of_length_eq_zero (by omega))
  rw [if_neg hsome, htotal, Nat.zero_add]

/-- A handle that is not open for writing. -/
theorem qwrite_denied {handle : Int} {i : Fin 16} {bytes : List Byte} {st : DiskIo σ}
    (hhandle : 3 ≤ handle) (hfd : fdToFile st handle = some i)
    (hwritable : (st.dfiles i).writable = false) : qwrite b handle bytes st = (-1, st) := by
  have h1 : handle ≠ 1 := by omega
  have h2 : handle ≠ 2 := by omega
  unfold qwrite
  simp only [h1, h2, false_and, or_false, if_false, hfd, hwritable, Bool.not_false, if_true]

theorem qwrite_files (hb : Directory b v) {handle : Int} {bytes : List Byte} {st : DiskIo σ}
    (h : FilesInv b v st) (hhandle : 3 ≤ handle)
    (hplace : ∀ i, fdToFile st handle = some i →
      (st.dfiles i).append = true ∨ (st.dfiles i).pos ≤ (st.dfiles i).len)
    (hlog : WritesOk (qwrite b handle bytes st).2.log) :
    FilesInv b v (qwrite b handle bytes st).2 ∧ byteExec (files v st) (.qwrite handle bytes) =
      (⟨(qwrite b handle bytes st).1, [], none⟩, files v (qwrite b handle bytes st).2) := by
  rw [byteExec, openAt_files]
  cases hfd : fdToFile st handle with
  | none =>
      have hnone : qwrite b handle bytes st = (-1, st) := by
        have h1 : handle ≠ 1 := by omega
        have h2 : handle ≠ 2 := by omega
        unfold qwrite
        simp only [h1, h2, false_and, or_false, if_false, hfd]
      rw [hnone]
      exact ⟨h, rfl⟩
  | some i =>
      simp only [Option.map_some]
      cases hwritable : (st.dfiles i).writable with
      | false =>
          have hdenied : (fileAt v st.os (st.dfiles i)).writable = false := hwritable
          rw [qwrite_denied hhandle hfd hwritable, hdenied]
          exact ⟨h, rfl⟩
      | true =>
          have hallowed : (fileAt v st.os (st.dfiles i)).writable = true := hwritable
          have hused := fdToFile_used hfd
          obtain ⟨hret, hwrites, hfiles, htable⟩ := qwrite_spec hb h hhandle hfd hwritable hlog
          obtain ⟨hfiles₁, htable₁⟩ := h.writing hused
          have hself := setFile_self st i DFile.writing
          have hos := setFile_os st i DFile.writing
          generalize st.setFile i DFile.writing = st₁ at hwrites htable hfiles₁ htable₁ hself hos
          have hinv₁ := hfiles₁.file i (by rw [hself]; exact hused)
          have hle : (st₁.dfiles i).pos ≤ (st₁.dfiles i).len := by
            rw [hself]
            unfold DFile.writing
            dsimp only
            split_ifs with happend
            · exact le_rfl
            · exact (hplace i hfd).resolve_left happend
          refine ⟨hfiles, ?_⟩
          have hplace₁ : (fileAt v st.os (st.dfiles i)).writePos =
              (st.dfiles i).writing.pos.toNat := by
            show (if (st.dfiles i).append = true then _ else _) =
              (if (st.dfiles i).append = true then _ else _ : Int).toNat
            split_ifs
            · exact slice_length _ _ _
            · rfl
          rw [htable, htable₁, Function.update_idem, hwrites.fileAt hinv₁.pos_nonneg hle, hret,
            if_pos hallowed, hos, hself, ByteFile.put, hplace₁]
          rfl

theorem base_fileAt {os : σ} {fp : DFile} (h : FileInv b v os fp) (origin : Origin) :
    (fileAt v os fp).base origin = origin.base fp := by
  have hpos := h.pos_nonneg
  have hlen := h.len_nonneg
  cases origin with
  | set => rfl
  | cur => exact congrArg some (Int.toNat_of_nonneg hpos)
  | «end» =>
      refine congrArg some ?_
      show ((slice _ 0 fp.len.toNat).length : Int) = fp.len
      rw [slice_length]
      exact Int.toNat_of_nonneg hlen
  | other => rfl

theorem lseek_files {handle offset : Int} {origin : Origin} {st : DiskIo σ} (h : FilesInv b v st)
    (hplace : ∀ i base, fdToFile st handle = some i → origin.base (st.dfiles i) = some base →
      -2 ^ 31 ≤ base + offset ∧ base + offset < 2 ^ 31) :
    FilesInv b v (lseek handle offset origin st).2 ∧
      byteExec (files v st) (.lseek handle offset origin) =
        (⟨(lseek handle offset origin st).1, [], none⟩,
          files v (lseek handle offset origin st).2) := by
  unfold lseek
  rw [byteExec, openAt_files]
  cases hfd : fdToFile st handle with
  | none => exact ⟨h, rfl⟩
  | some i =>
      have hused := fdToFile_used hfd
      have hinv := h.file i hused
      simp only [Option.map_some, base_fileAt hinv]
      cases hbase : origin.base (st.dfiles i) with
      | none => exact ⟨h, rfl⟩
      | some base =>
          obtain ⟨hlow, hhigh⟩ := hplace i base hfd hbase
          have hlong : toLong (base + offset) = base + offset := by
            unfold toLong
            omega
          dsimp only
          rw [hlong]
          by_cases hneg : base + offset < 0
          · rw [if_pos hneg, if_pos hneg]
            exact ⟨h, rfl⟩
          · rw [if_neg hneg, if_neg hneg]
            obtain ⟨hfiles, htable⟩ := h.setFile hused
              (fun fp => { fp with pos := base + offset, ateof := false }) rfl rfl
              ⟨hinv.binary, hinv.disk, not_lt.mp hneg, hhigh, hinv.len_nonneg, hinv.len_le,
                hinv.settled⟩
            refine ⟨hfiles, ?_⟩
            rw [htable]
            rfl

/-! ### Closing -/

/-- Functions that change no records and no sizes. -/
theorem sameAt_call (hb : Directory b v) {f : BdosFn}
    (hf : f = .openFile ∨ f = .closeFile ∨ f = .readrand ∨ f = .filesize ∨ f = .attrib) (fcb : Fcb)
    (dma : Sector) (os : σ) (l : Key) : SameAt v os (b.call f fcb dma os).os l := by
  obtain ⟨hsize, hpresent⟩ := hb.same f hf fcb dma os l
  refine ⟨?_, hsize, hpresent⟩
  have hquiet := hb.quiet f (by rcases hf with rfl | rfl | rfl | rfl | rfl <;> decide)
    (by rcases hf with rfl | rfl | rfl | rfl | rfl <;> decide)
    (by rcases hf with rfl | rfl | rfl | rfl | rfl <;> decide) fcb dma os
  exact congrFun hquiet l

theorem sameAt_storeCount (hb : Directory b v) (i : Fin 16) (lrbc : Byte) (st : DiskIo σ) (l : Key) :
    SameAt v st.os (storeCount b i lrbc st).os l := by
  unfold storeCount
  exact sameAt_call hb (by simp) _ _ _ l

/-- What `__close` does to the table and the disk. -/
theorem close_state (hb : Directory b v) {handle : Int} {i : Fin 16} {st : DiskIo σ}
    (hhandle : 3 ≤ handle) (hfd : fdToFile st handle = some i) (hcon : (st.dfiles i).isCon = false) :
    (close b handle st).1 = 0 ∧
      (∀ j, j ≠ i → (close b handle st).2.dfiles j = st.dfiles j) ∧
      ((close b handle st).2.dfiles i).used = false ∧
      ∀ l, SameAt v st.os (close b handle st).2.os l := by
  have hclose := reads_bdosFile hb i st (f := .closeFile) (by simp)
  unfold close
  rw [if_neg (not_lt.mpr hhandle), hfd]
  simp only [hcon, Bool.false_eq_true, if_false]
  generalize (bdosFile b .closeFile i st).2 = st₁ at hclose ⊢
  have hstore : ∀ lrbc, (∀ j, j ≠ i → (storeCount b i lrbc st₁).dfiles j = st.dfiles j) ∧
      ∀ l, SameAt v st.os (storeCount b i lrbc st₁).os l := fun lrbc =>
    ⟨fun j hj => ((touches_storeCount (w := false) hb.toTransfers i lrbc st₁).others j hj).trans
      (hclose.others j hj), fun l => (hclose.disk l).trans (sameAt_storeCount hb i lrbc st₁ l)⟩
  have hplain : (∀ j, j ≠ i → st₁.dfiles j = st.dfiles j) ∧ ∀ l, SameAt v st.os st₁.os l :=
    ⟨hclose.others, hclose.disk⟩
  have heither : ∀ (p : Prop) [Decidable p] (lrbc : Byte),
      (∀ j, j ≠ i → (if p then storeCount b i lrbc st₁ else st₁).dfiles j = st.dfiles j) ∧
        ∀ l, SameAt v st.os (if p then storeCount b i lrbc st₁ else st₁).os l := by
    intro p _ lrbc
    split_ifs
    · exact hstore lrbc
    · exact hplain
  have hmark : ∀ st₂ : DiskIo σ,
      (if st₂.cacheFp = some i then { st₂ with cacheFp := none } else st₂).dfiles = st₂.dfiles ∧
        (if st₂.cacheFp = some i then { st₂ with cacheFp := none } else st₂).os = st₂.os := by
    intro st₂
    split_ifs <;> exact ⟨rfl, rfl⟩
  refine ⟨trivial, fun j hj => ?_, ?_, fun l => ?_⟩
  · rw [setFile_of_ne _ _ hj, (hmark _).1]
    exact (heither _ _).1 j hj
  · rw [setFile_self]
  · rw [setFile_os, (hmark _).2]
    exact (heither _ _).2 l

theorem close_files (hb : Directory b v) {handle : Int} {st : DiskIo σ} (h : FilesInv b v st)
    (hhandle : 3 ≤ handle) :
    FilesInv b v (close b handle st).2 ∧ byteExec (files v st) (.close handle) =
      (⟨(close b handle st).1, [], none⟩, files v (close b handle st).2) := by
  have hcache : CacheInv v (close b handle st).2 := close_cacheInv hb.toTransfers h.cache
  rw [byteExec, openAt_files]
  cases hfd : fdToFile st handle with
  | none =>
      have hnone : close b handle st = (-1, st) := by
        unfold close
        rw [if_neg (not_lt.mpr hhandle), hfd]
      rw [hnone]
      exact ⟨h, rfl⟩
  | some i =>
      obtain ⟨hret, hothers, hclosed, hsame⟩ := close_state hb hhandle hfd
        (h.file i (fdToFile_used hfd)).disk
      obtain ⟨hfiles, htable⟩ := h.change hcache hothers (fun j _ _ => hsame _)
        fun hused => absurd (hclosed.symm.trans hused) (by decide)
      refine ⟨hfiles, ?_⟩
      have hgone : files v (close b handle st).2 i = none := by
        rw [files, hclosed]
        rfl
      rw [htable, hgone, hret]
      rfl

/-! ### Opening -/

section opened

variable (b : Bdos σ) (v : View σ)

/-- The bytes of a file on the disk, by its size and its byte count. -/
def diskBytes (os : σ) (k : Key) : List Byte :=
  slice (cell cpmEof (v.record os k)) 0 (lengthOf (osHasLrbc b) (v.size os k) (v.count os k)).toNat

open Classical in
/-- The bytes of the file that `_sopen` opens or makes, if it does. -/
noncomputable def openedBytes (os : σ) (k : Key) (mode : OpenMode) : Option (List Byte) :=
  if mode.trunc then some []
  else if v.present os k then some (diskBytes b v os k)
  else if mode.creat then some []
  else none

/-- The slot that `_sopen` takes and the file that is open there. -/
noncomputable def openedFile (st : DiskIo σ) (name : List Byte) (mode : OpenMode) :
    Option (Fin 16 × ByteFile) :=
  match freeSlot st with
  | none => none
  | some i =>
    if (nameToFcb name).1 = false then none
    else (openedBytes b v st.os (nameToFcb name).2.key mode).map fun bytes =>
      (i, ⟨bytes, if mode.append then bytes.length else 0, mode.readable, mode.writable,
        mode.append⟩)

end opened

/-- Every file that was to be made was made. -/
def MakesOk (log : List (BdosEvent σ)) : Prop := ∀ e ∈ log, e.fn = .make → e.al ≠ 0xFF

instance (log : List (BdosEvent σ)) : Decidable (MakesOk log) :=
  inferInstanceAs (Decidable (∀ e ∈ log, _))

/-- `k` is the name of a file that is not open. -/
def AllApart (b : Bdos σ) (v : View σ) (st : DiskIo σ) (k : Key) : Prop :=
  ∀ j, (st.dfiles j).used = true →
    Apart b v k (st.dfiles j).fcb.key ∧ Apart b v (st.dfiles j).fcb.key k

theorem allApart_of_not_meets (hb : Directory b v) {st : DiskIo σ} {k : Key}
    (h : ∀ j, (st.dfiles j).used = true → ¬ k.Meets (st.dfiles j).fcb.key) : AllApart b v st k :=
  fun j hj => ⟨apart_of_not_meets hb (h j hj), apart_of_not_meets hb fun hm => h j hj hm.symm⟩

/-- What `_sopen` leaves alone while it sets up the slot `i` for the file `k`. -/
structure Setup (b : Bdos σ) (v : View σ) (i : Fin 16) (k : Key) (fp : DFile) (st st' : DiskIo σ) : Prop where
  others : ∀ j, j ≠ i → st'.dfiles j = st.dfiles j
  same : ∀ l, Apart b v k l → SameAt v st.os st'.os l
  file : ∃ fcb, Fcb.key fcb = k ∧ st'.dfiles i = { fp with fcb := fcb }

theorem Setup.key {i : Fin 16} {k : Key} {fp : DFile} {st st' : DiskIo σ}
    (h : Setup b v i k fp st st') : (st'.dfiles i).fcb.key = k := by
  obtain ⟨fcb, hkey, hfile⟩ := h.file
  rw [hfile]
  exact hkey

theorem Setup.bdosFile {i : Fin 16} {k : Key} {fp : DFile} {st st' : DiskIo σ}
    (h : Setup b v i k fp st st') {f : BdosFn} (hrename : f ≠ .rename)
    (hkey : (b.call f (st'.dfiles i).fcb st'.dma st'.os).fcb.key = k) :
    Setup b v i k fp st (bdosFile b f i st').2 := by
  refine ⟨fun j hj => ?_, fun l hl => ?_, ?_⟩
  · exact (Function.update_of_ne hj _ _).trans (h.others j hj)
  · exact (h.same l hl).trans (hl f hrename _ _ _ h.key)
  · obtain ⟨fcb, -, hfile⟩ := h.file
    refine ⟨_, hkey, ?_⟩
    simp [Clib.bdosFile, hfile]

theorem setup_newFile (i : Fin 16) (name : List Byte) (mode : OpenMode) (st : DiskIo σ) :
    Setup b v i (nameToFcb name).2.key (newFile b (nameToFcb name).2 mode (st.dfiles i)) st
      (st.setFile i (newFile b (nameToFcb name).2 mode)) := by
  refine ⟨fun j hj => setFile_of_ne _ _ hj, fun l _ => SameAt.refl st.os l, ?_⟩
  refine ⟨_, ?_, setFile_self _ _ _⟩
  show Fcb.key (if osHasLrbc b && mode.binary then _ else _) = _
  split_ifs
  · exact Fcb.key_update _ _ (by decide)
  · rfl

/-- The slot is taken for the file `k`. -/
theorem FilesInv.opened {i : Fin 16} {k : Key} {st st' : DiskIo σ} (h : FilesInv b v st)
    (hcache : CacheInv v st') (hapart : AllApart b v st k)
    (hothers : ∀ j, j ≠ i → st'.dfiles j = st.dfiles j)
    (hsame : ∀ l, Apart b v k l → SameAt v st.os st'.os l) (hkey : (st'.dfiles i).fcb.key = k)
    (hused : (st'.dfiles i).used = true) (hfile : FileInv b v st'.os (st'.dfiles i)) :
    FilesInv b v st' ∧ files v st' =
      Function.update (files v st) i (some (fileAt v st'.os (st'.dfiles i))) := by
  obtain ⟨hfiles, htable⟩ := h.change hcache hothers
    (fun j _ hj => hsame _ (hapart j hj).1)
    fun _ => ⟨hfile, fun j _ hj => by rw [hkey]; exact hapart j hj⟩
  refine ⟨hfiles, htable.trans ?_⟩
  rw [files, if_pos hused]

/-- The slot stays free. -/
theorem FilesInv.notOpened {i : Fin 16} {k : Key} {st st' : DiskIo σ} (h : FilesInv b v st)
    (hcache : CacheInv v st') (hapart : AllApart b v st k)
    (hothers : ∀ j, j ≠ i → st'.dfiles j = st.dfiles j)
    (hsame : ∀ l, Apart b v k l → SameAt v st.os st'.os l) (hfree : (st.dfiles i).used = false)
    (hused : (st'.dfiles i).used = false) : FilesInv b v st' ∧ files v st' = files v st := by
  obtain ⟨hfiles, htable⟩ := h.change hcache hothers
    (fun j _ hj => hsame _ (hapart j hj).1) fun hu => absurd (hused.symm.trans hu) (by decide)
  refine ⟨hfiles, htable.trans ?_⟩
  have hnone : files v st' i = none := by
    rw [files, hused]
    rfl
  have hold : files v st i = none := by
    rw [files, hfree]
    rfl
  rw [hnone, ← hold, Function.update_eq_self]

theorem diskLen_binary (hb : Directory b v) {i : Fin 16} {st : DiskIo σ}
    (htext : (st.dfiles i).text = false) : (diskLen b i st).1 =
      lengthOf (osHasLrbc b) (v.size st.os (st.dfiles i).fcb.key) (st.dfiles i).openLrbc := by
  have hsize := hb.sizeOf (st.dfiles i).fcb st.dma st.os
  unfold diskLen
  rw [htext, if_neg (by decide)]
  simp only [bdosFile, setFile_self]
  rw [hsize]

theorem lengthOf_bounds (hasLrbc : Bool) {records : ℕ} (h : records ≤ 2 ^ 18) (lrbc : Byte) :
    0 ≤ lengthOf hasLrbc records lrbc ∧ lengthOf hasLrbc records lrbc ≤ 2 ^ 26 := by
  have hlt := lrbc.toNat_lt
  unfold lengthOf
  split_ifs <;> omega

/-- A file that is made is empty. -/
theorem Setup.make (hb : Directory b v) {i : Fin 16} {k : Key} {fp : DFile} {st st₂ : DiskIo σ}
    (h : Setup b v i k fp st st₂) (hplain : k.Plain)
    (hal : (Clib.bdosFile b .make i st₂).1 ≠ 0xFF) :
    Setup b v i k fp st (Clib.bdosFile b .make i st₂).2 ∧
      v.size (Clib.bdosFile b .make i st₂).2.os k = 0 := by
  have hkey := h.key
  obtain ⟨hmake, hsize, -⟩ := hb.make (st₂.dfiles i).fcb st₂.dma st₂.os (by rwa [hkey]) hal
  rw [hkey] at hmake hsize
  exact ⟨h.bdosFile (by decide) hmake, hsize⟩

/-- The end of `_sopen`: a handle that appends starts at the end of the file. -/
theorem FilesInv.done {i : Fin 16} {k : Key} {mode : OpenMode} {st st₁ : DiskIo σ}
    (h : FilesInv b v st) (hapart : AllApart b v st k)
    (hcache : CacheInv v (sopenDone i mode st₁).2) (hothers : ∀ j, j ≠ i → st₁.dfiles j = st.dfiles j)
    (hsame : ∀ l, Apart b v k l → SameAt v st.os st₁.os l) (hkey : (st₁.dfiles i).fcb.key = k)
    (hfile : FileInv b v st₁.os (st₁.dfiles i)) :
    FilesInv b v (sopenDone i mode st₁).2 ∧ files v (sopenDone i mode st₁).2 =
      Function.update (files v st) i (some { fileAt v st₁.os (st₁.dfiles i) with
        pos := (if mode.append then (st₁.dfiles i).len else (st₁.dfiles i).pos).toNat }) := by
  have hstate : (sopenDone i mode st₁).2 = st₁.setFile i fun fp =>
      { fp with used := true, pos := if mode.append then fp.len else fp.pos } := rfl
  have hself : (sopenDone i mode st₁).2.dfiles i = { st₁.dfiles i with
      used := true, pos := if mode.append then (st₁.dfiles i).len else (st₁.dfiles i).pos } := by
    rw [hstate, setFile_self]
  have hlen := hfile.len_nonneg
  have hlen' := hfile.len_le
  have hpos := hfile.pos_nonneg
  have hpos' := hfile.pos_lt
  obtain ⟨hfiles, htable⟩ := h.opened (i := i) hcache hapart
    (fun j hj => by rw [hstate, setFile_of_ne _ _ hj, hothers j hj]) hsame (by rw [hself]; exact hkey)
    (by rw [hself]) (by
      rw [hself]
      exact ⟨hfile.binary, hfile.disk, by dsimp only; split_ifs <;> omega,
        by dsimp only; split_ifs <;> omega, hlen, hlen', hfile.settled⟩)
  refine ⟨hfiles, htable.trans ?_⟩
  rw [hself]
  rfl

theorem newFile_fields (fcb : Fcb) (mode : OpenMode) (fp : DFile) (hbinary : mode.binary = true)
    (fcb' : Fcb) : (⟨fcb', 0, 0, fp.used, false, mode.readable, mode.writable, mode.append, false, false,
      false, 0xFF⟩ : DFile) = { newFile b fcb mode fp with fcb := fcb' } := by
  unfold newFile
  rw [hbinary]
  rfl

/-- A new file is empty. -/
theorem FilesInv.made {i : Fin 16} {k : Key} {mode : OpenMode} {fcb : Fcb} {st st₁ : DiskIo σ}
    (h : FilesInv b v st) (hapart : AllApart b v st k)
    (hcache : CacheInv v (sopenDone i mode st₁).2) (hbinary : mode.binary = true)
    (hs : Setup b v i k (newFile b fcb mode (st.dfiles i)) st st₁) (hsize : v.size st₁.os k = 0) :
    FilesInv b v (sopenDone i mode st₁).2 ∧ files v (sopenDone i mode st₁).2 =
      Function.update (files v st) i (some ⟨[], 0, mode.readable, mode.writable, mode.append⟩) := by
  have hkey := hs.key
  obtain ⟨fcb', -, hfile⟩ := hs.file
  rw [← newFile_fields fcb mode (st.dfiles i) hbinary] at hfile
  have hinv : FileInv b v st₁.os (st₁.dfiles i) := by
    have hzero : fileLen b v st₁.os (st₁.dfiles i) = 0 := by
      rw [fileLen, hkey, hsize, hfile]
      rfl
    have hsmall : (0 : Int) < 2 ^ 31 ∧ (0 : Int) ≤ 2 ^ 26 := by decide
    rw [hfile] at hzero ⊢
    exact ⟨rfl, rfl, le_rfl, hsmall.1, le_rfl, hsmall.2, fun _ => hzero.le⟩
  obtain ⟨hfiles, htable⟩ := h.done hapart hcache hs.others hs.same hkey hinv
  refine ⟨hfiles, htable.trans ?_⟩
  rw [hfile]
  simp only [ite_self]
  rfl

/-- The part of `_sopen` behind function 15 for a file that is found: its byte count is taken from the FCB, and
then its length is looked up. -/
def foundFile (b : Bdos σ) (i : Fin 16) (st : DiskIo σ) : DiskIo σ :=
  let st := st.setFile i fun fp =>
    { fp with openLrbc := fp.fcb 32, fcb := Function.update fp.fcb 32 0 }
  let (len, st) := diskLen b i st
  st.setFile i fun fp => { fp with len := len }

/-- The slot then, and what stayed as it was. -/
theorem foundFile_spec (hb : Directory b v) {i : Fin 16} {k : Key} {mode : OpenMode} {fcb : Fcb}
    {st st₂ : DiskIo σ} (hbinary : mode.binary = true)
    (hs : Setup b v i k (newFile b fcb mode (st.dfiles i)) st st₂) :
    (∃ fcb' x, Fcb.key fcb' = k ∧ (foundFile b i st₂).dfiles i =
      ⟨fcb', 0, lengthOf (osHasLrbc b) (v.size st₂.os k) ((st₂.dfiles i).fcb 32), (st.dfiles i).used,
        false, mode.readable, mode.writable, mode.append, false, x, false, (st₂.dfiles i).fcb 32⟩) ∧
      (∀ j, j ≠ i → (foundFile b i st₂).dfiles j = st.dfiles j) ∧
      (∀ l, SameAt v st₂.os (foundFile b i st₂).os l) ∧
      (KeepsCount b v → v.count (foundFile b i st₂).os = v.count st₂.os) := by
  obtain ⟨fcb₂, -, hfile⟩ := hs.file
  rw [← newFile_fields fcb mode (st.dfiles i) hbinary] at hfile
  have hself := setFile_self st₂ i fun fp =>
    { fp with openLrbc := fp.fcb 32, fcb := Function.update fp.fcb 32 0 }
  have hothers : ∀ j, j ≠ i → (st₂.setFile i fun fp =>
      { fp with openLrbc := fp.fcb 32, fcb := Function.update fp.fcb 32 0 }).dfiles j = st.dfiles j :=
    fun j hj => (setFile_of_ne _ _ hj).trans (hs.others j hj)
  have hos := setFile_os st₂ i fun fp =>
    { fp with openLrbc := fp.fcb 32, fcb := Function.update fp.fcb 32 0 }
  unfold foundFile
  dsimp only
  generalize st₂.setFile i _ = st₃ at hself hothers hos ⊢
  have hkey₃ : (st₃.dfiles i).fcb.key = k := by
    rw [hself]
    exact (Fcb.key_update _ _ (by decide)).trans hs.key
  have hreads := reads_diskLen hb i st₃
  have hlen : (diskLen b i st₃).1 =
      lengthOf (osHasLrbc b) (v.size st₂.os k) ((st₂.dfiles i).fcb 32) := by
    rw [diskLen_binary hb (by rw [hself, hfile]), hkey₃, hos, hself]
  obtain ⟨fcb₄, x, hkey₄, hfile₄⟩ := hreads.file
  rw [← hos]
  refine ⟨⟨fcb₄, x, hkey₄.trans hkey₃, ?_⟩, fun j hj => ?_, hreads.disk, hreads.count⟩
  · rw [setFile_self, hfile₄, hlen, hself, hfile, hos]
    rfl
  · rw [setFile_of_ne _ _ hj, hreads.others j hj, hothers j hj]

/-- A file that is found has the bytes that are on the disk. -/
theorem FilesInv.found (hb : Directory b v) {i : Fin 16} {k : Key} {mode : OpenMode} {fcb : Fcb}
    {st st₂ : DiskIo σ} (h : FilesInv b v st) (hapart : AllApart b v st k)
    (hbinary : mode.binary = true) (hs : Setup b v i k (newFile b fcb mode (st.dfiles i)) st st₂)
    (hdisk : SameAt v st.os st₂.os k)
    (hcount : osHasLrbc b = true → (st₂.dfiles i).fcb 32 = v.count st.os k)
    (hcache : CacheInv v (sopenDone i mode (foundFile b i st₂)).2) :
    FilesInv b v (sopenDone i mode (foundFile b i st₂)).2 ∧
      files v (sopenDone i mode (foundFile b i st₂)).2 =
        Function.update (files v st) i (some ⟨diskBytes b v st.os k,
          if mode.append then (diskBytes b v st.os k).length else 0, mode.readable, mode.writable,
          mode.append⟩) := by
  obtain ⟨⟨fcb₄, x, hkey, hfile⟩, hothers, hsame, -⟩ := foundFile_spec hb hbinary hs
  generalize foundFile b i st₂ = st₅ at hcache hfile hothers hsame ⊢
  have hdisk₅ : SameAt v st.os st₅.os k := hdisk.trans (hsame k)
  rw [hdisk.size] at hfile
  have hbounds := lengthOf_bounds (osHasLrbc b) (hb.size_le st.os k) ((st₂.dfiles i).fcb 32)
  have hinv : FileInv b v st₅.os (st₅.dfiles i) := by
    have hfileLen : fileLen b v st₅.os (st₅.dfiles i) =
        lengthOf (osHasLrbc b) (v.size st.os k) ((st₂.dfiles i).fcb 32) := by
      rw [hfile, ← hdisk₅.size, ← hkey]
      rfl
    have hsmall : (0 : Int) < 2 ^ 31 := by decide
    rw [hfile] at hfileLen ⊢
    exact ⟨rfl, rfl, le_rfl, hsmall, hbounds.1, hbounds.2, fun _ => hfileLen.le⟩
  obtain ⟨hfiles, htable⟩ := h.done hapart hcache hothers
    (fun l hl => (hs.same l hl).trans (hsame l)) (by rw [hfile]; exact hkey) hinv
  refine ⟨hfiles, htable.trans ?_⟩
  have hbytes : slice (cell cpmEof (v.record st₅.os (Fcb.key fcb₄))) 0
      (lengthOf (osHasLrbc b) (v.size st.os k) ((st₂.dfiles i).fcb 32)).toNat =
        diskBytes b v st.os k := by
    rw [hkey, hdisk₅.record, diskBytes]
    cases hhas : osHasLrbc b with
    | false => rfl
    | true => rw [hcount hhas]
  have hlength : (diskBytes b v st.os k).length =
      (lengthOf (osHasLrbc b) (v.size st.os k) ((st₂.dfiles i).fcb 32)).toNat := by
    rw [← hbytes, slice_length]
  rw [hlength, ← hbytes, hfile]
  congr 3
  dsimp only
  split_ifs <;> rfl

theorem sopenFcb_key (b : Bdos σ) (name : List Byte) (mode : OpenMode) :
    (sopenFcb b name mode).key = (nameToFcb name).2.key := by
  unfold sopenFcb
  split_ifs
  · exact Fcb.key_update _ _ (by decide)
  · rfl

theorem sopenFile_cache (hb : Directory b v) (mode : OpenMode) {i : Fin 16} {name : List Byte}
    {st : DiskIo σ} (h : FilesInv b v st) (hi : freeSlot st = some i)
    (hapart : AllApart b v st (nameToFcb name).2.key) :
    CacheInv v (sopenFile b i name mode st).2 := by
  refine sopenFile_cacheInv hb.toTransfers (h.cache.idle (freeSlot_unused hi)) fun _ _ => ?_
  intro j hj
  have hother := (hapart j (h.cache.opened j hj).1).1 .delete (by decide) _ st.dma st.os
    (sopenFcb_key b name mode)
  rw [hother.record]

/-- `_sopen` of a file that is there. -/
theorem sopenFile_present (hb : Directory b v) {i : Fin 16} {name : List Byte} {mode : OpenMode}
    {st : DiskIo σ} (hbinary : mode.binary = true) (htrunc : mode.trunc = false)
    (hok : (nameToFcb name).1 = true) (hplain : (nameToFcb name).2.key.Plain)
    (hpresent : v.present st.os (nameToFcb name).2.key) :
    ∃ st₂, sopenFile b i name mode st = sopenDone i mode (foundFile b i st₂) ∧
      Setup b v i (nameToFcb name).2.key (newFile b (nameToFcb name).2 mode (st.dfiles i)) st st₂ ∧
      (∀ l, SameAt v st.os st₂.os l) ∧
      (osHasLrbc b = true → (st₂.dfiles i).fcb 32 = v.count st.os (nameToFcb name).2.key) ∧
      (KeepsCount b v → v.count st₂.os = v.count st.os) := by
  have hnew := setup_newFile (b := b) (v := v) i name mode st
  have hos := setFile_os st i (newFile b (nameToFcb name).2 mode)
  have hask : osHasLrbc b = true →
      ((st.setFile i (newFile b (nameToFcb name).2 mode)).dfiles i).fcb 32 = 0xFF := fun hhas => by
    rw [setFile_self, newFile, hhas, hbinary]
    exact Function.update_self (32 : Fin 36) 0xFF (nameToFcb name).2
  unfold sopenFile
  simp only [hok, htrunc, Bool.not_true, Bool.false_eq_true, if_false]
  generalize st.setFile i (newFile b (nameToFcb name).2 mode) = st₁ at hnew hos hask ⊢
  have hkey := hnew.key
  have hplain₁ : (st₁.dfiles i).fcb.key.Plain := by rwa [hkey]
  have hal : (bdosFile b .openFile i st₁).1 ≠ 0xFF := by
    refine (hb.openAl _ _ _ hplain₁).mpr ?_
    rwa [hkey, hos]
  rw [if_neg hal, ← hos]
  refine ⟨_, rfl, hnew.bdosFile (by decide) ((hb.openKey _ _ _ hplain₁).trans hkey), fun l => ?_,
    fun hhas => ?_, fun hk => ?_⟩
  · exact sameAt_call hb (by simp) _ _ _ l
  · have hcount := hb.openCount (st₁.dfiles i).fcb st₁.dma st₁.os hplain₁ (of_decide_eq_true hhas)
      (hask hhas) hal
    rw [hkey] at hcount
    simpa [bdosFile] using hcount
  · funext l
    exact hk.countSame .openFile (by decide) (by decide) (by decide) (by decide) _ _ _ l

theorem sopenFile_files (hb : Directory b v) {i : Fin 16} {name : List Byte} {mode : OpenMode}
    {st : DiskIo σ} (h : FilesInv b v st) (hi : freeSlot st = some i) (hbinary : mode.binary = true)
    (hplain : (nameToFcb name).2.key.Plain) (hapart : AllApart b v st (nameToFcb name).2.key)
    (hlog : MakesOk (sopenFile b i name mode st).2.log) :
    FilesInv b v (sopenFile b i name mode st).2 ∧
      byteExec (files v st) (.sopen (openedFile b v st name mode)) =
        (⟨(sopenFile b i name mode st).1, [], none⟩, files v (sopenFile b i name mode st).2) := by
  have hfree := freeSlot_unused hi
  have hcache := sopenFile_cache hb mode h hi hapart
  have hnew := setup_newFile (b := b) (v := v) i name mode st
  have hos := setFile_os st i (newFile b (nameToFcb name).2 mode)
  unfold openedFile
  rw [hi]
  dsimp only
  by_cases hok : (nameToFcb name).1 = true
  · rw [if_neg (by simp [hok])]
    unfold openedBytes
    by_cases htrunc : mode.trunc = true
    · -- the file is deleted and made
      unfold sopenFile at hcache hlog ⊢
      simp only [hok, htrunc, Bool.not_true, Bool.false_eq_true, if_false, if_true,
        Option.map_some] at hcache hlog ⊢
      generalize st.setFile i (newFile b (nameToFcb name).2 mode) = st₁ at hnew hos hcache hlog ⊢
      have hdelete := hnew.bdosFile (f := .delete) (by decide)
        ((hb.deleteKey _ _ _ (by rw [hnew.key]; exact hplain)).trans hnew.key)
      generalize (bdosFile b .delete i st₁).2 = st₂ at hdelete hcache hlog ⊢
      by_cases hal : (bdosFile b .make i st₂).1 = 0xFF
      · rw [if_pos hal] at hlog
        exact absurd hal (hlog _ List.mem_cons_self rfl)
      · rw [if_neg hal] at hcache ⊢
        obtain ⟨hmade, hsize⟩ := hdelete.make hb hplain hal
        obtain ⟨hfiles, htable⟩ := h.made hapart hcache hbinary hmade hsize
        refine ⟨hfiles, ?_⟩
        rw [htable]
        simp only [List.length_nil, ite_self]
        rfl
    · rw [Bool.not_eq_true] at htrunc
      rw [if_neg (by simp [htrunc])]
      by_cases hpresent : v.present st.os (nameToFcb name).2.key
      · obtain ⟨st₂, heq, hs, hsame, hcount, -⟩ := sopenFile_present hb hbinary htrunc hok hplain hpresent
        rw [heq] at hcache ⊢
        obtain ⟨hfiles, htable⟩ := h.found hb hapart hbinary hs (hsame _) hcount hcache
        refine ⟨hfiles, ?_⟩
        rw [htable, if_pos hpresent]
        rfl
      · rw [if_neg hpresent]
        unfold sopenFile at hcache hlog ⊢
        simp only [hok, htrunc, Bool.not_true, Bool.false_eq_true, if_false] at hcache hlog ⊢
        generalize st.setFile i (newFile b (nameToFcb name).2 mode) = st₁ at hnew hos hcache hlog ⊢
        have hkey := hnew.key
        have hopened := hnew.bdosFile (f := .openFile) (by decide)
          ((hb.openKey _ _ _ (by rwa [hkey])).trans hkey)
        have hal : (bdosFile b .openFile i st₁).1 = 0xFF := by
          by_contra hne
          have hfound := (hb.openAl (st₁.dfiles i).fcb st₁.dma st₁.os (by rwa [hkey])).mp hne
          rw [hkey, hos] at hfound
          exact hpresent hfound
        rw [if_pos hal] at hcache hlog ⊢
        generalize (bdosFile b .openFile i st₁).2 = st₂ at hopened hcache hlog ⊢
        cases hcreat : mode.creat with
        | false =>
            simp only [hcreat, Bool.not_false, if_true, Bool.false_eq_true, if_false] at hcache hlog ⊢
            obtain ⟨fcb, -, hfile⟩ := hopened.file
            obtain ⟨hfiles, htable⟩ := h.notOpened hcache hapart hopened.others hopened.same hfree
              (by rw [hfile]; exact hfree)
            refine ⟨hfiles, ?_⟩
            rw [htable]
            rfl
        | true =>
            simp only [hcreat, Bool.not_true, if_true, Bool.false_eq_true, if_false] at hcache hlog ⊢
            by_cases hmake : (bdosFile b .make i st₂).1 = 0xFF
            · rw [if_pos hmake] at hlog
              exact absurd hmake (hlog _ List.mem_cons_self rfl)
            · rw [if_neg hmake] at hcache ⊢
              obtain ⟨hmade, hsize⟩ := hopened.make hb hplain hmake
              obtain ⟨hfiles, htable⟩ := h.made hapart hcache hbinary hmade hsize
              refine ⟨hfiles, ?_⟩
              rw [htable]
              simp only [Option.map_some, List.length_nil, ite_self]
              rfl
  · rw [Bool.not_eq_true] at hok
    rw [if_pos hok]
    unfold sopenFile at hcache ⊢
    simp only [hok, Bool.not_false, if_true] at hcache ⊢
    obtain ⟨hfiles, htable⟩ := h.notOpened hcache hapart (fun j hj => setFile_of_ne _ _ hj)
      (fun l _ => SameAt.refl st.os l) hfree (by rw [setFile_self]; exact hfree)
    refine ⟨hfiles, ?_⟩
    rw [htable]
    rfl

/-! ### Runs -/

section runs

variable (b : Bdos σ) (v : View σ)

/-- The conditions on a call: a file is opened in binary mode that is not open, no
call of the BDOS fails, a write does not start beyond the end, and a seek does not leave the range of a `long`. -/
def CallOk (st : DiskIo σ) (c : DiskCall) : Prop :=
  match c with
  | .sopen name mode => mode.binary = true ∧ isConsoleName name = false ∧
      (nameToFcb name).2.key.Plain ∧
      AllApart b v st (nameToFcb name).2.key ∧
      MakesOk (execState b st c).log
  | .qread handle _ => 3 ≤ handle ∧ ReadsOk (execState b st c).log
  | .qwrite handle _ => 3 ≤ handle ∧
      (∀ i, fdToFile st handle = some i →
        (st.dfiles i).append = true ∨ (st.dfiles i).pos ≤ (st.dfiles i).len) ∧
      WritesOk (execState b st c).log
  | .lseek handle offset origin => ∀ i base, fdToFile st handle = some i →
      origin.base (st.dfiles i) = some base → -2 ^ 31 ≤ base + offset ∧ base + offset < 2 ^ 31
  | .close handle => 3 ≤ handle
  | _ => False

/-- The call on byte files that a call is. -/
noncomputable def byteCall (st : DiskIo σ) : DiskCall → ByteCall
  | .sopen name mode => .sopen (openedFile b v st name mode)
  | .qread handle n => .qread handle n
  | .qwrite handle bytes => .qwrite handle bytes
  | .lseek handle offset origin => .lseek handle offset origin
  | .close handle => .close handle
  | _ => .sopen none

end runs

/-- One call. -/
theorem byteFiles_step (hb : Directory b v) {st : DiskIo σ} {c : DiskCall} (h : FilesInv b v st)
    (hc : CallOk b v st c) : FilesInv b v (exec b st c).2 ∧
      byteExec (files v st) (byteCall b v st c) = ((exec b st c).1, files v (exec b st c).2) := by
  have h₀ : FilesInv b v { st with log := [] } :=
    ⟨⟨h.cache.coherent, h.cache.opened⟩, h.file, h.apart⟩
  cases c with
  | sopen name mode =>
      obtain ⟨hbinary, hcon, hplain, hapart, hlog⟩ := hc
      show FilesInv b v (sopen b name mode { st with log := [] }).2 ∧
        byteExec (files v { st with log := [] }) (.sopen (openedFile b v { st with log := [] } name mode)) =
          (⟨(sopen b name mode { st with log := [] }).1, [], none⟩,
            files v (sopen b name mode { st with log := [] }).2)
      have hmakes : MakesOk (sopen b name mode { st with log := [] }).2.log := hlog
      unfold sopen at hmakes ⊢
      cases hslot : freeSlot { st with log := [] } with
      | none =>
          rw [openedFile, hslot]
          exact ⟨h₀, rfl⟩
      | some i =>
          rw [hslot] at hmakes
          simp only [hcon, Bool.false_eq_true, if_false] at hmakes ⊢
          exact sopenFile_files hb h₀ hslot hbinary hplain hapart hmakes
  | qread handle n => exact qread_files hb h₀ hc.1 hc.2
  | qwrite handle bytes => exact qwrite_files hb h₀ hc.1 hc.2.1 hc.2.2
  | lseek handle offset origin => exact lseek_files h₀ hc
  | close handle => exact close_files hb h₀ hc
  | remove name => exact hc.elim
  | chmod name writable => exact hc.elim
  | access name wOk => exact hc.elim
  | stat name => exact hc.elim
  | utime name => exact hc.elim
  | dup handle => exact hc.elim
  | rename old new => exact hc.elim

theorem filesInv_start (os : σ) : FilesInv b v (DiskIo.start os) := by
  refine ⟨cacheInv_start os, fun i hi => ?_, fun i j _ hi => ?_⟩
  · cases hi
  · cases hi

/-- In every run the calls give the replies that they give on independent byte arrays, the open files hold the
arrays at its end, and their lengths are those of the arrays. -/
theorem byteFiles_refine (hb : Directory b v) (os : σ) (cs : List DiskCall)
    (hcs : Along (execState b) (CallOk b v) (DiskIo.start os) cs) :
    outcome byteExec (fun _ => none) (translate (exec b) (byteCall b v) (DiskIo.start os) cs) =
      ((outcome (exec b) (DiskIo.start os) cs).1,
        files v (outcome (exec b) (DiskIo.start os) cs).2) ∧
      ∀ i f, files v (outcome (exec b) (DiskIo.start os) cs).2 i = some f →
        ((outcome (exec b) (DiskIo.start os) cs).2.dfiles i).len = f.bytes.length := by
  have hstart : files v (DiskIo.start os) = fun _ => none := rfl
  have hstep : ∀ st c, FilesInv b v st → CallOk b v st c → FilesInv b v (exec b st c).2 ∧
      byteExec (files v st) (byteCall b v st c) = ((exec b st c).1, files v (exec b st c).2) :=
    fun st c h hc => byteFiles_step hb h hc
  obtain ⟨hinv, hrun⟩ := outcome_refines hstep (filesInv_start os) hcs
  rw [← hstart]
  refine ⟨hrun, fun i f hf => ?_⟩
  generalize (outcome (exec b) (DiskIo.start os) cs).2 = st at hinv hf ⊢
  unfold files at hf
  split_ifs at hf with hused
  have hlen := (hinv.file i hused).len_nonneg
  obtain rfl := Option.some.inj hf
  show (st.dfiles i).len = ((slice _ 0 (st.dfiles i).len.toNat).length : Int)
  rw [slice_length, Int.toNat_of_nonneg hlen]

/-- Two files are made and written, and the first is read and closed while the record of the second is in the
buffer. -/
theorem byteFiles_refine_two :
    (outcome byteExec (fun _ => none) (translate (exec ramBdos) (byteCall ramBdos ramView)
      (DiskIo.start []) [.sopen [0x41] ⟨2, false, true, true, true⟩, .qwrite 3 [0x58, 0x59],
        .sopen [0x42] ⟨2, false, true, true, true⟩, .qwrite 4 [0x5A], .lseek 3 0 .set, .qread 3 5,
        .close 3])).1 =
      (outcome (exec ramBdos) (DiskIo.start []) [.sopen [0x41] ⟨2, false, true, true, true⟩,
        .qwrite 3 [0x58, 0x59], .sopen [0x42] ⟨2, false, true, true, true⟩, .qwrite 4 [0x5A],
        .lseek 3 0 .set, .qread 3 5, .close 3]).1 := by
  refine congrArg Prod.fst (byteFiles_refine ramBdos_directory [] _ ?_).1
  refine ⟨⟨rfl, by decide, by decide, ?_, by decide +kernel⟩,
    ⟨by decide, by decide +kernel, by decide +kernel⟩, ⟨rfl, by decide, by decide, ?_, by decide +kernel⟩,
    ⟨by decide, by decide +kernel, by decide +kernel⟩, ?_, ⟨by decide, by decide +kernel⟩,
    le_refl (3 : Int), trivial⟩
  · exact allApart_of_not_meets ramBdos_directory (by decide +kernel)
  · exact allApart_of_not_meets ramBdos_directory (by decide +kernel)
  · intro i base _ hbase
    obtain rfl : 0 = base := Option.some.inj hbase
    decide

end OpenWatcom.Clib
