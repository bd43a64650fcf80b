import OpenWatcom.Clib.AppendHandles
import OpenWatcom.Lib.Padding

/-! # Appending to a text file

`text_eof` looks back from the end of the last record for the place where an append begins, and `__qread` stops at
the first Ctrl-Z.  A text file is opened for appending, written to, closed, and read again. -/

namespace OpenWatcom.Clib

variable {σ : Type} {b : Bdos σ} {v : View σ}

/-! ### Texts on the disk -/

/-- The bytes of the records of a file. -/
def storedBytes (v : View σ) (os : σ) (k : Key) : List Byte :=
  slice (cell cpmEof (v.record os k)) 0 (128 * v.size os k)

/-- The text of a file: what is in front of its first Ctrl-Z. -/
def textOf (v : View σ) (os : σ) (k : Key) : List Byte := text cpmEof (storedBytes v os k)

theorem seen_true (l : List Byte) : seen true l = text cpmEof l := rfl

theorem trimEof_le (d : Sector) (n : ℕ) : trimEof d n ≤ n := by
  induction n with
  | zero => exact le_rfl
  | succ n ih =>
      unfold trimEof
      split_ifs <;> omega

theorem trimEof_pad (d : Sector) {n j : ℕ} (hj : trimEof d n ≤ j) (hn : j < n) : cellOf d j = cpmEof := by
  induction n with
  | zero => omega
  | succ n ih =>
      unfold trimEof at hj
      split_ifs at hj with hlast
      · obtain hlt | rfl : j < n ∨ j = n := by omega
        · exact ih hj hlt
        · exact hlast
      · omega

theorem trimEof_last (d : Sector) (n : ℕ) : trimEof d n = 0 ∨ cellOf d (trimEof d n - 1) ≠ cpmEof := by
  induction n with
  | zero => exact .inl rfl
  | succ n ih =>
      unfold trimEof
      split_ifs with hlast
      · exact ih
      · exact .inr hlast

/-- `text_eof` finds the place where the padding of the last record begins. -/
theorem textEnd_padded (v : View σ) (os : σ) (k : Key) :
    0 ≤ textEnd v os k ∧
      PaddedFrom 128 cpmEof (cell cpmEof (v.record os k)) (v.size os k) (textEnd v os k).toNat := by
  unfold textEnd
  generalize hsize : v.size os k = size
  cases size with
  | zero =>
      rw [if_pos rfl]
      exact ⟨le_rfl, le_rfl, le_rfl, fun q _ hq => by omega, .inl rfl⟩
  | succ r =>
      rw [if_neg (Nat.succ_ne_zero r), Nat.add_sub_cancel]
      generalize hd : ((v.record os k r).getD fun _ => cpmEof) = d
      have hle := trimEof_le d 128
      have hcell : ∀ j < 128, cell cpmEof (v.record os k) (128 * r + j) = cellOf d j := by
        intro j hj
        unfold cell
        rw [show (128 * r + j) / 128 = r by omega, show (128 * r + j) % 128 = j by omega, hd]
      have hnat : ((((r + 1 : ℕ) : Int) - 1) * 128 + (trimEof d 128 : Int)).toNat = 128 * r + trimEof d 128 := by
        omega
      rw [hnat]
      refine ⟨by omega, ?_, ?_, fun q hlow hhigh => ?_, ?_⟩
      · rw [Nat.add_sub_cancel]
        omega
      · omega
      · obtain ⟨j, rfl⟩ : ∃ j, q = 128 * r + j := ⟨q - 128 * r, by omega⟩
        rw [hcell j (by omega)]
        exact trimEof_pad d (by omega) (by omega : j < 128)
      · rw [Nat.add_sub_cancel]
        by_cases h0 : trimEof d 128 = 0
        · rw [h0]
          exact .inl rfl
        · apply Or.inr
          have hbefore : 128 * r + trimEof d 128 - 1 = 128 * r + (trimEof d 128 - 1) := by omega
          rw [hbefore, hcell _ (by omega)]
          exact (trimEof_last d 128).resolve_left h0

/-! ### Opening -/

theorem SameAt.textEnd {os os' : σ} {k : Key} (h : SameAt v os os' k) : textEnd v os' k = textEnd v os k := by
  unfold Clib.textEnd
  rw [h.size, h.record]

theorem SameAt.textOf {os os' : σ} {k : Key} (h : SameAt v os os' k) : textOf v os' k = textOf v os k := by
  unfold Clib.textOf storedBytes
  rw [h.size, h.record]

/-- A name that `_sopen` gives to the BDOS: it is a legal name without `?`, and not that of the console. -/
structure DiskName (name : List Byte) : Prop where
  legal : (nameToFcb name).1 = true
  plain : (nameToFcb name).2.key.Plain
  disk : isConsoleName name = false

/-- The slot of a file that was opened in text mode and is `len` bytes long. -/
structure TextSlot (i : Fin 16) (k : Key) (mode : OpenMode) (pos len : Int) (st : DiskIo σ) : Prop where
  key : (st.dfiles i).fcb.key = k
  pos : (st.dfiles i).pos = pos
  len : (st.dfiles i).len = len
  used : (st.dfiles i).used = true
  text : (st.dfiles i).text = true
  readable : (st.dfiles i).readable = mode.readable
  writable : (st.dfiles i).writable = mode.writable
  append : (st.dfiles i).append = mode.append
  wrote : (st.dfiles i).wrote = false
  disk : (st.dfiles i).isCon = false

/-- The slot `i` was opened, and that is all that changed. -/
structure OpenedText (v : View σ) (i : Fin 16) (k : Key) (mode : OpenMode) (st st' : DiskIo σ) : Prop where
  slot : TextSlot i k mode (if mode.append then textEnd v st.os k else 0) (textEnd v st.os k) st'
  others : ∀ j, j ≠ i → st'.dfiles j = st.dfiles j
  same : ∀ l, SameAt v st.os st'.os l

/-- `_sopen` of a text that is there. -/
theorem sopenFile_text (hb : Directory b v) {i : Fin 16} {name : List Byte} {mode : OpenMode} {st : DiskIo σ}
    (h : Idle v i st) (hname : DiskName name) (hbinary : mode.binary = false) (htrunc : mode.trunc = false)
    (hpresent : v.present st.os (nameToFcb name).2.key)
    (hlog : ReadsOk (sopenFile b i name mode st).2.log) :
    (sopenFile b i name mode st).1 = 3 + (i.val : Int) ∧
      OpenedText v i (nameToFcb name).2.key mode st (sopenFile b i name mode st).2 := by
  have hnew := setup_newFile (b := b) (v := v) i name mode st
  have hos := setFile_os st i (newFile b (nameToFcb name).2 mode)
  have hidle := h.setFile (newFile b (nameToFcb name).2 mode)
  unfold sopenFile at hlog ⊢
  simp only [hname.legal, htrunc, Bool.not_true, Bool.false_eq_true, if_false] at hlog ⊢
  generalize st.setFile i (newFile b (nameToFcb name).2 mode) = st₁ at hnew hos hidle hlog ⊢
  have hkey := hnew.key
  have hplain : (st₁.dfiles i).fcb.key.Plain := by
    rw [hkey]
    exact hname.plain
  -- Function 15 finds the file.
  have hal : (bdosFile b .openFile i st₁).1 ≠ 0xFF := by
    refine (hb.openAl _ _ _ hplain).mpr ?_
    rwa [hkey, hos]
  rw [if_neg hal] at hlog ⊢
  have hfound := hnew.bdosFile (f := .openFile) (by decide) ((hb.openKey _ _ _ hplain).trans hkey)
  have hidle₂ := hidle.bdosFile hb.toTransfers (f := .openFile) (by decide) (by decide)
    (KeepsCached.of_record (hb.quiet _ (by decide) (by decide) (by decide) _ _ _))
  have hsame₂ : ∀ l, SameAt v st.os (bdosFile b .openFile i st₁).2.os l := fun l => by
    rw [← hos]
    exact sameAt_call hb (by simp) _ _ _ l
  generalize (bdosFile b .openFile i st₁).2 = st₂ at hfound hidle₂ hsame₂ hlog ⊢
  obtain ⟨fcb₂, hkey₂, hfile₂⟩ := hfound.file
  have hself := setFile_self st₂ i fun fp =>
    { fp with openLrbc := fp.fcb 32, fcb := Function.update fp.fcb 32 0 }
  have hothers : ∀ j, j ≠ i → (st₂.setFile i fun fp =>
      { fp with openLrbc := fp.fcb 32, fcb := Function.update fp.fcb 32 0 }).dfiles j = st.dfiles j :=
    fun j hj => (setFile_of_ne _ _ hj).trans (hfound.others j hj)
  have hidle₃ := hidle₂.setFile fun fp =>
    { fp with openLrbc := fp.fcb 32, fcb := Function.update fp.fcb 32 0 }
  have hos₃ := setFile_os st₂ i fun fp =>
    { fp with openLrbc := fp.fcb 32, fcb := Function.update fp.fcb 32 0 }
  generalize st₂.setFile i _ = st₃ at hself hothers hidle₃ hos₃ hlog ⊢
  have hkey₃ : (st₃.dfiles i).fcb.key = (nameToFcb name).2.key := by
    rw [hself]
    exact (Fcb.key_update _ _ (by decide)).trans hfound.key
  have htext₃ : (st₃.dfiles i).text = true := by
    rw [hself, hfile₂]
    simp [newFile, hbinary]
  -- The length is looked up.
  have hreads := reads_diskLen hb i st₃
  have hlen := diskLen_spec hb hidle₃.coherent (i := i) hlog
  rw [fileLen, if_pos htext₃, hkey₃, hos₃, (hsame₂ _).textEnd] at hlen
  obtain ⟨fcb₄, x, hkey₄, hfile₄⟩ := hreads.file
  have hall : ∀ l, SameAt v st.os (diskLen b i st₃).2.os l := fun l => by
    have hmore := hreads.disk l
    rw [hos₃] at hmore
    exact (hsame₂ l).trans hmore
  have hrest : ∀ j, j ≠ i → (diskLen b i st₃).2.dfiles j = st.dfiles j := fun j hj =>
    (hreads.others j hj).trans (hothers j hj)
  refine ⟨rfl, ?_, fun j hj => ?_, hall⟩
  · have hdone : (sopenDone i mode ((diskLen b i st₃).2.setFile i fun fp =>
        { fp with len := (diskLen b i st₃).1 })).2.dfiles i =
        { st₃.dfiles i with
          fcb := fcb₄, ateof := x, len := textEnd v st.os (nameToFcb name).2.key, used := true
          pos := if mode.append then textEnd v st.os (nameToFcb name).2.key else 0 } := by
      unfold sopenDone
      rw [setFile_self, setFile_self, hfile₄, hlen, hself, hfile₂]
      simp [newFile]
    constructor
    all_goals rw [hdone]
    · exact hkey₄.trans hkey₃
    · exact htext₃
    all_goals
      dsimp only
      rw [hself, hfile₂]
      rfl
  · unfold sopenDone
    rw [setFile_of_ne _ _ hj, setFile_of_ne _ _ hj]
    exact hrest j hj

/-- `_sopen` of a text, as a call. -/
theorem exec_sopen_text (hb : Directory b v) {i : Fin 16} {name : List Byte} {mode : OpenMode} {st : DiskIo σ}
    (h : CacheInv v st) (hslot : freeSlot st = some i) (hname : DiskName name) (hbinary : mode.binary = false)
    (htrunc : mode.trunc = false) (hpresent : v.present st.os (nameToFcb name).2.key)
    (hlog : ReadsOk (execState b st (.sopen name mode)).log) :
    (exec b st (.sopen name mode)).1 = ⟨3 + (i.val : Int), [], none⟩ ∧
      CacheInv v (execState b st (.sopen name mode)) ∧
      OpenedText v i (nameToFcb name).2.key mode st (execState b st (.sopen name mode)) := by
  have h₀ : CacheInv v { st with log := [] } := ⟨h.coherent, h.opened⟩
  have hslot₀ : freeSlot { st with log := [] } = some i := hslot
  have hidle := h₀.idle (freeSlot_unused hslot₀)
  have hcall : sopen b name mode { st with log := [] } = sopenFile b i name mode { st with log := [] } := by
    unfold sopen
    rw [hslot₀]
    dsimp only
    rw [hname.disk, if_neg (by decide)]
  have hstate : execState b st (.sopen name mode) = (sopenFile b i name mode { st with log := [] }).2 := by
    rw [← hcall]
    rfl
  have hreply : (exec b st (.sopen name mode)).1 =
      ⟨(sopenFile b i name mode { st with log := [] }).1, [], none⟩ := by
    rw [← hcall]
    rfl
  rw [hstate] at hlog ⊢
  rw [hreply]
  obtain ⟨hret, hopened⟩ := sopenFile_text hb hidle hname hbinary htrunc hpresent hlog
  have hcache : CacheInv v (sopenFile b i name mode { st with log := [] }).2 :=
    sopenFile_cacheInv hb.toTransfers hidle fun htr => absurd (htrunc.symm.trans htr) (by decide)
  rw [hret]
  exact ⟨rfl, hcache, hopened.slot, hopened.others, hopened.same⟩

/-! ### Writing -/

/-- No call of the BDOS fails during the call. -/
def CallWorks (b : Bdos σ) (st : DiskIo σ) (c : DiskCall) : Prop :=
  match c with
  | .qwrite _ _ => WritesOk (execState b st c).log
  | .close _ => True
  | _ => ReadsOk (execState b st c).log

instance (b : Bdos σ) (st : DiskIo σ) (c : DiskCall) : Decidable (CallWorks b st c) :=
  match c with
  | .qwrite _ _ => inferInstanceAs (Decidable (WritesOk _))
  | .close _ => inferInstanceAs (Decidable True)
  | .sopen _ _ | .remove _ | .rename _ _ | .access _ _ | .stat _ | .utime _ | .qread _ _ | .lseek _ _ _
  | .chmod _ _ | .dup _ => inferInstanceAs (Decidable (ReadsOk _))

theorem writeFile_slot {st : DiskIo σ} {i : Fin 16} (hused : (st.dfiles i).used = true)
    (hwritable : (st.dfiles i).writable = true) (hdisk : (st.dfiles i).isCon = false) :
    writeFile st (3 + (i.val : Int)) = some i := by
  unfold writeFile
  rw [if_neg (by omega), if_neg (by omega), fdToFile_slot hused]
  simp [hwritable, hdisk]

theorem readFile_slot {st : DiskIo σ} {i : Fin 16} (hused : (st.dfiles i).used = true)
    (hreadable : (st.dfiles i).readable = true) (hdisk : (st.dfiles i).isCon = false) :
    readFile st (3 + (i.val : Int)) = some i := by
  unfold readFile
  rw [if_neg (by omega), if_neg (by omega), fdToFile_slot hused]
  simp [hreadable, hdisk]

/-- The slot `i` is open for appending to the file `k` behind its first `n` bytes. -/
structure Appender (v : View σ) (i : Fin 16) (k : Key) (n : ℕ) (st : DiskIo σ) : Prop extends CacheInv v st where
  handles : AppendHandles v (· = i) k n st
  used : (st.dfiles i).used = true
  writable : (st.dfiles i).writable = true
  disk : (st.dfiles i).isCon = false
  present : v.present st.os k

section

variable {i : Fin 16} {k : Key} {n : ℕ} {st : DiskIo σ}

/-- A write that works appends. -/
theorem Appender.step (hb : Directory b v) (h : Appender v i k n st) {d : List Byte}
    (hlog : WritesOk (execState b st (.qwrite (3 + (i.val : Int)) d)).log) :
    Appender v i k (n + d.length) (execState b st (.qwrite (3 + (i.val : Int)) d)) ∧
      Appended v k n d st.os (execState b st (.qwrite (3 + (i.val : Int)) d)).os ∧
      ∀ j, j ≠ i → (execState b st (.qwrite (3 + (i.val : Int)) d)).dfiles j = st.dfiles j := by
  have hfile := writeFile_slot h.used h.writable h.disk
  have hup : UpToDate (· = i) st (3 + (i.val : Int), d) := by
    apply Or.inr
    rintro i' hi' j rfl
    obtain rfl : j = i' := Option.some.inj (hfile.symm.trans hi')
    exact le_rfl
  have hstep : WritesOk (writeStep b st (3 + (i.val : Int), d)).log := hlog
  obtain ⟨hhandles, happended⟩ := h.handles.step hb ⟨⟨i, rfl, hfile⟩, hstep⟩ hup
  obtain ⟨hwrites, -⟩ := h.handles.writes hb (c := (3 + (i.val : Int), d)) rfl hfile hstep
  have hself := setFile_self ({ st with log := [] } : DiskIo σ) i DFile.writing
  have hkey : ((({ st with log := [] } : DiskIo σ).setFile i DFile.writing).dfiles i).fcb.key = k := by
    rw [hself]
    exact h.handles.key i rfl
  have h₀ : CacheInv v { st with log := [] } := ⟨h.coherent, h.opened⟩
  have hcache : CacheInv v (writeStep b st (3 + (i.val : Int), d)) :=
    qwrite_cacheInv hb.toTransfers h₀ hlog.stored
  have hpresent := hwrites.present
  rw [hkey] at hpresent
  obtain ⟨fcb, x, -, hwritten⟩ := hwrites.file
  refine ⟨⟨hcache, hhandles, ?_, ?_, ?_, hpresent h.present⟩, happended, fun j hj => ?_⟩
  · refine hwrites.used.trans ?_
    rw [hself]
    exact h.used
  · have hstays : ((writeStep b st (3 + (i.val : Int), d)).dfiles i).writable = true := by
      rw [hwritten]
      dsimp only [DFile.grown]
      rw [hself]
      exact h.writable
    exact hstays
  · refine hwrites.isCon.trans ?_
    rw [hself]
    exact h.disk
  · exact (hwrites.others j hj).trans (setFile_of_ne _ _ hj)

/-- The calls that write the pieces. -/
def writeCalls (i : Fin 16) (data : List (List Byte)) : List DiskCall :=
  data.map (.qwrite (3 + (i.val : Int)))

/-- A run of writes appends the pieces, in order. -/
theorem append_writes (hb : Directory b v) (h : Appender v i k n st) {data : List (List Byte)}
    (hworks : Along (execState b) (CallWorks b) st (writeCalls i data)) :
    Appender v i k (n + data.flatten.length) (run (execState b) st (writeCalls i data)) ∧
      Appended v k n data.flatten st.os (run (execState b) st (writeCalls i data)).os ∧
      ∀ j, j ≠ i → (run (execState b) st (writeCalls i data)).dfiles j = st.dfiles j := by
  induction data generalizing n st with
  | nil => exact ⟨h, .refl v k n st.os, fun _ _ => rfl⟩
  | cons d data ih =>
      obtain ⟨hlog, hworks⟩ := hworks
      obtain ⟨hnext, happended, hothers⟩ := h.step hb hlog
      obtain ⟨hlast, hrest, hothers'⟩ := ih hnext hworks
      rw [List.flatten_cons, List.length_append, ← Nat.add_assoc]
      exact ⟨hlast, happended.trans hrest, fun j hj => (hothers' j hj).trans (hothers j hj)⟩

/-- A slot that was opened for appending. -/
theorem OpenedText.appender {mode : OpenMode} {st' : DiskIo σ} (hb : Directory b v) (h : OpenedText v i k mode st st')
    (hcache : CacheInv v st') (happend : mode.append = true) (hwritable : mode.writable = true)
    (hpresent : v.present st.os k) : Appender v i k (textEnd v st.os k).toNat st' := by
  obtain ⟨hnonneg, hpadded⟩ := textEnd_padded v st.os k
  have hhigh := hpadded.high
  have hsize := hb.size_le st.os k
  have hlen := h.slot.len
  refine ⟨hcache, ⟨hcache.coherent, ?_, ?_, ?_, ?_, ⟨i, rfl, ?_⟩, by omega⟩, h.slot.used,
    h.slot.writable.trans hwritable, h.slot.disk, (h.same k).present.mpr hpresent⟩
  · rintro j rfl
    exact h.slot.append.trans happend
  · rintro j rfl
    exact h.slot.key
  · rintro j rfl
    omega
  · rintro j rfl
    omega
  · omega

/-! ### Closing -/

theorem freeSlot_congr {st' : DiskIo σ} (h : ∀ j, (st'.dfiles j).used = (st.dfiles j).used) :
    freeSlot st' = freeSlot st := by
  unfold freeSlot
  congr 1
  funext j
  rw [h j]

/-- `__close` of a slot gives it back and leaves the files alone. -/
theorem exec_close_slot (hb : Directory b v) (hcache : CacheInv v st) (hused : (st.dfiles i).used = true)
    (hdisk : (st.dfiles i).isCon = false) :
    CacheInv v (execState b st (.close (3 + (i.val : Int)))) ∧
      ((execState b st (.close (3 + (i.val : Int)))).dfiles i).used = false ∧
      (∀ j, j ≠ i → (execState b st (.close (3 + (i.val : Int)))).dfiles j = st.dfiles j) ∧
      ∀ l, SameAt v st.os (execState b st (.close (3 + (i.val : Int)))).os l := by
  have h₀ : CacheInv v { st with log := [] } := ⟨hcache.coherent, hcache.opened⟩
  have hfd : fdToFile { st with log := [] } (3 + (i.val : Int)) = some i := fdToFile_slot hused
  obtain ⟨-, hothers, hclosed, hsame⟩ := close_state hb (by omega) hfd hdisk
  have hclose : CacheInv v (execState b st (.close (3 + (i.val : Int)))) := close_cacheInv hb.toTransfers h₀
  exact ⟨hclose, hclosed, hothers, hsame⟩

/-! ### Reading -/

/-- The slot `i` is open for reading the text `whole` and stands behind its first `p` bytes. -/
structure TextReader (v : View σ) (i : Fin 16) (k : Key) (mode : OpenMode) (whole : List Byte) (p : ℕ)
    (st : DiskIo σ) : Prop extends CacheInv v st where
  slot : TextSlot i k mode p (textEnd v st.os k) st
  text : OpenWatcom.text cpmEof (slice (cell cpmEof (v.record st.os k)) 0 (textEnd v st.os k).toNat) = whole
  le : p ≤ whole.length

/-- A slot that was opened for reading. -/
theorem OpenedText.reader {mode : OpenMode} {st' : DiskIo σ} (h : OpenedText v i k mode st st')
    (hcache : CacheInv v st') (happend : mode.append = false) :
    TextReader v i k mode (textOf v st.os k) 0 st' := by
  have hslot := h.slot
  have hend := (h.same k).textEnd
  rw [happend, if_neg (by decide), ← hend] at hslot
  refine ⟨hcache, hslot, ?_, Nat.zero_le _⟩
  rw [hend, (h.same k).record]
  exact (textEnd_padded v st.os k).2.text.symm

/-- A read returns the next part of the text. -/
theorem TextReader.step (hb : Directory b v) {mode : OpenMode} {whole : List Byte} {p m : ℕ}
    (h : TextReader v i k mode whole p st) (hreadable : mode.readable = true)
    (hlog : ReadsOk (execState b st (.qread (3 + (i.val : Int)) m)).log) :
    (exec b st (.qread (3 + (i.val : Int)) m)).1.bytes = (whole.drop p).take m ∧
      TextReader v i k mode whole (p + ((whole.drop p).take m).length)
        (execState b st (.qread (3 + (i.val : Int)) m)) := by
  have hslot := h.slot
  have hfile : readFile { st with log := [] } (3 + (i.val : Int)) = some i :=
    readFile_slot hslot.used (hslot.readable.trans hreadable) hslot.disk
  have h₀ : CacheInv v { st with log := [] } := ⟨h.coherent, h.opened⟩
  have hcache : CacheInv v (qread b (3 + (i.val : Int)) m { st with log := [] }).2 :=
    qread_cacheInv hb.toTransfers h₀
  have hlog₀ : ReadsOk (qread b (3 + (i.val : Int)) m { st with log := [] }).2.log := hlog
  show (qread b (3 + (i.val : Int)) m { st with log := [] }).1.2 = (whole.drop p).take m ∧
    TextReader v i k mode whole (p + ((whole.drop p).take m).length)
      (qread b (3 + (i.val : Int)) m { st with log := [] }).2
  rw [qread_eq hfile] at hcache hlog₀ ⊢
  have hzero := reads_setFile (b := b) (v := v) i 0 false { st with log := [] }
  simp only [Int.natCast_zero, Int.add_zero] at hzero
  have hahead := hzero.ahead m
  simp only [Int.natCast_zero, Int.add_zero] at hahead
  have hc₁ := hzero.coherent (by simp) h₀.coherent
  have hself := setFile_self ({ st with log := [] } : DiskIo σ) i fun fp => { fp with ateof := false }
  have hos := setFile_os ({ st with log := [] } : DiskIo σ) i fun fp => { fp with ateof := false }
  generalize ({ st with log := [] } : DiskIo σ).setFile i _ = st₁ at hcache hlog₀ hzero hahead hc₁ hself hos ⊢
  have htext₁ : (st₁.dfiles i).text = true := by
    rw [hself]
    exact hslot.text
  have hpos₁ : (st₁.dfiles i).pos = p := by
    rw [hself]
    exact hslot.pos
  have hlen₁ : (st₁.dfiles i).len = textEnd v st.os k := by
    rw [hself]
    exact hslot.len
  have hkey₁ : (st₁.dfiles i).fcb.key = k := by
    rw [hself]
    exact hslot.key
  have hos₁ : st₁.os = st.os := hos
  have hsettled : Settled b v st₁.os (st₁.dfiles i) := fun _ => by
    rw [fileLen, if_pos htext₁, hkey₁, hos₁, hlen₁]
  obtain ⟨hnonneg, hpadded⟩ := textEnd_padded v st.os k
  have hhigh := hpadded.high
  have hsize := hb.size_le st.os k
  obtain ⟨hout, hreads⟩ := qreadLoop_spec hb i m [] st₁ hc₁ hsettled (by omega) (by omega) hlog₀
  -- What is ahead is a part of what is in front of the padding.
  have hpart : ahead v st₁.os (st₁.dfiles i) m =
      ((slice (cell cpmEof (v.record st.os k)) 0 (textEnd v st.os k).toNat).drop p).take m := by
    unfold ahead
    rw [hpos₁, hlen₁, hkey₁, hos₁, slice_drop, slice_take_min, Nat.zero_add, Int.toNat_natCast]
    congr 2
    omega
  have hseen : seen (st₁.dfiles i).text (ahead v st₁.os (st₁.dfiles i) m) = (whole.drop p).take m := by
    rw [htext₁, seen_true, hpart, text_take_drop (by rw [h.text]; exact h.le), h.text]
  rw [hseen, List.nil_append] at hout
  rw [hseen] at hreads
  have hdisk := hreads.disk k
  rw [hos₁] at hdisk
  obtain ⟨fcb, x, hkey, hfile₂⟩ := hreads.file
  refine ⟨hout, hcache, ⟨?_, ?_, ?_, ?_, ?_, ?_, ?_, ?_, ?_, ?_⟩, ?_, ?_⟩
  · exact hreads.key.trans hkey₁
  · rw [hfile₂]
    dsimp only
    rw [hpos₁]
    push_cast
    rfl
  · rw [hfile₂, hdisk.textEnd]
    exact hlen₁
  · rw [hfile₂, hself]
    exact hslot.used
  · rw [hfile₂]
    exact htext₁
  · rw [hfile₂, hself]
    exact hslot.readable
  · rw [hfile₂, hself]
    exact hslot.writable
  · rw [hfile₂, hself]
    exact hslot.append
  · rw [hfile₂, hself]
    exact hslot.wrote
  · rw [hfile₂, hself]
    exact hslot.disk
  · rw [hdisk.textEnd, hdisk.record]
    exact h.text
  · have hle := h.le
    rw [List.length_take, List.length_drop]
    omega

/-- The calls that read up to so many bytes each. -/
def readCalls (i : Fin 16) (ns : List ℕ) : List DiskCall := ns.map (.qread (3 + (i.val : Int)))

/-- What a run of reads returns, call by call. -/
def piecesRead (b : Bdos σ) (i : Fin 16) (ns : List ℕ) (st : DiskIo σ) : List (List Byte) :=
  (outcome (exec b) st (readCalls i ns)).1.map Reply.bytes

theorem piecesRead_cons (b : Bdos σ) (i : Fin 16) (m : ℕ) (ns : List ℕ) (st : DiskIo σ) :
    piecesRead b i (m :: ns) st = (exec b st (.qread (3 + (i.val : Int)) m)).1.bytes ::
      piecesRead b i ns (execState b st (.qread (3 + (i.val : Int)) m)) := rfl

section

variable {mode : OpenMode} {whole : List Byte} {p : ℕ}

/-- More reads than there are bytes come to the end. -/
theorem readback_ends (hb : Directory b v) (hreadable : mode.readable = true) {ns : List ℕ} (hns : ∀ m ∈ ns, m ≠ 0)
    (h : TextReader v i k mode whole p st) (hworks : Along (execState b) (CallWorks b) st (readCalls i ns))
    (hmany : whole.length - p < ns.length) : (piecesRead b i ns st).getLast? = some [] := by
  induction ns generalizing p st with
  | nil => exact absurd hmany (Nat.not_lt_zero _)
  | cons m ns ih =>
      obtain ⟨hlog, hworks⟩ := hworks
      obtain ⟨hbytes, hnext⟩ := h.step hb hreadable hlog
      have hm := hns m List.mem_cons_self
      rw [piecesRead_cons, hbytes]
      rw [List.length_cons] at hmany
      cases ns with
      | nil =>
          have hdone : whole.drop p = [] := by
            apply List.drop_eq_nil_of_le
            rw [List.length_nil] at hmany
            omega
          rw [hdone, List.take_nil]
          rfl
      | cons m' ns =>
          rw [List.getLast?_cons_of_ne_nil (by rw [piecesRead_cons]; exact List.cons_ne_nil _ _)]
          refine ih (fun q hq => hns q (List.mem_cons_of_mem _ hq)) hnext hworks ?_
          rw [List.length_take, List.length_drop]
          rw [List.length_cons] at hmany ⊢
          omega

/-- Reads up to the end return the whole rest of the text. -/
theorem readback_text (hb : Directory b v) (hreadable : mode.readable = true) {ns : List ℕ} (hns : ∀ m ∈ ns, m ≠ 0)
    (h : TextReader v i k mode whole p st) (hworks : Along (execState b) (CallWorks b) st (readCalls i ns))
    (hend : (piecesRead b i ns st).getLast? = some []) : (piecesRead b i ns st).flatten = whole.drop p := by
  induction ns generalizing p st with
  | nil => cases hend
  | cons m ns ih =>
      obtain ⟨hlog, hworks⟩ := hworks
      obtain ⟨hbytes, hnext⟩ := h.step hb hreadable hlog
      have hm := hns m List.mem_cons_self
      rw [piecesRead_cons, hbytes] at hend ⊢
      rw [List.flatten_cons]
      cases ns with
      | nil =>
          -- The last read wanted bytes and returned none.
          have hnil : (whole.drop p).take m = [] := Option.some.inj hend
          have hdone := (List.take_eq_nil_iff.mp hnil).resolve_left hm
          rw [hdone, List.take_nil]
          rfl
      | cons m' ns =>
          rw [List.getLast?_cons_of_ne_nil (by rw [piecesRead_cons]; exact List.cons_ne_nil _ _)] at hend
          rw [ih (fun q hq => hns q (List.mem_cons_of_mem _ hq)) hnext hworks hend, ← List.drop_drop]
          exact List.prefix_iff_eq_append.mp (List.take_prefix m _)

end

/-! ### Append and read back -/

/-- Behind the text of the file there is only the padding of its last record. -/
def OnlyPadding (v : View σ) (os : σ) (k : Key) : Prop :=
  128 * (v.size os k - 1) ≤ (textOf v os k).length ∧
    ∀ c ∈ (storedBytes v os k).drop (textOf v os k).length, c = cpmEof

instance (v : View σ) (os : σ) (k : Key) : Decidable (OnlyPadding v os k) :=
  inferInstanceAs (Decidable (_ ∧ ∀ _ ∈ _, _))

theorem textOf_eq (v : View σ) (os : σ) (k : Key) :
    textOf v os k = text cpmEof (slice (cell cpmEof (v.record os k)) 0 (textEnd v os k).toNat) :=
  (textEnd_padded v os k).2.text

/-- There is then no Ctrl-Z in front of the place that `text_eof` finds. -/
theorem onlyPadding_iff (v : View σ) (os : σ) (k : Key) :
    OnlyPadding v os k ↔ cpmEof ∉ slice (cell cpmEof (v.record os k)) 0 (textEnd v os k).toNat := by
  have heq := textOf_eq v os k
  obtain ⟨-, hpadded⟩ := textEnd_padded v os k
  unfold OnlyPadding
  generalize (textEnd v os k).toNat = p at heq hpadded ⊢
  have hlow := hpadded.low
  have hhigh := hpadded.high
  have hstored : ∀ q, storedBytes v os k = slice (cell cpmEof (v.record os k)) 0 (128 * v.size os k) →
      (∀ c ∈ (storedBytes v os k).drop q, c = cpmEof) → ∀ j, q ≤ j → j < 128 * v.size os k →
        cell cpmEof (v.record os k) j = cpmEof := by
    intro q hq hall j hj hlt
    apply hall
    rw [hq, slice_drop, Nat.zero_add]
    exact List.mem_map.mpr ⟨j - q, List.mem_range.mpr (by omega), by rw [Nat.add_sub_cancel' hj]⟩
  constructor
  · rintro ⟨hrecord, hall⟩ hmem
    have hshort : (textOf v os k).length < p := by
      have hprefix := (List.takeWhile_prefix (l := slice (cell cpmEof (v.record os k)) 0 p)
        (fun c => decide (c ≠ cpmEof)))
      have hne : textOf v os k ≠ slice (cell cpmEof (v.record os k)) 0 p := fun hself =>
        text_eq_self_iff.mp (heq.symm.trans hself) hmem
      have hlen := hprefix.length_le
      rw [slice_length] at hlen
      refine Nat.lt_of_le_of_ne (by rw [heq]; exact hlen) fun hfull => hne ?_
      rw [heq] at hfull ⊢
      exact hprefix.eq_of_length (hfull.trans (slice_length _ _ _).symm)
    obtain hlast | hlast := hpadded.last
    · omega
    · exact hlast (hstored _ rfl hall (p - 1) (by omega) (by omega))
  · intro hno
    have hself : textOf v os k = slice (cell cpmEof (v.record os k)) 0 p := by
      rw [heq]
      exact text_eq_self_iff.mpr hno
    rw [hself, slice_length]
    refine ⟨hlow, fun c hc => ?_⟩
    unfold storedBytes at hc
    rw [slice_drop, Nat.zero_add] at hc
    obtain ⟨j, hj, rfl⟩ := List.mem_map.mp hc
    have hj := List.mem_range.mp hj
    exact hpadded.pad _ (Nat.le_add_right p j) (by omega)

/-- The text of a file after an append. -/
theorem Appended.textOf {os os' : σ} {data : List Byte} (hb : Directory b v)
    (h : Appended v k (textEnd v os k).toNat data os os') (hdata : cpmEof ∉ data) :
    textOf v os' k =
      text cpmEof (slice (cell cpmEof (v.record os k)) 0 (textEnd v os k).toNat ++ data) := by
  obtain ⟨-, hpadded⟩ := textEnd_padded v os k
  have hcells := h.cells
  have hsize := h.size
  by_cases hnil : data = []
  · subst hnil
    rw [overlay_nil] at hcells
    rw [grownSize, if_pos rfl] at hsize
    rw [List.append_nil, ← textOf_eq]
    unfold Clib.textOf storedBytes
    rw [hcells, hsize]
  · have hbeyond : ∀ q, 128 * v.size os k ≤ q → cell cpmEof (v.record os k) q = cpmEof := by
      intro q hq
      have hnone : v.record os k (q / 128) = none := by
        by_contra hsome
        have := hb.bound os k _ hsome
        omega
      unfold cell
      rw [hnone]
      rfl
    have hlast : data.getLast hnil ≠ cpmEof := fun heq => hdata (heq ▸ List.getLast_mem hnil)
    have hmoved := hpadded.append (by decide) hbeyond hnil hlast
    rw [grownSize, if_neg hnil] at hsize
    generalize (textEnd v os k).toNat = p at hcells hsize hmoved ⊢
    have hfront : slice (overlay (cell cpmEof (v.record os k)) p data) 0 p =
        slice (cell cpmEof (v.record os k)) 0 p :=
      slice_congr fun q _ hq => overlay_of_lt (by omega)
    calc Clib.textOf v os' k
        = text cpmEof (slice (overlay (cell cpmEof (v.record os k)) p data) 0
            (128 * max (v.size os k) ((p + data.length - 1) / 128 + 1))) := by
          rw [← hsize, ← hcells]
          rfl
      _ = text cpmEof (slice (overlay (cell cpmEof (v.record os k)) p data) 0 (p + data.length)) := hmoved.text
      _ = text cpmEof (slice (cell cpmEof (v.record os k)) 0 p ++ data) := by
          rw [slice_add, hfront, Nat.zero_add, slice_overlay_self]

/-- The modes that append to a text. -/
structure Appends (mode : OpenMode) : Prop where
  writable : mode.writable = true
  append : mode.append = true
  text : mode.binary = false
  keeps : mode.trunc = false

/-- The modes that read a text from its beginning. -/
structure Rereads (mode : OpenMode) : Prop where
  readable : mode.readable = true
  start : mode.append = false
  text : mode.binary = false
  keeps : mode.trunc = false

/-- The calls that append the pieces to a file: open, write, close. -/
def appendCalls (i : Fin 16) (name : List Byte) (mode : OpenMode) (data : List (List Byte)) : List DiskCall :=
  .sopen name mode :: (writeCalls i data ++ [.close (3 + (i.val : Int))])

/-- The calls that read it again. -/
def rereadCalls (i : Fin 16) (name : List Byte) (mode : OpenMode) (ns : List ℕ) : List DiskCall :=
  .sopen name mode :: readCalls i ns

/-- The pieces that are read after an append. -/
def readBack (b : Bdos σ) (i : Fin 16) (name : List Byte) (mode mode' : OpenMode) (data : List (List Byte))
    (ns : List ℕ) (st : DiskIo σ) : List (List Byte) :=
  piecesRead b i ns (execState b (run (execState b) st (appendCalls i name mode data)) (.sopen name mode'))

section

variable {name : List Byte} {mode mode' : OpenMode} {data : List (List Byte)}

/-- What an append leaves behind: the slot is free again, and the file has the data behind the place that `text_eof`
found. -/
theorem append_run (hb : Directory b v) (h : CacheInv v st) (hslot : freeSlot st = some i) (hname : DiskName name)
    (hpresent : v.present st.os (nameToFcb name).2.key) (hmode : Appends mode)
    (hworks : Along (execState b) (CallWorks b) st (appendCalls i name mode data)) :
    CacheInv v (run (execState b) st (appendCalls i name mode data)) ∧
      freeSlot (run (execState b) st (appendCalls i name mode data)) = some i ∧
      v.present (run (execState b) st (appendCalls i name mode data)).os (nameToFcb name).2.key ∧
      ∃ os, SameAt v st.os os (nameToFcb name).2.key ∧
        ∃ os', Appended v (nameToFcb name).2.key (textEnd v st.os (nameToFcb name).2.key).toNat data.flatten os os' ∧
          SameAt v os' (run (execState b) st (appendCalls i name mode data)).os (nameToFcb name).2.key := by
  obtain ⟨hopen, hworks⟩ := hworks
  obtain ⟨hwrite, -⟩ := (along_append _).mp hworks
  obtain ⟨-, hcache₁, hopened⟩ := exec_sopen_text hb h hslot hname hmode.text hmode.keeps hpresent hopen
  have happender := hopened.appender hb hcache₁ hmode.append hmode.writable hpresent
  obtain ⟨hlast, happended, hothers₂⟩ := append_writes hb happender hwrite
  obtain ⟨hcache₃, hfree, hothers₃, hsame₃⟩ := exec_close_slot hb hlast.toCacheInv hlast.used hlast.disk
  have hrun : run (execState b) st (appendCalls i name mode data) =
      execState b (run (execState b) (execState b st (.sopen name mode)) (writeCalls i data))
        (.close (3 + (i.val : Int))) := by
    rw [appendCalls, run_cons, run_append]
    rfl
  rw [hrun]
  refine ⟨hcache₃, ?_, (hsame₃ _).present.mpr hlast.present, _, hopened.same _, _, happended, hsame₃ _⟩
  rw [← hslot]
  apply freeSlot_congr
  intro j
  by_cases hji : j = i
  · rw [hji, hfree]
    exact (freeSlot_unused hslot).symm
  · rw [hothers₃ j hji, hothers₂ j hji, hopened.others j hji]

/-- Reading a text file again after an append comes to the end, and gives the old text with the data behind it exactly if
nothing was written or only padding followed the old text. -/
theorem textAppend_iff (hb : Directory b v) (h : CacheInv v st) (hslot : freeSlot st = some i)
    (hname : DiskName name) (hpresent : v.present st.os (nameToFcb name).2.key) (hmode : Appends mode)
    (hmode' : Rereads mode') (hdata : ∀ d ∈ data, cpmEof ∉ d) {ns : List ℕ} (hns : ∀ m ∈ ns, m ≠ 0)
    (hworks : Along (execState b) (CallWorks b) st (appendCalls i name mode data ++ rereadCalls i name mode' ns)) :
    ((textOf v st.os (nameToFcb name).2.key).length + data.flatten.length < ns.length →
      (readBack b i name mode mode' data ns st).getLast? = some []) ∧
    ((readBack b i name mode mode' data ns st).getLast? = some [] →
      ((readBack b i name mode mode' data ns st).flatten =
          textOf v st.os (nameToFcb name).2.key ++ data.flatten ↔
        data.flatten = [] ∨ OnlyPadding v st.os (nameToFcb name).2.key)) := by
  obtain ⟨hwrites, hopen, hreads⟩ := (along_append _).mp hworks
  obtain ⟨hcache, hfree, hpresent', os, hos, os', happended, hsame⟩ :=
    append_run hb h hslot hname hpresent hmode hwrites
  unfold readBack
  generalize run (execState b) st (appendCalls i name mode data) = st₁ at hopen hreads hcache hfree hpresent' hsame ⊢
  obtain ⟨-, hcache₂, hopened⟩ := exec_sopen_text hb hcache hfree hname hmode'.text hmode'.keeps hpresent' hopen
  have hreader := hopened.reader hcache₂ hmode'.start
  have hclean : cpmEof ∉ data.flatten := fun hmem => by
    obtain ⟨d, hd, hin⟩ := List.mem_flatten.mp hmem
    exact hdata d hd hin
  rw [← hos.textEnd] at happended
  have hwhole : textOf v st₁.os (nameToFcb name).2.key =
      text cpmEof (slice (cell cpmEof (v.record st.os (nameToFcb name).2.key)) 0
        (textEnd v st.os (nameToFcb name).2.key).toNat ++ data.flatten) := by
    rw [hsame.textOf, happended.textOf hb hclean, hos.textEnd, hos.record]
  rw [hwhole] at hreader
  rw [onlyPadding_iff, textOf_eq v st.os]
  generalize slice (cell cpmEof (v.record st.os (nameToFcb name).2.key)) 0 _ = old at hreader ⊢
  constructor
  · intro hmany
    apply readback_ends hb hmode'.readable hns hreader hreads
    have hle : (text cpmEof (old ++ data.flatten)).length ≤ (text cpmEof old).length + data.flatten.length :=
      text_append_length_le old data.flatten
    omega
  · intro hend
    rw [readback_text hb hmode'.readable hns hreader hreads hend, List.drop_zero]
    exact text_append_iff hclean

end

end

/-! ### Two files -/

/-- A disk with one file, which was written in binary mode. -/
def diskWith (bytes : List Byte) : DiskIo Ram :=
  run (execState ramBdos) (DiskIo.start [])
    [.sopen [0x41] ⟨2, false, true, true, true⟩, .qwrite 3 bytes, .close 3]

theorem diskName_a : DiskName [0x41] := ⟨by decide, by decide, by decide⟩

def appendMode : OpenMode := ⟨1, true, false, false, false⟩

def rereadMode : OpenMode := ⟨0, false, false, false, false⟩

theorem appends_appendMode : Appends appendMode := ⟨rfl, rfl, rfl, rfl⟩

theorem rereads_rereadMode : Rereads rereadMode := ⟨rfl, rfl, rfl, rfl⟩

theorem cacheInv_of_none {st : DiskIo σ} (h : st.cacheFp = none) : CacheInv v st :=
  ⟨.of_none h, fun i hi => by rw [h] at hi; cases hi⟩

/-- Behind a text with its padding. -/
theorem textAppend_padded :
    (readBack ramBdos 0 [0x41] appendMode rereadMode [[0x59], [0x5A]] [2, 5, 5] (diskWith [0x58])).flatten =
      textOf ramView (diskWith [0x58]).os (nameToFcb [0x41]).2.key ++ [[0x59], [0x5A]].flatten :=
  ((textAppend_iff ramBdos_directory (cacheInv_of_none (by decide +kernel)) (by decide +kernel) diskName_a
    (by decide +kernel : (Ram.file (diskWith [0x58]).os (nameToFcb [0x41]).2.key).isSome) appends_appendMode
    rereads_rereadMode (by decide) (by decide) (by decide +kernel)).2 (by decide +kernel)).mpr
    (.inr (by decide +kernel))

/-- Behind a text with a Ctrl-Z and another byte behind it: the data is not read again. -/
theorem not_textAppend : ¬ ∀ (σ : Type) (b : Bdos σ) (v : View σ), Directory b v → ∀ st : DiskIo σ,
    CacheInv v st → ∀ i : Fin 16, freeSlot st = some i → ∀ name, DiskName name →
      v.present st.os (nameToFcb name).2.key → ∀ mode mode', Appends mode → Rereads mode' →
        ∀ data : List (List Byte), (∀ d ∈ data, cpmEof ∉ d) → ∀ ns : List ℕ, (∀ m ∈ ns, m ≠ 0) →
          Along (execState b) (CallWorks b) st (appendCalls i name mode data ++ rereadCalls i name mode' ns) →
          (readBack b i name mode mode' data ns st).getLast? = some [] →
          (readBack b i name mode mode' data ns st).flatten =
            textOf v st.os (nameToFcb name).2.key ++ data.flatten := by
  intro h
  have hread := h Ram ramBdos ramView ramBdos_directory (diskWith [0x58, cpmEof, 0x59])
    (cacheInv_of_none (by decide +kernel)) 0 (by decide +kernel) [0x41] diskName_a
    (by decide +kernel : (Ram.file (diskWith [0x58, cpmEof, 0x59]).os (nameToFcb [0x41]).2.key).isSome)
    appendMode rereadMode appends_appendMode rereads_rereadMode [[0x5A]] (by decide) [5, 5] (by decide)
    (by decide +kernel) (by decide +kernel)
  exact absurd hread (by decide +kernel)

end OpenWatcom.Clib
