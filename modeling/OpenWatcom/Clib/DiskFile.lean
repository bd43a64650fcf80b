import Mathlib.Data.List.TakeWhile
import OpenWatcom.Clib.DiskCache

/-! # One file of the disk layer

What the functions of `diskio.c` that work on one file do to it when no call of the BDOS fails, in terms of
the cells of the file: cell `p` is byte `p % 128` of record `p / 128`, and a record that was never
written is full of Ctrl-Z. -/

namespace OpenWatcom.Clib

variable {σ : Type} {b : Bdos σ} {v : View σ}

/-! ### What stays -/

/-- The file is the same on both systems, but for its byte count. -/
structure SameAt (v : View σ) (os os' : σ) (k : Key) : Prop where
  record : v.record os' k = v.record os k
  size : v.size os' k = v.size os k
  present : v.present os' k ↔ v.present os k

theorem SameAt.refl (os : σ) (k : Key) : SameAt v os os k := ⟨rfl, rfl, Iff.rfl⟩

theorem SameAt.trans {os os₁ os₂ : σ} {k : Key} (h : SameAt v os os₁ k) (h' : SameAt v os₁ os₂ k) :
    SameAt v os os₂ k :=
  ⟨h'.record.trans h.record, h'.size.trans h.size, h'.present.trans h.present⟩

/-- What a function leaves alone that works on the file `i` without writing, and moves `k` bytes ahead. -/
structure Reads (b : Bdos σ) (v : View σ) (i : Fin 16) (k : ℕ) (st st' : DiskIo σ) : Prop
    extends Touches v false i st st' where
  disk : ∀ l, SameAt v st.os st'.os l
  count : KeepsCount b v → v.count st'.os = v.count st.os
  redirIn : st'.redirIn = st.redirIn
  redirOut : st'.redirOut = st.redirOut
  file : ∃ fcb x, Fcb.key fcb = (st.dfiles i).fcb.key ∧
    st'.dfiles i = { st.dfiles i with fcb := fcb, ateof := x, pos := (st.dfiles i).pos + k }

theorem Reads.refl (i : Fin 16) (st : DiskIo σ) : Reads b v i 0 st st where
  toTouches := Touches.refl i st
  disk _ := SameAt.refl st.os _
  count _ := rfl
  redirIn := rfl
  redirOut := rfl
  file := ⟨_, (st.dfiles i).ateof, rfl, by simp⟩

theorem Reads.trans {i : Fin 16} {j k : ℕ} {st st₁ st₂ : DiskIo σ} (h : Reads b v i j st st₁)
    (h' : Reads b v i k st₁ st₂) : Reads b v i (j + k) st st₂ where
  toTouches := h.toTouches.trans h'.toTouches
  disk l := (h.disk l).trans (h'.disk l)
  count hb := (h'.count hb).trans (h.count hb)
  redirIn := h'.redirIn.trans h.redirIn
  redirOut := h'.redirOut.trans h.redirOut
  file := by
    obtain ⟨fcb, x, hkey, hfile⟩ := h.file
    obtain ⟨fcb', x', hkey', hfile'⟩ := h'.file
    rw [hfile] at hkey' hfile'
    refine ⟨fcb', x', hkey'.trans hkey, hfile'.trans ?_⟩
    simp [Int.add_assoc]

/-- The file keeps its name. -/
theorem Reads.key {i : Fin 16} {k : ℕ} {st st' : DiskIo σ} (h : Reads b v i k st st') :
    (st'.dfiles i).fcb.key = (st.dfiles i).fcb.key := by
  obtain ⟨fcb, x, hkey, hfile⟩ := h.file
  rw [hfile]
  exact hkey

/-- Moving ahead. -/
theorem reads_setFile (i : Fin 16) (k : ℕ) (x : Bool) (st : DiskIo σ) :
    Reads b v i k st (st.setFile i fun fp => { fp with ateof := x, pos := fp.pos + k }) where
  toTouches := touches_setFile i st _ rfl rfl rfl
  disk _ := SameAt.refl st.os _
  count _ := rfl
  redirIn := rfl
  redirOut := rfl
  file := ⟨_, x, rfl, setFile_self st i _⟩

theorem reads_bdosFile (hb : Directory b v) (i : Fin 16) (st : DiskIo σ) {f : BdosFn}
    (hf : f = .closeFile ∨ f = .filesize) : Reads b v i 0 st (bdosFile b f i st).2 where
  toTouches := touches_bdosFile hb.toTransfers i st (by rcases hf with rfl | rfl <;> simp)
  disk l := by
    obtain ⟨hsize, hpresent⟩ := hb.same f (by rcases hf with rfl | rfl <;> simp)
      (st.dfiles i).fcb st.dma st.os l
    refine ⟨?_, hsize, hpresent⟩
    have hquiet := hb.quiet f (by rcases hf with rfl | rfl <;> decide)
      (by rcases hf with rfl | rfl <;> decide) (by rcases hf with rfl | rfl <;> decide)
      (st.dfiles i).fcb st.dma st.os
    exact congrFun hquiet l
  count hk := by
    funext l
    exact hk.countSame f (by rcases hf with rfl | rfl <;> decide)
      (by rcases hf with rfl | rfl <;> decide) (by rcases hf with rfl | rfl <;> decide)
      (by rcases hf with rfl | rfl <;> decide) _ _ _ l
  redirIn := rfl
  redirOut := rfl
  file := ⟨_, (st.dfiles i).ateof, hb.key f (by rcases hf with rfl | rfl <;> simp) _ st.dma st.os, by
    simp [bdosFile]⟩

theorem reads_loadRecord (hb : Directory b v) (i : Fin 16) (rec : Int) (st : DiskIo σ) :
    Reads b v i 0 st (loadRecord b i rec st).2 := by
  have ht := touches_loadRecord (w := false) hb.toTransfers i rec st
  obtain ⟨-, -, heq⟩ | ⟨rc, st₁, hcall, hres⟩ := loadRecord_cases b i rec st
  · rw [heq]
    exact Reads.refl i st
  · have hst : st₁ = _ := (congrArg Prod.snd hcall).symm
    simp only [bdosFile, setFile_self, setFile_dma, setFile_os, setFile_log] at hst
    have hread : ∀ st₂ : DiskIo σ, Touches v false i st st₂ → st₂.dfiles = st₁.dfiles →
        st₂.os = st₁.os → st₂.redirIn = st.redirIn → st₂.redirOut = st.redirOut →
        Reads b v i 0 st st₂ := by
      intro st₂ ht₂ hfiles hos hin hout
      refine ⟨ht₂, fun l => ?_, fun hk => ?_, hin, hout,
        _, (st.dfiles i).ateof, (hb.key .readrand (by simp) (fcbSetRecord (st.dfiles i).fcb rec)
          st.dma st.os).trans (fcbSetRecord_key _ _), ?_⟩
      · obtain ⟨hsize, hpresent⟩ := hb.same .readrand (by simp)
          (fcbSetRecord (st.dfiles i).fcb rec) st.dma st.os l
        rw [hos, hst]
        refine ⟨?_, hsize, hpresent⟩
        exact congrFun (hb.quiet .readrand (by decide) (by decide) (by decide) _ _ _) l
      · rw [hos, hst]
        funext l
        exact hk.countSame .readrand (by decide) (by decide) (by decide) (by decide) _ _ _ l
      · rw [hfiles, hst]
        simp
    rcases hres with ⟨-, heq⟩ | ⟨-, heq⟩ | ⟨-, -, -, heq⟩
    all_goals
      rw [heq] at ht ⊢
      exact hread _ ht rfl rfl (by simp [hst, DiskIo.setFile]) (by simp [hst, DiskIo.setFile])

/-! ### Reading -/

/-- Every random read was answered with 0. -/
def ReadsOk (log : List (BdosEvent σ)) : Prop := ∀ e ∈ log, e.fn = .readrand → e.al = 0

instance (log : List (BdosEvent σ)) : Decidable (ReadsOk log) :=
  inferInstanceAs (Decidable (∀ e ∈ log, _))

/-- The record a random read finds, or that it was never written. -/
theorem loadRecord_spec (hb : Directory b v) {i : Fin 16} {rec rc : Int} {st st₁ : DiskIo σ}
    (hc : Coherent v st) (hload : loadRecord b i rec st = (rc, st₁)) :
    rc = 0 ∧ v.record st.os (st.dfiles i).fcb.key (rec % 2 ^ 24).toNat = some st₁.dma ∨
      ∃ e ∈ st₁.log, e.fn = .readrand ∧
        (rc = 1 ∧ (e.al = 1 ∨ e.al = 4) ∧ st₁.dma = (fun _ => cpmEof) ∧
            v.record st.os (st.dfiles i).fcb.key (rec % 2 ^ 24).toNat = none ∨
          rc = -1 ∧ e.al ≠ 0 ∧ e.al ≠ 1 ∧ e.al ≠ 4) := by
  have hreads := reads_loadRecord hb i rec st
  rw [hload] at hreads
  obtain ⟨hfp, hrec, heq⟩ | ⟨al, st₂, hcall, hres⟩ := loadRecord_cases b i rec st
  · rw [heq] at hload
    obtain ⟨rfl, rfl⟩ := Prod.mk.inj hload
    rw [← hrec]
    exact .inl ⟨rfl, hc i hfp⟩
  · have hal := congrArg Prod.fst hcall
    have hst : st₂ = _ := (congrArg Prod.snd hcall).symm
    simp only [bdosFile, setFile_self, setFile_dma, setFile_os, setFile_log] at hal hst
    have hevent : (⟨.readrand, fcbSetRecord (st.dfiles i).fcb rec, st.dma, st.os, al⟩ :
        BdosEvent σ) ∈ st₂.log := by
      rw [hst, ← hal]
      exact List.mem_cons_self
    rcases hres with ⟨-, heq⟩ | ⟨h14, heq⟩ | ⟨h0, h1, h4, heq⟩
    · rw [heq] at hload
      obtain ⟨rfl, rfl⟩ := Prod.mk.inj hload
      have hmarked := hreads.coherent (by simp) hc i rfl
      rw [hreads.key, (hreads.disk _).record] at hmarked
      exact .inl ⟨rfl, hmarked⟩
    · rw [heq] at hload
      obtain ⟨rfl, rfl⟩ := Prod.mk.inj hload
      have hnone := hb.unwritten (fcbSetRecord (st.dfiles i).fcb rec) st.dma st.os (hal ▸ h14)
      rw [fcbSetRecord_key, fcbSetRecord_rec] at hnone
      exact .inr ⟨_, hevent, rfl, .inl ⟨rfl, h14, rfl, hnone⟩⟩
    · rw [heq] at hload
      obtain ⟨rfl, rfl⟩ := Prod.mk.inj hload
      exact .inr ⟨_, hevent, rfl, .inr ⟨rfl, h0, h1, h4⟩⟩

/-- When no read fails, the record of the file comes into the buffer. -/
theorem loadRecord_ok (hb : Directory b v) {i : Fin 16} {rec rc : Int} {st st₁ : DiskIo σ}
    (hc : Coherent v st) (hload : loadRecord b i rec st = (rc, st₁)) (hlog : ReadsOk st₁.log) :
    rc = 0 ∧ v.record st.os (st.dfiles i).fcb.key (rec % 2 ^ 24).toNat = some st₁.dma := by
  obtain hok | ⟨e, he, hfn, hbad⟩ := loadRecord_spec hb hc hload
  · exact hok
  · have h0 := hlog e he hfn
    rcases hbad with ⟨-, h14, -⟩ | ⟨-, hne, -⟩
    · rw [h0] at h14
      exact absurd h14 (by decide)
    · exact absurd h0 hne

/-- The end of a text: where the Ctrl-Z at the end of the last record begin. -/
def textEnd (v : View σ) (os : σ) (k : Key) : Int :=
  if v.size os k = 0 then 0
  else ((v.size os k : Int) - 1) * 128 +
    trimEof ((v.record os k (v.size os k - 1)).getD fun _ => cpmEof) 128

/-- The length of the file on the disk, as `disk_len` computes it. -/
def fileLen (b : Bdos σ) (v : View σ) (os : σ) (fp : DFile) : Int :=
  if fp.text then textEnd v os fp.fcb.key
  else lengthOf (osHasLrbc b) (v.size os fp.fcb.key) fp.openLrbc

theorem reads_diskLen (hb : Directory b v) (i : Fin 16) (st : DiskIo σ) :
    Reads b v i 0 st (diskLen b i st).2 := by
  have hsize := reads_bdosFile hb i st (f := .filesize) (by simp)
  unfold diskLen textEof
  by_cases htext : (st.dfiles i).text = true
  · rw [if_pos htext]
    dsimp only
    generalize (bdosFile b .filesize i st).2 = st₁ at hsize ⊢
    by_cases h0 : ((st₁.dfiles i).fcb.rec : Int) = 0
    · rw [if_pos h0]
      exact hsize
    · rw [if_neg h0]
      have hload := hsize.trans (reads_loadRecord hb i (((st₁.dfiles i).fcb.rec : Int) - 1) st₁)
      split_ifs <;> exact hload
  · rw [if_neg htext]
    exact hsize

theorem diskLen_spec (hb : Directory b v) {i : Fin 16} {st : DiskIo σ} (hc : Coherent v st)
    (hlog : ReadsOk (diskLen b i st).2.log) :
    (diskLen b i st).1 = fileLen b v st.os (st.dfiles i) := by
  have hsize := reads_bdosFile hb i st (f := .filesize) (by simp)
  have hrec : ((bdosFile b .filesize i st).2.dfiles i).fcb.rec =
      v.size st.os (st.dfiles i).fcb.key := by
    simp only [bdosFile, setFile_self]
    exact hb.sizeOf _ _ _
  unfold diskLen textEof at hlog ⊢
  unfold fileLen
  by_cases htext : (st.dfiles i).text = true
  · rw [if_pos htext] at hlog ⊢
    rw [if_pos htext]
    dsimp only at hlog ⊢
    generalize (bdosFile b .filesize i st).2 = st₁ at hsize hrec hlog ⊢
    rw [hrec] at hlog ⊢
    unfold textEnd
    by_cases h0 : v.size st.os (st.dfiles i).fcb.key = 0
    · rw [if_pos h0, if_pos (by simp [h0])]
    · rw [if_neg h0, if_neg (by simpa using h0)]
      rw [if_neg (by simpa using h0)] at hlog
      have hlast : (((v.size st.os (st.dfiles i).fcb.key : Int) - 1) % 2 ^ 24).toNat =
          v.size st.os (st.dfiles i).fcb.key - 1 := by
        have := hb.size_le st.os (st.dfiles i).fcb.key
        omega
      rcases hload : loadRecord b i ((v.size st.os (st.dfiles i).fcb.key : Int) - 1) st₁
        with ⟨rc, st₂⟩
      rw [hload] at hlog
      dsimp only at hlog ⊢
      have hlog₂ : ReadsOk st₂.log := by
        split_ifs at hlog <;> exact hlog
      obtain ⟨rfl, hsome⟩ := loadRecord_ok hb (hsize.coherent (by simp) hc) hload hlog₂
      rw [hsize.key, (hsize.disk _).record, hlast] at hsome
      rw [hsome]
      rfl
  · rw [if_neg htext, if_neg htext]
    dsimp only
    obtain ⟨fcb, x, -, hfile⟩ := hsize.file
    rw [hrec, hfile]

theorem ReadsOk.suffix {log log' : List (BdosEvent σ)} (h : ReadsOk log') (hlog : log <:+ log') :
    ReadsOk log := fun e he => h e (hlog.subset he)

/-- The length that the library keeps is the one on the disk, unless the file was written. -/
def Settled (b : Bdos σ) (v : View σ) (os : σ) (fp : DFile) : Prop :=
  fp.wrote = false → fileLen b v os fp ≤ fp.len

/-- Moving the position changes nothing about the length. -/
theorem Reads.fileLen {i : Fin 16} {k : ℕ} {st st' : DiskIo σ} (h : Reads b v i k st st') :
    fileLen b v st'.os (st'.dfiles i) = fileLen b v st.os (st.dfiles i) := by
  obtain ⟨fcb, x, hkey, hfile⟩ := h.file
  have hdisk := h.disk (st.dfiles i).fcb.key
  unfold Clib.fileLen textEnd
  rw [h.key, hdisk.size, hdisk.record, hfile]

theorem Settled.reads {i : Fin 16} {k : ℕ} {st st' : DiskIo σ}
    (hs : Settled b v st.os (st.dfiles i)) (h : Reads b v i k st st') :
    Settled b v st'.os (st'.dfiles i) := by
  obtain ⟨fcb, x, hkey, hfile⟩ := h.file
  intro hwrote
  rw [h.fileLen]
  rw [hfile] at hwrote ⊢
  exact hs hwrote

theorem refreshLen_reads (hb : Directory b v) {i : Fin 16} {st : DiskIo σ} (hc : Coherent v st)
    (hs : Settled b v st.os (st.dfiles i)) (hlog : ReadsOk (refreshLen b i st).log) :
    Reads b v i 0 st (refreshLen b i st) := by
  have hlen := reads_diskLen hb i st
  unfold refreshLen at hlog ⊢
  dsimp only at hlog ⊢
  by_cases hmore : (st.dfiles i).len ≤ (st.dfiles i).pos ∧ (!(st.dfiles i).wrote) = true
  · rw [if_pos hmore] at hlog ⊢
    have hlog' : ReadsOk (diskLen b i st).2.log := by
      split_ifs at hlog <;> exact hlog
    have hsame : ((diskLen b i st).2.dfiles i).len = (st.dfiles i).len := by
      obtain ⟨fcb, x, -, hfile⟩ := hlen.file
      rw [hfile]
    rw [diskLen_spec hb hc hlog', hsame, if_neg (not_lt.mpr (hs (by simpa using hmore.2)))]
    exact hlen
  · rw [if_neg hmore]
    exact Reads.refl i st

/-- What a read returns of the bytes: in text mode those before the first Ctrl-Z. -/
def seen (text : Bool) (l : List Byte) : List Byte :=
  if text then l.takeWhile (· ≠ cpmEof) else l

theorem seen_length_le (text : Bool) (l : List Byte) : (seen text l).length ≤ l.length := by
  unfold seen
  split_ifs
  · exact (List.takeWhile_prefix _).length_le
  · exact le_rfl

theorem seen_of_notMem {text : Bool} {l : List Byte} (h : text = true → cpmEof ∉ l) :
    seen text l = l := by
  unfold seen
  split_ifs with htext
  · rw [List.takeWhile_eq_self_iff]
    intro c hc
    simpa using fun heq : c = cpmEof => h htext (heq ▸ hc)
  · rfl

/-- The next `n` bytes of the file, or those that are left. -/
def ahead (v : View σ) (os : σ) (fp : DFile) (n : ℕ) : List Byte :=
  slice (cell cpmEof (v.record os fp.fcb.key)) fp.pos.toNat (min n (fp.len - fp.pos).toNat)

theorem ahead_length (v : View σ) (os : σ) (fp : DFile) (n : ℕ) :
    (ahead v os fp n).length = min n (fp.len - fp.pos).toNat := slice_length _ _ _

theorem setFile_congr (st : DiskIo σ) {i : Fin 16} {f g : DFile → DFile}
    (h : f (st.dfiles i) = g (st.dfiles i)) : st.setFile i f = st.setFile i g := by
  unfold DiskIo.setFile
  rw [h]

theorem toLong_of_lt {n : Int} (h0 : 0 ≤ n) (h : n < 2 ^ 31) : toLong n = n := by
  unfold toLong
  omega

/-- The file when `k` bytes were taken. -/
theorem setFile_taken (st : DiskIo σ) {i : Fin 16} {k : ℕ} (flag : Bool) (hlo : 0 ≤ (st.dfiles i).pos)
    (hlt : (st.dfiles i).pos + k < 2 ^ 31) :
    (st.setFile i fun fp => { fp with ateof := fp.ateof || flag, pos := toLong (fp.pos + k) }) =
      st.setFile i fun fp => { fp with ateof := (st.dfiles i).ateof || flag, pos := fp.pos + k } := by
  apply setFile_congr
  rw [toLong_of_lt (by omega) hlt]

theorem seen_append_of_mem {l m : List Byte} (h : cpmEof ∈ l) :
    seen true (l ++ m) = seen true l := by
  unfold seen
  induction l with
  | nil => cases h
  | cons c l ih =>
      by_cases hc : c = cpmEof
      · simp [hc]
      · simp only [if_true, List.cons_append] at ih ⊢
        rw [List.takeWhile_cons_of_pos (by simpa using hc),
          List.takeWhile_cons_of_pos (by simpa using hc),
          ih ((List.mem_cons.mp h).resolve_left (Ne.symm hc))]

theorem seen_append_of_eq {text : Bool} {l m : List Byte} (h : seen text l = l) :
    seen text (l ++ m) = l ++ seen text m := by
  unfold seen at h ⊢
  cases text with
  | false => rfl
  | true =>
      simp only [if_true] at h ⊢
      exact List.takeWhile_append_of_pos (List.takeWhile_eq_self_iff.mp h)

/-- Reading ahead in two parts. -/
theorem ahead_split (v : View σ) (os : σ) (fp : DFile) {m n : ℕ} (hpos : 0 ≤ fp.pos) (hm : m ≤ n) :
    ahead v os fp n = ahead v os fp m ++
      ahead v os { fp with pos := fp.pos + (ahead v os fp m).length }
        (n - (ahead v os fp m).length) := by
  rw [ahead_length]
  unfold ahead
  generalize hk : min m (fp.len - fp.pos).toNat = k
  have hrest : min n (fp.len - fp.pos).toNat =
      k + min (n - k) (fp.len - (fp.pos + k)).toNat := by omega
  have hnext : (fp.pos + (k : Int)).toNat = fp.pos.toNat + k := by omega
  dsimp only
  rw [hrest, slice_add, hnext]

theorem Reads.ahead {i : Fin 16} {k : ℕ} {st st' : DiskIo σ} (h : Reads b v i k st st') (n : ℕ) :
    ahead v st'.os (st'.dfiles i) n =
      ahead v st.os { st.dfiles i with pos := (st.dfiles i).pos + k } n := by
  obtain ⟨fcb, x, hkey, hfile⟩ := h.file
  unfold Clib.ahead
  rw [h.key, (h.disk _).record, hfile]

theorem record_of_pos {pos : Int} (hpos : 0 ≤ pos) (hlt : pos < 2 ^ 31) :
    (pos / 128 % 2 ^ 24).toNat = pos.toNat / 128 := by
  omega

theorem offset_of_pos {pos : Int} (hpos : 0 ≤ pos) : (pos % 128).toNat = pos.toNat % 128 := by
  omega

/-- The bytes that are wanted, in the record and in the file. -/
theorem piece_eq (n : ℕ) (len pos : Int) :
    min n (if len - pos < 128 - (pos % 128).toNat then (len - pos).toNat else 128 - (pos % 128).toNat) =
      min (min n (128 - (pos % 128).toNat)) (len - pos).toNat := by
  split_ifs <;> omega

/-- The bytes that one round of the loop of `__qread` works on. -/
theorem qreadRound_spec (hb : Directory b v) {i : Fin 16} {n : ℕ} {st : DiskIo σ}
    (hc : Coherent v st) (hs : Settled b v st.os (st.dfiles i)) (hpos : 0 ≤ (st.dfiles i).pos)
    (hlen : (st.dfiles i).len < 2 ^ 31) (hlog : ReadsOk (qreadRound b i n st).2.log) :
    ∃ whole : List Byte,
      whole = ahead v st.os (st.dfiles i) (min n (128 - ((st.dfiles i).pos % 128).toNat)) ∧
      (qreadRound b i n st).1.1 = seen (st.dfiles i).text whole ∧
      ((qreadRound b i n st).1.2 = false → whole = [] ∨ (st.dfiles i).text = true ∧ cpmEof ∈ whole) ∧
      ((qreadRound b i n st).1.2 = true → seen (st.dfiles i).text whole = whole) ∧
      Reads b v i (qreadRound b i n st).1.1.length st (qreadRound b i n st).2 := by
  refine ⟨_, rfl, ?_⟩
  have hgrow : (refreshLen b i st).log <:+ (qreadRound b i n st).2.log := by
    unfold qreadRound
    dsimp only
    by_cases hend : ((refreshLen b i st).dfiles i).len ≤ ((refreshLen b i st).dfiles i).pos
    · rw [if_pos hend]
      exact List.suffix_rfl
    · rw [if_neg hend]
      have hload := (touches_loadRecord (w := false) hb.toTransfers i
        (((refreshLen b i st).dfiles i).pos / 128) (refreshLen b i st)).log
      generalize loadRecord b i _ _ = r at hload ⊢
      by_cases hrc : r.1 ≠ 0
      · rw [if_pos hrc]
        exact hload
      · rw [if_neg hrc]
        exact hload
  have hfresh := refreshLen_reads hb hc hs (hlog.suffix hgrow)
  unfold qreadRound at hlog ⊢
  dsimp only at hlog ⊢
  generalize refreshLen b i st = st₁ at hfresh hlog ⊢
  have hahead : ahead v st.os (st.dfiles i) = ahead v st₁.os (st₁.dfiles i) := by
    funext m
    rw [hfresh.ahead m]
    simp
  have hsame : (st₁.dfiles i).pos = (st.dfiles i).pos ∧ (st₁.dfiles i).len = (st.dfiles i).len ∧
      (st₁.dfiles i).text = (st.dfiles i).text := by
    obtain ⟨fcb, x, hkey, hfile⟩ := hfresh.file
    rw [hfile]
    simp
  obtain ⟨hpos₁, hlen₁, htext₁⟩ := hsame
  have hc₁ := hfresh.coherent (by simp) hc
  rw [hahead, ← hpos₁, ← htext₁]
  rw [← hpos₁] at hpos
  rw [← hlen₁] at hlen
  by_cases hend : (st₁.dfiles i).len ≤ (st₁.dfiles i).pos
  · rw [if_pos hend]
    have hnil : ahead v st₁.os (st₁.dfiles i) (min n (128 - ((st₁.dfiles i).pos % 128).toNat)) =
        [] := by
      unfold ahead
      rw [show ((st₁.dfiles i).len - (st₁.dfiles i).pos).toNat = 0 by omega, Nat.min_zero]
      rfl
    rw [hnil]
    refine ⟨by simp [seen], by simp, by simp, ?_⟩
    have hset := hfresh.trans (reads_setFile i 0 true st₁)
    simpa using hset
  · rw [if_neg hend] at hlog ⊢
    rcases hload : loadRecord b i ((st₁.dfiles i).pos / 128) st₁ with ⟨rc, st₂⟩
    rw [hload] at hlog
    dsimp only at hlog ⊢
    have hreads := hfresh.trans (reads_loadRecord hb i ((st₁.dfiles i).pos / 128) st₁)
    rw [hload] at hreads
    have hlog₂ : ReadsOk st₂.log := by
      split_ifs at hlog <;> exact hlog
    obtain ⟨rfl, hsome⟩ := loadRecord_ok hb hc₁ hload hlog₂
    rw [if_neg (by decide)]
    have hwhole : slice (cellOf st₂.dma) ((st₁.dfiles i).pos % 128).toNat
        (min (min n (128 - ((st₁.dfiles i).pos % 128).toNat))
          ((st₁.dfiles i).len - (st₁.dfiles i).pos).toNat) =
        ahead v st₁.os (st₁.dfiles i) (min n (128 - ((st₁.dfiles i).pos % 128).toNat)) := by
      have hoff := offset_of_pos hpos
      rw [record_of_pos hpos ((not_le.mp hend).trans hlen)] at hsome
      unfold ahead
      rw [slice_cell_of_record hsome (by omega), hoff]
    rw [piece_eq, hwhole]
    have hshort := ahead_length v st₁.os (st₁.dfiles i)
      (min n (128 - ((st₁.dfiles i).pos % 128).toNat))
    generalize ahead v st₁.os (st₁.dfiles i) _ = whole at hshort ⊢
    have hpiece : (if (st₁.dfiles i).text = true then whole.takeWhile fun x => decide (x ≠ cpmEof)
        else whole) = seen (st₁.dfiles i).text whole := rfl
    rw [hpiece]
    refine ⟨rfl, fun hstop => ?_, fun hgo => ?_, ?_⟩
    · have hmem : (st₁.dfiles i).text = true ∧ cpmEof ∈ whole := by simpa using hstop
      exact .inr hmem
    · apply seen_of_notMem
      intro htext
      simpa [htext] using hgo
    · have hle := seen_length_le (st₁.dfiles i).text whole
      have hpos₂ : (st₂.dfiles i).pos = (st₁.dfiles i).pos := by
        obtain ⟨fcb, x, -, hfile⟩ := (reads_loadRecord hb i ((st₁.dfiles i).pos / 128) st₁).file
        rw [hload] at hfile
        rw [hfile]
        simp
      have hset := hreads.trans (reads_setFile i (seen (st₁.dfiles i).text whole).length
        ((st₂.dfiles i).ateof || ((st₁.dfiles i).text && whole.contains cpmEof)) st₂)
      rw [Nat.zero_add] at hset
      dsimp only
      rw [setFile_taken st₂ _ (by omega) (by omega)]
      exact hset

/-- The loop of `__qread`: the bytes that are seen of the next `n`. -/
theorem qreadLoop_spec (hb : Directory b v) (i : Fin 16) (n : ℕ) (out : List Byte) (st : DiskIo σ)
    (hc : Coherent v st) (hs : Settled b v st.os (st.dfiles i)) (hpos : 0 ≤ (st.dfiles i).pos)
    (hlen : (st.dfiles i).len < 2 ^ 31) (hlog : ReadsOk (qreadLoop b i n out st).2.log) :
    (qreadLoop b i n out st).1 = out ++ seen (st.dfiles i).text (ahead v st.os (st.dfiles i) n) ∧
      Reads b v i (seen (st.dfiles i).text (ahead v st.os (st.dfiles i) n)).length st
        (qreadLoop b i n out st).2 := by
  induction n, out, st using qreadLoop.induct b i with
  | case1 out st =>
      have hnil : ahead v st.os (st.dfiles i) 0 = [] := by
        unfold ahead
        rw [Nat.zero_min]
        rfl
      rw [qreadLoop, dif_pos rfl, hnil]
      exact ⟨by simp [seen], by simpa [seen] using Reads.refl i st⟩
  | case2 n out st hn r hstop =>
      rw [qreadLoop, dif_neg hn, dif_pos hstop] at hlog ⊢
      obtain ⟨whole, hwhole, hpiece, hend, hgo, hreads⟩ := qreadRound_spec hb hc hs hpos hlen hlog
      have hsplit := ahead_split v st.os (st.dfiles i) hpos
        (Nat.min_le_left n (128 - ((st.dfiles i).pos % 128).toNat))
      rw [← hwhole] at hsplit
      have hall : seen (st.dfiles i).text (ahead v st.os (st.dfiles i) n) =
          seen (st.dfiles i).text whole := by
        have hcases : whole = [] ∨ (st.dfiles i).text = true ∧ cpmEof ∈ whole := by
          cases hflag : (qreadRound b i n st).1.2 with
          | false => exact hend hflag
          | true =>
              have hnil := hstop.resolve_right (by rw [hflag]; simp)
              rw [hpiece, hgo hflag] at hnil
              exact .inl hnil
        rcases hcases with hnil | ⟨htext, hmem⟩
        · have hzero := congrArg List.length hnil
          rw [hwhole, ahead_length, List.length_nil] at hzero
          have hall : ahead v st.os (st.dfiles i) n = [] := by
            apply List.eq_nil_of_length_eq_zero
            rw [ahead_length]
            omega
          rw [hall, hnil]
        · rw [hsplit, htext, seen_append_of_mem hmem]
      rw [hall, ← hpiece]
      exact ⟨rfl, hreads⟩
  | case3 n out st hn r hstop ih =>
      rw [qreadLoop, dif_neg hn, dif_neg hstop] at hlog ⊢
      have hgrow := (touches_qreadLoop (w := false) hb.toTransfers i (n - r.1.1.length)
        (out ++ r.1.1) r.2).log
      obtain ⟨whole, hwhole, hpiece, hend, hgo, hreads⟩ :=
        qreadRound_spec hb hc hs hpos hlen (hlog.suffix hgrow)
      have hsplit := ahead_split v st.os (st.dfiles i) hpos
        (Nat.min_le_left n (128 - ((st.dfiles i).pos % 128).toNat))
      rw [← hwhole] at hsplit
      rw [not_or, Bool.not_eq_false] at hstop
      rw [hgo hstop.2] at hpiece
      have hfile : (r.2.dfiles i).pos = (st.dfiles i).pos + r.1.1.length ∧
          (r.2.dfiles i).len = (st.dfiles i).len ∧ (r.2.dfiles i).text = (st.dfiles i).text := by
        obtain ⟨fcb, x, -, hfile⟩ := hreads.file
        rw [hfile]
        exact ⟨rfl, rfl, rfl⟩
      obtain ⟨hout, hreads'⟩ := ih (hreads.coherent (by simp) hc) (hs.reads hreads)
        (by rw [hfile.1]; omega) (by rw [hfile.2.1]; exact hlen) hlog
      rw [hreads.ahead, hfile.2.2] at hout hreads'
      rw [hpiece] at hout hreads' hreads
      rw [hsplit, seen_append_of_eq (hgo hstop.2), List.length_append, hpiece, hout]
      exact ⟨List.append_assoc _ _ _, hreads.trans hreads'⟩

/-! ### Writing -/

/-- Every random read found a record or that there is none, and every random write was answered with 0. -/
def WritesOk (log : List (BdosEvent σ)) : Prop :=
  ∀ e ∈ log, (e.fn = .readrand → e.al = 0 ∨ e.al = 1 ∨ e.al = 4) ∧ (e.fn = .writernd → e.al = 0)

instance (log : List (BdosEvent σ)) : Decidable (WritesOk log) :=
  inferInstanceAs (Decidable (∀ e ∈ log, _))

theorem WritesOk.suffix {log log' : List (BdosEvent σ)} (h : WritesOk log') (hlog : log <:+ log') :
    WritesOk log := fun e he => h e (hlog.subset he)

theorem WritesOk.stored {log : List (BdosEvent σ)} (h : WritesOk log) : StoredWritesOk v log :=
  fun e he hfn hal => absurd ((h e he).2 hfn) hal

/-- The file after `data` was written at its position. -/
def DFile.grown (fp : DFile) (data : List Byte) : DFile :=
  { fp with
    pos := fp.pos + data.length
    len := if data = [] then fp.len else max fp.len (fp.pos + data.length) }

theorem grown_append (fp : DFile) (l m : List Byte) :
    (fp.grown l).grown m = fp.grown (l ++ m) := by
  unfold DFile.grown
  cases l with
  | nil => simp
  | cons c l =>
      cases m with
      | nil => simp
      | cons c' m =>
          simp only [List.cons_append, List.length_cons, List.length_append, reduceCtorEq, if_false,
            DFile.mk.injEq, true_and, and_true]
          constructor
          · push_cast
            omega
          · rw [max_assoc]
            congr 1
            push_cast
            omega

/-- The number of records that a file of this size has with `data` from `p` on. -/
def grownSize (size p : ℕ) (data : List Byte) : ℕ :=
  if data = [] then size else max size ((p + data.length - 1) / 128 + 1)

theorem grownSize_append (size p : ℕ) (l m : List Byte) :
    grownSize (grownSize size p l) (p + l.length) m = grownSize size p (l ++ m) := by
  unfold grownSize
  cases l with
  | nil => simp
  | cons c l =>
      cases m with
      | nil => simp
      | cons c' m =>
          simp only [List.cons_append, List.length_cons, List.length_append, reduceCtorEq, if_false]
          omega

/-- Two names of different files: no function on the one changes anything about the other. -/
def Apart (b : Bdos σ) (v : View σ) (k l : Key) : Prop :=
  ∀ fn, fn ≠ .rename → ∀ fcb dma os, Fcb.key fcb = k → SameAt v os (b.call fn fcb dma os).os l

/-- Names that do not mean the same file are names of different files. -/
theorem apart_of_not_meets (hb : Directory b v) {k l : Key} (h : ¬ k.Meets l) : Apart b v k l := by
  intro fn hrename fcb dma os hkey
  subst hkey
  obtain ⟨hsize, hpresent⟩ := hb.others fn hrename fcb dma os l h
  refine ⟨?_, hsize, hpresent⟩
  by_cases hwrite : fn = .writernd
  · subst hwrite
    by_cases hal : (b.call .writernd fcb dma os).al = 0
    · funext r
      exact hb.writeOther fcb dma os l r hal (Or.inl h)
    · exact congrFun (hb.writeError fcb dma os hal) l
  · by_cases hdelete : fn = .delete
    · subst hdelete
      exact hb.delete fcb dma os l h
    · exact congrFun (hb.quiet fn hwrite hdelete hrename fcb dma os) l

/-- What a function leaves alone that writes `data` at the position of the file `i`. -/
structure Writes (b : Bdos σ) (v : View σ) (i : Fin 16) (data : List Byte) (st st' : DiskIo σ) : Prop
    extends Touches v true i st st' where
  cells : cell cpmEof (v.record st'.os (st.dfiles i).fcb.key) =
    overlay (cell cpmEof (v.record st.os (st.dfiles i).fcb.key)) (st.dfiles i).pos.toNat data
  size : v.size st'.os (st.dfiles i).fcb.key =
    grownSize (v.size st.os (st.dfiles i).fcb.key) (st.dfiles i).pos.toNat data
  present : v.present st.os (st.dfiles i).fcb.key → v.present st'.os (st.dfiles i).fcb.key
  otherFiles : ∀ l, Apart b v (st.dfiles i).fcb.key l → SameAt v st.os st'.os l
  count : KeepsCount b v → v.count st'.os = v.count st.os
  redirIn : st'.redirIn = st.redirIn
  redirOut : st'.redirOut = st.redirOut
  file : ∃ fcb x, Fcb.key fcb = (st.dfiles i).fcb.key ∧
    st'.dfiles i = { (st.dfiles i).grown data with fcb := fcb, ateof := x }

theorem Writes.refl (i : Fin 16) (st : DiskIo σ) : Writes b v i [] st st where
  toTouches := Touches.refl i st
  cells := (overlay_nil _ _).symm
  size := rfl
  present h := h
  otherFiles l _ := SameAt.refl st.os l
  count _ := rfl
  redirIn := rfl
  redirOut := rfl
  file := ⟨_, (st.dfiles i).ateof, rfl, by simp [DFile.grown]⟩

theorem Writes.key {i : Fin 16} {data : List Byte} {st st' : DiskIo σ}
    (h : Writes b v i data st st') : (st'.dfiles i).fcb.key = (st.dfiles i).fcb.key := by
  obtain ⟨fcb, x, hkey, hfile⟩ := h.file
  rw [hfile]
  exact hkey

theorem Writes.pos {i : Fin 16} {data : List Byte} {st st' : DiskIo σ}
    (h : Writes b v i data st st') : (st'.dfiles i).pos = (st.dfiles i).pos + data.length := by
  obtain ⟨fcb, x, hkey, hfile⟩ := h.file
  rw [hfile]
  rfl

theorem Writes.trans {i : Fin 16} {l m : List Byte} {st st₁ st₂ : DiskIo σ}
    (hpos : 0 ≤ (st.dfiles i).pos) (h : Writes b v i l st st₁) (h' : Writes b v i m st₁ st₂) :
    Writes b v i (l ++ m) st st₂ := by
  have hkey := h.key
  have hnext : (st₁.dfiles i).pos.toNat = (st.dfiles i).pos.toNat + l.length := by
    rw [h.pos]
    omega
  refine ⟨h.toTouches.trans h'.toTouches, ?_, ?_, fun hp => ?_, fun k hk => ?_, fun hb => ?_,
    h'.redirIn.trans h.redirIn, h'.redirOut.trans h.redirOut, ?_⟩
  · have hcells := h'.cells
    rw [hkey, hnext, h.cells, overlay_append] at hcells
    exact hcells
  · have hsize := h'.size
    rw [hkey, hnext, h.size, grownSize_append] at hsize
    exact hsize
  · have := h'.present
    rw [hkey] at this
    exact this (h.present hp)
  · have := h'.otherFiles k
    rw [hkey] at this
    exact (h.otherFiles k hk).trans (this hk)
  · exact (h'.count hb).trans (h.count hb)
  · obtain ⟨fcb, x, -, hfile⟩ := h.file
    obtain ⟨fcb', x', hkey', hfile'⟩ := h'.file
    refine ⟨fcb', x', hkey'.trans hkey, hfile'.trans ?_⟩
    rw [hfile, ← grown_append]
    rfl

/-- The record that is loaded for writing: what is on the disk, or Ctrl-Z. -/
theorem loadRecord_write (hb : Directory b v) {i : Fin 16} {rec rc : Int} {st st₁ : DiskIo σ}
    (hc : Coherent v st) (hload : loadRecord b i rec st = (rc, st₁)) (hlog : WritesOk st₁.log) :
    0 ≤ rc ∧ ((v.record st.os (st.dfiles i).fcb.key (rec % 2 ^ 24).toNat).getD fun _ => cpmEof) =
      st₁.dma := by
  obtain ⟨rfl, hsome⟩ | ⟨e, he, hfn, hres⟩ := loadRecord_spec hb hc hload
  · rw [hsome]
    exact ⟨le_rfl, rfl⟩
  · rcases hres with ⟨rfl, -, hdma, hnone⟩ | ⟨-, h0, h1, h4⟩
    · rw [hnone, hdma]
      exact ⟨Int.one_nonneg, rfl⟩
    · rcases (hlog e he).1 hfn with h | h | h
      · exact absurd h h0
      · exact absurd h h1
      · exact absurd h h4

/-- A round of the loop of `__qwrite` writes the part of the data that is in one record. -/
theorem qwriteRound_spec (hb : Directory b v) {i : Fin 16} {rest : List Byte} {st : DiskIo σ}
    (hc : Coherent v st) (hpos : 0 ≤ (st.dfiles i).pos) (hlt : (st.dfiles i).pos < 2 ^ 31)
    (hrest : rest ≠ []) (hlog : WritesOk (qwriteRound b i rest st).2.log) :
    (qwriteRound b i rest st).1 = min rest.length (128 - ((st.dfiles i).pos % 128).toNat) ∧
      Writes b v i (rest.take (min rest.length (128 - ((st.dfiles i).pos % 128).toNat))) st
        (qwriteRound b i rest st).2 := by
  have htouch := touches_qwriteRound hb.toTransfers i rest st
  obtain ⟨rc, st₁, hload, hres⟩ := qwriteRound_cases b i rest st
  have hreads := reads_loadRecord hb i ((st.dfiles i).pos / 128) st
  rw [hload] at hreads
  have hrec := record_of_pos hpos hlt
  have hoff := offset_of_pos hpos
  have hn : min rest.length (128 - (st.dfiles i).pos.toNat % 128) ≤ rest.length := Nat.min_le_left _ _
  rw [hoff] at hres ⊢
  rcases hres with ⟨hneg, heq⟩ | ⟨-, al, st₂, hcall, hres⟩
  · rw [heq] at hlog
    exact absurd (loadRecord_write hb hc hload hlog).1 (not_le.mpr hneg)
  · have hal := congrArg Prod.fst hcall
    have hst : st₂ = _ := (congrArg Prod.snd hcall).symm
    simp only [bdosFile, setFile_self, setFile_dma, setFile_os, setFile_log] at hal hst
    have hlog₂ : WritesOk st₂.log := by
      rcases hres with ⟨-, heq⟩ | ⟨-, heq⟩
      · rwa [heq] at hlog
      · rw [heq] at hlog
        exact hlog
    have hlog₁ : WritesOk st₁.log := hlog₂.suffix (by rw [hst]; exact List.suffix_cons _ _)
    obtain ⟨-, hdma⟩ := loadRecord_write hb hc hload hlog₁
    rw [hrec] at hdma
    have hevent : (⟨.writernd, fcbSetRecord (st₁.dfiles i).fcb ((st.dfiles i).pos / 128),
        paste st₁.dma ((st.dfiles i).pos.toNat % 128)
          (rest.take (min rest.length (128 - (st.dfiles i).pos.toNat % 128))), st₁.os, al⟩ :
        BdosEvent σ) ∈ st₂.log := by
      rw [hst, ← hal]
      exact List.mem_cons_self
    have hzero : al = 0 := (hlog₂ _ hevent).2 rfl
    obtain ⟨-, heq⟩ := hres.resolve_left fun h => h.1 hzero
    rw [heq] at htouch ⊢
    have hkey := (fcbSetRecord_key (st₁.dfiles i).fcb ((st.dfiles i).pos / 128)).trans hreads.key
    have hfrec := (fcbSetRecord_rec (st₁.dfiles i).fcb ((st.dfiles i).pos / 128)).trans hrec
    have hlen : (rest.take (min rest.length (128 - (st.dfiles i).pos.toNat % 128))).length =
        min rest.length (128 - (st.dfiles i).pos.toNat % 128) := by
      rw [List.length_take, Nat.min_eq_left hn]
    have hdata : rest.take (min rest.length (128 - (st.dfiles i).pos.toNat % 128)) ≠ [] := by
      intro hnil
      rw [hnil, List.length_nil] at hlen
      have := List.length_pos_of_ne_nil hrest
      omega
    have hrecords : v.record st₁.os = v.record st.os := funext fun l => (hreads.disk l).record
    have hfile₂ : st₂.dfiles i = { st₁.dfiles i with fcb := (st₂.dfiles i).fcb } := by
      simp [hst]
    generalize rest.take _ = data at hst hal hlen hdata htouch ⊢
    rw [← hlen] at htouch ⊢
    generalize fcbSetRecord (st₁.dfiles i).fcb _ = fcb at hst hal hkey hfrec
    have hos : st₂.os = (b.call .writernd fcb
        (paste st₁.dma ((st.dfiles i).pos.toNat % 128) data) st₁.os).os := by
      rw [hst]
    have hok := hal.trans hzero
    have hself := hb.write _ _ _ hok
    have hother := hb.writeOther fcb (paste st₁.dma ((st.dfiles i).pos.toNat % 128) data) st₁.os
    have hsize := hb.writeSize _ _ _ hok
    rw [← hos, hkey, hfrec] at hself
    rw [← hos, hkey, hfrec, (hreads.disk _).size] at hsize
    refine ⟨rfl, htouch, ?_, ?_, fun hp => ?_, fun l hl => ?_, fun hk => ?_, ?_, ?_, ?_⟩
    · apply cell_of_paste (by omega)
      · rw [hdma]
        exact hself
      · intro r hr
        show v.record st₂.os _ r = _
        rw [hos, hother _ r hok (Or.inr ⟨hkey.symm, by rwa [hfrec]⟩), hrecords]
    · show v.size st₂.os _ = _
      rw [hsize, grownSize, if_neg hdata]
      congr 2
      have := List.length_pos_of_ne_nil hdata
      omega
    · have hpresent := hb.writePresent fcb
        (paste st₁.dma ((st.dfiles i).pos.toNat % 128) data) st₁.os
      rw [← hos, hkey] at hpresent
      exact hpresent ((hreads.disk _).present.mpr hp)
    · refine (hreads.disk l).trans ?_
      show SameAt v st₁.os st₂.os l
      rw [hos]
      exact hl .writernd (by decide) _ _ _ hkey
    · rw [← hreads.count hk]
      funext l
      show v.count st₂.os l = _
      rw [hos]
      exact hk.countSame .writernd (by decide) (by decide) (by decide) (by decide) _ _ _ l
    · exact (congrArg DiskIo.redirIn hst).trans hreads.redirIn
    · exact (congrArg DiskIo.redirOut hst).trans hreads.redirOut
    · obtain ⟨fcb', x, hkey', hfile⟩ := hreads.file
      have hbound := hb.size_le st₂.os (st.dfiles i).fcb.key
      have hpos₁ : (st₁.dfiles i).pos = (st.dfiles i).pos := by
        rw [hfile]
        simp
      have hnext : toLong ((st₁.dfiles i).pos + data.length) = (st.dfiles i).pos + data.length := by
        rw [hpos₁]
        exact toLong_of_lt (by omega) (by omega)
      have hfcb : (st₂.dfiles i).fcb.key = (st.dfiles i).fcb.key := by
        rw [← hkey, ← hb.key .writernd (by simp) fcb
          (paste st₁.dma ((st.dfiles i).pos.toNat % 128) data) st₁.os]
        simp [hst]
      refine ⟨(st₂.dfiles i).fcb, x, hfcb, ?_⟩
      rw [setFile_self]
      dsimp only
      rw [hfile₂]
      dsimp only
      rw [hnext, hfile, DFile.grown, if_neg hdata]
      simp only [DFile.mk.injEq, true_and, and_true]
      split_ifs <;> omega

/-- No file is so large that its length would not fit a `long`. -/
theorem Writes.pos_le (hb : Directory b v) {i : Fin 16} {data : List Byte} {st st' : DiskIo σ}
    (h : Writes b v i data st st') (hpos : 0 ≤ (st.dfiles i).pos) (hdata : data ≠ []) :
    0 ≤ (st'.dfiles i).pos ∧ (st'.dfiles i).pos ≤ 2 ^ 25 := by
  have hbound := hb.size_le st'.os (st.dfiles i).fcb.key
  rw [h.size, grownSize, if_neg hdata] at hbound
  have := List.length_pos_of_ne_nil hdata
  rw [h.pos]
  omega

/-- The loop of `__qwrite` writes all the data. -/
theorem qwriteLoop_spec (hb : Directory b v) (i : Fin 16) (rest : List Byte) (total : ℕ)
    (st : DiskIo σ) (hc : Coherent v st) (hpos : 0 ≤ (st.dfiles i).pos)
    (hlt : (st.dfiles i).pos < 2 ^ 31) (hlog : WritesOk (qwriteLoop b i rest total st).2.log) :
    (qwriteLoop b i rest total st).1 = total + rest.length ∧
      Writes b v i rest st (qwriteLoop b i rest total st).2 := by
  induction rest, total, st using qwriteLoop.induct b i with
  | case1 total st =>
      rw [qwriteLoop, dif_pos rfl]
      exact ⟨rfl, Writes.refl i st⟩
  | case2 rest total st hr r h0 =>
      rw [qwriteLoop, dif_neg hr, dif_pos h0] at hlog
      have hn : r.1 = _ := (qwriteRound_spec hb hc hpos hlt hr hlog).1
      have := List.length_pos_of_ne_nil hr
      omega
  | case3 rest total st hr r h0 ih =>
      rw [qwriteLoop, dif_neg hr, dif_neg h0] at hlog ⊢
      have hgrow := (touches_qwriteLoop hb.toTransfers i (rest.drop r.1) (total + r.1) r.2).log
      have hn : r.1 = min rest.length (128 - ((st.dfiles i).pos % 128).toNat) :=
        (qwriteRound_spec hb hc hpos hlt hr (hlog.suffix hgrow)).1
      have hwrites : Writes b v i (rest.take r.1) st r.2 :=
        hn ▸ (qwriteRound_spec hb hc hpos hlt hr (hlog.suffix hgrow)).2
      have htake : rest.take r.1 ≠ [] := by
        rw [Ne, List.take_eq_nil_iff, not_or]
        exact ⟨h0, hr⟩
      obtain ⟨hpos', hle⟩ := hwrites.pos_le hb hpos htake
      have hc' := hwrites.coherent (fun _ => (hlog.suffix hgrow).stored) hc
      obtain ⟨htotal, hrest⟩ := ih hc' hpos' (by omega) hlog
      constructor
      · have hle : r.1 ≤ rest.length := hn ▸ Nat.min_le_left _ _
        have hlen := List.length_drop (i := r.1) (l := rest)
        show (qwriteLoop b i (rest.drop r.1) (total + r.1) r.2).1 = total + rest.length
        omega
      · have hall := hwrites.trans hpos hrest
        rwa [List.take_append_drop] at hall

end OpenWatcom.Clib
