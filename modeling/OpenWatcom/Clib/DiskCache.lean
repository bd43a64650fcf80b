import OpenWatcom.Lib.Runs
import OpenWatcom.Clib.DiskIo
import OpenWatcom.Clib.RamBdos

/-! # The record in the buffer

The one buffer of `diskio.c` is marked as holding a record of an open file.  `CacheInv` says that
it does.  `Touches` is what the helper functions that work on one file may change; the marks stay true
under all of them but for a random write that fails on a record of the disk, and among the calls on names for
the directory searches, which put a directory record into the buffer, and for those that take the
record away from the disk. -/

namespace OpenWatcom.Clib

variable {σ : Type} {b : Bdos σ} {v : View σ} {w : Bool}

/-! ### Coherence -/

/-- What the buffer is marked to hold is on the disk. -/
def Coherent (v : View σ) (st : DiskIo σ) : Prop :=
  ∀ i, st.cacheFp = some i →
    v.record st.os (st.dfiles i).fcb.key (st.cacheRec % 2 ^ 24).toNat = some st.dma

/-- The buffer is marked for an open file, and what it is marked to hold is on the disk. -/
structure CacheInv (v : View σ) (st : DiskIo σ) : Prop where
  coherent : Coherent v st
  opened : ∀ i, st.cacheFp = some i → (st.dfiles i).used = true ∧ (st.dfiles i).isCon = false

theorem Coherent.of_none {st : DiskIo σ} (h : st.cacheFp = none) : Coherent v st := by
  intro i hi
  rw [h] at hi
  cases hi

/-- Coherence looks at the marks, the buffer, and the record that is marked. -/
theorem Coherent.of_same {st st' : DiskIo σ} (h : Coherent v st) (hfp : st'.cacheFp = st.cacheFp)
    (hrec : st'.cacheRec = st.cacheRec) (hdma : st'.dma = st.dma)
    (hkey : ∀ i, st.cacheFp = some i → (st'.dfiles i).fcb.key = (st.dfiles i).fcb.key)
    (hos : ∀ i, st.cacheFp = some i →
      v.record st'.os (st.dfiles i).fcb.key (st.cacheRec % 2 ^ 24).toNat =
        v.record st.os (st.dfiles i).fcb.key (st.cacheRec % 2 ^ 24).toNat) : Coherent v st' := by
  intro i hi
  rw [hfp] at hi
  rw [hrec, hdma, hkey i hi, hos i hi]
  exact h i hi

theorem fcbSetRecord_key (fcb : Fcb) (rec : Int) : (fcbSetRecord fcb rec).key = fcb.key :=
  Fcb.key_setRec fcb _

theorem fcbSetRecord_rec (fcb : Fcb) (rec : Int) :
    (fcbSetRecord fcb rec).rec = (rec % 2 ^ 24).toNat :=
  Fcb.rec_setRec fcb (by omega)

@[simp] theorem setFile_self (st : DiskIo σ) (i : Fin 16) (f : DFile → DFile) :
    (st.setFile i f).dfiles i = f (st.dfiles i) := Function.update_self _ _ _

theorem setFile_of_ne (st : DiskIo σ) {i j : Fin 16} (f : DFile → DFile) (h : j ≠ i) :
    (st.setFile i f).dfiles j = st.dfiles j := Function.update_of_ne h _ _

@[simp] theorem setFile_dma (st : DiskIo σ) (i : Fin 16) (f : DFile → DFile) :
    (st.setFile i f).dma = st.dma := rfl

@[simp] theorem setFile_os (st : DiskIo σ) (i : Fin 16) (f : DFile → DFile) :
    (st.setFile i f).os = st.os := rfl

@[simp] theorem setFile_cacheFp (st : DiskIo σ) (i : Fin 16) (f : DFile → DFile) :
    (st.setFile i f).cacheFp = st.cacheFp := rfl

@[simp] theorem setFile_log (st : DiskIo σ) (i : Fin 16) (f : DFile → DFile) :
    (st.setFile i f).log = st.log := rfl

/-! ### Work on one file -/

/-- No random write failed to change a record of the disk: the record was not there, or it was the same
before. -/
def StoredWritesOk (v : View σ) (log : List (BdosEvent σ)) : Prop :=
  ∀ e ∈ log, e.fn = .writernd → e.al ≠ 0 →
    v.record e.os e.fcb.key e.fcb.rec = none ∨ v.record e.os e.fcb.key e.fcb.rec = some e.dma

instance (v : View σ) (log : List (BdosEvent σ)) : Decidable (StoredWritesOk v log) :=
  inferInstanceAs (Decidable (∀ e ∈ log, _))

theorem StoredWritesOk.suffix {log log' : List (BdosEvent σ)} (h : StoredWritesOk v log')
    (hlog : log <:+ log') : StoredWritesOk v log := fun e he => h e (hlog.subset he)

/-- What happens to the marks, the table and the log while a function works on the file `i`; `writes` is for
the functions that write records. -/
structure Touches (v : View σ) (writes : Bool) (i : Fin 16) (st st' : DiskIo σ) : Prop where
  log : st.log <:+ st'.log
  others : ∀ j, j ≠ i → st'.dfiles j = st.dfiles j
  used : (st'.dfiles i).used = (st.dfiles i).used
  isCon : (st'.dfiles i).isCon = (st.dfiles i).isCon
  cache : ∀ j, st'.cacheFp = some j → st.cacheFp = some j ∨ j = i
  coherent : (writes = true → StoredWritesOk v st'.log) → Coherent v st → Coherent v st'

theorem Touches.refl (i : Fin 16) (st : DiskIo σ) : Touches v w i st st :=
  ⟨List.suffix_rfl, fun _ _ => rfl, rfl, rfl, fun _ h => .inl h, fun _ h => h⟩

theorem Touches.trans {i : Fin 16} {st st₁ st₂ : DiskIo σ} (h : Touches v w i st st₁)
    (h' : Touches v w i st₁ st₂) : Touches v w i st st₂ where
  log := h.log.trans h'.log
  others j hj := (h'.others j hj).trans (h.others j hj)
  used := h'.used.trans h.used
  isCon := h'.isCon.trans h.isCon
  cache j hj := by
    rcases h'.cache j hj with hj | hj
    · exact h.cache j hj
    · exact .inr hj
  coherent hok hc := h'.coherent hok (h.coherent (fun hw => (hok hw).suffix h'.log) hc)

/-- Work on an open file keeps the invariant. -/
theorem CacheInv.touch {i : Fin 16} {st st' : DiskIo σ} (h : CacheInv v st)
    (ht : Touches v w i st st') (hok : w = true → StoredWritesOk v st'.log)
    (hused : (st.dfiles i).used = true) (hcon : (st.dfiles i).isCon = false) : CacheInv v st' := by
  refine ⟨ht.coherent hok h.coherent, fun j hj => ?_⟩
  by_cases hji : j = i
  · subst hji
    exact ⟨ht.used.trans hused, ht.isCon.trans hcon⟩
  · rw [ht.others j hji]
    rcases ht.cache j hj with hj | hj
    · exact h.opened j hj
    · exact absurd hj hji

/-- Changing fields of the file other than its name and state. -/
theorem touches_setFile (i : Fin 16) (st : DiskIo σ) (f : DFile → DFile)
    (hkey : (f (st.dfiles i)).fcb.key = (st.dfiles i).fcb.key)
    (hused : (f (st.dfiles i)).used = (st.dfiles i).used)
    (hcon : (f (st.dfiles i)).isCon = (st.dfiles i).isCon) : Touches v w i st (st.setFile i f) where
  log := List.suffix_rfl
  others j hj := setFile_of_ne st f hj
  used := by rw [setFile_self, hused]
  isCon := by rw [setFile_self, hcon]
  cache j hj := .inl hj
  coherent _ hc := hc.of_same rfl rfl rfl (fun j _ => by
    by_cases hj : j = i
    · subst hj
      rw [setFile_self, hkey]
    · rw [setFile_of_ne st f hj]) fun _ _ => rfl

/-- A BDOS function that neither transfers a record nor changes records or the name. -/
theorem touches_bdosFile (hb : Transfers b v) (i : Fin 16) (st : DiskIo σ) {f : BdosFn}
    (hf : f = .closeFile ∨ f = .attrib ∨ f = .filesize) :
    Touches v w i st (bdosFile b f i st).2 where
  log := List.suffix_cons _ _
  others j hj := Function.update_of_ne hj _ _
  used := by simp [bdosFile]
  isCon := by simp [bdosFile]
  cache j hj := .inl hj
  coherent _ hc := by
    refine hc.of_same rfl rfl ?_ (fun j _ => ?_) fun j _ => ?_
    · exact hb.buffer f (by rcases hf with rfl | rfl | rfl <;> decide)
        (by rcases hf with rfl | rfl | rfl <;> decide) _ _ _
    · by_cases hj : j = i
      · subst hj
        simp only [bdosFile, setFile_self]
        exact hb.key f (by rcases hf with rfl | rfl | rfl <;> simp) _ _ _
      · simp only [bdosFile, setFile_of_ne st _ hj]
    · have hq := hb.quiet f (by rcases hf with rfl | rfl | rfl <;> decide)
        (by rcases hf with rfl | rfl | rfl <;> decide)
        (by rcases hf with rfl | rfl | rfl <;> decide) (st.dfiles i).fcb st.dma st.os
      simp only [bdosFile, hq]

/-- What `load_record` does: nothing if the buffer holds the record, otherwise a random read. -/
theorem loadRecord_cases (b : Bdos σ) (i : Fin 16) (rec : Int) (st : DiskIo σ) :
    (st.cacheFp = some i ∧ st.cacheRec = rec ∧ loadRecord b i rec st = (0, st)) ∨
      ∃ rc st₁, bdosFile b .readrand i
          (st.setFile i fun fp => { fp with fcb := fcbSetRecord fp.fcb rec }) = (rc, st₁) ∧
        (rc = 0 ∧ loadRecord b i rec st = (0, { st₁ with cacheFp := some i, cacheRec := rec }) ∨
          (rc = 1 ∨ rc = 4) ∧ loadRecord b i rec st =
            (1, { st₁ with dma := fun _ => cpmEof, cacheFp := none }) ∨
          rc ≠ 0 ∧ rc ≠ 1 ∧ rc ≠ 4 ∧ loadRecord b i rec st = (-1, { st₁ with cacheFp := none })) := by
  unfold loadRecord
  by_cases hhit : st.cacheFp = some i ∧ st.cacheRec = rec
  · exact .inl ⟨hhit.1, hhit.2, if_pos hhit⟩
  · rw [if_neg hhit]
    dsimp only
    rcases hcall : bdosFile b .readrand i
      (st.setFile i fun fp => { fp with fcb := fcbSetRecord fp.fcb rec }) with ⟨rc, st₁⟩
    refine .inr ⟨rc, st₁, rfl, ?_⟩
    dsimp only
    by_cases h14 : rc = 1 ∨ rc = 4
    · rw [if_pos h14]
      exact .inr (.inl ⟨h14, rfl⟩)
    · rw [if_neg h14]
      by_cases h0 : rc = 0
      · rw [if_neg (not_not.mpr h0)]
        exact .inl ⟨h0, rfl⟩
      · rw [if_pos h0]
        exact .inr (.inr ⟨h0, fun h => h14 (.inl h), fun h => h14 (.inr h), rfl⟩)

/-- Without an error the buffer holds the record and is marked, or it is full of Ctrl-Z and not
marked. -/
theorem loadRecord_result {i : Fin 16} {rec rc : Int} {st st₁ : DiskIo σ}
    (h : loadRecord b i rec st = (rc, st₁)) (hrc : 0 ≤ rc) :
    rc = 0 ∧ st₁.cacheFp = some i ∧ st₁.cacheRec = rec ∨
      rc = 1 ∧ st₁.cacheFp = none ∧ st₁.dma = fun _ => cpmEof := by
  obtain ⟨hfp, hrec, heq⟩ | ⟨al, st₂, -, hres⟩ := loadRecord_cases b i rec st
  · rw [heq] at h
    obtain ⟨rfl, rfl⟩ := Prod.mk.inj h
    exact .inl ⟨rfl, hfp, hrec⟩
  · rcases hres with ⟨-, heq⟩ | ⟨-, heq⟩ | ⟨-, -, -, heq⟩
    · rw [heq] at h
      obtain ⟨rfl, rfl⟩ := Prod.mk.inj h
      exact .inl ⟨rfl, rfl, rfl⟩
    · rw [heq] at h
      obtain ⟨rfl, rfl⟩ := Prod.mk.inj h
      exact .inr ⟨rfl, rfl, rfl⟩
    · rw [heq] at h
      obtain ⟨rfl, -⟩ := Prod.mk.inj h
      exact absurd hrc (by decide)

theorem touches_loadRecord (hb : Transfers b v) (i : Fin 16) (rec : Int) (st : DiskIo σ) :
    Touches v w i st (loadRecord b i rec st).2 := by
  obtain ⟨-, -, heq⟩ | ⟨rc, st₁, hcall, hres⟩ := loadRecord_cases b i rec st
  · rw [heq]
    exact Touches.refl i st
  · have hrc := congrArg Prod.fst hcall
    have hst : st₁ = _ := (congrArg Prod.snd hcall).symm
    simp only [bdosFile, setFile_self] at hrc hst
    -- the table after the call of the BDOS
    have hothers : ∀ j, j ≠ i → st₁.dfiles j = st.dfiles j := by
      intro j hj
      simp only [hst, setFile_of_ne _ _ hj]
    have hused : (st₁.dfiles i).used = (st.dfiles i).used := by simp [hst]
    have hcon : (st₁.dfiles i).isCon = (st.dfiles i).isCon := by simp [hst]
    have hlog : st.log <:+ st₁.log := by
      rw [hst]
      exact List.suffix_cons _ _
    have hnone : ∀ st₂ : DiskIo σ, st₂.dfiles = st₁.dfiles → st₂.log = st₁.log →
        st₂.cacheFp = none → Touches v w i st st₂ := by
      intro st₂ hfiles hlog₂ hfp
      refine ⟨by rw [hlog₂]; exact hlog, fun j hj => by rw [hfiles, hothers j hj],
        by rw [hfiles, hused], by rw [hfiles, hcon], fun j hj => ?_,
        fun _ _ => Coherent.of_none hfp⟩
      rw [hfp] at hj
      cases hj
    rcases hres with ⟨h0, heq⟩ | ⟨-, heq⟩ | ⟨-, -, -, heq⟩
    · rw [heq]
      refine ⟨hlog, hothers, hused, hcon, fun j hj => .inr (Option.some.inj hj).symm,
        fun _ _ j hj => ?_⟩
      obtain rfl : i = j := Option.some.inj hj
      have hread := hb.read _ _ _ (hrc.trans h0)
      rw [fcbSetRecord_key, fcbSetRecord_rec] at hread
      simp only [hst, setFile_self, hb.key .readrand (by simp), fcbSetRecord_key]
      rw [hb.quiet .readrand (by decide) (by decide) (by decide)]
      exact hread
    · rw [heq]
      exact hnone _ rfl rfl rfl
    · rw [heq]
      exact hnone _ rfl rfl rfl

theorem touches_textEof (hb : Transfers b v) (i : Fin 16) (st : DiskIo σ) :
    Touches v w i st (textEof b i st).2 := by
  have hsize := touches_bdosFile (w := w) hb i st (f := .filesize) (by simp)
  unfold textEof
  dsimp only
  generalize (bdosFile b .filesize i st).2 = st₁ at hsize ⊢
  by_cases h0 : ((st₁.dfiles i).fcb.rec : Int) = 0
  · rw [if_pos h0]
    exact hsize
  · rw [if_neg h0]
    have hload := hsize.trans (touches_loadRecord (w := w) hb i (((st₁.dfiles i).fcb.rec : Int) - 1) st₁)
    split_ifs <;> exact hload

theorem touches_diskLen (hb : Transfers b v) (i : Fin 16) (st : DiskIo σ) :
    Touches v w i st (diskLen b i st).2 := by
  unfold diskLen
  by_cases htext : (st.dfiles i).text = true
  · rw [if_pos htext]
    exact touches_textEof hb i st
  · rw [if_neg htext]
    exact touches_bdosFile hb i st (f := .filesize) (by simp)

theorem touches_refreshLen (hb : Transfers b v) (i : Fin 16) (st : DiskIo σ) :
    Touches v w i st (refreshLen b i st) := by
  have hlen := touches_diskLen (w := w) hb i st
  unfold refreshLen
  dsimp only
  by_cases hmore : (st.dfiles i).len ≤ (st.dfiles i).pos ∧ (!(st.dfiles i).wrote) = true
  · rw [if_pos hmore]
    split_ifs
    · exact hlen.trans (touches_setFile i _ _ rfl rfl rfl)
    · exact hlen
  · rw [if_neg hmore]
    exact Touches.refl i st

theorem touches_qreadRound (hb : Transfers b v) (i : Fin 16) (n : ℕ) (st : DiskIo σ) :
    Touches v w i st (qreadRound b i n st).2 := by
  have hfresh := touches_refreshLen (w := w) hb i st
  unfold qreadRound
  dsimp only
  generalize refreshLen b i st = st₁ at hfresh ⊢
  have hload := hfresh.trans (touches_loadRecord (w := w) hb i ((st₁.dfiles i).pos / 128) st₁)
  by_cases hend : (st₁.dfiles i).len ≤ (st₁.dfiles i).pos
  · rw [if_pos hend]
    dsimp only
    exact hfresh.trans (touches_setFile i st₁ _ rfl rfl rfl)
  · rw [if_neg hend]
    generalize loadRecord b i ((st₁.dfiles i).pos / 128) st₁ = r at hload ⊢
    apply hload.trans
    by_cases hrc : r.1 = 0
    · rw [if_neg (not_not.mpr hrc)]
      dsimp only
      exact touches_setFile i r.2 _ rfl rfl rfl
    · rw [if_pos hrc]
      dsimp only
      exact touches_setFile i r.2 _ rfl rfl rfl

theorem touches_qreadLoop (hb : Transfers b v) (i : Fin 16) (n : ℕ) (out : List Byte)
    (st : DiskIo σ) : Touches v w i st (qreadLoop b i n out st).2 := by
  induction n, out, st using qreadLoop.induct b i with
  | case1 out st =>
      rw [qreadLoop, dif_pos rfl]
      exact Touches.refl i st
  | case2 n out st hn r hr =>
      rw [qreadLoop, dif_neg hn, dif_pos hr]
      exact touches_qreadRound hb i n st
  | case3 n out st hn r hr ih =>
      rw [qreadLoop, dif_neg hn, dif_neg hr]
      exact (touches_qreadRound hb i n st).trans ih

/-- A round of `__qwrite`: the record is loaded, changed in the buffer and written. -/
theorem qwriteRound_cases (b : Bdos σ) (i : Fin 16) (rest : List Byte) (st : DiskIo σ) :
    ∃ rc st₁, loadRecord b i ((st.dfiles i).pos / 128) st = (rc, st₁) ∧
      (rc < 0 ∧ qwriteRound b i rest st = (0, st₁) ∨
        0 ≤ rc ∧ ∃ al st₂, bdosFile b .writernd i
            ({ st₁ with
              dma := paste st₁.dma ((st.dfiles i).pos % 128).toNat
                (rest.take (min rest.length (128 - ((st.dfiles i).pos % 128).toNat))) }.setFile i
              fun fp => { fp with fcb := fcbSetRecord fp.fcb ((st.dfiles i).pos / 128) }) = (al, st₂) ∧
          (al ≠ 0 ∧ qwriteRound b i rest st = (0, st₂) ∨
            al = 0 ∧ qwriteRound b i rest st =
              (min rest.length (128 - ((st.dfiles i).pos % 128).toNat),
                { st₂ with cacheFp := some i, cacheRec := (st.dfiles i).pos / 128 }.setFile i fun fp =>
                  let pos := toLong (fp.pos +
                    (min rest.length (128 - ((st.dfiles i).pos % 128).toNat) : ℕ))
                  { fp with pos := pos, len := if fp.len < pos then pos else fp.len }))) := by
  unfold qwriteRound
  dsimp only
  rcases hload : loadRecord b i ((st.dfiles i).pos / 128) st with ⟨rc, st₁⟩
  refine ⟨rc, st₁, rfl, ?_⟩
  dsimp only
  by_cases hrc : rc < 0
  · rw [if_pos hrc]
    exact .inl ⟨hrc, rfl⟩
  · rw [if_neg hrc]
    refine .inr ⟨not_lt.mp hrc, ?_⟩
    generalize hcall : bdosFile b .writernd i _ = r
    obtain ⟨al, st₂⟩ := r
    refine ⟨al, st₂, rfl, ?_⟩
    dsimp only
    by_cases hal : al = 0
    · rw [if_neg (not_not.mpr hal)]
      exact .inr ⟨hal, rfl⟩
    · rw [if_pos hal]
      exact .inl ⟨hal, rfl⟩

theorem touches_qwriteRound (hb : Transfers b v) (i : Fin 16) (rest : List Byte) (st : DiskIo σ) :
    Touches v true i st (qwriteRound b i rest st).2 := by
  obtain ⟨rc, st₁, hload, hres⟩ := qwriteRound_cases b i rest st
  have ht : Touches v true i st st₁ := by
    have := touches_loadRecord (w := true) hb i ((st.dfiles i).pos / 128) st
    rwa [hload] at this
  rcases hres with ⟨-, heq⟩ | ⟨hrc, al, st₂, hcall, hres⟩
  · rw [heq]
    exact ht
  · generalize hdata : paste st₁.dma _ _ = data at hcall
    have hal := congrArg Prod.fst hcall
    have hst : st₂ = _ := (congrArg Prod.snd hcall).symm
    simp only [bdosFile, setFile_self, setFile_dma, setFile_os, setFile_log] at hal hst
    have hothers : ∀ j, j ≠ i → st₂.dfiles j = st₁.dfiles j := by
      intro j hj
      simp only [hst, setFile_of_ne _ _ hj]
    have hused : (st₂.dfiles i).used = (st₁.dfiles i).used := by simp [hst]
    have hcon : (st₂.dfiles i).isCon = (st₁.dfiles i).isCon := by simp [hst]
    have hlog : st₁.log <:+ st₂.log := by
      rw [hst]
      exact List.suffix_cons _ _
    have hkey : (st₂.dfiles i).fcb.key = (st₁.dfiles i).fcb.key := by
      simp only [hst, setFile_self, hb.key .writernd (by simp), fcbSetRecord_key]
    have hdma : st₂.dma = data := by
      rw [hst]
      exact hb.buffer .writernd (by decide) (by decide) _ _ _
    have hos := congrArg DiskIo.os hst
    have hsame := congrArg DiskIo.cacheRec hst
    have hcache : ∀ j, st₂.cacheFp = some j → st₁.cacheFp = some j := by
      intro j hj
      rwa [hst] at hj
    dsimp only [DiskIo.setFile] at hos hsame
    rcases hres with ⟨hal0, heq⟩ | ⟨hal0, heq⟩
    · -- the write failed: then the record was not on the disk, and the buffer is not marked
      rw [heq]
      apply ht.trans
      refine ⟨hlog, hothers, hused, hcon, fun j hj => .inl (hcache j hj), fun hok hc => ?_⟩
      obtain ⟨-, hfp, hrec⟩ | ⟨-, hfp, -⟩ := loadRecord_result hload hrc
      · have hstored := hc i hfp
        have hevent := hok rfl
          ⟨.writernd, fcbSetRecord (st₁.dfiles i).fcb ((st.dfiles i).pos / 128), data, st₁.os, al⟩
          (by rw [hst, ← hal]; exact List.mem_cons_self) rfl hal0
        simp only [fcbSetRecord_key, fcbSetRecord_rec] at hevent
        rw [hrec] at hstored
        intro j hj
        obtain rfl : i = j := Option.some.inj (hfp.symm.trans (hcache j hj))
        rcases hevent with hnone | hsome
        · rw [hnone] at hstored
          cases hstored
        · show v.record st₂.os (st₂.dfiles i).fcb.key _ = some st₂.dma
          rw [hsame, hrec, hkey, hos, hb.writeError _ _ _ (hal ▸ hal0), hdma]
          exact hsome
      · intro j hj
        have := hcache j hj
        rw [hfp] at this
        cases this
    · rw [heq]
      apply ht.trans
      have hmarked : Touches v true i st₁
          { st₂ with cacheFp := some i, cacheRec := (st.dfiles i).pos / 128 } := by
        refine ⟨hlog, hothers, hused, hcon, fun j hj => .inr (Option.some.inj hj).symm,
          fun _ _ j hj => ?_⟩
        obtain rfl : i = j := Option.some.inj hj
        have hwrite := hb.write _ _ _ (hal.trans hal0)
        rw [fcbSetRecord_key, fcbSetRecord_rec] at hwrite
        show v.record st₂.os (st₂.dfiles i).fcb.key _ = some st₂.dma
        rw [hkey, hos, hdma]
        exact hwrite
      dsimp only
      exact hmarked.trans (touches_setFile i _ _ rfl rfl rfl)

theorem touches_qwriteLoop (hb : Transfers b v) (i : Fin 16) (rest : List Byte) (total : ℕ)
    (st : DiskIo σ) : Touches v true i st (qwriteLoop b i rest total st).2 := by
  induction rest, total, st using qwriteLoop.induct b i with
  | case1 total st =>
      rw [qwriteLoop, dif_pos rfl]
      exact Touches.refl i st
  | case2 rest total st hr r h0 =>
      rw [qwriteLoop, dif_neg hr, dif_pos h0]
      exact touches_qwriteRound hb i rest st
  | case3 rest total st hr r h0 ih =>
      rw [qwriteLoop, dif_neg hr, dif_neg h0]
      exact (touches_qwriteRound hb i rest st).trans ih

/-! ### Opening and closing -/

/-- The record in the buffer is on the disk `os` as it was. -/
def KeepsCached (v : View σ) (st : DiskIo σ) (os : σ) : Prop :=
  ∀ i, st.cacheFp = some i → v.record os (st.dfiles i).fcb.key (st.cacheRec % 2 ^ 24).toNat =
    v.record st.os (st.dfiles i).fcb.key (st.cacheRec % 2 ^ 24).toNat

instance (v : View σ) (st : DiskIo σ) (os : σ) : Decidable (KeepsCached v st os) :=
  inferInstanceAs (Decidable (∀ _, _))

theorem KeepsCached.of_record {st : DiskIo σ} {os : σ} (h : v.record os = v.record st.os) :
    KeepsCached v st os := fun _ _ => by rw [h]

/-- The invariant while the slot `i` is being set up or given up: the buffer is another file's. -/
structure Idle (v : View σ) (i : Fin 16) (st : DiskIo σ) : Prop extends CacheInv v st where
  other : st.cacheFp ≠ some i

theorem CacheInv.idle {i : Fin 16} {st : DiskIo σ} (h : CacheInv v st)
    (hfree : (st.dfiles i).used = false) : Idle v i st := by
  refine ⟨h, fun hi => ?_⟩
  rw [(h.opened i hi).1] at hfree
  cases hfree

theorem Idle.setFile {i : Fin 16} {st : DiskIo σ} (h : Idle v i st) (f : DFile → DFile) :
    Idle v i (st.setFile i f) := by
  have hne : ∀ j, st.cacheFp = some j → j ≠ i := by
    rintro j hj rfl
    exact h.other hj
  refine ⟨⟨h.coherent.of_same rfl rfl rfl (fun j hj => ?_) fun _ _ => rfl, fun j hj => ?_⟩, h.other⟩
  · rw [setFile_of_ne st f (hne j hj)]
  · rw [setFile_of_ne st f (hne j hj)]
    exact h.opened j hj

/-- Calls of the BDOS for the slot that leave the buffer and its record alone. -/
theorem Idle.bdosFile {i : Fin 16} {st : DiskIo σ} (h : Idle v i st) (hb : Transfers b v)
    {f : BdosFn} (hread : f ≠ .readrand) (hfirst : f ≠ .sfirst)
    (hkeep : KeepsCached v st (b.call f (st.dfiles i).fcb st.dma st.os).os) :
    Idle v i (bdosFile b f i st).2 := by
  have hst : Idle v i { st with
      dma := (b.call f (st.dfiles i).fcb st.dma st.os).dma
      os := (b.call f (st.dfiles i).fcb st.dma st.os).os
      log := ⟨f, (st.dfiles i).fcb, st.dma, st.os,
        (b.call f (st.dfiles i).fcb st.dma st.os).al⟩ :: st.log } :=
    ⟨⟨h.coherent.of_same rfl rfl (hb.buffer f hread hfirst _ _ _) (fun _ _ => rfl) hkeep,
      h.opened⟩, h.other⟩
  exact hst.setFile fun fp => { fp with fcb := (b.call f (st.dfiles i).fcb st.dma st.os).fcb }

/-- The end of `_sopen`, after the length of the file was looked up. -/
theorem Idle.sopenDone {i : Fin 16} {st st' : DiskIo σ} (h : Idle v i st)
    (ht : Touches v false i st st') (hcon : (st.dfiles i).isCon = false) (mode : OpenMode) :
    CacheInv v (sopenDone i mode st').2 := by
  refine ⟨(ht.coherent (by simp) h.coherent).of_same rfl rfl rfl (fun j _ => ?_) fun _ _ => rfl,
    fun j hj => ?_⟩
  · by_cases hji : j = i
    · subst hji
      simp [Clib.sopenDone]
    · simp [Clib.sopenDone, setFile_of_ne _ _ hji]
  · by_cases hji : j = i
    · subst hji
      simpa [Clib.sopenDone] using ht.isCon.trans hcon
    · simp only [Clib.sopenDone, setFile_of_ne _ _ hji, ht.others j hji]
      obtain hj | hj := ht.cache j hj
      · exact h.opened j hj
      · exact absurd hj hji

/-- The FCB that `_sopen` gives to the BDOS. -/
def sopenFcb (b : Bdos σ) (name : List Byte) (mode : OpenMode) : Fcb :=
  if osHasLrbc b && mode.binary then Function.update (nameToFcb name).2 32 0xFF
  else (nameToFcb name).2

theorem sopenFile_cacheInv (hb : Transfers b v) {i : Fin 16} {name : List Byte} {mode : OpenMode}
    {st : DiskIo σ} (h : Idle v i st)
    (hdel : mode.trunc = true → (nameToFcb name).1 = true →
      KeepsCached v st (b.call .delete (sopenFcb b name mode) st.dma st.os).os) :
    CacheInv v (sopenFile b i name mode st).2 := by
  unfold sopenFile
  dsimp only
  by_cases hok : (nameToFcb name).1 = true
  · rw [hok, if_neg (by simp)]
    have hnew := h.setFile (newFile b (nameToFcb name).2 mode)
    have hquiet : ∀ fn, fn = .openFile ∨ fn = .make → ∀ st₁ : DiskIo σ, Idle v i st₁ →
        Idle v i (bdosFile b fn i st₁).2 := by
      intro fn hfn st₁ hst₁
      refine hst₁.bdosFile hb ?_ ?_ (.of_record (hb.quiet fn ?_ ?_ ?_ _ _ _)) <;>
        rcases hfn with rfl | rfl <;> decide
    by_cases htrunc : mode.trunc = true
    · rw [if_pos htrunc]
      have hkeep : KeepsCached v (st.setFile i (newFile b (nameToFcb name).2 mode))
          (b.call .delete ((st.setFile i (newFile b (nameToFcb name).2 mode)).dfiles i).fcb
            st.dma st.os).os := by
        intro j hj
        have hji : j ≠ i := by
          rintro rfl
          exact h.other hj
        rw [setFile_of_ne _ _ hji, setFile_self]
        exact hdel htrunc hok j hj
      have hmade := hquiet .make (by simp) _
        (hnew.bdosFile hb (f := .delete) (by decide) (by decide) hkeep)
      split_ifs
      · exact hmade.toCacheInv
      · exact hmade.sopenDone (Touches.refl i _) (by simp [bdosFile, newFile]) mode
    · rw [if_neg htrunc]
      have hopened := hquiet .openFile (by simp) _ hnew
      have hcon : ((bdosFile b .openFile i
          (st.setFile i (newFile b (nameToFcb name).2 mode))).2.dfiles i).isCon = false := by
        simp [bdosFile, newFile]
      generalize bdosFile b .openFile i (st.setFile i (newFile b (nameToFcb name).2 mode)) = r
        at hopened hcon ⊢
      by_cases hal : r.1 = 0xFF
      · rw [if_pos hal]
        have hmade := hquiet .make (by simp) _ hopened
        split_ifs
        · exact hopened.toCacheInv
        · exact hmade.toCacheInv
        · exact hmade.sopenDone (Touches.refl i _) (by simpa [bdosFile] using hcon) mode
      · rw [if_neg hal]
        have hlen := hopened.setFile fun fp =>
          { fp with openLrbc := fp.fcb 32, fcb := Function.update fp.fcb 32 0 }
        have ht := (touches_diskLen hb i _).trans (touches_setFile (w := false) i
          (diskLen b i (r.2.setFile i fun fp =>
            { fp with openLrbc := fp.fcb 32, fcb := Function.update fp.fcb 32 0 })).2
          (fun fp => { fp with len := (diskLen b i (r.2.setFile i fun fp =>
            { fp with openLrbc := fp.fcb 32, fcb := Function.update fp.fcb 32 0 })).1 }) rfl rfl rfl)
        exact hlen.sopenDone ht (by simpa using hcon) mode
  · rw [Bool.not_eq_true] at hok
    rw [hok, if_pos (by simp)]
    dsimp only
    exact (h.setFile _).toCacheInv

theorem freeSlot_unused {st : DiskIo σ} {i : Fin 16} (h : freeSlot st = some i) :
    (st.dfiles i).used = false := by
  have := List.find?_some h
  simpa using this

theorem fdToFile_used {st : DiskIo σ} {handle : Int} {i : Fin 16}
    (h : fdToFile st handle = some i) : (st.dfiles i).used = true := by
  unfold fdToFile at h
  dsimp only at h
  split_ifs at h with hrange hused
  obtain rfl := Option.some.inj h
  exact hused

/-- The slot is given up, and the buffer if it held a record of it. -/
theorem CacheInv.freed {i : Fin 16} {st : DiskIo σ} (h : CacheInv v st) :
    CacheInv v ((if st.cacheFp = some i then { st with cacheFp := none } else st).setFile i
      fun fp => { fp with used := false }) := by
  have hidle : Idle v i (if st.cacheFp = some i then { st with cacheFp := none } else st) := by
    split_ifs with hfp
    · refine ⟨⟨Coherent.of_none rfl, fun j hj => ?_⟩, fun hi => ?_⟩
      · cases hj
      · cases hi
    · exact ⟨h, hfp⟩
  exact (hidle.setFile _).toCacheInv

theorem and_or_high (c : Byte) : (c ||| 0x80) &&& 0x7F = c &&& 0x7F := by
  apply UInt8.eq_of_toBitVec_eq
  rw [UInt8.toBitVec_and, UInt8.toBitVec_or, BitVec.and_or_distrib_right, UInt8.toBitVec_and]
  exact BitVec.or_zero

theorem and_and_low (c : Byte) : c &&& 0x7F &&& 0x7F = c &&& 0x7F := by
  rw [UInt8.and_assoc]
  rfl

/-- F6' is no part of the name. -/
theorem key_setF6 (fcb : Fcb) (c : Byte) (hc : c &&& 0x7F = fcb 6 &&& 0x7F) :
    Fcb.key (Function.update fcb 6 c) = fcb.key := by
  funext j
  unfold Fcb.key Fcb.keyAt
  by_cases hj : j = 6
  · subst hj
    simpa using hc
  · have hne : Fin.ofNat 36 (0 + j) ≠ 6 := by
      intro h
      have hval := congrArg Fin.val h
      have hlt := j.isLt
      simp only [Fin.val_ofNat, Nat.zero_add, Nat.mod_eq_of_lt (show (j : ℕ) < 36 by omega)] at hval
      exact hj (Fin.ext hval)
    rw [Function.update_of_ne hne, Function.update_of_ne (by decide)]

theorem touches_storeCount (hb : Transfers b v) (i : Fin 16) (lrbc : Byte) (st : DiskIo σ) :
    Touches v w i st (storeCount b i lrbc st) := by
  have hset : Touches v w i st (st.setFile i fun fp =>
      { fp with fcb := Function.update (Function.update fp.fcb 6 (fp.fcb 6 ||| 0x80)) 32 lrbc }) := by
    apply touches_setFile i st _ _ rfl rfl
    dsimp only
    rw [Fcb.key_update _ _ (by decide), key_setF6 _ _ (and_or_high _)]
  have hsent := hset.trans (touches_bdosFile hb i _ (f := .attrib) (by simp))
  unfold storeCount
  dsimp only
  apply hsent.trans
  apply touches_setFile i _ _ _ rfl rfl
  dsimp only
  rw [key_setF6 _ _ (and_and_low _)]

theorem close_cacheInv (hb : Transfers b v) {handle : Int} {st : DiskIo σ} (h : CacheInv v st) :
    CacheInv v (close b handle st).2 := by
  unfold close
  split_ifs with hcon
  · exact h
  cases hfile : fdToFile st handle with
  | none => exact h
  | some i =>
      have hused := fdToFile_used hfile
      dsimp only
      by_cases hcon : (st.dfiles i).isCon = true
      · rw [if_pos hcon]
        have hidle : Idle v i st := by
          refine ⟨h, fun hi => ?_⟩
          rw [(h.opened i hi).2] at hcon
          cases hcon
        dsimp only
        exact (hidle.setFile _).toCacheInv
      · rw [if_neg hcon]
        rw [Bool.not_eq_true] at hcon
        have hclosed := touches_bdosFile (w := false) hb i st (f := .closeFile) (by simp)
        generalize (bdosFile b .closeFile i st).2 = st₁ at hclosed ⊢
        apply CacheInv.freed
        split_ifs
        · exact h.touch (hclosed.trans (touches_storeCount hb i _ st₁)) (by simp) hused hcon
        · exact h.touch hclosed (by simp) hused hcon

/-! ### The other calls -/

theorem qread_cacheInv (hb : Transfers b v) {handle : Int} {n : ℕ} {st : DiskIo σ}
    (h : CacheInv v st) : CacheInv v (qread b handle n st).2 := by
  unfold qread
  split_ifs with hcon
  · exact h
  all_goals
    dsimp only
    generalize hfile : fdToFile st _ = file
    cases file with
    | none => exact h
    | some i =>
        dsimp only
        by_cases hdisk : (!(st.dfiles i).readable || (st.dfiles i).isCon) = true
        · rw [if_pos hdisk]
          exact h
        · rw [if_neg hdisk]
          simp only [Bool.or_eq_true, Bool.not_eq_true', not_or, Bool.not_eq_true] at hdisk
          exact h.touch (Touches.trans (touches_setFile i st _ rfl rfl rfl)
            (touches_qreadLoop (w := false) hb i n [] _)) (by simp) (fdToFile_used hfile) hdisk.2

theorem conoutAll_record (hb : Transfers b v) (bytes : List Byte) (st : DiskIo σ) :
    v.record (conoutAll b bytes st).os = v.record st.os := by
  show v.record (bytes.foldl (fun os c => b.conout c os) st.os) = v.record st.os
  generalize st.os = os
  induction bytes generalizing os with
  | nil => rfl
  | cons c bytes ih => rw [List.foldl_cons, ih, hb.conout]

theorem conoutAll_cacheInv (hb : Transfers b v) (bytes : List Byte) {st : DiskIo σ}
    (h : CacheInv v st) : CacheInv v (conoutAll b bytes st) :=
  ⟨h.coherent.of_same rfl rfl rfl (fun _ _ => rfl) fun _ _ => by rw [conoutAll_record hb],
    h.opened⟩

theorem qwrite_cacheInv (hb : Transfers b v) {handle : Int} {bytes : List Byte} {st : DiskIo σ}
    (h : CacheInv v st) (hok : StoredWritesOk v (qwrite b handle bytes st).2.log) :
    CacheInv v (qwrite b handle bytes st).2 := by
  unfold qwrite at hok ⊢
  by_cases hout : (handle = 1 ∧ st.redirOut < 0) ∨ handle = 2
  · rw [if_pos hout]
    exact conoutAll_cacheInv hb bytes h
  · rw [if_neg hout] at hok ⊢
    dsimp only at hok ⊢
    generalize hfile : fdToFile st _ = file at hok ⊢
    cases file with
    | none => exact h
    | some i =>
        dsimp only at hok ⊢
        by_cases hw : (!(st.dfiles i).writable) = true
        · rw [if_pos hw]
          exact h
        · rw [if_neg hw] at hok ⊢
          by_cases hcon : (st.dfiles i).isCon = true
          · rw [if_pos hcon]
            exact conoutAll_cacheInv hb bytes h
          · rw [if_neg hcon] at hok ⊢
            exact h.touch (Touches.trans (touches_setFile i st _ rfl rfl rfl)
              (touches_qwriteLoop hb i bytes 0 _)) (fun _ => hok) (fdToFile_used hfile)
              (by simpa using hcon)

/-- Changing fields of any file other than its name and state. -/
theorem CacheInv.setFile {st : DiskIo σ} (h : CacheInv v st) (i : Fin 16) (f : DFile → DFile)
    (hkey : (f (st.dfiles i)).fcb.key = (st.dfiles i).fcb.key)
    (hused : (f (st.dfiles i)).used = (st.dfiles i).used)
    (hcon : (f (st.dfiles i)).isCon = (st.dfiles i).isCon) : CacheInv v (st.setFile i f) := by
  have hset := touches_setFile (v := v) (w := false) i st f hkey hused hcon
  refine ⟨hset.coherent (by simp) h.coherent, fun j hj => ?_⟩
  by_cases hji : j = i
  · subst hji
    rw [setFile_self, hused, hcon]
    exact h.opened j hj
  · rw [setFile_of_ne _ _ hji]
    exact h.opened j hj

theorem lseek_cacheInv {handle offset : Int} {origin : Origin} {st : DiskIo σ}
    (h : CacheInv v st) : CacheInv v (lseek handle offset origin st).2 := by
  unfold lseek
  cases hfile : fdToFile st handle with
  | none => exact h
  | some i =>
      dsimp only
      cases hbase : origin.base (st.dfiles i) with
      | none => exact h
      | some base =>
          dsimp only
          split_ifs
          · exact h
          · dsimp only
            exact h.setFile i _ rfl rfl rfl

theorem dup_cacheInv {handle : Int} {st : DiskIo σ} (h : CacheInv v st) :
    CacheInv v (dup handle st).2 := by
  unfold dup
  cases hslot : freeSlot st with
  | none => exact ⟨h.coherent, h.opened⟩
  | some i =>
      dsimp only
      split_ifs
      · dsimp only
        exact ((h.idle (freeSlot_unused hslot)).setFile _).toCacheInv
      · exact ⟨h.coherent, h.opened⟩

/-- A call of the BDOS with an FCB on the stack. -/
theorem CacheInv.bdosLocal {st : DiskIo σ} (h : CacheInv v st) (hb : Transfers b v) {f : BdosFn}
    (fcb : Fcb) (hread : f ≠ .readrand) (hfirst : f ≠ .sfirst)
    (hkeep : KeepsCached v st (b.call f fcb st.dma st.os).os) :
    CacheInv v (bdosLocal b f fcb st).2.2 :=
  ⟨h.coherent.of_same rfl rfl (hb.buffer f hread hfirst _ _ _) (fun _ _ => rfl) hkeep, h.opened⟩

theorem CacheInv.fail {st : DiskIo σ} (h : CacheInv v st) (e : Errno) :
    CacheInv v (st.fail e).2 := ⟨h.coherent, h.opened⟩

/-- The condition on a search: no record is in the buffer, or the search is not made, or it leaves the
buffer as it was. -/
def SearchSafe (b : Bdos σ) (name : List Byte) (st : DiskIo σ) : Prop :=
  st.cacheFp = none ∨ (nameToFcb name).1 = false ∨
    (b.call .sfirst (nameToFcb name).2 st.dma st.os).dma = st.dma

instance (b : Bdos σ) (name : List Byte) (st : DiskIo σ) : Decidable (SearchSafe b name st) :=
  inferInstanceAs (Decidable (_ ∨ _ ∨ _))

theorem statProbe_cacheInv (hb : Transfers b v) {name : List Byte} {st : DiskIo σ}
    (h : CacheInv v st) (hsafe : SearchSafe b name st) : CacheInv v (statProbe b name st).2 := by
  unfold statProbe
  dsimp only
  by_cases hok : (nameToFcb name).1 = true
  · rw [hok, if_neg (by simp)]
    have hsearch : CacheInv v (Clib.bdosLocal b .sfirst (nameToFcb name).2 st).2.2 := by
      have hquiet := hb.quiet .sfirst (by decide) (by decide) (by decide) (nameToFcb name).2 st.dma
        st.os
      rcases hsafe with hfp | hill | hdma
      · exact ⟨Coherent.of_none hfp, h.opened⟩
      · rw [hok] at hill
        cases hill
      · exact ⟨h.coherent.of_same rfl rfl hdma (fun _ _ => rfl)
          (KeepsCached.of_record hquiet), h.opened⟩
    split_ifs <;> exact hsearch
  · rw [Bool.not_eq_true] at hok
    rw [hok, if_pos (by simp)]
    exact h

theorem stat_cacheInv (hb : Transfers b v) {name : List Byte} {st : DiskIo σ}
    (h : CacheInv v st) (hsafe : SearchSafe b name st) : CacheInv v (stat b name st).2 := by
  have hprobe := statProbe_cacheInv hb h hsafe
  have hquiet : ∀ f, f = .filesize ∨ f = .openFile ∨ f = .closeFile → ∀ (fcb : Fcb) (st₁ : DiskIo σ),
      CacheInv v st₁ → CacheInv v (Clib.bdosLocal b f fcb st₁).2.2 := by
    intro f hf fcb st₁ hst₁
    refine hst₁.bdosLocal hb fcb ?_ ?_ (.of_record (hb.quiet f ?_ ?_ ?_ _ _ _)) <;>
      rcases hf with rfl | rfl | rfl <;> decide
  unfold stat
  dsimp only
  generalize statProbe b name st = r at hprobe ⊢
  obtain ⟨ent, st₁⟩ := r
  cases ent with
  | none => exact hprobe.fail .enoent
  | some ent =>
      have hsize := hquiet .filesize (by simp) (nameToFcb name).2 st₁ hprobe
      have hopened := hquiet .openFile (by simp) (Function.update (nameToFcb name).2 32 0xFF) _ hsize
      dsimp only
      split_ifs
      · exact hquiet .closeFile (by simp) _ _ hopened
      · exact hopened
      · exact hsize

theorem remove_cacheInv (hb : Transfers b v) {name : List Byte} {st : DiskIo σ} (h : CacheInv v st)
    (hdel : (nameToFcb name).1 = true →
      KeepsCached v st (b.call .delete (nameToFcb name).2 st.dma st.os).os) :
    CacheInv v (remove b name st).2 := by
  unfold remove
  dsimp only
  by_cases hok : (nameToFcb name).1 = true
  · rw [hok, if_neg (by simp)]
    have hcall := h.bdosLocal hb (nameToFcb name).2 (by decide) (by decide) (hdel hok)
    split_ifs
    · exact hcall.fail .enoent
    · exact hcall
  · rw [Bool.not_eq_true] at hok
    rw [hok, if_pos (by simp)]
    exact h.fail .enoent

theorem chmod_cacheInv (hb : Transfers b v) {name : List Byte} {writable : Bool} {st : DiskIo σ}
    (h : CacheInv v st) : CacheInv v (chmod b name writable st).2 := by
  unfold chmod
  dsimp only
  by_cases hok : (nameToFcb name).1 = true
  · rw [hok, if_neg (by simp)]
    generalize Function.update (nameToFcb name).2 9 _ = fcb
    have hcall := h.bdosLocal hb fcb (f := .attrib) (by decide) (by decide)
      (.of_record (hb.quiet .attrib (by decide) (by decide) (by decide) _ _ _))
    split_ifs
    · exact hcall.fail .enoent
    · exact hcall
  · rw [Bool.not_eq_true] at hok
    rw [hok, if_pos (by simp)]
    exact h.fail .enoent

/-- The FCB that `rename` gives to the BDOS: the new name is in its second half. -/
def renameFcb (old new : List Byte) : Fcb := fun i =>
  if i.val < 16 ∨ 32 ≤ i.val then (nameToFcb old).2 i
  else if 17 ≤ i.val ∧ i.val < 28 then (nameToFcb new).2 (i - 16) else 0

theorem rename_cacheInv (hb : Transfers b v) {old new : List Byte} {st : DiskIo σ}
    (h : CacheInv v st)
    (hren : (nameToFcb old).1 = true → (nameToFcb new).1 = true →
      KeepsCached v st (b.call .rename (renameFcb old new) st.dma st.os).os) :
    CacheInv v (rename b old new st).2 := by
  unfold rename
  dsimp only
  by_cases hok : (!(nameToFcb old).1 || !(nameToFcb new).1) = true
  · rw [if_pos hok]
    exact h.fail .enoent
  · rw [if_neg hok]
    simp only [Bool.or_eq_true, Bool.not_eq_true', not_or, Bool.not_eq_false] at hok
    have hcall := h.bdosLocal hb (renameFcb old new) (by decide) (by decide) (hren hok.1 hok.2)
    unfold renameFcb at hcall
    split_ifs
    · exact hcall.fail .enoent
    · exact hcall

/-! ### Runs -/

/-- The condition on a call in the state before it: a directory search does not find a record in the
buffer, deleting and renaming leave the record that is in it alone, and no write fails to change a record of the
disk. -/
def CacheSafe (b : Bdos σ) (v : View σ) (st : DiskIo σ) : DiskCall → Prop
  | .sopen name mode => mode.trunc = true → (freeSlot st).isSome → isConsoleName name = false →
      (nameToFcb name).1 = true →
      KeepsCached v st (b.call .delete (sopenFcb b name mode) st.dma st.os).os
  | .remove name => (nameToFcb name).1 = true →
      KeepsCached v st (b.call .delete (nameToFcb name).2 st.dma st.os).os
  | .rename old new => (nameToFcb old).1 = true → (nameToFcb new).1 = true →
      KeepsCached v st (b.call .rename (renameFcb old new) st.dma st.os).os
  | .access name _ => SearchSafe b name st
  | .stat name => SearchSafe b name st
  | .utime name => SearchSafe b name st
  | .qwrite handle bytes => StoredWritesOk v (execState b st (.qwrite handle bytes)).log
  | .qread _ _ => True
  | .lseek _ _ _ => True
  | .close _ => True
  | .chmod _ _ => True
  | .dup _ => True

instance (b : Bdos σ) (v : View σ) (st : DiskIo σ) (c : DiskCall) : Decidable (CacheSafe b v st c) := by
  cases c <;> unfold CacheSafe <;> infer_instance

theorem execState_cacheInv (hb : Transfers b v) {st : DiskIo σ} {c : DiskCall} (h : CacheInv v st)
    (hsafe : CacheSafe b v st c) : CacheInv v (execState b st c) := by
  have h₀ : CacheInv v { st with log := [] } := ⟨h.coherent, h.opened⟩
  cases c with
  | sopen name mode =>
      show CacheInv v (sopen b name mode { st with log := [] }).2
      unfold sopen
      cases hslot : freeSlot { st with log := [] } with
      | none => exact h₀
      | some i =>
          have hidle := h₀.idle (freeSlot_unused hslot)
          dsimp only
          by_cases hcon : isConsoleName name = true
          · rw [if_pos hcon]
            dsimp only
            exact (hidle.setFile _).toCacheInv
          · rw [if_neg hcon]
            have hslot' : (freeSlot st).isSome := by
              rw [show freeSlot st = some i from hslot]
              rfl
            exact sopenFile_cacheInv hb hidle fun htrunc hok =>
              hsafe htrunc hslot' (by simpa using hcon) hok
  | qread handle n => exact qread_cacheInv hb h₀
  | qwrite handle bytes => exact qwrite_cacheInv hb h₀ hsafe
  | lseek handle offset origin => exact lseek_cacheInv h₀
  | close handle => exact close_cacheInv hb h₀
  | remove name => exact remove_cacheInv hb h₀ hsafe
  | chmod name writable => exact chmod_cacheInv hb h₀
  | access name wOk =>
      have hprobe := statProbe_cacheInv hb h₀ hsafe
      show CacheInv v (access b name wOk { st with log := [] }).2
      unfold access
      dsimp only
      generalize statProbe b name { st with log := [] } = r at hprobe ⊢
      obtain ⟨ent, st₁⟩ := r
      cases ent with
      | none => exact hprobe.fail .enoent
      | some ent =>
          dsimp only
          split_ifs
          · exact hprobe.fail .eacces
          · exact hprobe
  | stat name => exact stat_cacheInv hb h₀ hsafe
  | utime name =>
      have hprobe := statProbe_cacheInv hb h₀ hsafe
      show CacheInv v (utime b name { st with log := [] }).2
      unfold utime
      generalize statProbe b name { st with log := [] } = r at hprobe ⊢
      obtain ⟨ent, st₁⟩ := r
      cases ent with
      | none => exact hprobe.fail .enoent
      | some ent => exact hprobe
  | dup handle => exact dup_cacheInv h₀
  | rename old new => exact rename_cacheInv hb h₀ hsafe

theorem cacheInv_start (os : σ) : CacheInv v (DiskIo.start os) :=
  ⟨Coherent.of_none rfl, fun _ h => nomatch h⟩

/-- In a run whose calls all meet the condition the buffer holds what it is marked to hold. -/
theorem cacheInv_run (hb : Transfers b v) (os : σ) (cs : List DiskCall)
    (hcs : Along (execState b) (CacheSafe b v) (DiskIo.start os) cs) :
    CacheInv v (run (execState b) (DiskIo.start os) cs) :=
  run_invariant_of_along (fun _ _ h hc => execState_cacheInv hb h hc) (cacheInv_start os) hcs

/-- `A` is made, written, read again and closed, and then looked up. -/
theorem cacheInv_run_file : CacheInv ramView (run (execState ramBdos) (DiskIo.start [])
    [.sopen [0x41] ⟨2, false, true, true, true⟩, .qwrite 3 [0x58], .lseek 3 0 .set, .qread 3 1,
      .close 3, .access [0x41] false]) :=
  cacheInv_run ramBdos_transfers [] _ (by decide +kernel)

/-- `A` is made and written, and looked up while it is open. -/
theorem not_coherent_access : ¬ ∀ (σ : Type) (b : Bdos σ) (v : View σ), Transfers b v →
    ∀ (os : σ) (cs : List DiskCall), Coherent v (run (execState b) (DiskIo.start os) cs) := by
  intro h
  have hcoherent := h Ram ramBdos ramView ramBdos_transfers []
    [.sopen [0x41] ⟨2, false, true, true, true⟩, .qwrite 3 [0x58], .access [0x41] false] 0
    (by decide +kernel)
  revert hcoherent
  decide +kernel

end OpenWatcom.Clib
