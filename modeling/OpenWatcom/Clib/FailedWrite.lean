import OpenWatcom.Clib.ReadBack

/-! # A random write that fails

`__qwrite` merges the data into the buffer before it writes the record, and leaves the buffer marked when the
BDOS reports an error. -/

namespace OpenWatcom.Clib

variable {σ : Type} {b : Bdos σ} {v : View σ}

/-! ### Reads and seeks -/

/-- A call that reads or seeks. -/
def Looks : DiskCall → Prop
  | .qread _ _ => True
  | .lseek _ _ _ => True
  | _ => False

/-- No file is before its start or longer than a `long` counts. -/
def Sane (st : DiskIo σ) : Prop := ∀ i, 0 ≤ (st.dfiles i).pos ∧ (st.dfiles i).len < 2 ^ 31

/-- Every read that comes after reads and seeks returns bytes that are on the disk. -/
def ReadsDisk (b : Bdos σ) (v : View σ) (st : DiskIo σ) : Prop :=
  ∀ calls : List DiskCall, (∀ c ∈ calls, Looks c) → ∀ (handle : Int) (n : ℕ) (i : Fin 16),
    readFile (run (execState b) st calls) handle = some i →
    Found v i n (exec b (run (execState b) st calls) (.qread handle n)).1.bytes
      { run (execState b) st calls with log := [] }
      (execState b (run (execState b) st calls) (.qread handle n))

theorem Clean.clearLog {st : DiskIo σ} (h : Clean v st) : Clean v { st with log := [] } := by
  obtain hc | ⟨i, hstale⟩ := h
  · exact .inl hc
  · exact .inr ⟨i, hstale.marked, hstale.wrote, hstale.shows⟩

/-- Changing the position of a file. -/
theorem Clean.setPos {st : DiskIo σ} (h : Clean v st) (i : Fin 16) (pos : Int) (x : Bool) :
    Clean v (st.setFile i fun fp => { fp with pos := pos, ateof := x }) := by
  obtain hc | ⟨j, hstale⟩ := h
  · exact .inl ((touches_setFile (w := false) i st _ rfl rfl rfl).coherent (by simp) hc)
  · have hfile : ∃ p y, (st.setFile i fun fp => { fp with pos := pos, ateof := x }).dfiles j =
        { st.dfiles j with pos := p, ateof := y } := by
      by_cases hji : j = i
      · subst hji
        exact ⟨_, _, setFile_self st j _⟩
      · exact ⟨_, _, setFile_of_ne st _ hji⟩
    obtain ⟨p, y, hfile⟩ := hfile
    apply Or.inr
    refine ⟨j, hstale.marked, ?_, ?_⟩
    · rw [hfile]
      exact hstale.wrote
    · rw [hfile]
      exact hstale.shows

/-- Without a file to read from nothing happens. -/
theorem qread_none {handle : Int} {n : ℕ} {st : DiskIo σ} (h : readFile st handle = none) :
    (qread b handle n st).2 = st := by
  unfold readFile at h
  unfold qread
  by_cases hcon : handle < 3 ∧ st.redirIn < 0
  · rw [if_pos hcon]
  · rw [if_neg hcon] at h ⊢
    dsimp only
    cases hfd : fdToFile st (if handle < 3 then st.redirIn else handle) with
    | none => rfl
    | some i =>
        rw [hfd] at h
        have hmode := Option.filter_eq_none_iff.mp h i rfl
        dsimp only
        rw [if_pos (by simpa [or_iff_not_imp_left] using hmode)]

/-- A read or a seek keeps the buffer clean. -/
theorem looks_clean (hb : Directory b v) {st : DiskIo σ} {c : DiskCall} (hlook : Looks c) (h : Clean v st)
    (hsane : Sane st) : Clean v (execState b st c) ∧ Sane (execState b st c) := by
  cases c with
  | qread handle n =>
      have hstate : execState b st (.qread handle n) = (qread b handle n { st with log := [] }).2 := rfl
      rw [hstate]
      cases hfile : readFile { st with log := [] } handle with
      | none =>
          rw [qread_none hfile]
          exact ⟨h.clearLog, hsane⟩
      | some i =>
          obtain ⟨hclean, -, hfound⟩ := qread_clean hb (n := n) hfile h.clearLog (hsane i).1 (hsane i).2
          refine ⟨hclean, fun j => ?_⟩
          by_cases hji : j = i
          · subst hji
            have hpos := (hsane j).1
            refine ⟨?_, hfound.len.2⟩
            rw [hfound.pos]
            exact Int.add_nonneg hpos (Int.natCast_nonneg _)
          · rw [hfound.others j hji]
            exact hsane j
  | lseek handle offset origin =>
      have hstate : execState b st (.lseek handle offset origin) =
          (lseek handle offset origin { st with log := [] }).2 := rfl
      rw [hstate]
      unfold lseek
      split
      · exact ⟨h.clearLog, hsane⟩
      · rename_i i _
        split
        · exact ⟨h.clearLog, hsane⟩
        · rename_i base _
          dsimp only
          split_ifs with hneg
          · exact ⟨h.clearLog, hsane⟩
          · refine ⟨h.clearLog.setPos i _ false, fun j => ?_⟩
            by_cases hji : j = i
            · subst hji
              rw [setFile_self]
              exact ⟨not_lt.mp hneg, (hsane j).2⟩
            · rw [setFile_of_ne _ _ hji]
              exact hsane j
  | _ => exact hlook.elim

theorem readsDisk_of_clean (hb : Directory b v) {st : DiskIo σ} (h : Clean v st) (hsane : Sane st) :
    ReadsDisk b v st := by
  intro calls hcalls handle n i hfile
  have hrun : Clean v (run (execState b) st calls) ∧ Sane (run (execState b) st calls) := by
    induction calls generalizing st with
    | nil => exact ⟨h, hsane⟩
    | cons c calls ih =>
        obtain ⟨hclean, hsane'⟩ := looks_clean hb (hcalls c List.mem_cons_self) h hsane
        exact ih hclean hsane' (fun c' hc' => hcalls c' (List.mem_cons_of_mem c hc')) hfile
  obtain ⟨hclean, hsane'⟩ := hrun
  have hfile' : readFile { run (execState b) st calls with log := [] } handle = some i := hfile
  exact (qread_clean hb hfile' hclean.clearLog (hsane' i).1 (hsane' i).2).2.2

/-! ### The loop of `__qwrite` up to the record that fails -/

/-- The records that were written. -/
def storedWrites (log : List (BdosEvent σ)) : ℕ :=
  log.countP fun e => decide (e.fn = .writernd ∧ e.al = 0)

/-- Where a write from `p` on stands behind `m` records. -/
def storedEnd (p m : ℕ) : ℕ := if m = 0 then p else 128 * (p / 128 + m)

/-- The random read of `load_record` writes no record. -/
theorem loadRecord_log {i : Fin 16} {rec rc : Int} {st st₁ : DiskIo σ}
    (hload : loadRecord b i rec st = (rc, st₁)) :
    (∀ e ∈ st₁.log, e.fn = .writernd → e ∈ st.log) ∧ storedWrites st₁.log = storedWrites st.log ∧
      (0 ≤ rc → WritesOk st.log → WritesOk st₁.log) := by
  obtain ⟨-, -, heq⟩ | ⟨al, st₂, hcall, hres⟩ := loadRecord_cases b i rec st
  · rw [heq] at hload
    obtain ⟨rfl, rfl⟩ := Prod.mk.inj hload
    exact ⟨fun _ he _ => he, rfl, fun _ h => h⟩
  · have hal := congrArg Prod.fst hcall
    have hst : st₂ = _ := (congrArg Prod.snd hcall).symm
    simp only [bdosFile, setFile_self, setFile_dma, setFile_os, setFile_log] at hal hst
    have hlog : ∃ e₀ : BdosEvent σ, e₀.fn = .readrand ∧ e₀.al = al ∧ st₂.log = e₀ :: st.log :=
      ⟨_, rfl, hal, by rw [hst]⟩
    obtain ⟨e₀, hfn₀, hal₀, hlog⟩ := hlog
    have hevents : st₁.log = e₀ :: st.log ∧ (0 ≤ rc → al = 0 ∨ al = 1 ∨ al = 4) := by
      obtain ⟨h0, heq⟩ | ⟨h14, heq⟩ | ⟨-, -, -, heq⟩ := hres
      all_goals
        rw [heq] at hload
        obtain ⟨rfl, rfl⟩ := Prod.mk.inj hload
      · exact ⟨hlog, fun _ => .inl h0⟩
      · exact ⟨hlog, fun _ => .inr h14⟩
      · exact ⟨hlog, fun h => absurd h (by decide)⟩
    obtain ⟨hlog₁, hrc⟩ := hevents
    rw [hlog₁]
    refine ⟨fun e he hfn => ?_, ?_, fun h hok => hok.cons ⟨fun _ => hal₀ ▸ hrc h, fun h => ?_⟩⟩
    · obtain rfl | he := List.mem_cons.mp he
      · rw [hfn₀] at hfn
        cases hfn
      · exact he
    · unfold storedWrites
      rw [List.countP_cons_of_neg (by simp [hfn₀])]
    · rw [hfn₀] at h
      cases h

/-- The buffer is marked exactly if a record was loaded. -/
theorem loadRecord_marks {i : Fin 16} {rec rc : Int} {st st₁ : DiskIo σ}
    (hload : loadRecord b i rec st = (rc, st₁)) :
    (rc = 0 → st₁.cacheFp = some i ∧ st₁.cacheRec = rec) ∧ (rc ≠ 0 → st₁.cacheFp = none) := by
  obtain ⟨hfp, hrec, heq⟩ | ⟨al, st₂, -, ⟨-, heq⟩ | ⟨-, heq⟩ | ⟨-, -, -, heq⟩⟩ := loadRecord_cases b i rec st
  all_goals
    rw [heq] at hload
    obtain ⟨rfl, rfl⟩ := Prod.mk.inj hload
  · exact ⟨fun _ => ⟨hfp, hrec⟩, fun h => absurd rfl h⟩
  · exact ⟨fun _ => ⟨rfl, rfl⟩, fun h => absurd rfl h⟩
  · exact ⟨fun h => absurd h (by decide), fun _ => rfl⟩
  · exact ⟨fun h => absurd h (by decide), fun _ => rfl⟩

/-- A round whose random write fails. -/
structure FailedRound (b : Bdos σ) (v : View σ) (i : Fin 16) (rest : List Byte) (r : ℕ) (st st' : DiskIo σ) :
    Prop where
  log : storedWrites st'.log = storedWrites st.log
  others : ∀ j, j ≠ i → st'.dfiles j = st.dfiles j
  file : ∃ fcb x, Fcb.key fcb = (st.dfiles i).fcb.key ∧ st'.dfiles i = { st.dfiles i with fcb := fcb, ateof := x }
  record : v.record st'.os = v.record st.os
  /-- The buffer is marked if the record is on the disk, and then it holds the data. -/
  buffer : (v.record st.os (st.dfiles i).fcb.key r = none ∧ st'.cacheFp = none) ∨
    ∃ d, v.record st.os (st.dfiles i).fcb.key r = some d ∧ st'.cacheFp = some i ∧ st'.cacheRec = r ∧
      st'.dma = paste d ((st.dfiles i).pos % 128).toNat
        (rest.take (min rest.length (128 - ((st.dfiles i).pos % 128).toNat)))

/-- A round with a random write that fails ends the loop. -/
theorem qwriteRound_failed (hb : Directory b v) {i : Fin 16} {rest : List Byte} {st : DiskIo σ} {e : BdosEvent σ}
    (hc : Coherent v st) (hpos : 0 ≤ (st.dfiles i).pos) (hlt : (st.dfiles i).pos < 2 ^ 31)
    (hok : WritesOk st.log) (he : e ∈ (qwriteRound b i rest st).2.log) (hfn : e.fn = .writernd)
    (hal : e.al ≠ 0) :
    (qwriteRound b i rest st).1 = 0 ∧ e.fcb.rec = ((st.dfiles i).pos / 128).toNat ∧
      FailedRound b v i rest e.fcb.rec st (qwriteRound b i rest st).2 := by
  obtain ⟨rc, st₁, hload, hres⟩ := qwriteRound_cases b i rest st
  have hreads := reads_loadRecord hb i ((st.dfiles i).pos / 128) st
  rw [hload] at hreads
  dsimp only at hreads
  obtain ⟨hold, hcount, -⟩ := loadRecord_log hload
  have hnew : e ∉ st₁.log := fun hmem => hal ((hok e (hold e hmem hfn)).2 hfn)
  obtain ⟨-, heq⟩ | ⟨hrc, al, st₂, hcall, hres⟩ := hres
  · rw [heq] at he
    exact absurd he hnew
  · have hal₂ := congrArg Prod.fst hcall
    have hst : st₂ = _ := (congrArg Prod.snd hcall).symm
    simp only [bdosFile, setFile_self, setFile_dma, setFile_os, setFile_log] at hal₂ hst
    have hrec : ((st.dfiles i).pos / 128 % 2 ^ 24).toNat = ((st.dfiles i).pos / 128).toNat := by omega
    have hkey := (fcbSetRecord_key (st₁.dfiles i).fcb ((st.dfiles i).pos / 128)).trans hreads.key
    have hfrec := (fcbSetRecord_rec (st₁.dfiles i).fcb ((st.dfiles i).pos / 128)).trans hrec
    have hlog : (qwriteRound b i rest st).2.log = st₂.log := by
      obtain ⟨-, heq⟩ | ⟨-, heq⟩ := hres
      · rw [heq]
      · rw [heq]
        rfl
    have hevent : e = ⟨.writernd, fcbSetRecord (st₁.dfiles i).fcb ((st.dfiles i).pos / 128),
        paste st₁.dma ((st.dfiles i).pos % 128).toNat
          (rest.take (min rest.length (128 - ((st.dfiles i).pos % 128).toNat))), st₁.os, al⟩ := by
      rw [hlog, hst] at he
      dsimp only at he
      rw [hal₂] at he
      exact (List.mem_cons.mp he).resolve_right hnew
    have hbad : al ≠ 0 := by
      rw [hevent] at hal
      exact hal
    obtain ⟨-, heq⟩ := hres.resolve_right fun h => hbad h.1
    have herec : e.fcb.rec = ((st.dfiles i).pos / 128).toNat := by
      rw [hevent]
      exact hfrec
    rw [heq, herec]
    generalize hpiece : rest.take (min rest.length (128 - ((st.dfiles i).pos % 128).toNat)) = piece at hst hal₂
    generalize hfcb : fcbSetRecord (st₁.dfiles i).fcb ((st.dfiles i).pos / 128) = fcb at hst hal₂ hkey
    have hwrong : (b.call .writernd fcb (paste st₁.dma ((st.dfiles i).pos % 128).toNat piece) st₁.os).al ≠ 0 :=
      hal₂ ▸ hbad
    have hrecord : v.record st₂.os = v.record st.os := by
      rw [hst]
      exact (hb.writeError _ _ _ hwrong).trans (funext fun l => (hreads.disk l).record)
    have hdma : st₂.dma = paste st₁.dma ((st.dfiles i).pos % 128).toNat piece := by
      rw [hst]
      exact hb.buffer .writernd (by decide) (by decide) _ _ _
    obtain ⟨hmarked, hunmarked⟩ := loadRecord_marks hload
    refine ⟨rfl, rfl, ⟨?_, ?_, ?_, hrecord, ?_⟩⟩
    · rw [hst]
      unfold storedWrites at hcount ⊢
      rw [List.countP_cons_of_neg (by simpa using hwrong), hcount]
    · intro j hj
      rw [← hreads.others j hj, hst]
      dsimp only
      rw [setFile_of_ne _ _ hj, setFile_of_ne _ _ hj]
    · obtain ⟨fcb', x, hkey', hfile⟩ := hreads.file
      refine ⟨(b.call .writernd fcb (paste st₁.dma ((st.dfiles i).pos % 128).toNat piece) st₁.os).fcb, x, ?_, ?_⟩
      · rw [hb.key .writernd (by simp), hkey]
      · rw [hst]
        simp only [setFile_self, hfile, Int.natCast_zero, Int.add_zero]
    · obtain ⟨rfl, hsome⟩ | ⟨e', he', hfn', hres'⟩ := loadRecord_spec hb hc hload
      · apply Or.inr
        rw [hrec] at hsome
        obtain ⟨hfp, hcrec⟩ := hmarked rfl
        refine ⟨_, hsome, ?_, ?_, by rw [hdma, ← hpiece]⟩
        · rw [hst]
          exact hfp
        · rw [hst]
          refine hcrec.trans ?_
          omega
      · obtain ⟨rfl, -, -, hnone⟩ | ⟨rfl, -⟩ := hres'
        · apply Or.inl
          rw [hrec] at hnone
          refine ⟨hnone, ?_⟩
          rw [hst]
          exact hunmarked (by decide)
        · exact absurd hrc (by decide)

/-- A round that writes its part of the data stores one record. -/
theorem qwriteRound_stored (hb : Directory b v) {i : Fin 16} {rest : List Byte} {st : DiskIo σ}
    (hpos : 0 ≤ (st.dfiles i).pos) (hlt : (st.dfiles i).pos < 2 ^ 31) (hok : WritesOk st.log)
    (hn : (qwriteRound b i rest st).1 ≠ 0) :
    WritesOk (qwriteRound b i rest st).2.log ∧
      storedWrites (qwriteRound b i rest st).2.log = storedWrites st.log + 1 ∧
      ∀ r, r ≠ ((st.dfiles i).pos / 128).toNat →
        v.record (qwriteRound b i rest st).2.os (st.dfiles i).fcb.key r =
          v.record st.os (st.dfiles i).fcb.key r := by
  obtain ⟨rc, st₁, hload, hres⟩ := qwriteRound_cases b i rest st
  have hreads := reads_loadRecord hb i ((st.dfiles i).pos / 128) st
  rw [hload] at hreads
  dsimp only at hreads
  obtain ⟨-, hcount, hok₁⟩ := loadRecord_log hload
  obtain ⟨-, heq⟩ | ⟨hrc, al, st₂, hcall, ⟨-, heq⟩ | ⟨hzero, heq⟩⟩ := hres
  · exact absurd (congrArg Prod.fst heq) hn
  · exact absurd (congrArg Prod.fst heq) hn
  · have hal := congrArg Prod.fst hcall
    have hst : st₂ = _ := (congrArg Prod.snd hcall).symm
    simp only [bdosFile, setFile_self, setFile_dma, setFile_os, setFile_log] at hal hst
    have hrec : ((st.dfiles i).pos / 128 % 2 ^ 24).toNat = ((st.dfiles i).pos / 128).toNat := by omega
    have hkey := (fcbSetRecord_key (st₁.dfiles i).fcb ((st.dfiles i).pos / 128)).trans hreads.key
    have hfrec := (fcbSetRecord_rec (st₁.dfiles i).fcb ((st.dfiles i).pos / 128)).trans hrec
    rw [heq]
    dsimp only [setFile_log, setFile_os]
    generalize paste st₁.dma _ _ = data at hst hal
    generalize fcbSetRecord (st₁.dfiles i).fcb _ = fcb at hst hal hkey hfrec
    have hgood := hal.trans hzero
    refine ⟨?_, ?_, fun r hr => ?_⟩
    · rw [hst]
      exact (hok₁ hrc hok).cons ⟨fun h => (by cases h), fun _ => hgood⟩
    · rw [hst]
      unfold storedWrites at hcount ⊢
      rw [List.countP_cons_of_pos (by simpa using hgood), hcount]
    · have hother := hb.writeOther fcb data st₁.os (st.dfiles i).fcb.key r hgood
        (.inr ⟨hkey.symm, by rwa [hfrec]⟩)
      rw [hst]
      exact hother.trans (congrFun (hreads.disk _).record r)

/-- Where the loop stands when a random write fails: `m` records have been stored, up to a place in the data, and
the records behind them are as they were. -/
structure Stopped (b : Bdos σ) (v : View σ) (i : Fin 16) (rest : List Byte) (m t : ℕ) (st st₁ : DiskIo σ) :
    Prop extends Writes b v i (rest.take t) st st₁ where
  short : t < rest.length
  place : (st.dfiles i).pos.toNat + t = storedEnd (st.dfiles i).pos.toNat m
  coherent₁ : Coherent v st₁
  stored : storedWrites st₁.log = storedWrites st.log + m
  behind : ∀ r, ((st₁.dfiles i).pos / 128).toNat ≤ r →
    v.record st₁.os (st.dfiles i).fcb.key r = v.record st.os (st.dfiles i).fcb.key r

theorem pos_lt_of_writes (hb : Directory b v) {i : Fin 16} {data : List Byte} {st st₁ : DiskIo σ}
    (h : Writes b v i data st st₁) (hpos : 0 ≤ (st.dfiles i).pos) (hlt : (st.dfiles i).pos < 2 ^ 31) :
    (st₁.dfiles i).pos < 2 ^ 31 := by
  rw [h.pos]
  by_cases hdata : data = []
  · rw [hdata]
    simpa using hlt
  · have hsize := h.size
    have hmax := hb.size_le st₁.os (st.dfiles i).fcb.key
    unfold grownSize at hsize
    rw [if_neg hdata] at hsize
    omega

/-- A round with data behind it fills its record. -/
theorem storedEnd_next {pos : Int} {n len m t : ℕ} (hpos : 0 ≤ pos) (hn : n = min len (128 - (pos % 128).toNat))
    (hlt : t < len - n) (hplace : (pos + n).toNat + t = storedEnd (pos + n).toNat m) :
    pos.toNat + (n + t) = storedEnd pos.toNat (m + 1) := by
  have hfull : (pos + n).toNat = 128 * (pos.toNat / 128 + 1) := by omega
  unfold storedEnd at hplace ⊢
  rw [if_neg m.succ_ne_zero]
  rw [hfull] at hplace
  split_ifs at hplace <;> omega

theorem qwriteLoop_failed (hb : Directory b v) (i : Fin 16) (rest : List Byte) (total : ℕ) (st : DiskIo σ)
    {e : BdosEvent σ} (hc : Coherent v st) (hpos : 0 ≤ (st.dfiles i).pos) (hlt : (st.dfiles i).pos < 2 ^ 31)
    (hok : WritesOk st.log) (he : e ∈ (qwriteLoop b i rest total st).2.log) (hfn : e.fn = .writernd)
    (hal : e.al ≠ 0) :
    ∃ m t st₁, Stopped b v i rest m t st st₁ ∧ e.fcb.rec = ((st₁.dfiles i).pos / 128).toNat ∧
      FailedRound b v i (rest.drop t) e.fcb.rec st₁ (qwriteLoop b i rest total st).2 := by
  induction rest, total, st using qwriteLoop.induct b i with
  | case1 total st =>
      rw [qwriteLoop, dif_pos rfl] at he
      exact absurd ((hok e he).2 hfn) hal
  | case2 rest total st hr r h0 =>
      rw [qwriteLoop, dif_neg hr, dif_pos h0] at he ⊢
      obtain ⟨-, hrec, hfailed⟩ := qwriteRound_failed hb hc hpos hlt hok he hfn hal
      refine ⟨0, 0, st, ⟨Writes.refl i st, List.length_pos_of_ne_nil hr, ?_, hc, rfl, fun _ _ => rfl⟩, hrec, ?_⟩
      · simp [storedEnd]
      · exact hfailed
  | case3 rest total st hr r h0 ih =>
      rw [qwriteLoop, dif_neg hr, dif_neg h0] at he ⊢
      obtain ⟨hok₁, hcount, hothers⟩ := qwriteRound_stored hb hpos hlt hok h0
      obtain ⟨hn, hwrites⟩ := qwriteRound_spec hb hc hpos hlt hr hok₁
      change r.1 = _ at hn
      rw [← hn] at hwrites
      change Writes b v i (rest.take r.1) st r.2 at hwrites
      change WritesOk r.2.log at hok₁
      change storedWrites r.2.log = _ at hcount
      change ∀ r', _ → v.record r.2.os _ r' = _ at hothers
      have hle : r.1 ≤ rest.length := by
        rw [hn]
        exact Nat.min_le_left _ _
      have htake : (rest.take r.1).length = r.1 := by
        rw [List.length_take]
        omega
      have hpos₁ : (r.2.dfiles i).pos = (st.dfiles i).pos + r.1 := by rw [hwrites.pos, htake]
      have hlt₁ := pos_lt_of_writes hb hwrites hpos hlt
      obtain ⟨m, t, st₁, hstop, hrec, hfailed⟩ := ih (hwrites.coherent (fun _ => hok₁.stored) hc)
        (by rw [hpos₁]; omega) hlt₁ hok₁ he
      have hshort := hstop.short
      rw [List.length_drop] at hshort
      have hplace := hstop.place
      have hbehind := hstop.behind
      have hcount₁ := hstop.stored
      have hpos₂ := hstop.pos
      rw [hpos₁] at hplace hpos₂
      refine ⟨m + 1, r.1 + t, st₁, ⟨?_, by omega, ?_, hstop.coherent₁, ?_, fun r' hr' => ?_⟩, hrec, ?_⟩
      · have htrans := hwrites.trans hpos hstop.toWrites
        rwa [← List.take_add] at htrans
      · exact storedEnd_next hpos hn hshort hplace
      · rw [hcount₁, hcount]
        omega
      · have hbehind' := hbehind r' hr'
        rw [hwrites.key] at hbehind'
        rw [hbehind']
        apply hothers
        omega
      · rw [← List.drop_drop]
        exact hfailed

/-! ### The data that failed -/

/-- The record `r` is on the disk, the file can be read, and one of its bytes in the record would be changed by
the data. -/
def Phantom (v : View σ) (i : Fin 16) (data : List Byte) (st : DiskIo σ) (r : ℕ) : Prop :=
  (st.dfiles i).readable = true ∧ ∃ d, v.record st.os (st.dfiles i).fcb.key r = some d ∧
    ∃ k : Fin 128, (st.dfiles i).writing.pos.toNat ≤ 128 * r + k ∧
      128 * r + k < (st.dfiles i).writing.pos.toNat + data.length ∧
      ((128 * r + k : ℕ) : Int) < (st.dfiles i).len ∧
      data[128 * r + k - (st.dfiles i).writing.pos.toNat]? ≠ some (d k)

/-- The position and the length count the `m` records that were written. -/
def CountsStored (fp fp' : DFile) (m : ℕ) : Prop :=
  fp'.pos = storedEnd fp.writing.pos.toNat m ∧
    fp'.len = if m = 0 then fp.len else max fp.len (storedEnd fp.writing.pos.toNat m)

/-- A write during which a random write fails. -/
structure Failed (b : Bdos σ) (v : View σ) (i : Fin 16) (data : List Byte) (r m t : ℕ) (st st' : DiskIo σ) :
    Prop where
  place : (st.dfiles i).writing.pos.toNat + t = storedEnd (st.dfiles i).writing.pos.toNat m
  stored : storedWrites st'.log = m
  record : r = ((st.dfiles i).writing.pos.toNat + t) / 128
  short : t < data.length
  others : ∀ j, j ≠ i → st'.dfiles j = st.dfiles j
  file : ∃ fcb x, Fcb.key fcb = (st.dfiles i).fcb.key ∧
    st'.dfiles i = { (st.dfiles i).writing.grown (data.take t) with fcb := fcb, ateof := x }
  bound : (st.dfiles i).writing.pos + t < 2 ^ 31
  coherent : st'.cacheFp = none ∨ ∃ d, v.record st.os (st.dfiles i).fcb.key r = some d ∧
    v.record st'.os (st.dfiles i).fcb.key r = some d ∧ st'.cacheFp = some i ∧ st'.cacheRec = r ∧
    st'.dma = paste d (((st.dfiles i).writing.pos.toNat + t) % 128)
      ((data.drop t).take (128 - ((st.dfiles i).writing.pos.toNat + t) % 128))
  absent : st'.cacheFp = none → v.record st.os (st.dfiles i).fcb.key r = none

theorem execState_failed (hb : Directory b v) {handle : Int} {data : List Byte} {i : Fin 16} {st : DiskIo σ}
    {e : BdosEvent σ} (hfile : writeFile st handle = some i) (hc : Coherent v st)
    (hpos : 0 ≤ (st.dfiles i).writing.pos) (hlt : (st.dfiles i).writing.pos < 2 ^ 31)
    (he : e ∈ (execState b st (.qwrite handle data)).log) (hfn : e.fn = .writernd) (hal : e.al ≠ 0) :
    ∃ m t, Failed b v i data e.fcb.rec m t st (execState b st (.qwrite handle data)) := by
  have hfile' : writeFile { st with log := [] } handle = some i := hfile
  have hstate : execState b st (.qwrite handle data) =
      (qwriteLoop b i data 0 (({ st with log := [] } : DiskIo σ).setFile i DFile.writing)).2 := by
    change (qwrite b handle data { st with log := [] }).2 = _
    rw [qwrite_eq hfile']
  rw [hstate] at he ⊢
  have hself := setFile_self ({ st with log := [] } : DiskIo σ) i DFile.writing
  have hother := fun j (hj : j ≠ i) => setFile_of_ne ({ st with log := [] } : DiskIo σ) DFile.writing hj
  have hos : (({ st with log := [] } : DiskIo σ).setFile i DFile.writing).os = st.os := rfl
  have hlog : (({ st with log := [] } : DiskIo σ).setFile i DFile.writing).log = [] := rfl
  have hc₀ : Coherent v (({ st with log := [] } : DiskIo σ).setFile i DFile.writing) :=
    (touches_setFile (v := v) (w := false) i ({ st with log := [] } : DiskIo σ) DFile.writing rfl rfl
      rfl).coherent (by simp) hc
  generalize ({ st with log := [] } : DiskIo σ).setFile i DFile.writing = st₀ at he hself hother hos hlog hc₀ ⊢
  dsimp only at hself hother
  obtain ⟨m, t, st₁, hstop, hrec, hfailed⟩ := qwriteLoop_failed hb i data 0 st₀ hc₀ (by rwa [hself])
    (by rwa [hself]) (by rw [hlog]; exact fun _ h => nomatch h) he hfn hal
  have hkey : (st₀.dfiles i).fcb.key = (st.dfiles i).fcb.key := by rw [hself]; rfl
  have htake : (data.take t).length = t := by
    have := hstop.short
    rw [List.length_take]
    omega
  have hpos₁ := hstop.pos
  rw [htake, hself] at hpos₁
  have hlt₁ := pos_lt_of_writes hb hstop.toWrites (by rwa [hself]) (by rwa [hself])
  have hnat : (st₁.dfiles i).pos.toNat = (st.dfiles i).writing.pos.toNat + t := by omega
  have hr : e.fcb.rec = ((st.dfiles i).writing.pos.toNat + t) / 128 := by omega
  have hplace := hstop.place
  rw [hself] at hplace
  have hsame : v.record st₁.os (st.dfiles i).fcb.key e.fcb.rec = v.record st.os (st.dfiles i).fcb.key e.fcb.rec := by
    have := hstop.behind e.fcb.rec (by omega)
    rwa [hkey, hos] at this
  have hkey₁ : (st₁.dfiles i).fcb.key = (st.dfiles i).fcb.key := hstop.key.trans hkey
  have hrecord := hfailed.record
  refine ⟨m, t, hplace, ?_, hr, hstop.short, ?_, ?_, by omega, ?_, ?_⟩
  · rw [hfailed.log, hstop.stored, hlog]
    simp [storedWrites]
  · intro j hj
    rw [hfailed.others j hj, hstop.others j hj, hother j hj]
  · obtain ⟨fcb, x, hfcb, hfile₁⟩ := hstop.file
    obtain ⟨fcb', x', hfcb', hfile₂⟩ := hfailed.file
    refine ⟨fcb', x', hfcb'.trans hkey₁, ?_⟩
    rw [hfile₂, hfile₁, hself]
  · obtain ⟨-, hnone⟩ | ⟨d, hd, hfp, hcrec, hdma⟩ := hfailed.buffer
    · exact .inl hnone
    · apply Or.inr
      rw [hkey₁] at hd
      refine ⟨d, hsame ▸ hd, by rw [hrecord]; exact hd, hfp, hcrec, ?_⟩
      have hoff : ((st₁.dfiles i).pos % 128).toNat = ((st.dfiles i).writing.pos.toNat + t) % 128 := by omega
      rw [hdma, hoff, List.take_eq_take_iff.mpr]
      omega
  · intro hnone
    obtain ⟨habsent, -⟩ | ⟨d, hd, hfp, -⟩ := hfailed.buffer
    · rw [hkey₁] at habsent
      rw [← hsame]
      exact habsent
    · rw [hfp] at hnone
      cases hnone

section

variable {i : Fin 16} {data : List Byte} {r m t : ℕ} {st st' : DiskIo σ}

/-- Nothing is stored exactly if no byte is counted. -/
theorem Failed.zero_iff (h : Failed b v i data r m t st st') : t = 0 ↔ m = 0 := by
  have hplace := h.place
  unfold storedEnd at hplace
  split_ifs at hplace with hm
  · omega
  · omega

theorem Failed.fields (h : Failed b v i data r m t st st') :
    (st'.dfiles i).pos = (st.dfiles i).writing.pos + t ∧
      (st'.dfiles i).len = (if m = 0 then (st.dfiles i).len else max (st.dfiles i).len
        ((st.dfiles i).writing.pos + t)) ∧
      (st'.dfiles i).readable = (st.dfiles i).readable ∧ (st'.dfiles i).used = (st.dfiles i).used ∧
      (st'.dfiles i).isCon = (st.dfiles i).isCon ∧ (st'.dfiles i).wrote = true ∧
      (st'.dfiles i).fcb.key = (st.dfiles i).fcb.key := by
  obtain ⟨fcb, x, hkey, hfile⟩ := h.file
  have hzero := h.zero_iff
  have hshort := h.short
  have htake : (data.take t).length = t := by
    rw [List.length_take]
    omega
  have hnil : data.take t = [] ↔ m = 0 := by
    rw [← List.length_eq_zero_iff, htake, hzero]
  rw [hfile]
  refine ⟨?_, ?_, rfl, rfl, rfl, rfl, hkey⟩
  · dsimp only [DFile.grown]
    rw [htake]
  · dsimp only [DFile.grown]
    rw [htake]
    simp only [hnil]
    rfl

theorem Failed.countsStored (hpos : 0 ≤ (st.dfiles i).writing.pos) (h : Failed b v i data r m t st st') :
    CountsStored (st.dfiles i) (st'.dfiles i) (storedWrites st'.log) := by
  obtain ⟨hpos', hlen, -⟩ := h.fields
  have hplace := h.place
  rw [h.stored]
  refine ⟨?_, ?_⟩
  · rw [hpos', ← hplace]
    push_cast
    omega
  · rw [hlen, ← hplace]
    split_ifs
    · rfl
    · push_cast
      omega

theorem Failed.sane (hsane : Sane st) (hpos : 0 ≤ (st.dfiles i).writing.pos)
    (h : Failed b v i data r m t st st') : Sane st' := by
  intro j
  by_cases hji : j = i
  · subst hji
    obtain ⟨hpos', hlen, -⟩ := h.fields
    have hbound := h.bound
    have hold := (hsane j).2
    rw [hpos', hlen]
    refine ⟨by omega, ?_⟩
    split_ifs
    · exact hold
    · omega
  · rw [h.others j hji]
    exact hsane j

/-- The failed record begins at or before the place where the loop stands. -/
theorem Failed.le_of_record (h : Failed b v i data r m t st st') {k : ℕ}
    (hk : (st.dfiles i).writing.pos.toNat ≤ 128 * r + k) : (st.dfiles i).writing.pos.toNat + t ≤ 128 * r + k := by
  have hplace := h.place
  have hrecord := h.record
  unfold storedEnd at hplace
  split_ifs at hplace
  · omega
  · omega

/-- The byte of the buffer where the data was merged. -/
theorem Failed.merged (h : Failed b v i data r m t st st') (hmarked : st'.cacheFp = some i) {k : Fin 128}
    (hlow : (st.dfiles i).writing.pos.toNat ≤ 128 * r + k)
    (hhigh : 128 * r + k < (st.dfiles i).writing.pos.toNat + data.length) :
    data[128 * r + k - (st.dfiles i).writing.pos.toNat]? = some (st'.dma k) := by
  obtain hnone | ⟨d, -, -, -, -, hdma⟩ := h.coherent
  · rw [hnone] at hmarked
    cases hmarked
  · have hle := h.le_of_record hlow
    have hrecord := h.record
    have hk := k.isLt
    rw [hdma]
    unfold paste
    generalize hoff : ((st.dfiles i).writing.pos.toNat + t) % 128 = off
    obtain ⟨j, hj⟩ : ∃ j, k.val = off + j := ⟨k.val - off, by omega⟩
    have hlen : j < ((data.drop t).take (128 - off)).length := by
      rw [List.length_take, List.length_drop]
      omega
    rw [hj, overlay_of_mem hlen, List.getElem_take, List.getElem_drop, ← List.getElem?_eq_getElem]
    congr 1
    omega

/-- Outside the data the buffer holds the record. -/
theorem Failed.unmerged (h : Failed b v i data r m t st st') (hmarked : st'.cacheFp = some i) {d : Sector}
    (hd : v.record st.os (st.dfiles i).fcb.key r = some d) {k : Fin 128}
    (hout : 128 * r + k < (st.dfiles i).writing.pos.toNat ∨
      (st.dfiles i).writing.pos.toNat + data.length ≤ 128 * r + k) : st'.dma k = d k := by
  obtain hnone | ⟨d', hd', -, -, -, hdma⟩ := h.coherent
  · rw [hnone] at hmarked
    cases hmarked
  · have hrecord := h.record
    have hshort := h.short
    have hk := k.isLt
    obtain rfl : d' = d := Option.some.inj (hd'.symm.trans hd)
    rw [hdma]
    unfold paste
    generalize hoff : ((st.dfiles i).writing.pos.toNat + t) % 128 = off
    rw [← cellOf_val d' k]
    by_cases hlt : k.val < off
    · exact overlay_of_lt hlt
    · apply overlay_of_ge
      rw [List.length_take, List.length_drop]
      omega

/-- Without a phantom the buffer is clean. -/
theorem Failed.clean (hpos : 0 ≤ (st.dfiles i).writing.pos) (h : Failed b v i data r m t st st')
    (hno : ¬ Phantom v i data st r) : Clean v st' := by
  obtain ⟨hpos', hlen, hreadable, -, -, hwrote, hkey⟩ := h.fields
  obtain hnone | ⟨d, hd, hd', hfp, hrec, hdma⟩ := h.coherent
  · exact .inl (.of_none hnone)
  · apply Or.inr
    have hbound := h.bound
    have hrecord := h.record
    have hr : (st'.cacheRec % 2 ^ 24).toNat = r := by omega
    refine ⟨i, hfp, hwrote, d, ?_, fun hread k hk => ?_⟩
    · rw [hr, hkey]
      exact hd'
    · rw [hrec] at hk
      by_cases hin : (st.dfiles i).writing.pos.toNat ≤ 128 * r + k ∧
          128 * r + k < (st.dfiles i).writing.pos.toNat + data.length
      · have hle := h.le_of_record hin.1
        have hmerged := h.merged hfp hin.1 hin.2
        have hold : ((128 * r + k : ℕ) : Int) < (st.dfiles i).len := by
          rw [hlen] at hk
          split_ifs at hk
          · push_cast
            exact hk
          · push_cast
            omega
        by_contra hne
        refine hno ⟨hreadable ▸ hread, d, hd, k, hin.1, hin.2, hold, fun heq => hne ?_⟩
        exact Option.some.inj (hmerged.symm.trans heq)
      · exact h.unmerged hfp hd (by omega)

end

/-- A handle that can be written to is that of an open file on the disk. -/
theorem writeFile_open {handle : Int} {i : Fin 16} {st : DiskIo σ} (hfile : writeFile st handle = some i) :
    (st.dfiles i).used = true ∧ (st.dfiles i).isCon = false := by
  unfold writeFile at hfile
  by_cases hcon : handle = 1 ∧ st.redirOut < 0 ∨ handle = 2
  · rw [if_pos hcon] at hfile
    cases hfile
  · rw [if_neg hcon] at hfile
    obtain ⟨hfd, hmode⟩ := Option.filter_eq_some_iff.mp hfile
    rw [Bool.and_eq_true, Bool.not_eq_true'] at hmode
    exact ⟨fdToFile_used hfd, hmode.2⟩

/-! ### Reading one byte -/

/-- A read of one byte that finds its record in the buffer. -/
theorem qreadLoop_hit {i : Fin 16} {st : DiskIo σ} (hpos : 0 ≤ (st.dfiles i).pos)
    (hlt : (st.dfiles i).pos < (st.dfiles i).len) (hfp : st.cacheFp = some i)
    (hrec : st.cacheRec = (st.dfiles i).pos / 128) :
    (qreadLoop b i 1 [] st).1 = seen (st.dfiles i).text [cellOf st.dma ((st.dfiles i).pos.toNat % 128)] ∧
      (qreadLoop b i 1 [] st).2.log = st.log := by
  have hfresh : refreshLen b i st = st := by
    unfold refreshLen
    dsimp only
    rw [if_neg fun h => absurd h.1 (not_le.mpr hlt)]
  have hload : loadRecord b i ((st.dfiles i).pos / 128) st = (0, st) := by
    unfold loadRecord
    rw [if_pos ⟨hfp, hrec⟩]
  have hoff : ((st.dfiles i).pos % 128).toNat = (st.dfiles i).pos.toNat % 128 := by omega
  have hone : min 1 (if (st.dfiles i).len - (st.dfiles i).pos < 128 - ((st.dfiles i).pos.toNat % 128 : ℕ)
      then ((st.dfiles i).len - (st.dfiles i).pos).toNat else 128 - (st.dfiles i).pos.toNat % 128) = 1 := by
    split_ifs <;> omega
  have hround : (qreadRound b i 1 st).1.1 =
      seen (st.dfiles i).text [cellOf st.dma ((st.dfiles i).pos.toNat % 128)] ∧
        (qreadRound b i 1 st).2.log = st.log := by
    unfold qreadRound
    dsimp only
    rw [hfresh, if_neg (not_le.mpr hlt), hload]
    dsimp only
    rw [if_neg (not_not.mpr rfl), hoff, hone]
    exact ⟨rfl, rfl⟩
  obtain ⟨hout, hlog⟩ := hround
  rw [qreadLoop, dif_neg Nat.one_ne_zero]
  dsimp only
  split_ifs with hstop
  · exact ⟨by rw [List.nil_append, hout], hlog⟩
  · have hlen : (qreadRound b i 1 st).1.1.length = 1 := by
      have hne := (not_or.mp hstop).1
      have hpos' := List.length_pos_of_ne_nil hne
      have hle := seen_length_le (st.dfiles i).text [cellOf st.dma ((st.dfiles i).pos.toNat % 128)]
      rw [← hout] at hle
      rw [List.length_singleton] at hle
      omega
    rw [hlen, Nat.sub_self, qreadLoop, dif_pos rfl, List.nil_append]
    exact ⟨hout, hlog⟩

/-- A seek from the start of the file. -/
theorem execState_seek {i : Fin 16} {st : DiskIo σ} (hused : (st.dfiles i).used = true) {q : ℕ} (hq : q < 2 ^ 31) :
    execState b st (.lseek (3 + (i.val : Int)) q .set) =
      ({ st with log := [] } : DiskIo σ).setFile i fun fp => { fp with pos := q, ateof := false } := by
  have hstate : execState b st (.lseek (3 + (i.val : Int)) q .set) =
      (lseek (3 + (i.val : Int)) q .set { st with log := [] }).2 := rfl
  have hfd : fdToFile ({ st with log := [] } : DiskIo σ) (3 + (i.val : Int)) = some i := fdToFile_slot hused
  have hlong : toLong (0 + (q : Int)) = q := by
    rw [Int.zero_add]
    exact toLong_of_lt (Int.natCast_nonneg _) (by omega)
  rw [hstate]
  unfold lseek
  rw [hfd]
  simp only [Origin.base]
  rw [hlong, if_neg (by omega)]

/-- A read of one byte through the handle of the file. -/
theorem exec_read_byte {i : Fin 16} {st : DiskIo σ} (hused : (st.dfiles i).used = true)
    (hdisk : (st.dfiles i).isCon = false) (hread : (st.dfiles i).readable = true)
    (hpos : 0 ≤ (st.dfiles i).pos) (hlt : (st.dfiles i).pos < (st.dfiles i).len) (hfp : st.cacheFp = some i)
    (hrec : st.cacheRec = (st.dfiles i).pos / 128) :
    readFile st (3 + (i.val : Int)) = some i ∧
      (exec b st (.qread (3 + (i.val : Int)) 1)).1.bytes =
        seen (st.dfiles i).text [cellOf st.dma ((st.dfiles i).pos.toNat % 128)] ∧
      (execState b st (.qread (3 + (i.val : Int)) 1)).log = [] := by
  have hfile : readFile { st with log := [] } (3 + (i.val : Int)) = some i := by
    have hfd : fdToFile ({ st with log := [] } : DiskIo σ) (3 + (i.val : Int)) = some i := fdToFile_slot hused
    unfold readFile
    rw [if_neg (by omega), if_neg (by omega), hfd, Option.filter_some, if_pos]
    rw [hread, hdisk]
    rfl
  have hbytes : (exec b st (.qread (3 + (i.val : Int)) 1)).1.bytes =
      (qread b (3 + (i.val : Int)) 1 { st with log := [] }).1.2 := rfl
  have hafter : execState b st (.qread (3 + (i.val : Int)) 1) =
      (qread b (3 + (i.val : Int)) 1 { st with log := [] }).2 := rfl
  rw [hbytes, hafter, qread_eq hfile]
  dsimp only
  have hself := setFile_self ({ st with log := [] } : DiskIo σ) i fun fp => { fp with ateof := false }
  have hmarks : (({ st with log := [] } : DiskIo σ).setFile i fun fp => { fp with ateof := false }).cacheFp =
      some i := hfp
  have hmarks' : (({ st with log := [] } : DiskIo σ).setFile i fun fp => { fp with ateof := false }).cacheRec =
      (st.dfiles i).pos / 128 := hrec
  have hdma : (({ st with log := [] } : DiskIo σ).setFile i fun fp => { fp with ateof := false }).dma = st.dma := rfl
  have hlog : (({ st with log := [] } : DiskIo σ).setFile i fun fp => { fp with ateof := false }).log = [] := rfl
  generalize ({ st with log := [] } : DiskIo σ).setFile i _ = w at hself hmarks hmarks' hdma hlog ⊢
  dsimp only at hself
  have hpos' : 0 ≤ (w.dfiles i).pos := by
    rw [hself]
    exact hpos
  have hlt' : (w.dfiles i).pos < (w.dfiles i).len := by
    rw [hself]
    exact hlt
  obtain ⟨hout, hlog'⟩ := qreadLoop_hit (b := b) hpos' hlt' hmarks (by rw [hself]; exact hmarks')
  rw [hself, hdma] at hout
  exact ⟨hfile, hout, hlog'.trans hlog⟩

/-- A later read of the byte returns the phantom. -/
theorem Failed.not_readsDisk {i : Fin 16} {data : List Byte} {r m t : ℕ} {st st' : DiskIo σ}
    (hsane : Sane st) (h : Failed b v i data r m t st st') (hused : (st.dfiles i).used = true)
    (hdisk : (st.dfiles i).isCon = false) (hphantom : Phantom v i data st r) : ¬ ReadsDisk b v st' := by
  intro hreads
  obtain ⟨hread, d, hd, k, hlow, hhigh, hold, hne⟩ := hphantom
  obtain ⟨hpos', hlen, hreadable, hused', hcon', hwrote, hkey⟩ := h.fields
  have hk := k.isLt
  have hmax := (hsane i).2
  obtain hnone | ⟨d', hd₁, hd₂, hfp, hrec, -⟩ := h.coherent
  · rw [h.absent hnone] at hd
    cases hd
  obtain rfl : d' = d := Option.some.inj (hd₁.symm.trans hd)
  have hmerged := h.merged hfp hlow hhigh
  generalize hq : 128 * r + k.val = q at *
  have hlong : (q : Int) < (st'.dfiles i).len := by
    rw [hlen]
    split_ifs
    · exact hold
    · exact lt_of_lt_of_le hold (le_max_left _ _)
  -- Seek to the byte and read it.
  obtain ⟨w, hw⟩ : ∃ w, execState b st' (.lseek (3 + (i.val : Int)) q .set) = w := ⟨_, rfl⟩
  have hseek := execState_seek (b := b) (i := i) (q := q) (hused'.trans hused) (by omega)
  rw [hw] at hseek
  have hfile : w.dfiles i = { st'.dfiles i with pos := (q : Int), ateof := false } := by
    rw [hseek, setFile_self]
  have hmarks : w.cacheFp = some i ∧ w.cacheRec = r ∧ w.dma = st'.dma ∧ w.os = st'.os := by
    rw [hseek]
    exact ⟨hfp, hrec, rfl, rfl⟩
  obtain ⟨hwfp, hwrec, hwdma, hwos⟩ := hmarks
  have hfields : (w.dfiles i).used = true ∧ (w.dfiles i).isCon = false ∧ (w.dfiles i).readable = true ∧
      (w.dfiles i).pos = q ∧ (w.dfiles i).len = (st'.dfiles i).len ∧
      (w.dfiles i).fcb.key = (st.dfiles i).fcb.key := by
    rw [hfile]
    exact ⟨hused'.trans hused, hcon'.trans hdisk, hreadable.trans hread, rfl, rfl, hkey⟩
  obtain ⟨hwused, hwcon, hwread, hwpos, hwlen, hwkey⟩ := hfields
  obtain ⟨hreadFile, hbytes, hlog⟩ := exec_read_byte (b := b) hwused hwcon hwread (by omega)
    (by rw [hwpos, hwlen]; exact hlong) hwfp (by omega)
  have hfound := hreads [.lseek (3 + (i.val : Int)) q .set]
    (fun c hc => by rw [List.mem_singleton.mp hc]; exact trivial) (3 + (i.val : Int)) 1 i
    (by rw [run_cons, run_nil, hw]; exact hreadFile)
  rw [run_cons, run_nil, hw, hbytes] at hfound
  generalize execState b w (.qread (3 + (i.val : Int)) 1) = w' at hfound hlog
  have hbyte : cellOf w.dma ((w.dfiles i).pos.toNat % 128) = st'.dma k := by
    rw [hwpos, hwdma, Int.toNat_natCast, show q % 128 = k.val by omega, cellOf_val]
  have hdisk' : diskByte v w.os (w.dfiles i).fcb.key q = some (d' k) := by
    unfold diskByte
    rw [hwos, hwkey, show q / 128 = r by omega, hd₂, show q % 128 = k.val by omega]
    exact congrArg some (cellOf_val d' k)
  rw [hbyte] at hfound
  have hdiff : st'.dma k ≠ d' k := fun heq => hne (heq ▸ hmerged)
  by_cases hstop : (w.dfiles i).text = true ∧ st'.dma k = cpmEof
  · have hnil : seen (w.dfiles i).text [st'.dma k] = [] := by
      rw [hstop.1, hstop.2]
      rfl
    rw [hnil] at hfound
    have hpos'' : (w'.dfiles i).pos = q := by
      rw [hfound.pos]
      dsimp only
      rw [hwpos, List.length_nil, Int.natCast_zero, Int.add_zero]
    obtain ⟨e, he, -⟩ | hend | ⟨-, hctrl⟩ := hfound.short Nat.zero_lt_one
    · rw [hlog] at he
      cases he
    · have hle := hfound.len.1
      dsimp only at hle
      omega
    · rw [hfound.diskByte, hpos'', Int.toNat_natCast] at hctrl
      have hctrl' : diskByte v w.os (w.dfiles i).fcb.key q = some cpmEof := hctrl
      rw [hdisk'] at hctrl'
      exact hdiff (hstop.2.trans (Option.some.inj hctrl').symm)
  · have hall : seen (w.dfiles i).text [st'.dma k] = [st'.dma k] :=
      seen_of_notMem fun htext hmem => hstop ⟨htext, (List.mem_singleton.mp hmem).symm⟩
    rw [hall] at hfound
    have hread₁ : [st'.dma k].map some =
        slice (diskByte v w.os (w.dfiles i).fcb.key) (w.dfiles i).pos.toNat 1 := hfound.bytes
    rw [hwpos, Int.toNat_natCast] at hread₁
    have hhead := congrArg List.head? hread₁
    change some (some (st'.dma k)) = some (diskByte v w.os (w.dfiles i).fcb.key q) at hhead
    rw [hdisk'] at hhead
    exact hdiff (Option.some.inj (Option.some.inj hhead))

/-! ### The result -/

/-- After a write during which a random write fails, later reads return what is on the disk and the position
and the length count what was stored, exactly if the failed record leaves no phantom. -/
theorem failedWrite_iff (hb : Directory b v) {handle : Int} {data : List Byte} {i : Fin 16} {st : DiskIo σ}
    {e : BdosEvent σ} (hfile : writeFile st handle = some i) (hc : Coherent v st) (hsane : Sane st)
    (hpos : 0 ≤ (st.dfiles i).writing.pos) (hlt : (st.dfiles i).writing.pos < 2 ^ 31)
    (he : e ∈ (execState b st (.qwrite handle data)).log) (hfn : e.fn = .writernd) (hal : e.al ≠ 0) :
    (ReadsDisk b v (execState b st (.qwrite handle data)) ∧
        CountsStored (st.dfiles i) ((execState b st (.qwrite handle data)).dfiles i)
          (storedWrites (execState b st (.qwrite handle data)).log)) ↔
      ¬ Phantom v i data st e.fcb.rec := by
  obtain ⟨m, t, hfailed⟩ := execState_failed hb hfile hc hpos hlt he hfn hal
  generalize execState b st (.qwrite handle data) = st' at hfailed
  constructor
  · rintro ⟨hreads, -⟩ hphantom
    have hmode : (st.dfiles i).used = true ∧ (st.dfiles i).isCon = false := writeFile_open hfile
    exact hfailed.not_readsDisk hsane hmode.1 hmode.2 hphantom hreads
  · intro hno
    exact ⟨readsDisk_of_clean hb (hfailed.clean hpos hno) (hfailed.sane hsane hpos), hfailed.countsStored hpos⟩

/-! ### A disk that is full -/

/-- The BDOS with a disk that takes no more records. -/
def fullDisk (b : Bdos σ) : Bdos σ :=
  { b with call := fun fn fcb dma os => if fn = .writernd then ⟨2, fcb, dma, os⟩ else b.call fn fcb dma os }

theorem fullDisk_call {fn : BdosFn} (h : fn ≠ .writernd) (fcb : Fcb) (dma : Sector) (os : σ) :
    (fullDisk b).call fn fcb dma os = b.call fn fcb dma os := if_neg h

theorem fullDisk_writernd (fcb : Fcb) (dma : Sector) (os : σ) :
    (fullDisk b).call .writernd fcb dma os = ⟨2, fcb, dma, os⟩ := rfl

theorem fullDisk_al {p : Prop} {fcb : Fcb} {dma : Sector} {os : σ}
    (h : ((fullDisk b).call .writernd fcb dma os).al = 0) : p := by
  rw [fullDisk_writernd] at h
  exact absurd h (show ¬ (2 : Byte) = 0 by decide)

/-- It keeps what is promised of the other one. -/
theorem fullDisk_directory (hb : Directory b v) : Directory (fullDisk b) v where
  read := hb.read
  write _ _ _ h := fullDisk_al h
  writeError _ _ _ _ := rfl
  quiet := by
    intro fn hw hd hr fcb dma os
    rw [fullDisk_call hw]
    exact hb.quiet fn hw hd hr fcb dma os
  conout := hb.conout
  delete := hb.delete
  rename := hb.rename
  buffer := by
    intro fn hread hsfirst fcb dma os
    by_cases hw : fn = .writernd
    · subst hw
      rfl
    · rw [fullDisk_call hw]
      exact hb.buffer fn hread hsfirst fcb dma os
  key := by
    intro fn hfn fcb dma os
    by_cases hw : fn = .writernd
    · subst hw
      rfl
    · rw [fullDisk_call hw]
      exact hb.key fn hfn fcb dma os
  unwritten := hb.unwritten
  bound := hb.bound
  size_le := hb.size_le
  absent := hb.absent
  openAl := hb.openAl
  openKey := hb.openKey
  deleteKey := hb.deleteKey
  openCount := hb.openCount
  make := hb.make
  sizeOf := hb.sizeOf
  writeOther _ _ _ _ _ h := fullDisk_al h
  writeSize _ _ _ h := fullDisk_al h
  writePresent _ _ _ h := h
  others := by
    intro fn hfn fcb dma os k hk
    by_cases hw : fn = .writernd
    · subst hw
      exact ⟨rfl, Iff.rfl⟩
    · rw [fullDisk_call hw]
      exact hb.others fn hfn fcb dma os k hk
  same := by
    intro fn hfn fcb dma os k
    by_cases hw : fn = .writernd
    · subst hw
      exact ⟨rfl, Iff.rfl⟩
    · rw [fullDisk_call hw]
      exact hb.same fn hfn fcb dma os k
  conoutSame := hb.conoutSame

/-- A file with the bytes `XY` is open for reading and writing. -/
def openedXY : DiskIo Ram :=
  run (execState ramBdos) (DiskIo.start [])
    [.sopen [0x41] ⟨2, false, true, true, true⟩, .qwrite 3 [0x58, 0x59], .close 3,
      .sopen [0x41] ⟨2, false, false, false, true⟩]

theorem openedXY_coherent : Coherent ramView openedXY := Coherent.of_none (by decide +kernel)

theorem openedXY_sane : Sane openedXY :=
  (by decide +kernel : ∀ i, 0 ≤ (openedXY.dfiles i).pos ∧ (openedXY.dfiles i).len < 2 ^ 31)

/-- The event of the write that fails. -/
theorem openedXY_event : ∃ e ∈ (execState (fullDisk ramBdos) openedXY (.qwrite 3 [0x5A])).log,
    e.fn = .writernd ∧ e.al ≠ 0 ∧ e.fcb.rec = 0 := by
  decide +kernel

/-- On a full disk `Z` is written over the first byte. -/
theorem failedWrite_full : ∃ e : BdosEvent Ram,
    (ReadsDisk (fullDisk ramBdos) ramView (execState (fullDisk ramBdos) openedXY (.qwrite 3 [0x5A])) ∧
        CountsStored (openedXY.dfiles 0) ((execState (fullDisk ramBdos) openedXY (.qwrite 3 [0x5A])).dfiles 0)
          (storedWrites (execState (fullDisk ramBdos) openedXY (.qwrite 3 [0x5A])).log)) ↔
      ¬ Phantom ramView 0 [0x5A] openedXY e.fcb.rec := by
  obtain ⟨e, he, hfn, hal, -⟩ := openedXY_event
  exact ⟨e, failedWrite_iff (fullDisk_directory ramBdos_directory) (by decide +kernel) openedXY_coherent
    openedXY_sane (by decide +kernel) (by decide +kernel) he hfn hal⟩

/-- The next read of the byte returns `Z`, and `X` is on the disk. -/
theorem not_readsDisk_full : ¬ ∀ (σ : Type) (b : Bdos σ) (v : View σ), Directory b v →
    ∀ (handle : Int) (data : List Byte) (i : Fin 16) (st : DiskIo σ) (e : BdosEvent σ),
      writeFile st handle = some i → Coherent v st → Sane st → 0 ≤ (st.dfiles i).writing.pos →
      (st.dfiles i).writing.pos < 2 ^ 31 → e ∈ (execState b st (.qwrite handle data)).log →
      e.fn = .writernd → e.al ≠ 0 →
      ReadsDisk b v (execState b st (.qwrite handle data)) ∧
        CountsStored (st.dfiles i) ((execState b st (.qwrite handle data)).dfiles i)
          (storedWrites (execState b st (.qwrite handle data)).log) := by
  intro h
  obtain ⟨e, he, hfn, hal, hrec⟩ := openedXY_event
  have hfull := fullDisk_directory ramBdos_directory
  have hfile : writeFile openedXY 3 = some 0 := by decide +kernel
  have hpos : (openedXY.dfiles 0).writing.pos = 0 := by decide +kernel
  have hlen : (openedXY.dfiles 0).len = 2 := by decide +kernel
  obtain ⟨hreads, -⟩ := h Ram (fullDisk ramBdos) ramView hfull 3 [0x5A] 0 openedXY e hfile openedXY_coherent
    openedXY_sane (by rw [hpos]) (by rw [hpos]; decide) he hfn hal
  obtain ⟨m, t, hfailed⟩ := execState_failed hfull hfile openedXY_coherent (by rw [hpos])
    (by rw [hpos]; decide) he hfn hal
  have hread : (openedXY.dfiles 0).readable = true := by decide +kernel
  have hbyte : ∃ d, ramView.record openedXY.os (openedXY.dfiles 0).fcb.key 0 = some d ∧ d 0 = 0x58 := by
    have hsome : ((ramView.record openedXY.os (openedXY.dfiles 0).fcb.key 0).map fun d => d 0) = some 0x58 := by
      decide +kernel
    exact Option.map_eq_some_iff.mp hsome
  obtain ⟨d, hd, hd0⟩ := hbyte
  refine hfailed.not_readsDisk openedXY_sane (writeFile_open hfile).1 (writeFile_open hfile).2 ?_ hreads
  rw [hrec]
  refine ⟨hread, d, hd, 0, ?_, ?_, ?_, ?_⟩
  · rw [hpos]
    decide
  · rw [hpos]
    decide
  · rw [hlen]
    decide
  · rw [hpos, hd0]
    decide

end OpenWatcom.Clib
