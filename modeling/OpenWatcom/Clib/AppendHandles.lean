import OpenWatcom.Clib.ReadBack

/-! # Handles that append to one file

`__qwrite` on a handle opened with `O_APPEND` writes at `fp->len`, and every handle has a length of its own.
`appended_run` is what a run of writes on such handles leaves in the file as long as the handle of every write has
the longest length, and `overwrites_of_stale` is what another write does. -/

namespace OpenWatcom.Clib

variable {σ : Type}

/-- A call of `__qwrite` with a handle and data. -/
def writeStep (b : Bdos σ) (st : DiskIo σ) (c : Int × List Byte) : DiskIo σ :=
  execState b st (.qwrite c.1 c.2)

/-- The slots `opened` are open for appending to the file `k`, and the longest of their lengths is `n`. -/
structure AppendHandles (v : View σ) (opened : Fin 16 → Prop) (k : Key) (n : ℕ) (st : DiskIo σ) : Prop where
  coherent : Coherent v st
  append : ∀ i, opened i → (st.dfiles i).append = true
  key : ∀ i, opened i → (st.dfiles i).fcb.key = k
  len_nonneg : ∀ i, opened i → 0 ≤ (st.dfiles i).len
  len_le : ∀ i, opened i → (st.dfiles i).len ≤ n
  longest : ∃ i, opened i ∧ (st.dfiles i).len = n
  bound : n < 2 ^ 31

/-- The call is on one of the handles, and the BDOS reports no error during it. -/
def OnHandles (b : Bdos σ) (opened : Fin 16 → Prop) (st : DiskIo σ) (c : Int × List Byte) : Prop :=
  (∃ i, opened i ∧ writeFile st c.1 = some i) ∧ WritesOk (writeStep b st c).log

/-- The call writes nothing, or no other handle has a longer length than its own. -/
def UpToDate (opened : Fin 16 → Prop) (st : DiskIo σ) (c : Int × List Byte) : Prop :=
  c.2 = [] ∨ ∀ i, writeFile st c.1 = some i → ∀ j, opened j → (st.dfiles j).len ≤ (st.dfiles i).len

/-- Behind the first `n` bytes of the file there is the data, and the rest of the file is as it was. -/
structure Appended (v : View σ) (k : Key) (n : ℕ) (data : List Byte) (os os' : σ) : Prop where
  cells : cell cpmEof (v.record os' k) = overlay (cell cpmEof (v.record os k)) n data
  size : v.size os' k = grownSize (v.size os k) n data

theorem Appended.refl (v : View σ) (k : Key) (n : ℕ) (os : σ) : Appended v k n [] os os :=
  ⟨(overlay_nil _ _).symm, rfl⟩

theorem Appended.trans {v : View σ} {k : Key} {n : ℕ} {l m : List Byte} {os os₁ os₂ : σ}
    (h : Appended v k n l os os₁) (h' : Appended v k (n + l.length) m os₁ os₂) :
    Appended v k n (l ++ m) os os₂ := by
  constructor
  · rw [h'.cells, h.cells, overlay_append]
  · rw [h'.size, h.size, grownSize_append]

section

variable {b : Bdos σ} {v : View σ} {opened : Fin 16 → Prop} {k : Key} {n : ℕ} {st : DiskIo σ}

/-- What a call on one of the handles does: it writes at the length of its own handle. -/
theorem AppendHandles.writes (hb : Directory b v) (h : AppendHandles v opened k n st) {c : Int × List Byte}
    {i : Fin 16} (hi : opened i) (hfile : writeFile st c.1 = some i) (hlog : WritesOk (writeStep b st c).log) :
    Writes b v i c.2 ({ st with log := [] }.setFile i DFile.writing) (writeStep b st c) ∧
      ((({ st with log := [] } : DiskIo σ).setFile i DFile.writing).dfiles i).pos = (st.dfiles i).len := by
  have hpos : (st.dfiles i).writing.pos = (st.dfiles i).len := by
    unfold DFile.writing
    dsimp only
    rw [if_pos (h.append i hi)]
  have hle := h.len_le i hi
  have hbound := h.bound
  have hfile' : writeFile { st with log := [] } c.1 = some i := hfile
  obtain ⟨-, hwrites⟩ := qwrite_complete hb hfile' h.coherent (by rw [hpos]; exact h.len_nonneg i hi)
    (by rw [hpos]; omega) hlog
  refine ⟨hwrites, ?_⟩
  rw [setFile_self]
  exact hpos

/-- A call through a handle with the longest length appends. -/
theorem AppendHandles.step (hb : Directory b v) (h : AppendHandles v opened k n st) {c : Int × List Byte}
    (hon : OnHandles b opened st c) (hfresh : UpToDate opened st c) :
    AppendHandles v opened k (n + c.2.length) (writeStep b st c) ∧
      Appended v k n c.2 st.os (writeStep b st c).os := by
  obtain ⟨⟨i, hi, hfile⟩, hlog⟩ := hon
  obtain ⟨hwrites, hpos⟩ := h.writes hb hi hfile hlog
  have hself := setFile_self ({ st with log := [] } : DiskIo σ) i DFile.writing
  have hkey : ((({ st with log := [] } : DiskIo σ).setFile i DFile.writing).dfiles i).fcb.key = k := by
    rw [hself]
    exact h.key i hi
  have hcells := hwrites.cells
  have hsize := hwrites.size
  rw [hkey, hpos] at hcells hsize
  have hothers : ∀ j, j ≠ i → (writeStep b st c).dfiles j = st.dfiles j := fun j hj => by
    rw [hwrites.others j hj, setFile_of_ne _ _ hj]
  obtain ⟨fcb, x, hfcb, hwritten⟩ := hwrites.file
  have hlen : ((writeStep b st c).dfiles i).len =
      if c.2 = [] then (st.dfiles i).len else max (st.dfiles i).len ((st.dfiles i).len + c.2.length) := by
    rw [hwritten]
    dsimp only [DFile.grown]
    rw [hpos, hself]
    rfl
  have happend : ((writeStep b st c).dfiles i).append = true := by
    rw [hwritten]
    dsimp only [DFile.grown]
    rw [hself]
    exact h.append i hi
  have hcoherent : Coherent v (writeStep b st c) := by
    refine hwrites.coherent (fun _ => hlog.stored) ?_
    exact (touches_setFile (v := v) (w := false) i ({ st with log := [] } : DiskIo σ) DFile.writing
      rfl rfl rfl).coherent (by simp) h.coherent
  -- Where there is data, the handle is one of the longest.
  have hlongest : c.2 ≠ [] → (st.dfiles i).len = n := by
    intro hdata
    obtain ⟨j, hj, hjlen⟩ := h.longest
    have hle := (hfresh.resolve_left hdata) i hfile j hj
    have := h.len_le i hi
    omega
  have happended : Appended v k n c.2 st.os (writeStep b st c).os := by
    by_cases hdata : c.2 = []
    · rw [hdata, overlay_nil] at hcells
      rw [hdata] at hsize ⊢
      exact ⟨hcells.trans (overlay_nil _ _).symm, hsize⟩
    · rw [hlongest hdata, Int.toNat_natCast] at hcells hsize
      exact ⟨hcells, hsize⟩
  have hgrown : ((writeStep b st c).dfiles i).len = (st.dfiles i).len + c.2.length := by
    rw [hlen]
    split_ifs with hdata
    · rw [hdata]
      simp
    · omega
  refine ⟨⟨hcoherent, ?_, ?_, ?_, ?_, ?_, ?_⟩, happended⟩
  · intro j hj
    by_cases hji : j = i
    · rw [hji, happend]
    · rw [hothers j hji, h.append j hj]
  · intro j hj
    by_cases hji : j = i
    · rw [hji, hwrites.key, hkey]
    · rw [hothers j hji, h.key j hj]
  · intro j hj
    by_cases hji : j = i
    · have := h.len_nonneg i hi
      rw [hji, hgrown]
      omega
    · rw [hothers j hji]
      exact h.len_nonneg j hj
  · intro j hj
    by_cases hji : j = i
    · have := h.len_le i hi
      rw [hji, hgrown]
      omega
    · have := h.len_le j hj
      rw [hothers j hji]
      omega
  · by_cases hdata : c.2 = []
    · obtain ⟨j, hj, hjlen⟩ := h.longest
      refine ⟨j, hj, ?_⟩
      rw [hdata, List.length_nil, Nat.add_zero, ← hjlen]
      by_cases hji : j = i
      · rw [hji, hgrown, hdata]
        simp
      · rw [hothers j hji]
    · refine ⟨i, hi, ?_⟩
      rw [hgrown, hlongest hdata]
      push_cast
      rfl
  · by_cases hdata : c.2 = []
    · rw [hdata]
      exact h.bound
    · have hmax := hb.size_le (writeStep b st c).os k
      have hsz := happended.size
      unfold grownSize at hsz
      rw [if_neg hdata] at hsz
      omega

/-- A run of calls through handles with the longest length leaves the old content and behind it the data of
every call, in order. -/
theorem appended_run (hb : Directory b v) {calls : List (Int × List Byte)}
    (h : AppendHandles v opened k n st) (hcalls : Along (writeStep b) (OnHandles b opened) st calls)
    (hfresh : Along (writeStep b) (UpToDate opened) st calls) :
    Appended v k n (calls.flatMap Prod.snd) st.os (run (writeStep b) st calls).os := by
  induction calls generalizing n st with
  | nil => exact .refl v k n st.os
  | cons c calls ih =>
      obtain ⟨hon, hcalls⟩ := hcalls
      obtain ⟨hup, hfresh⟩ := hfresh
      obtain ⟨hnext, happended⟩ := h.step hb hon hup
      rw [List.flatMap_cons, run_cons]
      exact happended.trans (ih hnext hcalls hfresh)

/-- A call through another handle stores its first byte over the content. -/
theorem overwrites_of_stale (hb : Directory b v) (h : AppendHandles v opened k n st) {c : Int × List Byte}
    (hon : OnHandles b opened st c) (hstale : ¬ UpToDate opened st c) :
    ∃ p < n, ∃ x, c.2.head? = some x ∧ cell cpmEof (v.record (writeStep b st c).os k) p = x := by
  obtain ⟨⟨i, hi, hfile⟩, hlog⟩ := hon
  obtain ⟨hwrites, hpos⟩ := h.writes hb hi hfile hlog
  have hkey : ((({ st with log := [] } : DiskIo σ).setFile i DFile.writing).dfiles i).fcb.key = k := by
    rw [setFile_self]
    exact h.key i hi
  have hcells := hwrites.cells
  rw [hkey, hpos] at hcells
  obtain ⟨hdata, hshort⟩ := not_or.mp hstale
  have hlt : (st.dfiles i).len < n := by
    by_contra hge
    refine hshort fun i' hi' j hj => ?_
    obtain rfl : i = i' := Option.some.inj (hfile.symm.trans hi')
    have := h.len_le j hj
    omega
  have hnonneg := h.len_nonneg i hi
  refine ⟨(st.dfiles i).len.toNat, by omega, ?_⟩
  cases hc : c.2 with
  | nil => exact absurd hc hdata
  | cons x rest =>
      refine ⟨x, rfl, ?_⟩
      rw [hcells, hc]
      have hfirst := overlay_of_mem (f := cell cpmEof (v.record st.os k)) (p := (st.dfiles i).len.toNat)
        (i := 0) (l := x :: rest) (by rw [List.length_cons]; omega)
      exact hfirst

end

/-! ### Two handles -/

/-- A file that was made and is open for appending twice. -/
def openedTwice : DiskIo Ram :=
  let mode : OpenMode := ⟨2, true, true, false, true⟩
  (sopen ramBdos [0x41] mode (sopen ramBdos [0x41] mode (DiskIo.start [])).2).2

theorem openedTwice_handles :
    AppendHandles ramView (fun i => i = 0 ∨ i = 1) (openedTwice.dfiles 0).fcb.key 0 openedTwice where
  coherent := Coherent.of_none (by decide +kernel)
  append := by
    rintro i (rfl | rfl) <;> decide +kernel
  key := by
    rintro i (rfl | rfl) <;> decide +kernel
  len_nonneg := by
    rintro i (rfl | rfl) <;> decide +kernel
  len_le := by
    rintro i (rfl | rfl) <;> decide +kernel
  longest := ⟨0, .inl rfl, by decide +kernel⟩
  bound := by decide

theorem openedTwice_on (b : Byte) {st : DiskIo Ram} (h : writeFile st 3 = some 0)
    (hlog : WritesOk (writeStep ramBdos st (3, [b])).log) :
    OnHandles ramBdos (fun i => i = 0 ∨ i = 1) st (3, [b]) :=
  ⟨⟨0, .inl rfl, h⟩, hlog⟩

theorem upToDate_first {st : DiskIo Ram} {data : List Byte} (hfile : writeFile st 3 = some 0)
    (hlen : (st.dfiles 1).len ≤ (st.dfiles 0).len) :
    UpToDate (fun i => i = 0 ∨ i = 1) st (3, data) := by
  apply Or.inr
  intro i hi j hj
  obtain rfl : 0 = i := Option.some.inj (hfile.symm.trans hi)
  obtain rfl | rfl := hj
  · exact le_rfl
  · exact hlen

/-- Two calls on the first handle. -/
theorem appended_twice : Appended ramView (openedTwice.dfiles 0).fcb.key 0
    ([((3 : Int), [(0x58 : Byte)]), (3, [0x59])].flatMap Prod.snd) openedTwice.os
    (run (writeStep ramBdos) openedTwice [(3, [0x58]), (3, [0x59])]).os :=
  appended_run ramBdos_directory openedTwice_handles
    ⟨openedTwice_on 0x58 (by decide +kernel) (by decide +kernel),
      openedTwice_on 0x59 (by decide +kernel) (by decide +kernel), trivial⟩
    ⟨upToDate_first (by decide +kernel) (by decide +kernel),
      upToDate_first (by decide +kernel) (by decide +kernel), trivial⟩

/-- One call on each handle: the second overwrites what the first wrote. -/
theorem not_appended_two : ¬ ∀ (σ : Type) (b : Bdos σ) (v : View σ), Directory b v →
    ∀ (opened : Fin 16 → Prop) (k : Key) (n : ℕ) (st : DiskIo σ), AppendHandles v opened k n st →
      ∀ calls : List (Int × List Byte), Along (writeStep b) (OnHandles b opened) st calls →
        Appended v k n (calls.flatMap Prod.snd) st.os (run (writeStep b) st calls).os := by
  intro h
  have happended := h Ram ramBdos ramView ramBdos_directory _ _ _ _ openedTwice_handles
    [(3, [0x58]), (4, [0x59])]
    ⟨openedTwice_on 0x58 (by decide +kernel) (by decide +kernel),
      ⟨⟨1, .inr rfl, by decide +kernel⟩, by decide +kernel⟩, trivial⟩
  have hcell := congrFun happended.cells 0
  exact absurd hcell (by decide +kernel)

end OpenWatcom.Clib
