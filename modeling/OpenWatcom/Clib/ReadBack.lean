import OpenWatcom.Clib.ByteFiles

/-! # What a read returns

`__qread` returns bytes of the disk, whatever the BDOS answers, as long as the buffer holds what it is marked to
hold, at least as far as the file goes (`Clean`); and it returns fewer bytes than are wanted only for a reason.
The number of bytes is an `int` of 16 bits. -/

namespace OpenWatcom.Clib

variable {σ : Type} {b : Bdos σ} {v : View σ}

/-! ### Bytes of the disk -/

/-- The byte at `p` of a file on the disk, if its record is there. -/
def diskByte (v : View σ) (os : σ) (k : Key) (p : ℕ) : Option Byte :=
  (v.record os k (p / 128)).map fun d => cellOf d (p % 128)

/-- What a read of the file `i` leaves alone that moves `k` bytes ahead: the length may be taken from the disk
again. -/
structure Fetches (v : View σ) (i : Fin 16) (k : ℕ) (st st' : DiskIo σ) : Prop
    extends Touches v false i st st' where
  record : v.record st'.os = v.record st.os
  redirIn : st'.redirIn = st.redirIn
  file : ∃ fcb x len, Fcb.key fcb = (st.dfiles i).fcb.key ∧ (st.dfiles i).len ≤ len ∧ len < 2 ^ 31 ∧
    st'.dfiles i = { st.dfiles i with fcb := fcb, ateof := x, len := len, pos := (st.dfiles i).pos + k }

theorem Fetches.trans {i : Fin 16} {j k : ℕ} {st st₁ st₂ : DiskIo σ} (h : Fetches v i j st st₁)
    (h' : Fetches v i k st₁ st₂) : Fetches v i (j + k) st st₂ where
  toTouches := h.toTouches.trans h'.toTouches
  record := h'.record.trans h.record
  redirIn := h'.redirIn.trans h.redirIn
  file := by
    obtain ⟨fcb, x, len, hkey, hlen, -, hfile⟩ := h.file
    obtain ⟨fcb', x', len', hkey', hlen', hlt', hfile'⟩ := h'.file
    rw [hfile] at hkey' hlen' hfile'
    refine ⟨fcb', x', len', hkey'.trans hkey, hlen.trans hlen', hlt', hfile'.trans ?_⟩
    simp [Int.add_assoc]

theorem Reads.fetches {i : Fin 16} {k : ℕ} {st st' : DiskIo σ} (h : Reads b v i k st st')
    (hlen : (st.dfiles i).len < 2 ^ 31) : Fetches v i k st st' where
  toTouches := h.toTouches
  record := funext fun l => (h.disk l).record
  redirIn := h.redirIn
  file := by
    obtain ⟨fcb, x, hkey, hfile⟩ := h.file
    exact ⟨fcb, x, _, hkey, le_rfl, hlen, hfile⟩

section

variable {i : Fin 16} {k : ℕ} {st st' : DiskIo σ} (h : Fetches v i k st st')
include h

theorem Fetches.key : (st'.dfiles i).fcb.key = (st.dfiles i).fcb.key := by
  obtain ⟨fcb, x, len, hkey, -, -, hfile⟩ := h.file
  rw [hfile]
  exact hkey

theorem Fetches.pos : (st'.dfiles i).pos = (st.dfiles i).pos + k := by
  obtain ⟨fcb, x, len, -, -, -, hfile⟩ := h.file
  rw [hfile]

theorem Fetches.text : (st'.dfiles i).text = (st.dfiles i).text := by
  obtain ⟨fcb, x, len, -, -, -, hfile⟩ := h.file
  rw [hfile]

theorem Fetches.readable : (st'.dfiles i).readable = (st.dfiles i).readable := by
  obtain ⟨fcb, x, len, -, -, -, hfile⟩ := h.file
  rw [hfile]

theorem Fetches.len : (st.dfiles i).len ≤ (st'.dfiles i).len ∧ (st'.dfiles i).len < 2 ^ 31 := by
  obtain ⟨fcb, x, len, -, hle, hlt, hfile⟩ := h.file
  rw [hfile]
  exact ⟨hle, hlt⟩

theorem Fetches.diskByte (p : ℕ) : diskByte v st'.os (st'.dfiles i).fcb.key p =
    diskByte v st.os (st.dfiles i).fcb.key p := by
  unfold Clib.diskByte
  rw [h.key, h.record]

end

/-! ### What the buffer shows -/

/-- The buffer holds a record of the file `i`, which was written to; where the file can be read from, the
record is on the disk as far as the file goes. -/
structure Stale (v : View σ) (i : Fin 16) (st : DiskIo σ) : Prop where
  marked : st.cacheFp = some i
  wrote : (st.dfiles i).wrote = true
  shows : ∃ d, v.record st.os (st.dfiles i).fcb.key (st.cacheRec % 2 ^ 24).toNat = some d ∧
    ((st.dfiles i).readable = true → ∀ k : Fin 128, 128 * st.cacheRec + k.val < (st.dfiles i).len →
      st.dma k = d k)

/-- No read can return a byte of the buffer that is not on the disk. -/
def Clean (v : View σ) (st : DiskIo σ) : Prop := Coherent v st ∨ ∃ i, Stale v i st

/-- Work without writing that leaves the buffer alone or fills it anew. -/
theorem Clean.reads {i : Fin 16} {k : ℕ} {st st' : DiskIo σ} (h : Clean v st) (hreads : Reads b v i k st st')
    (hbuffer : Coherent v st' ∨
      st'.cacheFp = st.cacheFp ∧ st'.cacheRec = st.cacheRec ∧ st'.dma = st.dma) : Clean v st' := by
  obtain hc | ⟨j, hstale⟩ := h
  · exact .inl (hreads.coherent (by simp) hc)
  · obtain hc | ⟨hfp, hrec, hdma⟩ := hbuffer
    · exact .inl hc
    · obtain ⟨d, hd, hshow⟩ := hstale.shows
      have hfile : (st'.dfiles j).fcb.key = (st.dfiles j).fcb.key ∧ (st'.dfiles j).wrote = (st.dfiles j).wrote ∧
          (st'.dfiles j).readable = (st.dfiles j).readable ∧ (st'.dfiles j).len = (st.dfiles j).len := by
        by_cases hji : j = i
        · subst hji
          obtain ⟨fcb, x, hkey, hfile⟩ := hreads.file
          rw [hfile]
          exact ⟨hkey, rfl, rfl, rfl⟩
        · rw [hreads.others j hji]
          exact ⟨rfl, rfl, rfl, rfl⟩
      obtain ⟨hkey, hwrote, hreadable, hlen⟩ := hfile
      apply Or.inr
      refine ⟨j, hfp.trans hstale.marked, hwrote.trans hstale.wrote, d, ?_, ?_⟩
      · rw [hkey, hrec, (hreads.disk _).record]
        exact hd
      · rw [hreadable, hrec, hdma, hlen]
        exact hshow

/-- Where the buffer does not hold the record, it does not matter what it holds. -/
theorem loadRecord_miss {i : Fin 16} {rec : Int} {st : DiskIo σ}
    (h : ¬ (st.cacheFp = some i ∧ st.cacheRec = rec)) :
    loadRecord b i rec st = loadRecord b i rec { st with cacheFp := none } := by
  unfold loadRecord
  rw [if_neg h, if_neg fun hhit => nomatch hhit.1]
  rfl

theorem Clean.loadRecord (hb : Directory b v) {i : Fin 16} {rec : Int} {st : DiskIo σ} (h : Clean v st) :
    Clean v (loadRecord b i rec st).2 := by
  apply h.reads (reads_loadRecord hb i rec st)
  by_cases hhit : st.cacheFp = some i ∧ st.cacheRec = rec
  · apply Or.inr
    unfold Clib.loadRecord
    rw [if_pos hhit]
    exact ⟨rfl, rfl, rfl⟩
  · apply Or.inl
    rw [loadRecord_miss hhit]
    exact (reads_loadRecord hb i rec _).coherent (by simp) (.of_none rfl)

/-- The record that is loaded shows what is on the disk as far as the file goes. -/
theorem loadRecord_shows (hb : Directory b v) {i : Fin 16} {rec rc : Int} {st st₁ : DiskIo σ}
    (h : Clean v st) (hreadable : (st.dfiles i).readable = true) (hload : loadRecord b i rec st = (rc, st₁)) :
    (rc = 0 ∧ ∃ d, v.record st.os (st.dfiles i).fcb.key (rec % 2 ^ 24).toNat = some d ∧
        ∀ k < 128, 128 * rec + (k : ℕ) < (st.dfiles i).len → cellOf st₁.dma k = cellOf d k) ∨
      ∃ e ∈ st₁.log, e.fn = .readrand ∧ rc ≠ 0 ∧ e.al ≠ 0 := by
  have hspec : ∀ {st₀ : DiskIo σ}, Coherent v st₀ → Clib.loadRecord b i rec st₀ = (rc, st₁) →
      (rc = 0 ∧ v.record st₀.os (st₀.dfiles i).fcb.key (rec % 2 ^ 24).toNat = some st₁.dma) ∨
        ∃ e ∈ st₁.log, e.fn = .readrand ∧ rc ≠ 0 ∧ e.al ≠ 0 := by
    intro st₀ hc hload₀
    obtain hok | ⟨e, he, hfn, hbad⟩ := loadRecord_spec hb hc hload₀
    · exact .inl hok
    · apply Or.inr
      obtain ⟨rfl, h14, -⟩ | ⟨rfl, h0, -⟩ := hbad
      · refine ⟨e, he, hfn, by decide, fun h0 => ?_⟩
        rw [h0] at h14
        exact absurd h14 (by decide)
      · exact ⟨e, he, hfn, by decide, h0⟩
  by_cases hhit : st.cacheFp = some i ∧ st.cacheRec = rec
  · obtain hc | ⟨j, hstale⟩ := h
    · apply (hspec hc hload).imp_left
      rintro ⟨h0, hsome⟩
      exact ⟨h0, _, hsome, fun _ _ _ => rfl⟩
    · obtain rfl : i = j := Option.some.inj (hhit.1.symm.trans hstale.marked)
      obtain ⟨d, hd, hshow⟩ := hstale.shows
      unfold Clib.loadRecord at hload
      rw [if_pos hhit] at hload
      obtain ⟨rfl, rfl⟩ := Prod.mk.inj hload
      rw [hhit.2] at hd hshow
      refine .inl ⟨rfl, d, hd, fun k hk hlen => ?_⟩
      have hval : (Fin.ofNat 128 k).val = k := Nat.mod_eq_of_lt hk
      exact hshow hreadable (Fin.ofNat 128 k) (by rw [hval]; exact hlen)
  · rw [loadRecord_miss hhit] at hload
    have hnone : Coherent v { st with cacheFp := none } := Coherent.of_none rfl
    apply (hspec hnone hload).imp_left
    rintro ⟨h0, hsome⟩
    exact ⟨h0, _, hsome, fun _ _ _ => rfl⟩

theorem Clean.diskLen (hb : Directory b v) (i : Fin 16) {st : DiskIo σ} (h : Clean v st) :
    Clean v (diskLen b i st).2 := by
  have hsize : Clean v (bdosFile b .filesize i st).2 := by
    apply h.reads (reads_bdosFile hb i st (.inr rfl))
    exact .inr ⟨rfl, rfl, hb.buffer .filesize (by decide) (by decide) _ _ _⟩
  unfold Clib.diskLen textEof
  by_cases htext : (st.dfiles i).text = true
  · rw [if_pos htext]
    dsimp only
    generalize (bdosFile b .filesize i st).2 = st₁ at hsize ⊢
    split_ifs
    · exact hsize
    · exact hsize.loadRecord hb
    · exact hsize.loadRecord hb
  · rw [if_neg htext]
    exact hsize

/-- The length of a file that was written to is not taken from the disk. -/
theorem Clean.refreshLen (hb : Directory b v) (i : Fin 16) {st : DiskIo σ} (h : Clean v st) :
    Clean v (refreshLen b i st) := by
  have hdisk := h.diskLen hb i
  have hreads := reads_diskLen hb i st
  unfold Clib.refreshLen
  dsimp only
  by_cases hmore : (st.dfiles i).len ≤ (st.dfiles i).pos ∧ (!(st.dfiles i).wrote) = true
  · rw [if_pos hmore]
    split_ifs with hgrow
    · obtain hc | ⟨j, hstale⟩ := hdisk
      · exact .inl ((touches_setFile (w := false) i (Clib.diskLen b i st).2 _ rfl rfl rfl).coherent (by simp) hc)
      · have hji : j ≠ i := by
          rintro rfl
          obtain ⟨fcb, x, -, hfile⟩ := hreads.file
          have hwrote := hstale.wrote
          rw [hfile] at hwrote
          rw [hwrote] at hmore
          exact absurd hmore.2 (by decide)
        apply Or.inr
        refine ⟨j, hstale.marked, ?_, ?_⟩
        · rw [setFile_of_ne _ _ hji]
          exact hstale.wrote
        · rw [setFile_of_ne _ _ hji]
          exact hstale.shows
    · exact hdisk
  · rw [if_neg hmore]
    exact h

/-! ### The loop of `__qread` -/

/-- Why a read ends: a random read was not answered with 0, or the file ends, or a text does. -/
def ReadEnd (v : View σ) (i : Fin 16) (st : DiskIo σ) : Prop :=
  (∃ e ∈ st.log, e.fn = .readrand ∧ e.al ≠ 0) ∨ (st.dfiles i).len ≤ (st.dfiles i).pos ∨
    (st.dfiles i).text = true ∧
      diskByte v st.os (st.dfiles i).fcb.key (st.dfiles i).pos.toNat = some cpmEof

/-- `out` are the bytes of the disk from the position on, at most `n`, and fewer only for a reason. -/
structure Found (v : View σ) (i : Fin 16) (n : ℕ) (out : List Byte) (st st' : DiskIo σ) : Prop
    extends Fetches v i out.length st st' where
  bytes : out.map some =
    slice (Clib.diskByte v st.os (st.dfiles i).fcb.key) (st.dfiles i).pos.toNat out.length
  le : out.length ≤ n
  short : out.length < n → ReadEnd v i st'

theorem diskLen_lt (hb : Directory b v) (i : Fin 16) (st : DiskIo σ) : (diskLen b i st).1 < 2 ^ 31 := by
  have hrec : ((bdosFile b .filesize i st).2.dfiles i).fcb.rec ≤ 2 ^ 18 := by
    simp only [bdosFile, setFile_self]
    rw [hb.sizeOf]
    exact hb.size_le _ _
  have htrim : ∀ (d : Sector) n, trimEof d n ≤ n := by
    intro d n
    induction n with
    | zero => exact le_rfl
    | succ n ih =>
        unfold trimEof
        split_ifs <;> omega
  unfold diskLen textEof
  by_cases htext : (st.dfiles i).text = true
  · rw [if_pos htext]
    dsimp only
    generalize (bdosFile b .filesize i st).2 = st₁ at hrec ⊢
    have hle := htrim (loadRecord b i (((st₁.dfiles i).fcb.rec : Int) - 1) st₁).2.dma 128
    split_ifs <;> dsimp only <;> omega
  · rw [if_neg htext]
    dsimp only
    generalize (bdosFile b .filesize i st).2 = st₁ at hrec ⊢
    have hbyte := (st₁.dfiles i).openLrbc.toNat_lt
    unfold lengthOf
    split_ifs <;> omega

theorem refreshLen_fetches (hb : Directory b v) {i : Fin 16} {st : DiskIo σ}
    (hlen : (st.dfiles i).len < 2 ^ 31) : Fetches v i 0 st (refreshLen b i st) := by
  have hreads := reads_diskLen hb i st
  have hlt := diskLen_lt hb i st
  unfold refreshLen
  dsimp only
  by_cases hmore : (st.dfiles i).len ≤ (st.dfiles i).pos ∧ (!(st.dfiles i).wrote) = true
  · rw [if_pos hmore]
    rcases hdisk : diskLen b i st with ⟨dl, st₁⟩
    rw [hdisk] at hreads hlt
    dsimp only at hreads hlt ⊢
    have hfetch := hreads.fetches hlen
    by_cases hgrow : (st₁.dfiles i).len < dl
    · rw [if_pos hgrow]
      refine ⟨hfetch.toTouches.trans (touches_setFile i st₁ _ rfl rfl rfl), hfetch.record, hfetch.redirIn, ?_⟩
      obtain ⟨fcb, x, len, hkey, hle, -, hfile⟩ := hfetch.file
      refine ⟨fcb, x, dl, hkey, ?_, hlt, ?_⟩
      · rw [hfile] at hgrow
        exact hle.trans hgrow.le
      · rw [setFile_self, hfile]
    · rw [if_neg hgrow]
      exact hfetch
  · rw [if_neg hmore]
    exact (Reads.refl (b := b) i st).fetches hlen

/-- Inside one record the bytes of the disk are those of the record. -/
theorem slice_diskByte {os : σ} {k : Key} {p m : ℕ} {d : Sector} (hd : v.record os k (p / 128) = some d)
    (hm : p % 128 + m ≤ 128) :
    slice (diskByte v os k) p m = (slice (cellOf d) (p % 128) m).map some := by
  refine List.ext_getElem (by simp) fun j h1 h2 => ?_
  rw [slice_length] at h1
  rw [slice_getElem, List.getElem_map, slice_getElem]
  have hrec : (p + j) / 128 = p / 128 := by omega
  have hoff : (p + j) % 128 = p % 128 + j := by omega
  unfold diskByte
  rw [hrec, hoff, hd]
  rfl

/-- Behind the part of a text that is seen there is the Ctrl-Z. -/
theorem getElem?_seen {l : List Byte} (h : cpmEof ∈ l) : l[(seen true l).length]? = some cpmEof := by
  induction l with
  | nil => cases h
  | cons c l ih =>
      unfold seen at ih ⊢
      by_cases hc : c = cpmEof
      · simp [hc]
      · simp only [if_true] at ih ⊢
        rw [List.takeWhile_cons_of_pos (by simpa using hc), List.length_cons, List.getElem?_cons_succ]
        exact ih ((List.mem_cons.mp h).resolve_left (Ne.symm hc))

theorem seen_prefix (text : Bool) (l : List Byte) : l.take (seen text l).length = seen text l := by
  unfold seen
  cases text with
  | false => exact List.take_length
  | true => exact (List.prefix_iff_eq_take.mp (List.takeWhile_prefix _)).symm

/-- Where a text stops, its end mark stands. -/
theorem eof_behind_seen {f : ℕ → Option Byte} {p m : ℕ} {whole : List Byte} (h : slice f p m = whole.map some)
    (hmem : cpmEof ∈ whole) : f (p + (seen true whole).length) = some cpmEof := by
  have hbyte := congrArg (fun l => l[(seen true whole).length]?) h
  have hlen := congrArg List.length h
  rw [List.length_map, slice_length] at hlen
  obtain ⟨hlt, -⟩ := List.getElem?_eq_some_iff.mp (getElem?_seen hmem)
  rw [List.getElem?_eq_getElem (by rw [slice_length]; omega), slice_getElem, List.getElem?_map,
    getElem?_seen hmem] at hbyte
  exact Option.some.inj hbyte

/-- A round that gives no byte, or is the last one, saw the end mark. -/
theorem mem_of_stop {text : Bool} {whole : List Byte} (hne : whole ≠ [])
    (h : seen text whole = [] ∨ (text && whole.contains cpmEof) = true) : text = true ∧ cpmEof ∈ whole := by
  by_contra hno
  have hall := seen_of_notMem (l := whole) fun htext hin => hno ⟨htext, hin⟩
  obtain hnil | hflag := h
  · exact hne (hall.symm.trans hnil)
  · exact hno (by simpa using hflag)

theorem piece_range {n m : ℕ} {len pos : Int} (hn : n ≠ 0) (hpos : 0 ≤ pos) (hlt : pos < len)
    (hm : min n (if len - pos < 128 - (pos % 128).toNat then (len - pos).toNat else 128 - (pos % 128).toNat) = m) :
    0 < m ∧ m ≤ n ∧ pos.toNat % 128 + m ≤ 128 ∧ pos + m ≤ len := by
  rw [piece_eq] at hm
  omega

/-- One round of the loop. -/
theorem qreadRound_found (hb : Directory b v) {i : Fin 16} {n : ℕ} {st : DiskIo σ} (hn : n ≠ 0)
    (hc : Clean v st) (hread : (st.dfiles i).readable = true) (hpos : 0 ≤ (st.dfiles i).pos)
    (hlen : (st.dfiles i).len < 2 ^ 31) :
    Clean v (qreadRound b i n st).2 ∧
      Fetches v i (qreadRound b i n st).1.1.length st (qreadRound b i n st).2 ∧
      (qreadRound b i n st).1.1.map some =
        slice (diskByte v st.os (st.dfiles i).fcb.key) (st.dfiles i).pos.toNat
          (qreadRound b i n st).1.1.length ∧
      (qreadRound b i n st).1.1.length ≤ n ∧
      ((qreadRound b i n st).1.1 = [] ∨ (qreadRound b i n st).1.2 = false →
        ReadEnd v i (qreadRound b i n st).2) := by
  have hfresh := refreshLen_fetches hb hlen
  have hc₁ := hc.refreshLen hb i
  unfold qreadRound
  dsimp only
  generalize refreshLen b i st = st₁ at hfresh hc₁ ⊢
  have hread₁ := hfresh.readable.trans hread
  have hlen₁ := hfresh.len.2
  have hpos₁ : (st₁.dfiles i).pos = (st.dfiles i).pos := by simp [hfresh.pos]
  have hdisk : diskByte v st.os (st.dfiles i).fcb.key = diskByte v st₁.os (st₁.dfiles i).fcb.key :=
    funext fun p => (hfresh.diskByte p).symm
  rw [hdisk, ← hpos₁]
  rw [← hpos₁] at hpos
  by_cases hend : (st₁.dfiles i).len ≤ (st₁.dfiles i).pos
  · rw [if_pos hend]
    have hset := hfresh.trans ((reads_setFile (b := b) i 0 true st₁).fetches hlen₁)
    have hcset := hc₁.reads (reads_setFile (b := b) i 0 true st₁) (.inr ⟨rfl, rfl, rfl⟩)
    simp only [Nat.add_zero, Int.natCast_zero, Int.add_zero] at hset hcset
    refine ⟨hcset, hset, rfl, Nat.zero_le _, fun _ => .inr (.inl ?_)⟩
    simpa using hend
  · rw [if_neg hend]
    have hload := hfresh.trans ((reads_loadRecord hb i ((st₁.dfiles i).pos / 128) st₁).fetches hlen₁)
    have hc₂ : Clean v (loadRecord b i ((st₁.dfiles i).pos / 128) st₁).2 := hc₁.loadRecord hb
    rcases hrec : loadRecord b i ((st₁.dfiles i).pos / 128) st₁ with ⟨rc, st₂⟩
    rw [hrec] at hload hc₂
    dsimp only at hload hc₂ ⊢
    have hload₂ : Fetches v i 0 st st₂ := hload
    have hpos₂ : (st₂.dfiles i).pos = (st₁.dfiles i).pos := by
      rw [hload₂.pos, hpos₁]
      simp
    obtain ⟨rfl, d, hsome, hshow⟩ | ⟨e, he, hfn, hne⟩ := loadRecord_shows hb hc₁ hread₁ hrec
    · rw [if_neg (by decide)]
      generalize hm : min n (if (st₁.dfiles i).len - (st₁.dfiles i).pos <
          128 - ((st₁.dfiles i).pos % 128).toNat
        then ((st₁.dfiles i).len - (st₁.dfiles i).pos).toNat
        else 128 - ((st₁.dfiles i).pos % 128).toNat) = m
      obtain ⟨hm0, hmn, hm128, hmlen⟩ := piece_range hn hpos (not_le.mp hend) hm
      rw [record_of_pos hpos ((not_le.mp hend).trans hlen₁)] at hsome
      rw [offset_of_pos hpos]
      have hslice := slice_diskByte hsome hm128
      have hsame : slice (cellOf d) ((st₁.dfiles i).pos.toNat % 128) m =
          slice (cellOf st₂.dma) ((st₁.dfiles i).pos.toNat % 128) m :=
        slice_congr fun q _ hq => (hshow q (by omega) (by omega)).symm
      rw [hsame] at hslice
      have hlenw := slice_length (cellOf st₂.dma) ((st₁.dfiles i).pos.toNat % 128) m
      generalize slice (cellOf st₂.dma) ((st₁.dfiles i).pos.toNat % 128) m = whole at hslice hlenw ⊢
      have hpiece : (if (st₁.dfiles i).text = true then whole.takeWhile fun x => decide (x ≠ cpmEof)
          else whole) = seen (st₁.dfiles i).text whole := rfl
      rw [hpiece]
      have hle := seen_length_le (st₁.dfiles i).text whole
      have htake := seen_prefix (st₁.dfiles i).text whole
      have hset := hload₂.trans ((reads_setFile (b := b) i (seen (st₁.dfiles i).text whole).length
        ((st₂.dfiles i).ateof || ((st₁.dfiles i).text && whole.contains cpmEof)) st₂).fetches hload₂.len.2)
      rw [Nat.zero_add] at hset
      have hcset := hc₂.reads (reads_setFile (b := b) i (seen (st₁.dfiles i).text whole).length
        ((st₂.dfiles i).ateof || ((st₁.dfiles i).text && whole.contains cpmEof)) st₂) (.inr ⟨rfl, rfl, rfl⟩)
      rw [setFile_taken st₂ _ (by omega) (by omega)]
      dsimp only
      refine ⟨hcset, hset, ?_, by omega, fun hstop => .inr (.inr ?_)⟩
      · calc (seen (st₁.dfiles i).text whole).map some
            = (whole.map some).take (seen (st₁.dfiles i).text whole).length := by
              rw [← List.map_take, htake]
          _ = slice (diskByte v st₁.os (st₁.dfiles i).fcb.key) (st₁.dfiles i).pos.toNat
                (seen (st₁.dfiles i).text whole).length := by
              rw [← hslice, slice_take _ _ (by omega)]
      · have hne : whole ≠ [] := by
          rintro rfl
          exact hm0.ne hlenw
        have hmem := mem_of_stop hne (hstop.imp_right fun hflag => by simpa using hflag)
        refine ⟨?_, ?_⟩
        · rw [hset.text, ← hfresh.text, hmem.1]
        · have hadd : ((st₁.dfiles i).pos + ((seen (st₁.dfiles i).text whole).length : Int)).toNat =
              (st₁.dfiles i).pos.toNat + (seen (st₁.dfiles i).text whole).length := by omega
          rw [hset.diskByte, hset.pos, hdisk, ← hpos₁, hadd, hmem.1]
          exact eof_behind_seen hslice hmem.2
    · rw [if_pos hne.1]
      have hset := hload₂.trans ((reads_setFile (b := b) i 0 true st₂).fetches hload₂.len.2)
      have hcset := hc₂.reads (reads_setFile (b := b) i 0 true st₂) (.inr ⟨rfl, rfl, rfl⟩)
      simp only [Nat.add_zero, Int.natCast_zero, Int.add_zero] at hset hcset
      exact ⟨hcset, hset, rfl, Nat.zero_le _, fun _ => .inl ⟨e, he, hfn, hne.2⟩⟩

/-- The loop: the bytes that it adds. -/
theorem qreadLoop_found (hb : Directory b v) (i : Fin 16) (n : ℕ) (out : List Byte) (st : DiskIo σ)
    (hc : Clean v st) (hread : (st.dfiles i).readable = true) (hpos : 0 ≤ (st.dfiles i).pos)
    (hlen : (st.dfiles i).len < 2 ^ 31) :
    Clean v (qreadLoop b i n out st).2 ∧
      ∃ l, (qreadLoop b i n out st).1 = out ++ l ∧ Found v i n l st (qreadLoop b i n out st).2 := by
  induction n, out, st using qreadLoop.induct b i with
  | case1 out st =>
      rw [qreadLoop, dif_pos rfl]
      exact ⟨hc, [], (List.append_nil out).symm, (Reads.refl (b := b) i st).fetches hlen, rfl, le_rfl,
        fun h => absurd h (Nat.lt_irrefl 0)⟩
  | case2 n out st hn r hstop =>
      rw [qreadLoop, dif_neg hn, dif_pos hstop]
      obtain ⟨hclean, hfetch, hbytes, hle, hend⟩ := qreadRound_found hb hn hc hread hpos hlen
      exact ⟨hclean, r.1.1, rfl, hfetch, hbytes, hle, fun _ => hend hstop⟩
  | case3 n out st hn r hstop ih =>
      rw [qreadLoop, dif_neg hn, dif_neg hstop]
      obtain ⟨hclean, hfetch, hbytes, hle, -⟩ := qreadRound_found hb hn hc hread hpos hlen
      change Fetches v i r.1.1.length st r.2 at hfetch
      change r.1.1.map some = slice _ _ r.1.1.length at hbytes
      change r.1.1.length ≤ n at hle
      obtain ⟨hclean', l, hout, hfound⟩ := ih hclean (hfetch.readable.trans hread)
        (by rw [hfetch.pos]; exact Int.add_nonneg hpos (Int.natCast_nonneg _)) hfetch.len.2
      have hnext : (r.2.dfiles i).pos.toNat = (st.dfiles i).pos.toNat + r.1.1.length := by
        rw [hfetch.pos]
        omega
      have hrest := hfound.bytes
      rw [funext hfetch.diskByte, hnext] at hrest
      have hlele := hfound.le
      refine ⟨hclean', r.1.1 ++ l, by rw [hout, List.append_assoc], ?_, ?_, ?_, ?_⟩
      · rw [List.length_append]
        exact hfetch.trans hfound.toFetches
      · rw [List.map_append, hbytes, hrest, List.length_append, slice_add]
      · rw [List.length_append]
        omega
      · intro hshort
        rw [List.length_append] at hshort
        exact hfound.short (by omega)

/-! ### Calls -/

/-- The file that a handle reads from: handle 0 may be redirected, and the console gives no bytes. -/
def readFile (st : DiskIo σ) (handle : Int) : Option (Fin 16) :=
  if handle < 3 ∧ st.redirIn < 0 then none
  else (fdToFile st (if handle < 3 then st.redirIn else handle)).filter fun i =>
    (st.dfiles i).readable && !(st.dfiles i).isCon

/-- The file that a handle writes to: handle 1 may be redirected. -/
def writeFile (st : DiskIo σ) (handle : Int) : Option (Fin 16) :=
  if handle = 1 ∧ st.redirOut < 0 ∨ handle = 2 then none
  else (fdToFile st (if handle = 1 then st.redirOut else handle)).filter fun i =>
    (st.dfiles i).writable && !(st.dfiles i).isCon

theorem qread_eq {handle : Int} {n : ℕ} {i : Fin 16} {st : DiskIo σ} (hfile : readFile st handle = some i) :
    qread b handle n st =
      ((toInt (qreadLoop b i n [] (st.setFile i fun fp => { fp with ateof := false })).1.length,
        (qreadLoop b i n [] (st.setFile i fun fp => { fp with ateof := false })).1),
        (qreadLoop b i n [] (st.setFile i fun fp => { fp with ateof := false })).2) := by
  unfold readFile at hfile
  unfold qread
  by_cases hcon : handle < 3 ∧ st.redirIn < 0
  · rw [if_pos hcon] at hfile
    cases hfile
  · rw [if_neg hcon] at hfile ⊢
    obtain ⟨hfd, hmode⟩ := Option.filter_eq_some_iff.mp hfile
    rw [Bool.and_eq_true, Bool.not_eq_true'] at hmode
    dsimp only
    rw [hfd]
    simp only [hmode.1, hmode.2, Bool.not_true, Bool.or_self, Bool.false_eq_true, if_false]

theorem qwrite_eq {handle : Int} {data : List Byte} {i : Fin 16} {st : DiskIo σ}
    (hfile : writeFile st handle = some i) :
    qwrite b handle data st =
      (if (qwriteLoop b i data 0 (st.setFile i DFile.writing)).1 = 0 ∧ data ≠ [] then -1
        else toInt (qwriteLoop b i data 0 (st.setFile i DFile.writing)).1,
        (qwriteLoop b i data 0 (st.setFile i DFile.writing)).2) := by
  unfold writeFile at hfile
  unfold qwrite
  by_cases hcon : handle = 1 ∧ st.redirOut < 0 ∨ handle = 2
  · rw [if_pos hcon] at hfile
    cases hfile
  · rw [if_neg hcon] at hfile ⊢
    obtain ⟨hfd, hmode⟩ := Option.filter_eq_some_iff.mp hfile
    rw [Bool.and_eq_true, Bool.not_eq_true'] at hmode
    dsimp only
    rw [hfd]
    simp only [hmode.1, hmode.2, Bool.not_true, Bool.false_eq_true, if_false]
    rfl

theorem readFile_readable {handle : Int} {i : Fin 16} {st : DiskIo σ} (hfile : readFile st handle = some i) :
    (st.dfiles i).readable = true := by
  unfold readFile at hfile
  by_cases hcon : handle < 3 ∧ st.redirIn < 0
  · rw [if_pos hcon] at hfile
    cases hfile
  · rw [if_neg hcon] at hfile
    obtain ⟨-, hmode⟩ := Option.filter_eq_some_iff.mp hfile
    exact (Bool.and_eq_true_iff.mp hmode).1

/-- A read of a file, for every position and whatever the BDOS answers. -/
theorem qread_clean (hb : Directory b v) {handle : Int} {n : ℕ} {i : Fin 16} {st : DiskIo σ}
    (hfile : readFile st handle = some i) (hc : Clean v st) (hpos : 0 ≤ (st.dfiles i).pos)
    (hlen : (st.dfiles i).len < 2 ^ 31) :
    Clean v (qread b handle n st).2 ∧
      (qread b handle n st).1.1 = toInt (qread b handle n st).1.2.length ∧
      Found v i n (qread b handle n st).1.2 st (qread b handle n st).2 := by
  have hread := readFile_readable hfile
  rw [qread_eq hfile]
  have hset := reads_setFile (b := b) (v := v) i 0 false st
  have hclean := hc.reads hset (.inr ⟨rfl, rfl, rfl⟩)
  have hzero := hset.fetches hlen
  simp only [Int.natCast_zero, Int.add_zero] at hzero hclean
  generalize st.setFile i _ = st₁ at hzero hclean ⊢
  have hpos₁ : (st₁.dfiles i).pos = (st.dfiles i).pos := by simp [hzero.pos]
  obtain ⟨hclean', l, hout, hfound⟩ := qreadLoop_found hb i n [] st₁ hclean (hzero.readable.trans hread)
    (hpos₁ ▸ hpos) hzero.len.2
  rw [List.nil_append] at hout
  refine ⟨hclean', rfl, ?_⟩
  rw [hout]
  have hall := hzero.trans hfound.toFetches
  rw [Nat.zero_add] at hall
  refine ⟨hall, ?_, hfound.le, hfound.short⟩
  have hbytes := hfound.bytes
  rwa [funext hzero.diskByte, hpos₁] at hbytes

theorem qread_found (hb : Directory b v) {handle : Int} {n : ℕ} {i : Fin 16} {st : DiskIo σ}
    (hfile : readFile st handle = some i) (hc : Coherent v st) (hpos : 0 ≤ (st.dfiles i).pos)
    (hlen : (st.dfiles i).len < 2 ^ 31) :
    (qread b handle n st).1.1 = toInt (qread b handle n st).1.2.length ∧
      Found v i n (qread b handle n st).1.2 st (qread b handle n st).2 :=
  (qread_clean hb hfile (.inl hc) hpos hlen).2

/-! ### Counts -/

/-- The number that is returned is that of the bytes, and no caller takes it for an error. -/
def CountRight (ret : Int) (n : ℕ) : Prop := 0 ≤ ret ∧ ret = n

theorem countRight_toInt_iff {n : ℕ} (hn : n < 2 ^ 16) : CountRight (toInt n) n ↔ n < 2 ^ 15 := by
  unfold CountRight toInt
  omega

/-- The file `i` has `n` bytes from its position on, and in text mode no Ctrl-Z among them. -/
structure LongEnough (v : View σ) (i : Fin 16) (n : ℕ) (st : DiskIo σ) : Prop where
  pos : 0 ≤ (st.dfiles i).pos
  fits : (st.dfiles i).pos + n ≤ (st.dfiles i).len
  len : (st.dfiles i).len < 2 ^ 31
  text : (st.dfiles i).text = true →
    ∀ j < n, diskByte v st.os (st.dfiles i).fcb.key ((st.dfiles i).pos.toNat + j) ≠ some cpmEof

/-- A read that no error ends is complete if the file is long enough. -/
theorem qread_complete (hb : Directory b v) {handle : Int} {n : ℕ} {i : Fin 16} {st : DiskIo σ}
    (hfile : readFile st handle = some i) (hc : Coherent v st) (hlong : LongEnough v i n st)
    (hlog : ReadsOk (qread b handle n st).2.log) : (qread b handle n st).1.2.length = n := by
  have hpos := hlong.pos
  have hfits := hlong.fits
  obtain ⟨-, hfound⟩ := qread_found hb (n := n) hfile hc hpos hlong.len
  generalize (qread b handle n st).1.2 = out at hfound ⊢
  generalize (qread b handle n st).2 = st' at hfound hlog ⊢
  have hle := hfound.le
  by_contra hne
  have hlen := hfound.len.1
  rcases hfound.short (by omega) with ⟨e, he, hfn, hal⟩ | hend | ⟨htext, hbyte⟩
  · exact hal (hlog e he hfn)
  · rw [hfound.pos] at hend
    omega
  · rw [hfound.text] at htext
    rw [hfound.diskByte, hfound.pos] at hbyte
    have hadd : ((st.dfiles i).pos + (out.length : Int)).toNat = (st.dfiles i).pos.toNat + out.length := by
      omega
    rw [hadd] at hbyte
    exact hlong.text htext _ (by omega) hbyte

/-- A write without errors is complete. -/
theorem qwrite_complete (hb : Directory b v) {handle : Int} {data : List Byte} {i : Fin 16} {st : DiskIo σ}
    (hfile : writeFile st handle = some i) (hc : Coherent v st) (hpos : 0 ≤ (st.dfiles i).writing.pos)
    (hlt : (st.dfiles i).writing.pos < 2 ^ 31) (hlog : WritesOk (qwrite b handle data st).2.log) :
    (qwrite b handle data st).1 = toInt data.length ∧
      Writes b v i data (st.setFile i DFile.writing) (qwrite b handle data st).2 := by
  rw [qwrite_eq hfile] at hlog ⊢
  have hself := setFile_self st i DFile.writing
  have hc₁ : Coherent v (st.setFile i DFile.writing) :=
    (touches_setFile (v := v) (w := false) i st DFile.writing rfl rfl rfl).coherent (by simp) hc
  obtain ⟨htotal, hwrites⟩ := qwriteLoop_spec hb i data 0 (st.setFile i DFile.writing) hc₁
    (by rw [hself]; exact hpos) (by rw [hself]; exact hlt) hlog
  refine ⟨?_, hwrites⟩
  dsimp only
  rw [htotal, Nat.zero_add, if_neg]
  rintro ⟨hzero, hdata⟩
  exact hdata (List.eq_nil_of_length_eq_zero hzero)

/-- Transfers of `n` bytes that are complete return `n` exactly if it is a positive `int`. -/
theorem transferCounts_iff (hb : Directory b v) {n : ℕ} (hn : n < 2 ^ 16) {st : DiskIo σ} (hc : Coherent v st) :
    (∀ handle i, readFile st handle = some i → LongEnough v i n st →
      ReadsOk (qread b handle n st).2.log → (qread b handle n st).1.2.length = n ∧
        (CountRight (qread b handle n st).1.1 n ↔ n < 2 ^ 15)) ∧
    (∀ handle i data, writeFile st handle = some i → data.length = n →
      0 ≤ (st.dfiles i).writing.pos → (st.dfiles i).writing.pos < 2 ^ 31 →
      WritesOk (qwrite b handle data st).2.log →
        ((qwrite b handle data st).2.dfiles i).pos = (st.dfiles i).writing.pos + n ∧
        (CountRight (qwrite b handle data st).1 n ↔ n < 2 ^ 15)) := by
  constructor
  · intro handle i hfile hlong hlog
    have hlen := qread_complete hb hfile hc hlong hlog
    obtain ⟨hret, -⟩ := qread_found hb (n := n) hfile hc hlong.pos hlong.len
    rw [hret, hlen]
    exact ⟨rfl, countRight_toInt_iff hn⟩
  · intro handle i data hfile hdata hpos hlt hlog
    obtain ⟨hret, hwrites⟩ := qwrite_complete hb hfile hc hpos hlt hlog
    rw [hret, hwrites.pos, setFile_self, hdata]
    exact ⟨rfl, countRight_toInt_iff hn⟩

/-! ### A disk without errors -/

/-- A BDOS that reads and writes whatever it is asked for. -/
structure Works (b : Bdos σ) (v : View σ) : Prop where
  read : ∀ fcb dma os, (b.call .readrand fcb dma os).al = 0 ∨ (b.call .readrand fcb dma os).al = 1 ∨
    (b.call .readrand fcb dma os).al = 4
  write : ∀ fcb dma os, v.present os fcb.key → fcb.rec < 2 ^ 18 → (b.call .writernd fcb dma os).al = 0

theorem WritesOk.cons {log : List (BdosEvent σ)} {e : BdosEvent σ} (h : WritesOk log)
    (he : (e.fn = .readrand → e.al = 0 ∨ e.al = 1 ∨ e.al = 4) ∧ (e.fn = .writernd → e.al = 0)) :
    WritesOk (e :: log) := by
  intro e' hmem
  rcases List.mem_cons.mp hmem with rfl | hmem
  · exact he
  · exact h e' hmem

theorem Works.loadRecord (hw : Works b v) (i : Fin 16) (rec : Int) {st : DiskIo σ} (hlog : WritesOk st.log) :
    WritesOk (loadRecord b i rec st).2.log := by
  obtain ⟨-, -, heq⟩ | ⟨rc, st₁, hcall, hres⟩ := loadRecord_cases b i rec st
  · rw [heq]
    exact hlog
  · have hlog₁ : WritesOk st₁.log := by
      have hst : st₁ = _ := (congrArg Prod.snd hcall).symm
      rw [hst]
      exact hlog.cons ⟨fun _ => hw.read _ _ _, fun h => by cases h⟩
    obtain ⟨-, heq⟩ | ⟨-, heq⟩ | ⟨-, -, -, heq⟩ := hres
    all_goals
      rw [heq]
      exact hlog₁

theorem Works.qwriteRound (hw : Works b v) (hb : Directory b v) {i : Fin 16} {rest : List Byte} {st : DiskIo σ}
    (hpos : 0 ≤ (st.dfiles i).pos) (hlt : (st.dfiles i).pos < 2 ^ 25)
    (hpresent : v.present st.os (st.dfiles i).fcb.key) (hlog : WritesOk st.log) :
    WritesOk (qwriteRound b i rest st).2.log := by
  obtain ⟨rc, st₁, hload, hres⟩ := qwriteRound_cases b i rest st
  have hreads := reads_loadRecord hb i ((st.dfiles i).pos / 128) st
  have hlog₁ := hw.loadRecord i ((st.dfiles i).pos / 128) hlog
  rw [hload] at hreads hlog₁
  dsimp only at hreads hlog₁
  obtain ⟨-, heq⟩ | ⟨-, al, st₂, hcall, hres⟩ := hres
  · rw [heq]
    exact hlog₁
  · have hlog₂ : WritesOk st₂.log := by
      have hst : st₂ = _ := (congrArg Prod.snd hcall).symm
      rw [hst]
      refine hlog₁.cons ⟨fun h => (by cases h), fun _ => hw.write _ _ _ ?_ ?_⟩
      · rw [setFile_self]
        dsimp only
        rw [fcbSetRecord_key, hreads.key]
        exact (hreads.disk _).present.mpr hpresent
      · rw [setFile_self]
        dsimp only
        rw [fcbSetRecord_rec]
        omega
    obtain ⟨-, heq⟩ | ⟨-, heq⟩ := hres
    all_goals
      rw [heq]
      exact hlog₂

theorem Works.qwriteLoop (hw : Works b v) (hb : Directory b v) (i : Fin 16) (rest : List Byte) (total : ℕ)
    (st : DiskIo σ) (hc : Coherent v st) (hpos : 0 ≤ (st.dfiles i).pos)
    (hfit : (st.dfiles i).pos + rest.length ≤ 2 ^ 25) (hpresent : v.present st.os (st.dfiles i).fcb.key)
    (hlog : WritesOk st.log) : WritesOk (qwriteLoop b i rest total st).2.log := by
  induction rest, total, st using qwriteLoop.induct b i with
  | case1 total st =>
      rw [Clib.qwriteLoop, dif_pos rfl]
      exact hlog
  | case2 rest total st hr r h0 =>
      rw [Clib.qwriteLoop, dif_neg hr, dif_pos h0]
      have := List.length_pos_of_ne_nil hr
      exact hw.qwriteRound hb hpos (by omega) hpresent hlog
  | case3 rest total st hr r h0 ih =>
      rw [Clib.qwriteLoop, dif_neg hr, dif_neg h0]
      have hlen := List.length_pos_of_ne_nil hr
      have hround : WritesOk r.2.log := hw.qwriteRound hb hpos (by omega) hpresent hlog
      obtain ⟨hn, hwrites⟩ := qwriteRound_spec hb hc hpos (by omega) hr hround
      change r.1 = _ at hn
      rw [← hn] at hwrites
      change Writes b v i (rest.take r.1) st r.2 at hwrites
      have htake : (rest.take r.1).length = r.1 := by
        rw [List.length_take]
        omega
      have hdrop := List.length_drop (i := r.1) (l := rest)
      refine ih (hwrites.coherent (fun _ => hround.stored) hc) ?_ ?_ ?_ hround
      · rw [hwrites.pos]
        omega
      · rw [hwrites.pos]
        omega
      · rw [hwrites.key]
        exact hwrites.present hpresent

theorem ramBdos_works : Works ramBdos ramView where
  read := by
    intro fcb dma os
    simp only [ramBdos]
    split
    · exact .inl rfl
    · exact .inr (.inl rfl)
  write := by
    intro fcb dma os hpresent hrec
    simp only [ramBdos]
    rw [if_pos ⟨hpresent, hrec⟩]

/-- A file that was just made and is open for reading and writing. -/
def openedNew : DiskIo Ram := (sopen ramBdos [0x41] ⟨2, false, true, true, true⟩ (DiskIo.start [])).2

theorem openedNew_coherent : Coherent ramView openedNew :=
  Coherent.of_none (by decide +kernel)

/-- Two bytes are written to it. -/
theorem transferCounts_two : CountRight (qwrite ramBdos 3 [0x58, 0x59] openedNew).1 2 ↔ 2 < 2 ^ 15 :=
  ((transferCounts_iff ramBdos_directory (by decide) openedNew_coherent).2 3 0 [0x58, 0x59]
    (by decide +kernel) rfl (by decide +kernel) (by decide +kernel) (by decide +kernel)).2

/-- Or 40000 bytes, and the number that is returned is negative. -/
theorem not_countRight_long : ¬ ∀ (σ : Type) (b : Bdos σ) (v : View σ), Directory b v → ∀ st : DiskIo σ,
    Coherent v st → ∀ (n : ℕ) (handle : Int) (i : Fin 16) (data : List Byte), n < 2 ^ 16 →
      writeFile st handle = some i → data.length = n → 0 ≤ (st.dfiles i).writing.pos →
      (st.dfiles i).writing.pos < 2 ^ 31 → WritesOk (qwrite b handle data st).2.log →
      CountRight (qwrite b handle data st).1 n := by
  intro h
  have hfile : writeFile openedNew 3 = some 0 := by decide +kernel
  have hpos : (openedNew.dfiles 0).writing.pos = 0 := by decide +kernel
  have hpresent : ramView.present openedNew.os (openedNew.dfiles 0).fcb.key :=
    (by decide +kernel : (Ram.file openedNew.os (openedNew.dfiles 0).fcb.key).isSome)
  obtain ⟨data, hdata⟩ : ∃ data : List Byte, data.length = 40000 :=
    ⟨List.replicate 40000 0x58, List.length_replicate⟩
  have hlog : WritesOk (qwrite ramBdos 3 data openedNew).2.log := by
    rw [qwrite_eq hfile]
    refine ramBdos_works.qwriteLoop ramBdos_directory 0 data 0 _ ?_ ?_ ?_ ?_ ?_
    · exact (touches_setFile (v := ramView) (w := false) 0 openedNew DFile.writing rfl rfl rfl).coherent
        (by simp) openedNew_coherent
    · rw [setFile_self, hpos]
    · rw [setFile_self, hpos, hdata]
      decide
    · rw [setFile_self]
      exact hpresent
    · exact (by decide +kernel : WritesOk openedNew.log)
  have hright := h Ram ramBdos ramView ramBdos_directory openedNew openedNew_coherent 40000 3 0
    data (by decide) hfile hdata (by rw [hpos]) (by rw [hpos]; decide) hlog
  obtain ⟨hret, -⟩ := qwrite_complete ramBdos_directory hfile openedNew_coherent (by rw [hpos])
    (by rw [hpos]; decide) hlog
  rw [hret, hdata] at hright
  exact absurd hright.1 (by decide)

end OpenWatcom.Clib
