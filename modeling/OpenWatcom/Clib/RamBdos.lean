import OpenWatcom.Clib.Bdos

/-! # A BDOS in memory

`ramBdos` keeps its files in a list and does what the documentation of the BDOS says; `ramView` is what
is on its disk.  `ramBdos_keepsCount` collects the promises. -/

namespace OpenWatcom.Clib

/-- A file in memory: its records, written or not, and its last record byte count. -/
structure RamFile where
  records : List (Option Sector)
  count : Byte
  short : records.length ≤ 2 ^ 18

/-- The record `r` set to `d`; records before it that are not there stay unwritten. -/
def RamFile.store (f : RamFile) (r : ℕ) (d : Sector) : RamFile :=
  if h : r < 2 ^ 18 then
    { records := (f.records ++ List.replicate (r + 1 - f.records.length) none).set r (some d)
      count := f.count
      short := by
        have := f.short
        simp only [List.length_set, List.length_append, List.length_replicate]
        omega }
  else f

/-- The files by name. -/
abbrev Ram := List (Key × RamFile)

namespace Ram

/-- The file of that name. -/
def file : Ram → Key → Option RamFile
  | [], _ => none
  | (l, f) :: os, k => if l = k then some f else file os k

/-- The file of that name changed by `g`. -/
def modify : Ram → Key → (RamFile → RamFile) → Ram
  | [], _, _ => []
  | (l, f) :: os, k, g => if l = k then (l, g f) :: os else (l, f) :: modify os k g

theorem file_modify_self (k : Key) (g : RamFile → RamFile) :
    ∀ os : Ram, (os.modify k g).file k = (os.file k).map g
  | [] => rfl
  | (l, f) :: os => by
      by_cases h : l = k
      · simp [modify, file, h]
      · simp [modify, file, h, file_modify_self k g os]

theorem file_modify_of_ne {k k' : Key} (g : RamFile → RamFile) (hne : k ≠ k') :
    ∀ os : Ram, (os.modify k g).file k' = os.file k'
  | [] => rfl
  | (l, f) :: os => by
      by_cases h : l = k
      · subst h
        simp [modify, file, hne]
      · simp [modify, file, h, file_modify_of_ne g hne os]

/-- The files that the name does not mean. -/
def without (os : Ram) (k : Key) : Ram := os.filter fun e => ¬ k.Meets e.1

theorem file_without {k k' : Key} (h : ¬ k.Meets k') :
    ∀ os : Ram, (os.without k).file k' = os.file k'
  | [] => rfl
  | (l, f) :: os => by
      have ih := file_without h os
      by_cases hl : k.Meets l
      · have hne : l ≠ k' := fun heq => h (heq ▸ hl)
        rw [without, List.filter_cons_of_neg (by simpa using hl), file, if_neg hne]
        exact ih
      · rw [without, List.filter_cons_of_pos (by simpa using hl), file, file]
        rw [without] at ih
        rw [ih]

/-- The file with the name `k` gets the name `l`. -/
def moved (os : Ram) (k l : Key) : Ram := os.map fun e => if e.1 = k then (l, e.2) else e

theorem file_moved {k l k' : Key} (hk : k ≠ k') (hl : l ≠ k') :
    ∀ os : Ram, (os.moved k l).file k' = os.file k'
  | [] => rfl
  | (m, f) :: os => by
      have ih := file_moved hk hl os
      rw [moved] at ih
      by_cases h : m = k
      · subst h
        simp [moved, file, hk, hl, ih]
      · simp [moved, file, h, ih]

end Ram

/-- The directory record with the entry of the FCB in its first place. -/
def dirRecord (fcb : Fcb) : Sector := fun i =>
  if i.val = 0 then 0 else if i.val < 12 then fcb (Fin.ofNat 36 i) else 0xE5

def ramBdos : Bdos Ram where
  version := 0x31
  conout := fun _ os => os
  call := fun fn fcb dma os =>
    let file := os.file fcb.key
    let found : Byte := if file.isSome then 0 else 0xFF
    match fn with
    | .openFile =>
      ⟨found, if fcb 32 = 0xFF then Function.update fcb 32 ((file.map RamFile.count).getD 0xFF) else fcb,
        dma, os⟩
    | .closeFile => ⟨found, fcb, dma, os⟩
    | .sfirst => ⟨found, fcb, if file.isSome then dirRecord fcb else dma, os⟩
    | .delete =>
      ⟨if (os.any fun e => decide (fcb.key.Meets e.1)) then 0 else 0xFF, fcb, dma, os.without fcb.key⟩
    | .make =>
      if file.isSome then ⟨0xFF, fcb, dma, os⟩
      else ⟨0, fcb, dma, (fcb.key, ⟨[], 0, by decide⟩) :: os⟩
    | .rename =>
      if file.isSome ∧ (os.file (fcb.keyAt 16)).isNone then
        ⟨0, fcb, dma, os.moved fcb.key (fcb.keyAt 16)⟩
      else ⟨0xFF, fcb, dma, os⟩
    | .attrib =>
      ⟨found, fcb, dma,
        if fcb 6 &&& 0x80 ≠ 0 then os.modify fcb.key fun f => { f with count := fcb 32 } else os⟩
    | .readrand =>
      match (file.bind fun f => f.records[fcb.rec]?.join) with
      | some d => ⟨0, fcb, d, os⟩
      | none => ⟨1, fcb, dma, os⟩
    | .writernd =>
      if file.isSome ∧ fcb.rec < 2 ^ 18 then
        ⟨0, fcb, dma, os.modify fcb.key fun f => f.store fcb.rec dma⟩
      else ⟨6, fcb, dma, os⟩
    | .filesize =>
      let n := (file.map fun f => f.records.length).getD 0
      ⟨found, fcb.setRec n, dma, os⟩

def ramView : View Ram where
  present := fun os k => (os.file k).isSome
  record := fun os k r => (os.file k).bind fun f => f.records[r]?.join
  size := fun os k => ((os.file k).map fun f => f.records.length).getD 0
  count := fun os k => ((os.file k).map RamFile.count).getD 0xFF

/-! ### The promises -/

theorem records_store (f : RamFile) {r : ℕ} (d : Sector) (hr : r < 2 ^ 18) :
    (f.store r d).records =
      (f.records ++ List.replicate (r + 1 - f.records.length) none).set r (some d) := by
  unfold RamFile.store
  rw [dif_pos hr]

theorem length_store (f : RamFile) {r : ℕ} (d : Sector) (hr : r < 2 ^ 18) :
    (f.store r d).records.length = max f.records.length (r + 1) := by
  rw [records_store f d hr]
  simp only [List.length_set, List.length_append, List.length_replicate]
  omega

theorem record_store_self (f : RamFile) {r : ℕ} (d : Sector) (hr : r < 2 ^ 18) :
    (f.store r d).records[r]?.join = some d := by
  rw [records_store f d hr, List.getElem?_set_self]
  · rfl
  · simp only [List.length_append, List.length_replicate]
    omega

theorem record_store_of_ne (f : RamFile) {r r' : ℕ} (d : Sector) (hr : r < 2 ^ 18) (hne : r ≠ r') :
    (f.store r d).records[r']?.join = f.records[r']?.join := by
  rw [records_store f d hr, List.getElem?_set_ne hne]
  by_cases hlt : r' < f.records.length
  · rw [List.getElem?_append_left hlt]
  · rw [List.getElem?_append_right (by omega), List.getElem?_replicate,
      List.getElem?_eq_none (by omega)]
    split_ifs <;> rfl

/-- The files that `ramView` sees do not change where the system does not. -/
theorem ramView_record_congr {os os' : Ram} {k : Key} (h : os'.file k = os.file k) :
    ramView.record os' k = ramView.record os k := by
  simp only [ramView, h]

theorem ramView_size_congr {os os' : Ram} {k : Key} (h : os'.file k = os.file k) :
    ramView.size os' k = ramView.size os k ∧ (ramView.present os' k ↔ ramView.present os k) := by
  simp only [ramView, h, and_self]

theorem ramBdos_transfers : Transfers ramBdos ramView where
  read := by
    intro fcb dma os h
    simp only [ramBdos] at h ⊢
    split at h
    · rename_i d hd
      exact hd
    · exact absurd h (show ¬ (1 : Byte) = 0 by decide)
  write := by
    intro fcb dma os h
    simp only [ramBdos] at h ⊢
    split_ifs at h ⊢ with hok
    · obtain ⟨f, hf⟩ := Option.isSome_iff_exists.mp hok.1
      simp only [ramView, Ram.file_modify_self, hf, Option.map_some, Option.bind_some]
      exact record_store_self f dma hok.2
    · exact absurd h (show ¬ (6 : Byte) = 0 by decide)
  writeError := by
    intro fcb dma os h
    simp only [ramBdos] at h ⊢
    split_ifs at h ⊢ with hok
    · exact absurd rfl h
    · rfl
  quiet := by
    intro fn hw hd hr fcb dma os
    cases fn with
    | writernd => exact absurd rfl hw
    | delete => exact absurd rfl hd
    | rename => exact absurd rfl hr
    | make =>
        simp only [ramBdos]
        split_ifs with hex
        · rfl
        · funext k r
          by_cases hk : fcb.key = k
          · subst hk
            simp only [ramView, Ram.file, if_true, Option.not_isSome_iff_eq_none.mp hex]
            rfl
          · simp only [ramView, Ram.file, if_neg hk]
    | attrib =>
        simp only [ramBdos]
        split_ifs with hf6
        · funext k r
          by_cases hk : fcb.key = k
          · subst hk
            simp only [ramView, Ram.file_modify_self]
            cases os.file fcb.key <;> rfl
          · simp only [ramView, Ram.file_modify_of_ne _ hk]
        · rfl
    | readrand =>
        simp only [ramBdos]
        split <;> rfl
    | openFile => rfl
    | closeFile => rfl
    | sfirst => rfl
    | filesize => rfl
  conout := fun _ _ => rfl
  delete := by
    intro fcb dma os k hk
    exact ramView_record_congr (Ram.file_without hk os)
  rename := by
    intro fcb dma os k hk hl
    have hne : ∀ {l : Key}, ¬ l.Meets k → l ≠ k := fun {l} h heq => h (heq ▸ l.meets_self)
    simp only [ramBdos]
    split_ifs with hok
    · exact ramView_record_congr (Ram.file_moved (hne hk) (hne hl) os)
    · rfl
  buffer := by
    intro fn hread hsfirst fcb dma os
    cases fn with
    | readrand => exact absurd rfl hread
    | sfirst => exact absurd rfl hsfirst
    | make =>
        simp only [ramBdos]
        split_ifs <;> rfl
    | rename =>
        simp only [ramBdos]
        split_ifs <;> rfl
    | writernd =>
        simp only [ramBdos]
        split_ifs <;> rfl
    | openFile => rfl
    | closeFile => rfl
    | delete => rfl
    | attrib => rfl
    | filesize => rfl
  key := by
    intro fn hfn fcb dma os
    rcases hfn with rfl | rfl | rfl | rfl | rfl
    · rfl
    · rfl
    · simp only [ramBdos]
      split <;> rfl
    · simp only [ramBdos]
      split_ifs <;> rfl
    · exact Fcb.key_setRec fcb _

theorem ne_of_not_meets {k l : Key} (h : ¬ k.Meets l) : k ≠ l := by
  rintro rfl
  exact h k.meets_self

/-- Where a function leaves the file of a name as it is. -/
theorem ramBdos_file (fn : BdosFn) (hfn : fn ≠ .rename) (fcb : Fcb) (dma : Sector) (os : Ram) {k : Key}
    (hk : ¬ fcb.key.Meets k) : (ramBdos.call fn fcb dma os).os.file k = os.file k := by
  have hne := ne_of_not_meets hk
  cases fn with
  | rename => exact absurd rfl hfn
  | delete => exact Ram.file_without hk os
  | make =>
      simp only [ramBdos]
      split_ifs
      · rfl
      · exact if_neg hne
  | attrib =>
      simp only [ramBdos]
      split_ifs
      · exact Ram.file_modify_of_ne _ hne os
      · rfl
  | writernd =>
      simp only [ramBdos]
      split_ifs
      · exact Ram.file_modify_of_ne _ hne os
      · rfl
  | readrand =>
      simp only [ramBdos]
      split <;> rfl
  | openFile => rfl
  | closeFile => rfl
  | sfirst => rfl
  | filesize => rfl

theorem found_ne_iff {α : Type} (o : Option α) :
    (if o.isSome then (0 : Byte) else 0xFF) ≠ 0xFF ↔ o.isSome := by
  cases o <;> simp

theorem ramBdos_directory : Directory ramBdos ramView where
  toTransfers := ramBdos_transfers
  unwritten := by
    intro fcb dma os h
    simp only [ramBdos] at h
    simp only [ramView]
    cases hr : (os.file fcb.key).bind fun f => f.records[fcb.rec]?.join with
    | none => rfl
    | some d => simp [hr] at h
  bound := by
    intro os k r h
    cases hf : os.file k with
    | none => simp [ramView, hf] at h
    | some f =>
        simp only [ramView, hf, Option.bind_some, Option.map_some, Option.getD_some] at h ⊢
        by_contra hge
        rw [List.getElem?_eq_none (by omega)] at h
        exact h rfl
  size_le := by
    intro os k
    cases hf : os.file k with
    | none => simp [ramView, hf]
    | some f =>
        simp only [ramView, hf, Option.map_some, Option.getD_some]
        exact f.short
  absent := by
    intro os k h
    simp only [ramView, Option.not_isSome_iff_eq_none] at h ⊢
    rw [h]
    rfl
  openAl := fun fcb dma os _ => found_ne_iff (os.file fcb.key)
  openKey := by
    intro fcb dma os _
    simp only [ramBdos]
    split_ifs
    · exact Fcb.key_update fcb _ (by decide)
    · rfl
  deleteKey := fun _ _ _ _ => rfl
  openCount := by
    intro fcb dma os _ _ h32 _
    simp only [ramBdos, h32, if_true, ramView]
    exact Function.update_self _ _ _
  make := by
    intro fcb dma os _ h
    simp only [ramBdos] at h ⊢
    split_ifs at h ⊢ with hex
    · exact absurd rfl h
    · simp [ramView, Ram.file]
  sizeOf := by
    intro fcb dma os
    refine Fcb.rec_setRec fcb ?_
    cases hf : os.file fcb.key with
    | none => simp
    | some f =>
        have := f.short
        simp only [Option.map_some, Option.getD_some]
        omega
  writeOther := by
    intro fcb dma os k r h hother
    simp only [ramBdos] at h ⊢
    split_ifs at h ⊢ with hok
    · rcases hother with hk | ⟨rfl, hr⟩
      · simp only [ramView, Ram.file_modify_of_ne _ (ne_of_not_meets hk)]
      · simp only [ramView, Ram.file_modify_self]
        cases os.file fcb.key with
        | none => rfl
        | some f => exact record_store_of_ne f dma hok.2 (Ne.symm hr)
    · rfl
  writeSize := by
    intro fcb dma os h
    simp only [ramBdos] at h ⊢
    split_ifs at h ⊢ with hok
    · obtain ⟨f, hf⟩ := Option.isSome_iff_exists.mp hok.1
      simp only [ramView, Ram.file_modify_self, hf, Option.map_some, Option.getD_some]
      exact length_store f dma hok.2
    · exact absurd h (show ¬ (6 : Byte) = 0 by decide)
  writePresent := by
    intro fcb dma os h
    simp only [ramBdos]
    split_ifs
    · simpa [ramView, Ram.file_modify_self] using h
    · exact h
  others := fun fn hfn fcb dma os k hk =>
    ramView_size_congr (ramBdos_file fn hfn fcb dma os hk)
  same := by
    intro fn hfn fcb dma os k
    rcases hfn with rfl | rfl | rfl | rfl | rfl
    · exact ⟨rfl, Iff.rfl⟩
    · exact ⟨rfl, Iff.rfl⟩
    · simp only [ramBdos]
      split <;> exact ⟨rfl, Iff.rfl⟩
    · exact ⟨rfl, Iff.rfl⟩
    · simp only [ramBdos]
      split_ifs
      · by_cases hk : fcb.key = k
        · subst hk
          simp only [ramView, Ram.file_modify_self]
          cases os.file fcb.key <;> exact ⟨rfl, Iff.rfl⟩
        · exact ramView_size_congr (Ram.file_modify_of_ne _ hk os)
      · exact ⟨rfl, Iff.rfl⟩
  conoutSame := fun _ _ _ => ⟨rfl, Iff.rfl⟩

/-- The BDOS in memory keeps the last record byte count. -/
theorem ramBdos_keepsCount : KeepsCount ramBdos ramView where
  toDirectory := ramBdos_directory
  version := by decide
  attribCount := by
    intro fcb dma os h h6
    obtain ⟨f, hf⟩ := Option.isSome_iff_exists.mp h
    simp only [ramBdos, if_pos h6, ramView, Ram.file_modify_self, hf]
    rfl
  countSame := by
    intro fn h1 h2 h3 h4 fcb dma os k
    cases fn with
    | attrib => exact absurd rfl h1
    | make => exact absurd rfl h2
    | delete => exact absurd rfl h3
    | rename => exact absurd rfl h4
    | readrand =>
        simp only [ramBdos]
        split <;> rfl
    | writernd =>
        simp only [ramBdos]
        split_ifs with hok
        · by_cases hk : fcb.key = k
          · subst hk
            simp only [ramView, Ram.file_modify_self, Option.map_map]
            congr 2
            funext f
            simp only [Function.comp_apply, RamFile.store, dif_pos hok.2]
          · simp only [ramView, Ram.file_modify_of_ne _ hk]
        · rfl
    | openFile => rfl
    | closeFile => rfl
    | sfirst => rfl
    | filesize => rfl

end OpenWatcom.Clib
