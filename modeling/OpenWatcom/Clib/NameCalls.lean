import OpenWatcom.Clib.FileNames
import OpenWatcom.Clib.ByteFiles

/-! # Calls that change the directory by name

`remove`, `chmod`, `rename` and `_sopen` with `O_TRUNC` give the BDOS the FCB that `name_to_fcb` makes.
A name that stands for one file, `HasForm`, has an FCB without `?`, and a call with such names leaves every
other file as it is, `execState_sameEntry`.  A name that `name_to_fcb` takes although it stands for no file
changes a file that it is not the name of, `remove_other`. -/

namespace OpenWatcom.Clib

variable {σ : Type}

/-! ### What the directory holds of a file -/

/-- The view of a disk with the attribute bits of its files. -/
structure EntryView (σ : Type) extends View σ where
  attrs : σ → Key → Fin 11 → Bool

/-- Functions on one name leave the entries of other names alone. -/
structure Frames (b : Bdos σ) (v : EntryView σ) : Prop extends Directory b v.toView where
  othersCount : ∀ fn, fn ≠ .rename → ∀ fcb dma os k, ¬ fcb.key.Meets k →
    v.count (b.call fn fcb dma os).os k = v.count os k ∧
      v.attrs (b.call fn fcb dma os).os k = v.attrs os k
  renameOthers : ∀ fcb dma os k, ¬ fcb.key.Meets k → ¬ (fcb.keyAt 16).Meets k →
    v.size (b.call .rename fcb dma os).os k = v.size os k ∧
      (v.present (b.call .rename fcb dma os).os k ↔ v.present os k) ∧
      v.count (b.call .rename fcb dma os).os k = v.count os k ∧
      v.attrs (b.call .rename fcb dma os).os k = v.attrs os k

/-- The entry of the file and its data are the same. -/
structure SameEntry (v : EntryView σ) (os os' : σ) (k : Key) : Prop where
  present : v.present os' k ↔ v.present os k
  record : v.record os' k = v.record os k
  size : v.size os' k = v.size os k
  count : v.count os' k = v.count os k
  attrs : v.attrs os' k = v.attrs os k

theorem SameEntry.refl (v : EntryView σ) (os : σ) (k : Key) : SameEntry v os os k :=
  ⟨Iff.rfl, rfl, rfl, rfl, rfl⟩

theorem SameEntry.trans {v : EntryView σ} {os os₁ os₂ : σ} {k : Key} (h : SameEntry v os os₁ k)
    (h' : SameEntry v os₁ os₂ k) : SameEntry v os os₂ k :=
  ⟨h'.present.trans h.present, h'.record.trans h.record, h'.size.trans h.size, h'.count.trans h.count,
    h'.attrs.trans h.attrs⟩

section

variable {b : Bdos σ} {v : EntryView σ}

theorem Frames.call (hb : Frames b v) {fn : BdosFn} (hfn : fn = .delete ∨ fn = .make ∨ fn = .attrib)
    {fcb : Fcb} (dma : Sector) (os : σ) {k : Key} (hk : ¬ fcb.key.Meets k) :
    SameEntry v os (b.call fn fcb dma os).os k := by
  have hne : fn ≠ .rename := by
    obtain rfl | rfl | rfl := hfn <;> decide
  obtain ⟨hsize, hpresent⟩ := hb.others fn hne fcb dma os k hk
  obtain ⟨hcount, hattrs⟩ := hb.othersCount fn hne fcb dma os k hk
  refine ⟨hpresent, ?_, hsize, hcount, hattrs⟩
  obtain rfl | rfl | rfl := hfn
  · exact hb.delete fcb dma os k hk
  · rw [hb.quiet .make (by decide) (by decide) (by decide)]
  · rw [hb.quiet .attrib (by decide) (by decide) (by decide)]

theorem Frames.callRename (hb : Frames b v) {fcb : Fcb} (dma : Sector) (os : σ) {k : Key}
    (hk : ¬ fcb.key.Meets k) (hk' : ¬ (fcb.keyAt 16).Meets k) :
    SameEntry v os (b.call .rename fcb dma os).os k := by
  obtain ⟨hsize, hpresent, hcount, hattrs⟩ := hb.renameOthers fcb dma os k hk hk'
  exact ⟨hpresent, hb.rename fcb dma os k hk hk', hsize, hcount, hattrs⟩

end

/-! ### Names with a form -/

/-- A character of a name: seven bits, and neither a wildcard nor a dot. -/
def NameChar (c : Byte) : Prop := c < 0x80 ∧ c ≠ 0x3F ∧ c ≠ 0x2A ∧ c ≠ 0x2E

instance (c : Byte) : Decidable (NameChar c) := inferInstanceAs (Decidable (_ ∧ _))

/-- One to eight characters, and up to three behind the dot. -/
def LegalParts (base type : List Byte) : Prop :=
  base ≠ [] ∧ base.length ≤ 8 ∧ type.length ≤ 3 ∧ ∀ c ∈ base ++ type, NameChar c

instance (base type : List Byte) : Decidable (LegalParts base type) := inferInstanceAs (Decidable (_ ∧ _))

/-- The string is the name of a file. -/
def HasForm (name : List Byte) : Prop := ∃ p ∈ fileParts name, LegalParts p.2.1 p.2.2

/-- The eleven bytes are the form of the name: upper case, padded with spaces. -/
def IsForm (name : List Byte) (k : Key) : Prop :=
  ∃ p ∈ fileParts name, LegalParts p.2.1 p.2.2 ∧
    (∀ j < 8, k (Fin.ofNat 12 (1 + j)) = padded (p.2.1.map upcase) j) ∧
    ∀ j < 3, k (Fin.ofNat 12 (9 + j)) = padded (p.2.2.map upcase) j

/-- The key of an FCB with these parts: the drive may be another one, and attribute bits may be set. -/
def HasName (k : Key) (base type : List Byte) : Prop :=
  (∀ j < 8, k (Fin.ofNat 12 (1 + j)) = padded (base.map upcase) j &&& 0x7F) ∧
    ∀ j < 3, k (Fin.ofNat 12 (9 + j)) = padded (type.map upcase) j &&& 0x7F

theorem hasForm_ok {name : List Byte} (h : HasForm name) : (nameToFcb name).1 = true := by
  obtain ⟨p, hp, hlegal⟩ := h
  rw [nameToFcb_eq, Option.mem_def.mp hp]
  exact decide_eq_true hlegal.1

theorem ofNat_ne_zero {j : ℕ} (hj : 1 ≤ j) (hlt : j < 12) : Fin.ofNat 12 j ≠ 0 := by
  intro h
  have hval : (Fin.ofNat 12 j).val = j := Nat.mod_eq_of_lt hlt
  rw [h, Fin.val_zero] at hval
  omega

theorem keyAt_apply (fcb : Fcb) (base : ℕ) {j : ℕ} (hj : 1 ≤ j) (hlt : j < 12) :
    fcb.keyAt base (Fin.ofNat 12 j) = fcb (Fin.ofNat 36 (base + j)) &&& 0x7F := by
  have hval : (Fin.ofNat 12 j).val = j := Nat.mod_eq_of_lt hlt
  rw [Fcb.keyAt, if_neg (ofNat_ne_zero hj hlt), hval]

theorem nameFcb_hasName (drive : Byte) (base type : List Byte) :
    HasName (nameFcb drive base type).key base type := by
  constructor
  · intro j hj
    rw [Fcb.key, keyAt_apply _ _ (by omega) (by omega), Nat.zero_add, nameFcb_base _ _ _ hj]
  · intro j hj
    rw [Fcb.key, keyAt_apply _ _ (by omega) (by omega), Nat.zero_add, nameFcb_type _ _ _ hj]

/-- What stands in a field of a legal name. -/
theorem padded_legal {cs : List Byte} (hcs : ∀ c ∈ cs, NameChar c) (j : ℕ) :
    padded (cs.map upcase) j < 0x80 ∧ padded (cs.map upcase) j ≠ 0x3F := by
  rw [padded_map_upcase]
  cases hj : cs[j]? with
  | none => exact ⟨by decide, by decide⟩
  | some c =>
      have hc := hcs c (List.mem_of_getElem? hj)
      exact ⟨upcase_lt hc.1, fun h => hc.2.1 ((upcase_eq_iff (by decide)).mp h)⟩

/-- Only the form of a name with a form is met by its FCB. -/
theorem isForm_of_meets {name : List Byte} {p : Byte × List Byte × List Byte} (hp : fileParts name = some p)
    (hlegal : LegalParts p.2.1 p.2.2) {l k : Key} (hl : HasName l p.2.1 p.2.2) (hk : k.Plain)
    (hmeets : l.Meets k) : IsForm name k := by
  obtain ⟨hbase, htype⟩ := hl
  have hchars := hlegal.2.2.2
  have hplace : ∀ {j : ℕ}, 1 ≤ j → j < 12 → ∀ {cs : List Byte} {i : ℕ}, (∀ c ∈ cs, NameChar c) →
      l (Fin.ofNat 12 j) = padded (cs.map upcase) i &&& 0x7F →
      k (Fin.ofNat 12 j) = padded (cs.map upcase) i := by
    intro j hj hlt cs i hcs hlj
    obtain ⟨hseven, hany⟩ := padded_legal hcs i
    rw [and_seven hseven] at hlj
    have hne := ofNat_ne_zero hj hlt
    obtain heq | heq | heq := hmeets.2 _ hne
    · exact heq.symm.trans hlj
    · exact absurd (hlj.symm.trans heq) hany
    · exact absurd heq (hk _ hne)
  refine ⟨p, hp, hlegal, fun j hj => ?_, fun j hj => ?_⟩
  · apply hplace (by omega) (by omega) _ (hbase j hj)
    exact fun c hc => hchars c (List.mem_append_left _ hc)
  · apply hplace (by omega) (by omega) _ (htype j hj)
    exact fun c hc => hchars c (List.mem_append_right _ hc)

/-- An FCB with the name bytes of a form does not mean another file, on any drive. -/
theorem HasForm.not_meets_of {name : List Byte} (h : HasForm name) {l k : Key}
    (hl : ∀ i, i ≠ 0 → l i = (nameToFcb name).2.key i) (hk : k.Plain) (hother : ¬ IsForm name k) :
    ¬ l.Meets k := by
  intro hmeets
  obtain ⟨p, hp, hlegal⟩ := h
  have hfcb : (nameToFcb name).2 = nameFcb p.1 p.2.1 p.2.2 := by
    rw [nameToFcb_eq, Option.mem_def.mp hp]
    exact if_neg hlegal.1
  rw [hfcb] at hl
  obtain ⟨hbase, htype⟩ := nameFcb_hasName p.1 p.2.1 p.2.2
  refine hother (isForm_of_meets hp hlegal ⟨fun j hj => ?_, fun j hj => ?_⟩ hk hmeets)
  · rw [hl _ (ofNat_ne_zero (by omega) (by omega)), hbase j hj]
  · rw [hl _ (ofNat_ne_zero (by omega) (by omega)), htype j hj]

/-- The FCB of a name with a form does not mean another file. -/
theorem HasForm.not_meets {name : List Byte} (h : HasForm name) {k : Key} (hk : k.Plain)
    (hother : ¬ IsForm name k) : ¬ (nameToFcb name).2.key.Meets k :=
  h.not_meets_of (fun _ _ => rfl) hk hother

/-- A form has no `?`. -/
theorem HasForm.plain {name : List Byte} (h : HasForm name) : (nameToFcb name).2.key.Plain := by
  intro i hi
  obtain ⟨p, hp, hlegal⟩ := h
  have hfcb : (nameToFcb name).2 = nameFcb p.1 p.2.1 p.2.2 := by
    rw [nameToFcb_eq, Option.mem_def.mp hp]
    exact if_neg hlegal.1
  have hchars := hlegal.2.2.2
  rw [hfcb]
  obtain ⟨hbase, htype⟩ := nameFcb_hasName p.1 p.2.1 p.2.2
  obtain ⟨j, hj, hval⟩ | ⟨j, hj, hval⟩ := name_place hi
  · have heq : i = Fin.ofNat 12 (1 + j) := Fin.ext (hval.trans (Nat.mod_eq_of_lt (by omega)).symm)
    obtain ⟨hseven, hany⟩ := padded_legal (fun c hc => hchars c (List.mem_append_left _ hc)) j
    rw [heq, hbase j hj, and_seven hseven]
    exact hany
  · have heq : i = Fin.ofNat 12 (9 + j) := Fin.ext (hval.trans (Nat.mod_eq_of_lt (by omega)).symm)
    obtain ⟨hseven, hany⟩ := padded_legal (fun c hc => hchars c (List.mem_append_right _ hc)) j
    rw [heq, htype j hj, and_seven hseven]
    exact hany

/-! ### The calls -/

/-- The names of files that a call may change. -/
def DiskCall.names : DiskCall → List (List Byte)
  | .remove name => [name]
  | .chmod name _ => [name]
  | .sopen name mode => if mode.trunc then [name] else []
  | .rename old new => [old, new]
  | _ => []

section

variable {b : Bdos σ} {v : EntryView σ}

/-- The attribute bit of the type does not belong to the key. -/
theorem key_update_type (fcb : Fcb) {c : Byte} (hc : c &&& 0x7F = fcb 9 &&& 0x7F) :
    Fcb.key (Function.update fcb 9 c) = fcb.key := by
  funext i
  unfold Fcb.key Fcb.keyAt
  split_ifs with hi
  · exact Function.update_of_ne (by decide) _ _
  · by_cases h9 : Fin.ofNat 36 (0 + i.val) = 9
    · rw [h9, Function.update_self, hc]
    · rw [Function.update_of_ne h9]

/-- The new name of `rename`. -/
theorem renameFcb_keyAt (old new : List Byte) {i : Fin 12} (hi : i ≠ 0) :
    (renameFcb old new).keyAt 16 i = (nameToFcb new).2.key i := by
  have hlt := i.isLt
  have hpos : i.val ≠ 0 := fun h => hi (Fin.ext h)
  have hval : (Fin.ofNat 36 (16 + i.val)).val = 16 + i.val := Nat.mod_eq_of_lt (by omega)
  have hsub : Fin.ofNat 36 (16 + i.val) - 16 = Fin.ofNat 36 (0 + i.val) := by
    apply Fin.ext
    rw [Fin.sub_val_of_le (by rw [Fin.le_def, hval]; exact Nat.le_add_right 16 _), hval]
    change 16 + i.val - 16 = (0 + i.val) % 36
    omega
  rw [Fcb.key, Fcb.keyAt, if_neg hi, Fcb.keyAt, if_neg hi, renameFcb, if_neg (by omega), if_pos (by omega),
    hsub]

theorem renameFcb_key (old new : List Byte) : (renameFcb old new).key = (nameToFcb old).2.key := by
  funext i
  have hlt := i.isLt
  have hval : (Fin.ofNat 36 (0 + i.val)).val = i.val := by
    rw [Nat.zero_add]
    exact Nat.mod_eq_of_lt (by omega)
  have hsame : renameFcb old new (Fin.ofNat 36 (0 + i.val)) = (nameToFcb old).2 (Fin.ofNat 36 (0 + i.val)) :=
    if_pos (.inl (by omega))
  unfold Fcb.key Fcb.keyAt
  rw [hsame]
  rfl

/-- A call with a name that `name_to_fcb` does not take changes nothing. -/
theorem execState_rejected {st : DiskIo σ} {c : DiskCall} {name : List Byte} (hname : name ∈ c.names)
    (hno : (nameToFcb name).1 = false) : (execState b st c).os = st.os := by
  cases c with
  | remove name' =>
      obtain rfl := List.mem_singleton.mp hname
      simp only [execState, exec, remove, hno]
      rfl
  | chmod name' w =>
      obtain rfl := List.mem_singleton.mp hname
      simp only [execState, exec, chmod, hno]
      rfl
  | sopen name' mode =>
      have hmem : name = name' := by
        change name ∈ (if mode.trunc then [name'] else []) at hname
        split_ifs at hname
        · exact List.mem_singleton.mp hname
        · cases hname
      subst hmem
      simp only [execState, exec, sopen]
      split
      · rfl
      · split_ifs
        · rfl
        · simp only [sopenFile, hno]
          rfl
  | rename old new =>
      have hno' : (!(nameToFcb old).1 || !(nameToFcb new).1) = true := by
        obtain rfl | hname := List.mem_cons.mp hname
        · rw [hno]
          rfl
        · obtain rfl := List.mem_singleton.mp hname
          rw [hno, Bool.not_false, Bool.or_true]
      simp only [execState, exec, rename, hno']
      rfl
  | _ => cases hname

theorem sopenFile_sameEntry (hb : Frames b v) {i : Fin 16} {name : List Byte} {mode : OpenMode}
    {st : DiskIo σ} (hform : HasForm name) (htrunc : mode.trunc = true) {k : Key}
    (hk : ¬ (nameToFcb name).2.key.Meets k) : SameEntry v st.os (sopenFile b i name mode st).2.os k := by
  unfold sopenFile
  dsimp only
  rw [hasForm_ok hform, if_neg (by decide), if_pos htrunc]
  have hkey : (((st.setFile i (newFile b (nameToFcb name).2 mode)).dfiles i).fcb).key =
      (nameToFcb name).2.key := by
    rw [setFile_self]
    exact sopenFcb_key b name mode
  have hos : (st.setFile i (newFile b (nameToFcb name).2 mode)).os = st.os := rfl
  generalize st.setFile i (newFile b (nameToFcb name).2 mode) = st₁ at hkey hos ⊢
  have hdel : SameEntry v st₁.os (bdosFile b .delete i st₁).2.os k :=
    hb.call (.inl rfl) st₁.dma st₁.os (by rwa [hkey])
  have hkey₂ : (((bdosFile b .delete i st₁).2.dfiles i).fcb).key = (nameToFcb name).2.key := by
    have hfcb : ((bdosFile b .delete i st₁).2.dfiles i).fcb =
        (b.call .delete (st₁.dfiles i).fcb st₁.dma st₁.os).fcb := by simp [bdosFile]
    rw [hfcb, hb.deleteKey _ _ _ (by rw [hkey]; exact hform.plain), hkey]
  generalize (bdosFile b .delete i st₁).2 = st₂ at hdel hkey₂ ⊢
  have hmake : SameEntry v st₂.os (bdosFile b .make i st₂).2.os k :=
    hb.call (.inr (.inl rfl)) st₂.dma st₂.os (by rwa [hkey₂])
  rw [hos] at hdel
  split_ifs
  · exact hdel.trans hmake
  · exact hdel.trans hmake

/-- A call with names of files leaves every other file as it is. -/
theorem execState_sameEntry (hb : Frames b v) {st : DiskIo σ} {c : DiskCall} (hc : c.names ≠ [])
    (hforms : ∀ name ∈ c.names, HasForm name) {k : Key} (hk : k.Plain)
    (hother : ∀ name ∈ c.names, ¬ IsForm name k) : SameEntry v st.os (execState b st c).os k := by
  cases c with
  | remove name =>
      have hform := hforms name (List.mem_singleton_self _)
      have hcall := hb.call (.inl (Eq.refl BdosFn.delete)) st.dma st.os
        (hform.not_meets hk (hother name (List.mem_singleton_self _)))
      simp only [execState, exec, remove, hasForm_ok hform]
      rw [if_neg (by decide)]
      split_ifs
      · exact hcall
      · exact hcall
  | chmod name w =>
      have hform := hforms name (List.mem_singleton_self _)
      have hkey : Fcb.key (Function.update (nameToFcb name).2 9
          (if w then (nameToFcb name).2 9 &&& 0x7F else (nameToFcb name).2 9 ||| 0x80)) =
          (nameToFcb name).2.key := by
        apply key_update_type
        generalize (nameToFcb name).2 9 = c
        cases w
        · exact or_and_seven c
        · change c &&& 0x7F &&& 0x7F = c &&& 0x7F
          rw [UInt8.and_assoc, UInt8.and_self]
      have hnot := hform.not_meets hk (hother name (List.mem_singleton_self _))
      rw [← hkey] at hnot
      have hcall := hb.call (.inr (.inr (Eq.refl BdosFn.attrib))) st.dma st.os hnot
      simp only [execState, exec, chmod, hasForm_ok hform]
      rw [if_neg (by decide)]
      split_ifs at hcall ⊢
      · exact hcall
      · exact hcall
      · exact hcall
      · exact hcall
  | sopen name mode =>
      have htrunc : mode.trunc = true := by
        by_contra hno
        exact hc (if_neg hno)
      have hmem : name ∈ (DiskCall.sopen name mode).names := by
        change name ∈ (if mode.trunc then [name] else [])
        rw [if_pos htrunc]
        exact List.mem_singleton_self _
      have hform := hforms name hmem
      have hnot := hform.not_meets hk (hother name hmem)
      simp only [execState, exec, sopen]
      split
      · exact .refl v st.os k
      · rename_i i _
        split_ifs
        · exact .refl v st.os k
        · let st₀ : DiskIo σ := { st with log := [] }
          have hsame : SameEntry v st₀.os (sopenFile b i name mode st₀).2.os k :=
            sopenFile_sameEntry hb hform htrunc hnot
          exact hsame
  | rename old new =>
      have hold := hforms old List.mem_cons_self
      have hnew := hforms new (List.mem_cons_of_mem _ List.mem_cons_self)
      have hnot := hold.not_meets hk (hother old List.mem_cons_self)
      have hnot' : ¬ ((renameFcb old new).keyAt 16).Meets k :=
        hnew.not_meets_of (fun _ hi => renameFcb_keyAt old new hi) hk
          (hother new (List.mem_cons_of_mem _ List.mem_cons_self))
      rw [← renameFcb_key old new] at hnot
      have hcall := hb.callRename st.dma st.os hnot hnot'
      simp only [execState, exec, rename, hasForm_ok hold, hasForm_ok hnew]
      rw [if_neg (by decide)]
      unfold renameFcb at hcall
      split_ifs
      · exact hcall
      · exact hcall
  | _ => exact absurd rfl hc

end

/-! ### One name, one file -/

/-- A call with the name changes no file but those that its names are the forms of. -/
def OneFile (name : List Byte) : Prop :=
  ∀ (σ : Type) (b : Bdos σ) (v : EntryView σ), Frames b v → ∀ (st : DiskIo σ) (c : DiskCall),
    name ∈ c.names → (∀ other ∈ c.names, other ≠ name → (nameToFcb other).1 = false ∨ HasForm other) →
    ∀ k : Key, k.Plain → (∀ n ∈ c.names, ¬ IsForm n k) → SameEntry v st.os (execState b st c).os k

/-- The BDOS in memory has no attribute bits. -/
def ramEntries : EntryView Ram := { ramView with attrs := fun _ _ _ => false }

theorem ramBdos_frames : Frames ramBdos ramEntries where
  toDirectory := ramBdos_directory
  othersCount := by
    intro fn hfn fcb dma os k hk
    have hfile := ramBdos_file fn hfn fcb dma os hk
    constructor
    · simp only [ramEntries, ramView, hfile]
    · rfl
  renameOthers := by
    intro fcb dma os k hk hl
    have hfile : (ramBdos.call .rename fcb dma os).os.file k = os.file k := by
      simp only [ramBdos]
      split_ifs
      · exact Ram.file_moved (ne_of_not_meets hk) (ne_of_not_meets hl) os
      · rfl
    obtain ⟨hsize, hpresent⟩ := ramView_size_congr hfile
    refine ⟨hsize, hpresent, ?_, rfl⟩
    simp only [ramEntries, ramView, hfile]

/-- A file that an FCB means, `A` for every `?`. -/
def meant (l : Key) : Key := fun i => if i ≠ 0 ∧ l i = 0x3F then 0x41 else l i

theorem meant_plain (l : Key) : (meant l).Plain := by
  intro i hi
  unfold meant
  split_ifs with h
  · decide
  · exact fun heq => h ⟨hi, heq⟩

theorem meets_meant (l : Key) : l.Meets (meant l) := by
  constructor
  · exact .inl (if_neg fun h => h.1 rfl).symm
  · intro i _
    by_cases h : l i = 0x3F
    · exact .inr (.inl h)
    · exact .inl (if_neg fun hi => h hi.2).symm

/-- A name that is taken without a form removes a file that it is not the name of. -/
theorem remove_other {name : List Byte} (hok : (nameToFcb name).1 = true) (hform : ¬ HasForm name) :
    ¬ OneFile name := by
  intro h
  let k := meant (nameToFcb name).2.key
  let os : Ram := [(k, ⟨[], 0, by decide⟩)]
  have hnone : ¬ IsForm name k := fun ⟨p, hp, hlegal, _⟩ => hform ⟨p, hp, hlegal⟩
  have hsame := h Ram ramBdos ramEntries ramBdos_frames (DiskIo.start os) (.remove name)
    (List.mem_singleton_self _) (fun other hother hne => absurd (List.mem_singleton.mp hother) hne) k
    (meant_plain _) fun n hn => by
      obtain rfl := List.mem_singleton.mp hn
      exact hnone
  have hos : (execState ramBdos (DiskIo.start os) (.remove name)).os = os.without (nameToFcb name).2.key := by
    simp only [execState, exec, remove, hok]
    rw [if_neg (by decide)]
    split_ifs <;> rfl
  have hgone : os.without (nameToFcb name).2.key = [] :=
    List.filter_cons_of_neg (by simpa using meets_meant _)
  have hpresent := hsame.present
  rw [hos, hgone] at hpresent
  have hthere : ramEntries.present os k := by
    change ((if k = k then some _ else _ : Option RamFile)).isSome
    rw [if_pos rfl]
    rfl
  have := hpresent.mpr hthere
  cases this

/-- The calls change one file by one name when `name_to_fcb` rejects the name or it has a form. -/
theorem oneFile_iff (name : List Byte) : OneFile name ↔ (nameToFcb name).1 = false ∨ HasForm name := by
  constructor
  · intro h
    by_cases hok : (nameToFcb name).1 = true
    · apply Or.inr
      by_contra hform
      exact remove_other hok hform h
    · exact .inl (Bool.not_eq_true _ ▸ hok)
  · intro h σ b v hb st c hname hothers k hk hnone
    by_cases hrej : ∃ n ∈ c.names, (nameToFcb n).1 = false
    · obtain ⟨n, hn, hno⟩ := hrej
      rw [execState_rejected hn hno]
      exact .refl v st.os k
    · have hforms : ∀ n ∈ c.names, HasForm n := by
        intro n hn
        by_cases heq : n = name
        · subst heq
          exact h.resolve_left fun hno => hrej ⟨n, hn, hno⟩
        · exact (hothers n hn heq).resolve_left fun hno => hrej ⟨n, hn, hno⟩
      exact execState_sameEntry hb (List.ne_nil_of_mem hname) hforms hk hnone

/-- `?.TXT` removes `A.TXT`. -/
theorem not_oneFile_wildcard : ¬ OneFile [0x3F, 0x2E, 0x54, 0x58, 0x54] := by
  apply remove_other
  · decide
  · rintro ⟨p, hp, hlegal⟩
    have hval : p = (0, [0x3F], [0x54, 0x58, 0x54]) := (Option.some.inj (Option.mem_def.mp hp)).symm
    rw [hval] at hlegal
    exact absurd hlegal (by decide)

end OpenWatcom.Clib
