import OpenWatcom.Clib.FileNames
import OpenWatcom.Lib.Globs

/-! # Directory searches

`dirent.c`: `opendir` expands a pattern into the FCB of a BDOS search, and `readdir` turns the entries that
the search finds into names. -/

namespace OpenWatcom.Clib

open Globs

/-! ### `pattern_to_fcb` -/

/-- The pattern behind a leading `.`, `./` or `.\`. -/
def stripDot : List Byte → List Byte
  | [0x2E] => []
  | 0x2E :: c :: rest => if c = 0x2F ∨ c = 0x5C then rest else 0x2E :: c :: rest
  | p => p

/-- Bytes `base + i` to `base + width` filled with `?`. -/
def fillAny (base width i : ℕ) (fcb : Fcb) : Fcb := fun j =>
  if base + i ≤ j.val ∧ j.val < base + width then 0x3F else fcb j

/-- Up to `width` characters of the pattern, in upper case, from byte `base` on; `*` fills the rest. -/
def putPattern (base width : ℕ) : ℕ → List Byte → Fcb → Fcb
  | _, [], fcb => fcb
  | i, c :: cs, fcb =>
    if c = 0x2A then fillAny base width i fcb
    else putPattern base width (i + 1) cs
      (if i < width then Function.update fcb (Fin.ofNat 36 (base + i)) (upcase c) else fcb)

/-- `pattern_to_fcb`; a null pattern is the empty one. -/
def patternToFcb (name : List Byte) : Bool × Fcb :=
  match driveOf (stripDot name) with
  | none => (false, blankFcb)
  | some (drive, p) =>
    let fcb := Function.update blankFcb 0 drive
    if p = [] ∨ p = [0x2F] ∨ p = [0x5C] then (true, fillAny 1 11 0 fcb)
    else
      let fcb := putPattern 1 8 0 (p.takeWhile (· ≠ 0x2E)) fcb
      (true, putPattern 9 3 0 ((p.dropWhile (· ≠ 0x2E)).drop 1) fcb)

/-! ### Searching and `readdir` -/

/-- An entry of the directory. -/
abbrev DirEntry := Fin 32 → Byte

/-- What functions 17 and 18 compare: `?` means any character, and the attribute bits do not count. -/
def Matches (fcb : Fcb) (ent : DirEntry) : Prop :=
  ∀ k : Fin 11, fcb (Fin.ofNat 36 (1 + k)) = 0x3F ∨
    fcb (Fin.ofNat 36 (1 + k)) &&& 0x7F = ent (Fin.ofNat 32 (1 + k)) &&& 0x7F

instance (fcb : Fcb) (ent : DirEntry) : Decidable (Matches fcb ent) :=
  inferInstanceAs (Decidable (∀ _, _))

/-- The next entry that matches and what the directory has behind it. -/
def search (fcb : Fcb) : List DirEntry → Option (DirEntry × List DirEntry)
  | [] => none
  | ent :: rest => if Matches fcb ent then some (ent, rest) else search fcb rest

theorem search_length {fcb : Fcb} {ent : DirEntry} {rest : List DirEntry} :
    ∀ {left : List DirEntry}, search fcb left = some (ent, rest) → rest.length < left.length
  | [], h => by cases h
  | e :: left, h => by
      unfold search at h
      split_ifs at h
      · cases h
        exact Nat.lt_succ_self _
      · exact Nat.lt_succ_of_lt (search_length h)

/-- `struct dirent`, without the fields that stay 0. -/
structure Dirent where
  dName : List Byte
  dAttr : Byte
  deriving DecidableEq

/-- The characters of the field of the entry up to its first space, without attribute bits. -/
def fieldChars (ent : DirEntry) (base width : ℕ) : List Byte :=
  ((List.range width).map fun k => ent (Fin.ofNat 32 (base + k)) &&& 0x7F).takeWhile (· ≠ 0x20)

/-- What `readdir` returns for an entry. -/
def direntOf (ent : DirEntry) : Dirent :=
  let type := fieldChars ent 9 3
  { dName := fieldChars ent 1 8 ++ (if type = [] then [] else 0x2E :: type)
    dAttr := (if ent 9 &&& 0x80 ≠ 0 then 0x01 else 0) ||| (if ent 10 &&& 0x80 ≠ 0 then 0x04 else 0) |||
      (if ent 11 &&& 0x80 ≠ 0 then 0x20 else 0) }

/-- The entry of the first extent of a file. -/
def FirstExtent (ent : DirEntry) : Prop := ent 12 = 0 ∧ ent 14 = 0

instance (ent : DirEntry) : Decidable (FirstExtent ent) := inferInstanceAs (Decidable (_ ∧ _))

/-- The loop of `readdir`, with the entries behind the last match. -/
def readdirLoop (fcb : Fcb) (left : List DirEntry) : Option Dirent × List DirEntry :=
  match _h : search fcb left with
  | none => (none, [])
  | some (ent, rest) =>
    if ent 12 ≠ 0 ∨ ent 14 ≠ 0 then readdirLoop fcb rest else (some (direntOf ent), rest)
termination_by left.length
decreasing_by exact search_length _h

/-- A `DIR`, and the place in the directory that the BDOS keeps. -/
structure Dir where
  fcb : Fcb
  first : Bool
  left : List DirEntry

/-- `opendir`. -/
def opendir (name : List Byte) : Option Dir :=
  let (ok, fcb) := patternToFcb name
  if ok then some { fcb := fcb, first := true, left := [] } else none

/-- The entries that the next search looks at. -/
def Dir.ahead (directory : List DirEntry) (d : Dir) : List DirEntry :=
  if d.first then directory else d.left

/-- `readdir`. -/
def readdir (directory : List DirEntry) (d : Dir) : Option Dirent × Dir :=
  let r := readdirLoop d.fcb (d.ahead directory)
  (r.1, { d with first := false, left := r.2 })

/-- `readdir` until it returns null, at most `n` times. -/
def readAll (directory : List DirEntry) : ℕ → Dir → List Dirent
  | 0, _ => []
  | n + 1, d =>
    match readdir directory d with
    | (none, _) => []
    | (some e, d) => e :: readAll directory n d

/-- The files of the directory that the FCB means. -/
def listing (fcb : Fcb) (directory : List DirEntry) : List Dirent :=
  (directory.filter fun ent => Matches fcb ent ∧ FirstExtent ent).map direntOf

theorem listing_cons (fcb : Fcb) (ent : DirEntry) (rest : List DirEntry) :
    listing fcb (ent :: rest) =
      if Matches fcb ent ∧ FirstExtent ent then direntOf ent :: listing fcb rest else listing fcb rest := by
  unfold listing
  rw [List.filter_cons]
  split_ifs with h h' h'
  · rfl
  · exact absurd (of_decide_eq_true h) h'
  · exact absurd (decide_eq_true h') h
  · rfl

/-- A round of `readdir` takes the first file off the list. -/
theorem readdirLoop_listing (fcb : Fcb) : ∀ left : List DirEntry,
    (listing fcb left = [] ∧ (readdirLoop fcb left).1 = none) ∨
      ∃ e, (readdirLoop fcb left).1 = some e ∧ listing fcb left = e :: listing fcb (readdirLoop fcb left).2
  | [] => by
      apply Or.inl
      constructor
      · rfl
      · rw [readdirLoop]
        rfl
  | ent :: rest => by
      have ih := readdirLoop_listing fcb rest
      have hskip : ¬ Matches fcb ent → readdirLoop fcb (ent :: rest) = readdirLoop fcb rest := by
        intro hno
        rw [readdirLoop, readdirLoop.eq_def fcb rest, search, if_neg hno]
      rw [listing_cons]
      by_cases hmatch : Matches fcb ent
      · by_cases hfirst : FirstExtent ent
        · rw [if_pos ⟨hmatch, hfirst⟩]
          apply Or.inr
          have hloop : readdirLoop fcb (ent :: rest) = (some (direntOf ent), rest) := by
            rw [readdirLoop, search, if_pos hmatch]
            exact if_neg fun h => h.elim (fun h => h hfirst.1) fun h => h hfirst.2
          rw [hloop]
          exact ⟨_, rfl, rfl⟩
        · rw [if_neg fun h => hfirst h.2]
          have hloop : readdirLoop fcb (ent :: rest) = readdirLoop fcb rest := by
            rw [readdirLoop, search, if_pos hmatch]
            exact if_pos (not_and_or.mp hfirst)
          rw [hloop]
          exact ih
      · rw [if_neg fun h => hmatch h.1, hskip hmatch]
        exact ih

/-- A directory is read in order, and every file once. -/
theorem readAll_eq (directory : List DirEntry) : ∀ (n : ℕ) (d : Dir),
    (listing d.fcb (d.ahead directory)).length ≤ n →
    readAll directory n d = listing d.fcb (d.ahead directory)
  | 0, d, h => (List.length_eq_zero_iff.mp (Nat.le_zero.mp h)).symm
  | n + 1, d, h => by
      have hread : readdir directory d = ((readdirLoop d.fcb (d.ahead directory)).1,
          { d with first := false, left := (readdirLoop d.fcb (d.ahead directory)).2 }) := rfl
      obtain ⟨hnil, hnone⟩ | ⟨e, hsome, hcons⟩ := readdirLoop_listing d.fcb (d.ahead directory)
      · rw [readAll, hread, hnone, hnil]
      · rw [readAll, hread, hsome, hcons]
        dsimp only
        congr 1
        apply readAll_eq directory n
        rw [hcons, List.length_cons] at h
        exact Nat.le_of_succ_le_succ h

/-- The name and the type part of a pattern; a directory alone means every file. -/
def patternParts (name : List Byte) : Option (Byte × List Byte × List Byte) :=
  (driveOf (stripDot name)).map fun r =>
    (r.1, if r.2 = [] ∨ r.2 = [0x2F] ∨ r.2 = [0x5C] then ([0x2A], [0x2A]) else cutDot r.2)

/-- The FCB with these parts. -/
def patternFcb (drive : Byte) (base type : List Byte) : Fcb :=
  putPattern 9 3 0 type (putPattern 1 8 0 base (Function.update blankFcb 0 drive))

/-- What `putPattern` stores. -/
theorem putPattern_apply (base width : ℕ) (hfit : base + width ≤ 36) :
    ∀ (i : ℕ) (cs : List Byte) (fcb : Fcb) (j : Fin 36), putPattern base width i cs fcb j =
      if base + i ≤ j.val ∧ j.val < base + width then
        ((signAt 0x2A 0x3F cs (j.val - (base + i))).map upcase).getD (fcb j)
      else fcb j
  | i, [], fcb, j => by
      simp [putPattern, signAt]
  | i, c :: cs, fcb, j => by
      rw [putPattern]
      by_cases hc : c = 0x2A
      · rw [if_pos hc, hc, signAt_star]
        rfl
      rw [if_neg hc, putPattern_apply base width hfit (i + 1) cs]
      by_cases hi : i < width
      · rw [if_pos hi]
        have hplace : (Fin.ofNat 36 (base + i)).val = base + i := Nat.mod_eq_of_lt (by omega)
        by_cases hj : j.val = base + i
        · have heq : j = Fin.ofNat 36 (base + i) := Fin.ext (hj.trans hplace.symm)
          rw [if_neg (by omega), if_pos (by omega), hj, Nat.sub_self, signAt_zero cs hc, heq,
            Function.update_self]
          rfl
        · have hne : j ≠ Fin.ofNat 36 (base + i) := fun h => hj (by rw [h, hplace])
          rw [Function.update_of_ne hne]
          by_cases hin : base + i ≤ j.val ∧ j.val < base + width
          · rw [if_pos (by omega), if_pos hin,
              show j.val - (base + i) = j.val - (base + (i + 1)) + 1 by omega, signAt_succ cs _ hc]
          · rw [if_neg (by omega), if_neg hin]
      · rw [if_neg hi, if_neg (by omega), if_neg (by omega)]

/-- The part as a field in place `k`. -/
def patternByte (part : List Byte) (k : ℕ) : Byte := ((signAt 0x2A 0x3F part k).map upcase).getD 0x20

theorem patternFcb_base (drive : Byte) (base type : List Byte) {k : ℕ} (hk : k < 8) :
    patternFcb drive base type (Fin.ofNat 36 (1 + k)) = patternByte base k := by
  have hval : (Fin.ofNat 36 (1 + k)).val = 1 + k := Nat.mod_eq_of_lt (by omega)
  have hne : Fin.ofNat 36 (1 + k) ≠ 0 := fun h => by rw [h, Fin.val_zero] at hval; omega
  rw [patternFcb, putPattern_apply 9 3 (by decide), if_neg (by omega), putPattern_apply 1 8 (by decide),
    if_pos (by omega), hval, patternByte, Function.update_of_ne hne, Nat.add_zero,
    Nat.add_sub_cancel_left, blankFcb, if_pos (by omega)]

theorem patternFcb_type (drive : Byte) (base type : List Byte) {k : ℕ} (hk : k < 3) :
    patternFcb drive base type (Fin.ofNat 36 (9 + k)) = patternByte type k := by
  have hval : (Fin.ofNat 36 (9 + k)).val = 9 + k := Nat.mod_eq_of_lt (by omega)
  have hne : Fin.ofNat 36 (9 + k) ≠ 0 := fun h => by rw [h, Fin.val_zero] at hval; omega
  rw [patternFcb, putPattern_apply 9 3 (by decide), if_pos (by omega), putPattern_apply 1 8 (by decide),
    if_neg (by omega), hval, patternByte, Function.update_of_ne hne, Nat.add_zero,
    Nat.add_sub_cancel_left, blankFcb, if_pos (by omega)]

/-- A directory alone is the pattern `*.*`. -/
theorem fillAny_blank (drive : Byte) :
    fillAny 1 11 0 (Function.update blankFcb 0 drive) = patternFcb drive [0x2A] [0x2A] := by
  funext j
  simp only [patternFcb, putPattern, if_true, fillAny]
  split_ifs <;> first | rfl | omega

/-- `pattern_to_fcb` by the parts of the pattern. -/
theorem patternToFcb_eq (name : List Byte) : patternToFcb name = match patternParts name with
    | none => (false, blankFcb)
    | some (drive, base, type) => (true, patternFcb drive base type) := by
  unfold patternToFcb patternParts
  cases driveOf (stripDot name) with
  | none => rfl
  | some r =>
      obtain ⟨drive, p⟩ := r
      dsimp only [Option.map_some]
      by_cases hbare : p = [] ∨ p = [0x2F] ∨ p = [0x5C]
      · rw [if_pos hbare, if_pos hbare, fillAny_blank]
      · rw [if_neg hbare, if_neg hbare]
        rfl

/-! ### Legal entries -/

/-- A character of a file name: printable, in upper case, and none that the CCP takes for something
else, `< > . , ; : = ? * [ ]`. -/
def LegalChar (c : Byte) : Prop :=
  0x20 < c ∧ c < 0x7F ∧ upcase c = c ∧
    c ∉ ([0x3C, 0x3E, 0x2E, 0x2C, 0x3B, 0x3A, 0x3D, 0x3F, 0x2A, 0x5B, 0x5D] : List Byte)

instance (c : Byte) : Decidable (LegalChar c) := inferInstanceAs (Decidable (_ ∧ _))

/-- The entry of a file with this name and type. -/
structure LegalEntry (ent : DirEntry) (name type : List Byte) : Prop where
  nonempty : name ≠ []
  name_le : name.length ≤ 8
  type_le : type.length ≤ 3
  name_legal : ∀ c ∈ name, LegalChar c
  type_legal : ∀ c ∈ type, LegalChar c
  name_bytes : ∀ k < 8, ent (Fin.ofNat 32 (1 + k)) &&& 0x7F = padded name k
  type_bytes : ∀ k < 3, ent (Fin.ofNat 32 (9 + k)) &&& 0x7F = padded type k

theorem LegalChar.ne_space {c : Byte} (h : LegalChar c) : c ≠ 0x20 := by
  rintro rfl
  exact absurd h (by decide)

theorem LegalChar.ne_dot {c : Byte} (h : LegalChar c) : c ≠ 0x2E := by
  rintro rfl
  exact absurd h (by decide)

theorem LegalChar.ne_colon {c : Byte} (h : LegalChar c) : c ≠ 0x3A := by
  rintro rfl
  exact absurd h (by decide)

/-- Padding ends a field. -/
theorem takeWhile_padded {cs : List Byte} {width : ℕ} (hlen : cs.length ≤ width)
    (hcs : ∀ c ∈ cs, c ≠ 0x20) : ((List.range width).map (padded cs)).takeWhile (· ≠ 0x20) = cs := by
  have hsplit : (List.range width).map (padded cs) = cs ++ List.replicate (width - cs.length) 0x20 := by
    apply List.ext_getElem
    · simp only [List.length_map, List.length_range, List.length_append, List.length_replicate]
      omega
    · intro k hk _
      rw [List.getElem_map, List.getElem_range, List.getElem_append, padded]
      split_ifs with hin
      · rw [List.getElem?_eq_getElem hin]
        rfl
      · rw [List.getElem?_eq_none (by omega), List.getElem_replicate]
        rfl
  rw [hsplit, List.takeWhile_append_of_pos fun c hc => decide_eq_true (hcs c hc)]
  cases width - cs.length <;> simp [List.replicate_succ]

theorem LegalEntry.fieldChars_name {ent : DirEntry} {name type : List Byte} (h : LegalEntry ent name type) :
    fieldChars ent 1 8 = name := by
  have hmap : ((List.range 8).map fun k => ent (Fin.ofNat 32 (1 + k)) &&& 0x7F) =
      (List.range 8).map (padded name) :=
    List.map_congr_left fun k hk => h.name_bytes k (List.mem_range.mp hk)
  rw [fieldChars, hmap]
  exact takeWhile_padded h.name_le fun c hc => (h.name_legal c hc).ne_space

theorem LegalEntry.fieldChars_type {ent : DirEntry} {name type : List Byte} (h : LegalEntry ent name type) :
    fieldChars ent 9 3 = type := by
  have hmap : ((List.range 3).map fun k => ent (Fin.ofNat 32 (9 + k)) &&& 0x7F) =
      (List.range 3).map (padded type) :=
    List.map_congr_left fun k hk => h.type_bytes k (List.mem_range.mp hk)
  rw [fieldChars, hmap]
  exact takeWhile_padded h.type_le fun c hc => (h.type_legal c hc).ne_space

/-- The dot that `readdir` puts between name and type is the first one. -/
theorem cutDot_dName {name : List Byte} (type : List Byte) (hname : ∀ c ∈ name, c ≠ 0x2E) :
    cutDot (name ++ (if type = [] then [] else 0x2E :: type)) = (name, type) := by
  have hpos : ∀ c ∈ name, decide (c ≠ 0x2E) = true := fun c hc => decide_eq_true (hname c hc)
  unfold cutDot
  rw [List.takeWhile_append_of_pos hpos, List.dropWhile_append_of_pos hpos]
  split_ifs with htype
  · subst htype
    simp
  · simp

theorem map_upcase_eq {cs : List Byte} (h : ∀ c ∈ cs, LegalChar c) : cs.map upcase = cs := by
  rw [List.map_congr_left fun c hc => (h c hc).2.2.1, List.map_id']

/-- `name_to_fcb` turns the name that `readdir` returns back into the eleven bytes. -/
theorem LegalEntry.nameToFcb_direntOf {ent : DirEntry} {name type : List Byte}
    (h : LegalEntry ent name type) :
    (nameToFcb (direntOf ent).dName).1 = true ∧ ∀ k : Fin 11,
      (nameToFcb (direntOf ent).dName).2 (Fin.ofNat 36 (1 + k)) = ent (Fin.ofNat 32 (1 + k)) &&& 0x7F := by
  have hname : (direntOf ent).dName = name ++ (if type = [] then [] else 0x2E :: type) := by
    simp only [direntOf, h.fieldChars_name, h.fieldChars_type]
  have hcolon : ∀ c ∈ (direntOf ent).dName, c ≠ 0x3A := by
    intro c hc
    rw [hname, List.mem_append] at hc
    obtain hc | hc := hc
    · exact (h.name_legal c hc).ne_colon
    · split_ifs at hc
      · cases hc
      · obtain rfl | hc := List.mem_cons.mp hc
        · decide
        · exact (h.type_legal c hc).ne_colon
  have hdrive : ∀ d rest, (direntOf ent).dName = d :: 0x3A :: rest → False := fun d rest heq =>
    hcolon 0x3A (by rw [heq]; exact List.mem_cons_of_mem _ List.mem_cons_self) rfl
  have hfcb : nameToFcb (direntOf ent).dName = (true, nameFcb 0 name type) := by
    rw [nameToFcb_eq, fileParts, driveOf_of_no_drive hdrive, Option.map_some, hname,
      cutDot_dName type fun c hc => (h.name_legal c hc).ne_dot]
    dsimp only
    rw [decide_eq_true h.nonempty, if_neg h.nonempty]
  rw [hfcb]
  refine ⟨rfl, fun k => ?_⟩
  dsimp only
  by_cases hk : k.val < 8
  · rw [nameFcb_base _ _ _ hk, h.name_bytes k hk, map_upcase_eq h.name_legal]
  · have hplace : 1 + k.val = 9 + (k.val - 8) := by omega
    have hlt := k.isLt
    rw [hplace, nameFcb_type _ _ _ (by omega), h.type_bytes _ (by omega), map_upcase_eq h.type_legal]

/-! ### Globbing -/

/-- The characters match the part of the pattern. -/
def GlobPart (part cs : List Byte) : Prop :=
  Glob 0x2A 0x3F 0x20 (fun c x => upcase c = x) part cs

/-- The entry with this name and type is one that the pattern means. -/
def Globs (name : List Byte) (cs type : List Byte) : Prop :=
  ∃ p ∈ patternParts name, GlobPart p.2.1 cs ∧ GlobPart p.2.2 type

/-- The characters match what a field of `width` characters holds of the part, seven bits of each. -/
def SeenPart (width : ℕ) (part cs : List Byte) : Prop :=
  Glob 0x2A 0x3F 0x20 (fun c x => upcase c &&& 0x7F = x) (part.take width) cs

/-- The part has a place for each of its characters: up to the first `*`, those in the field have seven
bits, and those behind it match nothing more. -/
def FitsPart (width : ℕ) (part : List Byte) : Prop :=
  (∀ c ∈ (part.takeWhile (· ≠ 0x2A)).take width, c < 0x80) ∧
    ∀ c ∈ (part.takeWhile (· ≠ 0x2A)).drop width, c = 0x3F ∨ c = 0x20

instance (width : ℕ) (part : List Byte) : Decidable (FitsPart width part) :=
  inferInstanceAs (Decidable (_ ∧ _))

/-- The name and the type part fit. -/
def Fits (name : List Byte) : Prop := ∃ p ∈ patternParts name, FitsPart 8 p.2.1 ∧ FitsPart 3 p.2.2

/-- The entry matches what the fields hold of the pattern. -/
def Seen (name : List Byte) (cs type : List Byte) : Prop :=
  ∃ p ∈ patternParts name, SeenPart 8 p.2.1 cs ∧ SeenPart 3 p.2.2 type

/-- A field of the FCB matches the characters when what it holds of the part does. -/
theorem seenPart_iff {width : ℕ} {part cs : List Byte} (hlen : cs.length ≤ width)
    (hcs : ∀ c ∈ cs, c ≠ 0x20) :
    SeenPart width part cs ↔
      ∀ k < width, patternByte part k = 0x3F ∨ patternByte part k &&& 0x7F = padded cs k := by
  rw [SeenPart, glob_take_iff_forall part width cs hlen hcs]
  apply forall₂_congr
  intro k _
  unfold patternByte
  cases signAt 0x2A 0x3F part k with
  | none =>
      change padded cs k = 0x20 ↔ (0x20 : Byte) = 0x3F ∨ (0x20 : Byte) &&& 0x7F = padded cs k
      rw [show ((0x20 : Byte) &&& 0x7F) = 0x20 by decide, or_iff_right (by decide)]
      exact eq_comm
  | some c =>
      change c = 0x3F ∨ upcase c &&& 0x7F = padded cs k ↔
        upcase c = 0x3F ∨ upcase c &&& 0x7F = padded cs k
      rw [upcase_eq_iff (by decide)]

/-- The part matches what its field matches, if it fits. -/
theorem globPart_iff {width : ℕ} {part cs : List Byte} (hlen : cs.length ≤ width)
    (hcs : ∀ c ∈ cs, LegalChar c) :
    GlobPart part cs ↔ SeenPart width part cs ∧ FitsPart width part := by
  have hseven : ∀ x ∈ (0x20 : Byte) :: cs, x < 0x80 := by
    intro x hx
    obtain rfl | hx := List.mem_cons.mp hx
    · decide
    · exact UInt8.lt_trans (hcs x hx).2.1 (by decide)
  have hlit : (part.take width).takeWhile (· ≠ 0x2A) = (part.takeWhile (· ≠ 0x2A)).take width :=
    List.take_takeWhile.symm
  rw [GlobPart, glob_take_iff part width cs hlen]
  constructor
  · rintro ⟨hglob, hrest⟩
    refine ⟨?_, ?_, ?_⟩
    · apply Glob.mono _ hglob
      intro c _ _ x hx hsame
      rw [hsame, and_seven (hseven x hx)]
    · intro c hc
      rw [← hlit] at hc
      obtain rfl | ⟨x, hx, hsame⟩ := hglob.sign c hc
      · decide
      · exact lt_of_upcase_lt (hsame ▸ hseven x hx)
    · intro c hc
      apply (hrest c hc).imp_right
      exact (upcase_eq_iff (by decide)).mp
  · rintro ⟨hseen, hbits, hrest⟩
    constructor
    · apply Glob.mono _ hseen
      intro c hc _ x hx hsame
      rw [hlit] at hc
      rw [and_seven (upcase_lt (hbits c hc))] at hsame
      exact hsame
    · intro c hc
      apply (hrest c hc).imp_right
      exact (upcase_eq_iff (by decide)).mpr

/-- A search matches a legal entry when the entry matches what the fields hold of the pattern. -/
theorem matches_iff {name : List Byte} (hok : (patternToFcb name).1 = true) {ent : DirEntry}
    {cs type : List Byte} (h : LegalEntry ent cs type) :
    Matches (patternToFcb name).2 ent ↔ Seen name cs type := by
  have hparts := patternToFcb_eq name
  unfold Seen
  cases hp : patternParts name with
  | none =>
      rw [hp] at hparts
      rw [hparts] at hok
      cases hok
  | some p =>
      obtain ⟨drive, base, part⟩ := p
      rw [hp] at hparts
      rw [hparts]
      simp only [Option.mem_some_iff, exists_eq_left']
      rw [seenPart_iff h.name_le fun c hc => (h.name_legal c hc).ne_space,
        seenPart_iff h.type_le fun c hc => (h.type_legal c hc).ne_space]
      constructor
      · intro hmatch
        constructor
        · intro k hk
          have := hmatch ⟨k, by omega⟩
          rwa [patternFcb_base _ _ _ hk, h.name_bytes k hk] at this
        · intro k hk
          have := hmatch ⟨8 + k, by omega⟩
          dsimp only at this
          rwa [show 1 + (8 + k) = 9 + k by omega, patternFcb_type _ _ _ hk, h.type_bytes k hk] at this
      · rintro ⟨hname, htype⟩ k
        by_cases hk : k.val < 8
        · rw [patternFcb_base _ _ _ hk, h.name_bytes k hk]
          exact hname k hk
        · have hlt := k.isLt
          rw [show 1 + k.val = 9 + (k.val - 8) by omega, patternFcb_type _ _ _ (by omega),
            h.type_bytes _ (by omega)]
          exact htype _ (by omega)

theorem globs_iff {name : List Byte} {ent : DirEntry} {cs type : List Byte}
    (h : LegalEntry ent cs type) : Globs name cs type ↔ Seen name cs type ∧ Fits name := by
  unfold Globs Seen Fits
  cases patternParts name with
  | none => simp
  | some p =>
      simp only [Option.mem_some_iff, exists_eq_left']
      rw [globPart_iff h.name_le h.name_legal, globPart_iff h.type_le h.type_legal]
      exact and_and_and_comm

/-- What is asked of a search: it matches the legal entries that the pattern means, and their names stand
for them again. -/
def SearchOk (name : List Byte) : Prop :=
  ∀ ent cs type, LegalEntry ent cs type →
    (Matches (patternToFcb name).2 ent ↔ Globs name cs type) ∧
      (Matches (patternToFcb name).2 ent → (nameToFcb (direntOf ent).dName).1 = true ∧ ∀ k : Fin 11,
        (nameToFcb (direntOf ent).dName).2 (Fin.ofNat 36 (1 + k)) = ent (Fin.ofNat 32 (1 + k)) &&& 0x7F)

/-- A search does what is asked for patterns whose parts fit, and where the fields match no file at all. -/
theorem searchOk_iff (name : List Byte) (hok : (patternToFcb name).1 = true) :
    SearchOk name ↔ Fits name ∨ ∀ ent cs type, LegalEntry ent cs type → ¬ Seen name cs type := by
  constructor
  · intro h
    by_cases hfits : Fits name
    · exact .inl hfits
    · apply Or.inr
      intro ent cs type hent hseen
      have hglobs := (h ent cs type hent).1.mp ((matches_iff hok hent).mpr hseen)
      exact hfits ((globs_iff hent).mp hglobs).2
  · intro h ent cs type hent
    refine ⟨?_, fun _ => hent.nameToFcb_direntOf⟩
    rw [matches_iff hok hent, globs_iff hent]
    obtain hfits | hnone := h
    · exact (and_iff_left hfits).symm
    · have := hnone ent cs type hent
      exact ⟨fun hseen => absurd hseen this, fun hseen => absurd hseen.1 this⟩

/-- `AB*.C?` fits. -/
theorem searchOk_star : SearchOk [0x41, 0x42, 0x2A, 0x2E, 0x43, 0x3F] ↔
    Fits [0x41, 0x42, 0x2A, 0x2E, 0x43, 0x3F] ∨ ∀ ent cs type, LegalEntry ent cs type →
      ¬ Seen [0x41, 0x42, 0x2A, 0x2E, 0x43, 0x3F] cs type :=
  searchOk_iff _ (by decide)

/-- `ABCDEFGHI` finds `ABCDEFGH`. -/
theorem not_searchOk_long : ¬ SearchOk [0x41, 0x42, 0x43, 0x44, 0x45, 0x46, 0x47, 0x48, 0x49] := by
  intro h
  have hent : LegalEntry (fun i => if i.val = 0 then 0 else if i.val < 9 then 0x40 + UInt8.ofNat i.val
      else if i.val < 12 then 0x20 else 0) [0x41, 0x42, 0x43, 0x44, 0x45, 0x46, 0x47, 0x48] [] :=
    ⟨by decide +kernel, by decide +kernel, by decide +kernel, by decide +kernel, by decide +kernel,
      by decide +kernel, by decide +kernel⟩
  have hglobs := (h _ _ _ hent).1.mp (by decide)
  obtain ⟨p, hp, hname, -⟩ := hglobs
  have hval : p = (0, [0x41, 0x42, 0x43, 0x44, 0x45, 0x46, 0x47, 0x48, 0x49], []) :=
    (Option.some.inj (Option.mem_def.mp hp)).symm
  rw [hval] at hname
  simp only [GlobPart, Glob, List.headD_cons, List.tail_cons] at hname
  simp [upcase] at hname

end OpenWatcom.Clib
