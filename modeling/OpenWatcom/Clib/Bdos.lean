import OpenWatcom.Lib.Records

/-! # The disk functions of the BDOS

The operating system below `diskio.c` is a parameter: `Bdos` is what its functions answer, and the
structures `Transfers` and `Directory` say what its documentation promises of the records, sizes and last
record byte counts of files.  A file is known by its `Key`, the drive and the eleven bytes of its
name without attribute bits.

`ramBdos` is a BDOS in memory that keeps these promises. -/

namespace OpenWatcom.Clib

abbrev Byte := UInt8

/-- A record of 128 bytes, `SECT`. -/
abbrev Sector := Fin 128 → Byte

/-- A file control block of 36 bytes. -/
abbrev Fcb := Fin 36 → Byte

/-- A record, a file control block, a directory entry, a key, the file table and the access modes are not
empty: named, so that every module means the same numerals. -/
instance instNeZeroSector : NeZero 128 := ⟨by decide⟩
instance instNeZeroFcb : NeZero 36 := ⟨by decide⟩
instance instNeZeroEntry : NeZero 32 := ⟨by decide⟩
instance instNeZeroKey : NeZero 12 := ⟨by decide⟩
instance instNeZeroFiles : NeZero 16 := ⟨by decide⟩
instance instNeZeroAccess : NeZero 4 := ⟨by decide⟩

/-- `CPM_EOF`, Ctrl-Z. -/
def cpmEof : Byte := 0x1A

/-- What names a file: the drive and the name and type without attribute bits. -/
abbrev Key := Fin 12 → Byte

/-- The name that starts at byte `base` of the FCB. -/
def Fcb.keyAt (fcb : Fcb) (base : ℕ) : Key := fun i =>
  if i = 0 then fcb (Fin.ofNat 36 base) else fcb (Fin.ofNat 36 (base + i)) &&& 0x7F

def Fcb.key (fcb : Fcb) : Key := fcb.keyAt 0

/-- The random record number, `FCB_R0`. -/
def Fcb.rec (fcb : Fcb) : ℕ := (fcb 33).toNat + 2 ^ 8 * (fcb 34).toNat + 2 ^ 16 * (fcb 35).toNat

/-- The FCB with the random record number `n`. -/
def Fcb.setRec (fcb : Fcb) (n : ℕ) : Fcb :=
  Function.update (Function.update (Function.update fcb
    33 (UInt8.ofNat n)) 34 (UInt8.ofNat (n / 2 ^ 8))) 35 (UInt8.ofNat (n / 2 ^ 16))

theorem Fcb.rec_setRec (fcb : Fcb) {n : ℕ} (h : n < 2 ^ 24) : (fcb.setRec n).rec = n := by
  have h33 : (fcb.setRec n) 33 = UInt8.ofNat n := rfl
  have h34 : (fcb.setRec n) 34 = UInt8.ofNat (n / 2 ^ 8) := rfl
  have h35 : (fcb.setRec n) 35 = UInt8.ofNat (n / 2 ^ 16) := rfl
  unfold Fcb.rec
  rw [h33, h34, h35, UInt8.toNat_ofNat', UInt8.toNat_ofNat', UInt8.toNat_ofNat']
  omega

/-- The bytes behind the name do not belong to the key. -/
@[simp] theorem Fcb.key_update (fcb : Fcb) {i : Fin 36} (c : Byte) (h : 12 ≤ i.val) :
    Fcb.key (Function.update fcb i c) = fcb.key := by
  have hne : ∀ j : ℕ, j < 12 → Fin.ofNat 36 j ≠ i := by
    intro j hj heq
    have := congrArg Fin.val heq
    rw [Fin.val_ofNat, Nat.mod_eq_of_lt (by omega)] at this
    omega
  funext j
  unfold Fcb.key Fcb.keyAt
  rw [Function.update_of_ne (hne 0 (by decide)),
    Function.update_of_ne (hne (0 + j) (by have := j.isLt; omega))]

@[simp] theorem Fcb.key_setRec (fcb : Fcb) (n : ℕ) : (fcb.setRec n).key = fcb.key := by
  unfold Fcb.setRec
  rw [Fcb.key_update _ _ (by decide), Fcb.key_update _ _ (by decide),
    Fcb.key_update _ _ (by decide)]

/-- Two names may mean the same file: drive 0 is the current one, and `?` matches any character. -/
def Key.Meets (k l : Key) : Prop :=
  (k 0 = l 0 ∨ k 0 = 0 ∨ l 0 = 0) ∧ ∀ i, i ≠ 0 → k i = l i ∨ k i = 0x3F ∨ l i = 0x3F

instance (k l : Key) : Decidable (k.Meets l) := inferInstanceAs (Decidable (_ ∧ _))

/-- A name without `?`. -/
def Key.Plain (k : Key) : Prop := ∀ i, i ≠ 0 → k i ≠ 0x3F

instance (k : Key) : Decidable k.Plain := inferInstanceAs (Decidable (∀ _, _))

theorem Key.Meets.symm {k l : Key} (h : k.Meets l) : l.Meets k := by
  obtain ⟨hdrive, hname⟩ := h
  constructor
  · rcases hdrive with h | h | h
    · exact .inl h.symm
    · exact .inr (.inr h)
    · exact .inr (.inl h)
  · intro i hi
    rcases hname i hi with h | h | h
    · exact .inl h.symm
    · exact .inr (.inr h)
    · exact .inr (.inl h)

theorem Key.meets_self (k : Key) : k.Meets k := ⟨.inl rfl, fun _ _ => .inl rfl⟩

/-! ### Functions -/

/-- The functions that take an FCB. -/
inductive BdosFn where
  | openFile   -- 15
  | closeFile  -- 16
  | sfirst     -- 17
  | delete     -- 19
  | make       -- 22
  | rename     -- 23
  | attrib     -- 30
  | readrand   -- 33
  | writernd   -- 34
  | filesize   -- 35
  deriving DecidableEq, Repr

/-- What a call leaves behind: register AL, the FCB, the DMA buffer and the system. -/
structure Answer (σ : Type) where
  al : Byte
  fcb : Fcb
  dma : Sector
  os : σ

/-- A BDOS: its version (function 12), the functions on an FCB with the DMA buffer, and console output
(function 2). -/
structure Bdos (σ : Type) where
  version : Byte
  call : BdosFn → Fcb → Sector → σ → Answer σ
  conout : Byte → σ → σ

/-- The disk as the documentation describes it: which files there are, their records, one more than the
number of the last record, and the last record byte count. -/
structure View (σ : Type) where
  present : σ → Key → Prop
  record : σ → Key → ℕ → Option Sector
  size : σ → Key → ℕ
  count : σ → Key → Byte

/-- Transfers are exact, and only writing, deleting and renaming change records.  Nothing is said of the
buffer after a directory search. -/
structure Transfers {σ : Type} (b : Bdos σ) (v : View σ) : Prop where
  /-- Function 33 without an error has put the record into the buffer. -/
  read : ∀ fcb dma os, (b.call .readrand fcb dma os).al = 0 →
    v.record os fcb.key fcb.rec = some (b.call .readrand fcb dma os).dma
  /-- Function 34 without an error has stored the buffer. -/
  write : ∀ fcb dma os, (b.call .writernd fcb dma os).al = 0 →
    v.record (b.call .writernd fcb dma os).os fcb.key fcb.rec = some dma
  /-- Function 34 with an error has stored nothing. -/
  writeError : ∀ fcb dma os, (b.call .writernd fcb dma os).al ≠ 0 →
    v.record (b.call .writernd fcb dma os).os = v.record os
  /-- The other functions leave the records alone. -/
  quiet : ∀ fn, fn ≠ .writernd → fn ≠ .delete → fn ≠ .rename → ∀ fcb dma os,
    v.record (b.call fn fcb dma os).os = v.record os
  conout : ∀ c os, v.record (b.conout c os) = v.record os
  /-- Deleting changes the records of files that the name means. -/
  delete : ∀ fcb dma os k, ¬ fcb.key.Meets k →
    v.record (b.call .delete fcb dma os).os k = v.record os k
  /-- Renaming changes the records of files that one of the names means. -/
  rename : ∀ fcb dma os k, ¬ fcb.key.Meets k → ¬ (fcb.keyAt 16).Meets k →
    v.record (b.call .rename fcb dma os).os k = v.record os k
  /-- Only reading and searching put something into the buffer. -/
  buffer : ∀ fn, fn ≠ .readrand → fn ≠ .sfirst → ∀ fcb dma os, (b.call fn fcb dma os).dma = dma
  /-- The name of an open file stays in its FCB. -/
  key : ∀ fn, fn = .closeFile ∨ fn = .attrib ∨ fn = .readrand ∨ fn = .writernd ∨ fn = .filesize →
    ∀ fcb dma os, (b.call fn fcb dma os).fcb.key = fcb.key

/-- What the directory says of files with plain names. -/
structure Directory {σ : Type} (b : Bdos σ) (v : View σ) : Prop extends Transfers b v where
  /-- Function 33 answers 1 or 4 for a record that was never written. -/
  unwritten : ∀ fcb dma os,
    (b.call .readrand fcb dma os).al = 1 ∨ (b.call .readrand fcb dma os).al = 4 →
    v.record os fcb.key fcb.rec = none
  /-- Records of a file are below its size; the largest file has 2^18 of them. -/
  bound : ∀ os k r, v.record os k r ≠ none → r < v.size os k
  size_le : ∀ os k, v.size os k ≤ 2 ^ 18
  /-- A file that is not there has no records. -/
  absent : ∀ os k, ¬ v.present os k → v.size os k = 0
  /-- Function 15 finds a file that is there. -/
  openAl : ∀ fcb dma os, fcb.key.Plain →
    ((b.call .openFile fcb dma os).al ≠ 0xFF ↔ v.present os fcb.key)
  openKey : ∀ fcb dma os, fcb.key.Plain → (b.call .openFile fcb dma os).fcb.key = fcb.key
  deleteKey : ∀ fcb dma os, fcb.key.Plain → (b.call .delete fcb dma os).fcb.key = fcb.key
  /-- From version 3.0 on, an FCB whose byte 32 asks for it gets the byte count. -/
  openCount : ∀ fcb dma os, fcb.key.Plain → 0x30 ≤ b.version → fcb 32 = 0xFF →
    (b.call .openFile fcb dma os).al ≠ 0xFF →
    (b.call .openFile fcb dma os).fcb 32 = v.count os fcb.key
  /-- Function 22 makes an empty file. -/
  make : ∀ fcb dma os, fcb.key.Plain → (b.call .make fcb dma os).al ≠ 0xFF →
    (b.call .make fcb dma os).fcb.key = fcb.key ∧
      v.size (b.call .make fcb dma os).os fcb.key = 0 ∧
      v.present (b.call .make fcb dma os).os fcb.key
  /-- Function 35 gives the size. -/
  sizeOf : ∀ fcb dma os, (b.call .filesize fcb dma os).fcb.rec = v.size os fcb.key
  /-- Function 34 stores one record. -/
  writeOther : ∀ fcb dma os k r, (b.call .writernd fcb dma os).al = 0 →
    (¬ fcb.key.Meets k ∨ k = fcb.key ∧ r ≠ fcb.rec) →
    v.record (b.call .writernd fcb dma os).os k r = v.record os k r
  writeSize : ∀ fcb dma os, (b.call .writernd fcb dma os).al = 0 →
    v.size (b.call .writernd fcb dma os).os fcb.key = max (v.size os fcb.key) (fcb.rec + 1)
  writePresent : ∀ fcb dma os, v.present os fcb.key →
    v.present (b.call .writernd fcb dma os).os fcb.key
  /-- Functions on other files. -/
  others : ∀ fn, fn ≠ .rename → ∀ fcb dma os k, ¬ fcb.key.Meets k →
    v.size (b.call fn fcb dma os).os k = v.size os k ∧
      (v.present (b.call fn fcb dma os).os k ↔ v.present os k)
  /-- Opening, closing, reading, sizes and attributes change no directory entry but for its byte count. -/
  same : ∀ fn, fn = .openFile ∨ fn = .closeFile ∨ fn = .readrand ∨ fn = .filesize ∨ fn = .attrib →
    ∀ fcb dma os k, v.size (b.call fn fcb dma os).os k = v.size os k ∧
      (v.present (b.call fn fcb dma os).os k ↔ v.present os k)
  conoutSame : ∀ c os k, v.size (b.conout c os) k = v.size os k ∧
    (v.present (b.conout c os) k ↔ v.present os k)

/-- A BDOS that keeps the last record byte count: it changes only by function 30 with F6' set, which
takes it from byte 32. -/
structure KeepsCount {σ : Type} (b : Bdos σ) (v : View σ) : Prop extends Directory b v where
  version : 0x30 ≤ b.version
  attribCount : ∀ fcb dma os, v.present os fcb.key → fcb 6 &&& 0x80 ≠ 0 →
    v.count (b.call .attrib fcb dma os).os fcb.key = fcb 32
  countSame : ∀ fn, fn ≠ .attrib → fn ≠ .make → fn ≠ .delete → fn ≠ .rename → ∀ fcb dma os k,
    v.count (b.call fn fcb dma os).os k = v.count os k

end OpenWatcom.Clib
