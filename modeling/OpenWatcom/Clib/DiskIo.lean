import OpenWatcom.Clib.Bdos

/-! # The disk layer of the C library

`diskio.c`: open files as byte streams over the 128-byte records of CP/M, through one buffer `dma` that
is the DMA buffer of the BDOS and holds a record of one open file, `cache_fp` and `cache_rec`.

Every call that transfers a record follows a `set_dma`, so the DMA buffer of the BDOS is always `dma`
and `set_dma` is left out.  An `int` has 16 bits, a `long` 32; what the BDOS answers during a call
of the library is kept in `log`. -/

namespace OpenWatcom.Clib

/-! ### State -/

/-- A signed 32-bit number. -/
def toLong (n : Int) : Int := (n + 2 ^ 31) % 2 ^ 32 - 2 ^ 31

/-- A signed 16-bit number. -/
def toInt (n : Int) : Int := (n + 2 ^ 15) % 2 ^ 16 - 2 ^ 15

/-- An open file, `dfile_t`. -/
structure DFile where
  fcb : Fcb
  pos : Int
  len : Int
  used : Bool
  text : Bool
  readable : Bool
  writable : Bool
  append : Bool
  wrote : Bool
  ateof : Bool
  isCon : Bool
  openLrbc : Byte

inductive Errno where
  | enoent | eacces | emfile | ebadf
  deriving DecidableEq, Repr

/-- An answer of the BDOS: the function, its FCB, the buffer, the system it was called in, and AL. -/
structure BdosEvent (σ : Type) where
  fn : BdosFn
  fcb : Fcb
  dma : Sector
  os : σ
  al : Byte

/-- The static variables, the system, and what it answered during the last call of the library. -/
structure DiskIo (σ : Type) where
  dfiles : Fin 16 → DFile
  dma : Sector
  cacheFp : Option (Fin 16)
  cacheRec : Int
  redirIn : Int
  redirOut : Int
  errno : Option Errno
  os : σ
  log : List (BdosEvent σ)

variable {σ : Type}

/-- The open file in slot `i` changed by `f`. -/
def DiskIo.setFile (st : DiskIo σ) (i : Fin 16) (f : DFile → DFile) : DiskIo σ :=
  { st with dfiles := Function.update st.dfiles i (f (st.dfiles i)) }

/-- `fd_to_file`. -/
def fdToFile (st : DiskIo σ) (handle : Int) : Option (Fin 16) :=
  let i := handle - 3
  if i < 0 ∨ 16 ≤ i then none
  else
    let slot := Fin.ofNat 16 i.toNat
    if (st.dfiles slot).used then some slot else none

/-- The handle of an open file. -/
theorem fdToFile_slot {st : DiskIo σ} {i : Fin 16} (hused : (st.dfiles i).used = true) :
    fdToFile st (3 + (i.val : Int)) = some i := by
  have hi := i.isLt
  have hslot : Fin.ofNat 16 (3 + (i.val : Int) - 3).toNat = i := by
    apply Fin.ext
    rw [Fin.val_ofNat]
    omega
  unfold fdToFile
  dsimp only
  rw [if_neg (by omega), hslot, if_pos hused]

/-- The first free slot. -/
def freeSlot (st : DiskIo σ) : Option (Fin 16) :=
  (List.finRange 16).find? fun i => !(st.dfiles i).used

/-! ### FCB helpers -/

/-- `fcb_set_record`. -/
def fcbSetRecord (fcb : Fcb) (rec : Int) : Fcb := fcb.setRec (rec % 2 ^ 24).toNat

def upcase (c : Byte) : Byte := if 0x61 ≤ c ∧ c ≤ 0x7A then c - 0x20 else c

/-- Up to `width` characters, in upper case, from byte `base` on. -/
def putName (base width : ℕ) : ℕ → List Byte → Fcb → Fcb
  | _, [], fcb => fcb
  | i, c :: cs, fcb =>
    putName base width (i + 1) cs
      (if i < width then Function.update fcb (Fin.ofNat 36 (base + i)) (upcase c) else fcb)

/-- `name_to_fcb`: whether the name can be a file name, and the FCB. -/
def nameToFcb (name : List Byte) : Bool × Fcb :=
  let blank : Fcb := fun i => if 1 ≤ i.val ∧ i.val < 12 then 0x20 else 0
  let drive : Option (Fcb × List Byte) :=
    match name with
    | d :: 0x3A :: rest =>
      let d := upcase d
      if d < 0x41 ∨ 0x50 < d then none
      else some (Function.update blank 0 (d - 0x41 + 1), rest)
    | _ => some (blank, name)
  match drive with
  | none => (false, blank)
  | some (fcb, p) =>
    let base := p.takeWhile (· ≠ 0x2E)
    let fcb := putName 1 8 0 base fcb
    if base = [] then (false, fcb)
    else (true, putName 9 3 0 ((p.dropWhile (· ≠ 0x2E)).drop 1) fcb)

/-- `is_console_name`. -/
def isConsoleName (name : List Byte) : Bool :=
  let devs : List (List Byte) := [[0x43, 0x4F, 0x4E], [0x43, 0x4F, 0x4E, 0x49, 0x4E, 0x24],
    [0x43, 0x4F, 0x4E, 0x4F, 0x55, 0x54, 0x24]]
  devs.contains (name.map upcase)

/-- The access modes of `open`: `acc` is the part O_RDONLY, O_WRONLY, O_RDWR. -/
structure OpenMode where
  acc : Fin 4
  append : Bool
  creat : Bool
  trunc : Bool
  binary : Bool
  deriving DecidableEq, Repr

def OpenMode.readable (mode : OpenMode) : Bool := mode.acc = 0 ∨ mode.acc = 2

def OpenMode.writable (mode : OpenMode) : Bool := mode.acc = 1 ∨ mode.acc = 2

section

variable (b : Bdos σ)

/-! ### BDOS calls -/

/-- `_bdos` on the FCB of an open file: AL and the state after it. -/
def bdosFile (fn : BdosFn) (i : Fin 16) (st : DiskIo σ) : Byte × DiskIo σ :=
  let fcb := (st.dfiles i).fcb
  let a := b.call fn fcb st.dma st.os
  (a.al, { st.setFile i (fun fp => { fp with fcb := a.fcb }) with
    dma := a.dma, os := a.os, log := ⟨fn, fcb, st.dma, st.os, a.al⟩ :: st.log })

/-- `_bdos` on an FCB on the stack. -/
def bdosLocal (fn : BdosFn) (fcb : Fcb) (st : DiskIo σ) : Byte × Fcb × DiskIo σ :=
  let a := b.call fn fcb st.dma st.os
  (a.al, a.fcb, { st with dma := a.dma, os := a.os, log := ⟨fn, fcb, st.dma, st.os, a.al⟩ :: st.log })

/-- `_bdos_conout` for each byte. -/
def conoutAll (bytes : List Byte) (st : DiskIo σ) : DiskIo σ :=
  { st with os := bytes.foldl (fun os c => b.conout c os) st.os }

/-- `os_has_lrbc`. -/
def osHasLrbc : Bool := decide (0x30 ≤ b.version)

/-- `load_record`: 0 for a record, 1 at or after the end of the file, -1 for an error. -/
def loadRecord (i : Fin 16) (rec : Int) (st : DiskIo σ) : Int × DiskIo σ :=
  if st.cacheFp = some i ∧ st.cacheRec = rec then (0, st)
  else
    let st := st.setFile i fun fp => { fp with fcb := fcbSetRecord fp.fcb rec }
    let (rc, st) := bdosFile b .readrand i st
    if rc = 1 ∨ rc = 4 then (1, { st with dma := fun _ => cpmEof, cacheFp := none })
    else if rc ≠ 0 then (-1, { st with cacheFp := none })
    else (0, { st with cacheFp := some i, cacheRec := rec })

/-- The length of the record without the Ctrl-Z at its end, among its first `n` bytes. -/
def trimEof (dma : Sector) : ℕ → ℕ
  | 0 => 0
  | n + 1 => if cellOf dma n = cpmEof then trimEof dma n else n + 1

/-- `text_eof`. -/
def textEof (i : Fin 16) (st : DiskIo σ) : Int × DiskIo σ :=
  let (_, st) := bdosFile b .filesize i st
  let records : Int := (st.dfiles i).fcb.rec
  if records = 0 then (0, st)
  else
    let last := records - 1
    let (rc, st) := loadRecord b i last st
    if rc ≠ 0 then (records * 128, st)
    else (last * 128 + trimEof st.dma 128, st)

/-- The length of a file of that many records with that byte count; 0xFF means that there is none. -/
def lengthOf (hasLrbc : Bool) (records : ℕ) (lrbc : Byte) : Int :=
  if records = 0 then 0
  else if hasLrbc ∧ lrbc ≠ 0xFF then
    ((records : Int) - 1) * 128 + (if lrbc = 0 then 128 else lrbc.toNat)
  else records * 128

/-- `disk_len`. -/
def diskLen (i : Fin 16) (st : DiskIo σ) : Int × DiskIo σ :=
  if (st.dfiles i).text then textEof b i st
  else
    let (_, st) := bdosFile b .filesize i st
    (lengthOf (osHasLrbc b) (st.dfiles i).fcb.rec (st.dfiles i).openLrbc, st)

/-! ### The five primitives -/

/-- A slot for the console. -/
def conFile (fcb : Fcb) (readable writable : Bool) : DFile :=
  { fcb := fcb, isCon := true, readable := readable, writable := writable, append := false,
    text := true, wrote := false, pos := 0, len := 0, ateof := false, openLrbc := 0xFF,
    used := true }

/-- The slot before `_sopen` calls the BDOS. -/
def newFile (fcb : Fcb) (mode : OpenMode) (fp : DFile) : DFile :=
  { fp with
    isCon := false, readable := mode.readable, writable := mode.writable, append := mode.append,
    text := !mode.binary, wrote := false, pos := 0, len := 0, ateof := false, openLrbc := 0xFF,
    fcb := if osHasLrbc b && mode.binary then Function.update fcb 32 0xFF else fcb }

/-- The end of `_sopen`. -/
def sopenDone (i : Fin 16) (mode : OpenMode) (st : DiskIo σ) : Int × DiskIo σ :=
  (3 + (i.val : Int), st.setFile i fun fp =>
    { fp with used := true, pos := if mode.append then fp.len else fp.pos })

/-- `_sopen`, behind the check for the console, in the free slot `i`. -/
def sopenFile (i : Fin 16) (name : List Byte) (mode : OpenMode) (st : DiskIo σ) : Int × DiskIo σ :=
  let (ok, fcb) := nameToFcb name
  if !ok then (-1, st.setFile i fun fp => { fp with fcb := fcb })
  else
    let st := st.setFile i (newFile b fcb mode)
    if mode.trunc then
      let (_, st) := bdosFile b .delete i st
      let (al, st) := bdosFile b .make i st
      if al = 0xFF then (-1, st) else sopenDone i mode st
    else
      let (al, st) := bdosFile b .openFile i st
      if al = 0xFF then
        if !mode.creat then (-1, st)
        else
          let (al, st) := bdosFile b .make i st
          if al = 0xFF then (-1, st) else sopenDone i mode st
      else
        let st := st.setFile i fun fp =>
          { fp with openLrbc := fp.fcb 32, fcb := Function.update fp.fcb 32 0 }
        let (len, st) := diskLen b i st
        sopenDone i mode (st.setFile i fun fp => { fp with len := len })

/-- `_sopen`. -/
def sopen (name : List Byte) (mode : OpenMode) (st : DiskIo σ) : Int × DiskIo σ :=
  match freeSlot st with
  | none => (-1, st)
  | some i =>
    if isConsoleName name then
      (3 + (i.val : Int), st.setFile i fun fp => conFile fp.fcb mode.readable mode.writable)
    else sopenFile b i name mode st

/-- The part of `__qread` that decides how far it may read: the length of a file that was not written is
taken from the disk again. -/
def refreshLen (i : Fin 16) (st : DiskIo σ) : DiskIo σ :=
  let fp := st.dfiles i
  if fp.len ≤ fp.pos ∧ !fp.wrote then
    let (dl, st) := diskLen b i st
    if (st.dfiles i).len < dl then st.setFile i fun fp => { fp with len := dl } else st
  else st

/-- One round of the loop of `__qread`, which still wants `n` bytes: the bytes it reads and whether the
loop goes on. -/
def qreadRound (i : Fin 16) (n : ℕ) (st : DiskIo σ) : (List Byte × Bool) × DiskIo σ :=
  let st := refreshLen b i st
  let fp := st.dfiles i
  let off := (fp.pos % 128).toNat
  if fp.len ≤ fp.pos then (([], false), st.setFile i fun fp => { fp with ateof := true })
  else
    let avail := if fp.len - fp.pos < 128 - off then (fp.len - fp.pos).toNat else 128 - off
    let (rc, st) := loadRecord b i (fp.pos / 128) st
    if rc ≠ 0 then (([], false), st.setFile i fun fp => { fp with ateof := true })
    else
      let piece := slice (cellOf st.dma) off (min n avail)
      let eof := fp.text && piece.contains cpmEof
      let piece := if fp.text then piece.takeWhile (· ≠ cpmEof) else piece
      let st := st.setFile i fun fp =>
        { fp with ateof := fp.ateof || eof, pos := toLong (fp.pos + piece.length) }
      ((piece, !eof), st)

/-- The loop of `__qread`: `n` bytes are still wanted, `out` has been read. -/
def qreadLoop (i : Fin 16) (n : ℕ) (out : List Byte) (st : DiskIo σ) : List Byte × DiskIo σ :=
  if _hn : n = 0 then (out, st)
  else
    let r := qreadRound b i n st
    if _h : r.1.1 = [] ∨ r.1.2 = false then (out ++ r.1.1, r.2)
    else qreadLoop i (n - r.1.1.length) (out ++ r.1.1) r.2
termination_by n
decreasing_by
  have := List.length_pos_of_ne_nil (not_or.mp _h).1
  exact Nat.sub_lt (Nat.pos_of_ne_zero _hn) this

/-- `__qread`: the result and the bytes that are in the buffer after it. -/
def qread (handle : Int) (n : ℕ) (st : DiskIo σ) : (Int × List Byte) × DiskIo σ :=
  if handle < 3 ∧ st.redirIn < 0 then ((0, []), st)
  else
    let handle := if handle < 3 then st.redirIn else handle
    match fdToFile st handle with
    | none => ((0, []), st)
    | some i =>
      let fp := st.dfiles i
      if !fp.readable || fp.isCon then ((0, []), st)
      else
        let st := st.setFile i fun fp => { fp with ateof := false }
        let (out, st) := qreadLoop b i n [] st
        ((toInt out.length, out), st)

/-- One round of the loop of `__qwrite` with the rest of the data: how many bytes it writes, none if there
is an error. -/
def qwriteRound (i : Fin 16) (rest : List Byte) (st : DiskIo σ) : ℕ × DiskIo σ :=
  let pos := (st.dfiles i).pos
  let off := (pos % 128).toNat
  let n := min rest.length (128 - off)
  let (rc, st) := loadRecord b i (pos / 128) st
  if rc < 0 then (0, st)
  else
    let st := { st with dma := paste st.dma off (rest.take n) }
    let st := st.setFile i fun fp => { fp with fcb := fcbSetRecord fp.fcb (pos / 128) }
    let (rc, st) := bdosFile b .writernd i st
    if rc ≠ 0 then (0, st)
    else
      let st := { st with cacheFp := some i, cacheRec := pos / 128 }
      (n, st.setFile i fun fp =>
        let pos := toLong (fp.pos + n)
        { fp with pos := pos, len := if fp.len < pos then pos else fp.len })

/-- The loop of `__qwrite`: `rest` is still to be written, `total` bytes have been. -/
def qwriteLoop (i : Fin 16) (rest : List Byte) (total : ℕ) (st : DiskIo σ) : ℕ × DiskIo σ :=
  if _hr : rest = [] then (total, st)
  else
    let r := qwriteRound b i rest st
    if _h : r.1 = 0 then (total, r.2)
    else qwriteLoop i (rest.drop r.1) (total + r.1) r.2
termination_by rest.length
decreasing_by
  have := List.length_pos_of_ne_nil _hr
  rw [List.length_drop]
  exact Nat.sub_lt this (Nat.pos_of_ne_zero _h)

/-- `__qwrite`. -/
def qwrite (handle : Int) (bytes : List Byte) (st : DiskIo σ) : Int × DiskIo σ :=
  if (handle = 1 ∧ st.redirOut < 0) ∨ handle = 2 then
    (toInt bytes.length, conoutAll b bytes st)
  else
    let handle := if handle = 1 then st.redirOut else handle
    match fdToFile st handle with
    | none => (-1, st)
    | some i =>
      let fp := st.dfiles i
      if !fp.writable then (-1, st)
      else if fp.isCon then (toInt bytes.length, conoutAll b bytes st)
      else
        let st := st.setFile i fun fp =>
          { fp with pos := if fp.append then fp.len else fp.pos, wrote := true }
        let (total, st) := qwriteLoop b i bytes 0 st
        (if total = 0 ∧ bytes ≠ [] then -1 else toInt total, st)

/-- The `origin` of a seek; `other` is any other number. -/
inductive Origin where
  | set | cur | end | other
  deriving DecidableEq, Repr

/-- The position that an offset counts from. -/
def Origin.base (fp : DFile) : Origin → Option Int
  | .set => some 0
  | .cur => some fp.pos
  | .end => some fp.len
  | .other => none

/-- `__lseek`. -/
def lseek (handle offset : Int) (origin : Origin) (st : DiskIo σ) : Int × DiskIo σ :=
  match fdToFile st handle with
  | none => (-1, st)
  | some i =>
    match origin.base (st.dfiles i) with
    | none => (-1, st)
    | some base =>
      let pos := toLong (base + offset)
      if pos < 0 then (-1, st)
      else (pos, st.setFile i fun fp => { fp with pos := pos, ateof := false })

/-- The part of `__close` that stores the last record byte count: function 30 with F6' set. -/
def storeCount (i : Fin 16) (lrbc : Byte) (st : DiskIo σ) : DiskIo σ :=
  let st := st.setFile i fun fp =>
    { fp with fcb := Function.update (Function.update fp.fcb 6 (fp.fcb 6 ||| 0x80)) 32 lrbc }
  let (_, st) := bdosFile b .attrib i st
  st.setFile i fun fp => { fp with fcb := Function.update fp.fcb 6 (fp.fcb 6 &&& 0x7F) }

/-- `__close`. -/
def close (handle : Int) (st : DiskIo σ) : Int × DiskIo σ :=
  if handle < 3 then (0, st)
  else
    match fdToFile st handle with
    | none => (-1, st)
    | some i =>
      if (st.dfiles i).isCon then (0, st.setFile i fun fp => { fp with used := false })
      else
        let (_, st) := bdosFile b .closeFile i st
        let fp := st.dfiles i
        let lrbc := UInt8.ofNat (fp.len % 128).toNat
        let st :=
          if fp.wrote && !fp.text && osHasLrbc b && lrbc != 0 then storeCount b i lrbc st else st
        let st := if st.cacheFp = some i then { st with cacheFp := none } else st
        (0, st.setFile i fun fp => { fp with used := false })

/-! ### Calls on names -/

def DiskIo.fail (st : DiskIo σ) (e : Errno) : Int × DiskIo σ := (-1, { st with errno := some e })

/-- `remove`. -/
def remove (name : List Byte) (st : DiskIo σ) : Int × DiskIo σ :=
  let (ok, fcb) := nameToFcb name
  if !ok then st.fail .enoent
  else
    let (al, _, st) := bdosLocal b .delete fcb st
    if al = 0xFF then st.fail .enoent else (0, st)

/-- `chmod`; `writable` is the bit S_IWRITE of the mode. -/
def chmod (name : List Byte) (writable : Bool) (st : DiskIo σ) : Int × DiskIo σ :=
  let (ok, fcb) := nameToFcb name
  if !ok then st.fail .enoent
  else
    let fcb := Function.update fcb 9 (if writable then fcb 9 &&& 0x7F else fcb 9 ||| 0x80)
    let (al, _, st) := bdosLocal b .attrib fcb st
    if al = 0xFF then st.fail .enoent else (0, st)

/-- `stat_probe`: the directory entry, `none` if the name is illegal or there is no such file. -/
def statProbe (name : List Byte) (st : DiskIo σ) : Option (Fin 32 → Byte) × DiskIo σ :=
  let (ok, fcb) := nameToFcb name
  if !ok then (none, st)
  else
    let (al, _, st) := bdosLocal b .sfirst fcb st
    if al = 0xFF then (none, st)
    else (some fun i => cellOf st.dma ((al &&& 3).toNat * 32 + i), st)

/-- `access`; `wOk` is the bit W_OK of the mode. -/
def access (name : List Byte) (wOk : Bool) (st : DiskIo σ) : Int × DiskIo σ :=
  let (ent, st) := statProbe b name st
  match ent with
  | none => st.fail .enoent
  | some ent => if wOk && ent 9 &&& 0x80 != 0 then st.fail .eacces else (0, st)

/-- The fields of `struct stat` that are filled in: the others are 0, `st_nlink` is 1. -/
structure StatBuf where
  stSize : Int
  stMode : ℕ
  deriving DecidableEq, Repr

/-- `stat`. -/
def stat (name : List Byte) (st : DiskIo σ) : (Int × Option StatBuf) × DiskIo σ :=
  let (ent, st) := statProbe b name st
  match ent with
  | none =>
    let (ret, st) := st.fail .enoent
    ((ret, none), st)
  | some ent =>
    let (_, fcb, st) := bdosLocal b .filesize (nameToFcb name).2 st
    let records := fcb.rec
    let (size, st) :=
      if 0 < records && osHasLrbc b then
        let (al, ofcb, st) := bdosLocal b .openFile (Function.update (nameToFcb name).2 32 0xFF) st
        if al ≠ 0xFF then
          let lrbc := ofcb 32
          let (_, _, st) := bdosLocal b .closeFile ofcb st
          (lengthOf true records lrbc, st)
        else ((records : Int) * 128, st)
      else ((records : Int) * 128, st)
    let perm := 0x100 + (if ent 9 &&& 0x80 = 0 then 0x80 else 0) +
      (if ent 9 &&& 0x7F = 0x43 ∧ ent 10 &&& 0x7F = 0x4D ∧ ent 11 &&& 0x7F = 0x44 then 0x40 else 0)
    ((0, some ⟨size, 0x8000 ||| perm ||| perm / 8 ||| perm / 64⟩), st)

/-- `utime`. -/
def utime (name : List Byte) (st : DiskIo σ) : Int × DiskIo σ :=
  let (ent, st) := statProbe b name st
  match ent with
  | none => st.fail .enoent
  | some _ => (0, st)

/-- `dup`. -/
def dup (handle : Int) (st : DiskIo σ) : Int × DiskIo σ :=
  match freeSlot st with
  | none => st.fail .emfile
  | some i =>
    if 0 ≤ handle ∧ handle ≤ 2 then
      (3 + (i.val : Int), st.setFile i fun fp =>
        conFile fp.fcb (decide (handle = 0)) (decide (handle ≠ 0)))
    else st.fail .ebadf

/-- `rename`. -/
def rename (old new : List Byte) (st : DiskIo σ) : Int × DiskIo σ :=
  let (ok, fcb) := nameToFcb old
  let (nok, nfcb) := nameToFcb new
  if !ok || !nok then st.fail .enoent
  else
    let fcb : Fcb := fun i =>
      if i.val < 16 ∨ 32 ≤ i.val then fcb i
      else if 17 ≤ i.val ∧ i.val < 28 then nfcb (i - 16) else 0
    let (al, _, st) := bdosLocal b .rename fcb st
    if al = 0xFF then st.fail .enoent else (0, st)

/-! ### Runs -/

/-- A call of the library. -/
inductive DiskCall where
  | sopen (name : List Byte) (mode : OpenMode)
  | qread (handle : Int) (n : ℕ)
  | qwrite (handle : Int) (bytes : List Byte)
  | lseek (handle offset : Int) (origin : Origin)
  | close (handle : Int)
  | remove (name : List Byte)
  | chmod (name : List Byte) (writable : Bool)
  | access (name : List Byte) (wOk : Bool)
  | stat (name : List Byte)
  | utime (name : List Byte)
  | dup (handle : Int)
  | rename (old new : List Byte)
  deriving DecidableEq, Repr

/-- What a call gives back: its result, the bytes read, and the status. -/
structure Reply where
  ret : Int
  bytes : List Byte
  buf : Option StatBuf
  deriving DecidableEq, Repr

/-- The call, with an empty log before it. -/
def exec (st : DiskIo σ) (c : DiskCall) : Reply × DiskIo σ :=
  let st := { st with log := [] }
  let plain (r : Int × DiskIo σ) : Reply × DiskIo σ := (⟨r.1, [], none⟩, r.2)
  match c with
  | .sopen name mode => plain (sopen b name mode st)
  | .qread handle n =>
    let (r, st) := qread b handle n st
    (⟨r.1, r.2, none⟩, st)
  | .qwrite handle bytes => plain (qwrite b handle bytes st)
  | .lseek handle offset origin => plain (lseek handle offset origin st)
  | .close handle => plain (close b handle st)
  | .remove name => plain (remove b name st)
  | .chmod name writable => plain (chmod b name writable st)
  | .access name wOk => plain (access b name wOk st)
  | .stat name =>
    let (r, st) := stat b name st
    (⟨r.1, [], r.2⟩, st)
  | .utime name => plain (utime b name st)
  | .dup handle => plain (dup handle st)
  | .rename old new => plain (rename b old new st)

def execState (st : DiskIo σ) (c : DiskCall) : DiskIo σ := (exec b st c).2

end

/-- Program start: no open files, nothing in the buffer, no redirection. -/
def DiskIo.start (os : σ) : DiskIo σ where
  dfiles := fun _ => ⟨fun _ => 0, 0, 0, false, false, false, false, false, false, false, false, 0⟩
  dma := fun _ => 0
  cacheFp := none
  cacheRec := 0
  redirIn := -1
  redirOut := -1
  errno := none
  os := os
  log := []

end OpenWatcom.Clib
