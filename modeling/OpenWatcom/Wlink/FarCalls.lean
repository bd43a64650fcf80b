import OpenWatcom.Lib.LittleEndian

/-! # Far calls made near

`FarCallOpt` turns a far call or jump whose target is in the same segment into a near one, in the middle of the
relocation of a far pointer (`Relocate`). The bytes it stores are given with their places from the pointer on, and a
small processor says what the bytes do: it has the instructions that are used, where the stack holds `CS` or an
offset. -/

namespace OpenWatcom.Wlink.FarCalls

/-- `exe_format`. -/
inductive ExeFormat where
  | os2Ne | os2Le | os2Lx | winNe | pe | dosExe | com | overlays | novell | qnx16 | pharSimple | pharFlat | pharRex
  | pharMultiseg | qnxFlat | elf | winVxd | dos16m | raw | rdos32 | rdos16 | cpm86
deriving DecidableEq

/-- `MK_OS2 | MK_WIN_NE | MK_WIN_VXD`. -/
def ExeFormat.isOs2OrWin : ExeFormat → Bool
  | .os2Ne | .os2Le | .os2Lx | .winNe | .winVxd => true
  | _ => false

/-- `MK_OS2_FLAT | MK_WIN_VXD | MK_LINEARIZE | MK_QNX_FLAT`. -/
def ExeFormat.isFlat : ExeFormat → Bool
  | .os2Le | .os2Lx | .winVxd | .elf | .pe | .qnxFlat => true
  | _ => false

/-- `MK_LINEARIZE`. -/
def ExeFormat.isLinearize : ExeFormat → Bool
  | .elf | .pe => true
  | _ => false

/-- `targ_addr`. -/
structure TargAddr where
  seg : ℕ
  off : ℕ
deriving DecidableEq

/-- What `type & FIX_POINTER_MASK` says here: the two kinds of far pointers, and all else. -/
inductive Pointer where
  | none
  | baseOffset16
  | baseOffset32
deriving DecidableEq

/-- `OffsetSizes` of the pointer. -/
def Pointer.width : Pointer → ℕ
  | .none => 0
  | .baseOffset16 => 2
  | .baseOffset32 => 4

/-- What a group says about its place in a flat image. -/
structure Group where
  linear : ℤ
  off : ℤ

/-- What stands still during the relocation. -/
structure Link where
  format : ExeFormat
  base : ℤ
  /-- `LF_FAR_CALLS_FLAG`. -/
  farCalls : Bool
  /-- `LS_HAVE_X86_CODE`. -/
  haveX86 : Bool
  /-- Whether there is code for another processor. -/
  haveOther : Bool
  /-- `CurrRec.addr` of a piece of a segment. -/
  addr : ℕ → TargAddr
  canfarcall : ℕ → Bool
  iscode : ℕ → Bool
  /-- `FindGroup`. -/
  findGroup : ℕ → Option Group

/-- One relocation. -/
structure Fix where
  /-- The piece of a segment where it is, and its place in the piece. -/
  sdata : ℕ
  off : ℕ
  pointer : Pointer
  isUnsafe : Bool
  abs : Bool
  secRel : Bool
  noBase : Bool
  imported : Bool
  tgtAddr : TargAddr
  /-- Whether `CheckSpecials` has done it. -/
  special : Bool
  /-- What `CheckSpecials`, `PatchData` and `FmtReloc` leave in the field when it is not a call to be changed. -/
  field : List UInt8

/-- `loc_addr`. -/
def locAddr (link : Link) (f : Fix) : TargAddr := ⟨(link.addr f.sdata).seg, (link.addr f.sdata).off + f.off⟩

/-- `FindRealAddr`, in a segment without debugging information. -/
def findRealAddr (link : Link) (f : Fix) : ℤ :=
  if f.abs then f.tgtAddr.off
  else if link.format.isFlat && !f.secRel then
    if link.format = .os2Le ∨ link.format = .winVxd then f.tgtAddr.off
    else
      match link.findGroup f.tgtAddr.seg with
      | none => f.tgtAddr.off
      | some group =>
        f.tgtAddr.off + (group.linear - group.off) +
          if link.format.isLinearize && !f.noBase then link.base else 0
  else f.tgtAddr.off

/-- The offset that `PatchData` leaves in the field of a far pointer. -/
def patchOffset (link : Link) (f : Fix) (value : ℕ) : ℤ :=
  if link.format.isOs2OrWin then value else value + findRealAddr link f

def farCallId : UInt8 := 0x9A

def farJmpId : UInt8 := 0xEA

def nopId : UInt8 := 0x90

def ssOverride : UInt8 := 0x36

def csOverride : UInt8 := 0x3E

def pushcsId : UInt8 := 0x0E

def nearCallId : UInt8 := 0xE8

def nearJmpId : UInt8 := 0xE9

def movAxAxId : ℕ := 0xC089

/-- Bytes that are stored, each with its place from the pointer on. -/
abbrev Stores := List (ℤ × UInt8)

/-- Bytes stored one after the other. -/
def putBytes (k : ℤ) : List UInt8 → Stores
  | [] => []
  | b :: l => (k, b) :: putBytes (k + 1) l

/-- The low `w` bytes of a number. -/
def lowBytes (w : ℕ) (x : ℤ) : List UInt8 := leBytes w (x % 256 ^ w).toNat

/-- `LastOptimized` and `LastOptType`. -/
structure Last where
  off : ℕ
  pointer : Pointer
deriving DecidableEq

/-- The tests of `FarCallOpt` before it looks at the instruction. -/
def canOptimize (link : Link) (f : Fix) : Bool :=
  !link.haveOther && !f.isUnsafe && !f.imported && !f.abs && f.pointer != .none &&
    (link.addr f.sdata).seg == f.tgtAddr.seg && (link.canfarcall f.sdata || link.iscode f.sdata)

/-- Whether the call before was changed with a filler at its end. -/
def followsLast (last : Last) (off : ℕ) : Bool :=
  (last.pointer == .baseOffset16 && 5 ≤ off && last.off == off - 5) ||
    (last.pointer == .baseOffset32 && 7 ≤ off && last.off == off - 7)

/-- `FarCallOpt`: what it stores when it changes the instruction. -/
def farCallOpt (link : Link) (f : Fix) (instruction : UInt8) (value : ℤ) (last : Last) : Option (Stores × Last) :=
  if !canOptimize link f then none
  else if instruction = farCallId ∨ instruction = farJmpId then
    let w := f.pointer.width
    let loc := (locAddr link f).off
    let temp := if link.format.isOs2OrWin then value + f.tgtAddr.off else value
    if instruction = farJmpId then
      let temp := temp - (loc + w)
      some (([(-1, nearJmpId)] : Stores) ++ putBytes 0 (lowBytes w temp) ++ putBytes w (leBytes 2 movAxAxId), last)
    else
      let temp := temp - (loc + w + 2)
      if loc % 2 = 1 then
        -- An odd address, so that the NOP is put last.
        some (([(-1, pushcsId), (0, nearCallId), (w + 1, nopId)] : Stores) ++ putBytes 1 (lowBytes w (temp + 1)),
          ⟨loc, f.pointer⟩)
      else
        some (([(-1, pushcsId)] : Stores) ++ (if followsLast last loc then [(-2, ssOverride)] else []) ++
          [(0, csOverride), (1, nearCallId)] ++ putBytes 2 (lowBytes w temp), last)
  else none

/-- The bytes of the pieces. -/
abbrev Mem := ℕ → ℕ → UInt8

/-- The relocation so far. -/
structure St where
  mem : Mem
  last : Last

/-- The byte at a place from the pointer on; in front of the piece the buffer is filled with zeros. -/
def Mem.at (mem : Mem) (f : Fix) (k : ℤ) : UInt8 := if 0 ≤ f.off + k then mem f.sdata (f.off + k).toNat else 0

/-- A byte that is stored; what is in front of the piece stays in the buffer. -/
def Mem.put (mem : Mem) (f : Fix) (store : ℤ × UInt8) : Mem :=
  if 0 ≤ f.off + store.1 then
    Function.update mem f.sdata (Function.update (mem f.sdata) (f.off + store.1).toNat store.2)
  else mem

/-- The offset in the field. -/
def Mem.offsetAt (mem : Mem) (f : Fix) : ℕ :=
  leVal ((List.range f.pointer.width).map fun i => mem.at f i)

/-- `FarCallOpt` in its place in `Relocate`. -/
def optimize (link : Link) (st : St) (f : Fix) : Option (Stores × Last) :=
  if f.special || !(link.farCalls && link.haveX86) then none
  else farCallOpt link f (st.mem.at f (-1)) (patchOffset link f (st.mem.offsetAt f)) st.last

/-- `Relocate`. -/
def relocate (link : Link) (st : St) (f : Fix) : St :=
  match optimize link st f with
  | some (stores, last) => ⟨stores.foldl (fun mem store => mem.put f store) st.mem, last⟩
  | none => ⟨(putBytes 0 f.field).foldl (fun mem store => mem.put f store) st.mem, st.last⟩

def run (link : Link) (st : St) (fs : List Fix) : St := fs.foldl (relocate link) st

/-- `ResetObj2Supp`. -/
def reset (mem : Mem) : St := ⟨mem, 0xFFFFFFFF, .none⟩

/-! ## The processor -/

/-- What can be on the stack. -/
inductive Word where
  | cs
  | offset (n : ℤ)
deriving DecidableEq

structure Cpu where
  ip : ℤ
  stack : List Word

/-- The bytes from an address on. -/
def fetchBytes (fetch : ℤ → UInt8) : ℕ → ℤ → List UInt8
  | 0, _ => []
  | w + 1, a => fetch a :: fetchBytes fetch w (a + 1)

/-- The instruction whose operation code is at `op`, with offsets of `w` bytes. -/
def execAt (w : ℕ) (fetch : ℤ → UInt8) (op : ℤ) (stack : List Word) : Option Cpu :=
  let next := op + 1 + w
  let target := (next + leVal (fetchBytes fetch w (op + 1))) % 256 ^ w
  if fetch op = nopId then some ⟨op + 1, stack⟩
  else if fetch op = pushcsId then some ⟨op + 1, .cs :: stack⟩
  else if fetch op = nearCallId then some ⟨target, .offset next :: stack⟩
  else if fetch op = nearJmpId then some ⟨target, stack⟩
  else none

/-- One instruction; a segment override in front of it changes nothing. -/
def exec (w : ℕ) (fetch : ℤ → UInt8) (c : Cpu) : Option Cpu :=
  if fetch c.ip = ssOverride ∨ fetch c.ip = csOverride then execAt w fetch (c.ip + 1) c.stack
  else execAt w fetch c.ip c.stack

/-! ## What is asked for -/

/-- How far the code and its targets are moved together when offsets are addresses in a flat image. -/
def bias (link : Link) (f : Fix) : ℤ :=
  if link.format.isOs2OrWin then 0 else findRealAddr link f - f.tgtAddr.off

/-- Where the far instruction leads to: the offset of its pointer. Where the loader puts the offset in, it is the one of
the target. -/
def farTarget (link : Link) (st : St) (f : Fix) : ℤ :=
  (st.mem.offsetAt f + f.tgtAddr.off + bias link f) % 256 ^ f.pointer.width

/-- The address of the instruction. -/
def start (link : Link) (f : Fix) : ℤ := (locAddr link f).off + bias link f - 1

/-- The address of the next instruction. -/
def next (link : Link) (f : Fix) : ℤ := start link f + f.pointer.width + 3

/-- The code of the piece. -/
def code (link : Link) (mem : Mem) (f : Fix) (a : ℤ) : UInt8 := mem.at f (a - start link f - 1)

/-- A return address leads to an address: it is the one, or there is only a NOP before it. -/
def LeadsTo (w : ℕ) (fetch : ℤ → UInt8) (ret a : ℤ) : Prop :=
  ret = a ∨ ∀ stack, exec w fetch ⟨ret, stack⟩ = some ⟨a, stack⟩

/-- The bytes push `CS` and a return address that leads to the next instruction, and go to the target. -/
def Calls (w : ℕ) (fetch : ℤ → UInt8) (a next target : ℤ) : Prop :=
  ∀ stack, ∃ c ret, exec w fetch ⟨a, stack⟩ = some c ∧
    exec w fetch c = some ⟨target, .offset ret :: .cs :: stack⟩ ∧ LeadsTo w fetch ret next

/-- The bytes go to the target. -/
def Jumps (w : ℕ) (fetch : ℤ → UInt8) (a target : ℤ) : Prop :=
  ∀ stack, exec w fetch ⟨a, stack⟩ = some ⟨target, stack⟩

/-- A far call that is changed to a near one with a filler. -/
def isOddCall (link : Link) (st : St) (f : Fix) : Bool :=
  (optimize link st f).isSome && st.mem.at f (-1) == farCallId && (locAddr link f).off % 2 == 1

/-- The byte is a filler that was put at the end of an earlier call. -/
def IsFiller (link : Link) (st : St) (before : List Fix) (sdata : ℕ) (place : ℤ) : Prop :=
  ∃ front g back stores last, before = front ++ g :: back ∧ isOddCall link (run link st front) g = true ∧
    optimize link (run link st front) g = some (stores, last) ∧ ((g.pointer.width : ℤ) + 1, nopId) ∈ stores ∧
    g.sdata = sdata ∧ place = g.off + (g.pointer.width + 1)

/-- What is asked of the bytes that a relocation after others stores. -/
structure StoresRight (link : Link) (st : St) (before : List Fix) (f : Fix) (stores : Stores) : Prop where
  /-- They are in the instruction, but for the filler of the call before, whose call then leads to this one as well. -/
  place : ∀ k b, (k, b) ∈ stores → 0 ≤ f.off + k → -1 ≤ k ∧ k ≤ f.pointer.width + 1 ∨
    b = ssOverride ∧ IsFiller link st before f.sdata (f.off + k) ∧
      ∀ stack, exec f.pointer.width (code link (run link st (before ++ [f])).mem f) ⟨start link f - 1, stack⟩ =
        exec f.pointer.width (code link (run link st (before ++ [f])).mem f) ⟨start link f, stack⟩
  call : (run link st before).mem.at f (-1) = farCallId →
    Calls f.pointer.width (code link (run link st (before ++ [f])).mem f) (start link f) (next link f)
      (farTarget link (run link st before) f)
  jump : (run link st before).mem.at f (-1) = farJmpId →
    Jumps f.pointer.width (code link (run link st (before ++ [f])).mem f) (start link f)
      (farTarget link (run link st before) f)

/-- What is asked for when a relocation follows others. -/
def Right (link : Link) (st : St) (before : List Fix) (f : Fix) : Prop :=
  ∀ stores last, optimize link (run link st before) f = some (stores, last) → StoresRight link st before f stores

/-- The calls with a filler in a run. -/
def oddCalls (link : Link) : St → List Fix → List Fix
  | _, [] => []
  | st, f :: fs => (if isOddCall link st f then [f] else []) ++ oddCalls link (relocate link st f) fs

/-- The condition: the image is not moved, and a call with the offset where the last call with a filler ended, in
whatever segment that was, follows such a call in its own piece or is the first instruction of the piece. -/
def Meets (link : Link) (st : St) (before : List Fix) (f : Fix) : Prop :=
  (optimize link (run link st before) f).isSome = true →
    bias link f % 256 ^ f.pointer.width = 0 ∧
    ((run link st before).mem.at f (-1) = farCallId → (locAddr link f).off % 2 = 0 → 2 ≤ f.off →
      followsLast (run link st before).last (locAddr link f).off = true →
      ∃ g ∈ oddCalls link st before, g.sdata = f.sdata ∧ g.off + (g.pointer.width + 3) = f.off)

/-! ## Stores -/

theorem Mem.put_at (mem : Mem) (f : Fix) (k : ℤ) (b : UInt8) (j : ℤ) :
    (mem.put f (k, b)).at f j = if j = k ∧ 0 ≤ f.off + k then b else mem.at f j := by
  unfold Mem.put Mem.at
  by_cases hk : 0 ≤ (f.off : ℤ) + k
  · by_cases hj : 0 ≤ (f.off : ℤ) + j
    · rw [if_pos hk, if_pos hj, if_pos hj]
      by_cases hjk : j = k
      · subst hjk
        simp [hk]
      · have hne : (f.off + j).toNat ≠ (f.off + k).toNat := by omega
        simp [hjk, hne]
    · have hjk : ¬ (j = k ∧ 0 ≤ (f.off : ℤ) + k) := fun h => hj (h.1 ▸ h.2)
      rw [if_neg hj, if_neg hjk, if_neg hj]
  · have hjk : ¬ (j = k ∧ 0 ≤ (f.off : ℤ) + k) := fun h => hk h.2
    rw [if_neg hk, if_neg hjk]

theorem foldl_put_at (mem : Mem) (f : Fix) (stores : Stores) (j : ℤ) (h : ∀ store ∈ stores, store.1 ≠ j) :
    (stores.foldl (fun mem store => mem.put f store) mem).at f j = mem.at f j := by
  induction stores generalizing mem with
  | nil => rfl
  | cons store stores ih =>
    rw [List.foldl_cons, ih _ fun s hs => h s (List.mem_cons_of_mem _ hs), Mem.put_at, if_neg]
    exact fun hj => h store (by simp) hj.1.symm

/-- A byte that is stored once stands in its place. -/
theorem foldl_put_mem {mem : Mem} {f : Fix} {stores : Stores} {k : ℤ} {b : UInt8}
    (hnodup : (stores.map Prod.fst).Nodup) (hmem : (k, b) ∈ stores) (hk : 0 ≤ f.off + k) :
    (stores.foldl (fun mem store => mem.put f store) mem).at f k = b := by
  induction stores generalizing mem with
  | nil => simp at hmem
  | cons store stores ih =>
    rw [List.map_cons, List.nodup_cons] at hnodup
    rw [List.foldl_cons]
    rcases List.mem_cons.1 hmem with rfl | hmem
    · rw [foldl_put_at, Mem.put_at, if_pos ⟨rfl, hk⟩]
      intro s hs heq
      exact hnodup.1 (List.mem_map.2 ⟨s, hs, heq⟩)
    · exact ih hnodup.2 hmem

theorem putBytes_fst {k : ℤ} {l : List UInt8} {store : ℤ × UInt8} (h : store ∈ putBytes k l) :
    k ≤ store.1 ∧ store.1 < k + l.length := by
  induction l generalizing k with
  | nil => simp [putBytes] at h
  | cons b l ih =>
    rcases List.mem_cons.1 h with rfl | h
    · simp
    · have := ih h
      rw [List.length_cons, Nat.cast_add, Nat.cast_one]
      omega

theorem putBytes_nodup (k : ℤ) (l : List UInt8) : ((putBytes k l).map Prod.fst).Nodup := by
  induction l generalizing k with
  | nil => exact List.nodup_nil
  | cons b l ih =>
    rw [putBytes, List.map_cons, List.nodup_cons]
    refine ⟨fun h => ?_, ih _⟩
    obtain ⟨store, hs, heq⟩ := List.mem_map.1 h
    have := putBytes_fst hs
    dsimp only at heq
    omega

theorem fetchBytes_eq {fetch : ℤ → UInt8} {a k : ℤ} {l : List UInt8}
    (h : ∀ store ∈ putBytes k l, fetch (a + store.1) = store.2) : fetchBytes fetch l.length (a + k) = l := by
  induction l generalizing k with
  | nil => rfl
  | cons b l ih =>
    rw [List.length_cons, fetchBytes, h (k, b) (by simp [putBytes]), add_assoc,
      ih fun store hs => h store (by simp [putBytes, hs])]

theorem lowBytes_length (w : ℕ) (x : ℤ) : (lowBytes w x).length = w := leBytes_length _ _

theorem leVal_lowBytes (w : ℕ) (x : ℤ) : (leVal (lowBytes w x) : ℤ) = x % 256 ^ w := by
  have hpos : (0 : ℤ) < 256 ^ w := by positivity
  have hnonneg := Int.emod_nonneg x hpos.ne'
  have hlt := Int.emod_lt_of_pos x hpos
  rw [lowBytes, leVal_leBytes, Int.toNat_of_nonneg hnonneg]
  have : ((x % 256 ^ w).toNat : ℤ) < ((256 ^ w : ℕ) : ℤ) := by
    rw [Int.toNat_of_nonneg hnonneg]
    exact_mod_cast hlt
  exact_mod_cast this

/-! ## What the calls are changed to -/

/-- The offset in the pointer when `FarCallOpt` has seen to what is left to the loader. -/
def temp (link : Link) (st : St) (f : Fix) : ℤ := st.mem.offsetAt f + f.tgtAddr.off + bias link f

theorem temp_eq (link : Link) (st : St) (f : Fix) :
    (if link.format.isOs2OrWin then patchOffset link f (st.mem.offsetAt f) + f.tgtAddr.off
      else patchOffset link f (st.mem.offsetAt f)) = temp link st f := by
  unfold patchOffset temp bias
  split_ifs <;> omega

def jmpStores (link : Link) (st : St) (f : Fix) : Stores :=
  ([(-1, nearJmpId)] : Stores) ++
    putBytes 0 (lowBytes f.pointer.width (temp link st f - ((locAddr link f).off + f.pointer.width))) ++
    putBytes f.pointer.width (leBytes 2 movAxAxId)

def oddStores (link : Link) (st : St) (f : Fix) : Stores :=
  ([(-1, pushcsId), (0, nearCallId), (f.pointer.width + 1, nopId)] : Stores) ++
    putBytes 1 (lowBytes f.pointer.width (temp link st f - ((locAddr link f).off + f.pointer.width + 2) + 1))

def evenStores (link : Link) (st : St) (f : Fix) : Stores :=
  ([(-1, pushcsId)] : Stores) ++
    (if followsLast st.last (locAddr link f).off then [(-2, ssOverride)] else []) ++
    [(0, csOverride), (1, nearCallId)] ++
    putBytes 2 (lowBytes f.pointer.width (temp link st f - ((locAddr link f).off + f.pointer.width + 2)))

/-- The three ways in which an instruction is changed. -/
theorem optimize_cases {link : Link} {st : St} {f : Fix} {stores : Stores} {last : Last}
    (h : optimize link st f = some (stores, last)) :
    0 < f.off ∧ 0 < f.pointer.width ∧
      ((st.mem.at f (-1) = farJmpId ∧ stores = jmpStores link st f ∧ last = st.last) ∨
        (st.mem.at f (-1) = farCallId ∧ (locAddr link f).off % 2 = 1 ∧ stores = oddStores link st f ∧
          last = ⟨(locAddr link f).off, f.pointer⟩) ∨
        (st.mem.at f (-1) = farCallId ∧ (locAddr link f).off % 2 = 0 ∧ stores = evenStores link st f ∧
          last = st.last)) := by
  unfold optimize farCallOpt at h
  simp only [temp_eq] at h
  split at h
  · cases h
  split at h
  · cases h
  next hcan =>
  split at h
  · next hins =>
    have hwidth : 0 < f.pointer.width := by
      have hpointer : f.pointer ≠ .none := by
        intro hnone
        simp [canOptimize, hnone] at hcan
      cases hp : f.pointer with
      | none => exact absurd hp hpointer
      | baseOffset16 => decide
      | baseOffset32 => decide
    have hoff : 0 < f.off := by
      by_contra hzero
      have hat : st.mem.at f (-1) = 0 := if_neg (by omega)
      rw [hat] at hins
      exact absurd hins (by decide)
    refine ⟨hoff, hwidth, ?_⟩
    split at h
    · next hjmp =>
      cases h
      exact .inl ⟨hjmp, rfl, rfl⟩
    · next hjmp =>
      have hcall := hins.resolve_right hjmp
      split at h
      · next hodd =>
        cases h
        exact .inr (.inl ⟨hcall, hodd, rfl, rfl⟩)
      · next hodd =>
        cases h
        exact .inr (.inr ⟨hcall, by omega, rfl, rfl⟩)
  · cases h

theorem putBytes_append_nodup {front : Stores} {k : ℤ} {l : List UInt8} (hfront : (front.map Prod.fst).Nodup)
    (h : ∀ store ∈ front, store.1 < k ∨ k + l.length ≤ store.1) : ((front ++ putBytes k l).map Prod.fst).Nodup := by
  rw [List.map_append, List.nodup_append]
  refine ⟨hfront, putBytes_nodup k l, ?_⟩
  intro a ha b hb heq
  obtain ⟨s, hs, rfl⟩ := List.mem_map.1 ha
  obtain ⟨t, ht, rfl⟩ := List.mem_map.1 hb
  have hs' := h s hs
  have ht' := putBytes_fst ht
  omega

theorem jmpStores_nodup (link : Link) (st : St) (f : Fix) : ((jmpStores link st f).map Prod.fst).Nodup := by
  refine putBytes_append_nodup (putBytes_append_nodup (by simp) ?_) ?_
  · intro s hs
    obtain rfl := List.mem_singleton.1 hs
    exact .inl (by decide)
  · intro s hs
    rcases List.mem_append.1 hs with hs | hs
    · obtain rfl := List.mem_singleton.1 hs
      exact .inl (by dsimp only; omega)
    · have := putBytes_fst hs
      rw [lowBytes_length] at this
      exact .inl (by omega)

theorem oddStores_nodup (link : Link) (st : St) (f : Fix) : ((oddStores link st f).map Prod.fst).Nodup := by
  refine putBytes_append_nodup (by simp; omega) fun s hs => ?_
  rw [lowBytes_length]
  simp only [List.mem_cons, List.not_mem_nil, or_false] at hs
  rcases hs with rfl | rfl | rfl <;> dsimp only <;> omega

theorem evenStores_nodup (link : Link) (st : St) (f : Fix) : ((evenStores link st f).map Prod.fst).Nodup := by
  refine putBytes_append_nodup ?_ fun s hs => ?_
  · split_ifs <;> simp
  · left
    split_ifs at hs <;> simp at hs <;> grind

/-- What is stored is what the processor reads. -/
theorem code_relocate {link : Link} {st : St} {f : Fix} {stores : Stores} {last : Last}
    (h : optimize link st f = some (stores, last)) (hnodup : (stores.map Prod.fst).Nodup) {k : ℤ} {b : UInt8}
    (hmem : (k, b) ∈ stores) (hk : -1 ≤ k) : code link (relocate link st f).mem f (start link f + 1 + k) = b := by
  have hoff := (optimize_cases h).1
  unfold code relocate
  rw [h, show start link f + 1 + k - start link f - 1 = k by ring]
  exact foldl_put_mem hnodup hmem (by omega)

theorem fetch_relocate {link : Link} {st : St} {f : Fix} {stores : Stores} {last : Last}
    (h : optimize link st f = some (stores, last)) (hnodup : (stores.map Prod.fst).Nodup) {k x : ℤ} (hk : -1 ≤ k)
    (hsub : ∀ store ∈ putBytes k (lowBytes f.pointer.width x), store ∈ stores) :
    leVal (fetchBytes (code link (relocate link st f).mem f) f.pointer.width (start link f + 1 + k)) =
      x % 256 ^ f.pointer.width := by
  have hfetch := @fetchBytes_eq (code link (relocate link st f).mem f) (start link f + 1) k
    (lowBytes f.pointer.width x) fun store hs =>
      code_relocate h hnodup (hsub store hs) (by have := putBytes_fst hs; omega)
  rw [lowBytes_length] at hfetch
  rw [hfetch, leVal_lowBytes]

/-- Where the changed instruction leads to: the code is moved, and its target has been moved as well. -/
def nearTarget (link : Link) (st : St) (f : Fix) : ℤ := (temp link st f + bias link f) % 256 ^ f.pointer.width

theorem emod_displacement (m a t d : ℤ) (h : a + t = d) : (a + t % m) % m = d % m := by
  rw [Int.add_emod_emod, h]

theorem exec_of_code {w : ℕ} {fetch : ℤ → UInt8} {a : ℤ} {stack : List Word}
    (hss : fetch a ≠ ssOverride) (hcs : fetch a ≠ csOverride) : exec w fetch ⟨a, stack⟩ = execAt w fetch a stack :=
  if_neg (by simp [hss, hcs])

theorem jumps_relocate {link : Link} {st : St} {f : Fix} {last : Last}
    (h : optimize link st f = some (jmpStores link st f, last)) :
    Jumps f.pointer.width (code link (relocate link st f).mem f) (start link f) (nearTarget link st f) := by
  have hnodup := jmpStores_nodup link st f
  have hop := code_relocate h hnodup (k := -1) (b := nearJmpId) (by simp [jmpStores]) le_rfl
  rw [show start link f + 1 + -1 = start link f by ring] at hop
  have hdisp := fetch_relocate h hnodup (k := 0)
    (x := temp link st f - ((locAddr link f).off + f.pointer.width)) (by decide)
    fun s hs => List.mem_append_left _ (List.mem_append_right _ hs)
  rw [add_zero] at hdisp
  intro stack
  rw [exec_of_code (by rw [hop]; decide) (by rw [hop]; decide), execAt, hop, if_neg (by decide), if_neg (by decide),
    if_neg (by decide), if_pos rfl, hdisp,
    emod_displacement _ _ _ (temp link st f + bias link f) (by unfold start; ring)]
  rfl

theorem leadsTo_of_nop {w : ℕ} {fetch : ℤ → UInt8} {a : ℤ} (h : fetch a = nopId) : LeadsTo w fetch a (a + 1) := by
  refine .inr fun stack => ?_
  rw [exec_of_code (by rw [h]; decide) (by rw [h]; decide), execAt, if_pos h]

theorem exec_pushcs {w : ℕ} {fetch : ℤ → UInt8} {a : ℤ} (h : fetch a = pushcsId) (stack : List Word) :
    exec w fetch ⟨a, stack⟩ = some ⟨a + 1, .cs :: stack⟩ := by
  rw [exec_of_code (by rw [h]; decide) (by rw [h]; decide), execAt, h, if_neg (by decide), if_pos rfl]

theorem execAt_call {w : ℕ} {fetch : ℤ → UInt8} {a : ℤ} (h : fetch a = nearCallId) (stack : List Word) :
    execAt w fetch a stack =
      some ⟨(a + 1 + w + leVal (fetchBytes fetch w (a + 1))) % 256 ^ w, .offset (a + 1 + w) :: stack⟩ := by
  rw [execAt, h, if_neg (by decide), if_neg (by decide), if_pos rfl]

theorem calls_odd {link : Link} {st : St} {f : Fix} {last : Last}
    (h : optimize link st f = some (oddStores link st f, last)) :
    Calls f.pointer.width (code link (relocate link st f).mem f) (start link f) (next link f)
      (nearTarget link st f) := by
  have hnodup := oddStores_nodup link st f
  have hpush := code_relocate h hnodup (k := -1) (b := pushcsId) (by simp [oddStores]) le_rfl
  rw [show start link f + 1 + -1 = start link f by ring] at hpush
  have hcall := code_relocate h hnodup (k := 0) (b := nearCallId) (by simp [oddStores]) (by decide)
  rw [add_zero] at hcall
  have hnop := code_relocate h hnodup (k := f.pointer.width + 1) (b := nopId) (by simp [oddStores]) (by omega)
  have hdisp := fetch_relocate h hnodup (k := 1)
    (x := temp link st f - ((locAddr link f).off + f.pointer.width + 2) + 1) (by decide)
    fun s hs => List.mem_append_right _ hs
  intro stack
  refine ⟨_, start link f + 1 + 1 + f.pointer.width, exec_pushcs hpush stack, ?_, ?_⟩
  · rw [exec_of_code (by rw [hcall]; decide) (by rw [hcall]; decide), execAt_call hcall, hdisp,
      emod_displacement _ _ _ (temp link st f + bias link f) (by unfold start; ring)]
    rfl
  · have hleads := leadsTo_of_nop (w := f.pointer.width) hnop
    rw [show start link f + 1 + (f.pointer.width + 1) = start link f + 1 + 1 + f.pointer.width by ring] at hleads
    rw [next, show start link f + f.pointer.width + 3 = start link f + 1 + 1 + f.pointer.width + 1 by ring]
    exact hleads

theorem evenStores_push (link : Link) (st : St) (f : Fix) : ((-1, pushcsId) : ℤ × UInt8) ∈ evenStores link st f := by
  simp [evenStores]

theorem calls_even {link : Link} {st : St} {f : Fix} {last : Last}
    (h : optimize link st f = some (evenStores link st f, last)) :
    Calls f.pointer.width (code link (relocate link st f).mem f) (start link f) (next link f)
      (nearTarget link st f) := by
  have hnodup := evenStores_nodup link st f
  have hpush := code_relocate h hnodup (evenStores_push link st f) le_rfl
  rw [show start link f + 1 + -1 = start link f by ring] at hpush
  have hcs := code_relocate h hnodup (k := 0) (b := csOverride) (by simp [evenStores]) (by decide)
  rw [add_zero] at hcs
  have hcall := code_relocate h hnodup (k := 1) (b := nearCallId) (by simp [evenStores]) (by decide)
  have hdisp := fetch_relocate h hnodup (k := 2)
    (x := temp link st f - ((locAddr link f).off + f.pointer.width + 2)) (by decide)
    fun s hs => List.mem_append_right _ hs
  rw [show start link f + 1 + 2 = start link f + 1 + 1 + 1 by ring] at hdisp
  intro stack
  refine ⟨_, start link f + 1 + 1 + 1 + f.pointer.width, exec_pushcs hpush stack, ?_, .inl ?_⟩
  · rw [exec, if_pos (.inr hcs), execAt_call hcall, hdisp,
      emod_displacement _ _ _ (temp link st f + bias link f) (by unfold start; ring)]
    rfl
  · rw [next]
    ring

/-! ## Runs -/

theorem mem_oddCalls {link : Link} {st : St} {fs : List Fix} {g : Fix} :
    g ∈ oddCalls link st fs ↔
      ∃ front back, fs = front ++ g :: back ∧ isOddCall link (run link st front) g = true := by
  induction fs generalizing st with
  | nil => simp [oddCalls]
  | cons f fs ih =>
    rw [oddCalls, List.mem_append, ih]
    constructor
    · rintro (h | ⟨front, back, rfl, h⟩)
      · split at h
        · next hodd =>
          obtain rfl := List.mem_singleton.1 h
          exact ⟨[], fs, rfl, hodd⟩
        · cases h
      · exact ⟨f :: front, back, rfl, h⟩
    · rintro ⟨front, back, hfs, h⟩
      cases front with
      | nil =>
        obtain ⟨rfl, -⟩ := List.cons.inj hfs
        exact .inl (by rw [if_pos (show isOddCall link st f = true from h)]; simp)
      | cons a front =>
        obtain ⟨rfl, hrest⟩ := List.cons.inj hfs
        exact .inr ⟨front, back, hrest, h⟩

theorem isOddCall_stores {link : Link} {st : St} {f : Fix} (h : isOddCall link st f = true) :
    ∃ last, optimize link st f = some (oddStores link st f, last) := by
  simp only [isOddCall, Bool.and_eq_true, beq_iff_eq, Option.isSome_iff_exists] at h
  obtain ⟨⟨⟨⟨stores, last⟩, hsome⟩, hcall⟩, hodd⟩ := h
  obtain ⟨-, -, ⟨hjmp, -⟩ | ⟨-, -, rfl, -⟩ | ⟨-, heven, -⟩⟩ := optimize_cases hsome
  · rw [hcall] at hjmp
    exact absurd hjmp (by decide)
  · exact ⟨last, hsome⟩
  · omega

theorem isFiller_iff {link : Link} {st : St} {before : List Fix} {sdata : ℕ} {place : ℤ} :
    IsFiller link st before sdata place ↔
      ∃ g ∈ oddCalls link st before, g.sdata = sdata ∧ (g.off : ℤ) + (g.pointer.width + 3) = place + 2 := by
  constructor
  · rintro ⟨front, g, back, stores, last, hbefore, hodd, -, -, hsdata, hplace⟩
    exact ⟨g, mem_oddCalls.2 ⟨front, back, hbefore, hodd⟩, hsdata, by omega⟩
  · rintro ⟨g, hg, hsdata, hplace⟩
    obtain ⟨front, back, hbefore, hodd⟩ := mem_oddCalls.1 hg
    obtain ⟨last, hsome⟩ := isOddCall_stores hodd
    exact ⟨front, g, back, _, last, hbefore, hodd, hsome, by simp [oddStores], hsdata, by omega⟩

theorem run_append_singleton (link : Link) (st : St) (before : List Fix) (f : Fix) :
    run link st (before ++ [f]) = relocate link (run link st before) f := by
  rw [run, List.foldl_append]
  rfl

theorem nearTarget_eq_iff (link : Link) (st : St) (f : Fix) :
    nearTarget link st f = farTarget link st f ↔ bias link f % 256 ^ f.pointer.width = 0 := by
  change (temp link st f + bias link f) % _ = temp link st f % _ ↔ _
  rw [Int.emod_eq_emod_iff_emod_sub_eq_zero, add_sub_cancel_left]

theorem Calls.target_unique {w : ℕ} {fetch : ℤ → UInt8} {a b t t' : ℤ} (h : Calls w fetch a b t)
    (h' : Calls w fetch a b t') : t = t' := by
  obtain ⟨c, ret, hc, ht, -⟩ := h []
  obtain ⟨c', ret', hc', ht', -⟩ := h' []
  rw [hc] at hc'
  obtain rfl := Option.some.inj hc'
  rw [ht] at ht'
  exact congrArg Cpu.ip (Option.some.inj ht')

theorem Jumps.target_unique {w : ℕ} {fetch : ℤ → UInt8} {a t t' : ℤ} (h : Jumps w fetch a t)
    (h' : Jumps w fetch a t') : t = t' := by
  have heq := h []
  rw [h' []] at heq
  exact (congrArg Cpu.ip (Option.some.inj heq)).symm

/-- Only the filler of the call before lies outside the instruction. -/
theorem evenStores_place {link : Link} {st : St} {f : Fix} {k : ℤ} {b : UInt8} (hw : 0 < f.pointer.width)
    (h : (k, b) ∈ evenStores link st f) :
    -1 ≤ k ∧ k ≤ f.pointer.width + 1 ∨
      k = -2 ∧ b = ssOverride ∧ followsLast st.last (locAddr link f).off = true := by
  simp only [evenStores, List.mem_append, List.mem_cons, List.not_mem_nil, or_false] at h
  rcases h with ((h | h) | h | h) | h
  · cases h
    exact .inl ⟨le_rfl, by omega⟩
  · split at h
    · next hlast =>
      obtain ⟨rfl, rfl⟩ := Prod.mk.inj (List.mem_singleton.1 h)
      exact .inr ⟨rfl, rfl, hlast⟩
    · cases h
  · cases h
    exact .inl ⟨by decide, by omega⟩
  · cases h
    exact .inl ⟨by decide, by omega⟩
  · have hplace := putBytes_fst h
    rw [lowBytes_length] at hplace
    exact .inl ⟨by omega, by omega⟩

theorem jmpStores_place {link : Link} {st : St} {f : Fix} {k : ℤ} {b : UInt8}
    (h : (k, b) ∈ jmpStores link st f) : -1 ≤ k ∧ k ≤ f.pointer.width + 1 := by
  simp only [jmpStores, List.mem_append, List.mem_singleton] at h
  rcases h with (h | h) | h
  · cases h
    omega
  · have hplace := putBytes_fst h
    rw [lowBytes_length] at hplace
    omega
  · have hplace := putBytes_fst h
    rw [leBytes_length] at hplace
    omega

theorem oddStores_place {link : Link} {st : St} {f : Fix} {k : ℤ} {b : UInt8}
    (h : (k, b) ∈ oddStores link st f) : -1 ≤ k ∧ k ≤ f.pointer.width + 1 := by
  simp only [oddStores, List.mem_append, List.mem_cons, List.not_mem_nil, or_false] at h
  rcases h with (h | h | h) | h
  · cases h
    omega
  · cases h
    omega
  · cases h
    omega
  · have hplace := putBytes_fst h
    rw [lowBytes_length] at hplace
    omega

/-- With the override in front, the first instruction of the call does what it does without. -/
theorem exec_override {link : Link} {st : St} {f : Fix} {last : Last}
    (h : optimize link st f = some (evenStores link st f, last)) (hoff : 2 ≤ f.off)
    (hlast : followsLast st.last (locAddr link f).off = true) (stack : List Word) :
    exec f.pointer.width (code link (relocate link st f).mem f) ⟨start link f - 1, stack⟩ =
      exec f.pointer.width (code link (relocate link st f).mem f) ⟨start link f, stack⟩ := by
  have hnodup := evenStores_nodup link st f
  have hpush := code_relocate h hnodup (evenStores_push link st f) le_rfl
  rw [show start link f + 1 + -1 = start link f by ring] at hpush
  have hss : code link (relocate link st f).mem f (start link f - 1) = ssOverride := by
    unfold code relocate
    rw [h, show start link f - 1 - start link f - 1 = -2 by ring]
    refine foldl_put_mem hnodup ?_ (by omega)
    simp [evenStores, hlast]
  rw [exec_pushcs hpush, exec, if_pos (.inl hss)]
  rw [show start link f - 1 + 1 = start link f by ring, execAt, hpush, if_neg (by decide), if_pos rfl]

theorem right_iff_meets (link : Link) (st : St) (before : List Fix) (f : Fix) :
    Right link st before f ↔ Meets link st before f := by
  rcases hopt : optimize link (run link st before) f with - | ⟨stores, last⟩
  · simp [Right, Meets, hopt]
  have hright : Right link st before f ↔ StoresRight link st before f stores := by
    constructor
    · intro h
      exact h _ _ hopt
    · rintro h stores' last' heq
      rw [hopt] at heq
      cases heq
      exact h
  rw [hright, Meets, hopt, ← nearTarget_eq_iff link (run link st before)]
  obtain ⟨hoff, hw, hcases⟩ := optimize_cases hopt
  have hrun := run_append_singleton link st before f
  obtain ⟨hjmp, rfl, -⟩ | ⟨hcall, hodd, rfl, -⟩ | ⟨hcall, heven, rfl, -⟩ := hcases
  · have hjumps := jumps_relocate hopt
    rw [← hrun] at hjumps
    have hnot : (run link st before).mem.at f (-1) ≠ farCallId := by
      rw [hjmp]
      decide
    constructor
    · intro h _
      exact ⟨hjumps.target_unique (h.jump hjmp), fun hcall => absurd hcall hnot⟩
    · intro h
      rw [(h rfl).1] at hjumps
      exact ⟨fun k b hmem _ => .inl (jmpStores_place hmem), fun hcall => absurd hcall hnot, fun _ => hjumps⟩
  · have hcalls := calls_odd hopt
    rw [← hrun] at hcalls
    have hnot : (run link st before).mem.at f (-1) ≠ farJmpId := by
      rw [hcall]
      decide
    constructor
    · intro h _
      exact ⟨hcalls.target_unique (h.call hcall), fun _ _ => by omega⟩
    · intro h
      rw [(h rfl).1] at hcalls
      exact ⟨fun k b hmem _ => .inl (oddStores_place hmem), fun _ => hcalls, fun hjmp => absurd hjmp hnot⟩
  · have hcalls := calls_even hopt
    rw [← hrun] at hcalls
    have hnot : (run link st before).mem.at f (-1) ≠ farJmpId := by
      rw [hcall]
      decide
    constructor
    · intro h _
      refine ⟨hcalls.target_unique (h.call hcall), fun _ _ htwo hlast => ?_⟩
      -- The override is stored, so that it must have taken the place of a filler.
      have hmem : ((-2, ssOverride) : ℤ × UInt8) ∈ evenStores link (run link st before) f := by
        simp [evenStores, hlast]
      rcases h.place _ _ hmem (by omega) with ⟨hlow, -⟩ | ⟨-, hfiller, -⟩
      · exact absurd hlow (by decide)
      · obtain ⟨g, hg, hsdata, hplace⟩ := isFiller_iff.1 hfiller
        exact ⟨g, hg, hsdata, by omega⟩
    · intro h
      obtain ⟨htarget, hfollows⟩ := h rfl
      rw [htarget] at hcalls
      refine ⟨fun k b hmem hk => ?_, fun _ => hcalls, fun hjmp => absurd hjmp hnot⟩
      rcases evenStores_place hw hmem with hin | ⟨rfl, rfl, hlast⟩
      · exact .inl hin
      · obtain ⟨g, hg, hsdata, hplace⟩ := hfollows hcall heven (by omega) hlast
        refine .inr ⟨rfl, isFiller_iff.2 ⟨g, hg, hsdata, by omega⟩, fun stack => ?_⟩
        rw [hrun]
        exact exec_override hopt (by omega) hlast stack

/-- In a run from the start of the link every relocation does what is asked for exactly if each meets the condition. -/
theorem farCallOpt_right_iff (link : Link) (mem : Mem) (fs : List Fix) :
    (∀ before f after, fs = before ++ f :: after → Right link (reset mem) before f) ↔
      ∀ before f after, fs = before ++ f :: after → Meets link (reset mem) before f :=
  forall_congr' fun before => forall_congr' fun f => forall_congr' fun _ => imp_congr_right fun _ =>
    right_iff_meets link (reset mem) before f

/-- A program for DOS with two pieces of code in different segments. -/
def twoSegments : Link where
  format := .dosExe
  base := 0
  farCalls := true
  haveX86 := true
  haveOther := false
  addr := fun sdata => ⟨sdata, 0⟩
  canfarcall := fun _ => true
  iscode := fun _ => true
  findGroup := fun _ => none

/-- A far call of the start of its own segment. -/
def callAt (sdata off : ℕ) : Fix :=
  ⟨sdata, off, .baseOffset16, false, false, false, false, false, ⟨sdata, 0⟩, false, []⟩

/-- There is a far call at 4 in the first piece and one at 9 in the second, where a 0xC3 is in front. -/
def twoCalls : Mem := fun sdata place =>
  if sdata = 0 ∧ place = 4 ∨ sdata = 1 ∧ place = 9 then farCallId else if sdata = 1 ∧ place = 8 then 0xC3 else 0

/-- The call in the second segment has the offset where the call in the first segment ended, and the instruction before
it is overwritten. -/
theorem farCallOpt_stale :
    twoCalls 1 8 = 0xC3 ∧
      (run twoSegments (reset twoCalls) [callAt 0 5, callAt 1 10]).mem 1 8 = ssOverride ∧
      ¬ Right twoSegments (reset twoCalls) [callAt 0 5] (callAt 1 10) := by
  refine ⟨by decide, by decide +kernel, fun h => ?_⟩
  obtain ⟨g, hg, hsdata, -⟩ := ((right_iff_meets _ _ _ _).1 h (by decide +kernel)).2 (by decide +kernel)
    (by decide +kernel) (by decide) (by decide +kernel)
  have hlist : oddCalls twoSegments (reset twoCalls) [callAt 0 5] = [callAt 0 5] := by rfl
  rw [hlist, List.mem_singleton] at hg
  rw [hg] at hsdata
  exact absurd hsdata (by decide)

end OpenWatcom.Wlink.FarCalls
