import OpenWatcom.Cg.Dominate

/-! # Uses and definitions of a block

`SearchDefUse` goes through the instructions of each block with flags for the names, and sets the bits of the names that
are used before they are defined and of those that are defined as a whole. -/

namespace OpenWatcom.VarUsage

open Dominate (BitSet)

/-- The bits of `var_usage` that are set here. -/
structure Usage where
  useWithinBlock : Bool
  useInAnotherBlock : Bool
  defWithinBlock : Bool
  useAddress : Bool
  deriving DecidableEq

/-- `EMPTY`. -/
def Usage.empty : Usage := ⟨false, false, false, false⟩

/-- A variable, by the number of its name. -/
inductive Var
  | temp (t : ℕ)
  | memory (m : ℕ)
  deriving DecidableEq

/-- A name that is not indexed: a variable, a `CONS_TEMP_ADDR` constant, or a register or another constant. -/
inductive Simple
  | var (v : Var)
  | tempAddr (t : ℕ)
  | other
  deriving DecidableEq

structure IndexedName where
  index : Simple
  base : Option Var
  /-- `X_FAKE_BASE`. -/
  fakeBase : Bool

/-- `HasTrueBase`. -/
def IndexedName.trueBase (x : IndexedName) : Option Var := if x.fakeBase then none else x.base

inductive Name
  | simple (s : Simple)
  | indexed (x : IndexedName)

structure Instruction where
  /-- `OP_CALL` or `OP_CALL_INDIRECT`. -/
  isCall : Bool
  readsNoMemory : Bool
  writesNoMemory : Bool
  /-- `OP_LA`. -/
  isLA : Bool
  operands : List Name
  result : Option Name

/-- The names that are not indexed in a name: of an indexed one, the index and a true base. -/
def Name.parts : Name → List Simple
  | .simple s => [s]
  | .indexed x => x.index :: (x.trueBase.map .var).toList

/-- The operands of an instruction from the last to the first, then the result. -/
def Instruction.names (ins : Instruction) : List Name := ins.operands.reverse ++ ins.result.toList

/-- A call that reads or writes memory. -/
def Instruction.touchesMemory (ins : Instruction) : Bool :=
  ins.isCall && (!ins.readsNoMemory || !ins.writesNoMemory)

/-- The variable that a name is or is the address of. -/
def Simple.toVar : Simple → Option Var
  | .var v => some v
  | .tempAddr t => some (.temp t)
  | .other => none

/-- The names that `TransferOneMemBlockUsage` clears for a name that is not indexed. -/
def clearedMems : Simple → List Var
  | .var (.memory m) => [.memory m]
  | _ => []

structure TempName where
  offset : ℤ
  size : ℕ
  /-- `temp_flags & ALIAS`. -/
  isAlias : Bool
  /-- `t.alias`. -/
  nextAlias : ℕ

structure MemoryName where
  symbol : ℕ
  offset : ℤ
  size : ℕ

structure NameTable (k : ℕ) where
  temp : ℕ → TempName
  memory : ℕ → MemoryName
  /-- `v.conflict`, by its `id.out_of_block`. -/
  conflict : Var → Option (BitSet k)
  /-- The names of `ConfList`. -/
  confList : List Var

namespace NameTable

variable {k : ℕ} (N : NameTable k)

def aliasOf (t : ℕ) : ℕ := (N.temp t).nextAlias

/-- The name that stands for its ring of aliases. -/
def IsMaster : Var → Prop
  | .temp t => (N.temp t).isAlias = false
  | .memory _ => True

def confBits (v : Var) : BitSet k := (N.conflict v).getD (.init 0)

def offset : Var → ℤ
  | .temp t => (N.temp t).offset
  | .memory m => (N.memory m).offset

def size : Var → ℕ
  | .temp t => (N.temp t).size
  | .memory m => (N.memory m).size

end NameTable

/-- The names of a routine.  Temporaries are in rings of aliases around one name that is no alias.  The conflicts of
different names have different bits, and a memory name with a bit is the only one of its symbol. -/
structure Names (k : ℕ) extends NameTable k where
  ring_closed : ∀ t, ∃ i, toNameTable.aliasOf^[i + 1] t = t
  alias_ends : ∀ t, ∃ i, (temp (toNameTable.aliasOf^[i] t)).isAlias = false
  one_master : ∀ t i, (temp t).isAlias = false → (temp (toNameTable.aliasOf^[i] t)).isAlias = false →
    toNameTable.aliasOf^[i] t = t
  disjoint : ∀ v w, toNameTable.IsMaster v → toNameTable.IsMaster w → v ≠ w →
    Disjoint (toNameTable.confBits v).bits (toNameTable.confBits w).bits
  sole : ∀ m m', (toNameTable.confBits (.memory m)).bits.Nonempty → (memory m').symbol = (memory m).symbol → m' = m
  listed : ∀ v b, conflict v = some b → v ∈ confList

namespace Names

variable {k : ℕ} (N : Names k)

/-- `DeAlias`. -/
def deAlias (t : ℕ) : ℕ := N.aliasOf^[Nat.find (N.alias_ends t)] t

/-- The ring from the alias of a name to the name itself. -/
def ring (t : ℕ) : List ℕ := (List.range (Nat.find (N.ring_closed t) + 1)).map fun i => N.aliasOf^[i + 1] t

/-- The name with the flags of a variable. -/
def owner : Var → Var
  | .temp t => .temp (N.deAlias t)
  | .memory m => .memory m

end Names

/-- What changes: `block_usage` and `usage` of the names, and the sets of the block. -/
structure Scan (k : ℕ) where
  block : Var → Usage
  usage : Var → Usage
  useSet : BitSet k
  defSet : BitSet k

/-- `block_usage |= DEF_WITHIN_BLOCK`. -/
def setDef {k : ℕ} (σ : Scan k) (op : Var) : Scan k :=
  { σ with block := Function.update σ.block op { σ.block op with defWithinBlock := true } }

namespace Names

variable {k : ℕ} (N : Names k)

/-- A set with the bit of a name turned on, when the name has a conflict. -/
def turnOnConflict (s : BitSet k) (v : Var) : BitSet k :=
  match N.conflict v with
  | some bits => s.turnOn bits
  | none => s

/-- `Use` of a name that has flags. -/
def useVar (σ : Scan k) (op : Var) (address : Bool) : Scan k :=
  let flags := σ.block op
  let address := flags.useAddress || address
  if flags.defWithinBlock then
    let used : Usage := { flags with useWithinBlock := true, useAddress := address }
    { σ with block := Function.update σ.block op used }
  else
    let used : Usage := { flags with useInAnotherBlock := true, useAddress := address }
    { σ with block := Function.update σ.block op used, useSet := N.turnOnConflict σ.useSet op }

/-- `Use`. -/
def use (σ : Scan k) (op : Simple) (address : Bool) : Scan k :=
  match op with
  | .tempAddr t => N.useVar σ (N.owner (.temp t)) true
  | .var v => N.useVar σ (N.owner v) address
  | .other => σ

/-- `MAX_POSSIBLE_REG`. -/
def maxPossibleReg : ℕ := 8

/-- `CoveringDefinitions`. -/
def coveringDefinitions (σ : Scan k) : Var → Bool
  | .temp op =>
    if (N.temp op).size > maxPossibleReg then false
    else
      (List.range (N.temp op).size).all fun i =>
        (N.ring op).any fun a =>
          a ≠ op ∧ (σ.block (.temp a)).defWithinBlock ∧ (N.temp a).offset ≤ (N.temp op).offset + i ∧
            (N.temp op).offset + i < (N.temp a).offset + (N.temp a).size
  | .memory _ => false

/-- `Define`. -/
def define (σ : Scan k) (actual : Var) : Scan k :=
  let σ := setDef σ actual
  let op := N.owner actual
  if (σ.block op).useInAnotherBlock then σ
  else if actual ≠ op ∧ N.coveringDefinitions σ op = false then σ
  else { setDef σ op with defSet := N.turnOnConflict σ.defSet op }

/-- A turn of the loop of `UseDefGlobals`. -/
def useDefGlobal (σ : Scan k) (conf : Var) : Scan k :=
  match conf with
  | .temp _ => σ
  | .memory m =>
    let usage := σ.block (.memory m)
    let σ := N.define (N.use σ (.var (.memory m)) false) (.memory m)
    let σ := { σ with defSet := σ.defSet.turnOn (N.confBits (.memory m)) }
    if usage.defWithinBlock then σ else { σ with useSet := σ.useSet.turnOn (N.confBits (.memory m)) }

/-- `UseDefGlobals`. -/
def useDefGlobals (σ : Scan k) : Scan k := N.confList.foldl N.useDefGlobal σ

/-- `Use` for an indexed name: the index, and the address of a true base. -/
def useIndexed (σ : Scan k) (x : IndexedName) : Scan k :=
  let σ := N.use σ x.index false
  match x.trueBase with
  | some base => N.use σ (.var base) true
  | none => σ

/-- What `SearchDefUse` does for an operand; the first one of `OP_LA` is taken the address of. -/
def searchOperand (σ : Scan k) (isLA : Bool) (op : Name) (i : ℕ) : Scan k :=
  match op with
  | .indexed x => N.useIndexed σ x
  | .simple s => N.use σ s (isLA && i == 0)

/-- The operands, from the last one to the first one. -/
def searchOperands (σ : Scan k) (isLA : Bool) (operands : List Name) : Scan k :=
  operands.zipIdx.reverse.foldl (fun σ op => N.searchOperand σ isLA op.1 op.2) σ

/-- What `SearchDefUse` does for the result. -/
def searchResult (σ : Scan k) (result : Option Name) : Scan k :=
  match result with
  | none => σ
  | some (.indexed x) => N.useIndexed σ x
  | some (.simple (.var (.memory m))) =>
    let usage : Usage := { σ.usage (.memory m) with useInAnotherBlock := true }
    N.define { σ with usage := Function.update σ.usage (.memory m) usage } (.memory m)
  | some (.simple (.var (.temp t))) => N.define σ (.temp t)
  | some (.simple _) => σ

/-- What `SearchDefUse` does for an instruction. -/
def searchIns (σ : Scan k) (ins : Instruction) : Scan k :=
  let σ := if ins.touchesMemory then N.useDefGlobals σ else σ
  N.searchResult (N.searchOperands σ ins.isLA ins.operands) ins.result

/-- `TransferBlockUsage`. -/
def transferBlockUsage (σ : Scan k) (op : Var) : Scan k :=
  let a := σ.usage op
  let b := σ.block op
  let another := a.useInAnotherBlock || b.useInAnotherBlock
  { σ with
    usage := Function.update σ.usage op
      ⟨(a.useWithinBlock || b.useWithinBlock) && !another, another, a.defWithinBlock || b.defWithinBlock,
        a.useAddress || b.useAddress⟩
    block := Function.update σ.block op .empty }

/-- The names that `TransferOneTempBlockUsage` clears for a name that is not indexed: the ring of a temporary. -/
def clearedTemps : Simple → List Var
  | .tempAddr t => (N.ring t).map .temp
  | .var (.temp t) => (N.ring t).map .temp
  | _ => []

/-- `TransferTempBlockUsage`. -/
def transferTempBlockUsage (σ : Scan k) (blk : List Instruction) : Scan k :=
  (((blk.flatMap Instruction.names).flatMap Name.parts).flatMap N.clearedTemps).foldl transferBlockUsage σ

/-- `TransferMemBlockUsage`. -/
def transferMemBlockUsage (σ : Scan k) (blk : List Instruction) : Scan k :=
  (((blk.flatMap Instruction.names).flatMap Name.parts).flatMap clearedMems).foldl transferBlockUsage σ

/-- `TransferAllMemBlockUsage`: every memory name. -/
def transferAllMemBlockUsage (σ : Scan k) : Scan k where
  usage
    | .temp t => σ.usage (.temp t)
    | .memory m => (transferBlockUsage σ (.memory m)).usage (.memory m)
  block
    | .temp t => σ.block (.temp t)
    | .memory _ => .empty
  useSet := σ.useSet
  defSet := σ.defSet

/-- A block in `SearchDefUse`, not block by block, from empty sets. -/
def searchBlock (σ : Scan k) (blk : List Instruction) : Scan k :=
  let σ := blk.foldl N.searchIns { σ with useSet := .init 0, defSet := .init 0 }
  let σ := if blk.any Instruction.touchesMemory then transferAllMemBlockUsage σ else transferMemBlockUsage σ blk
  N.transferTempBlockUsage σ blk

end Names

/-! ### Rings of aliases -/

namespace Names

variable {k : ℕ} {N : Names k}

theorem isAlias_deAlias (t : ℕ) : (N.temp (N.deAlias t)).isAlias = false := Nat.find_spec (N.alias_ends t)

theorem deAlias_iterate {t : ℕ} (h : (N.temp t).isAlias = false) (i : ℕ) : N.deAlias (N.aliasOf^[i] t) = t := by
  have hend := N.isAlias_deAlias (N.aliasOf^[i] t)
  unfold deAlias at hend ⊢
  rw [← Function.iterate_add_apply] at hend ⊢
  exact N.one_master t _ h hend

@[simp]
theorem deAlias_deAlias (t : ℕ) : N.deAlias (N.deAlias t) = N.deAlias t := deAlias_iterate (isAlias_deAlias t) 0

@[simp]
theorem owner_owner (v : Var) : N.owner (N.owner v) = N.owner v := by
  cases v <;> simp [owner]

theorem isMaster_owner (v : Var) : N.IsMaster (N.owner v) := by
  cases v with
  | temp t => exact isAlias_deAlias t
  | memory => trivial

theorem deAlias_of_mem_ring {root a : ℕ} (hroot : N.deAlias root = root) (ha : a ∈ N.ring root) :
    N.deAlias a = root := by
  obtain ⟨i, -, rfl⟩ := List.mem_map.mp ha
  exact deAlias_iterate (hroot ▸ isAlias_deAlias root) _

/-- The ring of a name has the name that stands for it. -/
theorem deAlias_mem_ring (t : ℕ) : N.deAlias t ∈ N.ring t := by
  have hclosed := Nat.find_spec (N.ring_closed t)
  unfold ring
  set p := Nat.find (N.ring_closed t)
  have hmod : N.aliasOf^[Nat.find (N.alias_ends t) % (p + 1)] t = N.deAlias t :=
    Function.IsPeriodicPt.iterate_mod_apply hclosed _
  have hlt := Nat.mod_lt (Nat.find (N.alias_ends t)) (Nat.succ_pos p)
  refine List.mem_map.mpr ?_
  cases hi : Nat.find (N.alias_ends t) % (p + 1) with
  | zero =>
      refine ⟨p, List.mem_range.mpr (Nat.lt_succ_self p), ?_⟩
      rw [hclosed, ← hmod, hi]
      rfl
  | succ i =>
      rw [hi] at hlt hmod
      exact ⟨i, List.mem_range.mpr (Nat.lt_of_succ_lt hlt), hmod⟩

end Names

/-! ### The flags and the sets while a block is searched -/

theorem bits_init_zero {k : ℕ} : (BitSet.init 0 : BitSet k).bits = ∅ := by
  ext x
  simp [BitSet.mem_bits, BitSet.init]

namespace Names

variable {k : ℕ} (N : Names k)

/-- The bits of the name that stands for a variable. -/
def bits (v : Var) : Set (Fin k × Fin 32) := (N.confBits (N.owner v)).bits

/-- What the flags and the sets say, when `R` holds of the names that are redefined so far and `D` of the temporaries
that are results. -/
structure Sound (R : Var → Prop) (D : ℕ → Prop) (σ : Scan k) : Prop where
  used : ∀ v, N.owner v = v → (σ.block v).useInAnotherBlock = true → N.bits v ⊆ σ.useSet.bits
  defined : ∀ v, N.owner v = v → (σ.block v).defWithinBlock = true → R v ∨ N.bits v ⊆ σ.useSet.bits
  defBit : ∀ v, N.owner v = v → (N.bits v ∩ σ.defSet.bits).Nonempty → R v ∨ N.bits v ⊆ σ.useSet.bits
  part : ∀ t, N.deAlias t ≠ t → (σ.block (.temp t)).defWithinBlock = true → D t

variable {N} {R R' : Var → Prop} {D D' : ℕ → Prop} {σ : Scan k}

theorem bits_turnOnConflict (s : BitSet k) (v : Var) : (N.turnOnConflict s v).bits = s.bits ∪ (N.confBits v).bits := by
  unfold turnOnConflict NameTable.confBits
  cases N.conflict v with
  | none => rw [Option.getD_none, bits_init_zero, Set.union_empty]
  | some bits => simp

theorem Sound.mono (h : N.Sound R D σ) (hR : ∀ v, R v → R' v) (hD : ∀ t, D t → D' t) : N.Sound R' D' σ where
  used := h.used
  defined v hv hdef := (h.defined v hv hdef).imp_left (hR v)
  defBit v hv hbit := (h.defBit v hv hbit).imp_left (hR v)
  part t ht hdef := hD t (h.part t ht hdef)

/-- More bits in the use set keep what the flags and the sets say. -/
theorem Sound.grow (h : N.Sound R D σ) {s : BitSet k} (hs : σ.useSet.bits ⊆ s.bits) :
    N.Sound R D { σ with useSet := s } where
  used v hv hused := (h.used v hv hused).trans hs
  defined v hv hdef := (h.defined v hv hdef).imp_right fun hle => hle.trans hs
  defBit v hv hbit := (h.defBit v hv hbit).imp_right fun hle => hle.trans hs
  part := h.part

theorem Sound.withUsage (h : N.Sound R D σ) (usage : Var → Usage) : N.Sound R D { σ with usage := usage } :=
  ⟨h.used, h.defined, h.defBit, h.part⟩

/-- A flag that says a name is defined may be set when the name is redefined or used. -/
theorem Sound.setDef (h : N.Sound R D σ) (op : Var) (hop : N.owner op = op → R op ∨ N.bits op ⊆ σ.useSet.bits)
    (hpart : ∀ t, op = .temp t → N.deAlias t ≠ t → D t) : N.Sound R D (setDef σ op) where
  used v hv hused := by
    refine h.used v hv ?_
    obtain rfl | hne := eq_or_ne v op
    · simpa [VarUsage.setDef] using hused
    · simpa [VarUsage.setDef, hne] using hused
  defined v hv hdef := by
    obtain rfl | hne := eq_or_ne v op
    · exact hop hv
    · exact h.defined v hv (by simpa [VarUsage.setDef, hne] using hdef)
  defBit := h.defBit
  part t ht hdef := by
    obtain heq | hne := eq_or_ne (.temp t) op
    · exact hpart t heq.symm ht
    · exact h.part t ht (by simpa [VarUsage.setDef, hne] using hdef)

/-- The bit of a name may be turned on in the def set when the name is redefined or used. -/
theorem Sound.turnOnDef (h : N.Sound R D σ) (op : Var) {s : BitSet k} (howner : N.owner op = op)
    (hop : R op ∨ N.bits op ⊆ σ.useSet.bits) (hs : s.bits ⊆ σ.defSet.bits ∪ (N.confBits op).bits) :
    N.Sound R D { σ with defSet := s } where
  used := h.used
  defined := h.defined
  defBit v hv := by
    rintro ⟨x, hx, hset⟩
    obtain hdef | hconf := hs hset
    · exact h.defBit v hv ⟨x, hx, hdef⟩
    · obtain rfl | hne := eq_or_ne v op
      · exact hop
      · rw [bits, hv] at hx
        have hdisjoint := N.disjoint v op (hv ▸ isMaster_owner v) (howner ▸ isMaster_owner op) hne
        exact absurd hconf (Set.disjoint_left.mp hdisjoint hx)
  part := h.part

variable (N R) in
/-- A use of a variable: the flags and the sets still say what they said, and the variable is redefined before or has
its bit in the use set. -/
structure UseOf (D : ℕ → Prop) (σ τ : Scan k) (reads : Var → Prop) : Prop where
  sound : N.Sound R D τ
  grows : σ.useSet.bits ⊆ τ.useSet.bits
  reads : ∀ v, reads v → R (N.owner v) ∨ N.bits v ⊆ τ.useSet.bits

theorem useVar_use (h : N.Sound R D σ) {op : Var} (howner : N.owner op = op) (address : Bool) :
    N.UseOf R D σ (N.useVar σ op address) (fun v => N.owner v = op) := by
  unfold useVar
  dsimp only
  split
  case isTrue hdef =>
    refine ⟨⟨fun v hv hused => h.used v hv ?_, fun v hv hd => h.defined v hv ?_, h.defBit,
      fun t ht hd => h.part t ht ?_⟩, subset_rfl, ?_⟩
    · obtain rfl | hne := eq_or_ne v op
      · simpa using hused
      · simpa [hne] using hused
    · obtain rfl | hne := eq_or_ne v op
      · simpa using hd
      · simpa [hne] using hd
    · have hne : Var.temp t ≠ op := by
        rintro rfl
        exact ht (Var.temp.inj howner)
      simpa [hne] using hd
    · rintro v rfl
      simpa [bits] using h.defined _ howner hdef
  case isFalse hdef =>
    have hgrow : σ.useSet.bits ⊆ (N.turnOnConflict σ.useSet op).bits := by
      rw [bits_turnOnConflict]
      exact Set.subset_union_left
    have hbits : N.bits op ⊆ (N.turnOnConflict σ.useSet op).bits := by
      rw [bits_turnOnConflict, bits, howner]
      exact Set.subset_union_right
    have hsound := h.grow hgrow
    refine ⟨⟨fun v hv hused => ?_, fun v hv hd => hsound.defined v hv ?_, hsound.defBit,
      fun t ht hd => h.part t ht ?_⟩, hgrow, ?_⟩
    · obtain rfl | hne := eq_or_ne v op
      · exact hbits
      · exact hsound.used v hv (by simpa [hne] using hused)
    · obtain rfl | hne := eq_or_ne v op
      · simpa using hd
      · simpa [hne] using hd
    · have hne : Var.temp t ≠ op := by
        rintro rfl
        exact ht (Var.temp.inj howner)
      simpa [hne] using hd
    · rintro v rfl
      exact .inr (by simpa [bits] using hbits)

theorem UseOf.weaken {τ : Scan k} {reads reads' : Var → Prop} (h : N.UseOf R D σ τ reads)
    (hreads : ∀ v, reads' v → reads v) : N.UseOf R D σ τ reads' :=
  ⟨h.sound, h.grows, fun v hv => h.reads v (hreads v hv)⟩

theorem UseOf.refl (h : N.Sound R D σ) : N.UseOf R D σ σ (fun _ => False) := ⟨h, subset_rfl, fun _ hv => hv.elim⟩

theorem UseOf.trans {τ υ : Scan k} {reads reads' : Var → Prop} (h : N.UseOf R D σ τ reads)
    (h' : N.UseOf R D τ υ reads') : N.UseOf R D σ υ (fun v => reads v ∨ reads' v) where
  sound := h'.sound
  grows := h.grows.trans h'.grows
  reads v hv := by
    obtain hv | hv := hv
    · exact (h.reads v hv).imp_right fun hle => hle.trans h'.grows
    · exact h'.reads v hv

/-- Uses one after the other. -/
theorem foldl_use {α : Type*} {f : Scan k → α → Scan k} (reads : α → Var → Prop) (l : List α)
    (hf : ∀ a ∈ l, ∀ σ, N.Sound R D σ → N.UseOf R D σ (f σ a) (reads a)) (h : N.Sound R D σ) :
    N.UseOf R D σ (l.foldl f σ) (fun v => ∃ a ∈ l, reads a v) := by
  induction l generalizing σ with
  | nil => exact (UseOf.refl h).weaken fun v ⟨a, ha, _⟩ => by cases ha
  | cons a l ih =>
      have hfirst := hf a List.mem_cons_self σ h
      have hrest := ih (fun b hb => hf b (List.mem_cons_of_mem a hb)) hfirst.sound
      refine (hfirst.trans hrest).weaken ?_
      rintro v ⟨b, hb, hv⟩
      obtain rfl | hb := List.mem_cons.mp hb
      · exact .inl hv
      · exact .inr ⟨b, hb, hv⟩

theorem use_use (h : N.Sound R D σ) (op : Simple) (address : Bool) :
    N.UseOf R D σ (N.use σ op address) (fun v => op.toVar = some v) := by
  cases op with
  | var v =>
      refine (useVar_use h (owner_owner v) address).weaken ?_
      rintro w ⟨⟩
      rfl
  | tempAddr t =>
      refine (useVar_use h (owner_owner (.temp t)) true).weaken ?_
      rintro w ⟨⟩
      rfl
  | other =>
      refine (UseOf.refl h).weaken ?_
      rintro w ⟨⟩

/-- The variables that a name reads. -/
def readBy (op : Name) (v : Var) : Prop := ∃ s ∈ op.parts, s.toVar = some v

theorem useIndexed_use (h : N.Sound R D σ) (x : IndexedName) :
    N.UseOf R D σ (N.useIndexed σ x) (readBy (.indexed x)) := by
  unfold useIndexed
  have hindex := use_use h x.index false
  cases hbase : x.trueBase with
  | none =>
      refine hindex.weaken ?_
      rintro v ⟨s, hs, hv⟩
      simp only [Name.parts, hbase, Option.map_none, Option.toList_none, List.mem_singleton] at hs
      exact hs ▸ hv
  | some base =>
      refine (hindex.trans (use_use hindex.sound (.var base) true)).weaken ?_
      rintro v ⟨s, hs, hv⟩
      simp only [Name.parts, hbase, Option.map_some, Option.toList_some, List.mem_cons, List.not_mem_nil,
        or_false] at hs
      obtain rfl | rfl := hs
      · exact .inl hv
      · exact .inr hv

theorem searchOperand_use (h : N.Sound R D σ) (isLA : Bool) (op : Name) (i : ℕ) :
    N.UseOf R D σ (N.searchOperand σ isLA op i) (readBy op) := by
  cases op with
  | indexed x => exact useIndexed_use h x
  | simple s =>
      refine (use_use h s _).weaken ?_
      rintro v ⟨s', hs', hv⟩
      obtain rfl := List.mem_singleton.mp hs'
      exact hv

theorem searchOperands_use (h : N.Sound R D σ) (isLA : Bool) (operands : List Name) :
    N.UseOf R D σ (N.searchOperands σ isLA operands) (fun v => ∃ op ∈ operands, readBy op v) := by
  refine (foldl_use (fun op => readBy op.1) operands.zipIdx.reverse
    (fun op _ σ h => searchOperand_use h isLA op.1 op.2) h).weaken ?_
  rintro v ⟨op, hop, hv⟩
  obtain ⟨i, hi, rfl⟩ := List.mem_iff_getElem.mp hop
  refine ⟨(operands[i], i), List.mem_reverse.mpr ?_, hv⟩
  exact List.mem_zipIdx_iff_getElem?.mpr (by simp [hi])

end Names

/-! ### Redefined and read bytes -/

/-- The names whose uses `SearchDefUse` looks at: the operands, and a result that is indexed. -/
def Instruction.readNames (ins : Instruction) : List Name :=
  ins.operands ++ ins.result.toList.filter fun
    | .indexed _ => true
    | .simple _ => false

namespace Names

variable {k : ℕ} (N : Names k)

/-- A part of the same temporary, or a name of the same symbol. -/
def Part : Var → Var → Prop
  | .temp t, .temp u => N.deAlias t = N.deAlias u
  | .memory m, .memory n => (N.memory m).symbol = (N.memory n).symbol
  | _, _ => False

/-- Every byte of a name is in a part of it that is the result of an instruction of the list. -/
def Redefined (v : Var) (l : List Instruction) : Prop :=
  ∀ i : ℕ, i < N.size (N.owner v) → ∃ ins ∈ l, ∃ w, ins.result = some (.simple (.var w)) ∧ N.Part w v ∧
    N.offset w ≤ N.offset (N.owner v) + i ∧ N.offset (N.owner v) + i < N.offset w + N.size w

/-- An instruction reads a part of a name, or is a call that may read it. -/
def Reads (ins : Instruction) (v : Var) : Prop :=
  (∃ op ∈ ins.readNames, ∃ w, readBy op w ∧ N.Part w v) ∨
    ins.isCall = true ∧ ins.readsNoMemory = false ∧ ∃ m, v = .memory m

/-- A part of a name is read before the name is redefined. -/
def ReadFirst (v : Var) (l : List Instruction) : Prop :=
  ∃ (j : ℕ) (ins : Instruction), l[j]? = some ins ∧ N.Reads ins v ∧ ¬ N.Redefined v (l.take j)

/-- A temporary is the result of an instruction. -/
def IsResult (t : ℕ) (l : List Instruction) : Prop := ∃ ins ∈ l, ins.result = some (.simple (.var (.temp t)))

/-- What `SearchDefUse` has found when it is past some instructions of a block. -/
structure Searched (σ : Scan k) (l : List Instruction) : Prop where
  sound : N.Sound (N.Redefined · l) (IsResult · l) σ
  reads : ∀ v, N.ReadFirst v l → N.bits v ⊆ σ.useSet.bits

variable {N} {R : Var → Prop} {D : ℕ → Prop} {σ : Scan k} {v w : Var} {l l' : List Instruction} {ins : Instruction}

theorem Part.refl (v : Var) : N.Part v v := by
  cases v <;> rfl

theorem Redefined.mono (h : N.Redefined v l) (hl : l ⊆ l') : N.Redefined v l' := by
  intro i hi
  obtain ⟨ins, hins, hcover⟩ := h i hi
  exact ⟨ins, hl hins, hcover⟩

theorem part_owner : N.Part w (N.owner v) ↔ N.Part w v := by
  cases w <;> cases v <;> simp [Part, owner]

theorem redefined_owner : N.Redefined (N.owner v) l ↔ N.Redefined v l := by
  simp only [Redefined, owner_owner, part_owner]

/-- What is found for a part is found for the name. -/
theorem Part.settled (hpart : N.Part w v) {U : Set (Fin k × Fin 32)}
    (h : N.Redefined (N.owner w) l ∨ N.bits w ⊆ U) : N.Redefined v l ∨ N.bits v ⊆ U := by
  rw [redefined_owner] at h
  have hsame : N.owner w = N.owner v → N.Redefined v l ∨ N.bits v ⊆ U := by
    intro howner
    rwa [← redefined_owner, howner, redefined_owner, bits, howner] at h
  cases v with
  | temp u =>
      cases w with
      | temp t => exact hsame (congrArg Var.temp hpart)
      | memory m => exact hpart.elim
  | memory n =>
      cases w with
      | temp t => exact hpart.elim
      | memory m =>
          obtain hempty | hbits := (N.bits (.memory n)).eq_empty_or_nonempty
          · exact .inr (hempty ▸ Set.empty_subset U)
          · exact hsame (congrArg Var.memory (N.sole n m hbits hpart))

/-- Parts that are results redefine the name when they cover it. -/
theorem redefined_of_cover {root : ℕ} (hroot : N.deAlias root = root)
    (hcover : ∀ i : ℕ, i < (N.temp root).size → ∃ a, N.deAlias a = root ∧ IsResult a l ∧
      (N.temp a).offset ≤ (N.temp root).offset + i ∧
        (N.temp root).offset + i < (N.temp a).offset + (N.temp a).size) : N.Redefined (.temp root) l := by
  intro i hi
  rw [owner, hroot] at hi ⊢
  obtain ⟨a, ha, ⟨ins, hins, hresult⟩, hle, hlt⟩ := hcover i hi
  exact ⟨ins, hins, .temp a, hresult, ha.trans hroot.symm, hle, hlt⟩

/-- `CoveringDefinitions` sees that the parts defined in the block cover the name. -/
theorem coveringDefinitions_redefined (h : N.Sound R (IsResult · l) σ) {root : ℕ} (hroot : N.deAlias root = root)
    (hcover : N.coveringDefinitions σ (.temp root) = true) : N.Redefined (.temp root) l := by
  unfold coveringDefinitions at hcover
  dsimp only at hcover
  split at hcover
  case isTrue => cases hcover
  case isFalse =>
    refine redefined_of_cover hroot fun i hi => ?_
    obtain ⟨a, ha, hcovers⟩ := List.any_eq_true.mp (List.all_eq_true.mp hcover i (List.mem_range.mpr hi))
    obtain ⟨hne, hdef, hle, hlt⟩ := of_decide_eq_true hcovers
    have hmaster := deAlias_of_mem_ring hroot ha
    exact ⟨a, hmaster, h.part a (fun heq => hne (heq.symm.trans hmaster)) hdef, hle, hlt⟩

theorem define_use (h : N.Sound (N.Redefined · l) (IsResult · l) σ) (actual : Var)
    (hdirect : N.owner actual = actual → N.Redefined actual l ∨ N.bits actual ⊆ σ.useSet.bits)
    (hpart : ∀ t, actual = .temp t → N.deAlias t ≠ t → IsResult t l) :
    N.Sound (N.Redefined · l) (IsResult · l) (N.define σ actual) ∧ (N.define σ actual).useSet = σ.useSet := by
  have hactual := h.setDef actual hdirect hpart
  unfold define
  dsimp only
  split
  case isTrue => exact ⟨hactual, rfl⟩
  case isFalse =>
    split
    case isTrue => exact ⟨hactual, rfl⟩
    case isFalse hcover =>
      have hop : N.Redefined (N.owner actual) l ∨ N.bits (N.owner actual) ⊆ σ.useSet.bits := by
        obtain heq | hne := eq_or_ne actual (N.owner actual)
        · rw [← heq]
          exact hdirect heq.symm
        · have htrue : N.coveringDefinitions (setDef σ actual) (N.owner actual) = true := by
            simpa [hne] using hcover
          cases actual with
          | memory m => exact absurd rfl hne
          | temp t => exact .inl (coveringDefinitions_redefined hactual (deAlias_deAlias t) htrue)
      have hmaster := hactual.setDef (N.owner actual) (fun _ => hop)
        (fun t ht hne => absurd (Var.temp.inj ((congrArg N.owner ht.symm).trans ((owner_owner _).trans ht))) hne)
      refine ⟨hmaster.turnOnDef (N.owner actual) (owner_owner actual) hop ?_, rfl⟩
      rw [bits_turnOnConflict]
      rfl

theorem useDefGlobal_use (h : N.Sound (N.Redefined · l) (IsResult · l) σ) (conf : Var) :
    N.UseOf (N.Redefined · l) (IsResult · l) σ (N.useDefGlobal σ conf) (fun v => v = conf ∧ ∃ m, v = .memory m) := by
  cases conf with
  | temp t =>
      refine (UseOf.refl h).weaken ?_
      rintro v ⟨rfl, m, hm⟩
      cases hm
  | memory m =>
      have huse := use_use h (.var (.memory m)) false
      have hread := huse.reads (.memory m) rfl
      obtain ⟨hsound, hsame⟩ := define_use huse.sound (.memory m) (fun _ => hread)
        (fun t ht => by cases ht)
      have hbit := hsound.turnOnDef (.memory m) rfl (hsame ▸ hread) (BitSet.bits_turnOn _ _).subset
      have hgrow := huse.grows.trans (congrArg BitSet.bits hsame).symm.subset
      unfold useDefGlobal
      dsimp only
      split
      case isTrue =>
        refine ⟨hbit, hgrow, ?_⟩
        rintro v ⟨rfl, -⟩
        exact hsame ▸ hread
      case isFalse =>
        have hmore := Set.subset_union_left.trans
          (BitSet.bits_turnOn (N.define (N.use σ (.var (.memory m)) false) (.memory m)).useSet
            (N.confBits (.memory m))).symm.subset
        refine ⟨hbit.grow hmore, hgrow.trans hmore, ?_⟩
        rintro v ⟨rfl, -⟩
        exact (hsame ▸ hread : _ ∨ _).imp_right fun hle => hle.trans hmore

/-- A call uses every memory name that has a bit. -/
theorem useDefGlobals_use (h : N.Sound (N.Redefined · l) (IsResult · l) σ) :
    N.UseOf (N.Redefined · l) (IsResult · l) σ (N.useDefGlobals σ) (fun v => ∃ m, v = .memory m) := by
  have hloop := foldl_use (fun conf v => v = conf ∧ ∃ m, v = .memory m) N.confList
    (fun conf _ σ h => useDefGlobal_use h conf) h
  refine ⟨hloop.sound, hloop.grows, ?_⟩
  rintro _ ⟨m, rfl⟩
  cases hconf : N.conflict (.memory m) with
  | none =>
      right
      rw [bits, owner, NameTable.confBits, hconf, Option.getD_none, bits_init_zero]
      exact Set.empty_subset _
  | some b => exact hloop.reads _ ⟨_, N.listed _ b hconf, rfl, m, rfl⟩

theorem Sound.snoc (h : N.Sound (N.Redefined · l) (IsResult · l) σ) (ins : Instruction) :
    N.Sound (N.Redefined · (l ++ [ins])) (IsResult · (l ++ [ins])) σ :=
  h.mono (fun _ hv => hv.mono (List.subset_append_left l [ins]))
    (fun _ ⟨ins', hmem, hresult⟩ => ⟨ins', List.mem_append_left [ins] hmem, hresult⟩)

theorem searchResult_sound (h : N.Sound (N.Redefined · l) (IsResult · l) σ) (ins : Instruction) :
    N.Sound (N.Redefined · (l ++ [ins])) (IsResult · (l ++ [ins])) (N.searchResult σ ins.result) ∧
      σ.useSet.bits ⊆ (N.searchResult σ ins.result).useSet.bits ∧
        ∀ x, ins.result = some (.indexed x) → ∀ v, readBy (.indexed x) v →
          N.Redefined (N.owner v) l ∨ N.bits v ⊆ (N.searchResult σ ins.result).useSet.bits := by
  have hlast : ins ∈ l ++ [ins] := List.mem_append_right l (List.mem_singleton_self ins)
  have hdirect : ∀ v, ins.result = some (.simple (.var v)) → N.owner v = v → N.Redefined v (l ++ [ins]) := by
    intro v hresult howner i hi
    rw [howner] at hi ⊢
    exact ⟨ins, hlast, v, hresult, Part.refl v, by omega, by omega⟩
  unfold searchResult
  split
  case h_1 hnone => exact ⟨h.snoc ins, subset_rfl, fun x hx => by cases hnone.symm.trans hx⟩
  case h_2 x hx =>
    have huse := useIndexed_use h x
    refine ⟨huse.sound.snoc ins, huse.grows, fun y hy v hv => ?_⟩
    obtain rfl := Name.indexed.inj (Option.some.inj (hx.symm.trans hy))
    exact huse.reads v hv
  case h_3 m hm =>
    obtain ⟨hsound, hsame⟩ := define_use ((h.snoc ins).withUsage _) (.memory m)
      (fun howner => .inl (hdirect _ hm howner)) (fun t ht => by cases ht)
    exact ⟨hsound, (congrArg BitSet.bits hsame).symm.subset, fun x hx => by cases hm.symm.trans hx⟩
  case h_4 t ht =>
    obtain ⟨hsound, hsame⟩ := define_use (h.snoc ins) (.temp t) (fun howner => .inl (hdirect _ ht howner))
      (fun u hu _ => ⟨ins, hlast, hu ▸ ht⟩)
    exact ⟨hsound, (congrArg BitSet.bits hsame).symm.subset, fun x hx => by cases ht.symm.trans hx⟩
  case h_5 s _ _ hs => exact ⟨h.snoc ins, subset_rfl, fun x hx => by cases hs.symm.trans hx⟩

/-- An instruction of the block. -/
theorem Searched.searchIns (h : N.Searched σ l) (ins : Instruction) :
    N.Searched (N.searchIns σ ins) (l ++ [ins]) := by
  have hcall : N.UseOf (N.Redefined · l) (IsResult · l) σ
      (if ins.touchesMemory = true then N.useDefGlobals σ else σ)
      (fun v => ins.touchesMemory = true ∧ ∃ m, v = .memory m) := by
    split
    case isTrue => exact (useDefGlobals_use h.sound).weaken fun v hv => hv.2
    case isFalse hno => exact (UseOf.refl h.sound).weaken fun v hv => hno hv.1
  have hoperands := searchOperands_use hcall.sound ins.isLA ins.operands
  obtain ⟨hsound, hgrows, hresult⟩ := searchResult_sound hoperands.sound ins
  refine ⟨hsound, ?_⟩
  rintro v ⟨j, ins', hj, hreads, hnot⟩
  by_cases hlt : j < l.length
  · rw [List.getElem?_append_left hlt] at hj
    rw [List.take_append_of_le_length hlt.le] at hnot
    exact (h.reads v ⟨j, ins', hj, hreads, hnot⟩).trans ((hcall.grows.trans hoperands.grows).trans hgrows)
  · obtain rfl : j = l.length := by
      have := (List.getElem?_eq_some_iff.mp hj).1
      simp only [List.length_append, List.length_singleton] at this
      omega
    obtain rfl : ins = ins' := by simpa using hj
    rw [List.take_left] at hnot
    refine Or.resolve_left (?_ : N.Redefined v l ∨ N.bits v ⊆ _) hnot
    obtain ⟨op, hop, w, hw, hpart⟩ | ⟨hiscall, hmem, m, rfl⟩ := hreads
    · refine hpart.settled ?_
      obtain hop | hop := List.mem_append.mp hop
      · exact (hoperands.reads w ⟨op, hop, hw⟩).imp_right fun hle => hle.trans hgrows
      · obtain ⟨hop, hindexed⟩ := List.mem_filter.mp hop
        cases op with
        | simple s => cases hindexed
        | indexed x => exact hresult x (Option.mem_toList.mp hop) w hw
    · have htouches : ins.touchesMemory = true := by simp [Instruction.touchesMemory, hiscall, hmem]
      exact (hcall.reads (.memory m) ⟨htouches, m, rfl⟩).imp_right fun hle =>
        (hle.trans hoperands.grows).trans hgrows

/-- The instructions of the block. -/
theorem Searched.foldl (h : N.Searched σ l) (rest : List Instruction) :
    N.Searched (rest.foldl N.searchIns σ) (l ++ rest) := by
  induction rest generalizing σ l with
  | nil => simpa using h
  | cons ins rest ih => simpa using ih (h.searchIns ins)

theorem Searched.start (hblock : σ.block = fun _ => .empty) :
    N.Searched { σ with useSet := .init 0, defSet := .init 0 } [] := by
  refine ⟨⟨fun v _ hused => ?_, fun v _ hdef => ?_, fun v _ hbit => ?_, fun t _ hdef => ?_⟩, ?_⟩
  · simp [hblock, Usage.empty] at hused
  · simp [hblock, Usage.empty] at hdef
  · rw [bits_init_zero, Set.inter_empty] at hbit
    exact absurd hbit Set.not_nonempty_empty
  · simp [hblock, Usage.empty] at hdef
  · rintro v ⟨j, ins, hj, -⟩
    simp at hj

end Names

/-! ### The flags after a block -/

namespace Names

variable {k : ℕ} {N : Names k} {σ : Scan k} {v : Var} {ins : Instruction} {blk : List Instruction}

theorem self_mem_ring (t : ℕ) : t ∈ N.ring t :=
  List.mem_map.mpr ⟨_, List.mem_range.mpr (Nat.lt_succ_self _), Nat.find_spec (N.ring_closed t)⟩

theorem foldl_transfer_block (l : List Var) (σ : Scan k) (v : Var) :
    (l.foldl transferBlockUsage σ).block v = if v ∈ l then .empty else σ.block v := by
  induction l generalizing σ with
  | nil => simp
  | cons op l ih =>
      rw [List.foldl_cons, ih]
      obtain rfl | hne := eq_or_ne v op
      · simp [transferBlockUsage]
      · simp [transferBlockUsage, hne]

@[simp]
theorem foldl_transfer_useSet (l : List Var) (σ : Scan k) : (l.foldl transferBlockUsage σ).useSet = σ.useSet := by
  induction l generalizing σ with
  | nil => rfl
  | cons op l ih => exact ih _

@[simp]
theorem foldl_transfer_defSet (l : List Var) (σ : Scan k) : (l.foldl transferBlockUsage σ).defSet = σ.defSet := by
  induction l generalizing σ with
  | nil => rfl
  | cons op l ih => exact ih _

theorem foldl_block {α : Type*} {f : Scan k → α → Scan k} (l : List α)
    (hf : ∀ a ∈ l, ∀ σ, (f σ a).block v = σ.block v) (σ : Scan k) : (l.foldl f σ).block v = σ.block v := by
  induction l generalizing σ with
  | nil => rfl
  | cons a l ih =>
      rw [List.foldl_cons, ih (fun b hb => hf b (List.mem_cons_of_mem a hb)), hf a List.mem_cons_self]

theorem block_useVar {op : Var} (h : v ≠ op) (address : Bool) : (N.useVar σ op address).block v = σ.block v := by
  unfold useVar
  dsimp only
  split <;> simp [h]

theorem block_use {op : Simple} (h : ∀ w, op.toVar = some w → v ≠ N.owner w) (address : Bool) :
    (N.use σ op address).block v = σ.block v := by
  cases op with
  | var w => exact block_useVar (h w rfl) address
  | tempAddr t => exact block_useVar (h (.temp t) rfl) true
  | other => rfl

theorem block_setDef {op : Var} (h : v ≠ op) : (setDef σ op).block v = σ.block v := by
  simp [setDef, h]

theorem block_define {op : Var} (h : v ≠ op) (howner : v ≠ N.owner op) : (N.define σ op).block v = σ.block v := by
  unfold define
  dsimp only
  split
  case isTrue => exact block_setDef h
  case isFalse =>
    split
    case isTrue => exact block_setDef h
    case isFalse => exact (block_setDef howner).trans (block_setDef h)

theorem block_useDefGlobals (t : ℕ) : (N.useDefGlobals σ).block (.temp t) = σ.block (.temp t) := by
  refine foldl_block N.confList (fun conf _ σ => ?_) σ
  cases conf with
  | temp u => rfl
  | memory m =>
      have hne : Var.temp t ≠ .memory m := by rintro ⟨⟩
      have hsame : (N.define (N.use σ (.var (.memory m)) false) (.memory m)).block (.temp t) = σ.block (.temp t) :=
        (block_define hne hne).trans (block_useVar hne false)
      unfold useDefGlobal
      dsimp only
      split <;> exact hsame

theorem block_useIndexed {x : IndexedName} (h : ∀ w, readBy (.indexed x) w → v ≠ N.owner w) :
    (N.useIndexed σ x).block v = σ.block v := by
  have hindex : (N.use σ x.index false).block v = σ.block v :=
    block_use (fun w hw => h w ⟨x.index, List.mem_cons_self, hw⟩) false
  unfold useIndexed
  cases hbase : x.trueBase with
  | none => exact hindex
  | some base =>
      refine (block_use (fun w hw => h w ⟨.var base, ?_, hw⟩) true).trans hindex
      simp [Name.parts, hbase]

theorem block_searchOperand {op : Name} (h : ∀ w, readBy op w → v ≠ N.owner w) (isLA : Bool) (i : ℕ) :
    (N.searchOperand σ isLA op i).block v = σ.block v := by
  cases op with
  | indexed x => exact block_useIndexed h
  | simple s => exact block_use (fun w hw => h w ⟨s, List.mem_singleton_self s, hw⟩) _

theorem block_searchResult {result : Option Name}
    (h : ∀ op, result = some op → ∀ w, readBy op w → v ≠ w ∧ v ≠ N.owner w) :
    (N.searchResult σ result).block v = σ.block v := by
  have hvar : ∀ w, result = some (.simple (.var w)) → v ≠ w ∧ v ≠ N.owner w := fun w hw =>
    h _ hw w ⟨.var w, List.mem_singleton_self _, rfl⟩
  unfold searchResult
  split
  case h_1 => rfl
  case h_2 x => exact block_useIndexed fun w hw => (h _ rfl w hw).2
  case h_3 m => exact block_define (hvar _ rfl).1 (hvar _ rfl).2
  case h_4 t => exact block_define (hvar _ rfl).1 (hvar _ rfl).2
  case h_5 => rfl

/-- The flags of a name that an instruction does not mention. -/
theorem block_searchIns (hcall : ins.touchesMemory = true → ∃ t, v = .temp t)
    (h : ∀ op ∈ ins.names, ∀ w, readBy op w → v ≠ w ∧ v ≠ N.owner w) :
    (N.searchIns σ ins).block v = σ.block v := by
  have hglobals : (if ins.touchesMemory = true then N.useDefGlobals σ else σ).block v = σ.block v := by
    split
    case isTrue htouches =>
      obtain ⟨t, rfl⟩ := hcall htouches
      exact block_useDefGlobals t
    case isFalse => rfl
  refine (block_searchResult fun op hop => h op ?_).trans ((foldl_block _ (fun op hop σ => ?_) _).trans hglobals)
  · exact List.mem_append_right _ (Option.mem_toList.mpr hop)
  · refine block_searchOperand (fun w hw => (h op.1 (List.mem_append_left _ ?_) w hw).2) ins.isLA op.2
    exact List.mem_reverse.mpr (List.fst_mem_of_mem_zipIdx (List.mem_reverse.mp hop))

/-- What a block mentions is cleared after it. -/
theorem mem_cleared {op : Name} {w : Var} (hop : op ∈ blk.flatMap Instruction.names) (hw : readBy op w)
    (hv : v = w ∨ v = N.owner w) :
    v ∈ ((blk.flatMap Instruction.names).flatMap Name.parts).flatMap N.clearedTemps ∨
      v ∈ ((blk.flatMap Instruction.names).flatMap Name.parts).flatMap clearedMems := by
  obtain ⟨s, hs, hw⟩ := hw
  have hmem := List.mem_flatMap.mpr ⟨op, hop, hs⟩
  have hring : ∀ t, w = .temp t → v ∈ (N.ring t).map .temp := by
    rintro t rfl
    obtain rfl | rfl := hv
    · exact List.mem_map_of_mem (self_mem_ring t)
    · exact List.mem_map_of_mem (deAlias_mem_ring t)
  cases s with
  | tempAddr t =>
      exact .inl (List.mem_flatMap.mpr ⟨_, hmem, hring t (Option.some.inj hw).symm⟩)
  | other => cases hw
  | var u =>
      obtain rfl := Option.some.inj hw
      cases u with
      | temp t => exact .inl (List.mem_flatMap.mpr ⟨_, hmem, hring t rfl⟩)
      | memory m =>
          refine .inr (List.mem_flatMap.mpr ⟨_, hmem, List.mem_singleton.mpr ?_⟩)
          exact hv.elim id id

/-- No flag is left when the next block begins. -/
theorem searchBlock_block (hblock : σ.block = fun _ => .empty) (blk : List Instruction) :
    (N.searchBlock σ blk).block = fun _ => .empty := by
  funext v
  unfold searchBlock transferTempBlockUsage transferMemBlockUsage
  dsimp only
  rw [foldl_transfer_block]
  split_ifs with htemps hcalls
  · rfl
  · cases v with
    | memory m => rfl
    | temp t =>
        refine (foldl_block blk (fun ins hins σ => block_searchIns (fun _ => ⟨t, rfl⟩) fun op hop w hw => ?_) _).trans
          (congrFun hblock _)
        have hmention := List.mem_flatMap.mpr ⟨ins, hins, hop⟩
        have hmems : Var.temp t ∉ ((blk.flatMap Instruction.names).flatMap Name.parts).flatMap clearedMems := by
          intro hmem
          obtain ⟨s, -, hs⟩ := List.mem_flatMap.mp hmem
          unfold clearedMems at hs
          split at hs
          · cases List.mem_singleton.mp hs
          · cases hs
        refine ⟨fun heq => ?_, fun heq => ?_⟩
        · exact (mem_cleared hmention hw (.inl heq)).elim htemps hmems
        · exact (mem_cleared hmention hw (.inr heq)).elim htemps hmems
  · rw [foldl_transfer_block]
    split_ifs with hmems
    · rfl
    · refine (foldl_block blk (fun ins hins σ => block_searchIns (fun htouches => ?_) fun op hop w hw => ?_) _).trans
        (congrFun hblock _)
      · exact absurd (List.any_eq_true.mpr ⟨ins, hins, htouches⟩) hcalls
      · have hmention := List.mem_flatMap.mpr ⟨ins, hins, hop⟩
        refine ⟨fun heq => ?_, fun heq => ?_⟩
        · exact (mem_cleared hmention hw (.inl heq)).elim htemps hmems
        · exact (mem_cleared hmention hw (.inr heq)).elim htemps hmems

/-- The sets of a block: a name read first has its bits in the use set, and one with a bit in the def set is redefined
or has them in the use set too. -/
theorem searchBlock_sets (hblock : σ.block = fun _ => .empty) (blk : List Instruction) (v : Var) :
    (N.ReadFirst v blk → N.bits v ⊆ (N.searchBlock σ blk).useSet.bits) ∧
      ((N.bits v ∩ (N.searchBlock σ blk).defSet.bits).Nonempty →
        N.Redefined v blk ∨ N.bits v ⊆ (N.searchBlock σ blk).useSet.bits) := by
  have hsearched := (Searched.start hblock).foldl (N := N) blk
  rw [List.nil_append] at hsearched
  set start : Scan k := { σ with useSet := .init 0, defSet := .init 0 } with hstart
  have hsame : (N.searchBlock σ blk).useSet = (blk.foldl N.searchIns start).useSet ∧
      (N.searchBlock σ blk).defSet = (blk.foldl N.searchIns start).defSet := by
    unfold searchBlock transferTempBlockUsage transferMemBlockUsage
    dsimp only
    rw [foldl_transfer_useSet, foldl_transfer_defSet, ← hstart]
    split
    · exact ⟨rfl, rfl⟩
    · exact ⟨foldl_transfer_useSet _ _, foldl_transfer_defSet _ _⟩
  rw [hsame.1, hsame.2]
  refine ⟨hsearched.reads v, fun hbit => ?_⟩
  have howner : N.bits (N.owner v) = N.bits v := by rw [bits, owner_owner, bits]
  have := hsearched.sound.defBit (N.owner v) (owner_owner v) (howner.symm ▸ hbit)
  rwa [redefined_owner, howner] at this

end Names

end OpenWatcom.VarUsage
