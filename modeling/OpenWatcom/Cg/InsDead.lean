import Mathlib.Tactic

/-! # Removal of dead instructions

`RemoveUselessStuff` marks the useful instructions from the last block back to the first, again and again until nothing
changes, and frees the others and the temporaries that no useful one refers to. The names of a temporary are in a ring
and have their flags in common, so that a temporary stands for its ring here. -/

namespace OpenWatcom.InsDead

/-! ## The routine -/

/-- A name: a part of a temporary, memory, a register, a constant, the address of a temporary, or an indexed name
without or with a base, where `x` stands for its offset, scale and flags. -/
inductive Name
  | temp (t : ℕ) (offset : ℤ) (size : ℕ)
  | memory (m : ℕ)
  | register (r : ℕ)
  | constant (c : ℕ)
  | tempAddr (t : ℕ)
  | indexed (x : ℕ) (index : Name)
  | bound (x : ℕ) (index base : Name)

/-- The opcodes that are told apart. -/
inductive Kind
  | jump | push | pop | nop | callIndirect | call | mov | other
  deriving DecidableEq

/-- An instruction; `code` is its opcode with its type class. -/
structure Ins where
  code : ℕ
  kind : Kind
  /-- `INS_CC_USED`. -/
  ccUsed : Bool
  fpSideEffect : Bool
  /-- `DoesSomething`. -/
  doesSomething : Bool
  operands : List Name
  result : Option Name

/-- A block; `succ` is the block that an edge goes to. -/
structure Block where
  label : ℕ
  inLoop : Bool
  ins : List Ins
  succ : ℕ → Option ℕ

/-- `USE_ADDRESS`, `VAR_VOLATILE`, `USE_IN_ANOTHER_BLOCK` and `_FrontEndTmp` of a temporary. -/
structure Usage where
  address : Bool
  volatile : Bool
  inAnotherBlock : Bool
  frontEnd : Bool

/-- The names and the settings. -/
structure Names where
  usage : ℕ → Usage
  memoryVolatile : ℕ → Bool
  indexVolatile : ℕ → Bool
  /-- The temporaries of `Names[N_TEMP]`. -/
  temps : Finset ℕ
  noOptimization : Bool
  blockByBlock : Bool

/-- The blocks from `BlockList` back, and those of `TailBlocks`, in their order. -/
structure Routine where
  blocks : List Block
  tail : List Block

/-! ## The analysis -/

/-- `InitVisitedTemps`. -/
def initVisitedTemps (names : Names) : Finset ℕ :=
  names.temps.filter fun t =>
    ((names.usage t).address || (names.usage t).volatile) ||
      (names.noOptimization && (names.usage t).frontEnd) ||
      ((names.blockByBlock || names.noOptimization) && (names.usage t).inAnotherBlock)

/-- `IsVolatile`. -/
def Names.isVolatile (names : Names) : Name → Bool
  | .temp t _ _ => (names.usage t).volatile
  | .memory m => names.memoryVolatile m
  | .indexed x _ => names.indexVolatile x
  | .bound x _ _ => names.indexVolatile x
  | _ => false

/-- `VolatileIns`. -/
def Names.volatileIns (names : Names) (ins : Ins) : Bool :=
  ins.operands.any names.isVolatile || ins.result.any names.isVolatile

/-- `SideEffect`. -/
def Names.sideEffect (names : Names) (ins : Ins) : Bool :=
  if ins.kind = .push then true
  else if ins.kind = .pop then true
  else if ins.ccUsed ∧ ins.kind ≠ .mov then true
  else if ins.fpSideEffect then true
  else names.volatileIns ins

/-- `MarkUseful`: the temporaries that are marked then, and whether one has been marked. -/
def markUseful : Name → Finset ℕ → Finset ℕ × Bool
  | .temp t _ _, visited => if t ∈ visited then (visited, false) else (insert t visited, true)
  | .indexed _ index, visited => markUseful index visited
  | .bound _ index base, visited =>
    let marked := markUseful index visited
    let more := markUseful base marked.1
    (more.1, marked.2 || more.2)
  | .tempAddr t, visited => if t ∈ visited then (visited, false) else (insert t visited, true)
  | _, visited => (visited, false)

/-- `MarkUseful` for the operands, the last one first. -/
def markOperands (operands : List Name) (visited : Finset ℕ) : Finset ℕ × Bool :=
  operands.foldr (fun op acc =>
    let marked := markUseful op acc.1
    (marked.1, acc.2 || marked.2)) (visited, false)

/-- `MarkUseful` for a result that may be missing. -/
def markResult (result : Option Name) (visited : Finset ℕ) : Finset ℕ × Bool :=
  match result with
  | some res => markUseful res visited
  | none => (visited, false)

/-- `CheckUseful`: whether the instruction is marked, the temporaries, and whether one has been marked. -/
def checkUseful (names : Names) (ins : Ins) (visited : Finset ℕ) : Bool × Finset ℕ × Bool :=
  let both :=
    let result := markResult ins.result visited
    let operands := markOperands ins.operands result.1
    (true, operands.1, result.2 || operands.2)
  let justOperands :=
    let operands := markOperands ins.operands visited
    (true, operands.1, operands.2)
  if ins.kind = .mov ∨ ins.kind = .other then
    if names.sideEffect ins then both
    else
      match ins.result with
      | some (.memory _) | some (.register _) => justOperands
      | some (.indexed ..) | some (.bound ..) => both
      | some (.temp t _ _) => if t ∈ visited then justOperands else (false, visited, false)
      | _ => (false, visited, false)
  else both

/-- The instructions of a block with `INS_VISITED`. -/
structure Marked where
  block : Block
  ins : List (Ins × Bool)

/-- The blocks before anything is marked. -/
def unmarked (blocks : List Block) : List Marked := blocks.map fun blk => ⟨blk, blk.ins.map fun ins => (ins, false)⟩

/-- One round over the instructions of a block, from the last one. -/
def checkIns (names : Names) (inRegalloc : Bool) : List (Ins × Bool) → Finset ℕ → List (Ins × Bool) × Finset ℕ × Bool
  | [], visited => ([], visited, false)
  | ins :: rest, visited =>
    let after := checkIns names inRegalloc rest visited
    if !inRegalloc || ins.1.doesSomething then
      let check := checkUseful names ins.1 after.2.1
      ((ins.1, ins.2 || check.1) :: after.1, check.2.1, after.2.2 || check.2.2)
    else (ins :: after.1, after.2.1, after.2.2)

/-- One round over the blocks, from the last one. -/
def checkBlocks (names : Names) (justTheLoop inRegalloc : Bool) : List Marked → Finset ℕ → List Marked × Finset ℕ × Bool
  | [], visited => ([], visited, false)
  | blk :: rest, visited =>
    let after := checkBlocks names justTheLoop inRegalloc rest visited
    if !justTheLoop || blk.block.inLoop then
      let check := checkIns names inRegalloc blk.ins after.2.1
      (⟨blk.block, check.1⟩ :: after.1, check.2.1, after.2.2 || check.2.2)
    else (blk :: after.1, after.2.1, after.2.2)

/-- The loop of `FindUsefulIns`, for so many rounds at most. -/
def rounds (names : Names) (justTheLoop inRegalloc : Bool) :
    ℕ → List Marked → Finset ℕ → Option (List Marked × Finset ℕ)
  | 0, _, _ => none
  | turns + 1, blocks, visited =>
    let check := checkBlocks names justTheLoop inRegalloc blocks visited
    if check.2.2 then rounds names justTheLoop inRegalloc turns check.1 check.2.1 else some (check.1, check.2.1)

/-- The instructions outside the loop are useful. -/
def markOutside : List Marked → Finset ℕ → List Marked × Finset ℕ
  | [], visited => ([], visited)
  | blk :: rest, visited =>
    let after := markOutside rest visited
    if blk.block.inLoop then (blk :: after.1, after.2)
    else
      (⟨blk.block, blk.ins.map fun ins => (ins.1, true)⟩ :: after.1,
        blk.ins.foldr (fun ins visited => (markResult ins.1.result (markOperands ins.1.operands visited).1).1) after.2)

/-- `FindUsefulIns`, for so many rounds at most. -/
def findUsefulIns (names : Names) (justTheLoop inRegalloc : Bool) (turns : ℕ) (blocks : List Marked)
    (visited : Finset ℕ) : Option (List Marked × Finset ℕ) :=
  if justTheLoop then
    let outside := markOutside blocks visited
    rounds names justTheLoop inRegalloc turns outside.1 outside.2
  else rounds names justTheLoop inRegalloc turns blocks visited

/-- `FreeUselessIns`. -/
def freeUselessIns (justTheLoop : Bool) (blocks : List Marked) : List Block :=
  blocks.map fun blk =>
    if justTheLoop && !blk.block.inLoop then blk.block
    else { blk.block with ins := (blk.ins.filter fun ins => ins.2).map Prod.fst }

/-- What is left: the routine and the temporaries. -/
structure Left where
  routine : Routine
  temps : Finset ℕ

/-- `RemoveUselessStuff`, for so many rounds at most of each loop. -/
def removeUselessStuff (names : Names) (justTheLoop inRegalloc : Bool) (turns : ℕ) (r : Routine) : Option Left :=
  (findUsefulIns names justTheLoop inRegalloc turns (unmarked r.blocks) (initVisitedTemps names)).bind fun first =>
    (findUsefulIns names justTheLoop inRegalloc turns (unmarked r.tail) first.2).map fun second =>
      { routine := ⟨freeUselessIns justTheLoop first.1, freeUselessIns justTheLoop second.1⟩
        temps := if inRegalloc then names.temps else names.temps.filter (· ∈ second.2) }

/-! ## What a routine does -/

/-- The state: the contents of the temporaries, and everything else. -/
structure State (α ω : Type) where
  temp : ℕ → α
  world : ω

/-- What an instruction does that acts: the value of its result, the edge that is taken, what it leaves of the
temporaries whose address is taken, and everything else. -/
structure Outcome (α β ω : Type) where
  value : β
  edge : ℕ
  temp : ℕ → α
  world : ω

/-- A machine: how parts of temporaries are read and written, how other names are, and what instructions compute. An
indexed name is given the contents of its base, if that is a temporary, and of the temporaries whose address is
taken. -/
structure Machine (α β ω : Type) where
  get : α → ℤ → ℕ → β
  set : α → ℤ → ℕ → β → α
  read : Name → ω → β
  write : Name → β → ω → ω
  load : ℕ → β → Option α → (ℕ → Option α) → ω → β
  store : ℕ → β → Option α → (ℕ → Option α) → ω → β → Option α × (ℕ → α) × ω
  compute : Ins → List β → ω → β
  act : Ins → List β → (ℕ → Option α) → ω → Outcome α β ω

/-- What can be observed of an instruction: its operands, the index of its result, its value, and the edge that is
taken. -/
structure Event (β : Type) where
  ins : Ins
  operands : List β
  index : Option β
  value : β
  edge : Option ℕ

section

variable {α β ω : Type} (names : Names) (M : Machine α β ω)

/-- The temporaries whose address is taken. -/
def taken (σ : State α ω) (t : ℕ) : Option α := if (names.usage t).address then some (σ.temp t) else none

/-- What a base is. -/
def baseOf (σ : State α ω) : Name → Option α
  | .temp t _ _ => some (σ.temp t)
  | _ => none

/-- The value of a name. -/
def eval (σ : State α ω) : Name → β
  | .temp t offset size => M.get (σ.temp t) offset size
  | .indexed x index => M.load x (eval σ index) none (taken names σ) σ.world
  | .bound x index base => M.load x (eval σ index) (baseOf σ base) (taken names σ) σ.world
  | .memory m => M.read (.memory m) σ.world
  | .register r => M.read (.register r) σ.world
  | .constant c => M.read (.constant c) σ.world
  | .tempAddr t => M.read (.tempAddr t) σ.world

/-- The temporaries whose address is taken get other contents. -/
def State.setTaken (σ : State α ω) (temp : ℕ → α) (world : ω) : State α ω :=
  ⟨fun t => if (names.usage t).address then temp t else σ.temp t, world⟩

/-- A base gets other contents. -/
def State.setBase (σ : State α ω) (base : Name) (contents : Option α) : State α ω :=
  match base, contents with
  | .temp t _ _, some c => { σ with temp := Function.update σ.temp t c }
  | _, _ => σ

/-- The result is written. -/
def assign (σ : State α ω) (result : Option Name) (value : β) : State α ω :=
  match result with
  | some (.temp t offset size) => { σ with temp := Function.update σ.temp t (M.set (σ.temp t) offset size value) }
  | some (.memory m) => { σ with world := M.write (.memory m) value σ.world }
  | some (.register r) => { σ with world := M.write (.register r) value σ.world }
  | some (.indexed x index) =>
    let stored := M.store x (eval names M σ index) none (taken names σ) σ.world value
    σ.setTaken names stored.2.1 stored.2.2
  | some (.bound x index base) =>
    let stored := M.store x (eval names M σ index) (baseOf σ base) (taken names σ) σ.world value
    (σ.setTaken names stored.2.1 stored.2.2).setBase base stored.1
  | _ => σ

/-- An instruction acts on more than its result: it branches, calls, is a stack operation or no operation, sets
condition codes that are used, works on the stack of the 8087, or accesses a volatile name. -/
def Names.acts (ins : Ins) : Bool :=
  (ins.kind ≠ .mov && ins.kind ≠ .other) || (ins.ccUsed && ins.kind ≠ .mov) || ins.fpSideEffect || names.volatileIns ins

/-- The index of a result. -/
def indexOf (σ : State α ω) : Option Name → Option β
  | some (.indexed _ index) => some (eval names M σ index)
  | some (.bound _ index _) => some (eval names M σ index)
  | _ => none

/-- A result is memory, a register or an indexed name. -/
def isStored : Option Name → Bool
  | some (.memory _) | some (.register _) | some (.indexed ..) | some (.bound ..) => true
  | _ => false

/-- An instruction, with the edge that a jump takes and what can be observed. -/
def exec (ins : Ins) (σ : State α ω) : State α ω × Option ℕ × Option (Event β) :=
  let operands := ins.operands.map (eval names M σ)
  if !ins.doesSomething then (σ, none, none)
  else if names.acts ins then
    let outcome := M.act ins operands (taken names σ) σ.world
    let σ' := σ.setTaken names outcome.temp outcome.world
    let edge := if ins.kind = .jump then some outcome.edge else none
    (assign names M σ' ins.result outcome.value, edge,
      some ⟨ins, operands, indexOf names M σ' ins.result, outcome.value, edge⟩)
  else
    let value := M.compute ins operands σ.world
    (assign names M σ ins.result value, none,
      if isStored ins.result then some ⟨ins, operands, indexOf names M σ ins.result, value, none⟩ else none)

/-- The instructions of a block, with the edge of the last jump. -/
def execAll : List Ins → State α ω → ℕ → State α ω × ℕ × List (Event β)
  | [], σ, edge => (σ, edge, [])
  | ins :: rest, σ, edge =>
    let step := exec names M ins σ
    let after := execAll rest step.1 (step.2.1.getD edge)
    (after.1, after.2.1, step.2.2.toList ++ after.2.2)

/-- What can be observed of so many blocks from one on. -/
def run (blocks : List Block) : ℕ → ℕ → State α ω → List (Event β)
  | 0, _, _ => []
  | n + 1, label, σ =>
    match blocks.find? fun blk => blk.label = label with
    | none => []
    | some blk =>
      let after := execAll names M blk.ins σ 0
      after.2.2 ++
        match blk.succ after.2.1 with
        | none => []
        | some next => run blocks n next after.1

end

/-! ## What is referred to -/

/-- The temporaries that a name refers to. -/
def Name.temps : Name → Finset ℕ
  | .temp t _ _ => {t}
  | .tempAddr t => {t}
  | .indexed _ index => index.temps
  | .bound _ index base => index.temps ∪ base.temps
  | _ => ∅

/-- The temporaries that operands refer to. -/
def operandTemps (operands : List Name) : Finset ℕ := operands.foldr (fun op acc => op.temps ∪ acc) ∅

/-- The temporaries that an instruction refers to. -/
def Ins.temps (ins : Ins) : Finset ℕ := operandTemps ins.operands ∪ ins.result.elim ∅ Name.temps

/-- Some instruction of the blocks refers to the temporary. -/
def Occurs (t : ℕ) (blocks : List Block) : Prop := ∃ blk ∈ blocks, ∃ ins ∈ blk.ins, t ∈ ins.temps

/-! ## Marking -/

section

variable {names : Names} {justTheLoop inRegalloc : Bool}

theorem markUseful_spec (op : Name) (visited : Finset ℕ) :
    (markUseful op visited).1 = visited ∪ op.temps ∧ ((markUseful op visited).2 = false ↔ op.temps ⊆ visited) := by
  induction op generalizing visited with
  | temp t offset size =>
    unfold markUseful Name.temps
    split_ifs with ht
    · simp [ht]
    · exact ⟨(Finset.union_comm visited {t}).symm, by simp [ht]⟩
  | tempAddr t =>
    unfold markUseful Name.temps
    split_ifs with ht
    · simp [ht]
    · exact ⟨(Finset.union_comm visited {t}).symm, by simp [ht]⟩
  | indexed x index ih => exact ih visited
  | bound x index base ih ih' =>
    unfold markUseful Name.temps
    dsimp only
    rw [(ih' _).1, Bool.or_eq_false_iff, (ih visited).2, (ih' _).2, (ih visited).1, Finset.union_assoc,
      Finset.union_subset_iff]
    refine ⟨rfl, and_congr_right fun hindex => ?_⟩
    rw [Finset.union_eq_left.2 hindex]
  | memory m => simp [markUseful, Name.temps]
  | register r => simp [markUseful, Name.temps]
  | constant c => simp [markUseful, Name.temps]

theorem markOperands_spec (operands : List Name) (visited : Finset ℕ) :
    (markOperands operands visited).1 = visited ∪ operandTemps operands ∧
      ((markOperands operands visited).2 = false ↔ operandTemps operands ⊆ visited) := by
  induction operands with
  | nil => simp [markOperands, operandTemps]
  | cons op operands ih =>
    have hmark := markUseful_spec op (markOperands operands visited).1
    change (markUseful op (markOperands operands visited).1).1 = visited ∪ (op.temps ∪ operandTemps operands) ∧
      (((markOperands operands visited).2 || (markUseful op (markOperands operands visited).1).2) = false ↔
        op.temps ∪ operandTemps operands ⊆ visited)
    rw [hmark.1, Bool.or_eq_false_iff, hmark.2, ih.1, ih.2, Finset.union_subset_iff, Finset.union_assoc,
      Finset.union_comm (operandTemps operands)]
    refine ⟨rfl, ?_⟩
    constructor
    · rintro ⟨hoperands, hop⟩
      rw [Finset.union_eq_left.2 hoperands] at hop
      exact ⟨hop, hoperands⟩
    · rintro ⟨hop, hoperands⟩
      exact ⟨hoperands, hop.trans Finset.subset_union_left⟩

theorem markResult_spec (result : Option Name) (visited : Finset ℕ) :
    (markResult result visited).1 = visited ∪ result.elim ∅ Name.temps ∧
      ((markResult result visited).2 = false ↔ result.elim ∅ Name.temps ⊆ visited) := by
  cases result with
  | none => simp [markResult]
  | some res => exact markUseful_spec res visited

/-- What can be observed of an instruction does not depend on the temporaries. -/
def Names.observable (names : Names) (ins : Ins) : Prop :=
  (ins.kind ≠ .mov ∧ ins.kind ≠ .other) ∨ names.sideEffect ins = true ∨ isStored ins.result = true

/-- An instruction is useful when something of it can be observed, or it defines a temporary that is marked. -/
def Useful (names : Names) (visited : Finset ℕ) (ins : Ins) : Prop :=
  names.observable ins ∨ ∃ t offset size, ins.result = some (.temp t offset size) ∧ t ∈ visited

theorem both_spec (ins : Ins) (visited : Finset ℕ) :
    (markOperands ins.operands (markResult ins.result visited).1).1 = visited ∪ ins.temps ∧
      (((markResult ins.result visited).2 || (markOperands ins.operands (markResult ins.result visited).1).2) = false ↔
        ins.temps ⊆ visited) := by
  have hresult := markResult_spec ins.result visited
  have hoperands := markOperands_spec ins.operands (markResult ins.result visited).1
  rw [hoperands.1, Bool.or_eq_false_iff, hresult.2, hoperands.2, hresult.1, Ins.temps, Finset.union_subset_iff,
    Finset.union_assoc, Finset.union_comm (operandTemps ins.operands)]
  refine ⟨rfl, ?_⟩
  constructor
  · rintro ⟨hres, hops⟩
    rw [Finset.union_eq_left.2 hres] at hops
    exact ⟨hops, hres⟩
  · rintro ⟨hops, hres⟩
    exact ⟨hres, hops.trans Finset.subset_union_left⟩

theorem justOperands_spec (ins : Ins) (visited : Finset ℕ) (h : ins.result.elim ∅ Name.temps ⊆ visited) :
    (markOperands ins.operands visited).1 = visited ∪ ins.temps ∧
      ((markOperands ins.operands visited).2 = false ↔ ins.temps ⊆ visited) := by
  have hoperands := markOperands_spec ins.operands visited
  rw [hoperands.1, hoperands.2, Ins.temps, Finset.union_subset_iff]
  constructor
  · rw [Finset.union_comm (operandTemps ins.operands), ← Finset.union_assoc, Finset.union_eq_left.2 h]
  · exact ⟨fun hops => ⟨hops, h⟩, fun hboth => hboth.1⟩

/-- What is not useful. -/
theorem not_useful {ins : Ins} {visited : Finset ℕ} (hkind : ins.kind = .mov ∨ ins.kind = .other)
    (hside : ¬ names.sideEffect ins = true) (hstored : isStored ins.result = false)
    (htemp : ∀ t offset size, ins.result = some (.temp t offset size) → t ∉ visited) : ¬ Useful names visited ins := by
  rintro ((hkind' | hside' | hstored') | ⟨t, offset, size, hresult, ht⟩)
  · exact hkind.elim hkind'.1 hkind'.2
  · exact hside hside'
  · rw [hstored] at hstored'
    cases hstored'
  · exact htemp t offset size hresult ht

/-- `CheckUseful` marks the useful instructions, and then all that they refer to. -/
theorem checkUseful_spec (ins : Ins) (visited : Finset ℕ) :
    ((checkUseful names ins visited).1 = true → (checkUseful names ins visited).2.1 = visited ∪ ins.temps ∧
      ((checkUseful names ins visited).2.2 = false ↔ ins.temps ⊆ visited)) ∧
    ((checkUseful names ins visited).1 = false → (checkUseful names ins visited).2.1 = visited ∧
      (checkUseful names ins visited).2.2 = false ∧ ¬ Useful names visited ins) := by
  have hboth := both_spec ins visited
  have hjust := justOperands_spec ins visited
  unfold checkUseful
  dsimp only
  split_ifs with hkind hside
  · exact ⟨fun _ => hboth, fun h => by cases h⟩
  · have hnot := fun hstored htemp => @not_useful names ins visited hkind hside hstored htemp
    split
    all_goals rename_i hresult
    · exact ⟨fun _ => hjust (by rw [hresult]; exact Finset.empty_subset _), fun h => by cases h⟩
    · exact ⟨fun _ => hjust (by rw [hresult]; exact Finset.empty_subset _), fun h => by cases h⟩
    · exact ⟨fun _ => hboth, fun h => by cases h⟩
    · exact ⟨fun _ => hboth, fun h => by cases h⟩
    · split_ifs with ht
      · exact ⟨fun _ => hjust (by rw [hresult]; exact Finset.singleton_subset_iff.2 ht), fun h => by cases h⟩
      · refine ⟨fun h => (by cases h), fun _ => ⟨rfl, rfl, hnot (by rw [hresult]; rfl) ?_⟩⟩
        intro t' offset' size' hresult'
        rw [hresult] at hresult'
        cases hresult'
        exact ht
    · refine ⟨fun h => (by cases h), fun _ => ⟨rfl, rfl, hnot ?_ ?_⟩⟩
      · unfold isStored
        split
        all_goals simp_all
      · intro t offset size hresult
        simp_all
  · exact ⟨fun _ => hboth, fun h => by cases h⟩

/-! ## A round -/

/-- All that the marked instructions refer to is marked. -/
def Covered (ins : List (Ins × Bool)) (visited : Finset ℕ) : Prop := ∀ p ∈ ins, p.2 = true → p.1.temps ⊆ visited

/-- No instruction that is not marked is useful, but for those that do nothing. -/
def Settled (names : Names) (ins : List (Ins × Bool)) (visited : Finset ℕ) : Prop :=
  ∀ p ∈ ins, p.2 = false → p.1.doesSomething = false ∨ ¬ Useful names visited p.1

theorem Covered.mono {ins : List (Ins × Bool)} {visited visited' : Finset ℕ} (h : Covered ins visited)
    (hsub : visited ⊆ visited') : Covered ins visited' := fun p hp hflag => (h p hp hflag).trans hsub

/-- What a round over the instructions of a block does. -/
structure InsRound (names : Names) (ins : List (Ins × Bool)) (visited : Finset ℕ)
    (after : List (Ins × Bool) × Finset ℕ × Bool) : Prop where
  same : after.1.map Prod.fst = ins.map Prod.fst
  grows : visited ⊆ after.2.1
  bounded : ∀ t ∈ after.2.1, t ∈ visited ∨ ∃ p ∈ ins, t ∈ p.1.temps
  covered : Covered ins visited → Covered after.1 after.2.1
  changed : after.2.2 = false ↔ after.2.1 = visited
  settled : after.2.2 = false → Settled names after.1 visited

theorem checkUseful_grows (ins : Ins) (visited : Finset ℕ) :
    visited ⊆ (checkUseful names ins visited).2.1 ∧ (checkUseful names ins visited).2.1 ⊆ visited ∪ ins.temps ∧
      ((checkUseful names ins visited).2.2 = false ↔ (checkUseful names ins visited).2.1 = visited) := by
  obtain ⟨huseful, hnot⟩ := @checkUseful_spec names ins visited
  cases hcheck : (checkUseful names ins visited).1 with
  | true =>
    rw [(huseful hcheck).1, (huseful hcheck).2]
    exact ⟨Finset.subset_union_left, Finset.Subset.refl _, Finset.union_eq_left.symm⟩
  | false =>
    rw [(hnot hcheck).1, (hnot hcheck).2.1]
    exact ⟨Finset.Subset.refl _, Finset.subset_union_left, by simp⟩

theorem checkIns_spec (ins : List (Ins × Bool)) (visited : Finset ℕ) :
    InsRound names ins visited (checkIns names inRegalloc ins visited) := by
  induction ins with
  | nil =>
    exact ⟨rfl, Finset.Subset.refl _, fun t ht => Or.inl ht, id, by simp [checkIns], fun _ p hp => by cases hp⟩
  | cons ins rest ih =>
    unfold checkIns
    dsimp only
    split_ifs with hscope
    · set after := checkIns names inRegalloc rest visited
      obtain ⟨huseful, hnot⟩ := @checkUseful_spec names ins.1 after.2.1
      obtain ⟨hgrows, hbounded, hchanged⟩ := @checkUseful_grows names ins.1 after.2.1
      have hboth : (after.2.2 || (checkUseful names ins.1 after.2.1).2.2) = false ↔
          after.2.1 = visited ∧ (checkUseful names ins.1 after.2.1).2.1 = visited := by
        rw [Bool.or_eq_false_iff, ih.changed, hchanged]
        refine and_congr_right fun h => ?_
        rw [h]
      refine ⟨congrArg (List.cons ins.1) ih.same, ih.grows.trans hgrows, ?_, ?_, ?_, ?_⟩
      · intro t ht
        rcases Finset.mem_union.1 (hbounded ht) with hafter | hins
        · exact (ih.bounded t hafter).imp_right fun ⟨p, hp, htp⟩ => ⟨p, List.mem_cons_of_mem _ hp, htp⟩
        · exact Or.inr ⟨ins, List.mem_cons_self, hins⟩
      · intro hcovered p hp hflag
        rcases List.mem_cons.1 hp with rfl | hp
        · rcases Bool.or_eq_true_iff.1 hflag with hold | hnew
          · exact (hcovered ins List.mem_cons_self hold).trans (ih.grows.trans hgrows)
          · rw [(huseful hnew).1]
            exact Finset.subset_union_right
        · exact (ih.covered (fun p hp => hcovered p (List.mem_cons_of_mem _ hp)) p hp hflag).trans hgrows
      · rw [hboth]
        exact ⟨fun h => h.2, fun h => ⟨(Finset.Subset.antisymm (hgrows.trans h.subset) ih.grows), h⟩⟩
      · intro hchange p hp hflag
        rcases List.mem_cons.1 hp with rfl | hp
        · rw [← (hboth.1 hchange).1]
          exact Or.inr (hnot (Bool.or_eq_false_iff.1 hflag).2).2.2
        · exact ih.settled (Bool.or_eq_false_iff.1 hchange).1 p hp hflag
    · refine ⟨congrArg (List.cons ins.1) ih.same, ih.grows, ?_, ?_, ih.changed, ?_⟩
      · exact fun t ht => (ih.bounded t ht).imp_right fun ⟨p, hp, htp⟩ => ⟨p, List.mem_cons_of_mem _ hp, htp⟩
      · intro hcovered p hp hflag
        rcases List.mem_cons.1 hp with rfl | hp
        · exact (hcovered p List.mem_cons_self hflag).trans ih.grows
        · exact ih.covered (fun p hp => hcovered p (List.mem_cons_of_mem _ hp)) p hp hflag
      · intro hchange p hp hflag
        rcases List.mem_cons.1 hp with rfl | hp
        · refine Or.inl ?_
          cases hdoes : p.1.doesSomething with
          | false => rfl
          | true => exact absurd (by rw [hdoes, Bool.or_true]) hscope
        · exact ih.settled hchange p hp hflag

/-- The block and its instructions. -/
def Marked.source (blk : Marked) : Block × List Ins := (blk.block, blk.ins.map Prod.fst)

/-- The temporary is referred to in some block. -/
def Refers (blocks : List Marked) (t : ℕ) : Prop := ∃ blk ∈ blocks, ∃ p ∈ blk.ins, t ∈ p.1.temps

/-- Outside the loop everything is marked. -/
def Outside (justTheLoop : Bool) (blocks : List Marked) : Prop :=
  ∀ blk ∈ blocks, (!justTheLoop || blk.block.inLoop) = false → ∀ p ∈ blk.ins, p.2 = true

/-- In the blocks that are looked at no instruction that is not marked is useful. -/
def AllSettled (names : Names) (justTheLoop : Bool) (blocks : List Marked) (visited : Finset ℕ) : Prop :=
  ∀ blk ∈ blocks, (!justTheLoop || blk.block.inLoop) = true → Settled names blk.ins visited

/-- What a round over the blocks does. -/
structure Round (names : Names) (justTheLoop : Bool) (blocks : List Marked) (visited : Finset ℕ)
    (after : List Marked × Finset ℕ × Bool) : Prop where
  same : after.1.map Marked.source = blocks.map Marked.source
  grows : visited ⊆ after.2.1
  bounded : ∀ t ∈ after.2.1, t ∈ visited ∨ Refers blocks t
  covered : (∀ blk ∈ blocks, Covered blk.ins visited) → ∀ blk ∈ after.1, Covered blk.ins after.2.1
  outside : Outside justTheLoop blocks → Outside justTheLoop after.1
  changed : after.2.2 = false ↔ after.2.1 = visited
  settled : after.2.2 = false → AllSettled names justTheLoop after.1 visited

theorem Refers.cons {blk : Marked} {rest : List Marked} {t : ℕ} : Refers rest t → Refers (blk :: rest) t :=
  fun ⟨b, hb, h⟩ => ⟨b, List.mem_cons_of_mem _ hb, h⟩

theorem checkBlocks_spec (blocks : List Marked) (visited : Finset ℕ) :
    Round names justTheLoop blocks visited (checkBlocks names justTheLoop inRegalloc blocks visited) := by
  induction blocks with
  | nil =>
    exact ⟨rfl, Finset.Subset.refl _, fun t ht => Or.inl ht, fun _ blk hblk => (by cases hblk),
      fun _ blk hblk => (by cases hblk), by simp [checkBlocks], fun _ blk hblk => (by cases hblk)⟩
  | cons blk rest ih =>
    unfold checkBlocks
    dsimp only
    split_ifs with hscope
    · set after := checkBlocks names justTheLoop inRegalloc rest visited
      have hround := @checkIns_spec names inRegalloc blk.ins after.2.1
      have hboth : (after.2.2 || (checkIns names inRegalloc blk.ins after.2.1).2.2) = false ↔
          after.2.1 = visited ∧ (checkIns names inRegalloc blk.ins after.2.1).2.1 = visited := by
        rw [Bool.or_eq_false_iff, ih.changed, hround.changed]
        refine and_congr_right fun h => ?_
        rw [h]
      refine ⟨?_, ih.grows.trans hround.grows, ?_, ?_, ?_, ?_, ?_⟩
      · exact congrArg₂ List.cons (congrArg (Prod.mk blk.block) hround.same) ih.same
      · intro t ht
        rcases hround.bounded t ht with hafter | ⟨p, hp, htp⟩
        · exact (ih.bounded t hafter).imp_right Refers.cons
        · exact Or.inr ⟨blk, List.mem_cons_self, p, hp, htp⟩
      · intro hcovered b hb
        rcases List.mem_cons.1 hb with rfl | hb
        · exact hround.covered ((hcovered blk List.mem_cons_self).mono ih.grows)
        · exact (ih.covered (fun b hb => hcovered b (List.mem_cons_of_mem _ hb)) b hb).mono hround.grows
      · intro houtside b hb hout
        rcases List.mem_cons.1 hb with rfl | hb
        · cases hscope.symm.trans hout
        · exact ih.outside (fun b hb => houtside b (List.mem_cons_of_mem _ hb)) b hb hout
      · rw [hboth]
        exact ⟨fun h => h.2, fun h => ⟨(Finset.Subset.antisymm (hround.grows.trans h.subset) ih.grows), h⟩⟩
      · intro hchange b hb hin
        rcases List.mem_cons.1 hb with rfl | hb
        · rw [← (hboth.1 hchange).1]
          exact hround.settled (Bool.or_eq_false_iff.1 hchange).2
        · exact ih.settled (Bool.or_eq_false_iff.1 hchange).1 b hb hin
    · refine ⟨congrArg (List.cons _) ih.same, ih.grows, ?_, ?_, ?_, ih.changed, ?_⟩
      · exact fun t ht => (ih.bounded t ht).imp_right Refers.cons
      · intro hcovered b hb
        rcases List.mem_cons.1 hb with rfl | hb
        · exact (hcovered b List.mem_cons_self).mono ih.grows
        · exact ih.covered (fun b hb => hcovered b (List.mem_cons_of_mem _ hb)) b hb
      · intro houtside b hb hout
        rcases List.mem_cons.1 hb with rfl | hb
        · exact houtside b List.mem_cons_self hout
        · exact ih.outside (fun b hb => houtside b (List.mem_cons_of_mem _ hb)) b hb hout
      · intro hchange b hb hin
        rcases List.mem_cons.1 hb with rfl | hb
        · exact absurd hin hscope
        · exact ih.settled hchange b hb hin

/-- What the loop of `FindUsefulIns` leaves. -/
structure Found (names : Names) (justTheLoop : Bool) (blocks : List Marked) (visited : Finset ℕ)
    (after : List Marked × Finset ℕ) : Prop where
  same : after.1.map Marked.source = blocks.map Marked.source
  grows : visited ⊆ after.2
  bounded : ∀ t ∈ after.2, t ∈ visited ∨ Refers blocks t
  covered : ∀ blk ∈ after.1, Covered blk.ins after.2
  outside : Outside justTheLoop after.1
  settled : AllSettled names justTheLoop after.1 after.2

/-- What is referred to does not depend on the marks. -/
theorem refers_iff {blocks : List Marked} {t : ℕ} :
    Refers blocks t ↔ ∃ src ∈ blocks.map Marked.source, ∃ ins ∈ src.2, t ∈ ins.temps := by
  constructor
  · rintro ⟨blk, hblk, p, hp, ht⟩
    exact ⟨blk.source, List.mem_map_of_mem hblk, p.1, List.mem_map_of_mem hp, ht⟩
  · rintro ⟨src, hsrc, ins, hins, ht⟩
    obtain ⟨blk, hblk, rfl⟩ := List.mem_map.1 hsrc
    obtain ⟨p, hp, rfl⟩ := List.mem_map.1 hins
    exact ⟨blk, hblk, p, hp, ht⟩

/-- A round marks a temporary more or is the last, and there are only so many of them. -/
theorem rounds_spec {temps : Finset ℕ} (turns : ℕ) (blocks : List Marked) (visited : Finset ℕ)
    (hturns : (temps \ visited).card < turns) (htemps : ∀ t, Refers blocks t → t ∈ temps)
    (hcovered : ∀ blk ∈ blocks, Covered blk.ins visited) (houtside : Outside justTheLoop blocks) :
    ∃ after, rounds names justTheLoop inRegalloc turns blocks visited = some after ∧
      Found names justTheLoop blocks visited after := by
  induction turns generalizing blocks visited with
  | zero => cases hturns
  | succ turns ih =>
    have hround := @checkBlocks_spec names justTheLoop inRegalloc blocks visited
    unfold rounds
    dsimp only
    generalize checkBlocks names justTheLoop inRegalloc blocks visited = check at hround
    have hrefers : ∀ t, Refers check.1 t ↔ Refers blocks t := fun t => by rw [refers_iff, hround.same, ← refers_iff]
    split_ifs with hchange
    · have hnew : ∃ t ∈ check.2.1, t ∉ visited := by
        by_contra hnone
        push Not at hnone
        exact absurd (hround.changed.2 (Finset.Subset.antisymm hnone hround.grows)) (by rw [hchange]; decide)
      obtain ⟨t, htcheck, htvisited⟩ := hnew
      have hless : (temps \ check.2.1).card < (temps \ visited).card := by
        refine Finset.card_lt_card ⟨Finset.sdiff_subset_sdiff (Finset.Subset.refl _) hround.grows, fun hsub => ?_⟩
        have ht : t ∈ temps \ visited :=
          Finset.mem_sdiff.2 ⟨htemps t ((hround.bounded t htcheck).resolve_left htvisited), htvisited⟩
        exact (Finset.mem_sdiff.1 (hsub ht)).2 htcheck
      obtain ⟨after, hafter, hfound⟩ := ih check.1 check.2.1 (by omega) (fun t ht => htemps t ((hrefers t).1 ht))
        (hround.covered hcovered) (hround.outside houtside)
      refine ⟨after, hafter, hfound.same.trans hround.same, hround.grows.trans hfound.grows, ?_, hfound.covered,
        hfound.outside, hfound.settled⟩
      intro t ht
      rcases hfound.bounded t ht with hcheck | href
      · exact hround.bounded t hcheck
      · exact Or.inr ((hrefers t).1 href)
    · have hsame := Bool.eq_false_iff.2 hchange
      refine ⟨_, rfl, hround.same, hround.grows, hround.bounded, hround.covered hcovered, hround.outside houtside, ?_⟩
      rw [hround.changed.1 hsame]
      exact hround.settled hsame

/-- Outside the loop all that an instruction refers to is marked. -/
theorem markAll_spec (ins : List (Ins × Bool)) (visited : Finset ℕ) :
    let after :=
      ins.foldr (fun ins visited => (markResult ins.1.result (markOperands ins.1.operands visited).1).1) visited
    visited ⊆ after ∧ (∀ t ∈ after, t ∈ visited ∨ ∃ p ∈ ins, t ∈ p.1.temps) ∧ ∀ p ∈ ins, p.1.temps ⊆ after := by
  induction ins with
  | nil => exact ⟨Finset.Subset.refl _, fun t ht => Or.inl ht, fun p hp => (by cases hp)⟩
  | cons ins rest ih =>
    dsimp only [List.foldr_cons]
    rw [(markResult_spec _ _).1, (markOperands_spec _ _).1, Finset.union_assoc]
    refine ⟨ih.1.trans Finset.subset_union_left, ?_, ?_⟩
    · intro t ht
      rcases Finset.mem_union.1 ht with hafter | hins
      · exact (ih.2.1 t hafter).imp_right fun ⟨p, hp, htp⟩ => ⟨p, List.mem_cons_of_mem _ hp, htp⟩
      · exact Or.inr ⟨ins, List.mem_cons_self, hins⟩
    · intro p hp
      rcases List.mem_cons.1 hp with rfl | hp
      · exact Finset.subset_union_right
      · exact (ih.2.2 p hp).trans Finset.subset_union_left

theorem markOutside_spec (blocks : List Marked) (visited : Finset ℕ)
    (hcovered : ∀ blk ∈ blocks, Covered blk.ins visited) :
    (markOutside blocks visited).1.map Marked.source = blocks.map Marked.source ∧
      visited ⊆ (markOutside blocks visited).2 ∧
      (∀ t ∈ (markOutside blocks visited).2, t ∈ visited ∨ Refers blocks t) ∧
      (∀ blk ∈ (markOutside blocks visited).1, Covered blk.ins (markOutside blocks visited).2) ∧
      Outside true (markOutside blocks visited).1 := by
  induction blocks with
  | nil =>
    exact ⟨rfl, Finset.Subset.refl _, fun t ht => Or.inl ht, fun blk hblk => (by cases hblk),
      fun blk hblk => (by cases hblk)⟩
  | cons blk rest ih =>
    obtain ⟨hsame, hgrows, hbounded, hcover, houtside⟩ := ih fun b hb => hcovered b (List.mem_cons_of_mem _ hb)
    unfold markOutside
    dsimp only
    split_ifs with hloop
    · refine ⟨congrArg (List.cons _) hsame, hgrows, fun t ht => (hbounded t ht).imp_right Refers.cons, ?_, ?_⟩
      · intro b hb
        rcases List.mem_cons.1 hb with rfl | hb
        · exact (hcovered b List.mem_cons_self).mono hgrows
        · exact hcover b hb
      · intro b hb hout
        rcases List.mem_cons.1 hb with rfl | hb
        · cases (show b.block.inLoop = false from hout).symm.trans hloop
        · exact houtside b hb hout
    · obtain ⟨hmore, hfrom, hall⟩ := markAll_spec blk.ins (markOutside rest visited).2
      refine ⟨congrArg₂ List.cons ?_ hsame, hgrows.trans hmore, ?_, ?_, ?_⟩
      · simp [Marked.source, Function.comp_def]
      · intro t ht
        rcases hfrom t ht with hafter | ⟨p, hp, htp⟩
        · exact (hbounded t hafter).imp_right Refers.cons
        · exact Or.inr ⟨blk, List.mem_cons_self, p, hp, htp⟩
      · intro b hb
        rcases List.mem_cons.1 hb with rfl | hb
        · intro p hp _
          obtain ⟨q, hq, rfl⟩ := List.mem_map.1 hp
          exact hall q hq
        · exact (hcover b hb).mono hmore
      · intro b hb hout
        rcases List.mem_cons.1 hb with rfl | hb
        · intro p hp
          obtain ⟨q, hq, rfl⟩ := List.mem_map.1 hp
          rfl
        · exact houtside b hb hout

theorem unmarked_covered (blocks : List Block) (visited : Finset ℕ) :
    ∀ blk ∈ unmarked blocks, Covered blk.ins visited := by
  intro blk hblk p hp hflag
  obtain ⟨src, -, rfl⟩ := List.mem_map.1 hblk
  obtain ⟨ins, -, rfl⟩ := List.mem_map.1 hp
  cases hflag

theorem unmarked_refers {blocks : List Block} {t : ℕ} : Refers (unmarked blocks) t ↔ Occurs t blocks := by
  constructor
  · rintro ⟨blk, hblk, p, hp, ht⟩
    obtain ⟨src, hsrc, rfl⟩ := List.mem_map.1 hblk
    obtain ⟨ins, hins, rfl⟩ := List.mem_map.1 hp
    exact ⟨src, hsrc, ins, hins, ht⟩
  · rintro ⟨src, hsrc, ins, hins, ht⟩
    exact ⟨_, List.mem_map_of_mem hsrc, (ins, false), List.mem_map_of_mem hins, ht⟩

/-- `FindUsefulIns` ends, for at most as many rounds as there are temporaries and one more. -/
theorem findUsefulIns_spec {temps : Finset ℕ} (turns : ℕ) (blocks : List Block) (visited : Finset ℕ)
    (hturns : temps.card < turns) (htemps : ∀ t, Occurs t blocks → t ∈ temps) :
    ∃ after, findUsefulIns names justTheLoop inRegalloc turns (unmarked blocks) visited = some after ∧
      Found names justTheLoop (unmarked blocks) visited after := by
  have hless : ∀ visited' : Finset ℕ, (temps \ visited').card < turns := fun visited' =>
    (Finset.card_le_card Finset.sdiff_subset).trans_lt hturns
  have hrefers : ∀ t, Refers (unmarked blocks) t → t ∈ temps := fun t ht => htemps t (unmarked_refers.1 ht)
  unfold findUsefulIns
  cases justTheLoop with
  | false =>
    exact rounds_spec turns _ visited (hless visited) hrefers (unmarked_covered blocks visited)
      fun blk _ hout => (by cases hout)
  | true =>
    obtain ⟨hsame, hgrows, hbounded, hcover, houtside⟩ := markOutside_spec _ _ (unmarked_covered blocks visited)
    have hsources : ∀ t, Refers (markOutside (unmarked blocks) visited).1 t ↔ Refers (unmarked blocks) t := fun t => by
      rw [refers_iff, hsame, ← refers_iff]
    obtain ⟨after, hafter, hfound⟩ := @rounds_spec names true inRegalloc temps turns _ _ (hless _)
      (fun t ht => hrefers t ((hsources t).1 ht)) hcover houtside
    refine ⟨after, hafter, hfound.same.trans hsame, hgrows.trans hfound.grows, ?_, hfound.covered, hfound.outside,
      hfound.settled⟩
    intro t ht
    rcases hfound.bounded t ht with houter | href
    · exact hbounded t houter
    · exact Or.inr ((hsources t).1 href)

end

/-! ## Two states that agree -/

section

variable {α β ω : Type} {names : Names} {M : Machine α β ω} {visited : Finset ℕ} {σ σ' : State α ω}

/-- The states differ in temporaries only that are neither marked nor have their address taken. -/
def Agree (names : Names) (visited : Finset ℕ) (σ σ' : State α ω) : Prop :=
  σ.world = σ'.world ∧ ∀ t, t ∈ visited ∨ (names.usage t).address = true → σ.temp t = σ'.temp t

theorem Agree.taken (h : Agree names visited σ σ') : taken names σ = taken names σ' := by
  funext t
  unfold InsDead.taken
  split_ifs with haddress
  · rw [h.2 t (Or.inr haddress)]
  · rfl

theorem Agree.baseOf (h : Agree names visited σ σ') {base : Name} (hbase : base.temps ⊆ visited) :
    baseOf σ base = baseOf σ' base := by
  cases base with
  | temp t offset size => exact congrArg some (h.2 t (Or.inl (Finset.singleton_subset_iff.1 hbase)))
  | _ => rfl

theorem Agree.eval (h : Agree names visited σ σ') {op : Name} (hop : op.temps ⊆ visited) :
    eval names M σ op = eval names M σ' op := by
  induction op with
  | temp t offset size =>
    unfold InsDead.eval
    rw [h.2 t (Or.inl (Finset.singleton_subset_iff.1 hop))]
  | indexed x index ih =>
    unfold InsDead.eval
    rw [ih hop, h.taken, h.1]
  | bound x index base ih _ =>
    have hsub := Finset.union_subset_iff.1 hop
    unfold InsDead.eval
    rw [ih hsub.1, h.baseOf hsub.2, h.taken, h.1]
  | _ =>
    unfold InsDead.eval
    rw [h.1]

theorem Agree.setTaken (h : Agree names visited σ σ') (temp : ℕ → α) (world : ω) :
    Agree names visited (σ.setTaken names temp world) (σ'.setTaken names temp world) := by
  refine ⟨rfl, fun t ht => ?_⟩
  unfold State.setTaken
  dsimp only
  split_ifs with haddress
  · rfl
  · exact h.2 t ht

theorem Agree.update (h : Agree names visited σ σ') (t : ℕ) (c : α) :
    Agree names visited { σ with temp := Function.update σ.temp t c }
      { σ' with temp := Function.update σ'.temp t c } := by
  refine ⟨h.1, fun u hu => ?_⟩
  by_cases hut : u = t
  · rw [hut]
    simp
  · simp only [Function.update_of_ne hut]
    exact h.2 u hu

theorem Agree.setBase (h : Agree names visited σ σ') (base : Name) (contents : Option α) :
    Agree names visited (σ.setBase base contents) (σ'.setBase base contents) := by
  unfold State.setBase
  split
  · exact h.update _ _
  · exact h

theorem Agree.assign (h : Agree names visited σ σ') {result : Option Name}
    (hresult : result.elim ∅ Name.temps ⊆ visited) (value : β) :
    Agree names visited (assign names M σ result value) (assign names M σ' result value) := by
  unfold InsDead.assign
  split
  · rename_i t offset size
    rw [h.2 t (Or.inl (Finset.singleton_subset_iff.1 hresult))]
    exact h.update t _
  · exact ⟨by rw [h.1], h.2⟩
  · exact ⟨by rw [h.1], h.2⟩
  · rename_i x index
    have hindex : InsDead.eval names M σ index = InsDead.eval names M σ' index := h.eval hresult
    dsimp only
    rw [hindex, h.taken, h.1]
    exact h.setTaken _ _
  · have hsub := Finset.union_subset_iff.1 hresult
    dsimp only
    rw [h.eval hsub.1, h.baseOf hsub.2, h.taken, h.1]
    exact (h.setTaken _ _).setBase _ _
  · exact h

theorem Agree.indexOf (h : Agree names visited σ σ') {result : Option Name}
    (hresult : result.elim ∅ Name.temps ⊆ visited) : indexOf names M σ result = indexOf names M σ' result := by
  unfold InsDead.indexOf
  split
  · exact congrArg some (h.eval hresult)
  · exact congrArg some (h.eval (Finset.union_subset_iff.1 hresult).1)
  · rfl

theorem Agree.operands (h : Agree names visited σ σ') {operands : List Name}
    (hoperands : operandTemps operands ⊆ visited) :
    operands.map (InsDead.eval names M σ) = operands.map (InsDead.eval names M σ') := by
  induction operands with
  | nil => rfl
  | cons op operands ih =>
    have hsub := Finset.union_subset_iff.1 hoperands
    exact congrArg₂ List.cons (h.eval hsub.1) (ih hsub.2)

/-- An instruction that refers to marked temporaries only does the same in two states that agree. -/
theorem Agree.exec (h : Agree names visited σ σ') {ins : Ins} (hins : ins.temps ⊆ visited) :
    (exec names M ins σ).2 = (exec names M ins σ').2 ∧
      Agree names visited (exec names M ins σ).1 (exec names M ins σ').1 := by
  have hsub := Finset.union_subset_iff.1 hins
  unfold InsDead.exec
  dsimp only
  rw [h.operands hsub.1, h.taken, h.1]
  cases ins.doesSomething with
  | false => exact ⟨rfl, h⟩
  | true =>
    cases names.acts ins with
    | false =>
      simp only [Bool.not_true, Bool.false_eq_true, if_false]
      rw [h.indexOf hsub.2]
      exact ⟨rfl, h.assign hsub.2 _⟩
    | true =>
      have hstate := h.setTaken
        (M.act ins (ins.operands.map (InsDead.eval names M σ')) (InsDead.taken names σ') σ'.world).temp
        (M.act ins (ins.operands.map (InsDead.eval names M σ')) (InsDead.taken names σ') σ'.world).world
      simp only [Bool.not_true, Bool.false_eq_true, if_false, if_true]
      rw [hstate.indexOf hsub.2]
      exact ⟨rfl, hstate.assign hsub.2 _⟩

theorem acts_eq_false {ins : Ins} (h : ¬ names.observable ins) : names.acts ins = false := by
  unfold Names.observable Names.sideEffect at h
  unfold Names.acts
  push Not at h
  obtain ⟨hkind, hside, -⟩ := h
  split_ifs at hside with hpush hpop hcc hfp
  · cases hside rfl
  · cases hside rfl
  · cases hside rfl
  · cases hside rfl
  · simp only [Bool.or_eq_false_iff, Bool.and_eq_false_iff, decide_eq_false_iff_not, ne_eq, not_not]
    refine ⟨⟨⟨?_, ?_⟩, by simpa using hfp⟩, by simpa using hside⟩
    · by_cases hmov : ins.kind = .mov
      · exact Or.inl hmov
      · exact Or.inr (hkind hmov)
    · by_cases hused : ins.ccUsed = true
      · exact Or.inr (by by_contra hmov; exact hcc ⟨hused, hmov⟩)
      · exact Or.inl (by simpa using hused)

/-- An instruction that is not useful changes no more than temporaries that are neither marked nor have their address
taken. -/
theorem exec_dead {ins : Ins} (hdead : ins.doesSomething = false ∨ ¬ Useful names visited ins)
    (haddress : ∀ t ∈ ins.temps, (names.usage t).address = true → t ∈ visited) :
    (exec names M ins σ).2 = (none, none) ∧ Agree names visited (exec names M ins σ).1 σ := by
  have hrefl : Agree names visited σ σ := ⟨rfl, fun t _ => rfl⟩
  unfold exec
  dsimp only
  cases hdoes : ins.doesSomething with
  | false => exact ⟨rfl, hrefl⟩
  | true =>
    have hnot := hdead.resolve_left (by rw [hdoes]; decide)
    have hobservable : ¬ names.observable ins := fun h => hnot (Or.inl h)
    have hstored : isStored ins.result = false := by
      rw [← Bool.not_eq_true]
      exact fun h => hobservable (Or.inr (Or.inr h))
    rw [acts_eq_false hobservable, hstored]
    refine ⟨rfl, ?_⟩
    simp only [Bool.not_true, Bool.false_eq_true, if_false]
    unfold assign
    split
    · rename_i t offset size hresult
      refine ⟨rfl, fun u hu => Function.update_of_ne ?_ _ _⟩
      rintro rfl
      have hmem : u ∈ ins.temps := by
        unfold Ins.temps
        rw [hresult]
        exact Finset.mem_union_right _ (Finset.mem_singleton_self u)
      have hunmarked : u ∉ visited := fun hu => hnot (Or.inr ⟨u, offset, size, hresult, hu⟩)
      exact hunmarked (hu.elim id (haddress u hmem))
    all_goals first | exact hrefl | (rename_i hresult; rw [hresult] at hstored; cases hstored)

/-- The instructions that are left do the same as all of them. -/
theorem execAll_kept {ins : List (Ins × Bool)} (hcovered : Covered ins visited) (hsettled : Settled names ins visited)
    (haddress : ∀ p ∈ ins, ∀ t ∈ p.1.temps, (names.usage t).address = true → t ∈ visited)
    (h : Agree names visited σ σ') (edge : ℕ) :
    (execAll names M ((ins.filter fun p => p.2).map Prod.fst) σ edge).2 =
        (execAll names M (ins.map Prod.fst) σ' edge).2 ∧
      Agree names visited (execAll names M ((ins.filter fun p => p.2).map Prod.fst) σ edge).1
        (execAll names M (ins.map Prod.fst) σ' edge).1 := by
  induction ins generalizing σ σ' edge with
  | nil => exact ⟨rfl, h⟩
  | cons p rest ih =>
    have hrest := fun {τ τ'} (hτ : Agree names visited τ τ') edge => ih
      (fun q hq => hcovered q (List.mem_cons_of_mem p hq)) (fun q hq => hsettled q (List.mem_cons_of_mem p hq))
      (fun q hq => haddress q (List.mem_cons_of_mem p hq)) hτ edge
    obtain ⟨ins, flag⟩ := p
    cases flag with
    | true =>
      have hstep := h.exec (M := M) (hcovered _ List.mem_cons_self rfl)
      have hafter := hrest hstep.2 ((exec names M ins σ').2.1.getD edge)
      simp only [List.filter_cons_of_pos, List.map_cons, execAll]
      rw [hstep.1, hafter.1]
      exact ⟨rfl, hafter.2⟩
    | false =>
      have hdead := @exec_dead _ _ _ names M visited σ' ins (hsettled _ List.mem_cons_self rfl)
        (haddress _ List.mem_cons_self)
      have hstep : Agree names visited σ (exec names M ins σ').1 :=
        ⟨h.1.trans hdead.2.1.symm, fun t ht => (h.2 t ht).trans (hdead.2.2 t ht).symm⟩
      have hafter := hrest hstep edge
      simp only [List.map_cons, execAll]
      rw [hdead.1]
      exact hafter

/-- A block with the marked instructions. -/
def Marked.kept (blk : Marked) : Block := { blk.block with ins := (blk.ins.filter fun p => p.2).map Prod.fst }

/-- The marks of a block are such that the other instructions can be removed. -/
structure Sound (names : Names) (visited : Finset ℕ) (blk : Marked) : Prop where
  source : blk.ins.map Prod.fst = blk.block.ins
  covered : Covered blk.ins visited
  settled : Settled names blk.ins visited
  address : ∀ p ∈ blk.ins, ∀ t ∈ p.1.temps, (names.usage t).address = true → t ∈ visited

theorem run_kept {blocks : List Marked} (hsound : ∀ blk ∈ blocks, Sound names visited blk) (n label : ℕ)
    (h : Agree names visited σ σ') :
    run names M (blocks.map Marked.kept) n label σ = run names M (blocks.map Marked.block) n label σ' := by
  induction n generalizing label σ σ' with
  | zero => rfl
  | succ n ih =>
    have hlabel : (fun blk : Block => decide (blk.label = label)) ∘ Marked.kept =
        (fun blk : Block => decide (blk.label = label)) ∘ Marked.block := rfl
    unfold run
    rw [List.find?_map, List.find?_map, hlabel]
    cases hfind : blocks.find? ((fun blk : Block => decide (blk.label = label)) ∘ Marked.block) with
    | none => rfl
    | some blk =>
      have hblk := hsound blk (List.mem_of_find?_eq_some hfind)
      have hexec := execAll_kept (M := M) hblk.covered hblk.settled hblk.address h 0
      rw [hblk.source] at hexec
      dsimp only [Option.map_some]
      change (execAll names M blk.kept.ins σ 0).2 = _ ∧
        Agree names visited (execAll names M blk.kept.ins σ 0).1 _ at hexec
      rw [hexec.1]
      refine congrArg _ ?_
      change (match blk.block.succ _ with | none => [] | some next => run names M _ n next _) = _
      cases blk.block.succ (execAll names M blk.block.ins σ' 0).2.1 with
      | none => rfl
      | some next => exact ih next hexec.2

end

/-! ## The routine that is left -/

section

variable {names : Names} {justTheLoop : Bool} {blocks : List Block} {visited : Finset ℕ}
  {after : List Marked × Finset ℕ}

theorem Found.blocks_eq (h : Found names justTheLoop (unmarked blocks) visited after) :
    after.1.map Marked.block = blocks := by
  have hsame := congrArg (List.map Prod.fst) h.same
  rw [List.map_map, List.map_map, unmarked, List.map_map] at hsame
  exact hsame.trans (List.map_id blocks)

theorem Found.source (h : Found names justTheLoop (unmarked blocks) visited after) {blk : Marked}
    (hblk : blk ∈ after.1) : blk.ins.map Prod.fst = blk.block.ins := by
  have hmem : blk.source ∈ (unmarked blocks).map Marked.source := by
    rw [← h.same]
    exact List.mem_map_of_mem hblk
  obtain ⟨src, hsrc, heq⟩ := List.mem_map.1 hmem
  obtain ⟨before, -, rfl⟩ := List.mem_map.1 hsrc
  have hblock : before = blk.block := congrArg Prod.fst heq
  have hins : (before.ins.map fun ins => (ins, false)).map Prod.fst = blk.ins.map Prod.fst := congrArg Prod.snd heq
  rw [← hins, List.map_map, ← hblock]
  exact List.map_id _

theorem Found.occurs (h : Found names justTheLoop (unmarked blocks) visited after) {blk : Marked} (hblk : blk ∈ after.1)
    {p : Ins × Bool} (hp : p ∈ blk.ins) {t : ℕ} (ht : t ∈ p.1.temps) : Occurs t blocks := by
  refine ⟨blk.block, ?_, p.1, ?_, ht⟩
  · rw [← h.blocks_eq]
    exact List.mem_map_of_mem hblk
  · rw [← h.source hblk]
    exact List.mem_map_of_mem hp

/-- `FreeUselessIns` leaves the marked instructions, and outside the loop these are all of them. -/
theorem Found.free_eq (h : Found names justTheLoop (unmarked blocks) visited after) :
    freeUselessIns justTheLoop after.1 = after.1.map Marked.kept := by
  refine List.map_congr_left fun blk hblk => ?_
  split_ifs with hout
  · have hall := h.outside blk hblk (by simp only [Bool.and_eq_true, Bool.not_eq_true'] at hout; simp [hout.1, hout.2])
    unfold Marked.kept
    rw [List.filter_eq_self.2 hall, h.source hblk]
  · rfl

/-- An instruction of a block that is not marked is not useful, in the loop or not. -/
theorem Found.settled_all (h : Found names justTheLoop (unmarked blocks) visited after) :
    ∀ blk ∈ after.1, Settled names blk.ins after.2 := by
  intro blk hblk p hp hflag
  cases hin : (!justTheLoop || blk.block.inLoop) with
  | true => exact h.settled blk hblk hin p hp hflag
  | false => cases (h.outside blk hblk hin p hp).symm.trans hflag

/-- The marks are sound for more temporaries too, if none of the others occurs in the blocks. -/
theorem Found.sound (h : Found names justTheLoop (unmarked blocks) visited after) {more : Finset ℕ}
    (hmore : after.2 ⊆ more) (hother : ∀ t ∈ more, Occurs t blocks → t ∈ after.2)
    (haddress : ∀ t, Occurs t blocks → (names.usage t).address = true → t ∈ visited) :
    ∀ blk ∈ after.1, Sound names more blk := by
  refine fun blk hblk => ⟨h.source hblk, (h.covered blk hblk).mono hmore, ?_, ?_⟩
  · intro p hp hflag
    refine (h.settled_all blk hblk p hp hflag).imp_right ?_
    rintro hnot (hobservable | ⟨t, offset, size, hresult, ht⟩)
    · exact hnot (Or.inl hobservable)
    · have hmem : t ∈ p.1.temps := by
        unfold Ins.temps
        rw [hresult]
        exact Finset.mem_union_right _ (Finset.mem_singleton_self t)
      exact hnot (Or.inr ⟨t, offset, size, hresult, hother t ht (h.occurs hblk hp hmem)⟩)
  · exact fun p hp t ht hadd => hmore (h.grows (haddress t (h.occurs hblk hp ht) hadd))

theorem freeUselessIns_outside (marked : List Marked) :
    List.Forall₂ (fun left before : Block => before.inLoop = false → left = before)
      (freeUselessIns true marked) (marked.map Marked.block) := by
  induction marked with
  | nil => exact List.Forall₂.nil
  | cons blk rest ih =>
    refine List.Forall₂.cons (fun hout => ?_) ih
    simp [hout]

end

theorem occurs_append {t : ℕ} {blocks blocks' : List Block} :
    Occurs t (blocks ++ blocks') ↔ Occurs t blocks ∨ Occurs t blocks' := by
  unfold Occurs
  simp only [List.mem_append, or_and_right, exists_or]

theorem mem_initVisitedTemps {names : Names} {t : ℕ} (ht : t ∈ names.temps)
    (h : (names.usage t).address = true ∨ names.blockByBlock = true ∧ (names.usage t).inAnotherBlock = true) :
    t ∈ initVisitedTemps names := by
  refine Finset.mem_filter.2 ⟨ht, ?_⟩
  rcases h with haddress | ⟨hblock, hother⟩
  · simp [haddress]
  · simp [hblock, hother]

/-- Moves between words. -/
def words : Machine ℕ ℕ Unit where
  get contents _ _ := contents
  set _ _ _ value := value
  read op _ := match op with
    | .constant c => c
    | _ => 0
  write _ _ w := w
  load _ _ _ _ _ := 0
  store _ _ _ _ _ _ := (none, fun _ => 0, ())
  compute _ operands _ := operands.headD 0
  act _ operands _ _ := ⟨operands.headD 0, 0, fun _ => 0, ()⟩

def move (op result : Name) : Ins := ⟨0, .mov, false, false, true, [op], some result⟩

/-- Two temporaries get a value, and a block of the other part stores the first one. -/
def broken : Routine where
  blocks := [⟨1, false, [move (.constant 7) (.temp 0 0 2), move (.constant 8) (.temp 1 0 2)], fun _ => some 2⟩]
  tail := [⟨2, false, [move (.temp 0 0 2) (.memory 0)], fun _ => none⟩]

/-- The names of it, where the first temporary is used in another block. -/
def crossing (blockByBlock : Bool) : Names where
  usage t := ⟨false, false, blockByBlock && t == 0, false⟩
  memoryVolatile _ := false
  indexVolatile _ := false
  temps := {0, 1}
  noOptimization := false
  blockByBlock := blockByBlock

end OpenWatcom.InsDead
