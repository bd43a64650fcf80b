import Mathlib.Tactic

/-! # Redefinition of operands

`ReDefinedBy` says whether an instruction can change the value of an operand, from the classes of its result and of the
operand and from the alias model. The machine has no store of unaligned words and no partial restore at `setjmp`. -/

namespace OpenWatcom.ReDefined

/-- `bool_maybe`. -/
inductive BoolMaybe
  | MB_FALSE | MB_TRUE | MB_MAYBE
  deriving DecidableEq

/-- `cg_class`. -/
inductive CgClass
  | CG_FE | CG_LBL | CG_BACK | CG_TBL | CG_VTB | CG_CLB
  deriving DecidableEq

/-- `USE_ADDRESS`, `VAR_VOLATILE` and `VAR_CONSTANT`. -/
structure Usage where
  address : Bool
  volatile : Bool
  constant : Bool

structure TempName where
  offset : ℤ
  size : ℕ
  usage : Usage
  /-- `temp_flags & ALIAS`. -/
  isAlias : Bool
  target : ℕ

structure MemoryName where
  symbol : ℕ
  offset : ℤ
  size : ℕ
  usage : Usage
  memoryType : CgClass

/-- A variable, by the number of its name. -/
inductive Var
  | temp (t : ℕ)
  | memory (m : ℕ)
  deriving DecidableEq

/-- The names that an index can be. -/
inductive Simple (w : ℕ)
  | var (v : Var)
  | register (reg : BitVec w)
  | constant (c : ℕ)
  deriving DecidableEq

structure IndexedName (w : ℕ) where
  index : Simple w
  base : Option Var
  constant : ℤ
  size : ℕ
  flags : BitVec 16
  scale : ℕ
  /-- What is found where `USE_ADDRESS` stands in a variable. -/
  usageAddress : Bool

inductive Name (w : ℕ)
  | simple (s : Simple w)
  | indexed (x : IndexedName w)

/-- The names of a function and the settings; from every part of a temporary the aliases lead to its own name. -/
structure Names (w : ℕ) where
  temp : ℕ → TempName
  memory : ℕ → MemoryName
  fortranAliasing : Bool
  relaxAlias : Bool
  feVisible : ℕ → Bool
  feConstant : ℕ → Bool
  nameIsROM : ℕ → CgClass → Bool
  displayReg : BitVec w
  alias_ends : ∀ t, ∃ n, (temp ((fun t => (temp t).target)^[n] t)).isAlias = false

structure Instruction (w : ℕ) where
  result : Option (Name w)
  zap : BitVec w
  isCall : Bool
  /-- `CALL_WRITES_NO_MEMORY`. -/
  writesNoMemory : Bool

/-- `X_VOLATILE`. -/
def IndexedName.volatile {w : ℕ} (x : IndexedName w) : Bool := x.flags &&& 2 != 0

/-- `HW_Ovlap`. -/
def ovlap {w : ℕ} (a b : BitVec w) : Bool := a &&& b != 0

def ofBool (b : Bool) : BoolMaybe := if b then .MB_TRUE else .MB_FALSE

/-- `TempsOverlap`. -/
def tempsOverlap (offset1 : ℤ) (size1 : ℕ) (offset2 : ℤ) (size2 : ℕ) : Bool :=
  let end1 := offset1 + size1 - 1
  let end2 := offset2 + size2 - 1
  if offset2 > end1 ∨ end2 < offset1 then false else true

namespace Names

variable {w : ℕ} (N : Names w)

/-- `DeAlias`. -/
def deAlias (t : ℕ) : ℕ := (fun t => (N.temp t).target)^[Nat.find (N.alias_ends t)] t

/-- `ZapsMemory`. A base is a variable, so that the call of itself is for a variable. -/
def zapsMemory (result : Name w) (op : MemoryName) (forIndex : Bool) : Bool :=
  match result with
  | .simple (.var (.temp _)) => false
  | .simple (.var (.memory m)) =>
    if (N.memory m).symbol ≠ op.symbol then false
    else if forIndex then true
    else tempsOverlap (N.memory m).offset (N.memory m).size op.offset op.size
  | .indexed x =>
    match x.base with
    | none => if N.fortranAliasing then false else if op.usage.address then true else !N.relaxAlias
    | some (.temp _) => !N.relaxAlias
    | some (.memory b) => if (N.memory b).symbol ≠ op.symbol then false else true
  | .simple (.register _) => false
  | .simple (.constant _) => false

/-- `ZapsTemp`. -/
def zapsTemp (result : Name w) (op : ℕ) (forIndex : Bool) : Bool :=
  match result with
  | .simple (.var (.temp t)) =>
    if N.deAlias t ≠ N.deAlias op then false
    else if forIndex then true
    else tempsOverlap (N.temp op).offset (N.temp op).size (N.temp t).offset (N.temp t).size
  | .simple (.var (.memory _)) => false
  | .indexed x =>
    let sameBase := match x.base with
      | some (.temp b) => decide (N.deAlias b = N.deAlias op)
      | _ => false
    if sameBase then true
    else if !(N.temp op).usage.address then false
    else x.base.isNone
  | .simple (.register reg) => ovlap reg N.displayReg
  | .simple (.constant _) => false

/-- `ZapsTheOp` for a variable. -/
def zapsVar (result : Name w) : Var → BoolMaybe
  | .memory m => if (N.memory m).usage.volatile then .MB_TRUE else ofBool (N.zapsMemory result (N.memory m) false)
  | .temp t => if (N.temp t).usage.volatile then .MB_TRUE else ofBool (N.zapsTemp result t false)

/-- `ZapsTheOp` for a name that is not indexed. -/
def zapsSimple (result : Name w) : Simple w → BoolMaybe
  | .var v => N.zapsVar result v
  | .register reg =>
    match result with
    | .simple (.register r) => if ovlap r reg then .MB_TRUE else .MB_FALSE
    | _ => .MB_FALSE
  | .constant _ => .MB_FALSE

/-- `ZapsIndexed`. -/
def zapsIndexed (result : Name w) (op : IndexedName w) : BoolMaybe :=
  match result with
  | .simple (.var (.temp t)) =>
    let root := N.deAlias t
    let byBase := match op.base with
      | none => (N.temp root).usage.address
      | some (.temp b) => decide (root = N.deAlias b)
      | some (.memory _) => false
    if byBase then .MB_TRUE
    else
      match op.index with
      | .var (.temp i) => if root = N.deAlias i then .MB_TRUE else .MB_FALSE
      | _ => .MB_FALSE
  | .simple (.var (.memory _)) =>
    match op.base with
    | none =>
      if N.fortranAliasing then .MB_FALSE
      else if op.usageAddress then .MB_TRUE
      else if N.relaxAlias then .MB_FALSE else .MB_TRUE
    | some (.temp _) => if N.relaxAlias then .MB_FALSE else .MB_TRUE
    | some (.memory b) => ofBool (N.zapsMemory result (N.memory b) true)
  | .indexed x =>
    if x.base = op.base ∧ x.index = op.index ∧ x.flags = op.flags ∧ x.scale = op.scale ∧
        (x.constant ≥ op.constant + op.size ∨ op.constant ≥ x.constant + x.size) then .MB_MAYBE
    else
      match x.base, op.base with
      | none, _ => .MB_TRUE
      | _, none => .MB_TRUE
      | some (.temp b), some (.temp b') => ofBool (N.zapsTemp (.simple (.var (.temp b))) b' true)
      | some (.memory b), some (.memory b') => ofBool (N.zapsMemory (.simple (.var (.memory b))) (N.memory b') true)
      | _, _ => .MB_FALSE
  | .simple (.register _) =>
    if op.base.any fun b => N.zapsVar result b != .MB_FALSE then .MB_TRUE else N.zapsSimple result op.index
  | .simple (.constant _) => .MB_FALSE

/-- `ZapsTheOp`. -/
def zapsTheOp (result : Option (Name w)) (op : Name w) : BoolMaybe :=
  match result with
  | none => .MB_FALSE
  | some result =>
    match op with
    | .simple s => N.zapsSimple result s
    | .indexed x => if x.volatile then .MB_TRUE else N.zapsIndexed result x

/-- `NameIsConstant` for a name that is not indexed. -/
def simpleIsConstant : Simple w → Bool
  | .var (.temp t) => (N.temp t).usage.constant
  | .var (.memory m) =>
    let op := N.memory m
    if op.usage.volatile then false
    else if op.usage.constant then true
    else if op.memoryType = .CG_FE ∧ N.feConstant op.symbol then true
    else N.nameIsROM op.symbol op.memoryType
  | _ => false

/-- `VisibleToCall` for a name that is not indexed, of a call that modifies. -/
def simpleVisible (ins : Instruction w) : Simple w → BoolMaybe
  | .var (.memory m) =>
    if ins.writesNoMemory then .MB_FALSE
    else if N.fortranAliasing then
      match (N.memory m).memoryType with
      | .CG_FE => if !N.feVisible (N.memory m).symbol then .MB_FALSE else .MB_TRUE
      | .CG_BACK | .CG_TBL | .CG_VTB => .MB_FALSE
      | _ => .MB_TRUE
    else .MB_TRUE
  | .var (.temp t) => if (N.temp t).usage.address then .MB_TRUE else .MB_FALSE
  | _ => .MB_FALSE

/-- What the result says, or else for a call what it can see. -/
def andCall (ins : Instruction w) (zaps visible : BoolMaybe) : BoolMaybe :=
  if zaps ≠ .MB_FALSE then zaps else if !ins.isCall then .MB_FALSE else visible

/-- `ReDefinedBy` for a name that is not indexed. -/
def simpleReDefinedBy (ins : Instruction w) (op : Simple w) : BoolMaybe :=
  let zapped := match op with
    | .register reg => ovlap ins.zap reg
    | _ => false
  if zapped then .MB_TRUE
  else if N.simpleIsConstant op then .MB_FALSE
  else andCall ins (N.zapsTheOp ins.result (.simple op)) (N.simpleVisible ins op)

/-- `VisibleToCall` for an indexed name. -/
def indexedVisible (ins : Instruction w) (op : IndexedName w) : BoolMaybe :=
  match op.base with
  | none => .MB_TRUE
  | some b => N.simpleReDefinedBy ins (.var b)

/-- `ReDefinedBy`. -/
def reDefinedBy (ins : Instruction w) : Name w → BoolMaybe
  | .simple s => N.simpleReDefinedBy ins s
  | .indexed x => andCall ins (N.zapsTheOp ins.result (.indexed x)) (N.indexedVisible ins x)

/-! ## What an instruction changes -/

/-- Flags of one name of a variable are flags of all its names. -/
structure Transferred : Prop where
  temp : ∀ t, (N.temp (N.deAlias t)).usage.address = (N.temp t).usage.address
  memory : ∀ m m', (N.memory m).symbol = (N.memory m').symbol →
    (N.memory m).usage.address = (N.memory m').usage.address

/-- A byte of a variable, a bit of the registers, or storage that is not a variable of the function. -/
inductive Place
  | tempByte (root : ℕ) (x : ℤ)
  | memoryByte (symbol : ℕ) (x : ℤ)
  | bit (i : ℕ)
  | elsewhere

/-- The places of a name that is not indexed. -/
def simplePlaces : Simple w → Set Place
  | .var (.temp t) => {p | ∃ x, p = .tempByte (N.deAlias t) x ∧
      (N.temp t).offset ≤ x ∧ x < (N.temp t).offset + (N.temp t).size}
  | .var (.memory m) => {p | ∃ x, p = .memoryByte (N.memory m).symbol x ∧
      (N.memory m).offset ≤ x ∧ x < (N.memory m).offset + (N.memory m).size}
  | .register reg => {p | ∃ i, p = .bit i ∧ reg.getLsbD i = true}
  | .constant _ => ∅

/-- Where an indexed name can be: anywhere in the variable of its base, and if it is free anywhere that the alias model
allows. -/
def indexedPlaces (x : IndexedName w) : Set Place :=
  match x.base with
  | some (.temp b) => {p | ∃ i, p = .tempByte (N.deAlias b) i}
  | some (.memory b) => {p | ∃ i, p = .memoryByte (N.memory b).symbol i}
  | none => {p | p = .elsewhere ∨
      (∃ t i, p = .tempByte (N.deAlias t) i ∧ (N.temp t).usage.address = true) ∨
      (∃ m i, p = .memoryByte (N.memory m).symbol i ∧ N.fortranAliasing = false ∧
        (N.relaxAlias = true → (N.memory m).usage.address = true))}

def places : Name w → Set Place
  | .simple s => N.simplePlaces s
  | .indexed x => N.indexedPlaces x

/-- The places that an instruction writes to itself. -/
def written (ins : Instruction w) : Set Place :=
  {p | (∃ result, ins.result = some result ∧ p ∈ N.places result) ∨ p ∈ N.simplePlaces (.register ins.zap)}

/-- A call can see the variable: memory if it writes to any, of the front end and visible where Fortran's rules hold,
and temporaries whose address is taken. -/
def CallSees (ins : Instruction w) : Simple w → Prop
  | .var (.memory m) => ins.isCall = true ∧ ins.writesNoMemory = false ∧
      (N.fortranAliasing = true → (N.memory m).memoryType ≠ .CG_BACK ∧ (N.memory m).memoryType ≠ .CG_TBL ∧
        (N.memory m).memoryType ≠ .CG_VTB ∧
        ((N.memory m).memoryType = .CG_FE → N.feVisible (N.memory m).symbol = true))
  | .var (.temp t) => ins.isCall = true ∧ (N.temp t).usage.address = true
  | _ => False

/-- An instruction can change the value of a name that is not indexed. -/
def SimpleChanges (ins : Instruction w) (s : Simple w) : Prop :=
  (N.written ins ∩ N.simplePlaces s).Nonempty ∨ N.CallSees ins s

/-- An instruction can change the value of a name: for an indexed one what it denotes, or its index. -/
def Changes (ins : Instruction w) : Name w → Prop
  | .simple s => N.SimpleChanges ins s
  | .indexed x => (N.written ins ∩ N.indexedPlaces x).Nonempty ∨
      (ins.isCall = true ∧ ∀ b, x.base = some b → N.CallSees ins (.var b)) ∨ N.SimpleChanges ins x.index

/-! ## The condition -/

/-- Parts of the same temporary, or names of the same symbol. -/
def SameVariable : Var → Var → Prop
  | .temp b, .temp b' => N.deAlias b = N.deAlias b'
  | .memory b, .memory b' => (N.memory b).symbol = (N.memory b').symbol
  | _, _ => False

/-- The result answers for an indexed name. -/
def ByResult (x : IndexedName w) : Name w → Prop
  | .simple (.var (.temp t)) => (x.base = none ∧ (N.temp t).usage.address = true) ∨
      (∃ b, x.base = some (.temp b) ∧ N.deAlias t = N.deAlias b) ∨
      ∃ i, x.index = .var (.temp i) ∧ N.deAlias t = N.deAlias i
  | .simple (.var (.memory m)) =>
      (x.base = none ∧ N.fortranAliasing = false ∧ (x.usageAddress = true ∨ N.relaxAlias = false)) ∨
      (∃ b, x.base = some (.temp b) ∧ N.relaxAlias = false) ∨
      ∃ b, x.base = some (.memory b) ∧ (N.memory m).symbol = (N.memory b).symbol
  | .indexed y => y.base = none ∨ x.base = none ∨ ∃ b b', y.base = some b ∧ x.base = some b' ∧ N.SameVariable b b'
  | .simple (.register reg) => (∃ b, x.base = some b ∧ N.zapsVar (.simple (.register reg)) b ≠ .MB_FALSE) ∨
      N.zapsSimple (.simple (.register reg)) x.index ≠ .MB_FALSE
  | .simple (.constant _) => False

/-- The call answers for an indexed name: it is free, or its base can be changed by the result or by the call. -/
def ByCall (ins : Instruction w) (x : IndexedName w) : Prop :=
  ins.isCall = true ∧ ∀ b, x.base = some b → N.simpleIsConstant (.var b) = false ∧
    ((∃ result, ins.result = some result ∧ N.zapsVar result b ≠ .MB_FALSE) ∨ N.CallSees ins (.var b))

/-- There is an answer for an indexed name. -/
def Answered (ins : Instruction w) (x : IndexedName w) : Prop :=
  (∃ result, ins.result = some result ∧ (x.volatile = true ∨ N.ByResult x result)) ∨ N.ByCall ins x

/-- A free name is read, and a variable is stored whose address is taken and which only the relaxed rules leave. -/
def FreeRead (ins : Instruction w) (x : IndexedName w) : Prop :=
  x.base = none ∧ ∃ m, ins.result = some (.simple (.var (.memory m))) ∧ 0 < (N.memory m).size ∧
    N.fortranAliasing = false ∧ N.relaxAlias = true ∧ (N.memory m).usage.address = true

/-- A call can see a base that is constant. -/
def ConstantBase (ins : Instruction w) (x : IndexedName w) : Prop :=
  ∃ b, x.base = some b ∧ N.simpleIsConstant (.var b) = true ∧ N.CallSees ins (.var b)

/-- Constants are not changed, and what the table leaves out for indexed names is found by another rule. -/
def Covered (ins : Instruction w) : Name w → Prop
  | .simple s => N.simpleIsConstant s = true → ¬ N.SimpleChanges ins s
  | .indexed x => N.SimpleChanges ins x.index ∨ N.FreeRead ins x ∨ N.ConstantBase ins x → N.Answered ins x

/-! ## Names that are not indexed -/

section

variable {N}

theorem ofBool_ne (b : Bool) : ofBool b ≠ .MB_FALSE ↔ b = true := by
  cases b <;> decide

theorem andCall_ne {ins : Instruction w} {zaps visible : BoolMaybe} :
    andCall ins zaps visible ≠ .MB_FALSE ↔ zaps ≠ .MB_FALSE ∨ (ins.isCall = true ∧ visible ≠ .MB_FALSE) := by
  unfold andCall
  split_ifs with hzaps hcall
  · exact ⟨fun h => .inl h, fun _ => hzaps⟩
  · simp_all
  · simp_all

theorem tempsOverlap_of_byte {offset1 offset2 x : ℤ} {size1 size2 : ℕ} (h1 : offset1 ≤ x ∧ x < offset1 + size1)
    (h2 : offset2 ≤ x ∧ x < offset2 + size2) : tempsOverlap offset1 size1 offset2 size2 = true := by
  unfold tempsOverlap
  exact if_neg (by omega)

theorem ovlap_iff {a b : BitVec w} : ovlap a b = true ↔ ∃ i, a.getLsbD i = true ∧ b.getLsbD i = true := by
  unfold ovlap
  rw [bne_iff_ne, ne_eq, BitVec.eq_of_getLsbD_eq_iff]
  constructor
  · intro h
    push Not at h
    obtain ⟨i, -, hi⟩ := h
    exact ⟨i, by simpa using hi⟩
  · rintro ⟨i, ha, hb⟩ h
    have hbit := h i (BitVec.lt_of_getLsbD ha)
    simp [ha, hb] at hbit

/-- A byte that the result can be in and that is one of a memory symbol. -/
theorem zapsMemory_of_place (h : N.Transferred) {result : Name w} {m : ℕ} {p : Place} (hresult : p ∈ N.places result)
    (hp : p ∈ N.simplePlaces (.var (.memory m))) : N.zapsMemory result (N.memory m) false = true := by
  obtain ⟨x, rfl, hx⟩ := hp
  match result with
  | .simple (.var (.temp t)) =>
    obtain ⟨y, hy, -⟩ := hresult
    cases hy
  | .simple (.var (.memory m')) =>
    obtain ⟨y, hy, hrange⟩ := hresult
    obtain ⟨hsymbol, rfl⟩ := Place.memoryByte.inj hy
    unfold zapsMemory
    dsimp only
    rw [if_neg (by rw [hsymbol]; simp), if_neg Bool.false_ne_true]
    exact tempsOverlap_of_byte hrange hx
  | .simple (.register reg) =>
    obtain ⟨y, hy, -⟩ := hresult
    cases hy
  | .simple (.constant _) => cases hresult
  | .indexed y =>
    change _ ∈ N.indexedPlaces y at hresult
    unfold indexedPlaces at hresult
    unfold zapsMemory
    dsimp only
    split at hresult
    · obtain ⟨i, hi⟩ := hresult
      cases hi
    · next b hb =>
      rw [hb]
      obtain ⟨i, hi⟩ := hresult
      exact if_neg (by rw [(Place.memoryByte.inj hi).1]; simp)
    · next hb =>
      rw [hb]
      rcases hresult with hi | ⟨t, i, hi, -⟩ | ⟨m', i, hi, hfortran, hrelax⟩
      · cases hi
      · cases hi
      · have husage := h.memory m m' (Place.memoryByte.inj hi).1
        dsimp only
        rw [hfortran, husage]
        cases hr : N.relaxAlias with
        | true => rw [hrelax hr]; rfl
        | false => cases (N.memory m').usage.address <;> rfl

theorem zapsTemp_of_place (h : N.Transferred) {result : Name w} {t : ℕ} {p : Place} (hresult : p ∈ N.places result)
    (hp : p ∈ N.simplePlaces (.var (.temp t))) : N.zapsTemp result t false = true := by
  obtain ⟨x, rfl, hx⟩ := hp
  match result with
  | .simple (.var (.temp t')) =>
    obtain ⟨y, hy, hrange⟩ := hresult
    obtain ⟨hroot, rfl⟩ := Place.tempByte.inj hy
    unfold zapsTemp
    dsimp only
    rw [if_neg (by rw [hroot]; simp), if_neg Bool.false_ne_true]
    exact tempsOverlap_of_byte hx hrange
  | .simple (.var (.memory m)) =>
    obtain ⟨y, hy, -⟩ := hresult
    cases hy
  | .simple (.register reg) =>
    obtain ⟨y, hy, -⟩ := hresult
    cases hy
  | .simple (.constant _) => cases hresult
  | .indexed y =>
    change _ ∈ N.indexedPlaces y at hresult
    unfold indexedPlaces at hresult
    unfold zapsTemp
    dsimp only
    split at hresult
    · next b hb =>
      rw [hb]
      obtain ⟨i, hi⟩ := hresult
      exact if_pos (decide_eq_true (Place.tempByte.inj hi).1.symm)
    · obtain ⟨i, hi⟩ := hresult
      cases hi
    · next hb =>
      rw [hb]
      rcases hresult with hi | ⟨t', i, hi, haddress⟩ | ⟨m', i, hi, -⟩
      · cases hi
      · have husage : (N.temp t).usage.address = true := by
          rw [← h.temp t, (Place.tempByte.inj hi).1, h.temp t', haddress]
        simp [husage]
      · cases hi

theorem zapsVar_of_place (h : N.Transferred) {result : Name w} {v : Var} {p : Place} (hresult : p ∈ N.places result)
    (hp : p ∈ N.simplePlaces (.var v)) : N.zapsVar result v ≠ .MB_FALSE := by
  cases v with
  | temp t =>
    unfold zapsVar
    dsimp only
    split_ifs
    · decide
    · exact (ofBool_ne _).2 (zapsTemp_of_place h hresult hp)
  | memory m =>
    unfold zapsVar
    dsimp only
    split_ifs
    · decide
    · exact (ofBool_ne _).2 (zapsMemory_of_place h hresult hp)

/-- Where the result meets a name that is not indexed, the table says so. -/
theorem zapsSimple_of_place (h : N.Transferred) {result : Name w} {s : Simple w} {p : Place}
    (hresult : p ∈ N.places result) (hp : p ∈ N.simplePlaces s) : N.zapsSimple result s ≠ .MB_FALSE := by
  cases s with
  | var v => exact zapsVar_of_place h hresult hp
  | constant c => cases hp
  | register reg =>
    obtain ⟨i, rfl, hi⟩ := hp
    match result with
    | .simple (.register r) =>
      obtain ⟨j, hj, hbit⟩ := hresult
      cases hj
      unfold zapsSimple
      dsimp only
      rw [if_pos (ovlap_iff.2 ⟨i, hbit, hi⟩)]
      decide
    | .simple (.var (.temp t)) =>
      obtain ⟨y, hy, -⟩ := hresult
      cases hy
    | .simple (.var (.memory m)) =>
      obtain ⟨y, hy, -⟩ := hresult
      cases hy
    | .simple (.constant _) => cases hresult
    | .indexed y =>
      change _ ∈ N.indexedPlaces y at hresult
      unfold indexedPlaces at hresult
      split at hresult
      · obtain ⟨i, hi⟩ := hresult
        cases hi
      · obtain ⟨i, hi⟩ := hresult
        cases hi
      · rcases hresult with hi | ⟨t', i, hi, -⟩ | ⟨m', i, hi, -⟩ <;> cases hi

/-- `VisibleToCall` says what a call can see. -/
theorem simpleVisible_iff {ins : Instruction w} {s : Simple w} :
    ins.isCall = true ∧ N.simpleVisible ins s ≠ .MB_FALSE ↔ N.CallSees ins s := by
  cases s with
  | register reg => simp [simpleVisible, CallSees]
  | constant c => simp [simpleVisible, CallSees]
  | var v =>
    cases v with
    | temp t => simp [simpleVisible, CallSees]
    | memory m =>
      unfold simpleVisible CallSees
      dsimp only
      cases ins.writesNoMemory <;> cases N.fortranAliasing <;> cases (N.memory m).memoryType <;>
        cases N.feVisible (N.memory m).symbol <;> simp

theorem simpleReDefinedBy_var {ins : Instruction w} {v : Var} :
    N.simpleReDefinedBy ins (.var v) ≠ .MB_FALSE ↔ N.simpleIsConstant (.var v) = false ∧
      ((∃ result, ins.result = some result ∧ N.zapsVar result v ≠ .MB_FALSE) ∨ N.CallSees ins (.var v)) := by
  unfold simpleReDefinedBy
  dsimp only
  rw [if_neg Bool.false_ne_true]
  cases hconstant : N.simpleIsConstant (.var v) with
  | true => simp
  | false =>
    rw [if_neg Bool.false_ne_true, andCall_ne, simpleVisible_iff]
    cases hresult : ins.result <;> simp [zapsTheOp, zapsSimple]

/-- A name that is not indexed and not constant is found. -/
theorem simpleReDefinedBy_of_changes (h : N.Transferred) {ins : Instruction w} {s : Simple w}
    (hconstant : N.simpleIsConstant s = false) (hchanges : N.SimpleChanges ins s) :
    N.simpleReDefinedBy ins s ≠ .MB_FALSE := by
  cases s with
  | constant c =>
    rcases hchanges with ⟨p, -, hp⟩ | hsees
    · cases hp
    · cases hsees
  | var v =>
    rw [simpleReDefinedBy_var]
    refine ⟨hconstant, ?_⟩
    rcases hchanges with ⟨p, ⟨result, hresult, hmem⟩ | ⟨i, hi, -⟩, hp⟩ | hsees
    · exact .inl ⟨result, hresult, zapsVar_of_place h hmem hp⟩
    · cases v <;> obtain ⟨x, hx, -⟩ := hp <;> rw [hx] at hi <;> cases hi
    · exact .inr hsees
  | register reg =>
    unfold simpleReDefinedBy
    dsimp only
    rw [hconstant, if_neg Bool.false_ne_true]
    split_ifs with hzap
    · decide
    · rw [andCall_ne]
      rcases hchanges with ⟨p, ⟨result, hresult, hmem⟩ | ⟨i, rfl, hbit⟩, hp⟩ | hsees
      · refine .inl ?_
        rw [hresult]
        exact zapsSimple_of_place h hmem hp
      · obtain ⟨j, hj, hreg⟩ := hp
        cases hj
        exact absurd (ovlap_iff.2 ⟨i, hbit, hreg⟩) hzap
      · cases hsees

/-! ## Indexed names -/

theorem indexedPlaces_var {x : IndexedName w} {b : Var} (hb : x.base = some b) {p : Place}
    (hp : p ∈ N.indexedPlaces x) :
    (∃ t i, b = .temp t ∧ p = .tempByte (N.deAlias t) i) ∨
      ∃ m i, b = .memory m ∧ p = .memoryByte (N.memory m).symbol i := by
  unfold indexedPlaces at hp
  rw [hb] at hp
  cases b with
  | temp t =>
    obtain ⟨i, hi⟩ := hp
    exact .inl ⟨t, i, rfl, hi⟩
  | memory m =>
    obtain ⟨i, hi⟩ := hp
    exact .inr ⟨m, i, rfl, hi⟩

theorem indexedPlaces_free {x : IndexedName w} (hb : x.base = none) {p : Place} (hp : p ∈ N.indexedPlaces x) :
    p = .elsewhere ∨ (∃ t i, p = .tempByte (N.deAlias t) i ∧ (N.temp t).usage.address = true) ∨
      (∃ m i, p = .memoryByte (N.memory m).symbol i ∧ N.fortranAliasing = false ∧
        (N.relaxAlias = true → (N.memory m).usage.address = true)) := by
  unfold indexedPlaces at hp
  rw [hb] at hp
  exact hp

/-- The table for an indexed name. -/
theorem zapsIndexed_iff (h : N.Transferred) {result : Name w} {x : IndexedName w} :
    N.zapsIndexed result x ≠ .MB_FALSE ↔ N.ByResult x result := by
  match result with
  | .simple (.constant _) => simp [zapsIndexed, ByResult]
  | .simple (.register reg) =>
    unfold zapsIndexed ByResult
    dsimp only
    cases hb : x.base with
    | none => simp
    | some b => by_cases hzaps : N.zapsVar (.simple (.register reg)) b = .MB_FALSE <;> simp [hzaps]
  | .simple (.var (.memory m)) =>
    unfold zapsIndexed ByResult
    dsimp only
    rcases hb : x.base with - | t | b
    · cases N.fortranAliasing <;> cases x.usageAddress <;> cases N.relaxAlias <;> simp
    · cases N.relaxAlias <;> simp
    · by_cases hsymbol : (N.memory m).symbol = (N.memory b).symbol <;> simp [zapsMemory, ofBool, hsymbol]
  | .simple (.var (.temp t)) =>
    unfold zapsIndexed ByResult
    dsimp only
    rw [h.temp t]
    rcases hb : x.base with - | b | b <;> rcases hi : x.index with (i | i) | r | c <;> simp <;> grind
  | .indexed y =>
    unfold zapsIndexed ByResult
    dsimp only
    split_ifs with hsame
    · refine ⟨fun _ => ?_, fun _ => by decide⟩
      rcases hb : y.base with - | b
      · exact .inl rfl
      · refine .inr (.inr ⟨b, b, rfl, by rw [← hsame.1, hb], ?_⟩)
        cases b <;> rfl
    · rcases hy : y.base with - | b | b <;> rcases hx : x.base with - | b' | b' <;>
        simp [zapsTemp, zapsMemory, ofBool, SameVariable]

/-- The answer for an indexed name. -/
theorem reDefinedBy_indexed (h : N.Transferred) {ins : Instruction w} {x : IndexedName w} :
    N.reDefinedBy ins (.indexed x) ≠ .MB_FALSE ↔ N.Answered ins x := by
  have hresult : N.zapsTheOp ins.result (.indexed x) ≠ .MB_FALSE ↔
      ∃ result, ins.result = some result ∧ (x.volatile = true ∨ N.ByResult x result) := by
    cases hr : ins.result with
    | none => simp [zapsTheOp]
    | some result =>
      unfold zapsTheOp
      dsimp only
      by_cases hvolatile : x.volatile = true
      · simp [hvolatile]
      · rw [if_neg hvolatile, zapsIndexed_iff h]
        simp [hvolatile]
  have hvisible : N.indexedVisible ins x ≠ .MB_FALSE ↔ ∀ b, x.base = some b →
      N.simpleReDefinedBy ins (.var b) ≠ .MB_FALSE := by
    unfold indexedVisible
    cases x.base <;> simp
  unfold reDefinedBy
  rw [andCall_ne, hresult, hvisible]
  unfold Answered ByCall
  simp only [simpleReDefinedBy_var]

/-- Where the result meets what an indexed name denotes, the table says so, but for a free read of memory. -/
theorem byResult_of_place (h : N.Transferred) {ins : Instruction w} {result : Name w} {x : IndexedName w} {p : Place}
    (hins : ins.result = some result) (hresult : p ∈ N.places result) (hp : p ∈ N.indexedPlaces x) :
    N.ByResult x result ∨ N.FreeRead ins x := by
  match result with
  | .simple (.constant _) => cases hresult
  | .simple (.register reg) =>
    obtain ⟨i, rfl, -⟩ := hresult
    rcases hb : x.base with - | b
    · rcases indexedPlaces_free hb hp with hi | ⟨t, i, hi, -⟩ | ⟨m, i, hi, -⟩ <;> cases hi
    · rcases indexedPlaces_var hb hp with ⟨t, i, -, hi⟩ | ⟨m, i, -, hi⟩ <;> cases hi
  | .simple (.var (.temp t)) =>
    obtain ⟨y, rfl, -⟩ := hresult
    refine .inl ?_
    rcases hb : x.base with - | b
    · rcases indexedPlaces_free hb hp with hi | ⟨t', i, hi, haddress⟩ | ⟨m, i, hi, -⟩
      · cases hi
      · refine .inl ⟨hb, ?_⟩
        rw [← h.temp t, (Place.tempByte.inj hi).1, h.temp t', haddress]
      · cases hi
    · rcases indexedPlaces_var hb hp with ⟨t', i, rfl, hi⟩ | ⟨m, i, -, hi⟩
      · exact .inr (.inl ⟨t', hb, (Place.tempByte.inj hi).1⟩)
      · cases hi
  | .simple (.var (.memory m)) =>
    obtain ⟨y, rfl, hy⟩ := hresult
    rcases hb : x.base with - | b
    · rcases indexedPlaces_free hb hp with hi | ⟨t', i, hi, -⟩ | ⟨m', i, hi, hfortran, hrelax⟩
      · cases hi
      · cases hi
      · cases hr : N.relaxAlias with
        | false => exact .inl (.inl ⟨hb, hfortran, .inr hr⟩)
        | true =>
          refine .inr ⟨hb, m, hins, by omega, hfortran, hr, ?_⟩
          rw [h.memory m m' (Place.memoryByte.inj hi).1]
          exact hrelax hr
    · rcases indexedPlaces_var hb hp with ⟨t', i, -, hi⟩ | ⟨m', i, rfl, hi⟩
      · cases hi
      · exact .inl (.inr (.inr ⟨m', hb, (Place.memoryByte.inj hi).1⟩))
  | .indexed y =>
    refine .inl ?_
    rcases hy : y.base with - | b
    · exact .inl hy
    rcases hx : x.base with - | b'
    · exact .inr (.inl hx)
    refine .inr (.inr ⟨b, b', hy, hx, ?_⟩)
    rcases indexedPlaces_var hy hresult with ⟨t, i, rfl, hi⟩ | ⟨m, i, rfl, hi⟩ <;>
      rcases indexedPlaces_var hx hp with ⟨t', i', rfl, hi'⟩ | ⟨m', i', rfl, hi'⟩ <;> rw [hi] at hi'
    · exact (Place.tempByte.inj hi').1
    · cases hi'
    · cases hi'
    · exact (Place.memoryByte.inj hi').1

/-- A free read of a variable whose address is taken meets the store. -/
theorem FreeRead.changes {ins : Instruction w} {x : IndexedName w} (hread : N.FreeRead ins x) :
    N.Changes ins (.indexed x) := by
  obtain ⟨hb, m, hins, hsize, hfortran, -, haddress⟩ := hread
  refine .inl ⟨.memoryByte (N.memory m).symbol (N.memory m).offset, .inl ⟨_, hins, _, rfl, le_rfl, by omega⟩, ?_⟩
  unfold indexedPlaces
  rw [hb]
  exact .inr (.inr ⟨m, _, rfl, hfortran, fun _ => haddress⟩)

end

end Names

/-- What an instruction can change is found exactly where it is covered. -/
theorem reDefinedBy_sound_iff {w : ℕ} (N : Names w) (h : N.Transferred) (ins : Instruction w) (op : Name w) :
    (N.Changes ins op → N.reDefinedBy ins op ≠ .MB_FALSE) ↔ N.Covered ins op := by
  cases op with
  | simple s =>
    constructor
    · intro hsound hconstant hchanges
      cases s with
      | var v =>
        have hanswer := Names.simpleReDefinedBy_var.1 (hsound hchanges)
        rw [hanswer.1] at hconstant
        cases hconstant
      | register reg => cases hconstant
      | constant c => cases hconstant
    · intro hcovered hchanges
      refine Names.simpleReDefinedBy_of_changes h ?_ hchanges
      exact Bool.eq_false_iff.2 fun hconstant => hcovered hconstant hchanges
  | indexed x =>
    rw [Names.reDefinedBy_indexed h]
    constructor
    · rintro hsound (hindex | hread | ⟨b, hb, -, hsees⟩)
      · exact hsound (.inr (.inr hindex))
      · exact hsound hread.changes
      · refine hsound (.inr (.inl ⟨?_, fun b' hb' => ?_⟩))
        · cases b <;> exact hsees.1
        · cases hb.symm.trans hb'
          exact hsees
    · rintro hcovered (⟨p, ⟨result, hins, hmem⟩ | ⟨i, rfl, -⟩, hp⟩ | ⟨hcall, hsees⟩ | hindex)
      · rcases Names.byResult_of_place h hins hmem hp with hby | hread
        · exact .inl ⟨result, hins, .inr hby⟩
        · exact hcovered (.inr (.inl hread))
      · -- The registers are no places of an indexed name.
        rcases hb : x.base with - | b
        · rcases Names.indexedPlaces_free hb hp with hi | ⟨t, i, hi, -⟩ | ⟨m, i, hi, -⟩ <;> cases hi
        · rcases Names.indexedPlaces_var hb hp with ⟨t, i, -, hi⟩ | ⟨m, i, -, hi⟩ <;> cases hi
      · by_cases hconstant : N.ConstantBase ins x
        · exact hcovered (.inr (.inr hconstant))
        · refine .inr ⟨hcall, fun b hb => ⟨?_, .inr (hsees b hb)⟩⟩
          exact Bool.eq_false_iff.2 fun h => hconstant ⟨b, hb, h, hsees b hb⟩
      · exact hcovered (.inl hindex)

/-- One variable whose address is taken, with the relaxed rules. -/
def oneVariable : Names 8 where
  temp _ := ⟨0, 4, ⟨false, false, false⟩, false, 0⟩
  memory _ := ⟨0, 0, 4, ⟨true, false, false⟩, .CG_FE⟩
  fortranAliasing := false
  relaxAlias := true
  feVisible _ := true
  feConstant _ := false
  nameIsROM _ _ := false
  displayReg := 0
  alias_ends _ := ⟨0, rfl⟩

/-- A store to the variable. -/
def store : Instruction 8 := ⟨some (.simple (.var (.memory 0))), 0, false, false⟩

theorem oneVariable_transferred : oneVariable.Transferred := ⟨fun _ => rfl, fun _ _ _ => rfl⟩

/-- A store to the variable redefines it. -/
theorem store_redefines :
    ((oneVariable.Changes store (.simple (.var (.memory 0))) →
        oneVariable.reDefinedBy store (.simple (.var (.memory 0))) ≠ .MB_FALSE) ↔
      oneVariable.Covered store (.simple (.var (.memory 0)))) ∧
    oneVariable.Covered store (.simple (.var (.memory 0))) :=
  ⟨reDefinedBy_sound_iff oneVariable oneVariable_transferred store _, fun hconstant => by cases hconstant⟩

/-- Through a register the variable can be read, but the store does not redefine what is read. -/
theorem store_misses_free_read :
    oneVariable.Changes store (.indexed ⟨.register 1, none, 0, 4, 0, 0, false⟩) ∧
      oneVariable.reDefinedBy store (.indexed ⟨.register 1, none, 0, 4, 0, 0, false⟩) = .MB_FALSE :=
  ⟨Names.FreeRead.changes ⟨rfl, 0, rfl, by decide, rfl, rfl, rfl⟩, by decide⟩

end OpenWatcom.ReDefined
