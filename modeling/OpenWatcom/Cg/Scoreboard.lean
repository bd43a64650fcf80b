import OpenWatcom.Cg.ReDefined

/-! # What the scoreboard forgets at a store

The scoreboard lists for each register the locations that have its value. `ScoreKillInfo` takes out of the lists what a
store may have changed, by its own comparison of locations. -/

namespace OpenWatcom.Scoreboard

open ReDefined
open ReDefined.Names (Place)

/-- `score_name_class_def`. -/
inductive ScoreClass
  | constant | memory | temp | register | indexed | initial | volatile | address
  deriving DecidableEq

/-- `constant_type_class`, as far as `ScoreInfo` knows it. -/
inductive ConstType
  | absolute | address | offset | segment | highAddr
  deriving DecidableEq

structure ConstName where
  type : ConstType
  op : Option Var
  value : ℤ

/-- What `symbol` points to: nothing, a temporary, a symbol of the front end, a name, or one of the unique addresses. -/
inductive Symbol
  | null
  | temp (t : ℕ)
  | memory (symbol : ℕ)
  | name (op : Option Var)
  | segConst
  | highAddrSymbol
  | highAddrConst
  deriving DecidableEq

/-- `score_info`; `NO_INDEX` is `none`. -/
structure ScoreInfo where
  scoreClass : ScoreClass
  offset : ℤ
  base : Option Var
  symbol : Symbol
  regIndex : Option ℕ
  scale : ℕ
  deriving DecidableEq

/-- The names, with the numbers of temporaries, which are those of the variables that they are parts of, the constants,
the indices of registers and the addresses of names in the compiler. -/
structure Context (w : ℕ) extends Names w where
  id : ℕ → ℕ
  id_eq : ∀ t t', id t = id t' ↔ toNames.deAlias t = toNames.deAlias t'
  const : ℕ → ConstName
  regIndex : BitVec w → ℕ
  pointer : Var → ℤ

/-- `X_FAKE_BASE | X_BASE_IS_INDEX`: the name is its base. -/
def baseIsIndex : BitVec 16 := 0x0030

namespace Context

variable {w : ℕ} (C : Context w)

def volatileVar : Var → Bool
  | .temp t => (C.temp t).usage.volatile
  | .memory m => (C.memory m).usage.volatile

/-- `ScoreInfo` for a variable. -/
def varInfo (v : Var) : ScoreInfo :=
  match v with
  | .temp t => ⟨if C.volatileVar v then .volatile else .temp, (C.temp t).offset, none, .temp t, none, 0⟩
  | .memory m =>
    ⟨if C.volatileVar v then .volatile else .memory, (C.memory m).offset, none, .memory (C.memory m).symbol, none, 0⟩

/-- `ScoreInfo` for a constant. -/
def constInfo (c : ConstName) : ScoreInfo :=
  match c.type, c.op with
  | .absolute, _ => ⟨.constant, c.value, none, .null, none, 0⟩
  | .segment, _ => ⟨.constant, c.value, none, .segConst, none, 0⟩
  | .offset, op => ⟨.constant, c.value, none, .name op, none, 0⟩
  | .address, op => ⟨.constant, c.value, none, .name op, none, 0⟩
  | .highAddr, some op => ⟨.constant, C.pointer op, none, .highAddrSymbol, none, 0⟩
  | .highAddr, none => ⟨.constant, c.value, none, .highAddrConst, none, 0⟩

/-- `ScoreInfo`: nothing for registers and where the base that is looked at is `NULL`. The index is a register. -/
def scoreInfo : Name w → Option ScoreInfo
  | .simple (.var v) => some (C.varInfo v)
  | .simple (.constant c) => some (C.constInfo (C.const c))
  | .simple (.register _) => none
  | .indexed x =>
    if x.flags = baseIsIndex then x.base.map C.varInfo
    else
      match x.index with
      | .register reg =>
        some ⟨if x.volatile then .volatile else .indexed, x.constant, x.base, .null, some (C.regIndex reg), x.scale⟩
      | _ => none

/-- `ScoreLAInfo`. -/
def scoreLAInfo : Name w → Option ScoreInfo
  | .simple (.var v) => some ⟨.address, 0, none, .name (some v), none, 0⟩
  | _ => none

/-- The numbers of the temporaries are the same. -/
def sameId : Symbol → Symbol → Bool
  | .temp t, .temp t' => C.id t = C.id t'
  | _, _ => false

/-- `ScoreSame`. -/
def scoreSame (x y : ScoreInfo) : Bool :=
  if x.scoreClass ≠ y.scoreClass then false
  else if x.base ≠ y.base then false
  else if x.regIndex ≠ y.regIndex then false
  else if x.scoreClass = .temp ∧ C.sameId x.symbol y.symbol then true
  else if x.scoreClass = .volatile then false
  else if x.scoreClass = .initial then false
  else if x.scoreClass = .indexed ∧ x.scale ≠ y.scale then false
  else x.symbol = y.symbol

/-- `USE_ADDRESS` of the variable. -/
def useAddress : Symbol → Bool
  | .temp t => (C.temp t).usage.address
  | _ => false

/-- Two bases are of the same variable. -/
def sameBase : Var → Var → Bool
  | .temp b, .temp b' => C.id b = C.id b'
  | .memory b, .memory b' => (C.memory b).symbol = (C.memory b').symbol
  | _, _ => false

/-- `ScoreStomp` behind the question for a free index. -/
def stompBound (x y : ScoreInfo) : Bool :=
  let (x, y) := if y.scoreClass = .indexed then (y, x) else (x, y)
  match x.scoreClass, x.base with
  | .indexed, some base =>
    match y.scoreClass with
    | .temp =>
      match base with
      | .temp b => C.sameId y.symbol (.temp b)
      | .memory _ => false
    | .memory =>
      match base with
      | .temp _ => false
      | .memory b => y.symbol = .memory (C.memory b).symbol
    | .indexed =>
      match y.base with
      | none => true
      | some base' => C.sameBase base' base
    | _ => false
  | _, _ => false

/-- `ScoreStomp`. -/
def scoreStomp (x y : ScoreInfo) : Bool :=
  let (x, y) := if y.scoreClass = .indexed ∧ y.base = none then (y, x) else (x, y)
  if x.scoreClass = .indexed ∧ x.base = none then
    match y.scoreClass with
    | .memory => if C.relaxAlias then false else true
    | .indexed => true
    | .temp => if C.useAddress y.symbol then true else false
    | _ => C.stompBound x y
  else C.stompBound x y

/-- An entry is taken out of the list of a register of the size. -/
def kills (info : ScoreInfo) (opSize : ℕ) (size : ℕ) (curr : ScoreInfo) : Bool :=
  let lastOffset := info.offset + opSize
  if !C.scoreStomp info curr then
    C.scoreSame info curr && decide (lastOffset > curr.offset) && decide (info.offset < curr.offset + size)
  else true

end Context

/-- A register: its bits, its size and its list, which equal registers share. -/
structure ScoreReg (w : ℕ) where
  reg : BitVec w
  size : ℕ
  list : ℕ

/-- `HW_Subset`. -/
def hwSubset {w : ℕ} (a b : BitVec w) : Bool := a &&& b = b

/-- `ScoreKillInfo`: what is left of the lists. -/
def scoreKillInfo {w : ℕ} (C : Context w) (regs : List (ScoreReg w)) (lists : ℕ → List ScoreInfo) (opSize : ℕ)
    (info : ScoreInfo) (except : BitVec w) : ℕ → List ScoreInfo :=
  regs.foldl
    (fun lists entry =>
      if hwSubset except entry.reg then lists
      else Function.update lists entry.list
        ((lists entry.list).filter fun curr => !C.kills info opSize entry.size curr)) lists

/-! ## What a store can change -/

/-- The variable that a name is, directly or because its base is the index. -/
def direct {w : ℕ} : Name w → Option Var
  | .simple (.var v) => some v
  | .indexed x => if x.flags = baseIsIndex then x.base else none
  | _ => none

namespace Context

variable {w : ℕ} (C : Context w)

/-- Bytes of a variable. -/
def bytesOf (v : Var) (offset : ℤ) (size : ℕ) : Set Place :=
  match v with
  | .temp t => {p | ∃ x, p = .tempByte (C.deAlias t) x ∧ offset ≤ x ∧ x < offset + size}
  | .memory m => {p | ∃ x, p = .memoryByte (C.memory m).symbol x ∧ offset ≤ x ∧ x < offset + size}

def varOffset : Var → ℤ
  | .temp t => (C.temp t).offset
  | .memory m => (C.memory m).offset

/-- `n.size` of a name that is stored to or listed. -/
def nameSize : Name w → ℕ
  | .simple (.var (.temp t)) => (C.temp t).size
  | .simple (.var (.memory m)) => (C.memory m).size
  | .indexed x => x.size
  | _ => 0

/-- Where a name is: its bytes if it is a variable, and otherwise what an indexed name can be. -/
def location (op : Name w) : Set Place :=
  match direct op with
  | some v => C.bytesOf v (C.varOffset v) (C.nameSize op)
  | none => C.places op

/-- Where an entry is that is listed for a register of the size. -/
def entryPlaces (e : ScoreInfo) (size : ℕ) : Set Place :=
  match e.scoreClass, e.symbol with
  | .temp, .temp t => C.bytesOf (.temp t) e.offset size
  | .memory, .memory symbol => {p | ∃ x, p = .memoryByte symbol x ∧ e.offset ≤ x ∧ x < e.offset + size}
  | .indexed, _ => C.indexedPlaces ⟨.constant 0, e.base, 0, 0, 0, 0, false⟩
  | _, _ => ∅

/-- An indexed name has the variable as its base, or it is free and the address of the variable is taken. -/
def MeetsVar (x : IndexedName w) (v : Var) : Prop :=
  (∃ b, x.base = some b ∧ C.SameVariable b v) ∨
    x.base = none ∧ match v with
      | .temp t => (C.temp t).usage.address = true
      | .memory m => (C.memory m).usage.address = true

/-- Two names share bytes, share a base, or meet through a free index. -/
def Shares (op listed : Name w) : Prop :=
  match direct op, direct listed with
  | some _, some _ => (C.location op ∩ C.location listed).Nonempty
  | some v, none => ∃ y, listed = .indexed y ∧ C.MeetsVar y v
  | none, some v => ∃ x, op = .indexed x ∧ C.MeetsVar x v
  | none, none => ∃ x y, op = .indexed x ∧ listed = .indexed y ∧ (x.base = none ∨ y.base = none ∨
      ∃ b b', x.base = some b ∧ y.base = some b' ∧ C.SameVariable b b')

/-- A store can change what an entry lists, or `ReDefinedBy` says that it may redefine the name of the entry, which
shares something with it. -/
def Touches (op : Name w) (e : ScoreInfo) (size : ℕ) : Prop :=
  (C.location op ∩ C.entryPlaces e size).Nonempty ∨
    ∃ listed, C.scoreInfo listed = some e ∧ C.nameSize listed = size ∧
      C.zapsTheOp (some op) listed ≠ .MB_FALSE ∧ C.Shares op listed

/-- What the lists hold: the `score_info` of temporaries, memory, indexed names, constants and addresses, with any
offset. -/
inductive Listed : ScoreInfo → Prop
  | temp (t : ℕ) (offset : ℤ) : Listed ⟨.temp, offset, none, .temp t, none, 0⟩
  | memory (m : ℕ) (offset : ℤ) : Listed ⟨.memory, offset, none, .memory (C.memory m).symbol, none, 0⟩
  | indexed (offset : ℤ) (base : Option Var) (regIndex scale : ℕ) :
      Listed ⟨.indexed, offset, base, .null, some regIndex, scale⟩
  | constant (offset : ℤ) (symbol : Symbol) : Listed ⟨.constant, offset, none, symbol, none, 0⟩
  | address (v : Var) (offset : ℤ) : Listed ⟨.address, offset, none, .name (some v), none, 0⟩

/-- Under the relaxed rules one of the two is free and the other one is memory. -/
def RelaxedFree (info e : ScoreInfo) : Prop :=
  C.relaxAlias = true ∧
    (info.scoreClass = .indexed ∧ info.base = none ∧ e.scoreClass = .memory ∨
      info.scoreClass = .memory ∧ e.scoreClass = .indexed ∧ e.base = none)

end Context

/-- The registers with their lists. Only registers of the same size share a list. -/
structure Board {w : ℕ} (C : Context w) where
  regs : List (ScoreReg w)
  lists : ℕ → List ScoreInfo
  same_size : ∀ r ∈ regs, ∀ r' ∈ regs, r.list = r'.list → r.size = r'.size
  listed : ∀ r ∈ regs, ∀ e ∈ lists r.list, C.Listed e

/-- After `ScoreKillInfo` no list holds what the store touches. -/
def Forgets {w : ℕ} (C : Context w) (board : Board C) (op : Name w) (info : ScoreInfo) (except : BitVec w) : Prop :=
  ∀ r ∈ board.regs, ∀ e ∈ scoreKillInfo C board.regs board.lists (C.nameSize op) info except r.list,
    ¬ C.Touches op e r.size

section

variable {w : ℕ} {C : Context w}

/-! ## The comparison -/

/-- `score_info` of a variable that is not volatile. -/
def plainInfo (C : Context w) (offset : ℤ) : Var → ScoreInfo
  | .temp t => ⟨.temp, offset, none, .temp t, none, 0⟩
  | .memory m => ⟨.memory, offset, none, .memory (C.memory m).symbol, none, 0⟩

theorem varInfo_eq {v : Var} (h : (C.varInfo v).scoreClass ≠ .volatile) :
    C.varInfo v = plainInfo C (C.varOffset v) v := by
  unfold Context.varInfo at h ⊢
  cases v with
  | temp t =>
      dsimp only at h ⊢
      split_ifs at h ⊢ with hvolatile
      · exact absurd rfl h
      · rfl
  | memory m =>
      dsimp only at h ⊢
      split_ifs at h ⊢ with hvolatile
      · exact absurd rfl h
      · rfl

/-- What `ScoreInfo` makes of a name that it does not find volatile. -/
theorem scoreInfo_cases {op : Name w} {info : ScoreInfo} (h : C.scoreInfo op = some info)
    (hvolatile : info.scoreClass ≠ .volatile) :
    (∃ v, direct op = some v ∧ info = plainInfo C (C.varOffset v) v) ∨
      (∃ x regIndex, op = .indexed x ∧ direct op = none ∧
        info = ⟨.indexed, x.constant, x.base, .null, some regIndex, x.scale⟩) ∨
      ∃ c, op = .simple (.constant c) ∧ ∃ symbol offset, info = ⟨.constant, offset, none, symbol, none, 0⟩ := by
  unfold Context.scoreInfo at h
  split at h
  · next v =>
    obtain rfl := Option.some.inj h
    exact .inl ⟨v, rfl, varInfo_eq hvolatile⟩
  · next c =>
    obtain rfl := Option.some.inj h
    refine .inr (.inr ⟨c, rfl, ?_⟩)
    unfold Context.constInfo
    split <;> exact ⟨_, _, rfl⟩
  · cases h
  · next x =>
    by_cases hflags : x.flags = baseIsIndex
    · rw [if_pos hflags] at h
      obtain ⟨v, hv, rfl⟩ := Option.map_eq_some_iff.1 h
      exact .inl ⟨v, by rw [direct, if_pos hflags, hv], varInfo_eq hvolatile⟩
    · rw [if_neg hflags] at h
      split at h
      · next reg hreg =>
        obtain rfl := Option.some.inj h
        refine .inr (.inl ⟨x, C.regIndex reg, rfl, by rw [direct, if_neg hflags], ?_⟩)
        dsimp only at hvolatile ⊢
        split_ifs at hvolatile ⊢ with hx
        · exact absurd rfl hvolatile
        · rfl
      · cases h

section

variable {offset offset' : ℤ} {opSize size : ℕ} {base base' : Option Var} {regIndex regIndex' : Option ℕ}
  {scale scale' : ℕ}

theorem kills_of_stomp {info e : ScoreInfo} (h : C.scoreStomp info e = true) : C.kills info opSize size e = true := by
  unfold Context.kills
  dsimp only
  rw [h]
  rfl

theorem sameBase_iff {b b' : Var} : C.sameBase b b' = true ↔ C.SameVariable b b' := by
  cases b <;> cases b' <;> simp [Context.sameBase, Names.SameVariable, C.id_eq]

/-- Parts of one variable that overlap. -/
theorem kills_plain {v v' : Var} (h : C.SameVariable v v') (hlow : offset' < offset + opSize)
    (hhigh : offset < offset' + size) :
    C.kills (plainInfo C offset v) opSize size (plainInfo C offset' v') = true := by
  rw [← sameBase_iff] at h
  have hsame : C.scoreSame (plainInfo C offset v) (plainInfo C offset' v') = true := by
    cases v <;> cases v' <;> simp_all [Context.scoreSame, plainInfo, Context.sameId, Context.sameBase]
  have hoffset : ∀ v : Var, ∀ o, (plainInfo C o v).offset = o := fun v o => by cases v <;> rfl
  unfold Context.kills
  dsimp only
  split_ifs
  · rw [hsame, hoffset, hoffset, decide_eq_true hlow, decide_eq_true hhigh]
    rfl
  · rfl

/-- An indexed name and a variable, in both orders. -/
theorem stomp_plain (v : Var) :
    (C.scoreStomp ⟨.indexed, offset, base, .null, regIndex, scale⟩ (plainInfo C offset' v) =
      match base, v with
      | none, .temp t => (C.temp t).usage.address
      | none, .memory _ => !C.relaxAlias
      | some b, v => C.sameBase b v) ∧
      C.scoreStomp (plainInfo C offset' v) ⟨.indexed, offset, base, .null, regIndex, scale⟩ =
        match base, v with
        | none, .temp t => (C.temp t).usage.address
        | none, .memory _ => !C.relaxAlias
        | some b, v => C.sameBase b v := by
  cases v with
  | temp t =>
      cases base with
      | none => simp [Context.scoreStomp, plainInfo, Context.useAddress]
      | some b => cases b <;> simp [Context.scoreStomp, Context.stompBound, plainInfo, Context.sameId, Context.sameBase,
          eq_comm]
  | memory m =>
      cases base with
      | none => cases hrelax : C.relaxAlias <;> simp [Context.scoreStomp, plainInfo, hrelax]
      | some b => cases b <;> simp [Context.scoreStomp, Context.stompBound, plainInfo, Context.sameBase, eq_comm]

/-- Two indexed names. -/
theorem stomp_indexed :
    C.scoreStomp ⟨.indexed, offset, base, .null, regIndex, scale⟩ ⟨.indexed, offset', base', .null, regIndex', scale'⟩ =
      match base, base' with
      | some b, some b' => C.sameBase b b'
      | _, _ => true := by
  cases base with
  | none => cases base' <;> simp [Context.scoreStomp]
  | some b =>
      cases base' with
      | none => simp [Context.scoreStomp]
      | some b' => cases b <;> cases b' <;> simp [Context.scoreStomp, Context.stompBound, Context.sameBase, eq_comm]

end

end

section

variable {w : ℕ} {C : Context w}

theorem mem_scoreKillInfo {regs : List (ScoreReg w)} {lists : ℕ → List ScoreInfo} {opSize : ℕ} {info e : ScoreInfo}
    {except : BitVec w} {i : ℕ} : e ∈ scoreKillInfo C regs lists opSize info except i ↔
      e ∈ lists i ∧ ∀ r ∈ regs, r.list = i → hwSubset except r.reg = true ∨ C.kills info opSize r.size e = false := by
  unfold scoreKillInfo
  induction regs generalizing lists with
  | nil => simp
  | cons r regs ih =>
      rw [List.foldl_cons, ih, List.forall_mem_cons, ← and_assoc]
      refine and_congr_left fun _ => ?_
      by_cases hsubset : hwSubset except r.reg = true
      · rw [if_pos hsubset]
        exact ⟨fun h => ⟨h, fun _ => .inl hsubset⟩, And.left⟩
      · rw [if_neg hsubset]
        by_cases hlist : r.list = i
        · subst hlist
          rw [Function.update_self, List.mem_filter]
          simp [hsubset]
        · rw [Function.update_of_ne (Ne.symm hlist)]
          exact ⟨fun h => ⟨h, fun heq => absurd heq hlist⟩, And.left⟩

/-! ## Where names are -/

theorem bytesOf_meet {v v' : Var} {offset offset' : ℤ} {size size' : ℕ}
    (h : (C.bytesOf v offset size ∩ C.bytesOf v' offset' size').Nonempty) :
    C.SameVariable v v' ∧ offset' < offset + size ∧ offset < offset' + size' := by
  obtain ⟨p, hp, hp'⟩ := h
  cases v with
  | temp t =>
      cases v' with
      | temp t' =>
          obtain ⟨x, rfl, hx⟩ := hp
          obtain ⟨y, hy, hy'⟩ := hp'
          obtain ⟨hroot, rfl⟩ := Place.tempByte.inj hy
          exact ⟨hroot, by omega, by omega⟩
      | memory m' =>
          obtain ⟨x, rfl, hx⟩ := hp
          obtain ⟨y, hy, -⟩ := hp'
          cases hy
  | memory m =>
      cases v' with
      | temp t' =>
          obtain ⟨x, rfl, hx⟩ := hp
          obtain ⟨y, hy, -⟩ := hp'
          cases hy
      | memory m' =>
          obtain ⟨x, rfl, hx⟩ := hp
          obtain ⟨y, hy, hy'⟩ := hp'
          obtain ⟨hsymbol, rfl⟩ := Place.memoryByte.inj hy
          exact ⟨hsymbol, by omega, by omega⟩

theorem entryPlaces_plain (offset : ℤ) (v : Var) (size : ℕ) :
    C.entryPlaces (plainInfo C offset v) size = C.bytesOf v offset size := by
  cases v <;> rfl

theorem location_direct {op : Name w} {v : Var} (h : direct op = some v) :
    C.location op = C.bytesOf v (C.varOffset v) (C.nameSize op) := by
  unfold Context.location
  rw [h]

theorem location_indexed {x : IndexedName w} (h : direct (.indexed x) = none) :
    C.location (.indexed x) = C.indexedPlaces x := by
  unfold Context.location
  rw [h]
  rfl

/-- An indexed name with the base can be in the variable: it is of the variable, or free, and then the address of a
temporary is taken. -/
def BaseMeets (C : Context w) (base : Option Var) (v : Var) : Prop :=
  (∃ b, base = some b ∧ C.SameVariable b v) ∨ base = none ∧ ∀ t, v = .temp t → (C.temp t).usage.address = true

theorem baseMeets_of_meetsVar {x : IndexedName w} {v : Var} (h : C.MeetsVar x v) : BaseMeets C x.base v := by
  refine h.imp id fun ⟨hfree, hv⟩ => ⟨hfree, ?_⟩
  rintro t rfl
  exact hv

theorem baseMeets_of_places (htransferred : C.Transferred) {x : IndexedName w} {v : Var} {offset : ℤ} {size : ℕ}
    (h : (C.bytesOf v offset size ∩ C.indexedPlaces x).Nonempty) : BaseMeets C x.base v := by
  obtain ⟨p, hp, hx⟩ := h
  cases hbase : x.base with
  | some b =>
      refine .inl ⟨b, rfl, ?_⟩
      obtain ⟨t, i, rfl, rfl⟩ | ⟨m, i, rfl, rfl⟩ := Names.indexedPlaces_var hbase hx
      · cases v with
        | temp t' =>
            obtain ⟨y, hy, -⟩ := hp
            exact (Place.tempByte.inj hy).1
        | memory m' =>
            obtain ⟨y, hy, -⟩ := hp
            cases hy
      · cases v with
        | temp t' =>
            obtain ⟨y, hy, -⟩ := hp
            cases hy
        | memory m' =>
            obtain ⟨y, hy, -⟩ := hp
            exact (Place.memoryByte.inj hy).1
  | none =>
      refine .inr ⟨rfl, ?_⟩
      rintro t rfl
      obtain ⟨y, rfl, -⟩ := hp
      obtain hp | ⟨t', i, hp, haddress⟩ | ⟨m', i, hp, -⟩ := Names.indexedPlaces_free hbase hx
      · cases hp
      · rw [← htransferred.temp t, (Place.tempByte.inj hp).1, htransferred.temp t', haddress]
      · cases hp

theorem indexedPlaces_meet {x y : IndexedName w} (h : (C.indexedPlaces x ∩ C.indexedPlaces y).Nonempty) :
    x.base = none ∨ y.base = none ∨ ∃ b b', x.base = some b ∧ y.base = some b' ∧ C.SameVariable b b' := by
  obtain ⟨p, hx, hy⟩ := h
  cases hbase : x.base with
  | none => exact .inl rfl
  | some b =>
      cases hbase' : y.base with
      | none => exact .inr (.inl rfl)
      | some b' =>
          refine .inr (.inr ⟨b, b', rfl, rfl, ?_⟩)
          obtain ⟨t, i, rfl, rfl⟩ | ⟨m, i, rfl, rfl⟩ := Names.indexedPlaces_var hbase hx
          · obtain ⟨t', i', rfl, hp⟩ | ⟨m', i', rfl, hp⟩ := Names.indexedPlaces_var hbase' hy
            · exact (Place.tempByte.inj hp).1
            · cases hp
          · obtain ⟨t', i', rfl, hp⟩ | ⟨m', i', rfl, hp⟩ := Names.indexedPlaces_var hbase' hy
            · cases hp
            · exact (Place.memoryByte.inj hp).1

/-! ## What is taken out -/

/-- What is stored to or listed and indexed is stomped on where it can meet a variable. -/
theorem stomp_of_baseMeets {v : Var} {base : Option Var} (h : BaseMeets C base v) {offset offset' : ℤ}
    {regIndex : Option ℕ} {scale : ℕ} (hrelaxed : C.relaxAlias = true → base = none → ∀ m, v ≠ .memory m) :
    C.scoreStomp ⟨.indexed, offset, base, .null, regIndex, scale⟩ (plainInfo C offset' v) = true ∧
      C.scoreStomp (plainInfo C offset' v) ⟨.indexed, offset, base, .null, regIndex, scale⟩ = true := by
  rw [(stomp_plain v).1, (stomp_plain v).2]
  obtain ⟨b, rfl, hsame⟩ | ⟨rfl, haddress⟩ := h
  · exact ⟨sameBase_iff.2 hsame, sameBase_iff.2 hsame⟩
  · cases v with
    | temp t => exact ⟨haddress t rfl, haddress t rfl⟩
    | memory m =>
        cases hrelax : C.relaxAlias with
        | true => exact absurd rfl (hrelaxed hrelax rfl m)
        | false => exact ⟨rfl, rfl⟩

theorem stomp_of_indexed {base base' : Option Var} {offset offset' : ℤ} {regIndex regIndex' : Option ℕ}
    {scale scale' : ℕ}
    (h : base = none ∨ base' = none ∨ ∃ b b', base = some b ∧ base' = some b' ∧ C.SameVariable b b') :
    C.scoreStomp ⟨.indexed, offset, base, .null, regIndex, scale⟩ ⟨.indexed, offset', base', .null, regIndex', scale'⟩ =
      true := by
  rw [stomp_indexed]
  obtain rfl | rfl | ⟨b, b', rfl, rfl, hsame⟩ := h
  · rfl
  · cases base <;> rfl
  · exact sameBase_iff.2 hsame

theorem Context.Listed.not_volatile {e : ScoreInfo} (h : C.Listed e) : e.scoreClass ≠ .volatile := by
  cases h <;> exact fun heq => nomatch heq

/-- The name is one that can be stored to. -/
def IsStore : Name w → Prop
  | .simple (.var _) => True
  | .indexed _ => True
  | _ => False

/-- What the store touches is taken out, unless it is volatile or the relaxed rules leave it. -/
theorem kills_of_touches (htransferred : C.Transferred) {op : Name w} {info e : ScoreInfo} {size : ℕ}
    (hinfo : C.scoreInfo op = some info) (hstore : IsStore op) (he : C.Listed e) (htouches : C.Touches op e size)
    (hvolatile : info.scoreClass ≠ .volatile) (hrelaxed : ¬ C.RelaxedFree info e) :
    C.kills info (C.nameSize op) size e = true := by
  obtain ⟨v, hv, rfl⟩ | ⟨x, regIndex, rfl, hx, rfl⟩ | ⟨c, rfl, -⟩ := scoreInfo_cases hinfo hvolatile
  · -- the store is to bytes of a variable
    have hbytes : ∀ v' offset', e = plainInfo C offset' v' → (C.location op ∩ C.bytesOf v' offset' size).Nonempty →
        C.kills (plainInfo C (C.varOffset v) v) (C.nameSize op) size e = true := by
      rintro v' offset' rfl hmeet
      rw [location_direct hv] at hmeet
      obtain ⟨hsame, hlow, hhigh⟩ := bytesOf_meet hmeet
      exact kills_plain hsame hlow hhigh
    have hindexed : ∀ base offset' regIndex scale, e = ⟨.indexed, offset', base, .null, regIndex, scale⟩ →
        BaseMeets C base v → C.kills (plainInfo C (C.varOffset v) v) (C.nameSize op) size e = true := by
      rintro base offset' regIndex scale rfl hmeets
      refine kills_of_stomp (stomp_of_baseMeets hmeets ?_).2
      rintro hrelax rfl m rfl
      exact hrelaxed ⟨hrelax, .inr ⟨rfl, rfl, rfl⟩⟩
    obtain hmeet | ⟨listed, hlisted, hsize, hzaps, hshares⟩ := htouches
    · cases he with
      | temp t offset' =>
          rw [show (⟨.temp, offset', none, .temp t, none, 0⟩ : ScoreInfo) = plainInfo C offset' (.temp t) from rfl,
            entryPlaces_plain] at hmeet
          exact hbytes (.temp t) offset' rfl hmeet
      | memory m offset' =>
          rw [show (⟨.memory, offset', none, .memory (C.memory m).symbol, none, 0⟩ : ScoreInfo) =
            plainInfo C offset' (.memory m) from rfl, entryPlaces_plain] at hmeet
          exact hbytes (.memory m) offset' rfl hmeet
      | indexed offset' base regIndex scale =>
          rw [location_direct hv] at hmeet
          exact hindexed base offset' _ scale rfl (baseMeets_of_places htransferred hmeet)
      | constant offset' symbol =>
          obtain ⟨p, -, hp⟩ := hmeet
          exact absurd hp (Set.notMem_empty p)
      | address v' offset' =>
          obtain ⟨p, -, hp⟩ := hmeet
          exact absurd hp (Set.notMem_empty p)
    · unfold Context.Shares at hshares
      rw [hv] at hshares
      obtain ⟨v', hv', rfl⟩ | ⟨y, regIndex, rfl, hy, rfl⟩ | ⟨c, rfl, -⟩ := scoreInfo_cases hlisted he.not_volatile
      · rw [hv'] at hshares
        dsimp only at hshares
        rw [location_direct hv', hsize] at hshares
        exact hbytes v' _ rfl hshares
      · rw [hy] at hshares
        obtain ⟨y', hy', hmeets⟩ := hshares
        obtain rfl := Name.indexed.inj hy'
        exact hindexed _ _ _ _ rfl (baseMeets_of_meetsVar hmeets)
      · exact absurd rfl hzaps
  · -- the store is through an index
    have hbytes : ∀ v' offset', e = plainInfo C offset' v' → BaseMeets C x.base v' →
        C.kills ⟨.indexed, x.constant, x.base, .null, some regIndex, x.scale⟩ (C.nameSize (.indexed x)) size e =
          true := by
      rintro v' offset' rfl hmeets
      refine kills_of_stomp (stomp_of_baseMeets hmeets ?_).1
      rintro hrelax hfree m rfl
      exact hrelaxed ⟨hrelax, .inl ⟨rfl, hfree, rfl⟩⟩
    obtain hmeet | ⟨listed, hlisted, hsize, hzaps, hshares⟩ := htouches
    · rw [location_indexed hx] at hmeet
      cases he with
      | temp t offset' =>
          rw [Set.inter_comm] at hmeet
          exact hbytes (.temp t) offset' rfl (baseMeets_of_places htransferred hmeet)
      | memory m offset' =>
          rw [Set.inter_comm] at hmeet
          exact hbytes (.memory m) offset' rfl (baseMeets_of_places htransferred
            (show (C.bytesOf (.memory m) offset' size ∩ C.indexedPlaces x).Nonempty from hmeet))
      | indexed offset' base regIndex' scale =>
          exact kills_of_stomp (stomp_of_indexed (indexedPlaces_meet hmeet))
      | constant offset' symbol =>
          obtain ⟨p, -, hp⟩ := hmeet
          exact absurd hp (Set.notMem_empty p)
      | address v' offset' =>
          obtain ⟨p, -, hp⟩ := hmeet
          exact absurd hp (Set.notMem_empty p)
    · unfold Context.Shares at hshares
      rw [hx] at hshares
      obtain ⟨v', hv', rfl⟩ | ⟨y, regIndex', rfl, hy, rfl⟩ | ⟨c, rfl, -⟩ := scoreInfo_cases hlisted he.not_volatile
      · rw [hv'] at hshares
        obtain ⟨x', hx', hmeets⟩ := hshares
        obtain rfl := Name.indexed.inj hx'
        exact hbytes v' _ rfl (baseMeets_of_meetsVar hmeets)
      · rw [hy] at hshares
        obtain ⟨x', y', hx', hy', hmeets⟩ := hshares
        obtain rfl := Name.indexed.inj hx'
        obtain rfl := Name.indexed.inj hy'
        exact kills_of_stomp (stomp_of_indexed hmeets)
      · exact absurd rfl hzaps
  · exact absurd hstore id

/-- Of a volatile store nothing is taken out. -/
theorem kills_volatile {info e : ScoreInfo} {opSize size : ℕ} (he : C.Listed e) (h : info.scoreClass = .volatile) :
    C.kills info opSize size e = false := by
  have hstomp : C.scoreStomp info e = false := by
    cases he with
    | indexed offset base regIndex scale => cases base <;> simp [Context.scoreStomp, Context.stompBound, h]
    | _ => simp [Context.scoreStomp, Context.stompBound, h]
  have hsame : C.scoreSame info e = false := by
    unfold Context.scoreSame
    rw [if_pos (h ▸ he.not_volatile.symm)]
  unfold Context.kills
  rw [hstomp, hsame]
  rfl

theorem kills_relaxedFree {info e : ScoreInfo} {opSize size : ℕ} (h : C.RelaxedFree info e) :
    C.kills info opSize size e = false := by
  obtain ⟨hrelax, ⟨hinfo, hfree, he⟩ | ⟨hinfo, he, hfree⟩⟩ := h
  · simp [Context.kills, Context.scoreStomp, Context.scoreSame, hinfo, hfree, he, hrelax]
  · simp [Context.kills, Context.scoreStomp, Context.scoreSame, hinfo, hfree, he, hrelax]

/-- The scoreboard forgets what the store touches exactly if every entry of that kind is in the list of a register that
is not excepted, the store is not volatile, and the relaxed rules do not leave the entry. -/
theorem scoreKillInfo_forgets_iff {w : ℕ} (C : Context w) (htransferred : C.Transferred) (board : Board C) (op : Name w)
    (info : ScoreInfo) (hinfo : C.scoreInfo op = some info) (hstore : IsStore op) (except : BitVec w) :
    Forgets C board op info except ↔ ∀ r ∈ board.regs, ∀ e ∈ board.lists r.list, C.Touches op e r.size →
      (∃ r' ∈ board.regs, r'.list = r.list ∧ hwSubset except r'.reg = false) ∧ info.scoreClass ≠ .volatile ∧
        ¬ C.RelaxedFree info e := by
  constructor
  · intro h r hr e he htouches
    have hkilled : ¬ e ∈ scoreKillInfo C board.regs board.lists (C.nameSize op) info except r.list :=
      fun hmem => h r hr e hmem htouches
    rw [mem_scoreKillInfo, not_and] at hkilled
    obtain ⟨r', hr', hlist, hkept⟩ : ∃ r' ∈ board.regs, r'.list = r.list ∧ ¬ (hwSubset except r'.reg = true ∨
        C.kills info (C.nameSize op) r'.size e = false) := by
      have := hkilled he
      push Not at this ⊢
      exact this
    rw [not_or, Bool.not_eq_true, Bool.not_eq_false] at hkept
    refine ⟨⟨r', hr', hlist, hkept.1⟩, fun hvolatile => ?_, fun hrelaxed => ?_⟩
    · cases hkept.2.symm.trans (kills_volatile (board.listed r hr e he) hvolatile)
    · cases hkept.2.symm.trans (kills_relaxedFree hrelaxed)
  · intro h r hr e hmem htouches
    rw [mem_scoreKillInfo] at hmem
    obtain ⟨he, hkept⟩ := hmem
    obtain ⟨⟨r', hr', hlist, hsubset⟩, hvolatile, hrelaxed⟩ := h r hr e he htouches
    have hkills := kills_of_touches htransferred hinfo hstore (board.listed r hr e he) htouches hvolatile hrelaxed
    rcases hkept r' hr' hlist with htrue | hfalse
    · rw [hsubset] at htrue
      cases htrue
    · rw [board.same_size r' hr' r hr hlist, hkills] at hfalse
      cases hfalse

end

theorem oneVariable_deAlias (t : ℕ) : oneVariable.deAlias t = t := by
  have hfind : Nat.find (oneVariable.alias_ends t) = 0 := (Nat.find_eq_zero _).2 rfl
  unfold Names.deAlias
  rw [hfind]
  rfl

/-- One variable whose address is taken, with the relaxed rules. -/
def oneContext : Context 8 where
  toNames := oneVariable
  id t := t
  id_eq t t' := by rw [oneVariable_deAlias, oneVariable_deAlias]
  const _ := ⟨.absolute, none, 0⟩
  regIndex reg := reg.toNat
  pointer _ := 0

/-- A register that has the value of the variable. -/
def oneEntry : Board oneContext where
  regs := [⟨1, 4, 0⟩]
  lists _ := [⟨.memory, 0, none, .memory 0, none, 0⟩]
  same_size r hr r' hr' _ := by rw [List.mem_singleton.1 hr, List.mem_singleton.1 hr']
  listed r hr e he := by
    obtain rfl := List.mem_singleton.1 he
    exact .memory 0 0

/-- A store to the variable is forgotten. -/
theorem oneEntry_forgets :
    Forgets oneContext oneEntry (.simple (.var (.memory 0))) ⟨.memory, 0, none, .memory 0, none, 0⟩ 0 :=
  (scoreKillInfo_forgets_iff oneContext oneVariable_transferred oneEntry (.simple (.var (.memory 0))) _ rfl trivial 0).2
    fun r hr e he _ => by
    obtain rfl := List.mem_singleton.1 hr
    obtain rfl := List.mem_singleton.1 he
    exact ⟨⟨_, List.mem_singleton_self _, rfl, by decide⟩, by decide, fun h => by
      rcases h.2 with ⟨hc, -⟩ | ⟨-, hc, -⟩ <;> exact absurd hc (by decide)⟩

/-- A store through a register can be to the variable, but its value stays listed. -/
theorem oneEntry_stale :
    oneContext.scoreInfo (.indexed ⟨.register 2, none, 0, 4, 0, 0, false⟩) =
        some ⟨.indexed, 0, none, .null, some 2, 0⟩ ∧
      ¬ Forgets oneContext oneEntry (.indexed ⟨.register 2, none, 0, 4, 0, 0, false⟩)
        ⟨.indexed, 0, none, .null, some 2, 0⟩ 0 := by
  refine ⟨rfl, fun h => ?_⟩
  have hlisted : (⟨.memory, 0, none, .memory 0, none, 0⟩ : ScoreInfo) ∈
      scoreKillInfo oneContext oneEntry.regs oneEntry.lists 4 ⟨.indexed, 0, none, .null, some 2, 0⟩ 0 0 := by
    decide
  refine h ⟨1, 4, 0⟩ (List.mem_singleton_self _) _ hlisted (.inl ⟨.memoryByte 0 0, ?_, 0, rfl, by decide, by decide⟩)
  exact .inr (.inr ⟨0, 0, rfl, rfl, fun _ => rfl⟩)

end OpenWatcom.Scoreboard
