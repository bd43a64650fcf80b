import OpenWatcom.Lib.ForwardCode
import Mathlib.Data.BitVec

/-! # Selection statements of the code generator

`bldsel.c` with the cost functions of `x86sel.c`: a selection node collects labelled
case ranges (`bgSelRange`), `bgSelect` chooses between a scan table, a jump table and a
comparison tree and between the signed and the unsigned order of the values, and
`doBinarySearch` emits the comparison tree.

A `signed_64` is its 64-bit pattern.  `SortTipe`, a variable of the module in the
source, is the argument `sortTipe`: it decides the order of `selCompare` and the type
of the generated comparisons.  Tables are not followed further than their choice. -/

namespace OpenWatcom.Cg

open ForwardCode

/-! ### Integer types -/

/-- The lengths of the integer types, in bytes: 1, 2, 4 and 8. -/
inductive IntLength where
  | one | two | four | eight
  deriving DecidableEq, Repr

/-- The width in bits. -/
def IntLength.bits : IntLength → ℕ
  | .one => 8
  | .two => 16
  | .four => 32
  | .eight => 64

theorem IntLength.bits_pos (n : IntLength) : 0 < n.bits := by cases n <;> decide

theorem IntLength.bits_le (n : IntLength) : n.bits ≤ 64 := by cases n <;> decide

/-- A `type_def` of an integer type: its length and the attribute `TYPE_SIGNED`. -/
structure TypeDef where
  length : IntLength
  signed : Bool
  deriving DecidableEq, Repr

/-- The type number, `TY_UINT_1 = 0, TY_INT_1, TY_UINT_2, …`. -/
def TypeDef.refno (t : TypeDef) : ℕ :=
  2 * (match t.length with | .one => 0 | .two => 1 | .four => 2 | .eight => 3) + t.signed.toNat

/-- `SelNodeType`: the type of the node's length with the given sign. -/
def selNodeType (length : IntLength) (isSigned : Bool) : TypeDef := ⟨length, isSigned⟩

/-! ### Selection nodes -/

/-- An entry of the case list, `select_list`. -/
structure SelectList (L : Type) where
  low : BitVec 64
  high : BitVec 64
  count : BitVec 64
  label : L
  deriving DecidableEq, Repr

/-- A selection, `select_node`. -/
structure SelectNode (L : Type) where
  numCases : BitVec 64
  otherWise : Option L
  list : List (SelectList L)
  lower : BitVec 64
  upper : BitVec 64
  deriving DecidableEq, Repr

variable {L : Type}

def newCase (lo hi : BitVec 64) (label : L) : SelectList L :=
  { low := lo, high := hi, count := hi - lo + 1, label := label }

/-- `BGSelInit`; `lower` and `upper` are set by `sortNodeList`. -/
def bgSelInit : SelectNode L :=
  { numCases := 0, otherWise := none, list := [], lower := 0, upper := 0 }

/-- `BGSelRange`: the new entry goes in front of the list. -/
def bgSelRange (s : SelectNode L) (lo hi : BitVec 64) (label : L) : SelectNode L :=
  { s with
    list := newCase lo hi label :: s.list
    numCases := s.numCases + (newCase lo hi label).count }

def bgSelCase (s : SelectNode L) (label : L) (value : BitVec 64) : SelectNode L :=
  bgSelRange s value value label

def bgSelOther (s : SelectNode L) (other : Option L) : SelectNode L :=
  { s with otherWise := other }

/-- `I64Cmp`: the order of the patterns as signed numbers. -/
def i64Cmp (a b : BitVec 64) : ℤ :=
  if b.toInt < a.toInt then 1 else if a.toInt < b.toInt then -1 else 0

/-- `U64Cmp`: the order of the patterns as unsigned numbers. -/
def u64Cmp (a b : BitVec 64) : ℤ :=
  if b.toNat < a.toNat then 1 else if a.toNat < b.toNat then -1 else 0

/-- `SelCompare`, in the order of `SortTipe`. -/
def selCompare (sortTipe : TypeDef) (lo1 lo2 : BitVec 64) : ℤ :=
  if sortTipe.signed then i64Cmp lo1 lo2 else u64Cmp lo1 lo2

def nodeLess (sortTipe : TypeDef) (s1 s2 : SelectList L) : Bool :=
  decide (selCompare sortTipe s1.low s2.low < 0)

/-- `SortNodeList`: sort by lower bounds and note the bounds of the whole list.  Ranges
that have no value in common have different lower bounds, and then every sort by `NodeLess`
gives this list. -/
def sortNodeList (sortTipe : TypeDef) (s : SelectNode L) : SelectNode L :=
  let list := s.list.mergeSort fun a b => !nodeLess sortTipe b a
  { s with
    list := list
    lower := (list.head?.map SelectList.low).getD s.lower
    upper := (list.getLast?.map SelectList.high).getD s.upper }

/-- The loop of `MergeListEntries`, at the entry `e` with the rest of the list. -/
def mergeFrom [DecidableEq L] (e : SelectList L) : List (SelectList L) → List (SelectList L)
  | [] => [e]
  | next :: rest =>
    if e.high + 1 = next.low ∧ e.label = next.label then
      mergeFrom { e with high := next.high, count := e.count + next.count } rest
    else
      e :: mergeFrom next rest

/-- `MergeListEntries`: ranges that continue each other and have the same label become one. -/
def mergeListEntries [DecidableEq L] (s : SelectNode L) : SelectNode L :=
  match s.list with
  | [] => s
  | e :: rest => { s with list := mergeFrom e rest }

/-! ### Costs -/

/-- What the cost functions know of the target: the word size and the length of the long
jump (both smaller on the 8086), and the weight `OptForSize`. -/
structure Target where
  is8086 : Bool
  optForSize : UInt8

def Target.wordSize (t : Target) : UInt32 := if t.is8086 then 2 else 4
def Target.longJump (t : Target) : UInt32 := if t.is8086 then 5 else 6
def Target.shortJump (_ : Target) : UInt32 := 2

def maxCost : UInt32 := 0x7FFFFFFF
def minJumps : UInt32 := 4
def minLvalues : UInt32 := 5
def minSvalues : UInt32 := 7
def minJumpsSetup : UInt32 := 12
def minScanSetup : UInt32 := 12
def maxInRange : UInt32 := maxCost / 1000

/-- `SelType`: the smallest unsigned type for the range of values, but not longer than `SortTipe`. -/
def selType (sortTipe : TypeDef) (valueRange : BitVec 64) : TypeDef :=
  let tipe : TypeDef :=
    if valueRange.toNat / 2 ^ 32 ≠ 0 then ⟨.eight, false⟩
    else if valueRange.toNat % 2 ^ 32 / 2 ^ 16 ≠ 0 then ⟨.four, false⟩
    else if valueRange.toNat % 2 ^ 16 / 2 ^ 8 ≠ 0 then ⟨.two, false⟩
    else ⟨.one, false⟩
  if sortTipe.refno < tipe.refno then ⟨sortTipe.length, false⟩ else tipe

/-- `Balance`, in 32-bit unsigned arithmetic. -/
def balance (t : Target) (size time : UInt32) : UInt32 :=
  let optSize : UInt32 := if t.optForSize < 25 then 25 else t.optForSize.toUInt32
  let balance := (size * optSize + 10 * time * (100 - optSize)) / 100
  if maxCost < balance then maxCost else balance

/-- The size of a type of this length. -/
def IntLength.size : IntLength → UInt32
  | .one => 1
  | .two => 2
  | .four => 4
  | .eight => 8

/-- `GetCmpSize`: the size of a comparison with a constant of this length. -/
def getCmpSize (t : Target) : IntLength → UInt32
  | .one => 2
  | .two => if t.is8086 then 3 else 4
  | .four => if t.is8086 then 9 else 5
  | .eight => 0

def scanCost (t : Target) (sortTipe : TypeDef) (s : SelectNode L) : UInt32 :=
  let type := selType sortTipe (s.upper - s.lower)
  if type = ⟨.eight, false⟩ then maxCost
  else if s.numCases.toNat / 2 ^ 32 ≠ 0 then maxCost
  else
    let values := UInt32.ofNat s.numCases.toNat
    if minSvalues ≤ values ∨ type = ⟨.four, false⟩ ∧ minLvalues ≤ values then
      balance t (minScanSetup + values * (t.wordSize + type.length.size)) (values / 2)
    else maxCost

def jumpCost (t : Target) (sortTipe : TypeDef) (s : SelectNode L) : UInt32 :=
  let tmp := s.upper - s.lower + 1
  let inRange := UInt32.ofNat tmp.toNat
  if tmp.toNat / 2 ^ 32 = 0 ∧ inRange ≤ maxInRange ∧
      minJumps ≤ UInt32.ofNat s.numCases.toNat ∧ minJumps ≤ inRange then
    let size := minJumpsSetup + t.wordSize * inRange
    balance t (if selType sortTipe (-1) = ⟨.one, false⟩ then size + 2 else size) 1
  else maxCost

/-- The rounds of the loop that shifts `entries` right by two until nothing is left. -/
def logEntries (entries : ℕ) : UInt32 :=
  if entries = 0 then 0 else logEntries (entries / 4) + 1
decreasing_by omega

/-- `IfCost`.  The loop for the logarithm leaves nothing of `entries`, so the term
`(entries / 4) * 2 * jumpsize` that follows it in the source is 0. -/
def ifCost (t : Target) (sortTipe : TypeDef) (s : SelectNode L) (entries : UInt32) : UInt32 :=
  let typeLength := (selType sortTipe (s.upper - s.lower)).length
  let jumpsize := if 20 < entries then t.longJump else t.shortJump
  let size := jumpsize + getCmpSize t typeLength
  let size := if selType sortTipe (-1) ≠ ⟨.one, false⟩ ∧ typeLength = .one then size + 1 else size
  let cost := balance t (size * entries) (logEntries entries.toNat)
  if maxCost ≤ cost then maxCost - 1 else cost

/-- The loop of `DistinctIfCost`: how many entries start after `list` that do not continue it. -/
def distinctAfter [DecidableEq L] (list : SelectList L) : List (SelectList L) → UInt32
  | [] => 0
  | next :: rest =>
    if list.high + 1 ≠ next.low ∨ list.label ≠ next.label then 1 + distinctAfter next rest
    else distinctAfter list rest

def distinctIfCost [DecidableEq L] (t : Target) (sortTipe : TypeDef) (s : SelectNode L) : UInt32 :=
  match s.list with
  | [] => ifCost t sortTipe s 1
  | list :: rest => ifCost t sortTipe s (1 + distinctAfter list rest)

/-! ### The comparison tree -/

/-- The comparisons `O_EQ`, `O_LT` and `O_LE`. -/
inductive CompareOp where
  | eq | lt | le
  deriving DecidableEq, Repr

/-- A comparison of the switch value with a constant. -/
structure Compare where
  op : CompareOp
  value : BitVec 64
  deriving DecidableEq, Repr

/-- The constant of a comparison, `BGIntegerSel`: all of it for a type of length 8, its low 32
bits otherwise, taken at the width of the type. -/
def bgIntegerSel (value : BitVec 64) (tipe : TypeDef) : BitVec tipe.length.bits :=
  if tipe.length = .eight then value.setWidth _ else (value.setWidth 32).setWidth _

/-- The value of the comparison at run time, in the type `tipe`. -/
def Compare.holds (tipe : TypeDef) (v : BitVec tipe.length.bits) (c : Compare) : Bool :=
  let value := bgIntegerSel c.value tipe
  match c.op, tipe.signed with
  | .eq, _ => v == value
  | .lt, true => v.slt value
  | .lt, false => v.ult value
  | .le, true => v.sle value
  | .le, false => v.ule value

/-- A piece of generated code. -/
abbrev Code (L : Type) := List (Instr Compare L)

/-- `if( other != NULL ) BGControl( O_GOTO, NULL, other )`. -/
def gotoOther : Option L → Code L
  | none => []
  | some other => [.jump (some (.final other))]

/-- The end of a run of entries is a single value. -/
def isSingle : Option (SelectList L) → Bool
  | none => false
  | some e => e.low == e.high

/-- The first test of `DoBinarySearch` at the entry `mid`: a value under `mid` goes to the label
`lt`.  It is left out when the lower bound implies that there is none, and is a plain jump
when the upper bound implies that there is nothing else. -/
def ltTest (sortTipe : TypeDef) (mid : SelectList L) (lobound hibound : BitVec 64)
    (haveLobound haveHibound : Bool) (lt : ℕ) : Code L :=
  if !haveLobound ∨ selCompare sortTipe lobound mid.low < 0 then
    if haveHibound ∧ selCompare sortTipe hibound mid.low < 0 then
      [.jump (some (.here lt))]
    else
      [.ifTrue ⟨.lt, mid.low⟩ (.here lt)]
  else []

/-- The second test of `DoBinarySearch`: a value up to the end of `mid` goes to its label. -/
def leTest (sortTipe : TypeDef) (mid : SelectList L) (lobound hibound : BitVec 64)
    (haveLobound haveHibound : Bool) : Code L :=
  if !haveLobound ∨ selCompare sortTipe lobound mid.high ≤ 0 then
    if haveHibound ∧ selCompare sortTipe hibound mid.high ≤ 0 then
      [.jump (some (.final mid.label))]
    else
      [.ifTrue ⟨.le, mid.high⟩ (.final mid.label)]
  else []

/-- `DoBinarySearch` for the entries from `lo` to `hi`.  `next` is the number the next label of
`AskForNewLabel` gets; the second result is its value afterwards. -/
def doBinarySearch (sortTipe : TypeDef) (list : List (SelectList L)) (other : Option L)
    (lo hi : ℕ) (lobound hibound : BitVec 64) (haveLobound haveHibound : Bool) (next : ℕ) :
    Code L × ℕ :=
  let mid := lo + (hi - lo) / 2
  match list[mid]? with
  | none => ([], next)
  | some midList =>
    if lo = hi ∧ haveLobound ∧ lobound = midList.low ∧ haveHibound ∧ hibound = midList.high then
      ([.jump (some (.final midList.label))], next)
    else if lo = hi ∧ midList.low = midList.high then
      ([.ifTrue ⟨.eq, midList.low⟩ (.final midList.label), .jump (other.map .final)], next)
    else if _ : hi = mid + 1 ∧ isSingle list[hi]? then
      match list[hi]? with
      | none => ([], next)
      | some last =>
        -- equality alone moves the upper bound only where the bound was this very value
        let tmp := if haveHibound ∧ hibound = last.low then hibound - 1 else hibound
        let body := doBinarySearch sortTipe list other lo mid lobound tmp haveLobound haveHibound next
        (.ifTrue ⟨.eq, last.low⟩ (.final last.label) :: body.1, body.2)
    else
      let lt := next
      let above :=
        if _ : mid < hi then
          doBinarySearch sortTipe list other (mid + 1) hi (midList.high + 1) hibound true
            haveHibound (lt + 1)
        else (gotoOther other, lt + 1)
      let below :=
        if _ : lo < mid then
          doBinarySearch sortTipe list other lo (mid - 1) lobound (midList.low - 1) haveLobound true
            above.2
        else (gotoOther other, above.2)
      (ltTest sortTipe midList lobound hibound haveLobound haveHibound lt ++
        leTest sortTipe midList lobound hibound haveLobound haveHibound ++
        above.1 ++ .label lt :: below.1, below.2)
termination_by hi - lo

/-- `GenIfStmts`: the comparison tree for the whole list. -/
def genIfStmts (sortTipe : TypeDef) (s : SelectNode L) : Code L :=
  (doBinarySearch sortTipe s.list s.otherWise 0 (s.list.length - 1) 0 0 false false 0).1

/-! ### The choice -/

/-- The ways to lower a selection, `sel_kind` without the sign. -/
inductive SelKind where
  | scan | jump | ifs
  deriving DecidableEq, Repr

/-- The methods a caller of `BGSelect` allows, `cg_switch_type`. -/
structure Allowed where
  scan : Bool
  table : Bool
  bsearch : Bool
  deriving DecidableEq, Repr

/-- No method at all is an internal error, after which all of them are allowed. -/
def Allowed.fix (a : Allowed) : Allowed :=
  if !a.scan && !a.table && !a.bsearch then ⟨true, true, true⟩ else a

/-- The best method so far: its cost, its kind and the order of its list. -/
structure Best where
  cost : UInt32
  kind : SelKind
  signed : Bool
  deriving DecidableEq, Repr

/-- `if( allowed & … ) { cost = …; if( cost <= best ) … }`. -/
def Best.consider (b : Best) (allowed : Bool) (cost : UInt32) (kind : SelKind) (signed : Bool) :
    Best :=
  if allowed ∧ cost ≤ b.cost then ⟨cost, kind, signed⟩ else b

/-- The three methods on a list that has just been sorted. -/
def Best.sweep [DecidableEq L] (b : Best) (t : Target) (allowed : Allowed) (sortTipe : TypeDef)
    (s : SelectNode L) : Best :=
  ((b.consider allowed.scan (scanCost t sortTipe s) .scan sortTipe.signed).consider
    allowed.table (jumpCost t sortTipe s) .jump sortTipe.signed).consider
    allowed.bsearch (distinctIfCost t sortTipe s) .ifs sortTipe.signed

/-- What `BGSelect` generates: nothing or a jump to the otherwise label for a node without
cases, a table, or the comparison tree, each of the last two for a list in the order of `sortTipe`. -/
inductive Selected (L : Type) where
  | empty (other : Option L)
  | table (kind : SelKind) (sortTipe : TypeDef) (s : SelectNode L)
  | tree (sortTipe : TypeDef) (code : Code L)
  deriving DecidableEq, Repr

/-- `BGSelect` for a node of the given length. -/
def bgSelect [DecidableEq L] (t : Target) (s : SelectNode L) (length : IntLength)
    (allowed : Allowed) : Selected L :=
  let allowed := allowed.fix
  if s.numCases = 0 then .empty s.otherWise
  else
    let signedTipe := selNodeType length true
    let unsignedTipe := selNodeType length false
    let s1 := sortNodeList signedTipe s
    let best1 := Best.sweep ⟨maxCost, .scan, false⟩ t allowed signedTipe s1
    let s2 := sortNodeList unsignedTipe s1
    let best := best1.sweep t allowed unsignedTipe s2
    let sortTipe := if best.signed then signedTipe else unsignedTipe
    let s3 := if best.signed then sortNodeList signedTipe s2 else s2
    let s4 := mergeListEntries s3
    match best.kind with
    | .ifs => .tree sortTipe (genIfStmts sortTipe s4)
    | kind => .table kind sortTipe s4

end OpenWatcom.Cg
