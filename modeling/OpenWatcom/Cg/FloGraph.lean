import Mathlib
import OpenWatcom.Lib.Chains

/-! # The flow graph of a routine

`MakeFlowGraph` puts a block into every edge from a block to itself, brings the blocks into depth first order, reduces
the graph to intervals level by level, and marks the heads of loops.  The passes borrow the links of the block list. -/

namespace OpenWatcom.FloGraph

/-- `edge[index]` of a block. -/
structure Edge (β : Type*) where
  source : β
  index : ℕ
  deriving DecidableEq

/-- The blocks with their links and edges. -/
structure Flow (β : Type*) where
  headBlock : Option β
  blockList : Option β
  next : β → Option β
  prev : β → Option β
  /-- The destinations of `edge[0]` to `edge[targets - 1]`. -/
  dest : β → List β
  /-- `input_edges`. -/
  inputs : β → List (Edge β)
  isReturn : β → Bool
  isSelect : β → Bool
  visited : β → Bool
  /-- `BLK_LOOP_HEADER`. -/
  loopHeader : β → Bool
  iterationsKnown : β → Bool
  loopHead : β → Option β
  depth : β → ℕ
  blkId : β → ℕ

open Function (update)

variable {β : Type*} [DecidableEq β]

/-- The blocks from one on, along the links. -/
def walk (next : β → Option β) : ℕ → Option β → Option (List β)
  | 0, _ => none
  | _ + 1, none => some []
  | fuel + 1, some blk => (walk next fuel (next blk)).map (blk :: ·)

/-! ### The blocks in order -/

def irreducableBlock (s : Flow β) (blk : β) : Flow β :=
  { s with
    iterationsKnown := update s.iterationsKnown blk false
    loopHeader := update s.loopHeader blk false
    loopHead := update s.loopHead blk none
    depth := update s.depth blk 1 }

/-- `Irreducable`. -/
def irreducable (fuel : ℕ) (s : Flow β) : Option (Flow β) :=
  (walk s.next fuel s.headBlock).map fun blks => blks.foldl irreducableBlock s

section NoBlocksToSelf

/- The block that is made for an edge. -/
variable (fresh : Edge β → β)

/-- What `NoBlocksToSelf` does for an input edge of a block. -/
def splitEdge (blk : β) (s : Flow β) (edge : Edge β) : Flow β :=
  if edge.source = blk then
    let new_blk := fresh edge
    let prev := update s.prev new_blk (some blk)
    { s with
      next := update (update s.next new_blk (s.next blk)) blk (some new_blk)
      prev := match s.next blk with
        | some after => update prev after (some new_blk)
        | none => prev
      dest := update (update s.dest new_blk [blk]) blk ((s.dest blk).set edge.index new_blk)
      inputs := update (update s.inputs new_blk [edge]) blk
        ((s.inputs blk).map fun e => if e = edge then ⟨new_blk, 0⟩ else e)
      isReturn := update s.isReturn new_blk false
      isSelect := update s.isSelect new_blk false
      visited := update s.visited new_blk false
      loopHeader := update s.loopHeader new_blk false
      iterationsKnown := update s.iterationsKnown new_blk false
      loopHead := update s.loopHead new_blk none
      depth := update s.depth new_blk 0
      blkId := update s.blkId new_blk 65535 }
  else s

/-- The loop of `NoBlocksToSelf`. -/
def noBlocksToSelfFrom : ℕ → Option β → Flow β → Option (Flow β)
  | 0, _, _ => none
  | _ + 1, none, s => some s
  | fuel + 1, some blk, s =>
    let s := (s.inputs blk).foldl (splitEdge fresh blk) s
    noBlocksToSelfFrom fuel (s.next blk) s

/-- `NoBlocksToSelf`. -/
def noBlocksToSelf (fuel : ℕ) (s : Flow β) : Option (Flow β) := noBlocksToSelfFrom fresh fuel s.headBlock s

end NoBlocksToSelf

/-- What `MarkVisited` changes. -/
structure Search (β : Type*) where
  visited : β → Bool
  prev : β → Option β
  blockList : Option β

/-- `MarkVisited`. -/
def markVisited (dest : β → List β) : ℕ → β → Search β → Option (Search β)
  | 0, _, _ => none
  | fuel + 1, blk, r => do
    let r ← (dest blk).foldlM (fun r next => if r.visited next then some r else markVisited dest fuel next r)
      { r with visited := update r.visited blk true }
    some { r with prev := update r.prev blk r.blockList, blockList := some blk }

/-- A turn of the loop of `DepthFirstSearch`. -/
def pushUnvisited (t : Bool × Search β) (blk : β) : Bool × Search β :=
  if t.2.visited blk then (t.1, { t.2 with visited := update t.2.visited blk false })
  else (false, ⟨update t.2.visited blk false, update t.2.prev blk t.2.blockList, some blk⟩)

/-- The links and marks that a search leaves. -/
def Flow.withSearch (s : Flow β) (t : Bool × Search β) : Bool × Flow β :=
  (t.1, { s with visited := t.2.visited, prev := t.2.prev, blockList := t.2.blockList })

/-- `DepthFirstSearch`. -/
def depthFirstSearch (fuel : ℕ) (s : Flow β) : Option (Bool × Flow β) :=
  s.headBlock.bind fun head => (markVisited s.dest fuel head ⟨s.visited, s.prev, none⟩).bind fun r =>
    (walk s.next fuel s.headBlock).map fun blks => s.withSearch (blks.foldl pushUnvisited (true, r))

/-- `RestoreLinks`. -/
def restoreLinks (fuel : ℕ) (s : Flow β) : Option (Flow β) :=
  (walk s.next fuel s.headBlock).map fun blks =>
    let t := blks.foldl (fun (t : (β → Option β) × Option β) blk => (update t.1 blk t.2, some blk)) (s.prev, none)
    { s with prev := t.1, blockList := t.2 }

/-- The loop of `FixLinks`. -/
def fixLinksFrom : ℕ → Option β → Option β → ℕ → Flow β → Option (Flow β)
  | 0, _, _, _, _ => none
  | _ + 1, none, prev, _, s => some { s with headBlock := s.blockList, blockList := prev }
  | fuel + 1, some blk, prev, blk_id, s =>
    let s := { s with
      next := update s.next blk (s.prev blk)
      prev := update s.prev blk prev
      blkId := update s.blkId blk blk_id }
    fixLinksFrom fuel (s.next blk) (some blk) ((blk_id + 1) % 2 ^ 16) s

/-- `FixLinks`. -/
def fixLinks (fuel : ℕ) (s : Flow β) : Option (Flow β) := fixLinksFrom fuel s.blockList none 1 s

/-- The loop of `ReturnsToBottom`. -/
def returnsToBottomFrom : ℕ → Option β → β → Flow β → Option (Flow β)
  | 0, _, _, _ => none
  | _ + 1, none, last, s => some { s with blockList := some last }
  | fuel + 1, some curr, last, s =>
    let prev := s.prev curr
    if s.isReturn curr then
      (s.next curr).bind fun after =>
        let next := match prev with
          | some blk => update s.next blk (s.next curr)
          | none => s.next
        returnsToBottomFrom fuel prev curr { s with
          next := update (update next last (some curr)) curr none
          prev := update (update s.prev after prev) curr (some last) }
    else returnsToBottomFrom fuel prev last s

/-- `ReturnsToBottom`. -/
def returnsToBottom (fuel : ℕ) (s : Flow β) : Option (Flow β) :=
  (walk s.next fuel s.headBlock).bind fun blks => blks.getLast?.bind fun last =>
    returnsToBottomFrom fuel (s.prev last) last s

/-! ### Intervals -/

/-- The intervals; one is known by its level and its `first_block`, and a block is its own interval at level 0. -/
structure Intervals (β : Type*) where
  /-- `parent`, by its first block. -/
  parent : ℕ → β → Option β
  /-- The chain from `sub_int` on along `next_sub_int`, by the first blocks. -/
  subs : ℕ → β → List β
  /-- `last_block`. -/
  last : ℕ → β → β

namespace Intervals

variable (iv : Intervals β)

/-- `IntervalNo`; the levels below the one in work have their parents. -/
def intervalNo (blk : β) : ℕ → β
  | 0 => blk
  | level + 1 => (iv.parent level (intervalNo blk level)).getD (intervalNo blk level)

/-- `NewInterval` for level `below + 1`. -/
def newInterval (below : ℕ) (blk : β) : Intervals β where
  parent := update iv.parent below (update (iv.parent below) (iv.intervalNo blk below) (some blk))
  subs := update iv.subs (below + 1) (update (iv.subs (below + 1)) blk [iv.intervalNo blk below])
  last := update iv.last (below + 1) (update (iv.last (below + 1)) blk blk)

/-- The loop over the input edges of a block in `FindIntervals`, with `prev_int`: nothing when a new interval is to be
added, else `prev_int` at the end. -/
def scanInputs (below : ℕ) (curr : β) : List (Edge β) → Option β → Option (Option β)
  | [], prev_int => some prev_int
  | edge :: edges, prev_int =>
    let test := iv.intervalNo edge.source below
    if test = curr then scanInputs below curr edges prev_int
    else
      match iv.parent below test, prev_int with
      | none, _ => none
      | some test, none => scanInputs below curr edges (some test)
      | some test, some prev => if test ≠ prev then none else scanInputs below curr edges prev_int

/-- The interval becomes the last one of `prev_int`. -/
def join (below : ℕ) (curr prev_int : β) : Intervals β where
  parent := update iv.parent below (update (iv.parent below) curr (some prev_int))
  subs := update iv.subs (below + 1)
    (update (iv.subs (below + 1)) prev_int (iv.subs (below + 1) prev_int ++ [curr]))
  last := update iv.last (below + 1) (update (iv.last (below + 1)) prev_int (iv.last below curr))

end Intervals

/-- What `FindIntervals` does for a block at a level, with `num`.  It yields nothing where the code follows a pointer
that is `NULL`. -/
def findInterval (inputs : β → List (Edge β)) (below : ℕ) (t : Intervals β × ℕ) (blk : β) : Option (Intervals β × ℕ) :=
  let curr := t.1.intervalNo blk below
  if (t.1.parent below curr).isSome then some t
  else
    match t.1.scanInputs below curr (inputs blk) none with
    | none => some (t.1.newInterval below blk, t.2 + 1)
    | some (some prev_int) => some (t.1.join below curr prev_int, t.2)
    | some none => none

/-- The levels of `FindIntervals`: whether there is one interval at the end, and the last level. -/
def findLevels (inputs : β → List (Edge β)) (head : β) (blks : List β) :
    ℕ → ℕ → ℕ → Intervals β → Option (Bool × ℕ × Intervals β)
  | 0, _, _, _ => none
  | fuel + 1, below, prev_num, iv =>
    (blks.foldlM (findInterval inputs below) (iv.newInterval below head, 1)).bind fun t =>
      if t.2 = prev_num ∨ t.2 = 1 then some (t.2 == 1, below + 1, t.1)
      else findLevels inputs head blks fuel (below + 1) t.2 t.1

/-- The first loop of `FindIntervals`. -/
def startIntervals (fuel : ℕ) (s : Flow β) : Option (Flow β) :=
  (walk s.next fuel s.headBlock).map fun blks =>
    { s with depth := blks.foldl (fun depth blk => update depth blk 0) s.depth }

/-- `FindIntervals` after its first loop. -/
def findIntervals (fuel : ℕ) (s : Flow β) : Option (Bool × ℕ × Intervals β) :=
  s.headBlock.bind fun head => (walk s.next fuel s.headBlock).bind fun blks =>
    findLevels s.inputs head blks.tail fuel 0 blks.length ⟨fun _ _ => none, fun _ _ => [], fun _ blk => blk⟩

namespace Intervals

variable (iv : Intervals β)

/-- `next_sub_int`. -/
def nextSub (level : ℕ) (first : β) : Option β :=
  (iv.parent level first).bind fun p => (iv.subs (level + 1) p)[(iv.subs (level + 1) p).idxOf first + 1]?

/-- The first block of the interval down along `sub_int`. -/
def descend : ℕ → β → β
  | 0, first => first
  | level + 1, first => descend level ((iv.subs (level + 1) first).headD first)

/-- The way of `ReorderBlocks` from a block to the next one, with `last_block` of the intervals that end with it. -/
def climb (last_block : β) : ℕ → ℕ → β → (ℕ → β → β) → Option β × (ℕ → β → β)
  | 0, _, _, last => (none, last)
  | rest + 1, level, first, last =>
    match iv.nextSub level first with
    | some sub => (some (iv.descend level sub), last)
    | none =>
      match iv.parent level first with
      | some p => climb last_block rest (level + 1) p
          (update last (level + 1) (update (last (level + 1)) p last_block))
      | none => (none, last)

end Intervals

/-- The loop of `ReorderBlocks`. -/
def reorderFrom (top : ℕ) (iv : Intervals β) : ℕ → β → (ℕ → β → β) → Flow β → Option ((ℕ → β → β) × Flow β)
  | 0, _, _, _ => none
  | fuel + 1, last_block, last, s =>
    match iv.climb last_block (top + 1) 0 last_block last with
    | (none, last) => some (last, { s with next := update s.next last_block none, blockList := some last_block })
    | (some next_block, last) =>
      reorderFrom top iv fuel next_block last { s with
        prev := update s.prev next_block (some last_block)
        next := update s.next last_block (some next_block)
        blkId := update s.blkId next_block ((s.blkId last_block + 1) % 2 ^ 16) }

/-- `ReorderBlocks`: `last_block` of the intervals, and the blocks. -/
def reorderBlocks (top fuel : ℕ) (iv : Intervals β) (s : Flow β) : Option ((ℕ → β → β) × Flow β) :=
  s.headBlock.bind fun head => reorderFrom top iv fuel head iv.last s

/-- The loop of `EdgeLevels` for an edge, with `join_level`. -/
def joinLevel (iv : Intervals β) (last : ℕ → β → β) (blkId : β → ℕ) (source : β) : ℕ → ℕ → β → Option ℕ → Option ℕ
  | 0, _, _, join => join
  | rest + 1, level, first, join =>
    if blkId first ≤ blkId source ∧ blkId source ≤ blkId (last level first) then join
    else
      match iv.parent level first with
      | some p => joinLevel iv last blkId source rest (level + 1) p (some level)
      | none => some level

/-- `EdgeLevels`: the field `join_level` of the edges. -/
def edgeLevels (top fuel : ℕ) (iv : Intervals β) (last : ℕ → β → β) (s : Flow β) : Option (Edge β → Option ℕ) :=
  (walk s.next fuel s.headBlock).map fun blks =>
    (blks.flatMap fun blk => (s.inputs blk).map fun edge => (blk, edge)).foldl (fun join x =>
      update join x.2 (joinLevel iv last s.blkId x.2.source (top + 1) 0 x.1 (join x.2))) fun _ => none

/-! ### Loops -/

section NestingDepth

variable (join : Edge β → Option ℕ) (level : ℕ)

/-- The edges of a block from the last one to the first one. -/
def edgesDown (s : Flow β) (blk : β) : List (β × Edge β) :=
  ((s.dest blk).zipIdx.map fun x => (x.1, ⟨blk, x.2⟩)).reverse

/-- The search of `NestingDepth` for a back edge of a block. -/
def markBack (s : Flow β) (blk : β) : Flow β :=
  match (edgesDown s blk).find? fun x => s.blkId x.1 ≤ s.blkId blk ∧ join x.2 = some level with
  | none => { s with next := update s.next blk none }
  | some (target, _) =>
    { s with
      next := update s.next blk (some target)
      loopHead := if s.loopHead blk = none then update s.loopHead blk (some target) else s.loopHead
      depth := update s.depth blk (s.depth blk + 1) }

/-- What the inner loop of `NestingDepth` does for a block, with `change`. -/
def spreadBack (t : Flow β × Bool) (blk : β) : Flow β × Bool :=
  if (t.1.next blk).isSome then t
  else
    match (edgesDown t.1 blk).findSome? fun x => if (join x.2).any (· ≤ level) then t.1.next x.1 else none with
    | none => t
    | some target =>
      ({ t.1 with
        next := update t.1.next blk (some target)
        loopHead :=
          if t.1.loopHead blk = none ∧ blk ≠ target then update t.1.loopHead blk (some target) else t.1.loopHead
        loopHeader := update t.1.loopHeader target true
        depth := update t.1.depth blk (t.1.depth blk + 1) }, true)

/-- The `do` loop of `NestingDepth`. -/
def spread (blks : List β) : ℕ → Flow β → Option (Flow β)
  | 0, _ => none
  | fuel + 1, s =>
    let t := blks.foldl (spreadBack join level) (s, false)
    if t.2 then spread blks fuel t.1 else some t.1

end NestingDepth

/-- `NestingDepth`; the levels are those of the parents below the last one. -/
def nestingDepth (top fuel : ℕ) (join : Edge β → Option ℕ) (s : Flow β) : Option (Flow β) :=
  (walk s.prev fuel s.blockList).bind fun blks =>
    ((List.range (top - 1)).foldlM
      (fun s level => spread join level blks fuel (blks.foldl (markBack join level) s)) s).map fun s =>
        blks.foldl (fun s blk => { s with next := update s.next blk s.headBlock, headBlock := some blk })
          { s with headBlock := none }

/-- The loop of `doFloodForward` with `FlowDone`: the blocks that are visited, and `functionDegenerate`. -/
def floodEdges (parm : β) (flood : β → (β → Bool) × Bool → Option ((β → Bool) × Bool)) :
    List β → (β → Bool) × Bool → Option ((β → Bool) × Bool)
  | [], t => some t
  | next :: rest, t =>
    if t.1 next then floodEdges parm flood rest t
    else if next = parm then some (t.1, true)
    else (flood next (update t.1 next true, t.2)).bind (floodEdges parm flood rest)

/-- `doFloodForward`. -/
def flood (dest : β → List β) (parm : β) : ℕ → β → (β → Bool) × Bool → Option ((β → Bool) × Bool)
  | 0, _, _ => none
  | fuel + 1, blk, t => floodEdges parm (flood dest parm fuel) (dest blk) t

/-- The edges from `BLK_SELECT` blocks into loop headers. -/
def selectInputs (s : Flow β) (blks : List β) : List (β × β) :=
  (blks.filter s.loopHeader).flatMap fun blk =>
    ((s.inputs blk).map Edge.source |>.filter s.isSelect).map fun source => (source, blk)

/-- The loops of `Degenerate` over such edges: a flood from the source that meets the header ends them. -/
def floodAll (s : Flow β) (fuel : ℕ) : List (β × β) → Option Bool
  | [] => some false
  | x :: rest => (flood s.dest x.2 fuel x.1 (fun _ => false, false)).bind fun t =>
      if t.2 then some true else floodAll s fuel rest

/-- `Degenerate`. -/
def degenerate (fuel : ℕ) (s : Flow β) : Option Bool :=
  (walk s.next fuel s.headBlock).bind fun blks => floodAll s fuel (selectInputs s blks)

/-- How `MakeFlowGraph` ends. -/
inductive Ending
  | unreachable
  | irreducable
  | degenerate
  | nested
  deriving DecidableEq

/-- `MakeFlowGraph` from where the blocks are in depth first order. -/
def makeIntervals (fuel : ℕ) (s : Flow β) : Option (Ending × Flow β) :=
  ((fixLinks fuel s).bind (startIntervals fuel)).bind fun s => (findIntervals fuel s).bind fun found =>
    if found.1 then
      (reorderBlocks found.2.1 fuel found.2.2 s).bind fun t =>
      (edgeLevels found.2.1 fuel found.2.2 t.1 t.2).bind fun join =>
      (nestingDepth found.2.1 fuel join t.2).bind fun s =>
      (degenerate fuel s).bind fun isDegenerate =>
        if isDegenerate then
          (irreducable fuel s).bind fun s => (returnsToBottom fuel s).map fun s => (.degenerate, s)
        else (returnsToBottom fuel s).map fun s => (.nested, s)
    else (irreducable fuel s).bind fun s => (returnsToBottom fuel s).map fun s => (.irreducable, s)

/-- `MakeFlowGraph` of a routine that has a block and is not to be debugged. -/
def makeFlowGraph (fresh : Edge β → β) (fuel : ℕ) (s : Flow β) : Option (Ending × Flow β) :=
  (irreducable fuel s).bind fun s => (noBlocksToSelf fresh fuel s).bind fun s =>
  (depthFirstSearch fuel s).bind fun t =>
    if t.1 then makeIntervals fuel t.2
    else (irreducable fuel t.2).bind fun s => (restoreLinks fuel s).map fun s => (.unreachable, s)

end OpenWatcom.FloGraph
