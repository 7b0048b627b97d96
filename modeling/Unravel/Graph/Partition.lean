import Unravel.Graph.Basic
import Unravel.Body.StackDepth

/-! The block graph of a body. A block starts at the first instruction, after every terminator, at
   every branch target and at every bound of a clause; blocks are numbered in order. -/
namespace Unravel
namespace Body

/-- Indices of all branch targets, by instruction and operand order. -/
def targetIndices (b : Body) : Except Error (List Nat) :=
  (b.instrs.mapM fun (i : Instr) => i.targets.mapM (b.seekIndex .missingTarget)).map List.flatten

def boundIndices (b : Body) : Except Error (List Nat) :=
  (b.clauses.mapM fun (c : Clause) => c.bounds.mapM (b.seekIndex .missingBound)).map List.flatten

def followsTerminator (b : Body) (index : Nat) : Bool :=
  match index with
  | 0 => false
  | n + 1 => b.instrs[n]?.any Instr.isTerminal

/-- Indices at which a block starts, given those that jumps and clauses name. -/
def starts (b : Body) (named : List Nat) : List Nat :=
  (List.range b.instrs.length).filter fun i =>
    i == 0 || b.followsTerminator i || named.contains i

/-- The number of the block that starts at the instruction with an id. -/
def blockAt? (b : Body) (starts : List Nat) (id : InstrId) : Option BlockId :=
  (b.index? id).bind fun i => starts.idxOf? i

/-- The block that covers the instructions from one start up to another. -/
def blockOf (b : Body) (starts : List Nat) (id : BlockId) (start stop : Nat) : Block :=
  let instrs := (b.instrs.drop start).take (stop - start)
  { id, instrs
    targets := (instrs.getLast?.map Instr.targets).getD [] |>.filterMap (b.blockAt? starts)
    fall := if stop < b.instrs.length then some (id + 1) else none }

def blocksFrom (b : Body) (all : List Nat) : BlockId → List Nat → List Block
  | _, [] => []
  | id, [start] => [b.blockOf all id start b.instrs.length]
  | id, start :: stop :: rest =>
    b.blockOf all id start stop :: b.blocksFrom all (id + 1) (stop :: rest)

def isOpenEnd (block : Block) : Bool :=
  block.fall.isNone && (block.kind == .conditional || block.kind == .switch)

def covered (starts : List Nat) (start stop : Nat) : List BlockId :=
  (starts.zipIdx.filter fun (s, _) => start ≤ s && s < stop).map Prod.snd

/-- The region of a clause; without an end, a range runs to the end of the body. -/
def regionOf (b : Body) (starts : List Nat) (c : Clause) : Region :=
  let index (id : InstrId) : Nat := (b.index? id).getD 0
  let stop (id : Option InstrId) : Nat := (id.map index).getD b.instrs.length
  { flags := c.flags
    catchType := c.catchType
    tryBlocks := covered starts (index c.tryStart) (stop c.tryEnd)
    handlerBlocks := covered starts (index c.handlerStart) (stop c.handlerEnd)
    filterBlocks := match c.filterStart with
      | some id => covered starts (index id) (index c.handlerStart)
      | none => [] }

/-- The graph of a body; it fails if the body is empty, names instructions that are not in it, or
   ends in a branch that may fall through. -/
def toGraph (b : Body) : Except Error Graph := do
  if b.instrs.isEmpty then throw (.malformed .empty)
  let targets ← b.targetIndices
  let bounds ← b.boundIndices
  let starts := b.starts (targets ++ bounds)
  let blocks := b.blocksFrom starts 0 starts
  if blocks.any isOpenEnd then throw (.malformed .openEnd)
  return {
    slots := blocks.map some
    layout := List.range blocks.length
    regions := b.clauses.map (b.regionOf starts)
    entry := 0
    nextInstr := b.nextId
    locals := b.locals
    maxStack := b.maxStack }

end Body
end Unravel
