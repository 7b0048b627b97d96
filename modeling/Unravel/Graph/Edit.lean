import Unravel.Graph.Basic
import Unravel.Error

namespace Unravel.Graph

def seek (g : Graph) (id : BlockId) : Except Error Block :=
  match g.block? id with
  | some b => .ok b
  | none => .error (.graph (.notLive id))

/-- The instruction becomes a jump to a block whose first instruction is known. -/
def jumpInstr (first : Option InstrId) (i : Instr) : Instr :=
  { i with
    opcode := .br .long
    operand := match first with
      | some id => .target id
      | none => i.operand }

def redirect (g : Graph) (id target : BlockId) : Except Error Graph := do
  let some destination := g.block? target | throw (.graph (.targetNotLive target))
  let block ← g.seek id
  if block.terminator?.isNone then throw (.graph (.noTerminator id))
  return g.modify id fun b =>
    { b.setLast (jumpInstr destination.firstId?) with targets := [target], fall := none }

/-- Erase the terminator of a block, which then only falls through. -/
def dropTerminator (g : Graph) (id : BlockId) : Except Error Graph := do
  let block ← g.seek id
  if block.fall.isNone then throw (.graph (.noFallThrough id))
  if block.terminator?.isNone then throw (.graph (.noTerminator id))
  return g.modify id fun b => { b.setLast Instr.erase with targets := [] }

/-- The part of a block before an index, which falls into a new block. -/
def headOf (b : Block) (index : Nat) (tail : BlockId) : Block :=
  { b with instrs := b.instrs.take index, targets := [], fall := some tail }

/-- The part of a block from an index on, which takes over the edges. -/
def tailOf (b : Block) (index : Nat) (tail : BlockId) : Block :=
  { b with id := tail, instrs := b.instrs.drop index }

/-- Split a block before an index strictly inside it; the tail is a new block behind it. The
   blocks are cut before the layout is looked at. -/
def split (g : Graph) (id : BlockId) (index : Nat) : Graph × Except Error BlockId :=
  match g.block? id with
  | none => (g, .error (.graph (.notLive id)))
  | some block =>
    if index = 0 ∨ block.instrs.length ≤ index then
      (g, .error (.graph (.badSplit id index block.instrs.length)))
    else
      let tail := g.slots.length
      let opened := g.modify id fun b => headOf b index tail
      let grown := { opened with slots := opened.slots ++ [some (tailOf block index tail)] }
      if g.layout.contains id then
        ({ grown with
            layout := Region.insertAfter id tail g.layout
            regions := g.regions.map fun r => r.inherit id tail },
          .ok tail)
      else (grown, .error (.graph (.notLaidOut id)))

def danglingEdge? (g : Graph) (removed : List BlockId) : Option (BlockId × BlockId) :=
  (g.blocks.filter fun b => !removed.contains b.id).findSome? fun b =>
    (b.successors.find? removed.contains).map fun s => (b.id, s)

def pruneEdges (removed : List BlockId) (b : Block) : Block :=
  { b with
    targets := b.targets.filter fun t => !removed.contains t
    fall := b.fall.filter fun f => !removed.contains f }

/-- Remove blocks that no other block reaches; regions lose them, and a region without its
   entries or its try range goes as well. The count is of blocks that were live. -/
def remove (g : Graph) (removed : List BlockId) : Except Error (Nat × Graph) := do
  if removed.contains g.entry then throw (.graph .entryRemoved)
  if let some (block, gone) := g.danglingEdge? removed then
    throw (.graph (.stillReaches block gone))
  let gone (slot : Option Block) (id : BlockId) : Bool := slot.isSome && removed.contains id
  return (g.slots.zipIdx.countP fun (slot, id) => gone slot id, { g with
    slots := g.slots.mapIdx fun id slot =>
      if removed.contains id then none else slot.map (pruneEdges removed)
    layout := g.layout.filter fun id => !removed.contains id
    regions := (g.regions.filter fun r => r.survives removed).map fun r => r.without removed })

end Unravel.Graph
