import Unravel.Block
import Unravel.Region

/-! Block graphs. Blocks are kept in slots; the number of its slot is the id of a block, and the
   slot of a removed block stays empty for good. The layout is the order in which the live blocks
   are written out again. -/
namespace Unravel

structure Graph where
  slots : List (Option Block)
  layout : List BlockId
  regions : List Region
  entry : BlockId
  nextInstr : InstrId
  locals : Nat
  maxStack : Nat
deriving DecidableEq, Inhabited, Repr

namespace Graph

def block? (g : Graph) (id : BlockId) : Option Block := g.slots[id]?.join

theorem block?_eq_some {g : Graph} {id : BlockId} {b : Block} :
    g.block? id = some b ↔ g.slots[id]? = some (some b) :=
  Option.join_eq_some_iff

theorem block?_mem {g : Graph} {id : BlockId} {b : Block} (live : g.block? id = some b) :
    some b ∈ g.slots :=
  List.mem_of_getElem? (block?_eq_some.mp live)

def blocks (g : Graph) : List Block := g.layout.filterMap g.block?

def contains (g : Graph) (id : BlockId) : Bool := (g.block? id).isSome

def instrCount (g : Graph) : Nat := (g.blocks.flatMap Block.instrs).length

def allocInstr (g : Graph) : InstrId × Graph :=
  (g.nextInstr, { g with nextInstr := g.nextInstr.next })

def successors (g : Graph) (id : BlockId) : List BlockId :=
  ((g.block? id).map Block.successors).getD []

def predecessors (g : Graph) (id : BlockId) : List BlockId :=
  (g.blocks.filter fun b => b.successors.contains id).map Block.id

abbrev PredecessorMap := List (BlockId × List BlockId)

/-- Note one predecessor of a block; a block without an entry gets one. -/
def PredecessorMap.note (pred : BlockId) : PredecessorMap → BlockId → PredecessorMap
  | [], id => [(id, [pred])]
  | (key, preds) :: rest, id =>
    if key = id then (key, preds ++ [pred]) :: rest
    else (key, preds) :: PredecessorMap.note pred rest id

/-- The predecessors of every live block and of every block that an edge names. -/
def predecessorMap (g : Graph) : PredecessorMap :=
  g.blocks.foldl (fun map b => b.successors.eraseDups.foldl (PredecessorMap.note b.id) map)
    (g.layout.map fun id => (id, []))

def edges (g : Graph) : List Edge := g.blocks.flatMap Block.edges

def modify (g : Graph) (id : BlockId) (f : Block → Block) : Graph :=
  { g with slots := g.slots.modify id (Option.map f) }

theorem block?_modify (g : Graph) (id other : BlockId) (f : Block → Block) :
    (g.modify id f).block? other =
      if id = other then (g.block? other).map f else g.block? other := by
  simp only [modify, block?, List.getElem?_modify]
  split
  · cases g.slots[other]? with
    | none => rfl
    | some slot => cases slot <;> rfl
  · simp

def sameRegions (g : Graph) (a b : BlockId) : Bool :=
  g.regions.all fun r => r.membership a == r.membership b

def isRegionEntry (g : Graph) (id : BlockId) : Bool := g.regions.any fun r => r.isEntry id

end Graph
end Unravel
