import Unravel.Graph.Basic

/-! Merging of chains: a block whose only predecessor leads nowhere else is joined to it. Each merge
   takes a block out of the layout, so the layout bounds their number. -/
namespace Unravel.Graph

/-- A block leads only to another one, by falling through or by an unconditional jump. -/
def chains (b : Block) (id : BlockId) : Bool :=
  match b.kind with
  | .fallThrough => b.fall == some id
  | .branch => b.targets.head? == some id
  | _ => false

def mergeInto? (g : Graph) (id : BlockId) : Option BlockId :=
  if id = g.entry || g.isRegionEntry id then none
  else
    match g.predecessors id with
    | [pred] =>
      match g.block? pred with
      | some b => if chains b id && pred != id && g.sameRegions pred id then some pred else none
      | none => none
    | _ => none

/-- The first block in layout order that can be joined to its predecessor, which comes first. -/
def mergeable? (g : Graph) : Option (BlockId × BlockId) :=
  g.layout.findSome? fun id => (g.mergeInto? id).map fun pred => (pred, id)

/-- The code of a block without the jump that merging makes needless. -/
def openCode (b : Block) : List Instr :=
  if b.kind = .branch then b.instrs.dropLast else b.instrs

def join (first second : Block) : Block :=
  { first with
    instrs := openCode first ++ second.instrs
    targets := second.targets
    fall := second.fall }

def drop (g : Graph) (id : BlockId) : Graph :=
  { g with
    slots := g.slots.set id none
    layout := g.layout.filter fun b => b != id
    regions := g.regions.map fun r => r.without [id] }

def mergeOnce? (g : Graph) : Option Graph := do
  let (pred, id) ← g.mergeable?
  let block ← g.block? id
  return (g.drop id).modify pred fun b => join b block

def mergeUpTo : Nat → Graph → Nat × Graph
  | 0, g => (0, g)
  | n + 1, g =>
    match g.mergeOnce? with
    | none => (0, g)
    | some next =>
      let (count, last) := mergeUpTo n next
      (count + 1, last)

def merge (g : Graph) : Nat × Graph := mergeUpTo g.layout.length g

end Unravel.Graph
