import Unravel.Instr

/-! Blocks: straight code with its outgoing edges. The last instruction decides which of the stored
   edges count; branch operands inside a block are not looked at. -/
namespace Unravel

inductive BlockKind
  | fallThrough | branch | leave | conditional | switch | exit
deriving DecidableEq, Inhabited, Repr

def BlockKind.ofFlow : Flow → BlockKind
  | .sequential | .call => fallThrough
  | .unconditional => branch
  | .leave => leave
  | .conditional => conditional
  | .switch => switch
  | .returns | .throw | .endFinally | .endFilter => exit

/-- `targets` are the blocks that the last instruction names, in operand order; `fall` is where
   control goes if it does not branch. -/
structure Block where
  id : BlockId
  instrs : List Instr
  targets : List BlockId := []
  fall : Option BlockId := none
deriving DecidableEq, Inhabited, Repr

/-- What an edge stands for. Cases of a switch are numbered from 0. -/
inductive EdgeKind
  | always | whenTrue | whenFalse | onCase (n : Nat) | otherwise | leave
deriving DecidableEq, Inhabited, Repr

namespace EdgeKind

def isConditional : EdgeKind → Bool
  | whenTrue | whenFalse => true
  | _ => false

def isSwitch : EdgeKind → Bool
  | onCase _ | otherwise => true
  | _ => false

end EdgeKind

structure Edge where
  source : BlockId
  target : BlockId
  kind : EdgeKind
deriving DecidableEq, Inhabited, Repr

namespace Block

/-- The kind follows the last instruction; an empty block falls through. -/
def kind (b : Block) : BlockKind :=
  match b.instrs.getLast? with
  | none => .fallThrough
  | some i => .ofFlow i.flow

def terminator? (b : Block) : Option Instr :=
  b.instrs.getLast?.filter Instr.isTerminal

/-- Blocks that control can go to: targets first, then the fall-through. Repetitions stay. -/
def successors (b : Block) : List BlockId :=
  match b.kind with
  | .fallThrough => b.fall.toList
  | .branch | .leave => b.targets.head?.toList
  | .conditional => b.targets.head?.toList ++ b.fall.toList
  | .switch => b.targets ++ b.fall.toList
  | .exit => []

def edges (b : Block) : List Edge :=
  match b.kind with
  | .fallThrough => b.fall.toList.map fun t => ⟨b.id, t, .always⟩
  | .branch => b.targets.head?.toList.map fun t => ⟨b.id, t, .always⟩
  | .leave => b.targets.head?.toList.map fun t => ⟨b.id, t, .leave⟩
  | .conditional =>
    (b.targets.head?.toList.map fun t => ⟨b.id, t, .whenTrue⟩) ++
      b.fall.toList.map fun t => ⟨b.id, t, .whenFalse⟩
  | .switch =>
    (b.targets.zipIdx.map fun (t, n) => ⟨b.id, t, .onCase n⟩) ++
      b.fall.toList.map fun t => ⟨b.id, t, .otherwise⟩
  | .exit => []

theorem map_target_edges (b : Block) : b.edges.map Edge.target = b.successors := by
  unfold edges successors
  cases b.kind <;> simp [List.map_map, Function.comp_def, List.zipIdx_map_fst]

def firstId? (b : Block) : Option InstrId := b.instrs.head?.map Instr.id

def setLast (b : Block) (f : Instr → Instr) : Block :=
  { b with instrs := b.instrs.dropLast ++ (b.instrs.getLast?.map f).toList }

end Block
end Unravel
