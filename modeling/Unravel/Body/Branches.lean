import Unravel.Body.Basic

/-! Branch widths. `widen` gives every branch its long form; `narrow` then shortens each branch
   whose displacement fits one byte, round by round, since a shorter branch brings others nearer
   to their targets. Each round but the last shortens a branch, so there are at most as many
   rounds as long branches. -/
namespace Unravel

def widenInstr (i : Instr) : Instr := { i with opcode := i.opcode.longForm }

def isLongBranch (i : Instr) : Bool := i.opcode.operandKind == .branch

def offset? (instrs : List Instr) (id : InstrId) : Option Nat :=
  ((lastIndex? id instrs).bind fun n => instrs[n]?).map Instr.offset

/-- The displacement of a branch fits one byte once the branch itself is short. A target behind
   the branch moves with it. -/
def fitsShort (instrs : List Instr) (i : Instr) : Bool :=
  match i.targets.head?.bind (offset? instrs) with
  | none => false
  | some target =>
    let origin := if i.offset < target then i.offset + i.size else i.offset + 2
    let displacement : Int := (target : Int) - origin
    displacement ≤ 127 && -128 ≤ displacement

def shorten (instrs : List Instr) (i : Instr) : Instr :=
  if isLongBranch i && fitsShort instrs i then { i with opcode := i.opcode.shortForm } else i

def narrowRounds : Nat → List Instr → List Instr
  | 0, instrs => place 0 instrs
  | n + 1, instrs =>
    let placed := place 0 instrs
    let shorter := placed.map (shorten placed)
    if shorter = placed then placed else narrowRounds n shorter

namespace Body

def widen (b : Body) : Body := { b with instrs := place 0 (b.instrs.map widenInstr) }

def narrow (b : Body) : Body :=
  { b with instrs := narrowRounds (b.instrs.countP isLongBranch) b.instrs }

end Body
end Unravel
