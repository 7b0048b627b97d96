import Unravel.Body.Basic
import Unravel.Error

/-! Stack depths over all paths. A state is an index with the depth before its instruction.
   Exploration starts at the first instruction with an empty stack and at every handler and filter
   with what the runtime puts there; it fails at the first state that breaks a rule or that meets
   an index already seen at another depth. -/
namespace Unravel

structure StackState where
  index : Nat
  depth : Nat
deriving DecidableEq, Inhabited, Repr

namespace Body

def seekIndex (b : Body) (fault : InstrId → BodyFault) (id : InstrId) : Except Error Nat :=
  match b.index? id with
  | some n => .ok n
  | none => .error (.malformed (fault id))

/-- States at the entries of a clause: the handler, then the filter. -/
def clauseEntries (b : Body) (c : Clause) : Except Error (List StackState) := do
  let handler ← b.seekIndex .missingHandler c.handlerStart
  match c.filterStart with
  | none => return [⟨handler, c.flags.entryDepth⟩]
  | some id =>
    let filter ← b.seekIndex .missingFilter id
    return [⟨handler, c.flags.entryDepth⟩, ⟨filter, 1⟩]

/-- All states at which control can enter the body. -/
def entries (b : Body) : Except Error (List StackState) := do
  let fromClauses ← b.clauses.mapM b.clauseEntries
  return ⟨0, 0⟩ :: fromClauses.flatten

/-- The depth after one instruction, if the instruction may run at a depth. -/
def depthAfter (returnsValue : Bool) (i : Instr) (s : StackState) : Except Error Nat :=
  match i.stackEffect? returnsValue with
  | none => .error (.malformed (.unknownEffect i.opcode s.index))
  | some effect =>
    if s.depth < effect.pops then
      .error (.stack s.index (.underflow i.opcode effect.pops s.depth))
    else
      let after := s.depth - effect.pops + effect.pushes
      if i.opcode = .ret ∧ after ≠ 0 then .error (.stack s.index (.leftOver after))
      else .ok after

/-- States that follow one instruction: its targets in order, then the next instruction. Leaving
   a protected range empties the stack. -/
def statesAfter (b : Body) (i : Instr) (index after : Nat) : Except Error (List StackState) := do
  let jumps ← i.targets.mapM (b.seekIndex .missingTarget)
  let jumpDepth := if i.flow = .leave then 0 else after
  let jumps := jumps.map fun t => ⟨t, jumpDepth⟩
  if !i.flow.fallsThrough then return jumps
  else if b.instrs.length ≤ index + 1 then throw (.stack index .runsOff)
  else return jumps ++ [⟨index + 1, after⟩]

/-- The depth after the instruction of a state and the states that follow it. -/
def advance (returnsValue : Bool) (b : Body) (s : StackState) :
    Except Error (Nat × List StackState) :=
  match b.instrs[s.index]? with
  | none => .ok (s.depth, [])
  | some i => do
    let after ← depthAfter returnsValue i s
    return (after, ← b.statesAfter i s.index after)

def seenDepth? (seen : List StackState) (index : Nat) : Option Nat :=
  (seen.find? fun s => s.index == index).map StackState.depth

/-- Explore the states in `work`, the first first; states found last are explored first. -/
def explore (returnsValue : Bool) (b : Body) :
    Nat → List StackState → List StackState → Nat → Except Error Nat
  | fuel + 1, s :: work, seen, peak =>
    match seenDepth? seen s.index with
    | some depth =>
      if depth = s.depth then explore returnsValue b fuel work seen peak
      else .error (.stack s.index (.join depth s.depth))
    | none =>
      match b.advance returnsValue s with
      | .error e => .error e
      | .ok (after, found) =>
        explore returnsValue b fuel (found.reverse ++ work) (s :: seen)
          (max peak (max s.depth after))
  | _, _, _, peak => .ok peak

/-- States that exploration can meet: each entry, and what follows each instruction once. -/
def stateBudget (b : Body) : Nat :=
  1 + 2 * b.clauses.length + (b.instrs.flatMap Instr.targets).length + b.instrs.length

def stackDepth (returnsValue : Bool) (b : Body) : Except Error Nat :=
  if b.instrs.isEmpty then .ok 0
  else do
    let start ← b.entries
    explore returnsValue b b.stateBudget start.reverse [] 0

def measured (returnsValue : Bool) (b : Body) : Except Error Body :=
  (b.stackDepth returnsValue).map fun depth => { b with maxStack := depth }

end Body
end Unravel
