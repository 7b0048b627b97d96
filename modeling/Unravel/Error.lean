import Unravel.Opcode.Table
import Unravel.Operand.Spelled

/-! What can go wrong, by cause. `Error.kind` groups the causes, `Error.detail` words one, and
   `Error.message` is the full text that users see. -/
namespace Unravel

/-- A body that no graph or stack check can accept, or an operand that no body can hold. -/
inductive BodyFault
  | empty
  | missingTarget (id : InstrId)
  | missingBound (id : InstrId)
  | missingHandler (id : InstrId)
  | missingFilter (id : InstrId)
  | openEnd
  | unknownEffect (op : Opcode) (index : Nat)
  | misfit (operand : Operand) (op : Opcode)
deriving DecidableEq, Inhabited, Repr

def BodyFault.text : BodyFault → String
  | empty => "Cannot build a block graph from an empty body"
  | missingTarget id => "Branch target " ++ InstrId.render id ++ " not in body"
  | missingBound id => "Handler boundary " ++ InstrId.render id ++ " not in body"
  | missingHandler id => "Handler start " ++ InstrId.render id ++ " not in body"
  | missingFilter id => "Filter start " ++ InstrId.render id ++ " not in body"
  | openEnd => "Conditional terminator at the end of the body has no fall-through"
  | unknownEffect op index =>
    "Unknown stack effect for '" ++ op.mnemonic ++ "' at " ++ toString index
  | misfit operand op =>
    "Operand " ++ operand.spell ++ " does not fit instruction '" ++ op.mnemonic ++ "'"

/-- A request that the block graph cannot meet; `refused` is a pass that gives up. -/
inductive GraphFault
  | notLive (block : BlockId)
  | targetNotLive (block : BlockId)
  | noTerminator (block : BlockId)
  | noFallThrough (block : BlockId)
  | badSplit (block : BlockId) (index size : Nat)
  | notLaidOut (block : BlockId)
  | entryRemoved
  | stillReaches (block removed : BlockId)
  | deadInLayout (block : BlockId)
  | noTarget (block : BlockId)
  | openConditional (block : BlockId)
  | fallsNowhere (block : BlockId)
  | outsideLayout (block : BlockId)
  | refused (reason : String)
deriving DecidableEq, Inhabited, Repr

def GraphFault.text : GraphFault → String
  | notLive b => "block " ++ BlockId.render b ++ " is not live"
  | targetNotLive b => "redirect target " ++ BlockId.render b ++ " is not live"
  | noTerminator b => "block " ++ BlockId.render b ++ " has no terminator"
  | noFallThrough b => "block " ++ BlockId.render b ++ " has no fall-through successor"
  | badSplit b i n =>
    "cannot split block " ++ BlockId.render b ++ " at " ++ toString i ++ " of " ++ toString n
  | notLaidOut b => "block " ++ BlockId.render b ++ " missing from layout"
  | entryRemoved => "the entry block cannot be removed"
  | stillReaches b d =>
    "block " ++ BlockId.render b ++ " still reaches removed block " ++ BlockId.render d
  | deadInLayout b => "layout names dead block " ++ BlockId.render b
  | noTarget b => "branch in block " ++ BlockId.render b ++ " has no target edge"
  | openConditional b => "conditional block " ++ BlockId.render b ++ " has no fall-through edge"
  | fallsNowhere b => "block " ++ BlockId.render b ++ " falls through but has no successor"
  | outsideLayout b => "edge to block " ++ BlockId.render b ++ " outside the layout"
  | refused reason => reason

/-- A stack that some path leaves in a state the code forbids. -/
inductive StackFault
  | join (seen depth : Nat)
  | underflow (op : Opcode) (pops depth : Nat)
  | leftOver (count : Nat)
  | runsOff
deriving DecidableEq, Inhabited, Repr

def StackFault.text : StackFault → String
  | join seen depth => "paths join with depths " ++ toString seen ++ " and " ++ toString depth
  | underflow op pops depth =>
    "'" ++ op.mnemonic ++ "' pops " ++ toString pops ++ " of " ++ toString depth
  | leftOver count => "ret leaves " ++ toString count ++ " values on the stack"
  | runsOff => "control falls off the end of the body"

inductive BranchFault
  | notBranch (op : Opcode)
  | noCases
  | nothingAfter (label : String)
deriving DecidableEq, Inhabited, Repr

def BranchFault.text : BranchFault → String
  | notBranch op => "instruction '" ++ op.mnemonic ++ "' is not a branch instruction"
  | noCases => "switch requires at least one target"
  | nothingAfter label => "label '" ++ label ++ "' does not precede an instruction"

inductive Error
  | malformed (fault : BodyFault)
  | graph (fault : GraphFault)
  | stack (index : Nat) (fault : StackFault)
  | unknownMnemonic (name : String)
  | branch (fault : BranchFault)
  | duplicateLabel (name : String)
  | undefinedLabel (name : String)
  | noBody (method : Token)
  | locked
deriving DecidableEq, Inhabited, Repr

namespace Error

/-- The groups of errors, with the instruction that a stack error names. -/
inductive Kind
  | malformed
  | graph
  | stack (index : Nat)
  | unknownMnemonic
  | branch
  | duplicateLabel
  | undefinedLabel
  | noBody
  | locked
deriving DecidableEq, Inhabited, Repr

def Kind.phrase (kind : Kind) (detail : String) : String :=
  match kind with
  | malformed => "Malformed: " ++ detail
  | graph => detail
  | stack index => "Stack imbalance at instruction " ++ toString index ++ ": " ++ detail
  | unknownMnemonic => "Unknown instruction mnemonic - " ++ detail
  | branch => "Invalid branch - " ++ detail
  | duplicateLabel => "Label defined more than once - " ++ detail
  | undefinedLabel => "Label is not defined - " ++ detail
  | noBody => "Method has no body - " ++ detail
  | locked => "Failed to lock target"

/-- The text of a malformed body with the place that found the fault. -/
def malformedAt (file : String) (line : Nat) (detail : String) : String :=
  "Malformed - " ++ file ++ ":" ++ toString line ++ ": " ++ detail

def kind : Error → Kind
  | malformed _ => .malformed
  | graph _ => .graph
  | stack index _ => .stack index
  | unknownMnemonic _ => .unknownMnemonic
  | branch _ => .branch
  | duplicateLabel _ => .duplicateLabel
  | undefinedLabel _ => .undefinedLabel
  | noBody _ => .noBody
  | locked => .locked

def detail : Error → String
  | malformed fault => fault.text
  | graph fault => fault.text
  | stack _ fault => fault.text
  | unknownMnemonic name => name
  | branch fault => fault.text
  | duplicateLabel name => name
  | undefinedLabel name => name
  | noBody method => method.render
  | locked => ""

def message (e : Error) : String := e.kind.phrase e.detail

end Error
end Unravel
