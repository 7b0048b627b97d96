import Unravel.Opcode.Table
import Unravel.Operand.Basic

/-! Instructions: an opcode with its operand, a stable id and a byte offset. The operand is free
   data; each reading below says which operands it understands. -/
namespace Unravel

structure Instr where
  id : InstrId
  opcode : Opcode
  operand : Operand := .none
  offset : Nat := 0
deriving DecidableEq, Inhabited, Repr

namespace Instr

def flow (i : Instr) : Flow := i.opcode.flow

def isJump (i : Instr) : Bool := i.flow.isJump

def isTerminal (i : Instr) : Bool := i.flow.endsBlock

/-- Instructions that the operand sends control to, in operand order. -/
def targets (i : Instr) : List InstrId :=
  match i.operand with
  | .target id => if i.isJump then [id] else []
  | .switch ids => if i.opcode = .switch then ids else []
  | _ => []

def literal? (i : Instr) : Option Int :=
  match i.opcode, i.operand with
  | .ldcI4Fixed _, _ => i.opcode.fixedInt?
  | .ldcI4S, .immediate v | .ldcI4, .immediate v | .ldcI8, .immediate v => v.toInt?
  | _, _ => none

def method? (i : Instr) : Option MethodRef :=
  match i.operand with
  | .method m => some m
  | _ => none

/-- The variable that an access by slot names; `operand?` reads it off a written operand. -/
def slotIndex (slot : Slot) (operand? : Option Nat) : Option Nat :=
  match slot with
  | .fixed n => some n.val
  | .short | .long => operand?

def localOperand? (i : Instr) : Option Nat :=
  match i.operand with
  | .localVar n => some n
  | _ => none

def argumentOperand? (i : Instr) : Option Nat :=
  match i.operand with
  | .argument n => some n
  | _ => none

def loadedArgument? (i : Instr) : Option Nat :=
  match i.opcode with
  | .ldarg slot => slotIndex slot i.argumentOperand?
  | _ => none

def loadedLocal? (i : Instr) : Option Nat :=
  match i.opcode with
  | .ldloc slot => slotIndex slot i.localOperand?
  | _ => none

def storedLocal? (i : Instr) : Option Nat :=
  match i.opcode with
  | .stloc slot => slotIndex slot i.localOperand?
  | _ => none

def addressedLocal? (i : Instr) : Option Nat :=
  match i.opcode with
  | .ldloca _ => i.localOperand?
  | _ => none

/-- Numbers of stack values are 16 bits wide, and sums of them wrap around. -/
def count16 (n : Nat) : Nat := n % 0x10000

/-- Stack effect inside a method that does or does not return a value. It is unknown for a call
   whose operand is no method signature. -/
def stackEffect? (returnsValue : Bool) (i : Instr) : Option StackEffect :=
  match i.opcode with
  | .call | .callvirt => i.method?.map fun m => ⟨count16 m.arity, m.returns.toNat⟩
  | .calli => i.method?.map fun m => ⟨count16 (m.arity + 1), m.returns.toNat⟩
  | .newobj => i.method?.map fun m => ⟨m.params, 1⟩
  | .ret => some ⟨returnsValue.toNat, 0⟩
  | op => some op.fixedStack

def operandSize (i : Instr) : Nat :=
  match i.opcode.operandKind.size?, i.operand with
  | some n, _ => n
  | none, .switch ids => 4 + 4 * ids.length
  | none, _ => 4

def size (i : Instr) : Nat := i.opcode.encoding.size + i.operandSize

def erase (i : Instr) : Instr := { i with opcode := .nop, operand := .none }

def text (i : Instr) : String :=
  match i.operand with
  | .none => i.opcode.mnemonic
  | operand => i.opcode.mnemonic ++ " " ++ operand.render

def render (i : Instr) : String := "IL_" ++ Text.hex 4 i.offset ++ ": " ++ i.text

end Instr

def loadInt32 (v : BitVec 32) : Opcode × Operand :=
  let n := v.toInt
  if h : -1 ≤ n ∧ n ≤ 8 then (.ldcI4Fixed ⟨(n + 1).toNat, by omega⟩, .none)
  else if -128 ≤ n ∧ n ≤ 127 then (.ldcI4S, .immediate (.int8 (v.setWidth 8)))
  else (.ldcI4, .immediate (.int32 v))

end Unravel
