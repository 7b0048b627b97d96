import Unravel.Body.Basic
import Unravel.Error

/-!
Assembling a body from mnemonics and labels. A label names the instruction emitted next after it; it
may be used before it is defined. A step that fails leaves the assembler as it was. The error for
more instructions than there are ids is left out.
-/
namespace Unravel

/-- An operand whose labels wait for the end of assembly. -/
inductive Pending
  | ready (operand : Operand)
  | label (name : String)
  | labels (names : List String)
deriving DecidableEq, Inhabited, Repr

structure LabelledClause where
  flags : ClauseFlags
  tryStart : String
  tryEnd : String
  handlerStart : String
  handlerEnd : String
  filterStart : Option String := none
  catchType : Option Token := none
deriving DecidableEq, Inhabited, Repr

/-- `labels` maps a name to the number of instructions emitted before it. -/
structure Assembler where
  code : List (Opcode × Pending) := []
  labels : List (String × Nat) := []
  clauses : List LabelledClause := []
  locals : Nat := 0
  maxStack : Nat := 8
deriving DecidableEq, Inhabited, Repr

/-- An operand suits an opcode. One byte holds variable numbers up to 255, and arguments are not
   mixed up with local variables. -/
def Operand.fits (op : Opcode) (operand : Operand) : Bool :=
  match op.operandKind, operand with
  | .none, .none
  | .int8, .immediate (.int8 _)
  | .uint8, .immediate (.uint8 _)
  | .int32, .immediate (.int32 _)
  | .int64, .immediate (.int64 _)
  | .float32, .immediate (.float32 _)
  | .float64, .immediate (.float64 _)
  | .shortBranch, .target _
  | .branch, .target _
  | .switch, .switch _
  | .method, .method _
  | .field, .field _
  | .signature, .method _
  | .signature, .token _
  | .type, .token _
  | .string, .token _
  | .token, .token _
  | .token, .method _
  | .token, .field _ => true
  | .shortVar, .argument n => op.takesArgument && n ≤ 255
  | .shortVar, .localVar n => !op.takesArgument && n ≤ 255
  | .var, .argument _ => op.takesArgument
  | .var, .localVar _ => !op.takesArgument
  | _, _ => false

/-- The shortest slot for a variable number. -/
def Slot.shortest (n : Nat) : Slot :=
  if h : n < 4 then .fixed ⟨n, h⟩ else if n ≤ 255 then .short else .long

namespace Assembler

def lookup (name : String) : Except Error Opcode :=
  match Opcode.ofMnemonic? name with
  | some op => .ok op
  | none => .error (.unknownMnemonic name)

/-- Append an instruction; its id is the number of instructions before it. -/
def push (a : Assembler) (op : Opcode) (operand : Pending) : InstrId × Assembler :=
  (a.code.length, { a with code := a.code ++ [(op, operand)] })

def emit (a : Assembler) (name : String) (operand : Operand) :
    Except Error (InstrId × Assembler) := do
  let op ← lookup name
  if operand.fits op then return a.push op (.ready operand)
  else throw (.malformed (.misfit operand op))

def emitBranch (a : Assembler) (name label : String) : Except Error (InstrId × Assembler) := do
  let op ← lookup name
  match op.flow with
  | .conditional | .unconditional | .leave => return a.push op (.label label)
  | _ => throw (.branch (.notBranch op))

def emitSwitch (a : Assembler) (labels : List String) : Except Error (InstrId × Assembler) :=
  if labels.isEmpty then .error (.branch .noCases) else .ok (a.push .switch (.labels labels))

def emitCall (a : Assembler) (name : String) (m : MethodRef) :
    Except Error (InstrId × Assembler) :=
  a.emit name (.method m)

def emitAccess (a : Assembler) (op : Slot → Opcode) (operand : Operand) (n : Nat) :
    InstrId × Assembler :=
  match Slot.shortest n with
  | .fixed k => a.push (op (.fixed k)) (.ready .none)
  | slot => a.push (op slot) (.ready operand)

def loadArgument (a : Assembler) (n : Nat) : InstrId × Assembler :=
  a.emitAccess .ldarg (.argument n) n

def loadLocal (a : Assembler) (n : Nat) : InstrId × Assembler :=
  a.emitAccess .ldloc (.localVar n) n

def storeLocal (a : Assembler) (n : Nat) : InstrId × Assembler :=
  a.emitAccess .stloc (.localVar n) n

def loadInt (a : Assembler) (v : BitVec 32) : InstrId × Assembler :=
  a.push (loadInt32 v).1 (.ready (loadInt32 v).2)

def define (a : Assembler) (name : String) : Except Error Assembler :=
  if (a.labels.lookup name).isSome then .error (.duplicateLabel name)
  else .ok { a with labels := a.labels ++ [(name, a.code.length)] }

def addClause (a : Assembler) (c : LabelledClause) : Assembler :=
  { a with clauses := a.clauses ++ [c] }

def position (a : Assembler) (name : String) : Except Error Nat :=
  match a.labels.lookup name with
  | some n => .ok n
  | none => .error (.undefinedLabel name)

def resolve (a : Assembler) (name : String) : Except Error InstrId := do
  let n ← a.position name
  if n < a.code.length then return n else throw (.branch (.nothingAfter name))

/-- The instruction after a label at which a range ends; none at the end of the body. -/
def resolveEnd (a : Assembler) (name : String) : Except Error (Option InstrId) := do
  let n ← a.position name
  return if n < a.code.length then some n else none

def resolveOperand (a : Assembler) : Pending → Except Error Operand
  | .ready operand => .ok operand
  | .label name => (a.resolve name).map .target
  | .labels names => (names.mapM a.resolve).map .switch

def resolveClause (a : Assembler) (c : LabelledClause) : Except Error Clause := do
  let tryStart ← a.resolve c.tryStart
  let tryEnd ← a.resolveEnd c.tryEnd
  let handlerStart ← a.resolve c.handlerStart
  let handlerEnd ← a.resolveEnd c.handlerEnd
  let filterStart ← c.filterStart.mapM a.resolve
  return { c with tryStart, tryEnd, handlerStart, handlerEnd, filterStart }

def resolveCode (a : Assembler) : InstrId → List (Opcode × Pending) → Except Error (List Instr)
  | _, [] => .ok []
  | id, (opcode, pending) :: rest => do
    let operand ← a.resolveOperand pending
    return { id, opcode, operand } :: (← a.resolveCode (id + 1) rest)

def finish (a : Assembler) : Except Error Body := do
  let instrs ← a.resolveCode 0 a.code
  let clauses ← a.clauses.mapM a.resolveClause
  return { Body.ofCode instrs clauses with maxStack := a.maxStack, locals := a.locals }.placed

end Assembler
end Unravel
