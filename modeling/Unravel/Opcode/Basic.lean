/-! The instruction set of the Common Intermediate Language. Instructions that an analysis
   looks into have a constructor per family; all others are `Plain`: they run straight on,
   with a fixed stack effect, and are known by their row in the table. -/
namespace Unravel

/-- The two encodings of a branch or of a variable access: a one-byte operand or a wide one. -/
inductive Form
  | short | long
deriving DecidableEq, Inhabited, Repr

/-- How a variable access names its variable: in the opcode itself, in one byte or in two. -/
inductive Slot
  | fixed (n : Fin 4) | short | long
deriving DecidableEq, Inhabited, Repr

/-- Conditions of the two-way branches; the first two test one value, the rest compare two.
   The conditions that end in `Un` compare without sign. -/
inductive Condition
  | isFalse | isTrue | eq | ge | gt | le | lt | neUn | geUn | gtUn | leUn | ltUn
deriving DecidableEq, Inhabited, Repr

inductive BinaryOp
  | add | sub | mul | div | divUn | rem | remUn | and | or | xor | shl | shr | shrUn
  | ceq | cgt | cgtUn | clt | cltUn
deriving DecidableEq, Inhabited, Repr

inductive UnaryOp
  | neg | not
deriving DecidableEq, Inhabited, Repr

/-- Instructions without control flow of their own that no analysis looks into. -/
inductive Plain
  | breakpoint | ldnull | ldcR4 | ldcR8 | ldindI1 | ldindU1 | ldindI2 | ldindU2 | ldindI4
  | ldindU4 | ldindI8 | ldindI | ldindR4 | ldindR8 | ldindRef | stindRef | stindI1 | stindI2
  | stindI4 | stindI8 | stindR4 | stindR8 | convI1 | convI2 | convI4 | convI8 | convR4 | convR8
  | convU4 | convU8 | cpobj | ldobj | ldstr | castclass | isinst | convRUn | unbox | ldflda
  | stfld | ldsflda | stsfld | stobj | convOvfI1Un | convOvfI2Un | convOvfI4Un | convOvfI8Un
  | convOvfU1Un | convOvfU2Un | convOvfU4Un | convOvfU8Un | convOvfIUn | convOvfUUn | box
  | newarr | ldlen | ldelema | ldelemI1 | ldelemU1 | ldelemI2 | ldelemU2 | ldelemI4 | ldelemU4
  | ldelemI8 | ldelemI | ldelemR4 | ldelemR8 | ldelemRef | stelemI | stelemI1 | stelemI2
  | stelemI4 | stelemI8 | stelemR4 | stelemR8 | stelemRef | ldelem | stelem | unboxAny
  | convOvfI1 | convOvfU1 | convOvfI2 | convOvfU2 | convOvfI4 | convOvfU4 | convOvfI8 | convOvfU8
  | refanyval | ckfinite | mkrefany | ldtoken | convU2 | convU1 | convI | convOvfI | convOvfU
  | addOvf | addOvfUn | mulOvf | mulOvfUn | subOvf | subOvfUn | stindI | convU | arglist | ldftn
  | ldvirtftn | localloc | unaligned | volatile | initobj | constrained | cpblk | initblk
  | sizeof | refanytype | readonly
deriving DecidableEq, Inhabited, Repr

/-- `ldcI4Fixed n` loads the number `n - 1`. -/
inductive Opcode
  | nop | dup | pop | tail
  | ldarg (slot : Slot) | ldloc (slot : Slot) | stloc (slot : Slot)
  | ldarga (form : Form) | starg (form : Form) | ldloca (form : Form)
  | ldcI4Fixed (n : Fin 10) | ldcI4S | ldcI4 | ldcI8
  | unary (op : UnaryOp) | binary (op : BinaryOp)
  | br (form : Form) | leave (form : Form) | branch (condition : Condition) (form : Form)
  | switch
  | call | callvirt | calli | newobj | jmp | ret
  | throw | rethrow | endfinally | endfilter
  | ldfld | ldsfld
  | plain (op : Plain)
deriving DecidableEq, Inhabited, Repr

/-- Kinds of operand that an instruction carries behind its opcode. -/
inductive OperandKind
  | none | int8 | uint8 | int32 | int64 | float32 | float64 | shortBranch | branch | switch
  | shortVar | var | method | field | type | string | signature | token
deriving DecidableEq, Inhabited, Repr

/-- Encoded size in bytes; a switch table has no fixed size. -/
def OperandKind.size? : OperandKind → Option Nat
  | .none => some 0
  | .int8 | .uint8 | .shortBranch | .shortVar => some 1
  | .var => some 2
  | .int64 | .float64 => some 8
  | .switch => Option.none
  | _ => some 4

inductive Flow
  | sequential | conditional | unconditional | call | returns | switch | throw
  | endFinally | endFilter | leave
deriving DecidableEq, Inhabited, Repr

/-- Only straight code and calls leave a block open. -/
def Flow.endsBlock : Flow → Bool
  | .sequential | .call => false
  | _ => true

def Flow.fallsThrough : Flow → Bool
  | .sequential | .call | .conditional | .switch => true
  | _ => false

def Flow.isJump : Flow → Bool
  | .conditional | .unconditional | .switch | .leave => true
  | _ => false

/-- Opcode bytes; the lead byte is 0 for the opcodes of one byte. -/
structure Encoding where
  lead : UInt8
  code : UInt8
deriving DecidableEq, Inhabited, Repr

def Encoding.size (e : Encoding) : Nat := if e.lead = 0xFE then 2 else 1

structure StackEffect where
  pops : Nat
  pushes : Nat
deriving DecidableEq, Inhabited, Repr

def StackEffect.net (e : StackEffect) : Int := (e.pushes : Int) - e.pops

end Unravel
