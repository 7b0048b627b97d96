import Unravel.Instr

/-! Integer constants and what the instruction set computes on them. Arithmetic wraps around at the
   width of its operands. -/
namespace Unravel

inductive Constant
  | int32 (v : BitVec 32)
  | int64 (v : BitVec 64)
deriving DecidableEq, Inhabited, Repr

namespace BinaryOp

def divides {w : Nat} (a b : BitVec w) : Bool :=
  b != 0 && !(a == BitVec.intMin w && b == -1)

/-- The result of an arithmetic or logical operator; a division that would raise an exception has
   none. -/
def arith? {w : Nat} (op : BinaryOp) (a b : BitVec w) : Option (BitVec w) :=
  match op with
  | add => some (a + b)
  | sub => some (a - b)
  | mul => some (a * b)
  | div => if divides a b then some (a.sdiv b) else none
  | rem => if divides a b then some (a.srem b) else none
  | divUn => if b == 0 then none else some (a.udiv b)
  | remUn => if b == 0 then none else some (a.umod b)
  | and => some (a &&& b)
  | or => some (a ||| b)
  | xor => some (a ^^^ b)
  | _ => none

def compare? {w : Nat} (op : BinaryOp) (a b : BitVec w) : Option Bool :=
  match op with
  | ceq => some (a == b)
  | cgt => some (b.slt a)
  | cgtUn => some (b.ult a)
  | clt => some (a.slt b)
  | cltUn => some (a.ult b)
  | _ => none

/-- The result of a shift; the amount counts modulo the width of the shifted number. -/
def shift? {w : Nat} (op : BinaryOp) (a : BitVec w) (amount : Nat) : Option (BitVec w) :=
  match op with
  | shl => some (a <<< (amount % w))
  | shr => some (a.sshiftRight (amount % w))
  | shrUn => some (a >>> (amount % w))
  | _ => none

end BinaryOp

def Condition.compare? {w : Nat} (c : Condition) (a b : BitVec w) : Option Bool :=
  match c with
  | eq => some (a == b)
  | neUn => some (a != b)
  | ge => some (b.sle a)
  | gt => some (b.slt a)
  | le => some (a.sle b)
  | lt => some (a.slt b)
  | geUn => some (b.ule a)
  | gtUn => some (b.ult a)
  | leUn => some (a.ule b)
  | ltUn => some (a.ult b)
  | isFalse | isTrue => none

namespace Constant

/-- The constant that an integer load puts on the stack for the number written in it. -/
def ofLoad (op : Opcode) (n : Int) : Constant :=
  if op = .ldcI8 then int64 (BitVec.ofInt 64 n) else int32 (BitVec.ofInt 32 n)

def load : Constant → Opcode × Operand
  | int32 v => loadInt32 v
  | int64 v => (.ldcI8, .immediate (.int64 v))

def ofBool (b : Bool) : Constant := int32 (if b then 1 else 0)

def isZero : Constant → Bool
  | int32 v => v == 0
  | int64 v => v == 0

def toInt : Constant → Int
  | int32 v => v.toInt
  | int64 v => v.toInt

def toNat : Constant → Nat
  | int32 v => v.toNat
  | int64 v => v.toNat

def caseIndex : Constant → Nat
  | int32 v => v.toNat
  | int64 v => (v.setWidth 32).toNat

def unary (op : UnaryOp) : Constant → Constant
  | int32 v => int32 (match op with | .neg => -v | .not => ~~~v)
  | int64 v => int64 (match op with | .neg => -v | .not => ~~~v)

/-- An operator on two constants. The operands of all but shifts have one width. -/
def binary? (op : BinaryOp) (a b : Constant) : Option Constant :=
  match a, b with
  | int32 x, int32 y =>
    ((op.arith? x y <|> op.shift? x b.toNat).map int32) <|> (op.compare? x y).map ofBool
  | int64 x, int64 y =>
    ((op.arith? x y <|> op.shift? x b.toNat).map int64) <|> (op.compare? x y).map ofBool
  | int32 x, int64 _ => (op.shift? x b.toNat).map int32
  | int64 x, int32 _ => (op.shift? x b.toNat).map int64

def branch? (c : Condition) (a b : Constant) : Option Bool :=
  match a, b with
  | int32 x, int32 y => c.compare? x y
  | int64 x, int64 y => c.compare? x y
  | _, _ => none

end Constant
end Unravel
