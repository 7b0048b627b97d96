import Unravel.Id
import Unravel.Token
import Unravel.Decimal.Style

namespace Unravel

structure MethodRef where
  token : Token
  params : Nat
  hasThis : Bool
  returns : Bool
deriving DecidableEq, Inhabited, Repr

def MethodRef.arity (m : MethodRef) : Nat := m.params + m.hasThis.toNat

/-- A field and the full name of the type that declares it. -/
structure FieldRef where
  token : Token
  owner : String
deriving DecidableEq, Inhabited, Repr

/-- Literals in the code; a floating-point literal is kept as its bit pattern. -/
inductive Immediate
  | int8 (v : BitVec 8)
  | uint8 (v : BitVec 8)
  | int32 (v : BitVec 32)
  | int64 (v : BitVec 64)
  | float32 (bits : BitVec 32)
  | float64 (bits : BitVec 64)
deriving DecidableEq, Inhabited, Repr

namespace Immediate

def toInt? : Immediate → Option Int
  | int8 v => some v.toInt
  | uint8 v => some v.toNat
  | int32 v => some v.toInt
  | int64 v => some v.toInt
  | float32 _ | float64 _ => none

def render : Immediate → String
  | int8 v => toString v.toInt
  | uint8 v => toString v.toNat
  | int32 v => toString v.toInt
  | int64 v => toString v.toInt
  | float32 bits => Decimal.write Decimal.single .listing bits.toNat
  | float64 bits => Decimal.write Decimal.double .listing bits.toNat

end Immediate

inductive Operand
  | none
  | immediate (value : Immediate)
  | target (id : InstrId)
  | switch (ids : List InstrId)
  | method (m : MethodRef)
  | field (f : FieldRef)
  | token (t : Token)
  | localVar (n : Nat)
  | argument (n : Nat)
deriving DecidableEq, Inhabited, Repr

def Operand.render : Operand → String
  | none => ""
  | immediate v => v.render
  | target id => InstrId.render id
  | switch ids => "(" ++ ", ".intercalate (ids.map InstrId.render) ++ ")"
  | method m => m.token.render
  | field f => f.token.render
  | token t => t.render
  | localVar n => "V_" ++ toString n
  | argument n => "A_" ++ toString n

end Unravel
