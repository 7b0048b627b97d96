import Unravel.Operand.Basic
import Unravel.Text.Quoted

namespace Unravel

def spellRecord (name : String) (fields : List (String × String)) : String :=
  name ++ " \x7b " ++ ", ".intercalate (fields.map fun f => f.1 ++ ": " ++ f.2) ++ " \x7d"

def spellBool (b : Bool) : String := if b then "true" else "false"

def spellId (id : InstrId) : String := "InstrId(" ++ toString id ++ ")"

def MethodRef.spell (m : MethodRef) : String :=
  spellRecord "MethodRef" [("token", m.token.describe), ("params", toString m.params),
    ("has_this", spellBool m.hasThis), ("returns_value", spellBool m.returns)]

def FieldRef.spell (f : FieldRef) : String :=
  spellRecord "FieldRef" [("token", f.token.describe), ("declaring_type", Text.quoted f.owner)]

def Immediate.spell : Immediate → String
  | int8 v => "Int8(" ++ toString v.toInt ++ ")"
  | uint8 v => "UInt8(" ++ toString v.toNat ++ ")"
  | int32 v => "Int32(" ++ toString v.toInt ++ ")"
  | int64 v => "Int64(" ++ toString v.toInt ++ ")"
  | float32 bits => "Float32(" ++ Decimal.write Decimal.single .spelled bits.toNat ++ ")"
  | float64 bits => "Float64(" ++ Decimal.write Decimal.double .spelled bits.toNat ++ ")"

def Operand.spell : Operand → String
  | none => "None"
  | immediate v => "Immediate(" ++ v.spell ++ ")"
  | target id => "Target(" ++ spellId id ++ ")"
  | switch ids => "Switch([" ++ ", ".intercalate (ids.map spellId) ++ "])"
  | method m => "Method(" ++ m.spell ++ ")"
  | field f => "Field(" ++ f.spell ++ ")"
  | token t => "Token(" ++ t.describe ++ ")"
  | localVar n => "Local(" ++ toString n ++ ")"
  | argument n => "Argument(" ++ toString n ++ ")"

end Unravel
