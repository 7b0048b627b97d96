import Unravel.Text.Hex

namespace Unravel

structure Token where
  value : UInt32
deriving DecidableEq, Inhabited, Repr

namespace Token

def methodTable : UInt32 := 0x06

def memberTable : UInt32 := 0x0A

def specTable : UInt32 := 0x2B

/-- The token of a row of a table; only the low three bytes of the row count. -/
def ofRow (table row : UInt32) : Token :=
  ⟨(table <<< 24) ||| (row &&& 0x00FFFFFF)⟩

def methodDef (row : UInt32) : Token := ofRow methodTable row

def memberRef (row : UInt32) : Token := ofRow memberTable row

def table (t : Token) : UInt32 := t.value >>> 24

def row (t : Token) : UInt32 := t.value &&& 0x00FFFFFF

def isNull (t : Token) : Bool := t.value == 0

/-- Row 0 of the method table names no method. -/
def isMethodDef (t : Token) : Bool := t.table == methodTable && t.row != 0

def isCallable (t : Token) : Bool :=
  t.table == methodTable || t.table == memberTable || t.table == specTable

def render (t : Token) : String := "0x" ++ Text.hex 8 t.value.toNat

def describe (t : Token) : String :=
  "Token(" ++ t.render ++ ", table: 0x" ++ Text.hex 2 t.table.toNat ++ ", row: " ++
    toString t.row.toNat ++ ")"

end Token
end Unravel
