import Unravel.Operand.Basic

/-! Exception clauses of a method body: a protected range and the code that handles it. Ends are
   exclusive; a missing end is the end of the body. -/
namespace Unravel

/-- The bits that tell the kinds of clauses apart; no bit marks a typed clause. Further bits are
   kept as they are. -/
structure ClauseFlags where
  bits : UInt16
deriving DecidableEq, Inhabited, Repr

namespace ClauseFlags

def typed : ClauseFlags := ⟨0⟩

def filter : ClauseFlags := ⟨1⟩

def cleanup : ClauseFlags := ⟨2⟩

def isFilter (f : ClauseFlags) : Bool := f.bits &&& 1 != 0

def isCleanup (f : ClauseFlags) : Bool := f.bits &&& 6 != 0

def entryDepth (f : ClauseFlags) : Nat := if f.isCleanup then 0 else 1

end ClauseFlags

structure Clause where
  flags : ClauseFlags
  tryStart : InstrId
  tryEnd : Option InstrId
  handlerStart : InstrId
  handlerEnd : Option InstrId
  filterStart : Option InstrId
  catchType : Option Token
deriving DecidableEq, Inhabited, Repr

def Clause.bounds (c : Clause) : List InstrId :=
  [some c.tryStart, c.tryEnd, some c.handlerStart, c.handlerEnd, c.filterStart].filterMap id

end Unravel
