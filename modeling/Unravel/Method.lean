import Unravel.Body.Basic

namespace Unravel

def voidType : String := "System.Void"

def booleanType : String := "System.Boolean"

/-- A method with its signature. `broken` marks a method whose body can be neither read nor
   written any more. -/
structure Method where
  token : Token := Token.methodDef 1
  owner : String := "T"
  name : String := "M"
  returnType : String := voidType
  params : Nat := 0
  hasThis : Bool := false
  body : Option Body := none
  broken : Bool := false
deriving DecidableEq, Inhabited, Repr

namespace Method

def fullName (m : Method) : String := m.returnType ++ " " ++ m.owner ++ "::" ++ m.name

def returnsValue (m : Method) : Bool := m.returnType != voidType

def returnsBoolean (m : Method) : Bool := m.returnType == booleanType

def ref (m : Method) : MethodRef := ⟨m.token, m.params, m.hasThis, m.returnsValue⟩

def arity (m : Method) : Nat := m.params + m.hasThis.toNat

def code? (m : Method) : Option Body := m.body.filter fun b => !b.instrs.isEmpty

def readable? (m : Method) : Option Body := if m.broken then none else m.body

end Method

/-- Methods in ascending order of their tokens, at most one for each token. -/
structure MethodTable where
  methods : List Method := []
deriving DecidableEq, Inhabited, Repr

namespace MethodTable

def insertSorted (m : Method) : List Method → List Method
  | [] => [m]
  | x :: rest =>
    if m.token = x.token then m :: rest
    else if m.token.value < x.token.value then m :: x :: rest
    else x :: insertSorted m rest

/-- Add a method; one with the same token is replaced. -/
def insert (t : MethodTable) (m : Method) : MethodTable := ⟨insertSorted m t.methods⟩

def ofList (methods : List Method) : MethodTable := methods.foldl insert {}

def get? (t : MethodTable) (token : Token) : Option Method :=
  t.methods.find? fun m => m.token == token

/-- The method that a call names; only tokens of method definitions name one. -/
def resolve? (t : MethodTable) (token : Token) : Option Method :=
  if token.isMethodDef then t.get? token else none

def modify (t : MethodTable) (token : Token) (f : Method → Method) : MethodTable :=
  ⟨t.methods.map fun m => if m.token = token then f m else m⟩

def setBody (t : MethodTable) (token : Token) (body : Body) : MethodTable :=
  t.modify token fun m => { m with body := some body }

/-- Give the method with the token of another one the body of that one. -/
def adopt (t : MethodTable) (m : Method) : MethodTable :=
  t.modify m.token fun held => { held with body := m.body }

def breakBody (t : MethodTable) (token : Token) : MethodTable :=
  t.modify token fun m => { m with broken := true }

end MethodTable

/-- What tokens of calls stand for. A table is one way to tell. -/
structure Resolver where
  resolve? : Token → Option Method
deriving Inhabited

def MethodTable.resolver (t : MethodTable) : Resolver := ⟨t.resolve?⟩

instance : Coe MethodTable Resolver := ⟨MethodTable.resolver⟩

def Resolver.ofList (methods : List Method) : Resolver := (MethodTable.ofList methods).resolver

end Unravel
