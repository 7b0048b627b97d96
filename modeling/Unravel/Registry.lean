import Unravel.Token

namespace Unravel

structure Registry where
  marks : List (Token × UInt32) := []
deriving DecidableEq, Inhabited, Repr

namespace Registry

def size (r : Registry) : Nat := r.marks.length

def isEmpty (r : Registry) : Bool := r.marks.isEmpty

def flags (r : Registry) (token : Token) : UInt32 := (r.marks.lookup token).getD 0

def check (r : Registry) (token : Token) (bits : UInt32) : Bool := r.flags token &&& bits == bits

def markIn (token : Token) (bits : UInt32) : List (Token × UInt32) → List (Token × UInt32)
  | [] => [(token, bits)]
  | (key, old) :: rest =>
    if key = token then (key, old ||| bits) :: rest else (key, old) :: markIn token bits rest

/-- Set flags; the token has an entry afterwards, even if no flag was given. -/
def mark (r : Registry) (token : Token) (bits : UInt32) : Registry := ⟨markIn token bits r.marks⟩

/-- Set flags and tell whether one of them was new. -/
def take (r : Registry) (token : Token) (bits : UInt32) : Bool × Registry :=
  (!r.check token bits, r.mark token bits)

end Registry
end Unravel
