import Unravel.Decimal.Shortest

namespace Unravel.Decimal

/-- A value whose first digit stands for `10 ^ k` is written in positions if `positional k`. -/
structure Style where
  wholePart : String
  positional : Int → Bool

/-- Operands in listings: always in positions, and whole numbers bare. -/
def Style.listing : Style := ⟨"", fun _ => true⟩

/-- Operands spelled out: whole numbers keep a fraction, and magnitudes outside
   `10 ^ -4 ≤ x < 10 ^ 16` take an exponent. -/
def Style.spelled : Style := ⟨".0", fun k => -4 ≤ k && k < 16⟩

def zeros (n : Nat) : List Char := List.replicate n '0'

def positional (wholePart : String) (digits : List Char) (exponent : Int) : String :=
  let places := (-exponent).toNat
  if places = 0 then String.ofList (digits ++ zeros exponent.toNat) ++ wholePart
  else
    let padded := zeros (places + 1 - digits.length) ++ digits
    let whole := padded.length - places
    String.ofList (padded.take whole ++ '.' :: padded.drop whole)

def scientific (digits : List Char) (first : Int) : String :=
  String.ofList (digits.take 1 ++ (if digits.length ≤ 1 then [] else '.' :: digits.drop 1)) ++
    "e" ++ toString first

def Digits.write (style : Style) (d : Digits) : String :=
  let d := d.trim
  let digits := Nat.toDigits 10 d.coefficient
  let first := d.exponent + digits.length - 1
  if style.positional first then positional style.wholePart digits d.exponent
  else scientific digits first

/-- The text of a bit pattern; a number that is no number has no sign. -/
def write (f : Format) (style : Style) (bits : Nat) : String :=
  let sign := if f.negative bits then "-" else ""
  match f.read bits with
  | .nan => "NaN"
  | .infinite => sign ++ "inf"
  | .zero => sign ++ "0" ++ style.wholePart
  | .finite m q narrow => sign ++ (shortest m q narrow).write style

end Unravel.Decimal
