/-! Shortest decimals of binary fractions. A finite value is `m * 2 ^ q`; the decimals that read
   back as it fill the interval between the midpoints to its two neighbours. The shortest decimal
   has the fewest digits of all in that interval and, of those, is nearest to the value. -/
namespace Unravel.Decimal

abbrev power (base exponent : Nat) : Nat := Nat.pow base exponent

/-- A binary floating-point format by the widths of its fraction and its exponent. -/
structure Format where
  fractionBits : Nat
  exponentBits : Nat

def single : Format := ⟨23, 8⟩

def double : Format := ⟨52, 11⟩

/-- What a bit pattern stands for. `narrow` marks a value whose lower neighbour is nearer than
   its upper one. -/
inductive Reading
  | nan
  | infinite
  | zero
  | finite (m : Nat) (q : Int) (narrow : Bool)

def Format.negative (f : Format) (bits : Nat) : Bool :=
  bits / power 2 (f.fractionBits + f.exponentBits) % 2 == 1

def Format.read (f : Format) (bits : Nat) : Reading :=
  let hidden := power 2 f.fractionBits
  let fraction := bits % hidden
  let exponent := bits / hidden % power 2 f.exponentBits
  let least : Int := 2 - power 2 (f.exponentBits - 1) - f.fractionBits
  if exponent = power 2 f.exponentBits - 1 then
    if fraction = 0 then .infinite else .nan
  else if exponent = 0 then
    if fraction = 0 then .zero else .finite fraction least false
  else
    .finite (hidden + fraction) (least + (exponent - 1))
      (fraction == 0 && exponent != 1)

structure Digits where
  coefficient : Nat
  exponent : Int

/-- The power `base ^ e` is the quotient of `numerator` and `denominator`. -/
def numerator (base : Nat) (e : Int) : Nat := power base e.toNat

def denominator (base : Nat) (e : Int) : Nat := power base (-e).toNat

def digitCount (n : Nat) : Nat := (Nat.toDigits 10 n).length

def magnitude (n d : Nat) : Int :=
  let k : Int := (digitCount n : Int) - digitCount d
  if numerator 10 k * d ≤ n * denominator 10 k then k else k - 1

/-- The decimal on the grid of `10 ^ e` that reads back as the value, if there is one. Only the
   two grid points around the value can do so; a tie between them goes up. -/
def onGrid? (m : Nat) (q : Int) (narrow : Bool) (e : Int) : Option Digits :=
  let unit := numerator 10 e * denominator 2 (q - 2)
  let scale := numerator 2 (q - 2) * denominator 10 e
  let value := 4 * m * scale
  let low := (4 * m - if narrow then 1 else 2) * scale
  let high := (4 * m + 2) * scale
  let inside (x : Nat) : Bool := low < x && x < high || m % 2 == 0 && (x == low || x == high)
  let below := value / unit
  let down := inside (below * unit)
  let up := inside ((below + 1) * unit)
  if up && (!down || unit ≤ 2 * (value % unit)) then some ⟨below + 1, e⟩
  else if down then some ⟨below, e⟩
  else none

/-- Seventeen digits tell any two values of either format apart. -/
def shortest (m : Nat) (q : Int) (narrow : Bool) : Digits :=
  let top := magnitude (m * numerator 2 q) (denominator 2 q)
  ((List.range 17).findSome? fun (n : Nat) => onGrid? m q narrow (top - n)).getD ⟨m, q⟩

def Digits.trim (d : Digits) : Digits :=
  let zeros := ((Nat.toDigits 10 d.coefficient).reverse.takeWhile (· == '0')).length
  ⟨d.coefficient / power 10 zeros, d.exponent + zeros⟩

end Unravel.Decimal
