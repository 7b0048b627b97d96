namespace Unravel.Text

/-- Lower-case hexadecimal digits of a number, padded with zeros on the left. -/
def hex (width n : Nat) : String :=
  let digits := Nat.toDigits 16 n
  String.ofList (List.replicate (width - digits.length) '0' ++ digits)

end Unravel.Text
