import Unravel.Text.Hex
import Unravel.Text.Unseen

/-! Quoted text: what stands between double quotes, with a backslash before every character that
   would end the quotation or break the line. A character that does not show is written as its
   number. -/
namespace Unravel.Text

def escapeChar (c : Char) : List Char :=
  match c with
  | '"' => ['\\', '"']
  | '\\' => ['\\', '\\']
  | '\n' => ['\\', 'n']
  | '\r' => ['\\', 'r']
  | '\t' => ['\\', 't']
  | '\x00' => ['\\', '0']
  | c => if isUnseen c then ("\\u\x7b" ++ hex 1 c.toNat ++ "\x7d").toList else [c]

def quoted (s : String) : String :=
  String.ofList ('"' :: s.toList.flatMap escapeChar ++ ['"'])

end Unravel.Text
