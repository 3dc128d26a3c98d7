import Stackify.Text.Printable

/-!
Text in double quotes, as diagnostics show it: quotes, backslashes and line controls get a short
escape, every other character that does not print gets its code point in hexadecimal.
-/

namespace Stackify.Text

def hexDigits (n : Nat) : List Char := Nat.toDigits 16 n

/-- One character of quoted text. -/
def quotedChar (c : Char) : List Char :=
  match c with
  | '\x00' => ['\\', '0']
  | '\t' => ['\\', 't']
  | '\r' => ['\\', 'r']
  | '\n' => ['\\', 'n']
  | '"' => ['\\', '"']
  | '\\' => ['\\', '\\']
  | c => if isPrintable c then [c] else ['\\', 'u', '\x7b'] ++ hexDigits c.toNat ++ ['\x7d']

/-- The text between double quotes, with escapes. -/
def quoted (s : String) : String :=
  String.ofList ('"' :: s.toList.flatMap quotedChar ++ ['"'])

end Stackify.Text
