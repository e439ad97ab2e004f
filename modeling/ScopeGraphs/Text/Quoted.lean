import ScopeGraphs.Text.Printable

/-!
# Quoted texts

The form in which names and labels appear inside messages: between double quotes, with quotes,
backslashes and the four common control characters escaped by a letter, and every other
character that does not show on its own escaped by its code point. An apostrophe stays as it is.
-/

namespace ScopeGraphs

namespace Quoted

/-- The hexadecimal digits of a number, lower case, without leading zeros. -/
def hex (n : Nat) : List Char := Nat.toDigits 16 n

/-- The written form of one character. -/
def escape (c : Char) : List Char :=
  match c with
  | '"' => ['\\', '"']
  | '\\' => ['\\', '\\']
  | '\n' => ['\\', 'n']
  | '\t' => ['\\', 't']
  | '\r' => ['\\', 'r']
  | '\x00' => ['\\', '0']
  | c => if isPrintable c then [c] else ['\\', 'u', '\x7b'] ++ hex c.toNat ++ ['\x7d']

end Quoted

/-- The text between double quotes, escaped. -/
def quoted (s : String) : String :=
  String.ofList ('"' :: s.toList.flatMap Quoted.escape ++ ['"'])

end ScopeGraphs
