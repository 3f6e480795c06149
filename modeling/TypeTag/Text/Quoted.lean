import TypeTag.Text.ExtendingMark
import TypeTag.Text.Printable

namespace TypeTag.Text

def hexDigits (n : Nat) : List Char :=
  Nat.toDigits 16 n

/-- Quotes and backslashes are escaped, and so is every character that would not be seen on its own:
one that is not printable, or a mark that joins the character before it. -/
def escape (c : Char) : List Char :=
  match c with
  | '"' => ['\\', '"']
  | '\\' => ['\\', '\\']
  | '\n' => ['\\', 'n']
  | '\r' => ['\\', 'r']
  | '\t' => ['\\', 't']
  | '\x00' => ['\\', '0']
  | c =>
    if isPrintable c && !isExtendingMark c then [c]
    else ['\\', 'u', '{'] ++ hexDigits c.toNat ++ ['}']

def quote (s : String) : String :=
  String.ofList ('"' :: s.toList.flatMap escape ++ ['"'])

def bracket (items : List String) : String :=
  "[" ++ ", ".intercalate items ++ "]"

end TypeTag.Text
