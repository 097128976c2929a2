import RangeKeys.Text.Shapeless

/-!
# Quoted text

Text between double quotes. A quote, a backslash and the common control characters are
written with a backslash and one letter, every other character without a shape of its own
by its number in braces, and all else as itself.
-/

namespace RangeKeys.Text

/-- The number of the character in lower case hexadecimal digits, braced. -/
def numbered (c : Char) : List Char :=
  "\\u\x7b".toList ++ Nat.toDigits 16 c.toNat ++ ['\x7d']

/-- How one character is written inside the quotes. -/
def quotedChar (c : Char) : List Char :=
  match c with
  | '\x00' => ['\\', '0']
  | '\t' => ['\\', 't']
  | '\r' => ['\\', 'r']
  | '\n' => ['\\', 'n']
  | '"' => ['\\', '"']
  | '\\' => ['\\', '\\']
  | c => if c.val < 0x20 || c.val = 0x7f || isShapeless c then numbered c else [c]

/-- The text in quotes. -/
def quoted (text : String) : String :=
  String.ofList ('"' :: text.toList.flatMap quotedChar ++ ['"'])

end RangeKeys.Text
