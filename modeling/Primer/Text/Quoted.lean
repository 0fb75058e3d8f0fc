import Primer.Text.Visibility

/-!
Quoted texts: a text between double quotes in which quotes, backslashes and a few control
characters are escaped by a letter, and every other hidden character by its number.
-/

set_option autoImplicit false
set_option relaxedAutoImplicit false

namespace Primer.Text

/-- One character inside a quoted text. -/
def escapeChar (c : Char) : List Char :=
  if c = '\x00' then ['\\', '0']
  else if c = '\t' then ['\\', 't']
  else if c = '\r' then ['\\', 'r']
  else if c = '\n' then ['\\', 'n']
  else if c = '\\' then ['\\', '\\']
  else if c = '"' then ['\\', '"']
  else if isHidden c then "\\u\x7b".toList ++ Nat.toDigits 16 c.toNat ++ ['\x7d']
  else [c]

/-- A text in quotes. -/
def quote (s : String) : String :=
  String.ofList ('"' :: s.toList.flatMap escapeChar ++ ['"'])

end Primer.Text
