import ObjectMapping.Text.Unprintable
import ObjectMapping.Text.GraphemeExtend
import ObjectMapping.Text.Hexadecimal

/-!
# Quoted text

`quoted` writes a text between double quotes. A backslash and a double quote are escaped, the
common control characters have short escapes, and a character that is unprintable or would be drawn
onto its neighbour is written by its code point. A single quote stands for itself.
-/

namespace ObjectMapping.Text

/-- An escape by the hexadecimal code point. -/
def codePointEscape (c : Char) : List Char :=
  ['\\', 'u', '\x7b'] ++ hexPadded 0 c.toNat ++ ['\x7d']

/-- What stands for a character inside quotes. -/
def quotedChar (c : Char) : List Char :=
  if c = '\x00' then ['\\', '0']
  else if c = '\t' then ['\\', 't']
  else if c = '\n' then ['\\', 'n']
  else if c = '\r' then ['\\', 'r']
  else if c = '"' then ['\\', '"']
  else if c = '\\' then ['\\', '\\']
  else if isGraphemeExtend c || isUnprintable c then codePointEscape c
  else [c]

/-- The text between double quotes, with escapes. -/
def quoted (s : String) : String :=
  String.ofList ('"' :: s.toList.flatMap quotedChar ++ ['"'])

end ObjectMapping.Text
