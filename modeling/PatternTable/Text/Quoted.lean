/-!
# Quoted text

A text is quoted as a JSON string literal: a quotation mark, a backslash and the control characters
below U+0020 are escaped, with a short escape where there is one and `\u00xx` in lower-case
hexadecimal otherwise. Every other character stands for itself.
-/

namespace PatternTable.Text

/-- The hexadecimal digit of a number below 16, in lower case. -/
def hexDigit (n : Nat) : Char :=
  if n < 10 then Char.ofNat (0x30 + n) else Char.ofNat (0x57 + n)

/-- How a character is written between quotation marks. -/
def escaped (c : Char) : List Char :=
  if c = '"' then ['\\', '"']
  else if c = '\\' then ['\\', '\\']
  else if c = '\x08' then ['\\', 'b']
  else if c = '\t' then ['\\', 't']
  else if c = '\n' then ['\\', 'n']
  else if c = '\x0c' then ['\\', 'f']
  else if c = '\r' then ['\\', 'r']
  else if c.toNat < 0x20 then
    ['\\', 'u', '0', '0', hexDigit (c.toNat / 16), hexDigit (c.toNat % 16)]
  else [c]

/-- A text in double quotation marks. -/
def quote (text : String) : String :=
  String.ofList ('"' :: (text.toList.flatMap escaped ++ ['"']))

example : quote "a\"b\\\n\x07é" = "\"a\\\"b\\\\\\n\\u0007é\"" := by decide +kernel

end PatternTable.Text
