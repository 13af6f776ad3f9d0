import DotLang.Text.Printable
/-!
# Quoted names

Log records show a name between double quotes.  A quote, a backslash and the
common controls have short escapes, and every other character that does not
print is shown by its code point.
-/

namespace DotLang.Text

/-- The hexadecimal digits of a number. -/
def hexDigits (n : Nat) : List Char := Nat.toDigits 16 n

/-- A character of a quoted name. -/
def quotedChar (c : Char) : List Char :=
  if c = '"' then ['\\', '"']
  else if c = '\\' then ['\\', '\\']
  else if c = '\t' then ['\\', 't']
  else if c = '\n' then ['\\', 'n']
  else if c = '\r' then ['\\', 'r']
  else if c = '\x00' then ['\\', '0']
  else if isPrintable c then [c]
  else ['\\', 'u', '\x7b'] ++ hexDigits c.toNat ++ ['\x7d']

/-- A name between double quotes. -/
def quoted (name : String) : String :=
  String.ofList ('"' :: name.toList.flatMap quotedChar ++ ['"'])

/-- A name that may be missing. -/
def quotedName : Option String → String
  | none => "None"
  | some name => "Some(" ++ quoted name ++ ")"

end DotLang.Text
