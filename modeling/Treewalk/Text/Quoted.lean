import Treewalk.Text.Printable

/-! # Quoted texts

    A text is quoted with apostrophes, or with double quotes if it holds
    apostrophes and no double quotes.  Inside, the quotation mark and the
    backslash stand behind a backslash, line ends and tabs have a letter, and
    other characters that are not printable are written by their code point in
    hexadecimal. -/

namespace Treewalk.Text

/-- The code point in lower-case hexadecimal, with at least `width` digits. -/
def hexadecimal (width code : Nat) : List Char :=
  let ds := Nat.toDigits 16 code
  List.replicate (width - ds.length) '0' ++ ds

/-- A character that is not printable, by its code point. -/
def byCode (c : Char) : List Char :=
  let code := c.toNat
  if code < 0x100 then '\\' :: 'x' :: hexadecimal 2 code
  else if code < 0x10000 then '\\' :: 'u' :: hexadecimal 4 code
  else '\\' :: 'U' :: hexadecimal 8 code

/-- A character as it stands between quotation marks. -/
def escape (mark c : Char) : List Char :=
  if c == mark || c == '\\' then ['\\', c]
  else if c == '\n' then ['\\', 'n']
  else if c == '\r' then ['\\', 'r']
  else if c == '\t' then ['\\', 't']
  else if isPrintable c then [c]
  else byCode c

/-- The mark a text is quoted with. -/
def markFor (cs : List Char) : Char :=
  if cs.contains '\'' && !cs.contains '"' then '"' else '\''

/-- A text between quotation marks. -/
def quoted (s : String) : String :=
  let cs := s.toList
  let mark := markFor cs
  String.ofList (mark :: cs.flatMap (escape mark) ++ [mark])

end Treewalk.Text
