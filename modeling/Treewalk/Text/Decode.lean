/-! # Reading program files

    A program file is text in UTF-8.  A carriage return, alone or before a line
    feed, ends a line just as a line feed does. -/

namespace Treewalk.Text

/-- Turns every line end into a line feed. -/
def unifyLineEnds : List Char → List Char
  | [] => []
  | '\r' :: '\n' :: rest => '\n' :: unifyLineEnds rest
  | '\r' :: rest => '\n' :: unifyLineEnds rest
  | c :: rest => c :: unifyLineEnds rest

/-- The text of a file, if its bytes are one. -/
def decode? (bytes : ByteArray) : Option String :=
  (String.fromUTF8? bytes).map fun s => String.ofList (unifyLineEnds s.toList)

end Treewalk.Text
