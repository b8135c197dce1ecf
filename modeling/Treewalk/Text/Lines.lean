/-! # Lines

    A text as its lines.  Every line ends in a line feed; behind the last line
    feed there is a line only if there is something. -/

namespace Treewalk.Text

/-- The lines of a text with one more character in front. -/
def consLines (c : Char) (ls : List (List Char)) : List (List Char) :=
  if c = '\n' then [] :: ls
  else
    match ls with
    | [] => [[c]]
    | l :: ls => (c :: l) :: ls

/-- The lines of a text, without their line feeds. -/
def splitLines (cs : List Char) : List (List Char) := cs.foldr consLines []

/-- The lines of a text. -/
def lines (s : String) : List String := (splitLines s.toList).map String.ofList

/-- The text of lines, each with a line feed behind it. -/
def unlines (ls : List String) : String := ls.foldl (fun text l => text ++ l ++ "\n") ""

end Treewalk.Text
