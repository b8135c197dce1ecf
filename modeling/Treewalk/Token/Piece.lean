import Treewalk.Token.Basic

/-! # Cutting a text into pieces

    A program text is a sequence of pieces: lexemes, blanks, comments, and
    what is wrong with it (stray characters, and at the end an unclosed string
    or comment).  `pieces` finds them from left to right, each as long as it
    can be, and `Piece.text` writes a piece back, so that no character of the
    text is lost. -/

namespace Treewalk

/-! ### Character classes -/

/-- Decimal digits. -/
def isDigit (c : Char) : Bool := '0' ≤ c && c ≤ '9'

/-- Characters a name can start with: ASCII letters and the underscore. -/
def isNameStart (c : Char) : Bool :=
  ('a' ≤ c && c ≤ 'z') || ('A' ≤ c && c ≤ 'Z') || c == '_'

/-- Characters a name can go on with. -/
def isNameChar (c : Char) : Bool := isNameStart c || isDigit c

/-- Blanks within a line. -/
def isBlank (c : Char) : Bool := c == ' ' || c == '\r' || c == '\t'

/-! ### Pieces -/

/-- What a program text is made of. -/
inductive Piece where
  /-- A lexeme, which becomes a token. -/
  | lexeme (l : Lexeme)
  /-- A space, tab or carriage return. -/
  | blank (c : Char)
  /-- The end of a line. -/
  | newline
  /-- A comment up to the end of its line, without the two slashes. -/
  | lineComment (body : List Char)
  /-- A closed block comment, without its marks. -/
  | blockComment (body : List Char)
  /-- A character that no lexeme starts with. -/
  | stray (c : Char)
  /-- A string literal that is never closed: it takes the rest of the text. -/
  | openString (quote : Quote) (body : List Char)
  /-- A block comment that is never closed: it takes the rest of the text. -/
  | openComment (body : List Char)
deriving DecidableEq, Repr

namespace Piece

/-- The characters a piece was cut from. -/
def text : Piece → List Char
  | .lexeme l => l.text.toList
  | .blank c => [c]
  | .newline => ['\n']
  | .lineComment body => '/' :: '/' :: body
  | .blockComment body => '/' :: '*' :: body ++ ['*', '/']
  | .stray c => [c]
  | .openString quote body => quote.char :: body
  | .openComment body => '/' :: '*' :: body

/-- How many lines end inside a piece. -/
def newlines (p : Piece) : Nat := p.text.count '\n'

/-! ### The next piece -/

/-- The one-character symbol that needs no look at what follows. -/
def singleSymbol? : Char → Option Symbol
  | '(' => some .leftParen
  | ')' => some .rightParen
  | '\x7b' => some .leftBrace
  | '\x7d' => some .rightBrace
  | ',' => some .comma
  | '.' => some .dot
  | '-' => some .minus
  | '+' => some .plus
  | ';' => some .semicolon
  | '*' => some .star
  | _ => none

/-- The symbol a character stands for alone, and the one it makes with a
    following equals sign. -/
def doubleSymbol? : Char → Option (Symbol × Symbol)
  | '!' => some (.bang, .bangEqual)
  | '=' => some (.equal, .equalEqual)
  | '<' => some (.less, .lessEqual)
  | '>' => some (.greater, .greaterEqual)
  | _ => none

/-- The quotation mark a character is. -/
def quote? : Char → Option Quote
  | '"' => some .double
  | '\'' => some .single
  | _ => none

/-- Splits the rest of a block comment at the first closing mark. -/
def splitBlock : List Char → Option (List Char × List Char)
  | [] => none
  | '*' :: '/' :: rest => some ([], rest)
  | c :: rest => (splitBlock rest).map fun (body, after) => (c :: body, after)

/-- The piece that starts with a slash, given what follows the slash. -/
def afterSlash : List Char → Piece × List Char
  | '/' :: rest => (.lineComment (rest.takeWhile (· != '\n')), rest.dropWhile (· != '\n'))
  | '*' :: rest =>
    match splitBlock rest with
    | some (body, after) => (.blockComment body, after)
    | none => (.openComment rest, [])
  | rest => (.lexeme (.symbol .slash), rest)

/-- The piece that starts with a quotation mark, given what follows it. -/
def afterQuote (quote : Quote) (rest : List Char) : Piece × List Char :=
  let body := rest.takeWhile (· != quote.char)
  match rest.dropWhile (· != quote.char) with
  | [] => (.openString quote rest, [])
  | _ :: after => (.lexeme (.string quote (String.ofList body)), after)

/-- The number that starts with the given digit.  A point belongs to it only if
    a digit follows the point. -/
def number (digit : Char) (rest : List Char) : Piece × List Char :=
  let whole := String.ofList (digit :: rest.takeWhile isDigit)
  match rest.dropWhile isDigit with
  | '.' :: d :: after =>
    if isDigit d then
      (.lexeme (.number whole (some (String.ofList (d :: after.takeWhile isDigit)))),
        after.dropWhile isDigit)
    else (.lexeme (.number whole none), '.' :: d :: after)
  | after => (.lexeme (.number whole none), after)

/-- The lexeme of a word: a keyword if it is one, else a name. -/
def wordLexeme (word : String) : Lexeme :=
  match Keyword.ofText? word with
  | some k => .keyword k
  | none => .identifier word

/-- The word that starts with the given character. -/
def word (c : Char) (rest : List Char) : Piece × List Char :=
  (.lexeme (wordLexeme (String.ofList (c :: rest.takeWhile isNameChar))),
    rest.dropWhile isNameChar)

/-- The longest piece at the front of the text `c :: rest`, and what is left. -/
def next (c : Char) (rest : List Char) : Piece × List Char :=
  match singleSymbol? c with
  | some s => (.lexeme (.symbol s), rest)
  | none =>
  match doubleSymbol? c with
  | some (alone, withEqual) =>
    match rest with
    | '=' :: after => (.lexeme (.symbol withEqual), after)
    | _ => (.lexeme (.symbol alone), rest)
  | none =>
  match quote? c with
  | some q => afterQuote q rest
  | none =>
    if c == '/' then afterSlash rest
    else if isBlank c then (.blank c, rest)
    else if c == '\n' then (.newline, rest)
    else if isDigit c then number c rest
    else if isNameStart c then word c rest
    else (.stray c, rest)

end Piece

/-! ### The whole text -/

/-- Cuts a text into at most `bound` pieces. -/
def piecesUpTo : Nat → List Char → List Piece
  | 0, _ => []
  | _, [] => []
  | n + 1, c :: rest =>
    let (p, after) := Piece.next c rest
    p :: piecesUpTo n after

/-- Cuts a text into pieces; every piece takes at least one character. -/
def pieces (source : List Char) : List Piece := piecesUpTo source.length source

end Treewalk
