import Treewalk.Token.Piece

/-! # Scanning

    The tokens of a text are its lexeme pieces, each with the line of its last
    character.  Mistakes do not stop the scan: they are listed beside the
    tokens, so that a parser can still look at the rest. -/

namespace Treewalk

/-! ### Mistakes -/

/-- What can be wrong with a piece of text. -/
inductive ScanIssue where
  /-- A character that no lexeme starts with. -/
  | unexpectedCharacter
  /-- A string literal without its closing mark. -/
  | unterminatedString
  /-- A block comment without its closing mark. -/
  | unterminatedComment
deriving DecidableEq, Repr

namespace ScanIssue

/-- The wording of an issue. -/
def message : ScanIssue → String
  | .unexpectedCharacter => "Unexpected character."
  | .unterminatedString => "Unterminated string."
  | .unterminatedComment => "Unterminated block comment."

/-- The text ended inside a literal or comment: more text may mend it. -/
def isUnterminated : ScanIssue → Bool
  | .unexpectedCharacter => false
  | .unterminatedString | .unterminatedComment => true

end ScanIssue

/-- What is wrong with a piece, if anything. -/
def Piece.issue? : Piece → Option ScanIssue
  | .stray _ => some .unexpectedCharacter
  | .openString .. => some .unterminatedString
  | .openComment .. => some .unterminatedComment
  | _ => none

/-- The lexeme a piece is, if it is one. -/
def Piece.lexeme? : Piece → Option Lexeme
  | .lexeme l => some l
  | _ => none

/-! ### Line numbers -/

/-- The line reached after the given pieces. -/
def lineAfter (line : Int) (ps : List Piece) : Int :=
  ps.foldl (fun n p => n + p.newlines) line

/-- The tokens among the pieces, numbered from `line`.  A token is on the line
    where it ends. -/
def tokensFrom (line : Int) : List Piece → List Token
  | [] => []
  | p :: ps =>
    let after := line + p.newlines
    match p.lexeme? with
    | some l => ⟨l, after⟩ :: tokensFrom after ps
    | none => tokensFrom after ps

/-- The issues among the pieces, numbered from `line`.  An issue is on the line
    where its piece starts. -/
def issuesFrom (line : Int) : List Piece → List (ScanIssue × Int)
  | [] => []
  | p :: ps =>
    let after := line + p.newlines
    match p.issue? with
    | some i => (i, line) :: issuesFrom after ps
    | none => issuesFrom after ps

/-! ### The scan -/

/-- What a scan finds. -/
structure Scan where
  /-- The tokens in order. -/
  tokens : List Token
  /-- The line the text ends on. -/
  endLine : Int
  /-- The issues in order, each with its line. -/
  issues : List (ScanIssue × Int)
deriving DecidableEq, Repr

/-- Scans a text whose first line has the given number. -/
def scan (source : String) (line : Int) : Scan :=
  let ps := pieces source.toList
  { tokens := tokensFrom line ps
    endLine := lineAfter line ps
    issues := issuesFrom line ps }

end Treewalk
