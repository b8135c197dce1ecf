import Treewalk.Grammar.Statement

/-! # Programs

    The three mutually nested parsers, and the parser of a whole text.  Nesting
    is bounded by a number that every nested phrase counts down; `parse` picks
    it from the number of tokens, large enough to be never reached, because a
    phrase that contains another one reads a token before it. -/

namespace Treewalk

namespace Parser

mutual

/-- Reads an expression nested at most the given number of times. -/
def expression (interactive : Bool) : Nat → Parser SourceExpr
  | 0 => miss .expression
  | n + 1 => assignment (expression interactive n) (block (declaration interactive n))

/-- Reads a statement nested at most the given number of times. -/
def statement (interactive : Bool) : Nat → Parser SourceStmt
  | 0 => miss .expression
  | n + 1 =>
    statementWith interactive (expression interactive n) (statement interactive n)
      (declaration interactive n)

/-- Reads a declaration nested at most the given number of times; if that fails
    there is none, and reading resumes at the next likely start of one. -/
def declaration (interactive : Bool) : Nat → Parser (Option SourceStmt)
  | 0 => recovering (miss .expression)
  | n + 1 =>
    recovering <| declarationWith (expression interactive n) (statement interactive n)
      (declaration interactive n)

end

/-- A nesting that no phrase of so many tokens reaches. -/
def nestingBound (tokens : Nat) : Nat := 3 * tokens + 3

end Parser

/-- What parsing a text yields. -/
structure Parsed where
  /-- The statements that could be read. -/
  statements : List SourceStmt
  /-- The errors in the order they were found. -/
  errors : List ParseError
  /-- The text is an interactive entry that ends in an expression without its
      semicolon, so that its value is to be shown. -/
  bare : Bool

/-- The last token is a semicolon. -/
def endsInSemicolon (tokens : List Token) : Bool :=
  match tokens.getLast? with
  | some t => t.isSymbol .semicolon
  | none => false

/-- The last statement is an expression. -/
def endsInExpression (statements : List SourceStmt) : Bool :=
  match statements.getLast? with
  | some s => s.isExpression
  | none => false

/-- Parses the tokens of a script or, if `interactive`, of one entry. -/
def parse (interactive : Bool) (tokens : List Token) : Parsed :=
  let one := Parser.declaration interactive (Parser.nestingBound tokens.length)
  match Parser.declarations Parser.atEnd one ⟨tokens, #[]⟩ with
  | .ok statements s =>
    let errors := s.errors.toList
    { statements, errors
      bare := interactive && errors.isEmpty && endsInExpression statements
        && !endsInSemicolon tokens }
  | .error _ s => { statements := [], errors := s.errors.toList, bare := false }

end Treewalk
