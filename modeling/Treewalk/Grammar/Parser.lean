import Treewalk.Grammar.Issue
import Treewalk.Tree.Basic

/-! # Parsers

    A parser reads tokens from the front of a list and may record errors as it
    goes.  A missing token makes it fail: it stops where it is, and a statement
    further out resumes after a likely statement boundary (`resync`). -/

namespace Treewalk

/-- How far a parser has come. -/
structure ParseState where
  /-- The tokens not yet read. -/
  rest : List Token
  /-- The errors recorded so far, in order. -/
  errors : Array ParseError

/-- The reason a parser stops: its error is recorded already. -/
inductive Failure where
  | failed

/-- A parser that yields an `α` or fails; it changes its state either way. -/
abbrev Parser (α : Type) := EStateM Failure ParseState α

namespace Parser

/-! ### Looking ahead -/

/-- The next token. -/
def peek : Parser (Option Token) := fun s => .ok s.rest.head? s

/-- The number of tokens left. -/
def remaining : Parser Nat := fun s => .ok s.rest.length s

/-- There are no more tokens. -/
def atEnd : Parser Bool := fun s => .ok s.rest.isEmpty s

/-- The next token is the given symbol. -/
def nextIs (symbol : Symbol) : Parser Bool := fun s =>
  .ok (match s.rest with
    | t :: _ => t.isSymbol symbol
    | [] => false) s

/-! ### Errors -/

/-- Records an issue at a token and goes on. -/
def report (issue : ParseIssue) (site : Option Token) : Parser Unit := fun s =>
  .ok () { s with errors := s.errors.push ⟨issue, site⟩ }

/-- Records that something is missing before the next token, and fails. -/
def miss {α : Type} (what : Expectation) : Parser α := fun s =>
  .error .failed { s with errors := s.errors.push ⟨.missing what, s.rest.head?⟩ }

/-! ### Reading -/

/-- Reads the next token if `f` accepts its lexeme. -/
def acceptWith {α : Type} (f : Lexeme → Option α) : Parser (Option (α × Token)) := fun s =>
  match s.rest with
  | t :: rest =>
    match f t.lexeme with
    | some a => .ok (some (a, t)) { s with rest := rest }
    | none => .ok none s
  | [] => .ok none s

/-- Reads the given symbol if it is next. -/
def accept (symbol : Symbol) : Parser (Option Token) := fun s =>
  match s.rest with
  | t :: rest => if t.isSymbol symbol then .ok (some t) { s with rest := rest } else .ok none s
  | [] => .ok none s

/-- Reads the given keyword if it is next. -/
def acceptKeyword (word : Keyword) : Parser (Option Token) := fun s =>
  match s.rest with
  | t :: rest => if t.isKeyword word then .ok (some t) { s with rest := rest } else .ok none s
  | [] => .ok none s

/-- Reads the given symbol, which has to be next. -/
def expect (symbol : Symbol) (what : Expectation) : Parser Token := do
  match ← accept symbol with
  | some t => pure t
  | none => miss what

/-- The name that a token is, if it is one. -/
def nameOf? (t : Token) : Option Name :=
  match t.lexeme with
  | .identifier text => some ⟨text, t.line⟩
  | _ => none

/-- Reads a name, which has to be next. -/
def expectName (what : Expectation) : Parser Name := fun s =>
  match s.rest with
  | t :: rest =>
    match nameOf? t with
    | some name => .ok name { s with rest := rest }
    | none => miss what s
  | [] => miss what s

/-! ### Repetition -/

/-- Takes at most the given number of steps, up to the first that finds nothing
    to do. -/
def stepsUpTo {α : Type} (step : α → Parser (Option α)) : Nat → α → Parser α
  | 0, a => pure a
  | n + 1, a => do
    match ← step a with
    | some b => stepsUpTo step n b
    | none => pure a

/-- Takes steps up to the first that finds nothing to do.  Every other step reads
    a token, so the tokens left after the first step bound the steps to come. -/
def steps {α : Type} (step : α → Parser (Option α)) (a : α) : Parser α := do
  match ← step a with
  | some b => stepsUpTo step (← remaining) b
  | none => pure a

/-! ### Recovery -/

/-- Skips the token an error was found at, and then everything up to a likely
    start of a statement: behind a semicolon, or before a keyword that only a
    statement can start with. -/
def resync : List Token → List Token
  | [] => []
  | [_] => []
  | t :: next :: rest =>
    if t.isSymbol .semicolon || next.startsStatement then next :: rest
    else resync (next :: rest)

/-- Runs a statement parser.  If it fails there is no statement, and reading
    resumes at the next likely start of one. -/
def recovering {α : Type} (p : Parser α) : Parser (Option α) := fun s =>
  match p s with
  | .ok a s' => .ok (some a) s'
  | .error _ s' => .ok none { s' with rest := resync s'.rest }

end Parser

end Treewalk
