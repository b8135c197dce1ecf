import Treewalk.Grammar.Program
import Treewalk.Token.Scan
import Treewalk.Tree.Depth

/-! # The stack of the host

    Parsing, resolution and printing call themselves on the parts of what they are
    given, and it is the stack of the host that bounds how deeply.  What exhausts
    it is up to the host, so it is a parameter of all that checks a text. -/

namespace Treewalk

/-- What exhausts the stack of the host. -/
structure HostStack where
  /-- Parsing these tokens does, as an interactive entry or not. -/
  parsing : Bool → List Token → Bool
  /-- Resolving these statements does. -/
  resolving : List SourceStmt → Bool
  /-- Printing these statements does. -/
  printing : List ResolvedStmt → Bool

namespace HostStack

/-- Checking a text exhausts the stack: parsing it does, or else resolving it does,
    which only a text without errors comes to. -/
def exhaustedBy (stack : HostStack) (interactive : Bool) (source : String) (line : Int) : Bool :=
  let scanned := scan source line
  let parsed := parse interactive scanned.tokens
  stack.parsing interactive scanned.tokens ||
    (scanned.issues.isEmpty && parsed.errors.isEmpty && stack.resolving parsed.statements)

/-! ### An estimate -/

/-- How many calls of a parser lie between an expression and one in parentheses
    inside of it. -/
def callsOfParentheses : Nat := 15

/-- How many calls of a parser lie between a block and one inside of it. -/
def callsOfBraces : Nat := 3

/-- The most calls that are open at once while some tokens are parsed, where `most`
    is the number before them, and `unclosed` the number inside of each bracket that
    is not closed yet, innermost first. -/
def callsFor (most : Nat) (unclosed : List Nat) : List Token → Nat
  | [] => most
  | t :: ts =>
    let push (calls : Nat) := calls + unclosed.headD 0
    match t.lexeme with
    | .symbol .leftParen =>
      callsFor (max most (push callsOfParentheses)) (push callsOfParentheses :: unclosed) ts
    | .symbol .leftBrace =>
      callsFor (max most (push callsOfBraces)) (push callsOfBraces :: unclosed) ts
    | .symbol .rightParen | .symbol .rightBrace => callsFor most unclosed.tail ts
    | _ => callsFor most unclosed ts

/-- A stack that holds so many calls, as far as that can be told from the brackets
    of a text and the depth of a tree. -/
def ofCalls (limit : Nat) : HostStack where
  parsing _ tokens := decide (limit < callsFor 0 [] tokens)
  resolving statements := decide (limit < depthOfStmts statements)
  printing statements := decide (limit < depthOfStmts statements)

end HostStack

end Treewalk
