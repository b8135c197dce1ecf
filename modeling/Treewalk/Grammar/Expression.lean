import Treewalk.Grammar.Parser

/-! # Expressions

    One parser per precedence level, from the tightest to the loosest.  Each
    takes the parsers of what may stand inside it as arguments: `expression`
    for a whole expression and `block` for the statements of a function body up
    to the closing brace.  The knot is tied in `Treewalk.Grammar.Program`. -/

namespace Treewalk.Parser

/-! ### Parameters and bodies -/

/-- Reads `, name` if there is a comma, behind the names read so far, which are
    in reverse. -/
def nextParam (names : List Name) : Parser (Option (List Name)) := do
  match ← accept .comma with
  | none => pure none
  | some _ =>
    if maxArguments ≤ names.length then report .tooManyParameters (← peek)
    let name ← expectName .parameterName
    pure (some (name :: names))

/-- Reads the names of a parameter list up to its closing parenthesis. -/
def params : Parser (List Name) := do
  if ← nextIs .rightParen then pure []
  else
    let first ← expectName .parameterName
    let names ← steps nextParam [first]
    pure names.reverse

/-- Reads a parameter list and a body. -/
def paramsAndBody (role : Role) (block : Parser (List SourceStmt)) :
    Parser (List Name × List SourceStmt) := do
  let _ ← expect .leftParen (.parametersOpen role)
  let names ← params
  let _ ← expect .rightParen .parametersClose
  let _ ← expect .leftBrace (.bodyOpen role)
  let body ← block
  pure (names, body)

/-! ### Primary expressions -/

/-- The constant that a token is by itself. -/
def constant? : Lexeme → Option Literal
  | .keyword .falseWord => some (.bool false)
  | .keyword .trueWord => some (.bool true)
  | .keyword .nilWord => some .nil
  | lexeme => lexeme.literal?

/-- What a primary expression can start with. -/
inductive Opening where
  | constant (value : Literal)
  | super
  | this
  | name (text : String)
  | lambda
  | group

/-- The way a lexeme opens a primary expression. -/
def opening? (lexeme : Lexeme) : Option Opening :=
  match constant? lexeme with
  | some value => some (.constant value)
  | none =>
    match lexeme with
    | .keyword .superWord => some .super
    | .keyword .thisWord => some .this
    | .keyword .funWord => some .lambda
    | .symbol .leftParen => some .group
    | .identifier text => some (.name text)
    | _ => none

/-- Reads a constant, a name, `this`, a superclass method, a function or an
    expression in parentheses. -/
def primary (expression : Parser SourceExpr) (block : Parser (List SourceStmt)) :
    Parser SourceExpr := do
  match ← acceptWith opening? with
  | none => miss .expression
  | some (opening, token) =>
    match opening with
    | .constant value => pure (.literal value)
    | .super =>
      let _ ← expect .dot .superDot
      let method ← expectName .superMethod
      pure (.super token.line () method)
    | .this => pure (.this token.line ())
    | .name text => pure (.variable ⟨text, token.line⟩ ())
    | .lambda =>
      let (names, body) ← paramsAndBody .lambda block
      pure (.lambda token.line names body)
    | .group =>
      let inner ← expression
      let _ ← expect .rightParen .groupClose
      pure (.group inner)

/-! ### Calls and properties -/

/-- Reads `, expression` if there is a comma, behind the arguments read so far,
    which are in reverse. -/
def nextArgument (expression : Parser SourceExpr) (args : List SourceExpr) :
    Parser (Option (List SourceExpr)) := do
  match ← accept .comma with
  | none => pure none
  | some _ =>
    if maxArguments ≤ args.length then report .tooManyArguments (← peek)
    let arg ← expression
    pure (some (arg :: args))

/-- Reads an argument list up to its closing parenthesis. -/
def arguments (expression : Parser SourceExpr) : Parser (List SourceExpr) := do
  if ← nextIs .rightParen then pure []
  else
    let first ← expression
    let args ← steps (nextArgument expression) [first]
    pure args.reverse

/-- Reads a call or a property access behind `e`, if there is one. -/
def nextCall (expression : Parser SourceExpr) (e : SourceExpr) : Parser (Option SourceExpr) := do
  match ← accept .leftParen with
  | some _ =>
    let args ← arguments expression
    let close ← expect .rightParen .argumentsClose
    pure (some (.call e args close.line))
  | none =>
    match ← accept .dot with
    | some _ =>
      let name ← expectName .propertyName
      pure (some (.get e name))
    | none => pure none

/-- Reads a primary expression with its calls and property accesses. -/
def call (expression : Parser SourceExpr) (block : Parser (List SourceStmt)) :
    Parser SourceExpr := do
  let e ← primary expression block
  steps (nextCall expression) e

/-! ### Operators -/

/-- The unary operator of a lexeme. -/
def unaryOp? : Lexeme → Option UnaryOp
  | .symbol .bang => some .not
  | .symbol .minus => some .negate
  | _ => none

/-- Reads a unary operator, if there is one, behind those read so far, which are
    in reverse. -/
def nextUnary (ops : List (UnaryOp × Int)) : Parser (Option (List (UnaryOp × Int))) := do
  match ← acceptWith unaryOp? with
  | some (op, token) => pure (some ((op, token.line) :: ops))
  | none => pure none

/-- Applies unary operators to an operand; the first of them is the innermost. -/
def applyUnary (ops : List (UnaryOp × Int)) (operand : SourceExpr) : SourceExpr :=
  ops.foldl (fun e (op, line) => .unary op line e) operand

/-- Reads an operand with its unary operators. -/
def unary (operand : Parser SourceExpr) : Parser SourceExpr := do
  let ops ← steps nextUnary []
  let e ← operand
  pure (applyUnary ops e)

/-- An operator between two operands. -/
inductive Operator where
  | binary (op : BinaryOp)
  | logical (op : LogicalOp)

/-- The expression an operator makes of its operands. -/
def Operator.join (operator : Operator) (line : Int) (left right : SourceExpr) : SourceExpr :=
  match operator with
  | .binary op => .binary op line left right
  | .logical op => .logical op line left right

/-- Precedence levels of the operators between two operands, loosest first. -/
inductive Level where
  | or | and | equality | comparison | term | factor
deriving DecidableEq, Repr

/-- The operator of a lexeme on a level. -/
def Level.operator? : Level → Lexeme → Option Operator
  | .or, .keyword .orWord => some (.logical .or)
  | .and, .keyword .andWord => some (.logical .and)
  | .equality, .symbol .bangEqual => some (.binary .notEqual)
  | .equality, .symbol .equalEqual => some (.binary .equal)
  | .comparison, .symbol .greater => some (.binary .greater)
  | .comparison, .symbol .greaterEqual => some (.binary .greaterEqual)
  | .comparison, .symbol .less => some (.binary .less)
  | .comparison, .symbol .lessEqual => some (.binary .lessEqual)
  | .term, .symbol .minus => some (.binary .subtract)
  | .term, .symbol .plus => some (.binary .add)
  | .factor, .symbol .slash => some (.binary .divide)
  | .factor, .symbol .star => some (.binary .multiply)
  | _, _ => none

/-- Reads an operator of a level and its right operand behind `left`, if there is
    one. -/
def nextOperand (level : Level) (operand : Parser SourceExpr) (left : SourceExpr) :
    Parser (Option SourceExpr) := do
  match ← acceptWith level.operator? with
  | none => pure none
  | some (operator, token) =>
    let right ← operand
    pure (some (operator.join token.line left right))

/-- Reads operands joined by the operators of a level, which group to the left. -/
def chain (level : Level) (operand : Parser SourceExpr) : Parser SourceExpr := do
  let left ← operand
  steps (nextOperand level operand) left

/-- Reads an expression that is no assignment. -/
def operation (expression : Parser SourceExpr) (block : Parser (List SourceStmt)) :
    Parser SourceExpr :=
  chain .or <| chain .and <| chain .equality <| chain .comparison <| chain .term <|
    chain .factor <| unary <| call expression block

/-! ### Assignment -/

/-- The assignment of `value` to the expression on the left of an equals sign,
    if that can be assigned to. -/
def assignment? (target value : SourceExpr) : Option SourceExpr :=
  match target with
  | .variable name use => some (.assign name use value)
  | .get object name => some (.set object name value)
  | _ => none

/-- Reads an expression, in which an assignment groups to the right.  A bad
    target is reported, and the left side stands for the whole. -/
def assignment (expression : Parser SourceExpr) (block : Parser (List SourceStmt)) :
    Parser SourceExpr := do
  let target ← operation expression block
  match ← accept .equal with
  | none => pure target
  | some equals =>
    let value ← expression
    match assignment? target value with
    | some e => pure e
    | none =>
      report .invalidTarget (some equals)
      pure target

end Treewalk.Parser
