import Treewalk.Grammar.Expression

/-! # Statements and declarations

    As with expressions, every parser here takes the parsers of what may stand
    inside it as arguments. -/

namespace Treewalk.Parser

/-! ### Blocks -/

/-- The next token is the end of a block, or there is none. -/
def blockEnds : Parser Bool := do
  if ← atEnd then pure true else nextIs .rightBrace

/-- Reads a declaration unless `ends` holds, behind the statements read so far,
    which are in reverse. -/
def nextDeclaration (ends : Parser Bool) (declaration : Parser (Option SourceStmt))
    (statements : List SourceStmt) : Parser (Option (List SourceStmt)) := do
  if ← ends then pure none
  else
    match ← declaration with
    | some s => pure (some (s :: statements))
    | none => pure (some statements)

/-- Reads declarations until `ends` holds. -/
def declarations (ends : Parser Bool) (declaration : Parser (Option SourceStmt)) :
    Parser (List SourceStmt) := do
  let statements ← steps (nextDeclaration ends declaration) []
  pure statements.reverse

/-- Reads the statements of a block and its closing brace. -/
def block (declaration : Parser (Option SourceStmt)) : Parser (List SourceStmt) := do
  let statements ← declarations blockEnds declaration
  let _ ← expect .rightBrace .blockClose
  pure statements

/-! ### Statements -/

/-- Reads an expression and its semicolon.  In an interactive entry the
    semicolon may be left out at the end of the tokens. -/
def expressionStatement (interactive : Bool) (expression : Parser SourceExpr) :
    Parser SourceStmt := do
  let e ← expression
  if interactive && (← atEnd) then pure (.expression e)
  else
    let _ ← expect .semicolon .expressionEnd
    pure (.expression e)

/-- Reads a variable declaration behind its keyword. -/
def varDeclaration (expression : Parser SourceExpr) : Parser SourceStmt := do
  let name ← expectName .variableName
  let initial ← match ← accept .equal with
    | some _ => some <$> expression
    | none => pure none
  let _ ← expect .semicolon .variableEnd
  pure (.var name initial)

/-- Reads the first clause of a `for` statement, with its semicolon. -/
def forInitial (interactive : Bool) (expression : Parser SourceExpr) :
    Parser (Option SourceStmt) := do
  match ← accept .semicolon with
  | some _ => pure none
  | none =>
    match ← acceptKeyword .varWord with
    | some _ => some <$> varDeclaration expression
    | none => some <$> expressionStatement interactive expression

/-- Reads an expression unless the given symbol is next. -/
def unlessNext (symbol : Symbol) (expression : Parser SourceExpr) :
    Parser (Option SourceExpr) := do
  if ← nextIs symbol then pure none else some <$> expression

/-- Reads a `for` statement behind its keyword. -/
def forStatement (interactive : Bool) (expression : Parser SourceExpr)
    (statement : Parser SourceStmt) : Parser SourceStmt := do
  let _ ← expect .leftParen .forOpen
  let initial ← forInitial interactive expression
  let condition ← unlessNext .semicolon expression
  let _ ← expect .semicolon .forConditionEnd
  let step ← unlessNext .rightParen expression
  let _ ← expect .rightParen .forClose
  let body ← statement
  pure (.forLoop initial condition step body)

/-- Reads an `if` statement behind its keyword.  An `else` belongs to the
    nearest `if`. -/
def ifStatement (expression : Parser SourceExpr) (statement : Parser SourceStmt) :
    Parser SourceStmt := do
  let _ ← expect .leftParen .ifOpen
  let condition ← expression
  let _ ← expect .rightParen .ifClose
  let onTrue ← statement
  let onFalse ← match ← acceptKeyword .elseWord with
    | some _ => some <$> statement
    | none => pure none
  pure (.branch condition onTrue onFalse)

/-- Reads a `print` statement behind its keyword. -/
def printStatement (expression : Parser SourceExpr) : Parser SourceStmt := do
  let e ← expression
  let _ ← expect .semicolon .printEnd
  pure (.print e)

/-- Reads a `return` statement behind its keyword, which is on the given line. -/
def returnStatement (line : Int) (expression : Parser SourceExpr) : Parser SourceStmt := do
  let value ← unlessNext .semicolon expression
  let _ ← expect .semicolon .returnEnd
  pure (.ret line value)

/-- Reads a `while` statement behind its keyword. -/
def whileStatement (expression : Parser SourceExpr) (statement : Parser SourceStmt) :
    Parser SourceStmt := do
  let _ ← expect .leftParen .whileOpen
  let condition ← expression
  let _ ← expect .rightParen .whileClose
  let body ← statement
  pure (.loop condition body)

/-- The statements that a keyword or brace announces. -/
inductive StatementKind where
  | forLoop | ifElse | print | ret | whileLoop | block

/-- The kind of statement that starts with a lexeme. -/
def statementKind? : Lexeme → Option StatementKind
  | .keyword .forWord => some .forLoop
  | .keyword .ifWord => some .ifElse
  | .keyword .printWord => some .print
  | .keyword .returnWord => some .ret
  | .keyword .whileWord => some .whileLoop
  | .symbol .leftBrace => some .block
  | _ => none

/-- Reads a statement that is no declaration. -/
def statementWith (interactive : Bool) (expression : Parser SourceExpr)
    (statement : Parser SourceStmt) (declaration : Parser (Option SourceStmt)) :
    Parser SourceStmt := do
  match ← acceptWith statementKind? with
  | none => expressionStatement interactive expression
  | some (kind, token) =>
    match kind with
    | .forLoop => forStatement interactive expression statement
    | .ifElse => ifStatement expression statement
    | .print => printStatement expression
    | .ret => returnStatement token.line expression
    | .whileLoop => whileStatement expression statement
    | .block => .block <$> block declaration

/-! ### Declarations -/

/-- Reads a function or method from its name on. -/
def functionDeclaration (role : Role) (declaration : Parser (Option SourceStmt)) :
    Parser SourceFun := do
  let name ← expectName (.functionName role)
  let (names, body) ← paramsAndBody role (block declaration)
  pure (.mk name names body)

/-- Reads a method unless the class body ends, behind the methods read so far,
    which are in reverse. -/
def nextMethod (declaration : Parser (Option SourceStmt)) (methods : List SourceFun) :
    Parser (Option (List SourceFun)) := do
  if ← blockEnds then pure none
  else
    let method ← functionDeclaration .method declaration
    pure (some (method :: methods))

/-- Reads a class declaration behind its keyword. -/
def classDeclaration (declaration : Parser (Option SourceStmt)) : Parser SourceStmt := do
  let name ← expectName .className
  let superclass ← match ← accept .less with
    | some _ => (fun n => some (n, ())) <$> expectName .superclassName
    | none => pure none
  let _ ← expect .leftBrace .classBodyOpen
  let methods ← steps (nextMethod declaration) []
  let _ ← expect .rightBrace .classBodyClose
  pure (.classDecl name superclass methods.reverse)

/-- Reads the keyword `fun` if a name follows it: without a name it starts an
    expression. -/
def acceptNamedFun : Parser Bool := fun s =>
  match s.rest with
  | t :: rest@(next :: _) =>
    if t.isKeyword .funWord && (nameOf? next).isSome then .ok true { s with rest := rest }
    else .ok false s
  | _ => .ok false s

/-- Reads a declaration or a statement; it may fail. -/
def declarationWith (expression : Parser SourceExpr) (statement : Parser SourceStmt)
    (declaration : Parser (Option SourceStmt)) : Parser SourceStmt := do
  match ← acceptKeyword .classWord with
  | some _ => classDeclaration declaration
  | none =>
    if ← acceptNamedFun then .function <$> functionDeclaration .function declaration
    else
      match ← acceptKeyword .varWord with
      | some _ => varDeclaration expression
      | none => statement

end Treewalk.Parser
