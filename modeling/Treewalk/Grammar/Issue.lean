import Treewalk.Token.Basic

/-! # Syntax errors

    What the parser can complain about.  Most complaints are a missing token;
    each kind of missing token is a constructor of `Expectation`. -/

namespace Treewalk

/-- What a parameter list and a body belong to. -/
inductive Role where
  | function | method | lambda
deriving DecidableEq, Repr

/-- The word for a role. -/
def Role.text : Role → String
  | .function => "function"
  | .method => "method"
  | .lambda => "fun"

/-- A token or phrase that the grammar asks for. -/
inductive Expectation where
  | className | superclassName | classBodyOpen | classBodyClose
  | functionName (role : Role)
  | parametersOpen (role : Role)
  | parameterName | parametersClose
  | bodyOpen (role : Role)
  | variableName | variableEnd
  | forOpen | forConditionEnd | forClose
  | ifOpen | ifClose
  | printEnd | returnEnd
  | whileOpen | whileClose
  | blockClose | expressionEnd
  | propertyName | argumentsClose
  | superDot | superMethod
  | groupClose
  | expression
deriving DecidableEq, Repr

/-- The wording of an expectation. -/
def Expectation.message : Expectation → String
  | .className => "Expect class name."
  | .superclassName => "Expect superclass name."
  | .classBodyOpen => "Expect '\x7b' before class body."
  | .classBodyClose => "Expect '\x7d' after class body."
  | .functionName role => "Expect " ++ role.text ++ " name."
  | .parametersOpen role => "Expect '(' after " ++ role.text ++ " name."
  | .parameterName => "Expect parameter name."
  | .parametersClose => "Expect ')' after parameters."
  | .bodyOpen role => "Expect '\x7b' before " ++ role.text ++ " body."
  | .variableName => "Expect variable name."
  | .variableEnd => "Expect ';' after variable declaration."
  | .forOpen => "Expect '(' after 'for'."
  | .forConditionEnd => "Expect ';' after loop condition."
  | .forClose => "Expect ')' after for clauses."
  | .ifOpen => "Expect '(' after 'if'."
  | .ifClose => "Expect ')' after if condition."
  | .printEnd => "Expect ';' after value."
  | .returnEnd => "Expect ';' after return value."
  | .whileOpen => "Expect '(' after 'while'."
  | .whileClose => "Expect ')' after condition."
  | .blockClose => "Expect '\x7d' after block."
  | .expressionEnd => "Expect ';' after expression."
  | .propertyName => "Expect property name after '.'."
  | .argumentsClose => "Expect ')' after arguments."
  | .superDot => "Expect '.' after 'super'."
  | .superMethod => "Expect superclass method name."
  | .groupClose => "Expect ')' after expression."
  | .expression => "Expect expression."

/-- The greatest number of parameters and of arguments. -/
def maxArguments : Nat := 255

/-- What the parser can complain about. -/
inductive ParseIssue where
  /-- Something is missing; the statement is given up. -/
  | missing (what : Expectation)
  /-- More parameters than allowed. -/
  | tooManyParameters
  /-- More arguments than allowed. -/
  | tooManyArguments
  /-- The left side of an assignment is neither a variable nor a property. -/
  | invalidTarget
deriving DecidableEq, Repr

/-- The wording of an issue. -/
def ParseIssue.message : ParseIssue → String
  | .missing what => what.message
  | .tooManyParameters => "Can't have more than " ++ toString maxArguments ++ " parameters."
  | .tooManyArguments => "Can't have more than " ++ toString maxArguments ++ " arguments."
  | .invalidTarget => "Invalid assignment target."

/-- An issue and the token it was found at; none at the end of the text. -/
structure ParseError where
  /-- What is wrong. -/
  issue : ParseIssue
  /-- The token it was found at. -/
  site : Option Token
deriving DecidableEq, Repr

end Treewalk
