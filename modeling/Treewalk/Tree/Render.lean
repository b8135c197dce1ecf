import Treewalk.Tree.Basic

/-! # The printed form of a tree

    Trees are printed in prefix form, every compound node in parentheses:
    `1 + 2 * 3` is `(+ 1 (* 2 3))`. -/

namespace Treewalk

/-- A node: its head and its parts, separated by single spaces. -/
def parenthesize (head : String) (parts : List String) : String :=
  "(" ++ " ".intercalate (head :: parts) ++ ")"

/-- A list of parameters. -/
def renderParams (params : List Name) : String :=
  "(" ++ " ".intercalate (params.map (·.text)) ++ ")"

/-- A constant.  The text of a string stands between double quotes as it is. -/
def Literal.render : Literal → String
  | .nil => "nil"
  | .bool true => "true"
  | .bool false => "false"
  | .number x => Number.text x
  | .string s => "\"" ++ s ++ "\""

variable {ρ : Type}

mutual

/-- The printed form of an expression. -/
def Expr.render : Expr ρ → String
  | .literal value => value.render
  | .group inner => parenthesize "group" [inner.render]
  | .unary op _ operand => parenthesize op.symbol.text [operand.render]
  | .binary op _ left right => parenthesize op.symbol.text [left.render, right.render]
  | .logical op _ left right => parenthesize op.keyword.text [left.render, right.render]
  | .variable name _ => name.text
  | .assign name _ value => parenthesize "=" [name.text, value.render]
  | .call callee arguments _ => parenthesize "call" (callee.render :: renderExprs arguments)
  | .get object name => parenthesize "." [object.render, name.text]
  | .set object name value =>
    parenthesize "=" [parenthesize "." [object.render, name.text], value.render]
  | .this _ _ => "this"
  | .super _ _ method => parenthesize "super" [method.text]
  | .lambda _ params body => parenthesize "fun" (renderParams params :: renderStmts body)

/-- The printed form of a statement. -/
def Stmt.render : Stmt ρ → String
  | .expression e => parenthesize ";" [e.render]
  | .print e => parenthesize "print" [e.render]
  | .var name none => parenthesize "var" [name.text]
  | .var name (some e) => parenthesize "var" [name.text, e.render]
  | .block body => parenthesize "block" (renderStmts body)
  | .branch condition onTrue none => parenthesize "if" [condition.render, onTrue.render]
  | .branch condition onTrue (some onFalse) =>
    parenthesize "if" [condition.render, onTrue.render, onFalse.render]
  | .loop condition body => parenthesize "while" [condition.render, body.render]
  | .function decl => decl.render
  | .ret _ none => parenthesize "return" []
  | .ret _ (some e) => parenthesize "return" [e.render]
  | .classDecl name none methods => parenthesize "class" (name.text :: renderDecls methods)
  | .classDecl name (some (superName, _)) methods =>
    parenthesize "class" (name.text :: "<" :: superName.text :: renderDecls methods)

/-- The printed form of a function or method. -/
def FunDecl.render : FunDecl ρ → String
  | .mk name params body =>
    parenthesize "fun" (name.text :: renderParams params :: renderStmts body)

/-- The printed forms of some expressions. -/
def renderExprs : List (Expr ρ) → List String
  | [] => []
  | e :: es => e.render :: renderExprs es

/-- The printed forms of some statements. -/
def renderStmts : List (Stmt ρ) → List String
  | [] => []
  | s :: ss => s.render :: renderStmts ss

/-- The printed forms of some methods. -/
def renderDecls : List (FunDecl ρ) → List String
  | [] => []
  | d :: ds => d.render :: renderDecls ds

end

end Treewalk
