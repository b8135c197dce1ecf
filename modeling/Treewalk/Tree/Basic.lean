import Treewalk.Token.Basic

/-! # Syntax trees

    Expressions and statements.  The type parameter is the note that every use
    of a name carries: nothing after parsing, its scope distance after
    resolution.  Trees keep the line numbers that run-time errors need. -/

namespace Treewalk

/-! ### Names and operators -/

/-- A name as it stands in a program. -/
structure Name where
  /-- The characters of the name. -/
  text : String
  /-- The line it is on. -/
  line : Int
deriving DecidableEq, Repr

/-- Operators with one operand. -/
inductive UnaryOp where
  | negate | not
deriving DecidableEq, Repr

/-- The symbol of a unary operator. -/
def UnaryOp.symbol : UnaryOp → Symbol
  | .negate => .minus
  | .not => .bang

/-- Operators that evaluate both operands. -/
inductive BinaryOp where
  | equal | notEqual
  | greater | greaterEqual | less | lessEqual
  | add | subtract | multiply | divide
deriving DecidableEq, Repr

/-- The symbol of a binary operator. -/
def BinaryOp.symbol : BinaryOp → Symbol
  | .equal => .equalEqual
  | .notEqual => .bangEqual
  | .greater => .greater
  | .greaterEqual => .greaterEqual
  | .less => .less
  | .lessEqual => .lessEqual
  | .add => .plus
  | .subtract => .minus
  | .multiply => .star
  | .divide => .slash

/-- Operators that may leave their right operand alone. -/
inductive LogicalOp where
  | or | and
deriving DecidableEq, Repr

/-- The keyword of a logical operator. -/
def LogicalOp.keyword : LogicalOp → Keyword
  | .or => .orWord
  | .and => .andWord

/-! ### Trees -/

mutual

/-- Expressions. -/
inductive Expr (ρ : Type) where
  /-- A constant. -/
  | literal (value : Literal)
  /-- An expression in parentheses. -/
  | group (inner : Expr ρ)
  /-- An operator before its operand. -/
  | unary (op : UnaryOp) (line : Int) (operand : Expr ρ)
  /-- An operator between two operands. -/
  | binary (op : BinaryOp) (line : Int) (left right : Expr ρ)
  /-- A short-circuit operator between two operands. -/
  | logical (op : LogicalOp) (line : Int) (left right : Expr ρ)
  /-- A use of a variable. -/
  | variable (name : Name) (use : ρ)
  /-- An assignment to a variable. -/
  | assign (name : Name) (use : ρ) (value : Expr ρ)
  /-- A call; `line` is that of the closing parenthesis. -/
  | call (callee : Expr ρ) (arguments : List (Expr ρ)) (line : Int)
  /-- A property of an object. -/
  | get (object : Expr ρ) (name : Name)
  /-- An assignment to a field of an object. -/
  | set (object : Expr ρ) (name : Name) (value : Expr ρ)
  /-- The receiver of the enclosing method. -/
  | this (line : Int) (use : ρ)
  /-- A method of the superclass, on the receiver of the enclosing method. -/
  | super (line : Int) (use : ρ) (method : Name)
  /-- A function without a name. -/
  | lambda (line : Int) (params : List Name) (body : List (Stmt ρ))

/-- Statements. -/
inductive Stmt (ρ : Type) where
  /-- An expression evaluated for its effect. -/
  | expression (e : Expr ρ)
  /-- Writes a value on a line of its own. -/
  | print (e : Expr ρ)
  /-- Declares a variable, with its first value if there is one. -/
  | var (name : Name) (initial : Option (Expr ρ))
  /-- Statements in a scope of their own. -/
  | block (body : List (Stmt ρ))
  /-- A choice, with or without a second branch. -/
  | branch (condition : Expr ρ) (onTrue : Stmt ρ) (onFalse : Option (Stmt ρ))
  /-- A loop that tests its condition first. -/
  | loop (condition : Expr ρ) (body : Stmt ρ)
  /-- Declares a function. -/
  | function (decl : FunDecl ρ)
  /-- Leaves the enclosing function, with a value if there is one. -/
  | ret (line : Int) (value : Option (Expr ρ))
  /-- Declares a class, with the use of its superclass's name if it has one. -/
  | classDecl (name : Name) (superclass : Option (Name × ρ)) (methods : List (FunDecl ρ))

/-- A function or method with a name. -/
inductive FunDecl (ρ : Type) where
  | mk (name : Name) (params : List Name) (body : List (Stmt ρ))

end

/-! ### Trees before and after resolution -/

/-- Expressions as the parser builds them: uses of names carry no note yet. -/
abbrev SourceExpr := Expr Unit

/-- Statements as the parser builds them. -/
abbrev SourceStmt := Stmt Unit

/-- Functions and methods as the parser builds them. -/
abbrev SourceFun := FunDecl Unit

/-- The note on a resolved use of a name: the number of scopes between the use
    and the declaring one, or none for a name to be looked up among the globals. -/
abbrev Distance := Option Nat

/-- Expressions whose uses of names are resolved. -/
abbrev ResolvedExpr := Expr Distance

/-- Statements whose uses of names are resolved. -/
abbrev ResolvedStmt := Stmt Distance

/-- Functions and methods whose uses of names are resolved. -/
abbrev ResolvedFun := FunDecl Distance

/-! ### Parts -/

namespace FunDecl

variable {ρ : Type}

/-- The declared name. -/
def name : FunDecl ρ → Name
  | .mk name _ _ => name

/-- The parameters in order. -/
def params : FunDecl ρ → List Name
  | .mk _ params _ => params

/-- The statements of the body. -/
def body : FunDecl ρ → List (Stmt ρ)
  | .mk _ _ body => body

end FunDecl

/-- The name of the method that sets up a new instance. -/
def initializerName : String := "init"

/-- The statement is an expression statement. -/
def Stmt.isExpression {ρ : Type} : Stmt ρ → Bool
  | .expression _ => true
  | _ => false

/-! ### Derived forms -/

/-- The meaning of a `for` statement in terms of the other statements: the
    initial statement stands in a block around the loop, and the step follows
    the body in a block of its own.  An absent condition counts as true. -/
def Stmt.forLoop {ρ : Type} (initial : Option (Stmt ρ)) (condition step : Option (Expr ρ))
    (body : Stmt ρ) : Stmt ρ :=
  let body := match step with
    | some e => .block [body, .expression e]
    | none => body
  let loop := .loop (condition.getD (.literal (.bool true))) body
  match initial with
  | some s => .block [s, loop]
  | none => loop

end Treewalk
