import Treewalk.Tree.Basic

/-! # The depth of trees

    How many phrases stand inside of one another.  A pass over a tree calls itself
    that often before it comes back from the innermost one. -/

namespace Treewalk

variable {ρ : Type}

mutual

/-- How deep an expression is. -/
def Expr.depth : Expr ρ → Nat
  | .literal _ | .variable _ _ | .this _ _ | .super _ _ _ => 1
  | .group e | .unary _ _ e | .assign _ _ e | .get e _ => e.depth + 1
  | .binary _ _ l r | .logical _ _ l r | .set l _ r => max l.depth r.depth + 1
  | .call f args _ => max f.depth (depthOfExprs args) + 1
  | .lambda _ _ body => depthOfStmts body + 1

/-- How deep a statement is. -/
def Stmt.depth : Stmt ρ → Nat
  | .var _ none | .ret _ none => 1
  | .expression e | .print e | .var _ (some e) | .ret _ (some e) => e.depth + 1
  | .block body => depthOfStmts body + 1
  | .branch c a none | .loop c a => max c.depth a.depth + 1
  | .branch c a (some b) => max c.depth (max a.depth b.depth) + 1
  | .function decl => decl.depth + 1
  | .classDecl _ _ methods => depthOfDecls methods + 1

/-- How deep the body of a function or method is. -/
def FunDecl.depth : FunDecl ρ → Nat
  | .mk _ _ body => depthOfStmts body + 1

/-- How deep the deepest of some expressions is. -/
def depthOfExprs : List (Expr ρ) → Nat
  | [] => 0
  | e :: es => max e.depth (depthOfExprs es)

/-- How deep the deepest of some statements is. -/
def depthOfStmts : List (Stmt ρ) → Nat
  | [] => 0
  | s :: ss => max s.depth (depthOfStmts ss)

/-- How deep the deepest of some functions is. -/
def depthOfDecls : List (FunDecl ρ) → Nat
  | [] => 0
  | d :: ds => max d.depth (depthOfDecls ds)

end

end Treewalk
