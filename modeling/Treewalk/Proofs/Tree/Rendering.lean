import Treewalk.Proofs.Renaming.Trees
import Treewalk.Tree.Render

/-! # Printed trees

    The notes of resolution do not show in the printed form of a tree: a resolved
    program is printed like the program that was parsed. -/

namespace Treewalk

variable {ρ : Type}

mutual

@[simp] theorem Expr.render_source : (e : Expr ρ) → e.source.render = e.render
  | .literal _ | .variable _ _ | .this _ _ | .super _ _ _ => rfl
  | .group e | .unary _ _ e | .assign _ _ e | .get e _ => by
    simp only [Expr.map, Expr.render, e.render_source]
  | .binary _ _ l r | .logical _ _ l r | .set l _ r => by
    simp only [Expr.map, Expr.render, l.render_source, r.render_source]
  | .call f args _ => by
    simp only [Expr.map, Expr.render, f.render_source, renderExprs_source args]
  | .lambda _ _ body => by simp only [Expr.map, Expr.render, renderStmts_source body]

@[simp] theorem renderExprs_source : (es : List (Expr ρ)) →
    renderExprs (sourceOfExprs es) = renderExprs es
  | [] => rfl
  | e :: es => by
    simp only [mapExprs, renderExprs, e.render_source, renderExprs_source es]

@[simp] theorem Stmt.render_source : (s : Stmt ρ) → s.source.render = s.render
  | .var _ none | .ret _ none => rfl
  | .expression e | .print e | .var _ (some e) | .ret _ (some e) => by
    simp only [Stmt.map, Stmt.render, e.render_source]
  | .block body => by simp only [Stmt.map, Stmt.render, renderStmts_source body]
  | .branch c s none | .loop c s => by
    simp only [Stmt.map, Stmt.render, c.render_source, s.render_source]
  | .branch c a (some b) => by
    simp only [Stmt.map, Stmt.render, c.render_source, a.render_source, b.render_source]
  | .function decl => by simp only [Stmt.map, Stmt.render, decl.render_source]
  | .classDecl _ none methods | .classDecl _ (some (_, _)) methods => by
    simp only [Stmt.map, Stmt.render, renderDecls_source methods]

@[simp] theorem renderStmts_source : (ss : List (Stmt ρ)) →
    renderStmts (sourceOfStmts ss) = renderStmts ss
  | [] => rfl
  | s :: ss => by
    simp only [mapStmts, renderStmts, s.render_source, renderStmts_source ss]

@[simp] theorem FunDecl.render_source : (m : FunDecl ρ) → m.source.render = m.render
  | .mk _ _ body => by simp only [FunDecl.map, FunDecl.render, renderStmts_source body]

@[simp] theorem renderDecls_source : (ms : List (FunDecl ρ)) →
    renderDecls (sourceOfFuns ms) = renderDecls ms
  | [] => rfl
  | m :: ms => by
    simp only [mapFuns, renderDecls, m.render_source, renderDecls_source ms]

end

end Treewalk
