import Treewalk.Tree.Basic
import Mathlib.Data.List.Basic

/-! # Notes on uses of names

    The notes that the uses of names carry, apart from the tree that carries them: other
    notes can be put for them, and they can be listed in the order in which resolution
    comes to the uses.  Nothing of a tree gets lost that way: it is given by what it is
    without notes and by the list of its notes (`Stmt.ext_notes`). -/

namespace Treewalk

variable {ρ σ τ : Type}

/-! ### Other notes -/

section Map

variable (f : ρ → σ)

mutual

/-- The expression with other notes. -/
def Expr.map : Expr ρ → Expr σ
  | .literal value => .literal value
  | .group inner => .group inner.map
  | .unary op line operand => .unary op line operand.map
  | .binary op line left right => .binary op line left.map right.map
  | .logical op line left right => .logical op line left.map right.map
  | .variable name use => .variable name (f use)
  | .assign name use value => .assign name (f use) value.map
  | .call callee arguments line => .call callee.map (mapExprs arguments) line
  | .get object name => .get object.map name
  | .set object name value => .set object.map name value.map
  | .this line use => .this line (f use)
  | .super line use method => .super line (f use) method
  | .lambda line params body => .lambda line params (mapStmts body)

/-- Some expressions with other notes. -/
def mapExprs : List (Expr ρ) → List (Expr σ)
  | [] => []
  | e :: es => e.map :: mapExprs es

/-- The statement with other notes. -/
def Stmt.map : Stmt ρ → Stmt σ
  | .expression e => .expression e.map
  | .print e => .print e.map
  | .var name none => .var name none
  | .var name (some e) => .var name (some e.map)
  | .block body => .block (mapStmts body)
  | .branch condition onTrue none => .branch condition.map onTrue.map none
  | .branch condition onTrue (some onFalse) => .branch condition.map onTrue.map (some onFalse.map)
  | .loop condition body => .loop condition.map body.map
  | .function decl => .function decl.map
  | .ret line none => .ret line none
  | .ret line (some e) => .ret line (some e.map)
  | .classDecl name none methods => .classDecl name none (mapFuns methods)
  | .classDecl name (some (superName, use)) methods =>
    .classDecl name (some (superName, f use)) (mapFuns methods)

/-- Some statements with other notes. -/
def mapStmts : List (Stmt ρ) → List (Stmt σ)
  | [] => []
  | s :: ss => s.map :: mapStmts ss

/-- The function with other notes. -/
def FunDecl.map : FunDecl ρ → FunDecl σ
  | .mk name params body => .mk name params (mapStmts body)

/-- Some functions with other notes. -/
def mapFuns : List (FunDecl ρ) → List (FunDecl σ)
  | [] => []
  | m :: ms => m.map :: mapFuns ms

end

end Map

/-! ### Programs without their notes -/

/-- The expression before resolution. -/
abbrev Expr.source (e : Expr ρ) : SourceExpr := e.map fun _ => ()

/-- Some expressions before resolution. -/
abbrev sourceOfExprs (es : List (Expr ρ)) : List SourceExpr := mapExprs (fun _ => ()) es

/-- The statement before resolution. -/
abbrev Stmt.source (s : Stmt ρ) : SourceStmt := s.map fun _ => ()

/-- Some statements before resolution. -/
abbrev sourceOfStmts (ss : List (Stmt ρ)) : List SourceStmt := mapStmts (fun _ => ()) ss

/-- The function before resolution. -/
abbrev FunDecl.source (m : FunDecl ρ) : SourceFun := m.map fun _ => ()

/-- Some functions before resolution. -/
abbrev sourceOfFuns (ms : List (FunDecl ρ)) : List SourceFun := mapFuns (fun _ => ()) ms

/-! ### The notes of a tree -/

mutual

/-- The notes in an expression, in the order in which resolution comes to the uses. -/
def Expr.notes : Expr ρ → List ρ
  | .literal _ => []
  | .group e | .unary _ _ e | .get e _ => e.notes
  | .binary _ _ l r | .logical _ _ l r => l.notes ++ r.notes
  | .variable _ use | .this _ use | .super _ use _ => [use]
  | .assign _ use e => e.notes ++ [use]
  | .call f args _ => f.notes ++ notesOfExprs args
  -- the value of an assignment to a field is resolved before the object
  | .set o _ e => e.notes ++ o.notes
  | .lambda _ _ body => notesOfStmts body

/-- The notes in some expressions. -/
def notesOfExprs : List (Expr ρ) → List ρ
  | [] => []
  | e :: es => e.notes ++ notesOfExprs es

/-- The notes in a statement. -/
def Stmt.notes : Stmt ρ → List ρ
  | .expression e | .print e | .ret _ (some e) | .var _ (some e) => e.notes
  | .ret _ none | .var _ none => []
  | .block body => notesOfStmts body
  | .branch c a none => c.notes ++ a.notes
  | .branch c a (some b) => c.notes ++ (a.notes ++ b.notes)
  | .loop c body => c.notes ++ body.notes
  | .function decl => decl.notes
  | .classDecl _ none methods => notesOfFuns methods
  | .classDecl _ (some (_, use)) methods => use :: notesOfFuns methods

/-- The notes in some statements. -/
def notesOfStmts : List (Stmt ρ) → List ρ
  | [] => []
  | s :: ss => s.notes ++ notesOfStmts ss

/-- The notes in a function. -/
def FunDecl.notes : FunDecl ρ → List ρ
  | .mk _ _ body => notesOfStmts body

/-- The notes in some functions. -/
def notesOfFuns : List (FunDecl ρ) → List ρ
  | [] => []
  | m :: ms => m.notes ++ notesOfFuns ms

end

/-! ### Notes made on the way -/

section MapM

variable {M : Type → Type} [Monad M] (f : ρ → M σ)

mutual

/-- The expression with notes made one after the other, in the order of resolution. -/
def Expr.mapM : Expr ρ → M (Expr σ)
  | .literal value => pure (.literal value)
  | .group inner => do
    let inner ← inner.mapM
    pure (.group inner)
  | .unary op line operand => do
    let operand ← operand.mapM
    pure (.unary op line operand)
  | .binary op line left right => do
    let left ← left.mapM
    let right ← right.mapM
    pure (.binary op line left right)
  | .logical op line left right => do
    let left ← left.mapM
    let right ← right.mapM
    pure (.logical op line left right)
  | .variable name use => do
    let use ← f use
    pure (.variable name use)
  | .assign name use value => do
    let value ← value.mapM
    let use ← f use
    pure (.assign name use value)
  | .call callee arguments line => do
    let callee ← callee.mapM
    let arguments ← mapExprsM arguments
    pure (.call callee arguments line)
  | .get object name => do
    let object ← object.mapM
    pure (.get object name)
  | .set object name value => do
    let value ← value.mapM
    let object ← object.mapM
    pure (.set object name value)
  | .this line use => do
    let use ← f use
    pure (.this line use)
  | .super line use method => do
    let use ← f use
    pure (.super line use method)
  | .lambda line params body => do
    let body ← mapStmtsM body
    pure (.lambda line params body)

/-- Some expressions with notes made one after the other. -/
def mapExprsM : List (Expr ρ) → M (List (Expr σ))
  | [] => pure []
  | e :: es => do
    let e ← e.mapM
    let es ← mapExprsM es
    pure (e :: es)

/-- The statement with notes made one after the other. -/
def Stmt.mapM : Stmt ρ → M (Stmt σ)
  | .expression e => do
    let e ← e.mapM
    pure (.expression e)
  | .print e => do
    let e ← e.mapM
    pure (.print e)
  | .var name none => pure (.var name none)
  | .var name (some e) => do
    let e ← e.mapM
    pure (.var name (some e))
  | .block body => do
    let body ← mapStmtsM body
    pure (.block body)
  | .branch condition onTrue none => do
    let condition ← condition.mapM
    let onTrue ← onTrue.mapM
    pure (.branch condition onTrue none)
  | .branch condition onTrue (some onFalse) => do
    let condition ← condition.mapM
    let onTrue ← onTrue.mapM
    let onFalse ← onFalse.mapM
    pure (.branch condition onTrue (some onFalse))
  | .loop condition body => do
    let condition ← condition.mapM
    let body ← body.mapM
    pure (.loop condition body)
  | .function decl => do
    let decl ← decl.mapM
    pure (.function decl)
  | .ret line none => pure (.ret line none)
  | .ret line (some e) => do
    let e ← e.mapM
    pure (.ret line (some e))
  | .classDecl name none methods => do
    let methods ← mapFunsM methods
    pure (.classDecl name none methods)
  | .classDecl name (some (superName, use)) methods => do
    let use ← f use
    let methods ← mapFunsM methods
    pure (.classDecl name (some (superName, use)) methods)

/-- Some statements with notes made one after the other. -/
def mapStmtsM : List (Stmt ρ) → M (List (Stmt σ))
  | [] => pure []
  | s :: ss => do
    let s ← s.mapM
    let ss ← mapStmtsM ss
    pure (s :: ss)

/-- The function with notes made one after the other. -/
def FunDecl.mapM : FunDecl ρ → M (FunDecl σ)
  | .mk name params body => do
    let body ← mapStmtsM body
    pure (.mk name params body)

/-- Some functions with notes made one after the other. -/
def mapFunsM : List (FunDecl ρ) → M (List (FunDecl σ))
  | [] => pure []
  | m :: ms => do
    let m ← m.mapM
    let ms ← mapFunsM ms
    pure (m :: ms)

end

end MapM

/-! ### Notes put twice -/

section Laws

variable (g : σ → τ) (f : ρ → σ)

mutual

@[simp] theorem Expr.map_map : (e : Expr ρ) → (e.map f).map g = e.map fun i => g (f i)
  | .literal _ | .variable _ _ | .this _ _ | .super _ _ _ => rfl
  | .group e | .unary _ _ e | .assign _ _ e | .get e _ => by
    simp only [Expr.map, e.map_map]
  | .binary _ _ l r | .logical _ _ l r | .set l _ r => by
    simp only [Expr.map, l.map_map, r.map_map]
  | .call e args _ => by simp only [Expr.map, e.map_map, mapExprs_mapExprs args]
  | .lambda _ _ body => by simp only [Expr.map, mapStmts_mapStmts body]

@[simp] theorem mapExprs_mapExprs : (es : List (Expr ρ)) →
    mapExprs g (mapExprs f es) = mapExprs (fun i => g (f i)) es
  | [] => rfl
  | e :: es => by simp only [mapExprs, e.map_map, mapExprs_mapExprs es]

@[simp] theorem Stmt.map_map : (s : Stmt ρ) → (s.map f).map g = s.map fun i => g (f i)
  | .var _ none | .ret _ none => rfl
  | .expression e | .print e | .var _ (some e) | .ret _ (some e) => by
    simp only [Stmt.map, e.map_map]
  | .block body => by simp only [Stmt.map, mapStmts_mapStmts body]
  | .branch c a none | .loop c a => by simp only [Stmt.map, c.map_map, a.map_map]
  | .branch c a (some b) => by simp only [Stmt.map, c.map_map, a.map_map, b.map_map]
  | .function decl => by simp only [Stmt.map, decl.map_map]
  | .classDecl _ none methods | .classDecl _ (some (_, _)) methods => by
    simp only [Stmt.map, mapFuns_mapFuns methods]

@[simp] theorem mapStmts_mapStmts : (ss : List (Stmt ρ)) →
    mapStmts g (mapStmts f ss) = mapStmts (fun i => g (f i)) ss
  | [] => rfl
  | s :: ss => by simp only [mapStmts, s.map_map, mapStmts_mapStmts ss]

@[simp] theorem FunDecl.map_map : (m : FunDecl ρ) → (m.map f).map g = m.map fun i => g (f i)
  | .mk _ _ body => by simp only [FunDecl.map, mapStmts_mapStmts body]

@[simp] theorem mapFuns_mapFuns : (ms : List (FunDecl ρ)) →
    mapFuns g (mapFuns f ms) = mapFuns (fun i => g (f i)) ms
  | [] => rfl
  | m :: ms => by simp only [mapFuns, m.map_map, mapFuns_mapFuns ms]

end

mutual

@[simp] theorem Expr.notes_map : (e : Expr ρ) → (e.map f).notes = e.notes.map f
  | .literal _ | .variable _ _ | .this _ _ | .super _ _ _ => rfl
  | .group e | .unary _ _ e | .assign _ _ e | .get e _ => by
    simp only [Expr.map, Expr.notes, e.notes_map, List.map_append, List.map_cons, List.map_nil]
  | .binary _ _ l r | .logical _ _ l r | .set l _ r => by
    simp only [Expr.map, Expr.notes, l.notes_map, r.notes_map, List.map_append]
  | .call e args _ => by
    simp only [Expr.map, Expr.notes, e.notes_map, notesOfExprs_map args, List.map_append]
  | .lambda _ _ body => by simp only [Expr.map, Expr.notes, notesOfStmts_map body]

@[simp] theorem notesOfExprs_map : (es : List (Expr ρ)) →
    notesOfExprs (mapExprs f es) = (notesOfExprs es).map f
  | [] => rfl
  | e :: es => by
    simp only [mapExprs, notesOfExprs, e.notes_map, notesOfExprs_map es, List.map_append]

@[simp] theorem Stmt.notes_map : (s : Stmt ρ) → (s.map f).notes = s.notes.map f
  | .var _ none | .ret _ none => rfl
  | .expression e | .print e | .var _ (some e) | .ret _ (some e) => by
    simp only [Stmt.map, Stmt.notes, e.notes_map]
  | .block body => by simp only [Stmt.map, Stmt.notes, notesOfStmts_map body]
  | .branch c a none | .loop c a => by
    simp only [Stmt.map, Stmt.notes, c.notes_map, a.notes_map, List.map_append]
  | .branch c a (some b) => by
    simp only [Stmt.map, Stmt.notes, c.notes_map, a.notes_map, b.notes_map, List.map_append]
  | .function decl => by simp only [Stmt.map, Stmt.notes, decl.notes_map]
  | .classDecl _ none methods | .classDecl _ (some (_, _)) methods => by
    simp only [Stmt.map, Stmt.notes, notesOfFuns_map methods, List.map_cons]

@[simp] theorem notesOfStmts_map : (ss : List (Stmt ρ)) →
    notesOfStmts (mapStmts f ss) = (notesOfStmts ss).map f
  | [] => rfl
  | s :: ss => by
    simp only [mapStmts, notesOfStmts, s.notes_map, notesOfStmts_map ss, List.map_append]

@[simp] theorem FunDecl.notes_map : (m : FunDecl ρ) → (m.map f).notes = m.notes.map f
  | .mk _ _ body => by simp only [FunDecl.map, FunDecl.notes, notesOfStmts_map body]

@[simp] theorem notesOfFuns_map : (ms : List (FunDecl ρ)) →
    notesOfFuns (mapFuns f ms) = (notesOfFuns ms).map f
  | [] => rfl
  | m :: ms => by
    simp only [mapFuns, notesOfFuns, m.notes_map, notesOfFuns_map ms, List.map_append]

end

end Laws

/-! ### Notes put back -/

/-- The first of the notes that are left. -/
def nextNote : StateT (List ρ) Option ρ
  | [] => none
  | use :: uses => some (use, uses)

section Refill

/-- One step behind another that is known. -/
theorem refill_bind {α β : Type} {x : StateT (List ρ) Option α} {us vs : List ρ} {a : α}
    (h : x us = some (a, vs)) (f : α → StateT (List ρ) Option β) : (x >>= f) us = f a vs := by
  show (x us).bind _ = f a vs
  rw [h]
  rfl

mutual

/-- The notes of an expression, put into it one after the other, give the expression. -/
theorem Expr.refill : (e : Expr ρ) → (us : List ρ) →
    e.source.mapM (fun _ => nextNote) (e.notes ++ us) = some (e, us)
  | .literal _, _ | .variable _ _, _ | .this _ _, _ | .super _ _ _, _ => rfl
  | .group e, us | .unary _ _ e, us | .get e _, us => by
    exact refill_bind (e.refill us) _
  | .binary _ _ l r, us | .logical _ _ l r, us | .set r _ l, us => by
    rw [Expr.notes, List.append_assoc]
    exact (refill_bind (l.refill _) _).trans (refill_bind (r.refill us) _)
  | .assign _ use e, us => by
    rw [Expr.notes, List.append_assoc]
    exact refill_bind (e.refill _) _
  | .call e args _, us => by
    rw [Expr.notes, List.append_assoc]
    exact (refill_bind (e.refill _) _).trans (refill_bind (refillExprs args us) _)
  | .lambda _ _ body, us => refill_bind (refillStmts body us) _

theorem refillExprs : (es : List (Expr ρ)) → (us : List ρ) →
    mapExprsM (fun _ => nextNote) (sourceOfExprs es) (notesOfExprs es ++ us) = some (es, us)
  | [], _ => rfl
  | e :: es, us => by
    rw [notesOfExprs, List.append_assoc]
    exact (refill_bind (e.refill _) _).trans (refill_bind (refillExprs es us) _)

theorem Stmt.refill : (s : Stmt ρ) → (us : List ρ) →
    s.source.mapM (fun _ => nextNote) (s.notes ++ us) = some (s, us)
  | .var _ none, _ | .ret _ none, _ => rfl
  | .expression e, us | .print e, us | .var _ (some e), us | .ret _ (some e), us =>
    refill_bind (e.refill us) _
  | .block body, us => refill_bind (refillStmts body us) _
  | .branch c a none, us | .loop c a, us => by
    rw [Stmt.notes, List.append_assoc]
    exact (refill_bind (c.refill _) _).trans (refill_bind (a.refill us) _)
  | .branch c a (some b), us => by
    rw [Stmt.notes, List.append_assoc, List.append_assoc]
    refine (refill_bind (c.refill _) _).trans ?_
    exact (refill_bind (a.refill _) _).trans (refill_bind (b.refill us) _)
  | .function decl, us => refill_bind (decl.refill us) _
  | .classDecl _ none methods, us => refill_bind (refillFuns methods us) _
  | .classDecl _ (some (_, use)) methods, us => by
    have huse : nextNote (use :: (notesOfFuns methods ++ us)) =
      some (use, notesOfFuns methods ++ us) := rfl
    exact (refill_bind huse _).trans (refill_bind (refillFuns methods us) _)

theorem refillStmts : (ss : List (Stmt ρ)) → (us : List ρ) →
    mapStmtsM (fun _ => nextNote) (sourceOfStmts ss) (notesOfStmts ss ++ us) = some (ss, us)
  | [], _ => rfl
  | s :: ss, us => by
    rw [notesOfStmts, List.append_assoc]
    exact (refill_bind (s.refill _) _).trans (refill_bind (refillStmts ss us) _)

theorem FunDecl.refill : (m : FunDecl ρ) → (us : List ρ) →
    m.source.mapM (fun _ => nextNote) (m.notes ++ us) = some (m, us)
  | .mk _ _ body, us => refill_bind (refillStmts body us) _

theorem refillFuns : (ms : List (FunDecl ρ)) → (us : List ρ) →
    mapFunsM (fun _ => nextNote) (sourceOfFuns ms) (notesOfFuns ms ++ us) = some (ms, us)
  | [], _ => rfl
  | m :: ms, us => by
    rw [notesOfFuns, List.append_assoc]
    exact (refill_bind (m.refill _) _).trans (refill_bind (refillFuns ms us) _)

end

end Refill

/-- Programs are the same if they are without their notes and have the same notes. -/
theorem ext_notes {ss ss' : List (Stmt ρ)} (hsource : sourceOfStmts ss = sourceOfStmts ss')
    (hnotes : notesOfStmts ss = notesOfStmts ss') : ss = ss' := by
  have h := refillStmts ss []
  rw [hsource, hnotes, refillStmts ss' []] at h
  exact (Prod.mk.inj (Option.some.inj h)).1.symm

/-- Other notes for the same ones give the same program. -/
theorem mapStmts_congr {f g : ρ → σ} {ss : List (Stmt ρ)} (h : ∀ i ∈ notesOfStmts ss, f i = g i) :
    mapStmts f ss = mapStmts g ss := by
  refine ext_notes ?_ ?_
  · simp only [mapStmts_mapStmts]
  · rw [notesOfStmts_map, notesOfStmts_map]
    exact List.map_congr_left h

theorem length_mapStmts (f : ρ → σ) (ss : List (Stmt ρ)) : (mapStmts f ss).length = ss.length := by
  induction ss with
  | nil => rfl
  | cons s ss ih => exact congrArg (· + 1) ih

/-- A program without notes is what it was. -/
theorem sourceOfStmts_eq (ss : List SourceStmt) : sourceOfStmts ss = ss := by
  refine ext_notes (mapStmts_mapStmts _ _ ss) ?_
  rw [notesOfStmts_map]
  exact List.map_id' (notesOfStmts ss)

/-! ### Numbered notes -/

/-- A number that was not given out before. -/
def freshNumber : StateM Nat Nat := fun n => (n, n + 1)

/-- Some statements with every note a number of its own, counting from a number on, and
    the number that comes next. -/
def numberStmts (ss : List (Stmt ρ)) (n : Nat) : List (Stmt Nat) × Nat :=
  mapStmtsM (fun _ => freshNumber) ss n

section Numbers

theorem run_bind {α β : Type} (x : StateM τ α) (f : α → StateM τ β) (s : τ) :
    (x >>= f) s = f (x s).1 (x s).2 := rfl

theorem run_pure {α : Type} (a : α) (s : τ) : (pure a : StateM τ α) s = (a, s) := rfl

variable (f : ρ → StateM τ σ)

mutual

theorem Expr.source_mapM : (e : Expr ρ) → (s : τ) → (e.mapM f s).1.source = e.source
  | .literal _, _ | .variable _ _, _ | .this _ _, _ | .super _ _ _, _ => rfl
  | .group e, s | .unary _ _ e, s | .assign _ _ e, s | .get e _, s => by
    simp only [Expr.mapM, run_bind, run_pure, Expr.map, e.source_mapM]
  | .binary _ _ l r, s | .logical _ _ l r, s | .set l _ r, s => by
    simp only [Expr.mapM, run_bind, run_pure, Expr.map, l.source_mapM, r.source_mapM]
  | .call e args _, s => by
    simp only [Expr.mapM, run_bind, run_pure, Expr.map, e.source_mapM, source_mapExprsM args]
  | .lambda _ _ body, s => by
    simp only [Expr.mapM, run_bind, run_pure, Expr.map, source_mapStmtsM body]

theorem source_mapExprsM : (es : List (Expr ρ)) → (s : τ) →
    sourceOfExprs (mapExprsM f es s).1 = sourceOfExprs es
  | [], _ => rfl
  | e :: es, s => by
    simp only [mapExprsM, run_bind, run_pure, mapExprs, e.source_mapM, source_mapExprsM es]

theorem Stmt.source_mapM : (t : Stmt ρ) → (s : τ) → (t.mapM f s).1.source = t.source
  | .var _ none, _ | .ret _ none, _ => rfl
  | .expression e, s | .print e, s | .var _ (some e), s | .ret _ (some e), s => by
    simp only [Stmt.mapM, run_bind, run_pure, Stmt.map, e.source_mapM]
  | .block body, s => by simp only [Stmt.mapM, run_bind, run_pure, Stmt.map, source_mapStmtsM body]
  | .branch c a none, s | .loop c a, s => by
    simp only [Stmt.mapM, run_bind, run_pure, Stmt.map, c.source_mapM, a.source_mapM]
  | .branch c a (some b), s => by
    simp only [Stmt.mapM, run_bind, run_pure, Stmt.map, c.source_mapM, a.source_mapM, b.source_mapM]
  | .function decl, s => by simp only [Stmt.mapM, run_bind, run_pure, Stmt.map, decl.source_mapM]
  | .classDecl _ none methods, s | .classDecl _ (some (_, _)) methods, s => by
    simp only [Stmt.mapM, run_bind, run_pure, Stmt.map, source_mapFunsM methods]

theorem source_mapStmtsM : (ss : List (Stmt ρ)) → (s : τ) →
    sourceOfStmts (mapStmtsM f ss s).1 = sourceOfStmts ss
  | [], _ => rfl
  | t :: ss, s => by
    simp only [mapStmtsM, run_bind, run_pure, mapStmts, t.source_mapM, source_mapStmtsM ss]

theorem FunDecl.source_mapM : (m : FunDecl ρ) → (s : τ) → (m.mapM f s).1.source = m.source
  | .mk _ _ body, s => by
    simp only [FunDecl.mapM, run_bind, run_pure, FunDecl.map, source_mapStmtsM body]

theorem source_mapFunsM : (ms : List (FunDecl ρ)) → (s : τ) →
    sourceOfFuns (mapFunsM f ms s).1 = sourceOfFuns ms
  | [], _ => rfl
  | m :: ms, s => by
    simp only [mapFunsM, run_bind, run_pure, mapFuns, m.source_mapM, source_mapFunsM ms]

end

/-- The notes are the numbers from one on, as many as there are, and the next number is
    the one after the last. -/
def CountsFrom (n : Nat) (uses : List ρ) (notes : List Nat) (next : Nat) : Prop :=
  notes = List.range' n uses.length ∧ next = n + uses.length

theorem CountsFrom.append {n m k : Nat} {us vs : List ρ} {is js : List Nat}
    (h : CountsFrom n us is m) (h' : CountsFrom m vs js k) :
    CountsFrom n (us ++ vs) (is ++ js) k := by
  obtain ⟨rfl, rfl⟩ := h
  obtain ⟨rfl, rfl⟩ := h'
  unfold CountsFrom
  rw [List.length_append, List.range'_append_1, Nat.add_assoc]
  exact ⟨rfl, rfl⟩

theorem countsFrom_one (n : Nat) (use : ρ) : CountsFrom n [use] [n] (n + 1) := ⟨rfl, rfl⟩

theorem countsFrom_nil (n : Nat) : CountsFrom n ([] : List ρ) [] n := ⟨rfl, rfl⟩

mutual

theorem Expr.counts : (e : Expr ρ) → (n : Nat) →
    CountsFrom n e.notes (e.mapM (fun _ => freshNumber) n).1.notes (e.mapM (fun _ => freshNumber) n).2
  | .literal _, n => countsFrom_nil n
  | .variable _ use, n | .this _ use, n | .super _ use _, n => countsFrom_one n use
  | .group e, n | .unary _ _ e, n | .get e _, n => e.counts n
  | .binary _ _ l r, n | .logical _ _ l r, n | .set r _ l, n => (l.counts n).append (r.counts _)
  | .assign _ use e, n => (e.counts n).append (countsFrom_one _ use)
  | .call e args _, n => (e.counts n).append (countsExprs args _)
  | .lambda _ _ body, n => countsStmts body n

theorem countsExprs : (es : List (Expr ρ)) → (n : Nat) →
    CountsFrom n (notesOfExprs es) (notesOfExprs (mapExprsM (fun _ => freshNumber) es n).1)
      (mapExprsM (fun _ => freshNumber) es n).2
  | [], n => countsFrom_nil n
  | e :: es, n => (e.counts n).append (countsExprs es _)

theorem Stmt.counts : (s : Stmt ρ) → (n : Nat) →
    CountsFrom n s.notes (s.mapM (fun _ => freshNumber) n).1.notes (s.mapM (fun _ => freshNumber) n).2
  | .var _ none, n | .ret _ none, n => countsFrom_nil n
  | .expression e, n | .print e, n | .var _ (some e), n | .ret _ (some e), n => e.counts n
  | .block body, n => countsStmts body n
  | .branch c a none, n | .loop c a, n => (c.counts n).append (a.counts _)
  | .branch c a (some b), n => (c.counts n).append ((a.counts _).append (b.counts _))
  | .function decl, n => decl.counts n
  | .classDecl _ none methods, n => countsFuns methods n
  | .classDecl _ (some (_, use)) methods, n => (countsFrom_one n use).append (countsFuns methods _)

theorem countsStmts : (ss : List (Stmt ρ)) → (n : Nat) →
    CountsFrom n (notesOfStmts ss) (notesOfStmts (numberStmts ss n).1) (numberStmts ss n).2
  | [], n => countsFrom_nil n
  | s :: ss, n => (s.counts n).append (countsStmts ss _)

theorem FunDecl.counts : (m : FunDecl ρ) → (n : Nat) →
    CountsFrom n m.notes (m.mapM (fun _ => freshNumber) n).1.notes (m.mapM (fun _ => freshNumber) n).2
  | .mk _ _ body, n => countsStmts body n

theorem countsFuns : (ms : List (FunDecl ρ)) → (n : Nat) →
    CountsFrom n (notesOfFuns ms) (notesOfFuns (mapFunsM (fun _ => freshNumber) ms n).1)
      (mapFunsM (fun _ => freshNumber) ms n).2
  | [], n => countsFrom_nil n
  | m :: ms, n => (m.counts n).append (countsFuns ms _)

end

end Numbers

end Treewalk
