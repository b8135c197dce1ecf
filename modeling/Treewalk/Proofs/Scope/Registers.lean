import Treewalk.Proofs.Scope.DepthTable
import Treewalk.Proofs.Tree.Notes
import Treewalk.Scope.Resolve

/-! # Resolution with registers

    Resolution once more, as a walk that leaves the tree as it is.  Depths go into a
    table under the nodes they were found for, and the innermost function and the
    innermost class are in registers: these are written on the way into a function or a
    class and written back by hand on the way out, where the other walk is told what
    encloses each place.  Errors are only noted and never cut the walk short, so the
    registers are balanced, and the walks do the same: the table gets at each node what
    the other walk puts there (`stmts_eq_tell`, `program_initial`). -/

namespace Treewalk

/-- The registers of a resolver. -/
structure Resolver where
  /-- What the walk has found, and its open scopes. -/
  found : ResolveState
  /-- The depths of the local uses. -/
  locals : DepthTable
  /-- The innermost function around the walk. -/
  function : FunctionKind
  /-- The innermost class around the walk. -/
  cls : ClassKind

/-- The registers before a program. -/
def Resolver.initial : Resolver := ⟨.initial, .empty, .none, .none⟩

/-- What encloses the walk, going by the registers. -/
def Resolver.place (r : Resolver) : Enclosing := ⟨r.function, r.cls⟩

/-- A step of the walk with registers. -/
abbrev Resolving (α : Type) := StateM Resolver α

namespace Resolving

variable {α : Type}

/-- A step that reads the registers and writes neither. -/
def lift (x : Enclosing → Resolve α) : Resolving α := fun r =>
  ((x r.place r.found).1, { r with found := (x r.place r.found).2 })

/-- Writes the depths of some nodes. -/
def record (uses : List (NodeId × Distance)) : Resolving Unit := fun r =>
  ((), { r with locals := r.locals.noteAll uses })

/-- Looks for the depth of a node and writes it, if there is one. -/
def use (node : NodeId) (x : Enclosing → Resolve Distance) : Resolving Unit := do
  let depth ← lift x
  record [(node, depth)]

/-- The kind of the innermost function. -/
def currentFunction : Resolving FunctionKind := fun r => (r.function, r)

/-- The kind of the innermost class. -/
def currentClass : Resolving ClassKind := fun r => (r.cls, r)

/-- Sets the innermost function. -/
def setFunction (kind : FunctionKind) : Resolving Unit := fun r =>
  ((), { r with function := kind })

/-- Sets the innermost class. -/
def setClass (kind : ClassKind) : Resolving Unit := fun r => ((), { r with cls := kind })

/-- Does something inside of a function, and sets the function back behind it. -/
def inFunction (kind : FunctionKind) (x : Resolving Unit) : Resolving Unit := do
  let enclosing ← currentFunction
  setFunction kind
  x
  setFunction enclosing

/-! ### The walk -/

mutual

/-- Resolves an expression. -/
def expr : Expr NodeId → Resolving Unit
  | .literal _ => pure ()
  | .group inner => expr inner
  | .unary _ _ operand => expr operand
  | .binary _ _ left right => do
    expr left
    expr right
  | .logical _ _ left right => do
    expr left
    expr right
  | .variable name node => use node fun _ => Resolve.useVariable name
  | .assign name node value => do
    expr value
    use node fun _ => Resolve.note .assign name.text name
  | .call callee arguments _ => do
    expr callee
    exprs arguments
  | .get object _ => expr object
  | .set object _ value => do
    expr value
    expr object
  | .this line node => use node fun place => Resolve.useThis place line
  | .super line node _ => use node fun place => Resolve.useSuper place line
  | .lambda _ params body => inFunction .function do
    lift fun _ => Resolve.openScope []
    lift fun _ => Resolve.declareParams params
    stmts body
    lift fun _ => Resolve.tally
    lift fun _ => Resolve.closeScope

/-- Resolves some expressions in order. -/
def exprs : List (Expr NodeId) → Resolving Unit
  | [] => pure ()
  | e :: es => do
    expr e
    exprs es

/-- Resolves a statement.  The register of a class is set before the class is
    declared, and once more when it has a superclass. -/
def stmt : Stmt NodeId → Resolving Unit
  | .expression e => expr e
  | .print e => expr e
  | .var name none => do
    lift fun _ => Resolve.declare name
    lift fun _ => Resolve.define name
  | .var name (some e) => do
    lift fun _ => Resolve.declare name
    expr e
    lift fun _ => Resolve.define name
  | .block body => do
    lift fun _ => Resolve.openScope []
    stmts body
    lift fun _ => Resolve.tally
    lift fun _ => Resolve.closeScope
  | .branch condition onTrue none => do
    expr condition
    stmt onTrue
  | .branch condition onTrue (some onFalse) => do
    expr condition
    stmt onTrue
    stmt onFalse
  | .loop condition body => do
    expr condition
    stmt body
  | .function decl => do
    lift fun _ => Resolve.declare decl.name
    lift fun _ => Resolve.define decl.name
    function .function decl
  | .ret line none => lift fun place => Resolve.checkReturn place line false
  | .ret line (some e) => do
    lift fun place => Resolve.checkReturn place line true
    expr e
  | .classDecl name none methods => do
    let enclosing ← currentClass
    setClass .plain
    lift fun _ => Resolve.declare name
    lift fun _ => Resolve.define name
    lift fun _ => Resolve.openScope [Keyword.thisWord.text]
    methodList methods
    lift fun _ => Resolve.closeScope
    setClass enclosing
  | .classDecl name (some (superName, node)) methods => do
    let enclosing ← currentClass
    setClass .plain
    lift fun _ => Resolve.declare name
    lift fun _ => Resolve.define name
    if superName.text = name.text then lift fun _ => Resolve.report .inheritsItself superName
    setClass .derived
    use node fun _ => Resolve.useVariable superName
    lift fun _ => Resolve.openScope [Keyword.superWord.text]
    lift fun _ => Resolve.openScope [Keyword.thisWord.text]
    methodList methods
    lift fun _ => Resolve.closeScope
    lift fun _ => Resolve.closeScope
    setClass enclosing

/-- Resolves some statements in order. -/
def stmts : List (Stmt NodeId) → Resolving Unit
  | [] => pure ()
  | s :: ss => do
    stmt s
    stmts ss

/-- Resolves a function or method of the given kind. -/
def function (kind : FunctionKind) : FunDecl NodeId → Resolving Unit
  | .mk _ params body => inFunction kind do
    lift fun _ => Resolve.openScope []
    lift fun _ => Resolve.declareParams params
    stmts body
    lift fun _ => Resolve.tally
    lift fun _ => Resolve.closeScope

/-- Resolves the methods of a class. -/
def methodList : List (FunDecl NodeId) → Resolving Unit
  | [] => pure ()
  | m :: ms => do
    function (.ofMethod m.name.text) m
    methodList ms

end

/-- Resolves a program. -/
def program (ss : List (Stmt NodeId)) : Resolving Unit := do
  stmts ss
  lift fun _ => Resolve.tally

end Resolving

/-! ### Resolution keeps the program -/

namespace Resolve

mutual

theorem source_expr (place : Enclosing) : (e : SourceExpr) → (s : ResolveState) →
    (expr place e s).1.source = e
  | .literal _, _ | .variable _ _, _ | .this _ _, _ | .super _ _ _, _ => rfl
  | .group e, s | .unary _ _ e, s | .assign _ _ e, s | .get e _, s => by
    simp only [expr, run_bind, run_pure, Expr.map, source_expr place e]
  | .binary _ _ l r, s | .logical _ _ l r, s | .set l _ r, s => by
    simp only [expr, run_bind, run_pure, Expr.map, source_expr place l, source_expr place r]
  | .call e args _, s => by
    simp only [expr, run_bind, run_pure, Expr.map, source_expr place e, source_exprs place args]
  | .lambda _ _ body, s => by
    simp only [expr, run_bind, run_pure, Expr.map, source_stmts _ body]

theorem source_exprs (place : Enclosing) : (es : List SourceExpr) → (s : ResolveState) →
    sourceOfExprs (exprs place es s).1 = es
  | [], _ => rfl
  | e :: es, s => by
    simp only [exprs, run_bind, run_pure, mapExprs, source_expr place e, source_exprs place es]

theorem source_stmt (place : Enclosing) : (t : SourceStmt) → (s : ResolveState) →
    (stmt place t s).1.source = t
  | .var _ none, _ | .ret _ none, _ => rfl
  | .expression e, s | .print e, s | .var _ (some e), s | .ret _ (some e), s => by
    simp only [stmt, run_bind, run_pure, Stmt.map, source_expr place e]
  | .block body, s => by
    simp only [stmt, run_bind, run_pure, Stmt.map, source_stmts place body]
  | .branch c a none, s | .loop c a, s => by
    simp only [stmt, run_bind, run_pure, Stmt.map, source_expr place c, source_stmt place a]
  | .branch c a (some b), s => by
    simp only [stmt, run_bind, run_pure, Stmt.map, source_expr place c, source_stmt place a,
      source_stmt place b]
  | .function decl, s => by
    simp only [stmt, run_bind, run_pure, Stmt.map, source_function place _ decl]
  | .classDecl _ none methods, s => by
    simp only [stmt, run_bind, run_pure, Stmt.map, source_methodList _ methods]
  | .classDecl name (some (superName, _)) methods, s => by
    by_cases h : superName.text = name.text <;>
      simp only [stmt, h, if_true, if_false, run_bind, run_pure, Stmt.map,
        source_methodList _ methods]

theorem source_stmts (place : Enclosing) : (ss : List SourceStmt) → (s : ResolveState) →
    sourceOfStmts (stmts place ss s).1 = ss
  | [], _ => rfl
  | t :: ss, s => by
    simp only [stmts, run_bind, run_pure, mapStmts, source_stmt place t, source_stmts place ss]

theorem source_function (place : Enclosing) (kind : FunctionKind) : (m : SourceFun) →
    (s : ResolveState) → (function place kind m s).1.source = m
  | .mk _ _ body, s => by
    simp only [function, run_bind, run_pure, FunDecl.map, source_stmts _ body]

theorem source_methodList (place : Enclosing) : (ms : List SourceFun) → (s : ResolveState) →
    sourceOfFuns (methodList place ms s).1 = ms
  | [], _ => rfl
  | m :: ms, s => by
    simp only [methodList, run_bind, run_pure, mapFuns, source_function place _ m,
      source_methodList place ms]

end

end Resolve

/-- Resolution puts notes into a program and leaves it as it is otherwise. -/
theorem source_resolve (program : List SourceStmt) :
    sourceOfStmts (resolve program).statements = program :=
  Resolve.source_stmts .topLevel program .initial

/-! ### The two walks -/

namespace Resolving

/-- Writes the depths that a step of the other walk finds for some nodes. -/
def tell (nodes : List NodeId) (x : Enclosing → Resolve (List Distance)) : Resolving Unit := do
  let uses ← lift x
  record (nodes.zip uses)

/-- The step finds a depth, or none, for each of the nodes. -/
def Fits (nodes : List NodeId) (x : Enclosing → Resolve (List Distance)) : Prop :=
  ∀ place s, (x place s).1.length = nodes.length

section Tell

variable {nodes nodes' : List NodeId} {x y : Enclosing → Resolve (List Distance)}

/-- One step behind another, both at the same place. -/
theorem tell_bind (h : Fits nodes x) : (tell nodes x >>= fun _ => tell nodes' y) =
    tell (nodes ++ nodes') fun place =>
      x place >>= fun uses => y place >>= fun more => pure (uses ++ more) := by
  funext r
  have hzip (more : List Distance) :
      (nodes ++ nodes').zip ((x r.place r.found).1 ++ more) =
        nodes.zip (x r.place r.found).1 ++ nodes'.zip more :=
    List.zip_append (h r.place r.found).symm
  refine Prod.ext rfl ?_
  show Resolver.mk _ ((r.locals.noteAll _).noteAll _) _ _ = Resolver.mk _ (r.locals.noteAll _) _ _
  rw [← DepthTable.noteAll_append, ← hzip]
  rfl

theorem use_eq_tell (node : NodeId) (z : Enclosing → Resolve Distance) :
    use node z = tell [node] fun place => z place >>= fun depth => pure [depth] :=
  rfl

end Tell

/-! ### What fits a tree -/

theorem fits_expr (e : Expr NodeId) :
    Fits e.notes fun place => Expr.notes <$> Resolve.expr place e.source := by
  intro place s
  have h := congrArg (fun e : SourceExpr => e.notes.length) (Resolve.source_expr place e.source s)
  rw [Expr.notes_map, Expr.notes_map, List.length_map, List.length_map] at h
  exact h

theorem fits_stmt (t : Stmt NodeId) :
    Fits t.notes fun place => Stmt.notes <$> Resolve.stmt place t.source := by
  intro place s
  have h := congrArg (fun t : SourceStmt => t.notes.length) (Resolve.source_stmt place t.source s)
  rw [Stmt.notes_map, Stmt.notes_map, List.length_map, List.length_map] at h
  exact h

theorem fits_function (kind : FunctionKind) (m : FunDecl NodeId) :
    Fits m.notes fun place => FunDecl.notes <$> Resolve.function place kind m.source := by
  intro place s
  have h := congrArg (fun m : SourceFun => m.notes.length)
    (Resolve.source_function place kind m.source s)
  rw [FunDecl.notes_map, FunDecl.notes_map, List.length_map, List.length_map] at h
  exact h

theorem fits_stmts (ss : List (Stmt NodeId)) :
    Fits (notesOfStmts ss) fun place => notesOfStmts <$> Resolve.stmts place (sourceOfStmts ss) := by
  intro place s
  have h := congrArg (fun ss : List SourceStmt => (notesOfStmts ss).length)
    (Resolve.source_stmts place (sourceOfStmts ss) s)
  rw [notesOfStmts_map, notesOfStmts_map, List.length_map, List.length_map] at h
  exact h

-- the walks are taken together over the tree, since a function holds statements and a
-- statement holds functions
mutual

theorem expr_eq_tell : (e : Expr NodeId) →
    expr e = tell e.notes fun place => Expr.notes <$> Resolve.expr place e.source
  | .literal _ | .variable _ _ | .this _ _ | .super _ _ _ => rfl
  | .group e | .unary _ _ e | .get e _ => by
    rw [expr, expr_eq_tell e]
    rfl
  | .binary _ _ l r | .logical _ _ l r | .set r _ l => by
    rw [expr, expr_eq_tell l, expr_eq_tell r, tell_bind (fits_expr l)]
    rfl
  | .assign _ _ e => by
    rw [expr, expr_eq_tell e, use_eq_tell, tell_bind (fits_expr e)]
    rfl
  | .call e args _ => by
    rw [expr, expr_eq_tell e, exprs_eq_tell args, tell_bind (fits_expr e)]
    rfl
  | .lambda _ _ body => by
    rw [expr, stmts_eq_tell body]
    rfl

theorem exprs_eq_tell : (es : List (Expr NodeId)) →
    exprs es = tell (notesOfExprs es) fun place =>
      notesOfExprs <$> Resolve.exprs place (sourceOfExprs es)
  | [] => rfl
  | e :: es => by
    rw [exprs, expr_eq_tell e, exprs_eq_tell es, tell_bind (fits_expr e)]
    rfl

theorem stmt_eq_tell : (s : Stmt NodeId) →
    stmt s = tell s.notes fun place => Stmt.notes <$> Resolve.stmt place s.source
  | .var _ none | .ret _ none => rfl
  | .expression e | .print e | .var _ (some e) | .ret _ (some e) => by
    rw [stmt, expr_eq_tell e]
    rfl
  | .block body => by
    rw [stmt, stmts_eq_tell body]
    rfl
  | .branch c a none | .loop c a => by
    rw [stmt, expr_eq_tell c, stmt_eq_tell a, tell_bind (fits_expr c)]
    rfl
  | .branch c a (some b) => by
    rw [stmt, expr_eq_tell c, stmt_eq_tell a, stmt_eq_tell b, tell_bind (fits_stmt a),
      tell_bind (fits_expr c)]
    rfl
  | .function decl => by
    rw [stmt, function_eq_tell _ decl]
    cases decl
    rfl
  | .classDecl _ none methods => by
    rw [stmt, methodList_eq_tell methods]
    rfl
  | .classDecl name (some (superName, node)) methods => by
    rw [stmt, methodList_eq_tell methods]
    by_cases h : superName.text = name.text <;>
      · simp only [Stmt.map, Resolve.stmt, h, if_true, if_false]
        rfl

theorem stmts_eq_tell : (ss : List (Stmt NodeId)) →
    stmts ss = tell (notesOfStmts ss) fun place =>
      notesOfStmts <$> Resolve.stmts place (sourceOfStmts ss)
  | [] => rfl
  | s :: ss => by
    rw [stmts, stmt_eq_tell s, stmts_eq_tell ss, tell_bind (fits_stmt s)]
    rfl

theorem function_eq_tell (kind : FunctionKind) : (m : FunDecl NodeId) →
    function kind m = tell m.notes fun place =>
      FunDecl.notes <$> Resolve.function place kind m.source
  | .mk _ _ body => by
    rw [function, stmts_eq_tell body]
    rfl

theorem methodList_eq_tell : (ms : List (FunDecl NodeId)) →
    methodList ms = tell (notesOfFuns ms) fun place =>
      notesOfFuns <$> Resolve.methodList place (sourceOfFuns ms)
  | [] => rfl
  | m :: ms => by
    rw [methodList, function_eq_tell _ m, methodList_eq_tell ms, tell_bind (fits_function _ m)]
    cases m
    rfl

end

/-! ### What a program leaves behind -/

section Programs

variable (ss : List (Stmt NodeId))

/-- The nodes of a program with what resolution puts there. -/
def uses : List (NodeId × Distance) :=
  (notesOfStmts ss).zip (notesOfStmts (resolve (sourceOfStmts ss)).statements)

theorem length_notes_resolve :
    (notesOfStmts (resolve (sourceOfStmts ss)).statements).length = (notesOfStmts ss).length :=
  fits_stmts ss .topLevel .initial

theorem map_fst_uses : (uses ss).map (·.1) = notesOfStmts ss :=
  List.map_fst_zip (Nat.le_of_eq (length_notes_resolve ss).symm)

theorem map_snd_uses : (uses ss).map (·.2) = notesOfStmts (resolve (sourceOfStmts ss)).statements :=
  List.map_snd_zip (Nat.le_of_eq (length_notes_resolve ss))

/-- A program ends with what resolution yields, outside of all functions and classes,
    and every node has been noted with what resolution puts there. -/
theorem program_initial : ∃ found,
    program ss .initial = ((), ⟨found, .noteAll .empty (uses ss), .none, .none⟩) ∧
      found.scopes = (Resolve.stmts .topLevel (sourceOfStmts ss) .initial).2.scopes ∧
      found.uses.toList = (resolve (sourceOfStmts ss)).uses ∧
      found.errors.toList = (resolve (sourceOfStmts ss)).errors ∧
      found.tallies.toList = (resolve (sourceOfStmts ss)).tallies := by
  unfold program
  rw [stmts_eq_tell ss]
  exact ⟨_, rfl, rfl, rfl, rfl, rfl⟩

/-- The depths that resolution of a program records. -/
def locals : DepthTable := (program ss .initial).2.locals

theorem locals_eq : locals ss = .noteAll .empty (uses ss) := by
  obtain ⟨found, hprogram, -⟩ := program_initial ss
  unfold locals
  rw [hprogram]

variable {ss}

/-- If no two nodes are the same, the table tells at each node what resolution puts there. -/
theorem mapStmts_find?_locals (hnodup : (notesOfStmts ss).Nodup) :
    mapStmts (locals ss).find? ss = (resolve (sourceOfStmts ss)).statements := by
  refine ext_notes ?_ ?_
  · rw [sourceOfStmts, mapStmts_mapStmts, source_resolve]
  · rw [notesOfStmts_map, locals_eq, ← map_snd_uses]
    rw [← map_fst_uses] at hnodup ⊢
    exact DepthTable.map_find?_noteAll hnodup

end Programs

end Resolving

end Treewalk
