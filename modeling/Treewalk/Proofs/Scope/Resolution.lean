import Treewalk.Proofs.Scope.Registers
import Treewalk.Proofs.Scope.Walk

/-! # Resolution follows the lexical scopes

    The walk over a program annotates every use of a name with its lexical
    distance, whatever errors it finds on the way, and it leaves no scope, no
    function and no class open.  A walk that finds no error accepts the program. -/

namespace Treewalk

/-! ### Names -/

theorem Unreserved.ne_keyword {x : String} (h : Unreserved x) (k : Keyword) : x ≠ k.text := by
  rintro rfl
  revert h
  unfold Unreserved
  cases k <;> decide

theorem unreserved_paramNames {params : List Name} (h : ∀ p ∈ params, Unreserved p.text) :
    ∀ x ∈ paramNames params, Unreserved x := by
  intro x hx
  obtain ⟨p, hp, rfl⟩ := List.mem_map.mp hx
  exact h p hp

/-- The names that some statements declare in the scope they stand in. -/
def declaredBy : List SourceStmt → List String
  | [] => []
  | s :: ss => declaredBy ss ++ s.declares

theorem declaring_append (a b : List String) (S : ScopeNames) :
    declaring (a ++ b) S = declaring a (declaring b S) := by
  cases S with
  | nil => rfl
  | cons inner outer => simp [declaring]

theorem declaring_nil (S : ScopeNames) : declaring [] S = S := by
  cases S <;> rfl

/-! ### The whole walk -/

/-- The walk over a phrase annotates it, and accepts it if it is well formed and there is
    no error in it. -/
abbrev Resolves {α β : Type} (x : Resolve β) (S S' : ScopeNames) (source : α)
    (annotated : α → β → Prop) (uses : β → List LocalUse) (wellFormed : Prop)
    (accepted : α → β → Prop) : Prop :=
  Walks x S S' (fun b us => annotated source b ∧ us = uses b)
    (fun b => wellFormed → accepted source b)

/-- What is noted at `this` is its annotation. -/
theorem annotated_this {K : ClassKind} {S : ScopeNames} {line : Int} {use : Distance}
    (h : if K = .none then use = none else IsDistance S Keyword.thisWord.text use) :
    AnnotatedExpr K S (.this line ()) (.this line use) := by
  split at h
  · subst K use
    exact .strayThis
  · next hK => exact .this hK h

mutual

theorem walk_expr {P : Enclosing} {S : ScopeNames} : (e : SourceExpr) →
    Resolves (Resolve.expr P e) S S e (AnnotatedExpr P.cls S) localUses (WellFormedExpr e)
      (AcceptedExpr P S)
  | .literal value => by
    simp only [Resolve.expr]
    exact Walks.pure ⟨.literal, rfl⟩ fun _ => .literal
  | .group e => by
    simp only [Resolve.expr]
    refine ((walk_expr e).map fun e' => Expr.group e').mono ?_ ?_
    · rintro _ _ ⟨e', rfl, ha, rfl⟩
      exact ⟨.group ha, rfl⟩
    · rintro _ ⟨e', rfl, ha⟩ hwf
      cases hwf with
      | group he => exact .group (ha he)
  | .unary op line e => by
    simp only [Resolve.expr]
    refine ((walk_expr e).map fun e' => Expr.unary op line e').mono ?_ ?_
    · rintro _ _ ⟨e', rfl, ha, rfl⟩
      exact ⟨.unary ha, rfl⟩
    · rintro _ ⟨e', rfl, ha⟩ hwf
      cases hwf with
      | unary he => exact .unary (ha he)
  | .binary op line l r => by
    simp only [Resolve.expr]
    refine ((walk_expr l).bind fun l' =>
      (walk_expr r).map fun r' => Expr.binary op line l' r').mono ?_ ?_
    · rintro _ _ ⟨l', u, v, rfl, ⟨hal, rfl⟩, r', rfl, har, rfl⟩
      exact ⟨.binary hal har, rfl⟩
    · rintro _ ⟨l', hal, r', rfl, har⟩ hwf
      cases hwf with
      | binary hl hr => exact .binary (hal hl) (har hr)
  | .logical op line l r => by
    simp only [Resolve.expr]
    refine ((walk_expr l).bind fun l' =>
      (walk_expr r).map fun r' => Expr.logical op line l' r').mono ?_ ?_
    · rintro _ _ ⟨l', u, v, rfl, ⟨hal, rfl⟩, r', rfl, har, rfl⟩
      exact ⟨.logical hal har, rfl⟩
    · rintro _ ⟨l', hal, r', rfl, har⟩ hwf
      cases hwf with
      | logical hl hr => exact .logical (hal hl) (har hr)
  | .variable name () => by
    -- an error for its own initializer does not keep the use from being noted
    simp only [Resolve.expr]
    refine ((walks_useVariable name).map fun use => Expr.variable name use).mono ?_ ?_
    · rintro _ _ ⟨use, rfl, hd, rfl⟩
      exact ⟨.variable hd, rfl⟩
    · rintro _ ⟨use, rfl, hd⟩ _
      exact .variable hd
  | .assign name () e => by
    simp only [Resolve.expr]
    refine ((walk_expr e).bind fun e' =>
      (walks_note .assign name.text name).map fun use => Expr.assign name use e').mono ?_ ?_
    · rintro _ _ ⟨e', u, v, rfl, ⟨ha, rfl⟩, use, rfl, hd, rfl⟩
      exact ⟨.assign ha hd, rfl⟩
    · rintro _ ⟨e', ha, use, rfl, hd⟩ hwf
      cases hwf with
      | assign hname he => exact .assign hname (ha he) hd
  | .call f args line => by
    simp only [Resolve.expr]
    refine ((walk_expr f).bind fun f' =>
      (walk_exprs args).map fun args' => Expr.call f' args' line).mono ?_ ?_
    · rintro _ _ ⟨f', u, v, rfl, ⟨ha, rfl⟩, args', rfl, has, rfl⟩
      exact ⟨.call ha has, rfl⟩
    · rintro _ ⟨f', ha, args', rfl, has⟩ hwf
      cases hwf with
      | call hf hargs => exact .call (ha hf) (has hargs)
  | .get o name => by
    simp only [Resolve.expr]
    refine ((walk_expr o).map fun o' => Expr.get o' name).mono ?_ ?_
    · rintro _ _ ⟨o', rfl, ha, rfl⟩
      exact ⟨.get ha, rfl⟩
    · rintro _ ⟨o', rfl, ha⟩ hwf
      cases hwf with
      | get he => exact .get (ha he)
  | .set o name e => by
    -- the value is resolved before the object
    simp only [Resolve.expr]
    refine ((walk_expr e).bind fun e' =>
      (walk_expr o).map fun o' => Expr.set o' name e').mono ?_ ?_
    · rintro _ _ ⟨e', u, v, rfl, ⟨hae, rfl⟩, o', rfl, hao, rfl⟩
      exact ⟨.set hao hae, rfl⟩
    · rintro _ ⟨e', hae, o', rfl, hao⟩ hwf
      cases hwf with
      | set ho he => exact .set (hao ho) (hae he)
  | .this line () => by
    simp only [Resolve.expr]
    refine ((walks_useThis P line).map fun use => Expr.this line use).mono ?_ ?_
    · rintro _ _ ⟨use, rfl, hd, rfl⟩
      exact ⟨annotated_this hd, rfl⟩
    · rintro _ ⟨use, rfl, hcls, hd⟩ _
      exact .this hcls hd
  | .super line () method => by
    simp only [Resolve.expr]
    refine ((walks_useSuper P line).map fun use => Expr.super line use method).mono ?_ ?_
    · rintro _ _ ⟨use, rfl, hd, rfl⟩
      exact ⟨.super hd, rfl⟩
    · rintro _ ⟨use, rfl, hcls, hd⟩ _
      exact .super hcls hd
  | .lambda line params body => by
    simp only [Resolve.expr]
    refine (walks_function params (fun body' => Expr.lambda line params body')
      (walk_stmts body)).mono ?_ ?_
    · rintro _ _ ⟨body', rfl, ha, rfl⟩
      exact ⟨.lambda ha, rfl⟩
    · rintro _ ⟨hnodup, body', rfl, ha⟩ hwf
      cases hwf with
      | lambda hparams hbody => exact .lambda ⟨hnodup, hparams⟩ (ha hbody)

theorem walk_exprs {P : Enclosing} {S : ScopeNames} : (es : List SourceExpr) →
    Resolves (Resolve.exprs P es) S S es (AnnotatedExprs P.cls S) localUsesOfExprs
      (∀ e ∈ es, WellFormedExpr e) (AcceptedExprs P S)
  | [] => by
    simp only [Resolve.exprs]
    exact Walks.pure ⟨.nil, rfl⟩ fun _ => .nil
  | e :: es => by
    simp only [Resolve.exprs]
    refine ((walk_expr e).bind fun e' =>
      (walk_exprs es).map fun es' => e' :: es').mono ?_ ?_
    · rintro _ _ ⟨e', u, v, rfl, ⟨ha, rfl⟩, es', rfl, has, rfl⟩
      exact ⟨.cons ha has, rfl⟩
    · rintro _ ⟨e', ha, es', rfl, has⟩ hwf
      obtain ⟨hfirst, hrest⟩ := List.forall_mem_cons.mp hwf
      exact .cons (ha hfirst) (has hrest)

theorem walk_stmt {P : Enclosing} {S : ScopeNames} : (s : SourceStmt) →
    Resolves (Resolve.stmt P s) S (declaring s.declares S) s (AnnotatedStmt P.cls S)
      localUsesOfStmt (WellFormedStmt s) (AcceptedStmt P S)
  | .expression e => by
    simp only [Resolve.stmt, Stmt.declares, declaring_nil]
    refine ((walk_expr e).map fun e' => Stmt.expression e').mono ?_ ?_
    · rintro _ _ ⟨e', rfl, ha, rfl⟩
      exact ⟨.expression ha, rfl⟩
    · rintro _ ⟨e', rfl, ha⟩ hwf
      cases hwf with
      | expression he => exact .expression (ha he)
  | .print e => by
    simp only [Resolve.stmt, Stmt.declares, declaring_nil]
    refine ((walk_expr e).map fun e' => Stmt.print e').mono ?_ ?_
    · rintro _ _ ⟨e', rfl, ha, rfl⟩
      exact ⟨.print ha, rfl⟩
    · rintro _ ⟨e', rfl, ha⟩ hwf
      cases hwf with
      | print he => exact .print (ha he)
  | .var name none => by
    simp only [Resolve.stmt, Stmt.declares]
    refine ((walks_declare name).seq ((walks_define name).map fun _ =>
      Stmt.var name none)).mono ?_ ?_
    · rintro _ _ ⟨_, rfl, rfl⟩
      exact ⟨.var, rfl⟩
    · rintro _ ⟨hfresh, _, rfl, _⟩ hwf
      cases hwf with
      | var hname _ => exact .var ⟨hname, hfresh⟩
  | .var name (some e) => by
    -- the initializer is inside the declaration
    simp only [Resolve.stmt, Stmt.declares]
    refine ((walks_declare name).seq ((walk_expr e).bind fun e' =>
      (walks_define name).map fun _ => Stmt.var name (some e'))).mono ?_ ?_
    · rintro _ _ ⟨e', u, v, rfl, ⟨ha, rfl⟩, _, rfl, rfl⟩
      exact ⟨.varInit ha, by simp [localUsesOfStmt]⟩
    · rintro _ ⟨hfresh, e', ha, _, rfl, _⟩ hwf
      cases hwf with
      | var hname he => exact .varInit ⟨hname, hfresh⟩ (ha (he e rfl))
  | .block body => by
    simp only [Resolve.stmt, Stmt.declares, declaring_nil]
    refine ((walks_openScope [] (by simp)).seq (walks_body (fun body' => Stmt.block body')
      (walk_stmts body))).mono ?_ ?_
    · rintro _ _ ⟨body', rfl, ha, rfl⟩
      exact ⟨.block ha, rfl⟩
    · rintro _ ⟨_, body', rfl, ha⟩ hwf
      cases hwf with
      | block hbody => exact .block (ha hbody)
  | .branch c a none => by
    simp only [Resolve.stmt, Stmt.declares]
    refine ((walk_expr c).bind fun c' =>
      (walk_stmt a).map fun a' => Stmt.branch c' a' none).mono ?_ ?_
    · rintro _ _ ⟨c', u, v, rfl, ⟨hac, rfl⟩, a', rfl, haa, rfl⟩
      exact ⟨.branch hac haa, rfl⟩
    · rintro _ ⟨c', hac, a', rfl, haa⟩ hwf
      cases hwf with
      | branch hc ha _ hplain _ => exact .branch (hac hc) (haa ha) hplain
  | .branch c a (some b) => by
    simp only [Resolve.stmt, Stmt.declares, declaring_append]
    refine ((walk_expr c).bind fun c' => (walk_stmt a).bind fun a' =>
      (walk_stmt b).map fun b' => Stmt.branch c' a' (some b')).mono ?_ ?_
    · rintro _ _ ⟨c', u, v, rfl, ⟨hac, rfl⟩, a', u', v', rfl, ⟨haa, rfl⟩, b', rfl, hab, rfl⟩
      exact ⟨.branchElse hac haa hab, rfl⟩
    · rintro _ ⟨c', hac, a', haa, b', rfl, hab⟩ hwf
      cases hwf with
      | branch hc ha hb hplain hplain' =>
        -- plain branches leave the scopes alone, so both stand in the same ones
        rw [hplain, declaring_nil] at hab
        exact .branchElse (hac hc) (haa ha) (hab (hb b rfl)) hplain (hplain' b rfl)
  | .loop c body => by
    simp only [Resolve.stmt, Stmt.declares]
    refine ((walk_expr c).bind fun c' =>
      (walk_stmt body).map fun body' => Stmt.loop c' body').mono ?_ ?_
    · rintro _ _ ⟨c', u, v, rfl, ⟨hac, rfl⟩, body', rfl, hab, rfl⟩
      exact ⟨.loop hac hab, rfl⟩
    · rintro _ ⟨c', hac, body', rfl, hab⟩ hwf
      cases hwf with
      | loop hc hbody hplain => exact .loop (hac hc) (hab hbody) hplain
  | .function decl => by
    simp only [Resolve.stmt, Stmt.declares]
    refine ((walks_declare decl.name).seq ((walks_define decl.name).seq
      ((walk_fun .function decl).map fun decl' => Stmt.function decl'))).mono ?_ ?_
    · rintro _ _ ⟨decl', rfl, ha, rfl⟩
      exact ⟨.function ha, rfl⟩
    · rintro _ ⟨hfresh, _, decl', rfl, ha⟩ hwf
      cases hwf with
      | function hname hdecl => exact .function ⟨hname, hfresh⟩ (ha hdecl)
  | .ret line none => by
    simp only [Resolve.stmt, Stmt.declares, declaring_nil]
    refine ((walks_checkReturn P line false).map fun _ => Stmt.ret line none).mono ?_ ?_
    · rintro _ _ ⟨_, rfl, rfl⟩
      exact ⟨.ret, rfl⟩
    · rintro _ ⟨_, rfl, hfun, _⟩ _
      exact .ret hfun
  | .ret line (some e) => by
    simp only [Resolve.stmt, Stmt.declares, declaring_nil]
    refine ((walks_checkReturn P line true).seq
      ((walk_expr e).map fun e' => Stmt.ret line (some e'))).mono ?_ ?_
    · rintro _ _ ⟨e', rfl, ha, rfl⟩
      exact ⟨.retValue ha, rfl⟩
    · rintro _ ⟨⟨hfun, hinit⟩, e', rfl, ha⟩ hwf
      cases hwf with
      | ret he => exact .retValue hfun (hinit rfl) (ha (he e rfl))
  | .classDecl name none methods => by
    simp only [Resolve.stmt, Stmt.declares]
    refine ((walks_declare name).seq ((walks_define name).seq
      ((walks_openScope [Keyword.thisWord.text] (by simp)).seq
        ((walk_funs methods).bind fun methods' =>
          (walks_closeScope _).map fun _ => Stmt.classDecl name none methods')))).mono ?_ ?_
    · rintro _ _ ⟨methods', u, v, rfl, ⟨ha, rfl⟩, _, rfl, rfl⟩
      exact ⟨.classDecl ha, by simp [localUsesOfStmt]⟩
    · rintro _ ⟨hfresh, _, _, methods', ha, _, rfl, _⟩ hwf
      cases hwf with
      | classDecl hname hmethods => exact .classDecl ⟨hname, hfresh⟩ (ha hmethods)
  | .classDecl name (some (superName, ())) methods => by
    -- two scopes are opened around the methods, and closed again
    simp only [Resolve.stmt, Stmt.declares]
    refine ((walks_declare name).seq ((walks_define name).seq
      (walks_unless (superName.text = name.text) .inheritsItself superName
        ((walks_useVariable superName).bind fun use =>
          (walks_openScope [Keyword.superWord.text] (by simp)).seq
            ((walks_openScope [Keyword.thisWord.text] (by simp)).seq
              ((walk_funs methods).bind fun methods' =>
                (walks_closeScope _).seq ((walks_closeScope _).map fun _ =>
                  Stmt.classDecl name (some (superName, use)) methods'))))))).mono ?_ ?_
    · rintro _ _ ⟨use, u, v, rfl, ⟨hd, rfl⟩, methods', u', v', rfl, ⟨ha, rfl⟩, _, rfl, rfl⟩
      exact ⟨.subclassDecl hd ha, by simp [localUsesOfStmt]⟩
    · rintro _ ⟨hfresh, _, hself, use, hd, _, _, methods', ha, _, _, rfl, _⟩ hwf
      cases hwf with
      | classDecl hname hmethods => exact .subclassDecl ⟨hname, hfresh⟩ hself hd (ha hmethods)

theorem walk_stmts {P : Enclosing} {S : ScopeNames} : (ss : List SourceStmt) →
    Resolves (Resolve.stmts P ss) S (declaring (declaredBy ss) S) ss (AnnotatedStmts P.cls S)
      localUsesOfStmts (∀ s ∈ ss, WellFormedStmt s) (AcceptedStmts P S)
  | [] => by
    simp only [Resolve.stmts, declaredBy, declaring_nil]
    exact Walks.pure ⟨.nil, rfl⟩ fun _ => .nil
  | s :: ss => by
    simp only [Resolve.stmts, declaredBy, declaring_append]
    refine ((walk_stmt s).bind fun s' =>
      (walk_stmts ss).map fun ss' => s' :: ss').mono ?_ ?_
    · rintro _ _ ⟨s', u, v, rfl, ⟨ha, rfl⟩, ss', rfl, has, rfl⟩
      exact ⟨.cons ha has, rfl⟩
    · rintro _ ⟨s', ha, ss', rfl, has⟩ hwf
      obtain ⟨hfirst, hrest⟩ := List.forall_mem_cons.mp hwf
      exact .cons (ha hfirst) (has hrest)

theorem walk_fun {P : Enclosing} {S : ScopeNames} (kind : FunctionKind) : (decl : SourceFun) →
    Resolves (Resolve.function P kind decl) S S decl (AnnotatedFun P.cls S) localUsesOfFun
      (WellFormedFun decl) (AcceptedFun P kind S)
  | .mk name params body => by
    simp only [Resolve.function]
    refine (walks_function params (fun body' => FunDecl.mk name params body')
      (walk_stmts body)).mono ?_ ?_
    · rintro _ _ ⟨body', rfl, ha, rfl⟩
      exact ⟨.mk ha, rfl⟩
    · rintro _ ⟨hnodup, body', rfl, ha⟩ hwf
      cases hwf with
      | mk hparams hbody => exact .mk ⟨hnodup, hparams⟩ (ha hbody)

theorem walk_funs {P : Enclosing} {S : ScopeNames} : (ms : List SourceFun) →
    Resolves (Resolve.methodList P ms) S S ms (AnnotatedFuns P.cls S) localUsesOfFuns
      (∀ m ∈ ms, WellFormedFun m) (AcceptedFuns P S)
  | [] => by
    simp only [Resolve.methodList]
    exact Walks.pure ⟨.nil, rfl⟩ fun _ => .nil
  | m :: ms => by
    simp only [Resolve.methodList]
    refine ((walk_fun (.ofMethod m.name.text) m).bind fun m' =>
      (walk_funs ms).map fun ms' => m' :: ms').mono ?_ ?_
    · rintro _ _ ⟨m', u, v, rfl, ⟨ha, rfl⟩, ms', rfl, has, rfl⟩
      exact ⟨.cons ha has, rfl⟩
    · rintro _ ⟨m', ha, ms', rfl, has⟩ hwf
      obtain ⟨hfirst, hrest⟩ := List.forall_mem_cons.mp hwf
      exact .cons (ha hfirst) (has hrest)

end

/-! ### Programs -/

/-- The walk over a program, up to the count at its end. -/
theorem resolve_eq (program : List SourceStmt) {statements : List ResolvedStmt}
    {st : ResolveState} (h : Resolve.stmts .topLevel program .initial = (statements, st)) :
    (resolve program).statements = statements ∧ (resolve program).uses = st.uses.toList ∧
      (resolve program).errors = st.errors.toList := by
  have hrun : (Resolve.stmts .topLevel program >>= fun statements => Resolve.tally >>= fun _ =>
      pure statements) ResolveState.initial = (statements, (Resolve.tally st).2) := by
    show ((Resolve.stmts .topLevel program .initial).1,
      (Resolve.tally (Resolve.stmts .topLevel program .initial).2).2) = _
    rw [h]
  unfold resolve
  simp only [StateT.run, hrun, true_and]
  exact ⟨rfl, rfl⟩

/-- A well-formed program without errors is accepted. -/
theorem accepted_of_resolve {program : List SourceStmt}
    (hwf : ∀ s ∈ program, WellFormedStmt s) (herrors : (resolve program).errors = []) :
    AcceptedStmts .topLevel [] program (resolve program).statements := by
  obtain ⟨statements, st, uses, hrun, hwalk, hpost, hclean⟩ :=
    walk_stmts (P := .topLevel) (S := []) program .initial trivial
  obtain ⟨hstatements, -, hst⟩ := resolve_eq program hrun
  rw [hstatements]
  -- the walk began without errors, so it found none
  refine hclean ?_ hwf
  rw [herrors] at hst
  have hempty : st.errors = #[] := Array.toList_eq_nil_iff.mp hst.symm
  rw [hempty]
  rfl

/-- The statements after any others are resolved at the same place. -/
theorem stmts_append (P : Enclosing) (pre post : List SourceStmt) :
    Resolve.stmts P (pre ++ post) = (do
      let before ← Resolve.stmts P pre
      let after ← Resolve.stmts P post
      pure (before ++ after)) := by
  induction pre with
  | nil => simp [Resolve.stmts]
  | cons s pre ih => simp [Resolve.stmts, ih]

/-- What resolution makes of a program is its annotation. -/
theorem annotated_of_resolve (program : List SourceStmt) :
    AnnotatedStmts .none [] program (resolve program).statements ∧
      (resolve program).uses = localUsesOfStmts (resolve program).statements ∧
      (Resolve.stmts .topLevel program .initial).2.scopes = [] := by
  -- the walk over all statements, from no scopes to no scopes
  obtain ⟨statements, st, uses, hrun, hwalk, ⟨hannotated, huses⟩, -⟩ :=
    walk_stmts (P := .topLevel) (S := []) program .initial trivial
  obtain ⟨hstatements, hresolved, -⟩ := resolve_eq program hrun
  refine ⟨hstatements ▸ hannotated, ?_, ?_⟩
  · rw [hresolved, hstatements, hwalk.uses, huses]
    rfl
  · rw [hrun]
    exact SameNames.nil_iff.mp hwalk.scopes

/-- Resolution annotates every program.  A use of a name has an entry just if a scope
    around it has the name, except for `this`, which has none outside of all classes,
    and nothing else has one.  The walk closes every scope it opens, and at any point of
    the program it is at top level again.  With the depths in a table it finds the same:
    registers for the innermost function and class end as they began, and if the nodes of
    the program are told apart, the table has at each of them the entry that it should
    have. -/
theorem resolve_annotates (program : List SourceStmt) :
    AnnotatedStmts .none [] program (resolve program).statements ∧
    (resolve program).uses = localUsesOfStmts (resolve program).statements ∧
    (Resolve.stmts .topLevel program .initial).2.scopes = [] ∧
    (∀ pre post, program = pre ++ post →
      Resolve.stmts .topLevel program = (do
        let before ← Resolve.stmts .topLevel pre
        let after ← Resolve.stmts .topLevel post
        pure (before ++ after))) ∧
    ∀ nodes, sourceOfStmts nodes = program → ∃ found locals,
      Resolving.program nodes .initial = ((), ⟨found, locals, .none, .none⟩) ∧
      found.scopes = [] ∧ found.uses.toList = (resolve program).uses ∧
      found.errors.toList = (resolve program).errors ∧
      ((notesOfStmts nodes).Nodup → mapStmts locals.find? nodes = (resolve program).statements) := by
  obtain ⟨hannotated, huses, hscopes⟩ := annotated_of_resolve program
  refine ⟨hannotated, huses, hscopes, ?_, ?_⟩
  · rintro pre post rfl
    exact stmts_append .topLevel pre post
  · rintro nodes rfl
    obtain ⟨found, hprogram, hfound, husesFound, herrorsFound, -⟩ := Resolving.program_initial nodes
    refine ⟨found, _, hprogram, hfound.trans hscopes, husesFound, herrorsFound, ?_⟩
    intro hnodup
    rw [← Resolving.locals_eq]
    exact Resolving.mapStmts_find?_locals hnodup

/-- Outside of all classes `this` has no entry, though the scope around it has the name. -/
theorem stray_this_has_no_entry :
    (resolve [.block [.var ⟨"this", 1⟩ none, .expression (.this 1 ())]]).statements =
        [.block [.var ⟨"this", 1⟩ none, .expression (.this 1 none)]] ∧
      (resolve [.block [.var ⟨"this", 1⟩ none, .expression (.this 1 ())]]).uses = [] ∧
      IsDistance (declaring ["this"] [[]]) Keyword.thisWord.text (some 0) :=
  ⟨rfl, rfl, isDistance_cons_zero.mpr List.mem_cons_self⟩

end Treewalk
