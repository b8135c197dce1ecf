import Treewalk.Proofs.Grammar.Tokens
import Treewalk.Proofs.Scope.Resolution

/-! # Where resolution reports errors

    Resolution reports every error at a word of the program: a name, or one of the
    keywords `this`, `super` and `return`.  The tree that it yields differs from the one
    it is given in its notes only, so it keeps the same tokens. -/

namespace Treewalk

/-! ### Pieces of the walk -/

/-- The word is one of the tokens `T`. -/
def Spelled (T : Token → Prop) (site : Name) : Prop :=
  ∃ t, T t ∧ t.text = site.text ∧ t.line = site.line

/-- A piece of the walk reports errors only at words among `T`, and `post` holds of what
    it yields. -/
def ReportsAt {α : Type} (T : Token → Prop) (x : Resolve α) (post : α → Prop) : Prop :=
  ∀ st, (∀ e ∈ st.errors, Spelled T e.site) →
    (∀ e ∈ (x st).2.errors, Spelled T e.site) ∧ post (x st).1

/-- A step that reports errors only at words among `T`. -/
abbrev Reports {α : Type} (T : Token → Prop) (x : Resolve α) : Prop :=
  ReportsAt T x fun _ => True

namespace ReportsAt

variable {α β : Type} {T : Token → Prop} {x : Resolve α} {post : α → Prop}

theorem pure {a : α} (h : post a) : ReportsAt T (pure a) post :=
  fun _ hst => ⟨hst, h⟩

theorem bind {f : α → Resolve β} {post' : β → Prop} (hx : ReportsAt T x post)
    (hf : ∀ a, post a → ReportsAt T (f a) post') : ReportsAt T (x >>= f) post' := by
  intro st hst
  obtain ⟨herrors, ha⟩ := hx st hst
  exact hf (x st).1 ha (x st).2 herrors

/-- A step that is run for its effect. -/
theorem seq {f : α → Resolve β} {post' : β → Prop} (hx : Reports T x)
    (hf : ∀ a, ReportsAt T (f a) post') : ReportsAt T (x >>= f) post' :=
  hx.bind fun a _ => hf a

/-- A step that reports nothing. -/
theorem quiet (h : ∀ st, (x st).2.errors = st.errors) : Reports T x := by
  intro st hst
  rw [h]
  exact ⟨hst, trivial⟩

end ReportsAt

/-! ### Steps of the walk -/

section Steps

open Resolve

variable {T : Token → Prop}

theorem spelled_ident {name : Name} (h : T (ident name)) : Spelled T name :=
  ⟨ident name, h, rfl, rfl⟩

theorem spelled_word {k : Keyword} {line : Int} (h : T (word k line)) : Spelled T ⟨k.text, line⟩ :=
  ⟨word k line, h, rfl, rfl⟩

theorem reports_report (issue : ResolveIssue) {site : Name} (h : Spelled T site) :
    Reports T (report issue site) := by
  refine fun st hst => ⟨fun e he => ?_, trivial⟩
  rcases Array.mem_push.mp he with he | rfl
  · exact hst e he
  · exact h

/-- A step behind a rule that may be broken. -/
theorem reportsAt_unless {β : Type} {y : Resolve β} {post : β → Prop} (broken : Prop)
    [Decidable broken] (issue : ResolveIssue) {site : Name} (h : Spelled T site)
    (hy : ReportsAt T y post) :
    ReportsAt T (if broken then report issue site >>= fun _ => y else y) post := by
  by_cases hbroken : broken
  · rw [if_pos hbroken]
    exact (reports_report issue h).seq fun _ => hy
  · rw [if_neg hbroken]
    exact hy

theorem reports_openScope (names : List String) : Reports T (openScope names) :=
  .quiet fun _ => rfl

theorem reports_closeScope : Reports T closeScope := .quiet fun _ => rfl

theorem reports_tally : Reports T tally := .quiet fun _ => rfl

theorem reports_mark (name : String) (complete : Bool) : Reports T (mark name complete) := by
  refine .quiet fun st => ?_
  rcases st with ⟨_ | _, uses, errors, tallies⟩ <;> rfl

theorem reports_innermost (name : String) : Reports T (innermost? name) := by
  refine .quiet fun st => ?_
  rcases st with ⟨_ | _, uses, errors, tallies⟩ <;> rfl

theorem reports_note (kind : UseKind) (target : String) (site : Name) :
    Reports T (note kind target site) := by
  refine .quiet fun st => ?_
  rw [note_run]
  cases distanceTo st.scopes target <;> rfl

theorem reports_declare {name : Name} (h : T (ident name)) : Reports T (declare name) :=
  (reports_innermost name.text).seq fun _ =>
    reportsAt_unless _ _ (spelled_ident h) (reports_mark _ _)

theorem reports_define (name : Name) : Reports T (define name) := reports_mark _ _

theorem reports_useVariable {name : Name} (h : T (ident name)) : Reports T (useVariable name) :=
  (reports_innermost name.text).seq fun _ =>
    reportsAt_unless _ _ (spelled_ident h) (reports_note _ _ _)

theorem reports_declareParams {params : List Name} (h : ∀ t ∈ params.map ident, T t) :
    Reports T (declareParams params) := by
  induction params with
  | nil => exact .pure trivial
  | cons p ps ih =>
    simp only [List.map_cons, List.forall_mem_cons] at h
    exact (reports_declare h.1).seq fun _ => (reports_define p).seq fun _ => ih h.2

theorem reports_checkReturn (place : Enclosing) {line : Int} (hasValue : Bool)
    (h : T (word .returnWord line)) : Reports T (checkReturn place line hasValue) :=
  reportsAt_unless _ _ (spelled_word h)
    (reportsAt_unless _ _ (spelled_word h) (.pure trivial))

theorem reports_useThis (place : Enclosing) {line : Int} (h : T (word .thisWord line)) :
    Reports T (useThis place line) := by
  unfold useThis
  dsimp only
  split
  · exact (reports_report _ (spelled_word h)).seq fun _ => .pure trivial
  · exact reports_note _ _ _

theorem reports_useSuper (place : Enclosing) {line : Int} (h : T (word .superWord line)) :
    Reports T (useSuper place line) := by
  unfold useSuper
  dsimp only
  split
  · exact (reports_report _ (spelled_word h)).seq fun _ => reports_note _ _ _
  · exact (reports_report _ (spelled_word h)).seq fun _ => reports_note _ _ _
  · exact reports_note _ _ _

/-- The body of a function or block, behind which its scope is closed. -/
theorem reportsAt_body {β : Type} {x : Resolve (List ResolvedStmt)}
    {post : List ResolvedStmt → Prop} {build : List ResolvedStmt → β} {post' : β → Prop}
    (hx : ReportsAt T x post) (hbuild : ∀ body, post body → post' (build body)) :
    ReportsAt T (do let body ← x; tally; closeScope; pure (build body)) post' :=
  hx.bind fun body hbody => reports_tally.seq fun _ => reports_closeScope.seq fun _ =>
    .pure (hbuild body hbody)

end Steps

/-! ### The walk -/

variable {T : Token → Prop}

mutual

theorem reportsAt_expr (place : Enclosing) : (e : SourceExpr) → (∀ t ∈ e.tokens, T t) →
    ReportsAt T (Resolve.expr place e) fun r => r.tokens = e.tokens
  | .literal value, _ => by
    simp only [Resolve.expr]
    exact .pure rfl
  | .group e, h => by
    simp only [Resolve.expr]
    exact (reportsAt_expr place e h).bind fun e' he' => .pure he'
  | .unary op line e, h => by
    simp only [Expr.tokens, List.forall_mem_cons] at h
    simp only [Resolve.expr]
    refine (reportsAt_expr place e h.2).bind fun e' he' => .pure ?_
    rw [Expr.tokens, he', Expr.tokens]
  | .binary op line l r, h => by
    simp only [Expr.tokens, List.forall_mem_cons, List.forall_mem_append] at h
    simp only [Resolve.expr]
    refine (reportsAt_expr place l h.2.1).bind fun l' hl' => ?_
    refine (reportsAt_expr place r h.2.2).bind fun r' hr' => .pure ?_
    rw [Expr.tokens, hl', hr', Expr.tokens]
  | .logical op line l r, h => by
    simp only [Expr.tokens, List.forall_mem_cons, List.forall_mem_append] at h
    simp only [Resolve.expr]
    refine (reportsAt_expr place l h.2.1).bind fun l' hl' => ?_
    refine (reportsAt_expr place r h.2.2).bind fun r' hr' => .pure ?_
    rw [Expr.tokens, hl', hr', Expr.tokens]
  | .variable name (), h => by
    simp only [Resolve.expr]
    exact (reports_useVariable (h _ List.mem_cons_self)).seq fun use => .pure rfl
  | .assign name () e, h => by
    simp only [Expr.tokens, List.forall_mem_cons] at h
    simp only [Resolve.expr]
    refine (reportsAt_expr place e h.2).bind fun e' he' => ?_
    refine (reports_note _ _ _).seq fun use => .pure ?_
    rw [Expr.tokens, he', Expr.tokens]
  | .call f args line, h => by
    simp only [Expr.tokens, List.forall_mem_cons, List.forall_mem_append] at h
    simp only [Resolve.expr]
    refine (reportsAt_expr place f h.2.1).bind fun f' hf' => ?_
    refine (reportsAt_exprs place args h.2.2).bind fun args' hargs' => .pure ?_
    rw [Expr.tokens, hf', hargs', Expr.tokens]
  | .get o name, h => by
    simp only [Expr.tokens, List.forall_mem_cons] at h
    simp only [Resolve.expr]
    refine (reportsAt_expr place o h.2).bind fun o' ho' => .pure ?_
    rw [Expr.tokens, ho', Expr.tokens]
  | .set o name e, h => by
    simp only [Expr.tokens, List.forall_mem_cons, List.forall_mem_append] at h
    simp only [Resolve.expr]
    refine (reportsAt_expr place e h.2.2).bind fun e' he' => ?_
    refine (reportsAt_expr place o h.2.1).bind fun o' ho' => .pure ?_
    rw [Expr.tokens, ho', he', Expr.tokens]
  | .this line (), h => by
    simp only [Resolve.expr]
    exact (reports_useThis place (h _ List.mem_cons_self)).seq fun use => .pure rfl
  | .super line () method, h => by
    simp only [Resolve.expr]
    exact (reports_useSuper place (h _ List.mem_cons_self)).seq fun use => .pure rfl
  | .lambda line params body, h => by
    simp only [Expr.tokens, List.forall_mem_cons, List.forall_mem_append] at h
    simp only [Resolve.expr]
    refine (reports_openScope _).seq fun _ => (reports_declareParams h.2.1).seq fun _ => ?_
    refine reportsAt_body (reportsAt_stmts _ body h.2.2) fun body' hbody' => ?_
    rw [Expr.tokens, hbody', Expr.tokens]

theorem reportsAt_exprs (place : Enclosing) : (es : List SourceExpr) →
    (∀ t ∈ tokensOfExprs es, T t) →
    ReportsAt T (Resolve.exprs place es) fun rs => tokensOfExprs rs = tokensOfExprs es
  | [], _ => by
    simp only [Resolve.exprs]
    exact .pure rfl
  | e :: es, h => by
    simp only [tokensOfExprs, List.forall_mem_append] at h
    simp only [Resolve.exprs]
    refine (reportsAt_expr place e h.1).bind fun e' he' => ?_
    refine (reportsAt_exprs place es h.2).bind fun es' hes' => .pure ?_
    rw [tokensOfExprs, he', hes', tokensOfExprs]

theorem reportsAt_stmt (place : Enclosing) : (s : SourceStmt) → (∀ t ∈ s.tokens, T t) →
    ReportsAt T (Resolve.stmt place s) fun r => r.tokens = s.tokens
  | .expression e, h => by
    simp only [Stmt.tokens] at h
    simp only [Resolve.stmt]
    exact (reportsAt_expr place e h).bind fun e' he' => .pure he'
  | .print e, h => by
    simp only [Stmt.tokens] at h
    simp only [Resolve.stmt]
    exact (reportsAt_expr place e h).bind fun e' he' => .pure he'
  | .var name none, h => by
    simp only [Resolve.stmt]
    exact (reports_declare (h _ List.mem_cons_self)).seq fun _ =>
      (reports_define name).seq fun _ => .pure rfl
  | .var name (some e), h => by
    simp only [Stmt.tokens, List.forall_mem_cons] at h
    simp only [Resolve.stmt]
    refine (reports_declare h.1).seq fun _ => (reportsAt_expr place e h.2).bind fun e' he' => ?_
    refine (reports_define name).seq fun _ => .pure ?_
    rw [Stmt.tokens, he', Stmt.tokens]
  | .block body, h => by
    simp only [Stmt.tokens] at h
    simp only [Resolve.stmt]
    exact (reports_openScope _).seq fun _ =>
      reportsAt_body (reportsAt_stmts place body h) fun body' hbody' => hbody'
  | .branch c a none, h => by
    simp only [Stmt.tokens, List.forall_mem_append] at h
    simp only [Resolve.stmt]
    refine (reportsAt_expr place c h.1).bind fun c' hc' => ?_
    refine (reportsAt_stmt place a h.2).bind fun a' ha' => .pure ?_
    rw [Stmt.tokens, hc', ha', Stmt.tokens]
  | .branch c a (some b), h => by
    simp only [Stmt.tokens, List.forall_mem_append] at h
    simp only [Resolve.stmt]
    refine (reportsAt_expr place c h.1).bind fun c' hc' => ?_
    refine (reportsAt_stmt place a h.2.1).bind fun a' ha' => ?_
    refine (reportsAt_stmt place b h.2.2).bind fun b' hb' => .pure ?_
    rw [Stmt.tokens, hc', ha', hb', Stmt.tokens]
  | .loop c body, h => by
    simp only [Stmt.tokens, List.forall_mem_append] at h
    simp only [Resolve.stmt]
    refine (reportsAt_expr place c h.1).bind fun c' hc' => ?_
    refine (reportsAt_stmt place body h.2).bind fun body' hbody' => .pure ?_
    rw [Stmt.tokens, hc', hbody', Stmt.tokens]
  | .function decl, h => by
    simp only [Stmt.tokens] at h
    simp only [Resolve.stmt]
    have hname : T (ident decl.name) := by
      cases decl
      exact h _ List.mem_cons_self
    refine (reports_declare hname).seq fun _ => (reports_define _).seq fun _ => ?_
    exact (reportsAt_function place _ decl h).bind fun decl' hdecl' => .pure hdecl'
  | .ret line none, h => by
    simp only [Resolve.stmt]
    exact (reports_checkReturn place _ (h _ List.mem_cons_self)).seq fun _ => .pure rfl
  | .ret line (some e), h => by
    simp only [Stmt.tokens, List.forall_mem_cons] at h
    simp only [Resolve.stmt]
    refine (reports_checkReturn place _ h.1).seq fun _ => ?_
    refine (reportsAt_expr place e h.2).bind fun e' he' => .pure ?_
    rw [Stmt.tokens, he', Stmt.tokens]
  | .classDecl name none methods, h => by
    simp only [Stmt.tokens, List.forall_mem_cons] at h
    simp only [Resolve.stmt]
    refine (reports_declare h.1).seq fun _ => (reports_define name).seq fun _ => ?_
    refine (reports_openScope _).seq fun _ => ?_
    refine (reportsAt_methodList _ methods h.2).bind fun methods' hmethods' => ?_
    refine reports_closeScope.seq fun _ => .pure ?_
    rw [Stmt.tokens, hmethods', Stmt.tokens]
  | .classDecl name (some (superName, ())) methods, h => by
    simp only [Stmt.tokens, List.forall_mem_cons] at h
    simp only [Resolve.stmt]
    refine (reports_declare h.1).seq fun _ => (reports_define name).seq fun _ => ?_
    refine reportsAt_unless _ _ (spelled_ident h.2.1) ?_
    refine (reports_useVariable h.2.1).seq fun use => ?_
    refine (reports_openScope _).seq fun _ => (reports_openScope _).seq fun _ => ?_
    refine (reportsAt_methodList _ methods h.2.2).bind fun methods' hmethods' => ?_
    refine reports_closeScope.seq fun _ => reports_closeScope.seq fun _ => .pure ?_
    rw [Stmt.tokens, hmethods', Stmt.tokens]

theorem reportsAt_stmts (place : Enclosing) : (ss : List SourceStmt) →
    (∀ t ∈ tokensOfStmts ss, T t) →
    ReportsAt T (Resolve.stmts place ss) fun rs => tokensOfStmts rs = tokensOfStmts ss
  | [], _ => by
    simp only [Resolve.stmts]
    exact .pure rfl
  | s :: ss, h => by
    simp only [tokensOfStmts, List.forall_mem_append] at h
    simp only [Resolve.stmts]
    refine (reportsAt_stmt place s h.1).bind fun s' hs' => ?_
    refine (reportsAt_stmts place ss h.2).bind fun ss' hss' => .pure ?_
    rw [tokensOfStmts, hs', hss', tokensOfStmts]

theorem reportsAt_function (place : Enclosing) (kind : FunctionKind) : (m : SourceFun) →
    (∀ t ∈ m.tokens, T t) →
    ReportsAt T (Resolve.function place kind m) fun r => r.tokens = m.tokens
  | .mk name params body, h => by
    simp only [FunDecl.tokens, List.forall_mem_cons, List.forall_mem_append] at h
    simp only [Resolve.function]
    refine (reports_openScope _).seq fun _ => (reports_declareParams h.2.1).seq fun _ => ?_
    refine reportsAt_body (reportsAt_stmts _ body h.2.2) fun body' hbody' => ?_
    rw [FunDecl.tokens, hbody', FunDecl.tokens]

theorem reportsAt_methodList (place : Enclosing) : (ms : List SourceFun) →
    (∀ t ∈ tokensOfFuns ms, T t) →
    ReportsAt T (Resolve.methodList place ms) fun rs => tokensOfFuns rs = tokensOfFuns ms
  | [], _ => by
    simp only [Resolve.methodList]
    exact .pure rfl
  | m :: ms, h => by
    simp only [tokensOfFuns, List.forall_mem_append] at h
    simp only [Resolve.methodList]
    refine (reportsAt_function place _ m h.1).bind fun m' hm' => ?_
    refine (reportsAt_methodList place ms h.2).bind fun ms' hms' => .pure ?_
    rw [tokensOfFuns, hm', hms', tokensOfFuns]

end

/-! ### Programs -/

/-- The errors of resolution are at tokens of the program, and the program that it
    yields keeps the same tokens. -/
theorem resolve_reports {program : List SourceStmt} {T : Token → Prop}
    (h : ∀ t ∈ tokensOfStmts program, T t) :
    (∀ e ∈ (resolve program).errors, Spelled T e.site) ∧
      tokensOfStmts (resolve program).statements = tokensOfStmts program := by
  obtain ⟨herrors, htokens⟩ := reportsAt_stmts .topLevel program h .initial nofun
  obtain ⟨hstatements, -, heq⟩ :=
    resolve_eq program (Prod.eta (Resolve.stmts .topLevel program .initial)).symm
  rw [hstatements, heq]
  exact ⟨fun e he => herrors e (Array.mem_toList_iff.mp he), htokens⟩

end Treewalk
