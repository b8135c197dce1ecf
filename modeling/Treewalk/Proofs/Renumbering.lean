import Treewalk.Proofs.Grammar.Acceptance
import Treewalk.Proofs.Scope.Rejection
import Treewalk.Proofs.Token.Scanning

/-! # Renumbering lines

    Tokens and trees carry line numbers for the sake of messages.  Renumbering
    the lines of a text renumbers its tree and changes nothing else: it derives
    from the grammar and keeps the static rules as before.  So it does not depend
    on the line a text starts on whether it can be run. -/

namespace Treewalk

variable {ρ : Type} {f : Int → Int}

/-! ### Trees -/

/-- The name on another line. -/
def Name.renumber (f : Int → Int) (n : Name) : Name := ⟨n.text, f n.line⟩

/-- The token on another line. -/
def Token.renumber (f : Int → Int) (t : Token) : Token := ⟨t.lexeme, f t.line⟩

mutual

/-- The expression with other lines. -/
def Expr.renumber (f : Int → Int) : Expr ρ → Expr ρ
  | .literal value => .literal value
  | .group inner => .group (inner.renumber f)
  | .unary op line operand => .unary op (f line) (operand.renumber f)
  | .binary op line left right => .binary op (f line) (left.renumber f) (right.renumber f)
  | .logical op line left right => .logical op (f line) (left.renumber f) (right.renumber f)
  | .variable name use => .variable (name.renumber f) use
  | .assign name use value => .assign (name.renumber f) use (value.renumber f)
  | .call callee arguments line => .call (callee.renumber f) (renumberExprs f arguments) (f line)
  | .get object name => .get (object.renumber f) (name.renumber f)
  | .set object name value => .set (object.renumber f) (name.renumber f) (value.renumber f)
  | .this line use => .this (f line) use
  | .super line use method => .super (f line) use (method.renumber f)
  | .lambda line params body => .lambda (f line) (params.map (·.renumber f)) (renumberStmts f body)

/-- The expressions with other lines. -/
def renumberExprs (f : Int → Int) : List (Expr ρ) → List (Expr ρ)
  | [] => []
  | e :: es => e.renumber f :: renumberExprs f es

/-- The statement with other lines. -/
def Stmt.renumber (f : Int → Int) : Stmt ρ → Stmt ρ
  | .expression e => .expression (e.renumber f)
  | .print e => .print (e.renumber f)
  | .var name none => .var (name.renumber f) none
  | .var name (some e) => .var (name.renumber f) (some (e.renumber f))
  | .block body => .block (renumberStmts f body)
  | .branch condition onTrue none => .branch (condition.renumber f) (onTrue.renumber f) none
  | .branch condition onTrue (some onFalse) =>
    .branch (condition.renumber f) (onTrue.renumber f) (some (onFalse.renumber f))
  | .loop condition body => .loop (condition.renumber f) (body.renumber f)
  | .function decl => .function (decl.renumber f)
  | .ret line none => .ret (f line) none
  | .ret line (some e) => .ret (f line) (some (e.renumber f))
  | .classDecl name superclass methods =>
    .classDecl (name.renumber f) (superclass.map fun (n, use) => (n.renumber f, use))
      (renumberFuns f methods)

/-- The statements with other lines. -/
def renumberStmts (f : Int → Int) : List (Stmt ρ) → List (Stmt ρ)
  | [] => []
  | s :: ss => s.renumber f :: renumberStmts f ss

/-- The function with other lines. -/
def FunDecl.renumber (f : Int → Int) : FunDecl ρ → FunDecl ρ
  | .mk name params body => .mk (name.renumber f) (params.map (·.renumber f)) (renumberStmts f body)

/-- The functions with other lines. -/
def renumberFuns (f : Int → Int) : List (FunDecl ρ) → List (FunDecl ρ)
  | [] => []
  | m :: ms => m.renumber f :: renumberFuns f ms

end

@[simp] theorem renumberExprs_eq_map (es : List (Expr ρ)) :
    renumberExprs f es = es.map (·.renumber f) := by
  induction es with
  | nil => rfl
  | cons e es ih => simp [renumberExprs, ih]

@[simp] theorem renumberStmts_eq_map (ss : List (Stmt ρ)) :
    renumberStmts f ss = ss.map (·.renumber f) := by
  induction ss with
  | nil => rfl
  | cons s ss ih => simp [renumberStmts, ih]

@[simp] theorem renumberFuns_eq_map (ms : List (FunDecl ρ)) :
    renumberFuns f ms = ms.map (·.renumber f) := by
  induction ms with
  | nil => rfl
  | cons m ms ih => simp [renumberFuns, ih]

@[simp] theorem Stmt.renumber_forLoop (initial : Option (Stmt ρ)) (c step : Option (Expr ρ))
    (body : Stmt ρ) : (Stmt.forLoop initial c step body).renumber f =
      Stmt.forLoop (initial.map (·.renumber f)) (c.map (·.renumber f)) (step.map (·.renumber f))
        (body.renumber f) := by
  cases initial <;> cases c <;> cases step <;> simp [Stmt.forLoop, Stmt.renumber, Expr.renumber]

/-! ### Derivations -/

/-- The tree of a phrase with other lines. -/
def Category.renumber (f : Int → Int) : (c : Category) → c.Tree → c.Tree
  | .primary, e | .call, e | .unary, e | .level _, e | .operand _, e | .expression, e =>
    Expr.renumber f e
  | .optional, e => e.map (Expr.renumber f)
  | .arguments, es | .argumentList, es => es.map (Expr.renumber f)
  | .params, ns | .paramList, ns => ns.map (Name.renumber f)
  | .signature, (ns, ss) => (ns.map (Name.renumber f), ss.map (Stmt.renumber f))
  | .block, ss | .declarations, ss => ss.map (Stmt.renumber f)
  | .function, m => FunDecl.renumber f m
  | .methods, ms => ms.map (FunDecl.renumber f)
  | .exprStmt, s | .varDecl, s | .statement _, s | .declaration, s => Stmt.renumber f s
  | .forInitial, s => s.map (Stmt.renumber f)

theorem renumber_join (op : Parser.Operator) (line : Int) (a b : SourceExpr) :
    (op.join line a b).renumber f = op.join (f line) (a.renumber f) (b.renumber f) := by
  cases op <;> rfl

/-- A renumbered phrase derives to the renumbered tree. -/
theorem Derives.renumber {nearest bare : Bool} {c : Category} {ts : List Token} {t : c.Tree}
    (h : Derives nearest bare c ts t) :
    Derives nearest bare c (ts.map (·.renumber f)) (c.renumber f t) := by
  induction h with
  -- primary expressions
  | falseWord => exact .falseWord
  | trueWord => exact .trueWord
  | nilWord => exact .nilWord
  | literal hv => exact .literal hv
  | this => exact .this
  | @name n => exact .name (n := n.renumber f)
  | @super l l₁ n => exact .super (n := n.renumber f)
  | group _ ih =>
    simp only [List.map_cons, List.map_append, List.map_nil]
    exact .group ih
  | lambda _ ih =>
    simp only [Category.renumber, Expr.renumber, renumberStmts_eq_map]
    exact .lambda ih
  -- calls and properties
  | callee _ ih => exact .callee ih
  | call _ _ ihf ihargs =>
    simp only [List.map_cons, List.map_append, List.map_nil, Category.renumber, Expr.renumber,
      renumberExprs_eq_map]
    exact .call ihf ihargs
  | @property l ts o n _ ih =>
    simp only [List.map_cons, List.map_append, List.map_nil]
    exact .property (n := n.renumber f) ih
  -- operators
  | unaryOperand _ ih => exact .unaryOperand ih
  | unary _ ih => exact .unary ih
  | operandTighter hl _ ih => exact .operandTighter hl ih
  | operandUnary hl _ ih => exact .operandUnary hl ih
  | operand _ ih => exact .operand ih
  | operator _ hop _ iha ihb =>
    simp only [List.map_cons, List.map_append, Category.renumber, renumber_join]
    exact .operator iha hop ihb
  -- assignments
  | operation _ ih => exact .operation ih
  | @assign n _ _ _ _ ih => exact .assign (n := n.renumber f) ih
  | @setProperty n _ _ _ _ _ _ _ _ iho ihe =>
    simp only [List.map_cons, List.map_append]
    exact .setProperty (n := n.renumber f) iho ihe
  | absent => exact .absent
  | present _ ih => exact .present ih
  -- lists
  | oneArgument _ ih => exact .oneArgument ih
  | moreArguments _ _ ihs ih =>
    simp only [List.map_cons, List.map_append, List.map_nil, Category.renumber]
    exact .moreArguments ihs ih
  | noArguments => exact .noArguments
  | someArguments _ hlen ih => exact .someArguments ih (by rwa [Category.renumber, List.length_map])
  | @oneParam n => exact .oneParam (n := n.renumber f)
  | @moreParams l ts ns n _ ih =>
    simp only [List.map_cons, List.map_append, List.map_nil, Category.renumber]
    exact .moreParams (n := n.renumber f) ih
  | noParams => exact .noParams
  | someParams _ hlen ih => exact .someParams ih (by rwa [Category.renumber, List.length_map])
  -- functions and blocks
  | signature _ _ ihn ihb =>
    simp only [List.map_cons, List.map_append]
    exact .signature ihn ihb
  | block _ ih =>
    simp only [List.map_cons, List.map_append, List.map_nil]
    exact .block ih
  | @function n _ _ _ _ ih =>
    simp only [List.map_cons, Category.renumber, FunDecl.renumber, renumberStmts_eq_map]
    exact .function (n := n.renumber f) ih
  | noMethods => exact .noMethods
  | moreMethods _ _ ihs ih =>
    simp only [List.map_cons, List.map_append, List.map_nil, Category.renumber]
    exact .moreMethods ihs ih
  -- statements
  | exprStmt _ ih =>
    simp only [List.map_cons, List.map_append, List.map_nil]
    exact .exprStmt ih
  | bareStmt hbare _ ih => exact .bareStmt hbare ih
  | evaluate _ ih => exact .evaluate ih
  | print _ ih =>
    simp only [List.map_cons, List.map_append, List.map_nil]
    exact .print ih
  | @ret _ _ _ e _ ih =>
    simp only [List.map_cons, List.map_append, List.map_nil]
    cases e <;> exact .ret ih
  | nested _ ih =>
    simp only [Category.renumber, Stmt.renumber, renumberStmts_eq_map]
    exact .nested ih
  | loop _ _ ihc ihb =>
    simp only [List.map_cons, List.map_append]
    exact .loop ihc ihb
  | ifOnly _ _ ihc iha =>
    simp only [List.map_cons, List.map_append]
    exact .ifOnly ihc iha
  | ifElse hd _ _ _ ihc iha ihb =>
    simp only [List.map_cons, List.map_append]
    exact .ifElse hd ihc iha ihb
  | noInitial => exact .noInitial
  | varInitial _ ih => exact .varInitial ih
  | exprInitial _ ih => exact .exprInitial ih
  | forLoop _ _ _ _ ihi ihc ihs ihb =>
    simp only [List.map_cons, List.map_append, Category.renumber, Stmt.renumber_forLoop]
    exact .forLoop ihi ihc ihs ihb
  -- declarations
  | @var _ _ n => exact .var (n := n.renumber f)
  | @varInit _ _ _ n _ _ _ ih =>
    simp only [List.map_cons, List.map_append, List.map_nil]
    exact .varInit (n := n.renumber f) ih
  | statement _ ih => exact .statement ih
  | declareVar _ ih => exact .declareVar ih
  | declareFun _ ih => exact .declareFun ih
  | @declareClass _ _ _ n _ _ _ ih =>
    simp only [List.map_cons, List.map_append, List.map_nil, Category.renumber, Stmt.renumber,
      renumberFuns_eq_map]
    exact .declareClass (n := n.renumber f) ih
  | @declareSubclass _ _ _ _ n m _ _ _ ih =>
    simp only [List.map_cons, List.map_append, List.map_nil, Category.renumber, Stmt.renumber,
      renumberFuns_eq_map]
    exact .declareSubclass (n := n.renumber f) (m := m.renumber f) ih
  | noDeclarations => exact .noDeclarations
  | moreDeclarations _ _ ihs ih =>
    simp only [List.map_cons, List.map_append, List.map_nil, Category.renumber]
    exact .moreDeclarations ihs ih

/-! ### Static rules -/

@[simp] theorem paramNames_renumber (params : List Name) :
    paramNames (params.map (·.renumber f)) = paramNames params := by
  simp [paramNames, Name.renumber]

@[simp] theorem FunDecl.name_renumber (m : FunDecl ρ) :
    (m.renumber f).name = m.name.renumber f := by
  cases m
  rfl

@[simp] theorem FunDecl.params_renumber (m : FunDecl ρ) :
    (m.renumber f).params = m.params.map (·.renumber f) := by
  cases m
  rfl

@[simp] theorem FunDecl.body_renumber (m : FunDecl ρ) :
    (m.renumber f).body = m.body.map (·.renumber f) := by
  cases m
  exact renumberStmts_eq_map _

theorem Stmt.declares_renumber : (s : Stmt ρ) → (s.renumber f).declares = s.declares
  | .expression _ | .print _ | .var _ none | .var _ (some _) | .block _ | .ret _ none
  | .ret _ (some _) | .function (.mk _ _ _) => rfl
  | .classDecl _ none _ | .classDecl _ (some _) _ => rfl
  | .branch _ a none => a.declares_renumber
  | .branch _ a (some b) => by
    simp only [Stmt.renumber, Stmt.declares, a.declares_renumber, b.declares_renumber]
  | .loop _ body => body.declares_renumber

@[simp] theorem declaredBy_renumber (ss : List SourceStmt) :
    declaredBy (ss.map (·.renumber f)) = declaredBy ss := by
  induction ss with
  | nil => rfl
  | cons s ss ih => simp [declaredBy, ih, Stmt.declares_renumber]

/-- The phrase with other lines. -/
def Phrase.renumber (f : Int → Int) : Phrase → Phrase
  | .expr e => .expr (e.renumber f)
  | .stmt s => .stmt (s.renumber f)

theorem Phrase.parts_renumber : (ph : Phrase) →
    (ph.renumber f).parts = ph.parts.map fun part => (part.1, part.2.renumber f)
  | .expr (.literal _) | .expr (.variable _ _) | .expr (.this _ _) | .expr (.super _ _ _)
  | .expr (.group _) | .expr (.unary _ _ _) | .expr (.get _ _) | .expr (.assign _ _ _)
  | .expr (.binary _ _ _ _) | .expr (.logical _ _ _ _) | .expr (.set _ _ _) => rfl
  | .stmt (.expression _) | .stmt (.print _) | .stmt (.var _ none) | .stmt (.var _ (some _))
  | .stmt (.branch _ _ none) | .stmt (.branch _ _ (some _)) | .stmt (.loop _ _)
  | .stmt (.ret _ none) | .stmt (.ret _ (some _)) => rfl
  | .expr (.call _ _ _) | .expr (.lambda _ _ _) | .stmt (.block _) | .stmt (.function _) => by
    simp [Phrase.renumber, Expr.renumber, Stmt.renumber, Phrase.parts]
  | .stmt (.classDecl name superclass methods) => by
    simp [Phrase.renumber, Stmt.renumber, Phrase.parts, List.flatMap_map, List.map_flatMap]
    rfl

theorem Phrase.scopes_renumber : (ph : Phrase) → (ph.renumber f).scopes = ph.scopes
  | .expr (.literal _) | .expr (.variable _ _) | .expr (.this _ _) | .expr (.super _ _ _)
  | .expr (.group _) | .expr (.unary _ _ _) | .expr (.get _ _) | .expr (.assign _ _ _)
  | .expr (.binary _ _ _ _) | .expr (.logical _ _ _ _) | .expr (.set _ _ _)
  | .expr (.call _ _ _) => rfl
  | .stmt (.expression _) | .stmt (.print _) | .stmt (.var _ none) | .stmt (.var _ (some _))
  | .stmt (.branch _ _ none) | .stmt (.branch _ _ (some _)) | .stmt (.loop _ _)
  | .stmt (.ret _ none) | .stmt (.ret _ (some _)) => rfl
  | .expr (.lambda _ _ _) | .stmt (.block _) | .stmt (.function _) | .stmt (.classDecl _ _ _) => by
    simp [Phrase.renumber, Expr.renumber, Stmt.renumber, Phrase.scopes]

theorem obeys_renumber {π : Surroundings} {ph : Phrase} (h : Obeys π ph) :
    Obeys π (ph.renumber f) := by
  refine ⟨?_, ?_⟩
  · rw [Phrase.scopes_renumber]
    exact h.1
  · -- no rule looks at a line
    have hrule := h.2
    cases ph with
    | expr e => cases e <;> exact hrule
    | stmt s =>
      cases s with
      | var name initial => cases initial <;> exact hrule
      | branch c a b => cases b <;> exact hrule
      | ret line value => cases value <;> exact hrule
      | classDecl name superclass methods => cases superclass <;> exact hrule
      | _ => exact hrule

/-- What is inside of a renumbered phrase is renumbered. -/
theorem Inside.of_renumber {π ρ : Surroundings} {ph target : Phrase}
    (h : Inside π (ph.renumber f) ρ target) :
    ∃ original, target = original.renumber f ∧ Inside π ph ρ original := by
  generalize hph : ph.renumber f = phrase at h
  induction h generalizing ph with
  | self => exact ⟨ph, hph.symm, .self⟩
  | part hpart _ ih =>
    subst hph
    rw [Phrase.parts_renumber] at hpart
    obtain ⟨part, hmem, heq⟩ := List.mem_map.mp hpart
    cases heq
    obtain ⟨original, htarget, hinside⟩ := ih rfl
    exact ⟨original, htarget, .part hmem hinside⟩

theorem Clean.renumber {π : Surroundings} {ph : Phrase} (h : Clean π ph) :
    Clean π (ph.renumber f) := by
  intro ρ target hinside
  obtain ⟨original, rfl, horiginal⟩ := hinside.of_renumber
  exact obeys_renumber (h ρ original horiginal)

/-! ### Scans -/

/-- Tokens keep their distances in lines wherever the first line is. -/
theorem tokensFrom_add (line k : Int) (ps : List Piece) :
    tokensFrom (line + k) ps = (tokensFrom line ps).map (·.renumber (· + k)) := by
  induction ps generalizing line with
  | nil => rfl
  | cons p ps ih =>
    have hline : line + k + p.newlines = line + p.newlines + k := by omega
    unfold tokensFrom
    dsimp only
    rw [hline, ih]
    cases p.lexeme? <;> rfl

end Treewalk
