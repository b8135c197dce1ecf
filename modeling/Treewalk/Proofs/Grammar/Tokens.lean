import Treewalk.Proofs.Grammar.Acceptance

/-! # The tokens behind a tree

    A tree keeps the line of every token that a message may name: operators, names,
    keywords, and the parenthesis that closes a call.  `Expr.tokens` and its kin write
    these tokens back.  The tokens of a tree that is parsed are tokens of the text, and
    so are those at which the parser reports errors. -/

namespace Treewalk

variable {ρ : Type}

/-! ### Trees -/

mutual

/-- The tokens of an expression. -/
def Expr.tokens : Expr ρ → List Token
  | .literal _ => []
  | .group e => e.tokens
  | .unary op line e => sym op.symbol line :: e.tokens
  | .binary op line l r => sym op.symbol line :: (l.tokens ++ r.tokens)
  | .logical op line l r => word op.keyword line :: (l.tokens ++ r.tokens)
  | .variable name _ => [ident name]
  | .assign name _ e => ident name :: e.tokens
  | .call f args line => sym .rightParen line :: (f.tokens ++ tokensOfExprs args)
  | .get o name => ident name :: o.tokens
  | .set o name e => ident name :: (o.tokens ++ e.tokens)
  | .this line _ => [word .thisWord line]
  | .super line _ method => [word .superWord line, ident method]
  | .lambda line params body => word .funWord line :: (params.map ident ++ tokensOfStmts body)

/-- The tokens of some expressions. -/
def tokensOfExprs : List (Expr ρ) → List Token
  | [] => []
  | e :: es => e.tokens ++ tokensOfExprs es

/-- The tokens of a statement. -/
def Stmt.tokens : Stmt ρ → List Token
  | .expression e | .print e => e.tokens
  | .var name none => [ident name]
  | .var name (some e) => ident name :: e.tokens
  | .block body => tokensOfStmts body
  | .branch c a none => c.tokens ++ a.tokens
  | .branch c a (some b) => c.tokens ++ (a.tokens ++ b.tokens)
  | .loop c body => c.tokens ++ body.tokens
  | .function decl => decl.tokens
  | .ret line none => [word .returnWord line]
  | .ret line (some e) => word .returnWord line :: e.tokens
  | .classDecl name none methods => ident name :: tokensOfFuns methods
  | .classDecl name (some (superName, _)) methods =>
    ident name :: ident superName :: tokensOfFuns methods

/-- The tokens of some statements. -/
def tokensOfStmts : List (Stmt ρ) → List Token
  | [] => []
  | s :: ss => s.tokens ++ tokensOfStmts ss

/-- The tokens of a function or method. -/
def FunDecl.tokens : FunDecl ρ → List Token
  | .mk name params body => ident name :: (params.map ident ++ tokensOfStmts body)

/-- The tokens of some functions. -/
def tokensOfFuns : List (FunDecl ρ) → List Token
  | [] => []
  | m :: ms => m.tokens ++ tokensOfFuns ms

end

@[simp] theorem tokensOfExprs_eq_flatMap (es : List (Expr ρ)) :
    tokensOfExprs es = es.flatMap Expr.tokens := by
  induction es with
  | nil => rfl
  | cons e es ih => simp [tokensOfExprs, ih]

@[simp] theorem tokensOfStmts_eq_flatMap (ss : List (Stmt ρ)) :
    tokensOfStmts ss = ss.flatMap Stmt.tokens := by
  induction ss with
  | nil => rfl
  | cons s ss ih => simp [tokensOfStmts, ih]

@[simp] theorem tokensOfFuns_eq_flatMap (ms : List (FunDecl ρ)) :
    tokensOfFuns ms = ms.flatMap FunDecl.tokens := by
  induction ms with
  | nil => rfl
  | cons m ms ih => simp [tokensOfFuns, ih]

/-- A `for` statement keeps the tokens of its clauses and of its body. -/
theorem Stmt.mem_tokens_forLoop {initial : Option (Stmt ρ)} {c step : Option (Expr ρ)}
    {body : Stmt ρ} {t : Token} : t ∈ (Stmt.forLoop initial c step body).tokens ↔
      t ∈ initial.toList.flatMap (·.tokens) ∨ t ∈ c.toList.flatMap (·.tokens) ∨
        t ∈ step.toList.flatMap (·.tokens) ∨ t ∈ body.tokens := by
  cases initial <;> cases c <;> cases step <;>
    simp [Stmt.forLoop, Stmt.tokens, Expr.tokens, or_comm]

/-! ### Derivations -/

/-- The tokens that the tree of a phrase keeps. -/
def Category.tokens : (c : Category) → c.Tree → List Token
  | .primary, e | .call, e | .unary, e | .level _, e | .operand _, e | .expression, e =>
    Expr.tokens e
  | .optional, e => e.toList.flatMap Expr.tokens
  | .arguments, es | .argumentList, es => es.flatMap Expr.tokens
  | .params, ns | .paramList, ns => ns.map ident
  | .signature, (ns, ss) => ns.map ident ++ ss.flatMap Stmt.tokens
  | .block, ss | .declarations, ss => ss.flatMap Stmt.tokens
  | .function, m => FunDecl.tokens m
  | .methods, ms => ms.flatMap FunDecl.tokens
  | .exprStmt, s | .varDecl, s | .statement _, s | .declaration, s => Stmt.tokens s
  | .forInitial, s => s.toList.flatMap Stmt.tokens

/-- An operator of a level is written with its symbol or keyword. -/
theorem mem_tokens_join {l : Parser.Level} {x : Lexeme} {op : Parser.Operator}
    (hop : l.operator? x = some op) {line : Int} {a b : SourceExpr} {t : Token} :
    t ∈ (op.join line a b).tokens ↔ t = ⟨x, line⟩ ∨ t ∈ a.tokens ∨ t ∈ b.tokens := by
  unfold Parser.Level.operator? at hop
  split at hop <;> cases hop <;>
    simp [Parser.Operator.join, Expr.tokens, BinaryOp.symbol, LogicalOp.keyword]

/-- What holds of all tokens of a phrase holds of those that its tree keeps. -/
theorem Derives.forall_tokens {nearest bare : Bool} {c : Category} {ts : List Token} {t : c.Tree}
    (h : Derives nearest bare c ts t) {T : Token → Prop} (hT : ∀ x ∈ ts, T x) :
    ∀ x ∈ c.tokens t, T x := by
  induction h with
  | callee _ ih | unaryOperand _ ih | operandTighter _ _ ih | operandUnary _ _ ih | operand _ ih
  | operation _ ih | someArguments _ _ ih | someParams _ _ ih | bareStmt _ _ ih | evaluate _ ih
  | statement _ ih | declareVar _ ih => exact ih hT
  | operator _ hop _ iha ihb =>
    simp only [List.forall_mem_append, List.forall_mem_cons] at hT
    intro x hx
    rcases (mem_tokens_join hop).mp hx with rfl | hx | hx
    · exact hT.2.1
    · exact iha hT.1 x hx
    · exact ihb hT.2.2 x hx
  | forLoop _ _ _ _ ihi ihc ihs ihb =>
    simp only [List.forall_mem_append, List.forall_mem_cons] at hT
    obtain ⟨-, -, hinitial, hcondition, -, hstep, -, hbody⟩ := hT
    intro x hx
    rcases Stmt.mem_tokens_forLoop.mp hx with hx | hx | hx | hx
    · exact ihi hinitial x hx
    · exact ihc hcondition x hx
    · exact ihs hstep x hx
    · exact ihb hbody x hx
  | @ret _ _ _ e _ ih => cases e <;> simp_all [Category.tokens, Stmt.tokens]
  | _ =>
    -- a tree keeps some tokens of its rule, and what the phrases in the rule keep
    simp_all only [Category.tokens, Expr.tokens, Stmt.tokens, FunDecl.tokens,
      tokensOfExprs_eq_flatMap, tokensOfStmts_eq_flatMap, tokensOfFuns_eq_flatMap,
      List.forall_mem_cons, List.forall_mem_append, List.flatMap_append, List.flatMap_cons,
      List.flatMap_nil, List.map_append, List.map_cons, List.map_nil, List.append_nil,
      Option.toList_some, Option.toList_none, forall_const, and_true, implies_true]

/-- The statements that are parsed without errors keep tokens of the text. -/
theorem tokens_subset_of_parse {interactive : Bool} {tokens : List Token}
    (h : (parse interactive tokens).errors = []) :
    tokensOfStmts (parse interactive tokens).statements ⊆ tokens := by
  rw [tokensOfStmts_eq_flatMap]
  exact (derives_of_parse h).forall_tokens fun _ => id

/-! ### Errors -/

/-- The parser reports errors at tokens of the text, or at its end. -/
theorem site_mem_of_parse {interactive : Bool} {tokens : List Token} {e : ParseError}
    (he : e ∈ (parse interactive tokens).errors) {t : Token} (ht : e.site = some t) :
    t ∈ tokens := by
  have halike := alikeDeclarations_self interactive (Parser.nestingBound tokens.length)
    (· ∈ tokens) (tokens.length + 1)
  have hstart : ParseState.Within (· ∈ tokens) ⟨tokens, #[]⟩ :=
    ⟨fun _ => id, fun e he => absurd he (Array.not_mem_empty e)⟩
  have hadv := (going_declarations seesEnd_atEnd halike _ hstart (Nat.lt_succ_self _)).2
  rw [run_parse] at hadv
  exact hadv.1.sites e (List.mem_toArray.mpr he) t ht

end Treewalk
