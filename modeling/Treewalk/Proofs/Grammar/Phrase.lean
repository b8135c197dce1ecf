import Treewalk.Proofs.Grammar.Derivation

/-! # Phrases

    Facts about derivations alone: how the phrases of a category begin, and that
    an `else` can always be given to the nearest `if`, so that this reading
    rejects no program. -/

namespace Treewalk

open Treewalk.Parser

variable {nearest bare : Bool}

/-! ### How phrases begin -/

/-- The tokens begin as a primary expression does.  Behind the keyword of a
    function without a name stands a parenthesis. -/
def Opens (ts : List Token) : Prop :=
  ∃ t us, ts = t :: us ∧ (opening? t.lexeme).isSome ∧
    (t.lexeme = .keyword .funWord → ∃ l vs, us = sym .leftParen l :: vs)

/-- The tokens begin as an expression does. -/
def StartsExpression (ts : List Token) : Prop :=
  Opens ts ∨ ∃ op l us, ts = sym (UnaryOp.symbol op) l :: us

/-- The tokens begin as a statement does. -/
def StartsStatement (ts : List Token) : Prop :=
  StartsExpression ts ∨ ∃ t us, ts = t :: us ∧ (statementKind? t.lexeme).isSome

/-- The next token neither closes a block nor continues an `if`. -/
def StartsDeclaration (ts : List Token) : Prop :=
  ∃ t us, ts = t :: us ∧ t.lexeme ≠ .symbol .rightBrace ∧ t.lexeme ≠ .keyword .elseWord

/-- How the phrases of a category begin. -/
def Category.Begins : Category → List Token → Prop
  | .primary, ts | .call, ts => Opens ts
  | .unary, ts | .level _, ts | .operand _, ts | .expression, ts | .arguments, ts
  | .exprStmt, ts => StartsExpression ts
  | .signature, ts => ∃ l us, ts = sym .leftParen l :: us
  | .block, ts => ∃ l us, ts = sym .leftBrace l :: us
  | .function, ts | .params, ts => ∃ n us, ts = ident n :: us
  | .varDecl, ts => ∃ l us, ts = word .varWord l :: us
  | .statement _, ts => StartsStatement ts
  | .declaration, ts => StartsDeclaration ts
  | .optional, _ | .argumentList, _ | .paramList, _ | .methods, _ | .forInitial, _
  | .declarations, _ => True

theorem Opens.append {ts : List Token} (h : Opens ts) (vs : List Token) : Opens (ts ++ vs) := by
  obtain ⟨t, us, rfl, hopen, hfun⟩ := h
  refine ⟨t, us ++ vs, rfl, hopen, fun ht => ?_⟩
  obtain ⟨l, ws, rfl⟩ := hfun ht
  exact ⟨l, ws ++ vs, rfl⟩

theorem StartsExpression.append {ts : List Token} (h : StartsExpression ts) (vs : List Token) :
    StartsExpression (ts ++ vs) := by
  rcases h with h | ⟨op, l, us, rfl⟩
  · exact .inl (h.append vs)
  · exact .inr ⟨op, l, us ++ vs, rfl⟩

theorem StartsStatement.append {ts : List Token} (h : StartsStatement ts) (vs : List Token) :
    StartsStatement (ts ++ vs) := by
  rcases h with h | ⟨t, us, rfl, hkind⟩
  · exact .inl (h.append vs)
  · exact .inr ⟨t, us ++ vs, rfl, hkind⟩

/-- A token that opens a primary expression by itself, whatever follows it. -/
theorem opens_of_lexeme {t : Token} {us : List Token} (h : (opening? t.lexeme).isSome)
    (hfun : t.lexeme ≠ .keyword .funWord) : Opens (t :: us) :=
  ⟨t, us, rfl, h, fun ht => absurd ht hfun⟩

theorem isSome_opening?_of_literal? {x : Lexeme} {v : Literal} (h : x.literal? = some v) :
    (opening? x).isSome ∧ x ≠ .keyword .funWord := by
  cases x with
  | string quote content => exact ⟨rfl, nofun⟩
  | number whole fraction => exact ⟨rfl, nofun⟩
  | symbol s => cases h
  | keyword k => cases h
  | identifier name => cases h

theorem StartsStatement.startsDeclaration {ts : List Token} (h : StartsStatement ts) :
    StartsDeclaration ts := by
  rcases h with (⟨t, us, rfl, hopen, -⟩ | ⟨op, l, us, rfl⟩) | ⟨t, us, rfl, hkind⟩
  · refine ⟨t, us, rfl, ?_, ?_⟩
    · intro ht
      rw [ht] at hopen
      cases hopen
    · intro ht
      rw [ht] at hopen
      cases hopen
  · refine ⟨_, us, rfl, ?_, nofun⟩
    cases op <;> exact nofun
  · refine ⟨t, us, rfl, ?_, ?_⟩
    · intro ht
      rw [ht] at hkind
      cases hkind
    · intro ht
      rw [ht] at hkind
      cases hkind

theorem Derives.begins {c : Category} {ts : List Token} {t : c.Tree}
    (h : Derives nearest bare c ts t) : c.Begins ts := by
  induction h with
  -- primary expressions
  | falseWord | trueWord | nilWord | this | name => exact opens_of_lexeme rfl nofun
  | super | group => exact opens_of_lexeme rfl nofun
  | literal hv =>
    obtain ⟨hopen, hfun⟩ := isSome_opening?_of_literal? hv
    exact opens_of_lexeme hopen hfun
  | lambda _ ih =>
    -- the one keyword that needs a look at the token behind it
    exact ⟨_, _, rfl, rfl, fun _ => ih⟩
  -- expressions
  | callee _ ih => exact ih
  | call _ _ ih | property _ ih => exact Opens.append ih _
  | unaryOperand _ ih => exact .inl ih
  | unary => exact .inr ⟨_, _, _, rfl⟩
  | operandTighter _ _ ih | operandUnary _ _ ih | operand _ ih | operation _ ih
  | oneArgument _ ih => exact ih
  | operator _ _ _ ih | moreArguments _ _ ih => exact StartsExpression.append ih _
  | assign => exact .inl (opens_of_lexeme rfl nofun)
  | setProperty _ _ ih => exact .inl (Opens.append ih _)
  -- functions and blocks
  | oneParam | function | signature | block | var | varInit => exact ⟨_, _, rfl⟩
  | moreParams _ ih =>
    obtain ⟨n, us, rfl⟩ := ih
    exact ⟨n, _, rfl⟩
  -- statements
  | exprStmt _ ih => exact StartsExpression.append ih _
  | bareStmt _ _ ih => exact ih
  | evaluate _ ih => exact .inl ih
  | print | ret | loop | ifOnly | ifElse | forLoop => exact .inr ⟨_, _, rfl, rfl⟩
  | nested _ ih =>
    obtain ⟨l, us, rfl⟩ := ih
    exact .inr ⟨_, us, rfl, rfl⟩
  -- declarations
  | statement _ ih => exact StartsStatement.startsDeclaration ih
  | declareVar _ ih =>
    obtain ⟨l, us, rfl⟩ := ih
    exact ⟨_, us, rfl, nofun, nofun⟩
  | declareFun | declareClass | declareSubclass => exact ⟨_, _, rfl, nofun, nofun⟩
  | _ => exact True.intro

theorem StartsDeclaration.ne_nil {ts : List Token} (h : StartsDeclaration ts) : ts ≠ [] := by
  obtain ⟨t, us, rfl, -⟩ := h
  exact List.cons_ne_nil _ _

/-! ### The nearest `if` -/

/-- The tokens are a statement in which every `else` belongs to the nearest `if`. -/
def IsNearestStatement (bare : Bool) (ts : List Token) : Prop :=
  ∃ d s, Derives true bare (.statement d) ts s

/-- A statement that ends in an `if` without `else` can be followed by one: it
    goes to the innermost such `if`. -/
theorem Derives.attachElse {c : Category} {ts : List Token} {t : c.Tree}
    (h : Derives true bare c ts t) (hc : c = .statement true) (l : Int) {vs : List Token}
    (hvs : IsNearestStatement bare vs) :
    IsNearestStatement bare (ts ++ word .elseWord l :: vs) := by
  -- only statements that end in another statement can end in an open `if`
  induction h with
  | loop hcond _ _ ih =>
    obtain ⟨d, s, hs⟩ := ih hc
    simp only [List.cons_append, List.append_assoc]
    exact ⟨d, _, .loop hcond hs⟩
  | @ifOnly d _ _ _ _ _ _ _ hcond ha _ ih =>
    simp only [List.cons_append, List.append_assoc]
    cases d with
    | false =>
      -- this `if` is the innermost open one
      obtain ⟨d', b, hb⟩ := hvs
      exact ⟨d', _, .ifElse (fun _ => rfl) hcond ha hb⟩
    | true =>
      obtain ⟨d', s, hs⟩ := ih rfl
      exact ⟨true, _, .ifOnly hcond hs⟩
  | ifElse hd hcond ha _ _ _ ih =>
    obtain ⟨d', s, hs⟩ := ih hc
    simp only [List.cons_append, List.append_assoc]
    exact ⟨d', _, .ifElse hd hcond ha hs⟩
  | forLoop hinitial hcond hstep _ _ _ _ ih =>
    obtain ⟨d', s, hs⟩ := ih hc
    simp only [List.cons_append, List.append_assoc]
    exact ⟨d', _, .forLoop hinitial hcond hstep hs⟩
  | _ => cases hc

/-- The tokens are a phrase of the category in which every `else` belongs to the
    nearest `if`.  A list keeps its length. -/
def IsNearest (bare : Bool) : (c : Category) → List Token → c.Tree → Prop
  | .statement _, ts, _ => IsNearestStatement bare ts
  | .arguments, ts, es => ∃ es', Derives true bare .arguments ts es' ∧ es'.length = es.length
  | .params, ts, ns => ∃ ns', Derives true bare .params ts ns' ∧ ns'.length = ns.length
  | c, ts, _ => ∃ t', Derives true bare c ts t'

/-- Whatever `if` a derivation gives an `else` to, there is also a derivation
    that gives it to the nearest one. -/
theorem Derives.isNearest {c : Category} {ts : List Token} {t : c.Tree}
    (h : Derives nearest bare c ts t) : IsNearest bare c ts t := by
  induction h with
  -- primary expressions
  | falseWord => exact ⟨_, .falseWord⟩
  | trueWord => exact ⟨_, .trueWord⟩
  | nilWord => exact ⟨_, .nilWord⟩
  | literal hv => exact ⟨_, .literal hv⟩
  | this => exact ⟨_, .this⟩
  | name => exact ⟨_, .name⟩
  | super => exact ⟨_, .super⟩
  | group _ ih =>
    obtain ⟨e, he⟩ := ih
    exact ⟨_, .group he⟩
  | lambda _ ih =>
    obtain ⟨signature, hs⟩ := ih
    exact ⟨_, .lambda hs⟩
  -- expressions
  | callee _ ih =>
    obtain ⟨e, he⟩ := ih
    exact ⟨_, .callee he⟩
  | call _ _ ihf ihargs =>
    obtain ⟨f, hf⟩ := ihf
    obtain ⟨args, hargs⟩ := ihargs
    exact ⟨_, .call hf hargs⟩
  | property _ ih =>
    obtain ⟨o, ho⟩ := ih
    exact ⟨_, .property ho⟩
  | unaryOperand _ ih =>
    obtain ⟨e, he⟩ := ih
    exact ⟨_, .unaryOperand he⟩
  | unary _ ih =>
    obtain ⟨e, he⟩ := ih
    exact ⟨_, .unary he⟩
  | operandTighter hl _ ih =>
    obtain ⟨e, he⟩ := ih
    exact ⟨_, .operandTighter hl he⟩
  | operandUnary hl _ ih =>
    obtain ⟨e, he⟩ := ih
    exact ⟨_, .operandUnary hl he⟩
  | operand _ ih =>
    obtain ⟨e, he⟩ := ih
    exact ⟨_, .operand he⟩
  | operator _ hop _ iha ihb =>
    obtain ⟨a, ha⟩ := iha
    obtain ⟨b, hb⟩ := ihb
    exact ⟨_, .operator ha hop hb⟩
  | operation _ ih =>
    obtain ⟨e, he⟩ := ih
    exact ⟨_, .operation he⟩
  | assign _ ih =>
    obtain ⟨e, he⟩ := ih
    exact ⟨_, .assign he⟩
  | setProperty _ _ iho ihe =>
    obtain ⟨o, ho⟩ := iho
    obtain ⟨e, he⟩ := ihe
    exact ⟨_, .setProperty ho he⟩
  | absent => exact ⟨_, .absent⟩
  | present _ ih =>
    obtain ⟨e, he⟩ := ih
    exact ⟨_, .present he⟩
  -- lists
  | oneArgument _ ih =>
    obtain ⟨e, he⟩ := ih
    exact ⟨_, .oneArgument he, rfl⟩
  | moreArguments _ _ ihes ihe =>
    obtain ⟨es, hes, hlen⟩ := ihes
    obtain ⟨e, he⟩ := ihe
    exact ⟨_, .moreArguments hes he, by simp [hlen]⟩
  | noArguments => exact ⟨_, .noArguments⟩
  | someArguments _ hmax ih =>
    -- function expressions among the arguments may change, their number does not
    obtain ⟨es, hes, hlen⟩ := ih
    exact ⟨_, .someArguments hes (hlen ▸ hmax)⟩
  | oneParam => exact ⟨_, .oneParam, rfl⟩
  | moreParams _ ih =>
    obtain ⟨ns, hns, hlen⟩ := ih
    exact ⟨_, .moreParams hns, by simp [hlen]⟩
  | noParams => exact ⟨_, .noParams⟩
  | someParams _ hmax ih =>
    obtain ⟨ns, hns, hlen⟩ := ih
    exact ⟨_, .someParams hns (hlen ▸ hmax)⟩
  -- functions and blocks
  | signature _ _ ihnames ihbody =>
    obtain ⟨names, hnames⟩ := ihnames
    obtain ⟨body, hbody⟩ := ihbody
    exact ⟨_, .signature hnames hbody⟩
  | block _ ih =>
    obtain ⟨ss, hss⟩ := ih
    exact ⟨_, .block hss⟩
  | function _ ih =>
    obtain ⟨signature, hs⟩ := ih
    exact ⟨_, .function hs⟩
  | noMethods => exact ⟨_, .noMethods⟩
  | moreMethods _ _ ihms ihm =>
    obtain ⟨ms, hms⟩ := ihms
    obtain ⟨m, hm⟩ := ihm
    exact ⟨_, .moreMethods hms hm⟩
  -- statements
  | exprStmt _ ih =>
    obtain ⟨e, he⟩ := ih
    exact ⟨_, .exprStmt he⟩
  | bareStmt hbare _ ih =>
    obtain ⟨e, he⟩ := ih
    exact ⟨_, .bareStmt hbare he⟩
  | evaluate _ ih =>
    obtain ⟨s, hs⟩ := ih
    exact ⟨_, _, .evaluate hs⟩
  | print _ ih =>
    obtain ⟨e, he⟩ := ih
    exact ⟨_, _, .print he⟩
  | ret _ ih =>
    obtain ⟨e, he⟩ := ih
    exact ⟨_, _, .ret he⟩
  | nested _ ih =>
    obtain ⟨ss, hss⟩ := ih
    exact ⟨_, _, .nested hss⟩
  | loop _ _ ihc ihs =>
    obtain ⟨c, hc⟩ := ihc
    obtain ⟨d, s, hs⟩ := ihs
    exact ⟨_, _, .loop hc hs⟩
  | ifOnly _ _ ihc iha =>
    obtain ⟨c, hc⟩ := ihc
    obtain ⟨d, a, ha⟩ := iha
    exact ⟨_, _, .ifOnly hc ha⟩
  | ifElse _ _ _ _ ihc iha ihb =>
    obtain ⟨c, hc⟩ := ihc
    obtain ⟨d, a, ha⟩ := iha
    obtain ⟨d', b, hb⟩ := ihb
    cases d with
    | false => exact ⟨_, _, .ifElse (fun _ => rfl) hc ha hb⟩
    | true =>
      -- the `else` moves into the branch that stands before it
      obtain ⟨d'', s, hs⟩ := ha.attachElse rfl _ ⟨d', b, hb⟩
      exact ⟨_, _, .ifOnly hc hs⟩
  | noInitial => exact ⟨_, .noInitial⟩
  | varInitial _ ih =>
    obtain ⟨s, hs⟩ := ih
    exact ⟨_, .varInitial hs⟩
  | exprInitial _ ih =>
    obtain ⟨s, hs⟩ := ih
    exact ⟨_, .exprInitial hs⟩
  | forLoop _ _ _ _ ihinitial ihc ihstep ihs =>
    obtain ⟨initial, hinitial⟩ := ihinitial
    obtain ⟨c, hc⟩ := ihc
    obtain ⟨step, hstep⟩ := ihstep
    obtain ⟨d, s, hs⟩ := ihs
    exact ⟨_, _, .forLoop hinitial hc hstep hs⟩
  -- declarations
  | var => exact ⟨_, .var⟩
  | varInit _ ih =>
    obtain ⟨e, he⟩ := ih
    exact ⟨_, .varInit he⟩
  | statement _ ih =>
    obtain ⟨d, s, hs⟩ := ih
    exact ⟨_, .statement hs⟩
  | declareVar _ ih =>
    obtain ⟨s, hs⟩ := ih
    exact ⟨_, .declareVar hs⟩
  | declareFun _ ih =>
    obtain ⟨f, hf⟩ := ih
    exact ⟨_, .declareFun hf⟩
  | declareClass _ ih =>
    obtain ⟨ms, hms⟩ := ih
    exact ⟨_, .declareClass hms⟩
  | declareSubclass _ ih =>
    obtain ⟨ms, hms⟩ := ih
    exact ⟨_, .declareSubclass hms⟩
  | noDeclarations => exact ⟨_, .noDeclarations⟩
  | moreDeclarations _ _ ihss ihs =>
    obtain ⟨ss, hss⟩ := ihss
    obtain ⟨s, hs⟩ := ihs
    exact ⟨_, .moreDeclarations hss hs⟩

end Treewalk
