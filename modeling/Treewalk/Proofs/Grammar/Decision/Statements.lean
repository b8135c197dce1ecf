import Treewalk.Proofs.Grammar.Decision.Expressions

/-! # Deciding on statements and declarations

    As with expressions, a parser decides if those of what stands inside do.  What follows a
    statement may begin with an `else` only if that could as well belong to the statement:
    then the nearest `if` may take it. -/

namespace Treewalk

open Treewalk.Parser Ebnf Computability

section Statements

variable {k n : Nat} {K : Language Token}

/-- An `else` in front of a text of the language has a statement behind it, and then another
    text of the language. -/
def TakesElse (K : Language Token) : Prop :=
  ∀ t v, t.lexeme = .keyword .elseWord → t :: v ∈ K → v ∈ phrase .statement * K

/-- The parser of statements decides before everything that may follow one. -/
def StatementDecides (k n : Nat) : Prop :=
  ∀ K, TakesElse K → Decides k (statement false n) (phrase .statement) K

/-- The parser of declarations decides before everything that may follow one. -/
def DeclarationDecides (k n : Nat) : Prop :=
  ∀ K, TakesElse K → Decides k (declaration false n) (phrase .declaration) K

theorem DeclarationDecides.shrink {j : Nat} (h : DeclarationDecides k n) (hj : j ≤ k) :
    DeclarationDecides j n :=
  fun K hK => (h K hK).shrink hj

/-! ### Loops over what stands in braces -/

/-- The parser tells whether items of `A` end before a text of `K`. -/
structure Ends (ends : Parser Bool) (A K : Language Token) : Prop where
  looks : ∀ ts, ∃ b, (∀ rest errors, rest.head? = ts.head? →
    ends ⟨rest, errors⟩ = .ok b ⟨rest, errors⟩) ∧ if b then ∀ M, ts ∉ A * M else ts ∉ K

theorem Ends.appends {ends : Parser Bool} {A : Language Token} (h : Ends ends A K) :
    Appends ends := by
  refine .of_silent fun s => ?_
  obtain ⟨b, hb, -⟩ := h.looks s.rest
  exact ⟨b, s.rest, hb s.rest s.errors rfl⟩

/-- The items begin with a token, and not with a brace that closes something. -/
def ItemsStart (A : Language Token) : Prop :=
  ∀ M, ∀ ts ∈ A * M, ∃ t us, ts = t :: us ∧ t.lexeme ≠ .symbol .rightBrace

theorem ItemsStart.nil_not_mem {A : Language Token} (h : ItemsStart A) : [] ∉ A := by
  intro hnil
  obtain ⟨t, us, hts, -⟩ := h 1 [] (by rwa [mul_one])
  cases hts

theorem ends_atEnd {A : Language Token} (hA : ItemsStart A) : Ends atEnd A 1 where
  looks ts := by
    refine ⟨ts.isEmpty, fun rest errors hhead => ?_, ?_⟩
    · cases ts <;> cases rest <;> first | rfl | cases hhead
    · cases ts with
      | nil =>
        refine fun M h => ?_
        obtain ⟨t, us, hts, -⟩ := hA M [] h
        cases hts
      | cons t us => exact List.cons_ne_nil t us

theorem ends_blockEnds {A : Language Token} (hA : ItemsStart A) (hK : OpensWith .rightBrace K) :
    Ends blockEnds A K where
  looks ts := by
    refine ⟨ts.head?.all (·.isSymbol .rightBrace), fun rest errors hhead => ?_, ?_⟩
    · rw [← hhead]
      cases rest <;> rfl
    · cases ts with
      | nil =>
        refine fun M h => ?_
        obtain ⟨t, us, hts, -⟩ := hA M [] h
        cases hts
      | cons t us =>
        by_cases ht : t.lexeme = .symbol .rightBrace
        · rw [if_pos (by simpa [Token.isSymbol] using ht)]
          intro M h
          obtain ⟨_, _, ⟨⟩, hne⟩ := hA M _ h
          exact hne ht
        · rw [if_neg (by simpa [Token.isSymbol] using ht)]
          intro h
          obtain ⟨_, _, ⟨⟩, hbrace⟩ := hK _ h
          exact ht hbrace

/-- A round that looks whether there is another item, and then reads one. -/
theorem RoundAt.after_ends {α : Type} {ends : Parser Bool} {q : Parser (Option α)}
    {A : Language Token} {ts : List Token} (hends : Ends ends A K) (hq : GoesOn q)
    (hitem : DecidesAt k q A (A∗ * K) ts) :
    RoundAt k (ends >>= fun b => if b then pure none else q) A K ts := by
  obtain ⟨b, hlook, hb⟩ := hends.looks ts
  have hrun (rest : List Token) (errors : Array ParseError) (hhead : rest.head? = ts.head?) :
      (ends >>= fun b => if b then pure none else q) ⟨rest, errors⟩ =
        (if b then pure none else q : Parser (Option α)) ⟨rest, errors⟩ :=
    bind_of_ok (hlook rest errors hhead) _
  cases b with
  | true => exact .stops hrun (hb _)
  | false =>
    refine .goes (fun rest errors s' hhead => ?_) (hitem.same hrun) hb
    rw [hrun rest errors hhead]
    exact hq _ s'

theorem itemsStart_declaration : ItemsStart (phrase .declaration) := by
  intro M ts h
  obtain ⟨t, us, rfl, ht, -⟩ := begins_mul h
  exact ⟨t, us, rfl, ht⟩

theorem itemsStart_function : ItemsStart (phrase .function) := by
  intro M ts h
  obtain ⟨n, us, rfl⟩ := begins_mul h
  exact ⟨ident n, us, rfl, nofun⟩

/-- No declaration begins with an `else`. -/
theorem takesElse_declarations (hK : ∀ t v, t.lexeme = .keyword .elseWord → t :: v ∉ K) :
    TakesElse ((phrase .declaration)∗ * K) := by
  intro t v ht h
  rw [← Language.one_add_self_mul_kstar_eq_kstar, add_mul, one_mul, mul_assoc] at h
  rcases h with h | h
  · exact absurd h (hK t v ht)
  · obtain ⟨_, _, ⟨⟩, -, hne⟩ := begins_mul h
    exact absurd ht hne

theorem decides_nextItem (hd : DeclarationDecides k n)
    (hK : ∀ t v, t.lexeme = .keyword .elseWord → t :: v ∉ K) (statements : List SourceStmt) :
    Decides k (declaration false n >>= fun found => match found with
        | some s => pure (some (s :: statements))
        | none => pure (some statements)) (phrase .declaration) ((phrase .declaration)∗ * K) := by
  refine (hd _ (takesElse_declarations hK)).last fun found => ?_
  cases found <;> exact .pure _

theorem decides_declarations {ends : Parser Bool} (hsees : SeesEnd ends)
    (hends : Ends ends (phrase .declaration) K) (hd : DeclarationDecides k n)
    (hK : ∀ t v, t.lexeme = .keyword .elseWord → t :: v ∉ K) :
    Decides k (declarations ends (declaration false n)) (phrase .declaration)∗ K := by
  have hloop : Decides k (steps (nextDeclaration ends (declaration false n)) [])
      (phrase .declaration)∗ K := by
    refine .steps itemsStart_declaration.nil_not_mem (orderly_nextDeclaration false n hsees)
      (fun statements => ?_) (fun statements ts hlen => ?_) []
    · refine hends.appends.bind fun b => ?_
      cases b with
      | true => exact .pure
      | false => exact (decides_nextItem hd hK statements).appends
    · refine .after_ends hends (.bind fun found => ?_)
        ((decides_nextItem hd hK statements).on ts hlen)
      cases found <;> exact .pure _
  exact hloop.last fun statements => .pure _

theorem DeclarationDecides.block (h : DeclarationDecides k n) : BlockDecides k n := by
  intro K
  have hends := ends_blockEnds itemsStart_declaration (opensWith_mul .rightBrace K)
  unfold Parser.block
  refine (decides_declarations seesEnd_blockEnds hends h fun t v ht hmem => ?_).bind fun _ =>
    Decides.expect.last fun _ => .pure _
  rw [cons_mem_token_mul, ht] at hmem
  cases hmem.1

/-! ### Statements -/

/-- What a variable declaration is behind its keyword. -/
def varRest : Language Token :=
  Ebnf.name * (symbol .semicolon + symbol .equal * (phrase .expression * symbol .semicolon))

theorem phrase_varDecl : phrase .varDecl = keyword .varWord * varRest := by
  rw [phrase_eq, rule, varRest]
  simp only [mul_assoc, optional_mul]

theorem decides_varDeclaration (he : ExpressionDecides k n) :
    Decides k (varDeclaration (expression false n)) varRest K := by
  unfold varDeclaration
  refine .after_expectName fun name => .after_accept ?_ (fun _ => ?_) fun t v ht => ?_
  · exact Decides.expect.last fun _ => .pure _
  · refine (((he _ closes_semicolon).shrink (by omega)).map some).bind fun initial => ?_
    exact Decides.expect.last fun _ => .pure _
  · exact (opensWith_mul .semicolon K).not_mem ht nofun v

theorem phrase_exprStmt : phrase .exprStmt = phrase .expression * symbol .semicolon :=
  phrase_eq .exprStmt

theorem decides_expressionStatement (he : ExpressionDecides k n) :
    Decides k (expressionStatement false (expression false n)) (phrase .exprStmt) K := by
  have hend (e : SourceExpr) : Decides k
      (atEnd >>= fun ended => if (false && ended) = true then pure (.expression e) else
        expect .semicolon .expressionEnd >>= fun _ => pure (Stmt.expression e : SourceStmt))
      (symbol .semicolon) K :=
    show Decides k (expect .semicolon .expressionEnd >>= fun _ => pure (Stmt.expression e))
      (symbol .semicolon) K from Decides.expect.last fun _ => .pure _
  unfold expressionStatement
  rw [phrase_exprStmt]
  exact (he _ closes_semicolon).bind hend

theorem decides_forInitial (he : ExpressionDecides k n) :
    Decides k (forInitial false (expression false n))
      (phrase .varDecl + phrase .exprStmt + symbol .semicolon) K := by
  have hwords : phrase .varDecl + phrase .exprStmt + symbol .semicolon =
      phrase .exprStmt + keyword .varWord * varRest + symbol .semicolon * 1 := by
    rw [phrase_varDecl, mul_one, add_comm (keyword .varWord * varRest)]
  unfold forInitial
  rw [hwords]
  refine .after_accept (.after_acceptKeyword ?_ (fun _ => ?_) fun t v ht h => ?_) (fun _ => .pure _)
    fun t v ht h => ?_
  · exact (decides_expressionStatement he).map some
  · exact ((decides_varDeclaration he).shrink (by omega)).map some
  · exact (begins_mul h : StartsExpression (t :: v)).next_ne_keyword (.inl rfl) t v rfl ht
  · rw [add_mul, mul_assoc, Language.mem_add, cons_mem_token_mul, ht] at h
    rcases h with h | ⟨h, -⟩
    · exact (begins_mul h : StartsExpression (t :: v)).next_ne (.inr rfl) t v rfl ht
    · cases h

theorem decides_unlessNext {s : Symbol} (hs : s = .rightParen ∨ s = .semicolon)
    (he : ExpressionDecides k n) (hK : OpensWith s K) :
    Decides k (unlessNext s (expression false n)) (optional (phrase .expression)) K := by
  have hcloses : Closes K := hK.closes (hs.imp_right .inl)
  unfold unlessNext
  refine .after_nextIs (.pure _) ((he K hcloses).map some) (by rwa [one_mul]) fun t v ht h => ?_
  exact not_mem_expression_mul hs ht v h

/-- What a statement is behind the token that announces it. -/
def announced : StatementKind → Language Token
  | .forLoop =>
    symbol .leftParen * ((phrase .varDecl + phrase .exprStmt + symbol .semicolon) *
      (optional (phrase .expression) * (symbol .semicolon * (optional (phrase .expression) *
        (symbol .rightParen * phrase .statement)))))
  | .ifElse =>
    symbol .leftParen * (phrase .expression * (symbol .rightParen * (phrase .statement *
      optional (keyword .elseWord * phrase .statement))))
  | .print => phrase .expression * symbol .semicolon
  | .ret => optional (phrase .expression) * symbol .semicolon
  | .whileLoop =>
    symbol .leftParen * (phrase .expression * (symbol .rightParen * phrase .statement))
  | .block => (phrase .declaration)∗ * symbol .rightBrace

/-- A statement is an expression, or its first token announces what it is. -/
theorem mem_statement_mul {ts : List Token} :
    ts ∈ phrase .statement * K ↔ ts ∈ phrase .exprStmt * K ∨
      ∃ t v kind, ts = t :: v ∧ statementKind? t.lexeme = some kind ∧ v ∈ announced kind * K := by
  have hstatement : phrase .statement = phrase .exprStmt
      + keyword .forWord * announced .forLoop + keyword .ifWord * announced .ifElse
      + keyword .printWord * announced .print + keyword .returnWord * announced .ret
      + keyword .whileWord * announced .whileLoop + symbol .leftBrace * announced .block := by
    rw [phrase_eq, rule, phrase_block]
    simp only [announced, mul_assoc]
  simp only [hstatement, add_mul, mul_assoc, Language.mem_add, mem_token_mul, or_assoc]
  refine or_congr_right ⟨?_, ?_⟩
  · rintro (⟨t, v, hts, ht, hv⟩ | ⟨t, v, hts, ht, hv⟩ | ⟨t, v, hts, ht, hv⟩ |
      ⟨t, v, hts, ht, hv⟩ | ⟨t, v, hts, ht, hv⟩ | ⟨t, v, hts, ht, hv⟩)
    all_goals exact ⟨t, v, _, hts, congrArg statementKind? ht, hv⟩
  · rintro ⟨t, v, kind, hts, hkind, hv⟩
    unfold statementKind? at hkind
    split at hkind
    all_goals cases hkind
    all_goals simp [*]

theorem decides_forStatement (he : ExpressionDecides k n) (hs : StatementDecides k n)
    (hK : TakesElse K) :
    Decides k (forStatement false (expression false n) (statement false n))
      (announced .forLoop) K := by
  have he₁ := he.shrink (Nat.sub_le k 1)
  unfold forStatement
  refine .after_expect fun _ => (decides_forInitial he₁).bind fun initial => ?_
  refine (decides_unlessNext (.inr rfl) he₁ ?_).bind fun condition => .after_expect fun _ => ?_
  · rw [mul_assoc]
    exact opensWith_mul _ _
  have he₂ := he₁.shrink (Nat.sub_le (k - 1) 1)
  refine (decides_unlessNext (.inl rfl) he₂ ?_).bind fun step => .after_expect fun _ => ?_
  · rw [mul_assoc]
    exact opensWith_mul _ _
  exact ((hs K hK).shrink (by omega)).last fun body => .pure _

/-- What may follow a statement may also follow one that could have an `else` behind it. -/
theorem TakesElse.optional (hK : TakesElse K) :
    TakesElse (optional (keyword .elseWord * phrase .statement) * K) := by
  intro t v ht h
  rw [optional_mul, mul_assoc] at h ⊢
  rw [Language.mem_add, cons_mem_token_mul] at h
  have hle : phrase .statement * K ≤
      phrase .statement * (K + keyword .elseWord * (phrase .statement * K)) :=
    mul_le_mul_right le_self_add _
  rcases h with h | ⟨-, h⟩
  · exact hle (hK t v ht h)
  · exact hle h

theorem decides_ifStatement (he : ExpressionDecides k n) (hs : StatementDecides k n)
    (hK : TakesElse K) :
    Decides k (ifStatement (expression false n) (statement false n)) (announced .ifElse) K := by
  have he₁ := he.shrink (Nat.sub_le k 1)
  unfold ifStatement
  refine .after_expect fun _ => (he₁ _ ?_).bind fun condition => .after_expect fun _ => ?_
  · rw [mul_assoc]
    exact closes_rightParen
  refine ((hs _ hK.optional).shrink (by omega)).bind fun onTrue => ?_
  refine .after_optional (takes_acceptKeyword .elseWord) (.pure _) (fun _ => ?_) fun t v ht h => ?_
  · exact (((hs K hK).shrink (by omega)).map some).last fun onFalse => .pure _
  · rw [one_mul] at h
    exact hK t v ht h

theorem decides_printStatement (he : ExpressionDecides k n) :
    Decides k (printStatement (expression false n)) (announced .print) K := by
  unfold printStatement
  exact (he _ closes_semicolon).bind fun e => Decides.expect.last fun _ => .pure _

theorem decides_returnStatement (line : Int) (he : ExpressionDecides k n) :
    Decides k (returnStatement line (expression false n)) (announced .ret) K := by
  unfold returnStatement
  exact (decides_unlessNext (.inr rfl) he (opensWith_mul _ K)).bind fun value =>
    Decides.expect.last fun _ => .pure _

theorem decides_whileStatement (he : ExpressionDecides k n) (hs : StatementDecides k n)
    (hK : TakesElse K) :
    Decides k (whileStatement (expression false n) (statement false n))
      (announced .whileLoop) K := by
  have he₁ := he.shrink (Nat.sub_le k 1)
  unfold whileStatement
  refine .after_expect fun _ => (he₁ _ ?_).bind fun condition => .after_expect fun _ => ?_
  · rw [mul_assoc]
    exact closes_rightParen
  exact ((hs K hK).shrink (by omega)).last fun body => .pure _

theorem decides_statementWith (he : ExpressionDecides k n) (hs : StatementDecides (k - 1) n)
    (hd : DeclarationDecides (k - 1) n) (hK : TakesElse K) :
    Decides k (statementWith false (expression false n) (statement false n) (declaration false n))
      (phrase .statement) K := by
  have he₁ := he.shrink (Nat.sub_le k 1)
  have hexpr : Decides k (expressionStatement false (expression false n)) (phrase .exprStmt) K :=
    decides_expressionStatement he
  have hmem (ts : List Token) : ts ∈ phrase .statement ↔ ts ∈ phrase .exprStmt ∨
      ∃ t v kind, ts = t :: v ∧ statementKind? t.lexeme = some kind ∧ v ∈ announced kind := by
    simpa only [mul_one] using mem_statement_mul (K := 1)
  unfold statementWith
  refine .after_taking (takes_acceptWith statementKind?) hexpr.appends
    (fun ts hlen hskip => ?_) fun t c hc => ?_
  · refine (hexpr.on ts hlen).branch (fun us hus => (hmem us).mpr (.inl hus)) fun h => ?_
    refine (mem_statement_mul.mp h).resolve_right ?_
    rintro ⟨t, v, kind, rfl, hkind, -⟩
    simp [hkind] at hskip
  · obtain ⟨kind, hkind, rfl⟩ := Option.map_eq_some_iff.mp hc
    refine ⟨announced kind, ?_, fun v hv => ?_, fun v h => ?_⟩
    · cases kind with
      | forLoop => exact decides_forStatement he₁ hs hK
      | ifElse => exact decides_ifStatement he₁ hs hK
      | print => exact decides_printStatement he₁
      | ret => exact decides_returnStatement t.line he₁
      | whileLoop => exact decides_whileStatement he₁ hs hK
      | block => exact (hd.block K).map Stmt.block
    · exact (hmem _).mpr (.inr ⟨t, v, kind, rfl, hkind, hv⟩)
    · rcases mem_statement_mul.mp h with h | ⟨_, _, kind', ⟨⟩, hkind', h⟩
      · have hnone : statementKind? t.lexeme = none :=
          (begins_mul h : StartsExpression (t :: v)).next_statementKind? t v rfl
        rw [hkind] at hnone
        cases hnone
      · rw [hkind] at hkind'
        cases hkind'
        exact h

/-! ### Functions and classes -/

/-- What a function is behind its name. -/
def signatureAndBody : Language Token :=
  symbol .leftParen * (optional (separated Ebnf.name) * (symbol .rightParen * (symbol .leftBrace *
    ((phrase .declaration)∗ * symbol .rightBrace))))

theorem phrase_function : phrase .function = Ebnf.name * signatureAndBody := by
  rw [phrase_eq, rule, phrase_block, signatureAndBody]
  simp only [mul_assoc]

instance : HasWord signatureAndBody := by
  unfold signatureAndBody
  infer_instance

theorem decides_functionDeclaration (role : Role) (hd : DeclarationDecides k n) :
    Decides k (functionDeclaration role (declaration false n)) (phrase .function) K := by
  unfold functionDeclaration
  rw [phrase_function]
  refine .after_expectName fun name => ?_
  exact (decides_paramsAndBody role ((hd.block K).shrink (by omega))).last fun _ => .pure _

theorem decides_methods (hd : DeclarationDecides k n) (hK : OpensWith .rightBrace K) :
    Decides k (steps (nextMethod (declaration false n)) []) (phrase .function)∗ K := by
  have hends := ends_blockEnds itemsStart_function hK
  have hitem (methods : List SourceFun) : Decides k
      (functionDeclaration .method (declaration false n) >>= fun method =>
        pure (some (method :: methods))) (phrase .function) ((phrase .function)∗ * K) :=
    (decides_functionDeclaration .method hd).last fun _ => .pure _
  refine .steps itemsStart_function.nil_not_mem (orderly_nextMethod false n)
    (fun methods => ?_) (fun methods ts hlen => ?_) []
  · refine hends.appends.bind fun b => ?_
    cases b with
    | true => exact .pure
    | false => exact (hitem methods).appends
  · exact .after_ends hends (.bind fun _ => .pure _) ((hitem methods).on ts hlen)

/-- What a class is behind its name and superclass. -/
def classBody : Language Token :=
  symbol .leftBrace * ((phrase .function)∗ * symbol .rightBrace)

instance : HasWord classBody := by
  unfold classBody
  infer_instance

/-- What a class is behind its keyword. -/
def classRest : Language Token :=
  Ebnf.name * (classBody + symbol .less * (Ebnf.name * classBody))

theorem decides_classDeclaration (hd : DeclarationDecides k n) :
    Decides k (classDeclaration (declaration false n)) classRest K := by
  have hbody (name : Name) (superclass : Option (Name × Unit)) : Decides k
      (do
        let _ ← expect .leftBrace .classBodyOpen
        let methods ← steps (nextMethod (declaration false n)) []
        let _ ← expect .rightBrace .classBodyClose
        pure (.classDecl name superclass methods.reverse : SourceStmt)) classBody K := by
    refine .after_expect fun _ => ?_
    exact (decides_methods (hd.shrink (Nat.sub_le k 1)) (opensWith_mul _ K)).bind fun methods =>
      Decides.expect.last fun _ => .pure _
  unfold classDeclaration
  refine .after_expectName fun name => .after_accept ?_ (fun _ => ?_) fun t v ht h => ?_
  · exact (hbody name none).shrink (by omega)
  · exact (Decides.expectName.map _).bind fun superclass =>
      (hbody name superclass).shrink (by omega)
  · rw [classBody, mul_assoc] at h
    exact (opensWith_mul .leftBrace _).not_mem ht nofun v h

/-! ### Declarations -/

/-- The keyword of a function with its name behind it. -/
def NamesFun (ts : List Token) : Prop :=
  ∃ t n us, ts = t :: ident n :: us ∧ t.lexeme = .keyword .funWord

theorem acceptNamedFun_of_namesFun {t : Token} {rest : List Token} (h : NamesFun (t :: rest))
    (errors : Array ParseError) :
    acceptNamedFun ⟨t :: rest, errors⟩ = .ok true ⟨rest, errors⟩ := by
  obtain ⟨t, n, us, ⟨⟩, ht⟩ := h
  simp [acceptNamedFun, Token.isKeyword, ht, nameOf?]

theorem acceptNamedFun_of_not {ts : List Token} (h : ¬ NamesFun ts) (errors : Array ParseError) :
    acceptNamedFun ⟨ts, errors⟩ = .ok false ⟨ts, errors⟩ := by
  match ts with
  | [] | [_] => rfl
  | t :: next :: rest =>
    have hno : (t.isKeyword .funWord && (nameOf? next).isSome) = false := by
      refine Bool.eq_false_iff.mpr fun hyes => h ?_
      obtain ⟨ht, hnext⟩ := Bool.and_eq_true_iff.mp hyes
      obtain ⟨n, hn⟩ := Option.isSome_iff_exists.mp hnext
      exact ⟨t, n, rest, by rw [nameOf?_eq hn], by simpa [Token.isKeyword] using ht⟩
    simp [acceptNamedFun, hno]

theorem appends_acceptNamedFun : Appends acceptNamedFun := by
  refine .of_silent fun s => ?_
  obtain ⟨ts, errors⟩ := s
  by_cases h : NamesFun ts
  · obtain ⟨t, n, us, rfl, ht⟩ := h
    exact ⟨true, _, acceptNamedFun_of_namesFun ⟨t, n, us, rfl, ht⟩ errors⟩
  · exact ⟨false, ts, acceptNamedFun_of_not h errors⟩

/-- A function is declared if a name follows its keyword; without a name it is something
    else, where the keyword is not what is given up at. -/
theorem Decides.after_acceptNamedFun {β : Type} {N M : Language Token} {f : Bool → Parser β}
    (htrue : Decides (k - 1) (f true) N K) (hfalse : Decides k (f false) M K)
    (hN : ∀ ts ∈ N * K, ∃ n us, ts = ident n :: us) (hM : ∀ ts ∈ M * K, ¬ NamesFun ts)
    (hnil : [] ∉ M)
    (hfun : ∀ t, t.lexeme = .keyword .funWord → 1 < k → ¬ GivesUp k (f false) [] (some t)) :
    Decides k (acceptNamedFun >>= f) (keyword .funWord * N + M) K where
  appends := by
    refine appends_acceptNamedFun.bind fun b => ?_
    cases b with
    | true => exact htrue.appends
    | false => exact hfalse.appends
  on ts hlen := by
    have hword (ts : List Token) : ts ∈ (keyword .funWord * N + M) * K ↔
        ts ∈ keyword .funWord * (N * K) ∨ ts ∈ M * K := by
      rw [add_mul, mul_assoc, Language.mem_add]
    by_cases hnamed : NamesFun ts
    · obtain ⟨t, n, us, rfl, ht⟩ := id hnamed
      rw [List.length_cons] at hlen
      refine .take (M := N) (fun rest errors hhead => bind_of_ok ?_ f)
        (fun v hv => .inl (cons_mem_token_mul.mpr ⟨ht, hv⟩)) (fun h => ?_) (htrue.on _ (by omega))
      · obtain ⟨rest, rfl⟩ := List.head?_eq_some_iff.mp hhead
        exact acceptNamedFun_of_namesFun ⟨t, n, rest, rfl, ht⟩ errors
      · exact (cons_mem_token_mul.mp (((hword _).mp h).resolve_right fun h => hM _ h hnamed)).2
    · have hother : DecidesAt k (acceptNamedFun >>= f) M K ts := by
        have hrun (rest : List Token) (errors : Array ParseError) (hrest : ¬ NamesFun rest) :
            (acceptNamedFun >>= f) ⟨rest, errors⟩ = f false ⟨rest, errors⟩ :=
          bind_of_ok (acceptNamedFun_of_not hrest errors) f
        by_cases hhere : ∃ t us, ts = t :: us ∧ t.lexeme = .keyword .funWord
        · obtain ⟨t, us, rfl, ht⟩ := hhere
          rw [List.length_cons] at hlen
          refine .same_behind (fun rest errors hhead => hrun _ errors ?_) hnil
            (hfun t ht (by omega)) (hfalse.on _ hlen)
          rintro ⟨_, n, vs, ⟨⟩, -⟩
          obtain ⟨us, rfl⟩ := List.head?_eq_some_iff.mp hhead.symm
          exact hnamed ⟨t, n, us, rfl, ht⟩
        · refine (hfalse.on ts hlen).same fun rest errors hhead => hrun rest errors ?_
          rintro ⟨t, n, us, rfl, ht⟩
          obtain ⟨us, rfl⟩ := List.head?_eq_some_iff.mp hhead.symm
          exact hhere ⟨t, us, rfl, ht⟩
      refine hother.branch le_add_self fun h => ((hword ts).mp h).resolve_left fun h => ?_
      obtain ⟨t, v, rfl, ht, hv⟩ := mem_token_mul.mp h
      obtain ⟨n, us, rfl⟩ := hN v hv
      exact hnamed ⟨t, n, us, rfl, ht⟩

/-- Before the keyword of a function alone, a parenthesis is missed behind it. -/
theorem statement_misses_paren {t : Token} (ht : t.lexeme = .keyword .funWord) :
    statement false (n + 2) ⟨[t], #[]⟩ =
      .error .failed ⟨[], #[⟨.missing (.parametersOpen .lambda), none⟩]⟩ := by
  obtain ⟨x, l⟩ := t
  cases ht
  rfl

/-- A parser that misses something behind a token does not give up at the token. -/
theorem not_givesUp {α : Type} {p : Parser α} {t : Token} {e : ParseError} (hk : 1 < k)
    (hrun : errorsOf (p ⟨[t], #[]⟩) = #[e]) (he : e.site = none) : ¬ GivesUp k p [] (some t) := by
  rintro ⟨noted, what, -, hgivesUp⟩
  obtain ⟨more, hmore⟩ := hgivesUp [t] #[] rfl hk
  have hmem : (⟨.missing what, some t⟩ : ParseError) ∈ #[e] := by
    rw [← hrun, ← List.nil_append [t], hmore]
    simp
  rw [← Array.mem_singleton.mp hmem] at he
  cases he

theorem phrase_declaration : phrase .declaration =
    keyword .funWord * phrase .function + (phrase .statement + keyword .varWord * varRest)
      + keyword .classWord * classRest := by
  rw [phrase_eq, rule, phrase_varDecl, classRest, classBody]
  simp only [mul_assoc]
  simp only [mul_assoc, optional_mul]
  rw [add_comm (phrase .statement), add_comm _ (keyword .classWord * _), ← add_assoc, ← add_assoc]

theorem StartsStatement.not_namesFun {ts : List Token} (h : StartsStatement ts) :
    ¬ NamesFun ts := by
  rintro ⟨t, n, us, rfl, ht⟩
  have hskips := h.declares_nothing.2.2 #[]
  rw [List.nil_append, acceptNamedFun_of_namesFun ⟨t, n, us, rfl, ht⟩] at hskips
  cases hskips

theorem decides_declarationWith (hn : 1 < k → 2 ≤ n) (he : ExpressionDecides k n)
    (hs : StatementDecides k n) (hd : DeclarationDecides (k - 1) n) (hK : TakesElse K) :
    Decides k (declarationWith (expression false n) (statement false n) (declaration false n))
      (phrase .declaration) K := by
  have hmem (ts : List Token) : ts ∈ (phrase .statement + keyword .varWord * varRest) * K ↔
      ts ∈ phrase .statement * K ∨ ts ∈ keyword .varWord * (varRest * K) := by
    rw [add_mul, mul_assoc, Language.mem_add]
  unfold declarationWith
  rw [phrase_declaration]
  refine .after_acceptKeyword (.after_acceptNamedFun ?_ (.after_acceptKeyword (hs K hK)
    (fun _ => ?_) fun t v ht h => ?_) (fun ts => begins_mul) (fun ts h => ?_) ?_ ?_)
    (fun _ => decides_classDeclaration hd) fun t v ht h => ?_
  · exact (decides_functionDeclaration .function hd).map Stmt.function
  · exact decides_varDeclaration (he.shrink (Nat.sub_le k 1))
  · exact (begins_mul h : StartsStatement (t :: v)).declares_nothing.2.1 t v rfl ht
  · rcases (hmem ts).mp h with h | h
    · exact (begins_mul h : StartsStatement ts).not_namesFun
    · rintro ⟨t, n, us, rfl, ht⟩
      rw [cons_mem_token_mul, ht] at h
      cases h.1
  · rintro (h | h)
    · obtain ⟨_, _, ⟨⟩, -⟩ := (begins h : StartsStatement []).startsDeclaration
    · exact nil_not_mem_token_mul h
  · intro t ht hk
    obtain ⟨m, rfl⟩ := Nat.exists_eq_add_of_le' (hn hk)
    have hskips : acceptKeyword .varWord ⟨[t], #[]⟩ = .ok none ⟨[t], #[]⟩ := by
      simp [acceptKeyword, Token.isKeyword, ht]
    refine not_givesUp (e := ⟨.missing (.parametersOpen .lambda), none⟩) hk ?_ rfl
    rw [if_neg Bool.false_ne_true, bind_of_ok hskips]
    exact congrArg errorsOf (statement_misses_paren ht)
  · rw [add_mul, mul_assoc, Language.mem_add, cons_mem_token_mul, hmem, cons_mem_token_mul, ht] at h
    rcases h with ⟨h, -⟩ | h | ⟨h, -⟩
    · cases h
    · exact (begins_mul h : StartsStatement (t :: v)).declares_nothing.1 t v rfl ht
    · cases h

end Statements

end Treewalk
