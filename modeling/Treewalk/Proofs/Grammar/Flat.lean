import Treewalk.Proofs.Grammar.Progress

/-! # Expressions without function bodies

    As long as a parser of expressions opens no function body it reads no semicolon, and it
    records nothing but errors that it notes in passing, at a token it reads or at the next
    one.  If it fails it has recorded one more, what is missing at the next token: only such
    an error makes a parser stop. -/

namespace Treewalk

open Treewalk.Parser

/-! ### Errors -/

/-- The issue makes the parser give a statement up. -/
def ParseIssue.unwinds : ParseIssue → Bool
  | .missing _ => true
  | _ => false

/-- The error makes the parser give a statement up. -/
def ParseError.unwinds (e : ParseError) : Bool := e.issue.unwinds

/-- The errors were noted in passing, each at a token with the property or at the next
    token. -/
def Noted (T : Token → Prop) (next : Option Token) (errors : List ParseError) : Prop :=
  ∀ e ∈ errors, e.unwinds = false ∧ (e.site = next ∨ ∃ t, T t ∧ e.site = some t)

/-! ### Reading -/

/-- There is no semicolon among the tokens. -/
def NoSemicolon (ts : List Token) : Prop := ∀ t ∈ ts, t.lexeme ≠ .symbol .semicolon

/-- The tokens open a function body before there is a semicolon. -/
def OpensBody (ts : List Token) : Prop :=
  ∃ us l vs, ts = us ++ sym .leftBrace l :: vs ∧ NoSemicolon us

/-- Tokens are read from `s` to `s'`.  Unless they open a function body, there is no
    semicolon among them, and the errors recorded are some that were noted in passing, at
    these tokens or those with the property `T`, and then those in `last`. -/
def ReadsFlat (T : Token → Prop) (s s' : ParseState) (last : List ParseError) : Prop :=
  ∃ us, s.rest = us ++ s'.rest ∧ (OpensBody us ∨ NoSemicolon us ∧
    ∃ noted, Noted (fun t => T t ∨ t ∈ us) s'.rest.head? noted ∧
      s'.errors.toList = s.errors.toList ++ (noted ++ last))

/-- The outcome of a parser that started in `s`. -/
def Flat.Outcome {α : Type} (T : Token → Prop) (s : ParseState) :
    EStateM.Result Failure ParseState α → Prop
  | .ok _ s' => ReadsFlat T s s' []
  | .error _ s' => ∃ what, ReadsFlat T s s' [⟨.missing what, s'.rest.head?⟩]

/-- The parser reads on without semicolons, up to a function body. -/
def Flat {α : Type} (T : Token → Prop) (p : Parser α) : Prop :=
  ∀ s, Flat.Outcome T s (p s)

section Reading

variable {T : Token → Prop} {us vs : List Token} {s s₁ s₂ : ParseState} {last : List ParseError}

theorem OpensBody.append (h : OpensBody us) (vs : List Token) : OpensBody (us ++ vs) := by
  obtain ⟨before, l, after, rfl, hbefore⟩ := h
  exact ⟨before, l, after ++ vs, by simp, hbefore⟩

theorem OpensBody.behind (h : OpensBody vs) (hus : NoSemicolon us) : OpensBody (us ++ vs) := by
  obtain ⟨before, l, after, rfl, hbefore⟩ := h
  exact ⟨us ++ before, l, after, by simp, List.forall_mem_append.mpr ⟨hus, hbefore⟩⟩

theorem NoSemicolon.nil : NoSemicolon [] := List.forall_mem_nil _

theorem Noted.nil {next : Option Token} : Noted T next [] := List.forall_mem_nil _

/-- What was the next token is read now, or is still the next one. -/
theorem Noted.behind {rest : List Token} {errors : List ParseError}
    (h : Noted (fun t => T t ∨ t ∈ us) (vs ++ rest).head? errors) :
    Noted (fun t => T t ∨ t ∈ us ++ vs) rest.head? errors := by
  intro e he
  obtain ⟨hpassing, hsite⟩ := h e he
  refine ⟨hpassing, ?_⟩
  rcases hsite with hsite | ⟨t, ht, hsite⟩
  · cases vs with
    | nil => exact .inl hsite
    | cons v vs => exact .inr ⟨v, .inr (by simp), hsite⟩
  · exact .inr ⟨t, ht.imp_right (List.mem_append_left vs), hsite⟩

theorem Noted.mono {T' : Token → Prop} {next : Option Token} {errors : List ParseError}
    (h : Noted T next errors) (hT : ∀ t, T t → T' t) : Noted T' next errors := by
  intro e he
  obtain ⟨hpassing, hsite⟩ := h e he
  exact ⟨hpassing, hsite.imp_right fun ⟨t, ht, hsite⟩ => ⟨t, hT t ht, hsite⟩⟩

/-- Two readings, one behind the other. -/
theorem ReadsFlat.trans (h₁ : ReadsFlat T s s₁ []) (h₂ : ReadsFlat T s₁ s₂ last) :
    ReadsFlat T s s₂ last := by
  obtain ⟨us, hus, h₁⟩ := h₁
  obtain ⟨vs, hvs, h₂⟩ := h₂
  refine ⟨us ++ vs, by rw [hus, hvs, List.append_assoc], ?_⟩
  obtain hopens | ⟨hsemicolon, noted, hnoted, herrors⟩ := h₁
  · exact .inl (hopens.append vs)
  obtain hopens | ⟨hsemicolon', noted', hnoted', herrors'⟩ := h₂
  · exact .inl (hopens.behind hsemicolon)
  refine .inr ⟨List.forall_mem_append.mpr ⟨hsemicolon, hsemicolon'⟩, noted ++ noted', ?_, ?_⟩
  · rw [hvs] at hnoted
    have hlater := hnoted'.mono fun t ht => ht.imp_right (List.mem_append_right us)
    exact List.forall_mem_append.mpr ⟨hnoted.behind, hlater⟩
  · rw [herrors', herrors]
    simp

/-- Nothing is read, and nothing recorded. -/
theorem ReadsFlat.refl (T : Token → Prop) (s : ParseState) : ReadsFlat T s s [] :=
  ⟨[], rfl, .inr ⟨.nil, [], .nil, by simp⟩⟩

/-- A token is read that may stand in the further errors. -/
theorem ReadsFlat.cons {t : Token} {rest : List Token} (ht : t.lexeme ≠ .symbol .semicolon)
    (hrest : s.rest = t :: rest)
    (h : ReadsFlat (fun x => T x ∨ x = t) { s with rest } s₂ last) : ReadsFlat T s s₂ last := by
  obtain ⟨us, hus, h⟩ := h
  refine ⟨t :: us, by rw [hrest, List.cons_append, ← hus], ?_⟩
  have hone : NoSemicolon [t] := List.forall_mem_singleton.mpr ht
  obtain hopens | ⟨hsemicolon, noted, hnoted, herrors⟩ := h
  · exact .inl (hopens.behind hone)
  · refine .inr ⟨List.forall_mem_append.mpr ⟨hone, hsemicolon⟩, noted, ?_, herrors⟩
    exact hnoted.mono fun x hx => by simpa [or_assoc] using hx

end Reading

namespace Flat

variable {α β : Type} {T : Token → Prop} {p : Parser α} {f : α → Parser β}

theorem pure {a : α} : Flat T (pure a) :=
  fun s => .refl T s

theorem miss (what : Expectation) : Flat T (miss what : Parser α) :=
  fun s => ⟨what, [], rfl, .inr ⟨.nil, [], .nil, by simp⟩⟩

/-- A first part that reads flatly. -/
theorem outcome_after {s s₁ : ParseState} {out : EStateM.Result Failure ParseState β}
    (h : ReadsFlat T s s₁ []) (hout : Outcome T s₁ out) : Outcome T s out := by
  cases out with
  | ok b s₂ => exact h.trans hout
  | error e s₂ =>
    obtain ⟨what, hlast⟩ := hout
    exact ⟨what, h.trans hlast⟩

theorem bind (hp : Flat T p) (hf : ∀ a, Flat T (f a)) : Flat T (p >>= f) := by
  intro s
  have h := hp s
  cases hps : p s with
  | error e s₁ =>
    rw [hps] at h
    rw [bind_of_error hps]
    exact h
  | ok a s₁ =>
    rw [hps] at h
    rw [bind_of_ok hps]
    exact outcome_after h (hf a s₁)

theorem after_look (hp : Looks p) (hf : ∀ a, Flat T (f a)) : Flat T (p >>= f) := by
  intro s
  obtain ⟨a, ha⟩ := hp s
  rw [bind_of_ok ha]
  exact hf a s

/-! ### Elementary parsers -/

/-- A token behind which the parser goes on flatly. -/
theorem outcome_cons {s : ParseState} {t : Token} {rest : List Token} {q : Parser α}
    (ht : t.lexeme ≠ .symbol .semicolon) (hrest : s.rest = t :: rest)
    (hq : Flat (fun x => T x ∨ x = t) q) : Outcome T s (q { s with rest }) := by
  have h := hq { s with rest }
  cases hqs : q { s with rest } with
  | ok a s₂ =>
    rw [hqs] at h
    exact ReadsFlat.cons ht hrest h
  | error e s₂ =>
    rw [hqs] at h
    obtain ⟨what, hlast⟩ := h
    exact ⟨what, hlast.cons ht hrest⟩

/-- A parser that takes the next token or nothing, followed by another. -/
theorem after_taking (h : ∀ s, (∃ a, p s = .ok a s ∧ Flat T (f a)) ∨
      ∃ a t rest, s.rest = t :: rest ∧ p s = .ok a { s with rest } ∧
        t.lexeme ≠ .symbol .semicolon ∧ Flat (fun x => T x ∨ x = t) (f a)) :
    Flat T (p >>= f) := by
  intro s
  rcases h s with ⟨a, hrun, hf⟩ | ⟨a, t, rest, hrest, hrun, ht, hf⟩
  · rw [bind_of_ok hrun]
    exact hf s
  · rw [bind_of_ok hrun]
    exact outcome_cons ht hrest hf

theorem after_acceptWith {γ : Type} {g : Lexeme → Option γ} {f : Option (γ × Token) → Parser β}
    (hsemicolon : g (.symbol .semicolon) = none) (hnone : Flat T (f none))
    (hsome : ∀ c t, Flat (fun x => T x ∨ x = t) (f (some (c, t)))) :
    Flat T (acceptWith g >>= f) := by
  refine after_taking fun s => ?_
  cases hrest : s.rest with
  | nil => exact .inl ⟨none, by simp [acceptWith, hrest], hnone⟩
  | cons t rest =>
    cases hg : g t.lexeme with
    | none => exact .inl ⟨none, by simp [acceptWith, hrest, hg], hnone⟩
    | some c =>
      have ht : t.lexeme ≠ .symbol .semicolon := by
        intro ht
        rw [ht, hsemicolon] at hg
        cases hg
      exact .inr ⟨_, t, rest, rfl, by simp [acceptWith, hrest, hg], ht, hsome c t⟩

theorem after_accept {symbol : Symbol} {f : Option Token → Parser β} (hs : symbol ≠ .semicolon)
    (hnone : Flat T (f none)) (hsome : ∀ t, Flat (fun x => T x ∨ x = t) (f (some t))) :
    Flat T (accept symbol >>= f) := by
  refine after_taking fun s => ?_
  cases hrest : s.rest with
  | nil => exact .inl ⟨none, by simp [accept, hrest], hnone⟩
  | cons t rest =>
    cases ht : t.isSymbol symbol with
    | false => exact .inl ⟨none, by simp [accept, hrest, ht], hnone⟩
    | true =>
      have hlexeme : t.lexeme ≠ .symbol .semicolon := by
        rw [Token.eq_sym ht]
        exact fun h => hs (Lexeme.symbol.inj h)
      exact .inr ⟨_, t, rest, rfl, by simp [accept, hrest, ht], hlexeme, hsome t⟩

theorem after_expect {symbol : Symbol} {what : Expectation} {f : Token → Parser β}
    (hs : symbol ≠ .semicolon) (hf : ∀ t, Flat T (f t)) :
    Flat T (expect symbol what >>= f) := by
  have hexpect : Flat T (expect symbol what) := after_accept hs (.miss what) fun _ => .pure
  exact hexpect.bind hf

theorem lexeme_ne_of_nameOf? {t : Token} {n : Name} (h : nameOf? t = some n) :
    t.lexeme ≠ .symbol .semicolon := by
  rw [nameOf?_eq h]
  exact nofun

theorem expectName (what : Expectation) : Flat T (expectName what) := by
  intro s
  have hmiss (h : Parser.expectName what s = Parser.miss what s) :
      Outcome T s (Parser.expectName what s) := by
    rw [h]
    exact Flat.miss what s
  cases hrest : s.rest with
  | nil => exact hmiss (by simp [Parser.expectName, hrest])
  | cons t rest =>
    cases hn : nameOf? t with
    | none => exact hmiss (by simp [Parser.expectName, hrest, hn])
    | some n =>
      have hrun : Parser.expectName what s = .ok n { s with rest := rest } := by
        simp [Parser.expectName, hrest, hn]
      rw [hrun]
      exact ReadsFlat.cons (lexeme_ne_of_nameOf? hn) hrest (.refl _ _)

/-- An issue is reported at the next token, and does not make the parser fail. -/
theorem after_reportNext {issue : ParseIssue} {q : Parser β} (hissue : issue.unwinds = false)
    (hq : Flat T q) : Flat T (peek >>= fun site => report issue site >>= fun _ => q) := by
  have hreport : Flat T (peek >>= report issue) := by
    intro s
    refine ⟨[], rfl, .inr ⟨.nil, [⟨issue, s.rest.head?⟩], ?_, by simp⟩⟩
    exact List.forall_mem_singleton.mpr ⟨hissue, .inl rfl⟩
  rw [← bind_assoc]
  exact hreport.bind fun _ => hq

/-- An issue that is reported at a token read before. -/
theorem reportAt {issue : ParseIssue} (hissue : issue.unwinds = false) {t : Token} (ht : T t) :
    Flat T (report issue (some t)) := by
  intro s
  refine ⟨[], rfl, .inr ⟨.nil, [⟨issue, some t⟩], ?_, by simp⟩⟩
  exact List.forall_mem_singleton.mpr ⟨hissue, .inr ⟨t, .inl ht, rfl⟩⟩

/-- Behind the brace that opens a body everything is allowed. -/
theorem outcome_opens {s : ParseState} {l : Int} {rest : List Token} {q : Parser α}
    (hrest : s.rest = sym .leftBrace l :: rest) (hq : ∀ k, Going (fun _ => True) k q q) :
    Outcome T s (q { s with rest }) := by
  have hopens (ts : List Token) : OpensBody (sym .leftBrace l :: ts) := ⟨[], l, ts, rfl, .nil⟩
  have hadv := (hq (rest.length + 1) _ (ParseState.within_all { s with rest })
    (Nat.lt_succ_self _)).2
  cases hqs : q { s with rest } with
  | ok a s₂ =>
    rw [hqs] at hadv
    obtain ⟨-, ts, hts, -⟩ := hadv
    exact ⟨sym .leftBrace l :: ts, by rw [hrest, List.cons_append, ← hts], .inl (hopens ts)⟩
  | error e s₂ =>
    rw [hqs] at hadv
    obtain ⟨-, ts, hts⟩ := hadv
    exact ⟨.expression, sym .leftBrace l :: ts, by rw [hrest, List.cons_append, ← hts],
      .inl (hopens ts)⟩

theorem after_leftBrace {what : Expectation} {f : Token → Parser β}
    (hf : ∀ t k, Going (fun _ => True) k (f t) (f t)) :
    Flat T (Parser.expect .leftBrace what >>= f) := by
  intro s
  have hmiss (h : Parser.expect .leftBrace what s = Parser.miss what s) :
      Outcome T s ((Parser.expect .leftBrace what >>= f) s) := by
    rw [bind_of_error h]
    exact Flat.miss (α := β) what s
  cases hrest : s.rest with
  | nil =>
    have hskips : accept .leftBrace s = .ok none s := by simp [accept, hrest]
    exact hmiss (bind_of_ok hskips _)
  | cons t rest =>
    cases ht : t.isSymbol .leftBrace with
    | false =>
      have hskips : accept .leftBrace s = .ok none s := by simp [accept, hrest, ht]
      exact hmiss (bind_of_ok hskips _)
    | true =>
      have hrun : Parser.expect .leftBrace what s = .ok t { s with rest } := by
        refine bind_of_ok (a := some t) ?_ _
        simp [accept, hrest, ht]
      rw [bind_of_ok hrun]
      rw [Token.eq_sym ht] at hrest
      exact outcome_opens hrest (hf t)

/-! ### Repetition -/

theorem stepsUpTo {step : α → Parser (Option α)} (h : ∀ a, Flat T (step a)) (n : Nat) (a : α) :
    Flat T (stepsUpTo step n a) := by
  induction n generalizing a with
  | zero => exact .pure
  | succ n ih =>
    refine (h a).bind fun next => ?_
    cases next with
    | none => exact .pure
    | some b => exact ih b

theorem steps {step : α → Parser (Option α)} (h : ∀ a, Flat T (step a)) (a : α) :
    Flat T (steps step a) := by
  refine (h a).bind fun next => ?_
  cases next with
  | none => exact .pure
  | some b => exact .after_look looks_remaining fun n => stepsUpTo h n b

end Flat

/-! ### Expressions -/

section Expressions

variable {T : Token → Prop} {expression operand : Parser SourceExpr}
  {block : Parser (List SourceStmt)}

theorem flat_nextParam (names : List Name) : Flat T (nextParam names) := by
  unfold nextParam
  refine .after_accept nofun .pure fun _ => ?_
  by_cases hmax : maxArguments ≤ names.length
  · rw [if_pos hmax]
    exact .after_reportNext rfl <| (Flat.expectName _).bind fun _ => .pure
  · rw [if_neg hmax]
    exact (Flat.expectName _).bind fun _ => .pure

theorem flat_params : Flat T params := by
  unfold params
  refine .after_look (looks_nextIs _) fun closed => ?_
  cases closed with
  | true => exact .pure
  | false =>
    refine (Flat.expectName _).bind fun first => ?_
    exact (Flat.steps flat_nextParam _).bind fun _ => .pure

theorem flat_paramsAndBody (role : Role) (hblock : ∀ k, Going (fun _ => True) k block block) :
    Flat T (paramsAndBody role block) := by
  unfold paramsAndBody
  refine .after_expect nofun fun _ => flat_params.bind fun names => ?_
  refine .after_expect nofun fun _ => .after_leftBrace fun _ k => ?_
  exact (hblock k).going_bind fun _ => .pure id

theorem flat_primary (he : ∀ T, Flat T expression)
    (hblock : ∀ k, Going (fun _ => True) k block block) : Flat T (primary expression block) := by
  unfold primary
  refine .after_acceptWith rfl (.miss _) fun opening t => ?_
  cases opening with
  | constant value => exact .pure
  | super => exact .after_expect nofun fun _ => (Flat.expectName _).bind fun _ => .pure
  | this => exact .pure
  | name text => exact .pure
  | lambda => exact (flat_paramsAndBody _ hblock).bind fun _ => .pure
  | group => exact (he _).bind fun _ => .after_expect nofun fun _ => .pure

theorem flat_nextArgument (he : ∀ T, Flat T expression) (args : List SourceExpr) :
    Flat T (nextArgument expression args) := by
  unfold nextArgument
  refine .after_accept nofun .pure fun _ => ?_
  by_cases hmax : maxArguments ≤ args.length
  · rw [if_pos hmax]
    exact .after_reportNext rfl <| (he _).bind fun _ => .pure
  · rw [if_neg hmax]
    exact (he _).bind fun _ => .pure

theorem flat_arguments (he : ∀ T, Flat T expression) : Flat T (arguments expression) := by
  unfold arguments
  refine .after_look (looks_nextIs _) fun closed => ?_
  cases closed with
  | true => exact .pure
  | false =>
    exact (he _).bind fun first => (Flat.steps (flat_nextArgument he) _).bind fun _ => .pure

theorem flat_nextCall (he : ∀ T, Flat T expression) (e : SourceExpr) :
    Flat T (nextCall expression e) := by
  unfold nextCall
  refine .after_accept nofun (.after_accept nofun .pure fun _ => ?_) fun _ => ?_
  · exact (Flat.expectName _).bind fun _ => .pure
  · exact (flat_arguments he).bind fun _ => .after_expect nofun fun _ => .pure

theorem flat_call (he : ∀ T, Flat T expression)
    (hblock : ∀ k, Going (fun _ => True) k block block) : Flat T (call expression block) := by
  unfold call
  exact (flat_primary he hblock).bind fun e => Flat.steps (flat_nextCall he) e

theorem flat_unary (h : ∀ T, Flat T operand) : Flat T (unary operand) := by
  have hround (ops : List (UnaryOp × Int)) : Flat T (nextUnary ops) :=
    .after_acceptWith rfl .pure fun _ _ => .pure
  unfold unary
  exact (Flat.steps hround []).bind fun ops => (h _).bind fun _ => .pure

theorem flat_chain (level : Level) (h : ∀ T, Flat T operand) : Flat T (chain level operand) := by
  have hsemicolon : level.operator? (.symbol .semicolon) = none := by cases level <;> rfl
  have hround (left : SourceExpr) : Flat T (nextOperand level operand left) :=
    .after_acceptWith hsemicolon .pure fun _ _ => (h _).bind fun _ => .pure
  unfold chain
  exact (h _).bind fun left => Flat.steps hround left

theorem flat_assignment (he : ∀ T, Flat T expression)
    (hblock : ∀ k, Going (fun _ => True) k block block) :
    Flat T (assignment expression block) := by
  have hoperation (T : Token → Prop) : Flat T (operation expression block) :=
    flat_chain _ fun _ => flat_chain _ fun _ => flat_chain _ fun _ => flat_chain _ fun _ =>
      flat_chain _ fun _ => flat_chain _ fun _ => flat_unary fun _ => flat_call he hblock
  unfold assignment
  refine (hoperation T).bind fun target => .after_accept nofun .pure fun equals => ?_
  refine (he _).bind fun value => ?_
  cases assignment? target value with
  | some e => exact .pure
  | none => exact (Flat.reportAt rfl (.inr rfl)).bind fun _ => .pure

theorem flat_expression (n : Nat) : Flat T (Parser.expression false n) := by
  induction n generalizing T with
  | zero => exact .miss _
  | succ n ih =>
    have hblock (k : Nat) : Going (fun _ => True) k (block (declaration false n))
        (block (declaration false n)) := going_block (alikeDeclarations_self false n _ k)
    unfold Parser.expression
    exact flat_assignment (fun _ => ih) hblock

end Expressions

end Treewalk
