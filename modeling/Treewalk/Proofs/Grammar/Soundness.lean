import Treewalk.Proofs.Grammar.Derivation
import Treewalk.Proofs.Sequencing

/-! # What the parser reads derives

    `Reads p post` says what a parser `p` does when it records no error: it
    reads a phrase from the front of the tokens, and `post` holds of the phrase
    and of what it yields.  Errors are only ever added, and a parser that fails
    has added one, so a run that ends without errors has met none on the way. -/

namespace Treewalk

open Treewalk.Parser

/-! ### Reading a phrase -/

/-- The outcome of a parser that started in `s`. -/
def Reads.Outcome {α : Type} (post : List Token → α → Prop) (s : ParseState) :
    EStateM.Result Failure ParseState α → Prop
  | .ok a s' =>
    s.errors.size ≤ s'.errors.size ∧
      (s'.errors.size = s.errors.size → ∃ ts, s.rest = ts ++ s'.rest ∧ post ts a)
  | .error _ s' => s.errors.size < s'.errors.size

/-- Unless it records an error, the parser reads a phrase with this property. -/
def Reads {α : Type} (p : Parser α) (post : List Token → α → Prop) : Prop :=
  ∀ s, Reads.Outcome post s (p s)

namespace Reads

variable {α β : Type} {p : Parser α} {post : List Token → α → Prop}

theorem pure {a : α} (h : post [] a) : Reads (pure a) post :=
  fun _ => ⟨Nat.le_refl _, fun _ => ⟨[], rfl, h⟩⟩

/-- A parser followed by another: what the first one read stands before what
    the second one reads. -/
theorem bind {f : α → Parser β} {post' : List Token → β → Prop} (hp : Reads p post)
    (hf : ∀ a, Reads (f a) (fun vs b => ∀ us, post us a → post' (us ++ vs) b)) :
    Reads (p >>= f) post' := by
  intro s
  have h₁ := hp s
  cases hps : p s with
  | error e s₁ =>
    rw [hps] at h₁
    rw [bind_of_error hps]
    exact h₁
  | ok a s₁ =>
    rw [hps] at h₁
    rw [bind_of_ok hps]
    have h₂ := hf a s₁
    cases hfs : f a s₁ with
    | error e s₂ =>
      rw [hfs] at h₂
      exact Nat.lt_of_le_of_lt h₁.1 h₂
    | ok b s₂ =>
      rw [hfs] at h₂
      refine ⟨Nat.le_trans h₁.1 h₂.1, fun hsize => ?_⟩
      -- errors are only added, so a run without new ones met none in either half
      have hle₁ := h₁.1
      have hle₂ := h₂.1
      obtain ⟨us, hus, hpost⟩ := h₁.2 (by omega)
      obtain ⟨vs, hvs, hpost'⟩ := h₂.2 (by omega)
      exact ⟨us ++ vs, by rw [hus, hvs, List.append_assoc], hpost' us hpost⟩

theorem mono {post₂ : List Token → α → Prop} (hp : Reads p post)
    (h : ∀ ts a, post ts a → post₂ ts a) : Reads p post₂ := by
  intro s
  have h₁ := hp s
  cases hps : p s with
  | error e s₁ =>
    rw [hps] at h₁
    exact h₁
  | ok a s₁ =>
    rw [hps] at h₁
    refine ⟨h₁.1, fun hsize => ?_⟩
    obtain ⟨ts, hts, hpost⟩ := h₁.2 hsize
    exact ⟨ts, hts, h ts a hpost⟩

theorem map (f : α → β) (hp : Reads p post) :
    Reads (f <$> p) (fun ts b => ∃ a, b = f a ∧ post ts a) := by
  intro s
  have h₁ := hp s
  cases hps : p s with
  | error e s₁ =>
    rw [hps] at h₁
    rw [map_of_error hps]
    exact h₁
  | ok a s₁ =>
    rw [hps] at h₁
    rw [map_of_ok hps]
    refine ⟨h₁.1, fun hsize => ?_⟩
    obtain ⟨ts, hts, hpost⟩ := h₁.2 hsize
    exact ⟨ts, hts, a, rfl, hpost⟩

theorem phrase {a : α} {s s' : ParseState} (hp : Reads p post) (h : p s = .ok a s')
    (hsize : s'.errors.size = s.errors.size) : ∃ ts, s.rest = ts ++ s'.rest ∧ post ts a := by
  have houtcome := hp s
  rw [h] at houtcome
  exact houtcome.2 hsize

/-- Tokens taken off the front stand before what is read afterwards. -/
theorem outcome_after {us rest : List Token} {s : ParseState} {q : Parser α}
    (hrest : s.rest = us ++ rest) (hq : Reads q (fun vs a => post (us ++ vs) a)) :
    Outcome post s (q { s with rest := rest }) := by
  have h := hq { s with rest := rest }
  cases hqs : q { s with rest := rest } with
  | error e s₁ =>
    rw [hqs] at h
    exact h
  | ok a s₁ =>
    rw [hqs] at h
    refine ⟨h.1, fun hsize => ?_⟩
    obtain ⟨vs, hvs, hpost⟩ := h.2 hsize
    refine ⟨us ++ vs, ?_, hpost⟩
    have hvs : rest = vs ++ s₁.rest := hvs
    rw [hrest, hvs, List.append_assoc]

end Reads

/-! ### Elementary parsers -/

theorem reads_miss {α : Type} (what : Expectation) (post : List Token → α → Prop) :
    Reads (miss what) post := by
  intro s
  simp [Reads.Outcome, miss]

theorem reads_report (issue : ParseIssue) (site : Option Token) :
    Reads (report issue site) (fun _ _ => False) := by
  intro s
  simp [Reads.Outcome, report]

/-- The parser looks at the tokens without reading any. -/
def Looks {α : Type} (p : Parser α) : Prop :=
  ∀ s, ∃ a, p s = .ok a s

theorem looks_peek : Looks peek := fun _ => ⟨_, rfl⟩

theorem looks_atEnd : Looks atEnd := fun _ => ⟨_, rfl⟩

theorem looks_remaining : Looks remaining := fun _ => ⟨_, rfl⟩

theorem looks_nextIs (symbol : Symbol) : Looks (nextIs symbol) := fun _ => ⟨_, rfl⟩

theorem Token.eq_sym {t : Token} {s : Symbol} (h : t.isSymbol s = true) : t = sym s t.line := by
  obtain ⟨lexeme, line⟩ := t
  have hlexeme : lexeme = .symbol s := by simpa [Token.isSymbol] using h
  rw [hlexeme]

theorem Token.eq_word {t : Token} {k : Keyword} (h : t.isKeyword k = true) :
    t = word k t.line := by
  obtain ⟨lexeme, line⟩ := t
  have hlexeme : lexeme = .keyword k := by simpa [Token.isKeyword] using h
  rw [hlexeme]

theorem nameOf?_eq {t : Token} {n : Name} (h : nameOf? t = some n) : t = ident n := by
  obtain ⟨lexeme, line⟩ := t
  cases lexeme with
  | identifier text =>
    cases h
    rfl
  | symbol s => cases h
  | keyword k => cases h
  | string quote content => cases h
  | number whole fraction => cases h

namespace Reads

variable {α β : Type} {p : Parser α} {post : List Token → β → Prop}

theorem after_look {f : α → Parser β} (hp : Looks p) (hf : ∀ a, Reads (f a) post) :
    Reads (p >>= f) post := by
  intro s
  obtain ⟨a, ha⟩ := hp s
  rw [bind_of_ok ha]
  exact hf a s

/-- A parser that takes the next token or nothing, followed by another. -/
theorem outcome_taking {f : α → Parser β} {s : ParseState}
    (h : (∃ a, p s = .ok a s ∧ Reads (f a) post) ∨
      ∃ a t rest, s.rest = t :: rest ∧ p s = .ok a { s with rest := rest } ∧
        Reads (f a) (fun ts b => post (t :: ts) b)) :
    Outcome post s ((p >>= f) s) := by
  rcases h with ⟨a, hrun, hf⟩ | ⟨a, t, rest, hrest, hrun, hf⟩
  · rw [bind_of_ok hrun]
    exact hf s
  · rw [bind_of_ok hrun]
    have hfront : s.rest = [t] ++ rest := hrest
    exact outcome_after hfront hf

theorem after_acceptWith {g : Lexeme → Option α} {f : Option (α × Token) → Parser β}
    (hnone : Reads (f none) post)
    (hsome : ∀ a x l, g x = some a →
      Reads (f (some (a, ⟨x, l⟩))) (fun ts b => post (⟨x, l⟩ :: ts) b)) :
    Reads (acceptWith g >>= f) post := by
  intro s
  apply outcome_taking
  cases hrest : s.rest with
  | nil => exact .inl ⟨none, by simp [acceptWith, hrest], hnone⟩
  | cons t rest =>
    cases hg : g t.lexeme with
    | none => exact .inl ⟨none, by simp [acceptWith, hrest, hg], hnone⟩
    | some a =>
      have hrun : acceptWith g s = .ok (some (a, t)) { s with rest := rest } := by
        simp [acceptWith, hrest, hg]
      exact .inr ⟨some (a, t), t, rest, rfl, hrun, hsome a t.lexeme t.line hg⟩

theorem after_accept {symbol : Symbol} {f : Option Token → Parser β} (hnone : Reads (f none) post)
    (hsome : ∀ l, Reads (f (some (sym symbol l))) (fun ts b => post (sym symbol l :: ts) b)) :
    Reads (accept symbol >>= f) post := by
  intro s
  apply outcome_taking
  cases hrest : s.rest with
  | nil => exact .inl ⟨none, by simp [accept, hrest], hnone⟩
  | cons t rest =>
    cases ht : t.isSymbol symbol with
    | false => exact .inl ⟨none, by simp [accept, hrest, ht], hnone⟩
    | true =>
      have hrun : accept symbol s = .ok (some t) { s with rest := rest } := by
        simp [accept, hrest, ht]
      refine .inr ⟨some t, t, rest, rfl, hrun, ?_⟩
      rw [Token.eq_sym ht]
      exact hsome t.line

theorem after_acceptKeyword {k : Keyword} {f : Option Token → Parser β}
    (hnone : Reads (f none) post)
    (hsome : ∀ l, Reads (f (some (word k l))) (fun ts b => post (word k l :: ts) b)) :
    Reads (acceptKeyword k >>= f) post := by
  intro s
  apply outcome_taking
  cases hrest : s.rest with
  | nil => exact .inl ⟨none, by simp [acceptKeyword, hrest], hnone⟩
  | cons t rest =>
    cases ht : t.isKeyword k with
    | false => exact .inl ⟨none, by simp [acceptKeyword, hrest, ht], hnone⟩
    | true =>
      have hrun : acceptKeyword k s = .ok (some t) { s with rest := rest } := by
        simp [acceptKeyword, hrest, ht]
      refine .inr ⟨some t, t, rest, rfl, hrun, ?_⟩
      rw [Token.eq_word ht]
      exact hsome t.line

theorem after_expect {symbol : Symbol} {what : Expectation} {f : Token → Parser β}
    (hf : ∀ l, Reads (f (sym symbol l)) (fun ts b => post (sym symbol l :: ts) b)) :
    Reads (expect symbol what >>= f) post := by
  unfold expect
  rw [bind_assoc]
  exact after_accept (reads_miss what post) hf

theorem after_expectName {what : Expectation} {f : Name → Parser β}
    (hf : ∀ n, Reads (f n) (fun ts b => post (ident n :: ts) b)) :
    Reads (expectName what >>= f) post := by
  intro s
  have hmiss (h : expectName what s = miss what s) :
      Outcome post s ((expectName what >>= f) s) := by
    rw [bind_of_error h]
    exact reads_miss what post s
  cases hrest : s.rest with
  | nil => exact hmiss (by simp [expectName, hrest])
  | cons t rest =>
    cases hn : nameOf? t with
    | none => exact hmiss (by simp [expectName, hrest, hn])
    | some n =>
      have hrun : expectName what s = .ok n { s with rest := rest } := by
        simp [expectName, hrest, hn]
      rw [bind_of_ok hrun]
      have hfront : s.rest = [t] ++ rest := hrest
      rw [nameOf?_eq hn] at hfront
      exact outcome_after hfront (hf n)

end Reads

theorem reads_expectName (what : Expectation) :
    Reads (expectName what) (fun ts n => ts = [ident n]) := by
  rw [← bind_pure (expectName what)]
  exact .after_expectName fun n => .pure rfl

/-! ### Repetition and recovery -/

section Repetition

variable {α : Type} {step : α → Parser (Option α)} {I : List Token → α → Prop}

/-- A step of a loop keeps the invariant `I`, which relates what was read so far
    to what was made of it. -/
def KeepsInvariant (step : α → Parser (Option α)) (I : List Token → α → Prop) : Prop :=
  ∀ a, Reads (step a) (fun ts next =>
    match next with
    | none => ts = []
    | some b => ∀ us, I us a → I (us ++ ts) b)

theorem reads_stepsUpTo (hstep : KeepsInvariant step I) (n : Nat) (a : α) :
    Reads (stepsUpTo step n a) (fun ts b => ∀ us, I us a → I (us ++ ts) b) := by
  induction n generalizing a with
  | zero => exact Reads.pure fun us h => by simpa using h
  | succ n ih =>
    refine (hstep a).bind fun next => ?_
    cases next with
    | none =>
      refine Reads.pure ?_
      rintro _ rfl us hus
      simpa using hus
    | some b =>
      refine (ih b).mono ?_
      intro vs c hc ts hb us hus
      -- what this round read stands before what the later rounds read
      rw [← List.append_assoc]
      exact hc _ (hb us hus)

theorem reads_steps (hstep : KeepsInvariant step I) (a : α) :
    Reads (steps step a) (fun ts b => ∀ us, I us a → I (us ++ ts) b) := by
  refine (hstep a).bind fun next => ?_
  cases next with
  | none =>
    refine Reads.pure ?_
    rintro _ rfl us hus
    simpa using hus
  | some b =>
    refine .after_look looks_remaining fun n => (reads_stepsUpTo hstep n b).mono ?_
    intro vs c hc ts hb us hus
    rw [← List.append_assoc]
    exact hc _ (hb us hus)

end Repetition

/-- Recovery is only reached with an error recorded. -/
theorem reads_recovering {α : Type} {p : Parser α} {post : List Token → α → Prop}
    (hp : Reads p post) :
    Reads (recovering p) (fun ts found => ∃ a, found = some a ∧ post ts a) := by
  intro s
  have h := hp s
  unfold recovering
  cases hps : p s with
  | error e s' =>
    rw [hps] at h
    -- tokens may be skipped now, but the error that led here stays
    exact ⟨Nat.le_of_lt h, fun hsize => absurd hsize (Nat.ne_of_gt h)⟩
  | ok a s' =>
    rw [hps] at h
    refine ⟨h.1, fun hsize => ?_⟩
    obtain ⟨ts, hts, hpost⟩ := h.2 hsize
    exact ⟨ts, hts, a, rfl, hpost⟩

/-! ### Expressions -/

section Expressions

variable {nearest bare : Bool} {expression : Parser SourceExpr} {block : Parser (List SourceStmt)}

/-- The statements of a block and its closing brace. -/
def BlockEnd (nearest bare : Bool) (ts : List Token) (ss : List SourceStmt) : Prop :=
  ∃ us l, ts = us ++ [sym .rightBrace l] ∧ Derives nearest bare .declarations us ss

theorem keeps_nextParam (nearest bare : Bool) :
    KeepsInvariant nextParam (fun us names =>
      Derives nearest bare .params us names.reverse ∧ names.length ≤ maxArguments) := by
  intro names
  unfold nextParam
  refine .after_accept (.pure rfl) fun l => ?_
  by_cases hmax : maxArguments ≤ names.length
  · rw [if_pos hmax]
    -- one name too many is reported, so there is nothing to show
    refine .after_look looks_peek fun site => (reads_report _ _).bind fun _ => ?_
    refine .after_expectName fun n => .pure ?_
    exact fun _ hfalse => hfalse.elim
  · rw [if_neg hmax]
    refine .after_expectName fun n => .pure ?_
    intro us ⟨hus, hlen⟩
    rw [List.reverse_cons, List.length_cons]
    exact ⟨.moreParams hus, by omega⟩

theorem reads_params (nearest bare : Bool) : Reads params (Derives nearest bare .paramList) := by
  unfold params
  refine .after_look (looks_nextIs _) fun closed => ?_
  cases closed with
  | true => exact .pure .noParams
  | false =>
    refine .after_expectName fun n => ?_
    refine (reads_steps (keeps_nextParam nearest bare) [n]).bind fun names => .pure ?_
    intro ts hts
    have hone : Derives nearest bare .params [ident n] [n].reverse ∧ [n].length ≤ maxArguments :=
      ⟨.oneParam, by simp [maxArguments]⟩
    obtain ⟨hnames, hlen⟩ := hts _ hone
    rw [List.append_nil]
    exact .someParams hnames (by simpa using hlen)

theorem reads_paramsAndBody (role : Role) (hblock : Reads block (BlockEnd nearest bare)) :
    Reads (paramsAndBody role block) (Derives nearest bare .signature) := by
  unfold paramsAndBody
  refine .after_expect fun l₁ => (reads_params nearest bare).bind fun names => ?_
  refine .after_expect fun l₂ => .after_expect fun l₃ => ?_
  refine hblock.bind fun body => .pure ?_
  rintro _ ⟨us, l₄, rfl, hbody⟩ ts hnames
  rw [List.append_nil]
  exact .signature hnames (.block hbody)

/-- The lexeme that opens a primary expression in a given way. -/
theorem lexeme_of_opening {x : Lexeme} {o : Opening} (h : opening? x = some o) :
    match o with
    | .constant v => constant? x = some v
    | .super => x = .keyword .superWord
    | .this => x = .keyword .thisWord
    | .name text => x = .identifier text
    | .lambda => x = .keyword .funWord
    | .group => x = .symbol .leftParen := by
  unfold opening? at h
  split at h
  · next v hv =>
    cases h
    exact hv
  · split at h <;> cases h <;> rfl

theorem derives_constant {x : Lexeme} {v : Literal} {l : Int}
    (h : constant? x = some v) : Derives nearest bare .primary [⟨x, l⟩] (.literal v) := by
  unfold constant? at h
  split at h
  · cases h
    exact .falseWord
  · cases h
    exact .trueWord
  · cases h
    exact .nilWord
  · exact .literal h

theorem reads_primary (he : Reads expression (Derives nearest bare .expression))
    (hblock : Reads block (BlockEnd nearest bare)) :
    Reads (primary expression block) (Derives nearest bare .primary) := by
  unfold primary
  refine .after_acceptWith (reads_miss _ _) fun opening x l hopen => ?_
  -- the lexeme says which rule it is, and each rule reads on from there
  have hlexeme := lexeme_of_opening hopen
  cases opening with
  | constant value => exact .pure (derives_constant hlexeme)
  | super =>
    cases hlexeme
    exact .after_expect fun l₁ => .after_expectName fun n => .pure .super
  | this =>
    cases hlexeme
    exact .pure .this
  | name text =>
    cases hlexeme
    exact .pure (.name (n := ⟨text, l⟩))
  | lambda =>
    cases hlexeme
    refine (reads_paramsAndBody _ hblock).bind fun signature => .pure ?_
    intro ts hts
    rw [List.append_nil]
    exact .lambda hts
  | group =>
    cases hlexeme
    refine he.bind fun e => .after_expect fun l₂ => .pure ?_
    intro ts hts
    exact .group hts

theorem keeps_nextArgument (he : Reads expression (Derives nearest bare .expression)) :
    KeepsInvariant (nextArgument expression) (fun us args =>
      Derives nearest bare .arguments us args.reverse ∧ args.length ≤ maxArguments) := by
  intro args
  unfold nextArgument
  refine .after_accept (.pure rfl) fun l => ?_
  by_cases hmax : maxArguments ≤ args.length
  · rw [if_pos hmax]
    -- one argument too many is reported, as with parameters
    refine .after_look looks_peek fun site => (reads_report _ _).bind fun _ => ?_
    refine he.bind fun e => .pure ?_
    exact fun _ _ _ hfalse => hfalse.elim
  · rw [if_neg hmax]
    refine he.bind fun e => .pure ?_
    intro ts hts us ⟨hus, hlen⟩
    rw [List.reverse_cons, List.length_cons, List.append_nil]
    exact ⟨.moreArguments hus hts, by omega⟩

theorem reads_arguments (he : Reads expression (Derives nearest bare .expression)) :
    Reads (arguments expression) (Derives nearest bare .argumentList) := by
  unfold arguments
  refine .after_look (looks_nextIs _) fun closed => ?_
  cases closed with
  | true => exact .pure .noArguments
  | false =>
    refine he.bind fun e => (reads_steps (keeps_nextArgument he) [e]).bind fun args => .pure ?_
    intro ts hts us hus
    have hone : Derives nearest bare .arguments us [e].reverse ∧ [e].length ≤ maxArguments :=
      ⟨.oneArgument hus, by simp [maxArguments]⟩
    obtain ⟨hargs, hlen⟩ := hts _ hone
    rw [List.append_nil]
    exact .someArguments hargs (by simpa using hlen)

theorem keeps_nextCall (he : Reads expression (Derives nearest bare .expression)) :
    KeepsInvariant (nextCall expression) (Derives nearest bare .call) := by
  intro f
  unfold nextCall
  refine .after_accept (.after_accept (.pure rfl) fun l => ?_) fun l₁ => ?_
  · refine .after_expectName fun n => .pure ?_
    exact fun us hus => .property hus
  · refine (reads_arguments he).bind fun args => .after_expect fun l₂ => .pure ?_
    exact fun ts hts us hus => .call hus hts

theorem reads_call (he : Reads expression (Derives nearest bare .expression))
    (hblock : Reads block (BlockEnd nearest bare)) :
    Reads (call expression block) (Derives nearest bare .call) := by
  unfold call
  refine (reads_primary he hblock).bind fun e => (reads_steps (keeps_nextCall he) e).mono ?_
  intro ts f hf us hus
  exact hf us (.callee hus)

theorem unaryOp?_eq {x : Lexeme} {op : UnaryOp} (h : unaryOp? x = some op) :
    x = .symbol op.symbol := by
  unfold unaryOp? at h
  split at h <;> cases h <;> rfl

/-- The operators read so far turn any operand behind them into an expression. -/
theorem keeps_nextUnary (nearest bare : Bool) :
    KeepsInvariant nextUnary (fun us ops =>
      ∀ ts e, Derives nearest bare .unary ts e →
        Derives nearest bare .unary (us ++ ts) (applyUnary ops e)) := by
  intro ops
  unfold nextUnary
  refine .after_acceptWith (.pure rfl) fun op x l hop => .pure ?_
  cases unaryOp?_eq hop
  intro us hus ts e he
  -- the operator read last stands next to the operand
  rw [List.append_assoc]
  exact hus _ _ (.unary he)

theorem reads_unary {operand : Parser SourceExpr}
    (hoperand : Reads operand (Derives nearest bare .call)) :
    Reads (unary operand) (Derives nearest bare .unary) := by
  unfold unary
  refine (reads_steps (keeps_nextUnary nearest bare) []).bind fun ops => ?_
  refine hoperand.bind fun e => .pure ?_
  intro ts hts us hus
  rw [List.append_nil]
  exact hus [] (fun _ _ h => h) ts e (.unaryOperand hts)

theorem keeps_nextOperand {operand : Parser SourceExpr} {l : Level}
    (hoperand : Reads operand (Derives nearest bare (.operand l))) :
    KeepsInvariant (nextOperand l operand) (Derives nearest bare (.level l)) := by
  intro left
  unfold nextOperand
  refine .after_acceptWith (.pure rfl) fun op x line hop => ?_
  refine hoperand.bind fun right => .pure ?_
  intro ts hts us hus
  rw [List.append_nil]
  exact .operator hus hop hts

theorem reads_chain {operand : Parser SourceExpr} {l : Level}
    (hoperand : Reads operand (Derives nearest bare (.operand l))) :
    Reads (chain l operand) (Derives nearest bare (.level l)) := by
  unfold chain
  refine hoperand.bind fun e => (reads_steps (keeps_nextOperand hoperand) e).mono ?_
  intro ts f hf us hus
  exact hf us (.operand hus)

theorem reads_operation (he : Reads expression (Derives nearest bare .expression))
    (hblock : Reads block (BlockEnd nearest bare)) :
    Reads (operation expression block) (Derives nearest bare (.level .or)) := by
  -- the operands of a level are the phrases of the next tighter one
  have htighter {l l' : Level} {p : Parser SourceExpr} (h : l.tighter? = some l')
      (hp : Reads p (Derives nearest bare (.level l'))) :
      Reads p (Derives nearest bare (.operand l)) :=
    hp.mono fun _ _ hts => .operandTighter h hts
  have hunary : Reads (unary (call expression block)) (Derives nearest bare (.operand .factor)) :=
    (reads_unary (reads_call he hblock)).mono fun _ _ hts => .operandUnary rfl hts
  exact reads_chain <| htighter rfl <| reads_chain <| htighter rfl <| reads_chain <|
    htighter rfl <| reads_chain <| htighter rfl <| reads_chain <| htighter rfl <|
    reads_chain hunary

/-- What the phrase of an expression looks like if its tree can be assigned to. -/
def TargetShape (nearest bare : Bool) (ts : List Token) : SourceExpr → Prop
  | .variable n _ => ts = [ident n]
  | .get o n => ∃ us l, ts = us ++ [sym .dot l, ident n] ∧ Derives nearest bare .call us o
  | _ => True

/-- Above a primary expression or a property every operator makes a tree of its
    own, so a target comes up unchanged from where it was read. -/
theorem Derives.targetShape {c : Category} {ts : List Token} {t : c.Tree}
    (h : Derives nearest bare c ts t) :
    match c, t with
    | .primary, e | .call, e | .unary, e | .level _, e | .operand _, e =>
      TargetShape nearest bare ts e
    | _, _ => True := by
  induction h with
  | name => rfl
  | property h => exact ⟨_, _, rfl, h⟩
  | callee _ ih | unaryOperand _ ih | operandTighter _ _ ih | operandUnary _ _ ih
  | operand _ ih => exact ih
  | @operator l x op =>
    cases op <;> exact True.intro
  | _ => trivial

theorem derives_assignment? {l : Int} {ts us : List Token} {target value e : SourceExpr}
    (ht : Derives nearest bare (.level .or) ts target)
    (hv : Derives nearest bare .expression us value) (he : assignment? target value = some e) :
    Derives nearest bare .expression (ts ++ sym .equal l :: us) e := by
  have hshape := ht.targetShape
  unfold assignment? at he
  split at he
  · cases he
    cases hshape
    exact .assign hv
  · cases he
    obtain ⟨vs, l', rfl, ho⟩ := hshape
    rw [List.append_assoc]
    exact .setProperty ho hv
  · cases he

theorem reads_assignment (he : Reads expression (Derives nearest bare .expression))
    (hblock : Reads block (BlockEnd nearest bare)) :
    Reads (assignment expression block) (Derives nearest bare .expression) := by
  unfold assignment
  refine (reads_operation he hblock).bind fun target => .after_accept (.pure ?_) fun l => ?_
  · intro ts hts
    rw [List.append_nil]
    exact .operation hts
  · refine he.bind fun value => ?_
    cases ha : assignment? target value with
    | some e =>
      refine .pure ?_
      intro us hus ts hts
      rw [List.append_nil]
      exact derives_assignment? hts hus ha
    | none =>
      -- a value is read, but nothing can be assigned to: an error is recorded
      refine (reads_report _ _).bind fun _ => .pure ?_
      exact fun _ hfalse => hfalse.elim

end Expressions

/-! ### Statements and declarations -/

section Statements

variable {nearest bare : Bool} {expression : Parser SourceExpr} {statement : Parser SourceStmt}
  {declaration : Parser (Option SourceStmt)}

/-- A phrase of a statement. -/
def IsStatement (nearest bare : Bool) (ts : List Token) (s : SourceStmt) : Prop :=
  ∃ d, Derives nearest bare (.statement d) ts s

/-- A declaration was found, and what was read is its phrase. -/
def FoundDeclaration (nearest bare : Bool) (ts : List Token) (found : Option SourceStmt) : Prop :=
  ∃ s, found = some s ∧ Derives nearest bare .declaration ts s

theorem keeps_nextDeclaration {ends : Parser Bool} (hends : Looks ends)
    (hd : Reads declaration (FoundDeclaration nearest bare)) :
    KeepsInvariant (nextDeclaration ends declaration) (fun us ss =>
      Derives nearest bare .declarations us ss.reverse) := by
  intro ss
  unfold nextDeclaration
  refine .after_look hends fun ended => ?_
  cases ended with
  | true => exact .pure rfl
  | false =>
    refine hd.bind fun found => ?_
    cases found with
    | none =>
      -- a declaration that was given up has left an error
      refine .pure ?_
      rintro _ ⟨s, hs, -⟩
      cases hs
    | some s =>
      refine .pure ?_
      rintro ts ⟨_, ⟨⟩, hts⟩ us hus
      rw [List.append_nil, List.reverse_cons]
      exact .moreDeclarations hus hts

theorem reads_declarations {ends : Parser Bool} (hends : Looks ends)
    (hd : Reads declaration (FoundDeclaration nearest bare)) :
    Reads (declarations ends declaration) (Derives nearest bare .declarations) := by
  unfold declarations
  refine (reads_steps (keeps_nextDeclaration hends hd) []).bind fun ss => .pure ?_
  intro ts hts
  rw [List.append_nil]
  exact hts [] .noDeclarations

theorem looks_blockEnds : Looks blockEnds := by
  intro s
  have hend : atEnd s = .ok s.rest.isEmpty s := rfl
  unfold blockEnds
  rw [bind_of_ok hend]
  cases s.rest.isEmpty with
  | true => exact ⟨true, rfl⟩
  | false => exact looks_nextIs _ s

theorem reads_block (hd : Reads declaration (FoundDeclaration nearest bare)) :
    Reads (block declaration) (BlockEnd nearest bare) := by
  unfold block
  refine (reads_declarations looks_blockEnds hd).bind fun ss => .after_expect fun l => .pure ?_
  exact fun ts hts => ⟨ts, l, rfl, hts⟩

theorem reads_expressionStatement (he : Reads expression (Derives nearest bare .expression)) :
    Reads (expressionStatement bare expression) (Derives nearest bare .exprStmt) := by
  unfold expressionStatement
  refine he.bind fun e => .after_look looks_atEnd fun ended => ?_
  by_cases hbare : (bare && ended) = true
  · rw [if_pos hbare]
    -- nothing is behind the expression, so its semicolon may be missing
    refine .pure ?_
    intro ts hts
    rw [List.append_nil]
    exact .bareStmt ((Bool.and_eq_true_iff.mp hbare).1) hts
  · rw [if_neg hbare]
    refine .after_expect fun l => .pure ?_
    exact fun ts hts => .exprStmt hts

theorem reads_varDeclaration (l : Int)
    (he : Reads expression (Derives nearest bare .expression)) :
    Reads (varDeclaration expression) (fun ts s =>
      Derives nearest bare .varDecl (word .varWord l :: ts) s) := by
  unfold varDeclaration
  refine .after_expectName fun n => .after_accept ?_ fun l₁ => ?_
  · exact .after_expect fun l₂ => .pure .var
  · refine (he.map some).bind fun initial => .after_expect fun l₂ => .pure ?_
    rintro ts ⟨e, rfl, hts⟩
    exact .varInit hts

theorem reads_forInitial (he : Reads expression (Derives nearest bare .expression)) :
    Reads (forInitial bare expression) (Derives nearest bare .forInitial) := by
  unfold forInitial
  refine .after_accept (.after_acceptKeyword ?_ fun l => ?_) fun l => .pure .noInitial
  · refine ((reads_expressionStatement he).map some).mono ?_
    rintro ts _ ⟨s, rfl, hts⟩
    exact .exprInitial hts
  · refine ((reads_varDeclaration l he).map some).mono ?_
    rintro ts _ ⟨s, rfl, hts⟩
    exact .varInitial hts

theorem reads_unlessNext (symbol : Symbol)
    (he : Reads expression (Derives nearest bare .expression)) :
    Reads (unlessNext symbol expression) (Derives nearest bare .optional) := by
  unfold unlessNext
  refine .after_look (looks_nextIs _) fun closed => ?_
  cases closed with
  | true => exact .pure .absent
  | false =>
    refine (he.map some).mono ?_
    rintro ts _ ⟨e, rfl, hts⟩
    exact .present hts

theorem reads_forStatement (l : Int) (he : Reads expression (Derives nearest bare .expression))
    (hs : Reads statement (IsStatement nearest bare)) :
    Reads (forStatement bare expression statement) (fun ts s =>
      IsStatement nearest bare (word .forWord l :: ts) s) := by
  unfold forStatement
  refine .after_expect fun l₁ => (reads_forInitial he).bind fun initial => ?_
  refine (reads_unlessNext _ he).bind fun condition => .after_expect fun l₂ => ?_
  refine (reads_unlessNext _ he).bind fun step => .after_expect fun l₃ => ?_
  refine hs.bind fun body => .pure ?_
  rintro ws ⟨d, hws⟩ vs hvs us hus ts hts
  rw [List.append_nil]
  exact ⟨d, .forLoop hts hus hvs hws⟩

theorem reads_ifStatement (l : Int) (he : Reads expression (Derives false bare .expression))
    (hs : Reads statement (IsStatement false bare)) :
    Reads (ifStatement expression statement) (fun ts s =>
      IsStatement false bare (word .ifWord l :: ts) s) := by
  unfold ifStatement
  refine .after_expect fun l₁ => he.bind fun condition => .after_expect fun l₂ => ?_
  refine hs.bind fun onTrue => .after_acceptKeyword (.pure ?_) fun l₃ => ?_
  · rintro us ⟨d, hus⟩ ts hts
    rw [List.append_nil]
    exact ⟨true, .ifOnly hts hus⟩
  · refine (hs.map some).bind fun onFalse => .pure ?_
    rintro vs ⟨b, rfl, d', hvs⟩ us ⟨d, hus⟩ ts hts
    rw [List.append_nil]
    -- to which `if` the `else` belongs is left open here
    exact ⟨d', .ifElse (fun h => nomatch h) hts hus hvs⟩

theorem reads_whileStatement (l : Int) (he : Reads expression (Derives nearest bare .expression))
    (hs : Reads statement (IsStatement nearest bare)) :
    Reads (whileStatement expression statement) (fun ts s =>
      IsStatement nearest bare (word .whileWord l :: ts) s) := by
  unfold whileStatement
  refine .after_expect fun l₁ => he.bind fun condition => .after_expect fun l₂ => ?_
  refine hs.bind fun body => .pure ?_
  rintro us ⟨d, hus⟩ ts hts
  rw [List.append_nil]
  exact ⟨d, .loop hts hus⟩

theorem reads_printStatement (l : Int)
    (he : Reads expression (Derives nearest bare .expression)) :
    Reads (printStatement expression) (fun ts s =>
      Derives nearest bare (.statement false) (word .printWord l :: ts) s) := by
  unfold printStatement
  refine he.bind fun e => .after_expect fun l₁ => .pure ?_
  exact fun ts hts => .print hts

theorem reads_returnStatement (l : Int)
    (he : Reads expression (Derives nearest bare .expression)) :
    Reads (returnStatement l expression) (fun ts s =>
      Derives nearest bare (.statement false) (word .returnWord l :: ts) s) := by
  unfold returnStatement
  refine (reads_unlessNext _ he).bind fun value => .after_expect fun l₁ => .pure ?_
  exact fun ts hts => .ret hts

/-- The lexeme that announces a kind of statement. -/
def StatementKind.lexeme : StatementKind → Lexeme
  | .forLoop => .keyword .forWord
  | .ifElse => .keyword .ifWord
  | .print => .keyword .printWord
  | .ret => .keyword .returnWord
  | .whileLoop => .keyword .whileWord
  | .block => .symbol .leftBrace

theorem statementKind?_eq {x : Lexeme} {kind : StatementKind} (h : statementKind? x = some kind) :
    x = StatementKind.lexeme kind := by
  unfold statementKind? at h
  split at h <;> cases h <;> rfl

theorem reads_statementWith (he : Reads expression (Derives false bare .expression))
    (hs : Reads statement (IsStatement false bare))
    (hd : Reads declaration (FoundDeclaration false bare)) :
    Reads (statementWith bare expression statement declaration) (IsStatement false bare) := by
  unfold statementWith
  refine .after_acceptWith ?_ fun kind x l hkind => ?_
  · exact (reads_expressionStatement he).mono fun ts s hts => ⟨false, .evaluate hts⟩
  · cases statementKind?_eq hkind
    cases kind with
    | forLoop => exact reads_forStatement l he hs
    | ifElse => exact reads_ifStatement l he hs
    | print => exact (reads_printStatement l he).mono fun ts s hts => ⟨false, hts⟩
    | ret => exact (reads_returnStatement l he).mono fun ts s hts => ⟨false, hts⟩
    | whileLoop => exact reads_whileStatement l he hs
    | block =>
      refine ((reads_block hd).map Stmt.block).mono ?_
      rintro _ _ ⟨ss, rfl, us, l₁, rfl, hus⟩
      exact ⟨false, .nested (.block hus)⟩

theorem reads_functionDeclaration (role : Role)
    (hblock : Reads (block declaration) (BlockEnd nearest bare)) :
    Reads (functionDeclaration role declaration) (Derives nearest bare .function) := by
  unfold functionDeclaration
  refine .after_expectName fun n => ?_
  refine (reads_paramsAndBody role hblock).bind fun signature => .pure ?_
  intro ts hts
  rw [List.append_nil]
  exact .function hts

theorem keeps_nextMethod (hblock : Reads (block declaration) (BlockEnd nearest bare)) :
    KeepsInvariant (nextMethod declaration) (fun us ms =>
      Derives nearest bare .methods us ms.reverse) := by
  intro ms
  unfold nextMethod
  refine .after_look looks_blockEnds fun ended => ?_
  cases ended with
  | true => exact .pure rfl
  | false =>
    refine (reads_functionDeclaration _ hblock).bind fun m => .pure ?_
    intro ts hts us hus
    rw [List.append_nil, List.reverse_cons]
    exact .moreMethods hus hts

theorem reads_methods (hblock : Reads (block declaration) (BlockEnd nearest bare)) :
    Reads (steps (nextMethod declaration) []) (fun ts ms =>
      Derives nearest bare .methods ts ms.reverse) :=
  (reads_steps (keeps_nextMethod hblock) []).mono fun _ _ hts => hts [] .noMethods

theorem reads_classDeclaration (l : Int)
    (hblock : Reads (block declaration) (BlockEnd nearest bare)) :
    Reads (classDeclaration declaration) (fun ts s =>
      Derives nearest bare .declaration (word .classWord l :: ts) s) := by
  unfold classDeclaration
  refine .after_expectName fun n => .after_accept ?_ fun l₁ => ?_
  · refine .after_expect fun l₁ => (reads_methods hblock).bind fun ms => ?_
    refine .after_expect fun l₂ => .pure ?_
    exact fun ts hts => .declareClass hts
  · refine ((reads_expectName _).map fun m => some (m, ())).bind fun superclass => ?_
    refine .after_expect fun l₂ => (reads_methods hblock).bind fun ms => ?_
    refine .after_expect fun l₃ => .pure ?_
    rintro ts hts _ ⟨m, rfl, rfl⟩
    exact .declareSubclass hts

theorem Reads.after_acceptNamedFun {α : Type} {post : List Token → α → Prop}
    {f : Bool → Parser α} (hfalse : Reads (f false) post)
    (htrue : ∀ l, Reads (f true) (fun ts b => post (word .funWord l :: ts) b)) :
    Reads (acceptNamedFun >>= f) post := by
  intro s
  apply outcome_taking
  match hrest : s.rest with
  | [] => exact .inl ⟨false, by simp [acceptNamedFun, hrest], hfalse⟩
  | [t] => exact .inl ⟨false, by simp [acceptNamedFun, hrest], hfalse⟩
  | t :: next :: rest =>
    cases ht : t.isKeyword .funWord && (nameOf? next).isSome with
    | false => exact .inl ⟨false, by simp [acceptNamedFun, hrest, ht], hfalse⟩
    | true =>
      -- the name is looked at but not taken
      have hrun : acceptNamedFun s = .ok true { s with rest := next :: rest } := by
        simp [acceptNamedFun, hrest, ht]
      refine .inr ⟨true, t, next :: rest, rfl, hrun, ?_⟩
      rw [Token.eq_word ((Bool.and_eq_true_iff.mp ht).1)]
      exact htrue t.line

theorem reads_declarationWith (he : Reads expression (Derives false bare .expression))
    (hs : Reads statement (IsStatement false bare))
    (hd : Reads declaration (FoundDeclaration false bare)) :
    Reads (declarationWith expression statement declaration) (Derives false bare .declaration) := by
  unfold declarationWith
  refine .after_acceptKeyword ?_ fun l => reads_classDeclaration l (reads_block hd)
  refine .after_acceptNamedFun (.after_acceptKeyword ?_ fun l => ?_) fun l => ?_
  · refine hs.mono ?_
    rintro ts s ⟨d, hts⟩
    exact .statement hts
  · exact (reads_varDeclaration l he).mono fun ts s hts => .declareVar hts
  · refine ((reads_functionDeclaration _ (reads_block hd)).map Stmt.function).mono ?_
    rintro ts _ ⟨f, rfl, hts⟩
    exact .declareFun hts

end Statements

/-! ### Programs -/

/-- Whatever the bound on nesting, what the three nested parsers read derives. -/
theorem reads_nested (bare : Bool) (n : Nat) :
    Reads (expression bare n) (Derives false bare .expression) ∧
    Reads (statement bare n) (IsStatement false bare) ∧
    Reads (declaration bare n) (FoundDeclaration false bare) := by
  induction n with
  | zero =>
    -- a bound that is too small shows as an error, never as a wrong tree
    refine ⟨?_, ?_, ?_⟩
    · unfold expression
      exact reads_miss _ _
    · unfold statement
      exact reads_miss _ _
    · unfold declaration
      exact reads_recovering (reads_miss _ _)
  | succ n ih =>
    obtain ⟨he, hs, hd⟩ := ih
    refine ⟨?_, ?_, ?_⟩
    · unfold expression
      exact reads_assignment he (reads_block hd)
    · unfold statement
      exact reads_statementWith he hs hd
    · unfold declaration
      exact reads_recovering (reads_declarationWith he hs hd)

end Treewalk
