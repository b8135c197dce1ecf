import Treewalk.Proofs.Grammar.Acceptance
import Treewalk.Proofs.Grammar.Decision

/-! # Deciding on expressions

    The parsers of expressions decide before everything that may follow one.  They are
    nested, so each one decides if the parsers of what stands inside do, for fewer
    tokens. -/

namespace Treewalk

open Treewalk.Parser Ebnf Computability

section Expressions

variable {k n : Nat} {K : Language Token}

/-- The texts of the language may follow an expression. -/
def Closes (K : Language Token) : Prop := ∀ ts ∈ K, ClosesExpression ts

/-- The texts of the language may follow an operand of operators of the given rank. -/
def Behind (rank : Nat) (K : Language Token) : Prop := ∀ ts ∈ K, Follows rank ts

/-- The parser of expressions decides before everything that may follow one. -/
def ExpressionDecides (k n : Nat) : Prop :=
  ∀ K, Closes K → Decides k (expression false n) (phrase .expression) K

theorem ExpressionDecides.shrink {j : Nat} (h : ExpressionDecides k n) (hj : j ≤ k) :
    ExpressionDecides j n :=
  fun K hK => (h K hK).shrink hj

/-- The texts of the language begin with the symbol. -/
def OpensWith (s : Symbol) (K : Language Token) : Prop :=
  ∀ ts ∈ K, ∃ t v, ts = t :: v ∧ t.lexeme = .symbol s

theorem opensWith_mul (s : Symbol) (K : Language Token) : OpensWith s (symbol s * K) := by
  intro ts hts
  obtain ⟨t, v, rfl, ht, -⟩ := mem_token_mul.mp hts
  exact ⟨t, v, rfl, ht⟩

theorem OpensWith.closes {s : Symbol} (h : OpensWith s K)
    (hs : s = .rightParen ∨ s = .semicolon ∨ s = .comma) : Closes K := by
  intro ts hts
  obtain ⟨⟨_, l⟩, v, rfl, rfl⟩ := h ts hts
  rcases hs with rfl | rfl | rfl
  · exact .rightParen
  · exact .semicolon
  · exact .comma

theorem closes_semicolon : Closes (symbol .semicolon * K) :=
  (opensWith_mul .semicolon K).closes (.inr (.inl rfl))

theorem closes_rightParen : Closes (symbol .rightParen * K) :=
  (opensWith_mul .rightParen K).closes (.inl rfl)

/-- Nothing begins with another symbol than that. -/
theorem OpensWith.not_mem {s s' : Symbol} (h : OpensWith s K) {t : Token}
    (ht : t.lexeme = .symbol s') (hs : s' ≠ s) (v : List Token) : t :: v ∉ K := by
  intro hmem
  obtain ⟨t', v', heq, ht'⟩ := h _ hmem
  obtain ⟨rfl, -⟩ := List.cons.inj heq
  exact hs (Lexeme.symbol.inj (ht.symm.trans ht'))

theorem takes_comma (t : Token) :
    t.lexeme = .symbol .comma ↔
      ∃ c, (if t.lexeme = .symbol .comma then some t else none) = some c := by
  simp

theorem decides_params (hK : OpensWith .rightParen K) :
    Decides k params (optional (separated Ebnf.name)) K := by
  have hloop (names : List Name) : Decides (k - 1) (steps nextParam names)
      (symbol .comma * Ebnf.name)∗ K := by
    refine .stepsTaking (takes_accept .comma) takes_comma (fun _ => rfl) orderly_nextParam
      (fun _ => rfl) (fun names t => ?_) (fun names t => ?_) (fun t v ht => ?_) names
    · by_cases hmax : maxArguments ≤ names.length
      · rw [if_pos hmax]
        exact .bind fun _ => .bind fun _ => .bind fun _ => .pure _
      · rw [if_neg hmax]
        exact .bind fun _ => .pure _
    · have hname : Decides (k - 1 - 1) (expectName .parameterName >>= fun name =>
          pure (some (name :: names))) Ebnf.name ((symbol .comma * Ebnf.name)∗ * K) :=
        Decides.expectName.last fun _ => .pure _
      by_cases hmax : maxArguments ≤ names.length
      · rw [if_pos hmax]
        exact .after_reportNext rfl hname
      · rw [if_neg hmax]
        exact hname
    · exact hK.not_mem ht nofun v
  unfold params
  refine .after_nextIs (.pure _) ?_ ?_ ?_
  · refine .after_expectName fun n => ?_
    exact (hloop [n]).last fun names => .pure _
  · rwa [one_mul]
  · intro t v ht h
    rw [separated, mul_assoc] at h
    obtain ⟨x, hx⟩ := (cons_mem_token_mul.mp h).1
    rw [ht] at hx
    cases hx

theorem decides_paramsAndBody (role : Role) {block : Parser (List SourceStmt)} {B : Language Token}
    [HasWord B] (hblock : Decides (k - 1) block B K) :
    Decides k (paramsAndBody role block)
      (symbol .leftParen * (optional (separated Ebnf.name) *
        (symbol .rightParen * (symbol .leftBrace * B)))) K := by
  unfold paramsAndBody
  refine .after_expect fun _ => ?_
  have hbody (names : List Name) : Decides (k - 1)
      (do
        let _ ← expect .rightParen .parametersClose
        let _ ← expect .leftBrace (.bodyOpen role)
        let body ← block
        pure (names, body)) (symbol .rightParen * (symbol .leftBrace * B)) K := by
    refine .after_expect fun _ => .after_expect fun _ => ?_
    exact (hblock.shrink (by omega)).last fun body => .pure _
  exact (decides_params (by rw [mul_assoc]; exact opensWith_mul _ _)).bind hbody

/-- The parser of blocks, behind their opening brace, decides. -/
def BlockDecides (k n : Nat) : Prop :=
  ∀ K, Decides k (block (declaration false n)) ((phrase .declaration)∗ * symbol .rightBrace) K

theorem phrase_block :
    phrase .block = symbol .leftBrace * ((phrase .declaration)∗ * symbol .rightBrace) := by
  rw [phrase_eq, rule, mul_assoc]

theorem constant_cases {x : Lexeme} {v : Literal} (h : constant? x = some v) :
    x = .keyword .trueWord ∨ x = .keyword .falseWord ∨ x = .keyword .nilWord ∨
      (∃ whole fraction, x = .number whole fraction) ∨
      ∃ quote content, x = .string quote content := by
  cases x with
  | string quote content => simp
  | number whole fraction => simp
  | symbol s => cases h
  | identifier text => cases h
  | keyword k => cases k <;> cases h <;> simp

theorem decides_primary (he : ExpressionDecides (k - 1) n) (hblock : BlockDecides (k - 1) n) :
    Decides k (primary (expression false n) (block (declaration false n))) (phrase .primary) K := by
  have hmem (t : Token) (v : List Token) (M : Language Token) :
      t :: v ∈ phrase .primary * M ↔ t :: v ∈ rule phrase .primary * M := by
    rw [← phrase_eq]
  unfold primary
  refine .after_taking (takes_acceptWith opening?) (.miss _) (fun ts hlen hskip => ?_)
    fun t c hc => ?_
  · refine .miss _ fun h => ?_
    obtain ⟨t, us, rfl, hopen, -⟩ := begins_mul h
    simp [Option.isSome_iff_ne_none.mp hopen] at hskip
  · obtain ⟨o, ho, rfl⟩ := Option.map_eq_some_iff.mp hc
    have hlexeme := lexeme_of_opening ho
    have hword (v : List Token) : t :: v ∈ phrase .primary ↔ t :: v ∈ rule phrase .primary := by
      rw [← phrase_eq]
    simp only [rule, add_mul, mul_assoc, Language.mem_add, cons_mem_token_mul] at hmem
    simp only [rule, mul_assoc, Language.mem_add, cons_mem_token_mul, cons_mem_token] at hword
    cases o with
    | constant value =>
      refine ⟨1, .pure _, fun v hv => ?_, fun v h => ?_⟩
      · rw [hword]
        obtain rfl : v = [] := hv
        rcases constant_cases hlexeme with ht | ht | ht | ⟨_, _, ht⟩ | ⟨_, _, ht⟩ <;> simp [ht]
      · rw [hmem] at h
        rw [one_mul]
        rcases constant_cases hlexeme with ht | ht | ht | ⟨_, _, ht⟩ | ⟨_, _, ht⟩ <;>
          simpa [ht] using h
    | this =>
      refine ⟨1, .pure _, fun v hv => ?_, fun v h => ?_⟩
      · rw [hword]
        obtain rfl : v = [] := hv
        simp [hlexeme]
      · rw [hmem] at h
        simpa [hlexeme] using h
    | name text =>
      refine ⟨1, .pure _, fun v hv => ?_, fun v h => ?_⟩
      · rw [hword]
        obtain rfl : v = [] := hv
        simp [hlexeme]
      · rw [hmem] at h
        simpa [hlexeme] using h
    | super =>
      refine ⟨symbol .dot * Ebnf.name, ?_, fun v hv => ?_, fun v h => ?_⟩
      · exact .after_expect fun _ => Decides.expectName.last fun _ => .pure _
      · exact (hword v).mpr (by simp [hlexeme, hv])
      · rw [hmem] at h
        simpa [hlexeme, mul_assoc] using h
    | lambda =>
      refine ⟨_, (decides_paramsAndBody .lambda ((hblock K).shrink (by omega))).last
        fun _ => .pure _, fun v hv => ?_, fun v h => ?_⟩
      · rw [← phrase_block] at hv
        exact (hword v).mpr (by simp [hlexeme, hv])
      · rw [← phrase_block]
        rw [hmem] at h
        simpa [hlexeme, mul_assoc] using h
    | group =>
      refine ⟨phrase .expression * symbol .rightParen, ?_, fun v hv => ?_, fun v h => ?_⟩
      · exact (he _ closes_rightParen).bind fun _ => Decides.expect.last fun _ => .pure _
      · exact (hword v).mpr (by simp [hlexeme, hv])
      · rw [hmem] at h
        simpa [hlexeme, mul_assoc] using h

/-- No expression begins with a symbol that closes one. -/
theorem not_mem_expression_mul {s : Symbol} (hs : s = .rightParen ∨ s = .semicolon) {t : Token}
    (ht : t.lexeme = .symbol s) (v : List Token) : t :: v ∉ phrase .expression * K := by
  intro h
  exact (begins_mul h : StartsExpression (t :: v)).next_ne hs t v rfl ht

theorem decides_arguments (he : ExpressionDecides k n) (hK : OpensWith .rightParen K) :
    Decides k (arguments (expression false n)) (optional (separated (phrase .expression))) K := by
  have hitems : Closes ((symbol .comma * phrase .expression)∗ * K) := by
    intro ts hts
    rw [← Language.one_add_self_mul_kstar_eq_kstar, add_mul, one_mul, mul_assoc, mul_assoc] at hts
    rcases hts with hts | hts
    · exact hK.closes (.inl rfl) ts hts
    · exact (opensWith_mul .comma _).closes (.inr (.inr rfl)) ts hts
  have hloop (args : List SourceExpr) : Decides k (steps (nextArgument (expression false n)) args)
      (symbol .comma * phrase .expression)∗ K := by
    refine .stepsTaking (takes_accept .comma) takes_comma (fun _ => rfl)
      (orderly_nextArgument false n) (fun _ => rfl) (fun args t => ?_) (fun args t => ?_)
      (fun t v ht => ?_) args
    · by_cases hmax : maxArguments ≤ args.length
      · rw [if_pos hmax]
        exact .bind fun _ => .bind fun _ => .bind fun _ => .pure _
      · rw [if_neg hmax]
        exact .bind fun _ => .pure _
    · have harg : Decides (k - 1) (expression false n >>= fun arg => pure (some (arg :: args)))
          (phrase .expression) ((symbol .comma * phrase .expression)∗ * K) :=
        ((he _ hitems).shrink (by omega)).last fun _ => .pure _
      by_cases hmax : maxArguments ≤ args.length
      · rw [if_pos hmax]
        exact .after_reportNext rfl harg
      · rw [if_neg hmax]
        exact harg
    · exact hK.not_mem ht nofun v
  unfold arguments
  refine .after_nextIs (.pure _) ?_ (by rwa [one_mul]) fun t v ht h => ?_
  · exact (he _ hitems).bind fun first => (hloop [first]).last fun _ => .pure _
  · rw [separated, mul_assoc] at h
    exact not_mem_expression_mul (.inl rfl) ht v h

/-- The arguments of a call behind their parenthesis. -/
def argumentsRest : Language Token :=
  optional (separated (phrase .expression)) * symbol .rightParen

/-- What a call or a property access is behind its callee or object. -/
def access : Language Token := symbol .leftParen * argumentsRest + symbol .dot * Ebnf.name

theorem phrase_call : phrase .call = phrase .primary * access∗ := by
  rw [phrase_eq, rule, access, argumentsRest]
  simp only [mul_assoc]

theorem mem_access_mul {ts : List Token} : ts ∈ access * K ↔
    ts ∈ symbol .leftParen * (argumentsRest * K) ∨ ts ∈ symbol .dot * (Ebnf.name * K) := by
  rw [access, add_mul, mul_assoc, mul_assoc, Language.mem_add]

theorem nil_not_mem_access : [] ∉ access := by
  rintro (h | h)
  · exact nil_not_mem_token_mul h
  · exact nil_not_mem_token_mul h

theorem decides_argumentsRest (he : ExpressionDecides k n) (e : SourceExpr) :
    Decides k (arguments (expression false n) >>= fun args =>
        expect .rightParen .argumentsClose >>= fun close =>
          pure (some (Expr.call e args close.line))) argumentsRest K :=
  (decides_arguments he (opensWith_mul _ _)).bind fun _ => Decides.expect.last fun _ => .pure _

theorem decides_property (e : SourceExpr) :
    Decides k (expectName .propertyName >>= fun name => pure (some (Expr.get e name)))
      Ebnf.name K :=
  Decides.expectName.last fun _ => .pure _

theorem appends_nextCall (he : ExpressionDecides k n) (e : SourceExpr) :
    Appends (nextCall (expression false n) e) := by
  unfold nextCall
  refine (takes_accept _).appends.bind fun o => ?_
  cases o with
  | some _ => exact (decides_argumentsRest (K := 1) he e).appends
  | none =>
    refine (takes_accept _).appends.bind fun o => ?_
    cases o with
    | some _ => exact (decides_property (k := 0) (K := 1) e).appends
    | none => exact .pure

/-- Before what may follow an operand, a round finds a parenthesis, a dot or nothing to do. -/
theorem roundAt_nextCall (he : ExpressionDecides (k - 1) n) {rank : Nat} (hK : Behind rank K)
    (e : SourceExpr) (ts : List Token) (hlen : ts.length < k) :
    RoundAt k (nextCall (expression false n) e) access K ts := by
  unfold nextCall
  refine .after_taking (takes_accept .leftParen) hlen (fun hparen => ?_) fun t rest c hts hc => ?_
  · refine .after_taking (takes_accept .dot) hlen (fun hdot => .nothing fun h => ?_)
      fun t rest c hts hc => ?_
    · rcases mem_access_mul.mp h with h | h
      · obtain ⟨t, v, rfl, ht, -⟩ := mem_token_mul.mp h
        simp [ht] at hparen
      · obtain ⟨t, v, rfl, ht, -⟩ := mem_token_mul.mp h
        simp [ht] at hdot
    · obtain ⟨ht, ⟨⟩⟩ := Option.ite_none_right_eq_some.mp hc
      refine ⟨.bind fun _ => .pure _, fun h => (hK _ h t rest rfl).2.1 ht, _,
        decides_property e, fun v hv => .inr (cons_mem_token_mul.mpr ⟨ht, hv⟩), fun h => ?_⟩
      rw [mem_access_mul] at h
      simpa [ht] using h
  · obtain ⟨ht, ⟨⟩⟩ := Option.ite_none_right_eq_some.mp hc
    refine ⟨.bind fun _ => .bind fun _ => .pure _, fun h => (hK _ h t rest rfl).1 ht, _,
      decides_argumentsRest he e, fun v hv => .inl (cons_mem_token_mul.mpr ⟨ht, hv⟩), fun h => ?_⟩
    rw [mem_access_mul] at h
    simpa [ht] using h

theorem decides_call (he : ExpressionDecides (k - 1) n) (hblock : BlockDecides (k - 1) n)
    {rank : Nat} (hK : Behind rank K) :
    Decides k (call (expression false n) (block (declaration false n))) (phrase .call) K := by
  unfold call
  rw [phrase_call]
  exact (decides_primary he hblock).bind fun e => .steps nil_not_mem_access
    (orderly_nextCall false n) (appends_nextCall he) (roundAt_nextCall he hK) e

/-- Unary operators in front of a call. -/
theorem phrase_unary :
    phrase .unary = (token fun x => (unaryOp? x).isSome)∗ * phrase .call := by
  have hops : symbol .bang + symbol .minus = token fun x => (unaryOp? x).isSome := by
    rw [token_add]
    refine token_congr fun x => ?_
    unfold unaryOp?
    split <;> simp_all
  have hnil : [] ∉ token fun x => (unaryOp? x).isSome := nofun
  have hrule : phrase .unary =
      (token fun x => (unaryOp? x).isSome) * phrase .unary + phrase .call := by
    rw [← hops]
    exact phrase_eq .unary
  exact (Language.self_eq_mul_add_iff hnil).mp hrule

theorem decides_unary {operand : Parser SourceExpr} (h : Decides k operand (phrase .call) K) :
    Decides k (unary operand) (phrase .unary) K := by
  have hloop (ops : List (UnaryOp × Int)) : Decides k (steps nextUnary ops)
      ((token fun x => (unaryOp? x).isSome) * 1)∗ (phrase .call * K) := by
    refine .stepsTaking (takes_acceptWith unaryOp?) (fun t => ?_) (fun _ => rfl) orderly_nextUnary
      (fun _ => rfl) (fun ops c => .pure _) (fun ops c => .pure _) (fun t v ht hmem => ?_) ops
    · simp [Option.isSome_iff_exists]
    · obtain ⟨t, us, ⟨⟩, hopen, -⟩ := begins_mul hmem
      rw [unaryOp?_of_opening? hopen] at ht
      cases ht
  unfold unary
  rw [phrase_unary, ← mul_one (token _)]
  exact (hloop []).bind fun ops => h.last fun _ => .pure _

/-- The operands of the operators of a level. -/
def operandPhrase : Level → Language Token
  | .or => phrase (.level .and)
  | .and => phrase (.level .equality)
  | .equality => phrase (.level .comparison)
  | .comparison => phrase (.level .term)
  | .term => phrase (.level .factor)
  | .factor => phrase .unary

/-- The operators of a level. -/
def operators (l : Level) : Language Token := token fun x => (l.operator? x).isSome

theorem phrase_level (l : Level) :
    phrase (.level l) = operandPhrase l * (operators l * operandPhrase l)∗ := by
  have of_rule {ops : Language Token} (hops : ops = operators l)
      (hrule : phrase (.level l) = operandPhrase l * (ops * operandPhrase l)∗) :
      phrase (.level l) = operandPhrase l * (operators l * operandPhrase l)∗ := hops ▸ hrule
  cases l with
  | or | and =>
    refine of_rule (token_congr fun x => ?_) (phrase_eq _)
    unfold Level.operator?
    split <;> simp_all
  | equality | comparison | term | factor =>
    refine of_rule ?_ (phrase_eq _)
    simp only [token_add]
    refine token_congr fun x => ?_
    unfold Level.operator?
    split <;> simp_all

theorem Behind.mono {rank rank' : Nat} (h : Behind rank K) (hle : rank ≤ rank') :
    Behind rank' K :=
  fun ts hts => (h ts hts).mono fun _ ⟨hparen, hdot, hop⟩ =>
    ⟨hparen, hdot, fun l op hl => Nat.le_trans (hop l op hl) hle⟩

/-- Between the operators of a level there is an operand of them, and behind the last one
    there is none. -/
theorem decides_chain {l : Level} {rank : Nat} (hrank : l.rank = rank + 1)
    (h : ∀ K, Behind (rank + 1) K → Decides k (operandOf (expression false n)
      (block (declaration false n)) l) (operandPhrase l) K) (hK : Behind rank K) :
    Decides k (chain l (operandOf (expression false n) (block (declaration false n)) l))
      (phrase (.level l)) K := by
  have hbehind : Behind (rank + 1) ((operators l * operandPhrase l)∗ * K) := by
    intro ts hts
    rw [← Language.one_add_self_mul_kstar_eq_kstar, add_mul, one_mul, mul_assoc, mul_assoc] at hts
    rcases hts with hts | hts
    · exact hK.mono (Nat.le_succ rank) ts hts
    · obtain ⟨⟨x, line⟩, v, rfl, hop, -⟩ := mem_token_mul.mp hts
      obtain ⟨op, hop⟩ := Option.isSome_iff_exists.mp hop
      exact hrank ▸ follows_operator hop
  have hloop (e : SourceExpr) : Decides k (steps (nextOperand l (operandOf (expression false n)
      (block (declaration false n)) l)) e) (operators l * operandPhrase l)∗ K := by
    refine .stepsTaking (takes_acceptWith l.operator?) (fun t => ?_) (fun _ => rfl)
      (orderly_nextOperand false n l) (fun _ => rfl) (fun e c => .bind fun _ => .pure _)
      (fun e c => ?_) (fun t v ht hmem => ?_) e
    · simp [Option.isSome_iff_exists]
    · exact ((h _ hbehind).shrink (by omega)).last fun _ => .pure _
    · obtain ⟨op, hop⟩ := Option.isSome_iff_exists.mp ht
      have hle := (hK _ hmem t v rfl).2.2 l op hop
      omega
  unfold chain
  rw [phrase_level]
  exact (h _ hbehind).bind hloop

theorem decides_operand (he : ExpressionDecides (k - 1) n) (hblock : BlockDecides (k - 1) n)
    (l : Level) (hK : Behind l.rank K) :
    Decides k (operandOf (expression false n) (block (declaration false n)) l)
      (operandPhrase l) K := by
  have hfactor (K : Language Token) (hK : Behind 6 K) : Decides k
      (operandOf (expression false n) (block (declaration false n)) .factor) (phrase .unary) K :=
    decides_unary (decides_call he hblock hK)
  have hterm (K : Language Token) (hK : Behind 5 K) : Decides k
      (operandOf (expression false n) (block (declaration false n)) .term)
      (phrase (.level .factor)) K := decides_chain rfl hfactor hK
  have hcomparison (K : Language Token) (hK : Behind 4 K) : Decides k
      (operandOf (expression false n) (block (declaration false n)) .comparison)
      (phrase (.level .term)) K := decides_chain rfl hterm hK
  have hequality (K : Language Token) (hK : Behind 3 K) : Decides k
      (operandOf (expression false n) (block (declaration false n)) .equality)
      (phrase (.level .comparison)) K := decides_chain rfl hcomparison hK
  have hand (K : Language Token) (hK : Behind 2 K) : Decides k
      (operandOf (expression false n) (block (declaration false n)) .and)
      (phrase (.level .equality)) K := decides_chain rfl hequality hK
  cases l with
  | factor => exact hfactor K hK
  | term => exact hterm K hK
  | comparison => exact hcomparison K hK
  | equality => exact hequality K hK
  | and => exact hand K hK
  | or => exact decides_chain rfl hand hK

theorem phrase_expression :
    phrase .expression = phrase (.level .or) * (1 + symbol .equal * phrase .expression) := by
  conv_lhs => rw [phrase_eq]
  rfl

theorem decides_assignment (he : ExpressionDecides (k - 1) n) (hblock : BlockDecides (k - 1) n)
    (hK : Closes K) :
    Decides k (assignment (expression false n) (block (declaration false n)))
      (phrase .expression) K := by
  have hbehind : Behind 0 ((1 + symbol .equal * phrase .expression) * K) := by
    intro ts hts
    rw [add_mul, one_mul, mul_assoc] at hts
    rcases hts with hts | hts
    · exact (hK ts hts).follows 0
    · obtain ⟨⟨_, l⟩, v, rfl, rfl, -⟩ := mem_token_mul.mp hts
      exact follows_equal 0
  unfold assignment
  rw [operation_eq, phrase_expression]
  refine (decides_chain rfl (fun K hK => decides_operand he hblock .or hK) hbehind).bind
    fun target => ?_
  refine .after_accept (.pure _) (fun equals => ?_) fun t v ht h => ?_
  · refine (he K hK).last fun value => ?_
    cases assignment? target value with
    | some e => exact .pure e
    | none => exact .after_report rfl _ (.pure target)
  · rw [one_mul] at h
    exact (hK _ h).next_ne_equal t v rfl ht

end Expressions

end Treewalk
