import Treewalk.Proofs.Grammar.Phrase
import Treewalk.Proofs.Sequencing

/-! # What derives is parsed

    `Parses p ts rest a` says that a parser reads exactly the phrase `ts` before
    `rest`, yields `a` and records nothing.  Where a phrase ends is decided by
    the token behind it, so the statements about loops carry a condition on
    `rest`.  The rules that add an item at the end of a phrase meet loops that
    read items from the front: `Loops` goes from front to end, and each rule
    puts one more round before the rounds to come. -/

namespace Treewalk

open Treewalk.Parser

/-! ### Parsing a phrase -/

/-- The parser reads the phrase `ts`, whatever errors there are already. -/
def Parses {α : Type} (p : Parser α) (ts rest : List Token) (a : α) : Prop :=
  ∀ errors, p ⟨ts ++ rest, errors⟩ = .ok a ⟨rest, errors⟩

/-- The next lexeme, if there is one, satisfies `P`. -/
def Next (P : Lexeme → Prop) (ts : List Token) : Prop :=
  ∀ t us, ts = t :: us → P t.lexeme

theorem next_cons {P : Lexeme → Prop} {t : Token} {us : List Token} :
    Next P (t :: us) ↔ P t.lexeme := by
  constructor
  · intro h
    exact h t us rfl
  · rintro h _ _ ⟨⟩
    exact h

theorem Next.mono {P Q : Lexeme → Prop} {ts : List Token} (h : Next P ts) (hPQ : ∀ x, P x → Q x) :
    Next Q ts :=
  fun t us hts => hPQ _ (h t us hts)

namespace Parses

variable {α β : Type} {p : Parser α} {a : α} {b : β} {us vs rest : List Token}

theorem pure : Parses (pure a) [] rest a :=
  fun _ => rfl

theorem bind {f : α → Parser β} (hp : Parses p us (vs ++ rest) a) (hf : Parses (f a) vs rest b) :
    Parses (p >>= f) (us ++ vs) rest b := by
  intro errors
  rw [List.append_assoc, bind_of_ok (hp errors)]
  exact hf errors

/-- A first step that reads nothing. -/
theorem after {f : α → Parser β} (hp : Parses p [] (vs ++ rest) a) (hf : Parses (f a) vs rest b) :
    Parses (p >>= f) vs rest b :=
  hp.bind hf

/-- A last step that reads nothing. -/
theorem last {f : α → Parser β} (hp : Parses p us rest a) (hf : Parses (f a) [] rest b) :
    Parses (p >>= f) us rest b := by
  intro errors
  rw [bind_of_ok (hp errors)]
  exact hf errors

theorem map (f : α → β) (hp : Parses p us rest a) : Parses (f <$> p) us rest (f a) :=
  fun errors => map_of_ok (hp errors) f

/-! ### Elementary parsers -/

theorem after_accept {s : Symbol} {l : Int} {f : Option Token → Parser β}
    (hf : Parses (f (some (sym s l))) vs rest b) :
    Parses (accept s >>= f) (sym s l :: vs) rest b := by
  have hrun : Parses (accept s) [sym s l] (vs ++ rest) (some (sym s l)) := by
    intro errors
    simp [accept, Token.isSymbol]
  exact hrun.bind hf

theorem skip_accept {s : Symbol} {f : Option Token → Parser β}
    (hnext : Next (· ≠ .symbol s) (vs ++ rest)) (hf : Parses (f none) vs rest b) :
    Parses (accept s >>= f) vs rest b := by
  refine after (fun errors => ?_) hf
  cases hts : vs ++ rest with
  | nil => rfl
  | cons t us =>
    have ht := hnext t us hts
    simp [accept, Token.isSymbol, ht]

theorem after_acceptKeyword {k : Keyword} {l : Int} {f : Option Token → Parser β}
    (hf : Parses (f (some (word k l))) vs rest b) :
    Parses (acceptKeyword k >>= f) (word k l :: vs) rest b := by
  have hrun : Parses (acceptKeyword k) [word k l] (vs ++ rest) (some (word k l)) := by
    intro errors
    simp [acceptKeyword, Token.isKeyword]
  exact hrun.bind hf

theorem skip_acceptKeyword {k : Keyword} {f : Option Token → Parser β}
    (hnext : Next (· ≠ .keyword k) (vs ++ rest)) (hf : Parses (f none) vs rest b) :
    Parses (acceptKeyword k >>= f) vs rest b := by
  refine after (fun errors => ?_) hf
  cases hts : vs ++ rest with
  | nil => rfl
  | cons t us =>
    have ht := hnext t us hts
    simp [acceptKeyword, Token.isKeyword, ht]

theorem after_acceptWith {g : Lexeme → Option α} {x : Lexeme} {l : Int}
    {f : Option (α × Token) → Parser β} (hg : g x = some a)
    (hf : Parses (f (some (a, ⟨x, l⟩))) vs rest b) :
    Parses (acceptWith g >>= f) (⟨x, l⟩ :: vs) rest b := by
  have hrun : Parses (acceptWith g) [⟨x, l⟩] (vs ++ rest) (some (a, ⟨x, l⟩)) := by
    intro errors
    simp [acceptWith, hg]
  exact hrun.bind hf

theorem skip_acceptWith {g : Lexeme → Option α} {f : Option (α × Token) → Parser β}
    (hnext : Next (g · = none) (vs ++ rest)) (hf : Parses (f none) vs rest b) :
    Parses (acceptWith g >>= f) vs rest b := by
  refine after (fun errors => ?_) hf
  cases hts : vs ++ rest with
  | nil => rfl
  | cons t us =>
    have ht := hnext t us hts
    simp [acceptWith, ht]

theorem after_expect {s : Symbol} {l : Int} {what : Expectation} {f : Token → Parser β}
    (hf : Parses (f (sym s l)) vs rest b) :
    Parses (expect s what >>= f) (sym s l :: vs) rest b := by
  unfold expect
  rw [bind_assoc]
  exact after_accept hf

theorem after_expectName {n : Name} {what : Expectation} {f : Name → Parser β}
    (hf : Parses (f n) vs rest b) :
    Parses (expectName what >>= f) (ident n :: vs) rest b := by
  have hrun : Parses (expectName what) [ident n] (vs ++ rest) n := fun _ => rfl
  exact hrun.bind hf

theorem after_map_expectName {n : Name} {what : Expectation} {g : Name → α} {f : α → Parser β}
    (hf : Parses (f (g n)) vs rest b) :
    Parses ((g <$> expectName what) >>= f) (ident n :: vs) rest b := by
  have hrun : Parses (expectName what) [ident n] (vs ++ rest) n := fun _ => rfl
  exact (hrun.map g).bind hf

theorem after_nextIs {s : Symbol} {l : Int} {f : Bool → Parser β}
    (hf : Parses (f true) [] (sym s l :: rest) b) :
    Parses (nextIs s >>= f) [] (sym s l :: rest) b := by
  refine after (fun errors => ?_) hf
  simp [nextIs, Token.isSymbol]

theorem skip_nextIs {s : Symbol} {f : Bool → Parser β}
    (hnext : Next (· ≠ .symbol s) (vs ++ rest)) (hf : Parses (f false) vs rest b) :
    Parses (nextIs s >>= f) vs rest b := by
  refine after (fun errors => ?_) hf
  cases hts : vs ++ rest with
  | nil => rfl
  | cons t us =>
    have ht := hnext t us hts
    simp [nextIs, Token.isSymbol, ht]

end Parses

/-! ### Repetition -/

section Repetition

variable {α : Type} {step : α → Parser (Option α)} {rest ts : List Token} {a b : α}

/-- Rounds of a loop from the front of a phrase to its end.  Each of them but
    the last, which finds nothing to do, reads a token. -/
inductive Loops (step : α → Parser (Option α)) (rest : List Token) : α → List Token → α → Prop
  | stop {a : α} : Parses (step a) [] rest none → Loops step rest a [] a
  | next {a b c : α} {us vs : List Token} : us ≠ [] → Parses (step a) us (vs ++ rest) (some b) →
      Loops step rest b vs c → Loops step rest a (us ++ vs) c

theorem parses_stepsUpTo (h : Loops step rest a ts b) (n : Nat) (hn : ts.length ≤ n) :
    Parses (stepsUpTo step n a) ts rest b := by
  induction h generalizing n with
  | stop hstop =>
    cases n with
    | zero => exact .pure
    | succ n =>
      unfold stepsUpTo
      exact .after hstop .pure
  | next hne hstep _ ih =>
    cases n with
    | zero =>
      -- the bound is not used up before the tokens are
      rw [List.length_append] at hn
      exact absurd (List.length_pos_iff.mpr hne) (by omega)
    | succ n =>
      rw [List.length_append] at hn
      have hpos := List.length_pos_iff.mpr hne
      unfold stepsUpTo
      exact .bind hstep (ih n (by omega))

theorem parses_steps (h : Loops step rest a ts b) : Parses (steps step a) ts rest b := by
  unfold steps
  cases h with
  | stop hstop => exact .after hstop .pure
  | @next _ b _ us vs hne hstep hloops =>
    refine .bind hstep fun errors => ?_
    have hrun : remaining ⟨vs ++ rest, errors⟩ = .ok (vs ++ rest).length ⟨vs ++ rest, errors⟩ :=
      rfl
    exact (bind_of_ok hrun _).trans (parses_stepsUpTo hloops _ (by simp) errors)

end Repetition

/-! ### Primary expressions and calls -/

section Expressions

variable {expression : Parser SourceExpr} {block : Parser (List SourceStmt)}
  {ts us vs rest : List Token} {l l₁ l₂ : Int} {n : Name} {e f : SourceExpr}

theorem parses_constant {x : Lexeme} {v : Literal} (h : constant? x = some v) :
    Parses (primary expression block) [⟨x, l⟩] rest (.literal v) := by
  have hopen : opening? x = some (.constant v) := by simp [opening?, h]
  exact .after_acceptWith hopen .pure

theorem parses_this : Parses (primary expression block) [word .thisWord l] rest (.this l ()) :=
  .after_acceptWith rfl .pure

theorem parses_name : Parses (primary expression block) [ident n] rest (.variable n ()) :=
  .after_acceptWith rfl .pure

theorem parses_super :
    Parses (primary expression block) [word .superWord l, sym .dot l₁, ident n] rest
      (.super l () n) :=
  .after_acceptWith rfl <| .after_expect <| .after_expectName .pure

theorem parses_group (he : Parses expression ts (sym .rightParen l₂ :: rest) e) :
    Parses (primary expression block) (sym .leftParen l₁ :: (ts ++ [sym .rightParen l₂])) rest
      (.group e) :=
  .after_acceptWith rfl <| .bind he <| .after_expect .pure

theorem parses_lambda {names : List Name} {body : List SourceStmt}
    (h : Parses (paramsAndBody .lambda block) ts rest (names, body)) :
    Parses (primary expression block) (word .funWord l :: ts) rest (.lambda l names body) :=
  .after_acceptWith rfl <| .last h .pure

theorem parses_nextCall_call {args : List SourceExpr}
    (h : Parses (arguments expression) us (sym .rightParen l₂ :: rest) args) :
    Parses (nextCall expression f) (sym .leftParen l₁ :: (us ++ [sym .rightParen l₂])) rest
      (some (.call f args l₂)) :=
  .after_accept <| .bind h <| .after_expect .pure

theorem parses_nextCall_property :
    Parses (nextCall expression f) [sym .dot l, ident n] rest (some (.get f n)) := by
  refine .skip_accept (next_cons.mpr nofun) ?_
  exact .after_accept <| .after_expectName .pure

end Expressions

/-! ### Operators -/

/-- How tightly the operators of a level bind. -/
def Parser.Level.rank : Level → Nat
  | .or => 1
  | .and => 2
  | .equality => 3
  | .comparison => 4
  | .term => 5
  | .factor => 6

/-- What may follow an operand of operators of the given rank: no call, no
    property access, and no operator that binds tighter. -/
def Follows (rank : Nat) (rest : List Token) : Prop :=
  Next (fun x => x ≠ .symbol .leftParen ∧ x ≠ .symbol .dot ∧
    ∀ l op, Level.operator? l x = some op → l.rank ≤ rank) rest

/-- What may follow an expression. -/
inductive ClosesExpression : List Token → Prop
  | rightParen {l : Int} {rest : List Token} : ClosesExpression (sym .rightParen l :: rest)
  | semicolon {l : Int} {rest : List Token} : ClosesExpression (sym .semicolon l :: rest)
  | comma {l : Int} {rest : List Token} : ClosesExpression (sym .comma l :: rest)

/-- A symbol that is no operator and opens nothing may follow any operand. -/
theorem follows_sym {s : Symbol} {l : Int} {rest : List Token} (rank : Nat)
    (hs : s ≠ .leftParen ∧ s ≠ .dot) (hop : ∀ l, Level.operator? l (.symbol s) = none) :
    Follows rank (sym s l :: rest) := by
  refine next_cons.mpr ⟨?_, ?_, ?_⟩
  · intro h
    exact hs.1 (Lexeme.symbol.inj h)
  · intro h
    exact hs.2 (Lexeme.symbol.inj h)
  · intro l' op h
    rw [hop l'] at h
    cases h

theorem follows_equal {l : Int} {rest : List Token} (rank : Nat) :
    Follows rank (sym .equal l :: rest) :=
  follows_sym rank ⟨nofun, nofun⟩ fun l => by cases l <;> rfl

theorem ClosesExpression.follows {rest : List Token} (h : ClosesExpression rest) (rank : Nat) :
    Follows rank rest := by
  cases h with
  | rightParen => exact follows_sym rank ⟨nofun, nofun⟩ fun l => by cases l <;> rfl
  | semicolon => exact follows_sym rank ⟨nofun, nofun⟩ fun l => by cases l <;> rfl
  | comma => exact follows_sym rank ⟨nofun, nofun⟩ fun l => by cases l <;> rfl

theorem ClosesExpression.next_ne_equal {rest : List Token} (h : ClosesExpression rest) :
    Next (· ≠ .symbol .equal) rest := by
  cases h <;> exact next_cons.mpr nofun

/-- A lexeme is an operator of one level only. -/
theorem level_unique {l l' : Level} {x : Lexeme} {op op' : Operator}
    (h : l.operator? x = some op) (h' : l'.operator? x = some op') : l = l' := by
  unfold Level.operator? at h
  split at h <;> cases l' <;> first | rfl | cases h' | cases h

theorem follows_operator {l : Level} {x : Lexeme} {op : Operator} {line : Int}
    {rest : List Token} (h : l.operator? x = some op) : Follows l.rank (⟨x, line⟩ :: rest) := by
  refine next_cons.mpr ⟨?_, ?_, ?_⟩
  · rintro rfl
    cases l <;> cases h
  · rintro rfl
    cases l <;> cases h
  · intro l' op' h'
    exact Nat.le_of_eq (by rw [level_unique h h'])

section Operators

variable {expression : Parser SourceExpr} {block : Parser (List SourceStmt)}
  {ts us vs rest : List Token} {e f : SourceExpr} {rank : Nat}

theorem parses_nextCall_stop (h : Follows rank rest) :
    Parses (nextCall expression f) [] rest none := by
  refine .skip_accept (h.mono fun x hx => hx.1) ?_
  exact .skip_accept (h.mono fun x hx => hx.2.1) .pure

theorem parses_call_one (he : Parses (primary expression block) ts rest e)
    (h : Follows rank rest) : Parses (call expression block) ts rest e :=
  .last he (parses_steps (.stop (parses_nextCall_stop h)))

theorem parses_nextUnary (op : UnaryOp) {l : Int} {ops : List (UnaryOp × Int)} :
    Parses (nextUnary ops) [sym op.symbol l] rest (some ((op, l) :: ops)) := by
  cases op <;> exact .after_acceptWith rfl .pure

theorem unaryOp?_of_opening? {x : Lexeme} (h : (opening? x).isSome) : unaryOp? x = none := by
  unfold unaryOp?
  split <;> first | rfl | cases h

theorem parses_nextUnary_stop {ops : List (UnaryOp × Int)} (h : Opens rest) :
    Parses (nextUnary ops) [] rest none := by
  obtain ⟨t, us, rfl, hopen, -⟩ := h
  exact .skip_acceptWith (next_cons.mpr (unaryOp?_of_opening? hopen)) .pure

/-- The parser of what stands between the operators of a level. -/
def operandParser (expression : Parser SourceExpr) (block : Parser (List SourceStmt)) :
    Level → Parser SourceExpr
  | .or => chain .and <| chain .equality <| chain .comparison <| chain .term <| chain .factor <|
      unary <| call expression block
  | .and => chain .equality <| chain .comparison <| chain .term <| chain .factor <| unary <|
      call expression block
  | .equality => chain .comparison <| chain .term <| chain .factor <| unary <|
      call expression block
  | .comparison => chain .term <| chain .factor <| unary <| call expression block
  | .term => chain .factor <| unary <| call expression block
  | .factor => unary <| call expression block

theorem operandParser_of_tighter {l l' : Level} (h : l.tighter? = some l') :
    operandParser expression block l = chain l' (operandParser expression block l') := by
  cases l <;> cases h <;> rfl

theorem operandParser_of_tightest {l : Level} (h : l.tighter? = none) :
    operandParser expression block l = unary (call expression block) := by
  cases l <;> cases h
  rfl

theorem rank_lt_of_tighter {l l' : Level} (h : l.tighter? = some l') : l.rank < l'.rank := by
  cases l <;> cases h <;> decide

theorem parses_nextOperand {l : Level} {x : Lexeme} {op : Operator} {line : Int}
    {operand : Parser SourceExpr} (hop : l.operator? x = some op)
    (he : Parses operand us rest e) :
    Parses (nextOperand l operand f) (⟨x, line⟩ :: us) rest (some (op.join line f e)) :=
  .after_acceptWith hop <| .last he .pure

theorem parses_nextOperand_stop {l : Level} {operand : Parser SourceExpr}
    (h : Follows rank rest) (hrank : rank < l.rank) :
    Parses (nextOperand l operand f) [] rest none := by
  refine .skip_acceptWith (h.mono fun x hx => ?_) .pure
  cases hop : l.operator? x with
  | none => rfl
  | some op =>
    have hle := hx.2.2 l op hop
    omega

theorem parses_chain {l : Level} {operand : Parser SourceExpr}
    (he : Parses operand ts (vs ++ rest) e) (hloops : Loops (nextOperand l operand) rest e vs f) :
    Parses (chain l operand) (ts ++ vs) rest f :=
  .bind he (parses_steps hloops)

/-- Operands without an operator of the level behind them. -/
theorem parses_chain_one {l : Level} {operand : Parser SourceExpr}
    (he : Parses operand ts rest e) (h : Follows rank rest) (hrank : rank < l.rank) :
    Parses (chain l operand) ts rest e := by
  have hloops : Loops (nextOperand l operand) rest e [] e :=
    .stop (parses_nextOperand_stop h hrank)
  have hoperand : Parses operand ts ([] ++ rest) e := he
  rw [← List.append_nil ts]
  exact parses_chain hoperand hloops

theorem parses_unary {operand : Parser SourceExpr} {ops : List (UnaryOp × Int)}
    (hloops : Loops nextUnary (vs ++ rest) [] us ops) (he : Parses operand vs rest e) :
    Parses (unary operand) (us ++ vs) rest (applyUnary ops e) :=
  .bind (parses_steps hloops) <| .last he .pure

/-- A call that no operator precedes or follows is read at every level. -/
theorem parses_operation_of_call (he : Parses (call expression block) ts rest e) (hopens : Opens ts)
    (h : Follows 0 rest) : Parses (operation expression block) ts rest e := by
  have hloops : Loops nextUnary (ts ++ rest) [] [] [] :=
    .stop (parses_nextUnary_stop (hopens.append rest))
  have hunary : Parses (unary (call expression block)) ts rest e := parses_unary hloops he
  have hone {l : Level} {p : Parser SourceExpr} (hp : Parses p ts rest e) :
      Parses (chain l p) ts rest e :=
    parses_chain_one hp h (by cases l <;> decide)
  exact hone <| hone <| hone <| hone <| hone <| hone hunary

/-! ### Assignments -/

theorem parses_assignment_of_operation (he : Parses (operation expression block) ts rest e)
    (h : Next (· ≠ .symbol .equal) rest) : Parses (assignment expression block) ts rest e :=
  .last he <| .skip_accept h .pure

theorem parses_assignment {l : Int} {target value : SourceExpr}
    (ht : Parses (operation expression block) ts (sym .equal l :: (us ++ rest)) target)
    (hv : Parses expression us rest value) (he : assignment? target value = some e) :
    Parses (assignment expression block) (ts ++ sym .equal l :: us) rest e := by
  refine .bind ht <| .after_accept <| .last hv ?_
  rw [he]
  exact .pure

end Operators

/-! ### Lists -/

section Lists

variable {expression : Parser SourceExpr} {ts us vs rest : List Token} {l : Int}

theorem StartsExpression.next_ne {s : Symbol} (h : StartsExpression ts)
    (hs : s = .rightParen ∨ s = .semicolon) : Next (· ≠ .symbol s) ts := by
  rcases h with ⟨t, us, rfl, hopen, -⟩ | ⟨op, l, us, rfl⟩
  · refine next_cons.mpr fun ht => ?_
    rw [ht] at hopen
    rcases hs with rfl | rfl <;> cases hopen
  · refine next_cons.mpr ?_
    rcases hs with rfl | rfl <;> cases op <;> exact nofun

theorem parses_unlessNext {symbol : Symbol} {e : SourceExpr} (h : StartsExpression ts)
    (hs : symbol = .rightParen ∨ symbol = .semicolon) (he : Parses expression ts rest e) :
    Parses (unlessNext symbol expression) ts rest (some e) :=
  .skip_nextIs ((h.append rest).next_ne hs) <| .map some he

theorem parses_unlessNext_absent {symbol : Symbol} :
    Parses (unlessNext symbol expression) [] (sym symbol l :: rest) none :=
  .after_nextIs .pure

theorem parses_nextArgument {args : List SourceExpr} {e : SourceExpr}
    (hlen : args.length < maxArguments) (he : Parses expression us rest e) :
    Parses (nextArgument expression args) (sym .comma l :: us) rest (some (e :: args)) := by
  refine .after_accept ?_
  rw [if_neg (Nat.not_le.mpr hlen)]
  exact .last he .pure

theorem parses_nextArgument_stop {args : List SourceExpr} :
    Parses (nextArgument expression args) [] (sym .rightParen l :: rest) none :=
  .skip_accept (next_cons.mpr nofun) .pure

theorem parses_arguments {args : List SourceExpr} (h : StartsExpression ts)
    (hargs : Parses (do
      let first ← expression
      steps (nextArgument expression) [first]) ts rest args) :
    Parses (arguments expression) ts rest args.reverse := by
  refine .skip_nextIs ((h.append rest).next_ne (.inl rfl)) ?_
  have hreverse : Parses ((do
      let first ← expression
      steps (nextArgument expression) [first]) >>= fun es => pure es.reverse) ts rest
      args.reverse := hargs.last .pure
  rwa [bind_assoc] at hreverse

theorem parses_nextParam {names : List Name} {n : Name} (hlen : names.length < maxArguments) :
    Parses (nextParam names) [sym .comma l, ident n] rest (some (n :: names)) := by
  refine .after_accept ?_
  rw [if_neg (Nat.not_le.mpr hlen)]
  exact .after_expectName .pure

theorem parses_nextParam_stop {names : List Name} :
    Parses (nextParam names) [] (sym .rightParen l :: rest) none :=
  .skip_accept (next_cons.mpr nofun) .pure

theorem parses_params {names : List Name} {n : Name}
    (hloops : Loops nextParam rest [n] us names) :
    Parses params (ident n :: us) rest names.reverse := by
  refine .skip_nextIs (next_cons.mpr nofun) <| .after_expectName ?_
  exact .last (parses_steps hloops) .pure

end Lists

/-! ### Functions and blocks -/

section Functions

variable {block : Parser (List SourceStmt)} {declaration : Parser (Option SourceStmt)}
  {ts us vs rest : List Token} {l l₁ l₂ l₃ : Int} {names : List Name}
  {body ss : List SourceStmt} {n : Name}

theorem parses_paramsAndBody {role : Role} (hnames : Parses params ts (sym .rightParen l₂ ::
      (sym .leftBrace l₃ :: (us ++ rest))) names)
    (hbody : Parses block us rest body) :
    Parses (paramsAndBody role block)
      (sym .leftParen l₁ :: (ts ++ sym .rightParen l₂ :: sym .leftBrace l₃ :: us)) rest
      (names, body) :=
  .after_expect <| .bind hnames <| .after_expect <| .after_expect <| .last hbody .pure

/-- The parser can tell that a declaration begins. -/
def SeesDeclaration (ends : Parser Bool) : Prop :=
  ∀ ts, StartsDeclaration ts → Parses ends [] ts false

theorem seesDeclaration_atEnd : SeesDeclaration atEnd := by
  rintro _ ⟨t, us, rfl, -⟩ errors
  rfl

theorem seesDeclaration_blockEnds : SeesDeclaration blockEnds := by
  rintro _ ⟨t, us, rfl, ht, -⟩
  have hend : Parses atEnd [] ([] ++ t :: us) false := fun errors => rfl
  exact .after hend <| .skip_nextIs (next_cons.mpr ht) .pure

theorem parses_blockEnds : Parses blockEnds [] (sym .rightBrace l :: rest) true := by
  have hend : Parses atEnd [] ([] ++ sym .rightBrace l :: rest) false := fun errors => rfl
  exact .after hend <| .after_nextIs .pure

theorem parses_nextDeclaration {ends : Parser Bool} {s : SourceStmt} (hends : SeesDeclaration ends)
    (hstart : StartsDeclaration us) (hs : Parses declaration us rest (some s)) :
    Parses (nextDeclaration ends declaration ss) us rest (some (s :: ss)) := by
  obtain ⟨t, vs, rfl, ht⟩ := hstart
  have hgoes : Parses ends [] (t :: vs ++ rest) false := hends _ ⟨t, vs ++ rest, rfl, ht⟩
  exact .after hgoes <| .last hs .pure

theorem parses_nextDeclaration_stop :
    Parses (nextDeclaration blockEnds declaration ss) [] (sym .rightBrace l :: rest) none :=
  .after parses_blockEnds .pure

theorem parses_block (h : Loops (nextDeclaration blockEnds declaration)
      (sym .rightBrace l :: rest) [] ts ss.reverse) :
    Parses (Parser.block declaration) (ts ++ [sym .rightBrace l]) rest ss := by
  have hss : Parses (declarations blockEnds declaration) ts (sym .rightBrace l :: rest)
      ss.reverse.reverse := .last (parses_steps h) .pure
  rw [List.reverse_reverse] at hss
  exact .bind hss <| .after_expect .pure

theorem parses_functionDeclaration {role : Role}
    (h : Parses (paramsAndBody role (Parser.block declaration)) ts rest (names, body)) :
    Parses (functionDeclaration role declaration) (ident n :: ts) rest (.mk n names body) :=
  .after_expectName <| .last h .pure

theorem parses_nextMethod {ms : List SourceFun} {m : SourceFun}
    (hm : Parses (functionDeclaration .method declaration) (ident n :: us) rest m) :
    Parses (nextMethod declaration ms) (ident n :: us) rest (some (m :: ms)) := by
  have hgoes : Parses blockEnds [] (ident n :: us ++ rest) false :=
    seesDeclaration_blockEnds _ ⟨_, _, rfl, nofun, nofun⟩
  exact .after hgoes <| .last hm .pure

theorem parses_nextMethod_stop {ms : List SourceFun} :
    Parses (nextMethod declaration ms) [] (sym .rightBrace l :: rest) none :=
  .after parses_blockEnds .pure

theorem parses_classDeclaration {ms : List SourceFun}
    (h : Loops (nextMethod declaration) (sym .rightBrace l₂ :: rest) [] ts ms.reverse) :
    Parses (classDeclaration declaration)
      (ident n :: sym .leftBrace l₁ :: (ts ++ [sym .rightBrace l₂])) rest
      (.classDecl n none ms) := by
  have hms := parses_steps h
  refine .after_expectName <| .skip_accept (next_cons.mpr nofun) ?_
  refine .after_expect <| .bind hms <| .after_expect ?_
  rw [List.reverse_reverse]
  exact .pure

theorem parses_subclassDeclaration {ms : List SourceFun} {m : Name}
    (h : Loops (nextMethod declaration) (sym .rightBrace l₃ :: rest) [] ts ms.reverse) :
    Parses (classDeclaration declaration)
      (ident n :: sym .less l₁ :: ident m :: sym .leftBrace l₂ :: (ts ++ [sym .rightBrace l₃]))
      rest (.classDecl n (some (m, ())) ms) := by
  have hms := parses_steps h
  refine .after_expectName <| .after_accept <| .after_map_expectName ?_
  refine .after_expect <| .bind hms <| .after_expect ?_
  rw [List.reverse_reverse]
  exact .pure

end Functions

/-! ### Statements -/

section Statements

variable {interactive : Bool} {expression : Parser SourceExpr} {statement : Parser SourceStmt}
  {declaration : Parser (Option SourceStmt)} {ts us vs ws rest : List Token}
  {l l₁ l₂ l₃ : Int} {n : Name} {e c : SourceExpr} {a b : SourceStmt}

theorem parses_expressionStatement (he : Parses expression ts (sym .semicolon l :: rest) e) :
    Parses (expressionStatement interactive expression) (ts ++ [sym .semicolon l]) rest
      (.expression e) := by
  have hend : Parses atEnd [] ([sym .semicolon l] ++ rest) false := fun errors => rfl
  refine .bind he <| .after hend ?_
  rw [Bool.and_false]
  exact .after_expect .pure

theorem parses_varDeclaration :
    Parses (varDeclaration expression) [ident n, sym .semicolon l] rest (.var n none) := by
  refine .after_expectName <| .skip_accept (next_cons.mpr nofun) ?_
  exact .after_expect .pure

theorem parses_varDeclaration_initial
    (he : Parses expression ts (sym .semicolon l₂ :: rest) e) :
    Parses (varDeclaration expression)
      (ident n :: sym .equal l₁ :: (ts ++ [sym .semicolon l₂])) rest (.var n (some e)) :=
  .after_expectName <| .after_accept <| .bind (.map some he) <| .after_expect .pure

theorem parses_forInitial_none :
    Parses (forInitial interactive expression) [sym .semicolon l] rest none :=
  .after_accept .pure

theorem parses_forInitial_var (h : Parses (varDeclaration expression) ts rest a) :
    Parses (forInitial interactive expression) (word .varWord l :: ts) rest (some a) :=
  .skip_accept (next_cons.mpr nofun) <| .after_acceptKeyword <| .map some h

theorem StartsExpression.next_ne_keyword {k : Keyword} (h : StartsExpression ts)
    (hk : k = .varWord ∨ k = .classWord) : Next (· ≠ .keyword k) ts := by
  rcases h with ⟨t, us, rfl, hopen, -⟩ | ⟨op, l, us, rfl⟩
  · refine next_cons.mpr fun ht => ?_
    rw [ht] at hopen
    rcases hk with rfl | rfl <;> cases hopen
  · exact next_cons.mpr nofun

theorem parses_forInitial_expression (hstart : StartsExpression ts)
    (h : Parses (expressionStatement interactive expression) ts rest a) :
    Parses (forInitial interactive expression) ts rest (some a) := by
  refine .skip_accept ((hstart.append rest).next_ne (.inr rfl)) ?_
  exact .skip_acceptKeyword ((hstart.append rest).next_ne_keyword (.inl rfl)) <| .map some h

theorem parses_forStatement {initial : Option SourceStmt} {condition step : Option SourceExpr}
    (hi : Parses (forInitial interactive expression) ts
      (us ++ sym .semicolon l₂ :: (vs ++ sym .rightParen l₃ :: (ws ++ rest))) initial)
    (hc : Parses (unlessNext .semicolon expression) us
      (sym .semicolon l₂ :: (vs ++ sym .rightParen l₃ :: (ws ++ rest))) condition)
    (hs : Parses (unlessNext .rightParen expression) vs (sym .rightParen l₃ :: (ws ++ rest)) step)
    (hb : Parses statement ws rest b) :
    Parses (forStatement interactive expression statement)
      (sym .leftParen l₁ :: (ts ++ (us ++ sym .semicolon l₂ :: (vs ++ sym .rightParen l₃ :: ws))))
      rest (.forLoop initial condition step b) := by
  refine .after_expect <| .bind ?_ <| .bind ?_ <| .after_expect <| .bind ?_ <| .after_expect <|
    .last hb .pure
  · simpa using hi
  · simpa using hc
  · exact hs

theorem parses_ifStatement (hc : Parses expression ts (sym .rightParen l₂ :: (us ++ rest)) c)
    (ha : Parses statement us rest a) (hnext : Next (· ≠ .keyword .elseWord) rest) :
    Parses (ifStatement expression statement)
      (sym .leftParen l₁ :: (ts ++ sym .rightParen l₂ :: us)) rest (.branch c a none) :=
  .after_expect <| .bind hc <| .after_expect <| .last ha <| .skip_acceptKeyword hnext .pure

theorem parses_ifElseStatement
    (hc : Parses expression ts (sym .rightParen l₂ :: (us ++ word .elseWord l₃ :: (vs ++ rest))) c)
    (ha : Parses statement us (word .elseWord l₃ :: (vs ++ rest)) a)
    (hb : Parses statement vs rest b) :
    Parses (ifStatement expression statement)
      (sym .leftParen l₁ :: (ts ++ sym .rightParen l₂ :: (us ++ word .elseWord l₃ :: vs))) rest
      (.branch c a (some b)) := by
  refine .after_expect <| .bind ?_ <| .after_expect <| .bind ha <| .after_acceptKeyword <|
    .last (.map some hb) .pure
  simpa using hc

theorem parses_whileStatement (hc : Parses expression ts (sym .rightParen l₂ :: (us ++ rest)) c)
    (ha : Parses statement us rest a) :
    Parses (whileStatement expression statement)
      (sym .leftParen l₁ :: (ts ++ sym .rightParen l₂ :: us)) rest (.loop c a) :=
  .after_expect <| .bind hc <| .after_expect <| .last ha .pure

theorem parses_printStatement (he : Parses expression ts (sym .semicolon l :: rest) e) :
    Parses (printStatement expression) (ts ++ [sym .semicolon l]) rest (.print e) :=
  .bind he <| .after_expect .pure

theorem parses_returnStatement {value : Option SourceExpr}
    (he : Parses (unlessNext .semicolon expression) ts (sym .semicolon l₁ :: rest) value) :
    Parses (returnStatement l expression) (ts ++ [sym .semicolon l₁]) rest (.ret l value) :=
  .bind he <| .after_expect .pure

theorem statementKind?_of_opening? {x : Lexeme} (h : (opening? x).isSome) :
    statementKind? x = none := by
  unfold statementKind?
  split <;> first | rfl | cases h

/-- Nothing that an expression begins with announces a statement. -/
theorem StartsExpression.next_statementKind? (h : StartsExpression ts) :
    Next (statementKind? · = none) ts := by
  rcases h with ⟨t, us, rfl, hopen, -⟩ | ⟨op, l, us, rfl⟩
  · exact next_cons.mpr (statementKind?_of_opening? hopen)
  · refine next_cons.mpr ?_
    cases op <;> rfl

theorem parses_statement_expression (hstart : StartsExpression ts)
    (h : Parses (expressionStatement interactive expression) ts rest a) :
    Parses (statementWith interactive expression statement declaration) ts rest a :=
  .skip_acceptWith (hstart.append rest).next_statementKind? h

/-- No statement begins as a declaration that is none. -/
theorem StartsStatement.declares_nothing (h : StartsStatement ts) :
    Next (· ≠ .keyword .classWord) ts ∧ Next (· ≠ .keyword .varWord) ts ∧
      Parses acceptNamedFun [] ts false := by
  rcases h with h | ⟨t, us, rfl, hkind⟩
  · refine ⟨h.next_ne_keyword (.inr rfl), h.next_ne_keyword (.inl rfl), fun errors => ?_⟩
    rcases h with ⟨t, us, rfl, -, hfun⟩ | ⟨op, l, us, rfl⟩
    · -- `fun` before a parenthesis is an expression
      by_cases ht : t.lexeme = .keyword .funWord
      · obtain ⟨l, vs, rfl⟩ := hfun ht
        simp [acceptNamedFun, nameOf?]
      · cases us <;> simp [acceptNamedFun, Token.isKeyword, ht]
    · cases us <;> simp [acceptNamedFun, Token.isKeyword]
  · have hne (k : Keyword) (hk : statementKind? (.keyword k) = none) :
        t.lexeme ≠ .keyword k := by
      intro ht
      rw [ht, hk] at hkind
      cases hkind
    refine ⟨next_cons.mpr (hne _ rfl), next_cons.mpr (hne _ rfl), fun errors => ?_⟩
    cases us <;> simp [acceptNamedFun, Token.isKeyword, hne .funWord rfl]

theorem parses_declaration_statement (hstart : StartsStatement (ts ++ rest))
    (h : Parses statement ts rest a) :
    Parses (declarationWith expression statement declaration) ts rest a := by
  obtain ⟨hclass, hvar, hfun⟩ := hstart.declares_nothing
  exact .skip_acceptKeyword hclass <| .after hfun <| .skip_acceptKeyword hvar h

theorem parses_declaration_var (h : Parses (varDeclaration expression) ts rest a) :
    Parses (declarationWith expression statement declaration) (word .varWord l :: ts) rest a := by
  refine .skip_acceptKeyword (next_cons.mpr nofun) ?_
  have hfun : Parses acceptNamedFun [] (word .varWord l :: ts ++ rest) false := by
    intro errors
    cases hts : ts ++ rest with
    | nil => simp [acceptNamedFun, hts]
    | cons t us => simp [acceptNamedFun, hts, Token.isKeyword]
  exact .after hfun <| .after_acceptKeyword h

theorem parses_declaration_function {f : SourceFun}
    (h : Parses (functionDeclaration .function declaration) (ident n :: ts) rest f) :
    Parses (declarationWith expression statement declaration) (word .funWord l :: ident n :: ts)
      rest (.function f) := by
  refine .skip_acceptKeyword (next_cons.mpr nofun) ?_
  have hfun : Parses acceptNamedFun [word .funWord l] (ident n :: ts ++ rest) true :=
    fun errors => rfl
  exact .bind hfun <| .map Stmt.function h

end Statements

/-! ### Every phrase -/

/-- What a phrase of a category is parsed to, and under which conditions.  The
    nesting `n` of the parsers of what stands inside has to be large enough for
    the length of the phrase.  For the categories whose rules add an item at the
    end, the rounds that follow the phrase are given as `Loops`.  An interactive
    entry is parsed like a script as long as no semicolon is left out. -/
def IsParsed (interactive : Bool) : (c : Category) → List Token → c.Tree → Prop
  | .primary, ts, e => ∀ n rest, 3 * ts.length ≤ n →
      Parses (primary (expression interactive n) (block (declaration interactive n))) ts rest e
  | .call, ts, e => ∀ n vs rest f, 3 * ts.length ≤ n →
      Loops (nextCall (expression interactive n)) rest e vs f →
      Parses (call (expression interactive n) (block (declaration interactive n))) (ts ++ vs) rest f
  | .unary, ts, e => ∀ n rest, 3 * ts.length ≤ n → Follows 6 rest →
      ∃ us vs ops f, ts = us ++ vs ∧ e = applyUnary ops f ∧
        (∀ before, Loops nextUnary (vs ++ rest) before us (ops ++ before)) ∧
        Parses (call (expression interactive n) (block (declaration interactive n))) vs rest f
  | .operand l, ts, e => ∀ n rest, 3 * ts.length ≤ n → Follows l.rank rest →
      Parses (operandParser (expression interactive n) (block (declaration interactive n)) l) ts rest e
  | .level l, ts, e => ∀ n vs rest f, 3 * ts.length ≤ n → Follows l.rank (vs ++ rest) →
      Loops (nextOperand l (operandParser (expression interactive n) (block (declaration interactive n)) l))
        rest e vs f →
      Parses (chain l (operandParser (expression interactive n) (block (declaration interactive n)) l))
        (ts ++ vs) rest f
  | .expression, ts, e => ∀ n rest, 3 * ts.length + 1 ≤ n → ClosesExpression rest →
      Parses (expression interactive n) ts rest e
  | .optional, ts, e => ∀ n s l rest, 3 * ts.length + 1 ≤ n → s = .rightParen ∨ s = .semicolon →
      Parses (unlessNext s (expression interactive n)) ts (sym s l :: rest) e
  | .arguments, ts, es => ∀ n vs rest fs, 3 * ts.length + 1 ≤ n → es.length ≤ maxArguments →
      ClosesExpression (vs ++ rest) →
      Loops (nextArgument (expression interactive n)) rest es.reverse vs fs →
      Parses (do
        let first ← expression interactive n
        steps (nextArgument (expression interactive n)) [first]) (ts ++ vs) rest fs
  | .argumentList, ts, es => ∀ n l rest, 3 * ts.length + 1 ≤ n →
      Parses (arguments (expression interactive n)) ts (sym .rightParen l :: rest) es
  | .params, ts, ns => ns.length ≤ maxArguments → ∀ vs rest ms,
      Loops nextParam rest ns.reverse vs ms →
      ∃ n us, ts ++ vs = ident n :: us ∧ Loops nextParam rest [n] us ms
  | .paramList, ts, ns => ∀ l rest, Parses params ts (sym .rightParen l :: rest) ns
  | .signature, ts, signature => ∀ n role rest, 3 * ts.length ≤ n →
      Parses (paramsAndBody role (block (declaration interactive n))) ts rest signature
  | .block, ts, ss => ∀ n rest, 3 * ts.length ≤ n →
      ∃ l us, ts = sym .leftBrace l :: us ∧ Parses (block (declaration interactive n)) us rest ss
  | .function, ts, f => ∀ n role rest, 3 * ts.length ≤ n →
      Parses (functionDeclaration role (declaration interactive n)) ts rest f
  | .methods, ts, ms => ∀ n vs rest fs, 3 * ts.length ≤ n →
      Loops (nextMethod (declaration interactive n)) rest ms.reverse vs fs →
      Loops (nextMethod (declaration interactive n)) rest [] (ts ++ vs) fs
  | .exprStmt, ts, s => ∀ n rest, 3 * ts.length ≤ n →
      Parses (expressionStatement interactive (expression interactive n)) ts rest s
  | .varDecl, ts, s => ∀ n rest, 3 * ts.length ≤ n →
      ∃ l us, ts = word .varWord l :: us ∧ Parses (varDeclaration (expression interactive n)) us rest s
  | .forInitial, ts, initial => ∀ n rest, 3 * ts.length ≤ n →
      Parses (forInitial interactive (expression interactive n)) ts rest initial
  | .statement dangling, ts, s => ∀ n rest, 3 * ts.length + 2 ≤ n →
      (dangling = true → Next (· ≠ .keyword .elseWord) rest) →
      Parses (statement interactive n) ts rest s
  | .declaration, ts, s => ∀ n rest, 3 * ts.length + 3 ≤ n →
      Next (· ≠ .keyword .elseWord) rest → Parses (declaration interactive n) ts rest (some s)
  | .declarations, ts, ss => ∀ n ends vs rest fs, 3 * ts.length + 3 ≤ n → SeesDeclaration ends →
      Next (· ≠ .keyword .elseWord) (vs ++ rest) →
      Loops (nextDeclaration ends (declaration interactive n)) rest ss.reverse vs fs →
      Loops (nextDeclaration ends (declaration interactive n)) rest [] (ts ++ vs) fs

theorem constant?_of_literal? {x : Lexeme} {v : Literal} (h : x.literal? = some v) :
    constant? x = some v := by
  cases x with
  | keyword k => cases h
  | symbol s => exact h
  | identifier name => exact h
  | string quote content => exact h
  | number whole fraction => exact h

theorem rank_of_tightest {l : Level} (h : l.tighter? = none) : l.rank = 6 := by
  cases l <;> cases h
  rfl

section Nesting

variable {interactive : Bool} {ts rest : List Token} {n : Nat}

theorem parses_expression {e : SourceExpr} (hn : 0 < n)
    (h : ∀ k, n = k + 1 →
      Parses (assignment (expression interactive k) (block (declaration interactive k))) ts rest e) :
    Parses (expression interactive n) ts rest e := by
  obtain ⟨k, rfl⟩ := Nat.exists_eq_add_one.mpr hn
  rw [expression]
  exact h k rfl

theorem parses_statement {s : SourceStmt} (hn : 0 < n)
    (h : ∀ k, n = k + 1 → Parses (statementWith interactive (expression interactive k) (statement interactive k)
      (declaration interactive k)) ts rest s) :
    Parses (statement interactive n) ts rest s := by
  obtain ⟨k, rfl⟩ := Nat.exists_eq_add_one.mpr hn
  rw [statement]
  exact h k rfl

theorem parses_declaration {s : SourceStmt} (hn : 0 < n)
    (h : ∀ k, n = k + 1 → Parses (declarationWith (expression interactive k) (statement interactive k)
      (declaration interactive k)) ts rest s) :
    Parses (declaration interactive n) ts rest (some s) := by
  obtain ⟨k, rfl⟩ := Nat.exists_eq_add_one.mpr hn
  intro errors
  rw [declaration]
  simp only [recovering, h k rfl errors]

end Nesting

theorem isParsed_of_derives {interactive : Bool} {c : Category} {ts : List Token} {t : c.Tree}
    (h : Derives true false c ts t) : IsParsed interactive c ts t := by
  induction h with
  -- primary expressions
  | falseWord | trueWord | nilWord => exact fun n rest hn => parses_constant rfl
  | literal hv =>
    intro n rest hn
    exact parses_constant (constant?_of_literal? hv)
  | this => exact fun n rest hn => parses_this
  | name => exact fun n rest hn => parses_name
  | super => exact fun n rest hn => parses_super
  | group _ ih =>
    intro n rest hn
    simp only [List.length_cons, List.length_append] at hn
    exact parses_group (ih n _ (by omega) .rightParen)
  | lambda _ ih =>
    intro n rest hn
    simp only [List.length_cons] at hn
    exact parses_lambda (ih n .lambda rest (by omega))
  -- calls and properties
  | callee _ ih => exact fun n vs rest f hn hloops => .bind (ih n _ hn) (parses_steps hloops)
  | call _ _ ihf ihargs =>
    intro n vs rest f hn hloops
    simp only [List.length_cons, List.length_append] at hn
    -- this call is the first of the rounds that follow its callee
    rw [List.append_assoc]
    refine ihf n _ rest f (by omega) (.next (List.cons_ne_nil _ _) ?_ hloops)
    exact parses_nextCall_call (ihargs n _ _ (by omega))
  | property _ ih =>
    intro n vs rest f hn hloops
    simp only [List.length_append] at hn
    rw [List.append_assoc]
    refine ih n _ rest f (by omega) (.next (List.cons_ne_nil _ _) ?_ hloops)
    exact parses_nextCall_property
  -- operators
  | unaryOperand h ih =>
    intro n rest hn hnext
    refine ⟨[], _, [], _, rfl, rfl, fun before => .stop ?_, ?_⟩
    · exact parses_nextUnary_stop (Opens.append h.begins rest)
    · have hcall := ih n [] rest _ hn (.stop (parses_nextCall_stop hnext))
      rwa [List.append_nil] at hcall
  | @unary op l _ _ _ ih =>
    -- the operators are collected before the operand is read
    intro n rest hn hnext
    rw [List.length_cons] at hn
    obtain ⟨us, vs, ops, f, rfl, rfl, hloops, hcall⟩ := ih n rest (by omega) hnext
    refine ⟨sym op.symbol l :: us, vs, ops ++ [(op, l)], f, rfl, ?_, fun before => ?_, hcall⟩
    · simp [applyUnary, List.foldl_append]
    · have hstep : Parses (nextUnary before) [sym op.symbol l] (us ++ (vs ++ rest))
          (some ((op, l) :: before)) := parses_nextUnary op
      have hnext := Loops.next (List.cons_ne_nil _ _) hstep (hloops ((op, l) :: before))
      simpa using hnext
  | operandTighter hl _ ih =>
    intro n rest hn hnext
    -- what follows binds no tighter than this level, so it ends the tighter one
    have hlt := rank_lt_of_tighter hl
    rw [operandParser_of_tighter hl]
    have hlevel := ih n [] rest _ hn (hnext.mono ?_) (.stop (parses_nextOperand_stop hnext hlt))
    · rwa [List.append_nil] at hlevel
    · exact fun x ⟨hparen, hdot, hop⟩ =>
        ⟨hparen, hdot, fun l' op' h' => Nat.le_trans (hop l' op' h') (Nat.le_of_lt hlt)⟩
  | operandUnary hl _ ih =>
    intro n rest hn hnext
    rw [operandParser_of_tightest hl]
    have hrank : Level.rank _ = 6 := rank_of_tightest hl
    rw [hrank] at hnext
    obtain ⟨us, vs, ops, f, rfl, rfl, hloops, hcall⟩ := ih n rest hn hnext
    have hops := hloops []
    rw [List.append_nil] at hops
    exact parses_unary hops hcall
  | operand _ ih =>
    intro n vs rest f hn hnext hloops
    exact parses_chain (ih n _ hn hnext) hloops
  | operator _ hop _ iha ihb =>
    intro n vs rest f hn hnext hloops
    simp only [List.length_append, List.length_cons] at hn
    -- the left operand ends at this operator, whose round comes next
    rw [List.append_assoc]
    refine iha n _ rest f (by omega) (follows_operator hop) ?_
    exact .next (List.cons_ne_nil _ _) (parses_nextOperand hop (ihb n _ (by omega) hnext)) hloops
  -- assignments
  | operation _ ih =>
    intro n rest hn hcloses
    refine parses_expression (by omega) fun k hk => ?_
    refine parses_assignment_of_operation ?_ hcloses.next_ne_equal
    have hstop := ih k [] rest _ (by omega) (hcloses.follows _)
      (.stop (parses_nextOperand_stop (hcloses.follows 0) (by decide)))
    rwa [List.append_nil] at hstop
  | @assign n l ts _ _ ih =>
    intro m rest hm hcloses
    simp only [List.length_cons] at hm
    refine parses_expression (by omega) fun k hk => ?_
    -- the target is read as an expression first
    have htarget : Parses (operation (expression interactive k) (block (declaration interactive k)))
        [ident n] (sym .equal l :: (ts ++ rest)) (.variable n ()) :=
      parses_operation_of_call (parses_call_one parses_name (follows_equal 0))
        (opens_of_lexeme rfl nofun) (follows_equal 0)
    exact parses_assignment htarget (ih k rest (by omega) hcloses) rfl
  | @setProperty n l₁ l₂ ts us o _ ho _ iho ihe =>
    intro m rest hm hcloses
    simp only [List.length_append, List.length_cons] at hm
    refine parses_expression (by omega) fun k hk => ?_
    have hloops : Loops (nextCall (expression interactive k)) (sym .equal l₂ :: (us ++ rest)) o
        ([sym .dot l₁, ident n] ++ []) (.get o n) :=
      .next (List.cons_ne_nil _ _) parses_nextCall_property
        (.stop (parses_nextCall_stop (follows_equal 0)))
    have htarget := parses_operation_of_call (iho k _ _ _ (by omega) hloops)
      (Opens.append ho.begins _) (follows_equal 0)
    simpa using parses_assignment htarget (ihe k rest (by omega) hcloses) rfl
  | absent => exact fun n s l rest hn hs => parses_unlessNext_absent
  | present h ih =>
    intro n s l rest hn hs
    refine parses_unlessNext h.begins hs (ih n _ hn ?_)
    rcases hs with rfl | rfl
    · exact .rightParen
    · exact .semicolon
  -- lists
  | oneArgument _ ih =>
    intro n vs rest fs hn hlen hcloses hloops
    exact .bind (ih n _ hn hcloses) (parses_steps hloops)
  | moreArguments _ _ ihes ihe =>
    intro n vs rest fs hn hlen hcloses hloops
    simp only [List.length_append, List.length_cons, List.length_nil] at hn hlen
    -- the loop keeps the arguments in reverse, the last one at the front
    rw [List.append_assoc]
    rw [List.reverse_append] at hloops
    refine ihes n _ rest fs (by omega) (by omega) .comma (.next (List.cons_ne_nil _ _) ?_ hloops)
    exact parses_nextArgument (by rw [List.length_reverse]; omega) (ihe n _ (by omega) hcloses)
  | noArguments => exact fun n l rest hn => .after_nextIs .pure
  | someArguments h hlen ih =>
    intro n l rest hn
    have hargs := ih n [] (sym .rightParen l :: rest) _ hn hlen .rightParen
      (.stop parses_nextArgument_stop)
    rw [List.append_nil] at hargs
    have hparsed := parses_arguments h.begins hargs
    rwa [List.reverse_reverse] at hparsed
  | oneParam => exact fun _ vs rest ms hloops => ⟨_, vs, rfl, hloops⟩
  | moreParams _ ih =>
    intro hlen vs rest ms hloops
    simp only [List.length_append, List.length_cons, List.length_nil] at hlen
    rw [List.append_assoc]
    rw [List.reverse_append] at hloops
    refine ih (by omega) _ rest ms (.next (List.cons_ne_nil _ _) ?_ hloops)
    exact parses_nextParam (by rw [List.length_reverse]; omega)
  | noParams => exact fun l rest => .after_nextIs .pure
  | someParams _ hlen ih =>
    intro l rest
    obtain ⟨n, us, hus, hloops⟩ := ih hlen [] (sym .rightParen l :: rest) _
      (.stop parses_nextParam_stop)
    rw [List.append_nil] at hus
    rw [hus]
    have hparsed := parses_params hloops
    rwa [List.reverse_reverse] at hparsed
  -- functions and blocks
  | signature _ _ ihnames ihbody =>
    intro n role rest hn
    simp only [List.length_append, List.length_cons] at hn
    obtain ⟨l, vs, rfl, hbody⟩ := ihbody n rest (by omega)
    exact parses_paramsAndBody (ihnames _ _) hbody
  | @block l₁ l₂ ts ss _ ih =>
    intro n rest hn
    simp only [List.length_append, List.length_cons] at hn
    refine ⟨l₁, _, rfl, parses_block ?_⟩
    have hnext : Next (· ≠ .keyword .elseWord) (sym .rightBrace l₂ :: rest) :=
      next_cons.mpr nofun
    have hloops := ih n blockEnds [] _ _ (by omega) seesDeclaration_blockEnds hnext
      (.stop parses_nextDeclaration_stop)
    rwa [List.append_nil] at hloops
  | function _ ih =>
    intro n role rest hn
    simp only [List.length_cons] at hn
    exact parses_functionDeclaration (ih n role rest (by omega))
  | noMethods => exact fun n vs rest fs hn hloops => hloops
  | moreMethods _ hm ihms ihm =>
    intro n vs rest fs hn hloops
    obtain ⟨name, us, rfl⟩ := hm.begins
    simp only [List.length_append, List.length_cons] at hn
    rw [List.append_assoc]
    rw [List.reverse_append] at hloops
    refine ihms n _ rest fs (by omega) (.next (List.cons_ne_nil _ _) ?_ hloops)
    exact parses_nextMethod (ihm n .method _ (by rw [List.length_cons]; omega))
  -- statements
  | exprStmt _ ih =>
    intro n rest hn
    simp only [List.length_append, List.length_cons] at hn
    exact parses_expressionStatement (ih n _ (by omega) .semicolon)
  | bareStmt hbare => cases hbare
  | evaluate h ih =>
    intro n rest hn _
    refine parses_statement (by omega) fun k hk => ?_
    exact parses_statement_expression h.begins (ih k rest (by omega))
  | print _ ih =>
    intro n rest hn _
    simp only [List.length_append, List.length_cons] at hn
    refine parses_statement (by omega) fun k hk => .after_acceptWith rfl ?_
    exact parses_printStatement (ih k _ (by omega) .semicolon)
  | ret _ ih =>
    intro n rest hn _
    simp only [List.length_append, List.length_cons] at hn
    refine parses_statement (by omega) fun k hk => .after_acceptWith rfl ?_
    exact parses_returnStatement (ih k _ _ _ (by omega) (.inr rfl))
  | nested _ ih =>
    intro n rest hn _
    refine parses_statement (by omega) fun k hk => ?_
    obtain ⟨l, us, rfl, hblock⟩ := ih k rest (by omega)
    exact .after_acceptWith rfl <| .map Stmt.block hblock
  | loop _ _ ihc ihs =>
    intro n rest hn hnext
    simp only [List.length_append, List.length_cons] at hn
    refine parses_statement (by omega) fun k hk => .after_acceptWith rfl ?_
    exact parses_whileStatement (ihc k _ (by omega) .rightParen) (ihs k rest (by omega) hnext)
  | ifOnly _ _ ihc iha =>
    intro n rest hn hnext
    simp only [List.length_append, List.length_cons] at hn
    refine parses_statement (by omega) fun k hk => .after_acceptWith rfl ?_
    exact parses_ifStatement (ihc k _ (by omega) .rightParen)
      (iha k rest (by omega) fun _ => hnext rfl) (hnext rfl)
  | ifElse hd _ _ _ ihc iha ihb =>
    intro n rest hn hnext
    simp only [List.length_append, List.length_cons] at hn
    refine parses_statement (by omega) fun k hk => .after_acceptWith rfl ?_
    refine parses_ifElseStatement (ihc k _ (by omega) .rightParen) ?_ (ihb k rest (by omega) hnext)
    -- the branch before the `else` has no open `if` that could take it
    refine iha k _ (by omega) fun hdangling => ?_
    rw [hd rfl] at hdangling
    cases hdangling
  | noInitial => exact fun n rest hn => parses_forInitial_none
  | varInitial _ ih =>
    intro n rest hn
    obtain ⟨l, us, rfl, hvar⟩ := ih n rest hn
    exact parses_forInitial_var hvar
  | exprInitial h ih =>
    intro n rest hn
    exact parses_forInitial_expression h.begins (ih n rest hn)
  | forLoop _ _ _ _ ihi ihc ihs ihb =>
    intro n rest hn hnext
    simp only [List.length_append, List.length_cons] at hn
    refine parses_statement (by omega) fun k hk => .after_acceptWith rfl ?_
    exact parses_forStatement (ihi k _ (by omega)) (ihc k _ _ _ (by omega) (.inr rfl))
      (ihs k _ _ _ (by omega) (.inl rfl)) (ihb k rest (by omega) hnext)
  -- declarations
  | var => exact fun n rest hn => ⟨_, _, rfl, parses_varDeclaration⟩
  | varInit _ ih =>
    intro n rest hn
    simp only [List.length_append, List.length_cons] at hn
    exact ⟨_, _, rfl, parses_varDeclaration_initial (ih n _ (by omega) .semicolon)⟩
  | statement h ih =>
    intro n rest hn hnext
    refine parses_declaration (by omega) fun k hk => ?_
    exact parses_declaration_statement (StartsStatement.append h.begins rest)
      (ih k rest (by omega) fun _ => hnext)
  | declareVar _ ih =>
    intro n rest hn hnext
    refine parses_declaration (by omega) fun k hk => ?_
    obtain ⟨l, us, rfl, hvar⟩ := ih k rest (by omega)
    exact parses_declaration_var hvar
  | declareFun h ih =>
    intro n rest hn hnext
    obtain ⟨name, us, rfl⟩ := h.begins
    simp only [List.length_cons] at hn
    refine parses_declaration (by omega) fun k hk => ?_
    exact parses_declaration_function (ih k .function rest (by rw [List.length_cons]; omega))
  | @declareClass _ _ l₂ _ _ _ _ ih =>
    intro n rest hn hnext
    simp only [List.length_append, List.length_cons] at hn
    refine parses_declaration (by omega) fun k hk => .after_acceptKeyword ?_
    have hloops := ih k [] (sym .rightBrace l₂ :: rest) _ (by omega) (.stop parses_nextMethod_stop)
    rw [List.append_nil] at hloops
    exact parses_classDeclaration hloops
  | @declareSubclass _ _ _ l₃ _ _ _ _ _ ih =>
    intro n rest hn hnext
    simp only [List.length_append, List.length_cons] at hn
    refine parses_declaration (by omega) fun k hk => .after_acceptKeyword ?_
    have hloops := ih k [] (sym .rightBrace l₃ :: rest) _ (by omega) (.stop parses_nextMethod_stop)
    rw [List.append_nil] at hloops
    exact parses_subclassDeclaration hloops
  | noDeclarations => exact fun n ends vs rest fs hn hends hnext hloops => hloops
  | moreDeclarations _ hs ihss ihs =>
    intro n ends vs rest fs hn hends hnext hloops
    have hstart : StartsDeclaration _ := hs.begins
    simp only [List.length_append] at hn
    rw [List.append_assoc]
    rw [List.reverse_append] at hloops
    refine ihss n ends _ rest fs (by omega) hends ?_ (.next hstart.ne_nil ?_ hloops)
    · -- no declaration begins with `else`, so it ends the one before it
      obtain ⟨t, us, rfl, -, ht⟩ := hstart
      exact next_cons.mpr ht
    · exact parses_nextDeclaration hends hstart (ihs n _ (by omega) hnext)

end Treewalk
