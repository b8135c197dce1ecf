import Treewalk.Proofs.Grammar.Soundness

/-! # Parsers under two bounds

    A phrase that contains another one of its kind reads a token before it, so a bound on
    nesting that grows with the number of tokens is never reached: with larger bounds the
    parsers do the same.

    `Alike T k p q reads` says so of two parsers that differ in their bounds: on fewer
    than `k` tokens they do the same, and they read a token if they yield something for
    which `reads` holds.  The tokens they are given, and those at which they report
    errors, are among `T`. -/

namespace Treewalk

open Treewalk.Parser

/-! ### States and outcomes -/

/-- The tokens to be read and those at which errors were reported are among `T`. -/
structure ParseState.Within (T : Token → Prop) (s : ParseState) : Prop where
  rest : ∀ t ∈ s.rest, T t
  sites : ∀ e ∈ s.errors, ∀ t ∈ e.site, T t

/-- The outcome of a parser that started in `s`.  What it did not read is still there. -/
def Advances {α : Type} (T : Token → Prop) (reads : α → Prop) (s : ParseState) :
    EStateM.Result Failure ParseState α → Prop
  | .ok a s' => s'.Within T ∧ ∃ ts, s.rest = ts ++ s'.rest ∧ (reads a → ts ≠ [])
  | .error _ s' => s'.Within T ∧ ∃ ts, s.rest = ts ++ s'.rest

/-- On fewer than `k` tokens the parsers do the same, and read a token if what they
    yield says so. -/
def Alike {α : Type} (T : Token → Prop) (k : Nat) (p q : Parser α) (reads : α → Prop) : Prop :=
  ∀ s, s.Within T → s.rest.length < k → q s = p s ∧ Advances T reads s (p s)

/-- Both parsers go on alike. -/
abbrev Going {α : Type} (T : Token → Prop) (k : Nat) (p q : Parser α) : Prop :=
  Alike T k p q fun _ => False

/-- Both parsers go on alike and read at least one token. -/
abbrev Reading {α : Type} (T : Token → Prop) (k : Nat) (p q : Parser α) : Prop :=
  Alike T k p q fun _ => True

/-- Rounds of two loops go on alike, and every round but the last reads a token. -/
abbrev Rounds {α : Type} (T : Token → Prop) (k : Nat) (step step' : α → Parser (Option α)) : Prop :=
  ∀ a, Alike T k (step a) (step' a) fun next => next.isSome

theorem ParseState.within_all (s : ParseState) : s.Within fun _ => True :=
  ⟨fun _ _ => trivial, fun _ _ _ _ => trivial⟩

theorem ParseState.Within.drop {T : Token → Prop} {s : ParseState} (h : s.Within T)
    {ts rest : List Token} (hrest : s.rest = ts ++ rest) :
    ParseState.Within T { s with rest } :=
  ⟨fun t ht => h.rest t (hrest ▸ List.mem_append_right ts ht), h.sites⟩

theorem ParseState.Within.report {T : Token → Prop} {s : ParseState} (h : s.Within T)
    (issue : ParseIssue) {site : Option Token} (hsite : ∀ t ∈ site, T t) :
    ParseState.Within T { s with errors := s.errors.push ⟨issue, site⟩ } := by
  refine ⟨h.rest, fun e he => ?_⟩
  rcases Array.mem_push.mp he with he | rfl
  · exact h.sites e he
  · exact hsite

/-- Tokens that were read before stand in front of those that are read now. -/
theorem Advances.behind {β : Type} {T : Token → Prop} {r r' : β → Prop} {s s₁ : ParseState}
    {ts : List Token} (hts : s.rest = ts ++ s₁.rest) {out : EStateM.Result Failure ParseState β}
    (h : Advances T r s₁ out) (hr : ∀ b, r' b → ts = [] → r b) : Advances T r' s out := by
  cases out with
  | error e s₂ =>
    obtain ⟨hs₂, us, hus⟩ := h
    exact ⟨hs₂, ts ++ us, by rw [hts, hus, List.append_assoc]⟩
  | ok b s₂ =>
    obtain ⟨hs₂, us, hus, hreads⟩ := h
    refine ⟨hs₂, ts ++ us, by rw [hts, hus, List.append_assoc], fun hb hnil => ?_⟩
    obtain ⟨hnil, hnil'⟩ := List.append_eq_nil_iff.mp hnil
    exact hreads (hr b hb hnil) hnil'

namespace Alike

variable {α β : Type} {T : Token → Prop} {k : Nat} {p q : Parser α} {f g : α → Parser β}
  {r : α → Prop} {r' : β → Prop}

theorem mono {j : Nat} {r₂ : α → Prop} (h : Alike T k p q r) (hj : j ≤ k)
    (hr : ∀ a, r₂ a → r a) : Alike T j p q r₂ := by
  intro s hs hlen
  obtain ⟨hsame, hadv⟩ := h s hs (by omega)
  have hfront : s.rest = [] ++ s.rest := rfl
  exact ⟨hsame, hadv.behind hfront fun a ha _ => hr a ha⟩

theorem shrink {j : Nat} (h : Alike T k p q r) (hj : j ≤ k) : Alike T j p q r :=
  h.mono hj fun _ => id

theorem going (h : Alike T k p q r) : Going T k p q :=
  h.mono (Nat.le_refl k) fun _ => False.elim

theorem pure {a : α} (h : ¬ r a) : Alike T k (pure a) (pure a) r :=
  fun _ hs _ => ⟨rfl, hs, [], rfl, fun ha => absurd ha h⟩

theorem miss (what : Expectation) : Alike T k (miss what) (miss what) r := by
  intro s hs _
  refine ⟨rfl, hs.report _ fun t ht => hs.rest t ?_, [], rfl⟩
  exact List.mem_of_mem_head? ht

/-- A parser followed by another.  If the first one read a token, there are fewer left
    for the second, which need not read any. -/
theorem bind (hp : Alike T k p q r)
    (hread : ∀ a, r a → Going T (k - 1) (f a) (g a))
    (hskip : ∀ a, ¬ r a → Alike T k (f a) (g a) r') : Alike T k (p >>= f) (q >>= g) r' := by
  intro s hs hlen
  obtain ⟨hsame, hadv⟩ := hp s hs hlen
  cases hps : p s with
  | error e s' =>
    rw [hps] at hadv hsame
    rw [bind_of_error hps, bind_of_error hsame]
    exact ⟨rfl, hadv⟩
  | ok a s' =>
    rw [hps] at hadv hsame
    rw [bind_of_ok hps, bind_of_ok hsame]
    obtain ⟨hs', ts, hts, hreads⟩ := hadv
    have hlength : s.rest.length = ts.length + s'.rest.length := by
      rw [hts, List.length_append]
    by_cases ha : r a
    · have hpos := List.length_pos_iff.mpr (hreads ha)
      obtain ⟨hsame', hadv'⟩ := hread a ha s' hs' (by omega)
      exact ⟨hsame', hadv'.behind hts fun _ _ hnil => hreads ha hnil⟩
    · obtain ⟨hsame', hadv'⟩ := hskip a ha s' hs' (by omega)
      exact ⟨hsame', hadv'.behind hts fun _ hb _ => hb⟩

/-- Behind a parser that reads a token, the next ones only have to go on. -/
theorem reading_bind (hp : Reading T k p q) (hf : ∀ a, Going T (k - 1) (f a) (g a)) :
    Alike T k (p >>= f) (q >>= g) r' :=
  bind hp (fun a _ => hf a) fun _ ha => absurd trivial ha

theorem going_bind (hp : Going T k p q) (hf : ∀ a, Alike T k (f a) (g a) r') :
    Alike T k (p >>= f) (q >>= g) r' :=
  bind hp (fun _ ha => ha.elim) fun a _ => hf a

theorem map (f : α → β) (hp : Alike T k p q r) (hr : ∀ a, r' (f a) → r a) :
    Alike T k (f <$> p) (f <$> q) r' := by
  rw [map_eq_pure_bind, map_eq_pure_bind]
  exact bind hp (fun a _ => .pure id) fun a ha => .pure fun hb => ha (hr a hb)

/-! ### Elementary parsers -/

theorem report (issue : ParseIssue) {site : Option Token} (hsite : ∀ t ∈ site, T t) :
    Going T k (report issue site) (report issue site) :=
  fun _ hs _ => ⟨rfl, hs.report issue hsite, [], rfl, False.elim⟩

theorem after_look {p : Parser α} (hp : Looks p) (hf : ∀ a, Alike T k (f a) (g a) r') :
    Alike T k (p >>= f) (p >>= g) r' := by
  intro s hs hlen
  obtain ⟨a, ha⟩ := hp s
  rw [bind_of_ok ha, bind_of_ok ha]
  exact hf a s hs hlen

theorem after_peek {f g : Option Token → Parser β}
    (hf : ∀ site, (∀ t ∈ site, T t) → Alike T k (f site) (g site) r') :
    Alike T k (peek >>= f) (peek >>= g) r' := by
  intro s hs hlen
  have hpeek : peek s = .ok s.rest.head? s := rfl
  rw [bind_of_ok hpeek, bind_of_ok hpeek]
  exact hf _ (fun t ht => hs.rest t (List.mem_of_mem_head? ht)) s hs hlen

/-- A parser that takes the next token or nothing, followed by another. -/
theorem after_taking {p : Parser α}
    (h : ∀ s, (∃ a, p s = .ok a s ∧ Alike T k (f a) (g a) r') ∨
      ∃ a t rest, s.rest = t :: rest ∧ p s = .ok a { s with rest } ∧
        (T t → Going T (k - 1) (f a) (g a))) :
    Alike T k (p >>= f) (p >>= g) r' := by
  intro s hs hlen
  rcases h s with ⟨a, hrun, hf⟩ | ⟨a, t, rest, hrest, hrun, hf⟩
  · rw [bind_of_ok hrun, bind_of_ok hrun]
    exact hf s hs hlen
  · rw [bind_of_ok hrun, bind_of_ok hrun]
    have hfront : s.rest = [t] ++ rest := hrest
    have hlength : s.rest.length = rest.length + 1 := by rw [hrest, List.length_cons]
    obtain ⟨hsame, hadv⟩ := hf (hs.rest t (hrest ▸ List.mem_cons_self)) _ (hs.drop hfront)
      (show rest.length < k - 1 by omega)
    exact ⟨hsame, hadv.behind hfront fun _ _ hnil => absurd hnil (List.cons_ne_nil _ _)⟩

theorem after_acceptWith {γ : Type} {a : Lexeme → Option γ} {f g : Option (γ × Token) → Parser β}
    (hnone : Alike T k (f none) (g none) r')
    (hsome : ∀ c t, a t.lexeme = some c → T t → Going T (k - 1) (f (some (c, t))) (g (some (c, t)))) :
    Alike T k (acceptWith a >>= f) (acceptWith a >>= g) r' := by
  refine after_taking fun s => ?_
  cases hrest : s.rest with
  | nil => exact .inl ⟨none, by simp [acceptWith, hrest], hnone⟩
  | cons t rest =>
    cases ha : a t.lexeme with
    | none => exact .inl ⟨none, by simp [acceptWith, hrest, ha], hnone⟩
    | some c => exact .inr ⟨_, t, rest, rfl, by simp [acceptWith, hrest, ha], hsome c t ha⟩

theorem after_accept {symbol : Symbol} {f g : Option Token → Parser β}
    (hnone : Alike T k (f none) (g none) r')
    (hsome : ∀ t, T t → Going T (k - 1) (f (some t)) (g (some t))) :
    Alike T k (accept symbol >>= f) (accept symbol >>= g) r' := by
  refine after_taking fun s => ?_
  cases hrest : s.rest with
  | nil => exact .inl ⟨none, by simp [accept, hrest], hnone⟩
  | cons t rest =>
    cases ht : t.isSymbol symbol with
    | false => exact .inl ⟨none, by simp [accept, hrest, ht], hnone⟩
    | true => exact .inr ⟨_, t, rest, rfl, by simp [accept, hrest, ht], hsome t⟩

theorem after_acceptKeyword {word : Keyword} {f g : Option Token → Parser β}
    (hnone : Alike T k (f none) (g none) r')
    (hsome : ∀ t, T t → Going T (k - 1) (f (some t)) (g (some t))) :
    Alike T k (acceptKeyword word >>= f) (acceptKeyword word >>= g) r' := by
  refine after_taking fun s => ?_
  cases hrest : s.rest with
  | nil => exact .inl ⟨none, by simp [acceptKeyword, hrest], hnone⟩
  | cons t rest =>
    cases ht : t.isKeyword word with
    | false => exact .inl ⟨none, by simp [acceptKeyword, hrest, ht], hnone⟩
    | true => exact .inr ⟨_, t, rest, rfl, by simp [acceptKeyword, hrest, ht], hsome t⟩

theorem after_acceptNamedFun {f g : Bool → Parser β} (hfalse : Alike T k (f false) (g false) r')
    (htrue : Going T (k - 1) (f true) (g true)) :
    Alike T k (acceptNamedFun >>= f) (acceptNamedFun >>= g) r' := by
  refine after_taking fun s => ?_
  match hrest : s.rest with
  | [] => exact .inl ⟨false, by simp [acceptNamedFun, hrest], hfalse⟩
  | [t] => exact .inl ⟨false, by simp [acceptNamedFun, hrest], hfalse⟩
  | t :: next :: rest =>
    cases ht : t.isKeyword .funWord && (nameOf? next).isSome with
    | false => exact .inl ⟨false, by simp [acceptNamedFun, hrest, ht], hfalse⟩
    | true =>
      exact .inr ⟨true, t, next :: rest, rfl, by simp [acceptNamedFun, hrest, ht], fun _ => htrue⟩

theorem expect (symbol : Symbol) (what : Expectation) :
    Reading T k (expect symbol what) (expect symbol what) :=
  after_accept (.miss what) fun _ _ => .pure id

theorem expectName (what : Expectation) :
    Reading T k (expectName what) (expectName what) := by
  intro s hs hlen
  have hmiss (h : Parser.expectName what s = Parser.miss what s) :
      Parser.expectName what s = Parser.expectName what s ∧
        Advances T (fun _ => True) s (Parser.expectName what s) := by
    rw [h]
    exact (Alike.miss what) s hs hlen
  cases hrest : s.rest with
  | nil => exact hmiss (by simp [Parser.expectName, hrest])
  | cons t rest =>
    cases hn : nameOf? t with
    | none => exact hmiss (by simp [Parser.expectName, hrest, hn])
    | some n =>
      have hrun : Parser.expectName what s = .ok n { s with rest := rest } := by
        simp [Parser.expectName, hrest, hn]
      have hfront : s.rest = [t] ++ rest := hrest
      rw [hrun]
      exact ⟨rfl, hs.drop hfront, [t], hfront, fun _ => List.cons_ne_nil _ _⟩

end Alike

/-! ### Repetition and recovery -/

theorem going_stepsUpTo {α : Type} {T : Token → Prop} {k : Nat}
    {step step' : α → Parser (Option α)} (hstep : Rounds T k step step') (n : Nat) (a : α) :
    Going T k (stepsUpTo step n a) (stepsUpTo step' n a) := by
  induction n generalizing a with
  | zero => exact .pure id
  | succ n ih =>
    refine (hstep a).going.going_bind fun next => ?_
    cases next with
    | none => exact .pure id
    | some b => exact ih b

theorem going_steps {α : Type} {T : Token → Prop} {k : Nat}
    {step step' : α → Parser (Option α)} (hstep : Rounds T k step step') (a : α) :
    Going T k (steps step a) (steps step' a) := by
  refine (hstep a).going.going_bind fun next => ?_
  cases next with
  | none => exact .pure id
  | some b => exact .after_look looks_remaining fun n => going_stepsUpTo hstep n b

/-- Skipping drops tokens from the front, and one at least. -/
theorem resync_drops (ts : List Token) :
    ∃ us, ts = us ++ resync ts ∧ (ts ≠ [] → us ≠ []) := by
  fun_induction resync ts with
  | case1 => exact ⟨[], rfl, id⟩
  | case2 t => exact ⟨[t], rfl, fun _ => List.cons_ne_nil _ _⟩
  | case3 t next rest => exact ⟨[t], rfl, fun _ => List.cons_ne_nil _ _⟩
  | case4 t next rest _ ih =>
    obtain ⟨us, hus, -⟩ := ih
    exact ⟨t :: us, congrArg (t :: ·) hus, fun _ => List.cons_ne_nil _ _⟩

/-- Two parsers of declarations do the same before a token.  They never fail, and read
    at least that token. -/
def AlikeDeclarations (T : Token → Prop) (k : Nat)
    (declaration declaration' : Parser (Option SourceStmt)) : Prop :=
  ∀ s, s.Within T → s.rest.length < k → s.rest ≠ [] →
    declaration' s = declaration s ∧
    ∃ found s' ts, declaration s = .ok found s' ∧ s'.Within T ∧ s.rest = ts ++ s'.rest ∧ ts ≠ []

theorem AlikeDeclarations.shrink {T : Token → Prop} {j k : Nat}
    {declaration declaration' : Parser (Option SourceStmt)}
    (h : AlikeDeclarations T k declaration declaration') (hj : j ≤ k) :
    AlikeDeclarations T j declaration declaration' :=
  fun s hs hlen => h s hs (by omega)

/-- A statement that is given up before its first token or behind its last: either way
    a token is gone. -/
theorem alikeDeclarations_recovering {T : Token → Prop} {k : Nat} {p q : Parser SourceStmt}
    (h : Reading T k p q) : AlikeDeclarations T k (recovering p) (recovering q) := by
  intro s hs hlen hne
  obtain ⟨hsame, hadv⟩ := h s hs hlen
  unfold recovering
  rw [hsame]
  refine ⟨rfl, ?_⟩
  cases hps : p s with
  | ok a s' =>
    rw [hps] at hadv
    obtain ⟨hs', ts, hts, hread⟩ := hadv
    exact ⟨some a, s', ts, rfl, hs', hts, hread trivial⟩
  | error e s' =>
    rw [hps] at hadv
    obtain ⟨hs', ts, hts⟩ := hadv
    obtain ⟨us, hus, hskip⟩ := resync_drops s'.rest
    refine ⟨none, _, ts ++ us, rfl, hs'.drop hus, ?_, fun hnil => ?_⟩
    · show s.rest = ts ++ us ++ resync s'.rest
      rw [List.append_assoc, ← hus, hts]
    · obtain ⟨rfl, rfl⟩ := List.append_eq_nil_iff.mp hnil
      exact hskip (fun hrest => hne (by rw [hts, hrest, List.append_nil])) rfl

/-! ### Expressions -/

section Expressions

variable {T : Token → Prop} {k : Nat} {expression expression' operand operand' : Parser SourceExpr}
  {block block' : Parser (List SourceStmt)}

theorem rounds_nextParam : Rounds T k nextParam nextParam := by
  intro names
  unfold nextParam
  refine .after_accept (.pure nofun) fun _ _ => ?_
  by_cases hmax : maxArguments ≤ names.length
  · rw [if_pos hmax]
    refine .after_peek fun site hsite => (Alike.report _ hsite).going_bind fun _ => ?_
    exact (Alike.expectName _).reading_bind fun _ => .pure id
  · rw [if_neg hmax]
    exact (Alike.expectName _).reading_bind fun _ => .pure id

theorem going_params : Going T k params params := by
  unfold params
  refine .after_look (looks_nextIs _) fun closed => ?_
  cases closed with
  | true => exact .pure id
  | false =>
    refine (Alike.expectName _).reading_bind fun first => ?_
    exact (going_steps rounds_nextParam _).going_bind fun _ => .pure id

theorem reading_paramsAndBody (role : Role) (hblock : Going T (k - 1) block block') :
    Reading T k (paramsAndBody role block) (paramsAndBody role block') := by
  unfold paramsAndBody
  refine (Alike.expect _ _).reading_bind fun _ => going_params.going_bind fun names => ?_
  refine (Alike.expect _ _).going.going_bind fun _ => ?_
  refine (Alike.expect _ _).going.going_bind fun _ => ?_
  exact hblock.going_bind fun _ => .pure id

theorem reading_primary (he : Reading T (k - 1) expression expression')
    (hblock : Going T (k - 1) block block') :
    Reading T k (primary expression block) (primary expression' block') := by
  unfold primary
  refine .after_acceptWith (.miss _) fun opening t _ _ => ?_
  cases opening with
  | constant value => exact .pure id
  | super =>
    refine (Alike.expect _ _).going.going_bind fun _ => ?_
    exact (Alike.expectName _).going.going_bind fun _ => .pure id
  | this => exact .pure id
  | name text => exact .pure id
  | lambda =>
    refine (reading_paramsAndBody _ (hblock.shrink (by omega))).going.going_bind fun _ => ?_
    exact .pure id
  | group => exact he.going.going_bind fun _ => (Alike.expect _ _).going.going_bind fun _ => .pure id

theorem rounds_nextArgument (he : Reading T (k - 1) expression expression') :
    Rounds T k (nextArgument expression) (nextArgument expression') := by
  intro args
  unfold nextArgument
  refine .after_accept (.pure nofun) fun _ _ => ?_
  by_cases hmax : maxArguments ≤ args.length
  · rw [if_pos hmax, if_pos hmax]
    refine .after_peek fun site hsite => (Alike.report _ hsite).going_bind fun _ => ?_
    exact he.going.going_bind fun _ => .pure id
  · rw [if_neg hmax, if_neg hmax]
    exact he.going.going_bind fun _ => .pure id

theorem going_arguments (he : Reading T k expression expression') :
    Going T k (arguments expression) (arguments expression') := by
  unfold arguments
  refine .after_look (looks_nextIs _) fun closed => ?_
  cases closed with
  | true => exact .pure id
  | false =>
    have hround := rounds_nextArgument (he.shrink (Nat.sub_le k 1))
    exact he.going.going_bind fun first => (going_steps hround _).going_bind fun _ => .pure id

theorem rounds_nextCall (he : Reading T (k - 1) expression expression') :
    Rounds T k (nextCall expression) (nextCall expression') := by
  intro e
  unfold nextCall
  refine .after_accept (.after_accept (.pure nofun) fun _ _ => ?_) fun _ _ => ?_
  · exact (Alike.expectName _).going.going_bind fun _ => .pure id
  · refine (going_arguments he).going_bind fun args => ?_
    exact (Alike.expect _ _).going.going_bind fun _ => .pure id

theorem reading_call (he : Reading T (k - 1) expression expression')
    (hblock : Going T (k - 1) block block') :
    Reading T k (call expression block) (call expression' block') := by
  unfold call
  refine (reading_primary he hblock).reading_bind fun e => ?_
  exact (going_steps (rounds_nextCall he) e).shrink (Nat.sub_le k 1)

theorem rounds_nextUnary : Rounds T k nextUnary nextUnary := by
  intro ops
  unfold nextUnary
  exact .after_acceptWith (.pure nofun) fun _ _ _ _ => .pure id

theorem reading_unary (h : Reading T k operand operand') :
    Reading T k (unary operand) (unary operand') := by
  unfold unary
  refine (going_steps rounds_nextUnary _).going_bind fun ops => ?_
  exact h.reading_bind fun _ => .pure id

theorem rounds_nextOperand (level : Level) (h : Reading T (k - 1) operand operand') :
    Rounds T k (nextOperand level operand) (nextOperand level operand') := by
  intro left
  unfold nextOperand
  refine .after_acceptWith (.pure nofun) fun _ _ _ _ => ?_
  exact h.going.going_bind fun _ => .pure id

theorem reading_chain (level : Level) (h : Reading T k operand operand') :
    Reading T k (chain level operand) (chain level operand') := by
  unfold chain
  refine h.reading_bind fun left => ?_
  exact going_steps (rounds_nextOperand level (h.shrink (by omega))) left

/-- What the operators of a level stand between, within an expression. -/
def operandOf (expression : Parser SourceExpr) (block : Parser (List SourceStmt)) :
    Level → Parser SourceExpr
  | .factor => unary <| call expression block
  | .term => chain .factor <| unary <| call expression block
  | .comparison => chain .term <| chain .factor <| unary <| call expression block
  | .equality => chain .comparison <| chain .term <| chain .factor <| unary <| call expression block
  | .and => chain .equality <| chain .comparison <| chain .term <| chain .factor <| unary <|
      call expression block
  | .or => chain .and <| chain .equality <| chain .comparison <| chain .term <| chain .factor <|
      unary <| call expression block

theorem operation_eq (expression : Parser SourceExpr) (block : Parser (List SourceStmt)) :
    operation expression block = chain .or (operandOf expression block .or) := rfl

theorem reading_operandOf (he : Reading T (k - 1) expression expression')
    (hblock : Going T (k - 1) block block') (level : Level) :
    Reading T k (operandOf expression block level) (operandOf expression' block' level) := by
  have hfactor := reading_unary (reading_call he hblock)
  have hterm := reading_chain .factor hfactor
  have hcomparison := reading_chain .term hterm
  have hequality := reading_chain .comparison hcomparison
  have hand := reading_chain .equality hequality
  cases level with
  | factor => exact hfactor
  | term => exact hterm
  | comparison => exact hcomparison
  | equality => exact hequality
  | and => exact hand
  | or => exact reading_chain .and hand

theorem reading_assignment (he : Reading T (k - 1) expression expression')
    (hblock : Going T (k - 1) block block') :
    Reading T k (assignment expression block) (assignment expression' block') := by
  unfold assignment
  rw [operation_eq, operation_eq]
  refine (reading_chain .or (reading_operandOf he hblock .or)).reading_bind fun target => ?_
  refine .after_accept (.pure id) fun equals hequals => ?_
  refine (he.shrink (by omega)).going.going_bind fun value => ?_
  cases assignment? target value with
  | some e => exact .pure id
  | none =>
    refine (Alike.report _ ?_).going_bind fun _ => .pure id
    rintro _ ⟨⟩
    exact hequals

end Expressions

/-! ### Statements and declarations -/

section Statements

variable {T : Token → Prop} {k : Nat} {expression expression' : Parser SourceExpr}
  {statement statement' : Parser SourceStmt} {declaration declaration' : Parser (Option SourceStmt)}

/-- The parser looks for the end of a list of declarations, and sees it at the end of the
    tokens. -/
structure SeesEnd (ends : Parser Bool) : Prop where
  looks : Looks ends
  atEnd : ∀ s, s.rest = [] → ends s = .ok true s

theorem seesEnd_atEnd : SeesEnd atEnd where
  looks := looks_atEnd
  atEnd s hs := by
    unfold atEnd
    rw [hs]
    rfl

theorem seesEnd_blockEnds : SeesEnd blockEnds where
  looks := looks_blockEnds
  atEnd s hs := by
    unfold blockEnds
    rw [bind_of_ok (seesEnd_atEnd.atEnd s hs)]
    rfl

theorem rounds_nextDeclaration {ends : Parser Bool} (hends : SeesEnd ends)
    (hd : AlikeDeclarations T k declaration declaration') :
    Rounds T k (nextDeclaration ends declaration) (nextDeclaration ends declaration') := by
  intro ss s hs hlen
  unfold nextDeclaration
  obtain ⟨ended, hended⟩ := hends.looks s
  rw [bind_of_ok hended, bind_of_ok hended]
  cases ended with
  | true => exact ⟨rfl, hs, [], rfl, nofun⟩
  | false =>
    -- the end was not seen, so there is a token for the declaration to read
    have hne : s.rest ≠ [] := fun hnil => nomatch (hends.atEnd s hnil).symm.trans hended
    obtain ⟨hsame, found, s', ts, hrun, hs', hts, hread⟩ := hd s hs hlen hne
    rw [hrun] at hsame
    rw [if_neg nofun, if_neg nofun, bind_of_ok hrun, bind_of_ok hsame]
    cases found with
    | none => exact ⟨rfl, hs', ts, hts, fun _ => hread⟩
    | some found => exact ⟨rfl, hs', ts, hts, fun _ => hread⟩

theorem going_declarations {ends : Parser Bool} (hends : SeesEnd ends)
    (hd : AlikeDeclarations T k declaration declaration') :
    Going T k (declarations ends declaration) (declarations ends declaration') :=
  (going_steps (rounds_nextDeclaration hends hd) []).going_bind fun _ => .pure id

theorem going_block (hd : AlikeDeclarations T k declaration declaration') :
    Going T k (block declaration) (block declaration') := by
  unfold block
  refine (going_declarations seesEnd_blockEnds hd).going_bind fun ss => ?_
  exact (Alike.expect _ _).going.going_bind fun _ => .pure id

theorem reading_expressionStatement (interactive : Bool)
    (he : Reading T k expression expression') :
    Reading T k (expressionStatement interactive expression)
      (expressionStatement interactive expression') := by
  unfold expressionStatement
  refine he.reading_bind fun e => .after_look looks_atEnd fun ended => ?_
  by_cases hbare : (interactive && ended) = true
  · rw [if_pos hbare]
    exact .pure id
  · rw [if_neg hbare]
    exact (Alike.expect _ _).going.going_bind fun _ => .pure id

theorem reading_varDeclaration (he : Reading T (k - 1) expression expression') :
    Reading T k (varDeclaration expression) (varDeclaration expression') := by
  unfold varDeclaration
  refine (Alike.expectName _).reading_bind fun name => .after_accept ?_ fun _ _ => ?_
  · exact (Alike.expect _ _).going.going_bind fun _ => .pure id
  · refine ((he.shrink (by omega)).map some fun _ => False.elim).going_bind fun initial => ?_
    exact (Alike.expect _ _).going.going_bind fun _ => .pure id

theorem going_unlessNext (symbol : Symbol) (he : Reading T k expression expression') :
    Going T k (unlessNext symbol expression) (unlessNext symbol expression') := by
  unfold unlessNext
  refine .after_look (looks_nextIs _) fun closed => ?_
  cases closed with
  | true => exact .pure id
  | false => exact he.map some fun _ => False.elim

theorem going_forInitial (interactive : Bool) (he : Reading T k expression expression') :
    Going T k (forInitial interactive expression) (forInitial interactive expression') := by
  unfold forInitial
  refine .after_accept (.after_acceptKeyword ?_ fun _ _ => ?_) fun _ _ => .pure id
  · exact (reading_expressionStatement interactive he).map some fun _ => False.elim
  · exact (reading_varDeclaration (he.shrink (by omega))).map some fun _ => False.elim

theorem reading_forStatement (interactive : Bool) (he : Reading T k expression expression')
    (hs : Reading T k statement statement') :
    Reading T k (forStatement interactive expression statement)
      (forStatement interactive expression' statement') := by
  have he₁ := he.shrink (Nat.sub_le k 1)
  unfold forStatement
  refine (Alike.expect _ _).reading_bind fun _ => ?_
  refine (going_forInitial interactive he₁).going_bind fun initial => ?_
  refine (going_unlessNext _ he₁).going_bind fun condition => ?_
  refine (Alike.expect _ _).going.going_bind fun _ => ?_
  refine (going_unlessNext _ he₁).going_bind fun step => ?_
  refine (Alike.expect _ _).going.going_bind fun _ => ?_
  exact (hs.shrink (Nat.sub_le k 1)).going.going_bind fun body => .pure id

theorem reading_ifStatement (he : Reading T k expression expression')
    (hs : Reading T k statement statement') :
    Reading T k (ifStatement expression statement) (ifStatement expression' statement') := by
  have hs₁ := hs.shrink (Nat.sub_le k 1)
  unfold ifStatement
  refine (Alike.expect _ _).reading_bind fun _ => ?_
  refine (he.shrink (Nat.sub_le k 1)).going.going_bind fun condition => ?_
  refine (Alike.expect _ _).going.going_bind fun _ => hs₁.going.going_bind fun onTrue => ?_
  refine .after_acceptKeyword (.pure id) fun _ _ => ?_
  exact ((hs₁.shrink (by omega)).map some fun _ => False.elim).going_bind fun _ => .pure id

theorem reading_whileStatement (he : Reading T k expression expression')
    (hs : Reading T k statement statement') :
    Reading T k (whileStatement expression statement) (whileStatement expression' statement') := by
  unfold whileStatement
  refine (Alike.expect _ _).reading_bind fun _ => ?_
  refine (he.shrink (Nat.sub_le k 1)).going.going_bind fun condition => ?_
  refine (Alike.expect _ _).going.going_bind fun _ => ?_
  exact (hs.shrink (Nat.sub_le k 1)).going.going_bind fun body => .pure id

theorem reading_printStatement (he : Reading T k expression expression') :
    Reading T k (printStatement expression) (printStatement expression') := by
  unfold printStatement
  exact he.reading_bind fun e => (Alike.expect _ _).going.going_bind fun _ => .pure id

theorem reading_returnStatement (line : Int) (he : Reading T k expression expression') :
    Reading T k (returnStatement line expression) (returnStatement line expression') := by
  unfold returnStatement
  refine (going_unlessNext _ he).going_bind fun value => ?_
  exact (Alike.expect _ _).reading_bind fun _ => .pure id

/-- A statement reads its keyword, or an expression at once. -/
theorem reading_statementWith (interactive : Bool) (he : Reading T k expression expression')
    (hs : Reading T (k - 1) statement statement')
    (hd : AlikeDeclarations T (k - 1) declaration declaration') :
    Reading T k (statementWith interactive expression statement declaration)
      (statementWith interactive expression' statement' declaration') := by
  have he₁ := he.shrink (Nat.sub_le k 1)
  unfold statementWith
  refine .after_acceptWith (reading_expressionStatement interactive he) fun kind t _ _ => ?_
  cases kind with
  | forLoop => exact (reading_forStatement interactive he₁ hs).going
  | ifElse => exact (reading_ifStatement he₁ hs).going
  | print => exact (reading_printStatement he₁).going
  | ret => exact (reading_returnStatement t.line he₁).going
  | whileLoop => exact (reading_whileStatement he₁ hs).going
  | block => exact (going_block hd).map Stmt.block fun _ => False.elim

theorem reading_functionDeclaration (role : Role)
    (hd : AlikeDeclarations T k declaration declaration') :
    Reading T k (functionDeclaration role declaration) (functionDeclaration role declaration') := by
  unfold functionDeclaration
  refine (Alike.expectName _).reading_bind fun name => ?_
  have hblock := going_block (hd.shrink (by omega : k - 1 - 1 ≤ k))
  exact (reading_paramsAndBody role hblock).going.going_bind fun _ => .pure id

theorem rounds_nextMethod (hd : AlikeDeclarations T k declaration declaration') :
    Rounds T k (nextMethod declaration) (nextMethod declaration') := by
  intro methods
  unfold nextMethod
  refine .after_look looks_blockEnds fun ended => ?_
  cases ended with
  | true => exact .pure nofun
  | false => exact (reading_functionDeclaration _ hd).reading_bind fun _ => .pure id

theorem reading_classDeclaration (hd : AlikeDeclarations T k declaration declaration') :
    Reading T k (classDeclaration declaration) (classDeclaration declaration') := by
  have hmethods := going_steps (rounds_nextMethod (hd.shrink (Nat.sub_le k 1))) []
  unfold classDeclaration
  refine (Alike.expectName _).reading_bind fun name => .after_accept ?_ fun _ _ => ?_
  · refine (Alike.expect _ _).going.going_bind fun _ => hmethods.going_bind fun methods => ?_
    exact (Alike.expect _ _).going.going_bind fun _ => .pure id
  · refine ((Alike.expectName _).map _ fun _ => False.elim).going_bind fun superclass => ?_
    refine (Alike.expect _ _).going.going_bind fun _ => ?_
    refine (hmethods.shrink (Nat.sub_le _ 1)).going_bind fun methods => ?_
    exact (Alike.expect _ _).going.going_bind fun _ => .pure id

theorem reading_declarationWith (he : Reading T k expression expression')
    (hs : Reading T k statement statement')
    (hd : AlikeDeclarations T (k - 1) declaration declaration') :
    Reading T k (declarationWith expression statement declaration)
      (declarationWith expression' statement' declaration') := by
  unfold declarationWith
  refine .after_acceptKeyword ?_ fun _ _ => (reading_classDeclaration hd).going
  refine .after_acceptNamedFun (.after_acceptKeyword hs fun _ _ => ?_) ?_
  · exact (reading_varDeclaration (he.shrink (by omega))).going
  · exact (reading_functionDeclaration _ hd).map Stmt.function fun _ => False.elim

end Statements

/-! ### Nesting -/

/-- Two bounds are the same, or both are enough for fewer than `k` tokens.  Each token
    takes three of the bound: a declaration can hold a statement, and that an expression,
    before a token is read; `c` is how many of these steps are done. -/
def Suffices (k c n m : Nat) : Prop :=
  n = m ∨ 3 * k ≤ n + c ∧ 3 * k ≤ m + c

theorem Suffices.pred {k c j c' n m : Nat} (h : Suffices k c (n + 1) (m + 1))
    (hj : 3 * j + c < 3 * k + c' ∨ j = 0) : Suffices j c' n m := by
  unfold Suffices at *
  omega

/-- A bound that is used up was the same, or there is nothing to read. -/
theorem Suffices.of_zero {k c n m : Nat} (h : Suffices k c n m) (hc : c < 3)
    (hzero : n = 0 ∨ m = 0) : n = m ∨ k = 0 := by
  unfold Suffices at h
  omega

/-- With bounds that are enough, the three nested parsers do the same. -/
theorem alike_nested (interactive : Bool) (T : Token → Prop) (n m k : Nat) :
    (Suffices k 2 n m → Reading T k (expression interactive n) (expression interactive m)) ∧
    (Suffices k 1 n m → Reading T k (statement interactive n) (statement interactive m)) ∧
    (Suffices k 0 n m →
      AlikeDeclarations T k (declaration interactive n) (declaration interactive m)) := by
  induction n generalizing m k with
  | zero =>
    refine ⟨fun h => ?_, fun h => ?_, fun h => ?_⟩
    · obtain rfl | rfl := h.of_zero (by decide) (.inl rfl)
      · unfold expression
        exact .miss _
      · exact fun s hs hlen => absurd hlen (Nat.not_lt_zero _)
    · obtain rfl | rfl := h.of_zero (by decide) (.inl rfl)
      · unfold statement
        exact .miss _
      · exact fun s hs hlen => absurd hlen (Nat.not_lt_zero _)
    · obtain rfl | rfl := h.of_zero (by decide) (.inl rfl)
      · unfold declaration
        exact alikeDeclarations_recovering (.miss _)
      · exact fun s hs hlen => absurd hlen (Nat.not_lt_zero _)
  | succ n ih =>
    cases m with
    | zero =>
      refine ⟨fun h => ?_, fun h => ?_, fun h => ?_⟩
      all_goals
        obtain h | rfl := h.of_zero (by decide) (.inr rfl)
        · cases h
        · exact fun s hs hlen => absurd hlen (Nat.not_lt_zero _)
    | succ m =>
      -- what is nested has read a token, or is of the next kind
      refine ⟨fun h => ?_, fun h => ?_, fun h => ?_⟩
      · unfold expression
        have he := (ih m (k - 1)).1 (h.pred (by omega))
        have hd := (ih m (k - 1)).2.2 (h.pred (by omega))
        exact reading_assignment he (going_block hd)
      · unfold statement
        have he := (ih m k).1 (h.pred (by omega))
        have hs := (ih m (k - 1)).2.1 (h.pred (by omega))
        have hd := (ih m (k - 1)).2.2 (h.pred (by omega))
        exact reading_statementWith interactive he hs hd
      · unfold declaration
        have he := (ih m k).1 (h.pred (by omega))
        have hs := (ih m k).2.1 (h.pred (by omega))
        have hd := (ih m (k - 1)).2.2 (h.pred (by omega))
        exact alikeDeclarations_recovering (reading_declarationWith he hs hd)

end Treewalk
