import Mathlib.Computability.Language
import Mathlib.Order.FixedPoints
import Mathlib.Order.CompletePartialOrder
import Treewalk.Proofs.Grammar.Completeness

/-! # Sentences

    The grammar without its trees, as a system of equations between languages: every kind
    of phrase is the language that its rule makes of the other kinds, and these languages
    are the least that solve the equations.  An assignment takes any operation as its
    target here, and parameters and arguments are not counted: the parser reports such
    mistakes and goes on. -/

namespace Treewalk

open Treewalk.Parser Computability

namespace Ebnf

/-! ### The grammar -/

/-- The one-token phrases whose lexeme has a property. -/
def token (P : Lexeme → Prop) : Language Token := {ts | ∃ t, ts = [t] ∧ P t.lexeme}

/-- A symbol. -/
abbrev symbol (s : Symbol) : Language Token := token (· = .symbol s)

/-- A keyword. -/
abbrev keyword (k : Keyword) : Language Token := token (· = .keyword k)

/-- A name. -/
abbrev name : Language Token := token fun x => ∃ text, x = .identifier text

/-- A number. -/
abbrev number : Language Token := token fun x => ∃ whole fraction, x = .number whole fraction

/-- A string. -/
abbrev string : Language Token := token fun x => ∃ quote content, x = .string quote content

/-- A phrase or nothing. -/
def optional (L : Language Token) : Language Token := 1 + L

/-- Phrases with commas between them. -/
def separated (L : Language Token) : Language Token := L * (symbol .comma * L)∗

/-- The kinds of phrases. -/
inductive Nonterminal where
  | program | declaration | varDecl | function | block
  | statement | exprStmt
  | expression
  /-- Operands joined by the operators of a level. -/
  | level (l : Level)
  | unary | call | primary

/-- The rules of the grammar: what a kind of phrase is, given what the kinds are. -/
def rule (phrase : Nonterminal → Language Token) : Nonterminal → Language Token
  | .program => (phrase .declaration)∗
  | .declaration =>
    keyword .classWord * name * optional (symbol .less * name) *
        symbol .leftBrace * (phrase .function)∗ * symbol .rightBrace
      + keyword .funWord * phrase .function
      + phrase .varDecl
      + phrase .statement
  | .varDecl =>
    keyword .varWord * name * optional (symbol .equal * phrase .expression) * symbol .semicolon
  | .function =>
    name * symbol .leftParen * optional (separated name) * symbol .rightParen * phrase .block
  | .block => symbol .leftBrace * (phrase .declaration)∗ * symbol .rightBrace
  | .statement =>
    phrase .exprStmt
      + keyword .forWord * symbol .leftParen *
          (phrase .varDecl + phrase .exprStmt + symbol .semicolon) *
          optional (phrase .expression) * symbol .semicolon *
          optional (phrase .expression) * symbol .rightParen * phrase .statement
      + keyword .ifWord * symbol .leftParen * phrase .expression * symbol .rightParen *
          phrase .statement * optional (keyword .elseWord * phrase .statement)
      + keyword .printWord * phrase .expression * symbol .semicolon
      + keyword .returnWord * optional (phrase .expression) * symbol .semicolon
      + keyword .whileWord * symbol .leftParen * phrase .expression * symbol .rightParen *
          phrase .statement
      + phrase .block
  | .exprStmt => phrase .expression * symbol .semicolon
  | .expression => phrase (.level .or) * optional (symbol .equal * phrase .expression)
  | .level .or => phrase (.level .and) * (keyword .orWord * phrase (.level .and))∗
  | .level .and => phrase (.level .equality) * (keyword .andWord * phrase (.level .equality))∗
  | .level .equality =>
    phrase (.level .comparison) *
      ((symbol .bangEqual + symbol .equalEqual) * phrase (.level .comparison))∗
  | .level .comparison =>
    phrase (.level .term) *
      ((symbol .greater + symbol .greaterEqual + symbol .less + symbol .lessEqual) *
        phrase (.level .term))∗
  | .level .term =>
    phrase (.level .factor) * ((symbol .minus + symbol .plus) * phrase (.level .factor))∗
  | .level .factor => phrase .unary * ((symbol .slash + symbol .star) * phrase .unary)∗
  | .unary => (symbol .bang + symbol .minus) * phrase .unary + phrase .call
  | .call =>
    phrase .primary *
      (symbol .leftParen * optional (separated (phrase .expression)) * symbol .rightParen
        + symbol .dot * name)∗
  | .primary =>
    keyword .trueWord + keyword .falseWord + keyword .nilWord + keyword .thisWord
      + number + string + name
      + symbol .leftParen * phrase .expression * symbol .rightParen
      + keyword .superWord * symbol .dot * name
      + keyword .funWord * symbol .leftParen * optional (separated name) * symbol .rightParen *
          phrase .block

theorem rule_mono : Monotone rule := by
  intro phrase phrase' h n
  have hn (n : Nonterminal) : phrase n ≤ phrase' n := h n
  cases n with
  | level l => cases l <;> simp only [rule] <;> gcongr <;> exact hn _
  | _ => simp only [rule, optional, separated]; gcongr <;> exact hn _

/-- The rules as a monotone function on assignments of languages. -/
def rules : (Nonterminal → Language Token) →o (Nonterminal → Language Token) := ⟨rule, rule_mono⟩

/-- The phrases of each kind. -/
def phrase : Nonterminal → Language Token := rules.lfp

/-- The tokens are a program. -/
def Sentence (ts : List Token) : Prop := ts ∈ phrase .program

/-- The tokens are the beginning of a program. -/
def Viable (ts : List Token) : Prop := ∃ vs, Sentence (ts ++ vs)

/-- The phrases solve the equations. -/
theorem phrase_eq (n : Nonterminal) : phrase n = rule phrase n :=
  (congrFun rules.map_lfp n).symm

/-- The phrases are in every solution of the equations. -/
theorem phrase_le {language : Nonterminal → Language Token}
    (h : ∀ n, rule language n ≤ language n) (n : Nonterminal) : phrase n ≤ language n :=
  rules.lfp_le h n

/-! ### Words -/

section Words

variable {P : Lexeme → Prop} {L M K : Language Token} {t : Token} {ts : List Token}

theorem mem_token : ts ∈ token P ↔ ∃ t, ts = [t] ∧ P t.lexeme := Iff.rfl

theorem token_congr {Q : Lexeme → Prop} (h : ∀ x, P x ↔ Q x) : token P = token Q :=
  congrArg token (funext fun x => propext (h x))

theorem token_add {Q : Lexeme → Prop} : token P + token Q = token fun x => P x ∨ Q x := by
  ext ts
  simp only [Language.mem_add, mem_token, ← exists_or, and_or_left]

/-- A word that begins with a token of some kind. -/
theorem mem_token_mul : ts ∈ token P * M ↔ ∃ t v, ts = t :: v ∧ P t.lexeme ∧ v ∈ M := by
  rw [Language.mem_mul]
  constructor
  · rintro ⟨_, ⟨t, rfl, ht⟩, v, hv, rfl⟩
    exact ⟨t, v, rfl, ht, hv⟩
  · rintro ⟨t, v, rfl, ht, hv⟩
    exact ⟨[t], ⟨t, rfl, ht⟩, v, hv, rfl⟩

@[simp] theorem cons_mem_token_mul : t :: ts ∈ token P * M ↔ P t.lexeme ∧ ts ∈ M := by
  rw [mem_token_mul]
  constructor
  · rintro ⟨_, _, ⟨⟩, h⟩
    exact h
  · intro h
    exact ⟨t, ts, rfl, h⟩

theorem optional_mul : optional L * M = M + L * M := by
  rw [optional, add_mul, one_mul]

theorem nil_not_mem_token_mul : [] ∉ token P * M := by
  intro h
  obtain ⟨t, v, h, -⟩ := mem_token_mul.mp h
  cases h

@[simp] theorem cons_mem_token : t :: ts ∈ token P ↔ P t.lexeme ∧ ts = [] := by
  rw [mem_token]
  constructor
  · rintro ⟨_, ⟨⟩, h⟩
    exact ⟨h, rfl⟩
  · rintro ⟨h, rfl⟩
    exact ⟨t, rfl, h⟩

end Words

/-! ### How phrases begin -/

/-- How the phrases of a kind begin. -/
def Nonterminal.Begins : Nonterminal → List Token → Prop
  | .program, _ => True
  | .declaration, ts => StartsDeclaration ts
  | .varDecl, ts => ∃ l us, ts = word .varWord l :: us
  | .function, ts => ∃ n us, ts = ident n :: us
  | .block, ts => ∃ l us, ts = sym .leftBrace l :: us
  | .statement, ts => StartsStatement ts
  | .exprStmt, ts | .expression, ts | .level _, ts | .unary, ts => StartsExpression ts
  | .call, ts | .primary, ts => Opens ts

theorem Nonterminal.Begins.append {n : Nonterminal} {ts : List Token} (h : n.Begins ts)
    (vs : List Token) : n.Begins (ts ++ vs) := by
  cases n with
  | program => trivial
  | declaration =>
    obtain ⟨t, us, rfl, ht⟩ := h
    exact ⟨t, us ++ vs, rfl, ht⟩
  | varDecl | function | block =>
    obtain ⟨x, us, rfl⟩ := h
    exact ⟨x, us ++ vs, rfl⟩
  | statement => exact StartsStatement.append h vs
  | exprStmt | expression | level | unary => exact StartsExpression.append h vs
  | call | primary => exact Opens.append h vs

/-- A word with a phrase in front begins like the phrase. -/
theorem begins_of_mem_mul {n : Nonterminal} {L M : Language Token} {ts : List Token}
    (hL : ∀ us ∈ L, n.Begins us) (h : ts ∈ L * M) : n.Begins ts := by
  obtain ⟨us, hus, vs, -, rfl⟩ := Language.mem_mul.mp h
  exact (hL us hus).append vs

/-- A declaration begins with a keyword of its own, or as a statement. -/
theorem startsDeclaration_of_keyword {k : Keyword} {t : Token} (ht : t.lexeme = .keyword k)
    (hk : k ≠ .elseWord) (us : List Token) : StartsDeclaration (t :: us) :=
  ⟨t, us, rfl, by rw [ht]; exact nofun, by rw [ht]; exact fun h => hk (Lexeme.keyword.inj h)⟩

theorem startsStatement_of_keyword {k : Keyword} {t : Token} (ht : t.lexeme = .keyword k)
    (hk : (statementKind? (.keyword k)).isSome) (us : List Token) : StartsStatement (t :: us) :=
  .inr ⟨t, us, rfl, by rw [ht]; exact hk⟩

theorem opens_of_eq {x : Lexeme} {t : Token} (ht : t.lexeme = x) (hx : (opening? x).isSome)
    (hfun : x ≠ .keyword .funWord) (us : List Token) : Opens (t :: us) :=
  opens_of_lexeme (ht ▸ hx) (ht ▸ hfun)

/-- What begins as the phrases of a kind do. -/
def Nonterminal.beginnings (n : Nonterminal) : Language Token := {ts | n.Begins ts}

/-- If the parts of a phrase begin as they should, so does the phrase. -/
theorem rule_begins (n : Nonterminal) (ts : List Token)
    (h : ts ∈ rule Nonterminal.beginnings n) : n.Begins ts := by
  cases n with
  | program => trivial
  | exprStmt | expression | call => exact begins_of_mem_mul (fun _ => id) h
  | level l => cases l <;> exact begins_of_mem_mul (fun _ => id) h
  | declaration =>
    simp only [rule, mul_assoc, Language.mem_add, mem_token_mul] at h
    rcases h with ((⟨t, us, rfl, ht, -⟩ | ⟨t, us, rfl, ht, -⟩) | ⟨l, us, rfl⟩) | h
    · exact startsDeclaration_of_keyword ht nofun us
    · exact startsDeclaration_of_keyword ht nofun us
    · exact ⟨_, us, rfl, nofun, nofun⟩
    · exact StartsStatement.startsDeclaration h
  | varDecl =>
    simp only [rule, mul_assoc, mem_token_mul] at h
    obtain ⟨⟨_, l⟩, us, rfl, rfl, -⟩ := h
    exact ⟨l, us, rfl⟩
  | function =>
    simp only [rule, mul_assoc, mem_token_mul] at h
    obtain ⟨⟨_, l⟩, us, rfl, ⟨text, rfl⟩, -⟩ := h
    exact ⟨⟨text, l⟩, us, rfl⟩
  | block =>
    simp only [rule, mul_assoc, mem_token_mul] at h
    obtain ⟨⟨_, l⟩, us, rfl, rfl, -⟩ := h
    exact ⟨l, us, rfl⟩
  | statement =>
    simp only [rule, mul_assoc, Language.mem_add, mem_token_mul] at h
    rcases h with (((((h | ⟨t, us, rfl, ht, -⟩) | ⟨t, us, rfl, ht, -⟩) | ⟨t, us, rfl, ht, -⟩) |
      ⟨t, us, rfl, ht, -⟩) | ⟨t, us, rfl, ht, -⟩) | ⟨l, us, rfl⟩
    · exact .inl h
    · exact startsStatement_of_keyword ht rfl us
    · exact startsStatement_of_keyword ht rfl us
    · exact startsStatement_of_keyword ht rfl us
    · exact startsStatement_of_keyword ht rfl us
    · exact startsStatement_of_keyword ht rfl us
    · exact .inr ⟨_, us, rfl, rfl⟩
  | unary =>
    simp only [rule, add_mul, Language.mem_add, mem_token_mul] at h
    rcases h with (⟨⟨_, l⟩, us, rfl, rfl, -⟩ | ⟨⟨_, l⟩, us, rfl, rfl, -⟩) | h
    · exact .inr ⟨.not, l, us, rfl⟩
    · exact .inr ⟨.negate, l, us, rfl⟩
    · exact .inl h
  | primary =>
    simp only [rule, mul_assoc, Language.mem_add, mem_token, mem_token_mul] at h
    rcases h with h | ⟨t, us, rfl, ht, ⟨_, l⟩, vs, rfl, rfl, -⟩
    · rcases h with (((((((⟨t, rfl, ht⟩ | ⟨t, rfl, ht⟩) | ⟨t, rfl, ht⟩) | ⟨t, rfl, ht⟩) |
        ⟨t, rfl, _, _, ht⟩) | ⟨t, rfl, _, _, ht⟩) | ⟨t, rfl, _, ht⟩) | ⟨t, us, rfl, ht, -⟩) |
        ⟨t, us, rfl, ht, -⟩
      all_goals exact opens_of_eq ht rfl nofun _
    · -- behind the keyword stands the parenthesis of the parameters
      exact ⟨t, _, rfl, by rw [ht]; rfl, fun _ => ⟨l, vs, rfl⟩⟩

theorem begins {n : Nonterminal} {ts : List Token} (h : ts ∈ phrase n) : n.Begins ts :=
  phrase_le rule_begins n h

/-- A word with a phrase of the kind in front. -/
theorem begins_mul {n : Nonterminal} {M : Language Token} {ts : List Token}
    (h : ts ∈ phrase n * M) : n.Begins ts :=
  begins_of_mem_mul (fun _ => begins) h

/-! ### Some word of each kind -/

/-- There is a word in the language. -/
class HasWord (L : Language Token) : Prop where
  word : ∃ ts, ts ∈ L

section HasWord

variable {L M : Language Token}

instance (s : Symbol) : HasWord (symbol s) := ⟨[sym s 0], _, rfl, rfl⟩

instance (k : Keyword) : HasWord (keyword k) := ⟨[word k 0], _, rfl, rfl⟩

instance : HasWord name := ⟨[ident ⟨"", 0⟩], _, rfl, _, rfl⟩

instance : HasWord (1 : Language Token) := ⟨[], rfl⟩

instance : HasWord L∗ := ⟨[], Language.nil_mem_kstar L⟩

instance [hL : HasWord L] [hM : HasWord M] : HasWord (L * M) := by
  obtain ⟨us, hus⟩ := hL.word
  obtain ⟨vs, hvs⟩ := hM.word
  exact ⟨us ++ vs, Language.append_mem_mul hus hvs⟩

instance [hL : HasWord L] : HasWord (L + M) := by
  obtain ⟨us, hus⟩ := hL.word
  exact ⟨us, .inl hus⟩

instance [hM : HasWord M] : HasWord (L + M) := by
  obtain ⟨us, hus⟩ := hM.word
  exact ⟨us, .inr hus⟩

instance : HasWord (optional L) := by
  unfold optional
  infer_instance

/-- There are phrases of every kind: those that others consist of come first. -/
instance hasWord_phrase (n : Nonterminal) : HasWord (phrase n) := by
  have of_rule {n : Nonterminal} (h : HasWord (rule phrase n)) : HasWord (phrase n) :=
    phrase_eq n ▸ h
  have hprimary : HasWord (phrase .primary) := of_rule (by unfold rule; infer_instance)
  have hcall : HasWord (phrase .call) := of_rule (by unfold rule; infer_instance)
  have hunary : HasWord (phrase .unary) := of_rule (by unfold rule; infer_instance)
  have hfactor : HasWord (phrase (.level .factor)) := of_rule (by unfold rule; infer_instance)
  have hterm : HasWord (phrase (.level .term)) := of_rule (by unfold rule; infer_instance)
  have hcomparison : HasWord (phrase (.level .comparison)) :=
    of_rule (by unfold rule; infer_instance)
  have hequality : HasWord (phrase (.level .equality)) := of_rule (by unfold rule; infer_instance)
  have hand : HasWord (phrase (.level .and)) := of_rule (by unfold rule; infer_instance)
  have hor : HasWord (phrase (.level .or)) := of_rule (by unfold rule; infer_instance)
  have hexpression : HasWord (phrase .expression) := of_rule (by unfold rule; infer_instance)
  have hexprStmt : HasWord (phrase .exprStmt) := of_rule (by unfold rule; infer_instance)
  have hblock : HasWord (phrase .block) := of_rule (by unfold rule; infer_instance)
  refine of_rule ?_
  cases n with
  | level l => cases l <;> unfold rule <;> infer_instance
  | _ => unfold rule; infer_instance

end HasWord

/-! ### Lines do not matter -/

/-- Whether tokens are in the language depends on their lexemes only. -/
class Spelled (L : Language Token) : Prop where
  spelled : ∀ {ts ts' : List Token}, ts'.map (·.lexeme) = ts.map (·.lexeme) → ts ∈ L → ts' ∈ L

section Spelled

variable {L M : Language Token}

instance (P : Lexeme → Prop) : Spelled (token P) where
  spelled := by
    rintro _ ts' hsame ⟨t, rfl, ht⟩
    obtain ⟨t', rfl, hlexeme⟩ := List.map_eq_singleton_iff.mp hsame
    exact ⟨t', rfl, hlexeme ▸ ht⟩

instance : Spelled (1 : Language Token) where
  spelled := by
    rintro ts ts' hsame rfl
    exact List.map_eq_nil_iff.mp hsame

instance [hL : Spelled L] [hM : Spelled M] : Spelled (L + M) where
  spelled hsame h := h.imp (hL.spelled hsame) (hM.spelled hsame)

instance [hL : Spelled L] [hM : Spelled M] : Spelled (L * M) where
  spelled := by
    rintro _ ts' hsame ⟨us, hus, vs, hvs, rfl⟩
    obtain ⟨us', vs', rfl, hus', hvs'⟩ := List.map_eq_append_iff.mp (hsame.trans List.map_append)
    exact Language.append_mem_mul (hL.spelled hus' hus) (hM.spelled hvs' hvs)

instance [hL : Spelled L] : Spelled L∗ where
  spelled {ts ts'} hsame h := by
    have hpow (i : Nat) : Spelled (L ^ i) := by
      induction i with
      | zero =>
        rw [pow_zero]
        infer_instance
      | succ i ih =>
        rw [pow_succ]
        infer_instance
    rw [Language.kstar_eq_iSup_pow, Language.mem_iSup] at h ⊢
    obtain ⟨i, hi⟩ := h
    exact ⟨i, (hpow i).spelled hsame hi⟩

instance [Spelled L] : Spelled (optional L) := by
  unfold optional
  infer_instance

instance [Spelled L] : Spelled (separated L) := by
  unfold separated
  infer_instance

/-- The words of a language that are in it on all lines. -/
def anywhere (L : Language Token) : Language Token :=
  {ts | ∀ ts', ts'.map (·.lexeme) = ts.map (·.lexeme) → ts' ∈ L}

theorem anywhere_le : anywhere L ≤ L := fun ts h => h ts rfl

instance : Spelled (anywhere L) where
  spelled hsame h us hus := h us (hus.trans hsame)

instance spelled_phrase (n : Nonterminal) : Spelled (phrase n) := by
  -- the phrases that are phrases on all lines solve the equations, too
  have hsolves (n : Nonterminal) : rule (fun n => anywhere (phrase n)) n ≤ anywhere (phrase n) := by
    intro ts h ts' hsame
    have hspelled : Spelled (rule (fun n => anywhere (phrase n)) n) := by
      cases n with
      | level l => cases l <;> unfold rule <;> infer_instance
      | _ => unfold rule; infer_instance
    have hts' := hspelled.spelled hsame h
    rw [phrase_eq]
    exact rule_mono (fun n => anywhere_le) n hts'
  exact ⟨fun {ts ts'} hsame h => phrase_le hsolves n h ts' hsame⟩

end Spelled

/-- Being a program does not depend on lines. -/
theorem Sentence.respelled {ts ts' : List Token} (hsame : ts'.map (·.lexeme) = ts.map (·.lexeme))
    (h : Sentence ts) : Sentence ts' :=
  (spelled_phrase .program).spelled hsame h

section Viable

variable {ts ts' us vs : List Token}

theorem Viable.front (h : Viable (us ++ vs)) : Viable us := by
  obtain ⟨ws, hws⟩ := h
  exact ⟨vs ++ ws, by rwa [← List.append_assoc]⟩

theorem Viable.take {i j : Nat} (h : Viable (ts.take j)) (hij : i ≤ j) : Viable (ts.take i) := by
  rw [← List.take_append_drop i (ts.take j), List.take_take, Nat.min_eq_left hij] at h
  exact h.front

theorem Viable.respelled (hsame : ts'.map (·.lexeme) = ts.map (·.lexeme)) (h : Viable ts) :
    Viable ts' := by
  obtain ⟨vs, hvs⟩ := h
  exact ⟨vs, hvs.respelled (by rw [List.map_append, List.map_append, hsame])⟩

end Viable

end Ebnf

end Treewalk
