import Treewalk.Proofs.Token.Lines
import Treewalk.Proofs.Tree.Reading

/-! # The printed form of a program

    What is parsed without errors from a text has names that are words and no keywords.  So
    as long as its numbers are finite and no string holds a double quote, the printed form
    of a phrase tells what the phrase is. -/

namespace Treewalk

/-! ### Phrases -/

namespace Phrase

/-- The printed form of a phrase. -/
def render : Phrase → String
  | .expr e => e.render
  | .stmt s => s.render

/-- The tokens of a phrase. -/
def tokens : Phrase → List Token
  | .expr e => e.tokens
  | .stmt s => s.tokens

/-- The constants in a phrase. -/
def literals : Phrase → List Literal
  | .expr e => e.literals
  | .stmt s => s.literals

theorem mem_tokens_of_body {m : SourceFun} {s : SourceStmt} (hs : s ∈ m.body) {t : Token}
    (ht : t ∈ s.tokens) : t ∈ m.tokens := by
  cases m with
  | mk name params body =>
    rw [FunDecl.tokens, tokensOfStmts_eq_flatMap]
    exact List.mem_cons_of_mem _ (List.mem_append_right _ (List.mem_flatMap.mpr ⟨s, hs, ht⟩))

/-- The tokens of a part are tokens of the whole. -/
theorem mem_tokens_of_part {ph : Phrase} {part : Surroundings × Phrase} (h : part ∈ ph.parts)
    {t : Token} (ht : t ∈ part.2.tokens) : t ∈ ph.tokens := by
  rcases ph with e | s
  · cases e <;>
      simp only [parts, List.mem_cons, List.mem_map, List.not_mem_nil, or_false] at h <;>
      simp only [tokens, Expr.tokens, tokensOfExprs_eq_flatMap, tokensOfStmts_eq_flatMap,
        List.mem_cons, List.mem_append, List.mem_flatMap]
    all_goals grind [tokens]
  · rcases s with e | e | ⟨name, _ | e⟩ | body | ⟨c, a, _ | b⟩ | ⟨c, body⟩ | ⟨name, params, body⟩ |
      ⟨line, _ | e⟩ | ⟨name, _ | ⟨superName, use⟩, methods⟩
    all_goals
      simp only [parts, List.mem_cons, List.mem_map, List.mem_flatMap,
        List.not_mem_nil, or_false] at h
    all_goals
      simp only [tokens, Stmt.tokens, tokensOfFuns_eq_flatMap, tokensOfStmts_eq_flatMap,
        List.mem_cons, List.mem_append, List.mem_flatMap]
    all_goals grind [tokens, mem_tokens_of_body]

end Phrase

theorem Inside.mem_tokens {π ρ : Surroundings} {ph target : Phrase} (h : Inside π ph ρ target)
    {t : Token} (ht : t ∈ target.tokens) : t ∈ ph.tokens := by
  induction h with
  | self => exact ht
  | part hpart _ ih => exact Phrase.mem_tokens_of_part hpart (ih ht)

/-- The phrase occurs in a program that is parsed from a text without errors. -/
def Phrase.FromText (ph : Phrase) : Prop :=
  ∃ interactive source line, (parse interactive (scan source line).tokens).errors = [] ∧
    ∃ π, Occurs (parse interactive (scan source line).tokens).statements π ph

theorem Phrase.FromText.hasForm {ph : Phrase} (h : ph.FromText) :
    ∀ t ∈ ph.tokens, t.lexeme.HasForm := by
  obtain ⟨interactive, source, line, herrors, π, s, hs, hinside⟩ := h
  intro t ht
  refine hasForm_of_mem_scan (tokens_subset_of_parse herrors ?_)
  rw [tokensOfStmts_eq_flatMap]
  exact List.mem_flatMap.mpr ⟨s, hs, hinside.mem_tokens ht⟩

/-! ### The printed form -/

/-- The words in front of statements that are read as expressions are none of expressions. -/
theorem compound?_eq_none {head : String}
    (h : head ∈ [";", "print", "var", "block", "if", "while", "return", "class"])
    (es : List SourceExpr) : compound? head es = none := by
  simp only [List.mem_cons, List.not_mem_nil, or_false] at h
  rcases h with rfl | rfl | rfl | rfl | rfl | rfl | rfl | rfl <;>
    rcases es with _ | ⟨l, _ | ⟨r, _ | ⟨e, es⟩⟩⟩ <;> rfl

/-- No statement is printed like an expression. -/
theorem expr?_stmt (s : SourceStmt) : s.nested.expr? = none := by
  have hnone {head : String}
      (h : head ∈ [";", "print", "var", "block", "if", "while", "return", "class"])
      (hfun : head ≠ "fun") (parts : List Nested) :
      (Nested.node (.atom head :: parts)).expr? = none := by
    rw [expr?_compound hfun]
    exact Option.bind_eq_none_iff.mpr fun es _ => compound?_eq_none h es
  rcases s with e | e | ⟨name, _ | e⟩ | body | ⟨c, a, _ | b⟩ | ⟨c, body⟩ | ⟨name, params, body⟩ |
    ⟨line, _ | e⟩ | ⟨name, _ | ⟨superName, use⟩, methods⟩
  case function =>
    -- the name stands where an expression has its parameters
    rw [Stmt.nested, FunDecl.nested]
    unfold Nested.expr?
    exact if_pos rfl
  all_goals exact hnone (by decide) (by decide) _

/-- The nested text that a phrase is printed as. -/
def Phrase.nested : Phrase → Nested
  | .expr e => e.nested
  | .stmt s => s.nested

theorem Phrase.text_nested (ph : Phrase) : ph.nested.text = ph.render := by
  cases ph with
  | expr e => exact e.text_nested
  | stmt s => exact s.text_nested

theorem Phrase.FromText.isPlain {ph : Phrase} (h : ph.FromText)
    (hlegible : ∀ v ∈ ph.literals, v.IsLegible) : ph.nested.IsPlain := by
  cases ph with
  | expr e => exact (e.isExpr_nested h.hasForm hlegible).plain
  | stmt s => exact (s.isStmt_nested h.hasForm hlegible).plain

/-- Phrases with the same printed form are the same but for the lines they are on, if no
    string in them holds a double quote and all numbers in them are finite. -/
theorem printed_form_identifies_phrase {p q : Phrase} (hp : p.FromText) (hq : q.FromText)
    (hplegible : ∀ v ∈ p.literals, v.IsLegible) (hqlegible : ∀ v ∈ q.literals, v.IsLegible)
    (h : p.render = q.render) : p.renumber (fun _ => 0) = q.renumber (fun _ => 0) := by
  have hchars : p.nested.chars = q.nested.chars := by
    rw [← Nested.toList_text, ← Nested.toList_text, p.text_nested, q.text_nested, h]
  have hnested : p.nested = q.nested :=
    Nested.eq_of_chars (hp.isPlain hplegible) (hq.isPlain hqlegible) hchars
  have hpform := hp.hasForm
  have hqform := hq.hasForm
  rcases p with e | s <;> rcases q with e' | s'
  · have he := (e.isExpr_nested hpform hplegible).read
    have he' := (e'.isExpr_nested hqform hqlegible).read
    rw [show e.nested = e'.nested from hnested, he'] at he
    exact congrArg Phrase.expr (Option.some.inj he).symm
  · have he := (e.isExpr_nested hpform hplegible).read
    rw [show e.nested = s'.nested from hnested, expr?_stmt] at he
    cases he
  · have he' := (e'.isExpr_nested hqform hqlegible).read
    rw [show e'.nested = s.nested from hnested.symm, expr?_stmt] at he'
    cases he'
  · have hs := (s.isStmt_nested hpform hplegible).read
    have hs' := (s'.isStmt_nested hqform hqlegible).read
    rw [show s.nested = s'.nested from hnested, hs'] at hs
    exact congrArg Phrase.stmt (Option.some.inj hs).symm

theorem fromText_of_mem {interactive : Bool} {source : String} {line : Int}
    (herrors : (parse interactive (scan source line).tokens).errors = []) {s : SourceStmt}
    (hs : s ∈ (parse interactive (scan source line).tokens).statements) :
    (Phrase.stmt s).FromText :=
  ⟨interactive, source, line, herrors, [], s, hs, .self⟩

/-- A statement on one line and on three. -/
theorem printed_call_identifies_phrase :
    (parse false (scan "print f(x, 1.5) + 'a (b';" 1).tokens).statements.length = 1 ∧
      (parse false (scan "print f(x,\n1.5)\n+ 'a (b';" 3).tokens).statements.length = 1 ∧
      ∀ s ∈ (parse false (scan "print f(x, 1.5) + 'a (b';" 1).tokens).statements,
        ∀ s' ∈ (parse false (scan "print f(x,\n1.5)\n+ 'a (b';" 3).tokens).statements,
          s.render = "(print (+ (call f x 1.5) \"a (b\"))" ∧
            (Phrase.stmt s).renumber (fun _ => 0) = (Phrase.stmt s').renumber (fun _ => 0) := by
  have hlegible : ∀ s ∈ (parse false (scan "print f(x, 1.5) + 'a (b';" 1).tokens).statements,
      ∀ v ∈ s.literals, v.IsLegible := by decide +kernel
  have hlegible' : ∀ s ∈ (parse false (scan "print f(x,\n1.5)\n+ 'a (b';" 3).tokens).statements,
      ∀ v ∈ s.literals, v.IsLegible := by decide +kernel
  have hrender : ∀ s ∈ (parse false (scan "print f(x, 1.5) + 'a (b';" 1).tokens).statements,
      s.render = "(print (+ (call f x 1.5) \"a (b\"))" := by decide +kernel
  have hrender' : ∀ s ∈ (parse false (scan "print f(x,\n1.5)\n+ 'a (b';" 3).tokens).statements,
      s.render = "(print (+ (call f x 1.5) \"a (b\"))" := by decide +kernel
  refine ⟨by decide +kernel, by decide +kernel, fun s hs s' hs' => ⟨hrender s hs, ?_⟩⟩
  exact printed_form_identifies_phrase (fromText_of_mem (by decide +kernel) hs)
    (fromText_of_mem (by decide +kernel) hs') (hlegible s hs) (hlegible' s' hs')
    ((hrender s hs).trans (hrender' s' hs').symm)

end Treewalk
