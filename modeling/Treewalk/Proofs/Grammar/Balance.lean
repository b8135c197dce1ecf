import Mathlib.Algebra.BigOperators.Group.List.Basic
import Mathlib.Algebra.Ring.Int.Defs
import Treewalk.Proofs.Grammar.Acceptance
import Treewalk.Session.Basic

/-! # Balanced brackets

    The shell only counts brackets: it looks neither at their kind nor at their
    order.  That is enough, because every phrase of the grammar opens as many
    brackets as it closes. -/

namespace Treewalk

/-- What a token adds to the number of open brackets. -/
def Token.bracket (t : Token) : Int :=
  match t.lexeme with
  | .symbol .leftBrace | .symbol .leftParen => 1
  | .symbol .rightBrace | .symbol .rightParen => -1
  | _ => 0

namespace Session

theorem openBrackets_eq (tokens : List Token) :
    openBrackets tokens = (tokens.map Token.bracket).sum := by
  rw [List.sum_eq_foldl, List.foldl_map]
  unfold openBrackets
  congr 1
  funext n t
  unfold Token.bracket
  split <;> simp_all [Int.sub_eq_add_neg]

@[simp] theorem openBrackets_nil : openBrackets [] = 0 := rfl

@[simp] theorem openBrackets_cons (t : Token) (tokens : List Token) :
    openBrackets (t :: tokens) = t.bracket + openBrackets tokens := by
  simp [openBrackets_eq]

@[simp] theorem openBrackets_append (ts us : List Token) :
    openBrackets (ts ++ us) = openBrackets ts + openBrackets us := by
  simp [openBrackets_eq]

end Session

/-! ### Tokens that are no brackets -/

@[simp] theorem bracket_ident (n : Name) : (ident n).bracket = 0 := rfl

@[simp] theorem bracket_word (k : Keyword) (line : Int) : (word k line).bracket = 0 := rfl

theorem bracket_of_literal? {x : Lexeme} {v : Literal} (h : x.literal? = some v) (line : Int) :
    Token.bracket ⟨x, line⟩ = 0 := by
  cases x with
  | symbol s => cases h
  | _ => rfl

theorem bracket_unary (op : UnaryOp) (line : Int) : (sym op.symbol line).bracket = 0 := by
  cases op <;> rfl

theorem bracket_of_operator? {l : Parser.Level} {x : Lexeme} {op : Parser.Operator}
    (h : l.operator? x = some op) (line : Int) : Token.bracket ⟨x, line⟩ = 0 := by
  unfold Parser.Level.operator? at h
  split at h <;> first | rfl | cases h

/-! ### Phrases -/

/-- Every phrase opens as many brackets as it closes. -/
theorem Derives.balanced {nearest bare : Bool} {c : Category} {ts : List Token} {t : c.Tree}
    (h : Derives nearest bare c ts t) : Session.openBrackets ts = 0 := by
  induction h with
  | literal h => simp [bracket_of_literal? h]
  | unary _ ih => simp [bracket_unary, ih]
  | operator _ hop _ iha ihb => simp [bracket_of_operator? hop, iha, ihb]
  | _ => simp_all [Token.bracket]

/-- What is parsed without errors opens as many brackets as it closes. -/
theorem balanced_of_parse {interactive : Bool} {tokens : List Token}
    (h : (parse interactive tokens).errors = []) : Session.openBrackets tokens = 0 :=
  (derives_of_parse h).balanced

end Treewalk
