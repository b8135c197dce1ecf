import Treewalk.Proofs.Grammar.Balance
import Treewalk.Proofs.Session.Checking
import Treewalk.Proofs.Token.Trimming

/-! # Entries that need no other line

    The shell asks for another line as long as a string, a comment or a bracket is
    open.  A text that scanner and parser accept has none of these, so it is never
    held back, and that the shell drops the white space at its end makes no
    difference to its tokens. -/

namespace Treewalk

/-! ### Line numbers -/

/-- Whether a text has issues does not depend on the number of its first line. -/
theorem issues_eq_nil_of_line {source : String} {line : Int}
    (h : (scan source line).issues = []) (other : Int) : (scan source other).issues = [] := by
  have hkinds (n : Int) : (scan source n).issues.map (·.1) =
      (pieces source.toList).filterMap Piece.issue? := kinds_issuesFrom n _
  rw [← List.map_eq_nil_iff, hkinds other, ← hkinds line, h, List.map_nil]

/-- Nor does the number of open brackets. -/
theorem openBrackets_scan (source : String) (line other : Int) :
    Session.openBrackets (scan source line).tokens =
      Session.openBrackets (scan source other).tokens := by
  have hsum (n : Int) : Session.openBrackets (scan source n).tokens =
      (((pieces source.toList).filterMap Piece.lexeme?).map fun l => Token.bracket ⟨l, 0⟩).sum := by
    rw [Session.openBrackets_eq, ← lexemes_tokensFrom n, List.map_map]
    rfl
  rw [hsum, hsum]

/-! ### Finished entries -/

/-- Scanner and parser find nothing wrong with a text that is added to the session;
    resolution may. -/
def Session.Parses (s : Session) (source : String) (line : Int) : Prop :=
  ∀ d, (s.add source line).2 = some d → ∀ c, .complaint c ∈ d.findings → c.phase = .resolve

namespace Session

variable {s : Session} {source : String} {line : Int}

/-- A text that parses has no issues, and neither has its tree. -/
theorem Parses.clean (h : s.Parses source line) : (scan source line).issues = [] ∧
    (parse s.interactive (scan source line).tokens).errors = [] := by
  have hverdict := check_verdict s.interactive source line
  unfold Parses add at h
  dsimp only at h
  generalize (check s.interactive source line).outcome = outcome at h hverdict
  cases hverdict with
  | illFormed hordered =>
    exact absurd (h _ rfl _ List.mem_cons_self) (hordered.ne_resolve List.mem_cons_self)
  | illScoped hscan hparse _ => exact ⟨hscan, hparse⟩
  | accepted hscan hparse _ _ => exact ⟨hscan, hparse⟩

/-- The shell never holds back a finished entry: a text that parses needs no other line,
    and without the white space at its end it has the same tokens on the same lines. -/
theorem finished_entry_is_not_held_back (h : s.Parses source line) :
    extendEntry source "" = (Text.stripRight source, false) ∧
      ∀ n, (scan (Text.stripRight source) n).tokens = (scan source n).tokens := by
  obtain ⟨hscan, hparse⟩ := h.clean
  have htrimmed (n : Int) := scan_stripRight (issues_eq_nil_of_line hscan n)
  have hbalanced : openBrackets (scan source 1).tokens = 0 :=
    (openBrackets_scan source 1 line).trans (balanced_of_parse hparse)
  refine ⟨?_, fun n => (htrimmed n).1⟩
  have hcomplete : isIncomplete (Text.stripRight source) = false := by
    unfold isIncomplete
    dsimp only
    rw [(htrimmed 1).1, (htrimmed 1).2, hbalanced]
    rfl
  exact congrArg (Prod.mk _) hcomplete

/-- A function with a comment and blanks behind it, on lines 3 and 4. -/
theorem finished_function_is_not_held_back :
    (Session.new "<in>" true ⟨20, 20⟩ fun _ => 0).Parses "fun f(a) \x7breturn a;\n\x7d // done \t" 3 ∧
      extendEntry "fun f(a) \x7breturn a;\n\x7d // done \t" "" =
        ("fun f(a) \x7breturn a;\n\x7d // done", false) := by
  have haccepted : ((Session.new "<in>" true ⟨20, 20⟩ fun _ => 0).add
      "fun f(a) \x7breturn a;\n\x7d // done \t" 3).2 = none := by
    decide +kernel
  have hparses : (Session.new "<in>" true ⟨20, 20⟩ fun _ => 0).Parses
      "fun f(a) \x7breturn a;\n\x7d // done \t" 3 := by
    intro d hd
    rw [haccepted] at hd
    cases hd
  refine ⟨hparses, (finished_entry_is_not_held_back hparses).1.trans ?_⟩
  decide +kernel

end Session

end Treewalk
