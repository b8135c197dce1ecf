import Treewalk.Proofs.Grammar.Completeness
import Treewalk.Proofs.Grammar.Progress
import Treewalk.Proofs.Grammar.Soundness

/-! # What the parser accepts

    A script is parsed without errors exactly if it is a program of the grammar,
    and the statements are then the tree of its derivation.  Of the derivations
    that differ in the `if` to which an `else` belongs, it is the one that gives
    every `else` to the nearest. -/

namespace Treewalk

open Treewalk.Parser

/-- A parse without errors reads all tokens, and records nothing. -/
theorem run_of_parse {interactive : Bool} {tokens : List Token}
    (h : (parse interactive tokens).errors = []) :
    declarations atEnd (declaration interactive (nestingBound tokens.length)) ⟨tokens, #[]⟩ =
      .ok (parse interactive tokens).statements ⟨[], #[]⟩ := by
  have hrun := run_parse interactive tokens
  rw [h] at hrun
  exact hrun

/-- What is parsed without errors derives. -/
theorem derives_of_parse {interactive : Bool} {tokens : List Token}
    (h : (parse interactive tokens).errors = []) :
    Derives false interactive .declarations tokens (parse interactive tokens).statements := by
  obtain ⟨-, -, hd⟩ := reads_nested interactive (nestingBound tokens.length)
  have hreads := reads_declarations looks_atEnd hd
  obtain ⟨ts, hts, hderives⟩ := hreads.phrase (run_of_parse h) rfl
  -- nothing is left over, so what was read is all there is
  obtain rfl : tokens = ts := by simpa using hts
  exact hderives

/-- What derives with every `else` at the nearest `if` is parsed without errors,
    to its tree. -/
theorem parse_of_derives {interactive : Bool} {tokens : List Token} {program : List SourceStmt}
    (h : Derives true false .declarations tokens program) :
    (parse interactive tokens).errors = [] ∧ (parse interactive tokens).statements = program := by
  -- behind the program there is nothing, which ends the loop
  have hloops : Loops (nextDeclaration atEnd (declaration interactive (nestingBound tokens.length))) []
      [] (tokens ++ []) program.reverse := by
    refine isParsed_of_derives h _ atEnd [] [] _ (Nat.le_refl _) seesDeclaration_atEnd nofun ?_
    exact .stop fun errors => rfl
  have hparses : Parses (declarations atEnd (declaration interactive (nestingBound tokens.length)))
      (tokens ++ []) [] program.reverse.reverse := .last (parses_steps hloops) .pure
  have hrun := hparses #[]
  rw [List.append_nil, List.append_nil, List.reverse_reverse] at hrun
  unfold parse
  simp only [hrun]
  exact ⟨trivial, trivial⟩

/-- A script is parsed without errors if and only if it is a program of the
    grammar, and its statements are then the tree of the derivation in which
    every `else` belongs to the nearest `if`. -/
theorem parse_accepts_grammar (tokens : List Token) :
    ((parse false tokens).errors = [] ↔ ∃ program, Derives false false .declarations tokens program) ∧
    ∀ program, Derives true false .declarations tokens program ↔
      (parse false tokens).errors = [] ∧ (parse false tokens).statements = program := by
  have hnearest {program : List SourceStmt} (h : Derives false false .declarations tokens program) :
      ∃ program', Derives true false .declarations tokens program' := h.isNearest
  refine ⟨⟨?_, ?_⟩, fun program => ⟨parse_of_derives, ?_⟩⟩
  · intro herrors
    exact ⟨_, derives_of_parse herrors⟩
  · rintro ⟨program, hprogram⟩
    obtain ⟨program', hprogram'⟩ := hnearest hprogram
    exact (parse_of_derives hprogram').1
  · rintro ⟨herrors, rfl⟩
    -- the parser's tree is that of every nearest derivation, and there is one
    obtain ⟨program', hprogram'⟩ := hnearest (derives_of_parse herrors)
    rw [(parse_of_derives hprogram').2]
    exact hprogram'

end Treewalk
