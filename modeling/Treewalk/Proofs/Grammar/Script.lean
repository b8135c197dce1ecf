import Treewalk.Proofs.Grammar.Acceptance

/-! # Scripts

    A script is a program in which no semicolon is left out.  It is parsed in the
    same way when it is typed as an entry, and then no value of it is shown.
    Scripts written one behind the other are a script. -/

namespace Treewalk

section Semicolons

variable {nearest : Bool} {ts : List Token} {s : SourceStmt}

/-- The phrase of a statement that is an expression ends in its semicolon. -/
theorem Derives.of_isExpression (h : Derives nearest false .declaration ts s)
    (hs : s.isExpression = true) :
    ∃ us l e, ts = us ++ [sym .semicolon l] ∧ Derives nearest false .expression us e ∧
      s = .expression e := by
  cases h with
  | statement h =>
    cases h with
    | evaluate h =>
      cases h with
      | exprStmt he => exact ⟨_, _, _, rfl, he, rfl⟩
      | bareStmt hbare _ => cases hbare
    | @forLoop _ _ _ _ _ _ _ _ _ initial =>
      -- the tree of a `for` is a block or a loop
      cases initial <;> cases hs
    | _ => cases hs
  | declareVar h => cases h <;> cases hs
  | _ => cases hs

/-- A script that ends in an expression ends in its semicolon. -/
theorem Derives.script_ends {program : List SourceStmt}
    (h : Derives nearest false .declarations ts program) (hs : endsInExpression program = true) :
    endsInSemicolon ts = true := by
  cases h with
  | noDeclarations => cases hs
  | @moreDeclarations ts us ss s _ h =>
    have hlast : s.isExpression = true := by simpa [endsInExpression] using hs
    obtain ⟨vs, l, e, rfl, -⟩ := h.of_isExpression hlast
    simp [endsInSemicolon, ← List.append_assoc, Token.isSymbol]

end Semicolons

/-- Declarations can stand behind a script. -/
def Category.GoesBehind (nearest bare : Bool) (ts : List Token) (ps : List SourceStmt) :
    (c : Category) → List Token → c.Tree → Prop
  | .declarations, us, qs => Derives nearest bare .declarations (ts ++ us) (ps ++ qs)
  | _, _, _ => True

theorem Derives.goesBehind {nearest bare : Bool} {ts us : List Token} {ps : List SourceStmt}
    {c : Category} {t : c.Tree} (hp : Derives nearest bare .declarations ts ps)
    (h : Derives nearest bare c us t) : c.GoesBehind nearest bare ts ps us t := by
  induction h with
  | noDeclarations =>
    show Derives nearest bare .declarations (ts ++ []) (ps ++ [])
    rw [List.append_nil, List.append_nil]
    exact hp
  | @moreDeclarations us vs qs s _ h ihs _ =>
    show Derives nearest bare .declarations (ts ++ (us ++ vs)) (ps ++ (qs ++ [s]))
    rw [← List.append_assoc, ← List.append_assoc]
    exact .moreDeclarations ihs h
  | _ => trivial

/-- Scripts in a row are a script. -/
theorem Derives.append {nearest bare : Bool} {ts us : List Token} {ps qs : List SourceStmt}
    (hp : Derives nearest bare .declarations ts ps) (hq : Derives nearest bare .declarations us qs) :
    Derives nearest bare .declarations (ts ++ us) (ps ++ qs) :=
  hp.goesBehind hq

/-- A value is to be shown if the last expression of an entry lacks its semicolon. -/
theorem parse_bare (interactive : Bool) (tokens : List Token) :
    (parse interactive tokens).bare =
      (interactive && (parse interactive tokens).errors.isEmpty &&
        endsInExpression (parse interactive tokens).statements && !endsInSemicolon tokens) := by
  unfold parse
  dsimp only
  split
  · rfl
  · simp [endsInExpression]

/-- A script is parsed to its tree in both modes. -/
theorem parse_script {tokens : List Token} {program : List SourceStmt}
    (h : Derives true false .declarations tokens program) (interactive : Bool) :
    (parse interactive tokens).errors = [] ∧ (parse interactive tokens).statements = program ∧
      (parse interactive tokens).bare = false := by
  obtain ⟨herrors, hstatements⟩ : (parse interactive tokens).errors = [] ∧
      (parse interactive tokens).statements = program := parse_of_derives h
  refine ⟨herrors, hstatements, ?_⟩
  rw [parse_bare, hstatements]
  cases hlast : endsInExpression program with
  | false => simp
  | true => simp [h.script_ends hlast]

end Treewalk
