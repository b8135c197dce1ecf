import Treewalk.Proofs.Grammar.Alike

/-! # Progress

    Whatever tokens it is given, the parser comes to their end.  A round of a loop reads
    a token or is the last one, and a statement that is given up skips at least the token
    it was given up at.  So neither the bound on the rounds of a loop nor the bound on
    nesting is ever reached. -/

namespace Treewalk

open Treewalk.Parser

/-! ### Loops without bounds -/

/-- A round of a loop leaves the end of the tokens, and less of it unless it is the last
    round; at the end of the tokens it is the last round. -/
structure Orderly {α : Type} (step : α → Parser (Option α)) : Prop where
  reads : ∀ a s, Advances (fun _ => True) (fun next : Option α => next.isSome) s (step a s)
  stops : ∀ a s, s.rest = [] → step a s = .ok none s

namespace Orderly

variable {α : Type} {step : α → Parser (Option α)}

/-- A round that is not the last one leaves fewer tokens. -/
theorem length_lt (h : Orderly step) {a b : α} {s s' : ParseState}
    (hstep : step a s = .ok (some b) s') : s'.rest.length < s.rest.length := by
  have hadv := h.reads a s
  rw [hstep] at hadv
  obtain ⟨-, ts, hts, hne⟩ := hadv
  have hpos := List.length_pos_iff.mpr (hne rfl)
  rw [hts, List.length_append]
  omega

theorem stepsUpTo_succ (n : Nat) (a : α) : stepsUpTo step (n + 1) a =
    step a >>= fun next => match next with
      | some b => stepsUpTo step n b
      | none => pure a := rfl

theorem steps_def (a : α) : steps step a =
    step a >>= fun next => match next with
      | some b => remaining >>= fun n => stepsUpTo step n b
      | none => pure a := rfl

/-- As many rounds as tokens are as good as any greater number. -/
theorem stepsUpTo_eq (h : Orderly step) (n m : Nat) (a : α) (s : ParseState)
    (hn : s.rest.length ≤ n) (hm : s.rest.length ≤ m) :
    stepsUpTo step n a s = stepsUpTo step m a s := by
  have hend (m : Nat) (a : α) (s : ParseState) (hs : s.rest.length ≤ 0) :
      stepsUpTo step m a s = .ok a s := by
    cases m with
    | zero => rfl
    | succ m =>
      rw [stepsUpTo_succ, bind_of_ok (h.stops a s (List.length_eq_zero_iff.mp (Nat.le_zero.mp hs)))]
      rfl
  induction n generalizing m a s with
  | zero => rw [hend 0 a s hn, hend m a s hn]
  | succ n ih =>
    cases m with
    | zero => rw [hend (n + 1) a s hm, hend 0 a s hm]
    | succ m =>
      rw [stepsUpTo_succ, stepsUpTo_succ]
      cases hstep : step a s with
      | error e s' => rw [bind_of_error hstep, bind_of_error hstep]
      | ok next s' =>
        rw [bind_of_ok hstep, bind_of_ok hstep]
        cases next with
        | none => rfl
        | some b =>
          have hlt := h.length_lt hstep
          exact ih m b s' (by omega) (by omega)

theorem stepsUpTo_eq_steps (h : Orderly step) (n : Nat) (a : α) (s : ParseState)
    (hn : s.rest.length ≤ n) : stepsUpTo step n a s = steps step a s := by
  rw [h.stepsUpTo_eq n (s.rest.length + 1) a s hn (Nat.le_succ _), stepsUpTo_succ, steps_def]
  cases hstep : step a s with
  | error e s' => rw [bind_of_error hstep, bind_of_error hstep]
  | ok next s' =>
    rw [bind_of_ok hstep, bind_of_ok hstep]
    cases next with
    | none => rfl
    | some b =>
      have hlt := h.length_lt hstep
      exact h.stepsUpTo_eq _ s'.rest.length b s' (Nat.le_of_lt hlt) (Nat.le_refl _)

/-- The loop is left only because a round says so, or fails: the bound on its rounds is
    not reached before. -/
theorem steps_eq (h : Orderly step) (a : α) :
    steps step a = step a >>= fun next => match next with
      | some b => steps step b
      | none => pure a := by
  funext s
  rw [steps_def]
  cases hstep : step a s with
  | error e s' => rw [bind_of_error hstep, bind_of_error hstep]
  | ok next s' =>
    rw [bind_of_ok hstep, bind_of_ok hstep]
    cases next with
    | none => rfl
    | some b => exact h.stepsUpTo_eq_steps s'.rest.length b s' (Nat.le_refl _)

end Orderly

/-- A loop in which every round reads a token or is the last one, and which goes on until
    a round is the last one, or fails. -/
structure Proceeds {α : Type} (step : α → Parser (Option α)) : Prop where
  round : ∀ a s, match step a s with
    | .ok (some _) s' => ∃ ts, s.rest = ts ++ s'.rest ∧ ts ≠ []
    | .ok none s' | .error _ s' => ∃ ts, s.rest = ts ++ s'.rest
  loop : ∀ a, steps step a = step a >>= fun next => match next with
    | some b => steps step b
    | none => pure a

theorem Orderly.proceeds {α : Type} {step : α → Parser (Option α)} (h : Orderly step) :
    Proceeds step where
  round a s := by
    have hadv := h.reads a s
    cases hstep : step a s with
    | error e s' =>
      rw [hstep] at hadv
      exact hadv.2
    | ok next s' =>
      rw [hstep] at hadv
      obtain ⟨-, ts, hts, hne⟩ := hadv
      cases next with
      | none => exact ⟨ts, hts⟩
      | some b => exact ⟨ts, hts, hne rfl⟩
  loop := h.steps_eq

/-- Rounds that go on alike, for any number of tokens, are orderly. -/
theorem Rounds.orderly {α : Type} {step : α → Parser (Option α)}
    (h : ∀ k, Rounds (fun _ => True) k step step)
    (hstops : ∀ a s, s.rest = [] → step a s = .ok none s) : Orderly step where
  reads a s := (h (s.rest.length + 1) a s s.within_all (Nat.lt_succ_self _)).2
  stops := hstops

section Loops

variable (interactive : Bool) (n : Nat)

theorem alikeDeclarations_self (T : Token → Prop) (k : Nat) :
    AlikeDeclarations T k (declaration interactive n) (declaration interactive n) :=
  (alike_nested interactive T n n k).2.2 (.inl rfl)

theorem orderly_nextDeclaration {ends : Parser Bool} (hends : SeesEnd ends) :
    Orderly (nextDeclaration ends (declaration interactive n)) := by
  refine Rounds.orderly (fun k => ?_) fun ss s hs => ?_
  · exact rounds_nextDeclaration hends (alikeDeclarations_self interactive n _ k)
  · unfold nextDeclaration
    rw [bind_of_ok (hends.atEnd s hs)]
    rfl

theorem orderly_nextMethod : Orderly (nextMethod (declaration interactive n)) := by
  refine Rounds.orderly (fun k => ?_) fun methods s hs => ?_
  · exact rounds_nextMethod (alikeDeclarations_self interactive n _ k)
  · unfold nextMethod
    rw [bind_of_ok (seesEnd_blockEnds.atEnd s hs)]
    rfl

/-- A round that starts with a symbol is the last one at the end of the tokens. -/
theorem accept_at_end {β : Type} {symbol : Symbol} {s : ParseState} (hs : s.rest = [])
    (f : Option Token → Parser β) : (accept symbol >>= f) s = f none s := by
  refine bind_of_ok ?_ f
  unfold accept
  rw [hs]

/-- A round that starts with a lexeme of some kind is the last one there, too. -/
theorem acceptWith_at_end {β γ : Type} {g : Lexeme → Option γ} {s : ParseState} (hs : s.rest = [])
    (f : Option (γ × Token) → Parser β) : (acceptWith g >>= f) s = f none s := by
  refine bind_of_ok ?_ f
  unfold acceptWith
  rw [hs]

theorem reading_self (k : Nat) :
    Reading (fun _ => True) k (expression interactive n) (expression interactive n) :=
  (alike_nested interactive _ n n k).1 (.inl rfl)

theorem orderly_nextArgument : Orderly (nextArgument (expression interactive n)) := by
  refine Rounds.orderly (fun k => ?_) fun args s hs => accept_at_end hs _
  exact rounds_nextArgument (reading_self interactive n _)

theorem orderly_nextParam : Orderly nextParam :=
  Rounds.orderly (fun _ => rounds_nextParam) fun _ _ hs => accept_at_end hs _

theorem orderly_nextCall : Orderly (nextCall (expression interactive n)) := by
  refine Rounds.orderly (fun k => rounds_nextCall (reading_self interactive n _)) fun e s hs => ?_
  unfold nextCall
  rw [accept_at_end hs]
  exact accept_at_end hs _

theorem orderly_nextUnary : Orderly nextUnary :=
  Rounds.orderly (fun _ => rounds_nextUnary) fun _ _ hs => acceptWith_at_end hs _

theorem orderly_nextOperand (level : Level) :
    Orderly (nextOperand level (operandOf (expression interactive n)
      (block (declaration interactive n)) level)) := by
  refine Rounds.orderly (fun k => ?_) fun _ _ hs => acceptWith_at_end hs _
  have hblock := going_block (alikeDeclarations_self interactive n (fun _ => True) (k - 1 - 1))
  exact rounds_nextOperand level (reading_operandOf (reading_self interactive n _) hblock level)

end Loops

/-! ### Programs -/

/-- Before a token, a declaration is read or given up; either way a token is gone. -/
theorem declaration_reads (interactive : Bool) (n : Nat) (s : ParseState) (hs : s.rest ≠ []) :
    ∃ found s' ts, declaration interactive n s = .ok found s' ∧ s.rest = ts ++ s'.rest ∧ ts ≠ [] := by
  have hself := alikeDeclarations_self interactive n (fun _ => True) (s.rest.length + 1)
  obtain ⟨-, found, s', ts, hrun, -, hts, hne⟩ := hself s s.within_all (Nat.lt_succ_self _) hs
  exact ⟨found, s', ts, hrun, hts, hne⟩

/-- The loop over a program ends at the end of the tokens. -/
theorem steps_reach_end (interactive : Bool) (n : Nat) (ss : List SourceStmt) (s : ParseState) :
    ∃ ss' errors, steps (nextDeclaration atEnd (declaration interactive n)) ss s =
      .ok ss' ⟨[], errors⟩ := by
  have hloop := orderly_nextDeclaration interactive n seesEnd_atEnd
  -- by induction on the number of tokens, of which every round but the last reads one
  induction hlen : s.rest.length using Nat.strongRecOn generalizing ss s with
  | ind len ih =>
    rw [hloop.steps_eq]
    by_cases hs : s.rest = []
    · rw [bind_of_ok (hloop.stops ss s hs)]
      obtain ⟨rest, errors⟩ := s
      cases hs
      exact ⟨ss, errors, rfl⟩
    · obtain ⟨found, s', ts, hrun, -⟩ := declaration_reads interactive n s hs
      have hround : nextDeclaration atEnd (declaration interactive n) ss s =
          .ok (some (found.elim ss (· :: ss))) s' := by
        have hend : atEnd s = .ok false s := by simp [atEnd, hs]
        unfold nextDeclaration
        rw [bind_of_ok hend, if_neg nofun, bind_of_ok hrun]
        cases found <;> rfl
      rw [bind_of_ok hround]
      exact ih _ (hlen ▸ hloop.length_lt hround) _ s' rfl

theorem declarations_reach_end (interactive : Bool) (n : Nat) (s : ParseState) :
    ∃ ss errors, declarations atEnd (declaration interactive n) s = .ok ss ⟨[], errors⟩ := by
  obtain ⟨ss, errors, hrun⟩ := steps_reach_end interactive n [] s
  refine ⟨ss.reverse, errors, ?_⟩
  unfold declarations
  rw [bind_of_ok hrun]
  rfl

/-- Parsing reads all tokens, whether it finds errors or not. -/
theorem run_parse (interactive : Bool) (tokens : List Token) :
    declarations atEnd (declaration interactive (nestingBound tokens.length)) ⟨tokens, #[]⟩ =
      .ok (parse interactive tokens).statements ⟨[], (parse interactive tokens).errors.toArray⟩ := by
  obtain ⟨ss, errors, hrun⟩ :=
    declarations_reach_end interactive (nestingBound tokens.length) ⟨tokens, #[]⟩
  unfold parse
  simp only [hrun]

/-- The bound on nesting is never reached: declarations are parsed alike with all bounds
    that are large enough for the tokens that are left. -/
theorem declaration_bound (interactive : Bool) {n m : Nat} (s : ParseState)
    (hn : nestingBound s.rest.length ≤ n) (hm : nestingBound s.rest.length ≤ m) :
    declarations atEnd (declaration interactive n) s =
      declarations atEnd (declaration interactive m) s := by
  unfold nestingBound at hn hm
  have hsuffices : Suffices (s.rest.length + 1) 0 n m := .inr ⟨by omega, by omega⟩
  have halike := (alike_nested interactive (fun _ => True) n m _).2.2 hsuffices
  exact (going_declarations seesEnd_atEnd halike s s.within_all (Nat.lt_succ_self _)).1.symm

/-- The loops of the parser: over the declarations of a program and of a block, over
    methods, arguments and parameters, and over the calls and operators of an expression. -/
structure LoopsProceed (interactive : Bool) (n : Nat) : Prop where
  program : Proceeds (nextDeclaration atEnd (declaration interactive n))
  blocks : Proceeds (nextDeclaration blockEnds (declaration interactive n))
  methods : Proceeds (nextMethod (declaration interactive n))
  arguments : Proceeds (nextArgument (expression interactive n))
  params : Proceeds nextParam
  calls : Proceeds (nextCall (expression interactive n))
  prefixes : Proceeds nextUnary
  operators : ∀ level, Proceeds (nextOperand level (operandOf (expression interactive n)
    (block (declaration interactive n)) level))

/-- The parser makes progress on every input, valid or not, as a script and as an entry.
    A declaration that is tried before the end of the tokens reads at least one, whether
    it is found or given up, and what it leaves is the end of what there was.  A round of
    a loop reads a token or is the last one, and every loop goes on until a round says
    that it is the last one, or fails.  Parsing a text ends at the end of its tokens, with
    the same statements and errors for all bounds on nesting that are large enough; so no
    bound is ever reached. -/
theorem parser_makes_progress (interactive : Bool) :
    (∀ n s, s.rest ≠ [] → ∃ found s' ts,
      declaration interactive n s = .ok found s' ∧ s.rest = ts ++ s'.rest ∧ ts ≠ []) ∧
    (∀ n, LoopsProceed interactive n) ∧
    ∀ tokens n, nestingBound tokens.length ≤ n →
      declarations atEnd (declaration interactive n) ⟨tokens, #[]⟩ =
        .ok (parse interactive tokens).statements
          ⟨[], (parse interactive tokens).errors.toArray⟩ := by
  refine ⟨declaration_reads interactive, fun n => ?_, fun tokens n hn => ?_⟩
  · exact {
      program := (orderly_nextDeclaration interactive n seesEnd_atEnd).proceeds
      blocks := (orderly_nextDeclaration interactive n seesEnd_blockEnds).proceeds
      methods := (orderly_nextMethod interactive n).proceeds
      arguments := (orderly_nextArgument interactive n).proceeds
      params := orderly_nextParam.proceeds
      calls := (orderly_nextCall interactive n).proceeds
      prefixes := orderly_nextUnary.proceeds
      operators := fun level => (orderly_nextOperand interactive n level).proceeds }
  · rw [← run_parse]
    exact declaration_bound interactive ⟨tokens, #[]⟩ hn (Nat.le_refl _)

end Treewalk
