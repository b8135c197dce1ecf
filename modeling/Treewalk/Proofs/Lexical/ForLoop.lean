import Treewalk.Proofs.Grammar.Soundness
import Treewalk.Proofs.Grammar.WellFormed
import Treewalk.Proofs.Lexical.Session

/-! # The `for` loop

    A `for` statement is parsed to a `while` loop between blocks.  Here it gets a
    meaning of its own (`forLoop`), in terms of what its clauses and its body do:
    the initial statement is executed once, and all rounds share the names that
    it declares.  The tree that the parser builds does the same, wherever it
    stands (`stmt_forLoop`), although its blocks open a scope more for the body
    and the step. -/

namespace Treewalk.Lexical

/-! ### The direct meaning -/

/-- The rounds of a loop.  The condition comes before each round and the step
    behind each body that ends normally.  A body that returns ends the loop. -/
def forRounds (place : Place) (condition : Run LValue) (step : Run LValue) (body : Run Ending) :
    Nat → Run Ending
  | 0 => abort place .endless
  | n + 1 => do
    if (← condition).truthy then
      match ← body with
      | .normal _ => do
        let _ ← step
        forRounds place condition step body n
      | .returned v => pure (.returned v)
    else pure (.normal place.names)

/-- The rounds of a loop at a place.  An absent condition is true, and an absent
    step does nothing.  All that the body declares is gone when it ends. -/
def roundsAt (rounds : Nat) (condition step : Option (Place → Run LValue))
    (body : Place → Run Ending) (place : Place) : Run Ending :=
  forRounds place (condition.elim (pure (.bool true)) (· place)) (step.elim (pure .nil) (· place))
    (body place) rounds

/-- A `for` loop whose clauses and body do the given things.  The initial statement
    stands in a scope of its own, which is around all rounds and ends with the loop. -/
def forLoop (rounds : Nat) (place : Place) (initial : Option (Place → Run Ending))
    (condition step : Option (Place → Run LValue)) (body : Place → Run Ending) : Run Ending :=
  match initial with
  | none => roundsAt rounds condition step body place
  | some exec => do
    match ← exec { place with inside := true } with
    | .normal names =>
      match ← roundsAt rounds condition step body { place with names, inside := true } with
      | .normal _ => pure (.normal place.names)
      | .returned v => pure (.returned v)
    | .returned v => pure (.returned v)

/-- What a `for` statement does, if evaluation may nest so deep inside it.  The clauses
    are counted as they stand in the tree: the rounds are one level below an initial
    statement, and a body with a step behind it is in a block. -/
def forStmt (rounds n : Nat) (place : Place) (initial : Option SourceStmt)
    (condition step : Option SourceExpr) (body : SourceStmt) : Run Ending :=
  let n' := if initial.isSome then n - 1 else n
  forLoop rounds place (initial.map fun s p => stmt rounds n p s)
    (condition.map fun e p => expr rounds n' p e)
    (step.map fun e p => expr rounds (n' - 2) p e)
    fun p => stmt rounds (if step.isSome then n' - 1 else n') p body

/-! ### Statements that declare nothing -/

section Plain

variable {eval : Place → SourceExpr → Run LValue} {exec : Place → SourceStmt → Run Ending}

/-- An expression is evaluated alike in and outside of blocks. -/
theorem exprStep_inside (heval : ∀ place b, eval { place with inside := b } = eval place)
    (place : Place) (b : Bool) :
    exprStep eval exec { place with inside := b } = exprStep eval exec place := by
  funext e
  cases e <;> simp only [exprStep, heval] <;> rfl

theorem whileLoop_inside (place : Place) (b : Bool) (condition : Run LValue) (body : Run Ending)
    (rounds : Nat) : whileLoop { place with inside := b } condition body rounds =
      whileLoop place condition body rounds := by
  induction rounds with
  | zero => rfl
  | succ n ih => simp only [whileLoop, ih]

/-- So is a statement that declares nothing executed. -/
theorem stmtStep_inside (heval : ∀ place b, eval { place with inside := b } = eval place)
    (hexec : ∀ place b s, s.IsPlain → exec { place with inside := b } s = exec place s)
    (rounds : Nat) (place : Place) (b : Bool) {s : SourceStmt} (hplain : s.IsPlain) :
    stmtStep eval exec rounds { place with inside := b } s = stmtStep eval exec rounds place s := by
  cases s with
  | expression e | print e => simp only [stmtStep, heval]
  | block body => rfl
  | branch c onTrue onFalse =>
    cases onFalse with
    | none => simp only [stmtStep, heval, hexec place b onTrue hplain]
    | some onFalse =>
      obtain ⟨hfalse, htrue⟩ := List.append_eq_nil_iff.mp hplain
      simp only [stmtStep, heval, hexec place b onTrue htrue, hexec place b onFalse hfalse]
  | loop c body => simp only [stmtStep, heval, hexec place b body hplain, whileLoop_inside]
  | ret line value => cases value <;> simp only [stmtStep, optional, heval]
  | var name initial => cases hplain
  | function decl => cases hplain
  | classDecl name superclass methods => cases hplain

/-- How deep evaluation may nest makes no difference to this. -/
theorem walks_inside (rounds n : Nat) :
    (∀ place b, expr rounds n { place with inside := b } = expr rounds n place) ∧
      ∀ place b s, s.IsPlain → stmt rounds n { place with inside := b } s = stmt rounds n place s := by
  induction n with
  | zero => exact ⟨fun _ _ => rfl, fun _ _ _ _ => rfl⟩
  | succ n ih =>
    obtain ⟨heval, hexec⟩ := ih
    exact ⟨exprStep_inside heval, fun place b s => stmtStep_inside heval hexec rounds place b⟩

/-- If the computation ends normally, the next statement sees the given names. -/
def Leaves (names : Names) (x : Run Ending) : Prop :=
  ∀ r names' r', x r = .ok (.normal names') r' → names' = names

theorem Leaves.pure_normal (names : Names) : Leaves names (pure (.normal names)) := by
  rintro r names' r' ⟨⟩
  rfl

theorem Leaves.bind {α : Type} {names : Names} {x : Run α} {f : α → Run Ending}
    (hf : ∀ a, Leaves names (f a)) : Leaves names (x >>= f) := by
  intro r names' r' h
  obtain ⟨a, r₁, -, hrest⟩ := ok_of_bind_ok h
  exact hf a _ _ _ hrest

theorem Leaves.returned (names : Names) (v : LValue) : Leaves names (pure (.returned v)) := nofun

theorem whileLoop_leaves (place : Place) (condition : Run LValue) (body : Run Ending)
    (rounds : Nat) : Leaves place.names (whileLoop place condition body rounds) := by
  induction rounds with
  | zero => nofun
  | succ n ih =>
    refine .bind fun v => ?_
    split
    · refine .bind fun ending => ?_
      cases ending with
      | normal _ => exact ih
      | returned v => exact .returned _ v
    · exact .pure_normal _

/-- A statement that declares nothing leaves the names as they are. -/
theorem stmtStep_leaves (hexec : ∀ place s, s.IsPlain → Leaves place.names (exec place s))
    (rounds : Nat) (place : Place) {s : SourceStmt} (hplain : s.IsPlain) :
    Leaves place.names (stmtStep eval exec rounds place s) := by
  cases s with
  | expression e => exact .bind fun _ => .pure_normal _
  | print e => exact .bind fun _ => .bind fun _ => .pure_normal _
  | block body =>
    refine .bind fun ending => ?_
    cases ending with
    | normal _ => exact .pure_normal _
    | returned v => exact .returned _ v
  | branch c onTrue onFalse =>
    refine .bind fun v => ?_
    cases onFalse with
    | none =>
      split
      · exact hexec _ _ hplain
      · exact .pure_normal _
    | some onFalse =>
      obtain ⟨hfalse, htrue⟩ := List.append_eq_nil_iff.mp hplain
      split
      · exact hexec _ _ htrue
      · exact hexec _ _ hfalse
  | loop c body => exact whileLoop_leaves place _ _ rounds
  | ret line value => exact .bind fun v => .returned _ v
  | var name initial => cases hplain
  | function decl => cases hplain
  | classDecl name superclass methods => cases hplain

theorem stmt_leaves (rounds n : Nat) (place : Place) {s : SourceStmt} (hplain : s.IsPlain) :
    Leaves place.names (stmt rounds n place s) := by
  induction n generalizing place s with
  | zero => nofun
  | succ n ih => exact stmtStep_leaves (fun place s hplain => ih place hplain) rounds place hplain

end Plain

/-! ### The tree of a loop -/

/-- A body with the step behind it, both in a block, is the body and then the step. -/
theorem block_round (rounds n : Nat) (place : Place) {body : SourceStmt} (e : SourceExpr)
    (hplain : body.IsPlain) (next : Run Ending) :
    (do
      match ← stmt rounds n place (.block [body, .expression e]) with
      | .normal _ => next
      | .returned v => pure (.returned v)) =
    (do
      match ← stmt rounds (n - 1) place body with
      | .normal _ => do
        let _ ← expr rounds (n - 2) place e
        next
      | .returned v => pure (.returned v)) := by
  cases n with
  | zero => rfl
  | succ n =>
    have hinside : stmt rounds n { place with inside := true } body = stmt rounds n place body :=
      (walks_inside rounds n).2 place true body hplain
    simp only [stmt, stmtStep, sequence, hinside, bind_assoc, Nat.add_sub_cancel]
    funext r
    cases hbody : stmt rounds n place body r with
    | error cut r₁ => rw [bind_of_error hbody, bind_of_error hbody]
    | ok ending r₁ =>
      rw [bind_of_ok hbody, bind_of_ok hbody]
      cases ending with
      | returned v => rfl
      | normal names =>
        obtain rfl := stmt_leaves rounds n place hplain _ _ _ hbody
        cases n with
        | zero => cases hbody
        | succ n =>
          have hstep : expr rounds n { place with inside := true } e = expr rounds n place e :=
            congrFun ((walks_inside rounds n).1 place true) e
          simp only [stmt, stmtStep, hstep, bind_assoc, pure_bind]
          rfl

/-- One round of the tree, whatever follows: the body and then the step, if there is one. -/
theorem tree_round (rounds n : Nat) (place : Place) (step : Option SourceExpr) {body : SourceStmt}
    (hplain : body.IsPlain) (next : Run Ending) :
    (do
      match ← stmt rounds n place (step.elim body fun e => .block [body, .expression e]) with
      | .normal _ => next
      | .returned v => pure (.returned v)) =
    (do
      match ← stmt rounds (if step.isSome then n - 1 else n) place body with
      | .normal _ => do
        let _ ← (step.map fun e p => expr rounds (n - 2) p e).elim (pure .nil) (· place)
        next
      | .returned v => pure (.returned v)) := by
  cases step with
  | none => rfl
  | some e => exact block_round rounds n place e hplain next

/-- The loop around the rounds, if each round is the same on both sides. -/
theorem whileLoop_eq_forRounds {place : Place} {c c' step : Run LValue} {body body' : Run Ending}
    (h : ∀ next : Run Ending,
      (do
        if (← c').truthy then
          match ← body' with
          | .normal _ => next
          | .returned v => pure (.returned v)
        else pure (.normal place.names)) =
      (do
        if (← c).truthy then
          match ← body with
          | .normal _ => do
            let _ ← step
            next
          | .returned v => pure (.returned v)
        else pure (.normal place.names))) (rounds : Nat) :
    whileLoop place c' body' rounds = forRounds place c step body rounds := by
  induction rounds with
  | zero => rfl
  | succ n ih =>
    rw [whileLoop, forRounds, ← ih]
    exact h _

/-- The tree of a loop without an initial statement. -/
theorem stmt_rounds (rounds n : Nat) (place : Place) (condition step : Option SourceExpr)
    {body : SourceStmt} (hplain : body.IsPlain) :
    stmt rounds (n + 1) place (.forLoop none condition step body) =
      forStmt rounds n place none condition step body := by
  have htree : Stmt.forLoop none condition step body =
      .loop (condition.getD (.literal (.bool true)))
        (step.elim body fun e => .block [body, .expression e]) := by
    cases step <;> rfl
  rw [htree]
  refine whileLoop_eq_forRounds (fun next => ?_) rounds
  simp only [tree_round rounds n place step hplain]
  cases condition with
  | some c => rfl
  | none =>
    cases n with
    -- the body nests too deep, as the literal does that stands for the condition
    | zero => cases step <;> rfl
    | succ n => rfl

/-- The tree that a `for` statement is parsed to does what the statement means,
    wherever it stands and however deep evaluation may nest. -/
theorem stmt_forLoop (rounds n : Nat) (place : Place) (initial : Option SourceStmt)
    (condition step : Option SourceExpr) {body : SourceStmt} (hplain : body.IsPlain) :
    stmt rounds (n + 1) place (.forLoop initial condition step body) =
      forStmt rounds n place initial condition step body := by
  cases initial with
  | none => exact stmt_rounds rounds n place condition step hplain
  | some s =>
    have htree : Stmt.forLoop (some s) condition step body =
        .block [s, .forLoop none condition step body] := rfl
    rw [htree]
    simp only [stmt, stmtStep, sequence, bind_assoc]
    unfold forStmt forLoop
    simp only [Option.isSome_some, if_true, Option.map_some]
    funext r
    cases hinitial : stmt rounds n { place with inside := true } s r with
    | error cut r₁ => rw [bind_of_error hinitial, bind_of_error hinitial]
    | ok ending r₁ =>
      rw [bind_of_ok hinitial, bind_of_ok hinitial]
      cases ending with
      | returned v => rfl
      | normal names =>
        cases n with
        | zero => cases hinitial
        | succ n =>
          -- the names of the loop are dropped with the block around it
          simp only [stmt_rounds rounds n _ condition step hplain, bind_assoc]
          unfold forStmt forLoop
          refine congrFun (congrArg (_ >>= ·) (funext fun ending => ?_)) r₁
          cases ending <;> rfl

end Treewalk.Lexical

namespace Treewalk

open Lexical

/-! ### Resolution of the tree -/

/-- The scopes around the rounds of a loop: an initial statement has one of its own. -/
def loopScopes (S : ScopeNames) (initial : Option SourceStmt) : ScopeNames :=
  initial.elim S fun s => declaring s.declares ([] :: S)

/-- The parts of a loop are accepted and annotated where they stand.  The condition sees
    the scopes around the rounds; the step is one scope further inside, which has no names. -/
structure LoopAccepted (P : Enclosing) (S : ScopeNames) (initial : Option SourceStmt)
    (condition step : Option SourceExpr) (body : SourceStmt) (initial' : Option ResolvedStmt)
    (condition' step' : Option ResolvedExpr) (body' : ResolvedStmt) : Prop where
  hinitial : Option.Rel (AcceptedStmt P ([] :: S)) initial initial'
  hcondition : Option.Rel (AcceptedExpr P (loopScopes S initial)) condition condition'
  hstep : Option.Rel (AcceptedExpr P ([] :: loopScopes S initial)) step step'
  hbody : AcceptedStmt P
    (if step.isSome then [] :: loopScopes S initial else loopScopes S initial) body body'

section Tree

variable {P : Enclosing} {S : ScopeNames} {initial : Option SourceStmt}
  {condition step : Option SourceExpr} {body : SourceStmt}

theorem isPlain_forLoop (hplain : body.IsPlain) :
    (Stmt.forLoop initial condition step body).IsPlain := by
  cases initial with
  | some s => rfl
  | none =>
    cases step with
    | some e => rfl
    | none => exact hplain

theorem accepted_condition {c' : ResolvedExpr}
    (h : AcceptedExpr P S (condition.getD (.literal (.bool true))) c') :
    ∃ condition', c' = condition'.getD (.literal (.bool true)) ∧
      Option.Rel (AcceptedExpr P S) condition condition' := by
  cases condition with
  | some c => exact ⟨some c', rfl, .some h⟩
  | none =>
    cases h
    exact ⟨none, rfl, .none⟩

/-- The tree of a loop without an initial statement. -/
theorem accepted_rounds {s' : ResolvedStmt} (hplain : body.IsPlain)
    (h : AcceptedStmt P S (.forLoop none condition step body) s') :
    ∃ condition' step' body', s' = .forLoop none condition' step' body' ∧
      LoopAccepted P S none condition step body none condition' step' body' := by
  cases step with
  | none =>
    have hloop : AcceptedStmt P S (.loop (condition.getD (.literal (.bool true))) body) s' := h
    cases hloop with
    | loop hc hbody _ =>
      obtain ⟨condition', rfl, hcondition⟩ := accepted_condition hc
      exact ⟨condition', none, _, rfl, .none, hcondition, .none, hbody⟩
  | some e =>
    have hloop : AcceptedStmt P S
        (.loop (condition.getD (.literal (.bool true))) (.block [body, .expression e])) s' := h
    cases hloop with
    | loop hc hround _ =>
      obtain ⟨condition', rfl, hcondition⟩ := accepted_condition hc
      cases hround with
      | block hround =>
        cases hround with
        | cons hbody hrest =>
          -- the body declares nothing, so the step sees what the body sees
          rw [hplain, declaring_nil] at hrest
          cases hrest with
          | cons hstep hnil =>
            cases hnil
            cases hstep with
            | expression he =>
              exact ⟨condition', some _, _, rfl, .none, hcondition, .some he, hbody⟩

theorem accepted_forLoop {s' : ResolvedStmt} (hplain : body.IsPlain)
    (h : AcceptedStmt P S (.forLoop initial condition step body) s') :
    ∃ initial' condition' step' body', s' = .forLoop initial' condition' step' body' ∧
      LoopAccepted P S initial condition step body initial' condition' step' body' := by
  cases initial with
  | none =>
    obtain ⟨condition', step', body', htree, haccepted⟩ := accepted_rounds hplain h
    exact ⟨none, condition', step', body', htree, haccepted⟩
  | some s =>
    have hblock : AcceptedStmt P S (.block [s, .forLoop none condition step body]) s' := h
    cases hblock with
    | block hbody =>
      cases hbody with
      | cons hs hrest =>
        cases hrest with
        | cons hloop hnil =>
          cases hnil
          obtain ⟨condition', step', body', rfl, haccepted⟩ := accepted_rounds hplain hloop
          exact ⟨some _, condition', step', body', rfl, .some hs, haccepted.hcondition,
            haccepted.hstep, haccepted.hbody⟩

end Tree

/-! ### Loops of a text -/

/-- A statement of the grammar that is no declaration declares nothing. -/
theorem Derives.isPlain {nearest bare : Bool} {c : Category} {ts : List Token} {t : c.Tree}
    (h : Derives nearest bare c ts t) :
    match c, t with
    | .exprStmt, s | .statement _, s => s.IsPlain
    | _, _ => True := by
  induction h with
  | exprStmt | bareStmt | print | ret | nested => rfl
  | evaluate _ ih => exact ih
  | loop _ _ _ ih => exact ih
  | ifOnly _ _ _ ih => exact ih
  | ifElse _ _ _ _ _ iha ihb => exact List.append_eq_nil_iff.mpr ⟨ihb, iha⟩
  | forLoop _ _ _ _ _ _ _ ih => exact isPlain_forLoop ih
  | _ => trivial

/-- What stands behind the keyword of a `for` statement: its clauses and its body. -/
inductive ForClauses (bare : Bool) : List Token → Option SourceStmt → Option SourceExpr →
    Option SourceExpr → SourceStmt → Prop
  | mk {d l₁ l₂ l₃ ts us vs ws initial condition step body} :
      Derives false bare .forInitial ts initial → Derives false bare .optional us condition →
      Derives false bare .optional vs step → Derives false bare (.statement d) ws body →
      ForClauses bare
        (sym .leftParen l₁ ::
          (ts ++ (us ++ sym .semicolon l₂ :: (vs ++ sym .rightParen l₃ :: ws))))
        initial condition step body

theorem ForClauses.isPlain {bare : Bool} {ts : List Token} {initial : Option SourceStmt}
    {condition step : Option SourceExpr} {body : SourceStmt}
    (h : ForClauses bare ts initial condition step body) : body.IsPlain := by
  cases h with
  | mk _ _ _ hbody => exact hbody.isPlain

/-- Unless it records an error, the parser reads the clauses and the body of a loop. -/
theorem reads_forClauses (bare : Bool) (bound : Nat) :
    Reads (Parser.forStatement bare (Parser.expression bare bound) (Parser.statement bare bound))
      fun ts tree => ∃ initial condition step body,
        ForClauses bare ts initial condition step body ∧
          tree = .forLoop initial condition step body := by
  obtain ⟨he, hs, -⟩ := reads_nested bare bound
  unfold Parser.forStatement
  refine .after_expect fun l₁ => (reads_forInitial he).bind fun initial => ?_
  refine (reads_unlessNext _ he).bind fun condition => .after_expect fun l₂ => ?_
  refine (reads_unlessNext _ he).bind fun step => .after_expect fun l₃ => ?_
  refine hs.bind fun body => .pure ?_
  rintro ws ⟨d, hws⟩ vs hvs us hus ts hts
  rw [List.append_nil]
  exact ⟨initial, condition, step, body, .mk hts hus hvs hws, rfl⟩

/-! ### Main result -/

/-- Both end with related completions in states that agree, or both with the same abort in
    states that agree. -/
inductive ExecutedAlike (W : World) (P : Enclosing) (S : ScopeNames) (ctx : Context) (place : Place) :
    EStateM.Result Abort Machine Completion → EStateM.Result Abort State Ending → Prop
  | ok {completion ending m h r W'} : W.Below W' → Agrees W' m h r →
      EndsAlike P S ctx place W' completion ending →
      ExecutedAlike W P S ctx place (.ok completion m) (.ok ending r)
  | error {cut m h r W'} : Agrees W' m h r → ExecutedAlike W P S ctx place (.error cut m) (.error cut r)

/-- `for` statements mean what they say.  Of each one that is read without errors, with
    whatever clauses, the tree is executed like the loop itself, at every place and however
    deep evaluation may nest.  Where it is accepted by resolution, its clauses and its body
    are accepted in their own scopes, and the machine that runs the resolved tree does the
    same as the loop: it prints the same, ends in the same way or in the same error, and
    leaves a state that agrees. -/
theorem for_statement_runs_directly {bare : Bool} {bound : Nat} {p p' : ParseState}
    {tree : SourceStmt}
    (hread : Parser.forStatement bare (Parser.expression bare bound) (Parser.statement bare bound) p =
      .ok tree p')
    (hclean : p'.errors.size = p.errors.size) :
    ∃ ts initial condition step body, p.rest = ts ++ p'.rest ∧
      ForClauses bare ts initial condition step body ∧
      tree = .forLoop initial condition step body ∧
      (∀ rounds n place,
        stmt rounds (n + 1) place tree = forStmt rounds n place initial condition step body) ∧
      ∀ P S s', AcceptedStmt P S tree s' →
        (∃ initial' condition' step' body', s' = .forLoop initial' condition' step' body' ∧
          LoopAccepted P S initial condition step body initial' condition' step' body') ∧
        ∀ rounds n W ctx place, CtxRel W P S ctx place → OwnNames W S ctx.env →
          ∀ m h r, Agrees W m h r →
            ExecutedAlike W P S ctx place (Eval.stmt rounds (n + 1) ctx s' m)
              (forStmt rounds n place initial condition step body r) := by
  obtain ⟨ts, hts, initial, condition, step, body, hclauses, rfl⟩ :=
    (reads_forClauses bare bound).phrase hread hclean
  have hplain := hclauses.isPlain
  have hdirect (rounds n : Nat) (place : Place) :=
    stmt_forLoop rounds n place initial condition step hplain
  refine ⟨ts, initial, condition, step, body, hts, hclauses, rfl, hdirect, ?_⟩
  intro P S s' haccepted
  refine ⟨accepted_forLoop hplain haccepted, ?_⟩
  intro rounds n W ctx place hctx hown m h r hagrees
  have hforgets := (erases_walk rounds (n + 1)).2 ctx s' m h
  have hexec : ExecutesAlike (Watched.steps.stmt rounds (n + 1)) (stmt rounds (n + 1)) :=
    (walks_alike rounds (n + 1)).2
  have hsimulates := hexec.plain hctx hown haccepted (isPlain_forLoop hplain) m h r hagrees
  rw [hdirect] at hsimulates
  rw [← hforgets]
  generalize Watched.steps.stmt rounds (n + 1) ctx s' (m, h) = out at hsimulates
  generalize forStmt rounds n place initial condition step body r = out' at hsimulates ⊢
  cases hsimulates with
  | ok hW hagrees' hends => exact .ok hW.toBelow hagrees' hends
  | error hagrees' _ => exact .error hagrees'

/-- The loop `for (var go = true; go; go = false) print go;` at top level runs one round.  The
    step has a scope more around it than the condition. -/
theorem for_statement_with_all_clauses :
    ∃ m, Eval.stmt 5 10 ⟨globalEnv, []⟩
        (.forLoop (some (.var ⟨"go", 1⟩ (some (.literal (.bool true)))))
          (some (.variable ⟨"go", 1⟩ (some 0)))
          (some (.assign ⟨"go", 1⟩ (some 1) (.literal (.bool false))))
          (.print (.variable ⟨"go", 1⟩ (some 1)))) (.initial fun _ => 0) = .ok .normal m ∧
      m.printed = #["true"] := by
  have hread : Parser.forStatement false (Parser.expression false 9) (Parser.statement false 9)
      ⟨[sym .leftParen 1, word .varWord 1, ident ⟨"go", 1⟩, sym .equal 1, word .trueWord 1,
        sym .semicolon 1, ident ⟨"go", 1⟩, sym .semicolon 1, ident ⟨"go", 1⟩, sym .equal 1,
        word .falseWord 1, sym .rightParen 1, word .printWord 1, ident ⟨"go", 1⟩,
        sym .semicolon 1], #[]⟩ =
      .ok (.forLoop (some (.var ⟨"go", 1⟩ (some (.literal (.bool true)))))
        (some (.variable ⟨"go", 1⟩ ())) (some (.assign ⟨"go", 1⟩ () (.literal (.bool false))))
        (.print (.variable ⟨"go", 1⟩ ()))) ⟨[], #[]⟩ := rfl
  have hname : Unreserved "go" := rfl
  have hnear : IsDistance [["go"]] "go" (some 0) := isDistance_cons_zero.mpr (by decide)
  have hfar : IsDistance [[], ["go"]] "go" (some 1) := isDistance_cons_succ.mpr ⟨nofun, hnear⟩
  have haccepted : AcceptedStmt .topLevel []
      (.forLoop (some (.var ⟨"go", 1⟩ (some (.literal (.bool true)))))
        (some (.variable ⟨"go", 1⟩ ())) (some (.assign ⟨"go", 1⟩ () (.literal (.bool false))))
        (.print (.variable ⟨"go", 1⟩ ())))
      (.forLoop (some (.var ⟨"go", 1⟩ (some (.literal (.bool true)))))
        (some (.variable ⟨"go", 1⟩ (some 0)))
        (some (.assign ⟨"go", 1⟩ (some 1) (.literal (.bool false))))
        (.print (.variable ⟨"go", 1⟩ (some 1)))) := by
    refine .block (.cons (.varInit ⟨hname, nofun⟩ .literal) (.cons (.loop ?_ ?_ rfl) .nil))
    · exact .variable hnear
    · exact .block (.cons (.print (.variable hfar))
        (.cons (.expression (.assign hname .literal hfar)) .nil))
  obtain ⟨_, _, _, _, _, -, -, -, hdirect, hruns⟩ := for_statement_runs_directly hread rfl
  have halike := (hruns _ _ _ haccepted).2 5 9 .initial ⟨globalEnv, []⟩ (topLevel [])
    ⟨.global, rfl, rfl, .topLevel⟩ nofun _ [] _ (agrees_initial fun _ => 0)
  rw [← hdirect] at halike
  -- the loop itself is run by computation
  obtain ⟨r, hrun, hprinted⟩ : ∃ r, stmt 5 10 (topLevel [])
      (.forLoop (some (.var ⟨"go", 1⟩ (some (.literal (.bool true)))))
        (some (.variable ⟨"go", 1⟩ ())) (some (.assign ⟨"go", 1⟩ () (.literal (.bool false))))
        (.print (.variable ⟨"go", 1⟩ ()))) (.initial fun _ => 0) = .ok (.normal []) r ∧
      r.printed = #["true"] := ⟨_, rfl, rfl⟩
  rw [hrun] at halike
  cases halike with
  | ok hW hagrees hends =>
    cases hends
    exact ⟨_, rfl, hagrees.printed.trans hprinted⟩

end Treewalk
