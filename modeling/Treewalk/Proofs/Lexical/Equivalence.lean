import Treewalk.Proofs.Lexical.Declarations

/-! # Equivalence

    Evaluation by scope distances is lexical evaluation: an accepted program, run
    by the machine, and the same program before resolution, run by the lexical
    evaluator, do the same (`simulates_program`).  The proof is by induction on
    how deeply evaluation may nest, with one lemma for each way in which the two
    evaluators take a phrase apart. -/

namespace Treewalk

open Lexical

/-- Accepted expressions are evaluated alike. -/
def EvaluatesAlike (eval : Context → ResolvedExpr → Watched Value)
    (eval' : Place → SourceExpr → Run LValue) : Prop :=
  ∀ {W P S ctx place e e'}, CtxRel W P S ctx place → AcceptedExpr P S e e' →
    Simulates Nowhere W (eval ctx e') (eval' place e) ValueRel

/-- Accepted statements are executed alike, in a scope that has no names but
    those declared so far. -/
def ExecutesAlike (exec : Context → ResolvedStmt → Watched Completion)
    (exec' : Place → SourceStmt → Run Ending) : Prop :=
  ∀ {W P S ctx place s s'}, CtxRel W P S ctx place → OwnNames W S ctx.env →
    AcceptedStmt P S s s' →
    Simulates (Declaring ctx.env s.declares) W (exec ctx s') (exec' place s)
      (EndsAlike P (declaring s.declares S) ctx place)

/-- Two ways to end in which related values are returned, if any. -/
inductive ReturnsAlike (W : World) : Completion → Ending → Prop
  | normal {names} : ReturnsAlike W .normal (.normal names)
  | returned {v v'} : ValueRel W v v' → ReturnsAlike W (.returned v) (.returned v')

theorem ReturnsAlike.value {W : World} {completion : Completion} {ending : Ending}
    (h : ReturnsAlike W completion ending) : ValueRel W completion.value ending.value := by
  cases h with
  | normal => exact .nil
  | returned hv => exact hv

section Walk

variable {eval : Context → ResolvedExpr → Watched Value} {eval' : Place → SourceExpr → Run LValue}
  {exec : Context → ResolvedStmt → Watched Completion} {exec' : Place → SourceStmt → Run Ending}
  {W : World} {P : Enclosing} {S : ScopeNames} {ctx : Context} {place : Place} {rounds : Nat}

/-! ### Sequences and loops -/

theorem simulates_inOrder {es : List SourceExpr} {es' : List ResolvedExpr}
    (heval : EvaluatesAlike eval eval') (hctx : CtxRel W P S ctx place)
    (hes : AcceptedExprs P S es es') :
    Simulates Nowhere W (Eval.inOrder (eval ctx) es') (Lexical.inOrder (eval' place) es)
      ValuesRel := by
  induction es generalizing W es' with
  | nil =>
    cases hes
    exact .pure .nil
  | cons e es ih =>
    cases hes with
    | cons he hes =>
      refine (heval hctx he).seq fun hW hv => ?_
      refine (ih (hctx.mono hW) hes).seq fun hW' hvs => .pure ?_
      exact .cons (hv.mono hW') hvs

theorem simulates_sequence {ss : List SourceStmt} {ss' : List ResolvedStmt}
    (hexec : ExecutesAlike exec exec') (hctx : CtxRel W P S ctx place)
    (hown : OwnNames W S ctx.env) (hss : AcceptedStmts P S ss ss') :
    Simulates (Innermost ctx.env) W (Eval.sequence (exec ctx) ss')
      (Lexical.sequence exec' place ss) ReturnsAlike := by
  induction ss generalizing W S place ss' with
  | nil =>
    cases hss
    exact .pure .normal
  | cons s ss ih =>
    cases hss with
    | cons hs hss =>
      -- what the statement declares goes to this scope, which then has those names
      -- in addition and still no others
      have hstmt : Simulates (Innermost ctx.env) W (exec ctx _) (exec' place s)
          fun W' completion ending => OwnNames W' (declaring s.declares S) ctx.env ∧
            EndsAlike P (declaring s.declares S) ctx place W' completion ending :=
        (hexec hctx hown hs).mono (fun _ _ _ h => h.1) fun hW hends =>
          ⟨hown.grow s.declares hctx.sees hW fun _ _ h => h.2, hends⟩
      refine hstmt.bind (fun _ _ _ h => h) fun {W' completion ending} _ hpost => ?_
      obtain ⟨hown', hends⟩ := hpost
      cases hends with
      | normal hctx' => exact ih hctx' hown' hss
      | returned hv => exact .pure (.returned hv)

/-- A statement that declares nothing. -/
theorem ExecutesAlike.plain {s : SourceStmt} {s' : ResolvedStmt} (hexec : ExecutesAlike exec exec')
    (hctx : CtxRel W P S ctx place) (hown : OwnNames W S ctx.env) (hs : AcceptedStmt P S s s')
    (hplain : s.IsPlain) :
    Simulates Nowhere W (exec ctx s') (exec' place s) (EndsAlike P S ctx place) := by
  have hstmt := hexec hctx hown hs
  rw [hplain, declaring_nil] at hstmt
  exact hstmt.mono (fun _ _ _ h => nomatch h.2) fun _ hends => hends

theorem simulates_whileLoop {c : SourceExpr} {c' : ResolvedExpr} {body : SourceStmt}
    {body' : ResolvedStmt} (heval : EvaluatesAlike eval eval') (hexec : ExecutesAlike exec exec')
    (hctx : CtxRel W P S ctx place) (hown : OwnNames W S ctx.env) (hc : AcceptedExpr P S c c')
    (hbody : AcceptedStmt P S body body') (hplain : body.IsPlain) (rounds : Nat) :
    Simulates Nowhere W
      (Eval.whileLoop (Watched.lift (Eval.abort ctx .endless)) (eval ctx c') (exec ctx body') rounds)
      (Lexical.whileLoop place (eval' place c) (exec' place body) rounds)
      (EndsAlike P S ctx place) := by
  induction rounds generalizing W with
  -- both evaluators give up after the same number of rounds
  | zero => exact .abort hctx.frames fun _ => trivial
  | succ n ih =>
    refine (heval hctx hc).first fun {W₁ v v'} hW₁ hv => ?_
    -- the body declares nothing, so each round starts with the same names
    have hctx₁ := hctx.mono hW₁.toBelow
    have hown₁ := hown.keep hctx.sees hW₁
    rw [hv.truthy]
    by_cases htrue : v'.truthy = true
    · rw [if_pos htrue, if_pos htrue]
      refine (hexec.plain hctx₁ hown₁ hbody hplain).first fun {W₂ completion ending} hW₂ hends => ?_
      cases hends with
      | normal _ => exact ih (hctx₁.mono hW₂.toBelow) (hown₁.keep hctx₁.sees hW₂)
      | returned hv => exact .pure (.returned hv)
    · rw [if_neg htrue, if_neg htrue]
      exact .pure (.normal hctx₁)

/-! ### Calls -/

theorem simulates_runClosure {c : Closure} {c' : LClosure} {args : List Value}
    {args' : List LValue} {frames : List Frame} (hexec : ExecutesAlike exec exec')
    (hc : ClosureRel W c c') (hargs : ValuesRel W args args')
    (harity : args.length = c.params.length) :
    Simulates Nowhere W (Watched.steps.runClosure exec frames c args)
      (Lexical.runClosure exec' frames c' args') ValueRel := by
  obtain ⟨P, S, hcode, hsees⟩ := hc
  refine .after_note (fun _ _ _ _ => harity) nofun ?_
  unfold Lexical.runClosure
  rw [← hcode.params, ← hcode.isInitializer]
  -- the scope of the call has the parameters and, inside the body, what it declares
  refine simulates_openScope hsees fun {W₁ scope} hW₁ hscope hsees₁ hown₁ => ?_
  have hparams := simulates_bindParams hsees₁ hown₁ hcode.unreserved hcode.distinct nofun harity
    (hargs.imp fun _ _ hv => hv.mono hW₁)
  refine hparams.bind (fun _ _ _ h => h) fun {W₂ _ names} hW₂ hpost => ?_
  obtain ⟨inner, hinner, hsees₂, hown₂⟩ := hpost
  have hsame (x : String) : x ∈ c.params ↔ x ∈ inner := by simp [hinner]
  have hctx₂ : CtxRel W₂ P (c.params :: S) ⟨scope :: c.env, frames⟩ ⟨names, true, frames⟩ :=
    ⟨hsees₂.congr hsame, rfl, rfl, hcode.receives.push hcode.unreserved⟩
  refine (simulates_sequence hexec hctx₂ (hown₂.congr hsame) hcode.body).bind
    (fun _ _ _ h => h) fun {W₃ completion ending} hW₃ hends => ?_
  cases hinit : c.isInitializer with
  | false => exact .pure hends.value
  | true =>
    -- an initializer yields its receiver, whatever its body returns
    obtain ⟨S', rfl⟩ := hcode.receiver hinit
    have hctx₃ : CtxRel W₃ P ([Keyword.thisWord.text] :: S') ⟨c.env, frames⟩
        ⟨c'.env, true, frames⟩ :=
      ⟨hsees.mono (hW₁.trans (hW₂.toBelow.trans hW₃.toBelow)), rfl, rfl, hcode.receives⟩
    exact simulates_receiver _ hctx₃

theorem simulates_instantiate (cls : Nat) {d : Class} {d' : LClass} {args : List Value} {args' : List LValue}
    {frames : List Frame} (hexec : ExecutesAlike exec exec') (hd : ClassRel W d d')
    (hargs : ValuesRel W args args') (harity : args.length = d.arity) :
    Simulates Nowhere W (Watched.steps.instantiate exec frames cls d args)
      (Lexical.instantiate exec' frames d' args') ValueRel := by
  refine simulates_newObject.seq fun {W₁ id _} hW₁ hid => ?_
  subst hid
  have hd₁ := hd.mono hW₁
  have hrel := hd₁.findMethod? initializerName
  -- the arity of a class is that of its initializer, or zero
  unfold Class.arity at harity
  unfold Class.initializer? at harity ⊢
  generalize d.findMethod? initializerName = found at hrel harity ⊢
  generalize d'.findMethod? initializerName = found' at hrel ⊢
  cases hrel with
  | none => exact .pure (.object hd₁)
  | @some method method' hm =>
    refine (simulates_bindMethod hm (.object hd₁)).seq fun {W₂ bound bound'} hW₂ hbound => ?_
    obtain ⟨hclosure, hparams⟩ := hbound
    have hargs₂ := hargs.imp fun _ _ hv => hv.mono (hW₁.trans hW₂)
    have harity₂ : args.length = bound.params.length := by
      rw [hparams]
      exact harity
    refine (simulates_runClosure hexec hclosure hargs₂ harity₂).seq fun hW₃ _ => .pure ?_
    exact .object (hd₁.mono (hW₂.trans hW₃))

theorem simulates_apply {v : Value} {v' : LValue} {args : List Value} {args' : List LValue}
    {line : Int} (hexec : ExecutesAlike exec exec') (hframes : place.frames = ctx.frames)
    (hv : ValueRel W v v') (hargs : ValuesRel W args args') :
    Simulates Nowhere W (Watched.steps.apply exec ctx line v args)
      (Lexical.apply exec' place line v' args') ValueRel := by
  unfold Steps.apply Lexical.apply
  rw [← hv.signature?, hframes, ← hargs.length_eq]
  cases hsignature : v.signature? with
  | none => exact .fail _ _ hframes
  | some signature =>
    obtain ⟨name, arity⟩ := signature
    -- the arguments are counted before anything is bound
    by_cases hlength : args.length = arity
    · simp only [if_pos hlength]
      cases hv with
      | @native id f =>
        cases f
        show Simulates Nowhere W (Value.number <$> Watched.lift Eval.readClock)
          (Value.number <$> Lexical.readClock) ValueRel
        rw [← bind_pure_comp, ← bind_pure_comp]
        refine simulates_readClock.seq fun _ heq => .pure ?_
        rw [heq]
        exact .number
      | function hc =>
        obtain ⟨-, harity⟩ := Prod.mk.inj (Option.some.inj hsignature)
        exact simulates_runClosure hexec hc hargs (hlength.trans harity.symm)
      | @cls id _ _ hd =>
        obtain ⟨-, harity⟩ := Prod.mk.inj (Option.some.inj hsignature)
        exact simulates_instantiate id hexec hd hargs (hlength.trans harity.symm)
      -- other values have no signature
      | _ => cases hsignature
    · simp only [if_neg hlength]
      exact .fail _ _ hframes

/-! ### The walk -/

theorem ValueRel.ofLiteral (value : Literal) : ValueRel W value.value value.value := by
  cases value with
  | nil => exact .nil
  | bool => exact .bool
  | number => exact .number
  | string => exact .string

theorem simulates_exprStep {e : SourceExpr} {e' : ResolvedExpr} (heval : EvaluatesAlike eval eval')
    (hexec : ExecutesAlike exec exec') (hctx : CtxRel W P S ctx place) (he : AcceptedExpr P S e e') :
    Simulates Nowhere W
      (do
        Watched.note (.evaluates ctx e')
        Watched.steps.exprStep eval exec ctx e')
      (Lexical.exprStep eval' exec' place e) ValueRel := by
  cases he with
  | literal => exact .after_evaluates (fun _ => trivial) (.pure (.ofLiteral _))
  | group he => exact .after_evaluates (fun _ => trivial) (heval hctx he)
  | @unary _ _ op line _ _ he =>
    refine .after_evaluates (fun _ => trivial) ?_
    exact (heval hctx he).seq fun _ hv => simulates_operator hctx.frames (hv.unary op)
  | @binary _ _ op line _ _ _ _ hl hr =>
    refine .after_evaluates (fun _ => trivial) ?_
    refine (heval hctx hl).seq fun hW hv => ?_
    exact (heval (hctx.mono hW) hr).seq fun hW' hw =>
      simulates_operator hctx.frames ((hv.mono hW').binary hw op)
  | @logical _ _ op line _ _ _ _ hl hr =>
    refine .after_evaluates (fun _ => trivial) ?_
    refine (heval hctx hl).seq fun {W' v v'} hW hv => ?_
    rw [hv.decided op]
    by_cases hdecided : op.decided v' = true
    · rw [if_pos hdecided, if_pos hdecided]
      exact .pure hv
    · rw [if_neg hdecided, if_neg hdecided]
      exact heval (hctx.mono hW) hr
  | @«variable» _ _ name use hd =>
    refine simulates_variable hctx hd (fun _ => rfl) fun store hscope => ?_
    cases use with
    | none => trivial
    | some d => exact hscope d rfl
  | @assign _ _ name use _ _ hname he hd =>
    -- the scope of the name is there before the value is known
    refine .after_note (fun _ _ _ _ => ?_) nofun ?_
    · cases use with
      | none => trivial
      | some d =>
        obtain ⟨scope, _, hscope, -⟩ := hctx.sees.cell_of_distance hd
        exact ⟨scope, hscope⟩
    · refine (heval hctx he).seq fun hW hv => ?_
      exact (simulates_assignTo (hctx.mono hW) hname hd hv).seq fun hW' _ => .pure (hv.mono hW')
  | @call _ _ _ _ _ _ line hf hargs =>
    refine .after_evaluates (fun _ => trivial) ?_
    refine (heval hctx hf).seq fun hW hv => ?_
    refine (simulates_inOrder heval (hctx.mono hW) hargs).seq fun hW' hvs => ?_
    exact simulates_apply hexec hctx.frames (hv.mono hW') hvs
  | @get _ _ _ _ name ho =>
    refine .after_evaluates (fun _ => trivial) ?_
    exact (heval hctx ho).seq fun _ hv => simulates_getProperty name hctx.frames hv
  | @set _ _ _ _ name _ _ ho he =>
    refine .after_evaluates (fun _ => trivial) ?_
    refine (heval hctx ho).seq fun hW ho' => ?_
    cases ho' with
    | object hd =>
      refine (heval (hctx.mono hW) he).seq fun _ hv => ?_
      exact (simulates_setField _ name.text hv).seq fun hW' _ => .pure (hv.mono hW')
    | _ => exact .fail _ _ hctx.frames
  | this hcls hd => exact simulates_this hctx hcls hd
  | super hcls hd => exact simulates_super hctx hcls hd
  | lambda hparams hbody =>
    refine .after_evaluates (fun _ => trivial) ?_
    -- a function expression keeps the receiver of the place it stands at
    have hreceives := hctx.receives
    exact simulates_newFunction ⟨_, S, ⟨rfl, rfl, rfl, hbody, hparams.1, unreserved_paramNames hparams.2,
      ⟨hreceives.this, hreceives.super⟩, nofun⟩, hctx.sees⟩

/-! ### Statements -/

theorem simulates_var {name : Name} {initial : Option SourceExpr} {initial' : Option ResolvedExpr}
    (hctx : CtxRel W P S ctx place) (hown : OwnNames W S ctx.env) (hname : Declarable name S)
    (hinitial : ∀ {W' within}, CtxRel W' P (declaring [name.text] S) ctx within →
      Simulates Nowhere W' (Steps.optional eval ctx initial')
        (Lexical.optional eval' within initial) ValueRel) :
    Simulates (Declaring ctx.env [name.text]) W
      (do
        Watched.note (.executes ctx (.var name initial'))
        Watched.steps.stmtStep eval exec rounds ctx (.var name initial'))
      (Lexical.stmtStep eval' exec' rounds place (.var name initial))
      (EndsAlike P (declaring [name.text] S) ctx place) := by
  refine (simulates_beginVar hctx hown hname).bind (fun _ _ _ => False.elim) ?_
  intro W₁ _ p _ hpost
  obtain ⟨within, cell⟩ := p
  obtain ⟨hctx₁, htarget⟩ := hpost
  -- the initializer already sees the new name, with its empty cell
  refine (hinitial hctx₁).seq fun hW₂ hv => ?_
  exact simulates_endVar (htarget.mono hW₂) hname.1 hv (.normal ((hctx.next hctx₁).mono hW₂))

theorem simulates_block {body : List SourceStmt} {body' : List ResolvedStmt}
    (hexec : ExecutesAlike exec exec') (hctx : CtxRel W P S ctx place)
    (hbody : AcceptedStmts P ([] :: S) body body') :
    Simulates Nowhere W (Watched.steps.stmtStep eval exec rounds ctx (.block body'))
      (Lexical.stmtStep eval' exec' rounds place (.block body)) (EndsAlike P S ctx place) := by
  refine simulates_openScope hctx.sees fun {W₁ scope} hW₁ _ hsees₁ hown₁ => ?_
  have hctx₁ : CtxRel W₁ P ([] :: S) { ctx with env := scope :: ctx.env }
      { place with inside := true } :=
    ⟨hsees₁, hctx.frames, rfl, hctx.receives.push nofun⟩
  -- the names of the block are dropped with it
  dsimp only
  rw [← bind_pure (Eval.sequence _ _)]
  refine (simulates_sequence hexec hctx₁ hown₁ hbody).bind (fun _ _ _ h => h) ?_
  intro W₂ completion ending hW₂ hends
  cases hends with
  | normal => exact .pure (.normal (hctx.mono (hW₁.trans hW₂.toBelow)))
  | returned hv => exact .pure (.returned hv)

theorem simulates_branch {c : SourceExpr} {c' : ResolvedExpr} {x y : Watched Completion}
    {x' y' : Run Ending} (heval : EvaluatesAlike eval eval') (hctx : CtxRel W P S ctx place)
    (hown : OwnNames W S ctx.env) (hc : AcceptedExpr P S c c')
    (hx : ∀ {W'}, CtxRel W' P S ctx place → OwnNames W' S ctx.env →
      Simulates Nowhere W' x x' (EndsAlike P S ctx place))
    (hy : ∀ {W'}, CtxRel W' P S ctx place → OwnNames W' S ctx.env →
      Simulates Nowhere W' y y' (EndsAlike P S ctx place)) :
    Simulates Nowhere W (do if (← eval ctx c').truthy then x else y)
      (do if (← eval' place c).truthy then x' else y') (EndsAlike P S ctx place) := by
  refine (heval hctx hc).first fun {W' v v'} hW hv => ?_
  have hctx' := hctx.mono hW.toBelow
  have hown' := hown.keep hctx.sees hW
  rw [hv.truthy]
  by_cases htrue : v'.truthy = true
  · rw [if_pos htrue, if_pos htrue]
    exact hx hctx' hown'
  · rw [if_neg htrue, if_neg htrue]
    exact hy hctx' hown'

/-- A statement that declares nothing. -/
theorem Simulates.ofPlain {s : SourceStmt} {x : Watched Completion} {y : Run Ending}
    (hplain : s.IsPlain) (h : Simulates Nowhere W x y (EndsAlike P S ctx place)) :
    Simulates (Declaring ctx.env s.declares) W x y
      (EndsAlike P (declaring s.declares S) ctx place) := by
  rw [hplain, declaring_nil]
  exact h.mono (fun _ _ _ => False.elim) fun _ hends => hends

theorem simulates_stmtStep {s : SourceStmt} {s' : ResolvedStmt}
    (heval : EvaluatesAlike eval eval') (hexec : ExecutesAlike exec exec')
    (hctx : CtxRel W P S ctx place) (hown : OwnNames W S ctx.env) (hs : AcceptedStmt P S s s') :
    Simulates (Declaring ctx.env s.declares) W
      (do
        Watched.note (.executes ctx s')
        Watched.steps.stmtStep eval exec rounds ctx s')
      (Lexical.stmtStep eval' exec' rounds place s)
      (EndsAlike P (declaring s.declares S) ctx place) := by
  cases hs with
  | expression he =>
    refine .ofPlain rfl (.after_executes (fun _ => trivial) ?_)
    exact (heval hctx he).seq fun hW _ => .pure (.normal (hctx.mono hW))
  | print he =>
    refine .ofPlain rfl (.after_executes (fun _ => trivial) ?_)
    refine (heval hctx he).seq fun {W' v v'} hW hv => ?_
    rw [hv.text]
    exact (simulates_printLine v'.text).seq fun hW' _ =>
      .pure (.normal (hctx.mono (hW.trans hW')))
  | var hname => exact simulates_var hctx hown hname fun _ => .pure .nil
  | varInit hname he => exact simulates_var hctx hown hname fun hctx' => heval hctx' he
  | block hbody =>
    exact .ofPlain rfl (.after_executes (fun _ => trivial)
      (simulates_block hexec hctx hbody))
  | branch hc ha hplain =>
    refine .ofPlain hplain (.after_executes (fun _ => trivial) ?_)
    refine simulates_branch heval hctx hown hc (fun hctx' hown' => ?_) fun hctx' _ => ?_
    · exact hexec.plain hctx' hown' ha hplain
    · exact .pure (.normal hctx')
  | @branchElse _ _ _ _ a _ b _ hc ha hb hplainA hplainB =>
    -- a branch that declares would make its names visible after the statement
    have hplain : b.declares ++ a.declares = [] := by rw [hplainA, hplainB]; rfl
    refine .ofPlain hplain (.after_executes (fun _ => trivial) ?_)
    refine simulates_branch heval hctx hown hc (fun hctx' hown' => ?_) fun hctx' hown' => ?_
    · exact hexec.plain hctx' hown' ha hplainA
    · exact hexec.plain hctx' hown' hb hplainB
  | loop hc hbody hplain =>
    refine .ofPlain hplain (.after_executes (fun _ => trivial) ?_)
    exact simulates_whileLoop heval hexec hctx hown hc hbody hplain rounds
  | function hname hdecl =>
    exact .after_executes (fun _ => trivial) (simulates_function hctx hown hname hdecl)
  | ret => exact .after_executes (fun _ => trivial) (.pure (.returned .nil))
  | retValue _ _ he =>
    refine .after_executes (fun _ => trivial) ?_
    exact (heval hctx he).first fun _ hv => .pure (.returned hv)
  | classDecl hname hmethods =>
    exact .after_executes (fun _ => trivial) (simulates_class hctx hown hname hmethods)
  | subclassDecl hname hother huse hmethods =>
    exact simulates_subclass hctx hown hname hother huse hmethods

end Walk

/-! ### Programs -/

/-- Expressions are evaluated and statements executed alike, however deep. -/
theorem walks_alike (rounds n : Nat) :
    EvaluatesAlike (Watched.steps.expr rounds n) (Lexical.expr rounds n) ∧
      ExecutesAlike (Watched.steps.stmt rounds n) (Lexical.stmt rounds n) := by
  induction n with
  | zero =>
    -- evaluation nests too deep on both sides
    constructor
    · exact fun hctx _ => .abort hctx.frames fun _ => trivial
    · exact fun hctx _ _ => .abort hctx.frames fun _ => trivial
  | succ n ih =>
    obtain ⟨heval, hexec⟩ := ih
    exact ⟨fun hctx he => simulates_exprStep heval hexec hctx he,
      fun hctx hown hs => simulates_stmtStep heval hexec hctx hown hs⟩

/-- An accepted program and its resolved form, at top level. -/
theorem simulates_program {W : World} {ctx : Context} {place : Place} {ss : List SourceStmt}
    {ss' : List ResolvedStmt} {last : Value} {last' : LValue} (limits : Limits)
    (hctx : CtxRel W .topLevel [] ctx place) (hss : AcceptedStmts .topLevel [] ss ss')
    (hlast : ValueRel W last last') :
    Simulates (Innermost ctx.env) W (Watched.steps.program limits ctx ss' last)
      (Lexical.program limits place ss last') ValueRel := by
  obtain ⟨heval, hexec⟩ := walks_alike limits.rounds limits.nesting
  induction ss generalizing W ss' last last' with
  | nil =>
    cases hss
    exact .pure hlast
  | cons s ss ih =>
    cases hss with
    | cons hs hss =>
      -- outside of all scopes, declarations leave the scopes as they are
      have hstmt := (hexec hctx nofun hs).mono (fun _ _ _ h => h.1) fun _ hends => hends
      cases hs with
      | expression he =>
        exact (heval hctx he).first fun hW hv => ih (hctx.mono hW.toBelow) hss hv
      | _ =>
        exact hstmt.bind (fun _ _ _ h => h) fun hW _ => ih (hctx.mono hW.toBelow) hss .nil

end Treewalk
