import Treewalk.Proofs.Chronicle.Placement

/-! # Evaluation with a log of its control

    Recorded evaluation once more, with a log of where control goes: which calls
    run which bodies, what is taken up in them, which `return` statements are
    executed, and how bodies and calls end.  The log is only written, so that a run
    without its log is the recorded run itself (`logs_program`). -/

namespace Treewalk

/-! ### Events -/

/-- A run of the body of a function, as part of a call. -/
structure Activation where
  /-- The number of the call. -/
  number : Nat
  /-- The function. -/
  closure : Closure

/-- What happens to the control of a run. -/
inductive ControlEvent where
  /-- A call, with a number of its own, has passed its checks. -/
  | calls (number : Nat) (callee : Value)
  /-- The call begins to run the body of a function. -/
  | begins (a : Activation)
  /-- An expression or a statement is taken up, in a body or at top level. -/
  | takesUp (site : Option Activation) (code : Code)
  /-- A `return` statement is executed there, with a value. -/
  | returns (site : Option Activation) (v : Value)
  /-- The body is left, and this is how it ended. -/
  | ends (a : Activation) (completion : Completion)
  /-- The call of that number yields its value. -/
  | yields (number : Nat) (v : Value)
  /-- A statement at top level has been executed, and this is how it ended. -/
  | settles (completion : Completion)

/-- The events so far, newest first. -/
abbrev ControlLog := List ControlEvent

/-- The state of a recorded run, with the log. -/
abbrev ControlState := (Machine × Chronicle) × ControlLog

/-- A recorded computation with a log of its control. -/
abbrev Controlled := EStateM Abort ControlState

namespace Controlled

variable {α : Type}

/-- A recorded computation that logs nothing. -/
def lift (x : Recorded α) : Controlled α := fun s =>
  match x s.1 with
  | .ok a r => .ok a (r, s.2)
  | .error e r => .error e (r, s.2)

/-- An elementary step. -/
def step (x : Eval α) : Controlled α := lift (Recorded.lift x)

/-- Logs an event. -/
def note (event : ControlEvent) : Controlled Unit := fun s => .ok () (s.1, event :: s.2)

/-- Does something as a call that has passed its checks. -/
def calling (callee : Value) (args : List Value) (line : Int) (x : Nat → Controlled Value) :
    Controlled Value := do
  let number ← lift Recorded.nextCall
  lift (Recorded.note (.calls number callee args line))
  note (.calls number callee)
  let v ← x number
  lift (Recorded.note (.returns number v))
  note (.yields number v)
  pure v

/-! ### The steps -/

/-- Where a run stands: in which body, if it is in one, and in which context. -/
structure Spot where
  /-- The body that is being run. -/
  site : Option Activation
  /-- The visible scopes and the active calls. -/
  ctx : Context

/-- A call that is being made. -/
structure CallInHand where
  /-- Its number. -/
  number : Nat
  /-- The active calls with this one, innermost first. -/
  frames : List Frame

/-- Logs what a run comes to. -/
def onMoment (spot : Spot) (moment : Moment Distance) (x : Controlled α) : Controlled α :=
  match moment with
  | .evaluates e => do
    lift (Recorded.takeUp spot.ctx e)
    note (.takesUp spot.site (.expr e))
    x
  | .executes s => do
    note (.takesUp spot.site (.stmt s))
    x
  | .returns v => do
    note (.returns spot.site v)
    x
  | .settles completion => do
    note (.settles completion)
    x
  | .declares _ => x

/-- Runs the body of a function on its arguments, as part of a call. -/
def body (call : CallInHand) (closure : Closure) (args : List Value)
    (run : Spot → Controlled Completion) : Controlled Value := do
  note (.begins ⟨call.number, closure⟩)
  let scope ← lift (Recorded.newScope closure.env)
  step (Eval.bindParams (scope :: closure.env) closure.params args)
  let completion ← run ⟨some ⟨call.number, closure⟩, ⟨scope :: closure.env, call.frames⟩⟩
  note (.ends ⟨call.number, closure⟩ completion)
  if closure.isInitializer then
    let store ← step Eval.readStore
    step (Eval.access ⟨scope :: closure.env, call.frames⟩
      (store.getAt closure.env 0 Keyword.thisWord.text))
  else pure completion.value

/-- The steps of recorded evaluation with a log of its control. -/
def steps : Steps Distance Spot CallInHand Controlled where
  depth := id
  note := onMoment
  step spot x := step (x spot.ctx)
  getProperty spot object name := lift (Recorded.getProperty spot.ctx object name)
  getSuper spot use method := lift (Recorded.getSuper spot.ctx use method)
  declareClass spot name superclass methods :=
    lift (Recorded.declareClass spot.ctx ⟨name, superclass, methods⟩)
  block spot run := do
    let scope ← lift (Recorded.newScope spot.ctx.env)
    run ⟨spot.site, { spot.ctx with env := scope :: spot.ctx.env }⟩
  call spot frame callee args run :=
    calling callee args frame.line fun number => run ⟨number, frame :: spot.ctx.frames⟩
  readClock _ := Value.number <$> step Eval.readClock
  newObject _ cls setUp := do
    let id ← step (Eval.updateStore (·.newObject))
    lift (Recorded.note (.makes id cls))
    setUp id
  bindMethod _ method receiver := lift (Recorded.bindMethod method receiver)
  body := body

end Controlled

/-! ### Without the log -/

/-- The outcome of a run without its log. -/
def uncontrolled {α : Type} :
    EStateM.Result Abort ControlState α → EStateM.Result Abort (Machine × Chronicle) α
  | .ok a s => .ok a s.1
  | .error e s => .error e s.1

/-- The log at the end of a run. -/
def controlOf {α : Type} : EStateM.Result Abort ControlState α → ControlLog
  | .ok _ s => s.2
  | .error _ s => s.2

/-- The one computation does what the other does, and logs it. -/
def Logs {α : Type} (x : Controlled α) (y : Recorded α) : Prop :=
  ∀ s log, uncontrolled (x (s, log)) = y s

namespace Logs

variable {α β : Type} {x : Controlled α} {y : Recorded α}

theorem pure {a : α} : Logs (pure a) (pure a) :=
  fun _ _ => rfl

theorem bind {f : α → Controlled β} {g : α → Recorded β} (hx : Logs x y)
    (hf : ∀ a, Logs (f a) (g a)) : Logs (x >>= f) (y >>= g) := by
  intro s log
  have hstep := hx s log
  cases hrun : x (s, log) with
  | ok a s' =>
    rw [hrun] at hstep
    rw [bind_of_ok hrun, bind_of_ok hstep.symm]
    exact hf a s'.1 s'.2
  | error e s' =>
    rw [hrun] at hstep
    rw [bind_of_error hrun, bind_of_error hstep.symm]
    rfl

theorem map (f : α → β) (hx : Logs x y) : Logs (f <$> x) (f <$> y) := by
  rw [← bind_pure_comp, ← bind_pure_comp]
  exact hx.bind fun _ => .pure

theorem lift (x : Recorded α) : Logs (Controlled.lift x) x := by
  intro s log
  unfold Controlled.lift
  cases x s <;> rfl

theorem step (x : Eval α) : Logs (Controlled.step x) (Recorded.lift x) := lift _

theorem after_note {event : ControlEvent} {f : Unit → Controlled α} (hf : Logs (f ()) y) :
    Logs (Controlled.note event >>= f) y :=
  fun s log => hf s (event :: log)

theorem calling {x : Nat → Controlled Value} {y : Recorded Value} (hx : ∀ n, Logs (x n) y)
    (callee : Value) (args : List Value) (line : Int) :
    Logs (Controlled.calling callee args line x) (Recorded.calling callee args line y) := by
  refine .bind (.lift _) fun number => .bind (.lift _) fun _ => .after_note ?_
  exact .bind (hx number) fun v => .bind (.lift _) fun _ => .after_note .pure

end Logs

theorem logs_body {call : Controlled.CallInHand} {x : Controlled.Spot → Controlled Completion}
    {y : Context → Recorded Completion} (closure : Closure) (args : List Value)
    (hrun : ∀ spot, Logs (x spot) (y spot.ctx)) :
    Logs (Controlled.body call closure args x) (Recorded.body call.frames closure args y) := by
  refine .after_note (.bind (.lift _) fun scope => .bind (.step _) fun _ => ?_)
  refine .bind (hrun _) fun completion => .after_note ?_
  cases closure.isInitializer with
  | true => exact .bind (.step _) fun store => .step _
  | false => exact .pure

/-- Step by step, evaluation with a log of its control is recorded evaluation. -/
def logging : Simulation Controlled.steps Recorded.steps Unit where
  Stands spot ctx _ := spot.ctx = ctx
  Calls call frames _ := call.frames = frames
  Rel _ := Logs
  depth := rfl
  pure := .pure
  bind := .bind
  note moment hspot hx := by
    subst hspot
    cases moment with
    | evaluates => exact .bind (.lift _) fun _ => .after_note hx
    | executes | returns | settles => exact .after_note hx
    | declares => exact hx
  step := by
    rintro α i spot _ x rfl -
    exact .step (x spot.ctx)
  getProperty := by
    rintro i spot _ v name rfl
    exact .lift _
  getSuper := by
    rintro i spot _ use method rfl
    exact .lift _
  declareClass := by
    rintro i spot _ name superclass methods rfl
    exact .lift _
  block := by
    rintro i spot _ x y rfl hrun
    exact .bind (.lift _) fun scope => hrun i rfl
  call := by
    rintro i spot _ x y frame callee args rfl hrun
    have hcall (number : Nat) := hrun i (k := ⟨number, frame :: spot.ctx.frames⟩) rfl
    exact .calling hcall callee args frame.line
  readClock _ := .map _ (.step _)
  newObject _ _ hsetUp := .bind (.step _) fun id => .bind (.lift _) fun _ => hsetUp id
  bindMethod method receiver _ := .lift (Recorded.bindMethod method receiver)
  body := by
    rintro i call _ x y closure args rfl hrun
    exact logs_body closure args fun spot => hrun i rfl

theorem logs_program (limits : Limits) (ctx : Context) (ss : List ResolvedStmt) (last : Value) :
    Logs (Controlled.steps.program limits ⟨none, ctx⟩ ss last)
      (Recorded.steps.program limits ctx ss last) :=
  logging.program limits () rfl ss last

end Treewalk
