import Treewalk.Proofs.Walk.Simulation

/-! # Watched evaluation

    Evaluation once more, with a log of what it does: which expressions and
    statements it takes up and where, which variables it declares, which
    arguments its calls bind, and which initializers it ends.  The log is only
    written, and forgetting it gives the evaluation back (`erases_program`), so
    what holds of every log holds of every run. -/

namespace Treewalk

/-! ### Events -/

/-- What a run does. -/
inductive Event where
  /-- It takes up an expression, with the store as it is then. -/
  | evaluates (ctx : Context) (e : ResolvedExpr) (store : Store Value)
  /-- It takes up a statement, with the store as it is then. -/
  | executes (ctx : Context) (s : ResolvedStmt) (store : Store Value)
  /-- It completes the declaration of a variable. -/
  | declares (ctx : Context) (name : Name)
  /-- It binds the parameters of a function to arguments. -/
  | calls (closure : Closure) (args : List Value)
  /-- It ends a call of an initializer, with the store as it is then. -/
  | initializes (closure : Closure) (store : Store Value)

/-- The events so far, newest first. -/
abbrev History := List Event

/-- All that the event looks up is there: a name at a distance has a scope, `this`
    and `super` have values, and a call has an argument for each parameter. -/
def Event.Safe : Event → Prop
  | .evaluates ctx (.variable _ (some d)) _ => ∃ scope, Store.scopeAt ctx.env d = .ok scope
  | .evaluates ctx (.assign _ (some d) _) _ => ∃ scope, Store.scopeAt ctx.env d = .ok scope
  | .evaluates ctx (.this _ use) store =>
    ∃ d v, use = some d ∧ store.getAt ctx.env d Keyword.thisWord.text = .ok v
  | .evaluates ctx (.super _ use _) store =>
    ∃ d id definition v, use = some d ∧
      store.getAt ctx.env d Keyword.superWord.text = .ok (.cls id definition) ∧
      store.getAt ctx.env (d - 1) Keyword.thisWord.text = .ok v
  | .executes ctx (.classDecl _ (some (_, some d)) _) _ =>
    ∃ scope, Store.scopeAt ctx.env d = .ok scope
  | .calls closure args => args.length = closure.params.length
  | .initializes closure store =>
    ∃ v, store.getAt closure.env 0 Keyword.thisWord.text = .ok v
  | _ => True

/-- The use of a variable that the event reads: the expression is one, or it is
    the superclass of a class. -/
def Event.reads? : Event → Option (Context × Name × Distance)
  | .evaluates ctx (.variable name use) _ => some (ctx, name, use)
  | .executes ctx (.classDecl _ (some (name, use)) _) _ => some (ctx, name, use)
  | _ => none

/-- A `var` statement for the name was taken up in the scope. -/
def Begun (h : History) (scope : ScopeId) (name : String) : Prop :=
  ∃ ctx x initial store, Event.executes ctx (.var x initial) store ∈ h ∧
    ctx.env.head? = some scope ∧ x.text = name

/-- A `var` statement for the name came to its end in the scope. -/
def Declared (h : History) (scope : ScopeId) (name : String) : Prop :=
  ∃ ctx x, Event.declares ctx x ∈ h ∧ ctx.env.head? = some scope ∧ x.text = name

/-- The last thing the run did was to read a variable in a scope in which its
    `var` statement had begun but not come to its end. -/
def ReadsUnset (h : History) (name : String) : Prop :=
  ∃ event before ctx x d scope, h = event :: before ∧ event.reads? = some (ctx, x, some d) ∧
    x.text = name ∧ Store.scopeAt ctx.env d = .ok scope ∧
    Begun h scope name ∧ ¬ Declared h scope name

/-- A computation on the machine with a log. -/
abbrev Watched := EStateM Abort (Machine × History)

namespace Watched

variable {α β : Type}

/-- A computation on the machine that logs nothing. -/
def lift (x : Eval α) : Watched α := fun s =>
  match x s.1 with
  | .ok a m => .ok a (m, s.2)
  | .error e m => .error e (m, s.2)

theorem lift_pure (a : α) : lift (pure a) = pure a := rfl

theorem lift_bind (x : Eval α) (f : α → Eval β) :
    lift (x >>= f) = lift x >>= fun a => lift (f a) := by
  funext s
  cases hx : x s.1 with
  | ok a m =>
    have hlift : lift x s = .ok a (m, s.2) := by simp only [lift, hx]
    rw [bind_of_ok hlift]
    simp only [lift, bind_of_ok hx]
  | error e m =>
    have hlift : lift x s = .error e (m, s.2) := by simp only [lift, hx]
    rw [bind_of_error hlift]
    simp only [lift, bind_of_error hx]

/-- Logs an event. -/
def note (event : Store Value → Event) : Watched Unit := fun s =>
  .ok () (s.1, event s.1.store :: s.2)

/-- Logs what a run comes to. -/
def onMoment (ctx : Context) (moment : Moment Distance) (x : Watched α) : Watched α :=
  match moment with
  | .evaluates e => do
    note (.evaluates ctx e)
    x
  | .executes s => do
    note (.executes ctx s)
    x
  | .declares name => do
    note fun _ => .declares ctx name
    x
  | _ => x

/-- Runs the body of a function on its arguments. -/
def body (frames : List Frame) (closure : Closure) (args : List Value)
    (run : Context → Watched Completion) : Watched Value := do
  note fun _ => .calls closure args
  let env ← lift (Eval.openScope closure.env)
  lift (Eval.bindParams env closure.params args)
  let completion ← run ⟨env, frames⟩
  if closure.isInitializer then
    note (.initializes closure)
    let store ← lift Eval.readStore
    lift (Eval.access ⟨env, frames⟩ (store.getAt closure.env 0 Keyword.thisWord.text))
  else pure completion.value

/-- The steps of evaluation with a log. -/
def steps : Steps Distance Context (List Frame) Watched where
  depth := id
  note := onMoment
  step ctx x := lift (x ctx)
  getProperty ctx object name := lift (Eval.getProperty ctx object name)
  getSuper ctx use method := lift (Eval.getSuper ctx use method)
  declareClass ctx name superclass methods := lift (Eval.declareClass ctx name superclass methods)
  block ctx run := do
    let env ← lift (Eval.openScope ctx.env)
    run { ctx with env }
  call ctx frame _ _ run := run (frame :: ctx.frames)
  readClock _ := Value.number <$> lift Eval.readClock
  newObject _ _ setUp := do
    let id ← lift (Eval.updateStore (·.newObject))
    setUp id
  bindMethod _ method receiver := lift (Eval.bindMethod method receiver)
  body := body

end Watched

/-! ### Forgetting the log -/

/-- The outcome of a run without the log. -/
def forget {α : Type} : EStateM.Result Abort (Machine × History) α → EStateM.Result Abort Machine α
  | .ok a s => .ok a s.1
  | .error e s => .error e s.1

/-- Without the log, the one computation is the other. -/
def Erases {α : Type} (x : Watched α) (y : Eval α) : Prop :=
  ∀ m h, forget (x (m, h)) = y m

namespace Erases

variable {α β : Type} {x : Watched α} {y : Eval α}

theorem pure {a : α} : Erases (pure a) (pure a) :=
  fun _ _ => rfl

theorem bind {f : α → Watched β} {g : α → Eval β} (hx : Erases x y)
    (hf : ∀ a, Erases (f a) (g a)) : Erases (x >>= f) (y >>= g) := by
  intro m h
  have hstep := hx m h
  cases hrun : x (m, h) with
  | ok a s =>
    rw [hrun] at hstep
    rw [bind_of_ok hrun, bind_of_ok hstep.symm]
    exact hf a s.1 s.2
  | error e s =>
    rw [hrun] at hstep
    rw [bind_of_error hrun, bind_of_error hstep.symm]
    rfl

theorem map (f : α → β) (hx : Erases x y) : Erases (f <$> x) (f <$> y) := by
  intro m h
  have hstep := hx m h
  cases hrun : x (m, h) with
  | ok a s =>
    rw [hrun] at hstep
    rw [map_of_ok hrun, map_of_ok hstep.symm]
    rfl
  | error e s =>
    rw [hrun] at hstep
    rw [map_of_error hrun, map_of_error hstep.symm]
    rfl

theorem lift (x : Eval α) : Erases (Watched.lift x) x := by
  intro m h
  unfold Watched.lift
  cases x m <;> rfl

theorem after_note {event : Store Value → Event} {f : Unit → Watched α} (hf : Erases (f ()) y) :
    Erases (Watched.note event >>= f) y :=
  fun m h => hf m (event m.store :: h)

end Erases

theorem erases_body {frames : List Frame} {x : Context → Watched Completion}
    {y : Context → Eval Completion} (closure : Closure) (args : List Value)
    (hrun : ∀ ctx, Erases (x ctx) (y ctx)) :
    Erases (Watched.body frames closure args x) ((Steps.plain id).body frames closure args y) := by
  refine .after_note <| .bind (.lift _) fun env => .bind (.lift _) fun _ => ?_
  refine .bind (hrun _) fun completion => ?_
  cases closure.isInitializer with
  | true => exact .after_note (.bind (.lift _) fun store => .lift _)
  | false => exact .pure

/-- Step by step, evaluation with a log is evaluation. -/
def erasure : Simulation Watched.steps (Steps.plain id) Unit where
  Stands ctx ctx' _ := ctx = ctx'
  Calls frames frames' _ := frames = frames'
  Rel _ := Erases
  depth := rfl
  pure := .pure
  bind := .bind
  note moment hctx hx := by
    cases moment with
    | evaluates | executes | declares => exact .after_note hx
    | returns | settles => exact hx
  step := by
    rintro α i ctx _ x rfl -
    exact .lift (x ctx)
  getProperty := by
    rintro i ctx _ v name rfl
    exact .lift _
  getSuper := by
    rintro i ctx _ use method rfl
    exact .lift _
  declareClass := by
    rintro i ctx _ name superclass methods rfl
    rw [Steps.plain_declareClass]
    exact .lift _
  block := by
    rintro i ctx _ x y rfl hrun
    exact .bind (.lift _) fun env => hrun i rfl
  call := by
    rintro i ctx _ x y frame callee args rfl hrun
    exact hrun i rfl
  readClock _ := .map _ (.lift _)
  newObject _ _ hsetUp := .bind (.lift _) hsetUp
  bindMethod method receiver _ := .lift (Eval.bindMethod method receiver)
  body := by
    rintro i frames _ x y closure args rfl hrun
    exact erases_body closure args fun ctx => hrun i rfl

/-- Watching changes neither expressions nor statements, however deep. -/
theorem erases_walk (rounds n : Nat) :
    (∀ ctx e, Erases (Watched.steps.expr rounds n ctx e) (Eval.expr rounds n ctx e)) ∧
    (∀ ctx s, Erases (Watched.steps.stmt rounds n ctx s) (Eval.stmt rounds n ctx s)) := by
  obtain ⟨heval, hexec⟩ := erasure.walk rounds n
  obtain ⟨hexpr, hstmt⟩ := Steps.plain_walk rounds n
  rw [hexpr] at heval
  rw [hstmt] at hexec
  exact ⟨fun ctx => heval (i := ()) rfl, fun ctx => hexec (i := ()) rfl⟩

theorem erases_program (limits : Limits) (ctx : Context) (ss : List ResolvedStmt) (last : Value) :
    Erases (Watched.steps.program limits ctx ss last) (Eval.program limits ctx ss last) := by
  rw [← Steps.plain_program]
  exact erasure.program limits () rfl ss last

end Treewalk
