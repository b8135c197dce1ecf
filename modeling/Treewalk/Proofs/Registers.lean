import Treewalk.Proofs.Watched

/-! # Evaluation with registers

    Evaluation once more, with the environment and the active calls in registers
    that every step finds as the last one left them.  A block or a function body
    switches the environment and switches it back however it ends; a class with a
    superclass switches it forth and back by hand; a call puts itself on the stack
    and takes itself off only when it yields a value.  The registers are balanced
    all the same: what comes to its end leaves both as it found them, and after a
    fault the stack holds the calls that were active then (`runsLike_program`). -/

namespace Treewalk

/-! ### Registers -/

/-- What happens to the active calls. -/
inductive CallEvent where
  /-- A call begins. -/
  | entered (frame : Frame)
  /-- The innermost call yields its value. -/
  | left
deriving DecidableEq, Repr

/-- The calls that have begun and not yet yielded a value, innermost first, after
    some events, newest first. -/
def activeCalls : List CallEvent → List Frame
  | [] => []
  | .entered frame :: log => frame :: activeCalls log
  | .left :: log => (activeCalls log).tail

/-- The registers of an interpreter. -/
structure Registers where
  /-- The state of the running program. -/
  machine : Machine
  /-- The current environment. -/
  env : Env
  /-- The stack of calls, innermost first. -/
  frames : List Frame
  /-- What happened to the active calls in this run, newest first. -/
  calls : List CallEvent

/-- The registers with a call on the stack. -/
def Registers.push (r : Registers) (frame : Frame) : Registers :=
  { r with frames := frame :: r.frames, calls := .entered frame :: r.calls }

/-- The registers with the innermost call off the stack. -/
def Registers.pop (r : Registers) : Registers :=
  { r with frames := r.frames.tail, calls := .left :: r.calls }

/-- A computation on the registers. -/
abbrev Stateful (α : Type) := EStateM Fault Registers α

namespace Stateful

variable {α : Type}

/-- An elementary step in the current environment. -/
def lift (x : Context → Eval α) : Stateful α := fun r =>
  match x ⟨r.env, r.frames⟩ r.machine with
  | .ok a machine => .ok a { r with machine }
  | .error cut machine => .error cut.fault { r with machine }

/-- The current environment. -/
def currentEnv : Stateful Env := fun r => .ok r.env r

/-- Switches to an environment. -/
def switchTo (env : Env) : Stateful Unit := fun r => .ok () { r with env }

/-- Does something in an environment, and switches back whatever happens. -/
def within (env : Env) (x : Stateful α) : Stateful α := fun r =>
  match x { r with env } with
  | .ok a r' => .ok a { r' with env := r.env }
  | .error fault r' => .error fault { r' with env := r.env }

/-- Does something as a call.  After a fault the call stays on the stack. -/
def calling (frame : Frame) (x : Stateful α) : Stateful α := do
  modify (·.push frame)
  let a ← x
  modify (·.pop)
  pure a

/-! ### Calls -/

/-- Runs the body of a function on its arguments. -/
def body (closure : Closure) (args : List Value) (run : Stateful Completion) : Stateful Value := do
  let env ← lift fun _ => Eval.openScope closure.env
  lift fun _ => Eval.bindParams env closure.params args
  let completion ← within env run
  if closure.isInitializer then
    let store ← lift fun _ => Eval.readStore
    lift fun ctx => Eval.access ctx (store.getAt closure.env 0 Keyword.thisWord.text)
  else pure completion.value

/-! ### Classes -/

/-- Creates a class and binds its name.  With a superclass, its methods are made
    in an environment of their own. -/
def declareClass (name : Name) (superclass : Option (Name × Distance))
    (methods : List ResolvedFun) : Stateful Unit := do
  match superclass with
  | none =>
    lift fun ctx => Eval.define ctx.env name.text .nil
    let env ← currentEnv
    let id ← lift fun _ => Eval.updateStore (·.identity)
    lift fun ctx => Eval.define ctx.env name.text
      (.cls id (.mk name.text none (Eval.methodTable env methods)))
  | some (superName, use) =>
    let v ← lift fun ctx => Eval.lookUp ctx superName use
    let (superId, superDefinition) ← lift fun ctx => Eval.superclassOf ctx superName v
    lift fun ctx => Eval.define ctx.env name.text .nil
    switchTo (← lift fun ctx => Eval.openScope ctx.env)
    lift fun ctx => Eval.define ctx.env Keyword.superWord.text (.cls superId superDefinition)
    let env ← currentEnv
    let id ← lift fun _ => Eval.updateStore (·.identity)
    switchTo env.tail
    lift fun ctx => Eval.define ctx.env name.text
      (.cls id (.mk name.text (some superDefinition) (Eval.methodTable env methods)))

/-! ### The steps -/

/-- The steps of evaluation with registers: the walk itself is told nothing of where
    it stands. -/
def steps : Steps Distance Unit Unit Stateful where
  depth := id
  note _ _ x := x
  step _ x := lift x
  getProperty _ object name := lift fun ctx => Eval.getProperty ctx object name
  getSuper _ use method := lift fun ctx => Eval.getSuper ctx use method
  declareClass _ := declareClass
  block _ run := do
    let env ← lift fun ctx => Eval.openScope ctx.env
    within env (run ())
  call _ frame _ _ run := calling frame (run ())
  readClock _ := lift fun _ => Value.number <$> Eval.readClock
  newObject _ _ setUp := do
    let id ← lift fun _ => Eval.updateStore (·.newObject)
    setUp id
  bindMethod _ method receiver := lift fun _ => Eval.bindMethod method receiver
  body _ closure args run := body closure args (run ())

/-- Evaluates an expression. -/
def expr (rounds n : Nat) (e : ResolvedExpr) : Stateful Value := steps.expr rounds n () e

/-- Executes a statement. -/
def stmt (rounds n : Nat) (s : ResolvedStmt) : Stateful Completion := steps.stmt rounds n () s

/-- Runs the statements of a program in order. -/
def program (limits : Limits) (ss : List ResolvedStmt) (last : Value) : Stateful Value :=
  steps.program limits () ss last

end Stateful

/-! ### In step -/

/-- Some events leave the given calls active, innermost first, on top of those
    that were active before. -/
def LeavesActive (events : List CallEvent) (active : List Frame) : Prop :=
  ∀ log, activeCalls (events ++ log) = active ++ activeCalls log

/-- What the registers hold after a computation, if they held `r` before, and if
    it has the given outcome with the environment and the calls passed down. -/
inductive InStep {α : Type} (r : Registers) :
    EStateM.Result Abort Machine α → EStateM.Result Fault Registers α → Prop
  /-- The environment and the stack are as before. -/
  | ok {a machine events} : LeavesActive events [] →
      InStep r (.ok a machine) (.ok a { r with machine, calls := events ++ r.calls })
  /-- The environment is as before, and the calls that were active are on the
      stack. -/
  | error {fault machine events active} : LeavesActive events active →
      InStep r (.error ⟨fault, active ++ r.frames⟩ machine)
        (.error fault
          { r with machine, frames := active ++ r.frames, calls := events ++ r.calls })

/-- The computation on the registers does the same as the one in a context. -/
def RunsLike {α : Type} (x : Stateful α) (ctx : Context) (y : Eval α) : Prop :=
  ∀ r, r.env = ctx.env → r.frames = ctx.frames → InStep r (y r.machine) (x r)

section LeavesActive

variable {events later : List CallEvent} {active active' : List Frame}

theorem leavesActive_nil : LeavesActive [] [] := fun _ => rfl

theorem LeavesActive.append (h : LeavesActive events active) (h' : LeavesActive later active') :
    LeavesActive (later ++ events) (active' ++ active) := by
  intro log
  rw [List.append_assoc, h', h, List.append_assoc]

theorem leavesActive_entered (frame : Frame) : LeavesActive [.entered frame] [frame] := fun _ => rfl

/-- A call that has come to its end is not active. -/
theorem LeavesActive.call (h : LeavesActive events []) (frame : Frame) :
    LeavesActive (.left :: (events ++ [.entered frame])) [] := by
  intro log
  have hactive := (leavesActive_entered frame).append h log
  show (activeCalls (events ++ [.entered frame] ++ log)).tail = _
  rw [hactive]
  rfl

end LeavesActive

section InStep

variable {α : Type} {r : Registers} {machine : Machine}

theorem InStep.ok_same {a : α} : InStep r (.ok a machine) (.ok a { r with machine }) := by
  show InStep r _ (.ok a { r with machine, calls := [] ++ r.calls })
  exact .ok leavesActive_nil

theorem InStep.error_same {fault : Fault} :
    InStep (α := α) r (.error ⟨fault, r.frames⟩ machine) (.error fault { r with machine }) := by
  show InStep r (.error ⟨fault, [] ++ r.frames⟩ machine)
    (.error fault { r with machine, frames := [] ++ r.frames, calls := [] ++ r.calls })
  exact .error leavesActive_nil

/-- One computation behind another that came to its end. -/
theorem InStep.after {events : List CallEvent} {y : EStateM.Result Abort Machine α}
    {x : EStateM.Result Fault Registers α} (hevents : LeavesActive events [])
    (h : InStep { r with machine, calls := events ++ r.calls } y x) : InStep r y x := by
  cases h with
  | @ok a machine' later hlater =>
    have hboth := hevents.append hlater
    show InStep r _ (.ok a { r with machine := machine', calls := later ++ (events ++ r.calls) })
    rw [← List.append_assoc]
    exact .ok hboth
  | @error fault machine' later active hlater =>
    have hboth := hevents.append hlater
    rw [List.append_nil] at hboth
    show InStep r _ (.error fault { r with
      machine := machine', frames := active ++ r.frames, calls := later ++ (events ++ r.calls) })
    rw [← List.append_assoc]
    exact .error hboth

end InStep

namespace RunsLike

variable {α β : Type} {ctx : Context} {x : Stateful α} {y : Eval α}

theorem pure {a : α} : RunsLike (pure a) ctx (pure a) :=
  fun _ _ _ => .ok_same

theorem bind {f : α → Stateful β} {g : α → Eval β} (hx : RunsLike x ctx y)
    (hf : ∀ a, RunsLike (f a) ctx (g a)) : RunsLike (x >>= f) ctx (y >>= g) := by
  intro r henv hframes
  have hstep := hx r henv hframes
  generalize hy : y r.machine = out at hstep
  generalize hxr : x r = out' at hstep
  cases hstep with
  | ok hevents =>
    rw [bind_of_ok hy, bind_of_ok hxr]
    exact .after hevents (hf _ _ henv hframes)
  | error hevents =>
    rw [bind_of_error hy, bind_of_error hxr]
    exact .error hevents

/-- An elementary step fails with the calls of its context active. -/
theorem lift {y : Context → Eval α} (h : FailsIn ctx (y ctx)) :
    RunsLike (Stateful.lift y) ctx (y ctx) := by
  intro r henv hframes
  have hctx : (⟨r.env, r.frames⟩ : Context) = ctx := by rw [henv, hframes]
  unfold Stateful.lift
  rw [hctx]
  cases hy : y ctx r.machine with
  | ok a machine => exact .ok_same
  | error cut machine =>
    have hcut : cut = ⟨cut.fault, r.frames⟩ := by
      rw [hframes, ← h r.machine cut machine hy]
    rw [hcut]
    exact .error_same

/-- The environment is switched back on both ways out. -/
theorem within {env : Env} (h : RunsLike x { ctx with env } y) :
    RunsLike (Stateful.within env x) ctx y := by
  intro r _ hframes
  have hstep := h { r with env } rfl hframes
  unfold Stateful.within
  generalize y r.machine = out at hstep ⊢
  generalize x { r with env } = out' at hstep
  cases hstep with
  | ok hevents => exact .ok hevents
  | error hevents => exact .error hevents

/-- A call is taken off the stack on one way out only. -/
theorem calling {frame : Frame} (h : RunsLike x { ctx with frames := frame :: ctx.frames } y) :
    RunsLike (Stateful.calling frame x) ctx y := by
  intro r henv hframes
  have hpushed : (r.push frame).frames = frame :: ctx.frames := congrArg (frame :: ·) hframes
  have hstep := h (r.push frame) henv hpushed
  show InStep r (y r.machine)
    ((x >>= fun a => modify Registers.pop >>= fun _ => Pure.pure a) (r.push frame))
  have hmachine : (r.push frame).machine = r.machine := rfl
  rw [hmachine] at hstep
  generalize y r.machine = out at hstep ⊢
  generalize hx : x (r.push frame) = out' at hstep
  cases hstep with
  | @ok a machine events hevents =>
    have hcalls : CallEvent.left :: (events ++ .entered frame :: r.calls) =
        .left :: (events ++ [.entered frame]) ++ r.calls := by simp
    rw [bind_of_ok hx]
    show InStep r _ (.ok a ⟨machine, r.env, r.frames, .left :: (events ++ .entered frame :: r.calls)⟩)
    rw [hcalls]
    exact .ok (hevents.call frame)
  | @error fault machine events active hevents =>
    have hactive : active ++ frame :: r.frames = active ++ [frame] ++ r.frames := by simp
    have hcalls : events ++ .entered frame :: r.calls = events ++ [.entered frame] ++ r.calls := by
      simp
    rw [bind_of_error hx]
    show InStep r (.error ⟨fault, active ++ frame :: r.frames⟩ machine)
      (.error fault ⟨machine, r.env, active ++ frame :: r.frames, events ++ .entered frame :: r.calls⟩)
    rw [hactive, hcalls]
    exact .error ((leavesActive_entered frame).append hevents)

end RunsLike

/-! ### The walk in step -/

section Step

variable {ctx : Context}

/-- The body runs in the environment of the function, and the caller goes on in its
    own. -/
theorem runsLike_body {x : Stateful Completion} {y : Context → Eval Completion}
    (hrun : ∀ ctx, RunsLike x ctx (y ctx)) (closure : Closure) (args : List Value) :
    RunsLike (Stateful.body closure args x) ctx
      ((Steps.plain id).body ctx.frames closure args y) := by
  refine .bind (.lift (.updateStore _)) fun env => ?_
  refine .bind (.lift (.bindParams _ _ _)) fun _ => ?_
  refine .bind (.within (hrun ⟨env, ctx.frames⟩)) fun completion => ?_
  cases closure.isInitializer with
  | true => exact .bind (.lift .readStore) fun store => .lift (.access _)
  | false => exact .pure

/-- Between the two switches of the environment nothing fails. -/
theorem runsLike_declareClass (name : Name) (superclass : Option (Name × Distance))
    (methods : List ResolvedFun) :
    RunsLike (Stateful.declareClass name superclass methods) ctx
      (Eval.declareClass ctx name superclass methods) := by
  cases superclass with
  | none =>
    intro r henv hframes
    obtain ⟨env, frames⟩ := ctx
    obtain ⟨machine, env', frames', calls⟩ := r
    cases henv
    exact .ok_same
  | some use =>
    obtain ⟨superName, use⟩ := use
    refine .bind (.lift (.lookUp _ _)) fun v => ?_
    refine .bind (.lift (.superclassOf _ _)) fun found => ?_
    intro r henv hframes
    obtain ⟨env, frames⟩ := ctx
    obtain ⟨machine, env', frames', calls⟩ := r
    cases henv
    exact .ok_same

end Step

/-- Step by step, evaluation with registers is evaluation in a context. -/
def inStep : Simulation Stateful.steps (Steps.plain id) Context where
  Stands _ ctx ctx' := ctx = ctx'
  Calls _ frames ctx := frames = ctx.frames
  Rel ctx x y := RunsLike x ctx y
  depth := rfl
  pure := .pure
  bind := .bind
  note _ _ hx := hx
  step := by
    rintro α _ p ctx x rfl hfails
    exact .lift (hfails ctx)
  getProperty := by
    rintro _ p ctx v name rfl
    exact .lift (y := fun ctx => Eval.getProperty ctx v name) (.getProperty v name)
  getSuper := by
    rintro _ p ctx use method rfl
    exact .lift (y := fun ctx => Eval.getSuper ctx use method) (.getSuper use method)
  declareClass := by
    rintro _ p ctx name superclass methods rfl
    rw [Steps.plain_declareClass]
    exact runsLike_declareClass name superclass methods
  block := by
    rintro _ p ctx x y rfl hrun
    exact .bind (.lift (.updateStore _)) fun env => .within (hrun { ctx with env } rfl)
  call := by
    rintro _ p ctx x y frame callee args rfl hrun
    exact .calling (hrun { ctx with frames := frame :: ctx.frames } rfl)
  readClock _ := .lift (y := fun _ => Value.number <$> Eval.readClock) .readClock
  newObject _ _ hsetUp := .bind (.lift (.updateStore _)) hsetUp
  bindMethod method receiver _ :=
    .lift (y := fun _ => Eval.bindMethod method receiver) (.bindMethod method receiver)
  body := by
    rintro ctx k _ x y closure args rfl hrun
    exact runsLike_body (fun ctx => hrun ctx rfl) closure args

/-- Expressions and statements are taken in step, however deep. -/
theorem runsLike_walk (rounds n : Nat) :
    (∀ ctx e, RunsLike (Stateful.expr rounds n e) ctx (Eval.expr rounds n ctx e)) ∧
    (∀ ctx s, RunsLike (Stateful.stmt rounds n s) ctx (Eval.stmt rounds n ctx s)) := by
  obtain ⟨heval, hexec⟩ := inStep.walk rounds n
  obtain ⟨hexpr, hstmt⟩ := Steps.plain_walk rounds n
  rw [hexpr] at heval
  rw [hstmt] at hexec
  exact ⟨fun ctx => heval (p := ()) rfl, fun ctx => hexec (p := ()) rfl⟩

theorem runsLike_program (limits : Limits) (ctx : Context) (ss : List ResolvedStmt) (last : Value) :
    RunsLike (Stateful.program limits ss last) ctx (Eval.program limits ctx ss last) := by
  rw [← Steps.plain_program]
  exact inStep.program limits ctx rfl ss last

/-- If the computation comes to its end, it leaves the environment and the stack
    of calls as it found them. -/
def KeepsRegisters {α : Type} (x : Stateful α) : Prop :=
  ∀ r a r', x r = .ok a r' → r'.env = r.env ∧ r'.frames = r.frames

theorem RunsLike.keepsRegisters {α : Type} {x : Stateful α} {y : Context → Eval α}
    (h : ∀ ctx, RunsLike x ctx (y ctx)) : KeepsRegisters x := by
  intro r a r' hx
  have hstep := h ⟨r.env, r.frames⟩ r rfl rfl
  rw [hx] at hstep
  generalize y ⟨r.env, r.frames⟩ r.machine = out at hstep
  cases hstep with
  | ok _ => exact ⟨rfl, rfl⟩

end Treewalk
