import Treewalk.Machine.Eval

/-! # Walks

    The walk over a program, apart from what is done at each step.  The steps of a
    walk say how names are looked up, how a scope is opened, how a call is made and
    how a body is run; they may also look at what the walk comes to, and keep a log
    of it.  With the plain steps the walk is evaluation (`plain_program`). -/

namespace Treewalk

/-! ### Steps -/

/-- What a walk comes to. -/
inductive Moment (ρ : Type) where
  /-- An expression is taken up. -/
  | evaluates (e : Expr ρ)
  /-- A statement is taken up. -/
  | executes (s : Stmt ρ)
  /-- The declaration of a variable is complete. -/
  | declares (name : Name)
  /-- A `return` statement has its value. -/
  | returns (v : Value ρ)
  /-- A statement at top level has come to its end. -/
  | settles (completion : Completion ρ)

/-- The name and the number of arguments of what can be called. -/
def Value.signature? {ρ ε : Type} : Value ρ ε → Option (String × Nat)
  | .native _ f => some (f.name, f.arity)
  | .function _ closure => some (closure.name.getD Eval.anonymous, closure.arity)
  | .cls _ definition => some (definition.name, definition.arity)
  | _ => none

/-- What is done at each step of a walk.  Uses of names carry notes of one type; `π`
    is where the walk stands, and `κ` the call that it is about to run. -/
structure Steps (ρ π κ : Type) (M : Type → Type) where
  /-- The distance that is taken from the note of a use. -/
  depth : ρ → Distance
  /-- Does something when the walk comes to a moment. -/
  note {α : Type} (place : π) (moment : Moment ρ) (x : M α) : M α
  /-- An elementary step. -/
  step {α : Type} (place : π) (x : Context → EvalOn ρ α) : M α
  /-- A property of an object. -/
  getProperty (place : π) (object : Value ρ) (name : Name) : M (Value ρ)
  /-- A method of the superclass, bound to the receiver. -/
  getSuper (place : π) (use : Distance) (method : Name) : M (Value ρ)
  /-- Creates a class and binds its name. -/
  declareClass (place : π) (name : Name) (superclass : Option (Name × ρ))
    (methods : List (FunDecl ρ)) : M Unit
  /-- Runs the statements of a block in a scope of their own. -/
  block (place : π) (run : π → M (Completion ρ)) : M (Completion ρ)
  /-- Makes a call that has passed its checks. -/
  call (place : π) (frame : Frame) (callee : Value ρ) (args : List (Value ρ))
    (run : κ → M (Value ρ)) : M (Value ρ)
  /-- What the clock shows. -/
  readClock (call : κ) : M (Value ρ)
  /-- Makes an instance of the class of an identity. -/
  newObject (call : κ) (cls : Nat) (setUp : Nat → M (Value ρ)) : M (Value ρ)
  /-- A copy of a method in whose environment `this` is the receiver. -/
  bindMethod (call : κ) (method : Closure ρ) (receiver : Value ρ) : M (Closure ρ)
  /-- Runs the body of a function on its arguments. -/
  body (call : κ) (closure : Closure ρ) (args : List (Value ρ))
    (run : π → M (Completion ρ)) : M (Value ρ)

namespace Steps

variable {ρ π κ : Type} {M : Type → Type} [Monad M]

variable (S : Steps ρ π κ M)

/-! ### Calls -/

section Calls

variable (exec : π → Stmt ρ → M (Completion ρ))

/-- Runs a function on its arguments. -/
def runClosure (call : κ) (closure : Closure ρ) (args : List (Value ρ)) : M (Value ρ) :=
  S.body call closure args fun place => Eval.sequence (exec place) closure.body

/-- Makes an instance of a class and runs its initializer, if it has one.  The
    initializer is part of the call of the class. -/
def instantiate (call : κ) (cls : Nat) (definition : Class ρ) (args : List (Value ρ)) :
    M (Value ρ) :=
  S.newObject call cls fun id =>
    let object : Value ρ := .object id definition
    match definition.initializer? with
    | some method => do
      let bound ← S.bindMethod call method object
      let _ ← S.runClosure exec call bound args
      pure object
    | none => pure object

/-- Runs a value that is called on its arguments. -/
def run (call : κ) (args : List (Value ρ)) : Value ρ → M (Value ρ)
  | .native _ .clock => S.readClock call
  | .function _ closure => S.runClosure exec call closure args
  | .cls id definition => S.instantiate exec call id definition args
  | _ => pure .nil

/-- Calls a value. -/
def apply (place : π) (line : Int) (callee : Value ρ) (args : List (Value ρ)) : M (Value ρ) :=
  match callee.signature? with
  | none => S.step place fun ctx => Eval.fail ctx .notCallable line
  | some (name, arity) =>
    if args.length = arity then
      S.call place ⟨name, line⟩ callee args fun call => S.run exec call args callee
    else S.step place fun ctx => Eval.fail ctx (.wrongArity arity args.length) line

end Calls

/-! ### The walk -/

section Walk

variable (eval : π → Expr ρ → M (Value ρ)) (exec : π → Stmt ρ → M (Completion ρ))

/-- Evaluates an expression, given how its parts are evaluated. -/
def exprStep (place : π) : Expr ρ → M (Value ρ)
  | .literal value => pure value.value
  | .group inner => eval place inner
  | .unary op line operand => do
    let v ← eval place operand
    S.step place fun ctx => Eval.operator ctx line (op.apply v)
  | .binary op line left right => do
    let a ← eval place left
    let b ← eval place right
    S.step place fun ctx => Eval.operator ctx line (op.apply a b)
  | .logical op _ left right => do
    let v ← eval place left
    if op.decided v then pure v else eval place right
  | .variable name use => S.step place fun ctx => Eval.lookUp ctx name (S.depth use)
  | .assign name use value => do
    let v ← eval place value
    S.step place fun ctx => Eval.assignTo ctx name (S.depth use) v
    pure v
  | .call callee arguments line => do
    let f ← eval place callee
    let args ← Eval.inOrder (eval place) arguments
    S.apply exec place line f args
  | .get object name => do
    let v ← eval place object
    S.getProperty place v name
  | .set object name value => do
    let o ← eval place object
    match o with
    | .object id _ =>
      let v ← eval place value
      S.step place fun _ => Eval.modifyStore (·.setField id name.text v)
      pure v
    | _ => S.step place fun ctx => Eval.fail ctx .noFields name.line
  | .this line use =>
    S.step place fun ctx => Eval.lookUp ctx ⟨Keyword.thisWord.text, line⟩ (S.depth use)
  | .super _ use method => S.getSuper place (S.depth use) method
  | .lambda _ params body =>
    S.step place fun ctx => Eval.newFunction ⟨none, params.map (·.text), body, ctx.env, false⟩

/-- The value of an expression that may be absent. -/
def optional (place : π) : Option (Expr ρ) → M (Value ρ)
  | some e => eval place e
  | none => pure .nil

/-- Executes a statement, given how its parts are evaluated and executed. -/
def stmtStep (rounds : Nat) (place : π) : Stmt ρ → M (Completion ρ)
  | .expression e => do
    let _ ← eval place e
    pure .normal
  | .print e => do
    let v ← eval place e
    S.step place fun _ => Eval.printLine v.text
    pure .normal
  | .var name initial => do
    let v ← optional eval place initial
    S.step place fun ctx => Eval.define ctx.env name.text v
    S.note place (.declares name) (pure .normal)
  | .block body => S.block place fun inner => Eval.sequence (exec inner) body
  | .branch condition onTrue onFalse => do
    if (← eval place condition).truthy then exec place onTrue
    else
      match onFalse with
      | some s => exec place s
      | none => pure .normal
  | .loop condition body =>
    Eval.whileLoop (S.step place fun ctx => Eval.abort ctx .endless) (eval place condition)
      (exec place body) rounds
  | .function decl => do
    let f ← S.step place fun ctx => Eval.newFunction (Eval.closureOf ctx.env decl false)
    S.step place fun ctx => Eval.define ctx.env decl.name.text f
    pure .normal
  | .ret _ value => do
    let v ← optional eval place value
    S.note place (.returns v) (pure (.returned v))
  | .classDecl name superclass methods => do
    S.declareClass place name superclass methods
    pure .normal

end Walk

mutual

/-- Evaluates an expression. -/
def expr (rounds : Nat) : Nat → π → Expr ρ → M (Value ρ)
  | 0, place, _ => S.step place fun ctx => Eval.abort ctx .overflow
  | n + 1, place, e =>
    S.note place (.evaluates e) (S.exprStep (expr rounds n) (stmt rounds n) place e)

/-- Executes a statement. -/
def stmt (rounds : Nat) : Nat → π → Stmt ρ → M (Completion ρ)
  | 0, place, _ => S.step place fun ctx => Eval.abort ctx .overflow
  | n + 1, place, s =>
    S.note place (.executes s) (S.stmtStep (expr rounds n) (stmt rounds n) rounds place s)

end

/-- Runs the statements of a program in order.  Yields the value of the last one if
    it is an expression. -/
def program (limits : Limits) (place : π) : List (Stmt ρ) → Value ρ → M (Value ρ)
  | [], last => pure last
  | s :: ss, _ => do
    match s with
    | .expression e =>
      let v ← S.expr limits.rounds limits.nesting place e
      program limits place ss v
    | s =>
      let completion ← S.stmt limits.rounds limits.nesting place s
      S.note place (.settles completion) (program limits place ss .nil)

/-! ### Plain steps -/

omit [Monad M]

/-- The steps of evaluation, with distances taken from the notes of uses. -/
def plain (depth : ρ → Distance) : Steps ρ Context (List Frame) (EvalOn ρ) where
  depth := depth
  note _ _ x := x
  step ctx x := x ctx
  getProperty := Eval.getProperty
  getSuper := Eval.getSuper
  declareClass ctx name superclass methods :=
    Eval.declareClass ctx name (superclass.map fun (superName, use) => (superName, depth use))
      methods
  block ctx run := do
    let env ← Eval.openScope ctx.env
    run { ctx with env }
  call ctx frame _ _ run := run (frame :: ctx.frames)
  readClock _ := Value.number <$> Eval.readClock
  newObject _ _ setUp := do
    let id ← Eval.updateStore (·.newObject)
    setUp id
  bindMethod _ := Eval.bindMethod
  body frames closure args run := do
    let env ← Eval.openScope closure.env
    Eval.bindParams env closure.params args
    let completion ← run ⟨env, frames⟩
    if closure.isInitializer then
      let store ← Eval.readStore
      Eval.access ⟨env, frames⟩ (store.getAt closure.env 0 Keyword.thisWord.text)
    else pure completion.value

/-! ### Evaluation is a walk -/

theorem plain_declareClass (ctx : Context) (name : Name) (superclass : Option (Name × Distance))
    (methods : List ResolvedFun) : (plain id).declareClass ctx name superclass methods =
      Eval.declareClass ctx name superclass methods := by
  cases superclass <;> rfl

theorem plain_instantiate (exec : Context → ResolvedStmt → Eval Completion) (frames : List Frame)
    (cls : Nat) (definition : Class) (args : List Value) :
    (plain id).instantiate exec frames cls definition args =
      Eval.instantiate exec frames definition args := by
  unfold instantiate Eval.instantiate
  cases definition.initializer? <;> rfl

theorem plain_apply (exec : Context → ResolvedStmt → Eval Completion) (ctx : Context) (line : Int)
    (callee : Value) (args : List Value) :
    (plain id).apply exec ctx line callee args = Eval.apply exec ctx line callee args := by
  cases callee with
  | native id f =>
    cases f
    rfl
  | cls cls definition =>
    have hmake := plain_instantiate exec (⟨definition.name, line⟩ :: ctx.frames) cls definition args
    exact congrArg (fun x => if args.length = definition.arity then x
      else Eval.fail ctx (.wrongArity definition.arity args.length) line) hmake
  | _ => rfl

section Walk

variable (rounds n : Nat)

theorem plain_exprStep (ctx : Context) (e : ResolvedExpr) :
    (plain id).exprStep (Eval.expr rounds n) (Eval.stmt rounds n) ctx e =
      Eval.expr rounds (n + 1) ctx e := by
  cases e with
  | call callee arguments line =>
    refine bind_congr fun f => bind_congr fun args => ?_
    exact plain_apply (Eval.stmt rounds n) ctx line f args
  | set object name value =>
    refine bind_congr fun o => ?_
    cases o <;> rfl
  | _ => rfl

theorem plain_stmtStep (ctx : Context) (s : ResolvedStmt) :
    (plain id).stmtStep (Eval.expr rounds n) (Eval.stmt rounds n) rounds ctx s =
      Eval.stmt rounds (n + 1) ctx s := by
  cases s with
  | var name initial => cases initial <;> rfl
  | ret line value => cases value <;> rfl
  | branch condition onTrue onFalse => cases onFalse <;> rfl
  | classDecl name superclass methods => cases superclass <;> rfl
  | _ => rfl

end Walk

/-- The plain walk is evaluation, however deep. -/
theorem plain_walk (rounds n : Nat) : (plain id).expr rounds n = Eval.expr rounds n ∧
    (plain id).stmt rounds n = Eval.stmt rounds n := by
  induction n with
  | zero => exact ⟨rfl, rfl⟩
  | succ n ih =>
    obtain ⟨heval, hexec⟩ := ih
    refine ⟨funext fun ctx => funext fun e => ?_, funext fun ctx => funext fun s => ?_⟩
    · have hstep := plain_exprStep rounds n ctx e
      rw [← heval, ← hexec] at hstep
      exact hstep
    · have hstep := plain_stmtStep rounds n ctx s
      rw [← heval, ← hexec] at hstep
      exact hstep

theorem plain_program (limits : Limits) (ctx : Context) (ss : List ResolvedStmt) (last : Value) :
    (plain id).program limits ctx ss last = Eval.program limits ctx ss last := by
  obtain ⟨heval, hexec⟩ := plain_walk limits.rounds limits.nesting
  induction ss generalizing last with
  | nil => rfl
  | cons s ss ih =>
    unfold program Eval.program
    cases s <;> simp only [heval, hexec, ih] <;> rfl

end Steps

end Treewalk
