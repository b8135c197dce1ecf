import Treewalk.Machine.Operators

/-! # Evaluation

    Expressions and statements are evaluated by walking their trees.  The walk
    counts down how deeply it may still nest, and every loop how often it may
    still go round, so it always ends; running out of either is a fault of its
    own. -/

namespace Treewalk

/-- How a statement ends. -/
inductive Completion (ρ : Type := Distance) where
  /-- The next statement follows. -/
  | normal
  /-- A `return` was met: the enclosing function ends with this value. -/
  | returned (v : Value ρ)

/-- The value of a function whose body ends this way. -/
def Completion.value {ρ : Type} : Completion ρ → Value ρ
  | .normal => .nil
  | .returned v => v

namespace Eval

/-! ### Sequences and loops -/

section Sequences

variable {ρ : Type} {M : Type → Type} [Monad M]

/-- Evaluates some expressions from left to right. -/
def inOrder (eval : Expr ρ → M (Value ρ)) : List (Expr ρ) → M (List (Value ρ))
  | [] => pure []
  | e :: es => do
    let v ← eval e
    let vs ← inOrder eval es
    pure (v :: vs)

/-- Executes some statements in order, up to the first that returns. -/
def sequence (exec : Stmt ρ → M (Completion ρ)) : List (Stmt ρ) → M (Completion ρ)
  | [] => pure .normal
  | s :: ss => do
    match ← exec s with
    | .normal => sequence exec ss
    | .returned v => pure (.returned v)

/-- Executes a body as long as a condition holds and the body does not return.  What
    happens when no round is left is given. -/
def whileLoop (spent : M (Completion ρ)) (condition : M (Value ρ)) (body : M (Completion ρ)) :
    Nat → M (Completion ρ)
  | 0 => spent
  | n + 1 => do
    if (← condition).truthy then
      match ← body with
      | .normal => whileLoop spent condition body n
      | .returned v => pure (.returned v)
    else pure .normal

end Sequences

/-! ### Calls -/

/-- Binds parameters to arguments in the innermost scope. -/
def bindParams {ρ : Type} (env : Env) : List String → List (Value ρ) → EvalOn ρ Unit
  | p :: ps, v :: vs => do
    define env p v
    bindParams env ps vs
  | _, _ => pure ()

/-- Runs a function on its arguments.  An initializer yields its receiver. -/
def runClosure (exec : Context → ResolvedStmt → Eval Completion) (frames : List Frame)
    (closure : Closure) (args : List Value) : Eval Value := do
  let env ← openScope closure.env
  bindParams env closure.params args
  let completion ← sequence (exec ⟨env, frames⟩) closure.body
  if closure.isInitializer then
    let store ← readStore
    access ⟨env, frames⟩ (store.getAt closure.env 0 Keyword.thisWord.text)
  else pure completion.value

/-- Makes an instance of a class and runs its initializer, if it has one. -/
def instantiate (exec : Context → ResolvedStmt → Eval Completion) (frames : List Frame)
    (definition : Class) (args : List Value) : Eval Value := do
  let id ← updateStore (·.newObject)
  let object : Value := .object id definition
  match definition.initializer? with
  | some method =>
    let bound ← bindMethod method object
    let _ ← runClosure exec frames bound args
    pure object
  | none => pure object

/-- What a value does when it is called. -/
structure Callable where
  /-- The name its calls have in a stack trace. -/
  name : String
  /-- The number of arguments it takes. -/
  arity : Nat
  /-- Runs it, with the active calls, on its arguments. -/
  run : List Frame → List Value → Eval Value

/-- The name of calls to functions without one. -/
def anonymous : String := Keyword.funWord.text

/-- What a value does when it is called, if it can be. -/
def callable? (exec : Context → ResolvedStmt → Eval Completion) : Value → Option Callable
  | .native _ .clock =>
    some ⟨Native.clock.name, Native.clock.arity, fun _ _ => Value.number <$> readClock⟩
  | .function _ closure =>
    some ⟨closure.name.getD anonymous, closure.arity, fun frames => runClosure exec frames closure⟩
  | .cls _ definition =>
    some ⟨definition.name, definition.arity, fun frames => instantiate exec frames definition⟩
  | _ => none

/-- Calls a value.  The call is active from when its arguments are found to fit
    until it yields a value. -/
def apply (exec : Context → ResolvedStmt → Eval Completion) (ctx : Context) (line : Int)
    (callee : Value) (args : List Value) : Eval Value :=
  match callable? exec callee with
  | none => fail ctx .notCallable line
  | some callable =>
    if args.length = callable.arity then callable.run (⟨callable.name, line⟩ :: ctx.frames) args
    else fail ctx (.wrongArity callable.arity args.length) line

/-! ### Declarations -/

/-- The closure of a declared function. -/
def closureOf {ρ : Type} (env : Env) (decl : FunDecl ρ) (isInitializer : Bool) : Closure ρ :=
  { name := some decl.name.text
    params := decl.params.map (·.text)
    body := decl.body
    env, isInitializer }

/-- The methods of a class declaration; of two with one name the later counts. -/
def methodTable {ρ : Type} (env : Env) (methods : List (FunDecl ρ)) : Table (Closure ρ) :=
  methods.foldl
    (fun t m => t.insert m.name.text (closureOf env m (m.name.text == initializerName)))
    Table.empty

/-- The class that a superclass expression stands for. -/
def superclassOf {ρ : Type} (ctx : Context) (name : Name) : Value ρ → EvalOn ρ (Nat × Class ρ)
  | .cls id definition => pure (id, definition)
  | _ => fail ctx .superclassNotClass name.line

/-- Creates a class and binds its name.  The methods of a class with a
    superclass see `super` in a scope of their own. -/
def declareClass {ρ : Type} (ctx : Context) (name : Name) (superclass : Option (Name × Distance))
    (methods : List (FunDecl ρ)) : EvalOn ρ Unit := do
  match superclass with
  | none =>
    define ctx.env name.text .nil
    let id ← updateStore (·.identity)
    define ctx.env name.text (.cls id (.mk name.text none (methodTable ctx.env methods)))
  | some (superName, use) =>
    let v ← lookUp ctx superName use
    let (superId, superDefinition) ← superclassOf ctx superName v
    define ctx.env name.text .nil
    let env ← openScope ctx.env
    define env Keyword.superWord.text (.cls superId superDefinition)
    let id ← updateStore (·.identity)
    define ctx.env name.text
      (.cls id (.mk name.text (some superDefinition) (methodTable env methods)))

/-! ### The walk -/

mutual

/-- Evaluates an expression. -/
def expr (rounds : Nat) : Nat → Context → ResolvedExpr → Eval Value
  | 0, ctx, _ => abort ctx .overflow
  | n + 1, ctx, e =>
    match e with
    | .literal value => pure value.value
    | .group inner => expr rounds n ctx inner
    | .unary op line operand => do
      let v ← expr rounds n ctx operand
      operator ctx line (op.apply v)
    | .binary op line left right => do
      let a ← expr rounds n ctx left
      let b ← expr rounds n ctx right
      operator ctx line (op.apply a b)
    | .logical op _ left right => do
      let v ← expr rounds n ctx left
      if op.decided v then pure v else expr rounds n ctx right
    | .variable name use => lookUp ctx name use
    | .assign name use value => do
      let v ← expr rounds n ctx value
      assignTo ctx name use v
      pure v
    | .call callee arguments line => do
      let f ← expr rounds n ctx callee
      let args ← inOrder (expr rounds n ctx) arguments
      apply (stmt rounds n) ctx line f args
    | .get object name => do
      let v ← expr rounds n ctx object
      getProperty ctx v name
    | .set object name value => do
      let o ← expr rounds n ctx object
      match o with
      | .object id _ =>
        let v ← expr rounds n ctx value
        modifyStore (·.setField id name.text v)
        pure v
      | _ => fail ctx .noFields name.line
    | .this line use => lookUp ctx ⟨Keyword.thisWord.text, line⟩ use
    | .super _ use method => getSuper ctx use method
    | .lambda _ params body => newFunction ⟨none, params.map (·.text), body, ctx.env, false⟩

/-- Executes a statement. -/
def stmt (rounds : Nat) : Nat → Context → ResolvedStmt → Eval Completion
  | 0, ctx, _ => abort ctx .overflow
  | n + 1, ctx, s =>
    match s with
    | .expression e => do
      let _ ← expr rounds n ctx e
      pure .normal
    | .print e => do
      let v ← expr rounds n ctx e
      printLine v.text
      pure .normal
    | .var name initial => do
      let v ← match initial with
        | some e => expr rounds n ctx e
        | none => pure .nil
      define ctx.env name.text v
      pure .normal
    | .block body => do
      let env ← openScope ctx.env
      sequence (stmt rounds n { ctx with env }) body
    | .branch condition onTrue onFalse => do
      if (← expr rounds n ctx condition).truthy then stmt rounds n ctx onTrue
      else
        match onFalse with
        | some s => stmt rounds n ctx s
        | none => pure .normal
    | .loop condition body =>
      whileLoop (abort ctx .endless) (expr rounds n ctx condition) (stmt rounds n ctx body) rounds
    | .function decl => do
      let f ← newFunction (closureOf ctx.env decl false)
      define ctx.env decl.name.text f
      pure .normal
    | .ret _ value => do
      let v ← match value with
        | some e => expr rounds n ctx e
        | none => pure .nil
      pure (.returned v)
    | .classDecl name superclass methods => do
      declareClass ctx name superclass methods
      pure .normal

end

/-! ### Programs -/

/-- Runs the statements of a program in order.  Yields the value of the last one
    if it is an expression. -/
def program (limits : Limits) (ctx : Context) : List ResolvedStmt → Value → Eval Value
  | [], last => pure last
  | s :: ss, _ => do
    match s with
    | .expression e =>
      let v ← expr limits.rounds limits.nesting ctx e
      program limits ctx ss v
    | s =>
      let _ ← stmt limits.rounds limits.nesting ctx s
      program limits ctx ss .nil

end Eval

end Treewalk
