import Treewalk.Text.Lines
import Treewalk.Value.Store

/-! # The machine

    The state of a running program, the ways a run can be cut short, and the
    elementary steps.  A step that fails leaves the state as far as the run
    got. -/

namespace Treewalk

/-! ### Faults -/

/-- Mistakes of a program that show only when it runs. -/
inductive RuntimeIssue where
  | undefinedVariable (name : String)
  | undefinedProperty (name : String)
  | addOperands
  | numberOperands
  | numberOperand
  | divisionByZero
  | notCallable
  | wrongArity (expected actual : Nat)
  | noProperties
  | noFields
  | superclassNotClass
deriving DecidableEq, Repr

/-- The wording of an issue. -/
def RuntimeIssue.message : RuntimeIssue → String
  | .undefinedVariable name => "Undefined variable '" ++ name ++ "'."
  | .undefinedProperty name => "Undefined property '" ++ name ++ "'."
  | .addOperands => "Operands must be two numbers or two strings."
  | .numberOperands => "Operands must be numbers."
  | .numberOperand => "Operand must be a number."
  | .divisionByZero => "Division by zero."
  | .notCallable => "Can only call functions and classes."
  | .wrongArity expected actual =>
    "Expected " ++ toString expected ++ " arguments but got " ++ toString actual ++ "."
  | .noProperties => "Only instances have properties."
  | .noFields => "Only instances have fields."
  | .superclassNotClass => "Superclass must be a class."

/-- Why a run is cut short. -/
inductive Fault where
  /-- A mistake of the program, on a line. -/
  | issue (issue : RuntimeIssue) (line : Int)
  /-- Evaluation is nested too deeply. -/
  | overflow
  /-- A local variable is read before its declaration is complete. -/
  | unset (name : String)
  /-- The tree is none that resolution yields. -/
  | malformed
  /-- A loop goes round more often than is looked at. -/
  | endless
deriving DecidableEq, Repr

/-- An active call: the name of what is called, and the line of the call. -/
structure Frame where
  /-- The function or class; `fun` for a function without a name. -/
  name : String
  /-- The line of the closing parenthesis of the call. -/
  line : Int
deriving DecidableEq, Repr

/-- A fault together with the calls that were active, innermost first. -/
structure Abort where
  /-- What went wrong. -/
  fault : Fault
  /-- The active calls, innermost first. -/
  frames : List Frame
deriving DecidableEq, Repr

/-! ### State -/

/-- The state of a running program, with the notes that uses of names carry in its code. -/
structure Machine (ρ : Type := Distance) where
  /-- Bindings and fields. -/
  store : Store (Value ρ)
  /-- The lines printed so far. -/
  printed : Array String
  /-- What the clock shows each time it is read. -/
  clock : Nat → Float
  /-- How often the clock was read. -/
  readings : Nat

/-- The state before the first program, with a clock. -/
def Machine.initial {ρ : Type} (clock : Nat → Float) : Machine ρ := ⟨.initial, #[], clock, 0⟩

/-- The text printed so far. -/
def Machine.output {ρ : Type} (m : Machine ρ) : String := Text.unlines m.printed.toList

/-- A computation on a machine with such notes. -/
abbrev EvalOn (ρ α : Type) := EStateM Abort (Machine ρ) α

/-- A computation on the machine. -/
abbrev Eval (α : Type) := EvalOn Distance α

/-- Where evaluation stands: the visible scopes and the active calls. -/
structure Context where
  /-- The visible scopes, innermost first. -/
  env : Env
  /-- The active calls, innermost first. -/
  frames : List Frame

/-- Bounds on a run. -/
structure Limits where
  /-- How deeply evaluation may nest. -/
  nesting : Nat
  /-- How many rounds of one loop are looked at. -/
  rounds : Nat

namespace Eval

variable {ρ : Type}

/-! ### Elementary steps -/

/-- Cuts the run short. -/
def abort {α : Type} (ctx : Context) (fault : Fault) : EvalOn ρ α :=
  throw ⟨fault, ctx.frames⟩

/-- Cuts the run short because of a mistake of the program. -/
def fail {α : Type} (ctx : Context) (issue : RuntimeIssue) (line : Int) : EvalOn ρ α :=
  abort ctx (.issue issue line)

/-- Reads the store. -/
def readStore : EvalOn ρ (Store (Value ρ)) := fun m => .ok m.store m

/-- Changes the store. -/
def modifyStore (f : Store (Value ρ) → Store (Value ρ)) : EvalOn ρ Unit := fun m =>
  .ok () { m with store := f m.store }

/-- Changes the store and yields what the change yields. -/
def updateStore {α : Type} (f : Store (Value ρ) → α × Store (Value ρ)) : EvalOn ρ α := fun m =>
  let (a, store) := f m.store
  .ok a { m with store }

/-- Prints a line. -/
def printLine (line : String) : EvalOn ρ Unit := fun m =>
  .ok () { m with printed := m.printed.push line }

/-- Reads the clock. -/
def readClock : EvalOn ρ Float := fun m =>
  .ok (m.clock m.readings) { m with readings := m.readings + 1 }

/-- Yields the result of an access, or cuts the run short. -/
def access {α : Type} (ctx : Context) : Except AccessFault α → EvalOn ρ α
  | .ok a => pure a
  | .error (.unbound name) => abort ctx (.unset name)
  | .error .beyondGlobal => abort ctx .malformed

/-- Opens an empty scope inside an environment. -/
def openScope (env : Env) : EvalOn ρ Env := updateStore (·.extend env)

/-- Binds a name in the innermost scope. -/
def define (env : Env) (name : String) (v : Value ρ) : EvalOn ρ Unit :=
  modifyStore (·.define env name v)

/-! ### Variables -/

/-- The value of a use of a name: at its distance, or else among the globals. -/
def lookUp (ctx : Context) (name : Name) (use : Distance) : EvalOn ρ (Value ρ) := do
  let store ← readStore
  match use with
  | some d => access ctx (store.getAt ctx.env d name.text)
  | none =>
    match store.lookup? globalEnv name.text with
    | some v => pure v
    | none => fail ctx (.undefinedVariable name.text) name.line

/-- The scope that an assignment to a use of a name changes: the one at its
    distance, or else the global one if it binds the name. -/
def targetScope (ctx : Context) (name : Name) (use : Distance) : EvalOn ρ ScopeId := do
  match use with
  | some d => access ctx (Store.scopeAt ctx.env d)
  | none =>
    match (← readStore).owner? globalEnv name.text with
    | some scope => pure scope
    | none => fail ctx (.undefinedVariable name.text) name.line

/-- Assigns to a use of a name. -/
def assignTo (ctx : Context) (name : Name) (use : Distance) (v : Value ρ) : EvalOn ρ Unit := do
  let scope ← targetScope ctx name use
  modifyStore (·.bind scope name.text v)

/-! ### Functions and objects -/

/-- A new function value. -/
def newFunction (closure : Closure ρ) : EvalOn ρ (Value ρ) := do
  let id ← updateStore (·.identity)
  pure (.function id closure)

/-- A copy of a method in whose environment `this` is the receiver. -/
def bindMethod (method : Closure ρ) (receiver : Value ρ) : EvalOn ρ (Closure ρ) := do
  let env ← openScope method.env
  define env Keyword.thisWord.text receiver
  pure { method with env }

/-- A new function that is a method bound to a receiver, or a failure if there is
    no such method. -/
def boundMethod (ctx : Context) (name : Name) (receiver : Value ρ) :
    Option (Closure ρ) → EvalOn ρ (Value ρ)
  | some method => do newFunction (← bindMethod method receiver)
  | none => fail ctx (.undefinedProperty name.text) name.line

/-- A property of an object: its field of that name, else its method of that
    name bound to it. -/
def getProperty (ctx : Context) (object : Value ρ) (name : Name) : EvalOn ρ (Value ρ) := do
  match object with
  | .object id definition =>
    let store ← readStore
    match (store.fields id).find? name.text with
    | some v => pure v
    | none => boundMethod ctx name object (definition.findMethod? name.text)
  | _ => fail ctx .noProperties name.line

/-- A method of the superclass, bound to the receiver.  The scope that binds
    `this` lies directly inside the one that binds `super`. -/
def getSuper (ctx : Context) (use : Distance) (method : Name) : EvalOn ρ (Value ρ) := do
  match use with
  | none => abort ctx .malformed
  | some d =>
    let store ← readStore
    let superclass ← access ctx (store.getAt ctx.env d Keyword.superWord.text)
    let receiver ← access ctx (store.getAt ctx.env (d - 1) Keyword.thisWord.text)
    match superclass with
    | .cls _ definition => boundMethod ctx method receiver (definition.findMethod? method.text)
    | _ => abort ctx .malformed

end Eval

end Treewalk
