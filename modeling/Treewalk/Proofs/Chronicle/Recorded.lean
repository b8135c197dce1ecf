import Treewalk.Proofs.Watched

/-! # Recorded evaluation

    Evaluation with a chronicle: which expressions it takes up and in what state,
    which calls pass their checks and which have returned, and what it adds to the
    store, namely scopes, bound methods, classes and objects.  A record is only
    written, so that a recorded run without its chronicle is the run itself
    (`records_program`), and what holds of every chronicle holds of every run. -/

namespace Treewalk

/-! ### Class declarations -/

/-- A class declaration as it stands in a program. -/
structure ClassText where
  /-- The declared name. -/
  name : Name
  /-- The use of the name of the superclass, if there is one. -/
  superclass : Option (Name × Distance)
  /-- The methods in order. -/
  methods : List ResolvedFun

/-- The statement that declares a class. -/
def ClassText.statement (text : ClassText) : ResolvedStmt :=
  .classDecl text.name text.superclass text.methods

/-- What the superclass of a declaration was when the class was created. -/
structure Superclass where
  /-- Its identity. -/
  id : Nat
  /-- The class itself. -/
  definition : Class
  /-- The scope in which the methods of the new class see it. -/
  scope : ScopeId

/-- The environment of the methods of a class that is declared in an environment. -/
def methodEnv (env : Env) : Option Superclass → Env
  | none => env
  | some superclass => superclass.scope :: env

/-- A method of a class before it is bound to a receiver. -/
def methodClosure (env : Env) (decl : ResolvedFun) : Closure :=
  Eval.closureOf env decl (decl.name.text == initializerName)

/-- The class that a declaration in an environment creates. -/
def ClassText.definition (text : ClassText) (env : Env) (superclass : Option Superclass) : Class :=
  .mk text.name.text (superclass.map (·.definition))
    (Eval.methodTable (methodEnv env superclass) text.methods)

/-! ### Records -/

/-- What a run does. -/
inductive Record where
  /-- It takes up an expression, in the state as it is then. -/
  | evaluates (ctx : Context) (e : ResolvedExpr) (machine : Machine)
  /-- A call, with a number of its own, has passed its checks. -/
  | calls (number : Nat) (callee : Value) (args : List Value) (line : Int)
  /-- The call of that number yields its value. -/
  | returns (number : Nat) (value : Value)
  /-- It adds an empty scope inside an environment. -/
  | opens (scope : ScopeId) (outer : Env)
  /-- It binds a method to a receiver, as `this` in a new scope. -/
  | binds (scope : ScopeId) (method : Closure) (receiver : Value)
  /-- It creates a class from a declaration in an environment. -/
  | creates (id : Nat) (env : Env) (text : ClassText) (superclass : Option Superclass)
  /-- It makes an instance of the class of that identity. -/
  | makes (object cls : Nat)

/-- The records so far, newest first. -/
abbrev Chronicle := List Record

/-- A call has passed its checks. -/
def Record.isCall : Record → Bool
  | .calls _ _ _ _ => true
  | _ => false

/-- The number of calls so far. -/
def callCount (h : Chronicle) : Nat := h.countP Record.isCall

/-- A computation on the machine with a chronicle. -/
abbrev Recorded := EStateM Abort (Machine × Chronicle)

namespace Recorded

variable {α : Type}

/-- A computation on the machine that records nothing. -/
def lift (x : Eval α) : Recorded α := fun s =>
  match x s.1 with
  | .ok a m => .ok a (m, s.2)
  | .error e m => .error e (m, s.2)

/-- Writes a record. -/
def note (record : Record) : Recorded Unit := fun s => .ok () (s.1, record :: s.2)

/-- Records that an expression is taken up. -/
def takeUp (ctx : Context) (e : ResolvedExpr) : Recorded Unit := fun s =>
  .ok () (s.1, .evaluates ctx e s.1 :: s.2)

/-- Adds an empty scope inside an environment. -/
def newScope (env : Env) : Recorded ScopeId := fun s =>
  let scope := s.1.store.scopes.size
  .ok scope ({ s.1 with store := (s.1.store.extend env).2 }, .opens scope env :: s.2)

/-- The number of the next call. -/
def nextCall : Recorded Nat := fun s => .ok (callCount s.2) s

/-- Does something as a call that has passed its checks. -/
def calling (callee : Value) (args : List Value) (line : Int) (x : Recorded Value) :
    Recorded Value := do
  let number ← nextCall
  note (.calls number callee args line)
  let v ← x
  note (.returns number v)
  pure v

/-! ### Functions and objects -/

/-- A copy of a method in whose environment `this` is the receiver. -/
def bindMethod (method : Closure) (receiver : Value) : Recorded Closure := do
  let scope ← newScope method.env
  lift (Eval.define (scope :: method.env) Keyword.thisWord.text receiver)
  note (.binds scope method receiver)
  pure { method with env := scope :: method.env }

/-- A new function that is a method bound to a receiver, or a failure if there is
    no such method. -/
def boundMethod (ctx : Context) (name : Name) (receiver : Value) : Option Closure → Recorded Value
  | some method => do
    let bound ← bindMethod method receiver
    lift (Eval.newFunction bound)
  | none => lift (Eval.fail ctx (.undefinedProperty name.text) name.line)

/-- A property of an object. -/
def getProperty (ctx : Context) (object : Value) (name : Name) : Recorded Value := do
  match object with
  | .object id definition =>
    let store ← lift Eval.readStore
    match (store.fields id).find? name.text with
    | some v => pure v
    | none => boundMethod ctx name object (definition.findMethod? name.text)
  | _ => lift (Eval.fail ctx .noProperties name.line)

/-- A method of the superclass, bound to the receiver. -/
def getSuper (ctx : Context) (use : Distance) (method : Name) : Recorded Value := do
  match use with
  | none => lift (Eval.abort ctx .malformed)
  | some d =>
    let store ← lift Eval.readStore
    let superclass ← lift (Eval.access ctx (store.getAt ctx.env d Keyword.superWord.text))
    let receiver ← lift (Eval.access ctx (store.getAt ctx.env (d - 1) Keyword.thisWord.text))
    match superclass with
    | .cls _ definition => boundMethod ctx method receiver (definition.findMethod? method.text)
    | _ => lift (Eval.abort ctx .malformed)

/-! ### Calls -/

/-- Runs the body of a function on its arguments. -/
def body (frames : List Frame) (closure : Closure) (args : List Value)
    (run : Context → Recorded Completion) : Recorded Value := do
  let scope ← newScope closure.env
  lift (Eval.bindParams (scope :: closure.env) closure.params args)
  let completion ← run ⟨scope :: closure.env, frames⟩
  if closure.isInitializer then
    let store ← lift Eval.readStore
    lift (Eval.access ⟨scope :: closure.env, frames⟩
      (store.getAt closure.env 0 Keyword.thisWord.text))
  else pure completion.value

/-! ### Declarations -/

/-- Creates a class from its declaration and binds its name to it. -/
def createClass (env : Env) (text : ClassText) (superclass : Option Superclass) :
    Recorded Unit := do
  let id ← lift (Eval.updateStore (·.identity))
  note (.creates id env text superclass)
  lift (Eval.define env text.name.text (.cls id (text.definition env superclass)))

/-- Executes a class declaration. -/
def declareClass (ctx : Context) (text : ClassText) : Recorded Unit := do
  match text.superclass with
  | none =>
    lift (Eval.define ctx.env text.name.text .nil)
    createClass ctx.env text none
  | some (superName, use) =>
    let v ← lift (Eval.lookUp ctx superName use)
    let (superId, definition) ← lift (Eval.superclassOf ctx superName v)
    lift (Eval.define ctx.env text.name.text .nil)
    let scope ← newScope ctx.env
    lift (Eval.define (scope :: ctx.env) Keyword.superWord.text (.cls superId definition))
    createClass ctx.env text (some ⟨superId, definition, scope⟩)

/-! ### The steps -/

/-- Records that an expression is taken up. -/
def onMoment (ctx : Context) (moment : Moment Distance) (x : Recorded α) : Recorded α :=
  match moment with
  | .evaluates e => do
    takeUp ctx e
    x
  | _ => x

/-- The steps of evaluation with a chronicle. -/
def steps : Steps Distance Context (List Frame) Recorded where
  depth := id
  note := onMoment
  step ctx x := lift (x ctx)
  getProperty := getProperty
  getSuper := getSuper
  declareClass ctx name superclass methods := declareClass ctx ⟨name, superclass, methods⟩
  block ctx run := do
    let scope ← newScope ctx.env
    run { ctx with env := scope :: ctx.env }
  call ctx frame callee args run := calling callee args frame.line (run (frame :: ctx.frames))
  readClock _ := Value.number <$> lift Eval.readClock
  newObject _ cls setUp := do
    let id ← lift (Eval.updateStore (·.newObject))
    note (.makes id cls)
    setUp id
  bindMethod _ := bindMethod
  body := body

end Recorded

/-! ### Without the chronicle -/

/-- The outcome of a run without its chronicle. -/
def unrecorded {α : Type} :
    EStateM.Result Abort (Machine × Chronicle) α → EStateM.Result Abort Machine α
  | .ok a s => .ok a s.1
  | .error e s => .error e s.1

/-- The chronicle at the end of a run. -/
def chronicleOf {α : Type} : EStateM.Result Abort (Machine × Chronicle) α → Chronicle
  | .ok _ s => s.2
  | .error _ s => s.2

/-- The one computation does what the other does, and records it. -/
def Records {α : Type} (x : Recorded α) (y : Eval α) : Prop :=
  ∀ m h, unrecorded (x (m, h)) = y m

namespace Records

variable {α β : Type} {x : Recorded α} {y : Eval α}

theorem pure {a : α} : Records (pure a) (pure a) :=
  fun _ _ => rfl

theorem bind {f : α → Recorded β} {g : α → Eval β} (hx : Records x y)
    (hf : ∀ a, Records (f a) (g a)) : Records (x >>= f) (y >>= g) := by
  intro m h
  have hstep := hx m h
  cases hrun : x (m, h) with
  | ok a s =>
    rw [hrun] at hstep
    rw [bind_of_ok hrun, bind_of_ok hstep.symm]
    exact hf a s.1 s.2
  | error e s =>
    rw [hrun] at hstep
    rw [bind_of_error hrun, bind_of_error hstep.symm]
    rfl

theorem map (f : α → β) (hx : Records x y) : Records (f <$> x) (f <$> y) := by
  rw [← bind_pure_comp, ← bind_pure_comp]
  exact hx.bind fun _ => .pure

theorem lift (x : Eval α) : Records (Recorded.lift x) x := by
  intro m h
  unfold Recorded.lift
  cases x m <;> rfl

theorem after_note {record : Record} {f : Unit → Recorded α} (hf : Records (f ()) y) :
    Records (Recorded.note record >>= f) y :=
  fun m h => hf m (record :: h)

theorem after_takeUp {ctx : Context} {e : ResolvedExpr} {f : Unit → Recorded α}
    (hf : Records (f ()) y) : Records (Recorded.takeUp ctx e >>= f) y :=
  fun m h => hf m (.evaluates ctx e m :: h)

theorem inNewScope {env : Env} {f : ScopeId → Recorded α} {g : Env → Eval α}
    (hf : ∀ scope, Records (f scope) (g (scope :: env))) :
    Records (Recorded.newScope env >>= f) (Eval.openScope env >>= g) :=
  fun m h => hf m.store.scopes.size { m with store := (m.store.extend env).2 }
    (.opens m.store.scopes.size env :: h)

theorem calling {x : Recorded Value} {y : Eval Value} (hx : Records x y) (callee : Value)
    (args : List Value) (line : Int) : Records (Recorded.calling callee args line x) y := by
  intro m h
  have hcall := hx.bind
    (f := fun v => Recorded.note (.returns (callCount h) v) >>= fun _ => Pure.pure v)
    (g := Pure.pure) (fun v => .after_note .pure) m (.calls (callCount h) callee args line :: h)
  rw [bind_pure] at hcall
  exact hcall

end Records

/-! ### Functions and objects -/

theorem records_bindMethod (method : Closure) (receiver : Value) :
    Records (Recorded.bindMethod method receiver) (Eval.bindMethod method receiver) :=
  .inNewScope fun _ => .bind (.lift _) fun _ => .after_note .pure

theorem records_boundMethod (ctx : Context) (name : Name) (receiver : Value)
    (found : Option Closure) :
    Records (Recorded.boundMethod ctx name receiver found)
      (Eval.boundMethod ctx name receiver found) := by
  cases found with
  | some method => exact .bind (records_bindMethod method receiver) fun _ => .lift _
  | none => exact .lift (Eval.fail ctx (.undefinedProperty name.text) name.line)

theorem records_getProperty (ctx : Context) (object : Value) (name : Name) :
    Records (Recorded.getProperty ctx object name) (Eval.getProperty ctx object name) := by
  cases object with
  | object id definition =>
    refine .bind (.lift _) fun store => ?_
    cases (store.fields id).find? name.text with
    | some v => exact .pure
    | none => exact records_boundMethod ctx name _ (definition.findMethod? name.text)
  | _ => exact .lift (Eval.fail ctx .noProperties name.line)

theorem records_getSuper (ctx : Context) (use : Distance) (method : Name) :
    Records (Recorded.getSuper ctx use method) (Eval.getSuper ctx use method) := by
  cases use with
  | none => exact .lift (Eval.abort ctx .malformed)
  | some d =>
    refine .bind (.lift _) fun store => .bind (.lift _) fun superclass => ?_
    refine .bind (.lift _) fun receiver => ?_
    cases superclass with
    | cls id definition =>
      exact records_boundMethod ctx method receiver (definition.findMethod? method.text)
    | _ => exact .lift (Eval.abort ctx .malformed)

/-! ### Calls -/

theorem records_body {frames : List Frame} {x : Context → Recorded Completion}
    {y : Context → Eval Completion} (closure : Closure) (args : List Value)
    (hrun : ∀ ctx, Records (x ctx) (y ctx)) :
    Records (Recorded.body frames closure args x) ((Steps.plain id).body frames closure args y) := by
  refine .inNewScope fun scope => .bind (.lift _) fun _ => ?_
  refine .bind (hrun _) fun completion => ?_
  cases closure.isInitializer with
  | true => exact .bind (.lift _) fun store => .lift _
  | false => exact .pure

/-! ### Declarations -/

theorem records_createClass (env : Env) (text : ClassText) (superclass : Option Superclass) :
    Records (Recorded.createClass env text superclass)
      (do
        let id ← Eval.updateStore (·.identity)
        Eval.define env text.name.text (.cls id (text.definition env superclass))) :=
  .bind (.lift _) fun _ => .after_note (.lift _)

theorem records_declareClass (ctx : Context) (text : ClassText) :
    Records (Recorded.declareClass ctx text)
      (Eval.declareClass ctx text.name text.superclass text.methods) := by
  unfold Recorded.declareClass Eval.declareClass
  cases hsuper : text.superclass with
  | none => exact .bind (.lift _) fun _ => records_createClass ctx.env text none
  | some superclass =>
    obtain ⟨superName, use⟩ := superclass
    refine .bind (.lift _) fun v => .bind (.lift _) fun found => ?_
    refine .bind (.lift _) fun _ => .inNewScope fun scope => .bind (.lift _) fun _ => ?_
    exact records_createClass ctx.env text (some ⟨found.1, found.2, scope⟩)

/-- Step by step, evaluation with a chronicle is evaluation. -/
def recording : Simulation Recorded.steps (Steps.plain id) Unit where
  Stands ctx ctx' _ := ctx = ctx'
  Calls frames frames' _ := frames = frames'
  Rel _ := Records
  depth := rfl
  pure := .pure
  bind := .bind
  note moment hctx hx := by
    cases moment with
    | evaluates => exact .after_takeUp hx
    | _ => exact hx
  step := by
    rintro α i ctx _ x rfl -
    exact .lift (x ctx)
  getProperty := by
    rintro i ctx _ v name rfl
    exact records_getProperty ctx v name
  getSuper := by
    rintro i ctx _ use method rfl
    exact records_getSuper ctx use method
  declareClass := by
    rintro i ctx _ name superclass methods rfl
    rw [Steps.plain_declareClass]
    exact records_declareClass ctx ⟨name, superclass, methods⟩
  block := by
    rintro i ctx _ x y rfl hrun
    exact .inNewScope fun scope => hrun i rfl
  call := by
    rintro i ctx _ x y frame callee args rfl hrun
    exact (hrun i rfl).calling callee args frame.line
  readClock _ := .map _ (.lift _)
  newObject _ _ hsetUp := .bind (.lift _) fun id => .after_note (hsetUp id)
  bindMethod method receiver _ := records_bindMethod method receiver
  body := by
    rintro i frames _ x y closure args rfl hrun
    exact records_body closure args fun ctx => hrun i rfl

theorem records_program (limits : Limits) (ctx : Context) (ss : List ResolvedStmt) (last : Value) :
    Records (Recorded.steps.program limits ctx ss last) (Eval.program limits ctx ss last) := by
  rw [← Steps.plain_program]
  exact recording.program limits () rfl ss last

end Treewalk
