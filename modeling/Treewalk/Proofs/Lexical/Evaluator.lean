import Treewalk.Machine.Operators
import Treewalk.Proofs.Watched

/-! # Lexical evaluation

    A second evaluator, in which scoping is a matter of the text alone.  It runs
    programs as they are parsed: there are no distances and no chains of scopes.
    Every place has an immutable map from the local names it can see to cells,
    and every function keeps the map of the place where it was created.  A local
    declaration extends the map by a fresh cell, for the statements after it and
    for its own initializer, body or methods.  A name that is not in the map is
    looked up in one table of globals when it is used. -/

namespace Treewalk.Lexical

/-! ### State -/

/-- The number of a cell. -/
abbrev Cell := Nat

/-- The local names that a place can see, with their cells; of two with one name
    the first counts. -/
abbrev Names := List (String × Cell)

/-- Values whose functions keep maps of names and unresolved code. -/
abbrev LValue := Value Unit Names

/-- Functions that keep maps of names and unresolved code. -/
abbrev LClosure := Closure Unit Names

/-- Classes whose methods keep maps of names and unresolved code. -/
abbrev LClass := Class Unit Names

/-- The state of a running program. -/
structure State where
  /-- What each cell holds; nothing before the declaration is complete. -/
  cells : Array (Option LValue)
  /-- The globals. -/
  globals : Table LValue
  /-- The fields of each object. -/
  objects : Array (Table LValue)
  /-- The next identity to give out. -/
  fresh : Nat
  /-- The lines printed so far. -/
  printed : Array String
  /-- What the clock shows each time it is read. -/
  clock : Nat → Float
  /-- How often the clock was read. -/
  readings : Nat

/-- The state before the first program, with a clock. -/
def State.initial (clock : Nat → Float) : State :=
  { cells := #[]
    globals := Table.empty.insert Native.clock.name (.native 0 .clock)
    objects := #[], fresh := 1, printed := #[], clock, readings := 0 }

/-- A computation on the state. -/
abbrev Run (α : Type) := EStateM Abort State α

/-- Where evaluation stands. -/
structure Place where
  /-- The local names it can see. -/
  names : Names
  /-- It is inside a block or function, so that declarations are local. -/
  inside : Bool
  /-- The active calls, innermost first. -/
  frames : List Frame

/-- How a statement ends. -/
inductive Ending where
  /-- The next statement follows and can see these names. -/
  | normal (names : Names)
  /-- The enclosing function ends with this value. -/
  | returned (v : LValue)

/-- The value of a function whose body ends this way. -/
def Ending.value : Ending → LValue
  | .normal _ => .nil
  | .returned v => v

/-! ### Elementary steps -/

/-- Cuts the run short. -/
def abort {α : Type} (place : Place) (fault : Fault) : Run α :=
  throw ⟨fault, place.frames⟩

/-- Cuts the run short because of a mistake of the program. -/
def fail {α : Type} (place : Place) (issue : RuntimeIssue) (line : Int) : Run α :=
  abort place (.issue issue line)

/-- A new cell. -/
def newCell (content : Option LValue) : Run Cell := fun s =>
  .ok s.cells.size { s with cells := s.cells.push content }

/-- Writes a cell. -/
def fill (cell : Cell) (v : LValue) : Run Unit := fun s =>
  .ok () { s with cells := s.cells.modify cell fun _ => some v }

/-- What a cell holds. -/
def readCell (place : Place) (name : String) (cell : Cell) : Run LValue := fun s =>
  match s.cells[cell]? with
  | some (some v) => .ok v s
  | _ => abort place (.unset name) s

/-- Writes a global. -/
def writeGlobal (name : String) (v : LValue) : Run Unit := fun s =>
  .ok () { s with globals := s.globals.insert name v }

/-- Gives out an identity. -/
def identity : Run Nat := fun s => .ok s.fresh { s with fresh := s.fresh + 1 }

/-- Adds an object without fields. -/
def newObject : Run Nat := fun s =>
  .ok s.objects.size { s with objects := s.objects.push Table.empty }

/-- The fields of an object. -/
def fields (object : Nat) : Run (Table LValue) := fun s =>
  .ok (s.objects[object]?.getD Table.empty) s

/-- Writes a field of an object. -/
def setField (object : Nat) (name : String) (v : LValue) : Run Unit := fun s =>
  .ok () { s with objects := s.objects.modify object (·.insert name v) }

/-- Prints a line. -/
def printLine (line : String) : Run Unit := fun s => .ok () { s with printed := s.printed.push line }

/-- Reads the clock. -/
def readClock : Run Float := fun s => .ok (s.clock s.readings) { s with readings := s.readings + 1 }

/-- Yields the result of an operator on a line, or cuts the run short. -/
def operator (place : Place) (line : Int) : OpResult Unit Names → Run LValue
  | .ok v => pure v
  | .error issue => fail place issue line

/-! ### Names -/

/-- The value of a name: that of its cell, or else of the global of that name. -/
def lookUp (place : Place) (name : Name) : Run LValue :=
  match place.names.lookup name.text with
  | some cell => readCell place name.text cell
  | none => fun s =>
    match s.globals.find? name.text with
    | some v => .ok v s
    | none => fail place (.undefinedVariable name.text) name.line s

/-- Assigns to a name: to its cell, or else to the global of that name. -/
def assignTo (place : Place) (name : Name) (v : LValue) : Run Unit :=
  match place.names.lookup name.text with
  | some cell => fill cell v
  | none => fun s =>
    if s.globals.contains name.text then writeGlobal name.text v s
    else fail place (.undefinedVariable name.text) name.line s

/-- Begins a declaration.  A local one extends the names by an empty cell. -/
def declare (place : Place) (name : String) : Run (Place × Option Cell) := do
  if place.inside then
    let cell ← newCell none
    pure ({ place with names := (name, cell) :: place.names }, some cell)
  else pure (place, none)

/-- Gives a declared name its value: in its cell, or else among the globals. -/
def define (cell : Option Cell) (name : String) (v : LValue) : Run Unit :=
  match cell with
  | some cell => fill cell v
  | none => writeGlobal name v

/-! ### Functions and objects -/

/-- A new function value. -/
def newFunction (closure : LClosure) : Run LValue := do
  let id ← identity
  pure (.function id closure)

/-- A copy of a method that sees its receiver as `this`. -/
def bindMethod (method : LClosure) (receiver : LValue) : Run LClosure := do
  let cell ← newCell (some receiver)
  pure { method with env := (Keyword.thisWord.text, cell) :: method.env }

/-- A property of an object: its field of that name, else its method of that
    name bound to it. -/
def getProperty (place : Place) (object : LValue) (name : Name) : Run LValue := do
  match object with
  | .object id definition =>
    match (← fields id).find? name.text with
    | some v => pure v
    | none =>
      match definition.findMethod? name.text with
      | some method => newFunction (← bindMethod method object)
      | none => fail place (.undefinedProperty name.text) name.line
  | _ => fail place .noProperties name.line

/-- A method of the class that the place sees as `super`, bound to what it sees
    as `this`. -/
def getSuper (place : Place) (line : Int) (method : Name) : Run LValue := do
  let superclass ← lookUp place ⟨Keyword.superWord.text, line⟩
  let receiver ← lookUp place ⟨Keyword.thisWord.text, line⟩
  match superclass with
  | .cls _ definition =>
    match definition.findMethod? method.text with
    | some closure => newFunction (← bindMethod closure receiver)
    | none => fail place (.undefinedProperty method.text) method.line
  | _ => abort place .malformed

/-! ### Sequences and loops -/

/-- Evaluates some expressions from left to right. -/
def inOrder (eval : SourceExpr → Run LValue) : List SourceExpr → Run (List LValue)
  | [] => pure []
  | e :: es => do
    let v ← eval e
    let vs ← inOrder eval es
    pure (v :: vs)

/-- Executes some statements in order, up to the first that returns.  Each sees
    the names that those before it declare. -/
def sequence (exec : Place → SourceStmt → Run Ending) (place : Place) :
    List SourceStmt → Run Ending
  | [] => pure (.normal place.names)
  | s :: ss => do
    match ← exec place s with
    | .normal names => sequence exec { place with names } ss
    | .returned v => pure (.returned v)

/-- Executes a body as long as a condition holds and the body does not return. -/
def whileLoop (place : Place) (condition : Run LValue) (body : Run Ending) : Nat → Run Ending
  | 0 => abort place .endless
  | n + 1 => do
    if (← condition).truthy then
      match ← body with
      | .normal _ => whileLoop place condition body n
      | .returned v => pure (.returned v)
    else pure (.normal place.names)

/-! ### Calls -/

/-- Extends some names by parameters, in cells that hold the arguments. -/
def bindParams (names : Names) : List String → List LValue → Run Names
  | p :: ps, v :: vs => do
    let cell ← newCell (some v)
    bindParams ((p, cell) :: names) ps vs
  | _, _ => pure names

/-- Runs a function on its arguments.  An initializer yields its receiver. -/
def runClosure (exec : Place → SourceStmt → Run Ending) (frames : List Frame)
    (closure : LClosure) (args : List LValue) : Run LValue := do
  let names ← bindParams closure.env closure.params args
  let ending ← sequence exec ⟨names, true, frames⟩ closure.body
  if closure.isInitializer then
    lookUp ⟨closure.env, true, frames⟩ ⟨Keyword.thisWord.text, 0⟩
  else pure ending.value

/-- Makes an instance of a class and runs its initializer, if it has one. -/
def instantiate (exec : Place → SourceStmt → Run Ending) (frames : List Frame)
    (definition : LClass) (args : List LValue) : Run LValue := do
  let id ← newObject
  let object : LValue := .object id definition
  match definition.initializer? with
  | some method =>
    let bound ← bindMethod method object
    let _ ← runClosure exec frames bound args
    pure object
  | none => pure object

/-- Runs a value that is called, with the active calls, on its arguments. -/
def run (exec : Place → SourceStmt → Run Ending) (frames : List Frame) (args : List LValue) :
    LValue → Run LValue
  | .native _ .clock => Value.number <$> readClock
  | .function _ closure => runClosure exec frames closure args
  | .cls _ definition => instantiate exec frames definition args
  | _ => pure .nil

/-- Calls a value. -/
def apply (exec : Place → SourceStmt → Run Ending) (place : Place) (line : Int) (callee : LValue)
    (args : List LValue) : Run LValue :=
  match callee.signature? with
  | none => fail place .notCallable line
  | some (name, arity) =>
    if args.length = arity then run exec (⟨name, line⟩ :: place.frames) args callee
    else fail place (.wrongArity arity args.length) line

/-! ### Declarations -/

/-- The closure of a declared function. -/
def closureOf (names : Names) (decl : SourceFun) (isInitializer : Bool) : LClosure :=
  { name := some decl.name.text
    params := decl.params.map (·.text)
    body := decl.body
    env := names, isInitializer }

/-- The methods of a class declaration; of two with one name the later counts. -/
def methodTable (names : Names) (methods : List SourceFun) : Table LClosure :=
  methods.foldl
    (fun t m => t.insert m.name.text (closureOf names m (m.name.text == initializerName)))
    Table.empty

/-- The class that a superclass expression stands for. -/
def superclassOf (place : Place) (name : Name) : LValue → Run (Nat × LClass)
  | .cls id definition => pure (id, definition)
  | _ => fail place .superclassNotClass name.line

/-- Creates a class and declares its name.  The methods of a class with a
    superclass see it as `super`. -/
def declareClass (place : Place) (name : Name) (superclass : Option (Name × Unit))
    (methods : List SourceFun) : Run Names := do
  match superclass with
  | none =>
    let (around, cell) ← declare place name.text
    define cell name.text .nil
    let id ← identity
    define cell name.text (.cls id (.mk name.text none (methodTable around.names methods)))
    pure around.names
  | some (superName, ()) =>
    let v ← lookUp place superName
    let (superId, superDefinition) ← superclassOf place superName v
    let (around, cell) ← declare place name.text
    define cell name.text .nil
    let superCell ← newCell (some (.cls superId superDefinition))
    let names := (Keyword.superWord.text, superCell) :: around.names
    let id ← identity
    define cell name.text (.cls id (.mk name.text (some superDefinition) (methodTable names methods)))
    pure around.names

/-! ### The walk -/

section Step

variable (eval : Place → SourceExpr → Run LValue) (exec : Place → SourceStmt → Run Ending)

/-- Evaluates an expression, given how its parts are evaluated. -/
def exprStep (place : Place) : SourceExpr → Run LValue
  | .literal value => pure value.value
  | .group inner => eval place inner
  | .unary op line operand => do
    let v ← eval place operand
    operator place line (op.apply v)
  | .binary op line left right => do
    let a ← eval place left
    let b ← eval place right
    operator place line (op.apply a b)
  | .logical op _ left right => do
    let v ← eval place left
    if op.decided v then pure v else eval place right
  | .variable name _ => lookUp place name
  | .assign name _ value => do
    let v ← eval place value
    assignTo place name v
    pure v
  | .call callee arguments line => do
    let f ← eval place callee
    let args ← inOrder (eval place) arguments
    apply exec place line f args
  | .get object name => do
    let v ← eval place object
    getProperty place v name
  | .set object name value => do
    let o ← eval place object
    match o with
    | .object id _ =>
      let v ← eval place value
      setField id name.text v
      pure v
    | _ => fail place .noFields name.line
  | .this line _ => lookUp place ⟨Keyword.thisWord.text, line⟩
  | .super line _ method => getSuper place line method
  | .lambda _ params body => newFunction ⟨none, params.map (·.text), body, place.names, false⟩

/-- The value of an expression that may be absent. -/
def optional (place : Place) : Option SourceExpr → Run LValue
  | some e => eval place e
  | none => pure .nil

/-- Executes a statement, given how its parts are evaluated and executed. -/
def stmtStep (rounds : Nat) (place : Place) : SourceStmt → Run Ending
  | .expression e => do
    let _ ← eval place e
    pure (.normal place.names)
  | .print e => do
    let v ← eval place e
    printLine v.text
    pure (.normal place.names)
  | .var name initial => do
    let (within, cell) ← declare place name.text
    let v ← optional eval within initial
    define cell name.text v
    pure (.normal within.names)
  | .block body => do
    match ← sequence exec { place with inside := true } body with
    | .normal _ => pure (.normal place.names)
    | .returned v => pure (.returned v)
  | .branch condition onTrue onFalse => do
    if (← eval place condition).truthy then exec place onTrue
    else
      match onFalse with
      | some s => exec place s
      | none => pure (.normal place.names)
  | .loop condition body => whileLoop place (eval place condition) (exec place body) rounds
  | .function decl => do
    let (within, cell) ← declare place decl.name.text
    let f ← newFunction (closureOf within.names decl false)
    define cell decl.name.text f
    pure (.normal within.names)
  | .ret _ value => do
    let v ← optional eval place value
    pure (.returned v)
  | .classDecl name superclass methods => do
    let names ← declareClass place name superclass methods
    pure (.normal names)

end Step

mutual

/-- Evaluates an expression. -/
def expr (rounds : Nat) : Nat → Place → SourceExpr → Run LValue
  | 0, place, _ => abort place .overflow
  | n + 1, place, e => exprStep (expr rounds n) (stmt rounds n) place e

/-- Executes a statement. -/
def stmt (rounds : Nat) : Nat → Place → SourceStmt → Run Ending
  | 0, place, _ => abort place .overflow
  | n + 1, place, s => stmtStep (expr rounds n) (stmt rounds n) rounds place s

end

/-- The place of top-level code. -/
def topLevel (frames : List Frame) : Place := ⟨[], false, frames⟩

/-- Runs the statements of a program in order.  Yields the value of the last one
    if it is an expression. -/
def program (limits : Limits) (place : Place) : List SourceStmt → LValue → Run LValue
  | [], last => pure last
  | s :: ss, _ => do
    match s with
    | .expression e =>
      let v ← expr limits.rounds limits.nesting place e
      program limits place ss v
    | s =>
      let _ ← stmt limits.rounds limits.nesting place s
      program limits place ss .nil

end Treewalk.Lexical
