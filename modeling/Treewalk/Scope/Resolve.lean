import Treewalk.Table
import Treewalk.Tree.Basic

/-! # Resolution

    Resolution walks a program once before it runs.  It notes at every use of a
    local name how many scopes lie between the use and the scope that declares
    it, and it reports misuse of declarations.  A name that no local scope
    declares is left to be looked up among the globals when it is used; the
    global scope itself is not tracked, so globals may be declared again and
    used before their declaration. -/

namespace Treewalk

/-! ### Errors -/

/-- Static rules a program can break. -/
inductive ResolveIssue where
  /-- `return` outside of any function. -/
  | returnAtTopLevel
  /-- `return` with a value in an initializer. -/
  | valueFromInitializer
  /-- A class that names itself as its superclass. -/
  | inheritsItself
  /-- A local variable used in its own initializer. -/
  | ownInitializer
  /-- `this` outside of any class. -/
  | thisOutsideClass
  /-- `super` outside of any class. -/
  | superOutsideClass
  /-- `super` in a class that has no superclass. -/
  | superWithoutSuperclass
  /-- A name declared twice in one local scope. -/
  | alreadyDeclared
deriving DecidableEq, Repr

/-- The wording of an issue. -/
def ResolveIssue.message : ResolveIssue → String
  | .returnAtTopLevel => "Can't return from top-level code."
  | .valueFromInitializer => "Can't return a value from an initializer."
  | .inheritsItself => "A class can't inherit from itself."
  | .ownInitializer => "Can't read local variable in its own initializer."
  | .thisOutsideClass => "Can't use 'this' outside of a class."
  | .superOutsideClass => "Can't use 'super' outside of a class."
  | .superWithoutSuperclass => "Can't use 'super' in a class with no superclass."
  | .alreadyDeclared => "Already a variable with this name in this scope."

/-- An issue and the word it was found at. -/
structure ResolveError where
  /-- The rule that is broken. -/
  issue : ResolveIssue
  /-- The name or keyword it was found at. -/
  site : Name
deriving DecidableEq, Repr

/-! ### State -/

/-- The ways a program uses a name. -/
inductive UseKind where
  | variable | assign | this | super
deriving DecidableEq, Repr

/-- A use of a local name, with its distance. -/
structure LocalUse where
  /-- How the name is used. -/
  kind : UseKind
  /-- The name or keyword. -/
  name : Name
  /-- The scopes between the use and the declaration. -/
  distance : Nat
deriving DecidableEq, Repr

/-- What the walk knows of a scope: its names, and of each whether its
    declaration is complete. -/
abbrev StaticScope := Table Bool

/-- A count of what the walk has found, taken at the end of a statement list. -/
structure ResolveTally where
  /-- Local uses found so far. -/
  uses : Nat
  /-- Errors found so far. -/
  errors : Nat
deriving DecidableEq, Repr

/-- The state of the walk. -/
structure ResolveState where
  /-- The local scopes, innermost first. -/
  scopes : List StaticScope
  /-- The local uses in the order they were met. -/
  uses : Array LocalUse
  /-- The errors in the order they were met. -/
  errors : Array ResolveError
  /-- One count for every statement list, inner ones first. -/
  tallies : Array ResolveTally

/-- The state before a program. -/
def ResolveState.initial : ResolveState := ⟨[], #[], #[], #[]⟩

/-- A step of the walk. -/
abbrev Resolve (α : Type) := StateM ResolveState α

/-- The innermost function around a place. -/
inductive FunctionKind where
  | none | function | initializer | method
deriving DecidableEq, Repr

/-- The innermost class around a place. -/
inductive ClassKind where
  | none | plain | derived
deriving DecidableEq, Repr

/-- What encloses a place in the program. -/
structure Enclosing where
  /-- The innermost function. -/
  function : FunctionKind
  /-- The innermost class. -/
  cls : ClassKind
deriving DecidableEq, Repr

/-- Top-level code. -/
def Enclosing.topLevel : Enclosing := ⟨.none, .none⟩

/-- The kind of function a method is. -/
def FunctionKind.ofMethod (name : String) : FunctionKind :=
  if name == initializerName then .initializer else .method

namespace Resolve

/-! ### Scopes -/

/-- Records an error. -/
def report (issue : ResolveIssue) (site : Name) : Resolve Unit :=
  modify fun s => { s with errors := s.errors.push ⟨issue, site⟩ }

/-- Opens a scope that holds the given names, all complete. -/
def openScope (names : List String) : Resolve Unit :=
  modify fun s =>
    { s with scopes := names.foldl (fun t n => t.insert n true) Table.empty :: s.scopes }

/-- Closes the innermost scope. -/
def closeScope : Resolve Unit :=
  modify fun s => { s with scopes := s.scopes.tail }

/-- Sets whether the declaration of a name in the innermost scope is complete. -/
def mark (name : String) (complete : Bool) : Resolve Unit :=
  modify fun s =>
    match s.scopes with
    | [] => s
    | inner :: outer => { s with scopes := inner.insert name complete :: outer }

/-- The innermost scope, if there is a local one, has an entry for the name. -/
def innermost? (name : String) : Resolve (Option Bool) := do
  match (← get).scopes with
  | [] => pure none
  | inner :: _ => pure (inner.find? name)

/-- Begins the declaration of a name in the innermost local scope. -/
def declare (name : Name) : Resolve Unit := do
  if (← innermost? name.text).isSome then report .alreadyDeclared name
  mark name.text false

/-- Completes the declaration of a name. -/
def define (name : Name) : Resolve Unit := mark name.text true

/-- The number of scopes between the innermost one and the first that has the
    name. -/
def distanceTo (scopes : List StaticScope) (name : String) : Distance :=
  scopes.findIdx? (·.contains name)

/-- Notes a use of the name `target` at the word `site`. -/
def note (kind : UseKind) (target : String) (site : Name) : Resolve Distance :=
  modifyGet fun s =>
    match distanceTo s.scopes target with
    | some d => (some d, { s with uses := s.uses.push ⟨kind, site, d⟩ })
    | none => (none, s)

/-- Counts what has been found at the end of a statement list. -/
def tally : Resolve Unit :=
  modify fun s => { s with tallies := s.tallies.push ⟨s.uses.size, s.errors.size⟩ }

/-- Notes a use of a variable. -/
def useVariable (name : Name) : Resolve Distance := do
  if (← innermost? name.text) == some false then report .ownInitializer name
  note .variable name.text name

/-- Declares and completes the parameters of a function. -/
def declareParams : List Name → Resolve Unit
  | [] => pure ()
  | p :: ps => do
    declare p
    define p
    declareParams ps

/-- Reports a `return` statement that is out of place. -/
def checkReturn (place : Enclosing) (line : Int) (hasValue : Bool) : Resolve Unit := do
  let site : Name := ⟨Keyword.returnWord.text, line⟩
  if place.function = .none then report .returnAtTopLevel site
  if hasValue && decide (place.function = .initializer) then report .valueFromInitializer site

/-- Notes a use of `this`. -/
def useThis (place : Enclosing) (line : Int) : Resolve Distance := do
  let site : Name := ⟨Keyword.thisWord.text, line⟩
  if place.cls = .none then
    report .thisOutsideClass site
    pure none
  else note .this Keyword.thisWord.text site

/-- Notes a use of `super`. -/
def useSuper (place : Enclosing) (line : Int) : Resolve Distance := do
  let site : Name := ⟨Keyword.superWord.text, line⟩
  match place.cls with
  | .none => report .superOutsideClass site
  | .plain => report .superWithoutSuperclass site
  | .derived => pure ()
  note .super Keyword.superWord.text site

/-! ### The walk -/

mutual

/-- Resolves an expression. -/
def expr (place : Enclosing) : SourceExpr → Resolve ResolvedExpr
  | .literal value => pure (.literal value)
  | .group inner => do
    let inner ← expr place inner
    pure (.group inner)
  | .unary op line operand => do
    let operand ← expr place operand
    pure (.unary op line operand)
  | .binary op line left right => do
    let left ← expr place left
    let right ← expr place right
    pure (.binary op line left right)
  | .logical op line left right => do
    let left ← expr place left
    let right ← expr place right
    pure (.logical op line left right)
  | .variable name _ => do
    let use ← useVariable name
    pure (.variable name use)
  | .assign name _ value => do
    let value ← expr place value
    let use ← note .assign name.text name
    pure (.assign name use value)
  | .call callee arguments line => do
    let callee ← expr place callee
    let arguments ← exprs place arguments
    pure (.call callee arguments line)
  | .get object name => do
    let object ← expr place object
    pure (.get object name)
  | .set object name value => do
    let value ← expr place value
    let object ← expr place object
    pure (.set object name value)
  | .this line _ => do
    let use ← useThis place line
    pure (.this line use)
  | .super line _ method => do
    let use ← useSuper place line
    pure (.super line use method)
  | .lambda line params body => do
    openScope []
    declareParams params
    let body ← stmts { place with function := .function } body
    tally
    closeScope
    pure (.lambda line params body)

/-- Resolves some expressions in order. -/
def exprs (place : Enclosing) : List SourceExpr → Resolve (List ResolvedExpr)
  | [] => pure []
  | e :: es => do
    let e ← expr place e
    let es ← exprs place es
    pure (e :: es)

/-- Resolves a statement. -/
def stmt (place : Enclosing) : SourceStmt → Resolve ResolvedStmt
  | .expression e => do
    let e ← expr place e
    pure (.expression e)
  | .print e => do
    let e ← expr place e
    pure (.print e)
  | .var name none => do
    declare name
    define name
    pure (.var name none)
  | .var name (some e) => do
    declare name
    let e ← expr place e
    define name
    pure (.var name (some e))
  | .block body => do
    openScope []
    let body ← stmts place body
    tally
    closeScope
    pure (.block body)
  | .branch condition onTrue none => do
    let condition ← expr place condition
    let onTrue ← stmt place onTrue
    pure (.branch condition onTrue none)
  | .branch condition onTrue (some onFalse) => do
    let condition ← expr place condition
    let onTrue ← stmt place onTrue
    let onFalse ← stmt place onFalse
    pure (.branch condition onTrue (some onFalse))
  | .loop condition body => do
    let condition ← expr place condition
    let body ← stmt place body
    pure (.loop condition body)
  | .function decl => do
    declare decl.name
    define decl.name
    let decl ← function place .function decl
    pure (.function decl)
  | .ret line none => do
    checkReturn place line false
    pure (.ret line none)
  | .ret line (some e) => do
    checkReturn place line true
    let e ← expr place e
    pure (.ret line (some e))
  | .classDecl name none methods => do
    declare name
    define name
    openScope [Keyword.thisWord.text]
    let methods ← methodList { place with cls := .plain } methods
    closeScope
    pure (.classDecl name none methods)
  | .classDecl name (some (superName, _)) methods => do
    declare name
    define name
    if superName.text = name.text then report .inheritsItself superName
    let use ← useVariable superName
    openScope [Keyword.superWord.text]
    openScope [Keyword.thisWord.text]
    let methods ← methodList { place with cls := .derived } methods
    closeScope
    closeScope
    pure (.classDecl name (some (superName, use)) methods)

/-- Resolves some statements in order. -/
def stmts (place : Enclosing) : List SourceStmt → Resolve (List ResolvedStmt)
  | [] => pure []
  | s :: ss => do
    let s ← stmt place s
    let ss ← stmts place ss
    pure (s :: ss)

/-- Resolves a function or method of the given kind.  Its parameters and the
    declarations of its body share one scope. -/
def function (place : Enclosing) (kind : FunctionKind) : SourceFun → Resolve ResolvedFun
  | .mk name params body => do
    openScope []
    declareParams params
    let body ← stmts { place with function := kind } body
    tally
    closeScope
    pure (.mk name params body)

/-- Resolves the methods of a class. -/
def methodList (place : Enclosing) : List SourceFun → Resolve (List ResolvedFun)
  | [] => pure []
  | m :: ms => do
    let m ← function place (.ofMethod m.name.text) m
    let ms ← methodList place ms
    pure (m :: ms)

end

end Resolve

/-! ### Programs -/

/-- What resolution yields. -/
structure Resolution where
  /-- The program with its uses of names noted. -/
  statements : List ResolvedStmt
  /-- The local uses in the order they were met. -/
  uses : List LocalUse
  /-- The errors in the order they were met. -/
  errors : List ResolveError
  /-- One count for every statement list, inner ones first. -/
  tallies : List ResolveTally

/-- Resolves a program. -/
def resolve (program : List SourceStmt) : Resolution :=
  let walk : Resolve (List ResolvedStmt) := do
    let statements ← Resolve.stmts .topLevel program
    Resolve.tally
    pure statements
  let (statements, s) := walk.run .initial
  { statements, uses := s.uses.toList, errors := s.errors.toList, tallies := s.tallies.toList }

end Treewalk
