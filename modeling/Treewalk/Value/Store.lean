import Treewalk.Value.Basic

/-! # The store

    The store holds what can change while a program runs: the bindings of every
    scope and the fields of every object.  Scopes and objects are only added,
    never removed, so that whoever still knows one can use it.  The store does
    not look into what is bound, so that may be of any type. -/

namespace Treewalk

/-- The bindings of scopes and the fields of objects. -/
structure Store (α : Type) where
  /-- The bindings of each scope. -/
  scopes : Array (Table α)
  /-- The fields of each object. -/
  objects : Array (Table α)
  /-- The next identity to give out. -/
  fresh : Nat

/-- Why a variable cannot be reached at a given distance. -/
inductive AccessFault where
  /-- The distance leads out of the global scope. -/
  | beyondGlobal
  /-- The scope has no binding for the name. -/
  | unbound (name : String)
deriving DecidableEq, Repr

namespace Store

variable {α : Type}

/-- A store with no bindings but an empty global scope. -/
def bare : Store α := ⟨#[Table.empty], #[], 0⟩

/-! ### Scopes -/

/-- The bindings of a scope. -/
def bindings (s : Store α) (scope : ScopeId) : Table α := s.scopes[scope]?.getD Table.empty

/-- Binds a name in a scope, over any binding it has there. -/
def bind (s : Store α) (scope : ScopeId) (name : String) (v : α) : Store α :=
  { s with scopes := s.scopes.modify scope (·.insert name v) }

/-- Adds an empty scope inside an environment. -/
def extend (s : Store α) (env : Env) : Env × Store α :=
  (s.scopes.size :: env, { s with scopes := s.scopes.push Table.empty })

/-- Binds a name in the innermost scope of an environment. -/
def define (s : Store α) (env : Env) (name : String) (v : α) : Store α :=
  match env with
  | scope :: _ => s.bind scope name v
  | [] => s

/-- The innermost scope of an environment that binds a name. -/
def owner? (s : Store α) (env : Env) (name : String) : Option ScopeId :=
  env.find? fun scope => (s.bindings scope).contains name

/-- The value of a name in the innermost scope that binds it. -/
def lookup? (s : Store α) (env : Env) (name : String) : Option α :=
  env.findSome? fun scope => (s.bindings scope).find? name

/-- Assigns to a name in the innermost scope that binds it. -/
def assign? (s : Store α) (env : Env) (name : String) (v : α) : Option (Store α) :=
  (s.owner? env name).map fun scope => s.bind scope name v

/-- The scope at a distance in an environment. -/
def scopeAt (env : Env) (distance : Nat) : Except AccessFault ScopeId :=
  match env.ancestor? distance with
  | some (scope :: _) => .ok scope
  | _ => .error .beyondGlobal

/-- The value of a name in the scope at a distance. -/
def getAt (s : Store α) (env : Env) (distance : Nat) (name : String) :
    Except AccessFault α := do
  let scope ← scopeAt env distance
  match (s.bindings scope).find? name with
  | some v => .ok v
  | none => .error (.unbound name)

/-- Binds a name in the scope at a distance. -/
def assignAt (s : Store α) (env : Env) (distance : Nat) (name : String) (v : α) :
    Except AccessFault (Store α) := do
  let scope ← scopeAt env distance
  .ok (s.bind scope name v)

/-! ### Objects and identities -/

/-- Gives out an identity that was never given out before. -/
def identity (s : Store α) : Nat × Store α := (s.fresh, { s with fresh := s.fresh + 1 })

/-- Adds an object without fields. -/
def newObject (s : Store α) : Nat × Store α :=
  (s.objects.size, { s with objects := s.objects.push Table.empty })

/-- The fields of an object. -/
def fields (s : Store α) (object : Nat) : Table α := s.objects[object]?.getD Table.empty

/-- Writes a field of an object. -/
def setField (s : Store α) (object : Nat) (name : String) (v : α) : Store α :=
  { s with objects := s.objects.modify object (·.insert name v) }

/-! ### The beginning -/

/-- The store that every program starts with: the native functions are bound in
    the global scope. -/
def initial {ρ ε : Type} : Store (Value ρ ε) :=
  let (id, s) := bare.identity
  s.bind globalScope Native.clock.name (.native id .clock)

/-- The names bound in the global scope, in alphabetical order. -/
def globalNames (s : Store α) : List String := (s.bindings globalScope).sortedNames

end Store

end Treewalk
