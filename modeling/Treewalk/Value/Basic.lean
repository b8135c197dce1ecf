import Treewalk.Table
import Treewalk.Tree.Basic

/-! # Values

    What expressions evaluate to.  Functions, classes and instances have an
    identity, a number given out when they are created; two of them are equal
    only if they are the same one.  Classes never change once they exist, so a
    class holds its superclass itself.

    The types have two parameters: the note that uses of names carry in the code
    of a function, and what the environment of a function is.  In a running
    program these are the scope distance and a list of scopes. -/

namespace Treewalk

/-! ### Environments -/

/-- The number of a scope in the store. -/
abbrev ScopeId := Nat

/-- The scopes that a place can see, innermost first; the last is the global one. -/
abbrev Env := List ScopeId

/-- The scope of the globals. -/
def globalScope : ScopeId := 0

/-- The environment of top-level code. -/
def globalEnv : Env := [globalScope]

/-- The environment the given number of scopes further out.  One step beyond the
    global scope there is the empty environment, and nothing further. -/
def Env.ancestor? : Env → Nat → Option Env
  | env, 0 => some env
  | _ :: outer, n + 1 => Env.ancestor? outer n
  | [], _ + 1 => none

/-- The number of scopes around the innermost one. -/
def Env.depth (env : Env) : Nat := env.length - 1

/-! ### Functions and classes -/

section Callables

variable {ρ ε : Type}

/-- A function with the environment it was created in. -/
structure Closure (ρ : Type := Distance) (ε : Type := Env) where
  /-- The declared name; none for a function expression. -/
  name : Option String
  /-- The parameters in order. -/
  params : List String
  /-- The statements of the body. -/
  body : List (Stmt ρ)
  /-- The environment around the body. -/
  env : ε
  /-- Calling it always yields the receiver. -/
  isInitializer : Bool

/-- The number of arguments a function takes. -/
def Closure.arity (c : Closure ρ ε) : Nat := c.params.length

/-- A class: its name, its superclass and its own methods. -/
inductive Class (ρ : Type := Distance) (ε : Type := Env) where
  | mk (name : String) (superclass : Option (Class ρ ε)) (methods : Table (Closure ρ ε))

namespace Class

/-- The declared name. -/
def name : Class ρ ε → String
  | .mk name _ _ => name

/-- The class it inherits from. -/
def superclass : Class ρ ε → Option (Class ρ ε)
  | .mk _ superclass _ => superclass

/-- The methods declared in the class itself. -/
def methods : Class ρ ε → Table (Closure ρ ε)
  | .mk _ _ methods => methods

/-- The method of a name: that of the class itself, else that of the nearest
    superclass that has one. -/
def findMethod? (name : String) : Class ρ ε → Option (Closure ρ ε)
  | .mk _ none methods => methods.find? name
  | .mk _ (some superclass) methods =>
    match methods.find? name with
    | some method => some method
    | none => superclass.findMethod? name

/-- The method that sets up a new instance. -/
def initializer? (c : Class ρ ε) : Option (Closure ρ ε) := c.findMethod? initializerName

/-- The number of arguments a new instance takes. -/
def arity (c : Class ρ ε) : Nat :=
  match c.initializer? with
  | some method => method.arity
  | none => 0

end Class

end Callables

/-- Functions that are there from the start. -/
inductive Native where
  /-- The time in seconds. -/
  | clock
deriving DecidableEq, Repr

namespace Native

/-- The global name of a native function. -/
def name : Native → String
  | .clock => "clock"

/-- The number of arguments it takes. -/
def arity : Native → Nat
  | .clock => 0

end Native

/-! ### Values -/

section Values

variable {ρ ε : Type}

/-- What expressions evaluate to. -/
inductive Value (ρ : Type := Distance) (ε : Type := Env) where
  | nil
  | bool (b : Bool)
  | number (x : Float)
  | string (s : String)
  | native (id : Nat) (function : Native)
  | function (id : Nat) (closure : Closure ρ ε)
  | cls (id : Nat) (definition : Class ρ ε)
  | object (id : Nat) (definition : Class ρ ε)

/-- The value of a constant. -/
def Literal.value : Literal → Value ρ ε
  | .nil => .nil
  | .bool b => .bool b
  | .number x => .number x
  | .string s => .string s

namespace Value

/-- `nil` and `false` count as false, everything else as true. -/
def truthy : Value ρ ε → Bool
  | .nil => false
  | .bool b => b
  | _ => true

/-- Constants are equal if they are the same constant, numbers as numbers;
    everything else is equal only to itself. -/
def equals : Value ρ ε → Value ρ ε → Bool
  | .nil, .nil => true
  | .bool a, .bool b => a == b
  | .number a, .number b => a == b
  | .string a, .string b => a == b
  | .native i _, .native j _ => i == j
  | .function i _, .function j _ => i == j
  | .cls i _, .cls j _ => i == j
  | .object i _, .object j _ => i == j
  | _, _ => false

/-- The text `print` writes for a value. -/
def text : Value ρ ε → String
  | .nil => "nil"
  | .bool true => "true"
  | .bool false => "false"
  | .number x => Number.text x
  | .string s => s
  | .native _ _ => "<native fn>"
  | .function _ closure =>
    match closure.name with
    | some name => "<fn " ++ name ++ ">"
    | none => "<fn>"
  | .cls _ c => c.name
  | .object _ c => c.name ++ " instance"

end Value

end Values

end Treewalk
