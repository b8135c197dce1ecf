import Treewalk.Proofs.Scope.Resolution

/-! # Static rules

    The rules that a program has to keep before it may run, each as a condition
    on the places of a program.  A place is a phrase together with what it stands
    in: blocks, functions, methods and the initial expressions of variables.
    `Occurs` names the places of a program, and `StaticRules` says of each rule
    what it asks of which places. -/

namespace Treewalk

/-! ### Places -/

/-- What a phrase can stand in. -/
inductive Encloser where
  /-- A block. -/
  | block
  /-- The body of a function, declared or not. -/
  | function
  /-- The body of a method of a class; `derived` if the class has a superclass. -/
  | method (name : String) (derived : Bool)
  /-- The initial expression of a variable. -/
  | initializer (name : String)
deriving DecidableEq, Repr

namespace Encloser

/-- A function or a method. -/
def isFunction : Encloser → Bool
  | .function | .method _ _ => true
  | .block | .initializer _ => false

/-- A method. -/
def isMethod : Encloser → Bool
  | .method _ _ => true
  | .block | .function | .initializer _ => false

/-- Declarations inside of it are local to it. -/
def opensScope : Encloser → Bool
  | .block | .function | .method _ _ => true
  | .initializer _ => false

end Encloser

/-- All that a phrase stands in, innermost first. -/
abbrev Surroundings := List Encloser

/-- A declaration there is local. -/
def IsLocal (π : Surroundings) : Prop := ∃ c ∈ π, c.opensScope = true

/-- An expression or a statement. -/
inductive Phrase where
  | expr (e : SourceExpr)
  | stmt (s : SourceStmt)

namespace Phrase

/-- The phrases directly inside of a phrase, with what they stand in there. -/
def parts : Phrase → List (Surroundings × Phrase)
  | .expr (.literal _) | .expr (.variable _ _) | .expr (.this _ _) | .expr (.super _ _ _) => []
  | .expr (.group e) | .expr (.unary _ _ e) | .expr (.get e _) | .expr (.assign _ _ e) =>
    [([], .expr e)]
  | .expr (.binary _ _ l r) | .expr (.logical _ _ l r) | .expr (.set l _ r) =>
    [([], .expr l), ([], .expr r)]
  | .expr (.call f args _) => ([], .expr f) :: args.map fun e => ([], .expr e)
  | .expr (.lambda _ _ body) => body.map fun s => ([.function], .stmt s)
  | .stmt (.expression e) | .stmt (.print e) | .stmt (.ret _ (some e)) => [([], .expr e)]
  | .stmt (.var name (some e)) => [([.initializer name.text], .expr e)]
  | .stmt (.var _ none) | .stmt (.ret _ none) => []
  | .stmt (.block body) => body.map fun s => ([.block], .stmt s)
  | .stmt (.branch c a none) => [([], .expr c), ([], .stmt a)]
  | .stmt (.branch c a (some b)) => [([], .expr c), ([], .stmt a), ([], .stmt b)]
  | .stmt (.loop c body) => [([], .expr c), ([], .stmt body)]
  | .stmt (.function decl) => decl.body.map fun s => ([.function], .stmt s)
  | .stmt (.classDecl _ superclass methods) =>
    methods.flatMap fun m => m.body.map fun s => ([.method m.name.text superclass.isSome], .stmt s)

/-- The names declared in each local scope that a phrase opens.  The parameters
    of a function and the declarations of its body share one scope. -/
def scopes : Phrase → List (List String)
  | .stmt (.block body) => [declaredBy body]
  | .expr (.lambda _ params body) => [paramNames params ++ declaredBy body]
  | .stmt (.function decl) => [paramNames decl.params ++ declaredBy decl.body]
  | .stmt (.classDecl _ _ methods) =>
    methods.map fun m => paramNames m.params ++ declaredBy m.body
  | _ => []

end Phrase

/-- A phrase at a place is inside of another one, or is that one itself. -/
inductive Inside : Surroundings → Phrase → Surroundings → Phrase → Prop
  | self {π ph} : Inside π ph π ph
  | part {π ph more inner ρ target} :
      (more, inner) ∈ ph.parts → Inside (more ++ π) inner ρ target → Inside π ph ρ target

/-- A phrase occurs in a program, in the given surroundings. -/
def Occurs (program : List SourceStmt) (π : Surroundings) (ph : Phrase) : Prop :=
  ∃ s ∈ program, Inside [] (.stmt s) π ph

/-! ### Rules -/

/-- The static rules. -/
structure StaticRules (program : List SourceStmt) : Prop where
  /-- No name is declared twice in one local scope. -/
  distinct : ∀ π ph, Occurs program π ph → ∀ names ∈ ph.scopes, names.Nodup
  /-- The initial expression of a local variable does not use the variable, except
      in the functions inside of it. -/
  ownInitializer : ∀ name π x,
    Occurs program (.initializer name :: π) (.expr (.variable x ())) → IsLocal π → x.text ≠ name
  /-- `return` stands in a function. -/
  returns : ∀ π line value, Occurs program π (.stmt (.ret line value)) →
    ∃ c ∈ π, c.isFunction = true
  /-- `return` has no value if the innermost function is the initializer of a class. -/
  initializers : ∀ π line e, Occurs program π (.stmt (.ret line (some e))) →
    ∀ derived, π.find? Encloser.isFunction ≠ some (.method initializerName derived)
  /-- A class is not its own superclass. -/
  superclasses : ∀ π name superName methods,
    Occurs program π (.stmt (.classDecl name (some (superName, ())) methods)) →
    superName.text ≠ name.text
  /-- `this` stands in a method. -/
  this : ∀ π line, Occurs program π (.expr (.this line ())) → ∃ c ∈ π, c.isMethod = true
  /-- `super` stands in a method, and the innermost class has a superclass. -/
  super : ∀ π line method, Occurs program π (.expr (.super line () method)) →
    ∃ name, π.find? Encloser.isMethod = some (.method name true)

/-- What the rules ask of a single phrase in its surroundings. -/
def Obeys (π : Surroundings) (ph : Phrase) : Prop :=
  (∀ names ∈ ph.scopes, names.Nodup) ∧
  match ph with
  | .expr (.variable x _) => ∀ name ρ, π = .initializer name :: ρ → IsLocal ρ → x.text ≠ name
  | .expr (.this _ _) => ∃ c ∈ π, c.isMethod = true
  | .expr (.super _ _ _) => ∃ name, π.find? Encloser.isMethod = some (.method name true)
  | .stmt (.ret _ value) =>
    (∃ c ∈ π, c.isFunction = true) ∧ (value.isSome = true →
      ∀ derived, π.find? Encloser.isFunction ≠ some (.method initializerName derived))
  | .stmt (.classDecl name (some (superName, _)) _) => superName.text ≠ name.text
  | _ => True

/-- All that is inside of a phrase obeys the rules. -/
def Clean (π : Surroundings) (ph : Phrase) : Prop :=
  ∀ ρ target, Inside π ph ρ target → Obeys ρ target

/-- A phrase is clean if it obeys the rules and its parts are clean. -/
theorem clean_iff {π : Surroundings} {ph : Phrase} :
    Clean π ph ↔ Obeys π ph ∧ ∀ part ∈ ph.parts, Clean (part.1 ++ π) part.2 := by
  constructor
  · intro h
    refine ⟨h π ph .self, ?_⟩
    rintro ⟨more, inner⟩ hpart ρ target hinside
    exact h ρ target (.part hpart hinside)
  · rintro ⟨hself, hparts⟩ ρ target hinside
    cases hinside with
    | self => exact hself
    | part hpart hinside => exact hparts _ hpart ρ target hinside

/-- The rules hold of a program if all its statements are clean. -/
theorem staticRules_iff {program : List SourceStmt} :
    StaticRules program ↔ ∀ s ∈ program, Clean [] (.stmt s) := by
  constructor
  · rintro h s hs ρ target hinside
    have hoccurs : Occurs program ρ target := ⟨s, hs, hinside⟩
    refine ⟨h.distinct ρ target hoccurs, ?_⟩
    split
    · next x use =>
      rintro name π rfl hlocal
      exact h.ownInitializer name π x hoccurs hlocal
    · exact h.this _ _ hoccurs
    · exact h.super _ _ _ hoccurs
    · next line value =>
      refine ⟨h.returns _ _ _ hoccurs, fun hvalue => ?_⟩
      obtain ⟨e, rfl⟩ := Option.isSome_iff_exists.mp hvalue
      exact h.initializers _ _ _ hoccurs
    · exact h.superclasses _ _ _ _ hoccurs
    · trivial
  · intro h
    have hobeys : ∀ π ph, Occurs program π ph → Obeys π ph := by
      rintro π ph ⟨s, hs, hinside⟩
      exact h s hs π ph hinside
    exact {
      distinct := fun π ph hoccurs => (hobeys π ph hoccurs).1
      ownInitializer := fun name π x hoccurs => (hobeys _ _ hoccurs).2 name π rfl
      returns := fun π line value hoccurs => (hobeys _ _ hoccurs).2.1
      initializers := fun π line e hoccurs => (hobeys _ _ hoccurs).2.2 rfl
      superclasses := fun π name superName methods hoccurs => (hobeys _ _ hoccurs).2
      this := fun π line hoccurs => (hobeys _ _ hoccurs).2
      super := fun π line method hoccurs => (hobeys _ _ hoccurs).2 }

end Treewalk
