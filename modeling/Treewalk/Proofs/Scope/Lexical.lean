import Treewalk.Scope.Resolve

/-! # Lexical scopes

    What it means for the uses of names in a program to be resolved, said
    without a walk: `IsDistance` is the distance of a name in a list of scopes,
    and the `Annotated` judgements relate a program to the same program with
    every use of a name annotated by its distance in the scopes around it.

    The `Accepted` judgements say in addition that the program keeps the static
    rules.  Both are read from the outside in: each rule names the scopes that
    surround the parts of a phrase. -/

namespace Treewalk

/-! ### Scopes and distances -/

/-- The names of the local scopes around a place, innermost first; of each scope
    the names whose declarations begin before the place. -/
abbrev ScopeNames := List (List String)

/-- The note that a use of a name should carry: the number of scopes inside the
    innermost one that has the name, or nothing if no scope has it. -/
def IsDistance (scopes : ScopeNames) (name : String) : Distance → Prop
  | some d =>
    ∃ inner names outer, scopes = inner ++ names :: outer ∧ inner.length = d ∧
      name ∈ names ∧ ∀ scope ∈ inner, name ∉ scope
  | none => ∀ scope ∈ scopes, name ∉ scope

theorem isDistance_cons_none {inner : List String} {S : ScopeNames} {name : String} :
    IsDistance (inner :: S) name none ↔ name ∉ inner ∧ IsDistance S name none := by
  unfold IsDistance
  simp

theorem isDistance_cons_zero {inner : List String} {S : ScopeNames} {name : String} :
    IsDistance (inner :: S) name (some 0) ↔ name ∈ inner := by
  constructor
  · rintro ⟨within, names, outer, hscopes, hlength, hmem, -⟩
    rw [List.length_eq_zero_iff.mp hlength, List.nil_append] at hscopes
    injection hscopes with hinner
    rwa [hinner]
  · intro hmem
    exact ⟨[], inner, S, rfl, rfl, hmem, nofun⟩

theorem isDistance_cons_succ {inner : List String} {S : ScopeNames} {name : String} {d : Nat} :
    IsDistance (inner :: S) name (some (d + 1)) ↔ name ∉ inner ∧ IsDistance S name (some d) := by
  constructor
  · rintro ⟨within, names, outer, hscopes, hlength, hmem, hfree⟩
    obtain ⟨scope, within', rfl⟩ := List.exists_cons_of_length_eq_add_one hlength
    injection hscopes with hinner hS
    subst hinner
    refine ⟨hfree inner List.mem_cons_self, within', names, outer, hS, ?_, hmem, ?_⟩
    · exact Nat.succ.inj hlength
    · exact fun scope hscope => hfree scope (List.mem_cons_of_mem inner hscope)
  · rintro ⟨hinner, within, names, outer, rfl, rfl, hmem, hfree⟩
    refine ⟨inner :: within, names, outer, rfl, rfl, hmem, fun scope hscope => ?_⟩
    rcases List.mem_cons.mp hscope with rfl | hscope
    · exact hinner
    · exact hfree scope hscope

theorem IsDistance.unique {S : ScopeNames} {name : String} {use use' : Distance}
    (h : IsDistance S name use) (h' : IsDistance S name use') : use = use' := by
  induction S generalizing use use' with
  | nil =>
    have hnone {use : Distance} (hd : IsDistance [] name use) : use = none := by
      cases use with
      | none => rfl
      | some d =>
        obtain ⟨inner, names, outer, hscopes, -⟩ := hd
        simp at hscopes
    rw [hnone h, hnone h']
  | cons inner S ih =>
    -- either the innermost scope decides for both, or the outer ones do
    have hcases {use : Distance} (hd : IsDistance (inner :: S) name use) :
        (name ∈ inner ∧ use = some 0) ∨
          (name ∉ inner ∧ ∃ u, IsDistance S name u ∧ use = u.map (· + 1)) := by
      match use, hd with
      | none, hd =>
        obtain ⟨hnot, hd⟩ := isDistance_cons_none.mp hd
        exact .inr ⟨hnot, none, hd, rfl⟩
      | some 0, hd => exact .inl ⟨isDistance_cons_zero.mp hd, rfl⟩
      | some (d + 1), hd =>
        obtain ⟨hnot, hd⟩ := isDistance_cons_succ.mp hd
        exact .inr ⟨hnot, some d, hd, rfl⟩
    rcases hcases h with ⟨hmem, rfl⟩ | ⟨hnot, u, hu, rfl⟩
    · rcases hcases h' with ⟨-, rfl⟩ | ⟨hnot, -⟩
      · rfl
      · exact absurd hmem hnot
    · rcases hcases h' with ⟨hmem, -⟩ | ⟨-, u', hu', rfl⟩
      · exact absurd hmem hnot
      · rw [ih hu hu']

/-- The scopes after some names are declared in the innermost one.  The global
    scope is not among them, so declarations outside of all scopes are lost. -/
def declaring (names : List String) : ScopeNames → ScopeNames
  | [] => []
  | inner :: outer => (names ++ inner) :: outer

/-- Other names keep their distances. -/
theorem isDistance_declaring {names : List String} {S : ScopeNames} {name : String}
    {use : Distance} (h : name ∉ names) :
    IsDistance (declaring names S) name use ↔ IsDistance S name use := by
  cases S with
  | nil => exact Iff.rfl
  | cons inner S =>
    have hinner : name ∈ names ++ inner ↔ name ∈ inner := by simp [h]
    show IsDistance ((names ++ inner) :: S) name use ↔ _
    match use with
    | none => rw [isDistance_cons_none, isDistance_cons_none, hinner]
    | some 0 => rw [isDistance_cons_zero, isDistance_cons_zero, hinner]
    | some (d + 1) => rw [isDistance_cons_succ, isDistance_cons_succ, hinner]

/-- A name that the innermost scope does not have yet. -/
def Undeclared (name : String) : ScopeNames → Prop
  | [] => True
  | inner :: _ => name ∉ inner

/-- The names that a statement declares in the scope it stands in. -/
def Stmt.declares {ρ : Type} : Stmt ρ → List String
  | .var name _ => [name.text]
  | .function decl => [decl.name.text]
  | .classDecl name _ _ => [name.text]
  | .branch _ onTrue none => onTrue.declares
  | .branch _ onTrue (some onFalse) => onFalse.declares ++ onTrue.declares
  | .loop _ body => body.declares
  | _ => []

/-- The scope of a parameter list. -/
def paramNames (params : List Name) : List String := params.map (·.text)

/-- The scopes around the methods of a class. -/
def methodScopes (name : Name) (hasSuper : Bool) (scopes : ScopeNames) : ScopeNames :=
  let around := declaring [name.text] scopes
  [Keyword.thisWord.text] ::
    if hasSuper then [Keyword.superWord.text] :: around else around

/-! ### Programs and their annotation -/

mutual

/-- An expression and its annotation inside some scopes, in a class of the given kind.
    Outside of all classes `this` is never annotated. -/
inductive AnnotatedExpr : ClassKind → ScopeNames → SourceExpr → ResolvedExpr → Prop
  | literal {K S value} : AnnotatedExpr K S (.literal value) (.literal value)
  | group {K S e e'} : AnnotatedExpr K S e e' → AnnotatedExpr K S (.group e) (.group e')
  | unary {K S op line e e'} :
      AnnotatedExpr K S e e' → AnnotatedExpr K S (.unary op line e) (.unary op line e')
  | binary {K S op line l l' r r'} :
      AnnotatedExpr K S l l' → AnnotatedExpr K S r r' →
      AnnotatedExpr K S (.binary op line l r) (.binary op line l' r')
  | logical {K S op line l l' r r'} :
      AnnotatedExpr K S l l' → AnnotatedExpr K S r r' →
      AnnotatedExpr K S (.logical op line l r) (.logical op line l' r')
  | variable {K S name use} :
      IsDistance S name.text use → AnnotatedExpr K S (.variable name ()) (.variable name use)
  | assign {K S name use e e'} :
      AnnotatedExpr K S e e' → IsDistance S name.text use →
      AnnotatedExpr K S (.assign name () e) (.assign name use e')
  | call {K S f f' args args' line} :
      AnnotatedExpr K S f f' → AnnotatedExprs K S args args' →
      AnnotatedExpr K S (.call f args line) (.call f' args' line)
  | get {K S o o' name} : AnnotatedExpr K S o o' → AnnotatedExpr K S (.get o name) (.get o' name)
  | set {K S o o' name e e'} :
      AnnotatedExpr K S o o' → AnnotatedExpr K S e e' →
      AnnotatedExpr K S (.set o name e) (.set o' name e')
  | this {K S line use} :
      K ≠ .none → IsDistance S Keyword.thisWord.text use →
      AnnotatedExpr K S (.this line ()) (.this line use)
  | strayThis {S line} : AnnotatedExpr .none S (.this line ()) (.this line none)
  | super {K S line use method} :
      IsDistance S Keyword.superWord.text use →
      AnnotatedExpr K S (.super line () method) (.super line use method)
  | lambda {K S line params body body'} :
      AnnotatedStmts K (paramNames params :: S) body body' →
      AnnotatedExpr K S (.lambda line params body) (.lambda line params body')

/-- Some expressions and their annotations. -/
inductive AnnotatedExprs : ClassKind → ScopeNames → List SourceExpr → List ResolvedExpr → Prop
  | nil {K S} : AnnotatedExprs K S [] []
  | cons {K S e e' es es'} :
      AnnotatedExpr K S e e' → AnnotatedExprs K S es es' → AnnotatedExprs K S (e :: es) (e' :: es')

/-- A statement and its annotation.  The initializer of a variable, the body of
    a function and the methods of a class are inside its declaration. -/
inductive AnnotatedStmt : ClassKind → ScopeNames → SourceStmt → ResolvedStmt → Prop
  | expression {K S e e'} :
      AnnotatedExpr K S e e' → AnnotatedStmt K S (.expression e) (.expression e')
  | print {K S e e'} : AnnotatedExpr K S e e' → AnnotatedStmt K S (.print e) (.print e')
  | var {K S name} : AnnotatedStmt K S (.var name none) (.var name none)
  | varInit {K S name e e'} :
      AnnotatedExpr K (declaring [name.text] S) e e' →
      AnnotatedStmt K S (.var name (some e)) (.var name (some e'))
  | block {K S body body'} :
      AnnotatedStmts K ([] :: S) body body' → AnnotatedStmt K S (.block body) (.block body')
  | branch {K S c c' a a'} :
      AnnotatedExpr K S c c' → AnnotatedStmt K S a a' →
      AnnotatedStmt K S (.branch c a none) (.branch c' a' none)
  | branchElse {K S c c' a a' b b'} :
      AnnotatedExpr K S c c' → AnnotatedStmt K S a a' →
      AnnotatedStmt K (declaring a.declares S) b b' →
      AnnotatedStmt K S (.branch c a (some b)) (.branch c' a' (some b'))
  | loop {K S c c' body body'} :
      AnnotatedExpr K S c c' → AnnotatedStmt K S body body' →
      AnnotatedStmt K S (.loop c body) (.loop c' body')
  | function {K S decl decl'} :
      AnnotatedFun K (declaring [decl.name.text] S) decl decl' →
      AnnotatedStmt K S (.function decl) (.function decl')
  | ret {K S line} : AnnotatedStmt K S (.ret line none) (.ret line none)
  | retValue {K S line e e'} :
      AnnotatedExpr K S e e' → AnnotatedStmt K S (.ret line (some e)) (.ret line (some e'))
  | classDecl {K S name methods methods'} :
      AnnotatedFuns .plain (methodScopes name false S) methods methods' →
      AnnotatedStmt K S (.classDecl name none methods) (.classDecl name none methods')
  | subclassDecl {K S name superName use methods methods'} :
      IsDistance (declaring [name.text] S) superName.text use →
      AnnotatedFuns .derived (methodScopes name true S) methods methods' →
      AnnotatedStmt K S (.classDecl name (some (superName, ())) methods)
        (.classDecl name (some (superName, use)) methods')

/-- Some statements and their annotations: each is inside the declarations of
    those before it, and of no others. -/
inductive AnnotatedStmts : ClassKind → ScopeNames → List SourceStmt → List ResolvedStmt → Prop
  | nil {K S} : AnnotatedStmts K S [] []
  | cons {K S s s' ss ss'} :
      AnnotatedStmt K S s s' → AnnotatedStmts K (declaring s.declares S) ss ss' →
      AnnotatedStmts K S (s :: ss) (s' :: ss')

/-- A function and its annotation. -/
inductive AnnotatedFun : ClassKind → ScopeNames → SourceFun → ResolvedFun → Prop
  | mk {K S name params body body'} :
      AnnotatedStmts K (paramNames params :: S) body body' →
      AnnotatedFun K S (.mk name params body) (.mk name params body')

/-- Some methods and their annotations. -/
inductive AnnotatedFuns : ClassKind → ScopeNames → List SourceFun → List ResolvedFun → Prop
  | nil {K S} : AnnotatedFuns K S [] []
  | cons {K S m m' ms ms'} :
      AnnotatedFun K S m m' → AnnotatedFuns K S ms ms' → AnnotatedFuns K S (m :: ms) (m' :: ms')

end

end Treewalk
