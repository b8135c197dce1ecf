import Treewalk.Proofs.Scope.Lexical

/-! # Accepted programs

    Two kinds of conditions on a program.  `WellFormed` is what every program
    text guarantees: no name is a keyword, and a branch or loop body declares
    nothing in the scope around it.  `Accepted` is what resolution
    guarantees of a well-formed program it finds no fault with: the program is
    annotated, and it keeps the static rules. -/

namespace Treewalk

/-- A word that can be a name. -/
def Unreserved (name : String) : Prop := Keyword.ofText? name = none

/-- A statement that declares nothing in the scope it stands in. -/
def Stmt.IsPlain {ρ : Type} (s : Stmt ρ) : Prop := s.declares = []

/-! ### What a text guarantees -/

mutual

/-- An expression whose names are no keywords. -/
inductive WellFormedExpr : SourceExpr → Prop
  | literal {value} : WellFormedExpr (.literal value)
  | group {e} : WellFormedExpr e → WellFormedExpr (.group e)
  | unary {op line e} : WellFormedExpr e → WellFormedExpr (.unary op line e)
  | binary {op line l r} :
      WellFormedExpr l → WellFormedExpr r →
      WellFormedExpr (.binary op line l r)
  | logical {op line l r} :
      WellFormedExpr l → WellFormedExpr r →
      WellFormedExpr (.logical op line l r)
  | variable {name} : WellFormedExpr (.variable name ())
  | assign {name e} :
      Unreserved name.text → WellFormedExpr e → WellFormedExpr (.assign name () e)
  | call {f args line} :
      WellFormedExpr f → (∀ e ∈ args, WellFormedExpr e) →
      WellFormedExpr (.call f args line)
  | get {o name} : WellFormedExpr o → WellFormedExpr (.get o name)
  | set {o name e} :
      WellFormedExpr o → WellFormedExpr e → WellFormedExpr (.set o name e)
  | this {line} : WellFormedExpr (.this line ())
  | super {line method} : WellFormedExpr (.super line () method)
  | lambda {line params body} :
      (∀ p ∈ params, Unreserved p.text) → (∀ s ∈ body, WellFormedStmt s) →
      WellFormedExpr (.lambda line params body)

/-- A statement whose names are no keywords, and whose branches and loop bodies are
    plain. -/
inductive WellFormedStmt : SourceStmt → Prop
  | expression {e} : WellFormedExpr e → WellFormedStmt (.expression e)
  | print {e} : WellFormedExpr e → WellFormedStmt (.print e)
  | var {name init} :
      Unreserved name.text → (∀ e, init = some e → WellFormedExpr e) →
      WellFormedStmt (.var name init)
  | block {body} : (∀ s ∈ body, WellFormedStmt s) → WellFormedStmt (.block body)
  | branch {c a b} :
      WellFormedExpr c → WellFormedStmt a →
      (∀ s, b = some s → WellFormedStmt s) →
      a.IsPlain → (∀ s, b = some s → s.IsPlain) →
      WellFormedStmt (.branch c a b)
  | loop {c body} :
      WellFormedExpr c → WellFormedStmt body → body.IsPlain →
      WellFormedStmt (.loop c body)
  | function {decl} :
      Unreserved decl.name.text → WellFormedFun decl →
      WellFormedStmt (.function decl)
  | ret {line value} :
      (∀ e, value = some e → WellFormedExpr e) → WellFormedStmt (.ret line value)
  | classDecl {name superclass methods} :
      Unreserved name.text → (∀ m ∈ methods, WellFormedFun m) →
      WellFormedStmt (.classDecl name superclass methods)

/-- A function whose names are no keywords. -/
inductive WellFormedFun : SourceFun → Prop
  | mk {name params body} :
      (∀ p ∈ params, Unreserved p.text) → (∀ s ∈ body, WellFormedStmt s) →
      WellFormedFun (.mk name params body)

end

/-! ### What resolution guarantees -/

/-- Parameters that can share a scope. -/
def DistinctParams (params : List Name) : Prop :=
  (paramNames params).Nodup ∧ ∀ p ∈ params, Unreserved p.text

/-- A name that can be declared in some scopes. -/
def Declarable (name : Name) (S : ScopeNames) : Prop :=
  Unreserved name.text ∧ Undeclared name.text S

mutual

/-- An accepted expression and its annotation, at a place inside some scopes. -/
inductive AcceptedExpr : Enclosing → ScopeNames → SourceExpr → ResolvedExpr → Prop
  | literal {P S value} : AcceptedExpr P S (.literal value) (.literal value)
  | group {P S e e'} : AcceptedExpr P S e e' → AcceptedExpr P S (.group e) (.group e')
  | unary {P S op line e e'} :
      AcceptedExpr P S e e' → AcceptedExpr P S (.unary op line e) (.unary op line e')
  | binary {P S op line l l' r r'} :
      AcceptedExpr P S l l' → AcceptedExpr P S r r' →
      AcceptedExpr P S (.binary op line l r) (.binary op line l' r')
  | logical {P S op line l l' r r'} :
      AcceptedExpr P S l l' → AcceptedExpr P S r r' →
      AcceptedExpr P S (.logical op line l r) (.logical op line l' r')
  | variable {P S name use} :
      IsDistance S name.text use → AcceptedExpr P S (.variable name ()) (.variable name use)
  | assign {P S name use e e'} :
      Unreserved name.text → AcceptedExpr P S e e' → IsDistance S name.text use →
      AcceptedExpr P S (.assign name () e) (.assign name use e')
  | call {P S f f' args args' line} :
      AcceptedExpr P S f f' → AcceptedExprs P S args args' →
      AcceptedExpr P S (.call f args line) (.call f' args' line)
  | get {P S o o' name} : AcceptedExpr P S o o' → AcceptedExpr P S (.get o name) (.get o' name)
  | set {P S o o' name e e'} :
      AcceptedExpr P S o o' → AcceptedExpr P S e e' →
      AcceptedExpr P S (.set o name e) (.set o' name e')
  | this {P S line use} :
      P.cls ≠ .none → IsDistance S Keyword.thisWord.text use →
      AcceptedExpr P S (.this line ()) (.this line use)
  | super {P S line use method} :
      P.cls = .derived → IsDistance S Keyword.superWord.text use →
      AcceptedExpr P S (.super line () method) (.super line use method)
  | lambda {P S line params body body'} :
      DistinctParams params →
      AcceptedStmts { P with function := .function } (paramNames params :: S) body body' →
      AcceptedExpr P S (.lambda line params body) (.lambda line params body')

/-- Some accepted expressions and their annotations. -/
inductive AcceptedExprs :
    Enclosing → ScopeNames → List SourceExpr → List ResolvedExpr → Prop
  | nil {P S} : AcceptedExprs P S [] []
  | cons {P S e e' es es'} :
      AcceptedExpr P S e e' → AcceptedExprs P S es es' →
      AcceptedExprs P S (e :: es) (e' :: es')

/-- An accepted statement and its annotation. -/
inductive AcceptedStmt : Enclosing → ScopeNames → SourceStmt → ResolvedStmt → Prop
  | expression {P S e e'} :
      AcceptedExpr P S e e' → AcceptedStmt P S (.expression e) (.expression e')
  | print {P S e e'} : AcceptedExpr P S e e' → AcceptedStmt P S (.print e) (.print e')
  | var {P S name} : Declarable name S → AcceptedStmt P S (.var name none) (.var name none)
  | varInit {P S name e e'} :
      Declarable name S → AcceptedExpr P (declaring [name.text] S) e e' →
      AcceptedStmt P S (.var name (some e)) (.var name (some e'))
  | block {P S body body'} :
      AcceptedStmts P ([] :: S) body body' → AcceptedStmt P S (.block body) (.block body')
  | branch {P S c c' a a'} :
      AcceptedExpr P S c c' → AcceptedStmt P S a a' → a.IsPlain →
      AcceptedStmt P S (.branch c a none) (.branch c' a' none)
  | branchElse {P S c c' a a' b b'} :
      AcceptedExpr P S c c' → AcceptedStmt P S a a' → AcceptedStmt P S b b' →
      a.IsPlain → b.IsPlain →
      AcceptedStmt P S (.branch c a (some b)) (.branch c' a' (some b'))
  | loop {P S c c' body body'} :
      AcceptedExpr P S c c' → AcceptedStmt P S body body' → body.IsPlain →
      AcceptedStmt P S (.loop c body) (.loop c' body')
  | function {P S decl decl'} :
      Declarable decl.name S → AcceptedFun P .function (declaring [decl.name.text] S) decl decl' →
      AcceptedStmt P S (.function decl) (.function decl')
  | ret {P S line} :
      P.function ≠ .none → AcceptedStmt P S (.ret line none) (.ret line none)
  | retValue {P S line e e'} :
      P.function ≠ .none → P.function ≠ .initializer → AcceptedExpr P S e e' →
      AcceptedStmt P S (.ret line (some e)) (.ret line (some e'))
  | classDecl {P S name methods methods'} :
      Declarable name S →
      AcceptedFuns { P with cls := .plain } (methodScopes name false S) methods methods' →
      AcceptedStmt P S (.classDecl name none methods) (.classDecl name none methods')
  | subclassDecl {P S name superName use methods methods'} :
      Declarable name S → superName.text ≠ name.text →
      IsDistance (declaring [name.text] S) superName.text use →
      AcceptedFuns { P with cls := .derived } (methodScopes name true S) methods methods' →
      AcceptedStmt P S (.classDecl name (some (superName, ())) methods)
        (.classDecl name (some (superName, use)) methods')

/-- Some accepted statements and their annotations. -/
inductive AcceptedStmts :
    Enclosing → ScopeNames → List SourceStmt → List ResolvedStmt → Prop
  | nil {P S} : AcceptedStmts P S [] []
  | cons {P S s s' ss ss'} :
      AcceptedStmt P S s s' → AcceptedStmts P (declaring s.declares S) ss ss' →
      AcceptedStmts P S (s :: ss) (s' :: ss')

/-- An accepted function of a kind and its annotation. -/
inductive AcceptedFun :
    Enclosing → FunctionKind → ScopeNames → SourceFun → ResolvedFun → Prop
  | mk {P kind S name params body body'} :
      DistinctParams params →
      AcceptedStmts { P with function := kind } (paramNames params :: S) body body' →
      AcceptedFun P kind S (.mk name params body) (.mk name params body')

/-- Some accepted methods and their annotations. -/
inductive AcceptedFuns :
    Enclosing → ScopeNames → List SourceFun → List ResolvedFun → Prop
  | nil {P S} : AcceptedFuns P S [] []
  | cons {P S m m' ms ms'} :
      AcceptedFun P (.ofMethod m.name.text) S m m' → AcceptedFuns P S ms ms' →
      AcceptedFuns P S (m :: ms) (m' :: ms')

end

end Treewalk
