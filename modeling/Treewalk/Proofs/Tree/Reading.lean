import Treewalk.Proofs.Grammar.Tokens
import Treewalk.Proofs.Grammar.WellFormed
import Treewalk.Proofs.Number.Reading
import Treewalk.Proofs.Renumbering
import Treewalk.Proofs.Scope.Rules
import Treewalk.Proofs.Tree.Nested

/-! # Printed trees are read back

    A nested text tells which tree it was printed for.  What kind of node it is follows
    from the word in front, from how many items there are and from which of them are lists;
    a word that is no constant is a name.  So two trees with the same printed form differ
    in nothing but their line numbers. -/

namespace Treewalk

/-! ### Leaves -/

/-- The expression that a word stands for: a constant, the receiver, or the use of a
    variable. -/
def wordExpr (text : String) : SourceExpr :=
  if text = "nil" then .literal .nil
  else if text = "true" then .literal (.bool true)
  else if text = "false" then .literal (.bool false)
  else if text = "this" then .this 0 ()
  else .variable ⟨text, 0⟩ ()

/-- The expression that an atom stands for. -/
def leaf? (text : String) : Option SourceExpr :=
  match text.toList with
  | [] => none
  | c :: cs =>
    if c = '"' then some (.literal (.string (String.ofList cs.dropLast)))
    else if isNameStart c then some (wordExpr text)
    else (Number.ofText? text).map fun x => .literal (.number x)

/-! ### Nodes -/

/-- The operator with one operand that is written like this. -/
def UnaryOp.ofText? (head : String) : Option UnaryOp :=
  [.negate, .not].find? (·.symbol.text == head)

/-- The operator with two operands that is written like this. -/
def BinaryOp.ofText? (head : String) : Option BinaryOp :=
  [.equal, .notEqual, .greater, .greaterEqual, .less, .lessEqual, .add, .subtract, .multiply,
    .divide].find? (·.symbol.text == head)

/-- The short-circuit operator that is written like this. -/
def LogicalOp.ofText? (head : String) : Option LogicalOp :=
  [.or, .and].find? (·.keyword.text == head)

/-- The expression of a node with one item behind its head. -/
def ofOne? (head : String) (e : SourceExpr) : Option SourceExpr :=
  if head = "group" then some (.group e)
  else if head = "super" then
    match e with
    | .variable method _ => some (.super 0 () method)
    | _ => none
  else (UnaryOp.ofText? head).map fun op => .unary op 0 e

/-- The expression of a node with two items behind its head. -/
def ofTwo? (head : String) (l r : SourceExpr) : Option SourceExpr :=
  if head = "=" then
    match l with
    | .variable name _ => some (.assign name () r)
    | .get o name => some (.set o name r)
    | _ => none
  else if head = "." then
    match r with
    | .variable name _ => some (.get l name)
    | _ => none
  else match BinaryOp.ofText? head with
    | some op => some (.binary op 0 l r)
    | none => (LogicalOp.ofText? head).map fun op => .logical op 0 l r

/-- The expression of a node whose items are read as expressions. -/
def compound? (head : String) (es : List SourceExpr) : Option SourceExpr :=
  if head = "call" then
    match es with
    | f :: args => some (.call f args 0)
    | [] => none
  else match es with
    | [e] => ofOne? head e
    | [l, r] => ofTwo? head l r
    | _ => none

/-- The statement of a node whose items are read as expressions. -/
def simple? (head : String) : List SourceExpr → Option SourceStmt
  | [] => if head = "return" then some (.ret 0 none) else none
  | [e] =>
    if head = ";" then some (.expression e)
    else if head = "print" then some (.print e)
    else if head = "return" then some (.ret 0 (some e))
    else if head = "var" then
      match e with
      | .variable name _ => some (.var name none)
      | _ => none
    else none
  | [.variable name _, e] => if head = "var" then some (.var name (some e)) else none
  | _ => none

/-- The names in a list of words. -/
def names? : List Nested → Option (List Name)
  | [] => some []
  | .atom text :: xs => (names? xs).map (⟨text, 0⟩ :: ·)
  | .node _ :: _ => none

/-- The functions that are declared, if there is nothing else. -/
def functions? : List SourceStmt → Option (List SourceFun)
  | [] => some []
  | .function decl :: ss => (functions? ss).map (decl :: ·)
  | _ :: _ => none

mutual

/-- The expression that is printed like this. -/
def Nested.expr? : Nested → Option SourceExpr
  | .atom text => leaf? text
  | .node (.atom head :: parts) =>
    if head = "fun" then
      match parts with
      | .node params :: body =>
        match names? params, stmts? body with
        | some params, some body => some (.lambda 0 params body)
        | _, _ => none
      | _ => none
    else (exprs? parts).bind (compound? head)
  | .node _ => none

/-- The expressions that are printed like this. -/
def exprs? : List Nested → Option (List SourceExpr)
  | [] => some []
  | x :: xs =>
    match x.expr?, exprs? xs with
    | some e, some es => some (e :: es)
    | _, _ => none

/-- The statement that is printed like this. -/
def Nested.stmt? : Nested → Option SourceStmt
  | .node (.atom head :: parts) =>
    if head = "block" then (stmts? parts).map .block
    else if head = "fun" then
      match parts with
      | .atom name :: .node params :: body =>
        match names? params, stmts? body with
        | some params, some body => some (.function (.mk ⟨name, 0⟩ params body))
        | _, _ => none
      | _ => none
    else if head = "class" then
      match parts with
      | .atom name :: .atom _ :: .atom superName :: methods =>
        ((stmts? methods).bind functions?).map
          (.classDecl ⟨name, 0⟩ (some (⟨superName, 0⟩, ())))
      | .atom name :: methods =>
        ((stmts? methods).bind functions?).map (.classDecl ⟨name, 0⟩ none)
      | _ => none
    else if head = "if" then
      match parts with
      | c :: branches =>
        match c.expr?, stmts? branches with
        | some c, some [a] => some (.branch c a none)
        | some c, some [a, b] => some (.branch c a (some b))
        | _, _ => none
      | _ => none
    else if head = "while" then
      match parts with
      | [c, body] =>
        match c.expr?, body.stmt? with
        | some c, some body => some (.loop c body)
        | _, _ => none
      | _ => none
    else (exprs? parts).bind (simple? head)
  | _ => none

/-- The statements that are printed like this. -/
def stmts? : List Nested → Option (List SourceStmt)
  | [] => some []
  | x :: xs =>
    match x.stmt?, stmts? xs with
    | some s, some ss => some (s :: ss)
    | _, _ => none

end

/-! ### Literals -/

section Literals

variable {ρ : Type}

mutual

/-- The constants in an expression. -/
def Expr.literals : Expr ρ → List Literal
  | .literal value => [value]
  | .variable _ _ | .this _ _ | .super _ _ _ => []
  | .group e | .unary _ _ e | .assign _ _ e | .get e _ => e.literals
  | .binary _ _ l r | .logical _ _ l r | .set l _ r => l.literals ++ r.literals
  | .call f args _ => f.literals ++ literalsOfExprs args
  | .lambda _ _ body => literalsOfStmts body

/-- The constants in some expressions. -/
def literalsOfExprs : List (Expr ρ) → List Literal
  | [] => []
  | e :: es => e.literals ++ literalsOfExprs es

/-- The constants in a statement. -/
def Stmt.literals : Stmt ρ → List Literal
  | .expression e | .print e | .var _ (some e) | .ret _ (some e) => e.literals
  | .var _ none | .ret _ none => []
  | .block body => literalsOfStmts body
  | .branch c a none | .loop c a => c.literals ++ a.literals
  | .branch c a (some b) => c.literals ++ (a.literals ++ b.literals)
  | .function decl => decl.literals
  | .classDecl _ _ methods => literalsOfFuns methods

/-- The constants in some statements. -/
def literalsOfStmts : List (Stmt ρ) → List Literal
  | [] => []
  | s :: ss => s.literals ++ literalsOfStmts ss

/-- The constants in a function or method. -/
def FunDecl.literals : FunDecl ρ → List Literal
  | .mk _ _ body => literalsOfStmts body

/-- The constants in some functions. -/
def literalsOfFuns : List (FunDecl ρ) → List Literal
  | [] => []
  | m :: ms => m.literals ++ literalsOfFuns ms

end

end Literals

/-- The printed form of a constant tells which it is: a string holds no double quote, and
    a number is finite. -/
def Literal.IsLegible : Literal → Prop
  | .string s => '"' ∉ s.toList
  | .number x => Number.IsFinite x
  | .nil | .bool _ => True

instance (v : Literal) : Decidable v.IsLegible :=
  match v with
  | .string s => inferInstanceAs (Decidable ('"' ∉ s.toList))
  | .number x => inferInstanceAs (Decidable (Number.IsFinite x))
  | .nil | .bool _ => .isTrue trivial

/-! ### Reading leaves -/

/-- A class of characters without the marks of the printed form is one of words. -/
theorem isInner_of_class {p : Char → Bool} (hp : [' ', '(', ')', '"'].all (fun d => !p d) = true)
    {c : Char} (h : p c = true) : isInner c = true := by
  simp only [List.all_cons, List.all_nil, Bool.and_eq_true, Bool.not_eq_true'] at hp
  have hne {d : Char} (hd : p d = false) : c ≠ d := by
    rintro rfl
    rw [h] at hd
    cases hd
  simp [isInner, hne hp.1, hne hp.2.1, hne hp.2.2.1, hne hp.2.2.2.1]

theorem isInner_nameChar {c : Char} (h : isNameChar c = true) : isInner c = true :=
  isInner_of_class (by decide) h

theorem isInner_numeralChar {c : Char} (h : Number.isNumeralChar c = true) : isInner c = true :=
  isInner_of_class (by decide) h

theorem IsWord.isAtom {text : String} (h : IsWord text) : IsAtom text := by
  obtain ⟨c, cs, htext, hc, hcs⟩ := h
  refine .inl ⟨by simp [htext], ?_⟩
  rw [htext]
  exact List.forall_mem_cons.mpr
    ⟨isInner_nameChar (Bool.or_eq_true_iff.mpr (.inl hc)), fun x hx => isInner_nameChar (hcs x hx)⟩

theorem leaf?_word {text : String} (h : IsWord text) : leaf? text = some (wordExpr text) := by
  obtain ⟨c, cs, htext, hc, -⟩ := h
  have hquote : c ≠ '"' := by
    rintro rfl
    cases hc
  simp [leaf?, htext, hquote, hc]

/-- A name is none of the words that stand for themselves. -/
theorem leaf?_name {name : String} (h : (Lexeme.identifier name).HasForm) :
    leaf? name = some (.variable ⟨name, 0⟩ ()) := by
  obtain ⟨hword, hkeyword⟩ := h
  have hnil : name ≠ "nil" := hkeyword .nilWord
  have htrue : name ≠ "true" := hkeyword .trueWord
  have hfalse : name ≠ "false" := hkeyword .falseWord
  have hthis : name ≠ "this" := hkeyword .thisWord
  rw [leaf?_word hword, wordExpr, if_neg hnil, if_neg htrue, if_neg hfalse, if_neg hthis]

theorem Literal.IsLegible.isAtom {v : Literal} (h : v.IsLegible) : IsAtom v.render := by
  cases v with
  | nil => exact isAtom_of_all (by decide)
  | bool b => cases b <;> exact isAtom_of_all (by decide)
  | number x =>
    obtain ⟨⟨c, rest, htext, -⟩, hall⟩ := Number.chars_of_text h
    exact .inl ⟨by simp [Literal.render, htext], fun c hc => isInner_numeralChar (hall c hc)⟩
  | string s => exact .inr ⟨s.toList, h, by simp [Literal.render]⟩

theorem Literal.IsLegible.leaf? {v : Literal} (h : v.IsLegible) :
    leaf? v.render = some (.literal v) := by
  cases v with
  | nil => rfl
  | bool b => cases b <;> rfl
  | number x =>
    obtain ⟨⟨c, rest, htext, hc⟩, -⟩ := Number.chars_of_text h
    have hquote : c ≠ '"' := by
      rintro rfl
      exact absurd hc (by decide)
    have hname : isNameStart c = false := by
      rcases hc with rfl | hdigit
      · rfl
      · by_contra hstart
        rw [isDigit_nameStart (by simpa using hstart)] at hdigit
        cases hdigit
    simp only [Treewalk.leaf?, Literal.render, htext, if_neg hquote, hname]
    rw [if_neg Bool.false_ne_true, Number.ofText?_text h]
    rfl
  | string s => simp [Treewalk.leaf?, Literal.render]

/-! ### Reading nodes -/

/-- The nested text is plain and read as the given expression, up to line numbers. -/
structure Nested.IsExpr (x : Nested) (e : SourceExpr) : Prop where
  plain : x.IsPlain
  read : x.expr? = some (e.renumber fun _ => 0)

/-- The nested texts are plain and read as the given expressions. -/
structure AreExprs (xs : List Nested) (es : List SourceExpr) : Prop where
  plain : ArePlain xs
  read : exprs? xs = some (es.map (·.renumber fun _ => 0))

theorem AreExprs.nil : AreExprs [] [] := ⟨trivial, rfl⟩

theorem AreExprs.cons {x : Nested} {xs : List Nested} {e : SourceExpr} {es : List SourceExpr}
    (hxs : AreExprs xs es) (hx : x.IsExpr e) : AreExprs (x :: xs) (e :: es) :=
  ⟨⟨hx.plain, hxs.plain⟩, by rw [exprs?, hx.read, hxs.read]; rfl⟩

theorem isExpr_name {n : Name} (h : (Lexeme.identifier n.text).HasForm) :
    (Nested.atom n.text).IsExpr (.variable n ()) :=
  ⟨h.1.isAtom, by rw [Nested.expr?, leaf?_name h]; rfl⟩

theorem expr?_compound {head : String} (h : head ≠ "fun") (parts : List Nested) :
    (Nested.node (.atom head :: parts)).expr? = (exprs? parts).bind (compound? head) := by
  unfold Nested.expr?
  exact if_neg h

/-- A node whose items are read as expressions. -/
theorem AreExprs.isExpr {head : String} {xs : List Nested} {es : List SourceExpr} {e : SourceExpr}
    (h : AreExprs xs es) (hatom : IsAtom head) (hfun : head ≠ "fun")
    (hread : compound? head (es.map (·.renumber fun _ => 0)) = some (e.renumber fun _ => 0)) :
    (Nested.node (.atom head :: xs)).IsExpr e :=
  ⟨⟨hatom, h.plain⟩, by rw [expr?_compound hfun, h.read]; exact hread⟩

/-- The nested text is plain and read as the given statement, up to line numbers. -/
structure Nested.IsStmt (x : Nested) (s : SourceStmt) : Prop where
  plain : x.IsPlain
  read : x.stmt? = some (s.renumber fun _ => 0)

/-- The nested texts are plain and read as the given statements. -/
structure AreStmts (xs : List Nested) (ss : List SourceStmt) : Prop where
  plain : ArePlain xs
  read : stmts? xs = some (ss.map (·.renumber fun _ => 0))

theorem AreStmts.nil : AreStmts [] [] := ⟨trivial, rfl⟩

theorem AreStmts.cons {x : Nested} {xs : List Nested} {s : SourceStmt} {ss : List SourceStmt}
    (hxs : AreStmts xs ss) (hx : x.IsStmt s) : AreStmts (x :: xs) (s :: ss) :=
  ⟨⟨hx.plain, hxs.plain⟩, by rw [stmts?, hx.read, hxs.read]; rfl⟩

theorem stmt?_simple {head : String} (h : head ∉ ["block", "fun", "class", "if", "while"])
    (parts : List Nested) :
    (Nested.node (.atom head :: parts)).stmt? = (exprs? parts).bind (simple? head) := by
  simp only [List.mem_cons, List.not_mem_nil, or_false, not_or] at h
  obtain ⟨hblock, hfun, hclass, hif, hwhile⟩ := h
  unfold Nested.stmt?
  simp only [if_neg hblock, if_neg hfun, if_neg hclass, if_neg hif, if_neg hwhile]

/-- A statement whose items are read as expressions. -/
theorem AreExprs.isStmt {head : String} {xs : List Nested} {es : List SourceExpr} {s : SourceStmt}
    (h : AreExprs xs es) (hatom : IsAtom head)
    (hhead : head ∉ ["block", "fun", "class", "if", "while"])
    (hread : simple? head (es.map (·.renumber fun _ => 0)) = some (s.renumber fun _ => 0)) :
    (Nested.node (.atom head :: xs)).IsStmt s :=
  ⟨⟨hatom, h.plain⟩, by rw [stmt?_simple hhead, h.read]; exact hread⟩

theorem names?_map (params : List Name) :
    names? (params.map fun n => .atom n.text) = some (params.map (·.renumber fun _ => 0)) := by
  induction params with
  | nil => rfl
  | cons n params ih =>
    rw [List.map_cons, names?, ih]
    rfl

theorem arePlain_names {params : List Name}
    (h : ∀ t ∈ params.map ident, t.lexeme.HasForm) : ArePlain (params.map fun n => .atom n.text) := by
  induction params with
  | nil => trivial
  | cons n params ih =>
    obtain ⟨hn, hparams⟩ := List.forall_mem_cons.mp h
    exact ⟨IsWord.isAtom hn.1, ih hparams⟩

theorem functions?_map (ms : List SourceFun) :
    functions? (ms.map fun m => .function m) = some ms := by
  induction ms with
  | nil => rfl
  | cons m ms ih =>
    rw [List.map_cons, functions?, ih]
    rfl

/-- Methods are read as functions that are declared. -/
theorem AreStmts.methods {xs : List Nested} {ms : List SourceFun}
    (h : AreStmts xs (ms.map fun m => .function m)) :
    (stmts? xs).bind functions? = some (ms.map (·.renumber fun _ => 0)) := by
  have hrenumber : (ms.map fun m => Stmt.function m).map (·.renumber fun _ => 0) =
      (ms.map (·.renumber fun _ => 0)).map fun m => .function m := by
    rw [List.map_map, List.map_map]
    rfl
  rw [h.read, hrenumber]
  exact functions?_map _

/-- The nested text of a function that is declared. -/
theorem AreStmts.function {xs : List Nested} {body : List SourceStmt} {name : Name}
    {params : List Name} (h : AreStmts xs body) (hname : (ident name).lexeme.HasForm)
    (hparams : ∀ t ∈ params.map ident, t.lexeme.HasForm) :
    (Nested.node (.atom "fun" :: .atom name.text :: .node (params.map fun n => .atom n.text) ::
      xs)).IsStmt (.function (.mk name params body)) := by
  refine ⟨⟨isAtom_of_all (by decide), hname.1.isAtom, arePlain_names hparams, h.plain⟩, ?_⟩
  unfold Nested.stmt?
  rw [if_neg (by decide), if_pos rfl]
  simp only [names?_map, h.read, Stmt.renumber, FunDecl.renumber, renumberStmts_eq_map]
  rfl

/-! ### Reading trees -/

mutual

/-- The nested text of an expression is read as the expression. -/
theorem Expr.isExpr_nested : (e : SourceExpr) → (∀ t ∈ e.tokens, t.lexeme.HasForm) →
    (∀ v ∈ e.literals, v.IsLegible) → e.nested.IsExpr e
  | .literal v, _, hl => by
    have hv := hl v List.mem_cons_self
    exact ⟨hv.isAtom, by rw [Expr.nested, Nested.expr?, hv.leaf?]; rfl⟩
  | .group e, ht, hl =>
    (AreExprs.nil.cons (e.isExpr_nested ht hl)).isExpr (isAtom_of_all (by decide)) (by decide) rfl
  | .unary op line e, ht, hl => by
    rw [Expr.tokens, List.forall_mem_cons] at ht
    have he := AreExprs.nil.cons (e.isExpr_nested ht.2 hl)
    cases op <;> exact he.isExpr (isAtom_of_all (by decide)) (by decide) rfl
  | .binary op line l r, ht, hl => by
    rw [Expr.tokens, List.forall_mem_cons, List.forall_mem_append] at ht
    rw [Expr.literals, List.forall_mem_append] at hl
    have hes := (AreExprs.nil.cons (r.isExpr_nested ht.2.2 hl.2)).cons
      (l.isExpr_nested ht.2.1 hl.1)
    cases op <;> exact hes.isExpr (isAtom_of_all (by decide)) (by decide) rfl
  | .logical op line l r, ht, hl => by
    rw [Expr.tokens, List.forall_mem_cons, List.forall_mem_append] at ht
    rw [Expr.literals, List.forall_mem_append] at hl
    have hes := (AreExprs.nil.cons (r.isExpr_nested ht.2.2 hl.2)).cons
      (l.isExpr_nested ht.2.1 hl.1)
    cases op <;> exact hes.isExpr (isAtom_of_all (by decide)) (by decide) rfl
  | .variable name use, ht, _ => isExpr_name (ht (ident name) List.mem_cons_self)
  | .assign name use e, ht, hl => by
    rw [Expr.tokens, List.forall_mem_cons] at ht
    exact ((AreExprs.nil.cons (e.isExpr_nested ht.2 hl)).cons (isExpr_name ht.1)).isExpr
      (isAtom_of_all (by decide)) (by decide) rfl
  | .get o name, ht, hl => by
    rw [Expr.tokens, List.forall_mem_cons] at ht
    exact ((AreExprs.nil.cons (isExpr_name ht.1)).cons (o.isExpr_nested ht.2 hl)).isExpr
      (isAtom_of_all (by decide)) (by decide) rfl
  | .set o name e, ht, hl => by
    rw [Expr.tokens, List.forall_mem_cons, List.forall_mem_append] at ht
    rw [Expr.literals, List.forall_mem_append] at hl
    have htarget : (Nested.node [.atom ".", o.nested, .atom name.text]).IsExpr (.get o name) :=
      ((AreExprs.nil.cons (isExpr_name ht.1)).cons (o.isExpr_nested ht.2.1 hl.1)).isExpr
        (isAtom_of_all (by decide)) (by decide) rfl
    exact ((AreExprs.nil.cons (e.isExpr_nested ht.2.2 hl.2)).cons htarget).isExpr
      (isAtom_of_all (by decide)) (by decide) rfl
  | .call f args line, ht, hl => by
    rw [Expr.tokens, List.forall_mem_cons, List.forall_mem_append] at ht
    rw [Expr.literals, List.forall_mem_append] at hl
    have hes := (areExprs_nested args ht.2.2 hl.2).cons (f.isExpr_nested ht.2.1 hl.1)
    refine hes.isExpr (isAtom_of_all (by decide)) (by decide) ?_
    rw [List.map_cons, Expr.renumber, renumberExprs_eq_map]
    rfl
  | .this line use, _, _ => ⟨isAtom_of_all (by decide), rfl⟩
  | .super line use method, ht, _ => by
    rw [Expr.tokens, List.forall_mem_cons, List.forall_mem_cons] at ht
    exact (AreExprs.nil.cons (isExpr_name ht.2.1)).isExpr (isAtom_of_all (by decide)) (by decide) rfl
  | .lambda line params body, ht, hl => by
    rw [Expr.tokens, List.forall_mem_cons, List.forall_mem_append] at ht
    have hbody := areStmts_nested body ht.2.2 hl
    refine ⟨⟨isAtom_of_all (by decide), arePlain_names ht.2.1, hbody.plain⟩, ?_⟩
    rw [Expr.nested]
    unfold Nested.expr?
    rw [if_pos rfl]
    simp only [names?_map, hbody.read, Expr.renumber, renumberStmts_eq_map]

theorem areExprs_nested : (es : List SourceExpr) → (∀ t ∈ tokensOfExprs es, t.lexeme.HasForm) →
    (∀ v ∈ literalsOfExprs es, v.IsLegible) → AreExprs (nestedExprs es) es
  | [], _, _ => .nil
  | e :: es, ht, hl => by
    rw [tokensOfExprs, List.forall_mem_append] at ht
    rw [literalsOfExprs, List.forall_mem_append] at hl
    exact (areExprs_nested es ht.2 hl.2).cons (e.isExpr_nested ht.1 hl.1)

/-- The nested text of a statement is read as the statement. -/
theorem Stmt.isStmt_nested : (s : SourceStmt) → (∀ t ∈ s.tokens, t.lexeme.HasForm) →
    (∀ v ∈ s.literals, v.IsLegible) → s.nested.IsStmt s
  | .expression e, ht, hl | .print e, ht, hl =>
    (AreExprs.nil.cons (e.isExpr_nested ht hl)).isStmt (isAtom_of_all (by decide)) (by decide) rfl
  | .var name none, ht, _ =>
    (AreExprs.nil.cons (isExpr_name (ht (ident name) List.mem_cons_self))).isStmt
      (isAtom_of_all (by decide)) (by decide) rfl
  | .var name (some e), ht, hl => by
    rw [Stmt.tokens, List.forall_mem_cons] at ht
    exact ((AreExprs.nil.cons (e.isExpr_nested ht.2 hl)).cons (isExpr_name ht.1)).isStmt
      (isAtom_of_all (by decide)) (by decide) rfl
  | .block body, ht, hl => by
    have hbody := areStmts_nested body ht hl
    refine ⟨⟨isAtom_of_all (by decide), hbody.plain⟩, ?_⟩
    rw [Stmt.nested]
    unfold Nested.stmt?
    rw [if_pos rfl, hbody.read, Stmt.renumber, renumberStmts_eq_map]
    rfl
  | .branch c a none, ht, hl => by
    rw [Stmt.tokens, List.forall_mem_append] at ht
    rw [Stmt.literals, List.forall_mem_append] at hl
    have hc := c.isExpr_nested ht.1 hl.1
    have hbranches := AreStmts.nil.cons (a.isStmt_nested ht.2 hl.2)
    refine ⟨⟨isAtom_of_all (by decide), hc.plain, hbranches.plain⟩, ?_⟩
    rw [Stmt.nested]
    unfold Nested.stmt?
    rw [if_neg (by decide), if_neg (by decide), if_neg (by decide), if_pos rfl]
    simp only [hc.read, hbranches.read]
    rfl
  | .branch c a (some b), ht, hl => by
    rw [Stmt.tokens, List.forall_mem_append, List.forall_mem_append] at ht
    rw [Stmt.literals, List.forall_mem_append, List.forall_mem_append] at hl
    have hc := c.isExpr_nested ht.1 hl.1
    have hbranches := (AreStmts.nil.cons (b.isStmt_nested ht.2.2 hl.2.2)).cons
      (a.isStmt_nested ht.2.1 hl.2.1)
    refine ⟨⟨isAtom_of_all (by decide), hc.plain, hbranches.plain⟩, ?_⟩
    rw [Stmt.nested]
    unfold Nested.stmt?
    rw [if_neg (by decide), if_neg (by decide), if_neg (by decide), if_pos rfl]
    simp only [hc.read, hbranches.read]
    rfl
  | .loop c body, ht, hl => by
    rw [Stmt.tokens, List.forall_mem_append] at ht
    rw [Stmt.literals, List.forall_mem_append] at hl
    have hc := c.isExpr_nested ht.1 hl.1
    have hbody := body.isStmt_nested ht.2 hl.2
    refine ⟨⟨isAtom_of_all (by decide), hc.plain, hbody.plain, trivial⟩, ?_⟩
    rw [Stmt.nested]
    unfold Nested.stmt?
    rw [if_neg (by decide), if_neg (by decide), if_neg (by decide), if_neg (by decide), if_pos rfl]
    simp only [hc.read, hbody.read]
    rfl
  | .function decl, ht, hl => decl.isStmt_nested ht hl
  | .ret line none, _, _ => AreExprs.nil.isStmt (isAtom_of_all (by decide)) (by decide) rfl
  | .ret line (some e), ht, hl => by
    rw [Stmt.tokens, List.forall_mem_cons] at ht
    exact (AreExprs.nil.cons (e.isExpr_nested ht.2 hl)).isStmt (isAtom_of_all (by decide))
      (by decide) rfl
  | .classDecl name none methods, ht, hl => by
    rw [Stmt.tokens, List.forall_mem_cons] at ht
    have hmethods := areStmts_nestedFuns methods ht.2 hl
    refine ⟨⟨isAtom_of_all (by decide), IsWord.isAtom ht.1.1, hmethods.plain⟩, ?_⟩
    have hread := hmethods.methods
    rw [Stmt.nested]
    unfold Nested.stmt?
    rw [if_neg (by decide), if_neg (by decide), if_pos rfl]
    -- what follows the name is no word, so there is no superclass
    rcases methods with _ | ⟨⟨m, params, body⟩, ms⟩ <;>
      simp only [nestedFuns, FunDecl.nested] at hread ⊢ <;>
      rw [hread, Stmt.renumber, renumberFuns_eq_map] <;>
      rfl
  | .classDecl name (some (superName, use)) methods, ht, hl => by
    rw [Stmt.tokens, List.forall_mem_cons, List.forall_mem_cons] at ht
    have hmethods := areStmts_nestedFuns methods ht.2.2 hl
    refine ⟨⟨isAtom_of_all (by decide), IsWord.isAtom ht.1.1, isAtom_of_all (by decide),
      IsWord.isAtom ht.2.1.1, hmethods.plain⟩, ?_⟩
    rw [Stmt.nested]
    unfold Nested.stmt?
    rw [if_neg (by decide), if_neg (by decide), if_pos rfl]
    simp only [hmethods.methods, Stmt.renumber, renumberFuns_eq_map]
    rfl

theorem areStmts_nested : (ss : List SourceStmt) → (∀ t ∈ tokensOfStmts ss, t.lexeme.HasForm) →
    (∀ v ∈ literalsOfStmts ss, v.IsLegible) → AreStmts (nestedStmts ss) ss
  | [], _, _ => .nil
  | s :: ss, ht, hl => by
    rw [tokensOfStmts, List.forall_mem_append] at ht
    rw [literalsOfStmts, List.forall_mem_append] at hl
    exact (areStmts_nested ss ht.2 hl.2).cons (s.isStmt_nested ht.1 hl.1)

/-- The nested text of a function is read as its declaration. -/
theorem FunDecl.isStmt_nested : (m : SourceFun) → (∀ t ∈ m.tokens, t.lexeme.HasForm) →
    (∀ v ∈ m.literals, v.IsLegible) → m.nested.IsStmt (.function m)
  | .mk name params body, ht, hl => by
    rw [FunDecl.tokens, List.forall_mem_cons, List.forall_mem_append] at ht
    exact (areStmts_nested body ht.2.2 hl).function ht.1 ht.2.1

theorem areStmts_nestedFuns : (ms : List SourceFun) →
    (∀ t ∈ tokensOfFuns ms, t.lexeme.HasForm) → (∀ v ∈ literalsOfFuns ms, v.IsLegible) →
    AreStmts (nestedFuns ms) (ms.map fun m => .function m)
  | [], _, _ => .nil
  | m :: ms, ht, hl => by
    rw [tokensOfFuns, List.forall_mem_append] at ht
    rw [literalsOfFuns, List.forall_mem_append] at hl
    exact (areStmts_nestedFuns ms ht.2 hl.2).cons (m.isStmt_nested ht.1 hl.1)

end

end Treewalk
