import Treewalk.Proofs.Scope.Walk
import Treewalk.Proofs.Tree.Notes

/-! # Renaming local variables

    A resolved program tells of every use of a name which scope declares it.  So the
    variables of some local scopes can be renamed without a search: the declaration and
    the uses whose distance ends in such a scope get the new name, and no other word of
    the program changes.  With one scope picked and a map that moves one name, this is
    the renaming of one variable or parameter. -/

namespace Treewalk

variable {ρ : Type}

/-! ### Picked scopes -/

/-- Some scopes of a tree, each given by the way to it: left or right at every fork. -/
abbrev Picks := List Bool → Bool

namespace Picks

/-- The scope that is opened here is picked. -/
def here (picks : Picks) : Bool := picks []

/-- The picked scopes to the left. -/
def left (picks : Picks) : Picks := fun way => picks (false :: way)

/-- The picked scopes to the right. -/
def right (picks : Picks) : Picks := fun way => picks (true :: way)

/-- No scope is picked. -/
def nowhere : Picks := fun _ => false

/-- The scope at the end of one way is picked. -/
def only (way : List Bool) : Picks := fun other => other == way

end Picks

/-- Of the scopes around a place, innermost first, whether each is picked. -/
abbrev Picked := List Bool

/-- The scope at the distance is picked.  The global scope never is. -/
def Picked.at (Γ : Picked) : Distance → Bool
  | some d => Γ.getD d false
  | none => false

/-- The innermost scope is picked. -/
def Picked.innermost (Γ : Picked) : Bool := Γ.headD false

/-- A name of a scope: renamed if the scope is picked. -/
def renameIf (picked : Bool) (f : String → String) (x : String) : String :=
  if picked then f x else x

/-- A name of a scope, on its line. -/
def Name.renameIf (picked : Bool) (f : String → String) (n : Name) : Name :=
  ⟨Treewalk.renameIf picked f n.text, n.line⟩

/-- The names that a statement gives to functions and classes in the scope it stands in. -/
def Stmt.given : Stmt ρ → List String
  | .function decl => [decl.name.text]
  | .classDecl name _ _ => [name.text]
  | .branch _ onTrue none => onTrue.given
  | .branch _ onTrue (some onFalse) => onTrue.given ++ onFalse.given
  | .loop _ body => body.given
  | _ => []

/-- The names that some statements give to functions and classes. -/
def givenBy (body : List (Stmt ρ)) : List String := body.flatMap (·.given)

/-- The scope of a body is picked, and none of the names to be changed is that of a
    function or a class: those can be seen from outside. -/
def Picks.scope (picks : Picks) (f : String → String) (body : List (Stmt ρ)) : Bool :=
  picks.here && (givenBy body).all fun x => f x == x

/-! ### Renaming -/

section Rename

variable (f : String → String)

mutual

/-- The expression with the variables of the picked scopes renamed, those around it and
    those inside of it. -/
def Expr.rename (picks : Picks) (Γ : Picked) : ResolvedExpr → ResolvedExpr
  | .literal value => .literal value
  | .group inner => .group (inner.rename picks Γ)
  | .unary op line operand => .unary op line (operand.rename picks Γ)
  | .binary op line left right =>
    .binary op line (left.rename picks.left Γ) (right.rename picks.right Γ)
  | .logical op line left right =>
    .logical op line (left.rename picks.left Γ) (right.rename picks.right Γ)
  | .variable name use => .variable (name.renameIf (Γ.at use) f) use
  | .assign name use value => .assign (name.renameIf (Γ.at use) f) use (value.rename picks Γ)
  | .call callee arguments line =>
    .call (callee.rename picks.left Γ) (renameExprs picks.right Γ arguments) line
  | .get object name => .get (object.rename picks Γ) name
  | .set object name value => .set (object.rename picks.left Γ) name (value.rename picks.right Γ)
  | .this line use => .this line use
  | .super line use method => .super line use method
  | .lambda line params body =>
    .lambda line (params.map (·.renameIf (picks.scope f body) f))
      (renameStmts picks (picks.scope f body :: Γ) body)

/-- Some expressions with the variables of the picked scopes renamed. -/
def renameExprs (picks : Picks) (Γ : Picked) : List ResolvedExpr → List ResolvedExpr
  | [] => []
  | e :: es => e.rename picks.left Γ :: renameExprs picks.right Γ es

/-- The statement with the variables of the picked scopes renamed.  What a `var`
    statement declares belongs to the innermost scope around it. -/
def Stmt.rename (picks : Picks) (Γ : Picked) : ResolvedStmt → ResolvedStmt
  | .expression e => .expression (e.rename picks Γ)
  | .print e => .print (e.rename picks Γ)
  | .var name none => .var (name.renameIf Γ.innermost f) none
  | .var name (some e) => .var (name.renameIf Γ.innermost f) (some (e.rename picks Γ))
  | .block body => .block (renameStmts picks (picks.scope f body :: Γ) body)
  | .branch condition onTrue none =>
    .branch (condition.rename picks.left Γ) (onTrue.rename picks.right Γ) none
  | .branch condition onTrue (some onFalse) =>
    .branch (condition.rename picks.left Γ) (onTrue.rename picks.right.left Γ)
      (some (onFalse.rename picks.right.right Γ))
  | .loop condition body => .loop (condition.rename picks.left Γ) (body.rename picks.right Γ)
  | .function decl => .function (decl.rename picks Γ)
  | .ret line none => .ret line none
  | .ret line (some e) => .ret line (some (e.rename picks Γ))
  | .classDecl name none methods => .classDecl name none (renameFuns picks (false :: Γ) methods)
  | .classDecl name (some (superName, use)) methods =>
    .classDecl name (some (superName.renameIf (Γ.at use) f, use))
      (renameFuns picks (false :: false :: Γ) methods)

/-- Some statements with the variables of the picked scopes renamed. -/
def renameStmts (picks : Picks) (Γ : Picked) : List ResolvedStmt → List ResolvedStmt
  | [] => []
  | s :: ss => s.rename picks.left Γ :: renameStmts picks.right Γ ss

/-- The function with the variables of the picked scopes renamed, its parameters among
    them.  It keeps its own name. -/
def FunDecl.rename (picks : Picks) (Γ : Picked) : ResolvedFun → ResolvedFun
  | .mk name params body =>
    .mk name (params.map (·.renameIf (picks.scope f body) f))
      (renameStmts picks (picks.scope f body :: Γ) body)

/-- Some functions with the variables of the picked scopes renamed. -/
def renameFuns (picks : Picks) (Γ : Picked) : List ResolvedFun → List ResolvedFun
  | [] => []
  | m :: ms => m.rename picks.left Γ :: renameFuns picks.right Γ ms

end

end Rename

/-! ### Names of a program -/

mutual

/-- The names in an expression. -/
def Expr.names : Expr ρ → List String
  | .literal _ | .this _ _ => []
  | .group e | .unary _ _ e => e.names
  | .binary _ _ l r | .logical _ _ l r => l.names ++ r.names
  | .variable name _ => [name.text]
  | .assign name _ e => name.text :: e.names
  | .call f args _ => f.names ++ namesOfExprs args
  | .get o name => name.text :: o.names
  | .set o name e => name.text :: (o.names ++ e.names)
  | .super _ _ method => [method.text]
  | .lambda _ params body => paramNames params ++ namesOfStmts body

/-- The names in some expressions. -/
def namesOfExprs : List (Expr ρ) → List String
  | [] => []
  | e :: es => e.names ++ namesOfExprs es

/-- The names in a statement. -/
def Stmt.names : Stmt ρ → List String
  | .expression e | .print e | .ret _ (some e) => e.names
  | .ret _ none => []
  | .var name none => [name.text]
  | .var name (some e) => name.text :: e.names
  | .block body => namesOfStmts body
  | .branch c a none => c.names ++ a.names
  | .branch c a (some b) => c.names ++ (a.names ++ b.names)
  | .loop c body => c.names ++ body.names
  | .function decl => decl.names
  | .classDecl name none methods => name.text :: namesOfFuns methods
  | .classDecl name (some (superName, _)) methods =>
    name.text :: superName.text :: namesOfFuns methods

/-- The names in some statements. -/
def namesOfStmts : List (Stmt ρ) → List String
  | [] => []
  | s :: ss => s.names ++ namesOfStmts ss

/-- The names in a function. -/
def FunDecl.names : FunDecl ρ → List String
  | .mk name params body => name.text :: (paramNames params ++ namesOfStmts body)

/-- The names in some functions. -/
def namesOfFuns : List (FunDecl ρ) → List String
  | [] => []
  | m :: ms => m.names ++ namesOfFuns ms

end

/-! ### Programs without their notes -/

mutual

theorem AnnotatedExpr.source {K : ClassKind} {S : ScopeNames} : {e : SourceExpr} → {e' : ResolvedExpr} →
    AnnotatedExpr K S e e' → e'.source = e
  | _, _, .literal | _, _, .variable _ | _, _, .this _ _ | _, _, .strayThis | _, _, .super _ => rfl
  | _, _, .group h | _, _, .unary h | _, _, .get h | _, _, .assign h _ => by
    simp only [Expr.map, h.source]
  | _, _, .binary hl hr | _, _, .logical hl hr | _, _, .set hl hr => by
    simp only [Expr.map, hl.source, hr.source]
  | _, _, .call hf hargs => by simp only [Expr.map, hf.source, hargs.source]
  | _, _, .lambda h => by simp only [Expr.map, h.source]

theorem AnnotatedExprs.source {K : ClassKind} {S : ScopeNames} : {es : List SourceExpr} →
    {es' : List ResolvedExpr} → AnnotatedExprs K S es es' → sourceOfExprs es' = es
  | _, _, .nil => rfl
  | _, _, .cons h hs => by simp only [mapExprs, h.source, hs.source]

theorem AnnotatedStmt.source {K : ClassKind} {S : ScopeNames} : {s : SourceStmt} → {s' : ResolvedStmt} →
    AnnotatedStmt K S s s' → s'.source = s
  | _, _, .var | _, _, .ret => rfl
  | _, _, .expression h | _, _, .print h | _, _, .varInit h | _, _, .retValue h => by
    simp only [Stmt.map, h.source]
  | _, _, .block h => by simp only [Stmt.map, h.source]
  | _, _, .branch hc h | _, _, .loop hc h => by simp only [Stmt.map, hc.source, h.source]
  | _, _, .branchElse hc ha hb => by simp only [Stmt.map, hc.source, ha.source, hb.source]
  | _, _, .function h => by simp only [Stmt.map, h.source]
  | _, _, .classDecl h | _, _, .subclassDecl _ h => by
    simp only [Stmt.map, h.source]

theorem AnnotatedStmts.source {K : ClassKind} {S : ScopeNames} : {ss : List SourceStmt} →
    {ss' : List ResolvedStmt} → AnnotatedStmts K S ss ss' → sourceOfStmts ss' = ss
  | _, _, .nil => rfl
  | _, _, .cons h hs => by simp only [mapStmts, h.source, hs.source]

theorem AnnotatedFun.source {K : ClassKind} {S : ScopeNames} : {m : SourceFun} → {m' : ResolvedFun} →
    AnnotatedFun K S m m' → m'.source = m
  | _, _, .mk h => by simp only [FunDecl.map, h.source]

theorem AnnotatedFuns.source {K : ClassKind} {S : ScopeNames} : {ms : List SourceFun} →
    {ms' : List ResolvedFun} → AnnotatedFuns K S ms ms' → sourceOfFuns ms' = ms
  | _, _, .nil => rfl
  | _, _, .cons h hs => by simp only [mapFuns, h.source, hs.source]

end

/-! ### Nothing picked -/

@[simp] theorem renameIf_false (f : String → String) (x : String) : renameIf false f x = x := rfl

@[simp] theorem renameIf_true (f : String → String) (x : String) : renameIf true f x = f x := rfl

@[simp] theorem Name.renameIf_false (f : String → String) (n : Name) : n.renameIf false f = n := rfl

theorem Picked.at_eq_false {Γ : Picked} (h : ∀ b ∈ Γ, b = false) (use : Distance) :
    Γ.at use = false := by
  cases use with
  | none => rfl
  | some d =>
    show Γ.getD d false = false
    rw [List.getD_eq_getElem?_getD]
    cases hd : Γ[d]? with
    | none => rfl
    | some b => exact h b (List.mem_of_getElem? hd)

theorem Picked.innermost_eq_false {Γ : Picked} (h : ∀ b ∈ Γ, b = false) : Γ.innermost = false := by
  cases Γ with
  | nil => rfl
  | cons b Γ => exact h b List.mem_cons_self

theorem Picked.push_false {Γ : Picked} (h : ∀ b ∈ Γ, b = false) : ∀ b ∈ false :: Γ, b = false :=
  List.forall_mem_cons.mpr ⟨rfl, h⟩

theorem Picks.left_nowhere : nowhere.left = nowhere := rfl

theorem Picks.right_nowhere : nowhere.right = nowhere := rfl

theorem Picks.scope_nowhere (f : String → String) (body : List (Stmt ρ)) :
    nowhere.scope f body = false := rfl

section Nowhere

variable {f : String → String}

theorem map_renameIf_false (params : List Name) : params.map (·.renameIf false f) = params := by
  simp

mutual

/-- Where no scope is picked, nothing changes. -/
theorem Expr.rename_nowhere {Γ : Picked} (h : ∀ b ∈ Γ, b = false) :
    (e : ResolvedExpr) → e.rename f .nowhere Γ = e
  | .literal _ | .this _ _ | .super _ _ _ => rfl
  | .group e | .unary _ _ e | .get e _ => by simp only [Expr.rename, e.rename_nowhere h]
  | .binary _ _ l r | .logical _ _ l r | .set l _ r => by
    simp only [Expr.rename, Picks.left_nowhere, Picks.right_nowhere, l.rename_nowhere h,
      r.rename_nowhere h]
  | .variable name use => by simp only [Expr.rename, Picked.at_eq_false h, Name.renameIf_false]
  | .assign name use e => by
    simp only [Expr.rename, Picked.at_eq_false h, Name.renameIf_false, e.rename_nowhere h]
  | .call g args _ => by
    simp only [Expr.rename, Picks.left_nowhere, Picks.right_nowhere, g.rename_nowhere h,
      renameExprs_nowhere h args]
  | .lambda _ params body => by
    simp only [Expr.rename, Picks.scope_nowhere, map_renameIf_false,
      renameStmts_nowhere (Picked.push_false h) body]

theorem renameExprs_nowhere {Γ : Picked} (h : ∀ b ∈ Γ, b = false) :
    (es : List ResolvedExpr) → renameExprs f .nowhere Γ es = es
  | [] => rfl
  | e :: es => by
    simp only [renameExprs, Picks.left_nowhere, Picks.right_nowhere, e.rename_nowhere h,
      renameExprs_nowhere h es]

theorem Stmt.rename_nowhere {Γ : Picked} (h : ∀ b ∈ Γ, b = false) :
    (s : ResolvedStmt) → s.rename f .nowhere Γ = s
  | .expression e | .print e | .ret _ (some e) => by simp only [Stmt.rename, e.rename_nowhere h]
  | .ret _ none => rfl
  | .var name none => by
    simp only [Stmt.rename, Picked.innermost_eq_false h, Name.renameIf_false]
  | .var name (some e) => by
    simp only [Stmt.rename, Picked.innermost_eq_false h, Name.renameIf_false, e.rename_nowhere h]
  | .block body => by
    simp only [Stmt.rename, Picks.scope_nowhere, renameStmts_nowhere (Picked.push_false h) body]
  | .branch c a none => by
    simp only [Stmt.rename, Picks.left_nowhere, Picks.right_nowhere, c.rename_nowhere h,
      a.rename_nowhere h]
  | .branch c a (some b) => by
    simp only [Stmt.rename, Picks.left_nowhere, Picks.right_nowhere, c.rename_nowhere h,
      a.rename_nowhere h, b.rename_nowhere h]
  | .loop c body => by
    simp only [Stmt.rename, Picks.left_nowhere, Picks.right_nowhere, c.rename_nowhere h,
      body.rename_nowhere h]
  | .function decl => by simp only [Stmt.rename, decl.rename_nowhere h]
  | .classDecl name none methods => by
    simp only [Stmt.rename, renameFuns_nowhere (Picked.push_false h) methods]
  | .classDecl name (some (superName, use)) methods => by
    simp only [Stmt.rename, Picked.at_eq_false h, Name.renameIf_false,
      renameFuns_nowhere (Picked.push_false (Picked.push_false h)) methods]

theorem renameStmts_nowhere {Γ : Picked} (h : ∀ b ∈ Γ, b = false) :
    (ss : List ResolvedStmt) → renameStmts f .nowhere Γ ss = ss
  | [] => rfl
  | s :: ss => by
    simp only [renameStmts, Picks.left_nowhere, Picks.right_nowhere, s.rename_nowhere h,
      renameStmts_nowhere h ss]

theorem FunDecl.rename_nowhere {Γ : Picked} (h : ∀ b ∈ Γ, b = false) :
    (m : ResolvedFun) → m.rename f .nowhere Γ = m
  | .mk name params body => by
    simp only [FunDecl.rename, Picks.scope_nowhere, map_renameIf_false,
      renameStmts_nowhere (Picked.push_false h) body]

theorem renameFuns_nowhere {Γ : Picked} (h : ∀ b ∈ Γ, b = false) :
    (ms : List ResolvedFun) → renameFuns f .nowhere Γ ms = ms
  | [] => rfl
  | m :: ms => by
    simp only [renameFuns, Picks.left_nowhere, Picks.right_nowhere, m.rename_nowhere h,
      renameFuns_nowhere h ms]

end

end Nowhere

/-! ### Only the names of the program count -/

theorem Stmt.given_subset_declares : (s : Stmt ρ) → s.given ⊆ s.declares
  | .function _ | .classDecl _ _ _ => List.Subset.refl _
  | .branch _ a none => by
    simpa only [Stmt.given, Stmt.declares] using a.given_subset_declares
  | .branch _ a (some b) => by
    intro x hx
    simp only [Stmt.given, Stmt.declares, List.mem_append] at hx ⊢
    exact hx.symm.imp (fun h => b.given_subset_declares h) fun h => a.given_subset_declares h
  | .loop _ body => by
    simpa only [Stmt.given, Stmt.declares] using body.given_subset_declares
  | .var _ _ | .expression _ | .print _ | .block _ | .ret _ _ => by simp [Stmt.given]

theorem Stmt.declares_subset : (s : Stmt ρ) → s.declares ⊆ s.names
  | .function (.mk _ _ _) | .classDecl _ none _ | .classDecl _ (some (_, _)) _ | .var _ none
  | .var _ (some _) => by
    simp [Stmt.declares, Stmt.names, FunDecl.names, FunDecl.name]
  | .branch _ a none => by
    simpa only [Stmt.declares, Stmt.names] using
      List.subset_append_of_subset_right _ a.declares_subset
  | .branch _ a (some b) => by
    intro x hx
    simp only [Stmt.declares, Stmt.names, List.mem_append] at hx ⊢
    exact .inr (hx.symm.imp (fun h => a.declares_subset h) fun h => b.declares_subset h)
  | .loop _ body => by
    simpa only [Stmt.declares, Stmt.names] using
      List.subset_append_of_subset_right _ body.declares_subset
  | .expression _ | .print _ | .block _ | .ret _ _ => by simp [Stmt.declares]

theorem givenBy_subset (body : List (Stmt ρ)) : givenBy body ⊆ namesOfStmts body := by
  induction body with
  | nil => exact List.Subset.refl _
  | cons s body ih =>
    intro x hx
    simp only [givenBy, List.flatMap_cons, List.mem_append] at hx
    simp only [namesOfStmts, List.mem_append]
    exact hx.imp (fun h => s.declares_subset (s.given_subset_declares h)) fun h => ih h

section Congr

variable {f g : String → String}

theorem renameIf_congr {x : String} (h : f x = g x) (picked : Bool) :
    renameIf picked f x = renameIf picked g x := by
  cases picked
  · rfl
  · exact h

theorem Name.renameIf_congr {n : Name} (h : f n.text = g n.text) (picked : Bool) :
    n.renameIf picked f = n.renameIf picked g := by
  simp only [Name.renameIf, Treewalk.renameIf_congr h picked]

theorem map_renameIf_congr {params : List Name} (h : ∀ x ∈ paramNames params, f x = g x)
    (picked : Bool) : params.map (·.renameIf picked f) = params.map (·.renameIf picked g) := by
  refine List.map_congr_left fun n hn => Name.renameIf_congr (h n.text ?_) picked
  exact List.mem_map.mpr ⟨n, hn, rfl⟩

theorem Picks.scope_congr {body : List (Stmt ρ)} (h : ∀ x ∈ namesOfStmts body, f x = g x)
    (picks : Picks) : picks.scope f body = picks.scope g body := by
  have hall : ((givenBy body).all fun x => f x == x) = (givenBy body).all fun x => g x == x := by
    rw [Bool.eq_iff_iff, List.all_eq_true, List.all_eq_true]
    refine forall₂_congr fun x hx => ?_
    rw [h x (givenBy_subset body hx)]
  unfold Picks.scope
  rw [hall]

mutual

/-- Maps that agree on the names of an expression rename it alike. -/
theorem Expr.rename_congr (picks : Picks) (Γ : Picked) : (e : ResolvedExpr) →
    (∀ x ∈ e.names, f x = g x) → e.rename f picks Γ = e.rename g picks Γ
  | .literal _, _ | .this _ _, _ | .super _ _ _, _ => rfl
  | .group e, h | .unary _ _ e, h => by simp only [Expr.rename, e.rename_congr picks Γ h]
  | .get e _, h => by
    simp only [Expr.rename, e.rename_congr picks Γ (List.forall_mem_cons.mp h).2]
  | .binary _ _ l r, h | .logical _ _ l r, h => by
    obtain ⟨hl, hr⟩ := List.forall_mem_append.mp h
    simp only [Expr.rename, l.rename_congr picks.left Γ hl, r.rename_congr picks.right Γ hr]
  | .set l _ r, h => by
    obtain ⟨hl, hr⟩ := List.forall_mem_append.mp (List.forall_mem_cons.mp h).2
    simp only [Expr.rename, l.rename_congr picks.left Γ hl, r.rename_congr picks.right Γ hr]
  | .variable name use, h => by
    simp only [Expr.rename, Name.renameIf_congr (h name.text List.mem_cons_self)]
  | .assign name use e, h => by
    obtain ⟨hname, he⟩ := List.forall_mem_cons.mp h
    simp only [Expr.rename, Name.renameIf_congr hname, e.rename_congr picks Γ he]
  | .call c args _, h => by
    obtain ⟨hc, hargs⟩ := List.forall_mem_append.mp h
    simp only [Expr.rename, c.rename_congr picks.left Γ hc,
      renameExprs_congr picks.right Γ args hargs]
  | .lambda _ params body, h => by
    obtain ⟨hparams, hbody⟩ := List.forall_mem_append.mp h
    simp only [Expr.rename, Picks.scope_congr hbody, map_renameIf_congr hparams,
      renameStmts_congr picks _ body hbody]

theorem renameExprs_congr (picks : Picks) (Γ : Picked) : (es : List ResolvedExpr) →
    (∀ x ∈ namesOfExprs es, f x = g x) → renameExprs f picks Γ es = renameExprs g picks Γ es
  | [], _ => rfl
  | e :: es, h => by
    obtain ⟨he, hes⟩ := List.forall_mem_append.mp h
    simp only [renameExprs, e.rename_congr picks.left Γ he, renameExprs_congr picks.right Γ es hes]

theorem Stmt.rename_congr (picks : Picks) (Γ : Picked) : (s : ResolvedStmt) →
    (∀ x ∈ s.names, f x = g x) → s.rename f picks Γ = s.rename g picks Γ
  | .expression e, h | .print e, h | .ret _ (some e), h => by
    simp only [Stmt.rename, e.rename_congr picks Γ h]
  | .ret _ none, _ => rfl
  | .var name none, h => by
    simp only [Stmt.rename, Name.renameIf_congr (h name.text List.mem_cons_self)]
  | .var name (some e), h => by
    obtain ⟨hname, he⟩ := List.forall_mem_cons.mp h
    simp only [Stmt.rename, Name.renameIf_congr hname, e.rename_congr picks Γ he]
  | .block body, h => by
    simp only [Stmt.rename, Picks.scope_congr h, renameStmts_congr picks _ body h]
  | .branch c a none, h => by
    obtain ⟨hc, ha⟩ := List.forall_mem_append.mp h
    simp only [Stmt.rename, c.rename_congr picks.left Γ hc, a.rename_congr picks.right Γ ha]
  | .branch c a (some b), h => by
    obtain ⟨hc, hab⟩ := List.forall_mem_append.mp h
    obtain ⟨ha, hb⟩ := List.forall_mem_append.mp hab
    simp only [Stmt.rename, c.rename_congr picks.left Γ hc, a.rename_congr picks.right.left Γ ha,
      b.rename_congr picks.right.right Γ hb]
  | .loop c body, h => by
    obtain ⟨hc, hbody⟩ := List.forall_mem_append.mp h
    simp only [Stmt.rename, c.rename_congr picks.left Γ hc, body.rename_congr picks.right Γ hbody]
  | .function decl, h => by simp only [Stmt.rename, decl.rename_congr picks Γ h]
  | .classDecl name none methods, h => by
    simp only [Stmt.rename, renameFuns_congr picks _ methods (List.forall_mem_cons.mp h).2]
  | .classDecl name (some (superName, use)) methods, h => by
    obtain ⟨hsuper, hmethods⟩ := List.forall_mem_cons.mp (List.forall_mem_cons.mp h).2
    simp only [Stmt.rename, Name.renameIf_congr hsuper, renameFuns_congr picks _ methods hmethods]

theorem renameStmts_congr (picks : Picks) (Γ : Picked) : (ss : List ResolvedStmt) →
    (∀ x ∈ namesOfStmts ss, f x = g x) → renameStmts f picks Γ ss = renameStmts g picks Γ ss
  | [], _ => rfl
  | s :: ss, h => by
    obtain ⟨hs, hss⟩ := List.forall_mem_append.mp h
    simp only [renameStmts, s.rename_congr picks.left Γ hs, renameStmts_congr picks.right Γ ss hss]

theorem FunDecl.rename_congr (picks : Picks) (Γ : Picked) : (m : ResolvedFun) →
    (∀ x ∈ m.names, f x = g x) → m.rename f picks Γ = m.rename g picks Γ
  | .mk name params body, h => by
    obtain ⟨hparams, hbody⟩ := List.forall_mem_append.mp (List.forall_mem_cons.mp h).2
    simp only [FunDecl.rename, Picks.scope_congr hbody, map_renameIf_congr hparams,
      renameStmts_congr picks _ body hbody]

theorem renameFuns_congr (picks : Picks) (Γ : Picked) : (ms : List ResolvedFun) →
    (∀ x ∈ namesOfFuns ms, f x = g x) → renameFuns f picks Γ ms = renameFuns g picks Γ ms
  | [], _ => rfl
  | m :: ms, h => by
    obtain ⟨hm, hms⟩ := List.forall_mem_append.mp h
    simp only [renameFuns, m.rename_congr picks.left Γ hm, renameFuns_congr picks.right Γ ms hms]

end

end Congr

end Treewalk
