import Treewalk.Proofs.Scope.Resolution

/-! # Resolution of one program behind another

    The scopes around a program determine its annotation.  At top level no scope
    is open, whatever came before, so a program is annotated behind another one
    as it is alone. -/

namespace Treewalk

/-! ### Annotations are unique -/

mutual

theorem AnnotatedExpr.unique {K : ClassKind} {S : ScopeNames} : {e : SourceExpr} → {a b : ResolvedExpr} →
    AnnotatedExpr K S e a → AnnotatedExpr K S e b → a = b
  | _, _, _, .literal, .literal => rfl
  | _, _, _, .group h, .group h' => by rw [h.unique h']
  | _, _, _, .unary h, .unary h' => by rw [h.unique h']
  | _, _, _, .binary hl hr, .binary hl' hr' => by rw [hl.unique hl', hr.unique hr']
  | _, _, _, .logical hl hr, .logical hl' hr' => by rw [hl.unique hl', hr.unique hr']
  | _, _, _, .variable hd, .variable hd' => by rw [hd.unique hd']
  | _, _, _, .assign h hd, .assign h' hd' => by rw [h.unique h', hd.unique hd']
  | _, _, _, .call hf hargs, .call hf' hargs' => by rw [hf.unique hf', hargs.unique hargs']
  | _, _, _, .get h, .get h' => by rw [h.unique h']
  | _, _, _, .set ho h, .set ho' h' => by rw [ho.unique ho', h.unique h']
  | _, _, _, .this _ hd, .this _ hd' => by rw [hd.unique hd']
  | _, _, _, .this hK _, .strayThis | _, _, _, .strayThis, .this hK _ => absurd rfl hK
  | _, _, _, .strayThis, .strayThis => rfl
  | _, _, _, .super hd, .super hd' => by rw [hd.unique hd']
  | _, _, _, .lambda h, .lambda h' => by rw [h.unique h']

theorem AnnotatedExprs.unique {K : ClassKind} {S : ScopeNames} : {es : List SourceExpr} →
    {as bs : List ResolvedExpr} → AnnotatedExprs K S es as → AnnotatedExprs K S es bs → as = bs
  | _, _, _, .nil, .nil => rfl
  | _, _, _, .cons h hs, .cons h' hs' => by rw [h.unique h', hs.unique hs']

theorem AnnotatedStmt.unique {K : ClassKind} {S : ScopeNames} : {s : SourceStmt} → {a b : ResolvedStmt} →
    AnnotatedStmt K S s a → AnnotatedStmt K S s b → a = b
  | _, _, _, .expression h, .expression h' => by rw [h.unique h']
  | _, _, _, .print h, .print h' => by rw [h.unique h']
  | _, _, _, .var, .var => rfl
  | _, _, _, .varInit h, .varInit h' => by rw [h.unique h']
  | _, _, _, .block h, .block h' => by rw [h.unique h']
  | _, _, _, .branch hc h, .branch hc' h' => by rw [hc.unique hc', h.unique h']
  | _, _, _, .branchElse hc ha hb, .branchElse hc' ha' hb' => by
    rw [hc.unique hc', ha.unique ha', hb.unique hb']
  | _, _, _, .loop hc h, .loop hc' h' => by rw [hc.unique hc', h.unique h']
  | _, _, _, .function h, .function h' => by rw [h.unique h']
  | _, _, _, .ret, .ret => rfl
  | _, _, _, .retValue h, .retValue h' => by rw [h.unique h']
  | _, _, _, .classDecl h, .classDecl h' => by rw [h.unique h']
  | _, _, _, .subclassDecl hd h, .subclassDecl hd' h' => by rw [hd.unique hd', h.unique h']

theorem AnnotatedStmts.unique {K : ClassKind} {S : ScopeNames} : {ss : List SourceStmt} →
    {as bs : List ResolvedStmt} → AnnotatedStmts K S ss as → AnnotatedStmts K S ss bs → as = bs
  | _, _, _, .nil, .nil => rfl
  | _, _, _, .cons h hs, .cons h' hs' => by rw [h.unique h', hs.unique hs']

theorem AnnotatedFun.unique {K : ClassKind} {S : ScopeNames} : {m : SourceFun} → {a b : ResolvedFun} →
    AnnotatedFun K S m a → AnnotatedFun K S m b → a = b
  | _, _, _, .mk h, .mk h' => by rw [h.unique h']

theorem AnnotatedFuns.unique {K : ClassKind} {S : ScopeNames} : {ms : List SourceFun} →
    {as bs : List ResolvedFun} → AnnotatedFuns K S ms as → AnnotatedFuns K S ms bs → as = bs
  | _, _, _, .nil, .nil => rfl
  | _, _, _, .cons h hs, .cons h' hs' => by rw [h.unique h', hs.unique hs']

end

/-! ### Programs in a row -/

/-- At top level an annotation of one program behind another is one of each. -/
theorem AnnotatedStmts.append {ps qs : List SourceStmt} {as bs : List ResolvedStmt}
    (hp : AnnotatedStmts .none [] ps as) (hq : AnnotatedStmts .none [] qs bs) :
    AnnotatedStmts .none [] (ps ++ qs) (as ++ bs) := by
  induction ps generalizing as with
  | nil =>
    cases hp
    exact hq
  | cons s ps ih =>
    cases hp with
    | cons hs hps => exact .cons hs (ih hps)

theorem localUsesOfStmts_append (as bs : List ResolvedStmt) :
    localUsesOfStmts (as ++ bs) = localUsesOfStmts as ++ localUsesOfStmts bs := by
  induction as with
  | nil => rfl
  | cons a as ih => simp [localUsesOfStmts, ih]

/-- A program behind another one is resolved as it is alone. -/
theorem resolve_append (ps qs : List SourceStmt) :
    (resolve (ps ++ qs)).statements = (resolve ps).statements ++ (resolve qs).statements ∧
      (resolve (ps ++ qs)).uses = (resolve ps).uses ++ (resolve qs).uses := by
  obtain ⟨hp, husesP, -⟩ := annotated_of_resolve ps
  obtain ⟨hq, husesQ, -⟩ := annotated_of_resolve qs
  obtain ⟨hboth, huses, -⟩ := annotated_of_resolve (ps ++ qs)
  have hstatements := hboth.unique (hp.append hq)
  refine ⟨hstatements, ?_⟩
  rw [huses, hstatements, localUsesOfStmts_append, ← husesP, ← husesQ]

end Treewalk
