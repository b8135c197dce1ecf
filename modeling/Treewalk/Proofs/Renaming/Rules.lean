import Mathlib.Data.List.Nodup
import Treewalk.Proofs.Renaming.Trees
import Treewalk.Proofs.Scope.Rejection
import Treewalk.Proofs.Scope.Uniqueness

/-! # Renamed programs keep the static rules

    Let local variables be renamed to a name that occurs nowhere in a program.  Then the
    program is well-formed and keeps the static rules as before, and resolution finds
    every use at the distance it had (`resolve_rename`). -/

namespace Treewalk

/-! ### One name for another -/

/-- Puts the name `y` in the place of `x`. -/
def replace (x y z : String) : String := if z = x then y else z

/-- None of the names is `y`. -/
def Avoids (y : String) (names : List String) : Prop := ∀ z ∈ names, z ≠ y

section Replace

variable {x y z w : String} {names : List String}

/-- Whether their scopes are picked or not, different names stay different. -/
theorem renameIf_replace_inj (hz : z ≠ y) (hw : w ≠ y) {a b : Bool}
    (h : renameIf a (replace x y) z = renameIf b (replace x y) w) : z = w := by
  cases a <;> cases b <;> grind [renameIf, replace]

theorem renameIf_replace_notMem (hz : z ≠ y) (hnames : Avoids y names) (h : z ∉ names)
    (a b : Bool) : renameIf a (replace x y) z ∉ names.map (renameIf b (replace x y)) := by
  intro hmem
  obtain ⟨w, hw, heq⟩ := List.mem_map.mp hmem
  rw [renameIf_replace_inj (hnames w hw) hz heq] at hw
  exact h hw

theorem nodup_map_renameIf (hnames : Avoids y names) (h : names.Nodup) (b : Bool) :
    (names.map (renameIf b (replace x y))).Nodup :=
  h.map_on fun z hz w hw heq => renameIf_replace_inj (hnames z hz) (hnames w hw) heq

theorem unreserved_renameIf (hy : Unreserved y) (hz : Unreserved z) (b : Bool) :
    Unreserved (renameIf b (replace x y) z) := by
  cases b
  · exact hz
  · rw [renameIf_true]
    unfold replace
    split
    · exact hy
    · exact hz

/-- Keywords are no names, so they stay. -/
theorem renameIf_replace_keyword (hx : Unreserved x) (k : Keyword) (b : Bool) :
    renameIf b (replace x y) k.text = k.text := by
  cases b
  · rfl
  · rw [renameIf_true]
    exact if_neg fun h => hx.ne_keyword k h.symm

end Replace

/-! ### Declared names -/

/-- A picked innermost scope gives none of the names that are to be changed to a
    function or a class. -/
def Picked.Keeps (f : String → String) (Γ : Picked) (given : List String) : Prop :=
  Γ.innermost = true → ∀ x ∈ given, f x = x

theorem Picks.keeps {ρ : Type} (picks : Picks) (f : String → String) (body : List (Stmt ρ))
    (Γ : Picked) : Picked.Keeps f (picks.scope f body :: Γ) (givenBy body) := by
  intro h x hx
  have hall := (Bool.and_eq_true_iff.mp h).2
  exact eq_of_beq (List.all_eq_true.mp hall x hx)

section Keeps

variable {f : String → String} {Γ : Picked}

theorem Picked.Keeps.mono {names names' : List String} (h : Γ.Keeps f names)
    (hsub : names' ⊆ names) : Γ.Keeps f names' :=
  fun hpicked x hx => h hpicked x (hsub hx)

theorem Picked.Keeps.renameIf_eq {names : List String} (h : Γ.Keeps f names) {x : String}
    (hx : x ∈ names) : renameIf Γ.innermost f x = x := by
  cases hpicked : Γ.innermost with
  | false => rfl
  | true => exact h hpicked x hx

theorem Picked.Keeps.cons {ρ : Type} {s : Stmt ρ} {ss : List (Stmt ρ)}
    (h : Γ.Keeps f (givenBy (s :: ss))) : Γ.Keeps f s.given ∧ Γ.Keeps f (givenBy ss) :=
  ⟨h.mono (List.subset_append_left _ _), h.mono (List.subset_append_right _ _)⟩

theorem paramNames_renameIf (params : List Name) (b : Bool) :
    paramNames (params.map (·.renameIf b f)) = (paramNames params).map (renameIf b f) := by
  simp [paramNames, Name.renameIf, Function.comp_def]

theorem Stmt.declares_source {ρ : Type} : (s : Stmt ρ) → s.source.declares = s.declares
  | .function (.mk _ _ _) => rfl
  | .branch _ a none => by simp only [Stmt.map, Stmt.declares, a.declares_source]
  | .branch _ a (some b) => by
    simp only [Stmt.map, Stmt.declares, a.declares_source, b.declares_source]
  | .loop _ body => by simp only [Stmt.map, Stmt.declares, body.declares_source]
  | .var _ none | .var _ (some _) | .classDecl _ none _ | .classDecl _ (some (_, _)) _ => rfl
  | .expression _ | .print _ | .block _ | .ret _ none | .ret _ (some _) => rfl

/-- What a statement declares is renamed with the innermost scope. -/
theorem Stmt.declares_rename (picks : Picks) : (s : ResolvedStmt) → Γ.Keeps f s.given →
    (s.rename f picks Γ).declares = s.declares.map (renameIf Γ.innermost f)
  | .var _ none, _ | .var _ (some _), _ => rfl
  | .function (.mk name params body), h => by
    have hname : renameIf Γ.innermost f name.text = name.text := h.renameIf_eq List.mem_cons_self
    simp only [Stmt.rename, FunDecl.rename, Stmt.declares, FunDecl.name, List.map_cons,
      List.map_nil, hname]
  | .classDecl name none methods, h | .classDecl name (some (_, _)) methods, h => by
    simp only [Stmt.rename, Stmt.declares, List.map_cons, List.map_nil,
      h.renameIf_eq List.mem_cons_self]
  | .branch _ a none, h => by simp only [Stmt.rename, Stmt.declares, a.declares_rename _ h]
  | .branch _ a (some b), h => by
    simp only [Stmt.rename, Stmt.declares, List.map_append,
      a.declares_rename _ (h.mono (List.subset_append_left _ _)),
      b.declares_rename _ (h.mono (List.subset_append_right _ _))]
  | .loop _ body, h => by simp only [Stmt.rename, Stmt.declares, body.declares_rename _ h]
  | .expression _, _ | .print _, _ | .block _, _ | .ret _ none, _ | .ret _ (some _), _ => rfl

theorem declaredBy_rename {ss : List ResolvedStmt} (picks : Picks) (h : Γ.Keeps f (givenBy ss)) :
    declaredBy (sourceOfStmts (renameStmts f picks Γ ss)) =
      (declaredBy (sourceOfStmts ss)).map (renameIf Γ.innermost f) := by
  induction ss generalizing picks with
  | nil => rfl
  | cons s ss ih =>
    obtain ⟨hs, hss⟩ := h.cons
    simp only [renameStmts, mapStmts, declaredBy, List.map_append, ih _ hss,
      Stmt.declares_source, s.declares_rename _ hs]

theorem declaredBy_subset {ρ : Type} (body : List (Stmt ρ)) :
    declaredBy (sourceOfStmts body) ⊆ namesOfStmts body := by
  induction body with
  | nil => exact List.Subset.refl _
  | cons s body ih =>
    intro x hx
    simp only [mapStmts, declaredBy, List.mem_append, Stmt.declares_source] at hx
    simp only [namesOfStmts, List.mem_append]
    exact hx.symm.imp (fun h => s.declares_subset h) fun h => ih h

/-- A plain statement stays plain. -/
theorem Stmt.isPlain_rename {s : ResolvedStmt} (picks : Picks) (h : s.source.IsPlain) :
    (s.rename f picks Γ).source.IsPlain := by
  unfold Stmt.IsPlain at h ⊢
  rw [Stmt.declares_source] at h ⊢
  have hkeeps : Γ.Keeps f s.given := by
    intro _ x hx
    have hmem := s.given_subset_declares hx
    rw [h] at hmem
    cases hmem
  rw [s.declares_rename picks hkeeps, h]
  rfl

end Keeps

/-! ### Distances -/

/-- The names of the scopes around a place after the renaming. -/
def renameScopes (f : String → String) : Picked → ScopeNames → ScopeNames
  | _, [] => []
  | Γ, names :: S => names.map (renameIf Γ.innermost f) :: renameScopes f Γ.tail S

/-- The one name can be replaced by the other: both are no keywords, and no scope has
    the new one. -/
structure Replaceable (x y : String) (S : ScopeNames) : Prop where
  old : Unreserved x
  new : Unreserved y
  scopes : ∀ names ∈ S, Avoids y names

section Distances

variable {x y : String} {Γ : Picked} {S : ScopeNames}

theorem Picked.at_zero (Γ : Picked) : Γ.at (some 0) = Γ.innermost := by cases Γ <;> rfl

theorem Picked.at_succ (Γ : Picked) (d : Nat) :
    Γ.at (some (d + 1)) = Picked.at Γ.tail (some d) := by
  cases Γ <;> rfl

theorem renameScopes_declaring (f : String → String) (names : List String) :
    renameScopes f Γ (declaring names S) =
      declaring (names.map (renameIf Γ.innermost f)) (renameScopes f Γ S) := by
  cases S with
  | nil => rfl
  | cons inner S => simp only [declaring, renameScopes, List.map_append]

/-- The scopes of a receiver and of a superclass are never picked. -/
theorem renameScopes_methodScopes {f : String → String} {name : Name}
    (h : renameIf Γ.innermost f name.text = name.text) :
    renameScopes f (false :: Γ) (methodScopes name false S) =
      methodScopes name false (renameScopes f Γ S) := by
  show [Keyword.thisWord.text] :: renameScopes f Γ (declaring [name.text] S) = _
  rw [renameScopes_declaring, List.map_singleton, h]
  rfl

theorem renameScopes_submethodScopes {f : String → String} {name : Name}
    (h : renameIf Γ.innermost f name.text = name.text) :
    renameScopes f (false :: false :: Γ) (methodScopes name true S) =
      methodScopes name true (renameScopes f Γ S) := by
  show [Keyword.thisWord.text] :: [Keyword.superWord.text] ::
    renameScopes f Γ (declaring [name.text] S) = _
  rw [renameScopes_declaring, List.map_singleton, h]
  rfl

theorem Replaceable.push (hS : Replaceable x y S) {names : List String} (h : Avoids y names) :
    Replaceable x y (names :: S) :=
  { hS with scopes := List.forall_mem_cons.mpr ⟨h, hS.scopes⟩ }

theorem Replaceable.declaring (hS : Replaceable x y S) {names : List String} (h : Avoids y names) :
    Replaceable x y (declaring names S) := by
  cases S with
  | nil => exact hS
  | cons inner S =>
    obtain ⟨hinner, houter⟩ := List.forall_mem_cons.mp hS.scopes
    exact { hS with
      scopes := List.forall_mem_cons.mpr ⟨List.forall_mem_append.mpr ⟨h, hinner⟩, houter⟩ }

theorem Replaceable.methodScopes (hS : Replaceable x y S) {name : Name} (h : name.text ≠ y)
    (hasSuper : Bool) : Replaceable x y (methodScopes name hasSuper S) := by
  have hkeyword (k : Keyword) : Avoids y [k.text] :=
    List.forall_mem_singleton.mpr (Ne.symm (hS.new.ne_keyword k))
  have hdeclared := hS.declaring (List.forall_mem_singleton.mpr h)
  cases hasSuper with
  | false => exact hdeclared.push (hkeyword .thisWord)
  | true => exact (hdeclared.push (hkeyword .superWord)).push (hkeyword .thisWord)

/-- A use is found where it was. -/
theorem isDistance_rename {z : String} {use : Distance} (hz : z ≠ y)
    (hS : ∀ names ∈ S, Avoids y names) (h : IsDistance S z use) :
    IsDistance (renameScopes (replace x y) Γ S) (renameIf (Γ.at use) (replace x y) z) use := by
  induction S generalizing Γ use with
  | nil =>
    cases use with
    | none => exact nofun
    | some d =>
      obtain ⟨inner, names, outer, hscopes, -⟩ := h
      simp at hscopes
  | cons inner S ih =>
    obtain ⟨hinner, hS⟩ := List.forall_mem_cons.mp hS
    unfold renameScopes
    match use with
    | none =>
      obtain ⟨hnot, hd⟩ := isDistance_cons_none.mp h
      exact isDistance_cons_none.mpr ⟨renameIf_replace_notMem hz hinner hnot _ _, ih hS hd⟩
    | some 0 =>
      rw [Picked.at_zero]
      exact isDistance_cons_zero.mpr (List.mem_map_of_mem (isDistance_cons_zero.mp h))
    | some (d + 1) =>
      -- the scopes in between still do not have the name, whether they are picked or not
      obtain ⟨hnot, hd⟩ := isDistance_cons_succ.mp h
      rw [Picked.at_succ]
      exact isDistance_cons_succ.mpr ⟨renameIf_replace_notMem hz hinner hnot _ _, ih hS hd⟩

/-- So are `this` and `super`, which keep their names. -/
theorem Replaceable.isDistance_keyword (hS : Replaceable x y S) {k : Keyword} {use : Distance}
    (h : IsDistance S k.text use) : IsDistance (renameScopes (replace x y) Γ S) k.text use := by
  have hd := isDistance_rename (x := x) (Γ := Γ) (Ne.symm (hS.new.ne_keyword k)) hS.scopes h
  rwa [renameIf_replace_keyword hS.old] at hd

end Distances

/-! ### Annotations -/

section Annotated

variable {x y : String}

mutual

/-- The renamed expression is annotated in the renamed scopes. -/
theorem AnnotatedExpr.rename {K : ClassKind} {S : ScopeNames} (hS : Replaceable x y S) (picks : Picks)
    (Γ : Picked) :
    {e : SourceExpr} → {e' : ResolvedExpr} → AnnotatedExpr K S e e' → Avoids y e'.names →
    AnnotatedExpr K (renameScopes (replace x y) Γ S) (e'.rename (replace x y) picks Γ).source
      (e'.rename (replace x y) picks Γ)
  | _, _, .literal, _ => .literal
  | _, _, .group h, hn => .group (h.rename hS picks Γ hn)
  | _, _, .unary h, hn => .unary (h.rename hS picks Γ hn)
  | _, _, .binary hl hr, hn => by
    obtain ⟨hnl, hnr⟩ := List.forall_mem_append.mp hn
    exact .binary (hl.rename hS picks.left Γ hnl) (hr.rename hS picks.right Γ hnr)
  | _, _, .logical hl hr, hn => by
    obtain ⟨hnl, hnr⟩ := List.forall_mem_append.mp hn
    exact .logical (hl.rename hS picks.left Γ hnl) (hr.rename hS picks.right Γ hnr)
  | _, _, .variable hd, hn =>
    .variable (isDistance_rename (hn _ List.mem_cons_self) hS.scopes hd)
  | _, _, .assign h hd, hn => by
    obtain ⟨hname, hn⟩ := List.forall_mem_cons.mp hn
    exact .assign (h.rename hS picks Γ hn) (isDistance_rename hname hS.scopes hd)
  | _, _, .call hf hargs, hn => by
    obtain ⟨hnf, hnargs⟩ := List.forall_mem_append.mp hn
    exact .call (hf.rename hS picks.left Γ hnf) (hargs.rename hS picks.right Γ hnargs)
  | _, _, .get h, hn => .get (h.rename hS picks Γ (List.forall_mem_cons.mp hn).2)
  | _, _, .set ho h, hn => by
    obtain ⟨hno, hn⟩ := List.forall_mem_append.mp (List.forall_mem_cons.mp hn).2
    exact .set (ho.rename hS picks.left Γ hno) (h.rename hS picks.right Γ hn)
  | _, _, .this hK hd, _ => .this hK (hS.isDistance_keyword hd)
  | _, _, .strayThis, _ => .strayThis
  | _, _, .super hd, _ => .super (hS.isDistance_keyword hd)
  | _, _, @AnnotatedExpr.lambda _ _ line params body body' h, hn => by
    obtain ⟨hparams, hn⟩ := List.forall_mem_append.mp hn
    refine .lambda ?_
    rw [paramNames_renameIf]
    exact h.rename (hS.push hparams) picks (picks.scope (replace x y) body' :: Γ) hn
      (picks.keeps (replace x y) body' Γ)

theorem AnnotatedExprs.rename {K : ClassKind} {S : ScopeNames} (hS : Replaceable x y S) (picks : Picks)
    (Γ : Picked) : {es : List SourceExpr} → {es' : List ResolvedExpr} → AnnotatedExprs K S es es' →
    Avoids y (namesOfExprs es') →
    AnnotatedExprs K (renameScopes (replace x y) Γ S)
      (sourceOfExprs (renameExprs (replace x y) picks Γ es'))
      (renameExprs (replace x y) picks Γ es')
  | _, _, .nil, _ => .nil
  | _, _, .cons h hs, hn => by
    obtain ⟨hne, hnes⟩ := List.forall_mem_append.mp hn
    exact .cons (h.rename hS picks.left Γ hne) (hs.rename hS picks.right Γ hnes)

theorem AnnotatedStmt.rename {K : ClassKind} {S : ScopeNames} (hS : Replaceable x y S) (picks : Picks)
    (Γ : Picked) :
    {s : SourceStmt} → {s' : ResolvedStmt} → AnnotatedStmt K S s s' → Avoids y s'.names →
    Γ.Keeps (replace x y) s'.given →
    AnnotatedStmt K (renameScopes (replace x y) Γ S) (s'.rename (replace x y) picks Γ).source
      (s'.rename (replace x y) picks Γ)
  | _, _, .expression h, hn, _ => .expression (h.rename hS picks Γ hn)
  | _, _, .print h, hn, _ => .print (h.rename hS picks Γ hn)
  | _, _, .var, _, _ => .var
  | _, _, .varInit h, hn, _ => by
    obtain ⟨hname, hn⟩ := List.forall_mem_cons.mp hn
    have hinit := h.rename (hS.declaring (List.forall_mem_singleton.mpr hname)) picks Γ hn
    rw [renameScopes_declaring] at hinit
    exact .varInit hinit
  | _, _, @AnnotatedStmt.block _ _ body body' h, hn, _ => by
    have hempty : Avoids y [] := List.forall_mem_nil _
    exact .block (h.rename (hS.push hempty) picks (picks.scope (replace x y) body' :: Γ) hn
      (picks.keeps (replace x y) body' Γ))
  | _, _, .branch hc ha, hn, hk => by
    obtain ⟨hnc, hna⟩ := List.forall_mem_append.mp hn
    exact .branch (hc.rename hS picks.left Γ hnc) (ha.rename hS picks.right Γ hna hk)
  | _, _, @AnnotatedStmt.branchElse _ _ c c' a a' b b' hc ha hb, hn, hk => by
    obtain ⟨hnc, hn⟩ := List.forall_mem_append.mp hn
    obtain ⟨hna, hnb⟩ := List.forall_mem_append.mp hn
    have hka := hk.mono (List.subset_append_left _ _)
    have hkb := hk.mono (List.subset_append_right _ _)
    -- the second branch is inside the declarations of the first
    rw [← ha.source, Stmt.declares_source] at hb
    have hdeclared : Avoids y a'.declares := fun z hz => hna z (a'.declares_subset hz)
    have hb' := hb.rename (hS.declaring hdeclared) picks.right.right Γ hnb hkb
    rw [renameScopes_declaring, ← a'.declares_rename picks.right.left hka,
      ← Stmt.declares_source] at hb'
    exact .branchElse (hc.rename hS picks.left Γ hnc) (ha.rename hS picks.right.left Γ hna hka) hb'
  | _, _, .loop hc h, hn, hk => by
    obtain ⟨hnc, hn⟩ := List.forall_mem_append.mp hn
    exact .loop (hc.rename hS picks.left Γ hnc) (h.rename hS picks.right Γ hn hk)
  | _, _, @AnnotatedStmt.function _ _ (.mk name _ _) (.mk _ _ _) h, hn, hk => by
    cases h with
    | mk hbody =>
      have hname : Avoids y [name.text] :=
        List.forall_mem_singleton.mpr (List.forall_mem_cons.mp hn).1
      have hkept : renameIf Γ.innermost (replace x y) name.text = name.text :=
        hk.renameIf_eq List.mem_cons_self
      have hdecl := (AnnotatedFun.mk hbody).rename (hS.declaring hname) picks Γ hn
      rw [renameScopes_declaring, List.map_singleton, hkept] at hdecl
      exact .function hdecl
  | _, _, .ret, _, _ => .ret
  | _, _, .retValue h, hn, _ => .retValue (h.rename hS picks Γ hn)
  | _, _, @AnnotatedStmt.classDecl _ _ name methods methods' h, hn, hk => by
    obtain ⟨hname, hn⟩ := List.forall_mem_cons.mp hn
    have hkept : renameIf Γ.innermost (replace x y) name.text = name.text :=
      hk.renameIf_eq List.mem_cons_self
    have hmethods := h.rename (hS.methodScopes hname false) picks (false :: Γ) hn
    rw [renameScopes_methodScopes hkept] at hmethods
    exact .classDecl hmethods
  | _, _, @AnnotatedStmt.subclassDecl _ _ name superName use methods methods' hd h, hn, hk => by
    obtain ⟨hname, hn⟩ := List.forall_mem_cons.mp hn
    obtain ⟨hsuper, hn⟩ := List.forall_mem_cons.mp hn
    have hkept : renameIf Γ.innermost (replace x y) name.text = name.text :=
      hk.renameIf_eq List.mem_cons_self
    have hdeclared := hS.declaring (List.forall_mem_singleton.mpr hname)
    have hd' := isDistance_rename (x := x) (Γ := Γ) hsuper hdeclared.scopes hd
    rw [renameScopes_declaring, List.map_singleton, hkept] at hd'
    have hmethods := h.rename (hS.methodScopes hname true) picks (false :: false :: Γ) hn
    rw [renameScopes_submethodScopes hkept] at hmethods
    exact .subclassDecl hd' hmethods

theorem AnnotatedStmts.rename {K : ClassKind} {S : ScopeNames} (hS : Replaceable x y S) (picks : Picks)
    (Γ : Picked) : {ss : List SourceStmt} → {ss' : List ResolvedStmt} → AnnotatedStmts K S ss ss' →
    Avoids y (namesOfStmts ss') → Γ.Keeps (replace x y) (givenBy ss') →
    AnnotatedStmts K (renameScopes (replace x y) Γ S)
      (sourceOfStmts (renameStmts (replace x y) picks Γ ss'))
      (renameStmts (replace x y) picks Γ ss')
  | _, _, .nil, _, _ => .nil
  | _, _, @AnnotatedStmts.cons _ _ s s' ss ss' h hs, hn, hk => by
    obtain ⟨hns, hnss⟩ := List.forall_mem_append.mp hn
    obtain ⟨hks, hkss⟩ := hk.cons
    rw [← h.source, Stmt.declares_source] at hs
    have hdeclared : Avoids y s'.declares := fun z hz => hns z (s'.declares_subset hz)
    have hs' := hs.rename (hS.declaring hdeclared) picks.right Γ hnss hkss
    rw [renameScopes_declaring, ← s'.declares_rename picks.left hks, ← Stmt.declares_source] at hs'
    exact .cons (h.rename hS picks.left Γ hns hks) hs'

theorem AnnotatedFun.rename {K : ClassKind} {S : ScopeNames} (hS : Replaceable x y S) (picks : Picks) (Γ : Picked) :
    {m : SourceFun} → {m' : ResolvedFun} → AnnotatedFun K S m m' → Avoids y m'.names →
    AnnotatedFun K (renameScopes (replace x y) Γ S) (m'.rename (replace x y) picks Γ).source
      (m'.rename (replace x y) picks Γ)
  | _, _, @AnnotatedFun.mk _ _ name params body body' h, hn => by
    obtain ⟨hparams, hn⟩ := List.forall_mem_append.mp (List.forall_mem_cons.mp hn).2
    refine .mk ?_
    rw [paramNames_renameIf]
    exact h.rename (hS.push hparams) picks (picks.scope (replace x y) body' :: Γ) hn
      (picks.keeps (replace x y) body' Γ)

theorem AnnotatedFuns.rename {K : ClassKind} {S : ScopeNames} (hS : Replaceable x y S) (picks : Picks)
    (Γ : Picked) : {ms : List SourceFun} → {ms' : List ResolvedFun} → AnnotatedFuns K S ms ms' →
    Avoids y (namesOfFuns ms') →
    AnnotatedFuns K (renameScopes (replace x y) Γ S)
      (sourceOfFuns (renameFuns (replace x y) picks Γ ms')) (renameFuns (replace x y) picks Γ ms')
  | _, _, .nil, _ => .nil
  | _, _, .cons h hs, hn => by
    obtain ⟨hnm, hnms⟩ := List.forall_mem_append.mp hn
    exact .cons (h.rename hS picks.left Γ hnm) (hs.rename hS picks.right Γ hnms)

end

end Annotated

/-! ### Well-formed programs -/

section WellFormed

variable {x y : String}

theorem unreserved_params (hy : Unreserved y) {params : List Name}
    (h : ∀ p ∈ params, Unreserved p.text) (b : Bool) :
    ∀ p ∈ params.map (·.renameIf b (replace x y)), Unreserved p.text := by
  rw [List.forall_mem_map]
  exact fun p hp => unreserved_renameIf hy (h p hp) b

mutual

/-- Renaming makes no keyword of a name, and no declaration of a plain statement. -/
theorem WellFormedExpr.rename (hy : Unreserved y) (picks : Picks) (Γ : Picked) :
    (e : ResolvedExpr) → WellFormedExpr e.source →
    WellFormedExpr (e.rename (replace x y) picks Γ).source
  | .literal _, _ => .literal
  | .group e, .group h => .group (WellFormedExpr.rename hy picks Γ e h)
  | .unary _ _ e, .unary h => .unary (WellFormedExpr.rename hy picks Γ e h)
  | .binary _ _ l r, .binary hl hr =>
    .binary (WellFormedExpr.rename hy picks.left Γ l hl)
      (WellFormedExpr.rename hy picks.right Γ r hr)
  | .logical _ _ l r, .logical hl hr =>
    .logical (WellFormedExpr.rename hy picks.left Γ l hl)
      (WellFormedExpr.rename hy picks.right Γ r hr)
  | .variable _ _, _ => .variable
  | .assign _ _ e, .assign hname h =>
    .assign (unreserved_renameIf hy hname _) (WellFormedExpr.rename hy picks Γ e h)
  | .call f args _, .call hf hargs =>
    .call (WellFormedExpr.rename hy picks.left Γ f hf)
      (wellFormed_renameExprs hy picks.right Γ args hargs)
  | .get e _, .get h => .get (WellFormedExpr.rename hy picks Γ e h)
  | .set o _ e, .set ho h =>
    .set (WellFormedExpr.rename hy picks.left Γ o ho) (WellFormedExpr.rename hy picks.right Γ e h)
  | .this _ _, _ => .this
  | .super _ _ _, _ => .super
  | .lambda _ _ body, .lambda hparams hbody =>
    .lambda (unreserved_params hy hparams _) (wellFormed_renameStmts hy picks _ body hbody)

theorem wellFormed_renameExprs (hy : Unreserved y) (picks : Picks) (Γ : Picked) :
    (es : List ResolvedExpr) → (∀ e ∈ sourceOfExprs es, WellFormedExpr e) →
    ∀ e ∈ sourceOfExprs (renameExprs (replace x y) picks Γ es), WellFormedExpr e
  | [], _ => List.forall_mem_nil _
  | e :: es, h => by
    obtain ⟨he, hes⟩ := List.forall_mem_cons.mp h
    exact List.forall_mem_cons.mpr ⟨WellFormedExpr.rename hy picks.left Γ e he,
      wellFormed_renameExprs hy picks.right Γ es hes⟩

theorem WellFormedStmt.rename (hy : Unreserved y) (picks : Picks) (Γ : Picked) :
    (s : ResolvedStmt) → WellFormedStmt s.source →
    WellFormedStmt (s.rename (replace x y) picks Γ).source
  | .expression e, .expression h => .expression (WellFormedExpr.rename hy picks Γ e h)
  | .print e, .print h => .print (WellFormedExpr.rename hy picks Γ e h)
  | .var _ none, .var hname _ => .var (unreserved_renameIf hy hname _) nofun
  | .var _ (some e), .var hname h =>
    .var (unreserved_renameIf hy hname _)
      (by rintro _ ⟨⟩; exact WellFormedExpr.rename hy picks Γ e (h _ rfl))
  | .block body, .block h => .block (wellFormed_renameStmts hy picks _ body h)
  | .branch c a none, .branch hc ha _ hplain _ =>
    .branch (WellFormedExpr.rename hy picks.left Γ c hc)
      (WellFormedStmt.rename hy picks.right Γ a ha) nofun
      (Stmt.isPlain_rename _ hplain) nofun
  | .branch c a (some b), .branch hc ha hb hplain hplain' =>
    .branch (WellFormedExpr.rename hy picks.left Γ c hc)
      (WellFormedStmt.rename hy picks.right.left Γ a ha)
      (by rintro _ ⟨⟩; exact WellFormedStmt.rename hy picks.right.right Γ b (hb _ rfl))
      (Stmt.isPlain_rename _ hplain)
      (by rintro _ ⟨⟩; exact Stmt.isPlain_rename _ (hplain' _ rfl))
  | .loop c body, .loop hc h hplain =>
    .loop (WellFormedExpr.rename hy picks.left Γ c hc)
      (WellFormedStmt.rename hy picks.right Γ body h)
      (Stmt.isPlain_rename _ hplain)
  | .function (.mk name params body), .function hname h =>
    .function hname (WellFormedFun.rename hy picks Γ (.mk name params body) h)
  | .ret _ none, _ => .ret nofun
  | .ret _ (some e), .ret h =>
    .ret (by rintro _ ⟨⟩; exact WellFormedExpr.rename hy picks Γ e (h _ rfl))
  | .classDecl _ none methods, .classDecl hname h =>
    .classDecl hname (wellFormed_renameFuns hy picks _ methods h)
  | .classDecl _ (some (_, _)) methods, .classDecl hname h =>
    .classDecl hname (wellFormed_renameFuns hy picks _ methods h)

theorem wellFormed_renameStmts (hy : Unreserved y) (picks : Picks) (Γ : Picked) :
    (ss : List ResolvedStmt) → (∀ s ∈ sourceOfStmts ss, WellFormedStmt s) →
    ∀ s ∈ sourceOfStmts (renameStmts (replace x y) picks Γ ss), WellFormedStmt s
  | [], _ => List.forall_mem_nil _
  | s :: ss, h => by
    obtain ⟨hs, hss⟩ := List.forall_mem_cons.mp h
    exact List.forall_mem_cons.mpr ⟨WellFormedStmt.rename hy picks.left Γ s hs,
      wellFormed_renameStmts hy picks.right Γ ss hss⟩

theorem WellFormedFun.rename (hy : Unreserved y) (picks : Picks) (Γ : Picked) :
    (m : ResolvedFun) → WellFormedFun m.source →
    WellFormedFun (m.rename (replace x y) picks Γ).source
  | .mk _ _ body, .mk hparams hbody =>
    .mk (unreserved_params hy hparams _) (wellFormed_renameStmts hy picks _ body hbody)

theorem wellFormed_renameFuns (hy : Unreserved y) (picks : Picks) (Γ : Picked) :
    (ms : List ResolvedFun) → (∀ m ∈ sourceOfFuns ms, WellFormedFun m) →
    ∀ m ∈ sourceOfFuns (renameFuns (replace x y) picks Γ ms), WellFormedFun m
  | [], _ => List.forall_mem_nil _
  | m :: ms, h => by
    obtain ⟨hm, hms⟩ := List.forall_mem_cons.mp h
    exact List.forall_mem_cons.mpr ⟨WellFormedFun.rename hy picks.left Γ m hm,
      wellFormed_renameFuns hy picks.right Γ ms hms⟩

end

end WellFormed

/-! ### Static rules -/

/-- What a phrase stands in, before and after the renaming: of a variable in whose
    initial expression it stands, the name may have changed. -/
inductive Encloser.Renamed (x y : String) : Encloser → Encloser → Prop
  | block : Renamed x y .block .block
  | function : Renamed x y .function .function
  | method {name derived} : Renamed x y (.method name derived) (.method name derived)
  | initializer {name b} :
      name ≠ y → Renamed x y (.initializer name) (.initializer (renameIf b (replace x y) name))

/-- A phrase before and after the renaming. -/
inductive Phrase.Renamed (x y : String) : Phrase → Phrase → Prop
  | expr {e : ResolvedExpr} {picks : Picks} {Γ : Picked} :
      Avoids y e.names →
      Renamed x y (.expr e.source) (.expr (e.rename (replace x y) picks Γ).source)
  | stmt {s : ResolvedStmt} {picks : Picks} {Γ : Picked} :
      Avoids y s.names → Γ.Keeps (replace x y) s.given →
      Renamed x y (.stmt s.source) (.stmt (s.rename (replace x y) picks Γ).source)

/-- A part of a phrase before and after the renaming. -/
def PartRenamed (x y : String) (part part' : Surroundings × Phrase) : Prop :=
  List.Forall₂ (Encloser.Renamed x y) part.1 part'.1 ∧ part.2.Renamed x y part'.2

/-- The names of a scope before and after the renaming. -/
def ScopeRenamed (x y : String) (names names' : List String) : Prop :=
  Avoids y names ∧ ∃ b, names' = names.map (renameIf b (replace x y))

section Clean

variable {x y : String}

/-- Members of lists whose members are related in order. -/
theorem exists_of_forall₂ {α : Type} {R : α → α → Prop} {as bs : List α}
    (h : List.Forall₂ R as bs) {b : α} (hb : b ∈ bs) : ∃ a ∈ as, R a b := by
  induction h with
  | nil => cases hb
  | cons hab _ ih =>
    rcases List.mem_cons.mp hb with rfl | hb
    · exact ⟨_, List.mem_cons_self, hab⟩
    · obtain ⟨a, ha, hR⟩ := ih hb
      exact ⟨a, List.mem_cons_of_mem _ ha, hR⟩

theorem partRenamed_expr {e : ResolvedExpr} (picks : Picks) (Γ : Picked) (h : Avoids y e.names) :
    PartRenamed x y ([], .expr e.source) ([], .expr (e.rename (replace x y) picks Γ).source) :=
  ⟨.nil, .expr h⟩

theorem partRenamed_stmt {s : ResolvedStmt} (picks : Picks) {Γ : Picked} (h : Avoids y s.names)
    (hk : Γ.Keeps (replace x y) s.given) :
    PartRenamed x y ([], .stmt s.source) ([], .stmt (s.rename (replace x y) picks Γ).source) :=
  ⟨.nil, .stmt h hk⟩

theorem parts_exprs {es : List ResolvedExpr} (picks : Picks) (Γ : Picked)
    (h : Avoids y (namesOfExprs es)) :
    List.Forall₂ (PartRenamed x y) ((sourceOfExprs es).map fun e => ([], .expr e))
      ((sourceOfExprs (renameExprs (replace x y) picks Γ es)).map fun e => ([], .expr e)) := by
  induction es generalizing picks with
  | nil => exact .nil
  | cons e es ih =>
    obtain ⟨he, hes⟩ := List.forall_mem_append.mp h
    exact .cons (partRenamed_expr _ _ he) (ih _ hes)

theorem parts_body {body : List ResolvedStmt} (picks : Picks) {Γ : Picked} {c : Encloser}
    (hc : c.Renamed x y c) (h : Avoids y (namesOfStmts body))
    (hk : Γ.Keeps (replace x y) (givenBy body)) :
    List.Forall₂ (PartRenamed x y) ((sourceOfStmts body).map fun s => ([c], .stmt s))
      ((sourceOfStmts (renameStmts (replace x y) picks Γ body)).map fun s => ([c], .stmt s)) := by
  induction body generalizing picks with
  | nil => exact .nil
  | cons s body ih =>
    obtain ⟨hs, hbody⟩ := List.forall_mem_append.mp h
    obtain ⟨hks, hkbody⟩ := hk.cons
    exact .cons ⟨.cons hc .nil, .stmt hs hks⟩ (ih _ hbody hkbody)

theorem parts_methods {methods : List ResolvedFun} (picks : Picks) (Γ : Picked) (derived : Bool)
    (h : Avoids y (namesOfFuns methods)) :
    List.Forall₂ (PartRenamed x y)
      ((sourceOfFuns methods).flatMap fun m =>
        m.body.map fun s => ([.method m.name.text derived], .stmt s))
      ((sourceOfFuns (renameFuns (replace x y) picks Γ methods)).flatMap fun m =>
        m.body.map fun s => ([.method m.name.text derived], .stmt s)) := by
  induction methods generalizing picks with
  | nil => exact .nil
  | cons m methods ih =>
    obtain ⟨hm, hmethods⟩ := List.forall_mem_append.mp h
    cases m with
    | mk name params body =>
      obtain ⟨-, hbody⟩ := List.forall_mem_append.mp (List.forall_mem_cons.mp hm).2
      exact List.rel_append (parts_body picks.left .method hbody (picks.left.keeps _ body Γ))
        (ih _ hmethods)

/-- The parts of a phrase are renamed with it. -/
theorem Phrase.Renamed.parts {ph ph' : Phrase} (h : ph.Renamed x y ph') :
    List.Forall₂ (PartRenamed x y) ph.parts ph'.parts := by
  cases h with
  | @expr e picks Γ hn =>
    cases e with
    | literal | «variable» | this | super => exact .nil
    | group e | unary _ _ e => exact .cons (partRenamed_expr _ _ hn) .nil
    | get e _ | assign _ _ e =>
      exact .cons (partRenamed_expr _ _ (List.forall_mem_cons.mp hn).2) .nil
    | binary _ _ l r | logical _ _ l r =>
      obtain ⟨hl, hr⟩ := List.forall_mem_append.mp hn
      exact .cons (partRenamed_expr _ _ hl) (.cons (partRenamed_expr _ _ hr) .nil)
    | set o _ e =>
      obtain ⟨ho, he⟩ := List.forall_mem_append.mp (List.forall_mem_cons.mp hn).2
      exact .cons (partRenamed_expr _ _ ho) (.cons (partRenamed_expr _ _ he) .nil)
    | call f args _ =>
      obtain ⟨hf, hargs⟩ := List.forall_mem_append.mp hn
      exact .cons (partRenamed_expr _ _ hf) (parts_exprs _ _ hargs)
    | lambda _ params body =>
      obtain ⟨-, hbody⟩ := List.forall_mem_append.mp hn
      exact parts_body picks .function hbody (picks.keeps _ body Γ)
  | @stmt s picks Γ hn hk =>
    cases s with
    | expression e | print e => exact .cons (partRenamed_expr _ _ hn) .nil
    | var name initial =>
      cases initial with
      | none => exact .nil
      | some e =>
        obtain ⟨hname, he⟩ := List.forall_mem_cons.mp hn
        exact .cons ⟨.cons (.initializer hname) .nil, .expr he⟩ .nil
    | block body => exact parts_body picks .block hn (picks.keeps _ body Γ)
    | branch c a b =>
      cases b with
      | none =>
        obtain ⟨hc, ha⟩ := List.forall_mem_append.mp hn
        exact .cons (partRenamed_expr _ _ hc) (.cons (partRenamed_stmt _ ha hk) .nil)
      | some b =>
        obtain ⟨hc, hn⟩ := List.forall_mem_append.mp hn
        obtain ⟨ha, hb⟩ := List.forall_mem_append.mp hn
        have hka := hk.mono (List.subset_append_left _ _)
        have hkb := hk.mono (List.subset_append_right _ _)
        exact .cons (partRenamed_expr _ _ hc)
          (.cons (partRenamed_stmt _ ha hka) (.cons (partRenamed_stmt _ hb hkb) .nil))
    | loop c body =>
      obtain ⟨hc, hbody⟩ := List.forall_mem_append.mp hn
      exact .cons (partRenamed_expr _ _ hc) (.cons (partRenamed_stmt _ hbody hk) .nil)
    | function decl =>
      cases decl with
      | mk name params body =>
        obtain ⟨-, hbody⟩ := List.forall_mem_append.mp (List.forall_mem_cons.mp hn).2
        exact parts_body picks .function hbody (picks.keeps _ body Γ)
    | ret line value =>
      cases value with
      | none => exact .nil
      | some e => exact .cons (partRenamed_expr _ _ hn) .nil
    | classDecl name superclass methods =>
      cases superclass with
      | none => exact parts_methods picks (false :: Γ) false (List.forall_mem_cons.mp hn).2
      | some superclass =>
        have hmethods := (List.forall_mem_cons.mp (List.forall_mem_cons.mp hn).2).2
        exact parts_methods picks (false :: false :: Γ) true hmethods

/-- What is inside of a renamed phrase was there before. -/
theorem Inside.renamed {π' ρ' : Surroundings} {ph' target' : Phrase}
    (h : Inside π' ph' ρ' target') {π : Surroundings} {ph : Phrase}
    (hπ : List.Forall₂ (Encloser.Renamed x y) π π') (hph : ph.Renamed x y ph') :
    ∃ ρ target, Inside π ph ρ target ∧ List.Forall₂ (Encloser.Renamed x y) ρ ρ' ∧
      target.Renamed x y target' := by
  induction h generalizing π ph with
  | self => exact ⟨π, ph, .self, hπ, hph⟩
  | part hpart _ ih =>
    obtain ⟨⟨more, inner⟩, hmem, hmore, hinner⟩ := exists_of_forall₂ hph.parts hpart
    obtain ⟨ρ, target, hinside, hρ, htarget⟩ := ih (List.rel_append hmore hπ) hinner
    exact ⟨ρ, target, .part hmem hinside, hρ, htarget⟩

/-- A search that does not stop at initial expressions finds what it found. -/
theorem find?_renamed {π π' : Surroundings} (h : List.Forall₂ (Encloser.Renamed x y) π π')
    {q : Encloser → Bool} (hq : ∀ name, q (.initializer name) = false) :
    π'.find? q = π.find? q := by
  induction h with
  | nil => rfl
  | cons hc _ ih =>
    cases hc with
    | block | function | method => rw [List.find?_cons, List.find?_cons, ih]
    | initializer _ => rw [List.find?_cons, List.find?_cons, hq, hq, ih]

theorem exists_renamed {π π' : Surroundings} (h : List.Forall₂ (Encloser.Renamed x y) π π')
    {q : Encloser → Bool} (hq : ∀ name, q (.initializer name) = false) :
    (∃ c ∈ π', q c = true) ↔ ∃ c ∈ π, q c = true := by
  rw [← List.find?_isSome, ← List.find?_isSome, find?_renamed h hq]

/-- The names of a body and of the parameters before it. -/
theorem scopeRenamed_body {params : List Name} {body : List ResolvedStmt} (picks : Picks)
    (Γ : Picked) (hparams : Avoids y (paramNames params)) (h : Avoids y (namesOfStmts body)) :
    ScopeRenamed x y (paramNames params ++ declaredBy (sourceOfStmts body))
      (paramNames (params.map (·.renameIf (picks.scope (replace x y) body) (replace x y))) ++
        declaredBy (sourceOfStmts (renameStmts (replace x y) picks
          (picks.scope (replace x y) body :: Γ) body))) := by
  refine ⟨List.forall_mem_append.mpr ⟨hparams, ?_⟩, picks.scope (replace x y) body, ?_⟩
  · exact fun z hz => h z (declaredBy_subset body hz)
  · rw [paramNames_renameIf, declaredBy_rename _ (picks.keeps _ body Γ), List.map_append]
    rfl

theorem scopes_methods {methods : List ResolvedFun} (picks : Picks) (Γ : Picked)
    (h : Avoids y (namesOfFuns methods)) :
    List.Forall₂ (ScopeRenamed x y)
      ((sourceOfFuns methods).map fun m => paramNames m.params ++ declaredBy m.body)
      ((sourceOfFuns (renameFuns (replace x y) picks Γ methods)).map fun m =>
        paramNames m.params ++ declaredBy m.body) := by
  induction methods generalizing picks with
  | nil => exact .nil
  | cons m methods ih =>
    obtain ⟨hm, hmethods⟩ := List.forall_mem_append.mp h
    cases m with
    | mk name params body =>
      obtain ⟨hparams, hbody⟩ := List.forall_mem_append.mp (List.forall_mem_cons.mp hm).2
      exact .cons (scopeRenamed_body _ _ hparams hbody) (ih _ hmethods)

/-- So are the scopes that a phrase opens. -/
theorem Phrase.Renamed.scopes {ph ph' : Phrase} (h : ph.Renamed x y ph') :
    List.Forall₂ (ScopeRenamed x y) ph.scopes ph'.scopes := by
  have hempty : Avoids y (paramNames []) := List.forall_mem_nil _
  cases h with
  | @expr e picks Γ hn =>
    cases e with
    | lambda _ params body =>
      obtain ⟨hparams, hbody⟩ := List.forall_mem_append.mp hn
      exact .cons (scopeRenamed_body picks Γ hparams hbody) .nil
    | _ => exact .nil
  | @stmt s picks Γ hn hk =>
    cases s with
    | block body => exact .cons (scopeRenamed_body picks Γ hempty hn) .nil
    | function decl =>
      cases decl with
      | mk name params body =>
        obtain ⟨hparams, hbody⟩ := List.forall_mem_append.mp (List.forall_mem_cons.mp hn).2
        exact .cons (scopeRenamed_body picks Γ hparams hbody) .nil
    | classDecl name superclass methods =>
      cases superclass with
      | none => exact scopes_methods picks (false :: Γ) (List.forall_mem_cons.mp hn).2
      | some superclass =>
        exact scopes_methods picks (false :: false :: Γ)
          (List.forall_mem_cons.mp (List.forall_mem_cons.mp hn).2).2
    | var name initial => cases initial <;> exact .nil
    | branch c a b => cases b <;> exact .nil
    | ret line value => cases value <;> exact .nil
    | _ => exact .nil

/-- The renamed phrase obeys the rules that the phrase obeys. -/
theorem Obeys.renamed {π π' : Surroundings} {ph ph' : Phrase}
    (hπ : List.Forall₂ (Encloser.Renamed x y) π π') (hph : ph.Renamed x y ph')
    (h : Obeys π ph) : Obeys π' ph' := by
  obtain ⟨hscopes, h⟩ := h
  constructor
  · intro names' hnames'
    obtain ⟨names, hnames, havoids, b, rfl⟩ := exists_of_forall₂ hph.scopes hnames'
    exact nodup_map_renameIf havoids (hscopes names hnames) b
  · cases hph with
    | @expr e picks Γ hn =>
      cases e with
      | «variable» name use =>
        rintro other ρ' rfl hlocal heq
        -- the variable in whose initial expression it stands had another name before
        cases hπ with
        | @cons c _ ρ _ hc hρ =>
          have hbefore : IsLocal ρ := (exists_renamed hρ fun _ => rfl).mp hlocal
          have hname := hn name.text List.mem_cons_self
          cases hc with
          | initializer hother => exact h _ _ rfl hbefore (renameIf_replace_inj hname hother heq)
      | this => exact (exists_renamed hπ fun _ => rfl).mpr h
      | super =>
        obtain ⟨name, hname⟩ := h
        exact ⟨name, (find?_renamed hπ fun _ => rfl).trans hname⟩
      | _ => trivial
    | @stmt s picks Γ hn hk =>
      cases s with
      | ret line value =>
        have hfound := find?_renamed hπ (q := Encloser.isFunction) fun _ => rfl
        cases value with
        | none => exact ⟨(exists_renamed hπ fun _ => rfl).mpr h.1, nofun⟩
        | some e =>
          refine ⟨(exists_renamed hπ fun _ => rfl).mpr h.1, fun _ derived => ?_⟩
          rw [hfound]
          exact h.2 rfl derived
      | classDecl name superclass methods =>
        cases superclass with
        | none => trivial
        | some superclass =>
          obtain ⟨hname, hn⟩ := List.forall_mem_cons.mp hn
          obtain ⟨hsuper, -⟩ := List.forall_mem_cons.mp hn
          -- the class keeps its name
          exact fun heq => h (renameIf_replace_inj (b := false) hsuper hname heq)
      | var name initial => cases initial <;> trivial
      | branch c a b => cases b <;> trivial
      | _ => trivial

end Clean

/-! ### Uses -/

/-- How and on which line a name is used, and the distance of the use. -/
def LocalUse.site (use : LocalUse) : UseKind × Int × Nat := (use.kind, use.name.line, use.distance)

/-- The uses, whatever the names. -/
def sites (uses : List LocalUse) : List (UseKind × Int × Nat) := uses.map (·.site)

section Uses

variable {f : String → String}

theorem sites_append (us vs : List LocalUse) : sites (us ++ vs) = sites us ++ sites vs :=
  List.map_append

theorem sites_noted (kind : UseKind) (name : Name) (b : Bool) (use : Distance) :
    sites (noted kind (name.renameIf b f) use) = sites (noted kind name use) := by
  cases use <;> rfl

mutual

/-- The uses in an expression stay where they were. -/
theorem sites_rename (picks : Picks) (Γ : Picked) : (e : ResolvedExpr) →
    sites (localUses (e.rename f picks Γ)) = sites (localUses e)
  | .literal _ | .this _ _ | .super _ _ _ => rfl
  | .group e | .unary _ _ e | .get e _ => by
    simp only [Expr.rename, localUses, sites_rename picks Γ e]
  | .binary _ _ l r | .logical _ _ l r | .set l _ r => by
    simp only [Expr.rename, localUses, sites_append, sites_rename picks.left Γ l,
      sites_rename picks.right Γ r]
  | .variable name use => by simp only [Expr.rename, localUses, sites_noted]
  | .assign name use e => by
    simp only [Expr.rename, localUses, sites_append, sites_noted, sites_rename picks Γ e]
  | .call c args _ => by
    simp only [Expr.rename, localUses, sites_append, sites_rename picks.left Γ c,
      sites_renameExprs picks.right Γ args]
  | .lambda _ params body => by
    simp only [Expr.rename, localUses, sites_renameStmts picks _ body]

theorem sites_renameExprs (picks : Picks) (Γ : Picked) : (es : List ResolvedExpr) →
    sites (localUsesOfExprs (renameExprs f picks Γ es)) = sites (localUsesOfExprs es)
  | [] => rfl
  | e :: es => by
    simp only [renameExprs, localUsesOfExprs, sites_append, sites_rename picks.left Γ e,
      sites_renameExprs picks.right Γ es]

theorem sites_renameStmt (picks : Picks) (Γ : Picked) : (s : ResolvedStmt) →
    sites (localUsesOfStmt (s.rename f picks Γ)) = sites (localUsesOfStmt s)
  | .expression e | .print e | .var _ (some e) | .ret _ (some e) => by
    simp only [Stmt.rename, localUsesOfStmt, sites_rename picks Γ e]
  | .var _ none | .ret _ none => rfl
  | .block body => by simp only [Stmt.rename, localUsesOfStmt, sites_renameStmts picks _ body]
  | .branch c a none => by
    simp only [Stmt.rename, localUsesOfStmt, sites_append, sites_rename picks.left Γ c,
      sites_renameStmt picks.right Γ a]
  | .branch c a (some b) => by
    simp only [Stmt.rename, localUsesOfStmt, sites_append, sites_rename picks.left Γ c,
      sites_renameStmt picks.right.left Γ a, sites_renameStmt picks.right.right Γ b]
  | .loop c body => by
    simp only [Stmt.rename, localUsesOfStmt, sites_append, sites_rename picks.left Γ c,
      sites_renameStmt picks.right Γ body]
  | .function decl => by simp only [Stmt.rename, localUsesOfStmt, sites_renameFun picks Γ decl]
  | .classDecl name none methods => by
    simp only [Stmt.rename, localUsesOfStmt, sites_renameFuns picks _ methods]
  | .classDecl name (some (superName, use)) methods => by
    simp only [Stmt.rename, localUsesOfStmt, sites_append, sites_noted,
      sites_renameFuns picks _ methods]

theorem sites_renameStmts (picks : Picks) (Γ : Picked) : (ss : List ResolvedStmt) →
    sites (localUsesOfStmts (renameStmts f picks Γ ss)) = sites (localUsesOfStmts ss)
  | [] => rfl
  | s :: ss => by
    simp only [renameStmts, localUsesOfStmts, sites_append, sites_renameStmt picks.left Γ s,
      sites_renameStmts picks.right Γ ss]

theorem sites_renameFun (picks : Picks) (Γ : Picked) : (m : ResolvedFun) →
    sites (localUsesOfFun (m.rename f picks Γ)) = sites (localUsesOfFun m)
  | .mk name params body => by
    simp only [FunDecl.rename, localUsesOfFun, sites_renameStmts picks _ body]

theorem sites_renameFuns (picks : Picks) (Γ : Picked) : (ms : List ResolvedFun) →
    sites (localUsesOfFuns (renameFuns f picks Γ ms)) = sites (localUsesOfFuns ms)
  | [] => rfl
  | m :: ms => by
    simp only [renameFuns, localUsesOfFuns, sites_append, sites_renameFun picks.left Γ m,
      sites_renameFuns picks.right Γ ms]

end

end Uses

/-! ### Programs -/

/-- The program passes all checks, and this is what resolution makes of it. -/
structure ResolvesTo (program : List SourceStmt) (statements : List ResolvedStmt) : Prop where
  wellFormed : ∀ s ∈ program, WellFormedStmt s
  errors : (resolve program).errors = []
  statements : (resolve program).statements = statements

/-- The renamed program passes the checks as well, and resolution finds in it what it
    found before. -/
theorem resolve_rename {x y : String} (hx : Unreserved x) (hy : Unreserved y)
    {program : List SourceStmt} {statements : List ResolvedStmt}
    (h : ResolvesTo program statements) (hfresh : Avoids y (namesOfStmts statements))
    (picks : Picks) :
    ResolvesTo (sourceOfStmts (renameStmts (replace x y) picks [] statements))
        (renameStmts (replace x y) picks [] statements) ∧
      sites (resolve (sourceOfStmts (renameStmts (replace x y) picks [] statements))).uses =
        sites (resolve program).uses := by
  obtain ⟨hwf, herrors, rfl⟩ := h
  obtain ⟨hannotated, huses, -⟩ := annotated_of_resolve program
  have hsource := hannotated.source
  have hkeeps : Picked.Keeps (replace x y) [] (givenBy (resolve program).statements) := nofun
  have hwf' := wellFormed_renameStmts (x := x) hy picks [] (resolve program).statements
    (by rw [hsource]; exact hwf)
  obtain ⟨hannotated', huses', -⟩ := annotated_of_resolve
    (sourceOfStmts (renameStmts (replace x y) picks [] (resolve program).statements))
  have hreplaceable : Replaceable x y [] := ⟨hx, hy, List.forall_mem_nil _⟩
  have hrenamed := hannotated.rename hreplaceable picks [] hfresh hkeeps
  have hstatements := hannotated'.unique hrenamed
  refine ⟨⟨hwf', ?_, hstatements⟩, ?_⟩
  · rw [resolve_errors_iff_clean] at herrors ⊢
    intro s' hs' ρ' target' hinside
    -- each phrase was there before, and obeyed the rules
    have hparts := parts_body (x := x) picks .block hfresh hkeeps
    obtain ⟨⟨π, ph⟩, hmem, -, hph⟩ :=
      exists_of_forall₂ hparts (List.mem_map.mpr ⟨s', hs', rfl⟩)
    obtain ⟨s, hs, heq⟩ := List.mem_map.mp hmem
    cases heq
    rw [hsource] at hs
    obtain ⟨ρ, target, hbefore, hρ, htarget⟩ := hinside.renamed .nil hph
    exact Obeys.renamed hρ htarget (herrors s hs ρ target hbefore)
  · rw [huses', huses, hstatements, sites_renameStmts]

end Treewalk
