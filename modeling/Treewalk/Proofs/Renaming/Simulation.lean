import Treewalk.Proofs.Lexical.Steps
import Treewalk.Proofs.Renaming.Relation

/-! # A program and its renaming run alike

    `PairedRuns` says that two computations, started in paired states, end alike: both
    with paired results or both with the same abort, in paired states.  It holds of every
    step of the evaluator and, by induction on how deeply evaluation may nest, of a whole
    program and its renaming (`pairs_program`). -/

namespace Treewalk

/-! ### Computations -/

/-- The same fault.  Only the read of an unset variable may tell another name. -/
inductive PairedFaults : Fault → Fault → Prop
  | same {fault} : PairedFaults fault fault
  | unset {x y} : PairedFaults (.unset x) (.unset y)

/-- The same fault, with the same calls active. -/
structure PairedAborts (e e' : Abort) : Prop where
  fault : PairedFaults e.fault e'.fault
  frames : e'.frames = e.frames

section Paired

variable {α β : Type} {f : String → String} {M : Marking} {post : Marking → α → α → Prop}

/-- Both computations end with paired results, or both with the same abort. -/
inductive PairedEnds (f : String → String) (M : Marking) (post : Marking → α → α → Prop) :
    EStateM.Result Abort Machine α → EStateM.Result Abort Machine α → Prop
  | ok {a a' m m' M'} : M <+: M' → PairedMachines f M' m m' → post M' a a' →
      PairedEnds f M post (.ok a m) (.ok a' m')
  | error {e e' m m' M'} : M <+: M' → PairedMachines f M' m m' → PairedAborts e e' →
      PairedEnds f M post (.error e m) (.error e' m')

/-- From paired states, both computations end alike. -/
def PairedRuns (f : String → String) (M : Marking) (x x' : Eval α)
    (post : Marking → α → α → Prop) : Prop :=
  ∀ m m', PairedMachines f M m m' → PairedEnds f M post (x m) (x' m')

namespace PairedRuns

variable {x x' : Eval α}

theorem pure {a a' : α} (h : post M a a') : PairedRuns f M (pure a) (pure a') post :=
  fun _ _ hm => .ok List.prefix_rfl hm h

/-- One computation after the other. -/
theorem seq {g g' : α → Eval β} {post' : Marking → β → β → Prop} (hx : PairedRuns f M x x' post)
    (hg : ∀ {M' a a'}, M <+: M' → post M' a a' → PairedRuns f M' (g a) (g' a') post') :
    PairedRuns f M (x >>= g) (x' >>= g') post' := by
  intro m m' hm
  have hfirst := hx m m' hm
  generalize hxm : x m = r at hfirst
  generalize hxm' : x' m' = r' at hfirst
  cases hfirst with
  | error hM hm₁ habort =>
    rw [bind_of_error hxm, bind_of_error hxm']
    exact .error hM hm₁ habort
  | ok hM hm₁ hpost =>
    rw [bind_of_ok hxm, bind_of_ok hxm']
    -- the second computation starts where the first ended
    have hsecond := hg hM hpost _ _ hm₁
    generalize g _ _ = r at hsecond
    generalize g' _ _ = r' at hsecond
    cases hsecond with
    | error hM₂ hm₂ habort => exact .error (hM.trans hM₂) hm₂ habort
    | ok hM₂ hm₂ hpost₂ => exact .ok (hM.trans hM₂) hm₂ hpost₂

theorem map {post' : Marking → β → β → Prop} (g : α → β) (hx : PairedRuns f M x x' post)
    (hg : ∀ {M' a a'}, post M' a a' → post' M' (g a) (g a')) :
    PairedRuns f M (g <$> x) (g <$> x') post' := by
  rw [← bind_pure_comp, ← bind_pure_comp]
  exact hx.seq fun _ hpost => .pure (hg hpost)

/-- Both are cut short by the same fault. -/
theorem abort {ctx : Context} {fault fault' : Fault} (h : PairedFaults fault fault') :
    PairedRuns f M (Eval.abort ctx fault) (Eval.abort ctx fault') post :=
  fun _ _ hm => .error List.prefix_rfl hm ⟨h, rfl⟩

theorem fail {ctx : Context} (issue : RuntimeIssue) (line : Int) :
    PairedRuns f M (Eval.fail ctx issue line) (Eval.fail ctx issue line) post :=
  abort .same

/-- Both change their stores. -/
theorem modify {g g' : Store Value → Store Value}
    (hg : ∀ {s s'}, PairedStores f M s s' → PairedStores f M (g s) (g' s')) :
    PairedRuns f M (Eval.modifyStore g) (Eval.modifyStore g') fun _ _ _ => True :=
  fun _ _ hm => .ok List.prefix_rfl (hm.withStore (hg hm.store)) trivial

/-- Both change their stores, and yield what the changes yield. -/
theorem update {g g' : Store Value → α × Store Value} {M' : Marking} (hM : M <+: M')
    (hg : ∀ {s s'}, PairedStores f M s s' →
      PairedStores f M' (g s).2 (g' s').2 ∧ post M' (g s).1 (g' s').1) :
    PairedRuns f M (Eval.updateStore g) (Eval.updateStore g') post := by
  intro m m' hm
  obtain ⟨hstore, hpost⟩ := hg hm.store
  exact .ok hM (hm.withStore hstore) hpost

end PairedRuns

end Paired

section Steps

variable {f : String → String} {M : Marking} {Γ : Picked} {ctx : Context} {env : Env}
  {v v' : Value}

/-! ### Accesses -/

/-- Both accesses succeed with paired values, or both fail in the same way. -/
inductive PairedAccesses (f : String → String) (M : Marking) :
    Except AccessFault Value → Except AccessFault Value → Prop
  | ok {w w' : Value} : PairedValues f M w w' → PairedAccesses f M (.ok w) (.ok w')
  | unbound {x y} : PairedAccesses f M (.error (.unbound x)) (.error (.unbound y))
  | beyondGlobal : PairedAccesses f M (.error .beyondGlobal) (.error .beyondGlobal)

theorem PairedAccesses.mono {M' : Marking} {a a' : Except AccessFault Value}
    (h : PairedAccesses f M a a') (hM : M <+: M') : PairedAccesses f M' a a' := by
  cases h with
  | ok hv => exact .ok (hv.mono hM)
  | unbound => exact .unbound
  | beyondGlobal => exact .beyondGlobal

theorem pairs_access {a a' : Except AccessFault Value} (h : PairedAccesses f M a a') :
    PairedRuns f M (Eval.access ctx a) (Eval.access ctx a') (PairedValues f) := by
  cases h with
  | ok hv => exact .pure hv
  | unbound => exact .abort .unset
  | beyondGlobal => exact .abort .same

theorem beyondGlobal_of_scopeAt {d : Nat} {fault : AccessFault}
    (h : Store.scopeAt env d = .error fault) : fault = .beyondGlobal := by
  unfold Store.scopeAt at h
  split at h
  · cases h
  · cases h
    rfl

/-- What is read at a distance. -/
theorem PairedStores.getAt {s s' : Store Value} (h : PairedStores f M s s') (henv : M.Fits Γ env)
    (d : Nat) (x : String) :
    PairedAccesses f M (s.getAt env d x) (s'.getAt env d (renameIf (Γ.at (some d)) f x)) := by
  cases hscope : Store.scopeAt env d with
  | error fault =>
    cases beyondGlobal_of_scopeAt hscope
    unfold Store.getAt
    rw [hscope]
    exact .beyondGlobal
  | ok scope =>
    have hrel := (h.bindings scope _ (henv d scope hscope)).entries x
    rw [Store.getAt_eq s hscope, Store.getAt_eq s' hscope]
    generalize (s.bindings scope).find? x = found at hrel ⊢
    generalize (s'.bindings scope).find? _ = found' at hrel ⊢
    cases hrel with
    | some hv => exact .ok hv
    | none => exact .unbound

/-- The words of the language keep their names in every scope. -/
theorem PairedStores.getAt_keyword {s s' : Store Value} (hf : KeepsApart f)
    (h : PairedStores f M s s') (henv : M.Fits Γ env) (d : Nat) (k : Keyword) :
    PairedAccesses f M (s.getAt env d k.text) (s'.getAt env d k.text) := by
  have hget := h.getAt henv d k.text
  rwa [hf.renameIf_keyword] at hget

theorem PairedStores.globals {s s' : Store Value} (h : PairedStores f M s s') :
    PairedTables id (PairedValues f M) (s.bindings globalScope) (s'.bindings globalScope) :=
  h.bindings globalScope false h.global

/-! ### Names -/

theorem pairs_lookUp (henv : M.Fits Γ ctx.env) (name : Name) (use : Distance) :
    PairedRuns f M (Eval.lookUp ctx name use) (Eval.lookUp ctx (name.renameIf (Γ.at use) f) use)
      (PairedValues f) := by
  intro m m' hm
  cases use with
  | some d =>
    rw [lookUp_local_eq, lookUp_local_eq]
    exact pairs_access (hm.store.getAt henv d name.text) m m' hm
  | none =>
    have hrel : Option.Rel (PairedValues f M) _ _ := hm.store.globals.entries name.text
    have hname : name.renameIf (Γ.at none) f = name := rfl
    rw [hname, lookUp_global_eq, lookUp_global_eq]
    simp only [id_eq] at hrel
    generalize (m.store.bindings globalScope).find? name.text = found at hrel ⊢
    generalize (m'.store.bindings globalScope).find? name.text = found' at hrel ⊢
    cases hrel with
    | some hv => exact .ok List.prefix_rfl hm hv
    | none => exact .error List.prefix_rfl hm ⟨.same, rfl⟩

theorem pairs_this (hf : KeepsApart f) (henv : M.Fits Γ ctx.env) (line : Int) (use : Distance) :
    PairedRuns f M (Eval.lookUp ctx ⟨Keyword.thisWord.text, line⟩ use)
      (Eval.lookUp ctx ⟨Keyword.thisWord.text, line⟩ use) (PairedValues f) := by
  have hlookup := pairs_lookUp (f := f) henv ⟨Keyword.thisWord.text, line⟩ use
  unfold Name.renameIf at hlookup
  rwa [hf.renameIf_keyword] at hlookup

theorem assignTo_local_eq {d : Nat} {m : Machine} {scope : ScopeId}
    (hscope : Store.scopeAt ctx.env d = .ok scope) (name : Name) (v : Value) :
    Eval.assignTo ctx name (some d) v m =
      .ok () { m with store := m.store.bind scope name.text v } := by
  unfold Eval.assignTo Eval.targetScope
  simp only [hscope]
  rfl

theorem pairs_assignTo (hf : KeepsApart f) (henv : M.Fits Γ ctx.env) (name : Name)
    (use : Distance) (hv : PairedValues f M v v') :
    PairedRuns f M (Eval.assignTo ctx name use v)
      (Eval.assignTo ctx (name.renameIf (Γ.at use) f) use v') fun _ _ _ => True := by
  intro m m' hm
  cases use with
  | some d =>
    cases hscope : Store.scopeAt ctx.env d with
    | error fault =>
      cases beyondGlobal_of_scopeAt hscope
      have hcut (n : Name) (w : Value) (m : Machine) :
          Eval.assignTo ctx n (some d) w m = .error ⟨.malformed, ctx.frames⟩ m := by
        unfold Eval.assignTo Eval.targetScope
        simp only [hscope]
        rfl
      rw [hcut, hcut]
      exact .error List.prefix_rfl hm ⟨.same, rfl⟩
    | ok scope =>
      rw [assignTo_local_eq hscope, assignTo_local_eq hscope]
      have hstore := hm.store.bind hf (henv d scope hscope) name.text hv
      exact .ok List.prefix_rfl (hm.withStore hstore) trivial
  | none =>
    have hname : name.renameIf (Γ.at none) f = name := rfl
    have hbound : (m'.store.bindings globalScope).contains name.text =
        (m.store.bindings globalScope).contains name.text := hm.store.globals.contains name.text
    rw [hname, assignTo_global_eq, assignTo_global_eq, hbound]
    split
    · have hstore := hm.store.bind hf hm.store.global name.text hv
      exact .ok List.prefix_rfl (hm.withStore hstore) trivial
    · exact .error List.prefix_rfl hm ⟨.same, rfl⟩

/-! ### Elementary steps -/

theorem pairs_operator {line : Int} {x x' : OpResult} (h : PairedResults f M x x') :
    PairedRuns f M (Eval.operator ctx line x) (Eval.operator ctx line x') (PairedValues f) := by
  cases h with
  | ok hv => exact .pure hv
  | error => exact .fail _ _

theorem pairs_readStore : PairedRuns f M Eval.readStore Eval.readStore (PairedStores f) :=
  fun _ _ hm => .ok List.prefix_rfl hm hm.store

theorem pairs_printLine (line : String) :
    PairedRuns f M (Eval.printLine line) (Eval.printLine line) fun _ _ _ => True := by
  intro m m' hm
  exact .ok List.prefix_rfl ⟨hm.store, congrArg (·.push line) hm.printed, hm.clock, hm.readings⟩
    trivial

theorem pairs_readClock :
    PairedRuns f M Eval.readClock Eval.readClock fun _ x x' => x' = x := by
  intro m m' hm
  refine .ok List.prefix_rfl ⟨hm.store, hm.printed, hm.clock, congrArg (· + 1) hm.readings⟩ ?_
  rw [hm.clock, hm.readings]

theorem pairs_identity : PairedRuns f M (Eval.updateStore (·.identity))
    (Eval.updateStore (·.identity)) fun _ id id' => id' = id :=
  .update List.prefix_rfl fun hs => ⟨hs.identity, hs.fresh⟩

theorem pairs_newObject : PairedRuns f M (Eval.updateStore (·.newObject))
    (Eval.updateStore (·.newObject)) fun _ id id' => id' = id :=
  .update List.prefix_rfl fun hs => ⟨hs.newObject, hs.objects⟩

theorem pairs_setField (object : Nat) (x : String) (hv : PairedValues f M v v') :
    PairedRuns f M (Eval.modifyStore (·.setField object x v))
      (Eval.modifyStore (·.setField object x v')) fun _ _ _ => True :=
  .modify fun hs => hs.setField object x hv

theorem pairs_define (hf : KeepsApart f) (henv : M.Fits Γ env) (x : String)
    (hv : PairedValues f M v v') :
    PairedRuns f M (Eval.define env x v) (Eval.define env (renameIf Γ.innermost f x) v')
      fun _ _ _ => True :=
  .modify fun hs => hs.define hf henv x hv

/-- The declaration of a name that is not to be changed. -/
theorem pairs_defineKept (hf : KeepsApart f) (henv : M.Fits Γ env) {x : String}
    (hx : renameIf Γ.innermost f x = x) (hv : PairedValues f M v v') :
    PairedRuns f M (Eval.define env x v) (Eval.define env x v') fun _ _ _ => True := by
  have hdefine := pairs_define hf henv x hv
  rwa [hx] at hdefine

/-- A new scope, which may be marked as we like. -/
theorem pairs_openScope (henv : M.Fits Γ env) (b : Bool) :
    PairedRuns f M (Eval.openScope env) (Eval.openScope env)
      fun M' inner inner' => inner' = inner ∧ M'.Fits (b :: Γ) inner := by
  refine .update (List.prefix_append M [b]) fun {s s'} hs => ⟨hs.extend env b, ?_⟩
  show s'.scopes.size :: env = s.scopes.size :: env ∧
    Marking.Fits (M ++ [b]) (b :: Γ) (s.scopes.size :: env)
  rw [hs.size, hs.size']
  exact ⟨rfl, henv.push b⟩

/-! ### Functions and objects -/

theorem pairs_newFunction {c c' : Closure} (hc : PairedClosures f M c c') :
    PairedRuns f M (Eval.newFunction c) (Eval.newFunction c') (PairedValues f) := by
  refine pairs_identity.seq fun hM hid => ?_
  subst hid
  exact .pure (.function (hc.mono hM))

/-- A method gets its receiver in a scope of its own, which is not picked. -/
theorem pairs_bindMethod (hf : KeepsApart f) {c c' : Closure} (hc : PairedMethods f M c c')
    (hv : PairedValues f M v v') :
    PairedRuns f M (Eval.bindMethod c v) (Eval.bindMethod c' v') (PairedClosures f) := by
  obtain ⟨Γ, henv, hcode⟩ := hc
  unfold Eval.bindMethod
  rw [hcode.env]
  refine (pairs_openScope henv false).seq fun {M₁ inner inner'} hM₁ hopen => ?_
  obtain ⟨rfl, henv₁⟩ := hopen
  refine (pairs_defineKept hf henv₁ rfl (hv.mono hM₁)).seq fun hM₂ _ => .pure ?_
  exact ⟨false :: Γ, henv₁.mono hM₂, hcode.withEnv inner'⟩

/-- A method of a class, bound to a receiver. -/
theorem pairs_method (hf : KeepsApart f) {d d' : Class} (name : Name) (hd : PairedClasses f M d d')
    (hv : PairedValues f M v v') :
    PairedRuns f M (Eval.boundMethod ctx name v (d.findMethod? name.text))
      (Eval.boundMethod ctx name v' (d'.findMethod? name.text)) (PairedValues f) := by
  have hrel := hd.findMethod? name.text
  generalize d.findMethod? name.text = found at hrel ⊢
  generalize d'.findMethod? name.text = found' at hrel ⊢
  cases hrel with
  | some hm => exact (pairs_bindMethod hf hm hv).seq fun _ hc => pairs_newFunction hc
  | none => exact .fail _ _

theorem pairs_getProperty (hf : KeepsApart f) (name : Name) (hv : PairedValues f M v v') :
    PairedRuns f M (Eval.getProperty ctx v name) (Eval.getProperty ctx v' name)
      (PairedValues f) := by
  cases hv with
  | @object id d d' hd =>
    intro m m' hm
    have hrel : Option.Rel (PairedValues f M) _ _ := (hm.store.fields id).entries name.text
    have hobject : PairedValues f M (.object id d) (.object id d') := .object hd
    rw [getProperty_object_eq, getProperty_object_eq]
    simp only [id_eq] at hrel
    -- a field comes before a method of the same name
    generalize (m.store.fields id).find? name.text = found at hrel ⊢
    generalize (m'.store.fields id).find? name.text = found' at hrel ⊢
    cases hrel with
    | some hv => exact .ok List.prefix_rfl hm hv
    | none => exact pairs_method hf name hd hobject m m' hm
  | _ => exact .fail _ _

theorem pairs_getSuper (hf : KeepsApart f) (henv : M.Fits Γ ctx.env) (use : Distance)
    (method : Name) :
    PairedRuns f M (Eval.getSuper ctx use method) (Eval.getSuper ctx use method)
      (PairedValues f) := by
  cases use with
  | none => exact .abort .same
  | some d =>
    refine pairs_readStore.seq fun {M₁ s s'} hM₁ hs => ?_
    -- both words are looked up in the store as it is
    have hsuper := hs.getAt_keyword hf (henv.mono hM₁) d .superWord
    have hthis := hs.getAt_keyword hf (henv.mono hM₁) (d - 1) .thisWord
    refine (pairs_access hsuper).seq fun {M₂ w w'} hM₂ hw => ?_
    refine (pairs_access (hthis.mono hM₂)).seq fun hM₃ hreceiver => ?_
    cases hw.mono hM₃ with
    | cls hd => exact pairs_method hf method hd hreceiver
    | _ => exact .abort .same

/-! ### Classes -/

theorem codeRenamed_closureOf (env : Env) (picks : Picks) (Γ : Picked) (decl : ResolvedFun)
    (isInitializer : Bool) : CodeRenamed f Γ (Eval.closureOf env decl isInitializer)
      (Eval.closureOf env (decl.rename f picks Γ) isInitializer) := by
  cases decl with
  | mk name params body =>
    refine ⟨rfl, rfl, rfl, picks, picks.scope f body, picks.keeps f body Γ, ?_, rfl⟩
    exact paramNames_renameIf params _

theorem name_rename (picks : Picks) (decl : ResolvedFun) :
    (decl.rename f picks Γ).name = decl.name := by
  cases decl
  rfl

theorem pairs_methodTable (henv : M.Fits Γ env) (picks : Picks) (methods : List ResolvedFun) :
    PairedTables id (PairedMethods f M) (Eval.methodTable env methods)
      (Eval.methodTable env (renameFuns f picks (false :: Γ) methods)) := by
  unfold Eval.methodTable
  -- the tables are filled method by method
  have hfill : ∀ {t t' : Table Closure} (picks : Picks), PairedTables id (PairedMethods f M) t t' →
      PairedTables id (PairedMethods f M)
        (methods.foldl (fun t m => t.insert m.name.text
          (Eval.closureOf env m (m.name.text == initializerName))) t)
        ((renameFuns f picks (false :: Γ) methods).foldl (fun t m => t.insert m.name.text
          (Eval.closureOf env m (m.name.text == initializerName))) t') := by
    induction methods with
    | nil => exact fun _ ht => ht
    | cons m methods ih =>
      intro t t' picks ht
      unfold renameFuns
      rw [List.foldl_cons, List.foldl_cons, name_rename]
      refine ih _ ?_
      exact ht.insert Iff.rfl m.name.text ⟨Γ, henv, codeRenamed_closureOf env picks.left _ m _⟩
  exact hfill picks .empty

theorem pairs_superclassOf {name name' : Name} (hline : name'.line = name.line)
    (hv : PairedValues f M v v') :
    PairedRuns f M (Eval.superclassOf ctx name v) (Eval.superclassOf ctx name' v')
      fun M' p p' => p'.1 = p.1 ∧ PairedClasses f M' p.2 p'.2 := by
  cases hv with
  | cls hd => exact .pure ⟨rfl, hd⟩
  | _ =>
    unfold Eval.superclassOf
    rw [hline]
    exact .fail _ _

theorem pairs_class (hf : KeepsApart f) (henv : M.Fits Γ ctx.env) {name : Name}
    (hname : renameIf Γ.innermost f name.text = name.text) (picks : Picks)
    (methods : List ResolvedFun) :
    PairedRuns f M (Eval.declareClass ctx name none methods)
      (Eval.declareClass ctx name none (renameFuns f picks (false :: Γ) methods))
      fun _ _ _ => True := by
  refine (pairs_defineKept hf henv hname .nil).seq fun hM₁ _ => ?_
  refine pairs_identity.seq fun hM₂ hid => ?_
  subst hid
  have henv₂ := henv.mono (hM₁.trans hM₂)
  exact pairs_defineKept hf henv₂ hname (.cls (.base (pairs_methodTable henv₂ picks methods)))

theorem pairs_subclass (hf : KeepsApart f) (henv : M.Fits Γ ctx.env) {name : Name}
    (hname : renameIf Γ.innermost f name.text = name.text) (superName : Name) (use : Distance)
    (picks : Picks) (methods : List ResolvedFun) :
    PairedRuns f M (Eval.declareClass ctx name (some (superName, use)) methods)
      (Eval.declareClass ctx name (some (superName.renameIf (Γ.at use) f, use))
        (renameFuns f picks (false :: false :: Γ) methods))
      fun _ _ _ => True := by
  refine (pairs_lookUp henv superName use).seq fun hM₁ hv => ?_
  refine (pairs_superclassOf rfl hv).seq fun {M₂ p p'} hM₂ hsuper => ?_
  obtain ⟨superId, superclass⟩ := p
  obtain ⟨superId', superclass'⟩ := p'
  obtain ⟨rfl, hd⟩ := hsuper
  have henv₂ := henv.mono (hM₁.trans hM₂)
  refine (pairs_defineKept hf henv₂ hname .nil).seq fun hM₃ _ => ?_
  -- the methods of the class see `super` in a scope of their own
  refine (pairs_openScope (henv₂.mono hM₃) false).seq fun {M₄ inner inner'} hM₄ hopen => ?_
  obtain ⟨rfl, hinner⟩ := hopen
  have hd₄ := hd.mono (hM₃.trans hM₄)
  refine (pairs_defineKept hf hinner rfl (.cls hd₄)).seq fun hM₅ _ => ?_
  refine pairs_identity.seq fun hM₆ hid => ?_
  subst hid
  have hM := (hM₃.trans hM₄).trans (hM₅.trans hM₆)
  have hmethods := pairs_methodTable (f := f) (hinner.mono (hM₅.trans hM₆)) picks methods
  exact pairs_defineKept hf (henv₂.mono hM) hname (.cls (.derived (hd.mono hM) hmethods))

end Steps

/-! ### Sequences and loops -/

/-- Two ways to end, with paired values if any. -/
inductive PairedCompletions (f : String → String) (M : Marking) : Completion → Completion → Prop
  | normal : PairedCompletions f M .normal .normal
  | returned {v v'} : PairedValues f M v v' → PairedCompletions f M (.returned v) (.returned v')

theorem PairedCompletions.value {f : String → String} {M : Marking} {c c' : Completion}
    (h : PairedCompletions f M c c') : PairedValues f M c.value c'.value := by
  cases h with
  | normal => exact .nil
  | returned hv => exact hv

/-- An expression and its renaming are evaluated alike. -/
def EvaluatesPaired (f : String → String) (eval : Context → ResolvedExpr → Eval Value) : Prop :=
  ∀ {M Γ ctx} (picks : Picks) (e : ResolvedExpr), Marking.Fits M Γ ctx.env →
    PairedRuns f M (eval ctx e) (eval ctx (e.rename f picks Γ)) (PairedValues f)

/-- A statement and its renaming are executed alike, if they give the same names to
    functions and classes. -/
def ExecutesPaired (f : String → String) (exec : Context → ResolvedStmt → Eval Completion) : Prop :=
  ∀ {M Γ ctx} (picks : Picks) (s : ResolvedStmt), Marking.Fits M Γ ctx.env →
    Picked.Keeps f Γ s.given →
    PairedRuns f M (exec ctx s) (exec ctx (s.rename f picks Γ)) (PairedCompletions f)

section Walk

variable {f : String → String} {M : Marking} {Γ : Picked} {ctx : Context}
  {eval : Context → ResolvedExpr → Eval Value} {exec : Context → ResolvedStmt → Eval Completion}

theorem pairs_inOrder (heval : EvaluatesPaired f eval) (henv : M.Fits Γ ctx.env) (picks : Picks)
    (es : List ResolvedExpr) :
    PairedRuns f M (Eval.inOrder (eval ctx) es) (Eval.inOrder (eval ctx) (renameExprs f picks Γ es))
      fun M' => List.Forall₂ (PairedValues f M') := by
  induction es generalizing M picks with
  | nil => exact .pure .nil
  | cons e es ih =>
    refine (heval picks.left e henv).seq fun hM hv => ?_
    refine (ih (henv.mono hM) picks.right).seq fun hM' hvs => .pure ?_
    exact .cons (hv.mono hM') hvs

theorem pairs_sequence (hexec : ExecutesPaired f exec) (henv : M.Fits Γ ctx.env) (picks : Picks)
    {ss : List ResolvedStmt} (hkeeps : Γ.Keeps f (givenBy ss)) :
    PairedRuns f M (Eval.sequence (exec ctx) ss)
      (Eval.sequence (exec ctx) (renameStmts f picks Γ ss)) (PairedCompletions f) := by
  induction ss generalizing M picks with
  | nil => exact .pure .normal
  | cons s ss ih =>
    obtain ⟨hs, hss⟩ := hkeeps.cons
    refine (hexec picks.left s henv hs).seq fun hM hends => ?_
    cases hends with
    | normal => exact ih (henv.mono hM) picks.right hss
    | returned hv => exact .pure (.returned hv)

theorem pairs_whileLoop (heval : EvaluatesPaired f eval) (hexec : ExecutesPaired f exec)
    (henv : M.Fits Γ ctx.env) (picks picks' : Picks) (condition : ResolvedExpr)
    (body : ResolvedStmt) (hkeeps : Γ.Keeps f body.given) (rounds : Nat) :
    PairedRuns f M
      (Eval.whileLoop (Eval.abort ctx .endless) (eval ctx condition) (exec ctx body) rounds)
      (Eval.whileLoop (Eval.abort ctx .endless) (eval ctx (condition.rename f picks Γ))
        (exec ctx (body.rename f picks' Γ)) rounds)
      (PairedCompletions f) := by
  induction rounds generalizing M with
  | zero => exact .abort .same
  | succ n ih =>
    refine (heval picks condition henv).seq fun {M₁ v v'} hM₁ hv => ?_
    rw [hv.truthy]
    split
    · refine (hexec picks' body (henv.mono hM₁) hkeeps).seq fun hM₂ hends => ?_
      cases hends with
      | normal => exact ih (henv.mono (hM₁.trans hM₂))
      | returned hv => exact .pure (.returned hv)
    · exact .pure .normal

/-! ### Calls -/

/-- Parameters are bound under the names they have on either side. -/
theorem pairs_bindParams (hf : KeepsApart f) {b : Bool} {env : Env} (henv : M.Fits (b :: Γ) env)
    (params : List String) {args args' : List Value}
    (hargs : List.Forall₂ (PairedValues f M) args args') :
    PairedRuns f M (Eval.bindParams env params args)
      (Eval.bindParams env (params.map (renameIf b f)) args') fun _ _ _ => True := by
  induction params generalizing M args args' with
  | nil => exact .pure trivial
  | cons x params ih =>
    cases hargs with
    | nil => exact .pure trivial
    | cons hv hargs =>
      refine (pairs_define hf henv x hv).seq fun hM _ => ?_
      exact ih (henv.mono hM) (hargs.imp fun _ _ hv => hv.mono hM)

theorem pairs_runClosure (hf : KeepsApart f) (hexec : ExecutesPaired f exec) (frames : List Frame)
    {c c' : Closure} (hc : PairedClosures f M c c') {args args' : List Value}
    (hargs : List.Forall₂ (PairedValues f M) args args') :
    PairedRuns f M (Eval.runClosure exec frames c args) (Eval.runClosure exec frames c' args')
      (PairedValues f) := by
  obtain ⟨Γ, henv, hcode⟩ := hc
  obtain ⟨picks, b, hkeeps, hparams, hbody⟩ := hcode.code
  unfold Eval.runClosure
  rw [hcode.env, hcode.isInitializer, hparams, hbody]
  -- the scope of the call is marked as the code of the function tells
  refine (pairs_openScope henv b).seq fun {M₁ inner inner'} hM₁ hopen => ?_
  obtain ⟨rfl, hinner⟩ := hopen
  refine (pairs_bindParams hf hinner c.params (hargs.imp fun _ _ hv => hv.mono hM₁)).seq
    fun {M₂ _ _} hM₂ _ => ?_
  have hctx : Marking.Fits M₂ (b :: Γ) (Context.mk inner' frames).env := hinner.mono hM₂
  refine (pairs_sequence hexec hctx picks hkeeps).seq
    fun {M₃ completion completion'} hM₃ hends => ?_
  cases c.isInitializer with
  | false => exact .pure hends.value
  | true =>
    intro m m' hm
    have henv₃ := henv.mono (hM₁.trans (hM₂.trans hM₃))
    exact pairs_access (hm.store.getAt_keyword hf henv₃ 0 .thisWord) m m' hm

theorem pairs_instantiate (hf : KeepsApart f) (hexec : ExecutesPaired f exec) (frames : List Frame)
    {d d' : Class} (hd : PairedClasses f M d d') {args args' : List Value}
    (hargs : List.Forall₂ (PairedValues f M) args args') :
    PairedRuns f M (Eval.instantiate exec frames d args) (Eval.instantiate exec frames d' args')
      (PairedValues f) := by
  refine pairs_newObject.seq fun {M₁ id _} hM₁ hid => ?_
  subst hid
  have hd₁ := hd.mono hM₁
  have hrel := hd₁.findMethod? initializerName
  unfold Class.initializer?
  generalize d.findMethod? initializerName = found at hrel ⊢
  generalize d'.findMethod? initializerName = found' at hrel ⊢
  cases hrel with
  | none => exact .pure (.object hd₁)
  | some hm =>
    refine (pairs_bindMethod hf hm (.object hd₁)).seq fun hM₂ hbound => ?_
    have hargs₂ := hargs.imp fun _ _ hv => hv.mono (hM₁.trans hM₂)
    refine (pairs_runClosure hf hexec frames hbound hargs₂).seq fun hM₃ _ => .pure ?_
    exact .object (hd₁.mono (hM₂.trans hM₃))

/-- What is called has the same name on both sides and takes as many arguments. -/
theorem pairs_apply (hf : KeepsApart f) (hexec : ExecutesPaired f exec) (line : Int) {v v' : Value}
    (hv : PairedValues f M v v') {args args' : List Value}
    (hargs : List.Forall₂ (PairedValues f M) args args') :
    PairedRuns f M (Eval.apply exec ctx line v args) (Eval.apply exec ctx line v' args')
      (PairedValues f) := by
  have hcall {arity arity' : Nat} {x x' : Eval Value} (harity : arity' = arity)
      (hx : PairedRuns f M x x' (PairedValues f)) :
      PairedRuns f M
        (if args.length = arity then x else Eval.fail ctx (.wrongArity arity args.length) line)
        (if args'.length = arity' then x' else Eval.fail ctx (.wrongArity arity' args'.length) line)
        (PairedValues f) := by
    rw [harity, ← hargs.length_eq]
    split
    · exact hx
    · exact .fail _ _
  cases hv with
  | @native id g =>
    cases g
    refine hcall rfl (pairs_readClock.map _ fun hx => ?_)
    rw [hx]
    exact .number
  | function hc =>
    obtain ⟨Γ, henv, hcode⟩ := hc
    unfold Eval.apply Eval.callable?
    dsimp only
    rw [hcode.name]
    exact hcall hcode.arity (pairs_runClosure hf hexec _ ⟨Γ, henv, hcode⟩ hargs)
  | cls hd =>
    unfold Eval.apply Eval.callable?
    dsimp only
    rw [hd.name]
    exact hcall hd.arity (pairs_instantiate hf hexec _ hd hargs)
  | _ => exact .fail _ _

/-! ### The walk -/

section Step

variable {rounds n : Nat}

theorem pairs_exprStep (hf : KeepsApart f) (heval : EvaluatesPaired f (Eval.expr rounds n))
    (hexec : ExecutesPaired f (Eval.stmt rounds n)) (picks : Picks) (e : ResolvedExpr)
    (henv : M.Fits Γ ctx.env) :
    PairedRuns f M (Eval.expr rounds (n + 1) ctx e)
      (Eval.expr rounds (n + 1) ctx (e.rename f picks Γ)) (PairedValues f) := by
  cases e with
  | literal value => exact .pure (.ofLiteral value)
  | group e => exact heval picks e henv
  | unary op line e => exact (heval picks e henv).seq fun _ hv => pairs_operator (hv.unary op)
  | binary op line l r =>
    refine (heval picks.left l henv).seq fun hM hv => ?_
    exact (heval picks.right r (henv.mono hM)).seq fun hM' hw =>
      pairs_operator ((hv.mono hM').binary hw op)
  | logical op line l r =>
    refine (heval picks.left l henv).seq fun {M' v v'} hM hv => ?_
    rw [hv.decided op]
    split
    · exact .pure hv
    · exact heval picks.right r (henv.mono hM)
  | «variable» name use => exact pairs_lookUp henv name use
  | assign name use e =>
    refine (heval picks e henv).seq fun hM hv => ?_
    exact (pairs_assignTo hf (henv.mono hM) name use hv).seq fun hM' _ => .pure (hv.mono hM')
  | call callee args line =>
    refine (heval picks.left callee henv).seq fun hM hv => ?_
    refine (pairs_inOrder heval (henv.mono hM) picks.right args).seq fun hM' hargs => ?_
    exact pairs_apply hf hexec line (hv.mono hM') hargs
  | get object name =>
    exact (heval picks object henv).seq fun _ hv => pairs_getProperty hf name hv
  | set object name value =>
    refine (heval picks.left object henv).seq fun hM ho => ?_
    cases ho with
    | object hd =>
      refine (heval picks.right value (henv.mono hM)).seq fun _ hv => ?_
      exact (pairs_setField _ name.text hv).seq fun hM' _ => .pure (hv.mono hM')
    | _ => exact .fail _ _
  | this line use => exact pairs_this hf henv line use
  | super line use method => exact pairs_getSuper hf henv use method
  | lambda line params body =>
    refine pairs_newFunction ⟨Γ, henv, rfl, rfl, rfl, picks, picks.scope f body,
      picks.keeps f body Γ, ?_, rfl⟩
    exact paramNames_renameIf params _

theorem pairs_stmtStep (hf : KeepsApart f) (heval : EvaluatesPaired f (Eval.expr rounds n))
    (hexec : ExecutesPaired f (Eval.stmt rounds n)) (picks : Picks) (s : ResolvedStmt)
    (henv : M.Fits Γ ctx.env) (hkeeps : Γ.Keeps f s.given) :
    PairedRuns f M (Eval.stmt rounds (n + 1) ctx s)
      (Eval.stmt rounds (n + 1) ctx (s.rename f picks Γ)) (PairedCompletions f) := by
  cases s with
  | expression e => exact (heval picks e henv).seq fun _ _ => .pure .normal
  | print e =>
    refine (heval picks e henv).seq fun {M' v v'} _ hv => ?_
    rw [hv.text]
    exact (pairs_printLine v.text).seq fun _ _ => .pure .normal
  | var name initial =>
    -- with or without an initial value, the variable is declared in the innermost scope
    have hdeclare {M' : Marking} {v v' : Value} (hM : M <+: M') (hv : PairedValues f M' v v') :
        PairedRuns f M' (Eval.define ctx.env name.text v >>= fun _ => pure .normal)
          (Eval.define ctx.env (renameIf Γ.innermost f name.text) v' >>= fun _ => pure .normal)
          (PairedCompletions f) :=
      (pairs_define hf (henv.mono hM) name.text hv).seq fun _ _ => .pure .normal
    cases initial with
    | none => exact hdeclare List.prefix_rfl .nil
    | some e => exact (heval picks e henv).seq hdeclare
  | block body =>
    refine (pairs_openScope henv (picks.scope f body)).seq fun {M' inner inner'} _ hopen => ?_
    obtain ⟨rfl, hinner⟩ := hopen
    have hctx : Marking.Fits M' (picks.scope f body :: Γ) (Context.mk inner' ctx.frames).env :=
      hinner
    exact pairs_sequence hexec hctx picks (picks.keeps f body Γ)
  | branch c a b =>
    cases b with
    | none =>
      refine (heval picks.left c henv).seq fun {M' v v'} hM hv => ?_
      rw [hv.truthy]
      split
      · exact hexec picks.right a (henv.mono hM) hkeeps
      · exact .pure .normal
    | some b =>
      refine (heval picks.left c henv).seq fun {M' v v'} hM hv => ?_
      rw [hv.truthy]
      split
      · exact hexec picks.right.left a (henv.mono hM) (hkeeps.mono (List.subset_append_left _ _))
      · exact hexec picks.right.right b (henv.mono hM) (hkeeps.mono (List.subset_append_right _ _))
  | loop c body =>
    exact pairs_whileLoop heval hexec henv picks.left picks.right c body hkeeps rounds
  | function decl =>
    have hname : renameIf Γ.innermost f decl.name.text = decl.name.text :=
      hkeeps.renameIf_eq List.mem_cons_self
    have hclosure : PairedClosures f M (Eval.closureOf ctx.env decl false)
        (Eval.closureOf ctx.env (decl.rename f picks Γ) false) :=
      ⟨Γ, henv, codeRenamed_closureOf ctx.env picks Γ decl false⟩
    refine (pairs_newFunction hclosure).seq fun hM hv => ?_
    rw [name_rename]
    exact (pairs_defineKept hf (henv.mono hM) hname hv).seq fun _ _ => .pure .normal
  | ret line value =>
    cases value with
    | none => exact .pure (.returned .nil)
    | some e => exact (heval picks e henv).seq fun _ hv => .pure (.returned hv)
  | classDecl name superclass methods =>
    have hname : renameIf Γ.innermost f name.text = name.text :=
      hkeeps.renameIf_eq List.mem_cons_self
    cases superclass with
    | none => exact (pairs_class hf henv hname picks methods).seq fun _ _ => .pure .normal
    | some superclass =>
      obtain ⟨superName, use⟩ := superclass
      exact (pairs_subclass hf henv hname superName use picks methods).seq fun _ _ => .pure .normal

end Step

end Walk

/-! ### Programs -/

/-- Expressions are evaluated and statements executed like their renamings, however deep. -/
theorem pairs_walk {f : String → String} (hf : KeepsApart f) (rounds n : Nat) :
    EvaluatesPaired f (Eval.expr rounds n) ∧ ExecutesPaired f (Eval.stmt rounds n) := by
  induction n with
  | zero => exact ⟨fun _ _ _ => .abort .same, fun _ _ _ _ => .abort .same⟩
  | succ n ih =>
    obtain ⟨heval, hexec⟩ := ih
    exact ⟨pairs_exprStep hf heval hexec, pairs_stmtStep hf heval hexec⟩

/-- A program and its renaming, at top level. -/
theorem pairs_program {f : String → String} (hf : KeepsApart f) (limits : Limits) {ctx : Context}
    {M : Marking} (henv : M.Fits [] ctx.env) (picks : Picks) (program : List ResolvedStmt)
    {last last' : Value} (hlast : PairedValues f M last last') :
    PairedRuns f M (Eval.program limits ctx program last)
      (Eval.program limits ctx (renameStmts f picks [] program) last') (PairedValues f) := by
  obtain ⟨heval, hexec⟩ := pairs_walk hf limits.rounds limits.nesting
  induction program generalizing M picks last last' with
  | nil => exact .pure hlast
  | cons s program ih =>
    -- no scope of the program is around its statements
    have hkeeps : Picked.Keeps f [] s.given := nofun
    have hrest := hexec picks.left s henv hkeeps
    cases s with
    | expression e =>
      exact (heval picks.left e henv).seq fun hM hv => ih (henv.mono hM) picks.right hv
    | var name initial =>
      cases initial <;> exact hrest.seq fun hM _ => ih (henv.mono hM) picks.right .nil
    | branch c a b => cases b <;> exact hrest.seq fun hM _ => ih (henv.mono hM) picks.right .nil
    | ret line value =>
      cases value <;> exact hrest.seq fun hM _ => ih (henv.mono hM) picks.right .nil
    | classDecl name superclass methods =>
      cases superclass <;> exact hrest.seq fun hM _ => ih (henv.mono hM) picks.right .nil
    | _ => exact hrest.seq fun hM _ => ih (henv.mono hM) picks.right .nil

end Treewalk
