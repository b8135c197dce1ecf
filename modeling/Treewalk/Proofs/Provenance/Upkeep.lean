import Treewalk.Proofs.Chronicle.Upkeep
import Treewalk.Proofs.Provenance.Sites

/-! # Runs stay on site

    Whatever a run of accepted texts does, and wherever it is cut short, all code that
    it takes up is on its site, and so is the code that it leaves in the store.  A
    phrase that declares nothing in the global scope leaves the names of that scope as
    they are (`stays_walk`). -/

namespace Treewalk

/-- The names bound in the global scope, oldest first. -/
def Machine.globals (m : Machine) : List String := (m.store.bindings globalScope).names

theorem Table.contains_iff_mem_names {α : Type} (t : Table α) (name : String) :
    t.contains name = true ↔ name ∈ t.names := by
  unfold Table.contains Table.find? Table.names
  induction t.entries with
  | nil => simp
  | cons entry rest ih =>
    obtain ⟨key, a⟩ := entry
    rw [Table.lookup_cons_eq]
    by_cases h : name = key
    · simp [h]
    · simp [h, ih]

/-! ### States on site -/

/-- The store is sited, and so is all that was taken up. -/
structure OnSite (texts : List (List ResolvedStmt)) (s : Machine × History) : Prop where
  store : StoreSited texts s.1.store
  events : ∀ event ∈ s.2, event.Sited texts

/-- The outcome of a computation: a state on site, with the global names of before if
    the computation is quiet; and if it comes to its end, then with what is expected. -/
inductive Stays {α : Type} (texts : List (List ResolvedStmt)) (s : Machine × History)
    (quiet : Prop) (post : α → Prop) : EStateM.Result Abort (Machine × History) α → Prop
  | ok {a s'} : OnSite texts s' → (quiet → s'.1.globals = s.1.globals) → post a →
      Stays texts s quiet post (.ok a s')
  | error {cut s'} : OnSite texts s' → (quiet → s'.1.globals = s.1.globals) →
      Stays texts s quiet post (.error cut s')

namespace Stays

variable {α β : Type} {texts : List (List ResolvedStmt)} {s : Machine × History} {quiet : Prop}
  {post : α → Prop} {post' : β → Prop} {x : Watched α}

theorem pure {a : α} (hs : OnSite texts s) (ha : post a) :
    Stays texts s quiet post ((pure a : Watched α) s) :=
  .ok hs (fun _ => rfl) ha

theorem imp {quiet' : Prop} {post₁ : α → Prop}
    {out : EStateM.Result Abort (Machine × History) α} (h : Stays texts s quiet post out)
    (hquiet : quiet' → quiet) (hpost : ∀ a, post a → post₁ a) : Stays texts s quiet' post₁ out := by
  cases h with
  | ok hs hglobals ha => exact .ok hs (fun hq => hglobals (hquiet hq)) (hpost _ ha)
  | error hs hglobals => exact .error hs fun hq => hglobals (hquiet hq)

theorem bind {f : α → Watched β} (hx : Stays texts s quiet post (x s))
    (hf : ∀ a s', OnSite texts s' → post a → Stays texts s' quiet post' (f a s')) :
    Stays texts s quiet post' ((x >>= f) s) := by
  generalize hrun : x s = out at hx
  cases hx with
  | error hs hglobals =>
    rw [bind_of_error hrun]
    exact .error hs hglobals
  | ok hs hglobals ha =>
    rw [bind_of_ok hrun]
    have hrest := hf _ _ hs ha
    generalize f _ _ = out at hrest
    cases hrest with
    | ok hs' hglobals' hb => exact .ok hs' (fun hq => (hglobals' hq).trans (hglobals hq)) hb
    | error hs' hglobals' => exact .error hs' fun hq => (hglobals' hq).trans (hglobals hq)

end Stays

/-- A statement that returns yields what is sited. -/
def CompletionSited (texts : List (List ResolvedStmt)) : Completion → Prop
  | .normal => True
  | .returned v => ValueSited texts v

/-! ### Elementary steps -/

section Elementary

variable {α : Type} {texts : List (List ResolvedStmt)} {s : Machine × History} {quiet : Prop}
  {ctx : Context}

/-- A step that leaves the store alone, and what is done with its outcome. -/
theorem stays_observe {y : Eval α} {q : Store Value → α → Prop} {β : Type} {post : β → Prop}
    {f : α → Watched β} (hs : OnSite texts s) (hy : Observes y q)
    (hf : ∀ a s', OnSite texts s' → s'.1.store = s.1.store → q s'.1.store a →
      Stays texts s' quiet post (f a s')) :
    Stays texts s quiet post ((Watched.lift y >>= f) s) := by
  have hrun := hy s.1
  have hsame {m : Machine} (hm : m.store = s.1.store) :
      OnSite texts (m, s.2) ∧ m.globals = s.1.globals := by
    unfold Machine.globals
    rw [hm]
    refine ⟨⟨?_, hs.events⟩, rfl⟩
    rw [hm]
    exact hs.store
  cases hout : y s.1 with
  | error cut m =>
    rw [hout] at hrun
    have hlift : Watched.lift y s = .error cut (m, s.2) := by simp only [Watched.lift, hout]
    rw [bind_of_error hlift]
    exact .error (hsame hrun).1 fun _ => (hsame hrun).2
  | ok a m =>
    rw [hout] at hrun
    obtain ⟨hm, ha⟩ := hrun
    have hlift : Watched.lift y s = .ok a (m, s.2) := by simp only [Watched.lift, hout]
    rw [bind_of_ok hlift]
    rw [← hm] at ha
    have hrest := hf a (m, s.2) (hsame hm).1 hm ha
    generalize f a (m, s.2) = out at hrest
    cases hrest with
    | ok hs' hglobals hb => exact .ok hs' (fun hq => (hglobals hq).trans (hsame hm).2) hb
    | error hs' hglobals => exact .error hs' fun hq => (hglobals hq).trans (hsame hm).2

theorem stays_lift {y : Eval α} {q : Store Value → α → Prop} (hs : OnSite texts s)
    (hy : Observes y q) : Stays texts s quiet (q s.1.store) (Watched.lift y s) := by
  rw [← bind_pure (Watched.lift y)]
  refine stays_observe hs hy fun a s' hs' hstore ha => ?_
  rw [hstore] at ha
  exact .pure hs' ha

theorem stays_abort {post : α → Prop} {fault : Fault} (hs : OnSite texts s) :
    Stays texts s quiet post (Watched.lift (Eval.abort ctx fault) s) :=
  .error hs fun _ => rfl

theorem stays_note {event : Store Value → Event} (hs : OnSite texts s)
    (hevent : (event s.1.store).Sited texts) :
    Stays texts s quiet (fun _ => True) (Watched.note event s) :=
  .ok ⟨hs.store, List.forall_mem_cons.mpr ⟨hevent, hs.events⟩⟩ (fun _ => rfl) trivial

theorem stays_bind (hs : OnSite texts s) (scope : ScopeId) (name : String) {v : Value}
    (hv : ValueSited texts v)
    (hquiet : quiet → scope = globalScope → name ∈ s.1.globals) :
    Stays texts s quiet (fun _ => True)
      (Watched.lift (Eval.modifyStore (·.bind scope name v)) s) := by
  refine .ok ⟨hs.store.bind scope name hv, hs.events⟩ (fun hq => ?_) trivial
  show ((s.1.store.bind scope name v).bindings globalScope).names = s.1.globals
  by_cases hscope : scope < s.1.store.scopes.size
  · rw [s.1.store.bindings_bind hscope]
    by_cases hglobal : globalScope = scope
    · have hmem : name ∈ (s.1.store.bindings globalScope).names := hquiet hq hglobal.symm
      rw [if_pos hglobal, Table.names_insert, if_pos hmem]
      rfl
    · rw [if_neg hglobal]
      rfl
  · rw [Store.bind_of_ge hscope]
    rfl

/-- A declaration is quiet inside of a local scope. -/
theorem stays_define (hs : OnSite texts s) (env : Env) (name : String) {v : Value}
    (hv : ValueSited texts v) (hquiet : quiet → env.head? ≠ some globalScope) :
    Stays texts s quiet (fun _ => True) (Watched.lift (Eval.define env name v) s) := by
  cases env with
  | nil => exact .ok hs (fun _ => rfl) trivial
  | cons scope env =>
    refine stays_bind hs scope name hv fun hq hscope => absurd ?_ (hquiet hq)
    rw [hscope]
    rfl

/-- A new scope is a local one. -/
theorem stays_openScope (hs : OnSite texts s) (env : Env) :
    Stays texts s quiet (fun env' => ∃ scope, env' = scope :: env ∧ scope ≠ globalScope)
      (Watched.lift (Eval.openScope env) s) := by
  refine .ok ⟨hs.store.extend env, hs.events⟩ (fun _ => ?_) ⟨_, rfl, Nat.ne_of_gt hs.store.global⟩
  show ((s.1.store.extend env).2.bindings globalScope).names = s.1.globals
  rw [s.1.store.bindings_extend]
  rfl

/-- An assignment adds no global name: a local one ends in a local scope, and any
    other needs the name to be there. -/
theorem stays_assignTo (htexts : ∀ program ∈ texts, AcceptedProgram program) (hs : OnSite texts s)
    {name : Name} {use : Distance} {value : ResolvedExpr}
    (hsited : Sited texts ctx.env (.expr (.assign name use value))) {v : Value}
    (hv : ValueSited texts v) :
    Stays texts s quiet (fun _ => True) (Watched.lift (Eval.assignTo ctx name use v) s) := by
  unfold Eval.assignTo
  rw [Watched.lift_bind]
  have htarget : Observes (Eval.targetScope ctx name use) fun store scope =>
      scope = globalScope → name.text ∈ (store.bindings globalScope).names := by
    cases use with
    | some d =>
      obtain ⟨local', hlocal, hne⟩ := hsited.assign htexts
      refine (Observes.access _).imp fun store scope hscope heq => ?_
      rw [hlocal] at hscope
      cases hscope
      exact absurd heq hne
    | none =>
      refine .bind .readStore fun store => ?_
      rw [Store.owner?_globalEnv]
      by_cases hbound : (store.bindings globalScope).contains name.text = true
      · rw [if_pos hbound]
        refine .pure fun store' heq _ => ?_
        rw [← heq]
        exact (Table.contains_iff_mem_names _ _).mp hbound
      · rw [if_neg hbound]
        exact .abort
  refine stays_observe hs htarget fun scope s' hs' _ hscope => ?_
  exact stays_bind hs' scope name.text hv fun _ => hscope

theorem stays_newFunction (hs : OnSite texts s) {c : Closure} (hc : ClosureSited texts c) :
    Stays texts s quiet (ValueSited texts) (Watched.lift (Eval.newFunction c) s) :=
  .ok ⟨hs.store.identity, hs.events⟩ (fun _ => rfl) hc

theorem stays_bindParams (hs : OnSite texts s) {env : Env} (henv : env.head? ≠ some globalScope)
    (params : List String) {args : List Value} (hargs : ∀ v ∈ args, ValueSited texts v) :
    Stays texts s quiet (fun _ => True) (Watched.lift (Eval.bindParams env params args) s) := by
  induction params generalizing args s with
  | nil => exact .pure hs trivial
  | cons p params ih =>
    cases args with
    | nil => exact .pure hs trivial
    | cons v args =>
      obtain ⟨hv, hargs⟩ := List.forall_mem_cons.mp hargs
      unfold Eval.bindParams
      rw [Watched.lift_bind]
      exact .bind (stays_define hs env p hv fun _ => henv) fun _ s' hs' _ => ih hs' hargs

end Elementary

/-! ### Methods -/

section Methods

variable {texts : List (List ResolvedStmt)} {s : Machine × History} {quiet : Prop} {ctx : Context}

theorem head?_ne_global {scope : ScopeId} (hscope : scope ≠ globalScope) (env : Env) :
    (scope :: env).head? ≠ some globalScope :=
  fun h => hscope (Option.some.inj h)

/-- A bound method is a sited function. -/
theorem stays_bindMethod (hs : OnSite texts s) {method : Closure} (hmethod : MethodSited texts method)
    {receiver : Value} (hreceiver : ValueSited texts receiver) :
    Stays texts s quiet (ClosureSited texts) (Watched.lift (Eval.bindMethod method receiver) s) := by
  unfold Eval.bindMethod
  rw [Watched.lift_bind]
  refine .bind (stays_openScope hs method.env) fun env s₁ hs₁ henv => ?_
  obtain ⟨scope, rfl, hscope⟩ := henv
  rw [Watched.lift_bind]
  refine .bind (stays_define hs₁ _ _ hreceiver fun _ => head?_ne_global hscope _) ?_
  intro _ s₂ hs₂ _
  exact .pure hs₂ (hmethod scope hscope)

/-- A method that a class finds, bound to a receiver, or a failure. -/
theorem stays_boundMethod (hs : OnSite texts s) {d : Class} (hd : ClassSited texts d) (name : Name)
    {receiver : Value} (hreceiver : ValueSited texts receiver) :
    Stays texts s quiet (ValueSited texts)
      (Watched.lift (Eval.boundMethod ctx name receiver (d.findMethod? name.text)) s) := by
  cases hfound : d.findMethod? name.text with
  | none => exact stays_abort hs
  | some method =>
    unfold Eval.boundMethod
    rw [Watched.lift_bind]
    refine .bind (stays_bindMethod hs (hd.findMethod? hfound) hreceiver) ?_
    exact fun bound s' hs' hbound => stays_newFunction hs' hbound

theorem stays_getProperty (hs : OnSite texts s) {v : Value} (hv : ValueSited texts v) (name : Name) :
    Stays texts s quiet (ValueSited texts) (Watched.lift (Eval.getProperty ctx v name) s) := by
  cases v with
  | object object d =>
    unfold Eval.getProperty
    simp only
    rw [Watched.lift_bind]
    refine stays_observe hs .readStore fun store s' hs' _ hread => ?_
    subst hread
    cases hfound : (s'.1.store.fields object).find? name.text with
    | some w => exact .pure hs' (hs'.store.fields _ _ _ hfound)
    | none => exact stays_boundMethod hs' hv name hv
  | _ => exact stays_abort hs

/-- What is read at a distance is sited. -/
theorem observes_getAt (hs : OnSite texts s) (env : Env) (d : Nat) (name : String) :
    Observes (Eval.access ctx (s.1.store.getAt env d name)) fun _ v => ValueSited texts v := by
  refine (Observes.access _).imp fun _ v hv => ?_
  obtain ⟨scope, hbound⟩ := bound_of_getAt hv
  exact hs.store.bound scope name v hbound

theorem stays_getSuper (hs : OnSite texts s) (use : Distance) (method : Name) :
    Stays texts s quiet (ValueSited texts) (Watched.lift (Eval.getSuper ctx use method) s) := by
  cases use with
  | none => exact stays_abort hs
  | some d =>
    unfold Eval.getSuper
    simp only
    rw [Watched.lift_bind]
    refine stays_observe hs .readStore fun store s₁ hs₁ _ hread => ?_
    subst hread
    rw [Watched.lift_bind]
    refine stays_observe hs₁ (observes_getAt hs₁ ctx.env d _) fun superclass s₂ hs₂ _ hsuper => ?_
    rw [Watched.lift_bind]
    refine stays_observe hs₂ (observes_getAt hs₁ ctx.env (d - 1) _) fun receiver s₃ hs₃ _ hreceiver => ?_
    cases superclass with
    | cls id c => exact stays_boundMethod hs₃ hsuper method hreceiver
    | _ => exact stays_abort hs₃

theorem stays_lookUp (hs : OnSite texts s) (name : Name) (use : Distance) :
    Stays texts s quiet (ValueSited texts) (Watched.lift (Eval.lookUp ctx name use) s) := by
  refine (stays_lift hs (.lookUp name use)).imp id fun v hv => ?_
  obtain ⟨scope, hbound⟩ := hv
  exact hs.store.bound scope _ v hbound

end Methods

/-! ### Sequences and loops -/

section Sequences

variable {texts : List (List ResolvedStmt)} {s : Machine × History} {quiet : Prop} {ctx : Context}

theorem stays_inOrder {f : ResolvedExpr → Watched Value} {es : List ResolvedExpr}
    (hs : OnSite texts s)
    (hf : ∀ e ∈ es, ∀ s', OnSite texts s' → Stays texts s' quiet (ValueSited texts) (f e s')) :
    Stays texts s quiet (fun vs => ∀ v ∈ vs, ValueSited texts v) (Eval.inOrder f es s) := by
  induction es generalizing s with
  | nil => exact .pure hs nofun
  | cons e es ih =>
    obtain ⟨he, hes⟩ := List.forall_mem_cons.mp hf
    refine .bind (he s hs) fun v s₁ hs₁ hv => ?_
    refine .bind (ih hs₁ hes) fun vs s₂ hs₂ hvs => ?_
    exact .pure hs₂ (List.forall_mem_cons.mpr ⟨hv, hvs⟩)

theorem stays_sequence {f : ResolvedStmt → Watched Completion} {ss : List ResolvedStmt}
    (hs : OnSite texts s)
    (hf : ∀ t ∈ ss, ∀ s', OnSite texts s' →
      Stays texts s' quiet (CompletionSited texts) (f t s')) :
    Stays texts s quiet (CompletionSited texts) (Eval.sequence f ss s) := by
  induction ss generalizing s with
  | nil => exact .pure hs trivial
  | cons t ss ih =>
    obtain ⟨ht, hss⟩ := List.forall_mem_cons.mp hf
    refine .bind (ht s hs) fun completion s₁ hs₁ hcompletion => ?_
    cases completion with
    | normal => exact ih hs₁ hss
    | returned v => exact .pure hs₁ hcompletion

theorem stays_whileLoop {condition : Watched Value} {body : Watched Completion}
    (hs : OnSite texts s)
    (hc : ∀ s', OnSite texts s' → Stays texts s' quiet (ValueSited texts) (condition s'))
    (hb : ∀ s', OnSite texts s' → Stays texts s' quiet (CompletionSited texts) (body s'))
    (n : Nat) : Stays texts s quiet (CompletionSited texts)
      (Eval.whileLoop (Watched.lift (Eval.abort ctx .endless)) condition body n s) := by
  induction n generalizing s with
  | zero => exact stays_abort hs
  | succ n ih =>
    refine .bind (hc s hs) fun v s₁ hs₁ _ => ?_
    cases v.truthy with
    | false => exact .pure hs₁ trivial
    | true =>
      refine .bind (hb s₁ hs₁) fun completion s₂ hs₂ hcompletion => ?_
      cases completion with
      | normal => exact ih hs₂
      | returned v => exact .pure hs₂ hcompletion

end Sequences

/-! ### Calls -/

/-- The statement declares nothing in the global scope. -/
def Quiet (env : Env) (t : ResolvedStmt) : Prop := env.head? = some globalScope → t.declares = []

theorem Quiet.inside {scope : ScopeId} (hscope : scope ≠ globalScope) (env : Env)
    (t : ResolvedStmt) : Quiet (scope :: env) t :=
  fun h => absurd h (head?_ne_global hscope env)

/-- Expressions on their sites stay there, and are quiet. -/
def EvalStays (texts : List (List ResolvedStmt))
    (eval : Context → ResolvedExpr → Watched Value) : Prop :=
  ∀ ctx e s quiet, OnSite texts s → Sited texts ctx.env (.expr e) →
    Stays texts s quiet (ValueSited texts) (eval ctx e s)

/-- Statements on their sites stay there, and are quiet unless they declare a global. -/
def ExecStays (texts : List (List ResolvedStmt))
    (exec : Context → ResolvedStmt → Watched Completion) : Prop :=
  ∀ ctx t s, OnSite texts s → Sited texts ctx.env (.stmt t) →
    Stays texts s (Quiet ctx.env t) (CompletionSited texts) (exec ctx t s)

section Calls

variable {texts : List (List ResolvedStmt)} {exec : Context → ResolvedStmt → Watched Completion}
  {s : Machine × History} {quiet : Prop} {ctx : Context}

theorem stays_runClosure (hexec : ExecStays texts exec) (hs : OnSite texts s) (frames : List Frame)
    {c : Closure} (hc : ClosureSited texts c) {args : List Value}
    (hargs : ∀ v ∈ args, ValueSited texts v) :
    Stays texts s quiet (ValueSited texts) (Watched.steps.runClosure exec frames c args s) := by
  refine .bind (stays_note hs hc) fun _ s₁ hs₁ _ => ?_
  refine .bind (stays_openScope hs₁ c.env) fun env s₂ hs₂ henv => ?_
  obtain ⟨scope, rfl, hscope⟩ := henv
  refine .bind (stays_bindParams hs₂ (head?_ne_global hscope _) c.params hargs) ?_
  intro _ s₃ hs₃ _
  refine .bind (stays_sequence hs₃ fun t ht s' hs' => ?_) ?_
  · exact (hexec _ t s' hs' (hc scope hscope t ht)).imp
      (fun _ => .inside hscope c.env t) fun _ h => h
  · intro completion s₄ hs₄ hcompletion
    cases c.isInitializer with
    | true =>
      refine .bind (stays_note hs₄ trivial) fun _ s₅ hs₅ _ => ?_
      refine stays_observe hs₅ .readStore fun store s₆ hs₆ _ hread => ?_
      subst hread
      exact stays_lift hs₆ (observes_getAt hs₆ c.env 0 Keyword.thisWord.text)
    | false =>
      cases completion with
      | normal => exact .pure hs₄ trivial
      | returned v => exact .pure hs₄ hcompletion

theorem stays_instantiate (hexec : ExecStays texts exec) (hs : OnSite texts s)
    (frames : List Frame) (cls : Nat) {d : Class} (hd : ClassSited texts d) {args : List Value}
    (hargs : ∀ v ∈ args, ValueSited texts v) :
    Stays texts s quiet (ValueSited texts) (Watched.steps.instantiate exec frames cls d args s) := by
  have hnew : Stays texts s quiet (fun _ => True)
      (Watched.lift (Eval.updateStore (·.newObject)) s) :=
    .ok ⟨hs.store.newObject, hs.events⟩ (fun _ => rfl) trivial
  refine .bind hnew fun id s₁ hs₁ _ => ?_
  have hobject : ValueSited texts (.object id d) := hd
  cases hfound : d.initializer? with
  | none => exact .pure hs₁ hobject
  | some method =>
    refine .bind (stays_bindMethod hs₁ (hd.findMethod? hfound) hobject) fun bound s₂ hs₂ hbound => ?_
    refine .bind (stays_runClosure hexec hs₂ frames hbound hargs) fun _ s₃ hs₃ _ => ?_
    exact .pure hs₃ hobject

theorem stays_run (hexec : ExecStays texts exec) (hs : OnSite texts s) (frames : List Frame)
    {callee : Value} (hcallee : ValueSited texts callee) {args : List Value}
    (hargs : ∀ v ∈ args, ValueSited texts v) :
    Stays texts s quiet (ValueSited texts) (Watched.steps.run exec frames args callee s) := by
  cases callee with
  | native id f =>
    cases f
    show Stays texts s quiet (ValueSited texts) ((Value.number <$> Watched.lift Eval.readClock) s)
    rw [← bind_pure_comp]
    exact .bind (stays_lift hs .readClock) fun _ s' hs' _ => .pure hs' trivial
  | function id c => exact stays_runClosure hexec hs frames hcallee hargs
  | cls id d => exact stays_instantiate hexec hs frames id hcallee hargs
  | _ => exact .pure hs trivial

theorem stays_apply (hexec : ExecStays texts exec) (hs : OnSite texts s) (line : Int)
    {callee : Value} (hcallee : ValueSited texts callee) {args : List Value}
    (hargs : ∀ v ∈ args, ValueSited texts v) :
    Stays texts s quiet (ValueSited texts) (Watched.steps.apply exec ctx line callee args s) := by
  unfold Steps.apply
  cases callee.signature? with
  | none => exact stays_abort hs
  | some signature =>
    obtain ⟨name, arity⟩ := signature
    by_cases hlength : args.length = arity
    · simp only [if_pos hlength]
      exact stays_run hexec hs _ hcallee hargs
    · simp only [if_neg hlength]
      exact stays_abort hs

end Calls

/-! ### Declarations -/

section Declarations

variable {texts : List (List ResolvedStmt)} {s : Machine × History} {quiet : Prop} {ctx : Context}

/-- A class is sited if its own methods and its superclass are. -/
theorem classSited_mk {name : String} {superclass : Option Class} {env : Env}
    {methods : List ResolvedFun} (hsuper : ∀ d, superclass = some d → ClassSited texts d)
    (hmethods : ∀ decl ∈ methods, MethodSited texts (methodClosure env decl)) :
    ClassSited texts (.mk name superclass (Eval.methodTable env methods)) := by
  have hown (key : String) (method : Closure)
      (hfound : (Eval.methodTable env methods).find? key = some method) :
      MethodSited texts method := by
    obtain ⟨decl, hdecl, -, rfl⟩ := find?_methodTable hfound
    exact hmethods decl hdecl
  intro c hc
  cases superclass with
  | none =>
    cases List.mem_singleton.mp hc
    exact hown
  | some d =>
    rcases List.mem_cons.mp hc with rfl | hc
    · exact hown
    · exact hsuper d rfl c hc

/-- A new class takes the place of what its name is bound to. -/
theorem stays_createClass (hs : OnSite texts s) (env : Env) (name : String) {d : Class}
    (hd : ClassSited texts d) (hquiet : quiet → env.head? ≠ some globalScope) :
    Stays texts s quiet (fun _ => True) (Watched.lift (do
      let id ← Eval.updateStore (·.identity)
      Eval.define env name (.cls id d)) s) := by
  have hid : Stays texts s quiet (fun _ => True)
      (Watched.lift (Eval.updateStore (·.identity)) s) :=
    .ok ⟨hs.store.identity, hs.events⟩ (fun _ => rfl) trivial
  rw [Watched.lift_bind]
  exact .bind hid fun id s' hs' _ => stays_define hs' env name hd hquiet

theorem stays_declareClass (hs : OnSite texts s) {name : Name}
    {superclass : Option (Name × Distance)} {methods : List ResolvedFun}
    (hsited : Sited texts ctx.env (.stmt (.classDecl name superclass methods)))
    (hquiet : quiet → ctx.env.head? ≠ some globalScope) :
    Stays texts s quiet (fun _ => True)
      (Watched.lift (Eval.declareClass ctx name superclass methods) s) := by
  unfold Eval.declareClass
  cases superclass with
  | none =>
    simp only
    rw [Watched.lift_bind]
    refine .bind (stays_define hs ctx.env name.text trivial hquiet) fun _ s₁ hs₁ _ => ?_
    exact stays_createClass hs₁ ctx.env name.text
      (classSited_mk nofun fun decl hdecl => hsited.methods hdecl) hquiet
  | some use =>
    obtain ⟨superName, use⟩ := use
    simp only
    rw [Watched.lift_bind]
    refine .bind (stays_lookUp hs superName use) fun v s₁ hs₁ hv => ?_
    rw [Watched.lift_bind]
    refine .bind (stays_lift hs₁ (.superclassOf superName v)) fun found s₂ hs₂ hfound => ?_
    subst hfound
    have hclass : ClassSited texts found.2 := hv
    rw [Watched.lift_bind]
    refine .bind (stays_define hs₂ ctx.env name.text trivial hquiet) fun _ s₃ hs₃ _ => ?_
    rw [Watched.lift_bind]
    refine .bind (stays_openScope hs₃ ctx.env) fun env s₄ hs₄ henv => ?_
    obtain ⟨above, rfl, habove⟩ := henv
    rw [Watched.lift_bind]
    refine .bind (stays_define hs₄ _ Keyword.superWord.text hv fun _ =>
      head?_ne_global habove ctx.env) fun _ s₅ hs₅ _ => ?_
    refine stays_createClass hs₅ ctx.env name.text (classSited_mk ?_ ?_) hquiet
    · rintro d ⟨⟩
      exact hclass
    · exact fun decl hdecl => hsited.submethods habove hdecl

end Declarations

/-! ### The walk -/

theorem Value.IsConstant.sited {texts : List (List ResolvedStmt)} {v : Value} (hv : v.IsConstant) :
    ValueSited texts v := by
  cases v with
  | function => exact hv.elim
  | cls => exact hv.elim
  | object => exact hv.elim
  | _ => trivial

section Walk

variable {texts : List (List ResolvedStmt)} {eval : Context → ResolvedExpr → Watched Value}
  {exec : Context → ResolvedStmt → Watched Completion} {s : Machine × History} {ctx : Context}
  {quiet : Prop}

/-- An expression stays on site, if its parts do. -/
theorem stays_exprStep (htexts : ∀ program ∈ texts, AcceptedProgram program)
    (heval : EvalStays texts eval) (hexec : ExecStays texts exec) (hs : OnSite texts s)
    {e : ResolvedExpr} (hsited : Sited texts ctx.env (.expr e)) :
    Stays texts s quiet (ValueSited texts) (Watched.steps.exprStep eval exec ctx e s) := by
  cases e with
  | literal value => cases value <;> exact .pure hs trivial
  | group inner => exact heval ctx inner s quiet hs (hsited.part List.mem_cons_self)
  | unary op line operand =>
    refine .bind (heval ctx operand s quiet hs (hsited.part List.mem_cons_self)) ?_
    intro v s₁ hs₁ _
    exact (stays_lift hs₁ (.operator line _)).imp id fun w hw => (unary_constant hw).sited
  | binary op line left right =>
    have hright : Sited texts ctx.env (.expr right) := hsited.part (.tail _ (.head _))
    refine .bind (heval ctx left s quiet hs (hsited.part List.mem_cons_self)) ?_
    intro a s₁ hs₁ _
    refine .bind (heval ctx right s₁ quiet hs₁ hright) fun b s₂ hs₂ _ => ?_
    exact (stays_lift hs₂ (.operator line _)).imp id fun w hw => (binary_constant hw).sited
  | logical op line left right =>
    have hright : Sited texts ctx.env (.expr right) := hsited.part (.tail _ (.head _))
    refine .bind (heval ctx left s quiet hs (hsited.part List.mem_cons_self)) ?_
    intro v s₁ hs₁ hv
    cases op.decided v with
    | true => exact .pure hs₁ hv
    | false => exact heval ctx right s₁ quiet hs₁ hright
  | «variable» name use => exact stays_lookUp hs name use
  | assign name use value =>
    refine .bind (heval ctx value s quiet hs (hsited.part List.mem_cons_self)) ?_
    intro v s₁ hs₁ hv
    refine .bind (stays_assignTo htexts hs₁ hsited hv) fun _ s₂ hs₂ _ => ?_
    exact .pure hs₂ hv
  | call callee arguments line =>
    refine .bind (heval ctx callee s quiet hs (hsited.part List.mem_cons_self)) ?_
    intro f s₁ hs₁ hf
    refine .bind (stays_inOrder hs₁ fun e he s' hs' => ?_) fun args s₂ hs₂ hargs => ?_
    · have hpart : ([], Code.expr e) ∈ (Code.expr (.call callee arguments line)).parts :=
        List.mem_cons_of_mem _ (List.mem_map.mpr ⟨e, he, rfl⟩)
      exact heval ctx e s' quiet hs' (hsited.part hpart)
    · exact stays_apply hexec hs₂ line hf hargs
  | get object name =>
    refine .bind (heval ctx object s quiet hs (hsited.part List.mem_cons_self)) ?_
    exact fun v s₁ hs₁ hv => stays_getProperty hs₁ hv name
  | set object name value =>
    have hvalue : Sited texts ctx.env (.expr value) := hsited.part (.tail _ (.head _))
    refine .bind (heval ctx object s quiet hs (hsited.part List.mem_cons_self)) ?_
    intro o s₁ hs₁ _
    cases o with
    | object id d =>
      refine .bind (heval ctx value s₁ quiet hs₁ hvalue) fun v s₂ hs₂ hv => ?_
      have hset : Stays texts s₂ quiet (fun _ => True)
          (Watched.lift (Eval.modifyStore (·.setField id name.text v)) s₂) :=
        .ok ⟨hs₂.store.setField id name.text hv, hs₂.events⟩ (fun _ => rfl) trivial
      exact .bind hset fun _ s₃ hs₃ _ => .pure hs₃ hv
    | _ => exact stays_abort hs₁
  | this line use => exact stays_lookUp hs _ use
  | super line use method => exact stays_getSuper hs use method
  | lambda line params body =>
    refine stays_newFunction hs fun scope hscope t ht => ?_
    exact hsited.body (List.mem_map.mpr ⟨t, ht, rfl⟩) hscope

theorem stays_optional (heval : EvalStays texts eval) (hs : OnSite texts s)
    {value : Option ResolvedExpr} (hsited : ∀ e, value = some e → Sited texts ctx.env (.expr e)) :
    Stays texts s quiet (ValueSited texts) (Steps.optional eval ctx value s) := by
  cases value with
  | some e => exact heval ctx e s quiet hs (hsited e rfl)
  | none => exact .pure hs trivial

/-- A declaration that is quiet does not stand in the global scope. -/
theorem Quiet.head?_ne {env : Env} {t : ResolvedStmt} (hquiet : Quiet env t)
    (ht : t.declares ≠ []) : env.head? ≠ some globalScope :=
  fun h => ht (hquiet h)

/-- A statement stays on site, if its parts do. -/
theorem stays_stmtStep (htexts : ∀ program ∈ texts, AcceptedProgram program)
    (heval : EvalStays texts eval) (hexec : ExecStays texts exec) (rounds : Nat)
    (hs : OnSite texts s) {t : ResolvedStmt} (hsited : Sited texts ctx.env (.stmt t)) :
    Stays texts s (Quiet ctx.env t) (CompletionSited texts)
      (Watched.steps.stmtStep eval exec rounds ctx t s) := by
  cases t with
  | expression e =>
    refine .bind (heval ctx e s _ hs (hsited.part List.mem_cons_self)) ?_
    exact fun _ s₁ hs₁ _ => .pure hs₁ trivial
  | print e =>
    refine .bind (heval ctx e s _ hs (hsited.part List.mem_cons_self)) fun v s₁ hs₁ _ => ?_
    exact .bind (stays_lift hs₁ (.printLine v.text)) fun _ s₂ hs₂ _ => .pure hs₂ trivial
  | var name initial =>
    have hinitial : ∀ e, initial = some e → Sited texts ctx.env (.expr e) := by
      rintro e rfl
      exact hsited.part List.mem_cons_self
    refine .bind (stays_optional heval hs hinitial) fun v s₁ hs₁ hv => ?_
    refine .bind (stays_define hs₁ ctx.env name.text hv fun hq => hq.head?_ne nofun) ?_
    intro _ s₂ hs₂ _
    exact .bind (stays_note hs₂ trivial) fun _ s₃ hs₃ _ => .pure hs₃ trivial
  | block body =>
    refine .bind (stays_openScope hs ctx.env) fun env s₁ hs₁ henv => ?_
    obtain ⟨scope, rfl, hscope⟩ := henv
    refine stays_sequence hs₁ fun t ht s' hs' => ?_
    have hinner : Sited texts (scope :: ctx.env) (.stmt t) :=
      hsited.body (List.mem_map.mpr ⟨t, ht, rfl⟩) hscope
    exact (hexec _ t s' hs' hinner).imp (fun _ => .inside hscope ctx.env t) fun _ h => h
  | branch condition onTrue onFalse =>
    have hcondition : Sited texts ctx.env (.expr condition) := by
      cases onFalse <;> exact hsited.part List.mem_cons_self
    have htrue : Sited texts ctx.env (.stmt onTrue) := by
      cases onFalse <;> exact hsited.part (.tail _ (.head _))
    obtain ⟨hplain, hplain'⟩ := hsited.branch htexts
    refine .bind (heval ctx condition s _ hs hcondition) fun v s₁ hs₁ _ => ?_
    cases v.truthy with
    | true => exact (hexec ctx onTrue s₁ hs₁ htrue).imp (fun _ _ => hplain) fun _ h => h
    | false =>
      cases onFalse with
      | none => exact .pure hs₁ trivial
      | some t =>
        have hfalse : Sited texts ctx.env (.stmt t) := hsited.part (.tail _ (.tail _ (.head _)))
        exact (hexec ctx t s₁ hs₁ hfalse).imp (fun _ _ => hplain' t rfl) fun _ h => h
  | loop condition body =>
    have hcondition : Sited texts ctx.env (.expr condition) := hsited.part List.mem_cons_self
    have hbody : Sited texts ctx.env (.stmt body) := hsited.part (.tail _ (.head _))
    refine stays_whileLoop hs (fun s' hs' => heval ctx condition s' _ hs' hcondition) ?_ rounds
    exact fun s' hs' => (hexec ctx body s' hs' hbody).imp (fun _ _ => hsited.loop htexts) fun _ h => h
  | function decl =>
    have hclosure : ClosureSited texts (Eval.closureOf ctx.env decl false) :=
      fun scope hscope t ht => hsited.body (List.mem_map.mpr ⟨t, ht, rfl⟩) hscope
    refine .bind (stays_newFunction hs hclosure) fun f s₁ hs₁ hf => ?_
    refine .bind (stays_define hs₁ ctx.env decl.name.text hf fun hq => hq.head?_ne nofun) ?_
    exact fun _ s₂ hs₂ _ => .pure hs₂ trivial
  | ret line value =>
    have hvalue : ∀ e, value = some e → Sited texts ctx.env (.expr e) := by
      rintro e rfl
      exact hsited.part List.mem_cons_self
    exact .bind (stays_optional heval hs hvalue) fun v s₁ hs₁ hv => .pure hs₁ hv
  | classDecl name superclass methods =>
    refine .bind (stays_declareClass hs hsited fun hq => hq.head?_ne nofun) ?_
    exact fun _ s₁ hs₁ _ => .pure hs₁ trivial

end Walk

/-- Expressions and statements stay on site, however deep. -/
theorem stays_walk {texts : List (List ResolvedStmt)}
    (htexts : ∀ program ∈ texts, AcceptedProgram program) (rounds n : Nat) :
    EvalStays texts (Watched.steps.expr rounds n) ∧ ExecStays texts (Watched.steps.stmt rounds n) := by
  induction n with
  | zero => exact ⟨fun _ _ _ _ hs _ => stays_abort hs, fun _ _ _ hs _ => stays_abort hs⟩
  | succ n ih =>
    obtain ⟨heval, hexec⟩ := ih
    refine ⟨fun ctx e s quiet hs hsited => ?_, fun ctx t s hs hsited => ?_⟩
    · refine .bind (stays_note hs ⟨hsited, hs.store⟩) fun _ s₁ hs₁ _ => ?_
      exact stays_exprStep htexts heval hexec hs₁ hsited
    · refine .bind (stays_note hs ⟨hsited, hs.store⟩) fun _ s₁ hs₁ _ => ?_
      exact stays_stmtStep htexts heval hexec rounds hs₁ hsited

/-- A run of an accepted program stays on site. -/
theorem stays_program {texts : List (List ResolvedStmt)}
    (htexts : ∀ program ∈ texts, AcceptedProgram program) (limits : Limits) (ctx : Context)
    {program : List ResolvedStmt} (last : Value) {s : Machine × History} (hs : OnSite texts s)
    (hsited : ∀ t ∈ program, Sited texts ctx.env (.stmt t)) :
    Stays texts s False (fun _ => True) (Watched.steps.program limits ctx program last s) := by
  obtain ⟨heval, hexec⟩ := stays_walk htexts limits.rounds limits.nesting
  induction program generalizing last s with
  | nil => exact .pure hs trivial
  | cons t program ih =>
    obtain ⟨ht, hrest⟩ := List.forall_mem_cons.mp hsited
    cases t with
    | expression e =>
      refine .bind (heval ctx e s _ hs (ht.part List.mem_cons_self)) fun v s₁ hs₁ _ => ?_
      exact ih v hs₁ hrest
    | _ =>
      refine .bind ((hexec ctx _ s hs ht).imp False.elim fun _ h => h) fun _ s₁ hs₁ _ => ?_
      exact ih .nil hs₁ hrest

end Treewalk
