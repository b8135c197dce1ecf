import Treewalk.Proofs.Chronicle.Receivers

/-! # Runs keep the heap in order

    Whatever a run of an accepted program does, and wherever it is cut short, its
    chronicle stays sound and its store is kept (`leads_program`).  The argument
    goes over the walk: each elementary step first, then one case for each form of
    expression and statement. -/

namespace Treewalk

/-! ### States in order -/

/-- The chronicle is sound, and the store is kept. -/
structure InOrder (s : Machine × Chronicle) : Prop where
  sound : Sound s.2
  kept : Kept s.2 s.1.store

/-- The one state comes after the other. -/
structure Later (s s' : Machine × Chronicle) : Prop where
  chronicle : s.2 <:+ s'.2
  store : s.1.store.Grows s'.1.store

namespace Later

variable {s s' s'' : Machine × Chronicle}

theorem refl (s : Machine × Chronicle) : Later s s := ⟨List.suffix_rfl, .refl _⟩

theorem trans (h : Later s s') (h' : Later s' s'') : Later s s'' :=
  ⟨h.chronicle.trans h'.chronicle, h.store.trans h'.store⟩

theorem subset (h : Later s s') : s.2 ⊆ s'.2 := h.chronicle.subset

end Later

/-- The outcome of a computation: a later state in order, and if it comes to its end
    then with what is expected. -/
inductive Leads {α : Type} (s : Machine × Chronicle) (post : α → Machine × Chronicle → Prop) :
    EStateM.Result Abort (Machine × Chronicle) α → Prop
  | ok {a s'} : InOrder s' → Later s s' → post a s' → Leads s post (.ok a s')
  | error {cut s'} : InOrder s' → Later s s' → Leads s post (.error cut s')

namespace Leads

variable {α β : Type} {s s' : Machine × Chronicle} {post : α → Machine × Chronicle → Prop}
  {post' : β → Machine × Chronicle → Prop} {x : Recorded α}

theorem pure {a : α} (hs : InOrder s) (ha : post a s) : Leads s post ((pure a : Recorded α) s) :=
  .ok hs (.refl s) ha

theorem after {out : EStateM.Result Abort (Machine × Chronicle) α} (hlater : Later s s')
    (h : Leads s' post out) : Leads s post out := by
  cases h with
  | ok hs hlater' ha => exact .ok hs (hlater.trans hlater') ha
  | error hs hlater' => exact .error hs (hlater.trans hlater')

theorem imp {post₁ post₂ : α → Machine × Chronicle → Prop}
    {out : EStateM.Result Abort (Machine × Chronicle) α} (h : Leads s post₁ out)
    (himp : ∀ a s', Later s s' → post₁ a s' → post₂ a s') : Leads s post₂ out := by
  cases h with
  | ok hs hlater ha => exact .ok hs hlater (himp _ _ hlater ha)
  | error hs hlater => exact .error hs hlater

theorem bind {f : α → Recorded β} (hx : Leads s post (x s))
    (hf : ∀ a s', InOrder s' → Later s s' → post a s' → Leads s' post' (f a s')) :
    Leads s post' ((x >>= f) s) := by
  generalize hrun : x s = out at hx
  cases hx with
  | ok hs hlater ha =>
    rw [bind_of_ok hrun]
    exact (hf _ _ hs hlater ha).after hlater
  | error hs hlater =>
    rw [bind_of_error hrun]
    exact .error hs hlater

end Leads

/-- What is yielded fits. -/
def Yields (v : Value) (s : Machine × Chronicle) : Prop := ValueFits s.2 v

/-- A statement that returns yields what fits. -/
def Completes : Completion → Machine × Chronicle → Prop
  | .normal, _ => True
  | .returned v, s => Yields v s

theorem Yields.later {s s' : Machine × Chronicle} {v : Value} (hv : Yields v s)
    (hlater : Later s s') : Yields v s' :=
  ValueFits.mono hv hlater.subset

/-! ### Steps that leave the store alone -/

/-- What is found at a distance is bound in some scope. -/
theorem bound_of_getAt {store : Store Value} {env : Env} {d : Nat} {name : String} {v : Value}
    (h : store.getAt env d name = .ok v) :
    ∃ scope, (store.bindings scope).find? name = some v := by
  cases hscope : Store.scopeAt env d with
  | error fault =>
    unfold Store.getAt at h
    rw [hscope] at h
    cases h
  | ok scope =>
    rw [store.getAt_eq hscope] at h
    refine ⟨scope, ?_⟩
    split at h
    · next hfound =>
      cases h
      exact hfound
    · cases h

/-- The computation leaves the store alone, and what it yields is so in the store. -/
def Observes {α : Type} (y : Eval α) (q : Store Value → α → Prop) : Prop :=
  ∀ m, match y m with
    | .ok a m' => m'.store = m.store ∧ q m.store a
    | .error _ m' => m'.store = m.store

namespace Observes

variable {α : Type} {ctx : Context} {q : Store Value → α → Prop}

theorem readStore : Observes Eval.readStore fun store a => a = store :=
  fun _ => ⟨rfl, rfl⟩

theorem abort {fault : Fault} : Observes (Eval.abort ctx fault) q :=
  fun _ => rfl

theorem access (r : Except AccessFault α) : Observes (Eval.access ctx r) fun _ a => r = .ok a := by
  match r with
  | .ok a => exact fun _ => ⟨rfl, rfl⟩
  | .error (.unbound name) => exact abort
  | .error .beyondGlobal => exact abort

theorem operator (line : Int) (r : OpResult) : Observes (Eval.operator ctx line r) fun _ v => r = .ok v := by
  cases r with
  | ok v => exact fun _ => ⟨rfl, rfl⟩
  | error issue => exact abort

theorem superclassOf (name : Name) (v : Value) :
    Observes (Eval.superclassOf ctx name v) fun _ found => v = .cls found.1 found.2 := by
  cases v with
  | cls id d => exact fun _ => ⟨rfl, rfl⟩
  | _ => exact abort

theorem printLine (line : String) : Observes (Eval.printLine line) fun _ _ => True :=
  fun _ => ⟨rfl, trivial⟩

theorem readClock : Observes Eval.readClock fun _ _ => True :=
  fun _ => ⟨rfl, trivial⟩

theorem pure {a : α} (ha : ∀ store, q store a) : Observes (pure a) q :=
  fun m => ⟨rfl, ha m.store⟩

theorem imp {y : Eval α} {q' : Store Value → α → Prop} (hy : Observes y q)
    (himp : ∀ store a, q store a → q' store a) : Observes y q' := by
  intro m
  have hrun := hy m
  cases hy' : y m with
  | ok a m' =>
    rw [hy'] at hrun
    exact ⟨hrun.1, himp _ _ hrun.2⟩
  | error cut m' =>
    rw [hy'] at hrun
    exact hrun

theorem bind {β : Type} {y : Eval α} {f : α → Eval β} {q' : Store Value → β → Prop}
    (hy : Observes y q) (hf : ∀ a, Observes (f a) fun store b => q store a → q' store b) :
    Observes (y >>= f) q' := by
  intro m
  have hfirst := hy m
  cases hrun : y m with
  | error cut m' =>
    rw [hrun] at hfirst
    rw [bind_of_error hrun]
    exact hfirst
  | ok a m' =>
    rw [hrun] at hfirst
    rw [bind_of_ok hrun]
    obtain ⟨hstore, ha⟩ := hfirst
    have hsecond := hf a m'
    cases hrun' : f a m' with
    | ok b m'' =>
      rw [hrun'] at hsecond
      obtain ⟨hstore', hb⟩ := hsecond
      rw [hstore] at hstore' hb
      exact ⟨hstore', hb ha⟩
    | error cut m'' =>
      rw [hrun'] at hsecond
      exact Eq.trans hsecond hstore

/-- What is looked up is bound in some scope. -/
theorem lookUp (name : Name) (use : Distance) : Observes (Eval.lookUp ctx name use) fun store v =>
    ∃ scope, (store.bindings scope).find? name.text = some v := by
  refine .bind .readStore fun store => ?_
  cases use with
  | some d =>
    refine (access _).imp fun store' v hv heq => ?_
    rw [← heq]
    exact bound_of_getAt hv
  | none =>
    rw [Store.lookup?_globalEnv]
    cases hfound : (store.bindings globalScope).find? name.text with
    | some v =>
      refine .pure fun store' heq => ?_
      rw [← heq]
      exact ⟨globalScope, hfound⟩
    | none => exact abort

theorem targetScope (name : Name) (use : Distance) :
    Observes (Eval.targetScope ctx name use) fun _ _ => True := by
  cases use with
  | some d => exact (access _).imp fun _ _ _ => trivial
  | none =>
    refine .bind .readStore fun store => ?_
    cases store.owner? globalEnv name.text with
    | some scope => exact .pure fun _ _ => trivial
    | none => exact abort

end Observes

namespace Recorded

theorem lift_bind {α β : Type} (x : Eval α) (f : α → Eval β) :
    lift (x >>= f) = lift x >>= fun a => lift (f a) := by
  funext s
  cases hx : x s.1 with
  | ok a m =>
    have hlift : lift x s = .ok a (m, s.2) := by simp only [lift, hx]
    rw [bind_of_ok hlift]
    simp only [lift, bind_of_ok hx]
  | error e m =>
    have hlift : lift x s = .error e (m, s.2) := by simp only [lift, hx]
    rw [bind_of_error hlift]
    simp only [lift, bind_of_error hx]

end Recorded

/-! ### Elementary steps -/

section Elementary

variable {α : Type} {s : Machine × Chronicle} {ctx : Context}

/-- The chronicle and the store are as they were. -/
def Same (s s' : Machine × Chronicle) : Prop := s'.2 = s.2 ∧ s'.1.store = s.1.store

theorem leads_lift {y : Eval α} {q : Store Value → α → Prop} (hs : InOrder s) (hy : Observes y q) :
    Leads s (fun a s' => q s.1.store a ∧ Same s s') (Recorded.lift y s) := by
  have hrun := hy s.1
  -- a state with the same store is as good
  have hsame {m : Machine} (hm : m.store = s.1.store) : InOrder (m, s.2) ∧ Later s (m, s.2) := by
    refine ⟨⟨hs.sound, ?_⟩, List.suffix_rfl, ?_⟩
    · show Kept s.2 m.store
      rw [hm]
      exact hs.kept
    · show s.1.store.Grows m.store
      rw [hm]
      exact .refl _
  unfold Recorded.lift
  cases hout : y s.1 with
  | ok a m =>
    rw [hout] at hrun
    obtain ⟨hm, ha⟩ := hrun
    exact .ok (hsame hm).1 (hsame hm).2 ⟨ha, rfl, hm⟩
  | error cut m =>
    rw [hout] at hrun
    exact .error (hsame hrun).1 (hsame hrun).2

/-- What is looked up fits. -/
theorem leads_lookUp (hs : InOrder s) (name : Name) (use : Distance) :
    Leads s Yields (Recorded.lift (Eval.lookUp ctx name use) s) := by
  refine (leads_lift hs (.lookUp name use)).imp fun v s' hlater hv => ?_
  obtain ⟨⟨scope, hbound⟩, -⟩ := hv
  exact (hs.kept.bound scope _ v hbound).mono hlater.subset

/-- A failure leaves all as it is. -/
theorem leads_abort {post : α → Machine × Chronicle → Prop} {fault : Fault} (hs : InOrder s) :
    Leads s post (Recorded.lift (Eval.abort ctx fault) s) :=
  .error hs (.refl s)

theorem leads_update (f : Store Value → α × Store Value) (hs : InOrder s)
    (hkept : Kept s.2 (f s.1.store).2) (hgrows : s.1.store.Grows (f s.1.store).2) :
    Leads s (fun a s' => a = (f s.1.store).1 ∧ s'.2 = s.2 ∧ s'.1.store = (f s.1.store).2)
      (Recorded.lift (Eval.updateStore f) s) :=
  .ok ⟨hs.sound, hkept⟩ ⟨List.suffix_rfl, hgrows⟩ ⟨rfl, rfl, rfl⟩

theorem leads_modify (f : Store Value → Store Value) (hs : InOrder s)
    (hkept : Kept s.2 (f s.1.store)) (hgrows : s.1.store.Grows (f s.1.store)) :
    Leads s (fun _ s' => s'.2 = s.2 ∧ s'.1.store = f s.1.store)
      (Recorded.lift (Eval.modifyStore f) s) :=
  .ok ⟨hs.sound, hkept⟩ ⟨List.suffix_rfl, hgrows⟩ ⟨rfl, rfl⟩

/-- A name of the program is bound in the innermost scope. -/
theorem leads_define (hs : InOrder s) (env : Env) {name : String} {v : Value}
    (hname : Unreserved name) (hv : Yields v s) :
    Leads s (fun _ _ => True) (Recorded.lift (Eval.define env name v) s) := by
  have hdefined : Kept s.2 (s.1.store.define env name v) ∧
      s.1.store.Grows (s.1.store.define env name v) := by
    cases env with
    | nil => exact ⟨hs.kept, .refl _⟩
    | cons scope env => exact ⟨hs.kept.bind hv (.inl hname), s.1.store.grows_bind _ _ _⟩
  exact .ok ⟨hs.sound, hdefined.1⟩ ⟨List.suffix_rfl, hdefined.2⟩ trivial

theorem leads_assignTo (hs : InOrder s) {name : Name} (use : Distance) {v : Value}
    (hname : Unreserved name.text) (hv : Yields v s) :
    Leads s (fun _ _ => True) (Recorded.lift (Eval.assignTo ctx name use v) s) := by
  unfold Eval.assignTo
  rw [Recorded.lift_bind]
  refine .bind (leads_lift hs (.targetScope name use)) fun scope s' hs' hlater _ => ?_
  have hbound : Kept s'.2 (s'.1.store.bind scope name.text v) :=
    hs'.kept.bind (hv.later hlater) (.inl hname)
  exact (leads_modify (·.bind scope name.text v) hs' hbound (s'.1.store.grows_bind _ _ _)).imp
    fun _ _ _ _ => trivial

/-- The parameters of a function of the program are bound to arguments that fit. -/
theorem leads_bindParams (hs : InOrder s) (env : Env) {params : List String} {args : List Value}
    (hparams : ∀ x ∈ params, Unreserved x) (hargs : ∀ v ∈ args, Yields v s) :
    Leads s (fun _ _ => True) (Recorded.lift (Eval.bindParams env params args) s) := by
  induction params generalizing args s with
  | nil => exact .pure hs trivial
  | cons p params ih =>
    cases args with
    | nil => exact .pure hs trivial
    | cons v args =>
      obtain ⟨hp, hparams⟩ := List.forall_mem_cons.mp hparams
      obtain ⟨hv, hargs⟩ := List.forall_mem_cons.mp hargs
      unfold Eval.bindParams
      rw [Recorded.lift_bind]
      refine .bind (leads_define hs env hp hv) fun _ s' hs' hlater _ => ?_
      exact ih hs' hparams fun w hw => (hargs w hw).later hlater

theorem leads_newFunction (hs : InOrder s) {c : Closure} (hc : ClosureFits s.2 c) :
    Leads s Yields (Recorded.lift (Eval.newFunction c) s) :=
  .ok ⟨hs.sound, hs.kept.identity⟩ ⟨List.suffix_rfl, s.1.store.grows_identity⟩ hc

theorem InOrder.record {r : Record} (hs : InOrder s) (hfits : r.Fits s.2)
    (hopening : r.isOpening = false) (hmaking : r.isMaking = false) (hplace : r.InPlace s.1.store) :
    InOrder (s.1, r :: s.2) ∧ Later s (s.1, r :: s.2) :=
  ⟨⟨⟨hfits, hs.sound⟩, hs.kept.note hopening hmaking hplace⟩, List.suffix_cons r s.2, .refl _⟩

theorem leads_note {r : Record} (hs : InOrder s) (hfits : r.Fits s.2)
    (hopening : r.isOpening = false) (hmaking : r.isMaking = false) (hplace : r.InPlace s.1.store) :
    Leads s (fun _ s' => s'.1 = s.1 ∧ r ∈ s'.2) (Recorded.note r s) := by
  obtain ⟨hs', hlater⟩ := hs.record hfits hopening hmaking hplace
  exact .ok hs' hlater ⟨rfl, List.mem_cons_self⟩

theorem leads_takeUp (hs : InOrder s) {e : ResolvedExpr} (hplaced : Placed s.2 ctx.env (.expr e)) :
    Leads s (fun _ _ => True) (Recorded.takeUp ctx e s) :=
  .ok ⟨⟨⟨hplaced, hs.kept⟩, hs.sound⟩, hs.kept.note rfl rfl (.refl _)⟩
    ⟨List.suffix_cons _ s.2, .refl _⟩ trivial

/-- A new scope is inside its environment, and nothing else is recorded of it. -/
theorem leads_newScope (hs : InOrder s) {env : Env} (henv : Chain s.2 env) :
    Leads s (fun scope s' => .opens scope env ∈ s'.2 ∧ Unclaimed s'.2 scope ∧
      scope < s'.1.store.scopes.size) (Recorded.newScope env s) := by
  have hcount := hs.kept.scopes
  refine .ok ⟨⟨⟨hcount, henv⟩, hs.sound⟩, hs.kept.extend env _⟩
    ⟨List.suffix_cons _ s.2, s.1.store.grows_extend env⟩ ⟨List.mem_cons_self, ?_, ?_⟩
  · obtain ⟨hbinds, hcreates⟩ := hs.sound.unclaimed
    rw [← hcount] at hbinds hcreates
    refine ⟨fun method receiver hr => ?_, fun id env' text p hr => ?_⟩
    · rcases List.mem_cons.mp hr with heq | hr
      · cases heq
      · exact hbinds method receiver hr
    · rcases List.mem_cons.mp hr with heq | hr
      · cases heq
      · exact hcreates id env' text p hr
  · show s.1.store.scopes.size < (s.1.store.extend env).2.scopes.size
    rw [Store.size_extend]
    exact Nat.lt_succ_self _

/-- A reserved name is bound in a scope that nothing is recorded of. -/
theorem leads_claim (hs : InOrder s) {scope : ScopeId} (env : Env) (name : String) {v : Value}
    (hfree : Unclaimed s.2 scope) (hscope : scope < s.1.store.scopes.size) (hv : Yields v s) :
    Leads s (fun _ s' => s'.2 = s.2 ∧ (s'.1.store.bindings scope).find? name = some v)
      (Recorded.lift (Eval.define (scope :: env) name v) s) := by
  refine .ok ⟨hs.sound, hs.kept.bind hv (.inr hfree)⟩
    ⟨List.suffix_rfl, s.1.store.grows_bind _ _ _⟩ ⟨rfl, ?_⟩
  show ((s.1.store.bind scope name v).bindings scope).find? name = some v
  rw [Store.find?_bind _ hscope, if_pos ⟨rfl, rfl⟩]

end Elementary

/-! ### Methods -/

section Methods

variable {s : Machine × Chronicle} {ctx : Context}

/-- A bound method is a function that fits. -/
theorem leads_bindMethod (hs : InOrder s) {method : Closure} (hmethod : MethodFits s.2 method)
    {object : Nat} {d : Class} (hobject : ValueFits s.2 (.object object d)) :
    Leads s (fun c s' => ClosureFits s'.2 c)
      (Recorded.bindMethod method (.object object d) s) := by
  refine .bind (leads_newScope hs (hmethod.chain hs.sound)) ?_
  intro scope s₁ hs₁ hlater₁ hscope
  obtain ⟨hopen, hfree, hlt⟩ := hscope
  have hobject₁ := hobject.mono hlater₁.subset
  refine .bind (leads_claim hs₁ method.env Keyword.thisWord.text hfree hlt hobject₁) ?_
  intro _ s₂ hs₂ hlater₂ hclaimed
  obtain ⟨hsame, hthis⟩ := hclaimed
  have hmethod₂ := (hmethod.mono hlater₁.subset).mono hlater₂.subset
  have hfits : (Record.binds scope method (.object object d)).Fits s₂.2 :=
    ⟨hlater₂.subset hopen, hmethod₂, object, d, rfl, hobject₁.mono hlater₂.subset⟩
  refine .bind (leads_note hs₂ hfits rfl rfl hthis) ?_
  intro _ s₃ hs₃ hlater₃ hnoted
  exact .pure hs₃ ((hmethod₂.mono hlater₃.subset).closureFits hs₃.sound hnoted.2)

/-- A method that a class finds, bound to an object, or a failure. -/
theorem leads_boundMethod (hs : InOrder s) (name : Name) {id : Nat} {c : Class}
    (hc : ClassFits s.2 id c) {receiver : Value} (hobject : ∃ object d, receiver = .object object d)
    (hreceiver : ValueFits s.2 receiver) :
    Leads s Yields (Recorded.boundMethod ctx name receiver (c.findMethod? name.text) s) := by
  cases hfound : c.findMethod? name.text with
  | none => exact leads_abort hs
  | some method =>
    obtain ⟨object, d, rfl⟩ := hobject
    refine .bind (leads_bindMethod hs (hc.findMethod? hs.sound hfound) hreceiver) ?_
    intro bound s' hs' _ hbound
    exact leads_newFunction hs' hbound

theorem leads_getProperty (hs : InOrder s) {v : Value} (hv : Yields v s) (name : Name) :
    Leads s Yields (Recorded.getProperty ctx v name s) := by
  cases v with
  | object object d =>
    refine .bind (leads_lift hs .readStore) ?_
    intro store s' hs' hlater hread
    obtain ⟨rfl, -, -⟩ := hread
    have hv' := hv.later hlater
    cases hfound : (s.1.store.fields object).find? name.text with
    | some w => exact .pure hs' (ValueFits.mono (hs.kept.fields _ _ _ hfound) hlater.subset)
    | none =>
      have hobject := hv'
      obtain ⟨cls, -, hd⟩ := hobject
      exact leads_boundMethod hs' name hd ⟨object, d, rfl⟩ hv'
  | _ => exact leads_abort hs

/-- A method of the superclass is bound to the receiver of the innermost method. -/
theorem leads_getSuper (hs : InOrder s) {line : Int} {use : Distance} {method : Name}
    (hplaced : Placed s.2 ctx.env (.expr (.super line use method))) :
    Leads s Yields (Recorded.getSuper ctx use method s) := by
  obtain ⟨d, text, b, henc, hsome, rfl⟩ := hplaced.super
  obtain ⟨p, hp, hclass⟩ := henc.superclass hs.sound hsome
  obtain ⟨object, c, hobject, hfits⟩ := henc.receiver hs.sound
  refine .bind (leads_lift hs .readStore) ?_
  intro store s₁ hs₁ hlater₁ hread
  obtain ⟨rfl, -, -⟩ := hread
  rw [henc.getAt_super hs.kept hp]
  refine .bind (leads_lift hs₁ (.access _)) ?_
  intro superclass s₂ hs₂ hlater₂ hsuper
  obtain ⟨hsuper, -⟩ := hsuper
  cases hsuper
  refine .bind (leads_lift hs₂ (.access _)) ?_
  intro receiver s₃ hs₃ hlater₃ hthis
  have hlater := (hlater₁.trans hlater₂).trans hlater₃
  obtain ⟨hthis, -⟩ := hthis
  have hreceiver : receiver = b.receiver := by
    have hfound := henc.getAt_this hs.kept
    have heq : Except.ok b.receiver = Except.ok receiver := hfound.symm.trans hthis
    exact (Except.ok.inj heq).symm
  subst hreceiver
  exact leads_boundMethod hs₃ method (hclass.mono hlater.subset) ⟨object, c, hobject⟩
    (hfits.mono hlater.subset)

end Methods

/-! ### Sequences and loops -/

section Sequences

variable {s : Machine × Chronicle} {ctx : Context}

theorem leads_inOrder {f : ResolvedExpr → Recorded Value} {es : List ResolvedExpr} (hs : InOrder s)
    (hf : ∀ e ∈ es, ∀ s', InOrder s' → Later s s' → Leads s' Yields (f e s')) :
    Leads s (fun vs s' => ∀ v ∈ vs, Yields v s') (Eval.inOrder f es s) := by
  induction es generalizing s with
  | nil => exact .pure hs nofun
  | cons e es ih =>
    obtain ⟨he, hes⟩ := List.forall_mem_cons.mp hf
    refine .bind (he s hs (.refl s)) fun v s₁ hs₁ hlater₁ hv => ?_
    have hrest := ih hs₁ fun e he s' hs' hlater => hes e he s' hs' (hlater₁.trans hlater)
    refine .bind hrest fun vs s₂ hs₂ hlater₂ hvs => ?_
    exact .pure hs₂ (List.forall_mem_cons.mpr ⟨hv.later hlater₂, hvs⟩)

theorem leads_sequence {f : ResolvedStmt → Recorded Completion} {ss : List ResolvedStmt}
    (hs : InOrder s)
    (hf : ∀ t ∈ ss, ∀ s', InOrder s' → Later s s' → Leads s' Completes (f t s')) :
    Leads s Completes (Eval.sequence f ss s) := by
  induction ss generalizing s with
  | nil => exact .pure hs trivial
  | cons t ss ih =>
    obtain ⟨ht, hss⟩ := List.forall_mem_cons.mp hf
    refine .bind (ht s hs (.refl s)) fun completion s₁ hs₁ hlater₁ hcompletion => ?_
    cases completion with
    | normal => exact ih hs₁ fun t ht s' hs' hlater => hss t ht s' hs' (hlater₁.trans hlater)
    | returned v => exact .pure hs₁ hcompletion

theorem leads_whileLoop {condition : Recorded Value} {body : Recorded Completion} (hs : InOrder s)
    (hc : ∀ s', InOrder s' → Later s s' → Leads s' Yields (condition s'))
    (hb : ∀ s', InOrder s' → Later s s' → Leads s' Completes (body s')) (n : Nat) :
    Leads s Completes
      (Eval.whileLoop (Recorded.lift (Eval.abort ctx .endless)) condition body n s) := by
  induction n generalizing s with
  | zero => exact leads_abort hs
  | succ n ih =>
    refine .bind (hc s hs (.refl s)) fun v s₁ hs₁ hlater₁ _ => ?_
    cases v.truthy with
    | false => exact .pure hs₁ trivial
    | true =>
      refine .bind (hb s₁ hs₁ hlater₁) fun completion s₂ hs₂ hlater₂ hcompletion => ?_
      have hlater := hlater₁.trans hlater₂
      cases completion with
      | normal =>
        exact ih hs₂ (fun s' hs' h => hc s' hs' (hlater.trans h))
          fun s' hs' h => hb s' hs' (hlater.trans h)
      | returned v => exact .pure hs₂ hcompletion

end Sequences

/-! ### Calls -/

/-- Expressions at their places yield what fits. -/
def EvalKeeps (eval : Context → ResolvedExpr → Recorded Value) : Prop :=
  ∀ ctx e s, InOrder s → Placed s.2 ctx.env (.expr e) → Leads s Yields (eval ctx e s)

/-- Statements at their places yield what fits. -/
def ExecKeeps (exec : Context → ResolvedStmt → Recorded Completion) : Prop :=
  ∀ ctx t s, InOrder s → Placed s.2 ctx.env (.stmt t) → Leads s Completes (exec ctx t s)

section Calls

variable {exec : Context → ResolvedStmt → Recorded Completion} {s : Machine × Chronicle}
  {ctx : Context}

theorem leads_runClosure (hexec : ExecKeeps exec) (hs : InOrder s) (frames : List Frame)
    {c : Closure} (hc : ClosureFits s.2 c) {args : List Value} (hargs : ∀ v ∈ args, Yields v s) :
    Leads s Yields (Recorded.steps.runClosure exec frames c args s) := by
  obtain ⟨program, zone, zones, hprogram, henv, hbody, hparams, -⟩ := hc
  refine .bind (leads_newScope hs (henv.chain hs.sound)) fun scope s₁ hs₁ hlater₁ hscope => ?_
  have hargs₁ (v : Value) (hv : v ∈ args) : Yields v s₁ := (hargs v hv).later hlater₁
  refine .bind (leads_bindParams hs₁ _ hparams hargs₁) fun _ s₂ hs₂ hlater₂ _ => ?_
  have hinside : Mirrors s₂.2 (zone :: zones) (scope :: c.env) :=
    (henv.mono (hlater₁.trans hlater₂).subset).enter (hlater₂.subset hscope.1)
  refine .bind (leads_sequence hs₂ fun t ht s' hs' hlater => ?_) ?_
  · exact hexec _ t s' hs' ⟨program, _, hprogram, hbody t ht, hinside.mono hlater.subset⟩
  · intro completion s₃ hs₃ _ hcompletion
    cases c.isInitializer with
    | true =>
      refine .bind (leads_lift hs₃ .readStore) fun store s₄ hs₄ hlater₄ hread => ?_
      obtain ⟨rfl, -, -⟩ := hread
      refine (leads_lift hs₄ (.access _)).imp fun v s₅ hlater₅ haccess => ?_
      obtain ⟨scope', hbound⟩ := bound_of_getAt haccess.1
      exact (hs₃.kept.bound scope' _ v hbound).mono (hlater₄.trans hlater₅).subset
    | false =>
      cases completion with
      | normal => exact .pure hs₃ trivial
      | returned v => exact .pure hs₃ hcompletion

/-- An object and the record of it are there at once. -/
theorem InOrder.make (hs : InOrder s) {id : Nat} {d : Class} (hd : ClassFits s.2 id d) :
    InOrder ({ s.1 with store := s.1.store.newObject.2 },
        .makes s.1.store.objects.size id :: s.2) ∧
      Later s ({ s.1 with store := s.1.store.newObject.2 },
        .makes s.1.store.objects.size id :: s.2) :=
  ⟨⟨⟨⟨hs.kept.objects, d, hd⟩, hs.sound⟩, hs.kept.newObject _ id⟩,
    List.suffix_cons _ s.2, s.1.store.grows_newObject⟩

theorem leads_instantiate (hexec : ExecKeeps exec) (hs : InOrder s) (frames : List Frame) {id : Nat}
    {d : Class} (hd : ClassFits s.2 id d) {args : List Value} (hargs : ∀ v ∈ args, Yields v s) :
    Leads s Yields (Recorded.steps.instantiate exec frames id d args s) := by
  let object := s.1.store.objects.size
  let s₁ : Machine × Chronicle :=
    ({ s.1 with store := s.1.store.newObject.2 }, .makes object id :: s.2)
  obtain ⟨hs₁, hlater₁⟩ : InOrder s₁ ∧ Later s s₁ := hs.make hd
  have hd₁ := hd.mono hlater₁.subset
  have hobject : ValueFits s₁.2 (.object object d) := ⟨id, List.mem_cons_self, hd₁⟩
  unfold Steps.instantiate
  refine .after hlater₁ ?_
  cases hfound : d.initializer? with
  | none => exact .pure hs₁ hobject
  | some method =>
    show Leads s₁ Yields ((Recorded.bindMethod method (.object object d) >>= fun bound =>
      Recorded.steps.runClosure exec frames bound args >>= fun _ => pure (.object object d)) s₁)
    refine .bind (leads_bindMethod hs₁ (hd₁.findMethod? hs₁.sound hfound) hobject) ?_
    intro bound s₂ hs₂ hlater₂ hbound
    have hargs₂ (v : Value) (hv : v ∈ args) : Yields v s₂ :=
      (hargs v hv).later (hlater₁.trans hlater₂)
    refine .bind (leads_runClosure hexec hs₂ frames hbound hargs₂) ?_
    intro _ s₃ hs₃ hlater₃ _
    exact .pure hs₃ (hobject.mono (hlater₂.trans hlater₃).subset)

theorem leads_run (hexec : ExecKeeps exec) (hs : InOrder s) (frames : List Frame) {callee : Value}
    (hcallee : Yields callee s) {args : List Value} (hargs : ∀ v ∈ args, Yields v s) :
    Leads s Yields (Recorded.steps.run exec frames args callee s) := by
  cases callee with
  | native id f =>
    cases f
    show Leads s Yields ((Value.number <$> Recorded.lift Eval.readClock) s)
    rw [← bind_pure_comp]
    exact .bind (leads_lift hs .readClock) fun _ s' hs' _ _ => .pure hs' trivial
  | function id c => exact leads_runClosure hexec hs frames hcallee hargs
  | cls id d => exact leads_instantiate hexec hs frames hcallee hargs
  | _ => exact .pure hs trivial

theorem leads_apply (hexec : ExecKeeps exec) (hs : InOrder s) (line : Int) {callee : Value}
    (hcallee : Yields callee s) {args : List Value} (hargs : ∀ v ∈ args, Yields v s) :
    Leads s Yields (Recorded.steps.apply exec ctx line callee args s) := by
  unfold Steps.apply
  cases callee.signature? with
  | none => exact leads_abort hs
  | some signature =>
    obtain ⟨name, arity⟩ := signature
    by_cases hlength : args.length = arity
    · simp only [if_pos hlength]
      show Leads s Yields ((Recorded.note (.calls (callCount s.2) callee args line) >>= fun _ =>
        Recorded.steps.run exec (⟨name, line⟩ :: ctx.frames) args callee >>= fun v =>
        Recorded.note (.returns (callCount s.2) v) >>= fun _ => pure v) s)
      refine .bind (leads_note hs ⟨hcallee, hargs⟩ rfl rfl trivial) fun _ s₁ hs₁ hlater₁ _ => ?_
      refine .bind (leads_run hexec hs₁ _ (hcallee.later hlater₁) fun v hv =>
        (hargs v hv).later hlater₁) fun v s₂ hs₂ hlater₂ hv => ?_
      refine .bind (leads_note hs₂ hv rfl rfl trivial) fun _ s₃ hs₃ hlater₃ _ => ?_
      exact .pure hs₃ (hv.later hlater₃)
    · simp only [if_neg hlength]
      exact leads_abort hs

end Calls

/-! ### Declarations -/

section Declarations

variable {s : Machine × Chronicle} {ctx : Context}

theorem leads_createClass (hs : InOrder s) {env : Env} {text : ClassText}
    (hplaced : Placed s.2 env (.stmt text.statement)) {superclass : Option Superclass}
    (hsome : superclass.isSome = text.superclass.isSome)
    (hsuper : ∀ p, superclass = some p → (ClassFits s.2 p.id p.definition ∧ .opens p.scope env ∈ s.2) ∧
      (s.1.store.bindings p.scope).find? Keyword.superWord.text = some (.cls p.id p.definition)) :
    Leads s (fun _ _ => True) (Recorded.createClass env text superclass s) := by
  have hname : Unreserved text.name.text := hplaced.unreserved _ List.mem_cons_self
  refine .bind (leads_update (·.identity) hs hs.kept.identity s.1.store.grows_identity) ?_
  intro id s₁ hs₁ hlater₁ hupdate
  obtain ⟨rfl, hsame, hstore⟩ := hupdate
  -- all identities so far are smaller
  have hfits : (Record.creates s.1.store.fresh env text superclass).Fits s₁.2 := by
    rw [hsame]
    exact ⟨fun id' env' text' superclass' hr => (hs.kept.records _ hr).1, hplaced, hsome,
      fun p hp => (hsuper p hp).1⟩
  have hplace : (Record.creates s.1.store.fresh env text superclass).InPlace s₁.1.store := by
    rw [hstore]
    exact ⟨Nat.lt_succ_self _, fun p hp => (hsuper p hp).2⟩
  refine .bind (leads_note hs₁ hfits rfl rfl hplace) ?_
  intro _ s₂ hs₂ hlater₂ hnoted
  exact leads_define hs₂ env hname ⟨env, text, superclass, hnoted.2, rfl⟩

theorem leads_declareClass (hs : InOrder s) {text : ClassText}
    (hplaced : Placed s.2 ctx.env (.stmt text.statement)) :
    Leads s (fun _ _ => True) (Recorded.declareClass ctx text s) := by
  have hname : Unreserved text.name.text := hplaced.unreserved _ List.mem_cons_self
  unfold Recorded.declareClass
  cases hsuper : text.superclass with
  | none =>
    refine .bind (leads_define hs ctx.env hname trivial) fun _ s₁ hs₁ hlater₁ _ => ?_
    exact leads_createClass hs₁ (hplaced.mono hlater₁.subset) (by rw [hsuper]; rfl) nofun
  | some use =>
    obtain ⟨superName, use⟩ := use
    refine .bind (leads_lift hs (.lookUp superName use)) fun v s₁ hs₁ hlater₁ hv => ?_
    obtain ⟨⟨scope', hv⟩, hsame₁⟩ := hv
    refine .bind (leads_lift hs₁ (.superclassOf superName v)) fun found s₂ hs₂ hlater₂ hfound => ?_
    obtain ⟨rfl, hsame₂⟩ := hfound
    have hclass : ClassFits s.2 found.1 found.2 := hs.kept.bound scope' _ _ hv
    refine .bind (leads_define hs₂ ctx.env hname trivial) fun _ s₃ hs₃ hlater₃ _ => ?_
    have hlater := (hlater₁.trans hlater₂).trans hlater₃
    have hchain := (hplaced.mono hlater.subset).chain hs₃.sound
    refine .bind (leads_newScope hs₃ hchain) fun scope s₄ hs₄ hlater₄ hscope => ?_
    obtain ⟨hopen, hfree, hlt⟩ := hscope
    have hclass₄ := hclass.mono (hlater.trans hlater₄).subset
    refine .bind (leads_claim hs₄ ctx.env Keyword.superWord.text hfree hlt hclass₄) ?_
    intro _ s₅ hs₅ hlater₅ hclaimed
    refine leads_createClass hs₅ ?_ (by rw [hsuper]; rfl) ?_
    · exact hplaced.mono ((hlater.trans hlater₄).trans hlater₅).subset
    · intro p hp
      cases hp
      exact ⟨⟨hclass₄.mono hlater₅.subset, hlater₅.subset hopen⟩, hclaimed.2⟩

end Declarations

/-! ### The walk -/

section Operators

variable {a b v w : Value}

/-- Values that refer to nothing. -/
def Value.IsConstant : Value → Prop
  | .nil | .bool _ | .number _ | .string _ => True
  | _ => False

theorem Value.IsConstant.fits {h : Chronicle} (hv : v.IsConstant) : ValueFits h v := by
  cases v with
  | function => exact hv.elim
  | cls => exact hv.elim
  | object => exact hv.elim
  | _ => trivial

/-- Operators yield constants. -/
theorem unary_constant {op : UnaryOp} (hw : op.apply v = .ok w) : w.IsConstant := by
  cases op with
  | not =>
    cases hw
    trivial
  | negate =>
    unfold UnaryOp.apply at hw
    split at hw
    · cases hw
      trivial
    · cases hw
    · next hnot => cases hnot

theorem onNumbers_constant {f : Float → Float → OpResult}
    (hf : ∀ x y, f x y = .ok w → w.IsConstant) (hw : onNumbers f a b = .ok w) : w.IsConstant := by
  unfold onNumbers at hw
  split at hw
  · next x y => exact hf x y hw
  · cases hw

theorem binary_constant {op : BinaryOp} (hw : op.apply a b = .ok w) : w.IsConstant := by
  cases op with
  | equal =>
    cases hw
    trivial
  | notEqual =>
    cases hw
    trivial
  | add => cases a <;> cases b <;> cases hw <;> trivial
  | divide =>
    refine onNumbers_constant (fun x y hf => ?_) hw
    by_cases hzero : (y == 0.0) = true
    · rw [if_pos hzero] at hf
      cases hf
    · rw [if_neg hzero] at hf
      cases hf
      trivial
  | _ =>
    refine onNumbers_constant (fun x y hf => ?_) hw
    cases hf
    trivial

theorem leads_operator {s : Machine × Chronicle} {ctx : Context} (hs : InOrder s) (line : Int)
    {r : OpResult} (hr : ∀ w, r = .ok w → w.IsConstant) :
    Leads s Yields (Recorded.lift (Eval.operator ctx line r) s) :=
  (leads_lift hs (.operator line r)).imp fun w _ _ hw => (hr w hw.1).fits

end Operators

section Walk

variable {eval : Context → ResolvedExpr → Recorded Value}
  {exec : Context → ResolvedStmt → Recorded Completion} {s : Machine × Chronicle} {ctx : Context}

/-- An expression keeps the heap in order, if its parts do. -/
theorem leads_exprStep (heval : EvalKeeps eval) (hexec : ExecKeeps exec) (hs : InOrder s)
    {e : ResolvedExpr} (hplaced : Placed s.2 ctx.env (.expr e)) :
    Leads s Yields (Recorded.steps.exprStep eval exec ctx e s) := by
  cases e with
  | literal value => cases value <;> exact .pure hs trivial
  | group inner => exact heval ctx inner s hs (hplaced.part List.mem_cons_self)
  | unary op line operand =>
    refine .bind (heval ctx operand s hs (hplaced.part List.mem_cons_self)) ?_
    intro v s₁ hs₁ _ _
    exact leads_operator hs₁ line fun _ => unary_constant
  | binary op line left right =>
    have hright : Placed s.2 ctx.env (.expr right) := hplaced.part (.tail _ (.head _))
    refine .bind (heval ctx left s hs (hplaced.part List.mem_cons_self)) ?_
    intro a s₁ hs₁ hlater₁ _
    refine .bind (heval ctx right s₁ hs₁ (hright.mono hlater₁.subset)) ?_
    intro b s₂ hs₂ _ _
    exact leads_operator hs₂ line fun _ => binary_constant
  | logical op line left right =>
    have hright : Placed s.2 ctx.env (.expr right) := hplaced.part (.tail _ (.head _))
    refine .bind (heval ctx left s hs (hplaced.part List.mem_cons_self)) ?_
    intro v s₁ hs₁ hlater₁ hv
    cases op.decided v with
    | true => exact .pure hs₁ hv
    | false => exact heval ctx right s₁ hs₁ (hright.mono hlater₁.subset)
  | «variable» name use => exact leads_lookUp hs name use
  | assign name use value =>
    have hname : Unreserved name.text := hplaced.unreserved _ List.mem_cons_self
    refine .bind (heval ctx value s hs (hplaced.part List.mem_cons_self)) ?_
    intro v s₁ hs₁ _ hv
    refine .bind (leads_assignTo hs₁ use hname hv) fun _ s₂ hs₂ hlater₂ _ => ?_
    exact .pure hs₂ (hv.later hlater₂)
  | call callee arguments line =>
    refine .bind (heval ctx callee s hs (hplaced.part List.mem_cons_self)) ?_
    intro f s₁ hs₁ hlater₁ hf
    refine .bind (leads_inOrder hs₁ fun e he s' hs' hlater => ?_) ?_
    · have hpart : ([], Code.expr e) ∈ (Code.expr (.call callee arguments line)).parts :=
        List.mem_cons_of_mem _ (List.mem_map.mpr ⟨e, he, rfl⟩)
      exact heval ctx e s' hs' ((hplaced.part hpart).mono (hlater₁.trans hlater).subset)
    · intro args s₂ hs₂ hlater₂ hargs
      exact leads_apply hexec hs₂ line (hf.later hlater₂) hargs
  | get object name =>
    refine .bind (heval ctx object s hs (hplaced.part List.mem_cons_self)) ?_
    intro v s₁ hs₁ _ hv
    exact leads_getProperty hs₁ hv name
  | set object name value =>
    have hvalue : Placed s.2 ctx.env (.expr value) := hplaced.part (.tail _ (.head _))
    refine .bind (heval ctx object s hs (hplaced.part List.mem_cons_self)) ?_
    intro o s₁ hs₁ hlater₁ _
    cases o with
    | object id d =>
      refine .bind (heval ctx value s₁ hs₁ (hvalue.mono hlater₁.subset)) ?_
      intro v s₂ hs₂ _ hv
      refine .bind (leads_modify (·.setField id name.text v) hs₂ (hs₂.kept.setField hv)
        (s₂.1.store.grows_setField _ _ _)) fun _ s₃ hs₃ hlater₃ _ => ?_
      exact .pure hs₃ (hv.later hlater₃)
    | _ => exact leads_abort hs₁
  | this line use => exact leads_lookUp hs _ use
  | super line use method => exact leads_getSuper hs hplaced
  | lambda line params body =>
    exact leads_newFunction hs
      (hplaced.closureFits (fun t ht => List.mem_map.mpr ⟨t, ht, rfl⟩) fun _ hx => hx)

theorem leads_optional (heval : EvalKeeps eval) (hs : InOrder s) {value : Option ResolvedExpr}
    (hplaced : ∀ e, value = some e → Placed s.2 ctx.env (.expr e)) :
    Leads s Yields (Steps.optional eval ctx value s) := by
  cases value with
  | some e => exact heval ctx e s hs (hplaced e rfl)
  | none => exact .pure hs trivial

/-- A statement keeps the heap in order, if its parts do. -/
theorem leads_stmtStep (heval : EvalKeeps eval) (hexec : ExecKeeps exec) (rounds : Nat)
    (hs : InOrder s) {t : ResolvedStmt} (hplaced : Placed s.2 ctx.env (.stmt t)) :
    Leads s Completes (Recorded.steps.stmtStep eval exec rounds ctx t s) := by
  cases t with
  | expression e =>
    refine .bind (heval ctx e s hs (hplaced.part List.mem_cons_self)) ?_
    exact fun _ s₁ hs₁ _ _ => .pure hs₁ trivial
  | print e =>
    refine .bind (heval ctx e s hs (hplaced.part List.mem_cons_self)) fun v s₁ hs₁ _ _ => ?_
    refine .bind (leads_lift hs₁ (.printLine v.text)) fun _ s₂ hs₂ _ _ => ?_
    exact .pure hs₂ trivial
  | var name initial =>
    have hname : Unreserved name.text := hplaced.unreserved _ List.mem_cons_self
    have hinitial : ∀ e, initial = some e → Placed s.2 ctx.env (.expr e) := by
      rintro e rfl
      exact hplaced.part List.mem_cons_self
    refine .bind (leads_optional heval hs hinitial) fun v s₁ hs₁ _ hv => ?_
    refine .bind (leads_define hs₁ ctx.env hname hv) fun _ s₂ hs₂ _ _ => ?_
    exact .pure hs₂ trivial
  | block body =>
    refine .bind (leads_newScope hs (hplaced.chain hs.sound)) fun scope s₁ hs₁ hlater₁ hscope => ?_
    refine leads_sequence hs₁ fun t ht s' hs' hlater => ?_
    have hpart : ([.body], Code.stmt t) ∈ (Code.stmt (.block body)).parts :=
      List.mem_map.mpr ⟨t, ht, rfl⟩
    exact hexec _ t s' hs'
      ((hplaced.mono (hlater₁.trans hlater).subset).body hpart (hlater.subset hscope.1))
  | branch condition onTrue onFalse =>
    have hcondition : Placed s.2 ctx.env (.expr condition) := by
      cases onFalse <;> exact hplaced.part List.mem_cons_self
    have htrue : Placed s.2 ctx.env (.stmt onTrue) := by
      cases onFalse <;> exact hplaced.part (.tail _ (.head _))
    refine .bind (heval ctx condition s hs hcondition) fun v s₁ hs₁ hlater₁ _ => ?_
    cases v.truthy with
    | true => exact hexec ctx onTrue s₁ hs₁ (htrue.mono hlater₁.subset)
    | false =>
      cases onFalse with
      | none => exact .pure hs₁ trivial
      | some t =>
        have hfalse : Placed s.2 ctx.env (.stmt t) := hplaced.part (.tail _ (.tail _ (.head _)))
        exact hexec ctx t s₁ hs₁ (hfalse.mono hlater₁.subset)
  | loop condition body =>
    have hcondition : Placed s.2 ctx.env (.expr condition) := hplaced.part List.mem_cons_self
    have hbody : Placed s.2 ctx.env (.stmt body) := hplaced.part (.tail _ (.head _))
    exact leads_whileLoop hs
      (fun s' hs' hlater => heval ctx condition s' hs' (hcondition.mono hlater.subset))
      (fun s' hs' hlater => hexec ctx body s' hs' (hbody.mono hlater.subset)) rounds
  | function decl =>
    have hname : Unreserved decl.name.text := hplaced.unreserved _ List.mem_cons_self
    have hclosure : ClosureFits s.2 (Eval.closureOf ctx.env decl false) :=
      hplaced.closureFits (fun t ht => List.mem_map.mpr ⟨t, ht, rfl⟩)
        fun _ hx => List.mem_cons_of_mem _ hx
    refine .bind (leads_newFunction hs hclosure) fun f s₁ hs₁ _ hf => ?_
    refine .bind (leads_define hs₁ ctx.env hname hf) fun _ s₂ hs₂ _ _ => ?_
    exact .pure hs₂ trivial
  | ret line value =>
    have hvalue : ∀ e, value = some e → Placed s.2 ctx.env (.expr e) := by
      rintro e rfl
      exact hplaced.part List.mem_cons_self
    refine .bind (leads_optional heval hs hvalue) fun v s₁ hs₁ _ hv => ?_
    exact .pure hs₁ hv
  | classDecl name superclass methods =>
    have htext : Placed s.2 ctx.env (.stmt (ClassText.mk name superclass methods).statement) :=
      hplaced
    exact .bind (leads_declareClass hs htext) fun _ s₁ hs₁ _ _ => .pure hs₁ trivial

end Walk

/-- Expressions and statements keep the heap in order, however deep. -/
theorem leads_walk (rounds n : Nat) :
    EvalKeeps (Recorded.steps.expr rounds n) ∧ ExecKeeps (Recorded.steps.stmt rounds n) := by
  induction n with
  | zero => exact ⟨fun _ _ _ hs _ => leads_abort hs, fun _ _ _ hs _ => leads_abort hs⟩
  | succ n ih =>
    obtain ⟨heval, hexec⟩ := ih
    refine ⟨fun ctx e s hs hplaced => ?_, fun ctx t s hs hplaced => ?_⟩
    · refine .bind (leads_takeUp hs hplaced) fun _ s₁ hs₁ hlater₁ _ => ?_
      exact leads_exprStep heval hexec hs₁ (hplaced.mono hlater₁.subset)
    · exact leads_stmtStep heval hexec rounds hs hplaced

/-- A run of an accepted program keeps the heap in order. -/
theorem leads_program (limits : Limits) (ctx : Context) {program : List ResolvedStmt} (last : Value)
    {s : Machine × Chronicle} (hs : InOrder s)
    (hplaced : ∀ t ∈ program, Placed s.2 ctx.env (.stmt t)) :
    Leads s (fun _ _ => True) (Recorded.steps.program limits ctx program last s) := by
  obtain ⟨heval, hexec⟩ := leads_walk limits.rounds limits.nesting
  induction program generalizing last s with
  | nil => exact .pure hs trivial
  | cons t program ih =>
    obtain ⟨ht, hrest⟩ := List.forall_mem_cons.mp hplaced
    have hlater {s' : Machine × Chronicle} (hlater : Later s s') :
        ∀ t ∈ program, Placed s'.2 ctx.env (.stmt t) :=
      fun t ht => (hrest t ht).mono hlater.subset
    cases t with
    | expression e =>
      refine .bind (heval ctx e s hs (ht.part List.mem_cons_self)) fun v s₁ hs₁ hlater₁ _ => ?_
      exact ih v hs₁ (hlater hlater₁)
    | _ =>
      refine .bind (hexec ctx _ s hs ht) fun _ s₁ hs₁ hlater₁ _ => ?_
      exact ih .nil hs₁ (hlater hlater₁)

end Treewalk
