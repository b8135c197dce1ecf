import Treewalk.Proofs.Returns.Discipline

/-! # Runs keep the rules of control

    Whatever a run of an accepted program does, and wherever it is cut short, its log
    keeps the rules and is not left in the middle of a return (`goes_program`).  The
    argument goes over the walk.  What it adds to the upkeep of the heap is which body
    runs: an expression leaves all bodies running that ran before, and a statement all
    but its own, if it returns. -/

namespace Treewalk

/-! ### Outcomes -/

/-- The outcome of a computation: a later state with what is expected, or a calm one in
    which it is cut short. -/
inductive Goes {α : Type} (site : Option Activation) (s : ControlState)
    (post : α → ControlState → Prop) : EStateM.Result Abort ControlState α → Prop
  | ok {a s'} : Onward site s s' → post a s' → Goes site s post (.ok a s')
  | error {cut s'} : Calm s' → Goes site s post (.error cut s')

namespace Goes

variable {α β : Type} {site : Option Activation} {s s' : ControlState}
  {post : α → ControlState → Prop} {post' : β → ControlState → Prop} {x : Controlled α}
  {out : EStateM.Result Abort ControlState α}

theorem pure {a : α} (ha : post a s) : Goes site s post ((pure a : Controlled α) s) :=
  .ok (.refl site s) ha

theorem after (hon : Onward site s s') (h : Goes site s' post out) : Goes site s post out := by
  cases h with
  | ok hon' ha => exact .ok (hon.trans hon') ha
  | error hs => exact .error hs

theorem imp {post₁ : α → ControlState → Prop} (h : Goes site s post out)
    (himp : ∀ a s', Onward site s s' → post a s' → post₁ a s') : Goes site s post₁ out := by
  cases h with
  | ok hon ha => exact .ok hon (himp _ _ hon ha)
  | error hs => exact .error hs

theorem weaken (h : Goes none s post out) (site : Option Activation) : Goes site s post out := by
  cases h with
  | ok hon ha => exact .ok (hon.weaken site) ha
  | error hs => exact .error hs

theorem bind {f : α → Controlled β} (hx : Goes site s post (x s))
    (hf : ∀ a s', Onward site s s' → post a s' → Goes site s' post' (f a s')) :
    Goes site s post' ((x >>= f) s) := by
  generalize hrun : x s = out at hx
  cases hx with
  | ok hon ha =>
    rw [bind_of_ok hrun]
    exact (hf _ _ hon ha).after hon
  | error hs =>
    rw [bind_of_error hrun]
    exact .error hs

/-- A body still runs after what leaves all bodies running. -/
theorem within (h : Goes none s post out) (hrun : Running s.2 site) :
    Goes site s (fun a s' => post a s' ∧ Running s'.2 site) out :=
  (h.imp fun _ _ hon ha => ⟨ha, hon.running hrun⟩).weaken site

/-- A body that was not running before is no exception. -/
theorem enclose {a : Activation} (h : Goes (some a) s' post out) (hon : Onward none s s')
    (hnew : ¬ Running s.2 (some a)) : Goes none s post out := by
  cases h with
  | error hs => exact .error hs
  | ok hon' ha =>
    refine .ok ⟨hon.heap.trans hon'.heap, fun site' _ hrun => ?_⟩ ha
    refine hon'.others site' ?_ (hon.running hrun)
    rintro rfl
    exact hnew hrun

end Goes

/-- The value fits, and anything may come next. -/
def Given (v : Value) (s : ControlState) : Prop := Calm s ∧ Yields v s.1

/-- How the log is left by a statement that stands there. -/
def Left (site : Option Activation) : Completion → ControlState → Prop
  | .normal, s => Calm s ∧ Running s.2 site
  | .returned v, s => InControl s ∧ Yields v s.1 ∧ ∃ a earlier, site = some a ∧
    s.2 = .returns site v :: earlier ∧ Running earlier site ∧
    (a.closure.isInitializer = true → v = .nil)

/-- The phrase is at its place in the environment, and is executed as a part of the
    body, whose function fits. -/
structure Attended (h : Chronicle) (site : Option Activation) (ctx : Context) (ph : Code) :
    Prop where
  placed : Placed h ctx.env ph
  owned : Owns site ph
  fits : ∀ a, site = some a → ClosureFits h a.closure

namespace Attended

variable {h h' : Chronicle} {site : Option Activation} {ctx : Context} {ph inner : Code}

theorem mono (hph : Attended h site ctx ph) (hle : h ⊆ h') : Attended h' site ctx ph :=
  ⟨hph.placed.mono hle, hph.owned, fun a ha => (hph.fits a ha).mono hle⟩

theorem owns (hph : Attended h site ctx ph) (hown : ph.holdsBodies = false) {zones : List Zone}
    (hpart : (zones, inner) ∈ ph.parts) : Owns site inner := by
  have howned := hph.owned
  cases site with
  | none =>
    obtain ⟨program, hprogram, hpart'⟩ := howned
    exact ⟨program, hprogram, hpart'.part hown hpart⟩
  | some a => exact PartOf.part howned hown hpart

theorem part (hph : Attended h site ctx ph) (hown : ph.holdsBodies = false)
    (hpart : ([], inner) ∈ ph.parts) : Attended h site ctx inner :=
  ⟨hph.placed.part hpart, hph.owns hown hpart, hph.fits⟩

theorem body (hph : Attended h site ctx ph) (hown : ph.holdsBodies = false)
    (hpart : ([.body], inner) ∈ ph.parts) {scope : ScopeId} (hopen : .opens scope ctx.env ∈ h) :
    Attended h site { ctx with env := scope :: ctx.env } inner :=
  ⟨hph.placed.body hpart hopen, hph.owns hown hpart, hph.fits⟩

end Attended

/-! ### Elementary steps -/

section Elementary

variable {α β : Type} {site : Option Activation} {s : ControlState} {ctx : Context}

/-- What keeps the heap in order and logs nothing. -/
theorem goes_lift {x : Recorded α} {post : α → Machine × Chronicle → Prop} (hs : Calm s)
    (hx : Leads s.1 post (x s.1)) :
    Goes site s (fun a s' => Calm s' ∧ post a s'.1) (Controlled.lift x s) := by
  unfold Controlled.lift
  cases hrun : x s.1 with
  | ok a r =>
    rw [hrun] at hx
    cases hx with
    | ok hr hlater ha =>
      exact .ok ⟨hlater, fun _ _ hrun => hrun⟩ ⟨⟨hs.advance hr hlater, hs.rest⟩, ha⟩
  | error cut r =>
    rw [hrun] at hx
    cases hx with
    | error hr hlater => exact .error ⟨hs.advance hr hlater, hs.rest⟩

theorem goes_abort {post : α → ControlState → Prop} {fault : Fault} (hs : Calm s) :
    Goes site s post (Controlled.step (Eval.abort ctx fault) s) :=
  .error hs

theorem Controlled.note_bind (e : ControlEvent) (f : Unit → Controlled β) (s : ControlState) :
    (Controlled.note e >>= f) s = f () (s.1, e :: s.2) :=
  rfl

/-- What comes behind an event that closes no other body. -/
theorem goes_note {e : ControlEvent} {f : Unit → Controlled β} {post : β → ControlState → Prop}
    (hclose : ∀ a, some a ≠ site → ¬ e.Closes a)
    (hf : Goes site (s.1, e :: s.2) post (f () (s.1, e :: s.2))) :
    Goes site s post ((Controlled.note e >>= f) s) := by
  have hon : Onward site s (s.1, e :: s.2) := by
    refine ⟨.refl _, fun site' hne hrun => hrun.cons ?_⟩
    rintro a rfl
    exact hclose a hne
  exact hf.after hon

/-- Taking up a phrase. -/
theorem Calm.takesUp {ph : Code} (hs : Calm s) (hrun : Running s.2 site) (hown : Owns site ph) :
    Calm (s.1, .takesUp site ph :: s.2) :=
  ⟨hs.note ⟨hs.rest, hrun, hown⟩ (hs.number_lt hrun), trivial⟩

end Elementary

/-! ### Sequences and loops -/

/-- Expressions at their places yield what fits. -/
def EvalGoes (eval : Controlled.Spot → ResolvedExpr → Controlled Value) : Prop :=
  ∀ site ctx e s, Calm s → Running s.2 site → Attended s.1.2 site ctx (.expr e) →
    Goes none s Given (eval ⟨site, ctx⟩ e s)

/-- Statements at their places leave the log as they should. -/
def ExecGoes (exec : Controlled.Spot → ResolvedStmt → Controlled Completion) : Prop :=
  ∀ site ctx t s, Calm s → Running s.2 site → Attended s.1.2 site ctx (.stmt t) →
    Goes site s (Left site) (exec ⟨site, ctx⟩ t s)

section Sequences

variable {site : Option Activation} {s : ControlState} {ctx : Context}

theorem goes_inOrder {f : ResolvedExpr → Controlled Value} {es : List ResolvedExpr} (hs : Calm s)
    (hf : ∀ e ∈ es, ∀ s', Calm s' → Onward none s s' → Goes none s' Given (f e s')) :
    Goes none s (fun vs s' => Calm s' ∧ ∀ v ∈ vs, Yields v s'.1) (Eval.inOrder f es s) := by
  induction es generalizing s with
  | nil => exact .pure ⟨hs, nofun⟩
  | cons e es ih =>
    obtain ⟨he, hes⟩ := List.forall_mem_cons.mp hf
    refine .bind (he s hs (.refl none s)) ?_
    rintro v s₁ hon₁ ⟨hs₁, hv⟩
    have hrest := ih hs₁ fun e he s' hs' hon => hes e he s' hs' (hon₁.trans hon)
    refine .bind hrest ?_
    rintro vs s₂ hon₂ ⟨hs₂, hvs⟩
    exact .pure ⟨hs₂, List.forall_mem_cons.mpr ⟨hv.later hon₂.heap, hvs⟩⟩

/-- Nothing is executed behind a statement that returns. -/
theorem goes_sequence {f : ResolvedStmt → Controlled Completion} {ss : List ResolvedStmt}
    (hs : Calm s) (hrun : Running s.2 site)
    (hf : ∀ t ∈ ss, ∀ s', Calm s' → Running s'.2 site → Onward site s s' →
      Goes site s' (Left site) (f t s')) :
    Goes site s (Left site) (Eval.sequence f ss s) := by
  induction ss generalizing s with
  | nil => exact .pure ⟨hs, hrun⟩
  | cons t ss ih =>
    obtain ⟨ht, hss⟩ := List.forall_mem_cons.mp hf
    refine .bind (ht s hs hrun (.refl site s)) fun completion s₁ hon₁ hleft => ?_
    cases completion with
    | returned v => exact .pure hleft
    | normal =>
      exact ih hleft.1 hleft.2 fun t ht s' hs' hrun' hon => hss t ht s' hs' hrun' (hon₁.trans hon)

/-- Neither is another round of a loop whose body returns. -/
theorem goes_whileLoop {condition : Controlled Value} {body : Controlled Completion} (hs : Calm s)
    (hrun : Running s.2 site)
    (hc : ∀ s', Calm s' → Running s'.2 site → Onward site s s' → Goes none s' Given (condition s'))
    (hb : ∀ s', Calm s' → Running s'.2 site → Onward site s s' →
      Goes site s' (Left site) (body s')) (n : Nat) :
    Goes site s (Left site)
      (Eval.whileLoop (Controlled.step (Eval.abort ctx .endless)) condition body n s) := by
  induction n generalizing s with
  | zero => exact goes_abort hs
  | succ n ih =>
    refine .bind ((hc s hs hrun (.refl site s)).within hrun) ?_
    rintro v s₁ hon₁ ⟨⟨hs₁, -⟩, hrun₁⟩
    cases v.truthy with
    | false => exact .pure ⟨hs₁, hrun₁⟩
    | true =>
      refine .bind (hb s₁ hs₁ hrun₁ hon₁) fun completion s₂ hon₂ hleft => ?_
      have hon := hon₁.trans hon₂
      cases completion with
      | returned v => exact .pure hleft
      | normal =>
        exact ih hleft.1 hleft.2 (fun s' hs' hrun' h => hc s' hs' hrun' (hon.trans h))
          fun s' hs' hrun' h => hb s' hs' hrun' (hon.trans h)

end Sequences

/-! ### Calls -/

section Calls

variable {exec : Controlled.Spot → ResolvedStmt → Controlled Completion}
  {s : ControlState} {ctx : Context}

/-- A body that is left has ended. -/
theorem Left.ends {a : Activation} {completion : Completion} (hs : Left (some a) completion s) :
    InControl (s.1, .ends a completion :: s.2) := by
  cases completion with
  | normal =>
    obtain ⟨hs, hrun⟩ := hs
    exact hs.note ⟨⟨hs.rest, hrun⟩, fun _ => rfl⟩ fun n hn => hs.numbered _ hrun.1 n hn
  | returned v =>
    obtain ⟨hs, -, a', earlier, ha, heq, hrun, hnil⟩ := hs
    cases ha
    have hbegun : .begins a ∈ s.2 := by
      rw [heq]
      exact List.mem_cons_of_mem _ hrun.1
    exact hs.note ⟨⟨earlier, heq, hrun⟩, hnil⟩ fun n hn => hs.numbered _ hbegun n hn

/-- What the function yields then. -/
theorem Left.value {site : Option Activation} {completion : Completion}
    (hs : Left site completion s) : Yields completion.value s.1 := by
  cases completion with
  | normal => trivial
  | returned v => exact hs.2.1

/-- The body of a function has ended, and its call has a value to yield. -/
structure BodyDone (n : Nat) (c : Closure) (v : Value) (s : ControlState) : Prop where
  control : InControl s
  fits : Yields v s.1
  ended : ∃ completion earlier, s.2 = .ends ⟨n, c⟩ completion :: earlier ∧
    (Activation.mk n c).Delivers s.1.2 completion v

theorem ControlEvent.Closes.number? {e : ControlEvent} {a : Activation} (h : e.Closes a) :
    e.number? = some a.number := by
  cases e with
  | returns site v =>
    cases h
    rfl
  | ends a' completion =>
    cases h
    rfl
  | _ => cases h

/-- Right behind a call, its body begins. -/
theorem InControl.begins (hs : InControl s) {a : Activation} {callee : Value}
    {earlier : ControlLog} (hlog : s.2 = .calls a.number callee :: earlier)
    (hruns : callee.Runs a.closure) :
    Calm (s.1, .begins a :: s.2) ∧ Running (.begins a :: s.2) (some a) ∧
      ¬ Running s.2 (some a) := by
  have hrules := hs.rules
  rw [hlog] at hrules
  obtain ⟨⟨-, hfresh⟩, -⟩ := hrules
  -- of the events so far, only the call has its number
  have honly (e : ControlEvent) (he : e ∈ s.2) (hn : e.number? = some a.number) :
      e = .calls a.number callee := by
    rw [hlog] at he
    rcases List.mem_cons.mp he with heq | he
    · exact heq
    · exact absurd hn (hfresh e he)
  have hcalled : .calls a.number callee ∈ s.2 := by
    rw [hlog]
    exact List.mem_cons_self
  refine ⟨⟨hs.note ⟨callee, earlier, hlog, hruns⟩ fun n hn => hs.numbered _ hcalled n hn, trivial⟩,
    ⟨List.mem_cons_self, List.forall_mem_cons.mpr ⟨id, fun e he hclose => ?_⟩⟩, ?_⟩
  · cases honly e he hclose.number?
    exact hclose
  · rintro ⟨hbegun, -⟩
    cases honly _ hbegun rfl

theorem goes_runClosure (hexec : ExecGoes exec) (hs : InControl s) {n : Nat} {callee : Value}
    {earlier : ControlLog} (hlog : s.2 = .calls n callee :: earlier) (frames : List Frame)
    {c : Closure} (hruns : callee.Runs c) (hc : ClosureFits s.1.2 c) {args : List Value}
    (hargs : ∀ v ∈ args, Yields v s.1) :
    Goes none s (BodyDone n c) (Controlled.steps.runClosure exec ⟨n, frames⟩ c args s) := by
  let a : Activation := ⟨n, c⟩
  obtain ⟨hs₁, hrun₁, hnew⟩ := hs.begins (show s.2 = .calls a.number callee :: earlier from hlog) hruns
  have hon₁ : Onward none s (s.1, .begins a :: s.2) :=
    ⟨.refl _, fun _ _ hrun => hrun.cons fun _ _ => id⟩
  suffices hrest : Goes (some a) (s.1, .begins a :: s.2) (BodyDone n c)
      (Controlled.steps.runClosure exec ⟨n, frames⟩ c args s) from hrest.enclose hon₁ hnew
  have hfits := hc
  obtain ⟨program, zone, zones, hprogram, henv, hbody, hparams, -⟩ := hfits
  show Goes (some a) _ (BodyDone n c)
    (Controlled.body ⟨n, frames⟩ c args (fun spot => Eval.sequence (exec spot) c.body) s)
  unfold Controlled.body
  rw [Controlled.note_bind]
  refine .bind ((goes_lift hs₁ (leads_newScope hs₁.inOrder (henv.chain hs.inOrder.sound))).within
    hrun₁) ?_
  rintro scope s₂ hon₂ ⟨⟨hs₂, hopen, -, -⟩, hrun₂⟩
  refine .bind ((goes_lift hs₂ (leads_bindParams hs₂.inOrder _ hparams fun v hv =>
    (hargs v hv).later hon₂.heap)).within hrun₂) ?_
  rintro - s₃ hon₃ ⟨⟨hs₃, -⟩, hrun₃⟩
  have hle : s.1.2 ⊆ s₃.1.2 := fun r hr => hon₃.subset (hon₂.subset hr)
  have hinside : Mirrors s₃.1.2 (zone :: zones) (scope :: c.env) :=
    (henv.mono hle).enter (hon₃.subset hopen)
  refine .bind (goes_sequence hs₃ hrun₃ fun t ht s' hs' hrun' hon => ?_) ?_
  · refine hexec (some a) _ t s' hs' hrun' ⟨?_, .statement ht, ?_⟩
    · exact ⟨program, _, hprogram, hbody t ht, hinside.mono hon.subset⟩
    · rintro _ ⟨⟩
      exact (hc.mono hle).mono hon.subset
  · intro completion s₄ hon₄ hleft
    have hended := hleft.ends
    refine goes_note (fun a' hne heq => hne (congrArg some (Eq.symm heq))) ?_
    cases hinit : c.isInitializer with
    | true =>
      obtain ⟨receiver, hbound, hreceiver, hthis⟩ := ((hc.mono hle).mono hon₄.subset).receiver
        hended.inOrder.sound hended.inOrder.kept hinit
      show Goes (some a) _ _ (Controlled.step (Eval.access _ (s₄.1.1.store.getAt c.env 0 _)) _)
      rw [hthis]
      refine .pure ⟨hended, hreceiver, completion, s₄.2, rfl, ?_⟩
      unfold Activation.Delivers
      rw [if_pos hinit]
      exact hbound
    | false =>
      refine .pure ⟨hended, hleft.value, completion, s₄.2, rfl, ?_⟩
      unfold Activation.Delivers
      rw [if_neg (by rw [hinit]; nofun)]

/-- The call has a value to yield. -/
structure CallDone (n : Nat) (v : Value) (s : ControlState) : Prop where
  control : InControl s
  fits : Yields v s.1
  yields : (ControlEvent.yields n v).Fits s.1.2 s.2

theorem BodyDone.callDone {n : Nat} {c : Closure} {v : Value} (hs : BodyDone n c v s) :
    CallDone n v s := by
  obtain ⟨completion, earlier, heq, hv⟩ := hs.ended
  exact ⟨hs.control, hs.fits, .inl ⟨⟨n, c⟩, completion, earlier, heq, rfl, hv⟩⟩

theorem bindMethod_runs (method : Closure) (receiver : Value) (r : Machine × Chronicle) :
    ∃ scope r', Recorded.bindMethod method receiver r =
        .ok { method with env := scope :: method.env } r' ∧
      .binds scope method receiver ∈ r'.2 :=
  ⟨_, _, rfl, List.mem_cons_self⟩

/-- The object that is made is the receiver of the initializer, and the call of the class
    yields it. -/
theorem goes_instantiate (hexec : ExecGoes exec) (hs : InControl s) {n id : Nat} {d : Class}
    {earlier : ControlLog} (hlog : s.2 = .calls n (.cls id d) :: earlier) (frames : List Frame)
    (hd : ClassFits s.1.2 id d) {args : List Value} (hargs : ∀ v ∈ args, Yields v s.1) :
    Goes none s (CallDone n) (Controlled.steps.instantiate exec ⟨n, frames⟩ id d args s) := by
  let object : Value := .object s.1.1.store.objects.size d
  let r₁ : Machine × Chronicle := ({ s.1.1 with store := s.1.1.store.newObject.2 },
    .makes s.1.1.store.objects.size id :: s.1.2)
  obtain ⟨hin₁, hlater₁⟩ : InOrder r₁ ∧ Later s.1 r₁ := hs.inOrder.make hd
  have hd₁ := hd.mono hlater₁.subset
  have hobject : ValueFits r₁.2 object := ⟨id, List.mem_cons_self, hd₁⟩
  have hs₁ := hs.advance hin₁ hlater₁
  have hon₁ : Onward none s (r₁, s.2) := ⟨hlater₁, fun _ _ h => h⟩
  unfold Steps.instantiate
  refine .after hon₁ ?_
  cases hfound : d.initializer? with
  | none =>
    refine .pure ⟨hs₁, hobject, .inr ⟨_, earlier, hlog, ?_⟩⟩
    rintro c ⟨method, env, hsome, -⟩
    rw [hfound] at hsome
    cases hsome
  | some method =>
    show Goes none (r₁, s.2) _ ((Controlled.lift (Recorded.bindMethod method object) >>= fun bound =>
      Controlled.steps.runClosure exec ⟨n, frames⟩ bound args >>= fun _ => pure object) (r₁, s.2))
    obtain ⟨scope, r₂, hrun, hbinds⟩ := bindMethod_runs method object r₁
    have hleads := leads_bindMethod hin₁ (hd₁.findMethod? hin₁.sound hfound) hobject
    rw [hrun] at hleads
    cases hleads with
    | ok hin₂ hlater₂ hbound =>
      have hlift : Controlled.lift (Recorded.bindMethod method object) (r₁, s.2) =
          .ok { method with env := scope :: method.env } (r₂, s.2) := by
        simp only [Controlled.lift, hrun]
      have hargs₂ (v : Value) (hv : v ∈ args) : Yields v r₂ :=
        (hargs v hv).later (hlater₁.trans hlater₂)
      rw [bind_of_ok hlift]
      have hon₂ : Onward none (r₁, s.2) (r₂, s.2) := ⟨hlater₂, fun _ _ h => h⟩
      refine .after hon₂ (.bind (goes_runClosure hexec (hs₁.advance hin₂ hlater₂) hlog frames
        ⟨method, _, hfound, rfl⟩ hbound hargs₂) ?_)
      intro v s₃ hon₃ hdone
      obtain ⟨completion, earlier', heq, -⟩ := hdone.ended
      refine .pure ⟨hdone.control, (hobject.mono hlater₂.subset).mono hon₃.subset,
        .inl ⟨_, completion, earlier', heq, rfl, ?_⟩⟩
      unfold Activation.Delivers
      rw [if_pos (hd₁.isInitializer hin₁.sound hfound)]
      exact ⟨scope, method, hon₃.subset hbinds, rfl⟩

theorem goes_run (hexec : ExecGoes exec) (hs : InControl s) {n : Nat} {callee : Value}
    {earlier : ControlLog} (hlog : s.2 = .calls n callee :: earlier) (frames : List Frame)
    (hcallee : Yields callee s.1) {args : List Value} (hargs : ∀ v ∈ args, Yields v s.1) :
    Goes none s (CallDone n) (Controlled.steps.run exec ⟨n, frames⟩ args callee s) := by
  cases callee with
  | native id f =>
    cases f
    have hclock : Leads s.1 _ (Recorded.lift Eval.readClock s.1) := leads_lift hs.inOrder .readClock
    change Leads s.1 _ (.ok _ (_, s.1.2)) at hclock
    cases hclock with
    | ok hin hlater _ =>
      exact .ok ⟨hlater, fun _ _ h => h⟩
        ⟨hs.advance hin hlater, trivial, .inr ⟨_, earlier, hlog, fun _ h => h⟩⟩
  | function id c =>
    exact (goes_runClosure hexec hs hlog frames rfl hcallee hargs).imp fun _ _ _ h => h.callDone
  | cls id d => exact goes_instantiate hexec hs hlog frames hcallee hargs
  | _ => exact .pure ⟨hs, trivial, .inr ⟨_, earlier, hlog, fun _ h => h⟩⟩

/-- A call that has passed its checks. -/
theorem Calm.calls (hs : Calm s) {callee : Value} (hcallee : Yields callee s.1) {args : List Value}
    (hargs : ∀ v ∈ args, Yields v s.1) (line : Int) :
    InControl ((s.1.1, .calls (callCount s.1.2) callee args line :: s.1.2),
        .calls (callCount s.1.2) callee :: s.2) ∧
      Onward none s ((s.1.1, .calls (callCount s.1.2) callee args line :: s.1.2),
        .calls (callCount s.1.2) callee :: s.2) ∧
      callCount s.1.2 < callCount (.calls (callCount s.1.2) callee args line :: s.1.2) := by
  have hlt : callCount s.1.2 < callCount (.calls (callCount s.1.2) callee args line :: s.1.2) := by
    unfold callCount
    rw [List.countP_cons_of_pos rfl]
    exact Nat.lt_succ_self _
  obtain ⟨hin, hlater⟩ : InOrder (s.1.1, .calls (callCount s.1.2) callee args line :: s.1.2) ∧ _ :=
    hs.inOrder.record ⟨hcallee, hargs⟩ rfl rfl trivial
  refine ⟨(hs.advance hin hlater).note ⟨hs.rest, fun e he hn => ?_⟩ ?_,
    ⟨hlater, fun _ _ hrun => hrun.cons fun _ _ => id⟩, hlt⟩
  · exact Nat.lt_irrefl _ (hs.numbered e he _ hn)
  · rintro n ⟨⟩
    exact hlt

/-- A call that yields its value. -/
theorem CallDone.yield {n : Nat} {v : Value} (hs : CallDone n v s) (hn : n < callCount s.1.2) :
    Calm ((s.1.1, .returns n v :: s.1.2), .yields n v :: s.2) ∧
      Onward none s ((s.1.1, .returns n v :: s.1.2), .yields n v :: s.2) := by
  obtain ⟨hin, hlater⟩ : InOrder (s.1.1, .returns n v :: s.1.2) ∧ _ :=
    hs.control.inOrder.record hs.fits rfl rfl trivial
  refine ⟨⟨(hs.control.advance hin hlater).note (hs.yields.mono hlater.subset) ?_, trivial⟩,
    ⟨hlater, fun _ _ hrun => hrun.cons fun _ _ => id⟩⟩
  rintro m ⟨⟩
  exact Nat.lt_of_lt_of_le hn hlater.chronicle.sublist.countP_le

theorem goes_apply (hexec : ExecGoes exec) (hs : Calm s) (line : Int) {callee : Value}
    (hcallee : Yields callee s.1) {args : List Value} (hargs : ∀ v ∈ args, Yields v s.1) :
    Goes none s Given (Controlled.steps.apply exec ⟨site, ctx⟩ line callee args s) := by
  unfold Steps.apply
  cases callee.signature? with
  | none => exact goes_abort hs
  | some signature =>
    obtain ⟨name, arity⟩ := signature
    by_cases hlength : args.length = arity
    · simp only [if_pos hlength]
      obtain ⟨hs₁, hon₁, hlt⟩ := hs.calls hcallee hargs line
      refine .after hon₁ ?_
      show Goes none _ Given ((Controlled.steps.run exec
        ⟨callCount s.1.2, ⟨name, line⟩ :: ctx.frames⟩ args callee >>= fun v =>
          Controlled.lift (Recorded.note (.returns (callCount s.1.2) v)) >>= fun _ =>
          Controlled.note (.yields (callCount s.1.2) v) >>= fun _ => pure v) _)
      refine .bind (goes_run hexec hs₁ rfl _ (hcallee.later hon₁.heap) fun v hv =>
        (hargs v hv).later hon₁.heap) fun v s₂ hon₂ hdone => ?_
      obtain ⟨hs₃, hon₃⟩ := hdone.yield
        (Nat.lt_of_lt_of_le hlt hon₂.heap.chronicle.sublist.countP_le)
      exact .ok hon₃ ⟨hs₃, hdone.fits.later hon₃.heap⟩
    · simp only [if_neg hlength]
      exact goes_abort hs

end Calls

/-! ### The walk -/

section Walk

variable {eval : Controlled.Spot → ResolvedExpr → Controlled Value}
  {exec : Controlled.Spot → ResolvedStmt → Controlled Completion} {s : ControlState}
  {ctx : Context} {site : Option Activation}

/-- An expression leaves all bodies running, if its parts do. -/
theorem goes_exprStep (heval : EvalGoes eval) (hexec : ExecGoes exec) (hs : Calm s)
    (hrun : Running s.2 site) {e : ResolvedExpr} (he : Attended s.1.2 site ctx (.expr e)) :
    Goes none s Given (Controlled.steps.exprStep eval exec ⟨site, ctx⟩ e s) := by
  cases e with
  | literal value =>
    refine .pure ⟨hs, ?_⟩
    cases value <;> trivial
  | group inner => exact heval site ctx inner s hs hrun (he.part rfl List.mem_cons_self)
  | unary op line operand =>
    refine .bind (heval site ctx operand s hs hrun (he.part rfl List.mem_cons_self)) ?_
    rintro v s₁ - ⟨hs₁, -⟩
    exact goes_lift hs₁ (leads_operator hs₁.inOrder line fun _ => unary_constant)
  | binary op line left right =>
    refine .bind (heval site ctx left s hs hrun (he.part rfl List.mem_cons_self)) ?_
    rintro a s₁ hon₁ ⟨hs₁, -⟩
    refine .bind (heval site ctx right s₁ hs₁ (hon₁.running hrun)
      ((he.part rfl (.tail _ (.head _))).mono hon₁.subset)) ?_
    rintro b s₂ - ⟨hs₂, -⟩
    exact goes_lift hs₂ (leads_operator hs₂.inOrder line fun _ => binary_constant)
  | logical op line left right =>
    refine .bind (heval site ctx left s hs hrun (he.part rfl List.mem_cons_self)) ?_
    rintro v s₁ hon₁ ⟨hs₁, hv⟩
    cases op.decided v with
    | true => exact .pure ⟨hs₁, hv⟩
    | false =>
      exact heval site ctx right s₁ hs₁ (hon₁.running hrun)
        ((he.part rfl (.tail _ (.head _))).mono hon₁.subset)
  | «variable» name use => exact goes_lift hs (leads_lookUp hs.inOrder name use)
  | assign name use value =>
    have hname : Unreserved name.text := he.placed.unreserved _ List.mem_cons_self
    refine .bind (heval site ctx value s hs hrun (he.part rfl List.mem_cons_self)) ?_
    rintro v s₁ - ⟨hs₁, hv⟩
    refine .bind (goes_lift hs₁ (leads_assignTo hs₁.inOrder use hname hv)) ?_
    exact fun _ s₂ hon₂ hs₂ => .pure ⟨hs₂.1, hv.later hon₂.heap⟩
  | call callee arguments line =>
    refine .bind (heval site ctx callee s hs hrun (he.part rfl List.mem_cons_self)) ?_
    rintro f s₁ hon₁ ⟨hs₁, hf⟩
    refine .bind (goes_inOrder hs₁ fun e hmem s' hs' hon => ?_) ?_
    · have hpart : ([], Code.expr e) ∈ (Code.expr (.call callee arguments line)).parts :=
        List.mem_cons_of_mem _ (List.mem_map.mpr ⟨e, hmem, rfl⟩)
      exact heval site ctx e s' hs' (hon.running (hon₁.running hrun))
        ((he.part rfl hpart).mono (hon₁.trans hon).subset)
    · rintro args s₂ hon₂ ⟨hs₂, hargs⟩
      exact goes_apply hexec hs₂ line (hf.later hon₂.heap) hargs
  | get object name =>
    refine .bind (heval site ctx object s hs hrun (he.part rfl List.mem_cons_self)) ?_
    rintro v s₁ - ⟨hs₁, hv⟩
    exact goes_lift hs₁ (leads_getProperty hs₁.inOrder hv name)
  | set object name value =>
    refine .bind (heval site ctx object s hs hrun (he.part rfl List.mem_cons_self)) ?_
    rintro o s₁ hon₁ ⟨hs₁, -⟩
    cases o with
    | object id d =>
      refine .bind (heval site ctx value s₁ hs₁ (hon₁.running hrun)
        ((he.part rfl (.tail _ (.head _))).mono hon₁.subset)) ?_
      rintro v s₂ - ⟨hs₂, hv⟩
      refine .bind (goes_lift hs₂ (leads_modify (·.setField id name.text v) hs₂.inOrder
        (hs₂.inOrder.kept.setField hv) (s₂.1.1.store.grows_setField _ _ _))) ?_
      exact fun _ s₃ hon₃ hs₃ => .pure ⟨hs₃.1, hv.later hon₃.heap⟩
    | _ => exact goes_abort hs₁
  | this line use => exact goes_lift hs (leads_lookUp hs.inOrder _ use)
  | super line use method => exact goes_lift hs (leads_getSuper hs.inOrder he.placed)
  | lambda line params body =>
    exact goes_lift hs (leads_newFunction hs.inOrder
      (he.placed.closureFits (fun t ht => List.mem_map.mpr ⟨t, ht, rfl⟩) fun _ hx => hx))

theorem goes_optional (heval : EvalGoes eval) (hs : Calm s) (hrun : Running s.2 site)
    {value : Option ResolvedExpr}
    (hvalue : ∀ e, value = some e → Attended s.1.2 site ctx (.expr e)) :
    Goes none s (fun v s' => Given v s' ∧ (value = none → v = .nil))
      (Steps.optional eval ⟨site, ctx⟩ value s) := by
  cases value with
  | some e => exact (heval site ctx e s hs hrun (hvalue e rfl)).imp fun v s' _ hv => ⟨hv, nofun⟩
  | none => exact .pure ⟨⟨hs, trivial⟩, fun _ => rfl⟩

/-- A `return` is executed in a body only, and without a value if that is the body of an
    initializer. -/
theorem Attended.ret {h : Chronicle} {line : Int} {value : Option ResolvedExpr}
    (ht : Attended h site ctx (.stmt (.ret line value))) (hsound : Sound h) :
    ∃ a, site = some a ∧ (a.closure.isInitializer = true → value = none) := by
  obtain ⟨-, hown, hfits⟩ := ht
  cases site with
  | none =>
    obtain ⟨program, hprogram, hpart⟩ := hown
    exact absurd hpart hprogram.not_ret
  | some a => exact ⟨a, rfl, fun hinit => (hfits a rfl).initializer_ret hsound hinit hown⟩

/-- A statement leaves the log as it should, if its parts do. -/
theorem goes_stmtStep (heval : EvalGoes eval) (hexec : ExecGoes exec) (rounds : Nat) (hs : Calm s)
    (hrun : Running s.2 site) {t : ResolvedStmt} (ht : Attended s.1.2 site ctx (.stmt t)) :
    Goes site s (Left site) (Controlled.steps.stmtStep eval exec rounds ⟨site, ctx⟩ t s) := by
  cases t with
  | expression e =>
    refine .bind ((heval site ctx e s hs hrun (ht.part rfl List.mem_cons_self)).within hrun) ?_
    exact fun _ s₁ _ h => .pure ⟨h.1.1, h.2⟩
  | print e =>
    refine .bind ((heval site ctx e s hs hrun (ht.part rfl List.mem_cons_self)).within hrun) ?_
    rintro v s₁ - ⟨⟨hs₁, -⟩, hrun₁⟩
    refine .bind ((goes_lift hs₁ (leads_lift hs₁.inOrder (.printLine v.text))).within hrun₁) ?_
    exact fun _ s₂ _ h => .pure ⟨h.1.1, h.2⟩
  | var name initial =>
    have hname : Unreserved name.text := ht.placed.unreserved _ List.mem_cons_self
    have hinitial : ∀ e, initial = some e → Attended s.1.2 site ctx (.expr e) := by
      rintro e rfl
      exact ht.part rfl List.mem_cons_self
    refine .bind ((goes_optional heval hs hrun hinitial).within hrun) ?_
    rintro v s₁ - ⟨⟨⟨hs₁, hv⟩, -⟩, hrun₁⟩
    refine .bind ((goes_lift hs₁ (leads_define hs₁.inOrder ctx.env hname hv)).within hrun₁) ?_
    exact fun _ s₂ _ h => .pure ⟨h.1.1, h.2⟩
  | block body =>
    refine .bind ((goes_lift hs (leads_newScope hs.inOrder
      (ht.placed.chain hs.inOrder.sound))).within hrun) ?_
    rintro scope s₁ hon₁ ⟨⟨hs₁, hopen, -, -⟩, hrun₁⟩
    refine goes_sequence hs₁ hrun₁ fun t hmem s' hs' hrun' hon => ?_
    have hpart : ([.body], Code.stmt t) ∈ (Code.stmt (.block body)).parts :=
      List.mem_map.mpr ⟨t, hmem, rfl⟩
    exact hexec site _ t s' hs' hrun'
      ((ht.mono (hon₁.trans hon).subset).body rfl hpart (hon.subset hopen))
  | branch condition onTrue onFalse =>
    have hcondition : Attended s.1.2 site ctx (.expr condition) := by
      cases onFalse <;> exact ht.part rfl List.mem_cons_self
    have htrue : Attended s.1.2 site ctx (.stmt onTrue) := by
      cases onFalse <;> exact ht.part rfl (.tail _ (.head _))
    refine .bind ((heval site ctx condition s hs hrun hcondition).within hrun) ?_
    rintro v s₁ hon₁ ⟨⟨hs₁, -⟩, hrun₁⟩
    cases v.truthy with
    | true => exact hexec site ctx onTrue s₁ hs₁ hrun₁ (htrue.mono hon₁.subset)
    | false =>
      cases onFalse with
      | none => exact .pure ⟨hs₁, hrun₁⟩
      | some t =>
        have hfalse : Attended s.1.2 site ctx (.stmt t) := ht.part rfl (.tail _ (.tail _ (.head _)))
        exact hexec site ctx t s₁ hs₁ hrun₁ (hfalse.mono hon₁.subset)
  | loop condition body =>
    have hcondition : Attended s.1.2 site ctx (.expr condition) := ht.part rfl List.mem_cons_self
    have hbody : Attended s.1.2 site ctx (.stmt body) := ht.part rfl (.tail _ (.head _))
    exact goes_whileLoop hs hrun
      (fun s' hs' hrun' hon => heval site ctx condition s' hs' hrun' (hcondition.mono hon.subset))
      (fun s' hs' hrun' hon => hexec site ctx body s' hs' hrun' (hbody.mono hon.subset)) rounds
  | function decl =>
    have hname : Unreserved decl.name.text := ht.placed.unreserved _ List.mem_cons_self
    have hclosure : ClosureFits s.1.2 (Eval.closureOf ctx.env decl false) :=
      ht.placed.closureFits (fun t hmem => List.mem_map.mpr ⟨t, hmem, rfl⟩)
        fun _ hx => List.mem_cons_of_mem _ hx
    refine .bind ((goes_lift hs (leads_newFunction hs.inOrder hclosure)).within hrun) ?_
    rintro f s₁ - ⟨⟨hs₁, hf⟩, hrun₁⟩
    refine .bind ((goes_lift hs₁ (leads_define hs₁.inOrder ctx.env hname hf)).within hrun₁) ?_
    exact fun _ s₂ _ h => .pure ⟨h.1.1, h.2⟩
  | ret line value =>
    have hvalue : ∀ e, value = some e → Attended s.1.2 site ctx (.expr e) := by
      rintro e rfl
      exact ht.part rfl List.mem_cons_self
    obtain ⟨a, rfl, hinit⟩ := ht.ret hs.inOrder.sound
    refine .bind ((goes_optional heval hs hrun hvalue).within hrun) ?_
    rintro v s₁ - ⟨⟨⟨hs₁, hv⟩, hnil⟩, hrun₁⟩
    refine goes_note (fun a' hne heq => hne (Eq.symm heq)) (.pure ⟨?_, hv, a, s₁.2, rfl, rfl, hrun₁,
      fun h => hnil (hinit h)⟩)
    exact hs₁.note ⟨hs₁.rest, hrun₁, a, rfl⟩ (hs₁.number_lt hrun₁)
  | classDecl name superclass methods =>
    have htext : Placed s.1.2 ctx.env (.stmt (ClassText.mk name superclass methods).statement) :=
      ht.placed
    refine .bind ((goes_lift hs (leads_declareClass hs.inOrder htext)).within hrun) ?_
    exact fun _ s₁ _ h => .pure ⟨h.1.1, h.2⟩

end Walk

/-- Expressions and statements keep the rules, however deep. -/
theorem goes_walk (rounds n : Nat) :
    EvalGoes (Controlled.steps.expr rounds n) ∧ ExecGoes (Controlled.steps.stmt rounds n) := by
  induction n with
  | zero => exact ⟨fun _ _ _ _ hs _ _ => goes_abort hs, fun _ _ _ _ hs _ _ => goes_abort hs⟩
  | succ n ih =>
    obtain ⟨heval, hexec⟩ := ih
    refine ⟨fun site ctx e s hs hrun he => ?_, fun site ctx t s hs hrun ht => ?_⟩
    · refine .bind (goes_lift hs (leads_takeUp hs.inOrder he.placed)) ?_
      rintro - s₁ hon₁ ⟨hs₁, -⟩
      have hrun₁ := hon₁.running hrun
      exact goes_note (fun _ _ => id) (goes_exprStep heval hexec (hs₁.takesUp hrun₁ he.owned)
        (hrun₁.cons fun _ _ => id) (he.mono hon₁.subset))
    · exact goes_note (fun _ _ => id) (goes_stmtStep heval hexec rounds (hs.takesUp hrun ht.owned)
        (hrun.cons fun _ _ => id) ht)

/-- A run of an accepted program keeps the rules. -/
theorem goes_program (limits : Limits) (ctx : Context) {program : List ResolvedStmt} (last : Value)
    {s : ControlState} (hs : Calm s)
    (hprogram : ∀ t ∈ program, Attended s.1.2 none ctx (.stmt t)) :
    Goes none s (fun _ s' => Calm s') (Controlled.steps.program limits ⟨none, ctx⟩ program last s) := by
  obtain ⟨heval, hexec⟩ := goes_walk limits.rounds limits.nesting
  induction program generalizing last s with
  | nil => exact .pure hs
  | cons t program ih =>
    obtain ⟨ht, hrest⟩ := List.forall_mem_cons.mp hprogram
    have hlater {s' : ControlState} (hle : s.1.2 ⊆ s'.1.2) :
        ∀ t ∈ program, Attended s'.1.2 none ctx (.stmt t) :=
      fun t ht => (hrest t ht).mono hle
    cases t with
    | expression e =>
      refine .bind (heval none ctx e s hs trivial (ht.part rfl List.mem_cons_self)) ?_
      exact fun v s₁ hon₁ hv => ih v hv.1 (hlater hon₁.subset)
    | _ =>
      refine .bind (hexec none ctx _ s hs trivial ht) fun completion s₁ hon₁ hleft => ?_
      cases completion with
      | returned v =>
        obtain ⟨-, -, a, -, hsite, -⟩ := hleft
        cases hsite
      | normal =>
        have hs₁ : Calm (s₁.1, .settles .normal :: s₁.2) :=
          ⟨hleft.1.note ⟨hleft.1.rest, rfl⟩ nofun, trivial⟩
        exact goes_note (fun _ _ => id) (ih .nil hs₁ (hlater hon₁.subset))

end Treewalk
