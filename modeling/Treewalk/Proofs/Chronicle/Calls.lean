import Treewalk.Proofs.Chronicle.Recorded
import Treewalk.Proofs.Registers

/-! # Open calls

    A call is open from when it has passed its checks until it returns.  Which
    calls are open is read off the chronicle, by the numbers of the calls, and does
    not presuppose that they end in any order.  A run that comes to its end leaves
    the same calls open that were open before it, and a run that is cut short is
    reported with exactly the calls that are open then, newest first
    (`tracks_program`). -/

namespace Treewalk

/-! ### Calls -/

/-- The name of a value in a trace: that of the function or class, or `fun` for a
    function without one.  Other values are never called. -/
def Value.callName : Value → String
  | .native _ f => f.name
  | .function _ closure => closure.name.getD Eval.anonymous
  | .cls _ definition => definition.name
  | _ => ""

theorem Value.callName_of_signature? {v : Value} {name : String} {arity : Nat}
    (h : v.signature? = some (name, arity)) : v.callName = name := by
  cases v <;> cases h <;> rfl

/-- A call that has passed its checks. -/
structure Call where
  /-- The number of the call. -/
  number : Nat
  /-- What is called. -/
  callee : Value
  /-- The arguments in order. -/
  args : List Value
  /-- The line of the closing parenthesis. -/
  line : Int

/-- The callee can be called, with as many arguments as there are. -/
def Call.Checked (c : Call) : Prop :=
  c.callee.signature? = some (c.callee.callName, c.args.length)

/-- The call as it stands on the stack. -/
def Call.frame (c : Call) : Frame := ⟨c.callee.callName, c.line⟩

/-- The call that a record is about, if it is one that begins. -/
def Record.call? : Record → Option Call
  | .calls number callee args line => some ⟨number, callee, args, line⟩
  | _ => none

/-- The record is that of the return of the call of a number. -/
def Record.isReturnOf (number : Nat) : Record → Bool
  | .returns n _ => n == number
  | _ => false

/-- The call of a number has returned. -/
def hasReturned (h : Chronicle) (number : Nat) : Bool := h.any (Record.isReturnOf number)

/-- The calls that have passed their checks, newest first. -/
def callsOf (h : Chronicle) : List Call := h.filterMap Record.call?

/-- The calls that have passed their checks and have not returned, newest first. -/
def openCalls (h : Chronicle) : List Call := (callsOf h).filter fun c => !hasReturned h c.number

/-- The calls have passed their checks, later calls have greater numbers, and no
    number occurs but those of calls. -/
structure WellNumbered (h : Chronicle) : Prop where
  checked : ∀ c ∈ callsOf h, c.Checked
  ordered : (callsOf h).Pairwise fun newer older => older.number < newer.number
  calls_lt : ∀ c ∈ callsOf h, c.number < callCount h
  returns_lt : ∀ n v, Record.returns n v ∈ h → n < callCount h

/-! ### How records change the open calls -/

/-- The record neither begins nor ends a call. -/
def Record.isQuiet : Record → Bool
  | .calls _ _ _ _ | .returns _ _ => false
  | _ => true

section Records

variable {h : Chronicle} {record : Record}

theorem wellNumbered_nil : WellNumbered [] := ⟨nofun, .nil, nofun, nofun⟩

theorem openCalls_quiet (hquiet : record.isQuiet = true) : openCalls (record :: h) = openCalls h := by
  cases record <;> first | rfl | cases hquiet

theorem WellNumbered.quiet (hnum : WellNumbered h) (hquiet : record.isQuiet = true) :
    WellNumbered (record :: h) := by
  have hcalls : callsOf (record :: h) = callsOf h := by
    cases record <;> first | rfl | cases hquiet
  have hcount : callCount (record :: h) = callCount h := by
    cases record <;> first | rfl | cases hquiet
  refine ⟨?_, ?_, ?_, ?_⟩
  · rw [hcalls]
    exact hnum.checked
  · rw [hcalls]
    exact hnum.ordered
  · rw [hcalls, hcount]
    exact hnum.calls_lt
  · intro n v hmem
    rw [hcount]
    rcases List.mem_cons.mp hmem with heq | hmem
    · rw [← heq] at hquiet
      cases hquiet
    · exact hnum.returns_lt n v hmem

/-- The next call has a number that has not occurred. -/
theorem WellNumbered.not_returned (hnum : WellNumbered h) : hasReturned h (callCount h) = false := by
  unfold hasReturned
  rw [List.any_eq_false]
  intro record hmem hreturn
  cases record with
  | returns n v =>
    have hlt := hnum.returns_lt n v hmem
    have heq : n = callCount h := by simpa [Record.isReturnOf] using hreturn
    omega
  | _ => cases hreturn

theorem WellNumbered.call {callee : Value} {args : List Value} {line : Int} (hnum : WellNumbered h)
    (hchecked : callee.signature? = some (callee.callName, args.length)) :
    WellNumbered (.calls (callCount h) callee args line :: h) := by
  have hcount : callCount (.calls (callCount h) callee args line :: h) = callCount h + 1 :=
    List.countP_cons_of_pos rfl
  refine ⟨?_, List.pairwise_cons.mpr ⟨hnum.calls_lt, hnum.ordered⟩, ?_, ?_⟩
  · intro c hc
    rcases List.mem_cons.mp hc with rfl | hc
    · exact hchecked
    · exact hnum.checked c hc
  · intro c hc
    rw [hcount]
    rcases List.mem_cons.mp hc with rfl | hc
    · exact Nat.lt_succ_self _
    · exact Nat.lt_succ_of_lt (hnum.calls_lt c hc)
  · intro n v hmem
    rw [hcount]
    rcases List.mem_cons.mp hmem with heq | hmem
    · cases heq
    · exact Nat.lt_succ_of_lt (hnum.returns_lt n v hmem)

/-- A call that begins is open, on top of those that were. -/
theorem openCalls_call (hnum : WellNumbered h) (callee : Value) (args : List Value) (line : Int) :
    openCalls (.calls (callCount h) callee args line :: h) =
      ⟨callCount h, callee, args, line⟩ :: openCalls h := by
  show List.filter (fun c => !hasReturned h c.number)
    (⟨callCount h, callee, args, line⟩ :: callsOf h) = _
  rw [List.filter_cons_of_pos]
  · rfl
  · simp [hnum.not_returned]

theorem WellNumbered.return {n : Nat} {v : Value} (hnum : WellNumbered h) (hn : n < callCount h) :
    WellNumbered (.returns n v :: h) := by
  refine ⟨hnum.checked, hnum.ordered, hnum.calls_lt, ?_⟩
  intro n' v' hmem
  rcases List.mem_cons.mp hmem with heq | hmem
  · cases heq
    exact hn
  · exact hnum.returns_lt n' v' hmem

/-- A call that returns is not open any more. -/
theorem openCalls_return (n : Nat) (v : Value) :
    openCalls (.returns n v :: h) = (openCalls h).filter fun c => c.number ≠ n := by
  show (callsOf h).filter (fun c => !(n == c.number || hasReturned h c.number)) = _
  unfold openCalls
  rw [List.filter_filter]
  refine List.filter_congr fun c _ => ?_
  by_cases heq : c.number = n
  · simp [heq]
  · have hbeq : (n == c.number) = false := by simpa using Ne.symm heq
    simp [heq, hbeq]

end Records

/-! ### Computations -/

/-- The outcome of a computation from a chronicle: the same calls are open as
    before, or it is cut short with the calls that are open then. -/
inductive Tracked {α : Type} (h : Chronicle) :
    EStateM.Result Abort (Machine × Chronicle) α → Prop
  | ok {a m h'} : WellNumbered h' → openCalls h' = openCalls h → Tracked h (.ok a (m, h'))
  | error {cut m h'} : WellNumbered h' → (openCalls h').map Call.frame = cut.frames →
      Tracked h (.error cut (m, h'))

/-- The computation tracks its calls, if the open calls are on the given stack. -/
def Tracks {α : Type} (frames : List Frame) (x : Recorded α) : Prop :=
  ∀ m h, WellNumbered h → (openCalls h).map Call.frame = frames → Tracked h (x (m, h))

namespace Tracks

variable {α β : Type} {frames : List Frame} {x : Recorded α}

theorem pure {a : α} : Tracks frames (pure a) :=
  fun _ _ hnum _ => .ok hnum rfl

theorem bind {f : α → Recorded β} (hx : Tracks frames x) (hf : ∀ a, Tracks frames (f a)) :
    Tracks frames (x >>= f) := by
  intro m h hnum hframes
  have hfirst := hx m h hnum hframes
  generalize hrun : x (m, h) = out at hfirst
  cases hfirst with
  | error hnum' hcut =>
    rw [bind_of_error hrun]
    exact .error hnum' hcut
  | @ok a m' h' hnum' hopen =>
    rw [bind_of_ok hrun]
    -- the second computation finds the same calls open
    have hsecond := hf a m' h' hnum' (by rw [hopen]; exact hframes)
    generalize f a (m', h') = out at hsecond
    cases hsecond with
    | ok hnum'' hopen' => exact .ok hnum'' (hopen'.trans hopen)
    | error hnum'' hcut => exact .error hnum'' hcut

/-- An elementary step fails with the calls of its context. -/
theorem lift {ctx : Context} {y : Eval α} (hy : FailsIn ctx y) :
    Tracks ctx.frames (Recorded.lift y) := by
  intro m h hnum hframes
  unfold Recorded.lift
  cases hrun : y m with
  | ok a m' => exact .ok hnum rfl
  | error cut m' => exact .error hnum (hframes.trans (hy m cut m' hrun).symm)

theorem liftIn (ctx : Context) {y : Eval α} (hy : FailsIn ctx y) :
    Tracks ctx.frames (Recorded.lift y) :=
  .lift hy

/-- A step that adds a quiet record. -/
theorem quiet (record : Machine × Chronicle → Record) {a : Machine × Chronicle → α}
    {machine : Machine × Chronicle → Machine} (hquiet : ∀ s, (record s).isQuiet = true) :
    Tracks frames fun s => .ok (a s) (machine s, record s :: s.2) :=
  fun _ _ hnum _ => .ok (hnum.quiet (hquiet _)) (openCalls_quiet (hquiet _))

theorem newScope (env : Env) : Tracks frames (Recorded.newScope env) :=
  quiet (fun s => .opens s.1.store.scopes.size env) fun _ => rfl

theorem note {record : Record} (hquiet : record.isQuiet = true) :
    Tracks frames (Recorded.note record) :=
  quiet (fun _ => record) fun _ => hquiet

theorem takeUp (ctx : Context) (e : ResolvedExpr) : Tracks frames (Recorded.takeUp ctx e) :=
  quiet (fun s => .evaluates ctx e s.1) fun _ => rfl

/-- A call is open while it runs.  When it returns, it is the one that is closed,
    since all others that are open have smaller numbers. -/
theorem calling {callee : Value} {args : List Value} {line : Int} {x : Recorded Value}
    (hchecked : callee.signature? = some (callee.callName, args.length))
    (hx : Tracks (⟨callee.callName, line⟩ :: frames) x) :
    Tracks frames (Recorded.calling callee args line x) := by
  intro m h hnum hframes
  have hopen := openCalls_call hnum callee args line
  have hstack : (openCalls (.calls (callCount h) callee args line :: h)).map Call.frame =
      ⟨callee.callName, line⟩ :: frames := by
    rw [hopen, List.map_cons, hframes]
    rfl
  have hbody := hx m _ (hnum.call hchecked) hstack
  show Tracked h ((x >>= fun v => Recorded.note (.returns (callCount h) v) >>= fun _ => Pure.pure v)
    (m, .calls (callCount h) callee args line :: h))
  generalize hrun : x _ = out at hbody
  cases hbody with
  | error hnum' hcut =>
    rw [bind_of_error hrun]
    exact .error hnum' hcut
  | @ok v m' h' hnum' hsame =>
    rw [bind_of_ok hrun]
    rw [hopen] at hsame
    have hself : (⟨callCount h, callee, args, line⟩ : Call) ∈ openCalls h' := by
      rw [hsame]
      exact List.mem_cons_self
    have hlt : callCount h < callCount h' := hnum'.calls_lt _ (List.mem_filter.mp hself).1
    refine .ok (hnum'.return hlt) ?_
    show openCalls (.returns (callCount h) v :: h') = openCalls h
    rw [openCalls_return, hsame, List.filter_cons_of_neg (by simp), List.filter_eq_self]
    intro c hc
    have hsmaller := hnum.calls_lt c (List.mem_filter.mp hc).1
    simpa using Nat.ne_of_lt hsmaller

end Tracks

/-! ### Functions and objects -/

section Step

variable {frames : List Frame} {ctx : Context}

theorem tracks_bindMethod (method : Closure) (receiver : Value) :
    Tracks frames (Recorded.bindMethod method receiver) := by
  refine .bind (.newScope _) fun scope => ?_
  refine .bind (.liftIn ⟨method.env, frames⟩ (.modifyStore _)) fun _ => ?_
  exact .bind (.note rfl) fun _ => .pure

theorem tracks_boundMethod (name : Name) (receiver : Value) (found : Option Closure) :
    Tracks ctx.frames (Recorded.boundMethod ctx name receiver found) := by
  cases found with
  | some method => exact .bind (tracks_bindMethod method receiver) fun _ => .lift (.newFunction _)
  | none => exact .lift .abort

theorem tracks_getProperty (object : Value) (name : Name) :
    Tracks ctx.frames (Recorded.getProperty ctx object name) := by
  cases object with
  | object id definition =>
    refine .bind (.lift .readStore) fun store => ?_
    cases (store.fields id).find? name.text with
    | some v => exact .pure
    | none => exact tracks_boundMethod name _ (definition.findMethod? name.text)
  | _ => exact .lift .abort

theorem tracks_getSuper (use : Distance) (method : Name) :
    Tracks ctx.frames (Recorded.getSuper ctx use method) := by
  cases use with
  | none => exact .lift .abort
  | some d =>
    refine .bind (.lift .readStore) fun store => .bind (.lift (.access _)) fun superclass => ?_
    refine .bind (.lift (.access _)) fun receiver => ?_
    cases superclass with
    | cls id definition => exact tracks_boundMethod method receiver (definition.findMethod? method.text)
    | _ => exact .lift .abort

/-! ### Sequences and loops -/

theorem tracks_inOrder {f : ResolvedExpr → Recorded Value} (hf : ∀ e, Tracks frames (f e))
    (es : List ResolvedExpr) : Tracks frames (Eval.inOrder f es) := by
  induction es with
  | nil => exact .pure
  | cons e es ih => exact .bind (hf e) fun v => .bind ih fun vs => .pure

theorem tracks_sequence {f : ResolvedStmt → Recorded Completion} (hf : ∀ s, Tracks frames (f s))
    (ss : List ResolvedStmt) : Tracks frames (Eval.sequence f ss) := by
  induction ss with
  | nil => exact .pure
  | cons s ss ih =>
    refine .bind (hf s) fun completion => ?_
    cases completion with
    | normal => exact ih
    | returned v => exact .pure

theorem tracks_whileLoop {condition : Recorded Value} {body : Recorded Completion}
    (hc : Tracks ctx.frames condition) (hb : Tracks ctx.frames body) (n : Nat) :
    Tracks ctx.frames
      (Eval.whileLoop (Recorded.lift (Eval.abort ctx .endless)) condition body n) := by
  induction n with
  | zero => exact .lift .abort
  | succ n ih =>
    refine .bind hc fun v => ?_
    cases v.truthy with
    | false => exact .pure
    | true =>
      refine .bind hb fun completion => ?_
      cases completion with
      | normal => exact ih
      | returned v => exact .pure

/-! ### Calls -/

variable {exec : Context → ResolvedStmt → Recorded Completion}

theorem tracks_runClosure (hexec : ∀ ctx s, Tracks ctx.frames (exec ctx s)) (frames : List Frame)
    (closure : Closure) (args : List Value) :
    Tracks frames (Recorded.steps.runClosure exec frames closure args) := by
  refine .bind (.newScope _) fun scope => ?_
  have hbody := hexec ⟨scope :: closure.env, frames⟩
  refine .bind (.liftIn ⟨scope :: closure.env, frames⟩ (.bindParams _ _ _)) fun _ => ?_
  refine .bind (tracks_sequence hbody closure.body) fun completion => ?_
  cases closure.isInitializer with
  | true =>
    exact .bind (.liftIn ⟨scope :: closure.env, frames⟩ .readStore) fun store =>
      .liftIn ⟨scope :: closure.env, frames⟩ (.access _)
  | false => exact .pure

/-- The initializer runs with the same calls open as the call of its class. -/
theorem tracks_instantiate (hexec : ∀ ctx s, Tracks ctx.frames (exec ctx s)) (frames : List Frame)
    (cls : Nat) (definition : Class) (args : List Value) :
    Tracks frames (Recorded.steps.instantiate exec frames cls definition args) := by
  refine .bind (.liftIn ⟨globalEnv, frames⟩ (.updateStore _)) fun id => ?_
  refine .bind (.note rfl) fun _ => ?_
  cases definition.initializer? with
  | some method =>
    refine .bind (tracks_bindMethod method _) fun bound => ?_
    exact .bind (tracks_runClosure hexec frames bound args) fun _ => .pure
  | none => exact .pure

theorem tracks_run (hexec : ∀ ctx s, Tracks ctx.frames (exec ctx s)) (frames : List Frame)
    (args : List Value) (callee : Value) :
    Tracks frames (Recorded.steps.run exec frames args callee) := by
  cases callee with
  | native id f =>
    cases f
    show Tracks frames (Value.number <$> Recorded.lift Eval.readClock)
    rw [← bind_pure_comp]
    refine .bind (.liftIn ⟨globalEnv, frames⟩ (.of_ok fun m => ⟨_, _, rfl⟩)) fun _ => .pure
  | function id closure => exact tracks_runClosure hexec frames closure args
  | cls id definition => exact tracks_instantiate hexec frames id definition args
  | _ => exact .pure

theorem tracks_apply (hexec : ∀ ctx s, Tracks ctx.frames (exec ctx s)) (line : Int)
    (callee : Value) (args : List Value) :
    Tracks ctx.frames (Recorded.steps.apply exec ctx line callee args) := by
  unfold Steps.apply
  cases hsignature : callee.signature? with
  | none => exact .lift .abort
  | some signature =>
    obtain ⟨name, arity⟩ := signature
    have hname := Value.callName_of_signature? hsignature
    by_cases hlength : args.length = arity
    · simp only [if_pos hlength]
      -- the call is on the stack under the name of the callee
      rw [← hname]
      refine .calling ?_ (tracks_run hexec _ args callee)
      rw [hsignature, hname, hlength]
    · simp only [if_neg hlength]
      exact .lift .abort

/-! ### Declarations -/

theorem tracks_createClass (env : Env) (text : ClassText) (superclass : Option Superclass) :
    Tracks frames (Recorded.createClass env text superclass) := by
  refine .bind (.liftIn ⟨env, frames⟩ (.updateStore _)) fun id => ?_
  exact .bind (.note rfl) fun _ => .liftIn ⟨env, frames⟩ (.modifyStore _)

theorem tracks_declareClass (text : ClassText) :
    Tracks ctx.frames (Recorded.declareClass ctx text) := by
  unfold Recorded.declareClass
  cases text.superclass with
  | none => exact .bind (.lift (.modifyStore _)) fun _ => tracks_createClass ctx.env text none
  | some superclass =>
    obtain ⟨superName, use⟩ := superclass
    refine .bind (.lift (.lookUp _ _)) fun v => .bind (.lift (.superclassOf _ _)) fun found => ?_
    refine .bind (.lift (.modifyStore _)) fun _ => .bind (.newScope _) fun scope => ?_
    exact .bind (.lift (.modifyStore _)) fun _ => tracks_createClass ctx.env text _

/-! ### The walk -/

variable {eval : Context → ResolvedExpr → Recorded Value}

theorem tracks_step {α : Type} {x : Context → Eval α} (hx : ∀ ctx, FailsIn ctx (x ctx))
    (ctx : Context) : Tracks ctx.frames (Recorded.steps.step ctx x) :=
  .lift (hx ctx)

theorem tracks_exprStep (heval : ∀ ctx e, Tracks ctx.frames (eval ctx e))
    (hexec : ∀ ctx s, Tracks ctx.frames (exec ctx s)) (ctx : Context) (e : ResolvedExpr) :
    Tracks ctx.frames (Recorded.steps.exprStep eval exec ctx e) := by
  cases e with
  | literal value => exact .pure
  | group inner => exact heval ctx inner
  | unary op line operand => exact .bind (heval ctx operand) fun v => .lift (.operator _ _)
  | binary op line left right =>
    exact .bind (heval ctx left) fun a => .bind (heval ctx right) fun b => .lift (.operator _ _)
  | logical op line left right =>
    refine .bind (heval ctx left) fun v => ?_
    cases op.decided v with
    | true => exact .pure
    | false => exact heval ctx right
  | «variable» name use => exact .lift (.lookUp _ _)
  | assign name use value =>
    exact .bind (heval ctx value) fun v => .bind (.lift (.assignTo _ _ _)) fun _ => .pure
  | call callee arguments line =>
    refine .bind (heval ctx callee) fun f => ?_
    exact .bind (tracks_inOrder (heval ctx) arguments) fun args => tracks_apply hexec line f args
  | get object name => exact .bind (heval ctx object) fun v => tracks_getProperty v name
  | set object name value =>
    refine .bind (heval ctx object) fun o => ?_
    cases o with
    | object id definition =>
      refine .bind (heval ctx value) fun v => ?_
      exact .bind (tracks_step (fun _ => .modifyStore _) ctx) fun _ => .pure
    | _ => exact .lift .abort
  | this line use => exact .lift (.lookUp _ _)
  | super line use method => exact tracks_getSuper use method
  | lambda line params body => exact .lift (.newFunction _)

theorem tracks_optional (heval : ∀ ctx e, Tracks ctx.frames (eval ctx e)) (initial : Option ResolvedExpr) :
    Tracks ctx.frames (Steps.optional eval ctx initial) := by
  cases initial with
  | some e => exact heval ctx e
  | none => exact .pure

theorem tracks_stmtStep (heval : ∀ ctx e, Tracks ctx.frames (eval ctx e))
    (hexec : ∀ ctx s, Tracks ctx.frames (exec ctx s)) (rounds : Nat) (ctx : Context)
    (s : ResolvedStmt) : Tracks ctx.frames (Recorded.steps.stmtStep eval exec rounds ctx s) := by
  cases s with
  | expression e => exact .bind (heval ctx e) fun _ => .pure
  | print e =>
    refine .bind (heval ctx e) fun v => ?_
    exact .bind (tracks_step (fun _ => .printLine _) ctx) fun _ => .pure
  | var name initial =>
    refine .bind (tracks_optional heval initial) fun v => ?_
    exact .bind (tracks_step (fun _ => .modifyStore _) ctx) fun _ => .pure
  | block body =>
    exact .bind (.newScope _) fun scope => tracks_sequence (hexec ⟨scope :: ctx.env, ctx.frames⟩) body
  | branch condition onTrue onFalse =>
    refine .bind (heval ctx condition) fun v => ?_
    cases v.truthy with
    | true => exact hexec ctx onTrue
    | false =>
      cases onFalse with
      | some s => exact hexec ctx s
      | none => exact .pure
  | loop condition body => exact tracks_whileLoop (heval ctx condition) (hexec ctx body) rounds
  | function decl =>
    refine .bind (.lift (.newFunction _)) fun f => ?_
    exact .bind (tracks_step (fun _ => .modifyStore _) ctx) fun _ => .pure
  | ret line value => exact .bind (tracks_optional heval value) fun v => .pure
  | classDecl name superclass methods => exact .bind (tracks_declareClass _) fun _ => .pure

end Step

/-- Expressions and statements track their calls, however deep. -/
theorem tracks_walk (rounds n : Nat) :
    (∀ ctx e, Tracks ctx.frames (Recorded.steps.expr rounds n ctx e)) ∧
    (∀ ctx s, Tracks ctx.frames (Recorded.steps.stmt rounds n ctx s)) := by
  induction n with
  | zero => exact ⟨fun ctx e => .lift .abort, fun ctx s => .lift .abort⟩
  | succ n ih =>
    obtain ⟨heval, hexec⟩ := ih
    exact ⟨fun ctx e => .bind (.takeUp ctx e) fun _ => tracks_exprStep heval hexec ctx e,
      tracks_stmtStep heval hexec rounds⟩

theorem tracks_program (limits : Limits) (ctx : Context) (ss : List ResolvedStmt) (last : Value) :
    Tracks ctx.frames (Recorded.steps.program limits ctx ss last) := by
  obtain ⟨heval, hexec⟩ := tracks_walk limits.rounds limits.nesting
  induction ss generalizing last with
  | nil => exact .pure
  | cons s ss ih =>
    cases s with
    | expression e => exact .bind (heval ctx e) fun v => ih v
    | _ => exact .bind (hexec ctx _) fun _ => ih .nil

end Treewalk
