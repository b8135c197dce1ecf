import Treewalk.Machine.Eval
import Treewalk.Proofs.Sequencing

/-! # Evaluation under two bounds

    Evaluation is cut short when it nests too deeply, or when a loop goes round too
    often.  Under greater bounds it does the same, step by step, up to the point where
    the smaller ones cut it, and from there on it only adds to what is printed.  So a
    run that is not cut is the same under all greater bounds (`prolonged_program`). -/

namespace Treewalk

/-! ### Computations that go on -/

section Outcomes

variable {α : Type}

/-- The lines printed by the end of a computation. -/
def linesAt : EStateM.Result Abort Machine α → List String
  | .ok _ m => m.printed.toList
  | .error _ m => m.printed.toList

/-- The second outcome is the first, or the first is a cut, and what was printed before
    it is printed by the end of the second as well. -/
inductive Outlasts (cut : Fault → Prop) :
    EStateM.Result Abort Machine α → EStateM.Result Abort Machine α → Prop
  | same {out} : Outlasts cut out out
  | later {abort m out} : cut abort.fault → m.printed.toList <+: linesAt out →
      Outlasts cut (.error abort m) out

/-- The second computation does what the first one does, unless that is cut short, and
    takes back nothing that was printed. -/
structure Prolonged (cut : Fault → Prop) (x y : Eval α) : Prop where
  prints : ∀ m, m.printed.toList <+: linesAt (y m)
  outlasts : ∀ m, Outlasts cut (x m) (y m)

end Outcomes

namespace Prolonged

variable {α β : Type} {cut : Fault → Prop} {x y : Eval α}

/-- A computation that takes back nothing that was printed. -/
theorem refl (h : ∀ m, m.printed.toList <+: linesAt (x m)) : Prolonged cut x x :=
  ⟨h, fun _ => .same⟩

theorem pure {a : α} : Prolonged cut (pure a) (pure a) :=
  .refl fun _ => List.prefix_rfl

/-- A cut, and whatever is done in its place. -/
theorem of_abort {ctx : Context} {fault : Fault} (hcut : cut fault)
    (h : ∀ m, m.printed.toList <+: linesAt (y m)) : Prolonged cut (Eval.abort ctx fault) y :=
  ⟨h, fun m => .later hcut (h m)⟩

theorem bind {f g : α → Eval β} (hx : Prolonged cut x y) (hf : ∀ a, Prolonged cut (f a) (g a)) :
    Prolonged cut (x >>= f) (y >>= g) := by
  have hprints (m : Machine) : linesAt (y m) <+: linesAt ((y >>= g) m) := by
    cases hy : y m with
    | ok a m₁ =>
      rw [bind_of_ok hy]
      exact (hf a).prints m₁
    | error abort m₁ =>
      rw [bind_of_error hy]
      exact List.prefix_rfl
  refine ⟨fun m => (hx.prints m).trans (hprints m), fun m => ?_⟩
  have hfirst := hx.outlasts m
  have hrest := hprints m
  generalize hxm : x m = out at hfirst
  generalize hym : y m = out' at hfirst hrest
  cases hfirst with
  | same =>
    cases out with
    | ok a m₁ =>
      rw [bind_of_ok hxm, bind_of_ok hym]
      exact (hf a).outlasts m₁
    | error abort m₁ =>
      rw [bind_of_error hxm, bind_of_error hym]
      exact .same
  | later hcut hlines =>
    rw [bind_of_error hxm]
    exact .later hcut (hlines.trans hrest)

end Prolonged

/-! ### Elementary steps -/

section Elementary

variable {α : Type} {cut : Fault → Prop} {ctx : Context}

theorem prolonged_abort {fault : Fault} :
    Prolonged cut (Eval.abort ctx fault : Eval α) (Eval.abort ctx fault) :=
  .refl fun _ => List.prefix_rfl

theorem prolonged_readStore : Prolonged cut Eval.readStore Eval.readStore :=
  .refl fun _ => List.prefix_rfl

theorem prolonged_modifyStore (f : Store Value → Store Value) :
    Prolonged cut (Eval.modifyStore f) (Eval.modifyStore f) :=
  .refl fun _ => List.prefix_rfl

theorem prolonged_updateStore (f : Store Value → α × Store Value) :
    Prolonged cut (Eval.updateStore f) (Eval.updateStore f) :=
  .refl fun _ => List.prefix_rfl

theorem prolonged_readClock :
    Prolonged cut (Value.number <$> Eval.readClock : Eval Value)
      (Value.number <$> Eval.readClock) :=
  .refl fun _ => List.prefix_rfl

theorem prolonged_printLine (line : String) :
    Prolonged cut (Eval.printLine line) (Eval.printLine line) := by
  refine .refl fun m => ?_
  show m.printed.toList <+: (m.printed.push line).toList
  rw [Array.toList_push]
  exact List.prefix_append _ _

theorem prolonged_access (found : Except AccessFault α) :
    Prolonged cut (Eval.access ctx found) (Eval.access ctx found) := by
  cases found with
  | ok a => exact .pure
  | error fault => cases fault <;> exact prolonged_abort

theorem prolonged_operator (line : Int) (result : OpResult) :
    Prolonged cut (Eval.operator ctx line result) (Eval.operator ctx line result) := by
  cases result with
  | ok v => exact .pure
  | error issue => exact prolonged_abort

theorem prolonged_lookUp (name : Name) (use : Distance) :
    Prolonged cut (Eval.lookUp ctx name use) (Eval.lookUp ctx name use) := by
  refine .bind prolonged_readStore fun store => ?_
  cases use with
  | some d => exact prolonged_access _
  | none =>
    dsimp only
    split
    · exact .pure
    · exact prolonged_abort

theorem prolonged_assignTo (name : Name) (use : Distance) (v : Value) :
    Prolonged cut (Eval.assignTo ctx name use v) (Eval.assignTo ctx name use v) := by
  refine .bind ?_ fun scope => prolonged_modifyStore _
  cases use with
  | some d => exact prolonged_access _
  | none =>
    refine .bind prolonged_readStore fun store => ?_
    split
    · exact .pure
    · exact prolonged_abort

theorem prolonged_newFunction (closure : Closure) :
    Prolonged cut (Eval.newFunction closure) (Eval.newFunction closure) :=
  .bind (prolonged_updateStore _) fun _ => .pure

theorem prolonged_bindMethod (method : Closure) (receiver : Value) :
    Prolonged cut (Eval.bindMethod method receiver) (Eval.bindMethod method receiver) :=
  .bind (prolonged_updateStore _) fun _ => .bind (prolonged_modifyStore _) fun _ => .pure

theorem prolonged_boundMethod (name : Name) (receiver : Value) (found : Option Closure) :
    Prolonged cut (Eval.boundMethod ctx name receiver found)
      (Eval.boundMethod ctx name receiver found) := by
  cases found with
  | some method => exact .bind (prolonged_bindMethod _ _) fun bound => prolonged_newFunction bound
  | none => exact prolonged_abort

theorem prolonged_getProperty (object : Value) (name : Name) :
    Prolonged cut (Eval.getProperty ctx object name) (Eval.getProperty ctx object name) := by
  cases object with
  | object id definition =>
    refine .bind prolonged_readStore fun store => ?_
    cases (store.fields id).find? name.text with
    | some v => exact .pure
    | none => exact prolonged_boundMethod name _ (definition.findMethod? name.text)
  | _ => exact prolonged_abort

theorem prolonged_getSuper (use : Distance) (method : Name) :
    Prolonged cut (Eval.getSuper ctx use method) (Eval.getSuper ctx use method) := by
  cases use with
  | none => exact prolonged_abort
  | some d =>
    refine .bind prolonged_readStore fun store => .bind (prolonged_access _) fun superclass => ?_
    refine .bind (prolonged_access _) fun receiver => ?_
    cases superclass with
    | cls id definition =>
      exact prolonged_boundMethod method receiver (definition.findMethod? method.text)
    | _ => exact prolonged_abort

theorem prolonged_bindParams (env : Env) (params : List String) (args : List Value) :
    Prolonged cut (Eval.bindParams env params args) (Eval.bindParams env params args) := by
  induction params generalizing args with
  | nil => exact .pure
  | cons p params ih =>
    cases args with
    | nil => exact .pure
    | cons v args => exact .bind (prolonged_modifyStore _) fun _ => ih args

theorem prolonged_superclassOf (name : Name) (v : Value) :
    Prolonged cut (Eval.superclassOf ctx name v) (Eval.superclassOf ctx name v) := by
  cases v with
  | cls id definition => exact .pure
  | _ => exact prolonged_abort

theorem prolonged_declareClass (name : Name) (superclass : Option (Name × Distance))
    (methods : List ResolvedFun) :
    Prolonged cut (Eval.declareClass ctx name superclass methods)
      (Eval.declareClass ctx name superclass methods) := by
  cases superclass with
  | none =>
    refine .bind (prolonged_modifyStore _) fun _ => .bind (prolonged_updateStore _) fun id => ?_
    exact prolonged_modifyStore _
  | some superclass =>
    obtain ⟨superName, use⟩ := superclass
    refine .bind (prolonged_lookUp _ _) fun v => .bind (prolonged_superclassOf _ _) fun found => ?_
    refine .bind (prolonged_modifyStore _) fun _ => .bind (prolonged_updateStore _) fun env => ?_
    refine .bind (prolonged_modifyStore _) fun _ => .bind (prolonged_updateStore _) fun id => ?_
    exact prolonged_modifyStore _

end Elementary

/-! ### Sequences, loops and calls -/

section Step

variable {cut : Fault → Prop} {ctx : Context} {exec exec' : Context → ResolvedStmt → Eval Completion}

theorem prolonged_inOrder {f g : ResolvedExpr → Eval Value} (h : ∀ e, Prolonged cut (f e) (g e))
    (es : List ResolvedExpr) : Prolonged cut (Eval.inOrder f es) (Eval.inOrder g es) := by
  induction es with
  | nil => exact .pure
  | cons e es ih => exact .bind (h e) fun v => .bind ih fun vs => .pure

theorem prolonged_sequence {f g : ResolvedStmt → Eval Completion}
    (h : ∀ s, Prolonged cut (f s) (g s)) (ss : List ResolvedStmt) :
    Prolonged cut (Eval.sequence f ss) (Eval.sequence g ss) := by
  induction ss with
  | nil => exact .pure
  | cons s ss ih =>
    refine .bind (h s) fun completion => ?_
    cases completion with
    | normal => exact ih
    | returned v => exact .pure

/-- One number is the other, or it is smaller, and reaching it is a cut. -/
def Bounded (cut : Fault → Prop) (fault : Fault) (n n' : Nat) : Prop :=
  n = n' ∨ n ≤ n' ∧ cut fault

theorem Bounded.pred {fault : Fault} {n n' : Nat} (h : Bounded cut fault (n + 1) (n' + 1)) :
    Bounded cut fault n n' := by
  rcases h with h | ⟨h, hcut⟩
  · exact .inl (by omega)
  · exact .inr ⟨by omega, hcut⟩

/-- A round of a loop is the same under both bounds if the condition, the body and the
    rounds behind it are. -/
theorem prolonged_round {condition condition' : Eval Value} {body body' : Eval Completion}
    (hc : Prolonged cut condition condition') (hb : Prolonged cut body body') {r r' : Nat}
    (hloop : Prolonged cut (Eval.whileLoop (Eval.abort ctx .endless) condition body r)
      (Eval.whileLoop (Eval.abort ctx .endless) condition' body' r')) :
    Prolonged cut (Eval.whileLoop (Eval.abort ctx .endless) condition body (r + 1))
      (Eval.whileLoop (Eval.abort ctx .endless) condition' body' (r' + 1)) := by
  refine .bind hc fun v => ?_
  cases v.truthy with
  | false => exact .pure
  | true =>
    refine .bind hb fun completion => ?_
    cases completion with
    | normal => exact hloop
    | returned v => exact .pure

theorem prolonged_whileLoop {condition condition' : Eval Value} {body body' : Eval Completion}
    (hc : Prolonged cut condition condition') (hb : Prolonged cut body body') {r r' : Nat}
    (hr : Bounded cut .endless r r') :
    Prolonged cut (Eval.whileLoop (Eval.abort ctx .endless) condition body r)
      (Eval.whileLoop (Eval.abort ctx .endless) condition' body' r') := by
  have hself : Prolonged cut condition' condition' := .refl hc.prints
  have hself' : Prolonged cut body' body' := .refl hb.prints
  -- of a loop that goes on behind a cut, only that it prints is asked
  have hprints (r' : Nat) :
      Prolonged cut (Eval.whileLoop (Eval.abort ctx .endless) condition' body' r')
      (Eval.whileLoop (Eval.abort ctx .endless) condition' body' r') := by
    induction r' with
    | zero => exact prolonged_abort
    | succ r' ih => exact prolonged_round hself hself' ih
  induction r' generalizing r with
  | zero =>
    obtain rfl : r = 0 := by
      rcases hr with h | ⟨h, -⟩ <;> omega
    exact prolonged_abort
  | succ r' ih =>
    cases r with
    | zero =>
      rcases hr with h | ⟨-, hcut⟩
      · cases h
      · exact .of_abort hcut (hprints (r' + 1)).prints
    | succ r => exact prolonged_round hc hb (ih hr.pred)

theorem prolonged_runClosure (hexec : ∀ ctx s, Prolonged cut (exec ctx s) (exec' ctx s))
    (frames : List Frame) (closure : Closure) (args : List Value) :
    Prolonged cut (Eval.runClosure exec frames closure args)
      (Eval.runClosure exec' frames closure args) := by
  refine .bind (prolonged_updateStore _) fun env => .bind (prolonged_bindParams _ _ _) fun _ => ?_
  refine .bind (prolonged_sequence (hexec ⟨env, frames⟩) closure.body) fun completion => ?_
  cases closure.isInitializer with
  | true => exact .bind prolonged_readStore fun store => prolonged_access _
  | false => exact .pure

theorem prolonged_instantiate (hexec : ∀ ctx s, Prolonged cut (exec ctx s) (exec' ctx s))
    (frames : List Frame) (definition : Class) (args : List Value) :
    Prolonged cut (Eval.instantiate exec frames definition args)
      (Eval.instantiate exec' frames definition args) := by
  refine .bind (prolonged_updateStore _) fun id => ?_
  cases definition.initializer? with
  | some method =>
    refine .bind (prolonged_bindMethod _ _) fun bound => ?_
    exact .bind (prolonged_runClosure hexec frames bound args) fun _ => .pure
  | none => exact .pure

theorem prolonged_apply (hexec : ∀ ctx s, Prolonged cut (exec ctx s) (exec' ctx s)) (line : Int)
    (callee : Value) (args : List Value) :
    Prolonged cut (Eval.apply exec ctx line callee args) (Eval.apply exec' ctx line callee args) := by
  unfold Eval.apply
  -- in each case of what is called, the number of arguments decides
  have hcall {arity : Nat} {x y : Eval Value} (hrun : Prolonged cut x y) :
      Prolonged cut
        (if args.length = arity then x else Eval.fail ctx (.wrongArity arity args.length) line)
        (if args.length = arity then y else Eval.fail ctx (.wrongArity arity args.length) line) := by
    by_cases hlength : args.length = arity
    · rw [if_pos hlength, if_pos hlength]
      exact hrun
    · rw [if_neg hlength, if_neg hlength]
      exact prolonged_abort
  cases callee with
  | native id f =>
    cases f
    exact hcall prolonged_readClock
  | function id closure => exact hcall (prolonged_runClosure hexec _ closure args)
  | cls id definition => exact hcall (prolonged_instantiate hexec _ definition args)
  | _ => exact prolonged_abort

end Step

/-! ### The walk -/

section Walk

variable {cut : Fault → Prop} {r r' n n' : Nat}

/-- An expression whose parts are prolonged is prolonged. -/
theorem prolonged_exprStep
    (heval : ∀ ctx e, Prolonged cut (Eval.expr r n ctx e) (Eval.expr r' n' ctx e))
    (hexec : ∀ ctx s, Prolonged cut (Eval.stmt r n ctx s) (Eval.stmt r' n' ctx s))
    (ctx : Context) (e : ResolvedExpr) :
    Prolonged cut (Eval.expr r (n + 1) ctx e) (Eval.expr r' (n' + 1) ctx e) := by
  cases e with
  | literal value => exact .pure
  | group inner => exact heval ctx inner
  | unary op line operand => exact .bind (heval ctx operand) fun v => prolonged_operator _ _
  | binary op line left right =>
    exact .bind (heval ctx left) fun a => .bind (heval ctx right) fun b => prolonged_operator _ _
  | logical op line left right =>
    refine .bind (heval ctx left) fun v => ?_
    cases op.decided v with
    | true => exact .pure
    | false => exact heval ctx right
  | «variable» name use => exact prolonged_lookUp _ _
  | assign name use value =>
    exact .bind (heval ctx value) fun v => .bind (prolonged_assignTo _ _ _) fun _ => .pure
  | call callee arguments line =>
    refine .bind (heval ctx callee) fun f => ?_
    refine .bind (prolonged_inOrder (heval ctx) arguments) fun args => ?_
    exact prolonged_apply hexec line f args
  | get object name => exact .bind (heval ctx object) fun v => prolonged_getProperty v name
  | set object name value =>
    refine .bind (heval ctx object) fun o => ?_
    cases o with
    | object id definition =>
      exact .bind (heval ctx value) fun v => .bind (prolonged_modifyStore _) fun _ => .pure
    | _ => exact prolonged_abort
  | this line use => exact prolonged_lookUp _ _
  | super line use method => exact prolonged_getSuper use method
  | lambda line params body => exact prolonged_newFunction _

/-- A statement whose parts are prolonged is prolonged. -/
theorem prolonged_stmtStep (hr : Bounded cut .endless r r')
    (heval : ∀ ctx e, Prolonged cut (Eval.expr r n ctx e) (Eval.expr r' n' ctx e))
    (hexec : ∀ ctx s, Prolonged cut (Eval.stmt r n ctx s) (Eval.stmt r' n' ctx s))
    (ctx : Context) (s : ResolvedStmt) :
    Prolonged cut (Eval.stmt r (n + 1) ctx s) (Eval.stmt r' (n' + 1) ctx s) := by
  cases s with
  | expression e => exact .bind (heval ctx e) fun _ => .pure
  | print e => exact .bind (heval ctx e) fun v => .bind (prolonged_printLine _) fun _ => .pure
  | var name initial =>
    cases initial with
    | some e => exact .bind (heval ctx e) fun v => .bind (prolonged_modifyStore _) fun _ => .pure
    | none => exact .bind .pure fun v => .bind (prolonged_modifyStore _) fun _ => .pure
  | block body =>
    exact .bind (prolonged_updateStore _) fun env => prolonged_sequence (hexec { ctx with env }) body
  | branch condition onTrue onFalse =>
    refine .bind (heval ctx condition) fun v => ?_
    cases v.truthy with
    | true => exact hexec ctx onTrue
    | false =>
      cases onFalse with
      | some s => exact hexec ctx s
      | none => exact .pure
  | loop condition body => exact prolonged_whileLoop (heval ctx condition) (hexec ctx body) hr
  | function decl =>
    exact .bind (prolonged_newFunction _) fun f => .bind (prolonged_modifyStore _) fun _ => .pure
  | ret line value =>
    cases value with
    | some e => exact .bind (heval ctx e) fun v => .pure
    | none => exact .pure
  | classDecl name superclass methods => exact .bind (prolonged_declareClass _ _ _) fun _ => .pure

/-- Expressions and statements are prolonged by greater bounds, however deep. -/
theorem prolonged_walk (hr : Bounded cut .endless r r') (hn : Bounded cut .overflow n n') :
    (∀ ctx e, Prolonged cut (Eval.expr r n ctx e) (Eval.expr r' n' ctx e)) ∧
    (∀ ctx s, Prolonged cut (Eval.stmt r n ctx s) (Eval.stmt r' n' ctx s)) := by
  induction n' generalizing r n with
  | zero =>
    obtain rfl : n = 0 := by
      rcases hn with h | ⟨h, -⟩ <;> omega
    exact ⟨fun ctx e => prolonged_abort, fun ctx s => prolonged_abort⟩
  | succ n' ih =>
    cases n with
    | zero =>
      rcases hn with h | ⟨-, hcut⟩
      · cases h
      -- the second run goes on, and all that is asked of it is that it prints
      obtain ⟨heval, hexec⟩ := ih (n := n') (.inl rfl) (.inl rfl)
      exact ⟨fun ctx e => .of_abort hcut (prolonged_exprStep heval hexec ctx e).prints,
        fun ctx s => .of_abort hcut (prolonged_stmtStep (.inl rfl) heval hexec ctx s).prints⟩
    | succ n =>
      obtain ⟨heval, hexec⟩ := ih hr hn.pred
      exact ⟨prolonged_exprStep heval hexec, prolonged_stmtStep hr heval hexec⟩

end Walk

/-- A program is prolonged by greater bounds. -/
theorem prolonged_program {cut : Fault → Prop} {limits limits' : Limits}
    (hrounds : Bounded cut .endless limits.rounds limits'.rounds)
    (hnesting : Bounded cut .overflow limits.nesting limits'.nesting) (ctx : Context)
    (ss : List ResolvedStmt) (last : Value) :
    Prolonged cut (Eval.program limits ctx ss last) (Eval.program limits' ctx ss last) := by
  obtain ⟨heval, hexec⟩ := prolonged_walk hrounds hnesting
  induction ss generalizing last with
  | nil => exact .pure
  | cons s ss ih =>
    cases s with
    | expression e => exact .bind (heval ctx e) fun v => ih v
    | _ => exact .bind (hexec ctx _) fun _ => ih .nil

end Treewalk
