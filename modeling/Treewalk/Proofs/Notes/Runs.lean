import Treewalk.Proofs.Notes.Values
import Treewalk.Proofs.Sequencing
import Treewalk.Proofs.Walk.Steps

/-! # Runs with other notes

    A run looks at a note only to take a distance from it.  So if the notes of a program
    and of a machine are put in place of others that give the same distances, the run
    does the same: what it yields and the machine it leaves have those notes, too
    (`mimics_program`). -/

namespace Treewalk

variable {ρ σ α β γ δ : Type}

/-- The outcome of a run, with other notes in the machine and in what it yields. -/
def mapOutcome (f : ρ → σ) (g : α → β) :
    EStateM.Result Abort (Machine ρ) α → EStateM.Result Abort (Machine σ) β
  | .ok a m => .ok (g a) (m.map f)
  | .error cut m => .error cut (m.map f)

/-- On a machine with other notes the second computation does what the first does. -/
def Mimics (f : ρ → σ) (g : α → β) (x : EvalOn ρ α) (y : EvalOn σ β) : Prop :=
  ∀ m, y (m.map f) = mapOutcome f g (x m)

variable {f : ρ → σ}

namespace Mimics

/-! ### Sequencing -/

section Sequencing

variable {g : α → β} {h : γ → δ} {x : EvalOn ρ α} {y : EvalOn σ β}

theorem pure (a : α) : Mimics f g (pure a) (pure (g a)) :=
  fun _ => rfl

theorem bind {k : α → EvalOn ρ γ} {l : β → EvalOn σ δ} (hx : Mimics f g x y)
    (hk : ∀ a, Mimics f h (k a) (l (g a))) : Mimics f h (x >>= k) (y >>= l) := by
  intro m
  have hstep := hx m
  cases hrun : x m with
  | ok a m₁ =>
    rw [hrun] at hstep
    rw [bind_of_ok hrun, bind_of_ok hstep]
    exact hk a m₁
  | error cut m₁ =>
    rw [hrun] at hstep
    rw [bind_of_error hrun, bind_of_error hstep]
    rfl

theorem abort {ctx : Context} {fault : Fault} :
    Mimics f g (Eval.abort ctx fault) (Eval.abort ctx fault) :=
  fun _ => rfl

theorem access (ctx : Context) (found : Except AccessFault α) :
    Mimics f g (Eval.access ctx found) (Eval.access ctx (found.map g)) := by
  cases found with
  | ok a => exact .pure a
  | error fault => cases fault <;> exact .abort

end Sequencing

/-! ### The store -/

theorem readStore :
    Mimics f (Store.map (Value.map f)) (Eval.readStore (ρ := ρ)) (Eval.readStore (ρ := σ)) :=
  fun _ => rfl

theorem updateStore {g : α → β} {u : Store (Value ρ) → α × Store (Value ρ)}
    {v : Store (Value σ) → β × Store (Value σ)}
    (h : ∀ s, v (s.map (Value.map f)) = (g (u s).1, (u s).2.map (Value.map f))) :
    Mimics f g (Eval.updateStore u) (Eval.updateStore v) := by
  intro m
  show EStateM.Result.ok (v (m.store.map (Value.map f))).1 _ = _
  have hstore : (m.map f).store = m.store.map (Value.map f) := rfl
  unfold Eval.updateStore
  rw [hstore, h m.store]
  rfl

theorem modifyStore {u : Store (Value ρ) → Store (Value ρ)} {v : Store (Value σ) → Store (Value σ)}
    (h : ∀ s, v (s.map (Value.map f)) = (u s).map (Value.map f)) :
    Mimics f id (Eval.modifyStore u) (Eval.modifyStore v) := by
  intro m
  have hstore : (m.map f).store = m.store.map (Value.map f) := rfl
  unfold Eval.modifyStore
  rw [hstore, h m.store]
  rfl

theorem openScope (env : Env) :
    Mimics f id (Eval.openScope (ρ := ρ) env) (Eval.openScope (ρ := σ) env) :=
  .updateStore fun s => s.extend_map _ env

theorem define (env : Env) (name : String) (v : Value ρ) :
    Mimics f id (Eval.define env name v) (Eval.define env name (v.map f)) :=
  .modifyStore fun s => (s.map_define _ env name v).symm

theorem setField (object : Nat) (name : String) (v : Value ρ) :
    Mimics f id (Eval.modifyStore (·.setField object name v))
      (Eval.modifyStore (·.setField object name (v.map f))) :=
  .modifyStore fun s => (s.map_setField _ object name v).symm

theorem identity : Mimics f id (Eval.updateStore (·.identity) : EvalOn ρ Nat)
    (Eval.updateStore (·.identity) : EvalOn σ Nat) :=
  .updateStore fun s => s.identity_map _

theorem newObject : Mimics f id (Eval.updateStore (·.newObject) : EvalOn ρ Nat)
    (Eval.updateStore (·.newObject) : EvalOn σ Nat) :=
  .updateStore fun s => s.newObject_map _

theorem printLine (line : String) :
    Mimics f id (Eval.printLine (ρ := ρ) line) (Eval.printLine (ρ := σ) line) :=
  fun _ => rfl

theorem readClock : Mimics f (Value.map f) (Value.number <$> Eval.readClock : EvalOn ρ (Value ρ))
    (Value.number <$> Eval.readClock : EvalOn σ (Value σ)) :=
  fun _ => rfl

/-! ### Variables -/

variable (ctx : Context)

theorem lookUp (name : Name) (use : Distance) :
    Mimics f (Value.map f) (Eval.lookUp ctx name use) (Eval.lookUp ctx name use) := by
  refine .bind .readStore fun store => ?_
  cases use with
  | some d =>
    dsimp only
    rw [Store.getAt_map]
    exact .access ctx _
  | none =>
    dsimp only
    rw [Store.lookup?_map]
    cases store.lookup? globalEnv name.text with
    | some v => exact .pure v
    | none => exact .abort

theorem targetScope (name : Name) (use : Distance) :
    Mimics f id (Eval.targetScope (ρ := ρ) ctx name use)
      (Eval.targetScope (ρ := σ) ctx name use) := by
  cases use with
  | some d =>
    have h := access (f := f) (g := id) ctx (Store.scopeAt ctx.env d)
    rwa [Except.map_id] at h
  | none =>
    refine .bind .readStore fun store => ?_
    rw [Store.owner?_map]
    cases store.owner? globalEnv name.text with
    | some scope => exact .pure scope
    | none => exact .abort

theorem assignTo (name : Name) (use : Distance) (v : Value ρ) :
    Mimics f id (Eval.assignTo ctx name use v) (Eval.assignTo ctx name use (v.map f)) :=
  .bind (.targetScope ctx name use) fun scope =>
    .modifyStore fun s => (s.map_bind _ scope name.text v).symm

/-! ### Functions and objects -/

theorem newFunction (c : Closure ρ) :
    Mimics f (Value.map f) (Eval.newFunction c) (Eval.newFunction (c.map f)) :=
  .bind .identity fun id => .pure (Value.function id c)

theorem bindMethod (method : Closure ρ) (receiver : Value ρ) :
    Mimics f (Closure.map f) (Eval.bindMethod method receiver)
      (Eval.bindMethod (method.map f) (receiver.map f)) :=
  .bind (.openScope method.env) fun env => .bind (.define env _ receiver) fun _ => .pure _

theorem boundMethod (name : Name) (receiver : Value ρ) (found : Option (Closure ρ)) :
    Mimics f (Value.map f) (Eval.boundMethod ctx name receiver found)
      (Eval.boundMethod ctx name (receiver.map f) (found.map (·.map f))) := by
  cases found with
  | some method => exact .bind (.bindMethod method receiver) fun bound => .newFunction bound
  | none => exact .abort

theorem getProperty (object : Value ρ) (name : Name) :
    Mimics f (Value.map f) (Eval.getProperty ctx object name)
      (Eval.getProperty ctx (object.map f) name) := by
  cases object with
  | object id definition =>
    refine .bind .readStore fun store => ?_
    rw [Store.fields_map, Table.find?_map, Class.findMethod?_map]
    cases (store.fields id).find? name.text with
    | some v => exact .pure v
    | none => exact .boundMethod ctx name (.object id definition) _
  | _ => exact .abort

theorem getSuper (use : Distance) (method : Name) :
    Mimics f (Value.map f) (Eval.getSuper ctx use method) (Eval.getSuper ctx use method) := by
  cases use with
  | none => exact .abort
  | some d =>
    refine .bind .readStore fun store => ?_
    rw [Store.getAt_map, Store.getAt_map]
    refine .bind (.access ctx _) fun superclass => .bind (.access ctx _) fun receiver => ?_
    cases superclass with
    | cls id definition =>
      show Mimics f _ (Eval.boundMethod ctx method receiver (definition.findMethod? method.text))
        (Eval.boundMethod ctx method (receiver.map f)
          ((definition.map f).findMethod? method.text))
      rw [Class.findMethod?_map]
      exact .boundMethod ctx method receiver _
    | _ => exact .abort

theorem operator (line : Int) {result : OpResult ρ} {result' : OpResult σ}
    (h : result' = result.map (Value.map f)) :
    Mimics f (Value.map f) (Eval.operator ctx line result) (Eval.operator ctx line result') := by
  subst h
  cases result with
  | ok v => exact .pure v
  | error issue => exact .abort

theorem bindParams (env : Env) (params : List String) (args : List (Value ρ)) :
    Mimics f id (Eval.bindParams env params args)
      (Eval.bindParams env params (args.map (Value.map f))) := by
  induction params generalizing args with
  | nil => exact .pure ()
  | cons p params ih =>
    cases args with
    | nil => exact .pure ()
    | cons v args => exact .bind (.define env p v) fun _ => ih args

/-! ### Classes -/

theorem superclassOf (name : Name) (v : Value ρ) :
    Mimics f (Prod.map id (Class.map f)) (Eval.superclassOf ctx name v)
      (Eval.superclassOf ctx name (v.map f)) := by
  cases v with
  | cls id definition => exact .pure (id, definition)
  | _ => exact .abort

end Mimics

theorem closureOf_map (env : Env) (decl : FunDecl ρ) (isInitializer : Bool) :
    Eval.closureOf env (decl.map f) isInitializer =
      (Eval.closureOf env decl isInitializer).map f := by
  cases decl
  rfl

theorem FunDecl.name_map (decl : FunDecl ρ) : (decl.map f).name = decl.name := by
  cases decl
  rfl

theorem methodTable_map (env : Env) (methods : List (FunDecl ρ)) :
    Eval.methodTable env (mapFuns f methods) = (Eval.methodTable env methods).map (·.map f) := by
  have hfold (t : Table (Closure ρ)) :
      (mapFuns f methods).foldl
          (fun t m => t.insert m.name.text
            (Eval.closureOf env m (m.name.text == initializerName))) (t.map (·.map f)) =
        (methods.foldl
          (fun t m => t.insert m.name.text
            (Eval.closureOf env m (m.name.text == initializerName))) t).map (·.map f) := by
    induction methods generalizing t with
    | nil => rfl
    | cons m methods ih =>
      rw [mapFuns, List.foldl_cons, List.foldl_cons, ← ih, Table.map_insert, closureOf_map,
        FunDecl.name_map]
  exact hfold Table.empty

namespace Steps

/-! ### The walk -/

variable {d : ρ → Distance} {d' : σ → Distance}

/-- Expressions with other notes do the same. -/
def Evaluates (f : ρ → σ) (eval : Context → Expr ρ → EvalOn ρ (Value ρ))
    (eval' : Context → Expr σ → EvalOn σ (Value σ)) : Prop :=
  ∀ ctx e, Mimics f (Value.map f) (eval ctx e) (eval' ctx (e.map f))

/-- Statements with other notes do the same. -/
def Executes (f : ρ → σ) (exec : Context → Stmt ρ → EvalOn ρ (Completion ρ))
    (exec' : Context → Stmt σ → EvalOn σ (Completion σ)) : Prop :=
  ∀ ctx s, Mimics f (Completion.map f) (exec ctx s) (exec' ctx (s.map f))

section Walk

variable {eval : Context → Expr ρ → EvalOn ρ (Value ρ)}
  {eval' : Context → Expr σ → EvalOn σ (Value σ)}
  {exec : Context → Stmt ρ → EvalOn ρ (Completion ρ)}
  {exec' : Context → Stmt σ → EvalOn σ (Completion σ)}

theorem mimics_inOrder (heval : Evaluates f eval eval') (ctx : Context) (es : List (Expr ρ)) :
    Mimics f (List.map (Value.map f)) (Eval.inOrder (eval ctx) es)
      (Eval.inOrder (eval' ctx) (mapExprs f es)) := by
  induction es with
  | nil => exact .pure []
  | cons e es ih => exact .bind (heval ctx e) fun v => .bind ih fun vs => .pure (v :: vs)

theorem mimics_sequence (hexec : Executes f exec exec') (ctx : Context) (ss : List (Stmt ρ)) :
    Mimics f (Completion.map f) (Eval.sequence (exec ctx) ss)
      (Eval.sequence (exec' ctx) (mapStmts f ss)) := by
  induction ss with
  | nil => exact .pure Completion.normal
  | cons s ss ih =>
    refine .bind (hexec ctx s) fun completion => ?_
    cases completion with
    | normal => exact ih
    | returned v => exact .pure (Completion.returned v)

theorem mimics_whileLoop {spent body : EvalOn ρ (Completion ρ)}
    {spent' body' : EvalOn σ (Completion σ)} {condition : EvalOn ρ (Value ρ)}
    {condition' : EvalOn σ (Value σ)} (hs : Mimics f (Completion.map f) spent spent')
    (hc : Mimics f (Value.map f) condition condition')
    (hb : Mimics f (Completion.map f) body body') (n : Nat) :
    Mimics f (Completion.map f) (Eval.whileLoop spent condition body n)
      (Eval.whileLoop spent' condition' body' n) := by
  induction n with
  | zero => exact hs
  | succ n ih =>
    refine .bind hc fun v => ?_
    rw [Value.truthy_map]
    cases v.truthy with
    | false => exact .pure Completion.normal
    | true =>
      refine .bind hb fun completion => ?_
      cases completion with
      | normal => exact ih
      | returned v => exact .pure (Completion.returned v)

section Uses

variable (hd : ∀ i, d' (f i) = d i) (ctx : Context) (name : Name) (use : ρ)
include hd

theorem mimics_lookUp : Mimics f (Value.map f) (Eval.lookUp ctx name (d use))
    (Eval.lookUp ctx name (d' (f use))) := by
  rw [hd]
  exact .lookUp ctx name (d use)

theorem mimics_assignTo (v : Value ρ) : Mimics f id (Eval.assignTo ctx name (d use) v)
    (Eval.assignTo ctx name (d' (f use)) (v.map f)) := by
  rw [hd]
  exact .assignTo ctx name (d use) v

theorem mimics_getSuper : Mimics f (Value.map f) (Eval.getSuper ctx (d use) name)
    (Eval.getSuper ctx (d' (f use)) name) := by
  rw [hd]
  exact .getSuper ctx (d use) name

end Uses

theorem mimics_declareClass (hd : ∀ i, d' (f i) = d i) (ctx : Context) (name : Name)
    (superclass : Option (Name × ρ)) (methods : List (FunDecl ρ)) :
    Mimics f id ((plain d).declareClass ctx name superclass methods)
      ((plain d').declareClass ctx name (superclass.map (Prod.map id f)) (mapFuns f methods)) := by
  cases superclass with
  | none =>
    refine .bind (.define ctx.env name.text .nil) fun _ => ?_
    refine .bind .identity fun id => ?_
    have hdefine := Mimics.define (f := f) ctx.env name.text
      (.cls id (.mk name.text none (Eval.methodTable ctx.env methods)))
    rw [Value.map, Class.map, ← methodTable_map] at hdefine
    exact hdefine
  | some superclass =>
    obtain ⟨superName, use⟩ := superclass
    refine .bind (mimics_lookUp hd ctx superName use) fun v => ?_
    refine .bind (.superclassOf ctx superName v) fun found => ?_
    obtain ⟨superId, superDefinition⟩ := found
    refine .bind (.define ctx.env name.text .nil) fun _ => .bind (.openScope ctx.env) fun env => ?_
    refine .bind (.define env _ (.cls superId superDefinition)) fun _ => ?_
    refine .bind .identity fun id => ?_
    have hdefine := Mimics.define (f := f) ctx.env name.text
      (.cls id (.mk name.text (some superDefinition) (Eval.methodTable env methods)))
    rw [Value.map, Class.map, ← methodTable_map] at hdefine
    exact hdefine

theorem mimics_runClosure (hexec : Executes f exec exec') (frames : List Frame) (c : Closure ρ)
    (args : List (Value ρ)) :
    Mimics f (Value.map f) ((plain d).runClosure exec frames c args)
      ((plain d').runClosure exec' frames (c.map f) (args.map (Value.map f))) := by
  refine .bind (.openScope c.env) fun env => .bind (.bindParams env c.params args) fun _ => ?_
  refine .bind (mimics_sequence hexec ⟨env, frames⟩ c.body) fun completion => ?_
  show Mimics f _ (if c.isInitializer then _ else _) (if c.isInitializer then _ else _)
  cases c.isInitializer with
  | true =>
    refine .bind .readStore fun store => ?_
    rw [Store.getAt_map]
    exact .access _ _
  | false =>
    have hvalue := Mimics.pure (f := f) (g := Value.map f) completion.value
    rw [← Completion.value_map] at hvalue
    exact hvalue

theorem mimics_instantiate (hexec : Executes f exec exec') (frames : List Frame) (cls : Nat)
    (definition : Class ρ) (args : List (Value ρ)) :
    Mimics f (Value.map f) ((plain d).instantiate exec frames cls definition args)
      ((plain d').instantiate exec' frames cls (definition.map f) (args.map (Value.map f))) := by
  refine .bind .newObject fun id => ?_
  dsimp only
  rw [Class.initializer?_map]
  cases definition.initializer? with
  | some method =>
    refine .bind (.bindMethod method (.object id definition)) fun bound => ?_
    exact .bind (mimics_runClosure hexec frames bound args) fun _ =>
      .pure (Value.object id definition)
  | none => exact .pure (Value.object id definition)

theorem mimics_run (hexec : Executes f exec exec') (frames : List Frame) (args : List (Value ρ))
    (callee : Value ρ) :
    Mimics f (Value.map f) ((plain d).run exec frames args callee)
      ((plain d').run exec' frames (args.map (Value.map f)) (callee.map f)) := by
  cases callee with
  | native id primitive =>
    cases primitive
    exact .readClock
  | function id closure => exact mimics_runClosure hexec frames closure args
  | cls id definition => exact mimics_instantiate hexec frames id definition args
  | _ => exact .pure Value.nil

theorem signature?_map (v : Value ρ) : (v.map f).signature? = v.signature? := by
  cases v with
  | cls id definition =>
    show some ((definition.map f).name, (definition.map f).arity) =
      some (definition.name, definition.arity)
    rw [Class.name_map, Class.arity_map]
  | _ => rfl

theorem mimics_apply (hexec : Executes f exec exec') (ctx : Context) (line : Int)
    (callee : Value ρ) (args : List (Value ρ)) :
    Mimics f (Value.map f) ((plain d).apply exec ctx line callee args)
      ((plain d').apply exec' ctx line (callee.map f) (args.map (Value.map f))) := by
  unfold apply
  rw [signature?_map]
  cases callee.signature? with
  | none => exact .abort
  | some signature =>
    obtain ⟨name, arity⟩ := signature
    dsimp only
    rw [List.length_map]
    split
    · exact mimics_run hexec (⟨name, line⟩ :: ctx.frames) args callee
    · exact .abort

theorem unary_map (op : UnaryOp) (v : Value ρ) :
    op.apply (v.map f) = (op.apply v).map (Value.map f) := by
  cases op with
  | negate => cases v <;> rfl
  | not => cases v <;> rfl

theorem onNumbers_map {g : Float → Float → OpResult ρ} {h : Float → Float → OpResult σ}
    (hgh : ∀ x y, h x y = (g x y).map (Value.map f)) (v w : Value ρ) :
    onNumbers h (v.map f) (w.map f) = (onNumbers g v w).map (Value.map f) := by
  cases v with
  | number x =>
    cases w with
    | number y => exact hgh x y
    | _ => rfl
  | _ => rfl

theorem binary_map (op : BinaryOp) (v w : Value ρ) :
    op.apply (v.map f) (w.map f) = (op.apply v w).map (Value.map f) := by
  cases op with
  | equal => exact congrArg (fun b => Except.ok (Value.bool b)) (v.equals_map f w)
  | notEqual => exact congrArg (fun b => Except.ok (Value.bool !b)) (v.equals_map f w)
  | add => cases v <;> cases w <;> rfl
  | divide =>
    refine onNumbers_map (fun x y => ?_) v w
    split <;> rfl
  | _ =>
    refine onNumbers_map (fun x y => ?_) v w
    rfl

theorem decided_map (op : LogicalOp) (v : Value ρ) : op.decided (v.map f) = op.decided v := by
  cases op <;> simp [LogicalOp.decided]

/-- An expression with other notes does the same if its parts do. -/
theorem mimics_exprStep (hd : ∀ i, d' (f i) = d i) (heval : Evaluates f eval eval')
    (hexec : Executes f exec exec') (ctx : Context) (e : Expr ρ) :
    Mimics f (Value.map f) ((plain d).exprStep eval exec ctx e)
      ((plain d').exprStep eval' exec' ctx (e.map f)) := by
  cases e with
  | literal value =>
    have hvalue := Mimics.pure (f := f) (g := Value.map f) (value.value : Value ρ)
    rw [Value.map_literal] at hvalue
    exact hvalue
  | group inner => exact heval ctx inner
  | unary op line operand =>
    exact .bind (heval ctx operand) fun v => .operator ctx line (unary_map op v)
  | binary op line left right =>
    exact .bind (heval ctx left) fun v => .bind (heval ctx right) fun w =>
      .operator ctx line (binary_map op v w)
  | logical op line left right =>
    refine .bind (heval ctx left) fun v => ?_
    rw [decided_map]
    cases op.decided v with
    | true => exact .pure v
    | false => exact heval ctx right
  | «variable» name use => exact mimics_lookUp hd ctx name use
  | assign name use value =>
    refine .bind (heval ctx value) fun v => ?_
    exact .bind (mimics_assignTo hd ctx name use v) fun _ => .pure v
  | call callee arguments line =>
    exact .bind (heval ctx callee) fun v => .bind (mimics_inOrder heval ctx arguments) fun args =>
      mimics_apply hexec ctx line v args
  | get object name => exact .bind (heval ctx object) fun v => .getProperty ctx v name
  | set object name value =>
    refine .bind (heval ctx object) fun o => ?_
    cases o with
    | object id definition =>
      refine .bind (heval ctx value) fun v => ?_
      exact .bind (.setField id name.text v) fun _ => .pure v
    | _ => exact .abort
  | this line use => exact mimics_lookUp hd ctx _ use
  | super line use method => exact mimics_getSuper hd ctx method use
  | lambda line params body => exact .newFunction ⟨none, params.map (·.text), body, ctx.env, false⟩

theorem mimics_optional (heval : Evaluates f eval eval') (ctx : Context) (value : Option (Expr ρ)) :
    Mimics f (Value.map f) (optional eval ctx value) (optional eval' ctx (value.map (·.map f))) := by
  cases value with
  | some e => exact heval ctx e
  | none => exact .pure Value.nil

/-- A statement with other notes does the same if its parts do. -/
theorem mimics_stmtStep (hd : ∀ i, d' (f i) = d i) (heval : Evaluates f eval eval')
    (hexec : Executes f exec exec') (rounds : Nat) (ctx : Context) (s : Stmt ρ) :
    Mimics f (Completion.map f) ((plain d).stmtStep eval exec rounds ctx s)
      ((plain d').stmtStep eval' exec' rounds ctx (s.map f)) := by
  cases s with
  | expression e => exact .bind (heval ctx e) fun _ => .pure Completion.normal
  | print e =>
    refine .bind (heval ctx e) fun v => ?_
    rw [Value.text_map]
    exact .bind (.printLine v.text) fun _ => .pure Completion.normal
  | var name initial =>
    have hvar : (Stmt.var name initial).map f = .var name (initial.map (·.map f)) := by
      cases initial <;> rfl
    rw [hvar]
    refine .bind (mimics_optional heval ctx initial) fun v => ?_
    exact .bind (.define ctx.env name.text v) fun _ => .pure Completion.normal
  | block body =>
    exact .bind (.openScope ctx.env) fun env => mimics_sequence hexec { ctx with env } body
  | branch condition onTrue onFalse =>
    cases onFalse with
    | none =>
      refine .bind (heval ctx condition) fun v => ?_
      rw [Value.truthy_map]
      split
      · exact hexec ctx onTrue
      · exact .pure Completion.normal
    | some onFalse =>
      refine .bind (heval ctx condition) fun v => ?_
      rw [Value.truthy_map]
      split
      · exact hexec ctx onTrue
      · exact hexec ctx onFalse
  | loop condition body =>
    exact mimics_whileLoop .abort (heval ctx condition) (hexec ctx body) rounds
  | function decl =>
    have hnew := Mimics.newFunction (f := f) (Eval.closureOf ctx.env decl false)
    rw [← closureOf_map] at hnew
    refine .bind hnew fun v => ?_
    rw [FunDecl.name_map]
    exact .bind (.define ctx.env decl.name.text v) fun _ => .pure Completion.normal
  | ret line value =>
    have hret : (Stmt.ret line value).map f = .ret line (value.map (·.map f)) := by
      cases value <;> rfl
    rw [hret]
    exact .bind (mimics_optional heval ctx value) fun v => .pure (Completion.returned v)
  | classDecl name superclass methods =>
    have hclass : (Stmt.classDecl name superclass methods).map f =
        .classDecl name (superclass.map (Prod.map id f)) (mapFuns f methods) := by
      cases superclass <;> rfl
    rw [hclass]
    exact .bind (mimics_declareClass hd ctx name superclass methods) fun _ =>
      .pure Completion.normal

end Walk

/-- Expressions and statements with other notes do the same, however deep. -/
theorem mimics_walk (hd : ∀ i, d' (f i) = d i) (rounds n : Nat) :
    Evaluates f ((plain d).expr rounds n) ((plain d').expr rounds n) ∧
      Executes f ((plain d).stmt rounds n) ((plain d').stmt rounds n) := by
  induction n with
  | zero => exact ⟨fun ctx e => .abort, fun ctx s => .abort⟩
  | succ n ih =>
    obtain ⟨heval, hexec⟩ := ih
    exact ⟨fun ctx e => mimics_exprStep hd heval hexec ctx e,
      fun ctx s => mimics_stmtStep hd heval hexec rounds ctx s⟩

/-- A program with other notes for the same distances does the same. -/
theorem mimics_program (hd : ∀ i, d' (f i) = d i) (limits : Limits) (ctx : Context)
    (ss : List (Stmt ρ)) (last : Value ρ) :
    Mimics f (Value.map f) ((plain d).program limits ctx ss last)
      ((plain d').program limits ctx (mapStmts f ss) (last.map f)) := by
  obtain ⟨heval, hexec⟩ := mimics_walk hd limits.rounds limits.nesting
  induction ss generalizing last with
  | nil => exact .pure last
  | cons s ss ih =>
    have hstmt : Mimics f (Value.map f)
        ((plain d).stmt limits.rounds limits.nesting ctx s >>= fun _ =>
          (plain d).program limits ctx ss .nil)
        ((plain d').stmt limits.rounds limits.nesting ctx (s.map f) >>= fun _ =>
          (plain d').program limits ctx (mapStmts f ss) .nil) :=
      .bind (hexec ctx s) fun _ => ih .nil
    -- a tree whose parts may be absent says only then what it is with other notes
    cases s with
    | expression e => exact .bind (heval ctx e) fun v => ih v
    | var name initial => cases initial <;> exact hstmt
    | branch condition onTrue onFalse => cases onFalse <;> exact hstmt
    | ret line value => cases value <;> exact hstmt
    | classDecl name superclass methods => cases superclass <;> exact hstmt
    | _ => exact hstmt

end Steps

end Treewalk
