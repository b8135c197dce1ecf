import Treewalk.Proofs.Sequencing
import Treewalk.Proofs.Walk.Steps

/-! # Simulations

    Two walks over the same program do the same, however deep, if each of their steps
    does (`Simulation.program`).  What it is to do the same is given by a relation
    between computations that sequencing preserves; it may depend on where the walks
    stand. -/

namespace Treewalk

variable {ρ : Type}

/-! ### Elementary steps -/

/-- A fault happens with the calls of the context active. -/
def FailsIn {α : Type} (ctx : Context) (y : EvalOn ρ α) : Prop :=
  ∀ m cut m', y m = .error cut m' → cut.frames = ctx.frames

namespace FailsIn

variable {α β : Type} {ctx : Context} {y : EvalOn ρ α}

/-- A step that cannot fail. -/
theorem of_ok (h : ∀ m, ∃ a m', y m = .ok a m') : FailsIn ctx y := by
  intro m cut m' herror
  obtain ⟨a, m₁, hok⟩ := h m
  rw [hok] at herror
  cases herror

theorem pure {a : α} : FailsIn ctx (pure a : EvalOn ρ α) := .of_ok fun m => ⟨a, m, rfl⟩

theorem bind {g : α → EvalOn ρ β} (hy : FailsIn ctx y) (hg : ∀ a, FailsIn ctx (g a)) :
    FailsIn ctx (y >>= g) := by
  intro m cut m' herror
  cases hrun : y m with
  | ok a m₁ =>
    rw [bind_of_ok hrun] at herror
    exact hg a m₁ cut m' herror
  | error cut' m₁ =>
    rw [bind_of_error hrun] at herror
    cases herror
    exact hy m cut m' hrun

theorem abort {fault : Fault} : FailsIn ctx (Eval.abort ctx fault : EvalOn ρ α) := by
  intro m cut m' herror
  cases herror
  rfl

theorem access (found : Except AccessFault α) :
    FailsIn ctx (Eval.access ctx found : EvalOn ρ α) := by
  cases found with
  | ok a => exact .pure
  | error fault => cases fault <;> exact .abort

theorem updateStore (f : Store (Value ρ) → α × Store (Value ρ)) :
    FailsIn ctx (Eval.updateStore f) :=
  .of_ok fun m => ⟨(f m.store).1, { m with store := (f m.store).2 }, rfl⟩

theorem modifyStore (f : Store (Value ρ) → Store (Value ρ)) : FailsIn ctx (Eval.modifyStore f) :=
  .of_ok fun m => ⟨(), { m with store := f m.store }, rfl⟩

theorem readStore : FailsIn ctx (Eval.readStore : EvalOn ρ (Store (Value ρ))) :=
  .of_ok fun m => ⟨m.store, m, rfl⟩

theorem printLine (line : String) : FailsIn ctx (Eval.printLine line : EvalOn ρ Unit) :=
  .of_ok fun m => ⟨(), { m with printed := m.printed.push line }, rfl⟩

theorem readClock : FailsIn ctx (Value.number <$> Eval.readClock : EvalOn ρ (Value ρ)) :=
  .of_ok fun m => ⟨.number (m.clock m.readings), { m with readings := m.readings + 1 }, rfl⟩

theorem operator (line : Int) (result : OpResult ρ) :
    FailsIn ctx (Eval.operator ctx line result) := by
  cases result with
  | ok v => exact .pure
  | error issue => exact .abort

theorem lookUp (name : Name) (use : Distance) :
    FailsIn ctx (Eval.lookUp ctx name use : EvalOn ρ (Value ρ)) := by
  refine .bind .readStore fun store => ?_
  cases use with
  | some d => exact .access _
  | none =>
    dsimp only
    split
    · exact .pure
    · exact .abort

theorem assignTo (name : Name) (use : Distance) (v : Value ρ) :
    FailsIn ctx (Eval.assignTo ctx name use v) := by
  have htarget : FailsIn ctx (Eval.targetScope ctx name use : EvalOn ρ ScopeId) := by
    cases use with
    | some d => exact .access _
    | none =>
      refine .bind .readStore fun store => ?_
      split
      · exact .pure
      · exact .abort
  exact .bind htarget fun scope => .modifyStore _

theorem newFunction (closure : Closure ρ) : FailsIn ctx (Eval.newFunction closure) :=
  .bind (.updateStore _) fun _ => .pure

theorem bindMethod (method : Closure ρ) (receiver : Value ρ) :
    FailsIn ctx (Eval.bindMethod method receiver) :=
  .bind (.updateStore _) fun _ => .bind (.modifyStore _) fun _ => .pure

theorem boundMethod (name : Name) (receiver : Value ρ) (found : Option (Closure ρ)) :
    FailsIn ctx (Eval.boundMethod ctx name receiver found) := by
  cases found with
  | some method => exact .bind (.bindMethod _ _) fun bound => .newFunction bound
  | none => exact .abort

theorem getProperty (object : Value ρ) (name : Name) :
    FailsIn ctx (Eval.getProperty ctx object name) := by
  cases object with
  | object id definition =>
    refine .bind .readStore fun store => ?_
    split
    · exact .pure
    · exact .boundMethod _ _ _
  | _ => exact .abort

theorem getSuper (use : Distance) (method : Name) :
    FailsIn ctx (Eval.getSuper ctx use method : EvalOn ρ (Value ρ)) := by
  cases use with
  | none => exact .abort
  | some d =>
    refine .bind .readStore fun store => .bind (.access _) fun superclass =>
      .bind (.access _) fun receiver => ?_
    cases superclass with
    | cls id definition => exact .boundMethod _ _ _
    | _ => exact .abort

theorem superclassOf (name : Name) (v : Value ρ) : FailsIn ctx (Eval.superclassOf ctx name v) := by
  cases v with
  | cls id definition => exact .pure
  | _ => exact .abort

theorem bindParams (env : Env) (params : List String) (args : List (Value ρ)) :
    FailsIn ctx (Eval.bindParams env params args) := by
  induction params generalizing args with
  | nil => exact .pure
  | cons p params ih =>
    cases args with
    | nil => exact .pure
    | cons v args => exact .bind (.modifyStore _) fun _ => ih args

end FailsIn

/-! ### Steps that do the same -/

/-- The steps of two walks, related step by step.  `ι` is what the relation between
    computations depends on. -/
structure Simulation {π π' κ κ' : Type} {M M' : Type → Type} [Monad M] [Monad M']
    (S : Steps ρ π κ M) (S' : Steps ρ π' κ' M') (ι : Type) where
  /-- The walks stand at corresponding places. -/
  Stands : π → π' → ι → Prop
  /-- The walks make corresponding calls. -/
  Calls : κ → κ' → ι → Prop
  /-- The computations do the same. -/
  Rel {α : Type} : ι → M α → M' α → Prop
  depth : S.depth = S'.depth
  pure {α : Type} {i : ι} {a : α} : Rel i (pure a) (pure a)
  bind {α β : Type} {i : ι} {x : M α} {y : M' α} {f : α → M β} {g : α → M' β} :
    Rel i x y → (∀ a, Rel i (f a) (g a)) → Rel i (x >>= f) (y >>= g)
  note {α : Type} {i : ι} {p : π} {q : π'} {x : M α} {y : M' α} (moment : Moment ρ) :
    Stands p q i → Rel i x y → Rel i (S.note p moment x) (S'.note q moment y)
  step {α : Type} {i : ι} {p : π} {q : π'} {x : Context → EvalOn ρ α} :
    Stands p q i → (∀ ctx, FailsIn ctx (x ctx)) → Rel i (S.step p x) (S'.step q x)
  getProperty {i : ι} {p : π} {q : π'} (v : Value ρ) (name : Name) :
    Stands p q i → Rel i (S.getProperty p v name) (S'.getProperty q v name)
  getSuper {i : ι} {p : π} {q : π'} (use : Distance) (method : Name) :
    Stands p q i → Rel i (S.getSuper p use method) (S'.getSuper q use method)
  declareClass {i : ι} {p : π} {q : π'} (name : Name) (superclass : Option (Name × ρ))
    (methods : List (FunDecl ρ)) : Stands p q i →
      Rel i (S.declareClass p name superclass methods) (S'.declareClass q name superclass methods)
  block {i : ι} {p : π} {q : π'} {x : π → M (Completion ρ)} {y : π' → M' (Completion ρ)} :
    Stands p q i → (∀ j {p q}, Stands p q j → Rel j (x p) (y q)) →
      Rel i (S.block p x) (S'.block q y)
  call {i : ι} {p : π} {q : π'} {x : κ → M (Value ρ)} {y : κ' → M' (Value ρ)} (frame : Frame)
    (callee : Value ρ) (args : List (Value ρ)) :
    Stands p q i → (∀ j {k l}, Calls k l j → Rel j (x k) (y l)) →
      Rel i (S.call p frame callee args x) (S'.call q frame callee args y)
  readClock {i : ι} {k : κ} {l : κ'} : Calls k l i → Rel i (S.readClock k) (S'.readClock l)
  newObject {i : ι} {k : κ} {l : κ'} {x : Nat → M (Value ρ)} {y : Nat → M' (Value ρ)} (cls : Nat) :
    Calls k l i → (∀ id, Rel i (x id) (y id)) → Rel i (S.newObject k cls x) (S'.newObject l cls y)
  bindMethod {i : ι} {k : κ} {l : κ'} (method : Closure ρ) (receiver : Value ρ) :
    Calls k l i → Rel i (S.bindMethod k method receiver) (S'.bindMethod l method receiver)
  body {i : ι} {k : κ} {l : κ'} {x : π → M (Completion ρ)} {y : π' → M' (Completion ρ)}
    (closure : Closure ρ) (args : List (Value ρ)) :
    Calls k l i → (∀ j {p q}, Stands p q j → Rel j (x p) (y q)) →
      Rel i (S.body k closure args x) (S'.body l closure args y)

namespace Simulation

variable {π π' κ κ' ι : Type} {M M' : Type → Type} [Monad M] [Monad M']
  {S : Steps ρ π κ M} {S' : Steps ρ π' κ' M'} (R : Simulation S S' ι)

/-! ### Sequences and loops -/

section Sequences

variable {i : ι}

theorem inOrder {f : Expr ρ → M (Value ρ)} {g : Expr ρ → M' (Value ρ)}
    (hf : ∀ e, R.Rel i (f e) (g e)) (es : List (Expr ρ)) :
    R.Rel i (Eval.inOrder f es) (Eval.inOrder g es) := by
  induction es with
  | nil => exact R.pure
  | cons e es ih => exact R.bind (hf e) fun v => R.bind ih fun vs => R.pure

theorem sequence {f : Stmt ρ → M (Completion ρ)} {g : Stmt ρ → M' (Completion ρ)}
    (hf : ∀ s, R.Rel i (f s) (g s)) (ss : List (Stmt ρ)) :
    R.Rel i (Eval.sequence f ss) (Eval.sequence g ss) := by
  induction ss with
  | nil => exact R.pure
  | cons s ss ih =>
    refine R.bind (hf s) fun completion => ?_
    cases completion with
    | normal => exact ih
    | returned v => exact R.pure

theorem whileLoop {spent body : M (Completion ρ)} {spent' body' : M' (Completion ρ)}
    {condition : M (Value ρ)} {condition' : M' (Value ρ)} (hs : R.Rel i spent spent')
    (hc : R.Rel i condition condition')
    (hb : R.Rel i body body') (n : Nat) :
    R.Rel i (Eval.whileLoop spent condition body n) (Eval.whileLoop spent' condition' body' n) := by
  induction n with
  | zero => exact hs
  | succ n ih =>
    refine R.bind hc fun v => ?_
    cases v.truthy with
    | false => exact R.pure
    | true =>
      refine R.bind hb fun completion => ?_
      cases completion with
      | normal => exact ih
      | returned v => exact R.pure

end Sequences

/-! ### Calls -/

section Calls

variable {exec : π → Stmt ρ → M (Completion ρ)} {exec' : π' → Stmt ρ → M' (Completion ρ)}

/-- Statements do the same wherever the walks stand. -/
def Executes (exec : π → Stmt ρ → M (Completion ρ)) (exec' : π' → Stmt ρ → M' (Completion ρ)) :
    Prop :=
  ∀ {i p q}, R.Stands p q i → ∀ s, R.Rel i (exec p s) (exec' q s)

/-- Expressions do the same wherever the walks stand. -/
def Evaluates (eval : π → Expr ρ → M (Value ρ)) (eval' : π' → Expr ρ → M' (Value ρ)) : Prop :=
  ∀ {i p q}, R.Stands p q i → ∀ e, R.Rel i (eval p e) (eval' q e)

variable {i : ι} {k : κ} {l : κ'}

theorem runClosure (hexec : R.Executes exec exec') (h : R.Calls k l i) (closure : Closure ρ)
    (args : List (Value ρ)) :
    R.Rel i (S.runClosure exec k closure args) (S'.runClosure exec' l closure args) :=
  R.body closure args h fun _ _ _ hstands => R.sequence (hexec hstands) closure.body

theorem run (hexec : R.Executes exec exec') (h : R.Calls k l i) (args : List (Value ρ))
    (callee : Value ρ) : R.Rel i (S.run exec k args callee) (S'.run exec' l args callee) := by
  cases callee with
  | native id f =>
    cases f
    exact R.readClock h
  | function id closure => exact R.runClosure hexec h closure args
  | cls id definition =>
    refine R.newObject id h fun object => ?_
    cases definition.initializer? with
    | some method =>
      refine R.bind (R.bindMethod method _ h) fun bound => ?_
      exact R.bind (R.runClosure hexec h bound args) fun _ => R.pure
    | none => exact R.pure
  | _ => exact R.pure

theorem apply (hexec : R.Executes exec exec') {p : π} {q : π'} (h : R.Stands p q i) (line : Int)
    (callee : Value ρ) (args : List (Value ρ)) :
    R.Rel i (S.apply exec p line callee args) (S'.apply exec' q line callee args) := by
  unfold Steps.apply
  cases callee.signature? with
  | none => exact R.step h fun _ => .abort
  | some signature =>
    obtain ⟨name, arity⟩ := signature
    by_cases hlength : args.length = arity
    · simp only [if_pos hlength]
      exact R.call ⟨name, line⟩ callee args h fun _ _ _ hcalls => R.run hexec hcalls args callee
    · simp only [if_neg hlength]
      exact R.step h fun _ => .abort

end Calls

/-! ### The walk -/

section Walk

variable {eval : π → Expr ρ → M (Value ρ)} {eval' : π' → Expr ρ → M' (Value ρ)}
  {exec : π → Stmt ρ → M (Completion ρ)} {exec' : π' → Stmt ρ → M' (Completion ρ)}
  {i : ι} {p : π} {q : π'}

/-- An expression does the same if its parts do. -/
theorem exprStep (heval : R.Evaluates eval eval') (hexec : R.Executes exec exec')
    (h : R.Stands p q i) (e : Expr ρ) :
    R.Rel i (S.exprStep eval exec p e) (S'.exprStep eval' exec' q e) := by
  cases e with
  | literal value => exact R.pure
  | group inner => exact heval h inner
  | unary op line operand => exact R.bind (heval h operand) fun v => R.step h fun _ => .operator _ _
  | binary op line left right =>
    refine R.bind (heval h left) fun a => R.bind (heval h right) fun b => ?_
    exact R.step h fun _ => .operator _ _
  | logical op line left right =>
    refine R.bind (heval h left) fun v => ?_
    cases op.decided v with
    | true => exact R.pure
    | false => exact heval h right
  | «variable» name use =>
    unfold Steps.exprStep
    rw [R.depth]
    exact R.step h fun _ => .lookUp _ _
  | assign name use value =>
    unfold Steps.exprStep
    rw [R.depth]
    refine R.bind (heval h value) fun v => ?_
    exact R.bind (R.step h fun _ => .assignTo _ _ _) fun _ => R.pure
  | call callee arguments line =>
    refine R.bind (heval h callee) fun f => ?_
    exact R.bind (R.inOrder (heval h) arguments) fun args => R.apply hexec h line f args
  | get object name => exact R.bind (heval h object) fun v => R.getProperty v name h
  | set object name value =>
    refine R.bind (heval h object) fun o => ?_
    cases o with
    | object id definition =>
      refine R.bind (heval h value) fun v => ?_
      exact R.bind (R.step h fun _ => .modifyStore _) fun _ => R.pure
    | _ => exact R.step h fun _ => .abort
  | this line use =>
    unfold Steps.exprStep
    rw [R.depth]
    exact R.step h fun _ => .lookUp _ _
  | super line use method =>
    unfold Steps.exprStep
    rw [R.depth]
    exact R.getSuper _ method h
  | lambda line params body => exact R.step h fun _ => .newFunction _

theorem optional (heval : R.Evaluates eval eval') (h : R.Stands p q i)
    (value : Option (Expr ρ)) :
    R.Rel i (Steps.optional eval p value) (Steps.optional eval' q value) := by
  cases value with
  | some e => exact heval h e
  | none => exact R.pure

/-- A statement does the same if its parts do. -/
theorem stmtStep (heval : R.Evaluates eval eval') (hexec : R.Executes exec exec') (rounds : Nat)
    (h : R.Stands p q i) (s : Stmt ρ) :
    R.Rel i (S.stmtStep eval exec rounds p s) (S'.stmtStep eval' exec' rounds q s) := by
  cases s with
  | expression e => exact R.bind (heval h e) fun _ => R.pure
  | print e =>
    exact R.bind (heval h e) fun v => R.bind (R.step h fun _ => .printLine _) fun _ => R.pure
  | var name initial =>
    refine R.bind (R.optional heval h initial) fun v => ?_
    refine R.bind (R.step h fun _ => .modifyStore _) fun _ => ?_
    exact R.note _ h R.pure
  | block body => exact R.block h fun _ _ _ hinner => R.sequence (hexec hinner) body
  | branch condition onTrue onFalse =>
    refine R.bind (heval h condition) fun v => ?_
    cases v.truthy with
    | true => exact hexec h onTrue
    | false =>
      cases onFalse with
      | some s => exact hexec h s
      | none => exact R.pure
  | loop condition body =>
    exact R.whileLoop (R.step h fun _ => .abort) (heval h condition) (hexec h body) rounds
  | function decl =>
    refine R.bind (R.step h fun _ => .newFunction _) fun f => ?_
    exact R.bind (R.step h fun _ => .modifyStore _) fun _ => R.pure
  | ret line value =>
    exact R.bind (R.optional heval h value) fun v => R.note _ h R.pure
  | classDecl name superclass methods =>
    exact R.bind (R.declareClass name superclass methods h) fun _ => R.pure

end Walk

/-- Expressions and statements do the same, however deep. -/
theorem walk (rounds n : Nat) : R.Evaluates (S.expr rounds n) (S'.expr rounds n) ∧
    R.Executes (S.stmt rounds n) (S'.stmt rounds n) := by
  induction n with
  | zero => exact ⟨fun h e => R.step h fun _ => .abort, fun h s => R.step h fun _ => .abort⟩
  | succ n ih =>
    obtain ⟨heval, hexec⟩ := ih
    exact ⟨fun h e => R.note _ h (R.exprStep heval hexec h e),
      fun h s => R.note _ h (R.stmtStep heval hexec rounds h s)⟩

/-- Programs do the same. -/
theorem program (limits : Limits) (i : ι) {p : π} {q : π'} (h : R.Stands p q i)
    (ss : List (Stmt ρ)) (last : Value ρ) :
    R.Rel i (S.program limits p ss last) (S'.program limits q ss last) := by
  obtain ⟨heval, hexec⟩ := R.walk limits.rounds limits.nesting
  induction ss generalizing last with
  | nil => exact R.pure
  | cons s ss ih =>
    cases s with
    | expression e => exact R.bind (heval h e) fun v => ih v
    | _ => exact R.bind (hexec h _) fun completion => R.note _ h (ih .nil)

end Simulation

end Treewalk
