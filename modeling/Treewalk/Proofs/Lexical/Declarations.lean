import Mathlib.Data.List.Forall2
import Treewalk.Proofs.Lexical.Steps

/-! # Declarations

    How the two evaluators declare variables, functions, classes and parameters.
    A local declaration binds a name that the innermost scope does not have yet,
    because resolution refuses to declare a name twice and because a scope only
    has names that were declared in it (`OwnNames`). -/

namespace Treewalk

open Lexical

/-! ### The innermost scope -/

/-- The innermost scope has no names but those declared so far. -/
def OwnNames (W : World) (S : ScopeNames) (env : Env) : Prop :=
  ∀ inner outer, S = inner :: outer → ∀ scope, env.head? = some scope →
    ∀ x c, W.cell scope x = some c → x ∈ inner

/-- The cell of a name that is declared in the innermost scope; none for a
    global. -/
inductive Target (W : World) (x : String) : ScopeNames → Env → Option Cell → Prop
  | outside : Target W x [] globalEnv none
  | inside {inner S scope env c} :
      W.cell scope x = some c → Target W x (inner :: S) (scope :: env) (some c)

theorem Target.mono {W W' : World} {x : String} {S : ScopeNames} {env : Env} {cell : Option Cell}
    (h : Target W x S env cell) (hW : W.Below W') : Target W' x S env cell := by
  cases h with
  | outside => exact .outside
  | inside hc => exact .inside (hW.cell_of hc)

section Innermost

variable {W W' : World} {P : Enclosing} {S : ScopeNames} {ctx : Context} {place : Place}
  {names : Names} {env : Env} {allowed : ScopeId → String → Prop}

theorem SeesNames.outside (h : SeesNames W [] env names) : env = globalEnv ∧ names = [] := by
  cases h
  exact ⟨rfl, rfl⟩

theorem SeesNames.inside {inner : List String} (h : SeesNames W (inner :: S) env names) :
    ∃ scope outer, env = scope :: outer ∧ scope ≠ globalScope ∧ scope < W.scopes := by
  cases h with
  | @scope _ env _ _ scope _ _ hglobal hlt _ _ => exact ⟨scope, env, rfl, hglobal, hlt⟩

/-- The scope has in addition the names that it was allowed to get. -/
theorem OwnNames.grow (added : List String) (hown : OwnNames W S env)
    (hsees : SeesNames W S env names) (hW : Grows allowed W W')
    (hallowed : ∀ s x, allowed s x → x ∈ added) : OwnNames W' (declaring added S) env := by
  intro inner' outer hS' scope hscope x c hc
  cases S with
  | nil => cases hS'
  | cons inner S =>
    cases hS'
    obtain ⟨_, _, rfl, -, hlt⟩ := hsees.inside
    cases hscope
    -- a scope that there was gets names only where that is allowed
    rcases hW.frame hlt hc with hold | hnew
    · exact List.mem_append_right added (hown inner outer rfl _ rfl x c hold)
    · exact List.mem_append_left inner (hallowed _ _ hnew)

theorem OwnNames.keep (hown : OwnNames W S env) (hsees : SeesNames W S env names)
    (hW : Grows Nowhere W W') : OwnNames W' S env := by
  have hgrown := hown.grow [] hsees hW fun _ _ h => h.elim
  rwa [declaring_nil] at hgrown

/-- Only which names the scope has counts. -/
theorem OwnNames.congr {inner inner' : List String} (hown : OwnNames W (inner :: S) env)
    (hinner : ∀ x, x ∈ inner' ↔ x ∈ inner) : OwnNames W (inner' :: S) env := by
  rintro _ _ ⟨⟩ scope hscope x c hc
  exact (hinner x).mpr (hown inner S rfl scope hscope x c hc)

/-- A new scope has no names. -/
theorem OwnNames.enter {store : Store Value} {h : History} {cells : Array (Option LValue)}
    (hagree : BindingsAgree W store h cells) (S : ScopeNames) (env : Env) :
    OwnNames W.addScope ([] :: S) (W.scopes :: env) := by
  rintro _ _ ⟨⟩ _ ⟨⟩ x c hc
  rw [show W.addScope.cell W.scopes x = none from hagree.cell_scopes x] at hc
  cases hc

/-- A name that may be declared is none that the scope has. -/
theorem OwnNames.cell_none {inner : List String} {scope : ScopeId} {x : String}
    (hown : OwnNames W (inner :: S) (scope :: env)) (hx : x ∉ inner) : W.cell scope x = none := by
  cases hc : W.cell scope x with
  | none => rfl
  | some c => exact absurd (hown inner S rfl scope rfl x c hc) hx

/-- The place after a name is declared in a cell. -/
theorem CtxRel.declare {inner : List String} {scope : ScopeId} {x : String} {c : Cell}
    (hctx : CtxRel W P (inner :: S) ctx place) (hx : Unreserved x)
    (hscope : ctx.env.head? = some scope) (hc : W.cell scope x = some c) :
    CtxRel W P (declaring [x] (inner :: S)) ctx { place with names := (x, c) :: place.names } := by
  obtain ⟨_, _, henv, -⟩ := hctx.sees.inside
  refine ⟨?_, hctx.frames, hctx.inside, hctx.receives.declaring ?_⟩
  · have hsees := hctx.sees
    rw [henv] at hsees hscope ⊢
    cases hscope
    exact hsees.declare hc
  · intro y hy
    rw [List.mem_singleton.mp hy]
    exact hx

end Innermost

/-! ### Binding a declared name -/

section Define

variable {W : World} {P : Enclosing} {S : ScopeNames} {ctx : Context} {place : Place}
  {m : Machine} {h : History} {r : State} {allowed : ScopeId → String → Prop}
  {x : String} {v : Value} {v' : LValue}

/-- A declared name gets a value. -/
theorem Agrees.define {cell : Option Cell} (hagrees : Agrees W m h r)
    (htarget : Target W x S ctx.env cell) (hx : Unreserved x) (hv : ValueRel W v v') :
    ∃ r', Lexical.define cell x v' r = .ok () r' ∧
      Agrees W { m with store := m.store.define ctx.env x v } h r' := by
  generalize ctx.env = env at htarget ⊢
  cases htarget with
  | outside => exact ⟨_, rfl, hagrees.writeGlobal x hv⟩
  | inside hc => exact ⟨_, rfl, hagrees.fill hc hx hv⟩

theorem simulates_define {cell : Option Cell} (htarget : Target W x S ctx.env cell)
    (hx : Unreserved x) (hv : ValueRel W v v') :
    Simulates allowed W (Watched.lift (Eval.define ctx.env x v)) (Lexical.define cell x v')
      fun _ _ _ => True := by
  refine .step fun m h r hagrees => ?_
  obtain ⟨r', hdefine, hagrees'⟩ := hagrees.define htarget hx hv
  exact ⟨_, _, _, _, W, rfl, hdefine, .refl W, hagrees', trivial⟩

/-! ### Variables -/

/-- The declaration of a variable begins: if it is local, its cell is empty. -/
theorem simulates_beginVar {name : Name} {initial : Option ResolvedExpr}
    (hctx : CtxRel W P S ctx place) (hown : OwnNames W S ctx.env) (hname : Declarable name S) :
    Simulates (Declaring ctx.env [name.text]) W (Watched.note (.executes ctx (.var name initial)))
      (Lexical.declare place name.text) fun W' _ p =>
        CtxRel W' P (declaring [name.text] S) ctx p.1 ∧
          Target W' name.text (declaring [name.text] S) ctx.env p.2 := by
  obtain ⟨hfree, hnew⟩ := hname
  intro m h r hagrees
  have hnoted : Agrees W m (.executes ctx (.var name initial) m.store :: h) r :=
    hagrees.note trivial nofun
  cases S with
  | nil =>
    -- a global has no cell, and nothing is bound before its initializer is evaluated
    obtain ⟨henv, -⟩ := hctx.sees.outside
    have hdeclare : Lexical.declare place name.text r = .ok (place, none) r := by
      unfold Lexical.declare
      rw [hctx.inside]
      rfl
    rw [hdeclare]
    refine .ok (.refl W) hnoted ⟨hctx, ?_⟩
    rw [henv]
    exact .outside
  | cons inner S =>
    obtain ⟨scope, env, henv, hglobal, hlt⟩ := hctx.sees.inside
    -- the name is new to the scope, so it can have a cell of its own
    have hnone : W.cell scope name.text = none := by
      rw [henv] at hown
      exact hown.cell_none hnew
    have hhead : ctx.env.head? = some scope := by rw [henv]; rfl
    have hdeclare : Lexical.declare place name.text r =
        .ok ({ place with names := (name.text, r.cells.size) :: place.names }, some r.cells.size)
          { r with cells := r.cells.push none } := by
      unfold Lexical.declare
      rw [hctx.inside]
      rfl
    rw [hdeclare]
    have hW := World.below_addCell r.cells.size hnone
    refine .ok (.addCell _ hnone fun _ => ⟨hhead, List.mem_cons_self⟩)
      (hnoted.begin hnone hglobal hlt hfree ?_) ⟨?_, ?_⟩
    · exact ⟨ctx, name, initial, m.store, List.mem_cons_self, hhead, rfl⟩
    · exact (hctx.mono hW).declare hfree hhead (World.cell_addCell_self ..)
    · rw [henv]
      exact .inside (World.cell_addCell_self ..)

/-- The declaration of a variable ends. -/
theorem simulates_endVar {name : Name} {cell : Option Cell} {names : Names}
    {post : World → Completion → Ending → Prop}
    (htarget : Target W name.text S ctx.env cell) (hfree : Unreserved name.text)
    (hv : ValueRel W v v') (hpost : post W .normal (.normal names)) :
    Simulates allowed W
      (Watched.lift (Eval.define ctx.env name.text v) >>= fun _ =>
        Watched.note (fun _ => .declares ctx name) >>= fun _ => pure .normal)
      (Lexical.define cell name.text v' >>= fun _ => pure (.normal names)) post := by
  intro m h r hagrees
  obtain ⟨r', hdefine, hagrees'⟩ := hagrees.define htarget hfree hv
  rw [bind_of_ok hdefine]
  refine .ok (.refl W) (hagrees'.note trivial ?_) hpost
  -- what has just been bound is bound
  rintro _ _ scope ⟨⟩ hglobal hhead
  generalize ctx.env = env at htarget hhead ⊢
  cases htarget with
  | outside =>
    cases hhead
    exact absurd rfl hglobal
  | inside hc =>
    cases hhead
    have hlt : scope < m.store.scopes.size :=
      hagrees.bindings.scopes ▸ (hagrees.bindings.entry hc).scope_lt
    show ((m.store.bind scope name.text v).bindings scope).find? name.text |>.isSome
    rw [Store.find?_bind _ hlt, if_pos ⟨rfl, rfl⟩]
    rfl

end Define

/-! ### Names that are bound at once -/

/-- The place after a declaration, and the cell of its name if it is local. -/
def Lexical.Place.declaring (place : Place) (x : String) (c : Cell) : Place × Option Cell :=
  if place.inside then ({ place with names := (x, c) :: place.names }, some c) else (place, none)

/-- The state after a declaration that gives its name a value. -/
def Lexical.State.declaring (r : State) (inside : Bool) (x : String) (v : LValue) : State :=
  if inside then { r with cells := r.cells.push (some v) }
  else { r with globals := r.globals.insert x v }

theorem modify_push {α : Type} (a : Array α) (x : α) (f : α → α) :
    (a.push x).modify a.size f = a.push (f x) := by
  apply Array.ext
  · simp
  · intro i hi hi'
    rw [Array.getElem_modify]
    by_cases hlast : i = a.size
    · subst hlast
      simp
    · rw [if_neg (Ne.symm hlast)]
      have hlt : i < a.size := by
        rw [Array.size_push] at hi'
        omega
      rw [Array.getElem_push_lt hlt, Array.getElem_push_lt hlt]

section Bind

variable {W : World} {P : Enclosing} {S : ScopeNames} {ctx : Context} {place : Place}
  {m : Machine} {h : History} {r : State} {x : String}

/-- A name is declared and given a value that may depend on its cell. -/
theorem declare_define {make : Place → Run LValue} {v' : LValue} {n : Nat}
    (hmake : ∀ cells, make (place.declaring x r.cells.size).1 { r with cells } =
      .ok v' { r with cells, fresh := n }) :
    (do
      let p ← Lexical.declare place x
      let v ← make p.1
      Lexical.define p.2 x v
      pure p) r =
    .ok (place.declaring x r.cells.size) ({ r with fresh := n }.declaring place.inside x v') := by
  cases hinside : place.inside with
  | true =>
    have hdeclare : Lexical.declare place x r =
        .ok (place.declaring x r.cells.size) { r with cells := r.cells.push none } := by
      unfold Lexical.declare Place.declaring
      rw [hinside]
      rfl
    -- the empty cell is filled before anything can read it
    rw [bind_of_ok hdeclare, bind_of_ok (hmake _)]
    unfold Place.declaring State.declaring
    rw [hinside]
    show EStateM.Result.ok _ _ = _
    rw [modify_push]
    rfl
  | false =>
    have hdeclare : Lexical.declare place x r = .ok (place.declaring x r.cells.size) r := by
      unfold Lexical.declare Place.declaring
      rw [hinside]
      rfl
    rw [bind_of_ok hdeclare, bind_of_ok (hmake r.cells)]
    unfold Place.declaring State.declaring
    rw [hinside]
    rfl

/-- The world in which a name is declared, and the states once it has a value. -/
theorem Agrees.declare (hagrees : Agrees W m h r) (hctx : CtxRel W P S ctx place)
    (hown : OwnNames W S ctx.env) (hx : Unreserved x) (hnew : Undeclared x S) :
    ∃ W', Grows (Declaring ctx.env [x]) W W' ∧
      CtxRel W' P (Treewalk.declaring [x] S) ctx (place.declaring x r.cells.size).1 ∧
      Target W' x (Treewalk.declaring [x] S) ctx.env (place.declaring x r.cells.size).2 ∧
      ∀ n v v', ValueRel W' v v' →
        Agrees W' { m with store := { m.store with fresh := n }.define ctx.env x v } h
          ({ r with fresh := n }.declaring place.inside x v') := by
  cases S with
  | nil =>
    obtain ⟨henv, -⟩ := hctx.sees.outside
    unfold Place.declaring State.declaring
    rw [hctx.inside]
    refine ⟨W, .refl W, hctx, ?_, fun n v v' hv => ?_⟩
    · rw [henv]
      exact .outside
    · rw [henv]
      exact (hagrees.setFresh n).writeGlobal x hv
  | cons inner S =>
    obtain ⟨scope, env, henv, hglobal, hlt⟩ := hctx.sees.inside
    have hhead : ctx.env.head? = some scope := by rw [henv]; rfl
    have hnone : W.cell scope x = none := by
      rw [henv] at hown
      exact hown.cell_none hnew
    -- the value may refer to the name itself, so it is related in the new world
    have hctx' := hctx.mono (World.below_addCell r.cells.size hnone)
    have hinside : place.inside = true := hctx.inside
    unfold Place.declaring State.declaring
    simp only [if_pos hinside]
    refine ⟨W.addCell scope x r.cells.size, .addCell _ hnone fun _ => ⟨hhead, List.mem_cons_self⟩,
      hctx'.declare hx hhead (World.cell_addCell_self ..), ?_, fun n v v' hv => ?_⟩
    · rw [henv]
      exact .inside (World.cell_addCell_self ..)
    · rw [henv]
      exact (hagrees.setFresh n).adopt hnone hglobal hlt hv
        fun heq => absurd heq (hx.ne_keyword .superWord)

/-- A declaration that binds its name at once, to a value that is related in the
    world in which the name is declared. -/
theorem simulates_declare (make : Eval Value) (make' : Place → Run LValue)
    (hctx : CtxRel W P S ctx place) (hown : OwnNames W S ctx.env) (hx : Unreserved x)
    (hnew : Undeclared x S)
    (hmake : ∀ {W' m h r within}, CtxRel W' P (declaring [x] S) ctx within → Agrees W m h r →
      ∃ v v' n, make m = .ok v { m with store := { m.store with fresh := n } } ∧
        (∀ cells, make' within { r with cells } = .ok v' { r with cells, fresh := n }) ∧
        ValueRel W' v v') :
    Simulates (Declaring ctx.env [x]) W (Watched.lift (make >>= Eval.define ctx.env x))
      (do
        let p ← Lexical.declare place x
        let v ← make' p.1
        Lexical.define p.2 x v
        pure p)
      fun W' _ p => CtxRel W' P (declaring [x] S) ctx p.1 ∧
        Target W' x (declaring [x] S) ctx.env p.2 := by
  refine .step fun m h r hagrees => ?_
  obtain ⟨W', hW, hctx', htarget, hagrees'⟩ := hagrees.declare hctx hown hx hnew
  obtain ⟨v, v', n, hleft, hright, hv⟩ := hmake hctx' hagrees
  exact ⟨_, _, _, _, W', by rw [bind_of_ok hleft]; rfl, declare_define hright, hW,
    hagrees' n v v' hv, hctx', htarget⟩

/-! ### Functions -/

section Code

variable {kind : FunctionKind} {decl : SourceFun} {decl' : ResolvedFun} {names : Names}
  {env : Env} {isInitializer : Bool}

/-- The code of a declared function. -/
theorem AcceptedFun.code (h : AcceptedFun P kind S decl decl') (hreceives : Receives P S)
    (hthis : isInitializer = true → ∃ S', S = [Keyword.thisWord.text] :: S') :
    CodeRel { P with function := kind } S (Eval.closureOf env decl' isInitializer)
      (Lexical.closureOf names decl isInitializer) := by
  cases h with
  | mk hparams hbody =>
    exact ⟨rfl, rfl, rfl, hbody, hparams.1, unreserved_paramNames hparams.2,
      ⟨hreceives.this, hreceives.super⟩, hthis⟩

theorem AcceptedFun.name (h : AcceptedFun P kind S decl decl') : decl'.name = decl.name := by
  cases h
  rfl

/-- The methods of a class. -/
theorem AcceptedFuns.methods {ms : List SourceFun} {ms' : List ResolvedFun}
    (h : AcceptedFuns P ([Keyword.thisWord.text] :: S) ms ms')
    (hreceives : Receives P ([Keyword.thisWord.text] :: S)) (hsees : SeesNames W S env names) :
    TableRel (MethodRel W) (Eval.methodTable env ms') (Lexical.methodTable names ms) := by
  -- the methods are put into the two tables in the same order
  have hfold {t : Table Closure} {t' : Table LClosure} (ht : TableRel (MethodRel W) t t') :
      TableRel (MethodRel W)
        (ms'.foldl (fun t m => t.insert m.name.text
          (Eval.closureOf env m (m.name.text == initializerName))) t)
        (ms.foldl (fun t m => t.insert m.name.text
          (Lexical.closureOf names m (m.name.text == initializerName))) t') := by
    induction ms generalizing ms' t t' with
    | nil =>
      cases h
      exact ht
    | cons decl ms ih =>
      cases h with
      | cons hdecl h =>
        refine ih h ?_
        simp only [hdecl.name]
        exact ht.insert _ ⟨_, S, hdecl.code hreceives fun _ => ⟨S, rfl⟩, hsees⟩
  exact hfold .empty

end Code

end Bind

/-! ### Declarations as statements -/

/-- Two ways to end that correspond: the next statement sees the names declared
    so far, or related values are returned. -/
inductive EndsAlike (P : Enclosing) (S : ScopeNames) (ctx : Context) (place : Place) (W : World) :
    Completion → Ending → Prop
  | normal {names} : CtxRel W P S ctx { place with names } →
      EndsAlike P S ctx place W .normal (.normal names)
  | returned {v v'} : ValueRel W v v' → EndsAlike P S ctx place W (.returned v) (.returned v')

section Statements

variable {W W' : World} {P : Enclosing} {S : ScopeNames} {ctx : Context} {place within : Place}
  {name : Name}

/-- The place of the next statement. -/
theorem CtxRel.next {names : List String} (hctx : CtxRel W P S ctx place)
    (hwithin : CtxRel W' P (declaring names S) ctx within) :
    CtxRel W' P (declaring names S) ctx { place with names := within.names } := by
  refine ⟨hwithin.sees, hctx.frames, ?_, hwithin.receives⟩
  show place.inside = _
  rw [hctx.inside]
  cases S <;> rfl

theorem simulates_function {decl : SourceFun} {decl' : ResolvedFun}
    (hctx : CtxRel W P S ctx place) (hown : OwnNames W S ctx.env)
    (hname : Declarable decl.name S)
    (hdecl : AcceptedFun P .function (declaring [decl.name.text] S) decl decl') :
    Simulates (Declaring ctx.env [decl.name.text]) W
      (do
        let f ← Watched.lift (Eval.newFunction (Eval.closureOf ctx.env decl' false))
        Watched.lift (Eval.define ctx.env decl'.name.text f)
        pure .normal)
      (do
        let (within, cell) ← Lexical.declare place decl.name.text
        let f ← Lexical.newFunction (Lexical.closureOf within.names decl false)
        Lexical.define cell decl.name.text f
        pure (.normal within.names))
      (EndsAlike P (declaring [decl.name.text] S) ctx place) := by
  -- the evaluators take the pair apart in two ways
  have hright : (do
        let (within, cell) ← Lexical.declare place decl.name.text
        let f ← Lexical.newFunction (Lexical.closureOf within.names decl false)
        Lexical.define cell decl.name.text f
        pure (.normal within.names) : Run Ending) =
      (do
        let p ← Lexical.declare place decl.name.text
        let f ← Lexical.newFunction (Lexical.closureOf p.1.names decl false)
        Lexical.define p.2 decl.name.text f
        pure p) >>= fun p => pure (.normal p.1.names) := by
    simp only [bind_assoc, pure_bind]
  rw [hright, ← bind_assoc, ← Watched.lift_bind, hdecl.name]
  refine (simulates_declare (Eval.newFunction (Eval.closureOf ctx.env decl' false))
    (fun within => Lexical.newFunction (Lexical.closureOf within.names decl false))
    hctx hown hname.1 hname.2 ?_).bind (fun _ _ _ h => h) fun _ hpost => .pure ?_
  · intro W' m h r within hwithin hagrees
    refine ⟨.function r.fresh (Eval.closureOf ctx.env decl' false),
      .function r.fresh (Lexical.closureOf within.names decl false), r.fresh + 1, ?_,
      fun cells => rfl, ?_⟩
    · rw [← hagrees.fresh]
      rfl
    · exact .function ⟨_, _, hdecl.code hwithin.receives nofun, hwithin.sees⟩
  · exact .normal (hctx.next hpost.1)

/-- The name of a class is bound before there is the class. -/
theorem simulates_declareNil {α β : Type} {post : World → α → β → Prop} {rest : Watched α}
    {rest' : Place × Option Cell → Run β} (hctx : CtxRel W P S ctx place)
    (hown : OwnNames W S ctx.env) (hname : Declarable name S)
    (hrest : ∀ {W' p}, W.Below W' → CtxRel W' P (declaring [name.text] S) ctx p.1 →
      Target W' name.text (declaring [name.text] S) ctx.env p.2 →
      Simulates Nowhere W' rest (rest' p) post) :
    Simulates (Declaring ctx.env [name.text]) W
      (do
        Watched.lift (Eval.define ctx.env name.text .nil)
        rest)
      (do
        let p ← Lexical.declare place name.text
        Lexical.define p.2 name.text .nil
        rest' p)
      post := by
  have hnil := simulates_declare (pure .nil) (fun _ => pure .nil) hctx hown hname.1 hname.2 <| by
    intro W' m h r within _ hagrees
    refine ⟨.nil, .nil, r.fresh, ?_, fun _ => rfl, .nil⟩
    rw [← hagrees.fresh]
    rfl
  have hboth := hnil.bind (f := fun _ => rest) (g := rest') (fun _ _ _ => False.elim)
    fun hW hpost => hrest hW.toBelow hpost.1 hpost.2
  simpa only [bind_assoc, pure_bind] using hboth

theorem simulates_superclassOf {v : Value} {v' : LValue} {allowed : ScopeId → String → Prop}
    (hframes : place.frames = ctx.frames) (hv : ValueRel W v v') :
    Simulates allowed W (Watched.lift (Eval.superclassOf ctx name v))
      (Lexical.superclassOf place name v') fun W' p p' => p.1 = p'.1 ∧ ClassRel W' p.2 p'.2 := by
  cases hv with
  | cls hd => exact .pure ⟨rfl, hd⟩
  | _ => exact .fail _ _ hframes

/-- The class itself is bound to the name. -/
theorem simulates_defineClass {cell : Option Cell} {definition : Class} {definition' : LClass}
    {names : Names} (htarget : Target W name.text S ctx.env cell) (hfree : Unreserved name.text)
    (hdef : ClassRel W definition definition') (hctx : CtxRel W P S ctx { place with names }) :
    Simulates Nowhere W
      (do
        let id ← Watched.lift (Eval.updateStore (·.identity))
        Watched.lift (Eval.define ctx.env name.text (.cls id definition))
        pure .normal)
      (do
        let id ← Lexical.identity
        Lexical.define cell name.text (.cls id definition')
        pure (.normal names))
      (EndsAlike P S ctx place) := by
  refine simulates_identity.seq fun {W' id _} hW hid => ?_
  subst hid
  refine (simulates_define (htarget.mono hW) hfree (.cls (hdef.mono hW))).seq fun hW' _ => .pure ?_
  exact .normal (hctx.mono (hW.trans hW'))

theorem simulates_class {methods : List SourceFun} {methods' : List ResolvedFun}
    (hctx : CtxRel W P S ctx place) (hown : OwnNames W S ctx.env) (hname : Declarable name S)
    (hmethods : AcceptedFuns { P with cls := .plain } (methodScopes name false S) methods methods') :
    Simulates (Declaring ctx.env [name.text]) W
      (do
        Watched.lift (Eval.declareClass ctx name none methods')
        pure .normal)
      (do
        let names ← Lexical.declareClass place name none methods
        pure (.normal names))
      (EndsAlike P (declaring [name.text] S) ctx place) := by
  simp only [Eval.declareClass, Lexical.declareClass, Watched.lift_bind, bind_assoc, pure_bind]
  -- the methods see the name of the class, which by then is bound
  refine simulates_declareNil hctx hown hname fun {W' p} _ hctx' htarget => ?_
  refine simulates_defineClass htarget hname.1 (.base ?_) (hctx.next hctx')
  exact hmethods.methods (.method rfl) hctx'.sees

theorem simulates_subclass {methods : List SourceFun} {methods' : List ResolvedFun}
    {superName : Name} {use : Distance} (hctx : CtxRel W P S ctx place)
    (hown : OwnNames W S ctx.env) (hname : Declarable name S) (hother : superName.text ≠ name.text)
    (huse : IsDistance (declaring [name.text] S) superName.text use)
    (hmethods : AcceptedFuns { P with cls := .derived } (methodScopes name true S) methods methods') :
    Simulates (Declaring ctx.env [name.text]) W
      (do
        Watched.note (.executes ctx (.classDecl name (some (superName, use)) methods'))
        Watched.lift (Eval.declareClass ctx name (some (superName, use)) methods')
        pure .normal)
      (do
        let names ← Lexical.declareClass place name (some (superName, ())) methods
        pure (.normal names))
      (EndsAlike P (declaring [name.text] S) ctx place) := by
  -- the superclass is looked up before the name of the class is bound, but at the
  -- distance found with it declared; this is the same since the names differ
  have huse' : IsDistance S superName.text use :=
    (isDistance_declaring (by simpa using hother)).mp huse
  have hsafe (store : Store Value)
      (hscope : ∀ d, use = some d → ∃ scope, Store.scopeAt ctx.env d = .ok scope) :
      (Event.executes ctx (.classDecl name (some (superName, use)) methods') store).Safe := by
    cases use with
    | none => trivial
    | some d => exact hscope d rfl
  simp only [Eval.declareClass, Lexical.declareClass, Watched.lift_bind, bind_assoc, pure_bind]
  rw [← bind_assoc]
  refine (simulates_variable hctx huse' (fun store => rfl) hsafe).first fun {W₁ v v'} hW₁ hv => ?_
  have hctx₁ := hctx.mono hW₁.toBelow
  have hown₁ := hown.keep hctx.sees hW₁
  refine (simulates_superclassOf hctx₁.frames hv).first fun {W₂ found found'} hW₂ hsuper => ?_
  obtain ⟨superId, superclass⟩ := found
  obtain ⟨superId', superclass'⟩ := found'
  obtain ⟨rfl, hdef⟩ := hsuper
  have hctx₂ := hctx₁.mono hW₂.toBelow
  refine simulates_declareNil hctx₂ (hown₁.keep hctx₁.sees hW₂) hname
    fun {W₃ p} hW₃ hctx₃ htarget => ?_
  have hdef₃ := hdef.mono hW₃
  -- the methods of a subclass are inside one more scope, which has `super`
  refine simulates_enclose hctx₃.sees (.cls hdef₃) (fun _ => ⟨superId, superclass, rfl⟩) ?_
  intro W₄ env superCell hW₄ hsees
  refine simulates_defineClass (htarget.mono hW₄) hname.1 (.derived (hdef₃.mono hW₄) ?_)
    ((hctx.next hctx₃).mono hW₄)
  exact hmethods.methods .submethod hsees

end Statements

/-! ### Scopes and parameters -/

section Parameters

variable {W : World} {P : Enclosing} {S : ScopeNames} {env : Env} {names : Names}

/-- A new scope, and what is done inside of it. -/
theorem simulates_openScope {α β : Type} {post : World → α → β → Prop} {rest : Env → Watched α}
    {y : Run β} (hsees : SeesNames W S env names)
    (hrest : ∀ {W' scope}, W.Below W' → W.scopes ≤ scope →
      SeesNames W' ([] :: S) (scope :: env) names → OwnNames W' ([] :: S) (scope :: env) →
      Simulates (Innermost (scope :: env)) W' (rest (scope :: env)) y post) :
    Simulates Nowhere W (Watched.lift (Eval.openScope env) >>= rest) y post := by
  intro m h r hagrees
  have hopen : Watched.lift (Eval.openScope env) (m, h) =
      .ok (W.scopes :: env) ({ m with store := (m.store.extend env).2 }, h) := by
    rw [← hagrees.bindings.scopes]
    rfl
  rw [bind_of_ok hopen]
  have hinside := hrest W.below_addScope (Nat.le_refl _) (hsees.enter hagrees.bindings.pos)
    (.enter hagrees.bindings S env) _ _ _ (hagrees.addScope env)
  generalize rest (W.scopes :: env) _ = u at hinside ⊢
  generalize y r = u' at hinside ⊢
  cases hinside with
  | error hagrees' hfault => exact .error hagrees' hfault
  | ok hW hagrees' hpost =>
    refine .ok ((Grows.addScope W).trans hW ?_) hagrees' hpost
    -- the scope that may get names is none of those there were
    rintro s x hs ⟨⟩
    exact absurd hs (Nat.lt_irrefl _)

/-- Some arguments that are related. -/
abbrev ValuesRel (W : World) : List Value → List LValue → Prop := List.Forall₂ (ValueRel W)

/-- A parameter is bound in the innermost scope. -/
theorem simulates_bindParam {scope : ScopeId} {inner : List String} {p : String} {v : Value}
    {v' : LValue} (hsees : SeesNames W (inner :: S) (scope :: env) names)
    (hown : OwnNames W (inner :: S) (scope :: env)) (hp : Unreserved p) (hnew : p ∉ inner)
    (hv : ValueRel W v v') :
    Simulates (Innermost (scope :: env)) W (Watched.lift (Eval.define (scope :: env) p v))
      (Lexical.newCell (some v')) fun W' _ c =>
        SeesNames W' ((p :: inner) :: S) (scope :: env) ((p, c) :: names) ∧
          OwnNames W' ((p :: inner) :: S) (scope :: env) := by
  refine .step fun m h r hagrees => ?_
  obtain ⟨_, _, henv, hglobal, hlt⟩ := hsees.inside
  cases henv
  have hnone := hown.cell_none hnew
  have hgrows : Grows (Declaring (scope :: env) [p]) W (W.addCell scope p r.cells.size) :=
    .addCell _ hnone fun _ => ⟨rfl, List.mem_cons_self⟩
  refine ⟨_, _, _, _, _, rfl, rfl, hgrows.weaken fun _ _ _ h => h.1, ?_, ?_,
    hown.grow [p] hsees hgrows fun _ _ h => h.2⟩
  · exact hagrees.adopt hnone hglobal hlt (hv.mono hgrows.toBelow)
      fun heq => absurd heq (hp.ne_keyword .superWord)
  · exact (hsees.mono hgrows.toBelow).declare (World.cell_addCell_self ..)

/-- Parameters are bound in the innermost scope. -/
theorem simulates_bindParams {scope : ScopeId} {inner ps : List String} {vs : List Value}
    {vs' : List LValue} (hsees : SeesNames W (inner :: S) (scope :: env) names)
    (hown : OwnNames W (inner :: S) (scope :: env)) (hfree : ∀ p ∈ ps, Unreserved p)
    (hdistinct : ps.Nodup) (hnew : ∀ p ∈ ps, p ∉ inner) (hlength : vs.length = ps.length)
    (hvs : ValuesRel W vs vs') :
    Simulates (Innermost (scope :: env)) W (Watched.lift (Eval.bindParams (scope :: env) ps vs))
      (Lexical.bindParams names ps vs') fun W' _ names' =>
        ∃ inner', (∀ x, x ∈ inner' ↔ x ∈ ps ∨ x ∈ inner) ∧
          SeesNames W' (inner' :: S) (scope :: env) names' ∧
          OwnNames W' (inner' :: S) (scope :: env) := by
  induction ps generalizing W inner names vs vs' with
  | nil =>
    -- the parameters that are left decide; there are as many arguments
    have hnil : vs = [] := List.length_eq_zero_iff.mp hlength
    subst hnil
    cases hvs
    exact .pure ⟨inner, fun x => by simp, hsees, hown⟩
  | cons p ps ih =>
    cases hvs with
    | nil => cases hlength
    | @cons v v' vs vs' hv hvs =>
      -- each parameter is new to the scope because no two of them are the same
      obtain ⟨hp, hdistinct⟩ := List.nodup_cons.mp hdistinct
      unfold Eval.bindParams Lexical.bindParams
      rw [Watched.lift_bind]
      refine (simulates_bindParam hsees hown (hfree p List.mem_cons_self)
        (hnew p List.mem_cons_self) hv).bind (fun _ _ _ h => h) fun {W' _ c} hW hpost => ?_
      obtain ⟨hsees', hown'⟩ := hpost
      have hrest := ih hsees' hown' (fun q hq => hfree q (List.mem_cons_of_mem p hq)) hdistinct
        (fun q hq => ?_) (Nat.succ.inj hlength) (hvs.imp fun _ _ hv => hv.mono hW.toBelow)
      · refine hrest.mono (fun _ _ _ h => h) fun _ hpost => ?_
        obtain ⟨inner', hinner', hbound⟩ := hpost
        refine ⟨inner', fun x => ?_, hbound⟩
        rw [hinner', List.mem_cons, List.mem_cons]
        tauto
      · rintro (_ | ⟨_, hmem⟩)
        · exact hp hq
        · exact hnew q (List.mem_cons_of_mem p hq) hmem

end Parameters

end Treewalk
