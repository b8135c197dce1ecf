import Treewalk.Proofs.Lexical.Simulation

/-! # Elementary steps

    The elementary steps of the two evaluators, from looking up a name to making
    a class, simulate each other. -/

namespace Treewalk

open Lexical

/-! ### Places -/

/-- A context of the machine and a place of lexical evaluation that correspond. -/
structure CtxRel (W : World) (P : Enclosing) (S : ScopeNames) (ctx : Context) (place : Place) :
    Prop where
  sees : SeesNames W S ctx.env place.names
  frames : place.frames = ctx.frames
  inside : place.inside = !S.isEmpty
  receives : Receives P S

theorem CtxRel.mono {W W' : World} {P : Enclosing} {S : ScopeNames} {ctx : Context} {place : Place}
    (h : CtxRel W P S ctx place) (hW : W.Below W') : CtxRel W' P S ctx place :=
  { h with sees := h.sees.mono hW }

section Steps

variable {W : World} {P : Enclosing} {S : ScopeNames} {ctx : Context} {place : Place}
  {m : Machine} {h : History} {r : State} {allowed : ScopeId → String → Prop}

/-! ### Names -/

/-- What is found at a distance is what the cell holds. -/
theorem find_of_distance {x : String} {d : Nat} (hagrees : Agrees W m h r)
    (hctx : CtxRel W P S ctx place) (hd : IsDistance S x (some d)) :
    ∃ scope c, Store.scopeAt ctx.env d = .ok scope ∧ W.cell scope x = some c ∧
      place.names.lookup x = some c ∧
      Option.Rel (ValueRel W) ((m.store.bindings scope).find? x) r.cells[c]?.join := by
  obtain ⟨scope, c, hscope, hc, hlookup⟩ := hctx.sees.cell_of_distance hd
  exact ⟨scope, c, hscope, hc, hlookup, (hagrees.bindings.entry hc).content⟩

/-- A name that is bound. -/
theorem lookUp_bound {name : Name} {d : Nat} {scope : ScopeId} {c : Cell} {v : Value}
    {v' : LValue} (hscope : Store.scopeAt ctx.env d = .ok scope)
    (hlookup : place.names.lookup name.text = some c)
    (hv : (m.store.bindings scope).find? name.text = some v)
    (hv' : r.cells[c]?.join = some v') :
    m.store.getAt ctx.env d name.text = .ok v ∧ Lexical.lookUp place name r = .ok v' r := by
  constructor
  · rw [Store.getAt_eq _ hscope, hv]
  · unfold Lexical.lookUp readCell
    rw [hlookup]
    cases hcell : r.cells[c]? with
    | none =>
      rw [hcell] at hv'
      cases hv'
    | some content =>
      rw [hcell] at hv'
      cases hv'
      simp only [hcell]

/-- A name that is not bound. -/
theorem lookUp_unbound {name : Name} {d : Nat} {scope : ScopeId} {c : Cell}
    (hscope : Store.scopeAt ctx.env d = .ok scope)
    (hlookup : place.names.lookup name.text = some c) (hframes : place.frames = ctx.frames)
    (hv : (m.store.bindings scope).find? name.text = none) (hv' : r.cells[c]?.join = none) :
    m.store.getAt ctx.env d name.text = .error (.unbound name.text) ∧
      Lexical.lookUp place name r = .error ⟨.unset name.text, ctx.frames⟩ r := by
  constructor
  · rw [Store.getAt_eq _ hscope, hv]
  · unfold Lexical.lookUp readCell
    rw [hlookup]
    cases hcell : r.cells[c]? with
    | none =>
      simp only [hcell]
      rw [← hframes]
      rfl
    | some content =>
      rw [hcell] at hv'
      cases hv'
      simp only [hcell]
      rw [← hframes]
      rfl

theorem lookUp_local_eq (name : Name) (d : Nat) : Eval.lookUp ctx name (some d) m =
    Eval.access ctx (m.store.getAt ctx.env d name.text) m :=
  rfl

theorem lookUp_global_eq (name : Name) : Eval.lookUp ctx name none m =
    match (m.store.bindings globalScope).find? name.text with
    | some v => .ok v m
    | none => .error ⟨.issue (.undefinedVariable name.text) name.line, ctx.frames⟩ m := by
  rw [← Store.lookup?_globalEnv]
  unfold Eval.lookUp
  rw [bind_of_ok (show Eval.readStore m = .ok m.store m from rfl)]
  cases m.store.lookup? globalEnv name.text <;> rfl

theorem lookUp_outside_eq {name : Name} (hctx : CtxRel W P S ctx place)
    (hd : IsDistance S name.text none) : Lexical.lookUp place name r =
    match r.globals.find? name.text with
    | some v => .ok v r
    | none => .error ⟨.issue (.undefinedVariable name.text) name.line, ctx.frames⟩ r := by
  unfold Lexical.lookUp
  rw [hctx.sees.lookup_of_global hd, ← hctx.frames]
  rfl

/-- A name among the globals. -/
theorem simulates_lookUp_global {name : Name} (hctx : CtxRel W P S ctx place)
    (hd : IsDistance S name.text none) :
    Simulates allowed W (Watched.lift (Eval.lookUp ctx name none)) (Lexical.lookUp place name)
      ValueRel := by
  intro m h r hagrees
  have hrel := hagrees.globals.entries name.text
  unfold Watched.lift
  rw [lookUp_outside_eq hctx hd, lookUp_global_eq]
  generalize (m.store.bindings globalScope).find? name.text = found at hrel ⊢
  generalize r.globals.find? name.text = found' at hrel ⊢
  cases hrel with
  | some hv => exact .ok (.refl W) hagrees hv
  | none => exact .error hagrees True.intro

/-- The use of a variable.  If it is unset, its read is the last event. -/
theorem simulates_variable {name : Name} {use : Distance} {event : Store Value → Event}
    (hctx : CtxRel W P S ctx place) (hd : IsDistance S name.text use)
    (hreads : ∀ store, (event store).reads? = some (ctx, name, use))
    (hsafe : ∀ store, (∀ d, use = some d → ∃ scope, Store.scopeAt ctx.env d = .ok scope) →
      (event store).Safe) :
    Simulates allowed W (Watched.note event >>= fun _ => Watched.lift (Eval.lookUp ctx name use))
      (Lexical.lookUp place name) ValueRel := by
  -- only the end of a `var` statement could claim that the name is bound
  have hother (store : Store Value) (ctx' : Context) (name' : Name) :
      event store ≠ .declares ctx' name' := by
    intro heq
    have hread := hreads store
    rw [heq] at hread
    cases hread
  cases use with
  | none =>
    exact .after_note (fun m _ _ _ => hsafe m.store nofun) hother (simulates_lookUp_global hctx hd)
  | some d =>
    intro m h r hagrees
    obtain ⟨scope, c, hscope, hc, hlookup, hrel⟩ := find_of_distance hagrees hctx hd
    have hsafe : (event m.store).Safe := by
      refine hsafe m.store ?_
      rintro _ ⟨⟩
      exact ⟨scope, hscope⟩
    have hnoted := hagrees.note hsafe fun ctx' name' _ heq => absurd heq (hother _ ctx' name')
    show Outcome allowed W ValueRel
      (Watched.lift (Eval.lookUp ctx name (some d)) (m, event m.store :: h)) _
    unfold Watched.lift
    rw [lookUp_local_eq]
    -- the binding and the cell are both there or both missing
    cases hfind : (m.store.bindings scope).find? name.text with
    | some v =>
      cases hcell : r.cells[c]?.join with
      | none =>
        rw [hfind, hcell] at hrel
        cases hrel
      | some v' =>
        rw [hfind, hcell] at hrel
        cases hrel with
        | some hv =>
          obtain ⟨hleft, hright⟩ := lookUp_bound hscope hlookup hfind hcell
          rw [hleft, hright]
          exact .ok (.refl W) hnoted hv
    | none =>
      cases hcell : r.cells[c]?.join with
      | some v' =>
        rw [hfind, hcell] at hrel
        cases hrel
      | none =>
        obtain ⟨hleft, hright⟩ := lookUp_unbound hscope hlookup hctx.frames hfind hcell
        rw [hleft, hright]
        -- the binding is missing, so its declaration has begun and has not ended
        have hentry := hnoted.bindings.entry hc
        refine .error hnoted ⟨event m.store, h, ctx, name, d, scope, rfl, hreads _, rfl, hscope,
          hentry.begun hfind, fun hdeclared => ?_⟩
        have hbound := hnoted.bindings.declared hentry.notGlobal hdeclared
        rw [hfind] at hbound
        cases hbound

/-- A name whose bindings are never missing. -/
theorem lookUp_present {q : Value → Prop} {d : Nat} (name : Name) (hagrees : Agrees W m h r)
    (hctx : CtxRel W P S ctx place) (hd : IsDistance S name.text (some d))
    (hpresent : ∀ {scope c}, EntryAgrees W m.store h r.cells scope name.text c →
      ∃ v, (m.store.bindings scope).find? name.text = some v ∧ q v) :
    ∃ v v', m.store.getAt ctx.env d name.text = .ok v ∧ q v ∧
      Lexical.lookUp place name r = .ok v' r ∧ ValueRel W v v' := by
  obtain ⟨scope, c, hscope, hc, hlookup, hrel⟩ := find_of_distance hagrees hctx hd
  obtain ⟨v, hfind, hq⟩ := hpresent (hagrees.bindings.entry hc)
  cases hcell : r.cells[c]?.join with
  | none =>
    rw [hfind, hcell] at hrel
    cases hrel
  | some v' =>
    rw [hfind, hcell] at hrel
    cases hrel with
    | some hv =>
      obtain ⟨hleft, hright⟩ := lookUp_bound hscope hlookup hfind hcell
      exact ⟨v, v', hleft, hq, hright, hv⟩

theorem lookUp_this {d : Nat} (line : Int) (hagrees : Agrees W m h r)
    (hctx : CtxRel W P S ctx place) (hd : IsDistance S Keyword.thisWord.text (some d)) :
    ∃ v v', m.store.getAt ctx.env d Keyword.thisWord.text = .ok v ∧
      Lexical.lookUp place ⟨Keyword.thisWord.text, line⟩ r = .ok v' r ∧ ValueRel W v v' := by
  obtain ⟨v, v', hget, -, hlookup, hv⟩ :=
    lookUp_present (q := fun _ => True) ⟨Keyword.thisWord.text, line⟩ hagrees hctx hd fun hentry => by
      obtain ⟨v, hfind⟩ := hentry.receiver rfl
      exact ⟨v, hfind, trivial⟩
  exact ⟨v, v', hget, hlookup, hv⟩

theorem lookUp_super {d : Nat} (line : Int) (hagrees : Agrees W m h r)
    (hctx : CtxRel W P S ctx place) (hd : IsDistance S Keyword.superWord.text (some d)) :
    ∃ id definition definition',
      m.store.getAt ctx.env d Keyword.superWord.text = .ok (.cls id definition) ∧
      Lexical.lookUp place ⟨Keyword.superWord.text, line⟩ r = .ok (.cls id definition') r ∧
      ClassRel W definition definition' := by
  obtain ⟨v, v', hget, ⟨id, definition, rfl⟩, hlookup, hv⟩ :=
    lookUp_present (q := fun v => ∃ id definition, v = .cls id definition)
      ⟨Keyword.superWord.text, line⟩ hagrees hctx hd fun hentry => by
        obtain ⟨id, definition, hfind⟩ := hentry.superclass rfl
        exact ⟨_, hfind, id, definition, rfl⟩
  cases hv with
  | @cls _ _ definition' hdef => exact ⟨id, definition, definition', hget, hlookup, hdef⟩

/-- The use of `this`. -/
theorem simulates_this {line : Int} {use : Distance} (hctx : CtxRel W P S ctx place)
    (hcls : P.cls ≠ .none) (hd : IsDistance S Keyword.thisWord.text use) :
    Simulates allowed W
      (Watched.note (.evaluates ctx (.this line use)) >>= fun _ =>
        Watched.lift (Eval.lookUp ctx ⟨Keyword.thisWord.text, line⟩ use))
      (Lexical.lookUp place ⟨Keyword.thisWord.text, line⟩) ValueRel := by
  obtain ⟨d, hd'⟩ := hctx.receives.this hcls
  -- resolution found the scope that a method gets for its receiver
  cases hd.unique hd'
  intro m h r hagrees
  obtain ⟨v, v', hget, hlookup, hv⟩ := lookUp_this line hagrees hctx hd
  have hnoted : Agrees W m (.evaluates ctx (.this line (some d)) m.store :: h) r :=
    hagrees.note ⟨d, v, rfl, hget⟩ nofun
  show Outcome allowed W ValueRel (Watched.lift _ (m, _ :: h)) _
  unfold Watched.lift
  rw [lookUp_local_eq, hget, hlookup]
  exact .ok (.refl W) hnoted hv

/-- The receiver that an initializer yields. -/
theorem simulates_receiver {c : Closure} {names : Names} {frames : List Frame} (env : Env)
    (hctx : CtxRel W P ([Keyword.thisWord.text] :: S) ⟨c.env, frames⟩ ⟨names, true, frames⟩) :
    Simulates allowed W
      (do
        Watched.note (.initializes c)
        let store ← Watched.lift Eval.readStore
        Watched.lift (Eval.access ⟨env, frames⟩ (store.getAt c.env 0 Keyword.thisWord.text)))
      (Lexical.lookUp ⟨names, true, frames⟩ ⟨Keyword.thisWord.text, 0⟩) ValueRel := by
  intro m h r hagrees
  obtain ⟨v, v', hget, hlookup, hv⟩ :=
    lookUp_this 0 hagrees hctx (isDistance_cons_zero.mpr List.mem_cons_self)
  have hnoted : Agrees W m (.initializes c m.store :: h) r := hagrees.note ⟨v, hget⟩ nofun
  show Outcome allowed W ValueRel (Watched.lift (Eval.access _ (m.store.getAt _ 0 _)) (m, _ :: h)) _
  rw [hget, hlookup]
  exact .ok (.refl W) hnoted hv

/-! ### Assignments -/

theorem targetScope_global_eq (name : Name) : Eval.targetScope ctx name none m =
    if (m.store.bindings globalScope).contains name.text then .ok globalScope m
    else .error ⟨.issue (.undefinedVariable name.text) name.line, ctx.frames⟩ m := by
  show (Eval.readStore >>= _) m = _
  rw [bind_of_ok (show Eval.readStore m = .ok m.store m from rfl), Store.owner?_globalEnv]
  by_cases hbound : (m.store.bindings globalScope).contains name.text = true
  · rw [if_pos hbound, if_pos hbound]
    rfl
  · rw [if_neg hbound, if_neg hbound]
    rfl

theorem assignTo_global_eq (name : Name) (v : Value) : Eval.assignTo ctx name none v m =
    if (m.store.bindings globalScope).contains name.text then
      .ok () { m with store := m.store.bind globalScope name.text v }
    else .error ⟨.issue (.undefinedVariable name.text) name.line, ctx.frames⟩ m := by
  have htarget : Eval.targetScope ctx name none m = _ := targetScope_global_eq name
  unfold Eval.assignTo
  by_cases hbound : (m.store.bindings globalScope).contains name.text = true
  · rw [if_pos hbound] at htarget ⊢
    rw [bind_of_ok htarget]
    rfl
  · rw [if_neg hbound] at htarget ⊢
    rw [bind_of_error htarget]

theorem simulates_assignTo {name : Name} {use : Distance} {v : Value} {v' : LValue}
    (hctx : CtxRel W P S ctx place) (hname : Unreserved name.text)
    (hd : IsDistance S name.text use) (hv : ValueRel W v v') :
    Simulates allowed W (Watched.lift (Eval.assignTo ctx name use v))
      (Lexical.assignTo place name v') fun _ _ _ => True := by
  intro m h r hagrees
  cases use with
  | some d =>
    -- a local name: its binding and its cell change
    obtain ⟨scope, c, hscope, hc, hlookup, -⟩ := find_of_distance hagrees hctx hd
    have hleft : Eval.assignTo ctx name (some d) v m =
        .ok () { m with store := m.store.bind scope name.text v } := by
      unfold Eval.assignTo Eval.targetScope
      simp only [hscope]
      rfl
    have hright : Lexical.assignTo place name v' r =
        .ok () { r with cells := r.cells.modify c fun _ => some v' } := by
      unfold Lexical.assignTo
      rw [hlookup]
      rfl
    unfold Watched.lift
    rw [hleft, hright]
    exact .ok (.refl W) (hagrees.fill hc hname hv) trivial
  | none =>
    have hright : Lexical.assignTo place name v' r =
        if r.globals.contains name.text then
          .ok () { r with globals := r.globals.insert name.text v' }
        else .error ⟨.issue (.undefinedVariable name.text) name.line, ctx.frames⟩ r := by
      unfold Lexical.assignTo
      rw [hctx.sees.lookup_of_global hd, ← hctx.frames]
      rfl
    unfold Watched.lift
    rw [assignTo_global_eq, hright, hagrees.globals.contains name.text]
    by_cases hbound : r.globals.contains name.text = true
    · rw [if_pos hbound, if_pos hbound]
      exact .ok (.refl W) (hagrees.writeGlobal name.text hv) trivial
    · rw [if_neg hbound, if_neg hbound]
      exact .error hagrees trivial

/-! ### Functions and objects -/

theorem simulates_operator {line : Int} {x : OpResult} {x' : OpResult Unit Names}
    (hframes : place.frames = ctx.frames) (hx : ResultRel W x x') :
    Simulates allowed W (Watched.lift (Eval.operator ctx line x)) (Lexical.operator place line x')
      ValueRel := by
  cases hx with
  | ok hv => exact .pure hv
  | error => exact .fail _ line hframes

theorem simulates_printLine (line : String) :
    Simulates allowed W (Watched.lift (Eval.printLine line)) (Lexical.printLine line)
      fun _ _ _ => True :=
  .step fun _ _ _ hagrees => ⟨_, _, _, _, W, rfl, rfl, .refl W, hagrees.print line, trivial⟩

theorem simulates_readClock :
    Simulates allowed W (Watched.lift Eval.readClock) Lexical.readClock
      fun _ x x' => x = x' := by
  refine .step fun m h r hagrees =>
    ⟨_, _, _, _, W, rfl, rfl, .refl W, hagrees.readClock, ?_⟩
  rw [hagrees.clock, hagrees.readings]

theorem simulates_identity :
    Simulates allowed W (Watched.lift (Eval.updateStore (·.identity))) Lexical.identity
      fun _ id id' => id = id' :=
  .step fun _ _ _ hagrees => ⟨_, _, _, _, W, rfl, rfl, .refl W, hagrees.identity, hagrees.fresh⟩

theorem simulates_newObject :
    Simulates allowed W (Watched.lift (Eval.updateStore (·.newObject))) Lexical.newObject
      fun _ id id' => id = id' :=
  .step fun _ _ _ hagrees =>
    ⟨_, _, _, _, W, rfl, rfl, .refl W, hagrees.newObject, hagrees.objectCount⟩

theorem simulates_setField {v : Value} {v' : LValue} (id : Nat) (name : String)
    (hv : ValueRel W v v') :
    Simulates allowed W (Watched.lift (Eval.modifyStore (·.setField id name v)))
      (Lexical.setField id name v') fun _ _ _ => True :=
  .step fun _ _ _ hagrees =>
    ⟨_, _, _, _, W, rfl, rfl, .refl W, hagrees.setField id name hv, trivial⟩

theorem simulates_newFunction {c : Closure} {c' : LClosure} (hc : ClosureRel W c c') :
    Simulates allowed W (Watched.lift (Eval.newFunction c)) (Lexical.newFunction c') ValueRel := by
  refine .step fun m h r hagrees =>
    ⟨_, _, _, _, W, rfl, rfl, .refl W, hagrees.identity, ?_⟩
  show ValueRel W (.function m.store.fresh c) (.function r.fresh c')
  rw [hagrees.fresh]
  exact .function hc

/-- A new scope with one name in it, and what is done inside of it. -/
theorem simulates_enclose {α β : Type} {post : World → α → β → Prop} {env : Env} {names : Names}
    {x : String} {v : Value} {v' : LValue} {rest : Env → Watched α} {rest' : Cell → Run β}
    (hsees : SeesNames W S env names) (hv : ValueRel W v v')
    (hsuper : x = Keyword.superWord.text → ∃ id definition, v = .cls id definition)
    (hrest : ∀ {W' env' c}, W.Below W' → SeesNames W' ([x] :: S) env' ((x, c) :: names) →
      Simulates Nowhere W' (rest env') (rest' c) post) :
    Simulates Nowhere W
      (do
        let env' ← Watched.lift (Eval.openScope env)
        Watched.lift (Eval.define env' x v)
        rest env')
      (do
        let c ← Lexical.newCell (some v')
        rest' c)
      post := by
  have hopen : Simulates Nowhere W
      (Watched.lift do
        let env' ← Eval.openScope env
        Eval.define env' x v
        pure env')
      (Lexical.newCell (some v'))
      fun W' env' c => SeesNames W' ([x] :: S) env' ((x, c) :: names) := by
    refine .step fun m h r hagrees => ?_
    -- the next scope and the next cell are new, so the name gets both
    have hnone := hagrees.bindings.cell_scopes x
    refine ⟨W.scopes :: env, { m with store := (m.store.extend env).2.bind W.scopes x v }, _, _, _,
      ?_, rfl, .enclosing _ hnone, hagrees.enclose env hv hsuper,
      hsees.enclose hagrees.bindings.pos hnone⟩
    rw [← hagrees.bindings.scopes]
    rfl
  have hboth := hopen.seq hrest
  simpa only [Watched.lift_bind, Watched.lift_pure, bind_assoc, pure_bind] using hboth

/-- A method gets its receiver in a scope of its own. -/
theorem simulates_bindMethod {c : Closure} {c' : LClosure} {v : Value} {v' : LValue}
    (hc : MethodRel W c c') (hv : ValueRel W v v') :
    Simulates Nowhere W (Watched.lift (Eval.bindMethod c v)) (Lexical.bindMethod c' v')
      fun W' b b' => ClosureRel W' b b' ∧ b.params = c.params := by
  obtain ⟨P, S, hcode, hsees⟩ := hc
  unfold Eval.bindMethod
  simp only [Watched.lift_bind, Watched.lift_pure]
  -- the new scope has `this`, which is not `super`
  refine simulates_enclose hsees hv (fun heq => absurd heq (by decide)) fun _ hsees' => .pure ?_
  exact ⟨⟨P, _, hcode.withEnv _ _, hsees'⟩, rfl⟩

/-- A method that is found, bound to a receiver. -/
theorem simulates_boundMethod {c : Closure} {c' : LClosure} {v : Value} {v' : LValue}
    (hc : MethodRel W c c') (hv : ValueRel W v v') :
    Simulates Nowhere W (Watched.lift (Eval.bindMethod c v >>= Eval.newFunction))
      (Lexical.bindMethod c' v' >>= Lexical.newFunction) ValueRel := by
  rw [Watched.lift_bind]
  exact (simulates_bindMethod hc hv).seq fun _ hbound => simulates_newFunction hbound.1

/-- A method of a class, bound to a receiver. -/
theorem simulates_method {d : Class} {d' : LClass} {v : Value} {v' : LValue} (name : Name)
    (hframes : place.frames = ctx.frames) (hd : ClassRel W d d') (hv : ValueRel W v v') :
    Simulates Nowhere W
      (Watched.lift (Eval.boundMethod ctx name v (d.findMethod? name.text)))
      (match d'.findMethod? name.text with
        | some method => Lexical.bindMethod method v' >>= Lexical.newFunction
        | none => Lexical.fail place (.undefinedProperty name.text) name.line)
      ValueRel := by
  have hrel := hd.findMethod? name.text
  generalize d.findMethod? name.text = found at hrel ⊢
  generalize d'.findMethod? name.text = found' at hrel ⊢
  cases hrel with
  | some hm => exact simulates_boundMethod hm hv
  | none => exact .fail _ _ hframes

theorem getProperty_object_eq (id : Nat) (d : Class) (name : Name) :
    Eval.getProperty ctx (.object id d) name m =
      (match (m.store.fields id).find? name.text with
        | some v => pure v
        | none => Eval.boundMethod ctx name (.object id d) (d.findMethod? name.text) : Eval Value) m := by
  have hread : Eval.readStore m = .ok m.store m := rfl
  refine (bind_of_ok hread _).trans ?_
  cases (m.store.fields id).find? name.text <;> rfl

theorem lexical_getProperty_object_eq (id : Nat) (d : LClass) (name : Name) :
    Lexical.getProperty place (.object id d) name r =
      (match (r.objects[id]?.getD Table.empty).find? name.text with
        | some v => pure v
        | none =>
          match d.findMethod? name.text with
          | some method => Lexical.bindMethod method (.object id d) >>= Lexical.newFunction
          | none => Lexical.fail place (.undefinedProperty name.text) name.line : Run LValue) r :=
  rfl

theorem simulates_getProperty {v : Value} {v' : LValue} (name : Name)
    (hframes : place.frames = ctx.frames) (hv : ValueRel W v v') :
    Simulates Nowhere W (Watched.lift (Eval.getProperty ctx v name))
      (Lexical.getProperty place v' name) ValueRel := by
  cases hv with
  | @object id d d' hd =>
    intro m h r hagrees
    have hrel := (hagrees.objects id).entries name.text
    have hv : ValueRel W (.object id d) (.object id d') := .object hd
    have hmethod := simulates_method name hframes hd hv m h r hagrees
    unfold Watched.lift at hmethod ⊢
    rw [getProperty_object_eq, lexical_getProperty_object_eq]
    -- a field comes before a method of the same name
    generalize (m.store.fields id).find? name.text = found at hrel ⊢
    generalize (r.objects[id]?.getD Table.empty).find? name.text = found' at hrel ⊢
    cases hrel with
    | some hv => exact .ok (.refl W) hagrees hv
    | none => exact hmethod
  | _ => exact .fail _ _ hframes

theorem getSuper_eq {d id : Nat} {definition : Class} {v : Value} (method : Name)
    (hsuper : m.store.getAt ctx.env d Keyword.superWord.text = .ok (.cls id definition))
    (hthis : m.store.getAt ctx.env (d - 1) Keyword.thisWord.text = .ok v) :
    Eval.getSuper ctx (some d) method m =
      Eval.boundMethod ctx method v (definition.findMethod? method.text) m := by
  have haccess : Eval.access ctx (m.store.getAt ctx.env d Keyword.superWord.text) m =
      .ok (.cls id definition) m := by
    rw [hsuper]
    rfl
  have hreceiver : Eval.access ctx (m.store.getAt ctx.env (d - 1) Keyword.thisWord.text) m =
      .ok v m := by
    rw [hthis]
    rfl
  exact (bind_of_ok haccess _).trans (bind_of_ok hreceiver _)

/-- The use of `super`. -/
theorem simulates_super {line : Int} {use : Distance} {method : Name}
    (hctx : CtxRel W P S ctx place) (hcls : P.cls = .derived)
    (hd : IsDistance S Keyword.superWord.text use) :
    Simulates Nowhere W
      (Watched.note (.evaluates ctx (.super line use method)) >>= fun _ =>
        Watched.lift (Eval.getSuper ctx use method))
      (Lexical.getSuper place line method) ValueRel := by
  obtain ⟨d, hsuper, hthis⟩ := hctx.receives.super hcls
  cases hd.unique hsuper
  intro m h r hagrees
  obtain ⟨id, definition, definition', hgetSuper, hlookupSuper, hdef⟩ :=
    lookUp_super line hagrees hctx hsuper
  -- the receiver is one scope inside the superclass
  obtain ⟨v, v', hgetThis, hlookupThis, hv⟩ := lookUp_this line hagrees hctx hthis
  have hnoted : Agrees W m (.evaluates ctx (.super line (some (d + 1)) method) m.store :: h) r :=
    hagrees.note ⟨d + 1, id, definition, v, rfl, hgetSuper, hgetThis⟩ nofun
  have hmethod := simulates_method method hctx.frames hdef hv m _ r hnoted
  show Outcome Nowhere W ValueRel (Watched.lift _ (m, _ :: h)) _
  unfold Watched.lift at hmethod ⊢
  rw [getSuper_eq method hgetSuper hgetThis]
  unfold Lexical.getSuper
  rw [bind_of_ok hlookupSuper, bind_of_ok hlookupThis]
  exact hmethod

end Steps

end Treewalk
