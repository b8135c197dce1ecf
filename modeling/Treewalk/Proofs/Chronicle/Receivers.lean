import Treewalk.Proofs.Chronicle.Heap

/-! # Receivers

    What `this` and `super` find when they are evaluated.  Code that is at its place
    in an environment finds there, behind the bodies around it, the receiver that
    the innermost method is bound to, and behind that the superclass that its class
    was created with (`EnclosedBy`). -/

namespace Treewalk

/-! ### Places -/

namespace Placed

variable {h : Chronicle} {env : Env} {ph inner : Code}

theorem part (hph : Placed h env ph) (hpart : ([], inner) ∈ ph.parts) : Placed h env inner := by
  obtain ⟨program, zones, hprogram, hlocated, henv⟩ := hph
  exact ⟨program, zones, hprogram, hlocated.part hpart, henv⟩

theorem body (hph : Placed h env ph) (hpart : ([.body], inner) ∈ ph.parts) {scope : ScopeId}
    (hopen : .opens scope env ∈ h) : Placed h (scope :: env) inner := by
  obtain ⟨program, zones, hprogram, hlocated, henv⟩ := hph
  exact ⟨program, .body :: zones, hprogram, hlocated.part hpart, .body henv hopen⟩

theorem chain (hph : Placed h env ph) (hsound : Sound h) : Chain h env := by
  obtain ⟨program, zones, hprogram, hlocated, henv⟩ := hph
  exact henv.chain hsound

theorem unreserved (hph : Placed h env ph) : ∀ x ∈ ph.writes, Unreserved x := by
  obtain ⟨program, zones, hprogram, hlocated, henv⟩ := hph
  exact hlocated.unreserved hprogram

/-- A function whose body stands in the phrase. -/
theorem closureFits (hph : Placed h env ph) {name : Option String} {params : List String}
    {body : List ResolvedStmt}
    (hbody : ∀ s ∈ body, ([.body], .stmt s) ∈ ph.parts) (hparams : ∀ x ∈ params, x ∈ ph.writes) :
    ClosureFits h ⟨name, params, body, env, false⟩ := by
  have hwrites := hph.unreserved
  obtain ⟨program, zones, hprogram, hlocated, henv⟩ := hph
  exact ⟨program, .body, zones, hprogram, henv, fun s hs => hlocated.part (hbody s hs),
    fun x hx => hwrites x (hparams x hx), nofun⟩

end Placed

/-! ### Methods -/

namespace MethodFits

variable {h : Chronicle} {method : Closure}

theorem chain (hmethod : MethodFits h method) (hsound : Sound h) : Chain h method.env := by
  obtain ⟨cls, env, text, superclass, decl, hcreated, hdecl, rfl⟩ := hmethod
  obtain ⟨hplaced, -, hsuper⟩ := hsound.created hcreated
  show Chain h (methodEnv env superclass)
  cases superclass with
  | none => exact hplaced.chain hsound
  | some p => exact .scope (hplaced.chain hsound) (hsuper p rfl).2

/-- A method is a function that fits, once it is bound. -/
theorem closureFits (hmethod : MethodFits h method) (hsound : Sound h) {scope : ScopeId}
    {receiver : Value} (hbound : .binds scope method receiver ∈ h) :
    ClosureFits h { method with env := scope :: method.env } := by
  obtain ⟨cls, env, text, superclass, decl, hcreated, hdecl, rfl⟩ := hmethod
  obtain ⟨hplaced, -, -⟩ := hsound.created hcreated
  have hwrites := hplaced.unreserved
  obtain ⟨program, zones, hprogram, hlocated, henv⟩ := hplaced
  let b : BoundMethod := ⟨cls, env, superclass, scope, receiver⟩
  have hb : b.RecordedIn h text decl := ⟨hcreated, hdecl, hbound⟩
  refine ⟨program, .method text decl, zones, hprogram, ⟨b, henv, hb, rfl⟩, ?_, ?_,
    fun _ => ⟨receiver, scope, _, hbound, rfl⟩⟩
  · intro s hs
    have hpart : ([.method text decl], .stmt s) ∈ (Code.stmt text.statement).parts :=
      List.mem_flatMap.mpr ⟨decl, hdecl, List.mem_map.mpr ⟨s, hs, rfl⟩⟩
    exact hlocated.part hpart
  · intro x hx
    exact hwrites x (List.mem_cons_of_mem _ (List.mem_flatMap.mpr ⟨decl, hdecl, hx⟩))

end MethodFits

/-! ### What `this` and `super` find -/

section Receivers

variable {h : Chronicle} {s : Store Value}

/-- Behind the bodies inside of a method is the environment of the bound method. -/
theorem Mirrors.split {d : Nat} {text : ClassText} {decl : ResolvedFun} {outer : List Zone}
    {env : Env} (henv : Mirrors h (List.replicate d .body ++ .method text decl :: outer) env) :
    ∃ inner scope, ∃ b : BoundMethod, env = inner ++ scope :: b.env ∧ inner.length = d ∧
      b.RecordedIn h text decl := by
  induction d generalizing env with
  | zero =>
    cases henv with
    | @method _ _ _ scope b _ hb _ => exact ⟨[], scope, b, rfl, rfl, hb⟩
  | succ d ih =>
    rw [List.replicate_succ, List.cons_append] at henv
    cases henv with
    | @body _ env innermost henv hopen =>
      obtain ⟨inner, scope, b, rfl, rfl, hb⟩ := ih henv
      exact ⟨innermost :: inner, scope, b, rfl, rfl, hb⟩

theorem scopeAt_append (inner : Env) (scope : ScopeId) (outer : Env) :
    Store.scopeAt (inner ++ scope :: outer) inner.length = .ok scope := by
  induction inner with
  | nil => rfl
  | cons first inner ih => exact ih

/-- What is bound in a scope of an environment is found at the distance of the scope. -/
theorem getAt_append {name : String} {v : Value} {scope : ScopeId}
    (hv : (s.bindings scope).find? name = some v) (inner outer : Env) :
    s.getAt (inner ++ scope :: outer) inner.length name = .ok v := by
  rw [s.getAt_eq (scopeAt_append inner scope outer), hv]

/-- One scope outside of the body of a method, `this` is the receiver. -/
theorem Kept.getAt_this (hk : Kept h s) {text : ClassText} {decl : ResolvedFun} {b : BoundMethod}
    (hb : b.RecordedIn h text decl) (inner : Env) (scope : ScopeId) :
    s.getAt (inner ++ scope :: b.env) (inner.length + 1) Keyword.thisWord.text =
      .ok b.receiver := by
  have hfound := getAt_append (hk.records _ hb.bound) (inner ++ [scope])
    (methodEnv b.declaredIn b.superclass)
  rw [List.append_assoc, List.length_append] at hfound
  exact hfound

/-- Two scopes outside of it, `super` is what the superclass was when the class was
    created. -/
theorem Kept.getAt_super (hk : Kept h s) {text : ClassText} {decl : ResolvedFun} {b : BoundMethod}
    (hb : b.RecordedIn h text decl) {p : Superclass} (hp : b.superclass = some p) (inner : Env)
    (scope : ScopeId) :
    s.getAt (inner ++ scope :: b.env) (inner.length + 2) Keyword.superWord.text =
      .ok (.cls p.id p.definition) := by
  have hfound := getAt_append ((hk.records _ hb.created).2 p hp) (inner ++ [scope, b.scope])
    b.declaredIn
  rw [List.append_assoc, List.length_append] at hfound
  unfold BoundMethod.env
  rw [hp]
  exact hfound

end Receivers

/-! ### The innermost method -/

/-- The innermost method around a phrase, with `d` bodies between, and what it is
    bound to in the environment of the phrase. -/
structure EnclosedBy (h : Chronicle) (env : Env) (ph : Code) (d : Nat) (text : ClassText)
    (b : BoundMethod) : Prop where
  lexical : ∃ program decl outer, AcceptedProgram program ∧
    Located program (List.replicate d .body ++ .method text decl :: outer) ph ∧
    b.RecordedIn h text decl
  dynamic : ∃ inner scope, env = inner ++ scope :: b.env ∧ inner.length = d

theorem Located.enclosedBy {h : Chronicle} {env : Env} {program : List ResolvedStmt} {ph : Code}
    {d : Nat} {text : ClassText} {decl : ResolvedFun} {outer : List Zone}
    (hlocated : Located program (List.replicate d .body ++ .method text decl :: outer) ph)
    (hprogram : AcceptedProgram program)
    (henv : Mirrors h (List.replicate d .body ++ .method text decl :: outer) env) :
    ∃ b, EnclosedBy h env ph d text b := by
  obtain ⟨inner, scope, b, heq, hlength, hb⟩ := henv.split
  exact ⟨b, ⟨program, decl, outer, hprogram, hlocated, hb⟩, inner, scope, heq, hlength⟩

namespace EnclosedBy

variable {h : Chronicle} {env : Env} {ph : Code} {d : Nat} {text : ClassText} {b : BoundMethod}

theorem getAt_this (henc : EnclosedBy h env ph d text b) {s : Store Value} (hk : Kept h s) :
    s.getAt env (d + 1) Keyword.thisWord.text = .ok b.receiver := by
  obtain ⟨⟨program, decl, outer, -, -, hb⟩, inner, scope, rfl, rfl⟩ := henc
  exact hk.getAt_this hb inner scope

theorem getAt_super (henc : EnclosedBy h env ph d text b) {s : Store Value} (hk : Kept h s)
    {p : Superclass} (hp : b.superclass = some p) :
    s.getAt env (d + 2) Keyword.superWord.text = .ok (.cls p.id p.definition) := by
  obtain ⟨⟨program, decl, outer, -, -, hb⟩, inner, scope, rfl, rfl⟩ := henc
  exact hk.getAt_super hb hp inner scope

/-- What a method is bound to is an object. -/
theorem receiver (henc : EnclosedBy h env ph d text b) (hsound : Sound h) :
    ∃ object c, b.receiver = .object object c ∧ ValueFits h b.receiver := by
  obtain ⟨⟨program, decl, outer, -, -, hb⟩, -⟩ := henc
  exact (hsound.bound hb.bound).2

/-- The class of a method has a superclass if its declaration names one, and that is
    a class that was created before. -/
theorem superclass (henc : EnclosedBy h env ph d text b) (hsound : Sound h)
    (hsome : text.superclass.isSome = true) :
    ∃ p, b.superclass = some p ∧ ClassFits h p.id p.definition := by
  obtain ⟨⟨program, decl, outer, -, -, hb⟩, -⟩ := henc
  obtain ⟨-, hsame, hsuper⟩ := hsound.created hb.created
  rw [hsome] at hsame
  obtain ⟨p, hp⟩ := Option.isSome_iff_exists.mp hsame
  exact ⟨p, hp, (hsuper p hp).1⟩

end EnclosedBy

namespace Placed

variable {h : Chronicle} {env : Env}

theorem this {line : Int} {use : Distance} (hph : Placed h env (.expr (.this line use))) :
    ∃ d text b, EnclosedBy h env (.expr (.this line use)) d text b ∧ use = some (d + 1) := by
  obtain ⟨program, zones, hprogram, hlocated, henv⟩ := hph
  obtain ⟨d, text, decl, outer, rfl, huse⟩ := hlocated.this hprogram
  obtain ⟨b, henc⟩ := hlocated.enclosedBy hprogram henv
  exact ⟨d, text, b, henc, huse⟩

theorem super {line : Int} {use : Distance} {method : Name}
    (hph : Placed h env (.expr (.super line use method))) :
    ∃ d text b, EnclosedBy h env (.expr (.super line use method)) d text b ∧
      text.superclass.isSome = true ∧ use = some (d + 2) := by
  obtain ⟨program, zones, hprogram, hlocated, henv⟩ := hph
  obtain ⟨d, text, decl, outer, rfl, hsome, huse⟩ := hlocated.super hprogram
  obtain ⟨b, henc⟩ := hlocated.enclosedBy hprogram henv
  exact ⟨d, text, b, henc, hsome, huse⟩

end Placed

end Treewalk
