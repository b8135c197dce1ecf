import Treewalk.Proofs.Chronicle.Placement
import Treewalk.Proofs.Store

/-! # The heap that a chronicle tells of

    Scopes, classes and objects refer to each other by what the chronicle records of
    them: a scope was opened inside an environment, a class was created from a
    declaration, an object was made from a class.  `Fits` says of environments,
    functions and values that all they refer to is recorded, `Sound` that every
    record refers to earlier ones only, and `Kept` that a store holds nothing but
    what fits and has what was bound as `this` and `super` still in place. -/

namespace Treewalk

/-! ### Growing stores -/

namespace Store

variable {α : Type} {s s' s'' : Store α}

/-- A later store: all that exists is still there, no scope has lost a name, and no
    object has lost a field. -/
structure Grows (s s' : Store α) : Prop where
  scopes : s.scopes.size ≤ s'.scopes.size
  objects : s.objects.size ≤ s'.objects.size
  fresh : s.fresh ≤ s'.fresh
  names : ∀ scope name, (s.bindings scope).contains name = true →
    (s'.bindings scope).contains name = true
  fields : ∀ object name, (s.fields object).contains name = true →
    (s'.fields object).contains name = true

theorem Grows.refl (s : Store α) : s.Grows s :=
  ⟨Nat.le_refl _, Nat.le_refl _, Nat.le_refl _, fun _ _ h => h, fun _ _ h => h⟩

theorem Grows.trans (h : s.Grows s') (h' : s'.Grows s'') : s.Grows s'' :=
  ⟨Nat.le_trans h.scopes h'.scopes, Nat.le_trans h.objects h'.objects,
    Nat.le_trans h.fresh h'.fresh, fun scope name hs => h'.names scope name (h.names scope name hs),
    fun object name hs => h'.fields object name (h.fields object name hs)⟩

/-- A write to a scope that does not exist is lost. -/
theorem bind_of_ge {scope : ScopeId} (h : ¬ scope < s.scopes.size) (name : String) (v : α) :
    s.bind scope name v = s := by
  unfold bind
  have hsame : s.scopes.modify scope (·.insert name v) = s.scopes := by
    simp [Array.modify, Array.modifyM, h]
  rw [hsame]

theorem grows_bind (s : Store α) (scope : ScopeId) (name : String) (v : α) :
    s.Grows (s.bind scope name v) := by
  by_cases hscope : scope < s.scopes.size
  · refine ⟨Nat.le_of_eq (s.size_bind scope name v).symm, Nat.le_refl _, Nat.le_refl _, ?_,
      fun _ _ h => h⟩
    intro other key hkey
    rw [s.bindings_bind hscope]
    split
    · exact (Table.contains_insert _ _ _ _).mpr (.inr hkey)
    · exact hkey
  · rw [bind_of_ge hscope]
    exact .refl s

theorem grows_extend (s : Store α) (env : Env) : s.Grows (s.extend env).2 := by
  refine ⟨?_, Nat.le_refl _, Nat.le_refl _, ?_, fun _ _ h => h⟩
  · rw [s.size_extend]
    exact Nat.le_succ _
  · intro scope name h
    rw [s.bindings_extend]
    exact h

theorem grows_identity (s : Store α) : s.Grows s.identity.2 :=
  ⟨Nat.le_refl _, Nat.le_refl _, Nat.le_succ _, fun _ _ h => h, fun _ _ h => h⟩

theorem grows_newObject (s : Store α) : s.Grows s.newObject.2 := by
  refine ⟨Nat.le_refl _, ?_, Nat.le_refl _, fun _ _ h => h, ?_⟩
  · simp [newObject]
  · intro object name h
    rw [s.fields_newObject]
    exact h

theorem grows_setField (s : Store α) (object : Nat) (name : String) (v : α) :
    s.Grows (s.setField object name v) := by
  refine ⟨Nat.le_refl _, ?_, Nat.le_refl _, fun _ _ h => h, ?_⟩
  · simp [setField]
  · intro other key h
    rw [s.fields_setField]
    split
    · exact (Table.contains_insert _ _ _ _).mpr (.inr h)
    · exact h

end Store

/-! ### What is recorded -/

/-- A scope is added. -/
def Record.isOpening : Record → Bool
  | .opens _ _ => true
  | _ => false

/-- An object is made. -/
def Record.isMaking : Record → Bool
  | .makes _ _ => true
  | _ => false

/-- The number of scopes, the global one included. -/
def scopeCount (h : Chronicle) : Nat := h.countP Record.isOpening + 1

/-- The number of objects. -/
def objectCount (h : Chronicle) : Nat := h.countP Record.isMaking

/-- Each scope of the environment was opened inside the rest, and the last is the
    global one. -/
inductive Chain (h : Chronicle) : Env → Prop
  | global : Chain h globalEnv
  | scope {scope outer} : Chain h outer → .opens scope outer ∈ h → Chain h (scope :: outer)

/-- A method that is bound to a receiver. -/
structure BoundMethod where
  /-- The identity of the class that declares the method. -/
  cls : Nat
  /-- The environment that the class is declared in. -/
  declaredIn : Env
  /-- The superclass of that class. -/
  superclass : Option Superclass
  /-- The scope that binds the receiver. -/
  scope : ScopeId
  /-- The receiver. -/
  receiver : Value

/-- The environment of the body of a bound method. -/
def BoundMethod.env (b : BoundMethod) : Env := b.scope :: methodEnv b.declaredIn b.superclass

/-- The class was created from the declaration, and the method of it was bound. -/
structure BoundMethod.RecordedIn (h : Chronicle) (text : ClassText) (decl : ResolvedFun)
    (b : BoundMethod) : Prop where
  created : .creates b.cls b.declaredIn text b.superclass ∈ h
  declared : decl ∈ text.methods
  bound : .binds b.scope (methodClosure (methodEnv b.declaredIn b.superclass) decl) b.receiver ∈ h

/-- The environment has the scopes of the zones: one for each body, and for a method
    also those of its receiver and of the superclass of its class. -/
inductive Mirrors (h : Chronicle) : List Zone → Env → Prop
  | top : Mirrors h [] globalEnv
  | body {zones env scope} :
      Mirrors h zones env → .opens scope env ∈ h → Mirrors h (.body :: zones) (scope :: env)
  | method {zones text decl scope} {b : BoundMethod} :
      Mirrors h zones b.declaredIn → b.RecordedIn h text decl → .opens scope b.env ∈ h →
      Mirrors h (.method text decl :: zones) (scope :: b.env)

/-- The environment is one that the body of a function or a method can be run in. -/
def Around (h : Chronicle) : Zone → List Zone → Env → Prop
  | .body, zones, env => Mirrors h zones env
  | .method text decl, zones, env =>
    ∃ b : BoundMethod, Mirrors h zones b.declaredIn ∧ b.RecordedIn h text decl ∧ env = b.env

theorem Around.enter {h : Chronicle} {zone : Zone} {zones : List Zone} {env : Env}
    {scope : ScopeId} (henv : Around h zone zones env) (hopen : .opens scope env ∈ h) :
    Mirrors h (zone :: zones) (scope :: env) := by
  cases zone with
  | body => exact .body henv hopen
  | method text decl =>
    obtain ⟨b, hzones, hb, rfl⟩ := henv
    exact .method hzones hb hopen

/-- The phrase is one of an accepted program, and the environment is that of its
    place. -/
def Placed (h : Chronicle) (env : Env) (ph : Code) : Prop :=
  ∃ program zones, AcceptedProgram program ∧ Located program zones ph ∧ Mirrors h zones env

/-! ### What fits -/

/-- A method that is bound to a receiver, in the scope in which it was bound. -/
def BoundTo (h : Chronicle) (c : Closure) (receiver : Value) : Prop :=
  ∃ scope method, .binds scope method receiver ∈ h ∧ c = { method with env := scope :: method.env }

/-- A function whose body is code of an accepted program, in the environment of its
    place.  An initializer is bound. -/
def ClosureFits (h : Chronicle) (c : Closure) : Prop :=
  ∃ program zone zones, AcceptedProgram program ∧ Around h zone zones c.env ∧
    (∀ s ∈ c.body, Located program (zone :: zones) (.stmt s)) ∧ (∀ x ∈ c.params, Unreserved x) ∧
    (c.isInitializer = true → ∃ receiver, BoundTo h c receiver)

/-- A method of a class before it is bound. -/
def MethodFits (h : Chronicle) (c : Closure) : Prop :=
  ∃ cls env text superclass decl, .creates cls env text superclass ∈ h ∧ decl ∈ text.methods ∧
    c = methodClosure (methodEnv env superclass) decl

/-- The class of an identity is the one that was created with it. -/
def ClassFits (h : Chronicle) (id : Nat) (d : Class) : Prop :=
  ∃ env text superclass, .creates id env text superclass ∈ h ∧ d = text.definition env superclass

/-- All that a value refers to is recorded. -/
def ValueFits (h : Chronicle) : Value → Prop
  | .function _ c => ClosureFits h c
  | .cls id d => ClassFits h id d
  | .object object d => ∃ cls, .makes object cls ∈ h ∧ ClassFits h cls d
  | _ => True

/-- What a record tells of is still there in a store. -/
def Record.InPlace (s : Store Value) : Record → Prop
  | .evaluates _ _ machine => machine.store.Grows s
  | .binds scope _ receiver => (s.bindings scope).find? Keyword.thisWord.text = some receiver
  | .creates id _ _ superclass => id < s.fresh ∧ ∀ p, superclass = some p →
    (s.bindings p.scope).find? Keyword.superWord.text = some (.cls p.id p.definition)
  | _ => True

/-- A store whose values fit, and in which all is in place that was recorded. -/
structure Kept (h : Chronicle) (s : Store Value) : Prop where
  scopes : s.scopes.size = scopeCount h
  objects : s.objects.size = objectCount h
  bound : ∀ scope name v, (s.bindings scope).find? name = some v → ValueFits h v
  fields : ∀ object name v, (s.fields object).find? name = some v → ValueFits h v
  records : ∀ r ∈ h, r.InPlace s

/-- All that a record refers to is recorded before it. -/
def Record.Fits (h : Chronicle) : Record → Prop
  | .evaluates ctx e machine => Placed h ctx.env (.expr e) ∧ Kept h machine.store
  | .calls _ callee args _ => ValueFits h callee ∧ ∀ v ∈ args, ValueFits h v
  | .returns _ v => ValueFits h v
  | .opens scope outer => scope = scopeCount h ∧ Chain h outer
  | .binds scope method receiver =>
    .opens scope method.env ∈ h ∧ MethodFits h method ∧
      ∃ object d, receiver = .object object d ∧ ValueFits h receiver
  | .creates id env text superclass =>
    (∀ id' env' text' superclass', .creates id' env' text' superclass' ∈ h → id' < id) ∧
      Placed h env (.stmt text.statement) ∧ superclass.isSome = text.superclass.isSome ∧
      ∀ s, superclass = some s → ClassFits h s.id s.definition ∧ .opens s.scope env ∈ h
  | .makes object cls => object = objectCount h ∧ ∃ d, ClassFits h cls d

/-- Every record refers to earlier ones only. -/
def Sound : Chronicle → Prop
  | [] => True
  | r :: h => r.Fits h ∧ Sound h

theorem scopeCount_cons (r : Record) (h : Chronicle) :
    scopeCount (r :: h) = scopeCount h + if r.isOpening then 1 else 0 := by
  unfold scopeCount
  rw [List.countP_cons]
  omega

theorem objectCount_cons (r : Record) (h : Chronicle) :
    objectCount (r :: h) = objectCount h + if r.isMaking then 1 else 0 :=
  List.countP_cons

/-! ### Later chronicles -/

section Mono

variable {h h' : Chronicle}

theorem BoundMethod.RecordedIn.mono {text : ClassText} {decl : ResolvedFun} {b : BoundMethod}
    (hb : b.RecordedIn h text decl) (hle : h ⊆ h') : b.RecordedIn h' text decl :=
  ⟨hle hb.created, hb.declared, hle hb.bound⟩

theorem Mirrors.mono {zones : List Zone} {env : Env} (henv : Mirrors h zones env) (hle : h ⊆ h') :
    Mirrors h' zones env := by
  induction henv with
  | top => exact .top
  | body _ hopen ih => exact .body ih (hle hopen)
  | method _ hb hopen ih => exact .method ih (hb.mono hle) (hle hopen)

theorem Around.mono {zone : Zone} {zones : List Zone} {env : Env} (henv : Around h zone zones env)
    (hle : h ⊆ h') : Around h' zone zones env := by
  cases zone with
  | body => exact Mirrors.mono henv hle
  | method text decl =>
    obtain ⟨b, hzones, hb, heq⟩ := henv
    exact ⟨b, hzones.mono hle, hb.mono hle, heq⟩

theorem Placed.mono {env : Env} {ph : Code} (hph : Placed h env ph) (hle : h ⊆ h') :
    Placed h' env ph := by
  obtain ⟨program, zones, hprogram, hlocated, henv⟩ := hph
  exact ⟨program, zones, hprogram, hlocated, henv.mono hle⟩

theorem BoundTo.mono {c : Closure} {receiver : Value} (hc : BoundTo h c receiver) (hle : h ⊆ h') :
    BoundTo h' c receiver := by
  obtain ⟨scope, method, hbinds, heq⟩ := hc
  exact ⟨scope, method, hle hbinds, heq⟩

theorem ClosureFits.mono {c : Closure} (hc : ClosureFits h c) (hle : h ⊆ h') :
    ClosureFits h' c := by
  obtain ⟨program, zone, zones, hprogram, henv, hbody, hparams, hbound⟩ := hc
  refine ⟨program, zone, zones, hprogram, henv.mono hle, hbody, hparams, fun hinit => ?_⟩
  obtain ⟨receiver, hreceiver⟩ := hbound hinit
  exact ⟨receiver, hreceiver.mono hle⟩

theorem MethodFits.mono {c : Closure} (hc : MethodFits h c) (hle : h ⊆ h') : MethodFits h' c := by
  obtain ⟨cls, env, text, superclass, decl, hcreated, hdecl, heq⟩ := hc
  exact ⟨cls, env, text, superclass, decl, hle hcreated, hdecl, heq⟩

theorem ClassFits.mono {id : Nat} {d : Class} (hd : ClassFits h id d) (hle : h ⊆ h') :
    ClassFits h' id d := by
  obtain ⟨env, text, superclass, hmem, heq⟩ := hd
  exact ⟨env, text, superclass, hle hmem, heq⟩

theorem ValueFits.mono {v : Value} (hv : ValueFits h v) (hle : h ⊆ h') : ValueFits h' v := by
  cases v with
  | function id c => exact ClosureFits.mono hv hle
  | cls id d => exact ClassFits.mono hv hle
  | object object d =>
    obtain ⟨cls, hmem, hd⟩ := hv
    exact ⟨cls, hle hmem, hd.mono hle⟩
  | _ => trivial

end Mono

/-! ### Sound chronicles -/

section Sound

variable {h : Chronicle}

theorem Sound.of_suffix {h₀ : Chronicle} (hsound : Sound h) (hsuffix : h₀ <:+ h) : Sound h₀ := by
  induction h with
  | nil =>
    rw [List.suffix_nil.mp hsuffix]
    trivial
  | cons r h ih =>
    rcases List.suffix_cons_iff.mp hsuffix with rfl | hsuffix
    · exact hsound
    · exact ih hsound.2 hsuffix

/-- What a record refers to is recorded before it. -/
theorem Sound.fits (hsound : Sound h) {r : Record} (hr : r ∈ h) :
    ∃ h₀, (r :: h₀) <:+ h ∧ r.Fits h₀ := by
  obtain ⟨after, before, rfl⟩ := List.append_of_mem hr
  have hsuffix : (r :: before) <:+ after ++ r :: before := List.suffix_append _ _
  exact ⟨before, hsuffix, (hsound.of_suffix hsuffix).1⟩

theorem earlier_subset {r : Record} {h₀ : Chronicle} (hsuffix : (r :: h₀) <:+ h) : h₀ ⊆ h :=
  fun _ hmem => hsuffix.subset (List.mem_cons_of_mem r hmem)

theorem Sound.created (hsound : Sound h) {id : Nat} {env : Env} {text : ClassText}
    {superclass : Option Superclass} (hr : .creates id env text superclass ∈ h) :
    Placed h env (.stmt text.statement) ∧ superclass.isSome = text.superclass.isSome ∧
      ∀ s, superclass = some s → ClassFits h s.id s.definition ∧ .opens s.scope env ∈ h := by
  obtain ⟨h₀, hsuffix, -, hplaced, hsome, hsuper⟩ := hsound.fits hr
  have hle := earlier_subset hsuffix
  refine ⟨hplaced.mono hle, hsome, ?_⟩
  intro s hs
  obtain ⟨hd, hopen⟩ := hsuper s hs
  exact ⟨hd.mono hle, hle hopen⟩

theorem Sound.bound (hsound : Sound h) {scope : ScopeId} {method : Closure} {receiver : Value}
    (hr : .binds scope method receiver ∈ h) : .opens scope method.env ∈ h ∧
      ∃ object d, receiver = .object object d ∧ ValueFits h receiver := by
  obtain ⟨h₀, hsuffix, hopen, -, object, d, heq, hfits⟩ := hsound.fits hr
  have hle := earlier_subset hsuffix
  exact ⟨hle hopen, object, d, heq, hfits.mono hle⟩

theorem Sound.opened (hsound : Sound h) {scope : ScopeId} {outer : Env}
    (hr : .opens scope outer ∈ h) : scope < scopeCount h := by
  obtain ⟨h₀, hsuffix, rfl, -⟩ := hsound.fits hr
  have hle : scopeCount (.opens (scopeCount h₀) outer :: h₀) ≤ scopeCount h :=
    Nat.succ_le_succ hsuffix.sublist.countP_le
  rw [scopeCount_cons] at hle
  exact hle

/-- Nothing is recorded of a scope that could be read from its bindings. -/
def Unclaimed (h : Chronicle) (scope : ScopeId) : Prop :=
  (∀ method receiver, .binds scope method receiver ∉ h) ∧
    ∀ id env text s, .creates id env text (some s) ∈ h → s.scope ≠ scope

theorem Sound.unclaimed (hsound : Sound h) : Unclaimed h (scopeCount h) := by
  refine ⟨?_, ?_⟩
  · intro method receiver hr
    exact Nat.lt_irrefl _ (hsound.opened (hsound.bound hr).1)
  · intro id env text s hr heq
    have hopen := ((hsound.created hr).2.2 s rfl).2
    rw [heq] at hopen
    exact Nat.lt_irrefl _ (hsound.opened hopen)

/-- The receiver is in a scope directly inside the one for the superclass, if there
    is one. -/
theorem BoundMethod.RecordedIn.chain {text : ClassText} {decl : ResolvedFun} {b : BoundMethod}
    (hb : b.RecordedIn h text decl) (hsound : Sound h) (hdeclared : Chain h b.declaredIn) :
    Chain h b.env := by
  refine .scope ?_ (hsound.bound hb.bound).1
  obtain ⟨-, -, hsuper⟩ := hsound.created hb.created
  cases hs : b.superclass with
  | none => exact hdeclared
  | some s => exact .scope hdeclared (hsuper s hs).2

/-- An environment that mirrors some zones is a chain of scopes. -/
theorem Mirrors.chain {zones : List Zone} {env : Env} (henv : Mirrors h zones env)
    (hsound : Sound h) : Chain h env := by
  induction henv with
  | top => exact .global
  | body _ hopen ih => exact .scope ih hopen
  | method _ hb hopen ih => exact .scope (hb.chain hsound ih) hopen

theorem Around.chain {zone : Zone} {zones : List Zone} {env : Env} (henv : Around h zone zones env)
    (hsound : Sound h) : Chain h env := by
  cases zone with
  | body => exact Mirrors.chain henv hsound
  | method text decl =>
    obtain ⟨b, hzones, hb, rfl⟩ := henv
    exact hb.chain hsound (hzones.chain hsound)

end Sound

/-! ### Classes and methods -/

theorem find?_methodTable {env : Env} {methods : List ResolvedFun} {name : String} {c : Closure}
    (h : (Eval.methodTable env methods).find? name = some c) :
    ∃ decl ∈ methods, decl.name.text = name ∧ c = methodClosure env decl := by
  have hfold (t : Table Closure) (ms : List ResolvedFun)
      (h : (ms.foldl (fun t m => t.insert m.name.text (methodClosure env m)) t).find? name = some c) :
      t.find? name = some c ∨ ∃ decl ∈ ms, decl.name.text = name ∧ c = methodClosure env decl := by
    induction ms generalizing t with
    | nil => exact .inl h
    | cons m ms ih =>
      rcases ih _ h with hfound | ⟨decl, hdecl, heq⟩
      · rw [Table.find?_insert] at hfound
        split at hfound
        · next hname => exact .inr ⟨m, List.mem_cons_self, hname.symm, (Option.some.inj hfound).symm⟩
        · exact .inl hfound
      · exact .inr ⟨decl, List.mem_cons_of_mem m hdecl, heq⟩
  rcases hfold _ methods h with hempty | hfound
  · cases hempty
  · exact hfound

/-- A class and its superclasses, the class itself first. -/
def Class.lineage {ρ ε : Type} : Class ρ ε → List (Class ρ ε)
  | .mk name none methods => [.mk name none methods]
  | .mk name (some superclass) methods => .mk name (some superclass) methods :: superclass.lineage

/-- A class finds a method in the first class of its lineage that has it. -/
theorem findMethod?_eq (d : Class) (name : String) :
    d.findMethod? name = d.lineage.findSome? (·.methods.find? name) := by
  fun_induction Class.findMethod? name d with
  | case1 _ methods => simp [Class.lineage, Class.methods]
  | case2 _ superclass methods method hfound => simp [Class.lineage, Class.methods, hfound]
  | case3 _ superclass methods hnone ih => simp [Class.lineage, Class.methods, hnone, ih]

namespace ClassFits

variable {h : Chronicle} {id : Nat} {d : Class}

/-- Every superclass of a class is one that was created. -/
theorem lineage (hsound : Sound h) (hd : ClassFits h id d) :
    ∀ c ∈ d.lineage, ∃ id', ClassFits h id' c := by
  fun_induction Class.lineage d generalizing id with
  | case1 name methods =>
    intro c hc
    cases List.mem_singleton.mp hc
    exact ⟨id, hd⟩
  | case2 name above methods ih =>
    intro c hc
    rcases List.mem_cons.mp hc with rfl | hc
    · exact ⟨id, hd⟩
    · obtain ⟨env, text, superclass, hmem, heq⟩ := hd
      obtain ⟨-, hsuper, -⟩ := Class.mk.inj heq
      cases superclass with
      | none => cases hsuper
      | some p =>
        cases hsuper
        exact ih ((hsound.created hmem).2.2 p rfl).1 c hc

theorem method (hd : ClassFits h id d) {name : String} {c : Closure}
    (hc : d.methods.find? name = some c) : MethodFits h c := by
  obtain ⟨env, text, superclass, hmem, rfl⟩ := hd
  obtain ⟨decl, hdecl, -, heq⟩ := find?_methodTable hc
  exact ⟨id, env, text, superclass, decl, hmem, hdecl, heq⟩

/-- A method that a class finds is one of its own declaration or of that of one of
    its superclasses. -/
theorem findMethod? (hsound : Sound h) (hd : ClassFits h id d) {name : String} {c : Closure}
    (hc : d.findMethod? name = some c) : MethodFits h c := by
  rw [findMethod?_eq] at hc
  obtain ⟨d', hd', hfound⟩ := List.exists_of_findSome?_eq_some hc
  obtain ⟨id', hfits⟩ := hd.lineage hsound d' hd'
  exact hfits.method hfound

/-- The initializer that a class finds is known as one. -/
theorem isInitializer (hsound : Sound h) (hd : ClassFits h id d) {c : Closure}
    (hc : d.initializer? = some c) : c.isInitializer = true := by
  unfold Class.initializer? at hc
  rw [findMethod?_eq] at hc
  obtain ⟨d', hd', hfound⟩ := List.exists_of_findSome?_eq_some hc
  obtain ⟨id', env, text, superclass, -, rfl⟩ := hd.lineage hsound d' hd'
  obtain ⟨decl, -, hname, rfl⟩ := find?_methodTable hfound
  exact beq_iff_eq.mpr hname

end ClassFits

/-! ### Changes of the store -/

section Changes

variable {h : Chronicle} {s : Store Value}

/-- What is recorded stays in place as long as the bindings do. -/
theorem Record.InPlace.grow {r : Record} {s' : Store Value} (hr : r.InPlace s) (hgrows : s.Grows s')
    (hsame : ∀ scope, s'.bindings scope = s.bindings scope) : r.InPlace s' := by
  cases r with
  | evaluates ctx e m => exact Store.Grows.trans hr hgrows
  | binds scope method receiver =>
    show (s'.bindings scope).find? Keyword.thisWord.text = some receiver
    rw [hsame]
    exact hr
  | creates id env text superclass =>
    refine ⟨Nat.lt_of_lt_of_le hr.1 hgrows.fresh, fun p hp => ?_⟩
    rw [hsame]
    exact hr.2 p hp
  | _ => trivial

/-- A name of the program can be bound in any scope, and `this` and `super` in one
    that nothing is recorded of. -/
theorem Kept.bind (hk : Kept h s) {scope : ScopeId} {name : String} {v : Value}
    (hv : ValueFits h v) (hfree : Unreserved name ∨ Unclaimed h scope) :
    Kept h (s.bind scope name v) := by
  by_cases hscope : scope < s.scopes.size
  · refine ⟨(s.size_bind _ _ _).trans hk.scopes, hk.objects, ?_, hk.fields, ?_⟩
    · intro other key w hw
      rw [s.find?_bind hscope] at hw
      split at hw
      · cases hw
        exact hv
      · exact hk.bound other key w hw
    · intro r hr
      have hplace := hk.records r hr
      cases r with
      | evaluates ctx e m => exact Store.Grows.trans hplace (s.grows_bind _ _ _)
      | binds other method receiver =>
        show ((s.bind scope name v).bindings other).find? Keyword.thisWord.text = some receiver
        rw [s.find?_bind hscope, if_neg]
        · exact hplace
        · rintro ⟨rfl, hname⟩
          rcases hfree with hfree | hfree
          · exact hfree.ne_keyword .thisWord hname.symm
          · exact hfree.1 method receiver hr
      | creates id env text superclass =>
        refine ⟨hplace.1, fun p hp => ?_⟩
        rw [s.find?_bind hscope, if_neg]
        · exact hplace.2 p hp
        · rintro ⟨heq, hname⟩
          rcases hfree with hfree | hfree
          · exact hfree.ne_keyword .superWord hname.symm
          · subst hp
            exact hfree.2 id env text p hr heq
      | _ => trivial
  · rw [Store.bind_of_ge hscope]
    exact hk

theorem Kept.setField (hk : Kept h s) {object : Nat} {name : String} {v : Value}
    (hv : ValueFits h v) : Kept h (s.setField object name v) := by
  refine ⟨hk.scopes, ?_, hk.bound, ?_, ?_⟩
  · rw [← hk.objects]
    simp [Store.setField]
  · intro other key w hw
    rw [s.fields_setField] at hw
    split at hw
    · rw [Table.find?_insert] at hw
      split at hw
      · cases hw
        exact hv
      · exact hk.fields other key w hw
    · exact hk.fields other key w hw
  · exact fun r hr => (hk.records r hr).grow (s.grows_setField _ _ _) fun _ => rfl

theorem Kept.identity (hk : Kept h s) : Kept h s.identity.2 :=
  ⟨hk.scopes, hk.objects, hk.bound, hk.fields,
    fun r hr => (hk.records r hr).grow s.grows_identity fun _ => rfl⟩

/-- A record of what is in place can be added. -/
theorem Kept.note (hk : Kept h s) {r : Record} (hopening : r.isOpening = false)
    (hmaking : r.isMaking = false) (hplace : r.InPlace s) : Kept (r :: h) s := by
  have hle : h ⊆ r :: h := List.subset_cons_self r h
  refine ⟨?_, ?_, ?_, ?_, ?_⟩
  · rw [scopeCount_cons, hopening, hk.scopes]
    rfl
  · rw [objectCount_cons, hmaking, hk.objects]
    rfl
  · exact fun scope name v hv => (hk.bound scope name v hv).mono hle
  · exact fun object name v hv => (hk.fields object name v hv).mono hle
  · intro r' hr'
    rcases List.mem_cons.mp hr' with rfl | hr'
    · exact hplace
    · exact hk.records r' hr'

theorem Kept.extend (hk : Kept h s) (env : Env) (scope : ScopeId) :
    Kept (.opens scope env :: h) (s.extend env).2 := by
  have hle : h ⊆ .opens scope env :: h := List.subset_cons_self _ h
  have hgrown (r : Record) (hr : r ∈ h) : r.InPlace (s.extend env).2 :=
    (hk.records r hr).grow (s.grows_extend env) (s.bindings_extend env)
  refine ⟨?_, hk.objects, ?_, fun object name v hv => (hk.fields object name v hv).mono hle, ?_⟩
  · rw [s.size_extend, scopeCount_cons, hk.scopes]
    rfl
  · intro other name v hv
    rw [s.bindings_extend] at hv
    exact (hk.bound other name v hv).mono hle
  · intro r hr
    rcases List.mem_cons.mp hr with rfl | hr
    · trivial
    · exact hgrown r hr

theorem Kept.newObject (hk : Kept h s) (object cls : Nat) :
    Kept (.makes object cls :: h) s.newObject.2 := by
  have hle : h ⊆ .makes object cls :: h := List.subset_cons_self _ h
  refine ⟨hk.scopes, ?_, fun scope name v hv => (hk.bound scope name v hv).mono hle, ?_, ?_⟩
  · rw [objectCount_cons, ← hk.objects]
    simp [Store.newObject, Record.isMaking]
  · intro other name v hv
    rw [s.fields_newObject] at hv
    exact (hk.fields other name v hv).mono hle
  · intro r hr
    rcases List.mem_cons.mp hr with rfl | hr
    · trivial
    · exact (hk.records r hr).grow s.grows_newObject fun _ => rfl

end Changes

end Treewalk
