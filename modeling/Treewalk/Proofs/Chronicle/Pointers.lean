import Treewalk.Proofs.Chronicle.Receivers

/-! # Pointers

    The heap as pointers: the scope around a scope, the superclass of a class, the
    class of an object.  Each is read off the one record of what it points from, so
    it never changes.  Following pointers always ends, since they lead to what was
    there before, and so do the loops that search along them. -/

namespace Treewalk

/-! ### Records by what they add -/

/-- The scope that a record adds. -/
def Record.opened? : Record → Option ScopeId
  | .opens scope _ => some scope
  | _ => none

/-- The identity of the class that a record adds. -/
def Record.created? : Record → Option Nat
  | .creates id _ _ _ => some id
  | _ => none

/-- The object that a record adds. -/
def Record.made? : Record → Option Nat
  | .makes object _ => some object
  | _ => none

/-- The record that adds something, by what it is known as. -/
def recordOf? (key : Record → Option Nat) (h : Chronicle) (k : Nat) : Option Record :=
  h.find? fun r => key r == some k

/-- What a record adds is not known as anything that was there before. -/
def AddsNew (key : Record → Option Nat) : Prop :=
  ∀ h r k, Sound h → r.Fits h → key r = some k → ∀ r' ∈ h, key r' ≠ some k

section Keys

variable {h h' : Chronicle} {key : Record → Option Nat} {k : Nat} {r r' : Record}

theorem AddsNew.unique (hkey : AddsNew key) (hsound : Sound h) (hr : r ∈ h) (hr' : r' ∈ h)
    (hk : key r = some k) (hk' : key r' = some k) : r = r' := by
  induction h with
  | nil => cases hr
  | cons first h ih =>
    have hnew := hkey h first k hsound.2 hsound.1
    rcases List.mem_cons.mp hr with heq | hmem
    · rcases List.mem_cons.mp hr' with heq' | hmem'
      · rw [heq, heq']
      · rw [heq] at hk
        exact absurd hk' (hnew hk r' hmem')
    · rcases List.mem_cons.mp hr' with heq' | hmem'
      · rw [heq'] at hk'
        exact absurd hk (hnew hk' r hmem)
      · exact ih hsound.2 hmem hmem'

theorem AddsNew.recordOf? (hkey : AddsNew key) (hsound : Sound h) (hr : r ∈ h)
    (hk : key r = some k) : recordOf? key h k = some r := by
  unfold Treewalk.recordOf?
  cases hfind : h.find? fun r => key r == some k with
  | none =>
    have hnone := List.find?_eq_none.mp hfind r hr
    rw [hk] at hnone
    simp at hnone
  | some r' =>
    have hk' : key r' = some k := by simpa using List.find?_some hfind
    rw [hkey.unique hsound hr (List.mem_of_find?_eq_some hfind) hk hk']

theorem mem_of_recordOf? (hfind : recordOf? key h k = some r) : r ∈ h ∧ key r = some k :=
  ⟨List.mem_of_find?_eq_some hfind, by simpa using List.find?_some hfind⟩

/-- The record of what is there stays the same. -/
theorem AddsNew.stable (hkey : AddsNew key) (hsound : Sound h') (hle : h ⊆ h')
    (hfind : Treewalk.recordOf? key h k = some r) : Treewalk.recordOf? key h' k = some r := by
  obtain ⟨hr, hk⟩ := mem_of_recordOf? hfind
  exact hkey.recordOf? hsound (hle hr) hk

end Keys

theorem addsNew_opened : AddsNew Record.opened? := by
  intro h r k hsound hfits hk r' hr' hk'
  cases r with
  | opens scope outer =>
    cases r' with
    | opens scope' outer' =>
      cases hk
      cases hk'
      have hlt := hsound.opened hr'
      rw [hfits.1] at hlt
      exact Nat.lt_irrefl _ hlt
    | _ => cases hk'
  | _ => cases hk

theorem addsNew_created : AddsNew Record.created? := by
  intro h r k hsound hfits hk r' hr' hk'
  cases r with
  | creates id env text superclass =>
    cases r' with
    | creates id' env' text' superclass' =>
      cases hk
      cases hk'
      exact Nat.lt_irrefl _ (hfits.1 _ _ _ _ hr')
    | _ => cases hk'
  | _ => cases hk

theorem addsNew_made : AddsNew Record.made? := by
  intro h r k hsound hfits hk r' hr' hk'
  cases r with
  | makes object cls =>
    cases r' with
    | makes object' cls' =>
      have hsame : object' = object := Option.some.inj (hk'.trans hk.symm)
      subst hsame
      -- the objects before have smaller numbers
      obtain ⟨h₀, hsuffix, hobject, -⟩ := hsound.fits hr'
      have hle : objectCount (.makes object' cls' :: h₀) ≤ objectCount h :=
        hsuffix.sublist.countP_le
      rw [objectCount_cons, ← hobject, ← hfits.1] at hle
      exact Nat.lt_irrefl _ hle
    | _ => cases hk'
  | _ => cases hk

/-! ### Pointers -/

/-- The scope around a scope. -/
def enclosing? (h : Chronicle) (scope : ScopeId) : Option ScopeId :=
  match recordOf? Record.opened? h scope with
  | some (.opens _ outer) => outer.head?
  | _ => none

/-- The class of an identity. -/
def classOf? (h : Chronicle) (id : Nat) : Option Class :=
  match recordOf? Record.created? h id with
  | some (.creates _ env text superclass) => some (text.definition env superclass)
  | _ => none

/-- The identity of the superclass of a class. -/
def superclass? (h : Chronicle) (id : Nat) : Option Nat :=
  match recordOf? Record.created? h id with
  | some (.creates _ _ _ superclass) => superclass.map (·.id)
  | _ => none

/-- The identity of the class of an object. -/
def instanceOf? (h : Chronicle) (object : Nat) : Option Nat :=
  match recordOf? Record.made? h object with
  | some (.makes _ cls) => some cls
  | _ => none

/-- What there is in a chronicle is the same in a later one. -/
structure SamePointers (h h' : Chronicle) : Prop where
  enclosing : ∀ scope outer, enclosing? h scope = some outer → enclosing? h' scope = some outer
  global : enclosing? h' globalScope = none
  classes : ∀ id d, classOf? h id = some d →
    classOf? h' id = some d ∧ superclass? h' id = superclass? h id
  objects : ∀ object cls, instanceOf? h object = some cls → instanceOf? h' object = some cls

section Pointers

variable {h h' : Chronicle}

theorem enclosing?_of_mem (hsound : Sound h) {scope : ScopeId} {outer : Env}
    (hr : .opens scope outer ∈ h) : enclosing? h scope = outer.head? := by
  unfold enclosing?
  rw [addsNew_opened.recordOf? hsound hr rfl]

/-- Nothing is around the global scope. -/
theorem enclosing?_globalScope (hsound : Sound h) : enclosing? h globalScope = none := by
  unfold enclosing?
  split
  · next scope outer hfind =>
    obtain ⟨hr, hk⟩ := mem_of_recordOf? hfind
    cases hk
    obtain ⟨h₀, -, hscope, -⟩ := hsound.fits hr
    -- the global scope is there before any other is opened
    exact absurd hscope (Nat.succ_ne_zero _).symm
  · rfl

theorem classOf?_of_mem (hsound : Sound h) {id : Nat} {env : Env} {text : ClassText}
    {superclass : Option Superclass} (hr : .creates id env text superclass ∈ h) :
    classOf? h id = some (text.definition env superclass) ∧
      superclass? h id = superclass.map (·.id) := by
  unfold classOf? superclass?
  rw [addsNew_created.recordOf? hsound hr rfl]
  exact ⟨rfl, rfl⟩

theorem instanceOf?_of_mem (hsound : Sound h) {object cls : Nat} (hr : .makes object cls ∈ h) :
    instanceOf? h object = some cls := by
  unfold instanceOf?
  rw [addsNew_made.recordOf? hsound hr rfl]

theorem samePointers (hsound : Sound h') (hle : h ⊆ h') : SamePointers h h' := by
  refine ⟨?_, enclosing?_globalScope hsound, ?_, ?_⟩
  · intro scope outer henc
    unfold enclosing? at henc ⊢
    split at henc
    · next hfind =>
      rw [addsNew_opened.stable hsound hle hfind]
      exact henc
    · cases henc
  · intro id d hclass
    unfold classOf? at hclass
    unfold classOf? superclass?
    split at hclass
    · next hfind =>
      rw [addsNew_created.stable hsound hle hfind]
      exact ⟨hclass, rfl⟩
    · cases hclass
  · intro object cls hinst
    unfold instanceOf? at hinst ⊢
    split at hinst
    · next hfind =>
      rw [addsNew_made.stable hsound hle hfind]
      exact hinst
    · cases hinst

end Pointers

/-! ### Following pointers -/

section Following

variable {α β : Type}

/-- All that is met by following pointers until they end. -/
inductive Trail (next : α → Option α) : List α → Prop
  | last {a} : next a = none → Trail next [a]
  | step {a b rest} : next a = some b → Trail next (b :: rest) → Trail next (a :: b :: rest)

/-- A loop that follows pointers until a test succeeds ends, with the result of the
    test if it does. -/
inductive Search (next : α → Option α) (test : α → Option β) : α → Option β → Prop
  | found {a b} : test a = some b → Search next test a (some b)
  | ended {a} : test a = none → next a = none → Search next test a none
  | step {a a' result} : test a = none → next a = some a' → Search next test a' result →
      Search next test a result

theorem Trail.search {next : α → Option α} (test : α → Option β) {a : α} {rest : List α}
    (hpath : Trail next (a :: rest)) : Search next test a ((a :: rest).findSome? test) := by
  induction rest generalizing a with
  | nil =>
    cases hpath with
    | last hnone =>
      rw [List.findSome?_singleton]
      cases htest : test a with
      | some b => exact .found htest
      | none => exact .ended htest hnone
  | cons b rest ih =>
    cases hpath with
    | step hnext hpath =>
      rw [List.findSome?_cons]
      cases htest : test a with
      | some b => exact .found htest
      | none => exact .step htest hnext (ih hpath)

end Following

/-! ### Environments -/

/-- One step of the walk to the scope at a distance: a scope, and how many are left. -/
def outward (h : Chronicle) : ScopeId × Nat → Option (ScopeId × Nat)
  | (_, 0) => none
  | (scope, n + 1) => (enclosing? h scope).map (·, n)

/-- The walk is at its end. -/
def arrived : ScopeId × Nat → Option ScopeId
  | (scope, 0) => some scope
  | (_, _ + 1) => none

/-- Following the scopes of an environment ends at the global one, and so the loops
    end that look for a name along them, to read it or to assign to it, or that walk
    to a distance. -/
structure EnvEnds (h : Chronicle) (env : Env) : Prop where
  follows : Trail (enclosing? h) env
  global : env.getLast? = some globalScope
  get : ∀ (s : Store Value) name scope, env.head? = some scope →
    Search (enclosing? h) (fun x => (s.bindings x).find? name) scope (s.lookup? env name)
  assign : ∀ (s : Store Value) name scope, env.head? = some scope →
    Search (enclosing? h) (Option.guard fun x => (s.bindings x).contains name) scope
      (s.owner? env name)
  ancestor : ∀ n scope, env.head? = some scope →
    Search (outward h) arrived (scope, n) (Store.scopeAt env n).toOption

section Environments

variable {h : Chronicle} {env : Env}

theorem Chain.exists_cons (hchain : Chain h env) : ∃ scope outer, env = scope :: outer := by
  cases hchain with
  | global => exact ⟨_, _, rfl⟩
  | scope _ _ => exact ⟨_, _, rfl⟩

theorem Chain.follows (hchain : Chain h env) (hsound : Sound h) :
    Trail (enclosing? h) env ∧ env.getLast? = some globalScope := by
  induction hchain with
  | global => exact ⟨.last (enclosing?_globalScope hsound), rfl⟩
  | @scope scope outer hchain hopen ih =>
    obtain ⟨next, rest, rfl⟩ := hchain.exists_cons
    obtain ⟨hpath, hlast⟩ := ih
    refine ⟨.step (enclosing?_of_mem hsound hopen) hpath, ?_⟩
    rw [List.getLast?_cons_cons]
    exact hlast

theorem follows_outward {scope : ScopeId} {outer : Env}
    (hpath : Trail (enclosing? h) (scope :: outer)) (n : Nat) :
    Search (outward h) arrived (scope, n) (Store.scopeAt (scope :: outer) n).toOption := by
  induction n generalizing scope outer with
  | zero => exact .found rfl
  | succ n ih =>
    cases hpath with
    | last hnone =>
      have hend : outward h (scope, n + 1) = none := by
        show (enclosing? h scope).map (·, n) = none
        rw [hnone]
        rfl
      have hbeyond : (Store.scopeAt [scope] (n + 1)).toOption = none := by
        cases n <;> rfl
      rw [hbeyond]
      exact .ended rfl hend
    | @step _ next rest hnext hpath =>
      have hstep : outward h (scope, n + 1) = some (next, n) := by
        show (enclosing? h scope).map (·, n) = some (next, n)
        rw [hnext]
        rfl
      exact .step rfl hstep (ih hpath)

theorem Chain.ends (hchain : Chain h env) (hsound : Sound h) : EnvEnds h env := by
  obtain ⟨hpath, hlast⟩ := hchain.follows hsound
  obtain ⟨scope, outer, rfl⟩ := hchain.exists_cons
  refine ⟨hpath, hlast, ?_, ?_, ?_⟩
  · intro s name scope' heq
    cases heq
    exact hpath.search _
  · intro s name scope' heq
    cases heq
    unfold Store.owner?
    rw [← List.findSome?_guard]
    exact hpath.search _
  · intro n scope' heq
    cases heq
    exact follows_outward hpath n

end Environments

/-! ### Classes -/

/-- Following the superclasses of a class ends, and what is met is the lineage of the
    class; and so the loop ends that looks for a method along them. -/
structure ClassEnds (h : Chronicle) (id : Nat) (d : Class) : Prop where
  follows : ∃ above, Trail (superclass? h) (id :: above) ∧
    (id :: above).map (classOf? h) = d.lineage.map some
  findMethod : ∀ name, Search (superclass? h) (fun i => (classOf? h i).bind (·.methods.find? name)) id
    (d.findMethod? name)

section Classes

variable {h : Chronicle} {id : Nat} {d : Class}

theorem ClassFits.follows (hd : ClassFits h id d) (hsound : Sound h) :
    ∃ above, Trail (superclass? h) (id :: above) ∧
      (id :: above).map (classOf? h) = d.lineage.map some := by
  fun_induction Class.lineage d generalizing id with
  | case1 name methods =>
    obtain ⟨env, text, superclass, hmem, heq⟩ := hd
    obtain ⟨hclass, hsuper⟩ := classOf?_of_mem hsound hmem
    obtain ⟨-, hnone, -⟩ := Class.mk.inj heq
    cases superclass with
    | some p => cases hnone
    | none =>
      refine ⟨[], .last hsuper, ?_⟩
      rw [heq, List.map_singleton, List.map_singleton, hclass]
  | case2 name above methods ih =>
    obtain ⟨env, text, superclass, hmem, heq⟩ := hd
    obtain ⟨hclass, hsuper⟩ := classOf?_of_mem hsound hmem
    obtain ⟨-, hsome, -⟩ := Class.mk.inj heq
    cases superclass with
    | none => cases hsome
    | some p =>
      cases hsome
      obtain ⟨path, hpath, hmap⟩ := ih ((hsound.created hmem).2.2 p rfl).1
      refine ⟨p.id :: path, .step hsuper hpath, ?_⟩
      rw [List.map_cons, hmap, hclass, ← heq]
      rfl

theorem ClassFits.ends (hd : ClassFits h id d) (hsound : Sound h) : ClassEnds h id d := by
  obtain ⟨above, hpath, hmap⟩ := hd.follows hsound
  refine ⟨⟨above, hpath, hmap⟩, fun name => ?_⟩
  have hsearch := hpath.search fun i => (classOf? h i).bind (·.methods.find? name)
  -- the loop meets the classes of the lineage
  have hfound : (id :: above).findSome? (fun i => (classOf? h i).bind (·.methods.find? name)) =
      d.findMethod? name := by
    have hmapped := congrArg (List.findSome? fun c => c.bind (·.methods.find? name)) hmap
    rw [List.findSome?_map, List.findSome?_map] at hmapped
    rw [findMethod?_eq]
    exact hmapped
  rw [hfound] at hsearch
  exact hsearch

theorem lineage_eq_cons (d : Class) : ∃ above, d.lineage = d :: above := by
  fun_cases Class.lineage d with
  | case1 name methods => exact ⟨[], rfl⟩
  | case2 name superclass methods => exact ⟨superclass.lineage, rfl⟩

/-- The class of an identity is the one that values have. -/
theorem ClassEnds.classOf? (hd : ClassEnds h id d) : classOf? h id = some d := by
  obtain ⟨⟨above, -, hmap⟩, -⟩ := hd
  obtain ⟨rest, hlineage⟩ := lineage_eq_cons d
  rw [hlineage, List.map_cons, List.map_cons] at hmap
  exact (List.cons.inj hmap).1

end Classes

/-! ### Values -/

/-- The functions in a value: the value itself, or the methods of the class and of
    its superclasses. -/
def Value.Carries {ρ ε : Type} : Value ρ ε → Closure ρ ε → Prop
  | .function _ c, c' => c' = c
  | .cls _ d, c' | .object _ d, c' => ∃ d' ∈ d.lineage, ∃ name, d'.methods.find? name = some c'
  | _, _ => False

/-- All that a value leads to comes to an end. -/
structure ValueEnds (h : Chronicle) (v : Value) : Prop where
  functions : ∀ c, v.Carries c → EnvEnds h c.env
  cls : ∀ id d, v = .cls id d → ClassEnds h id d
  object : ∀ object d, v = .object object d →
    ∃ id, instanceOf? h object = some id ∧ ClassEnds h id d

theorem ValueFits.ends {h : Chronicle} {v : Value} (hv : ValueFits h v) (hsound : Sound h) :
    ValueEnds h v := by
  have hmethods {id : Nat} {d : Class} (hd : ClassFits h id d) (c : Closure)
      (hc : ∃ d' ∈ d.lineage, ∃ name, d'.methods.find? name = some c) : EnvEnds h c.env := by
    obtain ⟨d', hd', name, hfound⟩ := hc
    obtain ⟨id', hfits⟩ := hd.lineage hsound d' hd'
    exact ((hfits.method hfound).chain hsound).ends hsound
  cases v with
  | function id c =>
    refine ⟨?_, nofun, nofun⟩
    rintro c' rfl
    obtain ⟨program, zone, zones, -, henv, -, -⟩ := hv
    exact (henv.chain hsound).ends hsound
  | cls id d =>
    refine ⟨hmethods hv, ?_, nofun⟩
    rintro id' d' heq
    cases heq
    exact ClassFits.ends hv hsound
  | object object d =>
    obtain ⟨cls, hmem, hd⟩ := hv
    refine ⟨hmethods hd, nofun, ?_⟩
    rintro object' d' heq
    cases heq
    exact ⟨cls, instanceOf?_of_mem hsound hmem, hd.ends hsound⟩
  | _ => exact ⟨nofun, nofun, nofun⟩

end Treewalk
