import Mathlib.Data.List.Nodup
import Treewalk.Machine.Basic
import Treewalk.Proofs.Environment.Access

/-! # Forests of environments

    Environments are made one inside the other, and many of them may share the
    scopes further out.  A forest is all that was made so far, with the store of
    the bindings.  However a forest came about, access by name and access by
    distance agree in all its environments.  An assignment is seen through every
    environment that finds the name in the same place, and through no other; this
    rests on every environment having an innermost scope of its own. -/

namespace Treewalk

/-- Some environments, and the store that their scopes are in. -/
structure Forest (α : Type) where
  /-- The bindings of the scopes. -/
  store : Store α
  /-- The environments in the order in which they were made. -/
  environments : List Env

namespace Forest

variable {α : Type}

/-- The forest without environments.  Its store has no scope, so that the first
    environment to be made is `globalEnv`. -/
def empty : Forest α := ⟨⟨#[], #[], 0⟩, []⟩

/-! ### Operations

    An operation yields a result, or the reason why there is none, and the forest
    that it leaves behind. -/

/-- Makes an environment inside another one; inside of none it is a root. -/
def create (f : Forest α) (outer : Env) : Forest α :=
  ⟨(f.store.extend outer).2, f.environments ++ [(f.store.extend outer).1]⟩

/-- Binds a name in an environment. -/
def define (f : Forest α) (env : Env) (name : String) (v : α) : Forest α :=
  { f with store := f.store.define env name v }

/-- Reads a name. -/
def get (f : Forest α) (env : Env) (name : String) : Except RuntimeIssue α × Forest α :=
  match f.store.lookup? env name with
  | some v => (.ok v, f)
  | none => (.error (.undefinedVariable name), f)

/-- Assigns to a name. -/
def assign (f : Forest α) (env : Env) (name : String) (v : α) :
    Except RuntimeIssue Unit × Forest α :=
  match f.store.assign? env name v with
  | some store => (.ok (), { f with store })
  | none => (.error (.undefinedVariable name), f)

/-- Reads a name at a distance. -/
def getAt (f : Forest α) (env : Env) (distance : Nat) (name : String) :
    Except AccessFault α × Forest α :=
  match f.store.getAt env distance name with
  | .ok v => (.ok v, f)
  | .error fault => (.error fault, f)

/-- Assigns to a name at a distance. -/
def assignAt (f : Forest α) (env : Env) (distance : Nat) (name : String) (v : α) :
    Except AccessFault Unit × Forest α :=
  match f.store.assignAt env distance name v with
  | .ok store => (.ok (), { f with store })
  | .error fault => (.error fault, f)

/-- A forest after a write to a name in a scope. -/
def write (f : Forest α) (scope : ScopeId) (name : String) (v : α) : Forest α :=
  { f with store := f.store.bind scope name v }

section Results

variable (f : Forest α) {env : Env} {name : String} {d : Nat}

theorem get_of_some {v : α} (h : f.store.lookup? env name = some v) :
    f.get env name = (.ok v, f) := by
  unfold get
  rw [h]

theorem get_of_none (h : f.store.lookup? env name = none) :
    f.get env name = (.error (.undefinedVariable name), f) := by
  unfold get
  rw [h]

theorem assign_of_some {scope : ScopeId} (h : f.store.owner? env name = some scope) (v : α) :
    f.assign env name v = (.ok (), f.write scope name v) := by
  unfold assign Store.assign?
  rw [h]
  rfl

theorem assign_of_none (h : f.store.owner? env name = none) (v : α) :
    f.assign env name v = (.error (.undefinedVariable name), f) := by
  unfold assign Store.assign?
  rw [h]
  rfl

theorem assignAt_of_ok {scope : ScopeId} (h : Store.scopeAt env d = .ok scope) (v : α) :
    f.assignAt env d name v = (.ok (), f.write scope name v) := by
  unfold assignAt Store.assignAt
  rw [h]
  rfl

theorem assignAt_of_error {fault : AccessFault} (h : Store.scopeAt env d = .error fault) (v : α) :
    f.assignAt env d name v = (.error fault, f) := by
  unfold assignAt Store.assignAt
  rw [h]
  rfl

/-- What is read by name depends on the bindings alone. -/
theorem get_congr {f g : Forest α} (h : g.store.lookup? env name = f.store.lookup? env name) :
    (g.get env name).1 = (f.get env name).1 := by
  unfold get
  rw [h]
  cases f.store.lookup? env name <;> rfl

theorem fst_getAt (env : Env) (d : Nat) (name : String) :
    (f.getAt env d name).1 = f.store.getAt env d name := by
  unfold getAt
  cases f.store.getAt env d name <;> rfl

end Results

/-! ### Histories -/

/-- An operation that may change a forest.  An environment is named by its number
    in the order of creation. -/
inductive Change (α : Type) where
  /-- A new environment, inside the one that is named if there is one. -/
  | create (enclosing : Option Nat)
  | define (number : Nat) (name : String) (v : α)
  | assign (number : Nat) (name : String) (v : α)
  | assignAt (number distance : Nat) (name : String) (v : α)

/-- Changes a forest at the environment with a number. -/
def within (f : Forest α) (number : Nat) (change : Env → Forest α) : Forest α :=
  match f.environments[number]? with
  | some env => change env
  | none => f

/-- Carries out a change. -/
def act (f : Forest α) : Change α → Forest α
  | .create none => f.create []
  | .create (some number) => f.within number f.create
  | .define number name v => f.within number fun env => f.define env name v
  | .assign number name v => f.within number fun env => (f.assign env name v).2
  | .assignAt number distance name v =>
    f.within number fun env => (f.assignAt env distance name v).2

/-- The forest that some changes lead to. -/
def reach (changes : List (Change α)) : Forest α := changes.foldl act empty

theorem within_cases (f : Forest α) (number : Nat) (change : Env → Forest α) :
    f.within number change = f ∨
      ∃ env ∈ f.environments, f.within number change = change env := by
  unfold within
  cases henv : f.environments[number]? with
  | none => exact .inl rfl
  | some env => exact .inr ⟨env, List.mem_of_getElem? henv, rfl⟩

/-- A change does nothing, or it makes an environment inside of none or of one that
    is there, or it writes to one name in one scope. -/
theorem act_cases (f : Forest α) (change : Change α) :
    f.act change = f ∨
    (∃ outer, (outer = [] ∨ outer ∈ f.environments) ∧ f.act change = f.create outer) ∨
    ∃ scope name v, f.act change = f.write scope name v := by
  cases change with
  | create enclosing =>
    cases enclosing with
    | none => exact .inr (.inl ⟨[], .inl rfl, rfl⟩)
    | some number =>
      obtain hnothing | ⟨env, henv, hdone⟩ := f.within_cases number f.create
      · exact .inl hnothing
      · exact .inr (.inl ⟨env, .inr henv, hdone⟩)
  | define number name v =>
    obtain hnothing | ⟨env, _, hdone⟩ := f.within_cases number fun env => f.define env name v
    · exact .inl hnothing
    · cases env with
      | nil => exact .inl hdone
      | cons scope outer => exact .inr (.inr ⟨scope, name, v, hdone⟩)
  | assign number name v =>
    obtain hnothing | ⟨env, _, hdone⟩ := f.within_cases number fun env => (f.assign env name v).2
    · exact .inl hnothing
    · cases howner : f.store.owner? env name with
      | none =>
        rw [f.assign_of_none howner v] at hdone
        exact .inl hdone
      | some scope =>
        rw [f.assign_of_some howner v] at hdone
        exact .inr (.inr ⟨scope, name, v, hdone⟩)
  | assignAt number distance name v =>
    obtain hnothing | ⟨env, _, hdone⟩ :=
      f.within_cases number fun env => (f.assignAt env distance name v).2
    · exact .inl hnothing
    · cases hscope : Store.scopeAt env distance with
      | error fault =>
        rw [f.assignAt_of_error hscope v] at hdone
        exact .inl hdone
      | ok scope =>
        rw [f.assignAt_of_ok hscope v] at hdone
        exact .inr (.inr ⟨scope, name, v, hdone⟩)

/-! ### Well-formed forests -/

/-- The environments of a forest hang together: their scopes are in the store, what
    is around an environment is an environment, and no two have the same innermost
    scope, so that an environment is known by it. -/
structure WellFormed (f : Forest α) : Prop where
  known : ∀ env ∈ f.environments, ∀ scope ∈ env, scope < f.store.scopes.size
  outward : ∀ scope outer, scope :: outer ∈ f.environments → outer = [] ∨ outer ∈ f.environments
  distinct : (f.environments.map List.head?).Nodup

section WellFormed

variable {f : Forest α} (hf : f.WellFormed)
include hf

theorem WellFormed.create {outer : Env} (houter : outer = [] ∨ outer ∈ f.environments) :
    (f.create outer).WellFormed := by
  have hmem : ∀ env, env ∈ (f.create outer).environments ↔
      env ∈ f.environments ∨ env = f.store.scopes.size :: outer := by
    intro env
    show env ∈ f.environments ++ [f.store.scopes.size :: outer] ↔ _
    rw [List.mem_append, List.mem_singleton]
  have hsize : (f.create outer).store.scopes.size = f.store.scopes.size + 1 :=
    f.store.size_extend outer
  constructor
  case known =>
    intro env henv scope hscope
    rw [hsize]
    apply Nat.lt_succ_of_le
    cases (hmem env).mp henv with
    | inl hold => exact Nat.le_of_lt (hf.known env hold scope hscope)
    | inr hnew =>
      subst hnew
      cases List.mem_cons.mp hscope with
      | inl hself => exact Nat.le_of_eq hself
      | inr hin =>
        cases houter with
        | inl hnil =>
          subst hnil
          cases hin
        | inr hold => exact Nat.le_of_lt (hf.known outer hold scope hin)
  case outward =>
    intro scope rest hrest
    cases (hmem _).mp hrest with
    | inl hold => exact (hf.outward scope rest hold).imp_right fun h => (hmem rest).mpr (.inl h)
    | inr hnew =>
      cases hnew
      exact houter.imp_right fun h => (hmem outer).mpr (.inl h)
  case distinct =>
    have hnew : (f.create outer).environments.map List.head? =
        f.environments.map List.head? ++ [some f.store.scopes.size] := List.map_append
    rw [hnew]
    refine hf.distinct.append (List.nodup_singleton _) ?_
    -- the scope of the new environment is in none of the old ones
    rw [List.disjoint_singleton]
    intro hold
    obtain ⟨env, henv, hhead⟩ := List.mem_map.mp hold
    exact Nat.lt_irrefl _ (hf.known env henv _ (List.mem_of_mem_head? hhead))

theorem WellFormed.write (scope : ScopeId) (name : String) (v : α) :
    (f.write scope name v).WellFormed := by
  refine ⟨?_, hf.outward, hf.distinct⟩
  intro env henv other hother
  show other < (f.store.bind scope name v).scopes.size
  rw [Store.size_bind]
  exact hf.known env henv other hother

theorem WellFormed.act (change : Change α) : (f.act change).WellFormed := by
  obtain hsame | ⟨outer, houter, hcreate⟩ | ⟨scope, name, v, hwrite⟩ := f.act_cases change
  · rw [hsame]
    exact hf
  · rw [hcreate]
    exact hf.create houter
  · rw [hwrite]
    exact hf.write scope name v

end WellFormed

theorem wellFormed_empty : (empty : Forest α).WellFormed := by
  refine ⟨?_, ?_, List.nodup_nil⟩
  · intro env henv
    cases henv
  · intro scope outer houter
    cases houter

/-- However a forest came about, it is well-formed. -/
theorem wellFormed_reach (changes : List (Change α)) : (reach changes).WellFormed := by
  have hrun : ∀ f : Forest α, f.WellFormed → (changes.foldl act f).WellFormed := by
    induction changes with
    | nil =>
      intro f hf
      exact hf
    | cons change changes ih =>
      intro f hf
      exact ih (f.act change) (hf.act change)
  exact hrun empty wellFormed_empty

/-! ### Ancestors -/

/-- From an environment outwards, the first environment that binds a name is `holder`. -/
def FindsIn (f : Forest α) (env : Env) (name : String) (holder : Env) : Prop :=
  ∃ d, f.store.Nearest env name d ∧ env.ancestor? d = some holder

section Ancestors

variable {f : Forest α} (hf : f.WellFormed) {env : Env} {scope : ScopeId} {outer : Env}
include hf

/-- What is around an environment of a forest is one of its environments. -/
theorem WellFormed.mem_of_ancestor? (henv : env ∈ f.environments) {d : Nat}
    (h : env.ancestor? d = some (scope :: outer)) : scope :: outer ∈ f.environments := by
  induction d generalizing env with
  | zero =>
    have hself : env.ancestor? 0 = some env := by cases env <;> rfl
    rw [hself] at h
    cases h
    exact henv
  | succ d ih =>
    cases env with
    | nil => cases h
    | cons head rest =>
      have hrest : Env.ancestor? rest d = some (scope :: outer) := h
      cases hf.outward head rest henv with
      | inr hmem => exact ih hmem hrest
      | inl hnil =>
        subst hnil
        have hscope : Store.scopeAt [] d = .ok scope := Store.scopeAt_eq_ok_iff.mpr ⟨outer, hrest⟩
        rw [Store.scopeAt_nil] at hscope
        cases hscope

/-- Two environments that share a scope share the environment of that scope. -/
theorem WellFormed.scopeAt_eq_ok_iff (henv : env ∈ f.environments)
    (hholder : scope :: outer ∈ f.environments) (d : Nat) :
    Store.scopeAt env d = .ok scope ↔ env.ancestor? d = some (scope :: outer) := by
  rw [Store.scopeAt_eq_ok_iff]
  constructor
  · intro h
    obtain ⟨outer', houter'⟩ := h
    have hsame : scope :: outer' = scope :: outer :=
      List.inj_on_of_nodup_map hf.distinct (hf.mem_of_ancestor? henv houter') hholder rfl
    rw [houter', hsame]
  · intro h
    exact ⟨outer, h⟩

theorem WellFormed.owner?_eq_some_iff (henv : env ∈ f.environments)
    (hholder : scope :: outer ∈ f.environments) (name : String) :
    f.store.owner? env name = some scope ↔ f.FindsIn env name (scope :: outer) := by
  constructor
  · intro howner
    obtain ⟨d, hd, hscope⟩ := Store.exists_nearest_of_owner? howner
    exact ⟨d, hd, (hf.scopeAt_eq_ok_iff henv hholder d).mp hscope⟩
  · intro hfinds
    obtain ⟨d, hd, hancestor⟩ := hfinds
    obtain ⟨scope', hscope', howner'⟩ := Store.owner?_of_nearest hd
    rw [Store.scopeAt_eq_ok_iff.mpr ⟨outer, hancestor⟩] at hscope'
    cases hscope'
    exact howner'

end Ancestors

/-! ### Success and failure -/

section Access

variable (f : Forest α) {env : Env} {name : String} {d : Nat}

theorem get_ok_iff :
    (∃ v, (f.get env name).1 = .ok v) ↔ ∃ d ≤ env.depth, f.store.Binds env d name := by
  rw [← Store.exists_lookup?_iff]
  cases hlookup : f.store.lookup? env name with
  | none =>
    rw [f.get_of_none hlookup]
    simp
  | some v =>
    rw [f.get_of_some hlookup]
    simp

theorem assign_ok_iff (v : α) :
    (f.assign env name v).1 = .ok () ↔ ∃ d ≤ env.depth, f.store.Binds env d name := by
  rw [← Store.exists_owner?_iff]
  cases howner : f.store.owner? env name with
  | none =>
    rw [f.assign_of_none howner v]
    simp
  | some scope =>
    rw [f.assign_of_some howner v]
    simp

/-- A read that fails names what is undefined and leaves the forest as it is. -/
theorem get_of_error {issue : RuntimeIssue} (h : (f.get env name).1 = .error issue) :
    f.get env name = (.error (.undefinedVariable name), f) := by
  cases hlookup : f.store.lookup? env name with
  | none => exact f.get_of_none hlookup
  | some v =>
    rw [f.get_of_some hlookup] at h
    cases h

/-- An assignment that fails names what is undefined and leaves the forest as it is. -/
theorem assign_of_error {v : α} {issue : RuntimeIssue}
    (h : (f.assign env name v).1 = .error issue) :
    f.assign env name v = (.error (.undefinedVariable name), f) := by
  cases howner : f.store.owner? env name with
  | none => exact f.assign_of_none howner v
  | some scope =>
    rw [f.assign_of_some howner v] at h
    cases h

/-- At the distance of its nearest binding a name is read as it is by name. -/
theorem get_of_nearest (h : f.store.Nearest env name d) :
    ∃ v, f.get env name = (.ok v, f) ∧ f.getAt env d name = (.ok v, f) := by
  obtain ⟨v, hlookup, hgetAt⟩ := Store.lookup?_of_nearest h
  refine ⟨v, f.get_of_some hlookup, ?_⟩
  unfold getAt
  rw [hgetAt]

end Access

/-! ### What an assignment changes -/

/-- What can be told of a forest `g` that came from `f` by writing a value to a name
    in the environment `holder`, which bound the name before. -/
structure Rebinds (f : Forest α) (holder : Env) (name : String) (v : α) (g : Forest α) : Prop where
  environments : g.environments = f.environments
  /-- The same names are bound in the same places. -/
  binds : ∀ env k key, g.store.Binds env k key ↔ f.store.Binds env k key
  /-- By name the value is read where the name is found in the environment. -/
  seen : ∀ env ∈ f.environments, f.FindsIn env name holder → (g.get env name).1 = .ok v
  /-- All else is read by name as before. -/
  unseen : ∀ env ∈ f.environments, ∀ key, ¬ (key = name ∧ f.FindsIn env name holder) →
    (g.get env key).1 = (f.get env key).1
  /-- At a distance the value is read if this leads to the environment; all else is
      read as before. -/
  indexed : ∀ env ∈ f.environments, ∀ k key, (g.getAt env k key).1 =
    if key = name ∧ env.ancestor? k = some holder then .ok v else (f.getAt env k key).1

theorem WellFormed.rebinds_write {f : Forest α} (hf : f.WellFormed) {scope : ScopeId} {outer : Env}
    (hholder : scope :: outer ∈ f.environments) {name : String}
    (hbound : (f.store.bindings scope).contains name = true) (v : α) :
    f.Rebinds (scope :: outer) name v (f.write scope name v) := by
  have hscope : scope < f.store.scopes.size := hf.known _ hholder _ List.mem_cons_self
  constructor
  · rfl
  · exact Store.binds_bind hscope v hbound
  · intro env henv hfinds
    have howner := (hf.owner?_eq_some_iff henv hholder name).mpr hfinds
    have hread : (f.write scope name v).store.lookup? env name = some v := by
      show (f.store.bind scope name v).lookup? env name = some v
      rw [Store.lookup?_bind hscope v hbound, if_pos ⟨rfl, howner⟩]
    exact congrArg Prod.fst (get_of_some _ hread)
  · intro env henv key hother
    have hno : ¬ (key = name ∧ f.store.owner? env name = some scope) := by
      intro h
      exact hother ⟨h.1, (hf.owner?_eq_some_iff henv hholder name).mp h.2⟩
    apply get_congr
    show (f.store.bind scope name v).lookup? env key = f.store.lookup? env key
    rw [Store.lookup?_bind hscope v hbound, if_neg hno]
  · intro env henv k key
    rw [fst_getAt, fst_getAt]
    by_cases hhere : key = name ∧ env.ancestor? k = some (scope :: outer)
    · rw [if_pos hhere, hhere.1]
      exact Store.getAt_bind_self hscope v
        ((hf.scopeAt_eq_ok_iff henv hholder k).mpr hhere.2)
    · rw [if_neg hhere]
      apply Store.getAt_bind_of_ne hscope v
      intro h
      exact hhere ⟨h.1, (hf.scopeAt_eq_ok_iff henv hholder k).mp h.2⟩

/-- An assignment by name is the one at the distance of the nearest binding, and it
    rebinds the name in the environment there. -/
theorem WellFormed.assign_of_nearest {f : Forest α} (hf : f.WellFormed) {env : Env}
    (henv : env ∈ f.environments) {name : String} {d : Nat} (h : f.store.Nearest env name d) :
    ∃ holder ∈ f.environments, env.ancestor? d = some holder ∧
      ∀ v, ∃ g, f.assign env name v = (.ok (), g) ∧ f.assignAt env d name v = (.ok (), g) ∧
        f.Rebinds holder name v g := by
  obtain ⟨scope, hscope, howner⟩ := Store.owner?_of_nearest h
  obtain ⟨outer, hancestor⟩ := Store.scopeAt_eq_ok_iff.mp hscope
  have hholder := hf.mem_of_ancestor? henv hancestor
  refine ⟨scope :: outer, hholder, hancestor, ?_⟩
  intro v
  refine ⟨f.write scope name v, f.assign_of_some howner v, f.assignAt_of_ok hscope v, ?_⟩
  exact hf.rebinds_write hholder (Store.contains_of_owner? howner) v

/-- Named and indexed access agree.  For every forest, every environment of it and
    every name: reading and assigning by name succeed if and only if the name is
    bound at some distance up to the root.  They are then the read and the
    assignment at the least such distance, and the assignment is seen exactly through
    the environments that find the name in the environment at that distance.  If one
    of them fails, then nothing has changed. -/
theorem named_access_is_nearest_access (changes : List (Change α)) {env : Env}
    (henv : env ∈ (reach changes).environments) (name : String) :
    let f := reach changes
    ((∃ v, (f.get env name).1 = .ok v) ↔ ∃ d ≤ env.depth, f.store.Binds env d name) ∧
    (∀ v, (f.assign env name v).1 = .ok () ↔ ∃ d ≤ env.depth, f.store.Binds env d name) ∧
    (∀ d, f.store.Nearest env name d →
      (∃ v, f.get env name = (.ok v, f) ∧ f.getAt env d name = (.ok v, f)) ∧
      ∃ holder ∈ f.environments, env.ancestor? d = some holder ∧
        ∀ v, ∃ g, f.assign env name v = (.ok (), g) ∧ f.assignAt env d name v = (.ok (), g) ∧
          f.Rebinds holder name v g) ∧
    (∀ issue, (f.get env name).1 = .error issue →
      f.get env name = (.error (.undefinedVariable name), f)) ∧
    (∀ v issue, (f.assign env name v).1 = .error issue →
      f.assign env name v = (.error (.undefinedVariable name), f)) := by
  intro f
  refine ⟨f.get_ok_iff, f.assign_ok_iff, ?_, ?_, ?_⟩
  · intro d hd
    exact ⟨f.get_of_nearest hd, (wellFormed_reach changes).assign_of_nearest henv hd⟩
  · intro issue hissue
    exact f.get_of_error hissue
  · intro v issue hissue
    exact f.assign_of_error hissue

/-- Two environments inside one that hides a name of the root: what is assigned
    through the one is read through the other, and not beside them. -/
theorem hidden_name_is_nearest_access :
    let f : Forest Nat := reach [.create none, .define 0 "count" 1, .create (some 0),
      .define 1 "count" 2, .create (some 1), .create (some 1), .create (some 0)]
    f.environments = [[0], [1, 0], [2, 1, 0], [3, 1, 0], [4, 0]] ∧
    f.store.Nearest [2, 1, 0] "count" 1 ∧
    f.get [2, 1, 0] "count" = (.ok 2, f) ∧
    ∃ g, f.assign [2, 1, 0] "count" 3 = (.ok (), g) ∧
      f.assignAt [2, 1, 0] 1 "count" 3 = (.ok (), g) ∧
      (g.get [3, 1, 0] "count").1 = .ok 3 ∧ (g.get [4, 0] "count").1 = .ok 1 := by
  intro f
  have hmem : [2, 1, 0] ∈ f.environments := by decide
  have hnearest : f.store.Nearest [2, 1, 0] "count" 1 := by decide
  obtain ⟨_, _, hnamed, _, _⟩ := named_access_is_nearest_access _ hmem "count"
  obtain ⟨_, holder, _, hholder, hassign⟩ := hnamed 1 hnearest
  obtain ⟨g, hname, hindex, hrebinds⟩ := hassign 3
  have hbeside : ¬ ("count" = "count" ∧ f.FindsIn [4, 0] "count" holder) := by
    intro h
    obtain ⟨_, k, hk, hother⟩ := h
    -- the root is where it is found, and that is not what was assigned to
    match k with
    | 0 => exact absurd hk (by decide)
    | 1 =>
      rw [← hholder] at hother
      exact absurd hother (by decide)
    | k + 2 => exact absurd (hk.least 1 (by omega)) (by decide)
  refine ⟨by decide, hnearest, rfl, g, hname, hindex, ?_, ?_⟩
  · exact hrebinds.seen [3, 1, 0] (by decide) ⟨1, by decide, hholder⟩
  · rw [hrebinds.unseen [4, 0] (by decide) "count" hbeside]
    rfl

end Forest

end Treewalk
