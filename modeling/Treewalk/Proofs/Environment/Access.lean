import Treewalk.Proofs.Store

/-! # Access by name and by distance

    A name is looked for scope by scope, from the innermost one outwards.  The
    scope where it is found is the nearest one that binds it.  So an access by
    name is the access at the distance of that scope, and there is none if no
    scope on the way out binds the name.  A write to a name in a scope that
    binds it changes what is read where this scope is the nearest one that
    binds the name, and no other read. -/

namespace Treewalk.Store

variable {α : Type} (s : Store α) {env : Env} {name : String} {d : Nat} {scope : ScopeId}

/-! ### The nearest scope that binds a name -/

/-- The scope at a distance in an environment binds a name. -/
def Binds (env : Env) (d : Nat) (name : String) : Prop :=
  ∃ scope, scopeAt env d = .ok scope ∧ (s.bindings scope).contains name = true

/-- Of the scopes of an environment that bind a name the nearest is at a distance. -/
structure Nearest (env : Env) (name : String) (d : Nat) : Prop where
  binds : s.Binds env d name
  least : ∀ k < d, ¬ s.Binds env k name

variable {s}

instance (env : Env) (d : Nat) (name : String) : Decidable (s.Binds env d name) :=
  match h : scopeAt env d with
  | .ok scope =>
    decidable_of_iff ((s.bindings scope).contains name = true) (by simp [Binds, h])
  | .error _ => isFalse (by simp [Binds, h])

instance (env : Env) (name : String) (d : Nat) : Decidable (s.Nearest env name d) :=
  decidable_of_iff (s.Binds env d name ∧ ∀ k < d, ¬ s.Binds env k name)
    ⟨fun h => ⟨h.1, h.2⟩, fun h => ⟨h.binds, h.least⟩⟩

theorem scopeAt_eq_ok_iff :
    scopeAt env d = .ok scope ↔ ∃ outer, env.ancestor? d = some (scope :: outer) := by
  unfold scopeAt
  cases env.ancestor? d with
  | none => simp
  | some found => cases found <;> simp

theorem scopeAt_eq_ok_iff_getElem? : scopeAt env d = .ok scope ↔ env[d]? = some scope := by
  induction env generalizing d with
  | nil => simp [scopeAt_nil]
  | cons head rest ih =>
    cases d with
    | zero => simp [scopeAt, Env.ancestor?]
    | succ d => rw [scopeAt_cons_succ, List.getElem?_cons_succ, ih]

/-- The outermost scope is at the depth of the environment. -/
theorem Binds.le_depth (h : s.Binds env d name) : d ≤ env.depth := by
  obtain ⟨scope, hscope, _⟩ := h
  have hlt : d < env.length :=
    (List.getElem?_eq_some_iff.mp (scopeAt_eq_ok_iff_getElem?.mp hscope)).1
  unfold Env.depth
  omega

theorem Binds.exists_nearest (h : s.Binds env d name) : ∃ k, s.Nearest env name k := by
  induction d using Nat.strongRecOn with
  | ind d ih =>
    by_cases hnearer : ∃ k < d, s.Binds env k name
    · obtain ⟨k, hk, hbinds⟩ := hnearer
      exact ih k hk hbinds
    · exact ⟨d, h, fun k hk hbinds => hnearer ⟨k, hk, hbinds⟩⟩

/-! ### Access by name -/

theorem owner?_cons_of_bound (h : (s.bindings scope).contains name = true) :
    s.owner? (scope :: env) name = some scope :=
  List.find?_cons_of_pos (p := fun scope => (s.bindings scope).contains name) h

theorem owner?_cons_of_unbound (h : ¬ (s.bindings scope).contains name = true) :
    s.owner? (scope :: env) name = s.owner? env name :=
  List.find?_cons_of_neg (p := fun scope => (s.bindings scope).contains name) h

/-- The scope that is found by name is the nearest one that binds the name. -/
theorem owner?_of_nearest (h : s.Nearest env name d) :
    ∃ scope, scopeAt env d = .ok scope ∧ s.owner? env name = some scope := by
  induction env generalizing d with
  | nil =>
    obtain ⟨scope, hscope, _⟩ := h.binds
    rw [scopeAt_nil] at hscope
    cases hscope
  | cons head rest ih =>
    by_cases hhead : (s.bindings head).contains name = true
    · have hzero : d = 0 := by
        apply Nat.eq_zero_of_not_pos
        intro hpos
        exact h.least 0 hpos ⟨head, rfl, hhead⟩
      subst hzero
      exact ⟨head, rfl, owner?_cons_of_bound hhead⟩
    · cases d with
      | zero =>
        obtain ⟨scope, hscope, hbound⟩ := h.binds
        cases hscope
        exact absurd hbound hhead
      | succ d =>
        have hrest : s.Nearest rest name d := by
          refine ⟨h.binds, ?_⟩
          intro k hk
          exact h.least (k + 1) (by omega)
        obtain ⟨scope, hscope, howner⟩ := ih hrest
        refine ⟨scope, hscope, ?_⟩
        rw [owner?_cons_of_unbound hhead]
        exact howner

theorem contains_of_owner? (h : s.owner? env name = some scope) :
    (s.bindings scope).contains name = true :=
  List.find?_some (p := fun scope => (s.bindings scope).contains name) h

theorem exists_nearest_of_owner? (h : s.owner? env name = some scope) :
    ∃ d, s.Nearest env name d ∧ scopeAt env d = .ok scope := by
  obtain ⟨k, hk⟩ := List.mem_iff_getElem?.mp (List.mem_of_find?_eq_some h)
  have hbinds : s.Binds env k name :=
    ⟨scope, scopeAt_eq_ok_iff_getElem?.mpr hk, contains_of_owner? h⟩
  obtain ⟨d, hd⟩ := hbinds.exists_nearest
  obtain ⟨scope', hscope', howner⟩ := owner?_of_nearest hd
  rw [h] at howner
  cases howner
  exact ⟨d, hd, hscope'⟩

/-- A scope is found if and only if the name is bound at some distance up to the root. -/
theorem exists_owner?_iff :
    (∃ scope, s.owner? env name = some scope) ↔ ∃ d ≤ env.depth, s.Binds env d name := by
  constructor
  · intro h
    obtain ⟨scope, howner⟩ := h
    obtain ⟨d, hd, _⟩ := exists_nearest_of_owner? howner
    exact ⟨d, hd.binds.le_depth, hd.binds⟩
  · intro h
    obtain ⟨d, _, hd⟩ := h
    obtain ⟨k, hk⟩ := hd.exists_nearest
    obtain ⟨scope, _, howner⟩ := owner?_of_nearest hk
    exact ⟨scope, howner⟩

/-- What is read by name is read in the scope that is found. -/
theorem lookup?_eq_bind_owner? (s : Store α) (env : Env) (name : String) : s.lookup? env name =
    (s.owner? env name).bind fun scope => (s.bindings scope).find? name := by
  induction env with
  | nil => rfl
  | cons head rest ih =>
    by_cases hhead : (s.bindings head).contains name = true
    · obtain ⟨v, hv⟩ := Option.isSome_iff_exists.mp hhead
      have hlookup : s.lookup? (head :: rest) name = some v := by
        unfold lookup?
        rw [List.findSome?_cons, hv]
      rw [hlookup, owner?_cons_of_bound hhead]
      exact hv.symm
    · have hnone : (s.bindings head).find? name = none := Option.not_isSome_iff_eq_none.mp hhead
      have hlookup : s.lookup? (head :: rest) name = s.lookup? rest name := by
        unfold lookup?
        rw [List.findSome?_cons, hnone]
      rw [hlookup, owner?_cons_of_unbound hhead]
      exact ih

theorem exists_lookup?_iff :
    (∃ v, s.lookup? env name = some v) ↔ ∃ d ≤ env.depth, s.Binds env d name := by
  rw [← exists_owner?_iff]
  constructor
  · intro h
    obtain ⟨v, hv⟩ := h
    rw [lookup?_eq_bind_owner?] at hv
    obtain ⟨scope, howner, _⟩ := Option.bind_eq_some_iff.mp hv
    exact ⟨scope, howner⟩
  · intro h
    obtain ⟨scope, howner⟩ := h
    obtain ⟨v, hv⟩ := Option.isSome_iff_exists.mp (contains_of_owner? howner)
    refine ⟨v, ?_⟩
    rw [lookup?_eq_bind_owner?, howner]
    exact hv

/-- Reading by name is reading at the distance of the nearest binding. -/
theorem lookup?_of_nearest (h : s.Nearest env name d) :
    ∃ v, s.lookup? env name = some v ∧ s.getAt env d name = .ok v := by
  obtain ⟨scope, hscope, howner⟩ := owner?_of_nearest h
  obtain ⟨v, hv⟩ := Option.isSome_iff_exists.mp (contains_of_owner? howner)
  refine ⟨v, ?_, ?_⟩
  · rw [lookup?_eq_bind_owner?, howner]
    exact hv
  · rw [s.getAt_eq hscope, hv]

/-! ### What a write changes -/

section Writes

variable (hscope : scope < s.scopes.size) (v : α)
include hscope

section Bound

variable (hbound : (s.bindings scope).contains name = true)
include hbound

/-- A write to a name that is bound binds nothing new. -/
theorem contains_bind (other : ScopeId) (key : String) :
    ((s.bind scope name v).bindings other).contains key = (s.bindings other).contains key := by
  unfold Table.contains
  rw [find?_bind s hscope]
  split
  · next hhere =>
    rw [hhere.1, hhere.2]
    exact hbound.symm
  · rfl

theorem binds_bind (env : Env) (k : Nat) (key : String) :
    (s.bind scope name v).Binds env k key ↔ s.Binds env k key := by
  unfold Binds
  simp only [contains_bind hscope v hbound]

theorem owner?_bind (env : Env) (key : String) :
    (s.bind scope name v).owner? env key = s.owner? env key := by
  unfold owner?
  simp only [contains_bind hscope v hbound]

theorem lookup?_bind (env : Env) (key : String) :
    (s.bind scope name v).lookup? env key =
      if key = name ∧ s.owner? env name = some scope then some v else s.lookup? env key := by
  rw [lookup?_eq_bind_owner?, lookup?_eq_bind_owner?, owner?_bind hscope v hbound]
  cases howner : s.owner? env key with
  | none =>
    have hno : ¬ (key = name ∧ s.owner? env name = some scope) := by
      intro h
      rw [← h.1, howner] at h
      cases h.2
    rw [if_neg hno]
    rfl
  | some owner =>
    show ((s.bind scope name v).bindings owner).find? key = _
    rw [find?_bind s hscope]
    by_cases hkey : key = name
    · subst hkey
      simp [howner]
    · simp [hkey]

end Bound

theorem getAt_bind_self {k : Nat} (hat : scopeAt env k = .ok scope) :
    (s.bind scope name v).getAt env k name = .ok v := by
  rw [getAt_eq _ hat, find?_bind s hscope, if_pos ⟨rfl, rfl⟩]

theorem getAt_bind_of_ne {k : Nat} {key : String}
    (hother : ¬ (key = name ∧ scopeAt env k = .ok scope)) :
    (s.bind scope name v).getAt env k key = s.getAt env k key := by
  cases hat : scopeAt env k with
  | error fault =>
    unfold getAt
    rw [hat]
    rfl
  | ok other =>
    have hne : ¬ (other = scope ∧ key = name) := by
      intro h
      rw [h.1] at hat
      exact hother ⟨h.2, hat⟩
    rw [getAt_eq _ hat, getAt_eq _ hat, find?_bind s hscope, if_neg hne]

end Writes

end Treewalk.Store
