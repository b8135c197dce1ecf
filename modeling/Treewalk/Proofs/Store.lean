import Treewalk.Proofs.Table
import Treewalk.Value.Store

/-! # Facts about the store

    What the elementary changes of a store do to the bindings of its scopes and
    to the fields of its objects. -/

namespace Treewalk.Store

variable {α : Type} (s : Store α)

/-! ### Scopes -/

theorem bindings_bind {scope : ScopeId} (hscope : scope < s.scopes.size) (name : String) (v : α)
    (other : ScopeId) : (s.bind scope name v).bindings other =
      if other = scope then (s.bindings other).insert name v else s.bindings other := by
  unfold bind bindings
  rw [Array.getElem?_modify]
  by_cases h : scope = other
  · subst h
    simp [hscope]
  · rw [if_neg h, if_neg (Ne.symm h)]

/-- A binding after a change of one name in one scope. -/
theorem find?_bind {scope : ScopeId} (hscope : scope < s.scopes.size) (name : String) (v : α)
    (other : ScopeId) (key : String) : ((s.bind scope name v).bindings other).find? key =
      if other = scope ∧ key = name then some v else (s.bindings other).find? key := by
  rw [bindings_bind s hscope]
  by_cases h : other = scope
  · rw [if_pos h, Table.find?_insert]
    simp [h]
  · rw [if_neg h]
    simp [h]

@[simp] theorem size_bind (scope : ScopeId) (name : String) (v : α) :
    (s.bind scope name v).scopes.size = s.scopes.size := by
  simp [bind]

/-- A new scope has no bindings, and the others keep theirs. -/
@[simp] theorem bindings_extend (env : Env) (scope : ScopeId) :
    (s.extend env).2.bindings scope = s.bindings scope := by
  unfold extend bindings
  rw [Array.getElem?_push]
  by_cases h : scope = s.scopes.size
  · subst h
    simp
  · rw [if_neg h]

@[simp] theorem size_extend (env : Env) : (s.extend env).2.scopes.size = s.scopes.size + 1 := by
  simp [extend]

/-! ### Distances -/

theorem scopeAt_nil (d : Nat) : scopeAt [] d = .error .beyondGlobal := by
  cases d <;> rfl

theorem scopeAt_cons_succ (scope : ScopeId) (env : Env) (d : Nat) :
    scopeAt (scope :: env) (d + 1) = scopeAt env d := rfl

/-- What is read at a distance, given the scope that is there. -/
theorem getAt_eq {env : Env} {d : Nat} {scope : ScopeId} (h : scopeAt env d = .ok scope)
    (name : String) : s.getAt env d name =
      match (s.bindings scope).find? name with
      | some v => .ok v
      | none => .error (.unbound name) := by
  unfold getAt
  rw [h]
  rfl

/-! ### Globals -/

theorem lookup?_globalEnv (name : String) :
    s.lookup? globalEnv name = (s.bindings globalScope).find? name := by
  unfold lookup? globalEnv
  rw [List.findSome?_singleton]

theorem owner?_globalEnv (name : String) : s.owner? globalEnv name =
    if (s.bindings globalScope).contains name then some globalScope else none := by
  unfold owner? globalEnv
  rw [List.find?_singleton]

/-! ### Objects -/

theorem fields_newObject (object : Nat) : s.newObject.2.fields object = s.fields object := by
  unfold newObject fields
  rw [Array.getElem?_push]
  by_cases h : object = s.objects.size
  · subst h
    simp
  · rw [if_neg h]

theorem fields_setField (object : Nat) (name : String) (v : α) (other : Nat) :
    (s.setField object name v).fields other =
      if other = object ∧ object < s.objects.size then (s.fields other).insert name v
      else s.fields other := by
  unfold setField fields
  rw [Array.getElem?_modify]
  by_cases h : object = other
  · subst h
    by_cases hlt : object < s.objects.size
    · simp [hlt]
    · simp [hlt]
  · rw [if_neg h]
    simp [Ne.symm h]

end Treewalk.Store
