import Treewalk.Machine.Eval
import Treewalk.Proofs.Store
import Treewalk.Proofs.Tree.Notes

/-! # Values with other notes

    The code that functions and methods hold can be given other notes, and with it a
    value, a store and a whole machine.  Nothing that can be asked of a value looks at
    the notes, and the changes of a store do not depend on them: each of the operations
    is the same before and after. -/

namespace Treewalk

variable {ρ σ τ ε α β : Type}

/-! ### Tables -/

namespace Table

/-- The table with other entries. -/
def map (g : α → β) (t : Table α) : Table β := ⟨t.entries.map fun (name, a) => (name, g a)⟩

variable (g : α → β) (t : Table α) (name : String)

@[simp] theorem find?_map : (t.map g).find? name = (t.find? name).map g := by
  unfold find? map
  dsimp only
  induction t.entries with
  | nil => rfl
  | cons entry rest ih =>
    rw [List.map_cons, lookup_cons_eq, lookup_cons_eq, ih]
    split <;> rfl

@[simp] theorem contains_map : (t.map g).contains name = t.contains name := by
  unfold contains
  rw [find?_map, Option.isSome_map]

theorem map_put (entries : List (String × α)) (a : α) :
    (put name a entries).map (fun (name, a) => (name, g a)) =
      put name (g a) (entries.map fun (name, a) => (name, g a)) := by
  induction entries with
  | nil => rfl
  | cons entry rest ih =>
    obtain ⟨key, b⟩ := entry
    rw [List.map_cons]
    unfold put
    dsimp only
    split
    · rfl
    · rw [List.map_cons, ih]

@[simp] theorem map_insert (a : α) : (t.insert name a).map g = (t.map g).insert name (g a) :=
  congrArg Table.mk (map_put g name t.entries a)

end Table

/-! ### Functions and classes -/

/-- The function with other notes in its body. -/
def Closure.map (f : ρ → σ) (c : Closure ρ ε) : Closure σ ε :=
  { name := c.name, params := c.params, body := mapStmts f c.body, env := c.env
    isInitializer := c.isInitializer }

/-- The class with other notes in its methods and those it inherits. -/
def Class.map (f : ρ → σ) : Class ρ ε → Class σ ε
  | .mk name none methods => .mk name none (methods.map (·.map f))
  | .mk name (some superclass) methods =>
    .mk name (some (superclass.map f)) (methods.map (·.map f))

namespace Class

variable (f : ρ → σ)

@[simp] theorem name_map (c : Class ρ ε) : (c.map f).name = c.name := by
  unfold map
  split <;> rfl

@[simp] theorem findMethod?_map (name : String) : (c : Class ρ ε) →
    (c.map f).findMethod? name = (c.findMethod? name).map (·.map f)
  | .mk _ none methods => Table.find?_map _ methods name
  | .mk _ (some superclass) methods => by
    unfold map findMethod?
    rw [Table.find?_map, superclass.findMethod?_map name]
    cases methods.find? name <;> rfl

@[simp] theorem initializer?_map (c : Class ρ ε) :
    (c.map f).initializer? = c.initializer?.map (·.map f) :=
  c.findMethod?_map f initializerName

@[simp] theorem arity_map (c : Class ρ ε) : (c.map f).arity = c.arity := by
  unfold arity
  rw [initializer?_map]
  cases c.initializer? <;> rfl

end Class

/-! ### Values -/

/-- The value with other notes in the code it holds. -/
def Value.map (f : ρ → σ) : Value ρ ε → Value σ ε
  | .nil => .nil
  | .bool b => .bool b
  | .number x => .number x
  | .string s => .string s
  | .native id primitive => .native id primitive
  | .function id closure => .function id (closure.map f)
  | .cls id definition => .cls id (definition.map f)
  | .object id definition => .object id (definition.map f)

/-- The way a statement ends, with other notes in the value it returns. -/
def Completion.map (f : ρ → σ) : Completion ρ → Completion σ
  | .normal => .normal
  | .returned v => .returned (v.map f)

namespace Value

variable (f : ρ → σ)

@[simp] theorem map_literal (l : Literal) : (l.value : Value ρ ε).map f = l.value := by
  cases l <;> rfl

@[simp] theorem truthy_map (v : Value ρ ε) : (v.map f).truthy = v.truthy := by
  cases v <;> rfl

@[simp] theorem equals_map (v w : Value ρ ε) : (v.map f).equals (w.map f) = v.equals w := by
  cases v <;> cases w <;> rfl

@[simp] theorem text_map (v : Value ρ ε) : (v.map f).text = v.text := by
  cases v with
  | cls id definition => exact definition.name_map f
  | object id definition => exact congrArg (· ++ " instance") (definition.name_map f)
  | bool b => cases b <;> rfl
  | _ => rfl

end Value

@[simp] theorem Completion.value_map (f : ρ → σ) (c : Completion ρ) :
    (c.map f).value = c.value.map f := by
  cases c <;> rfl

/-! ### Stores -/

namespace Store

/-- The store with other values. -/
def map (g : α → β) (s : Store α) : Store β :=
  ⟨s.scopes.map (·.map g), s.objects.map (·.map g), s.fresh⟩

variable (g : α → β) (s : Store α)

@[simp] theorem bindings_map (scope : ScopeId) :
    (s.map g).bindings scope = (s.bindings scope).map g := by
  unfold bindings map
  rw [Array.getElem?_map]
  cases s.scopes[scope]? <;> rfl

@[simp] theorem fields_map (object : Nat) : (s.map g).fields object = (s.fields object).map g := by
  unfold fields map
  rw [Array.getElem?_map]
  cases s.objects[object]? <;> rfl

theorem map_modify (entries : Array (Table α)) (i : Nat) (name : String) (v : α) :
    (entries.modify i (·.insert name v)).map (·.map g) =
      (entries.map (·.map g)).modify i (·.insert name (g v)) := by
  refine Array.ext_getElem? fun j => ?_
  rw [Array.getElem?_map, Array.getElem?_modify, Array.getElem?_modify, Array.getElem?_map]
  split <;> cases entries[j]? <;> simp

@[simp] theorem map_bind (scope : ScopeId) (name : String) (v : α) :
    (s.bind scope name v).map g = (s.map g).bind scope name (g v) := by
  unfold map bind
  dsimp only
  rw [map_modify]

@[simp] theorem map_setField (object : Nat) (name : String) (v : α) :
    (s.setField object name v).map g = (s.map g).setField object name (g v) := by
  unfold map setField
  dsimp only
  rw [map_modify]

@[simp] theorem map_define (env : Env) (name : String) (v : α) :
    (s.define env name v).map g = (s.map g).define env name (g v) := by
  cases env with
  | nil => rfl
  | cons scope env => exact map_bind g s scope name v

theorem extend_map (env : Env) :
    (s.map g).extend env = ((s.extend env).1, (s.extend env).2.map g) := by
  simp [extend, map, Table.map, Table.empty]

theorem newObject_map : (s.map g).newObject = (s.newObject.1, s.newObject.2.map g) := by
  simp [newObject, map, Table.map, Table.empty]

theorem identity_map : (s.map g).identity = (s.identity.1, s.identity.2.map g) := rfl

@[simp] theorem lookup?_map (env : Env) (name : String) :
    (s.map g).lookup? env name = (s.lookup? env name).map g := by
  unfold lookup?
  induction env with
  | nil => rfl
  | cons scope env ih =>
    rw [List.findSome?_cons, List.findSome?_cons, bindings_map, Table.find?_map, ih]
    cases (s.bindings scope).find? name <;> rfl

@[simp] theorem owner?_map (env : Env) (name : String) :
    (s.map g).owner? env name = s.owner? env name := by
  unfold owner?
  simp only [bindings_map, Table.contains_map]

@[simp] theorem getAt_map (env : Env) (distance : Nat) (name : String) :
    (s.map g).getAt env distance name = (s.getAt env distance name).map g := by
  cases hscope : scopeAt env distance with
  | error fault =>
    unfold getAt
    rw [hscope]
    rfl
  | ok scope =>
    rw [getAt_eq _ hscope, getAt_eq _ hscope, bindings_map, Table.find?_map]
    cases (s.bindings scope).find? name <;> rfl

end Store

/-! ### Machines -/

/-- The machine with other notes in all code it holds. -/
def Machine.map (f : ρ → σ) (m : Machine ρ) : Machine σ :=
  { store := m.store.map (·.map f), printed := m.printed, clock := m.clock, readings := m.readings }

theorem Machine.map_initial (f : ρ → σ) (clock : Nat → Float) :
    (Machine.initial clock : Machine ρ).map f = .initial clock := by
  have hempty {α β : Type} (g : α → β) :
      (Store.bare.identity.2 : Store α).map g = Store.bare.identity.2 := by
    simp [Store.bare, Store.identity, Store.map, Table.map, Table.empty]
  unfold Machine.map Machine.initial Store.initial
  dsimp only
  rw [Store.map_bind, hempty]
  rfl

/-! ### Notes put twice -/

section Twice

variable (g : σ → τ) (f : ρ → σ)

theorem Closure.map_map (c : Closure ρ ε) : (c.map f).map g = c.map fun i => g (f i) := by
  unfold Closure.map
  rw [mapStmts_mapStmts]

theorem Table.map_map {γ : Type} (g : β → γ) (f : α → β) (t : Table α) :
    (t.map f).map g = t.map fun a => g (f a) := by
  unfold Table.map
  rw [List.map_map]
  rfl

theorem Class.map_map : (c : Class ρ ε) → (c.map f).map g = c.map fun i => g (f i)
  | .mk name none methods => by
    simp only [Class.map, Table.map_map, Closure.map_map]
  | .mk name (some superclass) methods => by
    simp only [Class.map, Table.map_map, Closure.map_map, superclass.map_map]

theorem Value.map_map (v : Value ρ ε) : (v.map f).map g = v.map fun i => g (f i) := by
  cases v with
  | function id closure => exact congrArg (Value.function id) (closure.map_map g f)
  | cls id definition => exact congrArg (Value.cls id) (definition.map_map g f)
  | object id definition => exact congrArg (Value.object id) (definition.map_map g f)
  | _ => rfl

theorem Store.map_map {γ : Type} (g : β → γ) (f : α → β) (s : Store α) :
    (s.map f).map g = s.map fun a => g (f a) := by
  simp [Store.map, Function.comp_def, Table.map_map]

theorem Machine.map_map (m : Machine ρ) : (m.map f).map g = m.map fun i => g (f i) := by
  simp only [Machine.map, Store.map_map, Value.map_map]

end Twice

end Treewalk
