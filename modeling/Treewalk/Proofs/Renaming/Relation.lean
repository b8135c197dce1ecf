import Treewalk.Proofs.Lexical.Relation
import Treewalk.Proofs.Renaming.Rules

/-! # Two runs side by side

    A program and its renaming are run in step: both open the same scopes and give out
    the same identities.  A `Marking` tells which of the scopes opened so far are picked.
    The bindings of a picked scope have other names on the two sides; all else is the
    same, but for the code in functions, which is renamed as its environment is marked. -/

namespace Treewalk

/-! ### Maps of names -/

/-- A map of names that keeps them apart and leaves the words of the language alone. -/
structure KeepsApart (f : String → String) : Prop where
  injective : ∀ {x y}, f x = f y → x = y
  keyword : ∀ k : Keyword, f k.text = k.text

section Maps

variable {f : String → String} (hf : KeepsApart f)
include hf

theorem KeepsApart.renameIf_inj (b : Bool) {x y : String} :
    renameIf b f x = renameIf b f y ↔ x = y := by
  cases b with
  | false => exact Iff.rfl
  | true => exact ⟨hf.injective, congrArg f⟩

theorem KeepsApart.renameIf_keyword (b : Bool) (k : Keyword) : renameIf b f k.text = k.text := by
  cases b with
  | false => rfl
  | true => exact hf.keyword k

end Maps

/-! ### Marked scopes -/

/-- Of each scope that was opened, whether it is picked. -/
abbrev Marking := List Bool

/-- The scopes of the environment are marked as those around the code are picked. -/
def Marking.Fits (M : Marking) (Γ : Picked) (env : Env) : Prop :=
  ∀ d scope, Store.scopeAt env d = .ok scope → M[scope]? = some (Γ.at (some d))

section Markings

variable {M M' : Marking} {Γ : Picked} {env : Env}

theorem getElem?_of_prefix (h : M <+: M') {i : Nat} {b : Bool} (hb : M[i]? = some b) :
    M'[i]? = some b := by
  obtain ⟨more, rfl⟩ := h
  rw [List.getElem?_append_left (List.getElem?_eq_some_iff.mp hb).1, hb]

theorem Marking.Fits.mono (h : M.Fits Γ env) (hM : M <+: M') : Marking.Fits M' Γ env :=
  fun d scope hscope => getElem?_of_prefix hM (h d scope hscope)

/-- A scope more. -/
theorem Marking.Fits.push (h : M.Fits Γ env) (b : Bool) :
    Marking.Fits (M ++ [b]) (b :: Γ) (M.length :: env) := by
  intro d scope hscope
  cases d with
  | zero =>
    cases hscope
    simp [Picked.at]
  | succ d => exact h.mono (List.prefix_append _ _) d scope hscope

theorem Marking.Fits.head {scope : ScopeId} (h : M.Fits Γ (scope :: env)) :
    M[scope]? = some Γ.innermost := by
  rw [← Picked.at_zero]
  exact h 0 scope rfl

theorem Marking.fits_global (h : M[globalScope]? = some false) : M.Fits [] globalEnv := by
  intro d scope hscope
  cases d with
  | zero =>
    cases hscope
    exact h
  | succ d =>
    rw [globalEnv, Store.scopeAt_cons_succ, Store.scopeAt_nil] at hscope
    cases hscope

end Markings

/-! ### Tables -/

/-- Tables with the same entries in the same order, under other names. -/
structure PairedTables {α : Type} (g : String → String) (R : α → α → Prop) (t t' : Table α) :
    Prop where
  names : t'.names = t.names.map g
  entries : ∀ x, Option.Rel R (t.find? x) (t'.find? (g x))

namespace PairedTables

variable {α : Type} {g : String → String} {R R' : α → α → Prop} {t t' : Table α}

theorem empty : PairedTables g R Table.empty Table.empty := ⟨rfl, fun _ => .none⟩

theorem mono (h : PairedTables g R t t') (hR : ∀ {a b}, R a b → R' a b) : PairedTables g R' t t' :=
  ⟨h.names, fun x => rel_mono (h.entries x) hR⟩

theorem insert (hg : ∀ {x y}, g x = g y ↔ x = y) (h : PairedTables g R t t') (name : String)
    {a b : α} (hab : R a b) : PairedTables g R (t.insert name a) (t'.insert (g name) b) := by
  constructor
  · have hmem : g name ∈ t.names.map g ↔ name ∈ t.names := by
      constructor
      · intro hmem
        obtain ⟨x, hx, heq⟩ := List.mem_map.mp hmem
        rwa [hg.mp heq] at hx
      · exact List.mem_map_of_mem
    rw [Table.names_insert, Table.names_insert, h.names, if_congr hmem rfl rfl]
    by_cases hname : name ∈ t.names
    · rw [if_pos hname, if_pos hname]
    · rw [if_neg hname, if_neg hname, List.map_append, List.map_singleton]
  · intro x
    rw [Table.find?_insert, Table.find?_insert, if_congr hg rfl rfl]
    by_cases hx : x = name
    · rw [if_pos hx, if_pos hx]
      exact .some hab
    · rw [if_neg hx, if_neg hx]
      exact h.entries x

theorem contains (h : PairedTables g R t t') (x : String) : t'.contains (g x) = t.contains x :=
  (rel_isSome (h.entries x)).symm

end PairedTables

/-! ### Values -/

/-- A function and its renaming, inside picked scopes. -/
structure CodeRenamed (f : String → String) (Γ : Picked) (c c' : Closure) : Prop where
  name : c'.name = c.name
  env : c'.env = c.env
  isInitializer : c'.isInitializer = c.isInitializer
  code : ∃ (picks : Picks) (b : Bool), Picked.Keeps f (b :: Γ) (givenBy c.body) ∧
    c'.params = c.params.map (renameIf b f) ∧ c'.body = renameStmts f picks (b :: Γ) c.body

/-- The code of a function does not depend on its environment. -/
theorem CodeRenamed.withEnv {f : String → String} {Γ : Picked} {c c' : Closure}
    (h : CodeRenamed f Γ c c') (env : Env) : CodeRenamed f Γ { c with env } { c' with env } :=
  ⟨h.name, rfl, h.isInitializer, h.code⟩

theorem CodeRenamed.arity {f : String → String} {Γ : Picked} {c c' : Closure}
    (h : CodeRenamed f Γ c c') : c'.arity = c.arity := by
  obtain ⟨picks, b, -, hparams, -⟩ := h.code
  unfold Closure.arity
  rw [hparams, List.length_map]

/-- Functions in the same environment, whose code is renamed as the environment is marked. -/
def PairedClosures (f : String → String) (M : Marking) (c c' : Closure) : Prop :=
  ∃ Γ, M.Fits Γ c.env ∧ CodeRenamed f Γ c c'

/-- Methods that are not bound yet: the scope of the receiver, which is not picked, is still
    to come. -/
def PairedMethods (f : String → String) (M : Marking) (c c' : Closure) : Prop :=
  ∃ Γ, M.Fits Γ c.env ∧ CodeRenamed f (false :: Γ) c c'

/-- Classes with the same names and paired methods, all the way up. -/
inductive PairedClasses (f : String → String) (M : Marking) : Class → Class → Prop
  | base {name methods methods'} :
      PairedTables id (PairedMethods f M) methods methods' →
      PairedClasses f M (.mk name none methods) (.mk name none methods')
  | derived {name c c' methods methods'} :
      PairedClasses f M c c' → PairedTables id (PairedMethods f M) methods methods' →
      PairedClasses f M (.mk name (some c) methods) (.mk name (some c') methods')

/-- Values that are the same but for the code of their functions. -/
inductive PairedValues (f : String → String) (M : Marking) : Value → Value → Prop
  | nil : PairedValues f M .nil .nil
  | bool {b} : PairedValues f M (.bool b) (.bool b)
  | number {x} : PairedValues f M (.number x) (.number x)
  | string {s} : PairedValues f M (.string s) (.string s)
  | native {id g} : PairedValues f M (.native id g) (.native id g)
  | function {id c c'} :
      PairedClosures f M c c' → PairedValues f M (.function id c) (.function id c')
  | cls {id d d'} : PairedClasses f M d d' → PairedValues f M (.cls id d) (.cls id d')
  | object {id d d'} : PairedClasses f M d d' → PairedValues f M (.object id d) (.object id d')

section Mono

variable {f : String → String} {M M' : Marking} (hM : M <+: M')
include hM

theorem PairedClosures.mono {c c' : Closure} (h : PairedClosures f M c c') :
    PairedClosures f M' c c' := by
  obtain ⟨Γ, henv, hcode⟩ := h
  exact ⟨Γ, henv.mono hM, hcode⟩

theorem PairedMethods.mono {c c' : Closure} (h : PairedMethods f M c c') :
    PairedMethods f M' c c' := by
  obtain ⟨Γ, henv, hcode⟩ := h
  exact ⟨Γ, henv.mono hM, hcode⟩

theorem PairedClasses.mono {d d' : Class} (h : PairedClasses f M d d') :
    PairedClasses f M' d d' := by
  induction h with
  | base ht => exact .base (ht.mono fun hm => hm.mono hM)
  | derived _ ht ih => exact .derived ih (ht.mono fun hm => hm.mono hM)

theorem PairedValues.mono {v v' : Value} (h : PairedValues f M v v') : PairedValues f M' v v' := by
  cases h with
  | nil => exact .nil
  | bool => exact .bool
  | number => exact .number
  | string => exact .string
  | native => exact .native
  | function hc => exact .function (hc.mono hM)
  | cls hd => exact .cls (hd.mono hM)
  | object hd => exact .object (hd.mono hM)

end Mono

/-! ### What can be seen of values -/

section Views

variable {f : String → String} {M : Marking} {v v' w w' : Value} {d d' : Class}

theorem PairedClasses.name (h : PairedClasses f M d d') : d'.name = d.name := by
  cases h <;> rfl

theorem PairedClasses.findMethod? (h : PairedClasses f M d d') (x : String) :
    Option.Rel (PairedMethods f M) (d.findMethod? x) (d'.findMethod? x) := by
  induction h with
  | base ht => exact ht.entries x
  | @derived name c c' methods methods' _ ht ih =>
    have hrel : Option.Rel (PairedMethods f M) (methods.find? x) (methods'.find? x) := ht.entries x
    unfold Class.findMethod?
    -- either both classes have the method, or both leave it to their superclass
    generalize methods.find? x = found at hrel ⊢
    generalize methods'.find? x = found' at hrel ⊢
    cases hrel with
    | some hm => exact .some hm
    | none => exact ih

theorem PairedClasses.arity (h : PairedClasses f M d d') : d'.arity = d.arity := by
  have hrel := h.findMethod? initializerName
  unfold Class.arity Class.initializer?
  generalize d.findMethod? initializerName = found at hrel ⊢
  generalize d'.findMethod? initializerName = found' at hrel ⊢
  cases hrel with
  | none => rfl
  | some hm =>
    obtain ⟨Γ, -, hcode⟩ := hm
    exact hcode.arity

theorem PairedValues.truthy (h : PairedValues f M v v') : v'.truthy = v.truthy := by
  cases h <;> rfl

theorem PairedValues.text (h : PairedValues f M v v') : v'.text = v.text := by
  cases h with
  | function hc =>
    obtain ⟨Γ, -, hcode⟩ := hc
    simp only [Value.text, hcode.name]
  | cls hd => exact hd.name
  | object hd => simp only [Value.text, hd.name]
  | _ => rfl

theorem PairedValues.equals (h : PairedValues f M v v') (hw : PairedValues f M w w') :
    v'.equals w' = v.equals w := by
  cases h <;> cases hw <;> rfl

theorem PairedValues.decided (h : PairedValues f M v v') (op : LogicalOp) :
    op.decided v' = op.decided v := by
  cases op <;> simp only [LogicalOp.decided, h.truthy]

theorem PairedValues.ofLiteral (value : Literal) : PairedValues f M value.value value.value := by
  cases value with
  | nil => exact .nil
  | bool => exact .bool
  | number => exact .number
  | string => exact .string

/-- The same mistake, or paired results. -/
inductive PairedResults (f : String → String) (M : Marking) : OpResult → OpResult → Prop
  | ok {u u' : Value} : PairedValues f M u u' → PairedResults f M (.ok u) (.ok u')
  | error {issue} : PairedResults f M (.error issue) (.error issue)

theorem PairedValues.unary (h : PairedValues f M v v') (op : UnaryOp) :
    PairedResults f M (op.apply v) (op.apply v') := by
  cases op with
  | not =>
    show PairedResults f M (.ok (.bool !v.truthy)) (.ok (.bool !v'.truthy))
    rw [h.truthy]
    exact .ok .bool
  | negate =>
    cases h with
    | number => exact .ok .number
    | _ => exact .error

theorem PairedValues.onNumbers {g : Float → Float → OpResult} (h : PairedValues f M v v')
    (hw : PairedValues f M w w') (hg : ∀ x y, PairedResults f M (g x y) (g x y)) :
    PairedResults f M (onNumbers g v w) (onNumbers g v' w') := by
  cases h with
  | number =>
    cases hw with
    | number => exact hg _ _
    | _ => exact .error
  | _ => exact .error

theorem PairedValues.binary (h : PairedValues f M v v') (hw : PairedValues f M w w')
    (op : BinaryOp) : PairedResults f M (op.apply v w) (op.apply v' w') := by
  cases op with
  | equal =>
    show PairedResults f M (.ok (.bool (v.equals w))) (.ok (.bool (v'.equals w')))
    rw [h.equals hw]
    exact .ok .bool
  | notEqual =>
    show PairedResults f M (.ok (.bool !v.equals w)) (.ok (.bool !v'.equals w'))
    rw [h.equals hw]
    exact .ok .bool
  | add =>
    -- only two numbers or two strings can be added
    cases h with
    | number =>
      cases hw with
      | number => exact .ok .number
      | _ => exact .error
    | string =>
      cases hw with
      | string => exact .ok .string
      | _ => exact .error
    | _ => exact .error
  | subtract => exact h.onNumbers hw fun _ _ => .ok .number
  | multiply => exact h.onNumbers hw fun _ _ => .ok .number
  | divide =>
    refine h.onNumbers hw fun x y => ?_
    split
    · exact .error
    · exact .ok .number
  | greater => exact h.onNumbers hw fun _ _ => .ok .bool
  | greaterEqual => exact h.onNumbers hw fun _ _ => .ok .bool
  | less => exact h.onNumbers hw fun _ _ => .ok .bool
  | lessEqual => exact h.onNumbers hw fun _ _ => .ok .bool

end Views

/-! ### States -/

/-- Stores with the same scopes and objects.  The names of a scope are changed if it is
    picked, and those of fields never are. -/
structure PairedStores (f : String → String) (M : Marking) (s s' : Store Value) : Prop where
  size : s.scopes.size = M.length
  size' : s'.scopes.size = M.length
  global : M[globalScope]? = some false
  bindings : ∀ scope b, M[scope]? = some b →
    PairedTables (renameIf b f) (PairedValues f M) (s.bindings scope) (s'.bindings scope)
  objects : s'.objects.size = s.objects.size
  fields : ∀ object, PairedTables id (PairedValues f M) (s.fields object) (s'.fields object)
  fresh : s'.fresh = s.fresh

/-- Machines that show the same, with paired stores. -/
structure PairedMachines (f : String → String) (M : Marking) (m m' : Machine) : Prop where
  store : PairedStores f M m.store m'.store
  printed : m'.printed = m.printed
  clock : m'.clock = m.clock
  readings : m'.readings = m.readings

/-- Changes of the stores. -/
theorem PairedMachines.withStore {f : String → String} {M M' : Marking} {m m' : Machine}
    (h : PairedMachines f M m m') {store store' : Store Value}
    (hstore : PairedStores f M' store store') :
    PairedMachines f M' { m with store } { m' with store := store' } :=
  ⟨hstore, h.printed, h.clock, h.readings⟩

namespace PairedStores

variable {f : String → String} {M : Marking} {s s' : Store Value} {v v' : Value}

theorem lt_of_marked (h : PairedStores f M s s') {scope : ScopeId} {b : Bool}
    (hb : M[scope]? = some b) : scope < s.scopes.size ∧ scope < s'.scopes.size := by
  have hlt := (List.getElem?_eq_some_iff.mp hb).1
  exact ⟨h.size.symm ▸ hlt, h.size'.symm ▸ hlt⟩

/-- A binding on both sides. -/
theorem bind (hf : KeepsApart f) (h : PairedStores f M s s') {scope : ScopeId} {b : Bool}
    (hb : M[scope]? = some b) (x : String) (hv : PairedValues f M v v') :
    PairedStores f M (s.bind scope x v) (s'.bind scope (renameIf b f x) v') := by
  obtain ⟨hlt, hlt'⟩ := h.lt_of_marked hb
  refine ⟨?_, ?_, h.global, ?_, h.objects, h.fields, h.fresh⟩
  · rw [Store.size_bind, h.size]
  · rw [Store.size_bind, h.size']
  · intro other b' hb'
    rw [Store.bindings_bind s hlt, Store.bindings_bind s' hlt']
    by_cases hother : other = scope
    · subst hother
      cases hb'.symm.trans hb
      rw [if_pos rfl, if_pos rfl]
      exact (h.bindings other b hb).insert (hf.renameIf_inj b) x hv
    · rw [if_neg hother, if_neg hother]
      exact h.bindings other b' hb'

/-- A declaration on both sides. -/
theorem define (hf : KeepsApart f) (h : PairedStores f M s s') {Γ : Picked} {env : Env}
    (henv : M.Fits Γ env) (x : String) (hv : PairedValues f M v v') :
    PairedStores f M (s.define env x v) (s'.define env (renameIf Γ.innermost f x) v') := by
  cases env with
  | nil => exact h
  | cons scope env => exact h.bind hf henv.head x hv

/-- A scope more on both sides, marked as we like. -/
theorem extend (h : PairedStores f M s s') (env : Env) (b : Bool) :
    PairedStores f (M ++ [b]) (s.extend env).2 (s'.extend env).2 := by
  have hprefix : M <+: M ++ [b] := List.prefix_append _ _
  refine ⟨?_, ?_, getElem?_of_prefix hprefix h.global, ?_, h.objects, ?_, h.fresh⟩
  · rw [Store.size_extend, h.size, List.length_append, List.length_singleton]
  · rw [Store.size_extend, h.size', List.length_append, List.length_singleton]
  · intro scope b' hb'
    rw [Store.bindings_extend, Store.bindings_extend]
    by_cases hlt : scope < M.length
    · rw [List.getElem?_append_left hlt] at hb'
      exact (h.bindings scope b' hb').mono fun hv => hv.mono hprefix
    · -- the new scope has no bindings yet
      have hnone : s.bindings scope = Table.empty := by
        unfold Store.bindings
        rw [Array.getElem?_eq_none (h.size ▸ Nat.le_of_not_lt hlt)]
        rfl
      have hnone' : s'.bindings scope = Table.empty := by
        unfold Store.bindings
        rw [Array.getElem?_eq_none (h.size' ▸ Nat.le_of_not_lt hlt)]
        rfl
      rw [hnone, hnone']
      exact .empty
  · exact fun object => (h.fields object).mono fun hv => hv.mono hprefix

theorem identity (h : PairedStores f M s s') : PairedStores f M s.identity.2 s'.identity.2 :=
  ⟨h.size, h.size', h.global, h.bindings, h.objects, h.fields, congrArg (· + 1) h.fresh⟩

theorem newObject (h : PairedStores f M s s') : PairedStores f M s.newObject.2 s'.newObject.2 := by
  refine ⟨h.size, h.size', h.global, h.bindings, ?_, ?_, h.fresh⟩
  · simp [Store.newObject, h.objects]
  · intro object
    rw [Store.fields_newObject, Store.fields_newObject]
    exact h.fields object

theorem setField (h : PairedStores f M s s') (object : Nat) (x : String)
    (hv : PairedValues f M v v') :
    PairedStores f M (s.setField object x v) (s'.setField object x v') := by
  refine ⟨h.size, h.size', h.global, h.bindings, ?_, ?_, h.fresh⟩
  · simp [Store.setField, h.objects]
  · intro other
    rw [Store.fields_setField, Store.fields_setField, h.objects]
    split
    · exact (h.fields other).insert Iff.rfl x hv
    · exact h.fields other

end PairedStores

end Treewalk
