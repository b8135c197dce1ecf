import Treewalk.Proofs.Lexical.Evaluator
import Treewalk.Proofs.Scope.Resolution
import Treewalk.Proofs.Store

/-! # How the two evaluations correspond

    A `World` says which cell stands for which binding: for a scope and a name
    that is declared in it, the cell of that declaration.  Worlds only grow, and
    everything that is related stays so when they do.

    Values are related if they are the same but for the functions in them, and
    functions are related if one runs the resolved form of the code of the
    other, in an environment in which every name is found where the other has
    its cell.  `Agrees` relates whole states. -/

namespace Treewalk

open Lexical

/-! ### Worlds -/

/-- The cells of the names in each scope. -/
structure World where
  /-- The number of scopes. -/
  scopes : Nat
  /-- The cell of a name that is declared in a scope. -/
  cell : ScopeId → String → Option Cell

namespace World

/-- One world knows all that another knows. -/
structure Below (W W' : World) : Prop where
  scopes_le : W.scopes ≤ W'.scopes
  cell_of : ∀ {scope name c}, W.cell scope name = some c → W'.cell scope name = some c

/-- A world after an empty scope is added. -/
def addScope (W : World) : World := { W with scopes := W.scopes + 1 }

/-- A world after a name is declared in a scope. -/
def addCell (W : World) (scope : ScopeId) (name : String) (c : Cell) : World :=
  { W with cell := fun s x => if s = scope ∧ x = name then some c else W.cell s x }

/-- A world after a scope with one name is added. -/
def enclosing (W : World) (name : String) (c : Cell) : World :=
  W.addScope.addCell W.scopes name c

theorem Below.refl (W : World) : W.Below W := ⟨Nat.le_refl _, id⟩

theorem Below.trans {W₁ W₂ W₃ : World} (h₁ : W₁.Below W₂) (h₂ : W₂.Below W₃) : W₁.Below W₃ :=
  ⟨Nat.le_trans h₁.scopes_le h₂.scopes_le, fun h => h₂.cell_of (h₁.cell_of h)⟩

theorem below_addScope (W : World) : W.Below W.addScope := ⟨Nat.le_succ _, id⟩

theorem below_addCell {W : World} {scope : ScopeId} {name : String} (c : Cell)
    (h : W.cell scope name = none) : W.Below (W.addCell scope name c) := by
  refine ⟨Nat.le_refl _, fun {s x c'} hc => ?_⟩
  unfold addCell
  -- the name that is added had no cell
  by_cases heq : s = scope ∧ x = name
  · obtain ⟨rfl, rfl⟩ := heq
    rw [h] at hc
    cases hc
  · simp only [if_neg heq]
    exact hc

@[simp] theorem cell_addCell_self (W : World) (scope : ScopeId) (name : String) (c : Cell) :
    (W.addCell scope name c).cell scope name = some c := by
  simp [addCell]

theorem cell_addCell {W : World} {scope s : ScopeId} {name x : String} {c c' : Cell}
    (h : (W.addCell scope name c).cell s x = some c') :
    (s = scope ∧ x = name ∧ c' = c) ∨ W.cell s x = some c' := by
  unfold addCell at h
  by_cases heq : s = scope ∧ x = name
  · simp only [if_pos heq, Option.some.injEq] at h
    exact .inl ⟨heq.1, heq.2, h.symm⟩
  · simp only [if_neg heq] at h
    exact .inr h

end World

/-! ### Names and environments -/

/-- Some scopes, an environment and a map of names that agree: each scope holds
    the cells of its names, and the global scope, which is last, holds none. -/
inductive SeesNames (W : World) : ScopeNames → Env → Names → Prop
  | global : SeesNames W [] globalEnv []
  | scope {S env names inner scope locals} :
      SeesNames W S env names → scope ≠ globalScope → scope < W.scopes →
      (∀ x, x ∈ inner ↔ (locals.lookup x).isSome) →
      (∀ x c, locals.lookup x = some c → W.cell scope x = some c) →
      SeesNames W (inner :: S) (scope :: env) (locals ++ names)

namespace SeesNames

variable {W W' : World} {S : ScopeNames} {env : Env} {names : Names} {x : String}

theorem mono (h : SeesNames W S env names) (hW : W.Below W') : SeesNames W' S env names := by
  induction h with
  | global => exact .global
  | scope _ hglobal hlt hinner hcell ih =>
    exact .scope ih hglobal (Nat.lt_of_lt_of_le hlt hW.scopes_le) hinner
      fun x c hc => hW.cell_of (hcell x c hc)

/-- A name at a distance is bound in the scope there, in its cell. -/
theorem cell_of_distance {d : Nat} (h : SeesNames W S env names) (hd : IsDistance S x (some d)) :
    ∃ scope c, Store.scopeAt env d = .ok scope ∧ W.cell scope x = some c ∧
      names.lookup x = some c := by
  induction h generalizing d with
  | global =>
    obtain ⟨inner, names, outer, hscopes, -⟩ := hd
    simp at hscopes
  | @scope S env names inner scope locals _ _ _ hinner hcell ih =>
    rw [List.lookup_append]
    cases d with
    | zero =>
      -- the innermost scope has the name, and its names come first
      obtain ⟨c, hc⟩ := Option.isSome_iff_exists.mp ((hinner x).mp (isDistance_cons_zero.mp hd))
      exact ⟨scope, c, rfl, hcell x c hc, by rw [hc]; rfl⟩
    | succ d =>
      obtain ⟨hnot, hd⟩ := isDistance_cons_succ.mp hd
      obtain ⟨scope', c, hscope, hc, hlookup⟩ := ih hd
      -- the innermost scope does not have the name, so the search goes on outside
      have hlocals : locals.lookup x = none :=
        Option.not_isSome_iff_eq_none.mp fun h => hnot ((hinner x).mpr h)
      exact ⟨scope', c, hscope, hc, by rw [hlocals, hlookup]; rfl⟩

/-- A name without a distance is none of the local names. -/
theorem lookup_of_global (h : SeesNames W S env names) (hd : IsDistance S x none) :
    names.lookup x = none := by
  induction h with
  | global => rfl
  | @scope S env names inner scope locals _ _ _ hinner hcell ih =>
    obtain ⟨hnot, hd⟩ := isDistance_cons_none.mp hd
    have hlocals : locals.lookup x = none :=
      Option.not_isSome_iff_eq_none.mp fun h => hnot ((hinner x).mpr h)
    rw [List.lookup_append, hlocals, ih hd]
    rfl

/-- A new scope, with no names yet. -/
theorem enter (h : SeesNames W S env names) (hW : 0 < W.scopes) :
    SeesNames W.addScope ([] :: S) (W.scopes :: env) names := by
  have hempty : SeesNames W.addScope ([] :: S) (W.scopes :: env) ([] ++ names) := by
    refine .scope (h.mono W.below_addScope) (Nat.ne_of_gt hW) (Nat.lt_succ_self _) ?_ nofun
    simp
  exact hempty

/-- A name declared in the innermost scope. -/
theorem declare {inner : List String} {scope : ScopeId} {c : Cell}
    (h : SeesNames W (inner :: S) (scope :: env) names) (hc : W.cell scope x = some c) :
    SeesNames W ((x :: inner) :: S) (scope :: env) ((x, c) :: names) := by
  cases h with
  | @scope _ _ names _ _ locals h hglobal hlt hinner hcell =>
    -- the new name joins the names of the innermost scope
    have hmore : SeesNames W ((x :: inner) :: S) (scope :: env) (((x, c) :: locals) ++ names) := by
      refine .scope h hglobal hlt (fun y => ?_) (fun y c' hy => ?_)
      · rw [Table.lookup_cons_eq, List.mem_cons]
        by_cases hxy : y = x
        · simp [hxy]
        · simp [hxy, hinner y]
      · rw [Table.lookup_cons_eq] at hy
        by_cases hxy : y = x
        · rw [if_pos hxy] at hy
          cases hy
          rw [hxy]
          exact hc
        · rw [if_neg hxy] at hy
          exact hcell y c' hy
    exact hmore

/-- A new scope with one name. -/
theorem enclose {c : Cell} (h : SeesNames W S env names) (hW : 0 < W.scopes)
    (hnone : W.cell W.scopes x = none) :
    SeesNames (W.enclosing x c) ([x] :: S) (W.scopes :: env) ((x, c) :: names) :=
  ((h.enter hW).mono (World.below_addCell c hnone)).declare (World.cell_addCell_self ..)

/-- Only which names a scope has counts, not their order. -/
theorem congr {inner inner' : List String} (h : SeesNames W (inner :: S) env names)
    (hinner : ∀ x, x ∈ inner' ↔ x ∈ inner) : SeesNames W (inner' :: S) env names := by
  cases h with
  | scope h hglobal hlt hlocals hcell =>
    exact .scope h hglobal hlt (fun x => (hinner x).trans (hlocals x)) hcell

end SeesNames

/-- The receiver and the superclass that a place speaks of are in its scopes, and
    that of the receiver is directly inside that of the superclass. -/
structure Receives (P : Enclosing) (S : ScopeNames) : Prop where
  this : P.cls ≠ .none → ∃ d, IsDistance S Keyword.thisWord.text (some d)
  super : P.cls = .derived → ∃ d, IsDistance S Keyword.superWord.text (some (d + 1)) ∧
    IsDistance S Keyword.thisWord.text (some d)

namespace Receives

variable {P : Enclosing} {S : ScopeNames} {names : List String}

theorem topLevel : Receives .topLevel [] :=
  ⟨fun h => absurd rfl h, nofun⟩

theorem push (h : Receives P S) (hnames : ∀ x ∈ names, Unreserved x) : Receives P (names :: S) := by
  -- a scope of the program never hides `this` or `super`
  have hfree (k : Keyword) : k.text ∉ names := fun hmem => (hnames _ hmem).ne_keyword k rfl
  constructor
  · intro hcls
    obtain ⟨d, hd⟩ := h.this hcls
    exact ⟨d + 1, isDistance_cons_succ.mpr ⟨hfree _, hd⟩⟩
  · intro hcls
    obtain ⟨d, hsuper, hthis⟩ := h.super hcls
    exact ⟨d + 1, isDistance_cons_succ.mpr ⟨hfree _, hsuper⟩,
      isDistance_cons_succ.mpr ⟨hfree _, hthis⟩⟩

theorem declaring (h : Receives P S) (hnames : ∀ x ∈ names, Unreserved x) :
    Receives P (declaring names S) := by
  have hfree (k : Keyword) : k.text ∉ names := fun hmem => (hnames _ hmem).ne_keyword k rfl
  constructor
  · intro hcls
    obtain ⟨d, hd⟩ := h.this hcls
    exact ⟨d, (isDistance_declaring (hfree _)).mpr hd⟩
  · intro hcls
    obtain ⟨d, hsuper, hthis⟩ := h.super hcls
    exact ⟨d, (isDistance_declaring (hfree _)).mpr hsuper,
      (isDistance_declaring (hfree _)).mpr hthis⟩

/-- What a method of a class without a superclass receives. -/
theorem method (hcls : P.cls = .plain) : Receives P ([Keyword.thisWord.text] :: S) := by
  refine ⟨fun _ => ⟨0, isDistance_cons_zero.mpr List.mem_cons_self⟩, fun h => ?_⟩
  rw [hcls] at h
  cases h

/-- What a method of a class with a superclass receives. -/
theorem submethod :
    Receives P ([Keyword.thisWord.text] :: [Keyword.superWord.text] :: S) := by
  have hthis : IsDistance ([Keyword.thisWord.text] :: [Keyword.superWord.text] :: S)
      Keyword.thisWord.text (some 0) := isDistance_cons_zero.mpr List.mem_cons_self
  refine ⟨fun _ => ⟨0, hthis⟩, fun _ => ⟨0, isDistance_cons_succ.mpr ⟨?_, ?_⟩, hthis⟩⟩
  · decide
  · exact isDistance_cons_zero.mpr List.mem_cons_self

end Receives

/-! ### Values -/

/-- Code of a function and its resolved form, at a place inside some scopes. -/
structure CodeRel (P : Enclosing) (S : ScopeNames) (c : Closure) (c' : LClosure) : Prop where
  name : c.name = c'.name
  params : c.params = c'.params
  isInitializer : c.isInitializer = c'.isInitializer
  body : AcceptedStmts P (c.params :: S) c'.body c.body
  distinct : c.params.Nodup
  unreserved : ∀ p ∈ c.params, Unreserved p
  receives : Receives P S
  receiver : c.isInitializer = true → ∃ S', S = [Keyword.thisWord.text] :: S'

/-- The code of a function does not depend on its environment. -/
theorem CodeRel.withEnv {P : Enclosing} {S : ScopeNames} {c : Closure} {c' : LClosure}
    (h : CodeRel P S c c') (env : Env) (names : Names) :
    CodeRel P S { c with env } { c' with env := names } :=
  ⟨h.name, h.params, h.isInitializer, h.body, h.distinct, h.unreserved, h.receives, h.receiver⟩

/-- Functions with the same code in environments with the same names. -/
def ClosureRel (W : World) (c : Closure) (c' : LClosure) : Prop :=
  ∃ P S, CodeRel P S c c' ∧ SeesNames W S c.env c'.env

/-- Methods that are not bound yet: the scope of the receiver is still to come. -/
def MethodRel (W : World) (c : Closure) (c' : LClosure) : Prop :=
  ∃ P S, CodeRel P ([Keyword.thisWord.text] :: S) c c' ∧ SeesNames W S c.env c'.env

/-- Tables with the same names and related entries. -/
structure TableRel {α β : Type} (R : α → β → Prop) (t : Table α) (t' : Table β) : Prop where
  names : t.names = t'.names
  entries : ∀ x, Option.Rel R (t.find? x) (t'.find? x)

theorem rel_mono {α β : Type} {R R' : α → β → Prop} {a : Option α} {b : Option β}
    (h : Option.Rel R a b) (hR : ∀ {x y}, R x y → R' x y) : Option.Rel R' a b := by
  cases h with
  | some h => exact .some (hR h)
  | none => exact .none

theorem rel_isSome {α β : Type} {R : α → β → Prop} {a : Option α} {b : Option β}
    (h : Option.Rel R a b) : a.isSome = b.isSome := by
  cases h <;> rfl

namespace TableRel

variable {α β : Type} {R R' : α → β → Prop} {t : Table α} {t' : Table β}

theorem empty : TableRel R Table.empty Table.empty := ⟨rfl, fun _ => .none⟩

theorem mono (h : TableRel R t t') (hR : ∀ {x y}, R x y → R' x y) : TableRel R' t t' :=
  ⟨h.names, fun x => rel_mono (h.entries x) hR⟩

theorem insert {a : α} {b : β} (h : TableRel R t t') (name : String) (hab : R a b) :
    TableRel R (t.insert name a) (t'.insert name b) := by
  constructor
  · rw [Table.names_insert, Table.names_insert, h.names]
  · intro x
    rw [Table.find?_insert, Table.find?_insert]
    by_cases hx : x = name
    · rw [if_pos hx, if_pos hx]
      exact .some hab
    · rw [if_neg hx, if_neg hx]
      exact h.entries x

theorem contains (h : TableRel R t t') (name : String) : t.contains name = t'.contains name :=
  rel_isSome (h.entries name)

end TableRel

/-- Classes with the same names and related methods, all the way up. -/
inductive ClassRel (W : World) : Class → LClass → Prop
  | base {name methods methods'} :
      TableRel (MethodRel W) methods methods' →
      ClassRel W (.mk name none methods) (.mk name none methods')
  | derived {name c c' methods methods'} :
      ClassRel W c c' → TableRel (MethodRel W) methods methods' →
      ClassRel W (.mk name (some c) methods) (.mk name (some c') methods')

/-- Values that are the same but for their functions, which are related. -/
inductive ValueRel (W : World) : Value → LValue → Prop
  | nil : ValueRel W .nil .nil
  | bool {b} : ValueRel W (.bool b) (.bool b)
  | number {x} : ValueRel W (.number x) (.number x)
  | string {s} : ValueRel W (.string s) (.string s)
  | native {id f} : ValueRel W (.native id f) (.native id f)
  | function {id c c'} : ClosureRel W c c' → ValueRel W (.function id c) (.function id c')
  | cls {id d d'} : ClassRel W d d' → ValueRel W (.cls id d) (.cls id d')
  | object {id d d'} : ClassRel W d d' → ValueRel W (.object id d) (.object id d')

section Mono

variable {W W' : World} (hW : W.Below W')
include hW

theorem ClosureRel.mono {c : Closure} {c' : LClosure} (h : ClosureRel W c c') :
    ClosureRel W' c c' := by
  obtain ⟨P, S, hcode, hsees⟩ := h
  exact ⟨P, S, hcode, hsees.mono hW⟩

theorem MethodRel.mono {c : Closure} {c' : LClosure} (h : MethodRel W c c') :
    MethodRel W' c c' := by
  obtain ⟨P, S, hcode, hsees⟩ := h
  exact ⟨P, S, hcode, hsees.mono hW⟩

theorem ClassRel.mono {c : Class} {c' : LClass} (h : ClassRel W c c') : ClassRel W' c c' := by
  induction h with
  | base ht => exact .base (ht.mono fun hm => hm.mono hW)
  | derived _ ht ih => exact .derived ih (ht.mono fun hm => hm.mono hW)

theorem ValueRel.mono {v : Value} {v' : LValue} (h : ValueRel W v v') : ValueRel W' v v' := by
  cases h with
  | nil => exact .nil
  | bool => exact .bool
  | number => exact .number
  | string => exact .string
  | native => exact .native
  | function hc => exact .function (hc.mono hW)
  | cls hd => exact .cls (hd.mono hW)
  | object hd => exact .object (hd.mono hW)

end Mono

/-! ### What can be seen of values -/

section Views

variable {W : World} {v w : Value} {v' w' : LValue} {d : Class} {d' : LClass}

theorem ClassRel.name (h : ClassRel W d d') : d.name = d'.name := by
  cases h <;> rfl

theorem ClassRel.findMethod? (h : ClassRel W d d') (x : String) :
    Option.Rel (MethodRel W) (d.findMethod? x) (d'.findMethod? x) := by
  induction h with
  | base ht => exact ht.entries x
  | @derived name c c' methods methods' _ ht ih =>
    have hrel := ht.entries x
    unfold Class.findMethod?
    -- either both classes have the method, or both leave it to their superclass
    generalize methods.find? x = found at hrel ⊢
    generalize methods'.find? x = found' at hrel ⊢
    cases hrel with
    | some hm => exact .some hm
    | none => exact ih

theorem ClassRel.arity (h : ClassRel W d d') : d.arity = d'.arity := by
  have hrel := h.findMethod? initializerName
  unfold Class.arity Class.initializer?
  generalize d.findMethod? initializerName = found at hrel ⊢
  generalize d'.findMethod? initializerName = found' at hrel ⊢
  cases hrel with
  | none => rfl
  | some hm =>
    -- initializers with the same code have the same parameters
    obtain ⟨P, S, hcode, -⟩ := hm
    show List.length _ = List.length _
    rw [hcode.params]

theorem ValueRel.truthy (h : ValueRel W v v') : v.truthy = v'.truthy := by
  cases h <;> rfl

theorem ValueRel.text (h : ValueRel W v v') : v.text = v'.text := by
  cases h with
  | nil => rfl
  | @bool b => cases b <;> rfl
  | number => rfl
  | string => rfl
  | native => rfl
  | function hc =>
    obtain ⟨P, S, hcode, -⟩ := hc
    simp only [Value.text, hcode.name]
  | cls hd => exact hd.name
  | object hd => simp only [Value.text, hd.name]

theorem ValueRel.equals (h : ValueRel W v v') (hw : ValueRel W w w') :
    v.equals w = v'.equals w' := by
  cases h <;> cases hw <;> rfl

theorem ValueRel.signature? (h : ValueRel W v v') : v.signature? = v'.signature? := by
  cases h with
  | nil => rfl
  | bool => rfl
  | number => rfl
  | string => rfl
  | object => rfl
  | native => rfl
  | function hc =>
    obtain ⟨P, S, hcode, -⟩ := hc
    simp only [Value.signature?, Closure.arity, hcode.name, hcode.params]
  | cls hd => simp only [Value.signature?, hd.name, hd.arity]

/-- The same mistake, or related results. -/
inductive ResultRel (W : World) : OpResult → OpResult Unit Names → Prop
  | ok {v : Value} {v' : LValue} : ValueRel W v v' → ResultRel W (.ok v) (.ok v')
  | error {issue : RuntimeIssue} : ResultRel W (.error issue) (.error issue)

theorem ValueRel.unary (h : ValueRel W v v') (op : UnaryOp) :
    ResultRel W (op.apply v) (op.apply v') := by
  cases op with
  | not =>
    show ResultRel W (.ok (.bool !v.truthy)) (.ok (.bool !v'.truthy))
    rw [h.truthy]
    exact .ok .bool
  | negate =>
    cases h with
    | number => exact .ok .number
    | _ => exact .error

theorem ValueRel.onNumbers {f : Float → Float → OpResult} {f' : Float → Float → OpResult Unit Names}
    (h : ValueRel W v v') (hw : ValueRel W w w') (hf : ∀ x y, ResultRel W (f x y) (f' x y)) :
    ResultRel W (onNumbers f v w) (onNumbers f' v' w') := by
  cases h with
  | number =>
    cases hw with
    | number => exact hf _ _
    | _ => exact .error
  | _ => exact .error

theorem ValueRel.binary (h : ValueRel W v v') (hw : ValueRel W w w') (op : BinaryOp) :
    ResultRel W (op.apply v w) (op.apply v' w') := by
  cases op with
  | equal =>
    show ResultRel W (.ok (.bool (v.equals w))) (.ok (.bool (v'.equals w')))
    rw [h.equals hw]
    exact .ok .bool
  | notEqual =>
    show ResultRel W (.ok (.bool !v.equals w)) (.ok (.bool !v'.equals w'))
    rw [h.equals hw]
    exact .ok .bool
  | add =>
    -- only two numbers or two strings can be added
    cases h with
    | number =>
      cases hw with
      | number => exact .ok .number
      | _ => exact .error
    | string =>
      cases hw with
      | string => exact .ok .string
      | _ => exact .error
    | _ => exact .error
  | subtract => exact h.onNumbers hw fun _ _ => .ok .number
  | multiply => exact h.onNumbers hw fun _ _ => .ok .number
  | divide =>
    refine h.onNumbers hw fun x y => ?_
    -- division by zero is a mistake on both sides
    by_cases hy : (y == 0.0) = true
    · rw [if_pos hy, if_pos hy]
      exact .error
    · rw [if_neg hy, if_neg hy]
      exact .ok .number
  | greater => exact h.onNumbers hw fun _ _ => .ok .bool
  | greaterEqual => exact h.onNumbers hw fun _ _ => .ok .bool
  | less => exact h.onNumbers hw fun _ _ => .ok .bool
  | lessEqual => exact h.onNumbers hw fun _ _ => .ok .bool

theorem ValueRel.decided (h : ValueRel W v v') (op : LogicalOp) : op.decided v = op.decided v' := by
  cases op <;> simp only [LogicalOp.decided, h.truthy]

end Views

end Treewalk
