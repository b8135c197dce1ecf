import Treewalk.Proofs.Scope.Rules

/-! # What resolution rejects

    Resolution finds an error exactly if the program breaks a static rule.  The
    walk keeps in its innermost scope which names are declared and which of them
    is still without its value; `Stands` ties that to the surroundings of the
    place the walk has come to, and `Judges` says of a piece of the walk under
    which condition it finds no error. -/

namespace Treewalk

/-! ### Scopes of the walk -/

/-- The scopes after some names are declared in the innermost one, the last of
    them first. -/
def declareAll (names : List String) : List StaticScope → List StaticScope
  | [] => []
  | inner :: outer => names.foldr (fun x scope => scope.insert x true) inner :: outer

/-- The scopes while the initial expression of a name is resolved. -/
def beginName (x : String) : List StaticScope → List StaticScope
  | [] => []
  | inner :: outer => inner.insert x false :: outer

/-- The names can be declared in the innermost scope, if there is a local one. -/
def Fresh (names : List String) : List StaticScope → Prop
  | [] => True
  | inner :: _ => names.Nodup ∧ ∀ x ∈ names, inner.contains x = false

/-- The declaration of the name in the innermost scope is not complete. -/
def Pending (x : String) : List StaticScope → Prop
  | [] => False
  | inner :: _ => inner.find? x = some false

theorem declareAll_nil (S : List StaticScope) : declareAll [] S = S := by
  cases S <;> rfl

theorem declareAll_append (a b : List String) (S : List StaticScope) :
    declareAll (a ++ b) S = declareAll a (declareAll b S) := by
  cases S with
  | nil => rfl
  | cons inner outer => simp [declareAll]

theorem contains_foldr_insert (names : List String) (scope : StaticScope) (x : String) :
    (names.foldr (fun x scope => scope.insert x true) scope).contains x = true ↔
      x ∈ names ∨ scope.contains x = true := by
  induction names with
  | nil => simp
  | cons y names ih => rw [List.foldr_cons, Table.contains_insert, ih, List.mem_cons, or_assoc]

theorem fresh_nil (S : List StaticScope) : Fresh [] S := by
  cases S with
  | nil => trivial
  | cons inner outer => exact ⟨List.nodup_nil, nofun⟩

/-- Names can be declared together if they can be declared one after the other. -/
theorem fresh_append {a b : List String} {S : List StaticScope} :
    Fresh (a ++ b) S ↔ Fresh b S ∧ Fresh a (declareAll b S) := by
  cases S with
  | nil => exact ⟨fun _ => ⟨trivial, trivial⟩, fun _ => trivial⟩
  | cons inner outer =>
    have hfold (x : String) : (b.foldr (fun x scope => scope.insert x true) inner).contains x = false ↔
        x ∉ b ∧ inner.contains x = false := by
      rw [Bool.eq_false_iff, Bool.eq_false_iff, ne_eq, contains_foldr_insert, not_or]
    simp only [Fresh, declareAll, hfold, List.nodup_append, List.mem_append]
    grind

/-! ### The place of the walk -/

/-- The innermost function and class around a place. -/
def placeOf (π : Surroundings) : Enclosing where
  function :=
    match π.find? Encloser.isFunction with
    | some (.method name _) => .ofMethod name
    | some _ => .function
    | none => .none
  cls :=
    match π.find? Encloser.isMethod with
    | some (.method _ true) => .derived
    | some _ => .plain
    | none => .none

theorem exists_of_find? {π : Surroundings} {p : Encloser → Bool} {c : Encloser}
    (h : π.find? p = some c) : ∃ c ∈ π, p c = true :=
  ⟨c, List.mem_of_find?_eq_some h, List.find?_some h⟩

theorem not_exists_of_find? {π : Surroundings} {p : Encloser → Bool} (h : π.find? p = none) :
    ¬ ∃ c ∈ π, p c = true := by
  rintro ⟨c, hc, hp⟩
  exact List.find?_eq_none.mp h c hc hp

theorem placeOf_function_ne_none (π : Surroundings) :
    (placeOf π).function ≠ .none ↔ ∃ c ∈ π, c.isFunction = true := by
  unfold placeOf
  cases h : π.find? Encloser.isFunction with
  | none => simpa using not_exists_of_find? h
  | some c =>
    refine iff_of_true ?_ (exists_of_find? h)
    cases c with
    | method name derived =>
      dsimp only [FunctionKind.ofMethod]
      split <;> exact nofun
    | _ => exact nofun

theorem placeOf_function_eq_initializer (π : Surroundings) :
    (placeOf π).function = .initializer ↔
      ∃ derived, π.find? Encloser.isFunction = some (.method initializerName derived) := by
  unfold placeOf
  cases h : π.find? Encloser.isFunction with
  | none => simp
  | some c =>
    cases c with
    | method name derived => by_cases hname : name = initializerName <;> simp [FunctionKind.ofMethod, hname]
    | _ => simp

theorem placeOf_cls_ne_none (π : Surroundings) :
    (placeOf π).cls ≠ .none ↔ ∃ c ∈ π, c.isMethod = true := by
  unfold placeOf
  cases h : π.find? Encloser.isMethod with
  | none => simpa using not_exists_of_find? h
  | some c =>
    refine iff_of_true ?_ (exists_of_find? h)
    cases c with
    | method name derived => cases derived <;> exact nofun
    | _ => exact nofun

theorem placeOf_cls_eq_derived (π : Surroundings) :
    (placeOf π).cls = .derived ↔ ∃ name, π.find? Encloser.isMethod = some (.method name true) := by
  unfold placeOf
  cases h : π.find? Encloser.isMethod with
  | none => simp
  | some c =>
    cases c with
    | method name derived => cases derived <;> simp
    | _ => simp

/-- The scopes of the walk are those of a place: there is one if declarations are
    local, and a declaration is incomplete only inside its initial expression. -/
structure Stands (π : Surroundings) (S : List StaticScope) : Prop where
  isLocal : S ≠ [] ↔ IsLocal π
  pending : ∀ x, Pending x S ↔ ∃ ρ, π = .initializer x :: ρ ∧ IsLocal ρ

/-- A place where a statement can stand. -/
def AtStatement (π : Surroundings) : Prop := ∀ x ρ, π ≠ .initializer x :: ρ

section Stands

variable {π : Surroundings} {S : List StaticScope}

theorem Stands.not_pending (h : Stands π S) (hπ : AtStatement π) (x : String) : ¬ Pending x S := by
  rw [h.pending]
  rintro ⟨ρ, rfl, -⟩
  exact hπ x ρ rfl

theorem stands_topLevel : Stands [] [] :=
  ⟨by simp [IsLocal], by simp [Pending]⟩

theorem Stands.enter {c : Encloser} (hc : c.opensScope = true) (π : Surroundings)
    (S : List StaticScope) : Stands (c :: π) (Table.empty :: S) := by
  refine ⟨⟨fun _ => ⟨c, List.mem_cons_self, hc⟩, fun _ => List.cons_ne_nil _ _⟩, fun x => ?_⟩
  constructor
  · intro h
    cases h
  · rintro ⟨ρ, heq, -⟩
    cases heq
    cases hc

theorem Stands.begin (h : Stands π S) (hπ : AtStatement π) (x : String) :
    Stands (.initializer x :: π) (beginName x S) := by
  have hlocal : IsLocal (.initializer x :: π) ↔ IsLocal π := by
    simp [IsLocal, Encloser.opensScope]
  have hnot := h.not_pending hπ
  cases S with
  | nil =>
    have hnonlocal : ¬ IsLocal π := fun hl => h.isLocal.mpr hl rfl
    refine ⟨by simp [beginName, hlocal, hnonlocal], fun y => ?_⟩
    simp only [beginName, Pending, List.cons.injEq, Encloser.initializer.injEq, false_iff]
    rintro ⟨ρ, ⟨-, rfl⟩, hl⟩
    exact hnonlocal hl
  | cons inner outer =>
    have hl : IsLocal π := h.isLocal.mp (List.cons_ne_nil _ _)
    refine ⟨by simp [beginName, hlocal, hl], fun y => ?_⟩
    have hy : ¬ inner.find? y = some false := hnot y
    simp only [beginName, Pending, Table.find?_insert, List.cons.injEq, Encloser.initializer.injEq]
    by_cases hxy : y = x
    · simp [hxy, hl]
    · simp [hxy, hy, Ne.symm hxy]

theorem Stands.declare (h : Stands π S) (hπ : AtStatement π) (names : List String) :
    Stands π (declareAll names S) := by
  have hnone (x : String) : ¬ ∃ ρ, π = .initializer x :: ρ ∧ IsLocal ρ := by
    rw [← h.pending]
    exact h.not_pending hπ x
  cases S with
  | nil => exact h
  | cons inner outer =>
    refine ⟨⟨fun _ => h.isLocal.mp (List.cons_ne_nil _ _), fun _ => List.cons_ne_nil _ _⟩, ?_⟩
    intro x
    refine ⟨fun hp => ?_, fun hex => absurd hex (hnone x)⟩
    -- declared names are complete, so none of them is pending
    induction names with
    | nil => exact absurd hp (h.not_pending hπ x)
    | cons y names ih =>
      simp only [declareAll, Pending, List.foldr_cons, Table.find?_insert] at hp ih
      by_cases hxy : x = y
      · simp [hxy] at hp
      · rw [if_neg hxy] at hp
        exact ih hp

theorem atStatement_cons {c : Encloser} (hc : c.opensScope = true) (π : Surroundings) :
    AtStatement (c :: π) := by
  rintro x ρ heq
  cases heq
  cases hc

end Stands

/-! ### Pieces of the walk -/

/-- A piece of the walk leads from some scopes to others, and it finds no error
    exactly if `ok` holds. -/
def Judges {α : Type} (x : Resolve α) (S S' : List StaticScope) (ok : Prop) : Prop :=
  ∀ st, st.scopes = S → (x st).2.scopes = S' ∧ st.errors.size ≤ (x st).2.errors.size ∧
    ((x st).2.errors.size = st.errors.size ↔ ok)

namespace Judges

variable {α β : Type} {x : Resolve α} {S S' S'' : List StaticScope} {ok ok' : Prop}

theorem pure {a : α} : Judges (pure a) S S True :=
  fun _ hS => ⟨hS, Nat.le_refl _, iff_of_true rfl trivial⟩

theorem congr (h : Judges x S S' ok) (hok : ok ↔ ok') : Judges x S S' ok' :=
  fun st hS => ⟨(h st hS).1, (h st hS).2.1, (h st hS).2.2.trans hok⟩

theorem bind {f : α → Resolve β} (hx : Judges x S S' ok) (hf : ∀ a, Judges (f a) S' S'' ok') :
    Judges (x >>= f) S S'' (ok ∧ ok') := by
  intro st hS
  obtain ⟨hS', hle, hok⟩ := hx st hS
  obtain ⟨hS'', hle', hok'⟩ := hf (x st).1 (x st).2 hS'
  refine ⟨hS'', Nat.le_trans hle hle', ?_⟩
  show (f (x st).1 (x st).2).2.errors.size = st.errors.size ↔ ok ∧ ok'
  -- errors are only added, so there are no more exactly if neither half found one
  rw [← hok, ← hok']
  omega

/-- A last step that only puts the result together. -/
theorem map (f : α → β) (hx : Judges x S S' ok) :
    Judges (x >>= fun a => Pure.pure (f a)) S S' ok :=
  (hx.bind fun _ => .pure).congr (and_iff_left trivial)

/-- A step that finds no errors. -/
theorem seq {y : Resolve β} (hx : Judges x S S' True) (hy : Judges y S' S'' ok) :
    Judges (x >>= fun _ => y) S S'' ok :=
  (hx.bind fun _ => hy).congr (and_iff_right trivial)

/-- A step that only looks at the scopes. -/
theorem look {f : α → Resolve β} (a : α) (hx : ∀ st, st.scopes = S → x st = (a, st))
    (hf : Judges (f a) S S' ok) : Judges (x >>= f) S S' ok := by
  intro st hS
  have hrun : (x >>= f) st = f a st := by
    show f (x st).1 (x st).2 = f a st
    rw [hx st hS]
  rw [hrun]
  exact hf st hS

end Judges

/-! ### Steps of the walk -/

section Steps

open Resolve

variable {S : List StaticScope}

theorem judges_modify {f : ResolveState → ResolveState} {S' : List StaticScope}
    (hscopes : ∀ st, st.scopes = S → (f st).scopes = S') (herrors : ∀ st, (f st).errors = st.errors) :
    Judges (modify f) S S' True := by
  intro st hS
  have hsize : ((modify f : Resolve Unit) st).2.errors.size = st.errors.size :=
    congrArg Array.size (herrors st)
  exact ⟨hscopes st hS, Nat.le_of_eq hsize.symm, iff_of_true hsize trivial⟩

theorem judges_openScope (names : List String) :
    Judges (openScope names) S (names.foldl (fun t n => t.insert n true) Table.empty :: S) True :=
  judges_modify (fun _ hS => by rw [hS]) (fun _ => rfl)

theorem judges_closeScope (inner : StaticScope) : Judges closeScope (inner :: S) S True :=
  judges_modify (fun _ hS => by rw [hS]; rfl) (fun _ => rfl)

theorem judges_tally : Judges tally S S True :=
  judges_modify (fun _ hS => hS) (fun _ => rfl)

theorem judges_report (issue : ResolveIssue) (site : Name) : Judges (report issue site) S S False := by
  intro st hS
  have hsize : ((report issue site) st).2.errors.size = st.errors.size + 1 :=
    Array.size_push _
  refine ⟨hS, by omega, ?_⟩
  rw [hsize]
  exact iff_of_false (by omega) id

/-- A step behind a rule that is broken only if `broken` holds. -/
theorem judges_unless {β : Type} {y : Resolve β} {S' : List StaticScope} {ok : Prop} (broken : Prop)
    [Decidable broken] (issue : ResolveIssue) (site : Name) (hy : Judges y S S' ok) :
    Judges (if broken then report issue site >>= fun _ => y else y) S S' (¬ broken ∧ ok) := by
  by_cases h : broken
  · rw [if_pos h]
    exact ((judges_report issue site).bind fun _ => hy).congr (by simp [h])
  · rw [if_neg h]
    exact hy.congr (by simp [h])

theorem judges_note (kind : UseKind) (target : String) (site : Name) :
    Judges (note kind target site) S S True := by
  intro st hS
  have hsame : (note kind target site st).2.scopes = st.scopes ∧
      (note kind target site st).2.errors = st.errors := by
    rw [note_run]
    cases distanceTo st.scopes target <;> exact ⟨rfl, rfl⟩
  rw [hsame.1, hsame.2]
  exact ⟨hS, Nat.le_refl _, iff_of_true rfl trivial⟩

theorem judges_useVariable (name : Name) :
    Judges (useVariable name) S S (¬ Pending name.text S) := by
  cases S with
  | nil =>
    refine .look none (fun st hS => ?_) ((judges_unless _ _ _ (judges_note _ _ _)).congr ?_)
    · obtain ⟨scopes, uses, errors, tallies⟩ := st
      cases hS
      rfl
    · simp [Pending]
  | cons inner outer =>
    refine .look (inner.find? name.text) (fun st hS => ?_)
      ((judges_unless _ _ _ (judges_note _ _ _)).congr ?_)
    · obtain ⟨scopes, uses, errors, tallies⟩ := st
      cases hS
      rfl
    · simp [Pending]

theorem judges_declare (name : Name) :
    Judges (declare name) S (beginName name.text S) (Fresh [name.text] S) := by
  intro st hS
  rw [declare_run, hS]
  cases S with
  | nil => exact ⟨hS, Nat.le_refl _, iff_of_true rfl trivial⟩
  | cons inner outer =>
    refine ⟨rfl, ?_, ?_⟩
    · dsimp only
      split
      · rw [Array.size_push]
        omega
      · exact Nat.le_refl _
    · by_cases h : inner.contains name.text = true <;> simp [Fresh, h]

theorem judges_define (name : Name) :
    Judges (define name) (beginName name.text S) (declareAll [name.text] S) True := by
  refine judges_modify (fun st hS => ?_) (fun st => ?_)
  · cases S with
    | nil =>
      have hnil : st.scopes = [] := hS
      rw [hnil]
      exact hnil
    | cons inner outer =>
      have hcons : st.scopes = inner.insert name.text false :: outer := hS
      rw [hcons]
      show (inner.insert name.text false).insert name.text true :: outer = _
      rw [Table.insert_insert]
      rfl
  · split <;> rfl

/-- A declaration that is complete at once. -/
theorem judges_declareName {β : Type} {y : Resolve β} {S' : List StaticScope} {ok : Prop}
    (name : Name) (hy : Judges y (declareAll [name.text] S) S' ok) :
    Judges (do declare name; define name; y) S S' (Fresh [name.text] S ∧ ok) :=
  (judges_declare name).bind fun _ => (judges_define name).seq hy

theorem judges_declareParams (params : List Name) :
    Judges (declareParams params) S (declareAll (paramNames params).reverse S)
      (Fresh (paramNames params).reverse S) := by
  induction params generalizing S with
  | nil =>
    rw [show (paramNames []).reverse = [] from rfl, declareAll_nil]
    exact Judges.pure.congr (iff_of_true trivial (fresh_nil S))
  | cons p ps ih =>
    have hnames : (paramNames (p :: ps)).reverse = (paramNames ps).reverse ++ [p.text] := by
      simp [paramNames]
    rw [hnames, declareAll_append]
    exact (judges_declareName p ih).congr fresh_append.symm

theorem judges_checkReturn (π : Surroundings) (line : Int) (hasValue : Bool) :
    Judges (checkReturn (placeOf π) line hasValue) S S
      ((∃ c ∈ π, c.isFunction = true) ∧ (hasValue = true →
        ∀ derived, π.find? Encloser.isFunction ≠ some (.method initializerName derived))) := by
  have hvalue : Judges (if (hasValue && decide ((placeOf π).function = .initializer)) = true then
        report .valueFromInitializer ⟨Keyword.returnWord.text, line⟩ else pure ()) S S
      (¬ (hasValue = true ∧ (placeOf π).function = .initializer)) := by
    by_cases h : hasValue = true ∧ (placeOf π).function = .initializer
    · rw [if_pos (by simpa using h)]
      exact (judges_report _ _).congr (by simp [h])
    · rw [if_neg (by simpa using h)]
      exact Judges.pure.congr (by simp [h])
  refine (judges_unless ((placeOf π).function = .none) .returnAtTopLevel _ hvalue).congr ?_
  rw [placeOf_function_eq_initializer, ← ne_eq, placeOf_function_ne_none, not_and, not_exists]

theorem judges_useThis (π : Surroundings) (line : Int) :
    Judges (useThis (placeOf π) line) S S (∃ c ∈ π, c.isMethod = true) := by
  rw [← placeOf_cls_ne_none]
  unfold useThis
  by_cases h : (placeOf π).cls = .none
  · rw [if_pos h]
    exact ((judges_report _ _).bind fun _ => .pure).congr (by simp [h])
  · rw [if_neg h]
    exact (judges_note _ _ _).congr (by simp [h])

theorem judges_useSuper (π : Surroundings) (line : Int) :
    Judges (useSuper (placeOf π) line) S S
      (∃ name, π.find? Encloser.isMethod = some (.method name true)) := by
  rw [← placeOf_cls_eq_derived]
  unfold useSuper
  cases (placeOf π).cls with
  | none => exact ((judges_report _ _).bind fun _ => judges_note _ _ _).congr (by simp)
  | plain => exact ((judges_report _ _).bind fun _ => judges_note _ _ _).congr (by simp)
  | derived => exact (judges_note _ _ _).congr (by simp)

/-- In an empty scope names can be declared if they are distinct. -/
theorem fresh_empty (names : List String) : Fresh names (Table.empty :: S) ↔ names.Nodup := by
  simp [Fresh, Table.contains]

theorem nodup_params (params body : List String) :
    (body ++ params.reverse).Nodup ↔ (params ++ body).Nodup :=
  List.perm_append_comm.nodup_iff.trans (List.Perm.append_right body params.reverse_perm).nodup_iff

/-- Statements in a scope of their own, which is closed behind them. -/
theorem judges_body {β : Type} {x : Resolve (List ResolvedStmt)} {names : List String}
    {inner : StaticScope} {ok : Prop} (build : List ResolvedStmt → β)
    (hx : Judges x (inner :: S) (declareAll names (inner :: S)) ok) :
    Judges (do let body ← x; tally; closeScope; pure (build body)) (inner :: S) S ok :=
  (hx.bind fun body => judges_tally.seq ((judges_closeScope _).map fun _ => build body)).congr
    (and_iff_left trivial)

/-- The body of a function, in a scope with its parameters. -/
theorem judges_function {β : Type} {π : Surroundings} {c : Encloser} (hc : c.opensScope = true)
    {x : Resolve (List ResolvedStmt)} (params : List Name) (body : List SourceStmt)
    (build : List ResolvedStmt → β)
    (hx : ∀ S', Stands (c :: π) S' → Judges x S' (declareAll (declaredBy body) S')
      (Fresh (declaredBy body) S' ∧ ∀ s ∈ body, Clean (c :: π) (.stmt s))) :
    Judges (do openScope []; declareParams params; let body ← x; tally; closeScope; pure (build body))
      S S ((paramNames params ++ declaredBy body).Nodup ∧ ∀ s ∈ body, Clean (c :: π) (.stmt s)) := by
  have hstands := (Stands.enter hc π S).declare (atStatement_cons hc π) (paramNames params).reverse
  have hbody := judges_body build (hx _ hstands)
  refine ((judges_openScope []).seq ((judges_declareParams params).bind fun _ => hbody)).congr ?_
  rw [← nodup_params, ← fresh_empty (S := S), fresh_append, and_assoc]
  rfl

end Steps

/-! ### The whole walk -/

theorem placeOf_method (name : String) (derived : Bool) (π : Surroundings) :
    placeOf (.method name derived :: π) =
      ⟨.ofMethod name, if derived then .derived else .plain⟩ := by
  cases derived <;> rfl

/-- A piece of the walk that finds no error exactly if a phrase obeys the rules
    and its parts are clean. -/
theorem Judges.clean {α : Type} {x : Resolve α} {S S' : List StaticScope} {ok : Prop}
    {π : Surroundings} {ph : Phrase} (h : Judges x S S' ok)
    (hok : (Obeys π ph ∧ ∀ part ∈ ph.parts, Clean (part.1 ++ π) part.2) ↔ ok) :
    Judges x S S' (Clean π ph) :=
  h.congr (clean_iff.trans hok).symm

/-- A statement that declares nothing. -/
theorem Judges.plain {α : Type} {x : Resolve α} {S : List StaticScope} {ok : Prop}
    (h : Judges x S S ok) : Judges x S (declareAll [] S) (Fresh [] S ∧ ok) := by
  rw [declareAll_nil]
  exact h.congr (and_iff_right (fresh_nil S)).symm

/-- The methods of a class are clean. -/
def CleanMethods (π : Surroundings) (derived : Bool) (methods : List SourceFun) : Prop :=
  ∀ m ∈ methods, (paramNames m.params ++ declaredBy m.body).Nodup ∧
    ∀ s ∈ m.body, Clean (.method m.name.text derived :: π) (.stmt s)

theorem cleanMethods_iff {π : Surroundings} {name : Name} {methods : List SourceFun}
    (superclass : Option (Name × Unit)) : CleanMethods π superclass.isSome methods ↔
      (∀ names ∈ Phrase.scopes (.stmt (.classDecl name superclass methods)), names.Nodup) ∧
        ∀ part ∈ Phrase.parts (.stmt (.classDecl name superclass methods)),
          Clean (part.1 ++ π) part.2 := by
  simp only [CleanMethods, Phrase.scopes, Phrase.parts, List.forall_mem_map, List.forall_mem_flatMap]
  exact ⟨fun h => ⟨fun m hm => (h m hm).1, fun m hm => (h m hm).2⟩, fun h m hm => ⟨h.1 m hm, h.2 m hm⟩⟩

mutual

theorem judges_expr {π : Surroundings} {S : List StaticScope} (hS : Stands π S) :
    (e : SourceExpr) → Judges (Resolve.expr (placeOf π) e) S S (Clean π (.expr e))
  | .literal value => by
    simp only [Resolve.expr]
    refine Judges.pure.clean ?_
    simp [Obeys, Phrase.scopes, Phrase.parts]
  | .group e => by
    simp only [Resolve.expr]
    refine ((judges_expr hS e).map _).clean ?_
    simp [Obeys, Phrase.scopes, Phrase.parts]
  | .unary op line e => by
    simp only [Resolve.expr]
    refine ((judges_expr hS e).map _).clean ?_
    simp [Obeys, Phrase.scopes, Phrase.parts]
  | .binary op line l r => by
    simp only [Resolve.expr]
    refine ((judges_expr hS l).bind fun _ => (judges_expr hS r).map _).clean ?_
    simp [Obeys, Phrase.scopes, Phrase.parts]
  | .logical op line l r => by
    simp only [Resolve.expr]
    refine ((judges_expr hS l).bind fun _ => (judges_expr hS r).map _).clean ?_
    simp [Obeys, Phrase.scopes, Phrase.parts]
  | .variable name () => by
    simp only [Resolve.expr]
    refine ((judges_useVariable name).map _).clean ?_
    rw [hS.pending]
    constructor
    · rintro ⟨⟨-, hown⟩, -⟩ ⟨ρ, heq, hlocal⟩
      exact hown _ ρ heq hlocal rfl
    · intro hown
      refine ⟨⟨nofun, ?_⟩, nofun⟩
      rintro _ ρ heq hlocal rfl
      exact hown ⟨ρ, heq, hlocal⟩
  | .assign name () e => by
    simp only [Resolve.expr]
    refine ((judges_expr hS e).bind fun _ => (judges_note _ _ _).map _).clean ?_
    simp [Obeys, Phrase.scopes, Phrase.parts]
  | .call f args line => by
    simp only [Resolve.expr]
    refine ((judges_expr hS f).bind fun _ => (judges_exprs hS args).map _).clean ?_
    simp [Obeys, Phrase.scopes, Phrase.parts]
  | .get o name => by
    simp only [Resolve.expr]
    refine ((judges_expr hS o).map _).clean ?_
    simp [Obeys, Phrase.scopes, Phrase.parts]
  | .set o name e => by
    simp only [Resolve.expr]
    refine ((judges_expr hS e).bind fun _ => (judges_expr hS o).map _).clean ?_
    simp [Obeys, Phrase.scopes, Phrase.parts, and_comm]
  | .this line () => by
    simp only [Resolve.expr]
    refine ((judges_useThis π line).map _).clean ?_
    simp [Obeys, Phrase.scopes, Phrase.parts]
  | .super line () method => by
    simp only [Resolve.expr]
    refine ((judges_useSuper π line).map _).clean ?_
    simp [Obeys, Phrase.scopes, Phrase.parts]
  | .lambda line params body => by
    simp only [Resolve.expr]
    have hbody : ∀ S', Stands (.function :: π) S' → _ := fun S' hS' =>
      judges_stmts hS' (atStatement_cons rfl π) body
    refine (judges_function rfl params body _ hbody).clean ?_
    simp [Obeys, Phrase.scopes, Phrase.parts]

theorem judges_exprs {π : Surroundings} {S : List StaticScope} (hS : Stands π S) :
    (es : List SourceExpr) →
    Judges (Resolve.exprs (placeOf π) es) S S (∀ e ∈ es, Clean π (.expr e))
  | [] => by
    simp only [Resolve.exprs]
    exact Judges.pure.congr (by simp)
  | e :: es => by
    simp only [Resolve.exprs]
    refine ((judges_expr hS e).bind fun _ => (judges_exprs hS es).map _).congr ?_
    simp

theorem judges_stmt {π : Surroundings} {S : List StaticScope} (hS : Stands π S)
    (hπ : AtStatement π) : (s : SourceStmt) →
    Judges (Resolve.stmt (placeOf π) s) S (declareAll s.declares S)
      (Fresh s.declares S ∧ Clean π (.stmt s))
  | .expression e => by
    simp only [Resolve.stmt, Stmt.declares]
    refine (((judges_expr hS e).map _).clean ?_).plain
    simp [Obeys, Phrase.scopes, Phrase.parts]
  | .print e => by
    simp only [Resolve.stmt, Stmt.declares]
    refine (((judges_expr hS e).map _).clean ?_).plain
    simp [Obeys, Phrase.scopes, Phrase.parts]
  | .var name none => by
    simp only [Resolve.stmt, Stmt.declares]
    refine judges_declareName name (Judges.pure.clean ?_)
    simp [Obeys, Phrase.scopes, Phrase.parts]
  | .var name (some e) => by
    -- in the initial expression the name is declared, but not complete
    simp only [Resolve.stmt, Stmt.declares]
    have hS' := hS.begin hπ name.text
    refine (judges_declare name).bind fun _ => Judges.clean
      ((judges_expr hS' e).bind fun e' => (judges_define name).map fun _ => Stmt.var name (some e')) ?_
    simp [Obeys, Phrase.scopes, Phrase.parts]
  | .block body => by
    simp only [Resolve.stmt, Stmt.declares]
    have hbody := judges_stmts (Stands.enter (c := .block) rfl π S) (atStatement_cons rfl π) body
    refine (((judges_openScope []).seq (judges_body _ hbody)).clean ?_).plain
    rw [fresh_empty]
    simp [Obeys, Phrase.scopes, Phrase.parts]
  | .branch c a none => by
    simp only [Resolve.stmt, Stmt.declares]
    have hclean : Clean π (.stmt (.branch c a none)) ↔ Clean π (.expr c) ∧ Clean π (.stmt a) :=
      clean_iff.trans (by simp [Obeys, Phrase.scopes, Phrase.parts])
    refine ((judges_expr hS c).bind fun _ => (judges_stmt hS hπ a).map _).congr ?_
    rw [hclean]
    exact and_left_comm
  | .branch c a (some b) => by
    simp only [Resolve.stmt, Stmt.declares, declareAll_append]
    have hclean : Clean π (.stmt (.branch c a (some b))) ↔
        Clean π (.expr c) ∧ Clean π (.stmt a) ∧ Clean π (.stmt b) :=
      clean_iff.trans (by simp [Obeys, Phrase.scopes, Phrase.parts])
    refine ((judges_expr hS c).bind fun _ => (judges_stmt hS hπ a).bind fun _ =>
      (judges_stmt (hS.declare hπ a.declares) hπ b).map _).congr ?_
    rw [hclean, fresh_append]
    grind
  | .loop c body => by
    simp only [Resolve.stmt, Stmt.declares]
    have hclean : Clean π (.stmt (.loop c body)) ↔ Clean π (.expr c) ∧ Clean π (.stmt body) :=
      clean_iff.trans (by simp [Obeys, Phrase.scopes, Phrase.parts])
    refine ((judges_expr hS c).bind fun _ => (judges_stmt hS hπ body).map _).congr ?_
    rw [hclean]
    exact and_left_comm
  | .function (.mk name params body) => by
    simp only [Resolve.stmt, Resolve.function, Stmt.declares]
    have hbody : ∀ S', Stands (.function :: π) S' → _ := fun S' hS' =>
      judges_stmts hS' (atStatement_cons rfl π) body
    refine judges_declareName name (((judges_function rfl params body _ hbody).map _).clean ?_)
    simp [Obeys, Phrase.scopes, Phrase.parts, FunDecl.params, FunDecl.body]
  | .ret line none => by
    simp only [Resolve.stmt, Stmt.declares]
    refine (((judges_checkReturn π line false).map _).clean ?_).plain
    simp [Obeys, Phrase.scopes, Phrase.parts]
  | .ret line (some e) => by
    simp only [Resolve.stmt, Stmt.declares]
    refine (((judges_checkReturn π line true).bind fun _ => (judges_expr hS e).map _).clean ?_).plain
    simp [Obeys, Phrase.scopes, Phrase.parts]
  | .classDecl name none methods => by
    simp only [Resolve.stmt, Stmt.declares]
    refine judges_declareName name (((judges_openScope _).seq
      ((judges_methods π false rfl methods).bind fun methods' =>
        (judges_closeScope _).map fun _ => Stmt.classDecl name none methods')).clean ?_)
    rw [and_iff_left trivial]
    exact (and_congr_left' (and_iff_left trivial)).trans (cleanMethods_iff none).symm
  | .classDecl name (some (superName, ())) methods => by
    -- nothing is incomplete before a statement, so the superclass can be used
    simp only [Resolve.stmt, Stmt.declares]
    have huse := (hS.declare hπ [name.text]).not_pending hπ superName.text
    refine judges_declareName name ((judges_unless (superName.text = name.text) .inheritsItself
      superName ((judges_useVariable superName).bind fun use => (judges_openScope _).seq
        ((judges_openScope _).seq ((judges_methods π true rfl methods).bind fun methods' =>
          (judges_closeScope _).seq ((judges_closeScope _).map fun _ =>
            Stmt.classDecl name (some (superName, use)) methods'))))).clean ?_)
    rw [and_iff_left trivial, and_iff_right huse]
    exact (and_right_comm.trans and_comm).trans (and_congr_right' (cleanMethods_iff _).symm)

theorem judges_stmts {π : Surroundings} {S : List StaticScope} (hS : Stands π S)
    (hπ : AtStatement π) : (ss : List SourceStmt) →
    Judges (Resolve.stmts (placeOf π) ss) S (declareAll (declaredBy ss) S)
      (Fresh (declaredBy ss) S ∧ ∀ s ∈ ss, Clean π (.stmt s))
  | [] => by
    simp only [Resolve.stmts, declaredBy]
    exact (Judges.pure.congr (by simp)).plain
  | s :: ss => by
    simp only [Resolve.stmts, declaredBy, declareAll_append]
    refine ((judges_stmt hS hπ s).bind fun _ =>
      (judges_stmts (hS.declare hπ s.declares) hπ ss).map _).congr ?_
    rw [fresh_append, List.forall_mem_cons]
    grind

/-- The methods of a class stand in the class and not in what is around it. -/
theorem judges_methods {S : List StaticScope} {place : Enclosing} (π : Surroundings)
    (derived : Bool) (hplace : place.cls = if derived then .derived else .plain) :
    (methods : List SourceFun) →
    Judges (Resolve.methodList place methods) S S (CleanMethods π derived methods)
  | [] => by
    simp only [Resolve.methodList]
    exact Judges.pure.congr (by simp [CleanMethods])
  | .mk name params body :: methods => by
    simp only [Resolve.methodList, Resolve.function, FunDecl.name]
    have hbody : ∀ S', Stands (.method name.text derived :: π) S' → _ := fun S' hS' =>
      judges_stmts hS' (atStatement_cons rfl π) body
    rw [placeOf_method, ← hplace] at hbody
    refine ((judges_function rfl params body _ hbody).bind fun _ =>
      (judges_methods π derived hplace methods).map _).congr ?_
    simp [CleanMethods, FunDecl.name, FunDecl.params, FunDecl.body]

end

/-! ### Programs -/

/-- Resolution finds no error exactly if all statements are clean. -/
theorem resolve_errors_iff_clean (program : List SourceStmt) :
    (resolve program).errors = [] ↔ ∀ s ∈ program, Clean [] (.stmt s) := by
  obtain ⟨-, -, hfound⟩ := judges_stmts stands_topLevel nofun program .initial rfl
  obtain ⟨-, -, herrors⟩ :=
    resolve_eq program (Prod.eta (Resolve.stmts .topLevel program .initial)).symm
  have hfresh : Fresh (declaredBy program) [] := trivial
  rw [herrors, Array.toList_eq_nil_iff, ← Array.size_eq_zero_iff]
  exact hfound.trans (and_iff_right hfresh)

/-- Resolution finds no error exactly if the program keeps the static rules. -/
theorem resolve_errors_iff_rules (program : List SourceStmt) :
    (resolve program).errors = [] ↔ StaticRules program := by
  rw [resolve_errors_iff_clean, staticRules_iff]

end Treewalk
