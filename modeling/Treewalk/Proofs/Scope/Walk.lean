import Treewalk.Proofs.Scope.Accepted
import Treewalk.Proofs.Table

/-! # The walk of the resolver

    Resolution is a walk with a state: open scopes, uses found, errors found.
    `Walks` says what a piece of the walk does between two lists of scope names,
    and every step of the walk has a lemma in its terms. -/

namespace Treewalk

/-! ### Uses noted in a tree -/

/-- The entry of a use of a name: there is one if the use is local. -/
def noted (kind : UseKind) (name : Name) : Distance → List LocalUse
  | some d => [⟨kind, name, d⟩]
  | none => []

mutual

/-- The local uses in an expression, in the order the walk meets them. -/
def localUses : ResolvedExpr → List LocalUse
  | .literal _ => []
  | .group e | .unary _ _ e | .get e _ => localUses e
  | .binary _ _ l r | .logical _ _ l r => localUses l ++ localUses r
  | .variable name use => noted .variable name use
  | .assign name use e => localUses e ++ noted .assign name use
  | .call f args _ => localUses f ++ localUsesOfExprs args
  | .set o _ e => localUses e ++ localUses o
  | .this line use => noted .this ⟨Keyword.thisWord.text, line⟩ use
  | .super line use _ => noted .super ⟨Keyword.superWord.text, line⟩ use
  | .lambda _ _ body => localUsesOfStmts body

/-- The local uses in some expressions. -/
def localUsesOfExprs : List ResolvedExpr → List LocalUse
  | [] => []
  | e :: es => localUses e ++ localUsesOfExprs es

/-- The local uses in a statement. -/
def localUsesOfStmt : ResolvedStmt → List LocalUse
  | .expression e | .print e | .var _ (some e) | .ret _ (some e) => localUses e
  | .var _ none | .ret _ none => []
  | .block body => localUsesOfStmts body
  | .branch c a none => localUses c ++ localUsesOfStmt a
  | .branch c a (some b) => localUses c ++ (localUsesOfStmt a ++ localUsesOfStmt b)
  | .loop c body => localUses c ++ localUsesOfStmt body
  | .function decl => localUsesOfFun decl
  | .classDecl _ none methods => localUsesOfFuns methods
  | .classDecl _ (some (superName, use)) methods =>
    noted .variable superName use ++ localUsesOfFuns methods

/-- The local uses in some statements. -/
def localUsesOfStmts : List ResolvedStmt → List LocalUse
  | [] => []
  | s :: ss => localUsesOfStmt s ++ localUsesOfStmts ss

/-- The local uses in a function. -/
def localUsesOfFun : ResolvedFun → List LocalUse
  | .mk _ _ body => localUsesOfStmts body

/-- The local uses in some methods. -/
def localUsesOfFuns : List ResolvedFun → List LocalUse
  | [] => []
  | m :: ms => localUsesOfFun m ++ localUsesOfFuns ms

end

/-! ### Scopes of the walk and their names -/

/-- A scope of the walk has exactly these names. -/
def HasNames (scope : StaticScope) (names : List String) : Prop :=
  ∀ x, scope.contains x = true ↔ x ∈ names

/-- The scopes of the walk have exactly these names. -/
def SameNames : List StaticScope → ScopeNames → Prop
  | [], [] => True
  | scope :: outer, names :: S => HasNames scope names ∧ SameNames outer S
  | _, _ => False

theorem HasNames.empty : HasNames Table.empty [] := by
  intro x
  simp [Table.contains]

theorem HasNames.insert {scope : StaticScope} {names : List String} (h : HasNames scope names)
    (x : String) (complete : Bool) : HasNames (scope.insert x complete) (x :: names) := by
  intro y
  rw [Table.contains_insert, h y, List.mem_cons]

/-- Writing to a name that is there adds no name. -/
theorem HasNames.insert_mem {scope : StaticScope} {names : List String} (h : HasNames scope names)
    {x : String} (hx : x ∈ names) (complete : Bool) : HasNames (scope.insert x complete) names := by
  intro y
  rw [Table.contains_insert, h y]
  constructor
  · rintro (rfl | hy)
    · exact hx
    · exact hy
  · exact Or.inr

theorem SameNames.nil_iff {scopes : List StaticScope} : SameNames scopes [] ↔ scopes = [] := by
  cases scopes with
  | nil => simp [SameNames]
  | cons scope outer => simp [SameNames]

theorem SameNames.exists_cons {scopes : List StaticScope} {names : List String} {S : ScopeNames}
    (h : SameNames scopes (names :: S)) :
    ∃ inner outer, scopes = inner :: outer ∧ HasNames inner names ∧ SameNames outer S := by
  cases scopes with
  | nil => exact h.elim
  | cons inner outer => exact ⟨inner, outer, rfl, h⟩

/-- The distance found by the search is the lexical distance. -/
theorem isDistance_distanceTo {scopes : List StaticScope} {S : ScopeNames}
    (h : SameNames scopes S) (x : String) : IsDistance S x (Resolve.distanceTo scopes x) := by
  induction scopes generalizing S with
  | nil =>
    cases S with
    | nil => simp [Resolve.distanceTo, IsDistance]
    | cons names S => exact h.elim
  | cons scope outer ih =>
    cases S with
    | nil => exact h.elim
    | cons names S =>
      obtain ⟨hnames, houter⟩ := h
      have hrec := ih houter
      unfold Resolve.distanceTo at hrec ⊢
      rw [List.findIdx?_cons]
      -- the search goes through the scopes from the inside, as distances are counted
      by_cases hx : x ∈ names
      · rw [if_pos ((hnames x).mpr hx)]
        exact ⟨[], names, S, rfl, rfl, hx, by simp⟩
      · rw [if_neg (fun hc => hx ((hnames x).mp hc))]
        cases hfind : outer.findIdx? (·.contains x) with
        | none =>
          rw [hfind] at hrec
          intro scope' hscope'
          rcases List.mem_cons.mp hscope' with rfl | hmem
          · exact hx
          · exact hrec scope' hmem
        | some d =>
          rw [hfind] at hrec
          obtain ⟨inner, found, rest, rfl, hlen, hmem, hout⟩ := hrec
          refine ⟨names :: inner, found, rest, rfl, by simp [hlen], hmem, ?_⟩
          intro scope' hscope'
          rcases List.mem_cons.mp hscope' with rfl | hin
          · exact hx
          · exact hout scope' hin

/-! ### Pieces of the walk -/

/-- What a piece of the walk adds to the state. -/
structure Walked (st st' : ResolveState) (S : ScopeNames) (uses : List LocalUse) : Prop where
  /-- The names in scope afterwards. -/
  scopes : SameNames st'.scopes S
  /-- The uses noted on the way. -/
  uses : st'.uses.toList = st.uses.toList ++ uses
  /-- Errors are only ever added. -/
  errors : st.errors.size ≤ st'.errors.size

/-- A piece of the walk leads from the scopes `S` to the scopes `S'`.  What it
    yields and notes satisfies `post`, and if it finds no error also `clean`. -/
def Walks {α : Type} (x : Resolve α) (S S' : ScopeNames) (post : α → List LocalUse → Prop)
    (clean : α → Prop) : Prop :=
  ∀ st, SameNames st.scopes S → ∃ a st' uses,
    x st = (a, st') ∧ Walked st st' S' uses ∧ post a uses ∧
      (st'.errors.size = st.errors.size → clean a)

namespace Walks

variable {α β : Type} {x : Resolve α} {S S' S'' : ScopeNames}
  {post : α → List LocalUse → Prop} {clean : α → Prop}

theorem pure {a : α} (hpost : post a []) (hclean : clean a) :
    Walks (pure a) S S post clean := by
  intro st hst
  exact ⟨a, st, [], rfl, ⟨hst, by simp, Nat.le_refl _⟩, hpost, fun _ => hclean⟩

theorem bind {f : α → Resolve β} {post' : α → β → List LocalUse → Prop} {clean' : α → β → Prop}
    (hx : Walks x S S' post clean) (hf : ∀ a, Walks (f a) S' S'' (post' a) (clean' a)) :
    Walks (x >>= f) S S''
      (fun b uses => ∃ a u v, uses = u ++ v ∧ post a u ∧ post' a b v)
      (fun b => ∃ a, clean a ∧ clean' a b) := by
  intro st hst
  obtain ⟨a, st₁, u, hrun, hwalk, hpost, hclean⟩ := hx st hst
  obtain ⟨b, st₂, v, hrun', hwalk', hpost', hclean'⟩ := hf a st₁ hwalk.scopes
  have hbind : (x >>= f) st = (b, st₂) := by
    show f (x st).1 (x st).2 = (b, st₂)
    rw [hrun]
    exact hrun'
  refine ⟨b, st₂, u ++ v, hbind, ⟨hwalk'.scopes, ?_, ?_⟩, ⟨a, u, v, rfl, hpost, hpost'⟩, ?_⟩
  · rw [hwalk'.uses, hwalk.uses, List.append_assoc]
  · exact Nat.le_trans hwalk.errors hwalk'.errors
  · intro hsize
    -- errors are only added, so if there are no more, neither half found one
    have h₁ := hwalk.errors
    have h₂ := hwalk'.errors
    exact ⟨a, hclean (by omega), hclean' (by omega)⟩

theorem mono {post₂ : α → List LocalUse → Prop} {clean₂ : α → Prop}
    (hx : Walks x S S' post clean) (hpost : ∀ a uses, post a uses → post₂ a uses)
    (hclean : ∀ a, clean a → clean₂ a) : Walks x S S' post₂ clean₂ := by
  intro st hst
  obtain ⟨a, st', uses, hrun, hwalk, hp, hc⟩ := hx st hst
  exact ⟨a, st', uses, hrun, hwalk, hpost a uses hp, fun h => hclean a (hc h)⟩

theorem map (f : α → β) (hx : Walks x S S' post clean) :
    Walks (x >>= fun a => Pure.pure (f a)) S S' (fun b uses => ∃ a, b = f a ∧ post a uses)
      (fun b => ∃ a, b = f a ∧ clean a) := by
  intro st hst
  obtain ⟨a, st', uses, hrun, hwalk, hpost, hclean⟩ := hx st hst
  refine ⟨f a, st', uses, ?_, hwalk, ⟨a, rfl, hpost⟩, fun h => ⟨a, rfl, hclean h⟩⟩
  show (f (x st).1, (x st).2) = (f a, st')
  rw [hrun]

/-- A step that is run for its effect on the scopes and the errors only. -/
theorem seq {y : Resolve β} {ok : Prop} {u : Resolve Unit}
    {post' : β → List LocalUse → Prop} {clean' : β → Prop}
    (hu : Walks u S S' (fun _ uses => uses = []) (fun _ => ok))
    (hy : Walks y S' S'' post' clean') :
    Walks (u >>= fun _ => y) S S'' post' (fun b => ok ∧ clean' b) := by
  refine (hu.bind fun _ => hy).mono ?_ ?_
  · rintro b uses ⟨_, u, v, rfl, rfl, hpost⟩
    simpa using hpost
  · rintro b ⟨_, hok, hclean⟩
    exact ⟨hok, hclean⟩

end Walks

/-- A step that changes scopes alone. -/
theorem walks_modify {f : ResolveState → ResolveState} {S S' : ScopeNames} {ok : Prop}
    (hscopes : ∀ st, SameNames st.scopes S → SameNames (f st).scopes S')
    (huses : ∀ st, (f st).uses = st.uses) (herrors : ∀ st, st.errors.size ≤ (f st).errors.size)
    (hok : ∀ st, SameNames st.scopes S → (f st).errors.size = st.errors.size → ok) :
    Walks (modify f) S S' (fun _ uses => uses = []) (fun _ => ok) := by
  intro st hst
  exact ⟨(), f st, [], rfl, ⟨hscopes st hst, by rw [huses]; simp, herrors st⟩, rfl, hok st hst⟩

/-! ### Steps of the walk -/

section Steps

open Resolve

variable {S : ScopeNames}

theorem walks_report (issue : ResolveIssue) (site : Name) :
    Walks (report issue site) S S (fun _ uses => uses = []) (fun _ => False) := by
  refine walks_modify (fun _ h => h) (fun _ => rfl) (fun st => ?_) (fun st _ h => ?_)
  · simp
  · simp at h

/-- A step behind a rule that is broken only if `broken` holds. -/
theorem walks_unless {β : Type} {y : Resolve β} {S' : ScopeNames}
    {post : β → List LocalUse → Prop} {clean : β → Prop} (broken : Prop) [Decidable broken]
    (issue : ResolveIssue) (site : Name) (hy : Walks y S S' post clean) :
    Walks (if broken then report issue site >>= fun _ => y else y) S S' post
      (fun b => ¬ broken ∧ clean b) := by
  by_cases h : broken
  · rw [if_pos h]
    exact ((walks_report issue site).seq hy).mono (fun _ _ hp => hp) (fun _ hc => hc.1.elim)
  · rw [if_neg h]
    exact hy.mono (fun _ _ hp => hp) (fun _ hc => ⟨h, hc⟩)

theorem walks_openScope (names : List String) (hnames : names.length ≤ 1) :
    Walks (openScope names) S (names :: S) (fun _ uses => uses = []) (fun _ => True) := by
  refine walks_modify (fun st h => ⟨?_, h⟩) (fun _ => rfl) (fun _ => Nat.le_refl _)
    (fun _ _ _ => trivial)
  match names, hnames with
  | [], _ => exact HasNames.empty
  | [x], _ => exact HasNames.empty.insert x true

theorem walks_closeScope (names : List String) :
    Walks closeScope (names :: S) S (fun _ uses => uses = []) (fun _ => True) := by
  refine walks_modify (fun st h => ?_) (fun _ => rfl) (fun _ => Nat.le_refl _)
    (fun _ _ _ => trivial)
  obtain ⟨inner, outer, hscopes, -, houter⟩ := h.exists_cons
  rw [hscopes]
  exact houter

theorem walks_tally : Walks tally S S (fun _ uses => uses = []) (fun _ => True) :=
  walks_modify (fun _ h => h) (fun _ => rfl) (fun _ => Nat.le_refl _) (fun _ _ _ => trivial)

theorem declare_run (name : Name) (st : ResolveState) :
    declare name st = ((), match st.scopes with
      | [] => st
      | inner :: outer =>
        { st with
          scopes := inner.insert name.text false :: outer
          errors := if inner.contains name.text then st.errors.push ⟨.alreadyDeclared, name⟩
            else st.errors }) := by
  obtain ⟨scopes, uses, errors, tallies⟩ := st
  cases scopes with
  | nil => rfl
  | cons inner outer =>
    show (do
      if (inner.find? name.text).isSome then report .alreadyDeclared name
      mark name.text false : Resolve Unit) _ = _
    unfold Table.contains
    by_cases h : (inner.find? name.text).isSome = true
    · simp only [if_pos h]
      rfl
    · simp only [if_neg h]
      rfl

theorem walks_declare (name : Name) :
    Walks (declare name) S (declaring [name.text] S) (fun _ uses => uses = [])
      (fun _ => Undeclared name.text S) := by
  intro st hst
  refine ⟨(), _, [], declare_run name st, ?_, rfl, ?_⟩
  · cases S with
    | nil =>
      rw [SameNames.nil_iff] at hst
      rw [hst]
      exact ⟨SameNames.nil_iff.mpr hst, by simp, Nat.le_refl _⟩
    | cons names S =>
      obtain ⟨inner, outer, hscopes, hinner, houter⟩ := hst.exists_cons
      rw [hscopes]
      refine ⟨⟨hinner.insert _ _, houter⟩, by simp, ?_⟩
      by_cases h : inner.contains name.text = true <;> simp [h]
  · intro hsize
    cases S with
    | nil => trivial
    | cons names S =>
      obtain ⟨inner, outer, hscopes, hinner, -⟩ := hst.exists_cons
      rw [hscopes] at hsize
      -- a second declaration would have been an error
      intro hmem
      rw [← hinner name.text] at hmem
      simp [hmem] at hsize

theorem walks_define (name : Name) :
    Walks (define name) (declaring [name.text] S) (declaring [name.text] S)
      (fun _ uses => uses = []) (fun _ => True) := by
  refine walks_modify (fun st h => ?_) (fun st => ?_) (fun st => ?_) (fun _ _ _ => trivial)
  · cases S with
    | nil =>
      have hnil := SameNames.nil_iff.mp h
      rw [hnil]
      exact h
    | cons names S =>
      obtain ⟨inner, outer, hscopes, hinner, houter⟩ := h.exists_cons
      rw [hscopes]
      exact ⟨hinner.insert_mem (by simp) true, houter⟩
  · split <;> rfl
  · split <;> exact Nat.le_refl _

theorem note_run (kind : UseKind) (target : String) (site : Name) (st : ResolveState) :
    note kind target site st = match distanceTo st.scopes target with
      | some d => (some d, { st with uses := st.uses.push ⟨kind, site, d⟩ })
      | none => (none, st) :=
  rfl

theorem walks_note (kind : UseKind) (target : String) (site : Name) :
    Walks (note kind target site) S S
      (fun use uses => IsDistance S target use ∧ uses = noted kind site use)
      (fun use => IsDistance S target use) := by
  intro st hst
  have hdist := isDistance_distanceTo hst target
  cases hfind : distanceTo st.scopes target with
  | none =>
    rw [hfind] at hdist
    have hrun : note kind target site st = (none, st) := by
      rw [note_run, hfind]
    exact ⟨none, st, [], hrun, ⟨hst, by simp, Nat.le_refl _⟩, ⟨hdist, rfl⟩, fun _ => hdist⟩
  | some d =>
    rw [hfind] at hdist
    have hrun : note kind target site st
        = (some d, { st with uses := st.uses.push ⟨kind, site, d⟩ }) := by
      rw [note_run, hfind]
    exact ⟨some d, _, [⟨kind, site, d⟩], hrun, ⟨hst, by simp, Nat.le_refl _⟩, ⟨hdist, rfl⟩,
      fun _ => hdist⟩

/-- Looking at the innermost scope changes nothing. -/
theorem walks_innermost (name : String) :
    Walks (innermost? name) S S (fun _ uses => uses = []) (fun _ => True) := by
  intro st hst
  refine ⟨(innermost? name st).1, st, [], ?_, ⟨hst, by simp, Nat.le_refl _⟩, rfl, fun _ => trivial⟩
  obtain ⟨scopes, uses, errors, tallies⟩ := st
  cases scopes <;> rfl

theorem walks_useVariable (name : Name) :
    Walks (useVariable name) S S
      (fun use uses => IsDistance S name.text use ∧ uses = noted .variable name use)
      (fun use => IsDistance S name.text use) := by
  refine ((walks_innermost name.text).bind fun found =>
    walks_unless (found == some false) .ownInitializer name
      (walks_note .variable name.text name)).mono ?_ ?_
  · rintro use uses ⟨_, u, v, rfl, rfl, hpost⟩
    simpa using hpost
  · rintro use ⟨_, _, _, hdist⟩
    exact hdist

theorem walks_declareParams (params : List Name) (names : List String) :
    Walks (declareParams params) (names :: S) (((paramNames params).reverse ++ names) :: S)
      (fun _ uses => uses = [])
      (fun _ => (paramNames params).Nodup ∧ ∀ x ∈ paramNames params, x ∉ names) := by
  -- the scope grows by one name at a time, so the names already there are arbitrary
  induction params generalizing names with
  | nil => exact Walks.pure rfl ⟨List.nodup_nil, by simp [paramNames]⟩
  | cons p ps ih =>
    have hrest := ih (p.text :: names)
    have hscopes : (paramNames (p :: ps)).reverse ++ names
        = (paramNames ps).reverse ++ p.text :: names := by
      simp [paramNames]
    rw [hscopes]
    refine ((walks_declare p).seq ((walks_define p).seq hrest)).mono (fun _ _ h => h) ?_
    -- a parameter is new if neither the scope nor the later parameters have it
    rintro _ ⟨hfresh, _, hnodup, hdisjoint⟩
    constructor
    · refine List.nodup_cons.mpr ⟨fun hmem => ?_, hnodup⟩
      exact hdisjoint _ hmem (by simp)
    · intro x hx hmem
      rcases List.mem_cons.mp hx with rfl | hx
      · exact hfresh hmem
      · exact hdisjoint x hx (List.mem_cons_of_mem _ hmem)

/-- Opening a scope for parameters. -/
theorem walks_openParams (params : List Name) :
    Walks (do openScope []; declareParams params) S (paramNames params :: S)
      (fun _ uses => uses = []) (fun _ => (paramNames params).Nodup) := by
  have hparams := (walks_openScope (S := S) [] (by simp)).seq (walks_declareParams params [])
  intro st hst
  obtain ⟨a, st', uses, hrun, hwalk, hpost, hclean⟩ := hparams st hst
  refine ⟨a, st', uses, hrun, ⟨?_, hwalk.uses, hwalk.errors⟩, hpost, fun h => (hclean h).2.1⟩
  -- the parameters were declared from left to right, so the scope has them reversed
  obtain ⟨inner, outer, hscopes, hinner, houter⟩ := hwalk.scopes.exists_cons
  rw [hscopes]
  exact ⟨fun x => by rw [hinner x]; simp, houter⟩

theorem walks_checkReturn (P : Enclosing) (line : Int) (hasValue : Bool) :
    Walks (checkReturn P line hasValue) S S (fun _ uses => uses = [])
      (fun _ => P.function ≠ .none ∧ (hasValue = true → P.function ≠ .initializer)) := by
  have hvalue : Walks (if (hasValue && decide (P.function = .initializer)) = true then
        report .valueFromInitializer ⟨Keyword.returnWord.text, line⟩ else pure ()) S S
      (fun _ uses => uses = []) (fun _ => ¬ (hasValue && decide (P.function = .initializer)) = true) := by
    by_cases h : (hasValue && decide (P.function = .initializer)) = true
    · rw [if_pos h]
      exact (walks_report _ _).mono (fun _ _ hp => hp) (fun _ hc => hc.elim)
    · rw [if_neg h]
      exact Walks.pure rfl h
  refine (walks_unless (P.function = .none) .returnAtTopLevel _ hvalue).mono (fun _ _ h => h) ?_
  rintro _ ⟨hnone, hinit⟩
  refine ⟨hnone, fun hv hi => hinit ?_⟩
  simp [hv, hi]

theorem walks_useThis (P : Enclosing) (line : Int) :
    Walks (useThis P line) S S
      (fun use uses => (if P.cls = .none then use = none else IsDistance S Keyword.thisWord.text use) ∧
        uses = noted .this ⟨Keyword.thisWord.text, line⟩ use)
      (fun use => P.cls ≠ .none ∧ IsDistance S Keyword.thisWord.text use) := by
  unfold useThis
  by_cases h : P.cls = .none
  · rw [if_pos h]
    -- outside of a class there is an error, and no scope is looked at
    have hnone : Walks (pure none) S S
        (fun use uses => (if P.cls = .none then use = none
          else IsDistance S Keyword.thisWord.text use) ∧
          uses = noted .this ⟨Keyword.thisWord.text, line⟩ use) (fun _ => True) :=
      Walks.pure ⟨by rw [if_pos h], rfl⟩ trivial
    exact ((walks_report _ _).seq hnone).mono (fun _ _ hp => hp) (fun _ hc => hc.1.elim)
  · rw [if_neg h]
    simp only [if_neg h]
    exact (walks_note _ _ _).mono (fun _ _ hp => hp) (fun _ hd => ⟨h, hd⟩)

theorem walks_useSuper (P : Enclosing) (line : Int) :
    Walks (useSuper P line) S S
      (fun use uses => IsDistance S Keyword.superWord.text use ∧
        uses = noted .super ⟨Keyword.superWord.text, line⟩ use)
      (fun use => P.cls = .derived ∧ IsDistance S Keyword.superWord.text use) := by
  -- the use is noted even after an error
  have hnote := walks_note (S := S) .super Keyword.superWord.text ⟨Keyword.superWord.text, line⟩
  unfold useSuper
  cases h : P.cls with
  | none => exact ((walks_report _ _).seq hnote).mono (fun _ _ hp => hp) (fun _ hc => hc.1.elim)
  | plain => exact ((walks_report _ _).seq hnote).mono (fun _ _ hp => hp) (fun _ hc => hc.1.elim)
  | derived => exact hnote.mono (fun _ _ hp => hp) (fun _ hd => ⟨rfl, hd⟩)

/-- Statements in a scope of their own, which is closed behind them. -/
theorem walks_body {β : Type} {x : Resolve (List ResolvedStmt)} {names names' : List String}
    {post : List ResolvedStmt → List LocalUse → Prop} {clean : List ResolvedStmt → Prop}
    (build : List ResolvedStmt → β) (hx : Walks x (names :: S) (names' :: S) post clean) :
    Walks (do let body ← x; tally; closeScope; pure (build body)) (names :: S) S
      (fun b uses => ∃ body, b = build body ∧ post body uses)
      (fun b => ∃ body, b = build body ∧ clean body) := by
  refine (hx.bind fun body => (walks_tally.seq (walks_closeScope names')).map
    fun _ => build body).mono ?_ ?_
  · rintro b uses ⟨body, u, v, rfl, hpost, _, rfl, rfl⟩
    exact ⟨body, rfl, by simpa using hpost⟩
  · rintro b ⟨body, hclean, _, rfl, _⟩
    exact ⟨body, rfl, hclean⟩

/-- The body of a function in the scope of its parameters. -/
theorem walks_function {β : Type} {x : Resolve (List ResolvedStmt)} {names' : List String}
    {post : List ResolvedStmt → List LocalUse → Prop} {clean : List ResolvedStmt → Prop}
    (params : List Name) (build : List ResolvedStmt → β)
    (hx : Walks x (paramNames params :: S) (names' :: S) post clean) :
    Walks
      (do openScope []; declareParams params; let body ← x; tally; closeScope; pure (build body))
      S S (fun b uses => ∃ body, b = build body ∧ post body uses)
      (fun b => (paramNames params).Nodup ∧ ∃ body, b = build body ∧ clean body) :=
  (walks_openParams params).seq (walks_body build hx)

end Steps

end Treewalk
