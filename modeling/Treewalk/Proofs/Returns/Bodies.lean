import Treewalk.Proofs.Chronicle.Heap

/-! # The code of a body

    What is executed when a body runs is a part of the body, but not of a function
    inside of it.  In an accepted program no such part at top level is a `return`
    statement, and none in an initializer is a `return` with a value. -/

namespace Treewalk

/-- A phrase of a body that is executed with it. -/
inductive PartOf (body : List ResolvedStmt) : Code → Prop
  | statement {s} : s ∈ body → PartOf body (.stmt s)
  | part {ph zones inner} : PartOf body ph → ph.holdsBodies = false → (zones, inner) ∈ ph.parts →
      PartOf body inner

/-- The phrase is accepted with this as the innermost function around it. -/
def Code.AcceptedAs (kind : FunctionKind) (ph : Code) : Prop :=
  ∃ P zones, P.function = kind ∧ ph.AcceptedWithin P zones

/-- A phrase that is executed with another one is in the same function. -/
theorem Code.functionInside_own {ph : Code} (hown : ph.holdsBodies = false) (around : FunctionKind)
    (zones : List Zone) : ph.functionInside around zones = around := by
  cases ph with
  | expr e => cases e <;> first | rfl | cases hown
  | stmt s => cases s <;> first | rfl | cases hown

section Parts

variable {kind : FunctionKind} {body : List ResolvedStmt} {ph : Code}

theorem PartOf.acceptedAs (hpart : PartOf body ph)
    (hbody : ∀ s ∈ body, (Code.stmt s).AcceptedAs kind) : ph.AcceptedAs kind := by
  induction hpart with
  | statement hs => exact hbody _ hs
  | part _ hown hmem ih =>
    obtain ⟨P, zones, hkind, S, hzones, hacc⟩ := ih
    obtain ⟨P', hkind', hinner⟩ := hacc.part hzones hmem
    rw [Code.functionInside_own hown] at hkind'
    exact ⟨P', _, hkind'.trans hkind, hinner⟩

/-- `return` stands in a function, and has no value in an initializer. -/
theorem Code.AcceptedAs.ret {line : Int} {value : Option ResolvedExpr}
    (h : (Code.stmt (.ret line value)).AcceptedAs kind) :
    kind ≠ .none ∧ (kind = .initializer → value = none) := by
  obtain ⟨P, zones, rfl, S, -, source, hacc⟩ := h
  cases hacc with
  | ret hfun => exact ⟨hfun, fun _ => rfl⟩
  | retValue hfun hvalue _ => exact ⟨hfun, fun hkind => absurd hkind hvalue⟩

end Parts

/-! ### Programs -/

/-- The statements of an accepted program are in no function. -/
theorem AcceptedProgram.acceptedAs {program : List ResolvedStmt} (h : AcceptedProgram program) :
    ∀ s ∈ program, (Code.stmt s).AcceptedAs .none := by
  intro s hs
  obtain ⟨source, hacc⟩ := h
  exact ⟨_, _, rfl, hacc.acceptedWithin (.top rfl) hs⟩

theorem AcceptedProgram.not_ret {program : List ResolvedStmt} (h : AcceptedProgram program)
    {line : Int} {value : Option ResolvedExpr} : ¬ PartOf program (.stmt (.ret line value)) :=
  fun hpart => (hpart.acceptedAs h.acceptedAs).ret.1 rfl

/-! ### Initializers -/

section Initializers

variable {h : Chronicle} {c : Closure}

/-- The body of a method that is known as an initializer is accepted as that of one. -/
theorem MethodFits.acceptedAs (hc : MethodFits h c) (hsound : Sound h)
    (hinit : c.isInitializer = true) : ∀ s ∈ c.body, (Code.stmt s).AcceptedAs .initializer := by
  obtain ⟨cls, env, text, superclass, decl, hcreated, hdecl, rfl⟩ := hc
  obtain ⟨⟨program, zones, hprogram, hlocated, -⟩, -⟩ := hsound.created hcreated
  obtain ⟨P, S, hzones, hacc⟩ := hlocated.acceptedIn hprogram
  intro s hs
  have hpart : ([.method text decl], .stmt s) ∈ (Code.stmt text.statement).parts :=
    List.mem_flatMap.mpr ⟨decl, hdecl, List.mem_map.mpr ⟨s, hs, rfl⟩⟩
  obtain ⟨P', hkind, hinner⟩ := hacc.part hzones hpart
  refine ⟨P', _, ?_, hinner⟩
  have hname : (decl.name.text == initializerName) = true := hinit
  rw [hkind]
  show FunctionKind.ofMethod decl.name.text = .initializer
  unfold FunctionKind.ofMethod
  rw [if_pos hname]

/-- An initializer returns no value. -/
theorem ClosureFits.initializer_ret (hc : ClosureFits h c) (hsound : Sound h)
    (hinit : c.isInitializer = true) {line : Int} {value : Option ResolvedExpr}
    (hpart : PartOf c.body (.stmt (.ret line value))) : value = none := by
  obtain ⟨-, -, -, -, -, -, -, hbound⟩ := hc
  obtain ⟨receiver, scope, method, hbinds, rfl⟩ := hbound hinit
  obtain ⟨h₀, hsuffix, -, hmethod, -⟩ := hsound.fits hbinds
  have hbody := (hmethod.mono (earlier_subset hsuffix)).acceptedAs hsound hinit
  exact (hpart.acceptedAs hbody).ret.2 rfl

/-- The scope of an initializer has its receiver as `this`. -/
theorem ClosureFits.receiver (hc : ClosureFits h c) (hsound : Sound h) {s : Store Value}
    (hk : Kept h s) (hinit : c.isInitializer = true) :
    ∃ receiver, BoundTo h c receiver ∧ ValueFits h receiver ∧
      s.getAt c.env 0 Keyword.thisWord.text = .ok receiver := by
  obtain ⟨-, -, -, -, -, -, -, hbound⟩ := hc
  obtain ⟨receiver, scope, method, hbinds, rfl⟩ := hbound hinit
  obtain ⟨-, object, d, -, hfits⟩ := hsound.bound hbinds
  have hthis : (s.bindings scope).find? Keyword.thisWord.text = some receiver := hk.records _ hbinds
  refine ⟨receiver, ⟨scope, method, hbinds, rfl⟩, hfits, ?_⟩
  show s.getAt (scope :: method.env) 0 Keyword.thisWord.text = .ok receiver
  have hscope : Store.scopeAt (scope :: method.env) 0 = .ok scope := rfl
  rw [s.getAt_eq hscope, hthis]

end Initializers

end Treewalk
