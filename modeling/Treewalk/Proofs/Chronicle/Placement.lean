import Treewalk.Proofs.Chronicle.Recorded
import Treewalk.Proofs.Scope.Resolution

/-! # Where code stands

    The phrases of a resolved program, each with the bodies it stands in.  In an
    accepted program these settle what `this` and `super` speak of: the method
    that is the innermost one around them, `Surrounds.exists_method`. -/

namespace Treewalk

/-! ### Zones -/

/-- What opens scopes around a phrase. -/
inductive Zone where
  /-- A block, or the body of a function. -/
  | body
  /-- The body of a method of a class. -/
  | method (text : ClassText) (decl : ResolvedFun)

/-- A phrase of a resolved program. -/
inductive Code where
  | expr (e : ResolvedExpr)
  | stmt (s : ResolvedStmt)

namespace Code

/-- The phrases directly inside of a phrase, with the zones they are in there. -/
def parts : Code → List (List Zone × Code)
  | .expr (.literal _) | .expr (.variable _ _) | .expr (.this _ _) | .expr (.super _ _ _) => []
  | .expr (.group e) | .expr (.unary _ _ e) | .expr (.get e _) | .expr (.assign _ _ e) =>
    [([], .expr e)]
  | .expr (.binary _ _ l r) | .expr (.logical _ _ l r) | .expr (.set l _ r) =>
    [([], .expr l), ([], .expr r)]
  | .expr (.call f args _) => ([], .expr f) :: args.map fun e => ([], .expr e)
  | .expr (.lambda _ _ body) => body.map fun s => ([.body], .stmt s)
  | .stmt (.expression e) | .stmt (.print e) | .stmt (.var _ (some e)) | .stmt (.ret _ (some e)) =>
    [([], .expr e)]
  | .stmt (.var _ none) | .stmt (.ret _ none) => []
  | .stmt (.block body) => body.map fun s => ([.body], .stmt s)
  | .stmt (.branch c a none) => [([], .expr c), ([], .stmt a)]
  | .stmt (.branch c a (some b)) => [([], .expr c), ([], .stmt a), ([], .stmt b)]
  | .stmt (.loop c body) => [([], .expr c), ([], .stmt body)]
  | .stmt (.function decl) => decl.body.map fun s => ([.body], .stmt s)
  | .stmt (.classDecl name superclass methods) =>
    methods.flatMap fun m => m.body.map fun s => ([.method ⟨name, superclass, methods⟩ m], .stmt s)

/-- The names that a phrase writes to, those of parameters included. -/
def writes : Code → List String
  | .expr (.assign name _ _) | .stmt (.var name _) => [name.text]
  | .expr (.lambda _ params _) => paramNames params
  | .stmt (.function decl) => decl.name.text :: paramNames decl.params
  | .stmt (.classDecl name _ methods) =>
    name.text :: methods.flatMap fun m => paramNames m.params
  | _ => []

/-- The phrases in it wait until a function is called. -/
def holdsBodies : Code → Bool
  | .expr (.lambda _ _ _) | .stmt (.function _) | .stmt (.classDecl _ _ _) => true
  | _ => false

/-- The innermost function around what stands in the zones inside of a phrase, given
    the one around the phrase. -/
def functionInside (around : FunctionKind) : Code → List Zone → FunctionKind
  | .expr (.lambda _ _ _), _ | .stmt (.function _), _ => .function
  | .stmt (.classDecl _ _ _), [.method _ decl] => .ofMethod decl.name.text
  | _, _ => around

/-- The phrase is the resolved form of an accepted one. -/
def AcceptedAt (P : Enclosing) (S : ScopeNames) : Code → Prop
  | .expr e => ∃ source, AcceptedExpr P S source e
  | .stmt s => ∃ source, AcceptedStmt P S source s

end Code

/-- A phrase of a program, and the zones it is in, innermost first. -/
inductive Located (program : List ResolvedStmt) : List Zone → Code → Prop
  | statement {s} : s ∈ program → Located program [] (.stmt s)
  | part {zones more ph inner} :
      Located program zones ph → (more, inner) ∈ ph.parts → Located program (more ++ zones) inner

/-- The program is the resolved form of an accepted one. -/
def AcceptedProgram (program : List ResolvedStmt) : Prop :=
  ∃ source, AcceptedStmts .topLevel [] source program

/-! ### Zones and scopes -/

/-- What encloses a place and the scopes around it, as its zones have it: the
    scope of a method is directly inside one for the receiver, and that directly
    inside one for the superclass, if there is one. -/
inductive Surrounds : Enclosing → ScopeNames → List Zone → Prop
  | top {P} : P.cls = .none → Surrounds P [] []
  | body {P P' names S zones} :
      Surrounds P S zones → P'.cls = P.cls → (∀ x ∈ names, Unreserved x) →
      Surrounds P' (names :: S) (.body :: zones)
  | method {P P' names S zones name methods decl} :
      Surrounds P S zones → P'.cls = .plain → (∀ x ∈ names, Unreserved x) →
      Surrounds P' (names :: [Keyword.thisWord.text] :: S)
        (.method ⟨name, none, methods⟩ decl :: zones)
  | submethod {P P' names S zones name superclass methods decl} :
      Surrounds P S zones → P'.cls = .derived → (∀ x ∈ names, Unreserved x) →
      Surrounds P' (names :: [Keyword.thisWord.text] :: [Keyword.superWord.text] :: S)
        (.method ⟨name, some superclass, methods⟩ decl :: zones)

namespace Surrounds

variable {P : Enclosing} {S : ScopeNames} {zones : List Zone} {names : List String}

/-- Declarations of a program keep the zones. -/
theorem declaring (h : Surrounds P S zones) (hnames : ∀ x ∈ names, Unreserved x) :
    Surrounds P (declaring names S) zones := by
  have hboth {inner : List String} (hinner : ∀ x ∈ inner, Unreserved x) :
      ∀ x ∈ names ++ inner, Unreserved x := by
    intro x hx
    rcases List.mem_append.mp hx with hx | hx
    · exact hnames x hx
    · exact hinner x hx
  cases h with
  | top hcls => exact .top hcls
  | body h hcls hinner => exact .body h hcls (hboth hinner)
  | method h hcls hinner => exact .method h hcls (hboth hinner)
  | submethod h hcls hinner => exact .submethod h hcls (hboth hinner)

/-- Inside of a class there is an innermost method, behind some bodies, and each
    of them is one scope: so the distances of the receiver and of the superclass
    tell which method it is. -/
theorem exists_method (h : Surrounds P S zones) (hcls : P.cls ≠ .none) :
    ∃ d text decl outer, zones = List.replicate d .body ++ .method text decl :: outer ∧
      IsDistance S Keyword.thisWord.text (some (d + 1)) ∧
      (P.cls = .derived → text.superclass.isSome = true ∧
        IsDistance S Keyword.superWord.text (some (d + 2))) := by
  -- no scope of the program hides `this` or `super`
  have hfree {names : List String} (hnames : ∀ x ∈ names, Unreserved x) (k : Keyword) :
      k.text ∉ names := fun hmem => (hnames _ hmem).ne_keyword k rfl
  induction h with
  | top hnone => exact absurd hnone hcls
  | @body P P' names S zones h hsame hnames ih =>
    rw [hsame] at hcls
    obtain ⟨d, text, decl, outer, rfl, hthis, hsuper⟩ := ih hcls
    refine ⟨d + 1, text, decl, outer, rfl, ?_, ?_⟩
    · exact isDistance_cons_succ.mpr ⟨hfree hnames _, hthis⟩
    · intro hderived
      obtain ⟨hsome, hsuper⟩ := hsuper (hsame.symm.trans hderived)
      exact ⟨hsome, isDistance_cons_succ.mpr ⟨hfree hnames _, hsuper⟩⟩
  | method h hplain hnames =>
    refine ⟨0, _, _, _, rfl, isDistance_cons_succ.mpr ⟨hfree hnames _, ?_⟩, fun hderived => ?_⟩
    · exact isDistance_cons_zero.mpr List.mem_cons_self
    · rw [hplain] at hderived
      cases hderived
  | submethod h _ hnames =>
    refine ⟨0, _, _, _, rfl, isDistance_cons_succ.mpr ⟨hfree hnames _, ?_⟩, fun _ => ⟨rfl, ?_⟩⟩
    · exact isDistance_cons_zero.mpr List.mem_cons_self
    · refine isDistance_cons_succ.mpr ⟨hfree hnames _, isDistance_cons_succ.mpr ⟨by decide, ?_⟩⟩
      exact isDistance_cons_zero.mpr List.mem_cons_self

end Surrounds

/-! ### Parts of accepted phrases -/

section Parts

variable {P : Enclosing} {S : ScopeNames}

theorem AcceptedStmt.unreserved {source : SourceStmt} {s : ResolvedStmt}
    (h : AcceptedStmt P S source s) : ∀ x ∈ source.declares, Unreserved x := by
  cases h with
  | var hname => simpa [Stmt.declares] using hname.1
  | varInit hname _ => simpa [Stmt.declares] using hname.1
  | function hname _ => simpa [Stmt.declares] using hname.1
  | classDecl hname _ => simpa [Stmt.declares] using hname.1
  | subclassDecl hname _ _ _ => simpa [Stmt.declares] using hname.1
  | branch _ _ hplain =>
    unfold Stmt.declares
    rw [hplain]
    nofun
  | branchElse _ _ _ hplain hplain' =>
    unfold Stmt.declares
    rw [hplain, hplain']
    nofun
  | loop _ _ hplain =>
    unfold Stmt.declares
    rw [hplain]
    nofun
  | _ => simp [Stmt.declares]

theorem AcceptedExprs.of_mem {source : List SourceExpr} {es : List ResolvedExpr}
    (h : AcceptedExprs P S source es) {e : ResolvedExpr} (he : e ∈ es) :
    (Code.expr e).AcceptedAt P S := by
  induction es generalizing source with
  | nil => cases he
  | cons first es ih =>
    cases h with
    | cons hfirst hrest =>
      rcases List.mem_cons.mp he with rfl | he
      · exact ⟨_, hfirst⟩
      · exact ih hrest he

theorem AcceptedFun.name_eq {kind : FunctionKind} {source : SourceFun} {decl : ResolvedFun}
    (h : AcceptedFun P kind S source decl) : source.name = decl.name := by
  cases h
  rfl

theorem AcceptedFuns.of_mem {source : List SourceFun} {methods : List ResolvedFun}
    (h : AcceptedFuns P S source methods) {m : ResolvedFun} (hm : m ∈ methods) :
    ∃ source, AcceptedFun P (.ofMethod m.name.text) S source m := by
  induction methods generalizing source with
  | nil => cases hm
  | cons first methods ih =>
    cases h with
    | cons hfirst hrest =>
      rcases List.mem_cons.mp hm with rfl | hm
      · rw [hfirst.name_eq] at hfirst
        exact ⟨_, hfirst⟩
      · exact ih hrest hm

theorem AcceptedFun.unreserved {kind : FunctionKind} {source : SourceFun} {decl : ResolvedFun}
    (h : AcceptedFun P kind S source decl) : ∀ x ∈ paramNames decl.params, Unreserved x := by
  cases h with
  | mk hparams _ => exact unreserved_paramNames hparams.2

/-- A phrase writes to no reserved name. -/
theorem Code.AcceptedAt.unreserved {ph : Code} (h : ph.AcceptedAt P S) :
    ∀ x ∈ ph.writes, Unreserved x := by
  cases ph with
  | expr e =>
    obtain ⟨source, h⟩ := h
    cases h with
    | assign hname _ _ => simpa [writes] using hname
    | lambda hparams _ => exact unreserved_paramNames hparams.2
    | _ => simp [writes]
  | stmt s =>
    obtain ⟨source, h⟩ := h
    have hmethods {P : Enclosing} {S : ScopeNames} {name : Name} (hname : Unreserved name.text)
        {source : List SourceFun} {methods : List ResolvedFun}
        (hfuns : AcceptedFuns P S source methods) :
        ∀ x ∈ name.text :: methods.flatMap fun m => paramNames m.params, Unreserved x := by
      intro x hx
      rcases List.mem_cons.mp hx with rfl | hx
      · exact hname
      · obtain ⟨m, hm, hx⟩ := List.mem_flatMap.mp hx
        obtain ⟨source, hfun⟩ := hfuns.of_mem hm
        exact hfun.unreserved x hx
    cases h with
    | var hname => simpa [writes] using hname.1
    | varInit hname _ => simpa [writes] using hname.1
    | function hname hfun =>
      intro x hx
      cases hfun with
      | mk hparams _ =>
        rcases List.mem_cons.mp hx with rfl | hx
        · exact hname.1
        · exact unreserved_paramNames hparams.2 x hx
    | classDecl hname hfuns => exact hmethods hname.1 hfuns
    | subclassDecl hname _ _ hfuns => exact hmethods hname.1 hfuns
    | _ => simp [writes]

/-- A phrase that is accepted somewhere in some zones, with this around it. -/
def Code.AcceptedWithin (P : Enclosing) (zones : List Zone) (ph : Code) : Prop :=
  ∃ S, Surrounds P S zones ∧ ph.AcceptedAt P S

/-- A phrase that is accepted somewhere in some zones. -/
def Code.AcceptedIn (zones : List Zone) (ph : Code) : Prop :=
  ∃ P S, Surrounds P S zones ∧ ph.AcceptedAt P S

/-- One of several accepted statements is accepted behind the declarations of those
    before it. -/
theorem AcceptedStmts.acceptedWithin {zones : List Zone} {source : List SourceStmt}
    {body : List ResolvedStmt} (h : AcceptedStmts P S source body) (hzones : Surrounds P S zones)
    {s : ResolvedStmt} (hs : s ∈ body) : (Code.stmt s).AcceptedWithin P zones := by
  induction body generalizing source S with
  | nil => cases hs
  | cons first body ih =>
    cases h with
    | cons hfirst hrest =>
      rcases List.mem_cons.mp hs with rfl | hs
      · exact ⟨S, hzones, _, hfirst⟩
      · exact ih hrest (hzones.declaring hfirst.unreserved) hs

/-- The parts of an accepted expression are accepted, in their zones. -/
theorem AcceptedExpr.part {source : SourceExpr} {e : ResolvedExpr} (h : AcceptedExpr P S source e)
    {zones more : List Zone} {inner : Code} (hzones : Surrounds P S zones)
    (hpart : (more, inner) ∈ (Code.expr e).parts) :
    ∃ P', P'.function = (Code.expr e).functionInside P.function more ∧
      inner.AcceptedWithin P' (more ++ zones) := by
  have here {e' : ResolvedExpr} {source : SourceExpr} (h : AcceptedExpr P S source e')
      (heq : (more, inner) = ([], .expr e')) : inner.AcceptedWithin P (more ++ zones) := by
    cases heq
    exact ⟨S, hzones, source, h⟩
  cases h with
  | literal => cases hpart
  | «variable» _ => cases hpart
  | this _ _ => cases hpart
  | super _ _ => cases hpart
  | group h => exact ⟨P, rfl, here h (List.mem_singleton.mp hpart)⟩
  | unary h => exact ⟨P, rfl, here h (List.mem_singleton.mp hpart)⟩
  | get h => exact ⟨P, rfl, here h (List.mem_singleton.mp hpart)⟩
  | assign _ h _ => exact ⟨P, rfl, here h (List.mem_singleton.mp hpart)⟩
  | binary hl hr =>
    refine ⟨P, rfl, ?_⟩
    rcases List.mem_cons.mp hpart with heq | hpart
    · exact here hl heq
    · exact here hr (List.mem_singleton.mp hpart)
  | logical hl hr =>
    refine ⟨P, rfl, ?_⟩
    rcases List.mem_cons.mp hpart with heq | hpart
    · exact here hl heq
    · exact here hr (List.mem_singleton.mp hpart)
  | set hl hr =>
    refine ⟨P, rfl, ?_⟩
    rcases List.mem_cons.mp hpart with heq | hpart
    · exact here hl heq
    · exact here hr (List.mem_singleton.mp hpart)
  | call hf hargs =>
    refine ⟨P, rfl, ?_⟩
    rcases List.mem_cons.mp hpart with heq | hpart
    · exact here hf heq
    · obtain ⟨e, he, heq⟩ := List.mem_map.mp hpart
      obtain ⟨source, h⟩ := hargs.of_mem he
      exact here h heq.symm
  | lambda hparams hbody =>
    obtain ⟨s, hs, heq⟩ := List.mem_map.mp hpart
    cases heq
    exact ⟨{ P with function := .function }, rfl,
      hbody.acceptedWithin (.body hzones rfl (unreserved_paramNames hparams.2)) hs⟩

/-- The parts of an accepted statement are accepted, in their zones. -/
theorem AcceptedStmt.part {source : SourceStmt} {s : ResolvedStmt} (h : AcceptedStmt P S source s)
    {zones more : List Zone} {inner : Code} (hzones : Surrounds P S zones)
    (hpart : (more, inner) ∈ (Code.stmt s).parts) :
    ∃ P', P'.function = (Code.stmt s).functionInside P.function more ∧
      inner.AcceptedWithin P' (more ++ zones) := by
  have here {ph : Code} (heq : (more, inner) = ([], ph)) (h : ph.AcceptedAt P S) :
      inner.AcceptedWithin P (more ++ zones) := by
    cases heq
    exact ⟨S, hzones, h⟩
  have hname {name : Name} (h : Declarable name S) : ∀ x ∈ [name.text], Unreserved x := by
    simpa using h.1
  cases h with
  | expression h => exact ⟨P, rfl, here (List.mem_singleton.mp hpart) ⟨_, h⟩⟩
  | print h => exact ⟨P, rfl, here (List.mem_singleton.mp hpart) ⟨_, h⟩⟩
  | var _ => cases hpart
  | varInit hdecl h =>
    cases List.mem_singleton.mp hpart
    exact ⟨P, rfl, _, hzones.declaring (hname hdecl), _, h⟩
  | block hbody =>
    obtain ⟨s, hs, heq⟩ := List.mem_map.mp hpart
    cases heq
    exact ⟨P, rfl, hbody.acceptedWithin (.body hzones rfl nofun) hs⟩
  | branch hc ha _ =>
    refine ⟨P, rfl, ?_⟩
    rcases List.mem_cons.mp hpart with heq | hpart
    · exact here heq ⟨_, hc⟩
    · exact here (List.mem_singleton.mp hpart) ⟨_, ha⟩
  | branchElse hc ha hb _ _ =>
    refine ⟨P, rfl, ?_⟩
    rcases List.mem_cons.mp hpart with heq | hpart
    · exact here heq ⟨_, hc⟩
    · rcases List.mem_cons.mp hpart with heq | hpart
      · exact here heq ⟨_, ha⟩
      · exact here (List.mem_singleton.mp hpart) ⟨_, hb⟩
  | loop hc hbody _ =>
    refine ⟨P, rfl, ?_⟩
    rcases List.mem_cons.mp hpart with heq | hpart
    · exact here heq ⟨_, hc⟩
    · exact here (List.mem_singleton.mp hpart) ⟨_, hbody⟩
  | function hdecl hfun =>
    cases hfun with
    | mk hparams hbody =>
      obtain ⟨s, hs, heq⟩ := List.mem_map.mp hpart
      cases heq
      exact ⟨{ P with function := .function }, rfl,
        hbody.acceptedWithin (.body (hzones.declaring (hname hdecl)) rfl
          (unreserved_paramNames hparams.2)) hs⟩
  | ret _ => cases hpart
  | retValue _ _ h => exact ⟨P, rfl, here (List.mem_singleton.mp hpart) ⟨_, h⟩⟩
  | classDecl hdecl hfuns =>
    obtain ⟨m, hm, hpart⟩ := List.mem_flatMap.mp hpart
    obtain ⟨s, hs, heq⟩ := List.mem_map.mp hpart
    cases heq
    obtain ⟨source, hfun⟩ := hfuns.of_mem hm
    cases hfun with
    | mk hparams hbody =>
      exact ⟨_, rfl, hbody.acceptedWithin (.method (hzones.declaring (hname hdecl)) rfl
        (unreserved_paramNames hparams.2)) hs⟩
  | subclassDecl hdecl _ _ hfuns =>
    obtain ⟨m, hm, hpart⟩ := List.mem_flatMap.mp hpart
    obtain ⟨s, hs, heq⟩ := List.mem_map.mp hpart
    cases heq
    obtain ⟨source, hfun⟩ := hfuns.of_mem hm
    cases hfun with
    | mk hparams hbody =>
      exact ⟨_, rfl, hbody.acceptedWithin (.submethod (hzones.declaring (hname hdecl)) rfl
        (unreserved_paramNames hparams.2)) hs⟩

/-- The parts of an accepted phrase are accepted, in their zones. -/
theorem Code.AcceptedAt.part {ph inner : Code} {zones more : List Zone} (h : ph.AcceptedAt P S)
    (hzones : Surrounds P S zones) (hpart : (more, inner) ∈ ph.parts) :
    ∃ P', P'.function = ph.functionInside P.function more ∧
      inner.AcceptedWithin P' (more ++ zones) := by
  cases ph with
  | expr e =>
    obtain ⟨source, h⟩ := h
    exact AcceptedExpr.part h hzones hpart
  | stmt s =>
    obtain ⟨source, h⟩ := h
    exact AcceptedStmt.part h hzones hpart

end Parts

/-! ### Places in accepted programs -/

namespace Located

variable {program : List ResolvedStmt} {zones : List Zone} {ph : Code}

theorem acceptedIn (h : Located program zones ph) (hprogram : AcceptedProgram program) :
    ph.AcceptedIn zones := by
  induction h with
  | statement hs =>
    obtain ⟨source, hacc⟩ := hprogram
    exact ⟨_, hacc.acceptedWithin (.top rfl) hs⟩
  | @part zones more ph inner h hpart ih =>
    obtain ⟨P, S, hzones, hacc⟩ := ih
    obtain ⟨P', -, hinner⟩ := hacc.part hzones hpart
    exact ⟨P', hinner⟩

theorem unreserved (h : Located program zones ph) (hprogram : AcceptedProgram program) :
    ∀ x ∈ ph.writes, Unreserved x := by
  obtain ⟨P, S, -, hacc⟩ := h.acceptedIn hprogram
  exact hacc.unreserved

/-- `this` is noted with the distance of the innermost method around it. -/
theorem this {line : Int} {use : Distance} (h : Located program zones (.expr (.this line use)))
    (hprogram : AcceptedProgram program) :
    ∃ d text decl outer, zones = List.replicate d .body ++ .method text decl :: outer ∧
      use = some (d + 1) := by
  obtain ⟨P, S, hzones, source, hacc⟩ := h.acceptedIn hprogram
  cases hacc with
  | this hcls hd =>
    obtain ⟨d, text, decl, outer, hmethod, hthis, -⟩ := hzones.exists_method hcls
    exact ⟨d, text, decl, outer, hmethod, hd.unique hthis⟩

/-- `super` is noted with the distance of the class of the innermost method around
    it, and that class has a superclass. -/
theorem super {line : Int} {use : Distance} {method : Name}
    (h : Located program zones (.expr (.super line use method)))
    (hprogram : AcceptedProgram program) :
    ∃ d text decl outer, zones = List.replicate d .body ++ .method text decl :: outer ∧
      text.superclass.isSome = true ∧ use = some (d + 2) := by
  obtain ⟨P, S, hzones, source, hacc⟩ := h.acceptedIn hprogram
  cases hacc with
  | super hcls hd =>
    have hin : P.cls ≠ .none := by
      rw [hcls]
      nofun
    obtain ⟨d, text, decl, outer, hmethod, -, hsuper⟩ := hzones.exists_method hin
    obtain ⟨hsome, hsuper⟩ := hsuper hcls
    exact ⟨d, text, decl, outer, hmethod, hsome, hd.unique hsuper⟩

end Located

end Treewalk
