import Treewalk.Proofs.Chronicle.Receivers
import Treewalk.Proofs.Provenance.Addresses
import Treewalk.Proofs.Watched

/-! # Code on its site

    A phrase is on its site in an environment if it has an address in the accepted
    texts and the environment has a local scope for each scope around that address,
    and behind them the global one.  Functions, classes and stores are sited if the
    code in them is, whatever scopes it is run in later.  The distance of a local use
    then ends in a local scope, `Sited.assign`. -/

namespace Treewalk

/-! ### Environments of zones -/

/-- The environment has the scopes of the zones: one for each body, and for a method
    also those of its receiver and of the superclass of its class.  None of these is
    the global scope, which is behind them all. -/
inductive EnvFits : List Zone → Env → Prop
  | top : EnvFits [] globalEnv
  | body {zones env scope} :
      EnvFits zones env → scope ≠ globalScope → EnvFits (.body :: zones) (scope :: env)
  | method {zones env scope receiver name methods decl} :
      EnvFits zones env → receiver ≠ globalScope → scope ≠ globalScope →
      EnvFits (.method ⟨name, none, methods⟩ decl :: zones) (scope :: receiver :: env)
  | submethod {zones env scope receiver above name superclass methods decl} :
      EnvFits zones env → above ≠ globalScope → receiver ≠ globalScope → scope ≠ globalScope →
      EnvFits (.method ⟨name, some superclass, methods⟩ decl :: zones)
        (scope :: receiver :: above :: env)

namespace EnvFits

variable {zones : List Zone} {env : Env} {P : Enclosing} {S : ScopeNames}

/-- There is a local scope for each scope that resolution knows of. -/
theorem split (henv : EnvFits zones env) (hzones : Surrounds P S zones) :
    ∃ inner, env = inner ++ globalEnv ∧ inner.length = S.length ∧
      ∀ scope ∈ inner, scope ≠ globalScope := by
  induction henv generalizing P S with
  | top =>
    cases hzones
    exact ⟨[], rfl, rfl, nofun⟩
  | @body zones env scope _ hscope ih =>
    cases hzones with
    | body hzones _ _ =>
      obtain ⟨inner, rfl, hlength, hinner⟩ := ih hzones
      refine ⟨scope :: inner, rfl, by simp [hlength], ?_⟩
      exact List.forall_mem_cons.mpr ⟨hscope, hinner⟩
  | @method zones env scope receiver _ _ _ _ hreceiver hscope ih =>
    cases hzones with
    | method hzones _ _ =>
      obtain ⟨inner, rfl, hlength, hinner⟩ := ih hzones
      refine ⟨scope :: receiver :: inner, rfl, by simp [hlength], ?_⟩
      exact List.forall_mem_cons.mpr ⟨hscope, List.forall_mem_cons.mpr ⟨hreceiver, hinner⟩⟩
  | @submethod zones env scope receiver above _ _ _ _ _ habove hreceiver hscope ih =>
    cases hzones with
    | submethod hzones _ _ =>
      obtain ⟨inner, rfl, hlength, hinner⟩ := ih hzones
      refine ⟨scope :: receiver :: above :: inner, rfl, by simp [hlength], ?_⟩
      exact List.forall_mem_cons.mpr ⟨hscope, List.forall_mem_cons.mpr
        ⟨hreceiver, List.forall_mem_cons.mpr ⟨habove, hinner⟩⟩⟩

/-- A distance that resolution finds ends in a local scope. -/
theorem scopeAt (henv : EnvFits zones env) (hzones : Surrounds P S zones) {x : String} {d : Nat}
    (hd : IsDistance S x (some d)) :
    ∃ scope, Store.scopeAt env d = .ok scope ∧ scope ≠ globalScope := by
  obtain ⟨inner, rfl, hlength, hinner⟩ := henv.split hzones
  obtain ⟨within, names, outer, rfl, rfl, -, -⟩ := hd
  have hlt : within.length < inner.length := by
    rw [hlength]
    simp
  refine ⟨inner[within.length], ?_, hinner _ (List.getElem_mem hlt)⟩
  have hsplit : inner ++ globalEnv = inner.take within.length ++
      inner[within.length] :: (inner.drop (within.length + 1) ++ globalEnv) := by
    rw [← List.cons_append, ← List.append_assoc, List.getElem_cons_drop, List.take_append_drop]
  have hat := scopeAt_append (inner.take within.length) inner[within.length]
    (inner.drop (within.length + 1) ++ globalEnv)
  rwa [← hsplit, List.length_take, Nat.min_eq_left (Nat.le_of_lt hlt)] at hat

end EnvFits

/-! ### Sites of phrases -/

/-- The phrase has an address in the texts, and the environment has the scopes around
    that address. -/
def Sited (texts : List (List ResolvedStmt)) (env : Env) (ph : Code) : Prop :=
  ∃ a zones, phraseIn texts a = some (zones, ph) ∧ EnvFits zones env

/-- The body of the function is sited in every scope that a call may open. -/
def ClosureSited (texts : List (List ResolvedStmt)) (c : Closure) : Prop :=
  ∀ scope, scope ≠ globalScope → ∀ s ∈ c.body, Sited texts (scope :: c.env) (.stmt s)

/-- The method is sited, whatever scope its receiver is bound in. -/
def MethodSited (texts : List (List ResolvedStmt)) (c : Closure) : Prop :=
  ∀ receiver, receiver ≠ globalScope → ClosureSited texts { c with env := receiver :: c.env }

/-- The methods of the class and of its superclasses are sited. -/
def ClassSited (texts : List (List ResolvedStmt)) (d : Class) : Prop :=
  ∀ c ∈ d.lineage, ∀ name method, c.methods.find? name = some method → MethodSited texts method

/-- The code that the value holds is sited. -/
def ValueSited (texts : List (List ResolvedStmt)) : Value → Prop
  | .function _ c => ClosureSited texts c
  | .cls _ d => ClassSited texts d
  | .object _ d => ClassSited texts d
  | _ => True

/-- There is a global scope, and all that the store holds is sited. -/
structure StoreSited (texts : List (List ResolvedStmt)) (s : Store Value) : Prop where
  global : globalScope < s.scopes.size
  bound : ∀ scope name v, (s.bindings scope).find? name = some v → ValueSited texts v
  fields : ∀ object name v, (s.fields object).find? name = some v → ValueSited texts v

/-- What the event takes up is sited, and so is the store that it finds. -/
def Event.Sited (texts : List (List ResolvedStmt)) : Event → Prop
  | .evaluates ctx e store => Treewalk.Sited texts ctx.env (.expr e) ∧ StoreSited texts store
  | .executes ctx s store => Treewalk.Sited texts ctx.env (.stmt s) ∧ StoreSited texts store
  | .calls c _ => ClosureSited texts c
  | _ => True

/-! ### Later texts -/

section Later

variable {texts : List (List ResolvedStmt)} (more : List (List ResolvedStmt))

theorem Sited.append {env : Env} {ph : Code} (h : Sited texts env ph) :
    Sited (texts ++ more) env ph := by
  obtain ⟨a, zones, ha, henv⟩ := h
  exact ⟨a, zones, phraseIn_append ha more, henv⟩

theorem ClosureSited.append {c : Closure} (h : ClosureSited texts c) :
    ClosureSited (texts ++ more) c :=
  fun scope hscope s hs => (h scope hscope s hs).append more

theorem ClassSited.append {d : Class} (h : ClassSited texts d) : ClassSited (texts ++ more) d :=
  fun c hc name method hmethod receiver hreceiver =>
    (h c hc name method hmethod receiver hreceiver).append more

theorem ValueSited.append {v : Value} (h : ValueSited texts v) : ValueSited (texts ++ more) v := by
  cases v with
  | function id c => exact ClosureSited.append more h
  | cls id d => exact ClassSited.append more h
  | object id d => exact ClassSited.append more h
  | _ => trivial

theorem StoreSited.append {s : Store Value} (h : StoreSited texts s) :
    StoreSited (texts ++ more) s :=
  ⟨h.global, fun scope name v hv => (h.bound scope name v hv).append more,
    fun object name v hv => (h.fields object name v hv).append more⟩

theorem Event.Sited.append {e : Event} (h : e.Sited texts) : e.Sited (texts ++ more) := by
  cases e with
  | evaluates ctx e store => exact ⟨h.1.append more, h.2.append more⟩
  | executes ctx s store => exact ⟨h.1.append more, h.2.append more⟩
  | calls c args => exact ClosureSited.append more h
  | _ => trivial

end Later

/-! ### Parts -/

namespace Sited

variable {texts : List (List ResolvedStmt)} {env : Env} {ph inner : Code}

theorem part (h : Sited texts env ph) (hpart : ([], inner) ∈ ph.parts) : Sited texts env inner := by
  obtain ⟨a, zones, ha, henv⟩ := h
  obtain ⟨i, hi⟩ := phraseIn_part ha hpart
  exact ⟨_, zones, hi, henv⟩

theorem body (h : Sited texts env ph) (hpart : ([.body], inner) ∈ ph.parts) {scope : ScopeId}
    (hscope : scope ≠ globalScope) : Sited texts (scope :: env) inner := by
  obtain ⟨a, zones, ha, henv⟩ := h
  obtain ⟨i, hi⟩ := phraseIn_part ha hpart
  exact ⟨_, .body :: zones, hi, .body henv hscope⟩

/-- The methods of a class are sited in the environment that they are created in. -/
theorem methods {name : Name} {methods : List ResolvedFun}
    (h : Sited texts env (.stmt (.classDecl name none methods))) {decl : ResolvedFun}
    (hdecl : decl ∈ methods) : MethodSited texts (methodClosure env decl) := by
  intro receiver hreceiver scope hscope s hs
  obtain ⟨a, zones, ha, henv⟩ := h
  have hpart : ([Zone.method ⟨name, none, methods⟩ decl], Code.stmt s) ∈
      (Code.stmt (.classDecl name none methods)).parts :=
    List.mem_flatMap.mpr ⟨decl, hdecl, List.mem_map.mpr ⟨s, hs, rfl⟩⟩
  obtain ⟨i, hi⟩ := phraseIn_part ha hpart
  exact ⟨_, _, hi, .method henv hreceiver hscope⟩

/-- Those of a subclass are created in a scope of their own. -/
theorem submethods {name : Name} {superclass : Name × Distance} {methods : List ResolvedFun}
    (h : Sited texts env (.stmt (.classDecl name (some superclass) methods))) {above : ScopeId}
    (habove : above ≠ globalScope) {decl : ResolvedFun} (hdecl : decl ∈ methods) :
    MethodSited texts (methodClosure (above :: env) decl) := by
  intro receiver hreceiver scope hscope s hs
  obtain ⟨a, zones, ha, henv⟩ := h
  have hpart : ([Zone.method ⟨name, some superclass, methods⟩ decl], Code.stmt s) ∈
      (Code.stmt (.classDecl name (some superclass) methods)).parts :=
    List.mem_flatMap.mpr ⟨decl, hdecl, List.mem_map.mpr ⟨s, hs, rfl⟩⟩
  obtain ⟨i, hi⟩ := phraseIn_part ha hpart
  exact ⟨_, _, hi, .submethod henv habove hreceiver hscope⟩

end Sited

/-! ### What acceptance tells of a site -/

/-- Resolution leaves the declared names as they are. -/
theorem AcceptedStmt.declares_eq {P : Enclosing} {S : ScopeNames} : {source : SourceStmt} →
    {s : ResolvedStmt} → AcceptedStmt P S source s → s.declares = source.declares
  | _, _, .expression _ | _, _, .print _ | _, _, .var _ | _, _, .varInit _ _ | _, _, .block _
  | _, _, .ret _ | _, _, .retValue _ _ _ | _, _, .classDecl _ _ | _, _, .subclassDecl _ _ _ _ => rfl
  | _, _, .function _ (.mk _ _) => rfl
  | _, _, .branch _ ha _ => ha.declares_eq
  | _, _, .branchElse _ ha hb _ _ => by
    unfold Stmt.declares
    rw [ha.declares_eq, hb.declares_eq]
  | _, _, .loop _ hbody _ => hbody.declares_eq

namespace Sited

variable {texts : List (List ResolvedStmt)} {env : Env}

/-- An assignment to a local name changes a local scope. -/
theorem assign (htexts : ∀ program ∈ texts, AcceptedProgram program) {name : Name} {d : Nat}
    {value : ResolvedExpr} (h : Sited texts env (.expr (.assign name (some d) value))) :
    ∃ scope, Store.scopeAt env d = .ok scope ∧ scope ≠ globalScope := by
  obtain ⟨address, zones, hfound, henv⟩ := h
  obtain ⟨P, S, hzones, source, hacc⟩ := acceptedIn_of_phraseIn htexts hfound
  cases hacc with
  | assign _ _ hd => exact henv.scopeAt hzones hd

/-- The branches of a choice declare nothing around them. -/
theorem branch (htexts : ∀ program ∈ texts, AcceptedProgram program) {condition : ResolvedExpr}
    {onTrue : ResolvedStmt} {onFalse : Option ResolvedStmt}
    (h : Sited texts env (.stmt (.branch condition onTrue onFalse))) :
    onTrue.declares = [] ∧ ∀ s, onFalse = some s → s.declares = [] := by
  obtain ⟨address, zones, hfound, henv⟩ := h
  obtain ⟨P, S, hzones, source, hacc⟩ := acceptedIn_of_phraseIn htexts hfound
  cases hacc with
  | branch _ ha hplain => exact ⟨ha.declares_eq.trans hplain, nofun⟩
  | branchElse _ ha hb hplain hplain' =>
    refine ⟨ha.declares_eq.trans hplain, ?_⟩
    rintro s ⟨⟩
    exact hb.declares_eq.trans hplain'

/-- The body of a loop declares nothing around it. -/
theorem loop (htexts : ∀ program ∈ texts, AcceptedProgram program) {condition : ResolvedExpr}
    {body : ResolvedStmt} (h : Sited texts env (.stmt (.loop condition body))) :
    body.declares = [] := by
  obtain ⟨address, zones, hfound, henv⟩ := h
  obtain ⟨P, S, hzones, source, hacc⟩ := acceptedIn_of_phraseIn htexts hfound
  cases hacc with
  | loop _ hbody hplain => exact hbody.declares_eq.trans hplain

end Sited

/-! ### Changes of the store -/

namespace StoreSited

variable {texts : List (List ResolvedStmt)} {s : Store Value}

theorem bind (hs : StoreSited texts s) (scope : ScopeId) (name : String) {v : Value}
    (hv : ValueSited texts v) : StoreSited texts (s.bind scope name v) := by
  by_cases hscope : scope < s.scopes.size
  · refine ⟨by simpa using hs.global, ?_, hs.fields⟩
    intro other key w hw
    rw [s.find?_bind hscope] at hw
    split at hw
    · cases hw
      exact hv
    · exact hs.bound other key w hw
  · rw [Store.bind_of_ge hscope]
    exact hs

theorem setField (hs : StoreSited texts s) (object : Nat) (name : String) {v : Value}
    (hv : ValueSited texts v) : StoreSited texts (s.setField object name v) := by
  refine ⟨hs.global, hs.bound, ?_⟩
  intro other key w hw
  rw [s.fields_setField] at hw
  split at hw
  · rw [Table.find?_insert] at hw
    split at hw
    · cases hw
      exact hv
    · exact hs.fields other key w hw
  · exact hs.fields other key w hw

theorem extend (hs : StoreSited texts s) (env : Env) : StoreSited texts (s.extend env).2 := by
  refine ⟨?_, ?_, hs.fields⟩
  · rw [s.size_extend]
    exact Nat.lt_succ_of_lt hs.global
  · intro scope name v hv
    rw [s.bindings_extend] at hv
    exact hs.bound scope name v hv

theorem newObject (hs : StoreSited texts s) : StoreSited texts s.newObject.2 := by
  refine ⟨hs.global, hs.bound, ?_⟩
  intro object name v hv
  rw [s.fields_newObject] at hv
  exact hs.fields object name v hv

theorem identity (hs : StoreSited texts s) : StoreSited texts s.identity.2 :=
  ⟨hs.global, hs.bound, hs.fields⟩

end StoreSited

/-- A method that a sited class finds is sited. -/
theorem ClassSited.findMethod? {texts : List (List ResolvedStmt)} {d : Class}
    (hd : ClassSited texts d) {name : String} {c : Closure} (hc : d.findMethod? name = some c) :
    MethodSited texts c := by
  rw [findMethod?_eq] at hc
  obtain ⟨d', hd', hfound⟩ := List.exists_of_findSome?_eq_some hc
  exact hd d' hd' name c hfound

end Treewalk
