import Treewalk.Proofs.Session.Provenance

/-! # Where globals come from

    A name becomes a global by a declaration at the top level of a text, and by nothing
    else.  `Binds` says when such a declaration comes to bind its name, `Reaches` which
    statements of a text a run comes to, and `Interprets` which texts.  Everything else
    that a run takes up leaves the names of the global scope as they are. -/

namespace Treewalk

/-! ### What leaves the globals alone -/

section Quiet

variable {texts : List (List ResolvedStmt)} {m : Machine}

/-- An expression leaves the global names as they are, whether it yields a value or not. -/
theorem globals_expr (ctx : Context) (htexts : ∀ program ∈ texts, AcceptedProgram program)
    (hstore : StoreSited texts m.store) {e : ResolvedExpr}
    (hsited : Sited texts ctx.env (.expr e)) (rounds n : Nat) :
    StoreSited texts (machineOf (Eval.expr rounds n ctx e m)).store ∧
      (machineOf (Eval.expr rounds n ctx e m)).globals = m.globals := by
  have hstays := (stays_walk htexts rounds n).1 ctx e (m, []) True ⟨hstore, nofun⟩ hsited
  obtain ⟨hend, hglobals⟩ := hstays.outcome
  rw [(erases_walk rounds n).1 ctx e m []] at hend hglobals
  exact ⟨hend.store, hglobals trivial⟩

/-- A statement that declares no global leaves the global names as they are. -/
theorem globals_stmt (ctx : Context) (htexts : ∀ program ∈ texts, AcceptedProgram program)
    (hstore : StoreSited texts m.store) {t : ResolvedStmt}
    (hsited : Sited texts ctx.env (.stmt t)) (rounds n : Nat) :
    StoreSited texts (machineOf (Eval.stmt rounds n ctx t m)).store ∧
      (Quiet ctx.env t → (machineOf (Eval.stmt rounds n ctx t m)).globals = m.globals) := by
  have hstays := (stays_walk htexts rounds n).2 ctx t (m, []) ⟨hstore, nofun⟩ hsited
  obtain ⟨hend, hglobals⟩ := hstays.outcome
  rw [(erases_walk rounds n).2 ctx t m []] at hend hglobals
  exact ⟨hend.store, hglobals⟩

/-- What the event takes up, and leaves behind however it ends, does not change the
    global names, unless it is a declaration at top level. -/
def Event.LeavesGlobals (rounds : Nat) : Event → Prop
  | .evaluates ctx e store => ∀ n m, m.store = store →
    (machineOf (Eval.expr rounds n ctx e m)).globals = m.globals
  | .executes ctx t store => (ctx.env = globalEnv → t.declares = []) → ∀ n m, m.store = store →
    (machineOf (Eval.stmt rounds n ctx t m)).globals = m.globals
  | _ => True

/-- Only the global environment has the global scope first. -/
theorem EnvFits.eq_globalEnv {zones : List Zone} {env : Env} (h : EnvFits zones env)
    (hhead : env.head? = some globalScope) : env = globalEnv := by
  cases h with
  | top => rfl
  | body _ hscope => exact absurd hhead (head?_ne_global hscope _)
  | method _ _ hscope => exact absurd hhead (head?_ne_global hscope _)
  | submethod _ _ _ hscope => exact absurd hhead (head?_ne_global hscope _)

theorem Event.Sited.leavesGlobals (htexts : ∀ program ∈ texts, AcceptedProgram program)
    {event : Event} (h : event.Sited texts) (rounds : Nat) : event.LeavesGlobals rounds := by
  cases event with
  | evaluates ctx e store =>
    rintro n m rfl
    exact (globals_expr ctx htexts h.2 h.1 rounds n).2
  | executes ctx t store =>
    rintro hplain n m rfl
    refine (globals_stmt ctx htexts h.2 h.1 rounds n).2 fun hhead => hplain ?_
    obtain ⟨a, zones, -, henv⟩ := h.1
    exact henv.eq_globalEnv hhead
  | _ => trivial

end Quiet

/-! ### What binds a global -/

/-- A statement that is taken up in a state comes to bind a name: a variable when its
    initializer has a value, a function at once, and a class when its superclass has
    been found to be one. -/
inductive Binds (limits : Limits) (ctx : Context) (m : Machine) : ResolvedStmt → String → Prop
  | var {n name} : limits.nesting = n + 1 → Binds limits ctx m (.var name none) name.text
  | varInit {n name e v m'} : limits.nesting = n + 1 →
      Eval.expr limits.rounds n ctx e m = .ok v m' →
      Binds limits ctx m (.var name (some e)) name.text
  | function {n decl} : limits.nesting = n + 1 →
      Binds limits ctx m (.function decl) decl.name.text
  | classDecl {n name methods} : limits.nesting = n + 1 →
      Binds limits ctx m (.classDecl name none methods) name.text
  | subclassDecl {n name superName use methods id d m'} : limits.nesting = n + 1 →
      Eval.lookUp ctx superName use m = .ok (.cls id d) m' →
      Binds limits ctx m (.classDecl name (some (superName, use)) methods) name.text

/-- Only a declaration binds a name. -/
theorem Binds.declares {limits : Limits} {ctx : Context} {m : Machine} {t : ResolvedStmt}
    {x : String} (h : Binds limits ctx m t x) : t.declares = [x] := by
  cases h <;> rfl

theorem Binds.iff_eq {limits : Limits} {ctx : Context} {m : Machine} {t : ResolvedStmt}
    {name : String} (h : Binds limits ctx m t name) (x : String) :
    Binds limits ctx m t x ↔ x = name := by
  constructor
  · intro hx
    have heq : [x] = [name] := hx.declares.symm.trans h.declares
    exact (List.cons.inj heq).1
  · rintro rfl
    exact h

theorem mem_globals_define {m : Machine} (hglobal : globalScope < m.store.scopes.size)
    (name : String) (v : Value) (x : String) :
    x ∈ ((m.store.define globalEnv name v).bindings globalScope).names ↔
      x ∈ m.globals ∨ x = name := by
  show x ∈ ((m.store.bind globalScope name v).bindings globalScope).names ↔ _
  rw [m.store.bindings_bind hglobal, if_pos rfl, Table.names_insert]
  unfold Machine.globals
  split
  · next hmem =>
    constructor
    · exact .inl
    · rintro (h | rfl)
      · exact h
      · exact hmem
  · simp

theorem mem_globals_createClass {m : Machine} (hglobal : globalScope < m.store.scopes.size)
    (name : String) (d : Class) (x : String) :
    x ∈ (machineOf ((do
      Eval.define globalEnv name .nil
      let id ← Eval.updateStore (·.identity)
      Eval.define globalEnv name (.cls id d) : Eval Unit) m)).globals ↔
      x ∈ m.globals ∨ x = name := by
  let m₁ : Machine := { m with store := (m.store.define globalEnv name .nil).identity.2 }
  have hglobal₁ : globalScope < m₁.store.scopes.size := by
    show globalScope < (m.store.bind globalScope name .nil).scopes.size
    rwa [Store.size_bind]
  show x ∈ ((m₁.store.define globalEnv name _).bindings globalScope).names ↔ _
  rw [mem_globals_define hglobal₁]
  show x ∈ ((m.store.define globalEnv name .nil).bindings globalScope).names ∨ _ ↔ _
  rw [mem_globals_define hglobal, or_assoc, or_self]

section TopLevel

variable {texts : List (List ResolvedStmt)} {m : Machine} {limits : Limits} {frames : List Frame}
  {n : Nat} {x : String}

theorem globals_var (htexts : ∀ program ∈ texts, AcceptedProgram program)
    (hstore : StoreSited texts m.store) {name : Name} {initial : Option ResolvedExpr}
    (hsited : Sited texts globalEnv (.stmt (.var name initial))) (hn : limits.nesting = n + 1) :
    x ∈ (machineOf (Eval.stmt limits.rounds (n + 1) ⟨globalEnv, frames⟩ (.var name initial) m)).globals
      ↔ x ∈ m.globals ∨ Binds limits ⟨globalEnv, frames⟩ m (.var name initial) x := by
  cases initial with
  | none =>
    rw [(Binds.var hn).iff_eq]
    exact mem_globals_define hstore.global name.text .nil x
  | some e =>
    have he : Sited texts globalEnv (.expr e) := hsited.part List.mem_cons_self
    obtain ⟨hstore₁, hsame⟩ := globals_expr ⟨globalEnv, frames⟩ htexts hstore he limits.rounds n
    unfold Eval.stmt
    cases hrun : Eval.expr limits.rounds n ⟨globalEnv, frames⟩ e m with
    | error cut m₁ =>
      rw [hrun] at hsame
      have hnone : ¬ Binds limits ⟨globalEnv, frames⟩ m (.var name (some e)) x := by
        rintro (_ | ⟨hn', hok⟩)
        cases hn.symm.trans hn'
        cases hrun.symm.trans hok
      simp only [bind_of_error hrun, hnone, or_false]
      rw [← hsame]
      rfl
    | ok v m₁ =>
      rw [hrun] at hsame hstore₁
      rw [(Binds.varInit hn hrun).iff_eq]
      simp only [bind_of_ok hrun]
      rw [← hsame]
      exact mem_globals_define hstore₁.global name.text v x

theorem globals_function (hstore : StoreSited texts m.store) (decl : ResolvedFun)
    (hn : limits.nesting = n + 1) :
    x ∈ (machineOf (Eval.stmt limits.rounds (n + 1) ⟨globalEnv, frames⟩ (.function decl) m)).globals
      ↔ x ∈ m.globals ∨ Binds limits ⟨globalEnv, frames⟩ m (.function decl) x := by
  rw [(Binds.function hn).iff_eq]
  let m₁ : Machine := { m with store := m.store.identity.2 }
  have hglobal₁ : globalScope < m₁.store.scopes.size := hstore.global
  exact mem_globals_define hglobal₁ decl.name.text _ x

/-- The scope of a superclass is a new one, so it has no part in the globals. -/
theorem mem_globals_createSubclass {m : Machine} (hglobal : globalScope < m.store.scopes.size)
    (name : String) (super v : Value) (x : String) :
    let opened := (m.store.define globalEnv name .nil).extend globalEnv
    x ∈ ((((opened.2.define opened.1 Keyword.superWord.text super).identity.2.define globalEnv name
        v)).bindings globalScope).names ↔ x ∈ m.globals ∨ x = name := by
  intro opened
  let m₁ : Machine :=
    { m with store := (opened.2.define opened.1 Keyword.superWord.text super).identity.2 }
  have hsize : m.store.scopes.size < opened.2.scopes.size := by
    show m.store.scopes.size < ((m.store.bind globalScope name .nil).extend globalEnv).2.scopes.size
    rw [Store.size_extend, Store.size_bind]
    exact Nat.lt_succ_self _
  have hglobal₁ : globalScope < m₁.store.scopes.size := by
    show globalScope < (opened.2.bind (m.store.bind globalScope name .nil).scopes.size
      Keyword.superWord.text super).scopes.size
    rw [Store.size_bind]
    exact Nat.lt_trans hglobal hsize
  have hsame : m₁.globals = ((m.store.define globalEnv name .nil).bindings globalScope).names := by
    show ((opened.2.bind (m.store.bind globalScope name .nil).scopes.size
      Keyword.superWord.text super).bindings globalScope).names = _
    rw [Store.size_bind, Store.bindings_bind _ hsize, if_neg (Nat.ne_of_lt hglobal),
      Store.bindings_extend]
  show x ∈ ((m₁.store.define globalEnv name v).bindings globalScope).names ↔ _
  rw [mem_globals_define hglobal₁, hsame, mem_globals_define hglobal, or_assoc, or_self]

theorem globals_classDecl (hstore : StoreSited texts m.store) (name : Name)
    (superclass : Option (Name × Distance)) (methods : List ResolvedFun)
    (hn : limits.nesting = n + 1) :
    x ∈ (machineOf (Eval.stmt limits.rounds (n + 1) ⟨globalEnv, frames⟩
        (.classDecl name superclass methods) m)).globals ↔
      x ∈ m.globals ∨
        Binds limits ⟨globalEnv, frames⟩ m (.classDecl name superclass methods) x := by
  cases superclass with
  | none =>
    rw [(Binds.classDecl hn).iff_eq]
    exact mem_globals_createClass hstore.global name.text _ x
  | some use =>
    obtain ⟨superName, use⟩ := use
    have hobserve := @Observes.lookUp ⟨globalEnv, frames⟩ superName use m
    -- nothing is bound before the superclass has been found
    have hmissed {m₁ : Machine} (hm₁ : m₁.store = m.store)
        (hno : ∀ id d m', Eval.lookUp ⟨globalEnv, frames⟩ superName use m ≠ .ok (.cls id d) m') :
        x ∈ m₁.globals ↔ x ∈ m.globals ∨ Binds limits ⟨globalEnv, frames⟩ m
          (.classDecl name (some (superName, use)) methods) x := by
      have hnone : ¬ Binds limits ⟨globalEnv, frames⟩ m
          (.classDecl name (some (superName, use)) methods) x := by
        rintro (_ | _ | _ | _ | ⟨_, hok⟩)
        exact hno _ _ _ hok
      unfold Machine.globals
      rw [hm₁]
      simp only [hnone, or_false]
    unfold Eval.stmt Eval.declareClass
    simp only [bind_assoc]
    cases hrun : Eval.lookUp ⟨globalEnv, frames⟩ superName use m with
    | error cut m₁ =>
      rw [hrun] at hobserve
      rw [bind_of_error hrun]
      refine hmissed hobserve fun id d m' hok => ?_
      cases hrun.symm.trans hok
    | ok v m₁ =>
      rw [hrun] at hobserve
      obtain ⟨hm₁, -⟩ := hobserve
      rw [bind_of_ok hrun]
      cases v with
      | cls id d =>
        rw [(Binds.subclassDecl hn hrun).iff_eq]
        have hglobal₁ : globalScope < m₁.store.scopes.size := by
          rw [hm₁]
          exact hstore.global
        have hsame : m₁.globals = m.globals := by
          unfold Machine.globals
          rw [hm₁]
        rw [← hsame]
        exact mem_globals_createSubclass hglobal₁ name.text _ _ x
      | _ =>
        refine hmissed hm₁ fun id d m' hok => ?_
        cases hrun.symm.trans hok

/-- After a statement at top level there are the globals from before, and what it binds. -/
theorem globals_topLevel (htexts : ∀ program ∈ texts, AcceptedProgram program)
    (hstore : StoreSited texts m.store) {t : ResolvedStmt}
    (hsited : Sited texts globalEnv (.stmt t)) :
    x ∈ (machineOf (Eval.stmt limits.rounds limits.nesting ⟨globalEnv, frames⟩ t m)).globals ↔
      x ∈ m.globals ∨ Binds limits ⟨globalEnv, frames⟩ m t x := by
  -- a statement that declares nothing binds nothing
  have hquiet (hplain : t.declares = []) :
      x ∈ (machineOf (Eval.stmt limits.rounds limits.nesting ⟨globalEnv, frames⟩ t m)).globals ↔
        x ∈ m.globals ∨ Binds limits ⟨globalEnv, frames⟩ m t x := by
    have hsame := (globals_stmt ⟨globalEnv, frames⟩ htexts hstore hsited limits.rounds
      limits.nesting).2 fun _ => hplain
    have hnone : ¬ Binds limits ⟨globalEnv, frames⟩ m t x := by
      intro hbinds
      rw [hbinds.declares] at hplain
      cases hplain
    rw [hsame]
    simp only [hnone, or_false]
  cases hn : limits.nesting with
  | zero =>
    have hnone : ¬ Binds limits ⟨globalEnv, frames⟩ m t x := by
      intro hbinds
      cases hbinds with
      | var hn' | varInit hn' _ | function hn' | classDecl hn' | subclassDecl hn' _ =>
        cases hn.symm.trans hn'
    simp only [hnone, or_false]
    rfl
  | succ n =>
    rw [hn] at hquiet
    cases t with
    | var name initial => exact globals_var htexts hstore hsited hn
    | function decl => exact globals_function hstore decl hn
    | classDecl name superclass methods =>
      exact globals_classDecl hstore name superclass methods hn
    | branch condition onTrue onFalse =>
      obtain ⟨hplain, hplain'⟩ := hsited.branch htexts
      cases onFalse with
      | none => exact hquiet hplain
      | some t =>
        refine hquiet ?_
        unfold Stmt.declares
        rw [hplain, hplain' t rfl]
        rfl
    | loop condition body => exact hquiet (hsited.loop htexts)
    | _ => exact hquiet rfl

end TopLevel

/-! ### Programs -/

/-- A statement at top level comes to its end. -/
inductive Concludes (limits : Limits) (ctx : Context) :
    Machine → ResolvedStmt → Machine → Prop
  | expression {e v m m'} : Eval.expr limits.rounds limits.nesting ctx e m = .ok v m' →
      Concludes limits ctx m (.expression e) m'
  | statement {t c m m'} : t.isExpression = false →
      Eval.stmt limits.rounds limits.nesting ctx t m = .ok c m' → Concludes limits ctx m t m'

/-- A run of some statements that begins in a state comes to one of them: all before it
    have come to their ends. -/
inductive Reaches (limits : Limits) (ctx : Context) :
    Machine → List ResolvedStmt → Machine → ResolvedStmt → Prop
  | first {m t ts} : Reaches limits ctx m (t :: ts) m t
  | next {m m₁ m' t t' ts} : Concludes limits ctx m t m₁ → Reaches limits ctx m₁ ts m' t' →
      Reaches limits ctx m (t :: ts) m' t'

section Programs

variable {texts : List (List ResolvedStmt)} {m : Machine} {limits : Limits} {x : String}

/-- The run of some statements comes to one that binds the name. -/
def DeclaresIn (limits : Limits) (ctx : Context) (m : Machine) (program : List ResolvedStmt)
    (x : String) : Prop :=
  ∃ m' t, Reaches limits ctx m program m' t ∧ Binds limits ctx m' t x

theorem declaresIn_cons {ctx : Context} {t : ResolvedStmt} {ts : List ResolvedStmt} :
    DeclaresIn limits ctx m (t :: ts) x ↔
      Binds limits ctx m t x ∨ ∃ m₁, Concludes limits ctx m t m₁ ∧ DeclaresIn limits ctx m₁ ts x := by
  constructor
  · rintro ⟨m', t', hreaches, hbinds⟩
    cases hreaches with
    | first => exact .inl hbinds
    | next hends hreaches => exact .inr ⟨_, hends, m', t', hreaches, hbinds⟩
  · rintro (hbinds | ⟨m₁, hends, m', t', hreaches, hbinds⟩)
    · exact ⟨m, t, .first, hbinds⟩
    · exact ⟨m', t', .next hends hreaches, hbinds⟩

/-- The outcome of a statement at top level. -/
structure TopLevelOutcome {α : Type} (texts : List (List ResolvedStmt)) (limits : Limits)
    (ctx : Context) (m : Machine) (t : ResolvedStmt) (out : EStateM.Result Abort Machine α) :
    Prop where
  store : StoreSited texts (machineOf out).store
  globals : ∀ x, x ∈ (machineOf out).globals ↔ x ∈ m.globals ∨ Binds limits ctx m t x
  concludes : ∀ m₁, Concludes limits ctx m t m₁ ↔ ∃ a, out = .ok a m₁

theorem topLevelOutcome_expression (limits : Limits) (frames : List Frame)
    (htexts : ∀ program ∈ texts, AcceptedProgram program)
    (hstore : StoreSited texts m.store) {e : ResolvedExpr}
    (hsited : Sited texts globalEnv (.stmt (.expression e))) :
    TopLevelOutcome texts limits ⟨globalEnv, frames⟩ m (.expression e)
      (Eval.expr limits.rounds limits.nesting ⟨globalEnv, frames⟩ e m) := by
  have he : Sited texts globalEnv (.expr e) := hsited.part List.mem_cons_self
  obtain ⟨hstore₁, hsame⟩ := globals_expr ⟨globalEnv, frames⟩ htexts hstore he limits.rounds
    limits.nesting
  refine ⟨hstore₁, fun x => ?_, fun m₁ => ⟨?_, ?_⟩⟩
  · have hnone : ¬ Binds limits ⟨globalEnv, frames⟩ m (.expression e) x := nofun
    rw [hsame]
    simp only [hnone, or_false]
  · rintro (hrun | ⟨hnot, -⟩)
    · exact ⟨_, hrun⟩
    · cases hnot
  · rintro ⟨v, hrun⟩
    exact .expression hrun

theorem topLevelOutcome_statement (limits : Limits) (frames : List Frame)
    (htexts : ∀ program ∈ texts, AcceptedProgram program)
    (hstore : StoreSited texts m.store) {t : ResolvedStmt} (ht : t.isExpression = false)
    (hsited : Sited texts globalEnv (.stmt t)) :
    TopLevelOutcome texts limits ⟨globalEnv, frames⟩ m t
      (Eval.stmt limits.rounds limits.nesting ⟨globalEnv, frames⟩ t m) := by
  have hstore₁ := (globals_stmt ⟨globalEnv, frames⟩ htexts hstore hsited limits.rounds
    limits.nesting).1
  refine ⟨hstore₁, fun x => globals_topLevel htexts hstore hsited, fun m₁ => ⟨?_, ?_⟩⟩
  · rintro (_ | ⟨-, hrun⟩)
    · cases ht
    · exact ⟨_, hrun⟩
  · rintro ⟨c, hrun⟩
    exact .statement ht hrun

/-- What follows a statement at top level, if it comes to its end. -/
theorem TopLevelOutcome.rest {α : Type} {ctx : Context} {t : ResolvedStmt}
    {ts : List ResolvedStmt} {step : Eval α} {after : α → Eval Value}
    (hstep : TopLevelOutcome texts limits ctx m t (step m))
    (hafter : ∀ a m₁, StoreSited texts m₁.store →
      (x ∈ (machineOf (after a m₁)).globals ↔ x ∈ m₁.globals ∨ DeclaresIn limits ctx m₁ ts x)) :
    x ∈ (machineOf ((step >>= after) m)).globals ↔
      x ∈ m.globals ∨ DeclaresIn limits ctx m (t :: ts) x := by
  obtain ⟨hstore, hglobals, hconcludes⟩ := hstep
  rw [declaresIn_cons, ← or_assoc, ← hglobals x]
  cases hrun : step m with
  | error cut m₁ =>
    rw [hrun] at hconcludes
    have hnone : ¬ ∃ m₁, Concludes limits ctx m t m₁ ∧ DeclaresIn limits ctx m₁ ts x := by
      rintro ⟨m₂, hends, -⟩
      obtain ⟨a, heq⟩ := (hconcludes m₂).mp hends
      cases heq
    rw [bind_of_error hrun]
    simp only [hnone, or_false]
    rfl
  | ok a m₁ =>
    rw [hrun] at hconcludes hstore
    have hone : (∃ m₁, Concludes limits ctx m t m₁ ∧ DeclaresIn limits ctx m₁ ts x) ↔
        DeclaresIn limits ctx m₁ ts x := by
      constructor
      · rintro ⟨m₂, hends, hdeclares⟩
        obtain ⟨b, heq⟩ := (hconcludes m₂).mp hends
        cases heq
        exact hdeclares
      · exact fun hdeclares => ⟨m₁, (hconcludes m₁).mpr ⟨a, rfl⟩, hdeclares⟩
    rw [bind_of_ok hrun, hafter a m₁ hstore, hone]
    rfl

/-- After a program there are the globals from before, and what the statements bind that
    it came to. -/
theorem globals_program (limits : Limits) (frames : List Frame)
    (htexts : ∀ program ∈ texts, AcceptedProgram program)
    (hstore : StoreSited texts m.store) {program : List ResolvedStmt}
    (hsited : ∀ t ∈ program, Sited texts globalEnv (.stmt t)) (last : Value) :
    x ∈ (machineOf (Eval.program limits ⟨globalEnv, frames⟩ program last m)).globals ↔
      x ∈ m.globals ∨ DeclaresIn limits ⟨globalEnv, frames⟩ m program x := by
  induction program generalizing m last with
  | nil =>
    have hnone : ¬ DeclaresIn limits ⟨globalEnv, frames⟩ m [] x := by
      rintro ⟨m', t, hreaches, -⟩
      cases hreaches
    simp only [hnone, or_false]
    rfl
  | cons t program ih =>
    obtain ⟨ht, hrest⟩ := List.forall_mem_cons.mp hsited
    cases t with
    | expression e =>
      have hstep := topLevelOutcome_expression limits frames htexts hstore ht
      exact hstep.rest fun v m₁ hstore₁ => ih hstore₁ hrest v
    | _ =>
      have hstep := topLevelOutcome_statement limits frames htexts hstore rfl ht
      exact hstep.rest fun _ m₁ hstore₁ => ih hstore₁ hrest .nil

theorem storeSited_program (limits : Limits) (frames : List Frame)
    (htexts : ∀ program ∈ texts, AcceptedProgram program)
    (hstore : StoreSited texts m.store) {program : List ResolvedStmt}
    (hsited : ∀ t ∈ program, Sited texts globalEnv (.stmt t)) (last : Value) :
    StoreSited texts
      (machineOf (Eval.program limits ⟨globalEnv, frames⟩ program last m)).store := by
  have hsite : OnSite texts (m, []) := ⟨hstore, nofun⟩
  have hstays := stays_program htexts limits ⟨globalEnv, frames⟩ last hsite hsited
  have hend := hstays.outcome.1.store
  rw [erases_program] at hend
  exact hend

end Programs

/-! ### Sessions -/

/-- A run of some entries that begins in a session comes to one of them: all before it
    have come to their ends. -/
inductive Interprets : Session → List Entry → Session → Entry → Prop
  | first {s entry entries} : Interprets s (entry :: entries) s entry
  | next {s s₁ s' entry entry' entries} : s.runEntry entry = (s₁, none) →
      Interprets s₁ entries s' entry' → Interprets s (entry :: entries) s' entry'

/-- The run of some entries comes to a statement that binds the name. -/
def Session.Declares (s : Session) (entries : List Entry) (x : String) : Prop :=
  ∃ s' entry, Interprets s entries s' entry ∧
    DeclaresIn s'.limits ⟨s'.env, s'.frames⟩ s'.machine entry.statements x

section Sessions

variable {texts : List (List ResolvedStmt)} {s : Session} {x : String}

theorem declares_cons {entry : Entry} {entries : List Entry} :
    s.Declares (entry :: entries) x ↔
      DeclaresIn s.limits ⟨s.env, s.frames⟩ s.machine entry.statements x ∨
        ∃ s₁, s.runEntry entry = (s₁, none) ∧ s₁.Declares entries x := by
  constructor
  · rintro ⟨s', entry', hinterprets, hdeclares⟩
    cases hinterprets with
    | first => exact .inl hdeclares
    | next hrun hinterprets => exact .inr ⟨_, hrun, s', entry', hinterprets, hdeclares⟩
  · rintro (hdeclares | ⟨s₁, hrun, s', entry', hinterprets, hdeclares⟩)
    · exact ⟨s, entry, .first, hdeclares⟩
    · exact ⟨s', entry', .next hrun hinterprets, hdeclares⟩

/-- After some entries there are the globals from before, and what was declared in those
    that the run came to. -/
theorem globals_runEntries (htexts : ∀ program ∈ texts, AcceptedProgram program)
    (hstore : StoreSited texts s.machine.store) {entries : List Entry}
    (hentries : ∀ entry ∈ entries, entry.statements ∈ texts) :
    x ∈ (s.runEntries entries).1.machine.globals ↔
      x ∈ s.machine.globals ∨ s.Declares entries x := by
  induction entries generalizing s with
  | nil =>
    have hnone : ¬ s.Declares [] x := by
      rintro ⟨s', entry, hinterprets, -⟩
      cases hinterprets
    simp only [hnone, or_false]
    rfl
  | cons entry entries ih =>
    obtain ⟨hentry, hrest⟩ := List.forall_mem_cons.mp hentries
    have hsited := sited_of_mem hentry
    have hmachine : (s.runEntry entry).1.machine = machineOf
        (Eval.program s.limits ⟨globalEnv, s.frames⟩ entry.statements .nil s.machine) := by
      rw [s.runEntry_eq]
      exact (s.finish_keeps entry _).1
    have hglobals : x ∈ _ ↔ _ := globals_program s.limits s.frames htexts hstore hsited .nil
    have hstore₁ := storeSited_program s.limits s.frames htexts hstore hsited .nil
    rw [← hmachine] at hglobals hstore₁
    rw [declares_cons, ← or_assoc]
    unfold Session.runEntries runInTurn
    generalize s.runEntry entry = ran at hglobals hstore₁
    obtain ⟨s₁, failure⟩ := ran
    cases failure with
    | none =>
      have hone : (∃ s', (s₁, none) = (s', (none : Option RunFailure)) ∧ s'.Declares entries x) ↔
          s₁.Declares entries x := by
        constructor
        · rintro ⟨s', heq, hdeclares⟩
          cases heq
          exact hdeclares
        · exact fun hdeclares => ⟨s₁, rfl, hdeclares⟩
      show x ∈ (s₁.runEntries entries).1.machine.globals ↔ _
      rw [hone, ih hstore₁ hrest, hglobals]
      rfl
    | some failure =>
      -- what follows a failure is not interpreted
      simp only [Prod.mk.injEq, reduceCtorEq, and_false, false_and, exists_false, or_false]
      exact hglobals

end Sessions

theorem mem_globalNames (m : Machine) (x : String) :
    x ∈ m.store.globalNames ↔ x ∈ m.globals := by
  unfold Store.globalNames Table.sortedNames
  exact (sortBy_perm _ _).mem_iff

/-- After a run, completed or cut short, the globals are those from before together with
    the names whose declarations at top level the run came to bind; and nothing else that
    any run takes up, in whatever way it ends, adds or removes one. -/
theorem only_declarations_make_globals (path : String) (interactive : Bool) (limits : Limits)
    (clock : Nat → Float) (actions : List Action) :
    let s := Session.reach path interactive limits clock actions
    (∀ x, x ∈ s.run.1.machine.store.globalNames ↔
      x ∈ s.machine.store.globalNames ∨ Session.Declares { s with queue := [] } s.queue x) ∧
    ∀ event ∈ (WatchedSession.reach path interactive limits clock (actions ++ [.run])).history,
      event.LeavesGlobals limits.rounds := by
  intro s
  have htexts := resolved_acceptedTexts interactive actions
  have hgrounded := WatchedSession.reach_grounded path interactive limits clock actions
  have hsession : (WatchedSession.reach path interactive limits clock actions).session = s :=
    WatchedSession.reach_erases path interactive limits clock actions
  refine ⟨fun x => ?_, fun event hevent => ?_⟩
  · have hstore := hgrounded.state.store
    have hqueue := hgrounded.queue
    rw [hsession] at hstore hqueue
    rw [mem_globalNames, mem_globalNames]
    have hempty : StoreSited _ (Session.machine { s with queue := [] }).store := hstore
    exact globals_runEntries htexts hempty hqueue
  · have hlater := WatchedSession.reach_grounded path interactive limits clock (actions ++ [.run])
    have htexts' := resolved_acceptedTexts interactive (actions ++ [.run])
    exact (hlater.state.events event hevent).leavesGlobals htexts' limits.rounds

end Treewalk
