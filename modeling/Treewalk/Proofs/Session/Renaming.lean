import Mathlib.Logic.Equiv.Basic
import Treewalk.Proofs.Renaming.Simulation
import Treewalk.Proofs.Session.Provenance

/-! # Local names do not matter

    A valid program stays valid if local variables and parameters are renamed to a name
    that does not occur in it.  In every session it does what it did before, and whatever
    is asked of the session afterwards shows the same.

    The runs are compared under the map of names that makes the two names change places.
    Earlier programs may use either of them, but their scopes are not picked. -/

namespace Treewalk

/-! ### Two names change places -/

section Swap

variable {x y : String}

theorem keepsApart_swap (hx : Unreserved x) (hy : Unreserved y) :
    KeepsApart (Equiv.swap x y) where
  injective h := (Equiv.swap x y).injective h
  keyword k := Equiv.swap_apply_of_ne_of_ne (Ne.symm (hx.ne_keyword k)) (Ne.symm (hy.ne_keyword k))

/-- Where `y` does not occur, the names change places if `x` is replaced. -/
theorem replace_eq_swap {z : String} (hz : z ≠ y) : replace x y z = Equiv.swap x y z := by
  rw [Equiv.swap_apply_def, if_neg hz]
  rfl

theorem renameStmts_replace {statements : List ResolvedStmt}
    (hfresh : Avoids y (namesOfStmts statements)) (picks : Picks) (Γ : Picked) :
    renameStmts (replace x y) picks Γ statements =
      renameStmts (Equiv.swap x y) picks Γ statements :=
  renameStmts_congr picks Γ statements fun z hz => replace_eq_swap (hfresh z hz)

end Swap

/-! ### Paired sessions -/

/-- The same failure.  Only the read of an unset variable may tell another name. -/
inductive PairedFailures : RunFailure → RunFailure → Prop
  | same {failure} : PairedFailures failure failure
  | unset {x y} : PairedFailures (.unset x) (.unset y)

/-- The same is seen, up to the names of unset variables. -/
inductive PairedObservations : Observation → Observation → Prop
  | added {refusal} : PairedObservations (.added refusal) (.added refusal)
  | ran {failure failure'} :
      Option.Rel PairedFailures failure failure' →
      PairedObservations (.ran failure) (.ran failure')
  | popped {shown} : PairedObservations (.popped shown) (.popped shown)
  | took {text} : PairedObservations (.took text) (.took text)

/-- Sessions that differ in their machines only, and these are paired. -/
structure PairedSessions (f : String → String) (M : Marking) (s s' : Session) : Prop where
  machine : PairedMachines f M s.machine s'.machine
  rest : ∃ machine, s' = { s with machine }

/-- Two runs end in the same way, in paired sessions. -/
structure PairedOutcomes (f : String → String) (p p' : Session × Option RunFailure) : Prop where
  sessions : ∃ M, PairedSessions f M p.1 p'.1
  failure : Option.Rel PairedFailures p.2 p'.2

/-- The entry with the variables of the picked scopes renamed. -/
def Entry.rename (f : String → String) (picks : Picks) (entry : Entry) : Entry :=
  ⟨renameStmts f picks [] entry.statements, entry.bare⟩

theorem Entry.rename_nowhere (f : String → String) (entry : Entry) :
    entry.rename f .nowhere = entry := by
  unfold Entry.rename
  rw [renameStmts_nowhere (List.forall_mem_nil _)]

section Pairing

variable {f : String → String} {M : Marking} {s s' : Session}

/-- Runs that are cut short in the same way. -/
theorem abort_paired (h : PairedSessions f M s s') {a a' : Abort} (ha : PairedAborts a a') :
    PairedOutcomes f ((s.abort a).1, some (s.abort a).2)
      ((s'.abort a').1, some (s'.abort a').2) := by
  obtain ⟨hmachine, machine, rfl⟩ := h
  obtain ⟨fault, frames⟩ := a
  obtain ⟨fault', _⟩ := a'
  obtain ⟨hfault, rfl⟩ := ha
  cases hfault with
  | unset => exact ⟨⟨M, hmachine, machine, rfl⟩, .some .unset⟩
  | same => cases fault <;> exact ⟨⟨M, hmachine, machine, rfl⟩, .some .same⟩

/-- An entry and its renaming are run alike. -/
theorem runEntry_paired (hf : KeepsApart f) (h : PairedSessions f M s s') (entry : Entry)
    (picks : Picks) : PairedOutcomes f (s.runEntry entry) (s'.runEntry (entry.rename f picks)) := by
  obtain ⟨hmachine, machine, rfl⟩ := h
  have henv : M.Fits [] (Context.mk globalEnv s.frames).env :=
    Marking.fits_global hmachine.store.global
  have hends := pairs_program hf s.limits henv picks entry.statements .nil _ _ hmachine
  rw [Session.runEntry_eq, Session.runEntry_eq]
  dsimp only [Session.env, Entry.rename] at hends ⊢
  generalize Eval.program s.limits _ entry.statements _ _ = r at hends ⊢
  generalize Eval.program s.limits _ (renameStmts f picks [] entry.statements) _ _ = r' at hends ⊢
  cases hends with
  | @ok v v' m m' M' _ hmachine' hv =>
    refine ⟨⟨M', hmachine', m', ?_⟩, .none⟩
    simp only [Session.finish, hv.text]
  | @error a a' m m' M' _ hmachine' habort =>
    have hsessions : PairedSessions f M' { s with machine := m } { s with machine := m' } :=
      ⟨hmachine', m', rfl⟩
    exact abort_paired hsessions habort

theorem runEntries_paired (hf : KeepsApart f) (h : PairedSessions f M s s')
    (entries : List Entry) : PairedOutcomes f (s.runEntries entries) (s'.runEntries entries) := by
  refine runInTurn_alike_same (R := PairedOutcomes f) ?failure ?entry ⟨⟨M, h⟩, .none⟩
  case failure =>
    rintro ⟨_, failure⟩ ⟨_, failure'⟩ ⟨-, hfailure⟩
    cases hfailure <;> rfl
  case entry =>
    rintro entry - t t' ⟨⟨M', hsessions⟩, -⟩
    have hrun := runEntry_paired hf hsessions entry .nowhere
    rwa [Entry.rename_nowhere] at hrun

theorem run_paired (hf : KeepsApart f) (h : PairedSessions f M s s') :
    PairedOutcomes f s.run s'.run := by
  obtain ⟨hmachine, machine, rfl⟩ := h
  have hsessions : PairedSessions f M { s with queue := [] } { s with machine, queue := [] } :=
    ⟨hmachine, machine, rfl⟩
  exact runEntries_paired hf hsessions s.queue

/-- A text is checked without a look at the machine. -/
theorem add_paired (h : PairedSessions f M s s') (source : String) (line : Int) :
    (s'.add source line).2 = (s.add source line).2 ∧
      PairedSessions f M (s.add source line).1 (s'.add source line).1 := by
  obtain ⟨hmachine, machine, rfl⟩ := h
  unfold Session.add
  dsimp only
  cases (check s.interactive source line).outcome with
  | error complaints => exact ⟨rfl, hmachine, machine, rfl⟩
  | ok checked => exact ⟨rfl, hmachine, machine, rfl⟩

/-- An action shows the same, and the sessions are still paired. -/
theorem act_paired (hf : KeepsApart f) (h : PairedSessions f M s s') (action : Action) :
    PairedObservations (s.act action).2 (s'.act action).2 ∧
      ∃ M', PairedSessions f M' (s.act action).1 (s'.act action).1 := by
  cases action with
  | add source line =>
    obtain ⟨hseen, hsessions⟩ := add_paired h source line
    unfold Session.act
    dsimp only
    rw [hseen]
    exact ⟨.added, M, hsessions⟩
  | run =>
    obtain ⟨hsessions, hfailure⟩ := run_paired hf h
    exact ⟨.ran hfailure, hsessions⟩
  | pop =>
    obtain ⟨hmachine, machine, rfl⟩ := h
    obtain ⟨_, _, _, _, _, _, results, _, _⟩ := s
    cases results with
    | nil => exact ⟨.popped, M, hmachine, machine, rfl⟩
    | cons shown rest => exact ⟨.popped, M, hmachine, machine, rfl⟩
  | takeOutput =>
    obtain ⟨hmachine, machine, rfl⟩ := h
    unfold Session.act Session.takeOutput Machine.output
    dsimp only
    rw [hmachine.printed]
    exact ⟨.took, M, { hmachine with printed := rfl }, { machine with printed := #[] }, rfl⟩

theorem acts_paired (hf : KeepsApart f) (h : PairedSessions f M s s') (actions : List Action) :
    List.Forall₂ PairedObservations (s.acts actions).2 (s'.acts actions).2 ∧
      ∃ M', PairedSessions f M' (s.acts actions).1 (s'.acts actions).1 := by
  induction actions generalizing M s s' with
  | nil => exact ⟨.nil, M, h⟩
  | cons action actions ih =>
    obtain ⟨hseen, M', hsessions⟩ := act_paired hf h action
    obtain ⟨hmore, hend⟩ := ih hsessions
    exact ⟨.cons hseen hmore, hend⟩

end Pairing

/-! ### The beginning -/

/-- At the beginning there is only the global scope, with the clock in it. -/
theorem pairedStores_initial {f : String → String} (hf : KeepsApart f) :
    PairedStores f [false] .initial .initial := by
  have hbare : PairedStores f [false] (Store.bare : Store Value) Store.bare := by
    refine ⟨rfl, rfl, rfl, ?_, rfl, fun _ => .empty, rfl⟩
    intro scope b hb
    cases scope with
    | zero => exact .empty
    | succ scope => cases hb
  have hglobal : ([false] : Marking)[globalScope]? = some false := rfl
  exact hbare.identity.bind hf hglobal Native.clock.name .native

/-- A session is paired with itself. -/
theorem reach_paired {f : String → String} (hf : KeepsApart f) (path : String)
    (interactive : Bool) (limits : Limits) (clock : Nat → Float) (actions : List Action) :
    ∃ M, PairedSessions f M (.reach path interactive limits clock actions)
      (.reach path interactive limits clock actions) := by
  have hnew : PairedSessions f [false] (.new path interactive limits clock)
      (.new path interactive limits clock) :=
    ⟨⟨pairedStores_initial hf, rfl, rfl, rfl⟩, .initial clock, rfl⟩
  exact (acts_paired hf hnew actions).2

/-! ### Main result -/

/-- Two runs with the same effects, up to the names `x` and `y` in local scopes. -/
structure RunsAlike (x y : String) (p p' : Session × Option RunFailure) : Prop where
  /-- The same text was printed, -/
  output : p'.1.machine.output = p.1.machine.output
  /-- the same values are to be shown, -/
  results : p'.1.results = p.1.results
  /-- and the runs ended in the same way. -/
  failure : Option.Rel PairedFailures p.2 p'.2
  /-- The globals have the same names and, up to the code of functions, the same values
      with the same identities. -/
  globals : ∃ M, PairedStores (Equiv.swap x y) M p.1.machine.store p'.1.machine.store ∧
    PairedTables id (PairedValues (Equiv.swap x y) M) (p.1.machine.store.bindings globalScope)
      (p'.1.machine.store.bindings globalScope)
  /-- Whatever is asked of the sessions now shows the same. -/
  later : ∀ actions,
    List.Forall₂ PairedObservations (p.1.acts actions).2 (p'.1.acts actions).2

theorem PairedOutcomes.alike {x y : String} (hf : KeepsApart (Equiv.swap x y))
    {p p' : Session × Option RunFailure} (h : PairedOutcomes (Equiv.swap x y) p p') :
    RunsAlike x y p p' := by
  obtain ⟨⟨M, hsessions⟩, hfailure⟩ := h
  have hstore := hsessions.machine.store
  obtain ⟨machine, hrest⟩ := hsessions.rest
  refine ⟨?_, ?_, hfailure, ⟨M, hstore, hstore.globals⟩, ?_⟩
  · unfold Machine.output
    rw [hsessions.machine.printed]
  · rw [hrest]
  · exact fun actions => (acts_paired hf hsessions actions).1

theorem resolvesTo_of_check {interactive : Bool} {source : String} {line : Int} {entry : Entry}
    {uses : Nat} (h : (check interactive source line).outcome = .ok (entry, uses)) :
    ResolvesTo (parse interactive (scan source line).tokens).statements entry.statements := by
  have haccepts := accepts_of_check h
  exact ⟨wellFormed_of_parse haccepts.parsed, haccepts.resolved, haccepts.statements.symm⟩

/-- Local names do not matter.  In a valid program, let the variables and parameters `x`
    of some local scopes, together with the uses that are resolved to them, get a name
    that is no keyword and does not occur in the program.  Then the program is still
    valid, and resolution finds every use at the distance it had.  From every state of a
    session, the runs of the two programs have the same effects: they print the same
    text, yield the same value, and end with the same error or both with the read of an
    unset variable, and nothing that comes later tells them apart. -/
theorem local_names_do_not_matter {interactive : Bool} {source : String} {line : Int}
    {entry : Entry} {uses : Nat}
    (hvalid : (check interactive source line).outcome = .ok (entry, uses)) {x y : String}
    (hx : Unreserved x) (hy : Unreserved y) (hfresh : y ∉ namesOfStmts entry.statements)
    (picks : Picks) :
    ResolvesTo (sourceOfStmts (entry.rename (replace x y) picks).statements)
        (entry.rename (replace x y) picks).statements ∧
      sites (resolve (sourceOfStmts (entry.rename (replace x y) picks).statements)).uses =
        sites (resolve (parse interactive (scan source line).tokens).statements).uses ∧
      ∀ path limits clock actions, RunsAlike x y
        ((Session.reach path interactive limits clock actions).runEntry entry)
        ((Session.reach path interactive limits clock actions).runEntry
          (entry.rename (replace x y) picks)) := by
  have havoids : Avoids y (namesOfStmts entry.statements) :=
    fun z hz => ne_of_mem_of_not_mem hz hfresh
  obtain ⟨hresolves, hsites⟩ := resolve_rename hx hy (resolvesTo_of_check hvalid) havoids picks
  refine ⟨hresolves, hsites, ?_⟩
  intro path limits clock actions
  have hf := keepsApart_swap hx hy
  obtain ⟨M, hsessions⟩ := reach_paired hf path interactive limits clock actions
  have hrename : entry.rename (replace x y) picks = entry.rename (Equiv.swap x y) picks := by
    unfold Entry.rename
    rw [renameStmts_replace havoids]
  rw [hrename]
  exact (runEntry_paired hf hsessions entry picks).alike hf

/-- A parameter that a closure keeps, with another variable of its name in a block, gets
    the name of a global of an earlier program. -/
theorem renamed_parameter_of_closure :
    let source :=
      "fun f(a) \x7b \x7b var a = 1; a = 2; \x7d return fun () \x7b return a; \x7d; \x7d"
    let s := Session.reach "<in>" true ⟨20, 5⟩ (fun _ => 0) [.add "var b = 0;" 1, .run]
    ∃ entry uses, (check true source 1).outcome = .ok (entry, uses) ∧
      "b" ∉ namesOfStmts entry.statements ∧
      (entry.rename (replace "a" "b") (.only [false])).statements.map Stmt.render =
        ["(fun f (b) (block (var a 1) (; (= a 2))) (return (fun () (return b))))"] ∧
      RunsAlike "a" "b" (s.runEntry entry)
        (s.runEntry (entry.rename (replace "a" "b") (.only [false]))) := by
  intro source s
  have ha : Unreserved "a" := by
    unfold Unreserved
    decide
  have hb : Unreserved "b" := by
    unfold Unreserved
    decide
  have hchecked : (match (check true source 1).outcome with
      | .error _ => false
      | .ok (entry, _) => decide ("b" ∉ namesOfStmts entry.statements ∧
        (entry.rename (replace "a" "b") (.only [false])).statements.map Stmt.render =
          ["(fun f (b) (block (var a 1) (; (= a 2))) (return (fun () (return b))))"])) = true := by
    decide +kernel +zetaReduce
  cases hvalid : (check true source 1).outcome with
  | error complaints =>
    rw [hvalid] at hchecked
    cases hchecked
  | ok checked =>
    obtain ⟨entry, uses⟩ := checked
    rw [hvalid] at hchecked
    obtain ⟨hfresh, hrender⟩ := of_decide_eq_true hchecked
    have hruns := (local_names_do_not_matter hvalid ha hb hfresh (.only [false])).2.2
    exact ⟨entry, uses, rfl, hfresh, hrender, hruns _ _ _ _⟩

end Treewalk
