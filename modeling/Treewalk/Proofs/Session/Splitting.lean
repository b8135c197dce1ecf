import Treewalk.Proofs.Grammar.Script
import Treewalk.Proofs.Renumbering
import Treewalk.Proofs.Scope.Uniqueness
import Treewalk.Proofs.Session.Actions
import Treewalk.Proofs.Token.Joining

/-! # A program in one text or in two

    A program can be entered as one text, or in two texts one after the other.
    It is valid either way, and both ways lead to the same effects and the same
    failure. -/

namespace Treewalk

/-! ### Texts that can be run -/

/-- The text can be run as a script. -/
def ValidScript (source : String) : Prop := (check false source 1).outcome.isOk = true

/-- A text from some line on is a script with the given statements. -/
structure ReadsAs (source : String) (line : Int) (program : List SourceStmt) : Prop where
  scanned : (scan source line).issues = []
  derives : Derives true false .declarations (scan source line).tokens program
  clean : ∀ s ∈ program, Clean [] (.stmt s)

section ReadsAs

variable {source : String} {line : Int} {program : List SourceStmt}

theorem readsAs_of_check (h : (check false source line).outcome.isOk = true) :
    ∃ program, ReadsAs source line program := by
  unfold check at h
  dsimp only at h
  split at h
  · cases h
  · next hcomplaints =>
    split at h
    · cases h
    · next hresolved =>
      -- no complaint is lost on the way, so there was none at any stage
      have hnil := List.append_eq_nil_iff.mp (byLine_eq_nil hcomplaints)
      have hparse := List.map_eq_nil_iff.mp hnil.2
      obtain ⟨program, hprogram⟩ := (derives_of_parse hparse).isNearest
      have hstatements : (parse false (scan source line).tokens).statements = program :=
        (parse_of_derives hprogram).2
      have hresolve := List.map_eq_nil_iff.mp hresolved
      rw [hstatements] at hresolve
      exact ⟨program, List.map_eq_nil_iff.mp hnil.1, hprogram,
        (resolve_errors_iff_clean program).mp hresolve⟩

theorem ReadsAs.wellFormed (h : ReadsAs source line program) :
    ∀ s ∈ program, WellFormedStmt s :=
  h.derives.wellFormed (unreservedNames_scan source line)

/-- A script is one on every line. -/
theorem ReadsAs.renumber (h : ReadsAs source line program) (line' : Int) :
    ReadsAs source line' (program.map (·.renumber (· + (line' - line)))) := by
  have hline : line' = line + (line' - line) := by omega
  have htokens : (scan source line').tokens =
      (scan source line).tokens.map (·.renumber (· + (line' - line))) := by
    show tokensFrom line' _ = _
    rw [hline, tokensFrom_add, ← hline]
    rfl
  have hissues : (scan source line').issues.map (·.1) = (scan source line).issues.map (·.1) := by
    show (issuesFrom line' _).map (·.1) = (issuesFrom line _).map (·.1)
    rw [kinds_issuesFrom, kinds_issuesFrom]
  constructor
  · rw [h.scanned] at hissues
    exact List.map_eq_nil_iff.mp hissues
  · rw [htokens]
    exact h.derives.renumber
  · intro s hs
    obtain ⟨original, horiginal, rfl⟩ := List.mem_map.mp hs
    exact (h.clean original horiginal).renumber

/-- A script can be entered in both modes. -/
theorem ReadsAs.checked (h : ReadsAs source line program) (interactive : Bool) :
    (check interactive source line).outcome =
      .ok (⟨(resolve program).statements, false⟩, (resolve program).uses.length) := by
  obtain ⟨herrors, hstatements, hbare⟩ := parse_script h.derives interactive
  have hresolve := (resolve_errors_iff_clean program).mpr h.clean
  unfold check
  simp only [h.scanned, herrors, hstatements, hresolve, hbare]
  rfl

/-- Two scripts with a newline between them are a script. -/
theorem ReadsAs.join {more : String} {ps qs : List SourceStmt} (hp : ReadsAs source line ps)
    (hq : ReadsAs more (line + lineEnds source + 1) qs) :
    ReadsAs (source ++ "\n" ++ more) line (ps ++ qs) := by
  have hclosed : ∀ issue ∈ (scan source line).issues, issue.1.isUnterminated = false := by
    simp [hp.scanned]
  have hscan := scan_join more hclosed
  constructor
  · rw [hscan, hp.scanned, hq.scanned]
    rfl
  · rw [hscan]
    exact hp.derives.append hq.derives
  · intro s hs
    rcases List.mem_append.mp hs with h | h
    · exact hp.clean s h
    · exact hq.clean s h

end ReadsAs

theorem ValidScript.readsAs {source : String} (h : ValidScript source) (line : Int) :
    ∃ program, ReadsAs source line program := by
  obtain ⟨program, hprogram⟩ := readsAs_of_check h
  exact ⟨_, hprogram.renumber line⟩

theorem ReadsAs.valid {source : String} {line : Int} {program : List SourceStmt}
    (h : ReadsAs source line program) : ValidScript source := by
  unfold ValidScript
  rw [(h.renumber 1).checked]
  rfl

/-! ### Running -/

/-- The statements of a program run one part after the other. -/
theorem program_append (limits : Limits) (ctx : Context) (ps qs : List ResolvedStmt) (last : Value) :
    Eval.program limits ctx (ps ++ qs) last = (do
      let v ← Eval.program limits ctx ps last
      Eval.program limits ctx qs v) := by
  induction ps generalizing last with
  | nil => rfl
  | cons s ps ih =>
    cases s <;> simp only [List.cons_append, Eval.program, ih, bind_assoc]

/-- Adds a text and runs it. -/
def Session.play (s : Session) (source : String) (line : Int) : Session × Option RunFailure :=
  (s.add source line).1.run

/-- Adds a text and runs it and, if nothing failed, goes on with the next one,
    which begins on the line behind it. -/
def Session.playInTurn (s : Session) (first second : String) (line : Int) :
    Session × Option RunFailure :=
  match s.play first line with
  | (s, none) => s.play second (line + lineEnds first + 1)
  | (s, some failure) => (s, some failure)

/-- Sessions that differ in nothing but their notes and the number of local uses. -/
structure SameEffect (a b : Session) : Prop where
  path : a.path = b.path
  interactive : a.interactive = b.interactive
  limits : a.limits = b.limits
  /-- The text printed, the bindings of all scopes, the fields of all objects and
      the clock. -/
  machine : a.machine = b.machine
  frames : a.frames = b.frames
  queue : a.queue = b.queue
  results : a.results = b.results

section SameEffect

variable {a b c : Session}

theorem SameEffect.symm (h : SameEffect a b) : SameEffect b a :=
  ⟨h.path.symm, h.interactive.symm, h.limits.symm, h.machine.symm, h.frames.symm, h.queue.symm,
    h.results.symm⟩

theorem SameEffect.trans (h : SameEffect a b) (h' : SameEffect b c) : SameEffect a c :=
  ⟨h.path.trans h'.path, h.interactive.trans h'.interactive, h.limits.trans h'.limits,
    h.machine.trans h'.machine, h.frames.trans h'.frames, h.queue.trans h'.queue,
    h.results.trans h'.results⟩

/-- Sessions with the same effects fail in the same way. -/
theorem SameEffect.abort (h : SameEffect a b) (cut : Abort) :
    SameEffect (a.abort cut).1 (b.abort cut).1 ∧ (a.abort cut).2 = (b.abort cut).2 := by
  obtain ⟨fault, frames⟩ := cut
  cases fault with
  | issue issue line => exact ⟨{ h with frames := rfl }, rfl⟩
  | overflow => exact ⟨{ h with frames := rfl }, rfl⟩
  | unset name => exact ⟨{ h with frames := rfl }, rfl⟩
  | malformed => exact ⟨h, rfl⟩
  | endless => exact ⟨h, rfl⟩

theorem SameEffect.runEntry (h : SameEffect a b) (entry : Entry) :
    SameEffect (a.runEntry entry).1 (b.runEntry entry).1 ∧
      (a.runEntry entry).2 = (b.runEntry entry).2 := by
  -- both run the same program in the same state
  have henv : b.env = a.env := rfl
  rw [Session.runEntry_eq, Session.runEntry_eq, henv, ← h.limits, ← h.frames, ← h.machine]
  cases Eval.program a.limits ⟨a.env, a.frames⟩ entry.statements .nil a.machine with
  | ok v machine =>
    refine ⟨{ h with machine := rfl, results := ?_ }, rfl⟩
    show (if entry.bare then _ else _) = (if entry.bare then _ else _)
    rw [h.results]
  | error cut machine =>
    have hmachine : SameEffect { a with machine } { b with machine } := { h with machine := rfl }
    have habort := hmachine.abort cut
    exact ⟨habort.1, congrArg some habort.2⟩

end SameEffect

/-- If no value is to be shown, the one before the first statement does not matter. -/
theorem finish_program_last (s : Session) (limits : Limits) (ctx : Context)
    (ps qs : List ResolvedStmt) (v : Value) (m : Machine) :
    s.finish ⟨ps, false⟩ (Eval.program limits ctx qs v m) =
      s.finish ⟨qs, false⟩ (Eval.program limits ctx qs .nil m) := by
  cases qs <;> rfl

/-- An entry runs its statements one part after the other. -/
theorem runEntry_append (s : Session) (ps qs : List ResolvedStmt) :
    s.runEntry ⟨ps ++ qs, false⟩ =
      match s.runEntry ⟨ps, false⟩ with
      | (s, none) => s.runEntry ⟨qs, false⟩
      | (s, some failure) => (s, some failure) := by
  rw [Session.runEntry_eq, Session.runEntry_eq, program_append]
  cases hp : Eval.program s.limits ⟨s.env, s.frames⟩ ps .nil s.machine with
  | error cut machine =>
    rw [bind_of_error hp]
    rfl
  | ok v machine =>
    rw [bind_of_ok hp]
    show _ = Session.runEntry { s with machine } ⟨qs, false⟩
    rw [Session.runEntry_eq]
    exact finish_program_last s s.limits ⟨s.env, s.frames⟩ (ps ++ qs) qs v machine

theorem run_single {s : Session} {entry : Entry} (h : s.queue = [entry]) :
    s.run = Session.runEntry { s with queue := [] } entry := by
  unfold Session.run
  rw [h]
  exact runInTurn_single _ entry

/-- A script that is added to an empty queue and run is run at once. -/
theorem play_eq {source : String} {line : Int} {program : List SourceStmt}
    (h : ReadsAs source line program) {s : Session} (hqueue : s.queue = []) :
    ∃ s', SameEffect s s' ∧
      s.play source line = s'.runEntry ⟨(resolve program).statements, false⟩ := by
  have hchecked := h.checked s.interactive
  have hadded : (s.add source line).1.queue = [⟨(resolve program).statements, false⟩] := by
    unfold Session.add
    simp only [hchecked, hqueue, List.nil_append]
  have hrun : s.play source line = _ := run_single hadded
  refine ⟨_, ?_, hrun⟩
  unfold Session.add
  simp only [hchecked]
  exact ⟨rfl, rfl, rfl, rfl, rfl, hqueue, rfl⟩

theorem queue_runEntry (s : Session) (entry : Entry) : (s.runEntry entry).1.queue = s.queue := by
  rw [Session.runEntry_eq]
  cases Eval.program s.limits ⟨s.env, s.frames⟩ entry.statements .nil s.machine with
  | ok v machine => rfl
  | error cut machine =>
    obtain ⟨fault, frames⟩ := cut
    cases fault <;> rfl

/-- One script behind another plays like the two in turn. -/
theorem ReadsAs.play_join {first second : String} {line : Int} {ps qs : List SourceStmt}
    (hps : ReadsAs first line ps) (hqs : ReadsAs second (line + lineEnds first + 1) qs)
    {s : Session} (hqueue : s.queue = []) :
    SameEffect (s.play (first ++ "\n" ++ second) line).1 (s.playInTurn first second line).1 ∧
      (s.play (first ++ "\n" ++ second) line).2 = (s.playInTurn first second line).2 := by
  obtain ⟨hstatements, -⟩ := resolve_append ps qs
  obtain ⟨sBoth, hsBoth, hplayBoth⟩ := play_eq (hps.join hqs) hqueue
  obtain ⟨sFirst, hsFirst, hplayFirst⟩ := play_eq hps hqueue
  have hsame := (hsBoth.symm.trans hsFirst).runEntry ⟨(resolve ps).statements, false⟩
  have hqueueFirst := queue_runEntry sFirst ⟨(resolve ps).statements, false⟩
  rw [← hsFirst.queue, hqueue] at hqueueFirst
  unfold Session.playInTurn
  rw [hplayBoth, hstatements, runEntry_append, hplayFirst]
  generalize sBoth.runEntry ⟨(resolve ps).statements, false⟩ = ranBoth at hsame ⊢
  generalize sFirst.runEntry ⟨(resolve ps).statements, false⟩ = ranFirst at hsame hqueueFirst ⊢
  obtain ⟨sBoth', failure⟩ := ranBoth
  obtain ⟨sFirst', failure'⟩ := ranFirst
  obtain ⟨hsame, rfl⟩ := hsame
  cases failure with
  | some failure => exact ⟨hsame, rfl⟩
  | none =>
    -- the first program came to its end, and the second one goes on from there
    obtain ⟨sSecond, hsSecond, hplaySecond⟩ := play_eq hqs hqueueFirst
    dsimp only
    rw [hplaySecond]
    exact (hsame.trans hsSecond).runEntry _

/-- Splitting a program into two entries does not change what it does.  Two valid
    scripts with a newline between them are a valid script, with the statements
    of the one before those of the other in either mode.  In a session without
    waiting texts, it has the same effects and fails in the same way as the two
    scripts in turn, of which the second runs only if the first did not fail. -/
theorem joined_text_plays_in_turn (s : Session) (hqueue : s.queue = []) (first second : String)
    (hfirst : ValidScript first) (hsecond : ValidScript second) (line : Int) :
    ValidScript (first ++ "\n" ++ second) ∧
    (∃ p q k l, ∀ interactive,
      (check interactive first line).outcome = .ok (⟨p, false⟩, k) ∧
      (check interactive second (line + lineEnds first + 1)).outcome = .ok (⟨q, false⟩, l) ∧
      (check interactive (first ++ "\n" ++ second) line).outcome = .ok (⟨p ++ q, false⟩, k + l)) ∧
    SameEffect (s.play (first ++ "\n" ++ second) line).1 (s.playInTurn first second line).1 ∧
    (s.play (first ++ "\n" ++ second) line).2 = (s.playInTurn first second line).2 := by
  obtain ⟨ps, hps⟩ := hfirst.readsAs line
  obtain ⟨qs, hqs⟩ := hsecond.readsAs (line + lineEnds first + 1)
  have hboth := hps.join hqs
  obtain ⟨hstatements, huses⟩ := resolve_append ps qs
  refine ⟨hboth.valid, ?_, hps.play_join hqs hqueue⟩
  refine ⟨(resolve ps).statements, (resolve qs).statements, (resolve ps).uses.length,
    (resolve qs).uses.length, ?_⟩
  intro interactive
  refine ⟨hps.checked interactive, hqs.checked interactive, ?_⟩
  rw [hboth.checked interactive, hstatements, huses, List.length_append]

/-- A declaration and a use of it, typed at once or one after the other. -/
theorem joined_declaration_and_use :
    SameEffect
      ((Session.new "<in>" true ⟨20, 20⟩ (fun _ => 0)).play ("var a = 1;" ++ "\n" ++ "print a;") 1).1
      ((Session.new "<in>" true ⟨20, 20⟩ (fun _ => 0)).playInTurn "var a = 1;" "print a;" 1).1 := by
  have hfirst : ValidScript "var a = 1;" := by
    unfold ValidScript
    decide +kernel
  have hsecond : ValidScript "print a;" := by
    unfold ValidScript
    decide +kernel
  exact (joined_text_plays_in_turn (Session.new "<in>" true ⟨20, 20⟩ (fun _ => 0)) rfl "var a = 1;"
    "print a;" hfirst hsecond 1).2.2.1

end Treewalk
