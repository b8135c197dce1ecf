import Treewalk.Proofs.Grammar.WellFormed
import Treewalk.Proofs.Scope.Resolution
import Treewalk.Proofs.Session.InTurn
import Treewalk.Proofs.Watched

/-! # Sessions over time

    What can be asked of a session, and what is seen of it: a session is used by
    a list of actions, each of which shows something.  A watched session keeps
    the log of all its runs; forgetting the log gives the session back. -/

namespace Treewalk

/-! ### Actions -/

/-- What can be asked of a session. -/
inductive Action where
  /-- To check a text whose first line has the given number, and to queue it. -/
  | add (source : String) (line : Int)
  /-- To run what is queued. -/
  | run
  /-- To show the oldest value that is to be shown. -/
  | pop
  /-- To write out what was printed. -/
  | takeOutput

/-- What is seen of an action. -/
inductive Observation where
  /-- The complaints about a text, if it was refused. -/
  | added (refusal : Option Diagnostic)
  /-- Why a run was cut short, if it was. -/
  | ran (failure : Option RunFailure)
  /-- The value that was shown, if there was one. -/
  | popped (shown : Option String)
  /-- The text that was written out. -/
  | took (text : String)

/-- Does an action. -/
def Session.act (s : Session) : Action → Session × Observation
  | .add source line => ((s.add source line).1, .added (s.add source line).2)
  | .run => (s.run.1, .ran s.run.2)
  | .pop =>
    match s.pop? with
    | some (shown, s) => (s, .popped (some shown))
    | none => (s, .popped none)
  | .takeOutput => (s.takeOutput.2, .took s.takeOutput.1)

/-- Does some actions in order. -/
def Session.acts (s : Session) : List Action → Session × List Observation
  | [] => (s, [])
  | action :: actions =>
    let (s', seen) := s.act action
    let (s'', more) := s'.acts actions
    (s'', seen :: more)

/-- The session that some actions lead to. -/
def Session.reach (path : String) (interactive : Bool) (limits : Limits) (clock : Nat → Float)
    (actions : List Action) : Session :=
  ((Session.new path interactive limits clock).acts actions).1

/-! ### Checked texts -/

/-- An entry and the statements it was resolved from. -/
structure EntryOf (statements : List SourceStmt) (bare : Bool) (entry : Entry) : Prop where
  accepted : AcceptedStmts .topLevel [] statements entry.statements
  bare : entry.bare = bare

theorem byLine_eq_nil {cs : List Complaint} (h : Complaint.byLine cs = []) : cs = [] := by
  have hperm : (Complaint.byLine cs).Perm cs := sortBy_perm _ cs
  rw [h] at hperm
  exact List.nil_perm.mp hperm

/-- A text without complaints is an accepted program. -/
theorem accepted_of_check {interactive : Bool} {source : String} {line : Int} {entry : Entry}
    {uses : Nat} (h : (check interactive source line).outcome = .ok (entry, uses)) :
    EntryOf (parse interactive (scan source line).tokens).statements
      (parse interactive (scan source line).tokens).bare entry := by
  unfold check at h
  simp only at h
  split at h
  · cases h
  · next hcomplaints =>
    split at h
    · cases h
    · next hresolved =>
      have hparse : (parse interactive (scan source line).tokens).errors = [] := by
        -- complaints are sorted by line, which drops none of them
        have hnil := byLine_eq_nil hcomplaints
        exact List.map_eq_nil_iff.mp (List.append_eq_nil_iff.mp hnil).2
      have hresolve := List.map_eq_nil_iff.mp hresolved
      cases h
      exact ⟨accepted_of_resolve (wellFormed_of_parse hparse) hresolve, rfl⟩

/-! ### Watched sessions -/

/-- A session with the log of its runs. -/
structure WatchedSession where
  /-- The session. -/
  session : Session
  /-- What its runs did so far, newest first. -/
  history : History

/-- Takes the outcome of the run of an entry into the session. -/
def Session.finish {ρ : Type} (s : Session ρ) (entry : Entry ρ) :
    EStateM.Result Abort (Machine ρ) (Value ρ) → Session ρ × Option RunFailure
  | .ok v machine =>
    ({ s with machine, results := if entry.bare then s.results ++ [v.text] else s.results }, none)
  | .error a machine =>
    ((Session.abort { s with machine } a).1, some (Session.abort { s with machine } a).2)

theorem Session.runEntry_eq (s : Session) (entry : Entry) : s.runEntry entry =
    s.finish entry (Eval.program s.limits ⟨s.env, s.frames⟩ entry.statements .nil s.machine) := by
  unfold Session.runEntry
  dsimp only
  cases Eval.program s.limits ⟨s.env, s.frames⟩ entry.statements .nil s.machine <;> rfl

/-- The log at the end of a run. -/
def logOf {α : Type} : EStateM.Result Abort (Machine × History) α → History
  | .ok _ s => s.2
  | .error _ s => s.2

namespace WatchedSession

/-- A watched session before its first text. -/
def new (path : String) (interactive : Bool) (limits : Limits) (clock : Nat → Float) :
    WatchedSession :=
  ⟨.new path interactive limits clock, []⟩

/-- Runs one entry. -/
def runEntry (w : WatchedSession) (entry : Entry) : WatchedSession × Option RunFailure :=
  let s := w.session
  let result := Watched.steps.program s.limits ⟨s.env, s.frames⟩ entry.statements .nil
    (s.machine, w.history)
  (⟨(s.finish entry (forget result)).1, logOf result⟩, (s.finish entry (forget result)).2)

/-- Runs entries in order, up to the first that fails. -/
def runEntries (w : WatchedSession) (entries : List Entry) : WatchedSession × Option RunFailure :=
  runInTurn runEntry w entries

/-- Runs what is queued. -/
def run (w : WatchedSession) : WatchedSession × Option RunFailure :=
  runEntries { w with session := { w.session with queue := [] } } w.session.queue

/-- Does an action. -/
def act (w : WatchedSession) : Action → WatchedSession × Observation
  | .run => (w.run.1, .ran w.run.2)
  | action => ({ w with session := (w.session.act action).1 }, (w.session.act action).2)

/-- Does some actions in order. -/
def acts (w : WatchedSession) : List Action → WatchedSession × List Observation
  | [] => (w, [])
  | action :: actions =>
    let (w', seen) := w.act action
    let (w'', more) := w'.acts actions
    (w'', seen :: more)

/-- The watched session that some actions lead to. -/
def reach (path : String) (interactive : Bool) (limits : Limits) (clock : Nat → Float)
    (actions : List Action) : WatchedSession :=
  ((new path interactive limits clock).acts actions).1

/-! ### Forgetting the log -/

theorem runEntry_erases (w : WatchedSession) (entry : Entry) :
    ((w.runEntry entry).1.session, (w.runEntry entry).2) = w.session.runEntry entry := by
  rw [Session.runEntry_eq]
  unfold runEntry
  dsimp only
  rw [erases_program]

theorem runEntries_erases (w : WatchedSession) (entries : List Entry) :
    ((w.runEntries entries).1.session, (w.runEntries entries).2) =
      w.session.runEntries entries :=
  runInTurn_map runEntry_erases w entries

theorem run_erases (w : WatchedSession) : (w.run.1.session, w.run.2) = w.session.run :=
  runEntries_erases _ _

theorem act_erases (w : WatchedSession) (action : Action) :
    ((w.act action).1.session, (w.act action).2) = w.session.act action := by
  cases action with
  | run =>
    show (w.run.1.session, Observation.ran w.run.2) = (w.session.run.1, .ran w.session.run.2)
    rw [← w.run_erases]
  | _ => rfl

/-- Watching a session changes nothing of it. -/
theorem acts_erases (w : WatchedSession) (actions : List Action) :
    ((w.acts actions).1.session, (w.acts actions).2) = w.session.acts actions := by
  induction actions generalizing w with
  | nil => rfl
  | cons action actions ih =>
    have haction := w.act_erases action
    unfold acts Session.acts
    rw [← haction]
    generalize w.act action = p
    obtain ⟨w', seen⟩ := p
    simp only
    rw [← ih w']

theorem reach_erases (path : String) (interactive : Bool) (limits : Limits) (clock : Nat → Float)
    (actions : List Action) : (reach path interactive limits clock actions).session =
      Session.reach path interactive limits clock actions :=
  congrArg Prod.fst (acts_erases (new path interactive limits clock) actions)

end WatchedSession

end Treewalk
