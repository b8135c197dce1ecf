import Treewalk.Proofs.Lexical.Equivalence
import Treewalk.Proofs.Session.Actions

/-! # Lexical sessions

    A session whose texts are run by lexical evaluation.  It checks texts as
    every session does, but keeps the statements as they were parsed, and what
    resolution found out about them is not used.  Nothing that can be seen tells
    it from a session that runs resolved programs, and since the two agree at
    every step, the runs of a session are safe. -/

namespace Treewalk.Lexical

/-! ### Sessions -/

/-- A text that can be run. -/
structure LEntry where
  /-- Its statements. -/
  statements : List SourceStmt
  /-- The value of its last statement is to be shown. -/
  bare : Bool

/-- The state of a session. -/
structure LSession where
  /-- Entries are typed one at a time. -/
  interactive : Bool
  /-- Bounds on its runs. -/
  limits : Limits
  /-- The state of evaluation. -/
  state : State
  /-- Calls that were active when a run was cut short by a read of an empty
      cell, innermost first; a runtime error clears them. -/
  frames : List Frame
  /-- The texts waiting to be run, oldest first. -/
  queue : List LEntry
  /-- The values to be shown, oldest first. -/
  results : List String

namespace LSession

/-- A session before its first text. -/
def new (interactive : Bool) (limits : Limits) (clock : Nat → Float) : LSession :=
  { interactive, limits, state := .initial clock, frames := [], queue := [], results := [] }

/-- Checks a text and queues it. -/
def add (s : LSession) (source : String) (line : Int) : LSession × Option Diagnostic :=
  match (check s.interactive source line).outcome with
  | .error (first, rest) => (s, some (.complaints first rest))
  | .ok _ =>
    let parsed := parse s.interactive (scan source line).tokens
    ({ s with queue := s.queue ++ [⟨parsed.statements, parsed.bare⟩] }, none)

/-- Records why a run was cut short. -/
def abort (s : LSession) (a : Abort) : LSession × RunFailure :=
  match a.fault with
  | .issue issue line => ({ s with frames := [] }, .error (.ofIssue issue line a.frames))
  | .overflow => ({ s with frames := [] }, .error (.ofOverflow a.frames))
  | .unset name => ({ s with frames := a.frames }, .unset name)
  | .malformed => (s, .malformed)
  | .endless => (s, .endless)

/-- Runs one entry. -/
def runEntry (s : LSession) (entry : LEntry) : LSession × Option RunFailure :=
  match program s.limits (topLevel s.frames) entry.statements .nil s.state with
  | .ok v state =>
    ({ s with state, results := if entry.bare then s.results ++ [v.text] else s.results }, none)
  | .error a state => ((abort { s with state } a).1, some (abort { s with state } a).2)

/-- Runs entries in order, up to the first that fails. -/
def runEntries (s : LSession) (entries : List LEntry) : LSession × Option RunFailure :=
  runInTurn runEntry s entries

/-- Runs what is queued, up to the first failure. -/
def run (s : LSession) : LSession × Option RunFailure :=
  runEntries { s with queue := [] } s.queue

/-- Does an action. -/
def act (s : LSession) : Action → LSession × Observation
  | .add source line => ((s.add source line).1, .added (s.add source line).2)
  | .run => (s.run.1, .ran s.run.2)
  | .pop =>
    match s.results with
    | [] => (s, .popped none)
    | shown :: results => ({ s with results }, .popped (some shown))
  | .takeOutput =>
    ({ s with state := { s.state with printed := #[] } },
      .took (Text.unlines s.state.printed.toList))

/-- Does some actions in order. -/
def acts (s : LSession) : List Action → LSession × List Observation
  | [] => (s, [])
  | action :: actions =>
    let (s', seen) := s.act action
    let (s'', more) := s'.acts actions
    (s'', seen :: more)

/-- The session that some actions lead to. -/
def reach (interactive : Bool) (limits : Limits) (clock : Nat → Float) (actions : List Action) :
    LSession :=
  ((new interactive limits clock).acts actions).1

end LSession

end Treewalk.Lexical

namespace Treewalk

open Lexical

/-! ### Agreement -/

/-- A failure that a run can come to. -/
def RunFailure.Explained (h : History) : RunFailure → Prop
  | .unset name => ReadsUnset h name
  | .malformed => False
  | _ => True

/-- A watched session and a lexical one that agree. -/
structure SessionsAgree (w : WatchedSession) (r : LSession) : Prop where
  states : ∃ W, Agrees W w.session.machine w.history r.state
  interactive : w.session.interactive = r.interactive
  limits : w.session.limits = r.limits
  frames : w.session.frames = r.frames
  queue : List.Forall₂ (fun entry entry' => EntryOf entry'.statements entry'.bare entry)
    w.session.queue r.queue
  results : w.session.results = r.results

/-- The two outcomes of a run agree. -/
structure RunsAgree (p : WatchedSession × Option RunFailure) (q : LSession × Option RunFailure) :
    Prop where
  sessions : SessionsAgree p.1 q.1
  failure : p.2 = q.2
  explained : ∀ failure, p.2 = some failure → failure.Explained p.1.history

section Agreement

variable {w : WatchedSession} {r : LSession}

/-- The runs are cut short in the same way. -/
theorem abort_agrees {s : Session} {history : History} {a : Abort}
    (h : SessionsAgree ⟨s, history⟩ r) (hfault : a.fault.Explained history) :
    RunsAgree (⟨(s.abort a).1, history⟩, some (s.abort a).2)
      ((r.abort a).1, some (r.abort a).2) := by
  obtain ⟨fault, frames⟩ := a
  cases fault with
  | issue issue line =>
    exact ⟨{ h with frames := rfl }, rfl, by rintro _ ⟨⟩; trivial⟩
  | overflow => exact ⟨{ h with frames := rfl }, rfl, by rintro _ ⟨⟩; trivial⟩
  | unset name => exact ⟨{ h with frames := rfl }, rfl, by rintro _ ⟨⟩; exact hfault⟩
  | malformed => exact hfault.elim
  | endless => exact ⟨h, rfl, by rintro _ ⟨⟩; trivial⟩

theorem runEntry_agrees {entry : Entry} {entry' : LEntry} (h : SessionsAgree w r)
    (hentry : EntryOf entry'.statements entry'.bare entry) :
    RunsAgree (w.runEntry entry) (r.runEntry entry') := by
  obtain ⟨W, hagrees⟩ := h.states
  -- every entry starts at top level, with the frames that a cut-short run left
  have hctx : CtxRel W .topLevel [] ⟨globalEnv, w.session.frames⟩ (topLevel r.frames) :=
    ⟨.global, h.frames.symm, rfl, .topLevel⟩
  have houtcome := simulates_program r.limits hctx hentry.accepted .nil _ _ _ hagrees
  unfold WatchedSession.runEntry LSession.runEntry Session.env
  dsimp only
  rw [h.limits]
  generalize Watched.steps.program r.limits _ entry.statements _ _ = u at houtcome ⊢
  generalize Lexical.program r.limits _ entry'.statements _ _ = u' at houtcome ⊢
  cases houtcome with
  | @ok v v' machine history state W' hW hagrees' hv =>
    refine ⟨⟨⟨W', hagrees'⟩, h.interactive, h.limits, h.frames, h.queue, ?_⟩, rfl, nofun⟩
    show (if entry.bare then w.session.results ++ [v.text] else w.session.results) = _
    rw [hentry.bare, h.results, hv.text]
  | @error a machine history state W' hagrees' hfault =>
    have hs : SessionsAgree ⟨{ w.session with machine }, history⟩ { r with state } :=
      ⟨⟨W', hagrees'⟩, h.interactive, h.limits, h.frames, h.queue, h.results⟩
    exact abort_agrees hs hfault

theorem runEntries_agrees {entries : List Entry} {entries' : List LEntry} (h : SessionsAgree w r)
    (hentries : List.Forall₂ (fun entry entry' => EntryOf entry'.statements entry'.bare entry)
      entries entries') :
    RunsAgree (w.runEntries entries) (r.runEntries entries') := by
  refine runInTurn_alike (R := RunsAgree) ?failure ?entry hentries ⟨h, rfl, nofun⟩
  case failure =>
    intro p q hruns
    rw [hruns.failure]
  case entry =>
    intro w' r' entry entry' hentry hruns
    exact runEntry_agrees hruns.sessions hentry

theorem run_agrees (h : SessionsAgree w r) : RunsAgree w.run r.run :=
  runEntries_agrees { h with queue := .nil } h.queue

theorem add_agrees (h : SessionsAgree w r) (source : String) (line : Int) :
    (w.session.add source line).2 = (r.add source line).2 ∧
      SessionsAgree { w with session := (w.session.add source line).1 } (r.add source line).1 := by
  unfold Session.add LSession.add
  rw [← h.interactive]
  dsimp only
  cases hcheck : (check w.session.interactive source line).outcome with
  | error complaints =>
    exact ⟨rfl, ⟨h.states, h.interactive, h.limits, h.frames, h.queue, h.results⟩⟩
  | ok checked =>
    -- what is queued is the accepted program on one side and its resolved form on
    -- the other
    have hentry := accepted_of_check hcheck
    refine ⟨rfl, ⟨h.states, rfl, h.limits, h.frames, ?_, h.results⟩⟩
    exact List.rel_append h.queue (.cons hentry .nil)

theorem takeOutput_agrees (h : SessionsAgree w r) :
    w.session.machine.output = Text.unlines r.state.printed.toList ∧
      SessionsAgree { w with session := w.session.takeOutput.2 }
        { r with state := { r.state with printed := #[] } } := by
  obtain ⟨W, hagrees⟩ := h.states
  constructor
  · unfold Machine.output
    rw [hagrees.printed]
  · exact ⟨⟨W, { hagrees with printed := rfl }⟩, h.interactive, h.limits, h.frames, h.queue,
      h.results⟩

/-- An action shows the same, and the sessions still agree. -/
theorem act_agrees (h : SessionsAgree w r) (action : Action) :
    (w.act action).2 = (r.act action).2 ∧ SessionsAgree (w.act action).1 (r.act action).1 := by
  cases action with
  | add source line =>
    obtain ⟨hseen, hsessions⟩ := add_agrees h source line
    exact ⟨congrArg Observation.added hseen, hsessions⟩
  | run =>
    have hrun := run_agrees h
    exact ⟨congrArg Observation.ran hrun.failure, hrun.sessions⟩
  | pop =>
    unfold WatchedSession.act LSession.act Session.act Session.pop?
    rw [h.results]
    cases hresults : r.results with
    | nil => exact ⟨rfl, h⟩
    | cons shown rest => exact ⟨rfl, { h with results := rfl }⟩
  | takeOutput =>
    obtain ⟨hseen, hsessions⟩ := takeOutput_agrees h
    exact ⟨congrArg Observation.took hseen, hsessions⟩

theorem acts_agrees (h : SessionsAgree w r) (actions : List Action) :
    (w.acts actions).2 = (r.acts actions).2 ∧
      SessionsAgree (w.acts actions).1 (r.acts actions).1 := by
  induction actions generalizing w r with
  | nil => exact ⟨rfl, h⟩
  | cons action actions ih =>
    obtain ⟨hseen, hsessions⟩ := act_agrees h action
    obtain ⟨hmore, hend⟩ := ih hsessions
    refine ⟨?_, hend⟩
    show (w.act action).2 :: ((w.act action).1.acts actions).2 =
      (r.act action).2 :: ((r.act action).1.acts actions).2
    rw [hseen, hmore]

end Agreement

/-! ### The beginning -/

/-- The world without local names. -/
def World.initial : World := ⟨1, fun _ _ => none⟩

theorem bindings_initial (scope : ScopeId) : (Store.initial : Store Value).bindings scope =
    if scope = globalScope then Table.empty.insert Native.clock.name (.native 0 .clock)
    else Table.empty := by
  have hbare (scope : ScopeId) : (Store.bare.identity.2 : Store Value).bindings scope = Table.empty := by
    cases scope <;> rfl
  unfold Store.initial
  rw [Store.bindings_bind _ (show globalScope < 1 by decide), hbare]
  rfl

theorem agrees_initial (clock : Nat → Float) :
    Agrees .initial (.initial clock) [] (.initial clock) where
  bindings :=
    { scopes := by simp [Machine.initial, Store.initial, Store.bare, Store.identity, World.initial]
      pos := Nat.one_pos
      entry := nofun
      distinct := nofun
      unknown := by
        intro scope x hscope _
        show ((Store.initial : Store Value).bindings scope).find? x = none
        rw [bindings_initial, if_neg hscope]
        rfl
      declared := by
        rintro _ _ _ ⟨_, _, hmem, _⟩
        cases hmem }
  globals := by
    -- the only name is that of the clock
    show TableRel _ ((Store.initial : Store Value).bindings globalScope) _
    rw [bindings_initial, if_pos rfl]
    exact TableRel.empty.insert _ .native
  objectCount := rfl
  objects _ := .empty
  fresh := rfl
  printed := rfl
  clock := rfl
  readings := rfl
  safe := nofun

/-- New sessions agree. -/
theorem new_agrees (path : String) (interactive : Bool) (limits : Limits) (clock : Nat → Float) :
    SessionsAgree (.new path interactive limits clock) (.new interactive limits clock) :=
  ⟨⟨.initial, agrees_initial clock⟩, rfl, rfl, rfl, .nil, rfl⟩

theorem reach_agrees (path : String) (interactive : Bool) (limits : Limits) (clock : Nat → Float)
    (actions : List Action) :
    SessionsAgree (.reach path interactive limits clock actions)
      (.reach interactive limits clock actions) :=
  (acts_agrees (new_agrees path interactive limits clock) actions).2

/-! ### Main results -/

/-- Scope distances implement lexical scoping.  Whatever is asked of a session, a
    lexical session shows the same: the same complaints, the same printed text,
    the same values, and the same errors with their lines and traces, or a read
    of an unset variable where the other reads an empty cell.  Afterwards the
    sessions agree in all that later runs can depend on. -/
theorem resolved_session_is_lexical (path : String) (interactive : Bool) (limits : Limits)
    (clock : Nat → Float) (actions : List Action) :
    ((Session.new path interactive limits clock).acts actions).2 =
        ((LSession.new interactive limits clock).acts actions).2 ∧
      ∃ history, SessionsAgree ⟨.reach path interactive limits clock actions, history⟩
        (.reach interactive limits clock actions) := by
  have hseen := (acts_agrees (new_agrees path interactive limits clock) actions).1
  have herases := (WatchedSession.new path interactive limits clock).acts_erases actions
  have hsessions := reach_agrees path interactive limits clock actions
  constructor
  · rw [← hseen]
    exact (congrArg Prod.snd herases).symm
  · refine ⟨(WatchedSession.reach path interactive limits clock actions).history, ?_⟩
    rw [← WatchedSession.reach_erases]
    exact hsessions

/-- Accepted programs run safely.  Whatever was asked of a session before, a run
    looks up nothing that is not there: every event of the log, which does not
    change the run, is safe.  If the run is cut short by anything but an error of
    the program, or by a loop that never ends, then its last event is the read of
    a local variable whose `var` statement has begun but not come to its end in
    that scope. -/
theorem accepted_session_is_safe (path : String) (interactive : Bool) (limits : Limits)
    (clock : Nat → Float) (actions : List Action) :
    ((WatchedSession.reach path interactive limits clock actions).run.1.session,
        (WatchedSession.reach path interactive limits clock actions).run.2) =
        (Session.reach path interactive limits clock actions).run ∧
      (∀ event ∈ (WatchedSession.reach path interactive limits clock actions).run.1.history,
        event.Safe) ∧
      (Session.reach path interactive limits clock actions).run.2 ≠ some .malformed ∧
      ∀ name, (Session.reach path interactive limits clock actions).run.2 = some (.unset name) →
        ReadsUnset (WatchedSession.reach path interactive limits clock actions).run.1.history
          name := by
  have herases := (WatchedSession.reach path interactive limits clock actions).run_erases
  rw [WatchedSession.reach_erases] at herases
  have hfailure := congrArg Prod.snd herases
  -- a run that agrees with a lexical one has a safe log and an explained failure
  obtain ⟨hafter, -, hexplained⟩ := run_agrees (reach_agrees path interactive limits clock actions)
  obtain ⟨W, hagrees⟩ := hafter.states
  refine ⟨herases, hagrees.safe, ?_, ?_⟩
  · intro hmalformed
    exact hexplained _ (hfailure.trans hmalformed)
  · intro name hunset
    exact hexplained _ (hfailure.trans hunset)

end Treewalk
