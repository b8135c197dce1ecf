import Treewalk.Proofs.Registers
import Treewalk.Proofs.Session.Actions

/-! # The registers between steps

    A session whose runs keep the environment and the stack of calls in registers
    from one run to the next.  A runtime error resets both; a read of an unset
    variable leaves them as they are then.  Between steps the environment is
    always the global one, and the stack holds the calls that such reads have
    left behind since the last runtime error. -/

namespace Treewalk

/-! ### Steps -/

/-- A step in the use of a session. -/
inductive Step where
  /-- An action. -/
  | act (action : Action)
  /-- To list what is queued. -/
  | dump

/-- The session after a step. -/
def Session.step (s : Session) : Step → Session
  | .act action => (s.act action).1
  | .dump => s

/-- The session after some steps from the beginning. -/
def Session.afterSteps (path : String) (interactive : Bool) (limits : Limits) (clock : Nat → Float)
    (steps : List Step) : Session :=
  steps.foldl Session.step (.new path interactive limits clock)

/-- How the run of an entry ended. -/
inductive RunEnding where
  /-- The run came to its end. -/
  | completed
  /-- It ended in a runtime error. -/
  | failed
  /-- It ended in a read of an unset variable, while some calls were active,
      innermost first. -/
  | unset (active : List Frame)
  /-- It was given up. -/
  | stopped
deriving DecidableEq, Repr

namespace RunEnding

/-- The run ended in a runtime error. -/
def isFailure : RunEnding → Bool
  | .failed => true
  | .completed | .unset _ | .stopped => false

/-- The calls that were active when a variable was read that was not set. -/
def unsetCalls : RunEnding → List Frame
  | .unset active => active
  | .completed | .failed | .stopped => []

end RunEnding

/-- The calls at every read of an unset variable since the last runtime error;
    the endings are given newest first, and so are the calls. -/
def leftoverCalls (endings : List RunEnding) : List Frame :=
  (endings.takeWhile (!·.isFailure)).flatMap RunEnding.unsetCalls

example : leftoverCalls [.unset [⟨"f", 3⟩], .completed, .unset [⟨"h", 2⟩, ⟨"g", 1⟩], .failed,
    .unset [⟨"k", 1⟩]] = [⟨"f", 3⟩, ⟨"h", 2⟩, ⟨"g", 1⟩] := rfl

/-- A session with its registers. -/
structure RegisterSession where
  /-- The session, with the stack of calls. -/
  session : Session
  /-- The current environment. -/
  env : Env
  /-- How the runs so far ended, newest first. -/
  endings : List RunEnding

namespace RegisterSession

/-- A session before its first step. -/
def new (path : String) (interactive : Bool) (limits : Limits) (clock : Nat → Float) :
    RegisterSession :=
  ⟨.new path interactive limits clock, globalEnv, []⟩

/-- Takes the registers at the end of a run into the session. -/
def keep (w : RegisterSession) (r : Registers) (ending : RunEnding) : RegisterSession :=
  ⟨{ w.session with machine := r.machine, frames := r.frames }, r.env, ending :: w.endings⟩

/-- Resets the registers after a runtime error. -/
def unwind (w : RegisterSession) (r : Registers) (e : RuntimeError) : RegisterSession :=
  { session := { w.session with
      machine := r.machine
      frames := []
      notes := w.session.notes.push (.failed r.frames.length e.message) }
    env := globalEnv
    endings := .failed :: w.endings }

/-- Gives a run up. -/
def stop (w : RegisterSession) (r : Registers) : RegisterSession :=
  ⟨{ w.session with machine := r.machine }, w.env, .stopped :: w.endings⟩

/-- The session after a run that ended in a fault, and the failure. -/
def fault (w : RegisterSession) (r : Registers) : Fault → RegisterSession × RunFailure
  | .issue issue line =>
    (w.unwind r (.ofIssue issue line r.frames), .error (.ofIssue issue line r.frames))
  | .overflow => (w.unwind r (.ofOverflow r.frames), .error (.ofOverflow r.frames))
  | .unset name => (w.keep r (.unset (activeCalls r.calls)), .unset name)
  | .malformed => (w.stop r, .malformed)
  | .endless => (w.stop r, .endless)

/-- Runs one entry, from the registers as they are. -/
def runEntry (w : RegisterSession) (entry : Entry) : RegisterSession × Option RunFailure :=
  let s := w.session
  match Stateful.program s.limits entry.statements .nil ⟨s.machine, w.env, s.frames, []⟩ with
  | .ok v r =>
    let w := w.keep r .completed
    let results := if entry.bare then s.results ++ [v.text] else s.results
    ({ w with session := { w.session with results } }, none)
  | .error fault r => ((w.fault r fault).1, some (w.fault r fault).2)

/-- Runs entries in order, up to the first that fails. -/
def runEntries (w : RegisterSession) (entries : List Entry) : RegisterSession × Option RunFailure :=
  runInTurn runEntry w entries

/-- Runs what is queued. -/
def run (w : RegisterSession) : RegisterSession × Option RunFailure :=
  runEntries { w with session := { w.session with queue := [] } } w.session.queue

/-- The session after a step. -/
def step (w : RegisterSession) : Step → RegisterSession
  | .act .run => w.run.1
  | .act action => { w with session := (w.session.act action).1 }
  | .dump => w

/-- The session after some steps from the beginning. -/
def afterSteps (path : String) (interactive : Bool) (limits : Limits) (clock : Nat → Float)
    (steps : List Step) : RegisterSession :=
  steps.foldl step (new path interactive limits clock)

end RegisterSession

/-! ### What holds between steps -/

/-- The current environment is the global one, and the stack holds the calls that
    were left behind. -/
structure RegisterSession.AtRest (w : RegisterSession) : Prop where
  env : w.env = globalEnv
  frames : w.session.frames = leftoverCalls w.endings

namespace RegisterSession

variable {w : RegisterSession}

/-- A run from registers at rest goes as it does in the session, and leaves them
    at rest. -/
theorem runEntry_atRest (h : w.AtRest) (entry : Entry) :
    (w.runEntry entry).1.AtRest ∧
      ((w.runEntry entry).1.session, (w.runEntry entry).2) = w.session.runEntry entry := by
  have hstep := runsLike_program w.session.limits ⟨w.session.env, w.session.frames⟩ entry.statements
    .nil ⟨w.session.machine, w.env, w.session.frames, []⟩ h.env rfl
  rw [Session.runEntry_eq]
  unfold runEntry
  dsimp only at hstep ⊢
  generalize Eval.program w.session.limits ⟨w.session.env, w.session.frames⟩ entry.statements .nil
    w.session.machine = out at hstep ⊢
  generalize Stateful.program w.session.limits entry.statements .nil
    ⟨w.session.machine, w.env, w.session.frames, []⟩ = out' at hstep ⊢
  cases hstep with
  | ok hevents => exact ⟨⟨h.env, h.frames⟩, rfl⟩
  | @error fault machine events active hevents =>
    cases fault with
    | issue issue line => exact ⟨⟨rfl, rfl⟩, rfl⟩
    | overflow => exact ⟨⟨rfl, rfl⟩, rfl⟩
    | unset name =>
      -- all events are of this run, so they tell which calls were active
      have hactive := hevents []
      refine ⟨⟨h.env, ?_⟩, rfl⟩
      show active ++ w.session.frames = activeCalls (events ++ []) ++ leftoverCalls w.endings
      rw [hactive, h.frames]
      simp [activeCalls]
    | malformed => exact ⟨⟨h.env, h.frames⟩, rfl⟩
    | endless => exact ⟨⟨h.env, h.frames⟩, rfl⟩

theorem runEntries_atRest (h : w.AtRest) (entries : List Entry) :
    (w.runEntries entries).1.AtRest ∧
      ((w.runEntries entries).1.session, (w.runEntries entries).2) =
        w.session.runEntries entries := by
  let R (p : RegisterSession × Option RunFailure) (q : Session × Option RunFailure) : Prop :=
    p.1.AtRest ∧ (p.1.session, p.2) = q
  refine runInTurn_alike_same (R := R) ?failure ?entry ⟨h, rfl⟩
  case failure =>
    rintro p _ ⟨-, rfl⟩
    rfl
  case entry =>
    rintro entry - w' _ ⟨hrest, hw'⟩
    cases hw'
    exact runEntry_atRest hrest entry

theorem run_atRest (h : w.AtRest) :
    w.run.1.AtRest ∧ (w.run.1.session, w.run.2) = w.session.run := by
  have hempty : RegisterSession.AtRest { w with session := { w.session with queue := [] } } :=
    ⟨h.env, h.frames⟩
  exact runEntries_atRest hempty w.session.queue

theorem add_frames (s : Session) (source : String) (line : Int) :
    (s.add source line).1.frames = s.frames := by
  unfold Session.add
  dsimp only
  split <;> rfl

/-- A step leaves the registers at rest, and the session is the one it should be. -/
theorem step_atRest (h : w.AtRest) (step : Step) :
    (w.step step).AtRest ∧ (w.step step).session = w.session.step step := by
  cases step with
  | dump => exact ⟨h, rfl⟩
  | act action =>
    cases action with
    | run =>
      obtain ⟨hrest, hrun⟩ := run_atRest h
      exact ⟨hrest, congrArg Prod.fst hrun⟩
    | add source line =>
      refine ⟨⟨h.env, ?_⟩, rfl⟩
      show (w.session.add source line).1.frames = _
      rw [add_frames, h.frames]
      rfl
    | pop =>
      refine ⟨⟨h.env, ?_⟩, rfl⟩
      have hframes : (w.session.act .pop).1.frames = w.session.frames := by
        simp only [Session.act, Session.pop?]
        cases w.session.results <;> rfl
      exact hframes.trans h.frames
    | takeOutput => exact ⟨⟨h.env, h.frames⟩, rfl⟩

theorem afterSteps_atRest (path : String) (interactive : Bool) (limits : Limits)
    (clock : Nat → Float) (steps : List Step) :
    (afterSteps path interactive limits clock steps).AtRest ∧
      (afterSteps path interactive limits clock steps).session =
        Session.afterSteps path interactive limits clock steps := by
  unfold afterSteps Session.afterSteps
  have hsteps (w : RegisterSession) (h : w.AtRest) : (steps.foldl step w).AtRest ∧
      (steps.foldl step w).session = steps.foldl Session.step w.session := by
    induction steps generalizing w with
    | nil => exact ⟨h, rfl⟩
    | cons s steps ih =>
      obtain ⟨hrest, hsession⟩ := step_atRest h s
      rw [List.foldl_cons, List.foldl_cons, ← hsession]
      exact ih (w.step s) hrest
  exact hsteps _ ⟨rfl, rfl⟩

end RegisterSession

/-- The registers between steps.  After any steps, with any mixture of completed
    runs, runtime errors, overflows and reads of unset variables, the current
    environment is the global one, and the stack of calls holds, newest first,
    the calls that were active at each read of an unset variable since the last
    runtime error.  Every expression and every statement that comes to its end
    leaves both registers as it found them. -/
theorem registers_between_steps :
    (∀ path interactive limits clock steps,
      (RegisterSession.afterSteps path interactive limits clock steps).session =
        Session.afterSteps path interactive limits clock steps ∧
      (RegisterSession.afterSteps path interactive limits clock steps).env = globalEnv ∧
      (Session.afterSteps path interactive limits clock steps).frames =
        leftoverCalls (RegisterSession.afterSteps path interactive limits clock steps).endings) ∧
    (∀ rounds n e, KeepsRegisters (Stateful.expr rounds n e)) ∧
    (∀ rounds n s, KeepsRegisters (Stateful.stmt rounds n s)) := by
  refine ⟨?_, ?_, ?_⟩
  · intro path interactive limits clock steps
    obtain ⟨hrest, hsession⟩ :=
      RegisterSession.afterSteps_atRest path interactive limits clock steps
    refine ⟨hsession, hrest.env, ?_⟩
    rw [← hsession]
    exact hrest.frames
  · intro rounds n e
    exact RunsLike.keepsRegisters fun ctx => (runsLike_walk rounds n).1 ctx e
  · intro rounds n s
    exact RunsLike.keepsRegisters fun ctx => (runsLike_walk rounds n).2 ctx s

end Treewalk
