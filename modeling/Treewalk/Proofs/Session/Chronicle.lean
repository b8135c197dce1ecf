import Treewalk.Proofs.Chronicle.Recorded
import Treewalk.Proofs.Session.Actions

/-! # Recorded sessions

    A session that keeps the chronicle of all its runs.  Without the chronicle it
    is the session itself (`run_records`, `reach_records`), so what holds of every
    chronicle holds of every session. -/

namespace Treewalk

/-- A session with the chronicle of its runs. -/
structure RecordedSession where
  /-- The session. -/
  session : Session
  /-- What its runs did so far, newest first. -/
  chronicle : Chronicle

namespace RecordedSession

/-- A recorded session before its first text. -/
def new (path : String) (interactive : Bool) (limits : Limits) (clock : Nat → Float) :
    RecordedSession :=
  ⟨.new path interactive limits clock, []⟩

/-- Runs one entry. -/
def runEntry (w : RecordedSession) (entry : Entry) : RecordedSession × Option RunFailure :=
  let s := w.session
  let result :=
    Recorded.steps.program s.limits ⟨s.env, s.frames⟩ entry.statements .nil (s.machine, w.chronicle)
  (⟨(s.finish entry (unrecorded result)).1, chronicleOf result⟩,
    (s.finish entry (unrecorded result)).2)

/-- Runs entries in order, up to the first that fails. -/
def runEntries (w : RecordedSession) (entries : List Entry) : RecordedSession × Option RunFailure :=
  runInTurn runEntry w entries

/-- Runs what is queued. -/
def run (w : RecordedSession) : RecordedSession × Option RunFailure :=
  runEntries { w with session := { w.session with queue := [] } } w.session.queue

/-- Does an action. -/
def act (w : RecordedSession) : Action → RecordedSession
  | .run => w.run.1
  | action => { w with session := (w.session.act action).1 }

/-- Does some actions in order. -/
def acts (w : RecordedSession) (actions : List Action) : RecordedSession := actions.foldl act w

/-- The recorded session that some actions lead to. -/
def reach (path : String) (interactive : Bool) (limits : Limits) (clock : Nat → Float)
    (actions : List Action) : RecordedSession :=
  (new path interactive limits clock).acts actions

/-! ### Without the chronicle -/

theorem runEntry_records (w : RecordedSession) (entry : Entry) :
    ((w.runEntry entry).1.session, (w.runEntry entry).2) = w.session.runEntry entry := by
  rw [Session.runEntry_eq]
  unfold runEntry
  dsimp only
  rw [records_program]

theorem runEntries_records (w : RecordedSession) (entries : List Entry) :
    ((w.runEntries entries).1.session, (w.runEntries entries).2) =
      w.session.runEntries entries :=
  runInTurn_map runEntry_records w entries

theorem run_records (w : RecordedSession) : (w.run.1.session, w.run.2) = w.session.run :=
  runEntries_records _ _

theorem act_records (w : RecordedSession) (action : Action) :
    (w.act action).session = (w.session.act action).1 := by
  cases action with
  | run => exact congrArg Prod.fst w.run_records
  | _ => rfl

/-- The chronicle changes nothing of a session. -/
theorem acts_records (w : RecordedSession) (actions : List Action) :
    (w.acts actions).session = (w.session.acts actions).1 := by
  induction actions generalizing w with
  | nil => rfl
  | cons action actions ih =>
    show ((w.act action).acts actions).session = ((w.session.act action).1.acts actions).1
    rw [ih, act_records]

theorem reach_records (path : String) (interactive : Bool) (limits : Limits) (clock : Nat → Float)
    (actions : List Action) : (reach path interactive limits clock actions).session =
      Session.reach path interactive limits clock actions :=
  acts_records _ actions

theorem acts_append (w : RecordedSession) (actions more : List Action) :
    w.acts (actions ++ more) = (w.acts actions).acts more :=
  List.foldl_append

end RecordedSession

end Treewalk
