import Treewalk.Proofs.Returns.Upkeep
import Treewalk.Proofs.Session.Upkeep

/-! # Returns in sessions

    A session with the log of the control of all its runs.  Since it queues accepted
    programs only, the log keeps the rules of control and is never left in the middle
    of a return, so that it tells of every `return` what came of it
    (`return_stays_in_its_call`). -/

namespace Treewalk

/-- A recorded session with the log of the control of its runs. -/
structure ControlledSession where
  /-- The session with its chronicle. -/
  recorded : RecordedSession
  /-- What happened to the control of its runs so far, newest first. -/
  log : ControlLog

namespace ControlledSession

/-- A session before its first text. -/
def new (path : String) (interactive : Bool) (limits : Limits) (clock : Nat → Float) :
    ControlledSession :=
  ⟨.new path interactive limits clock, []⟩

/-- The state of the machine, with the chronicle and the log. -/
def state (w : ControlledSession) : ControlState := (w.recorded.state, w.log)

/-- Runs one entry. -/
def runEntry (w : ControlledSession) (entry : Entry) : ControlledSession × Option RunFailure :=
  let s := w.recorded.session
  let result := Controlled.steps.program s.limits ⟨none, s.env, s.frames⟩ entry.statements .nil
    w.state
  let finished := s.finish entry (unrecorded (uncontrolled result))
  (⟨⟨finished.1, chronicleOf (uncontrolled result)⟩, controlOf result⟩, finished.2)

/-- Runs entries in order, up to the first that fails. -/
def runEntries (w : ControlledSession) (entries : List Entry) : ControlledSession × Option RunFailure :=
  runInTurn runEntry w entries

/-- The session with nothing queued. -/
def unqueued (w : ControlledSession) : ControlledSession :=
  { w with recorded := { w.recorded with session := { w.recorded.session with queue := [] } } }

/-- Runs what is queued. -/
def run (w : ControlledSession) : ControlledSession × Option RunFailure :=
  runEntries w.unqueued w.recorded.session.queue

/-- Does an action. -/
def act (w : ControlledSession) : Action → ControlledSession
  | .run => w.run.1
  | action => { w with recorded := w.recorded.act action }

/-- Does some actions in order. -/
def acts (w : ControlledSession) (actions : List Action) : ControlledSession := actions.foldl act w

/-- The session that some actions lead to. -/
def reach (path : String) (interactive : Bool) (limits : Limits) (clock : Nat → Float)
    (actions : List Action) : ControlledSession :=
  (new path interactive limits clock).acts actions

/-! ### Without the log -/

theorem runEntry_follows (w : ControlledSession) (entry : Entry) :
    ((w.runEntry entry).1.recorded, (w.runEntry entry).2) = w.recorded.runEntry entry := by
  unfold runEntry RecordedSession.runEntry state
  dsimp only
  rw [logs_program]
  rfl

theorem runEntries_follows (w : ControlledSession) (entries : List Entry) :
    ((w.runEntries entries).1.recorded, (w.runEntries entries).2) =
      w.recorded.runEntries entries :=
  runInTurn_map runEntry_follows w entries

theorem act_follows (w : ControlledSession) (action : Action) :
    (w.act action).recorded = w.recorded.act action := by
  cases action with
  | run => exact congrArg Prod.fst (runEntries_follows w.unqueued w.recorded.session.queue)
  | _ => rfl

theorem acts_follows (w : ControlledSession) (actions : List Action) :
    (w.acts actions).recorded = w.recorded.acts actions := by
  induction actions generalizing w with
  | nil => rfl
  | cons action actions ih =>
    show ((w.act action).acts actions).recorded = (w.recorded.act action).acts actions
    rw [ih, act_follows]

/-- The log changes nothing of a session. -/
theorem reach_follows (path : String) (interactive : Bool) (limits : Limits) (clock : Nat → Float)
    (actions : List Action) : (reach path interactive limits clock actions).recorded =
      .reach path interactive limits clock actions :=
  acts_follows _ actions

/-! ### Rules of control -/

/-- Anything may come next, and what is queued is accepted. -/
structure Calm (w : ControlledSession) : Prop where
  state : Treewalk.Calm w.state
  queue : ∀ entry ∈ w.recorded.session.queue, AcceptedProgram entry.statements

section Calm

variable {w : ControlledSession}

theorem Calm.inOrder (h : w.Calm) : w.recorded.InOrder := ⟨h.state.inOrder, h.queue⟩

theorem runEntry_calm (h : w.Calm) {entry : Entry} (hentry : AcceptedProgram entry.statements) :
    (w.runEntry entry).1.Calm := by
  have hattended (t : ResolvedStmt) (ht : t ∈ entry.statements) :
      Attended w.state.1.2 none ⟨w.recorded.session.env, w.recorded.session.frames⟩ (.stmt t) :=
    ⟨⟨entry.statements, [], hentry, .statement ht, .top⟩, ⟨_, hentry, .statement ht⟩, nofun⟩
  have hrun := goes_program w.recorded.session.limits _ .nil h.state hattended
  unfold runEntry
  dsimp only
  generalize Controlled.steps.program _ _ _ _ _ = out at hrun ⊢
  cases hrun with
  | ok _ hs => exact ⟨hs, h.queue⟩
  | @error cut s' hs =>
    -- what is noted of a failure leaves the machine and the queue alone
    obtain ⟨fault, frames⟩ := cut
    cases fault <;> exact ⟨hs, h.queue⟩

theorem runEntries_calm (h : w.Calm) {entries : List Entry}
    (hentries : ∀ entry ∈ entries, AcceptedProgram entry.statements) :
    (w.runEntries entries).1.Calm := by
  let P (p : ControlledSession × Option RunFailure) : Prop := p.1.Calm
  refine runInTurn_preserves (P := P) ?_ h
  exact fun entry hentry _ hw => runEntry_calm hw (hentries entry hentry)

/-- What is done between runs records nothing. -/
theorem act_calm (h : w.Calm) (action : Action) : (w.act action).Calm := by
  have hgoes := RecordedSession.act_goes h.inOrder action
  have hsame : ControlledSession.Calm { w with recorded := w.recorded.act action } :=
    ⟨⟨h.state.advance hgoes.inOrder.heap hgoes.later, h.state.rest⟩, hgoes.inOrder.queue⟩
  cases action with
  | run =>
    have hempty : w.unqueued.Calm := ⟨h.state, nofun⟩
    exact runEntries_calm hempty h.queue
  | _ => exact hsame

theorem acts_calm (h : w.Calm) (actions : List Action) : (w.acts actions).Calm := by
  induction actions generalizing w with
  | nil => exact h
  | cons action actions ih => exact ih (act_calm h action)

/-- Every session that can be reached is calm. -/
theorem reach_calm (path : String) (interactive : Bool) (limits : Limits) (clock : Nat → Float)
    (actions : List Action) : (reach path interactive limits clock actions).Calm := by
  have hnew := RecordedSession.new_inOrder path interactive limits clock
  have hcalm : (new path interactive limits clock).Calm :=
    ⟨⟨⟨hnew.heap, trivial, nofun⟩, trivial⟩, hnew.queue⟩
  exact acts_calm hcalm actions

end Calm

end ControlledSession

/-! ### Main result -/

/-- What the log of a session, newest event first, tells of its `return` statements. -/
structure ReturnsStayInside (h : Chronicle) (log : ControlLog) : Prop where
  /-- No statement at top level ends by a `return`. -/
  topLevel : ∀ completion, .settles completion ∈ log → completion = .normal
  /-- A `return` is executed in a body that runs.  The next thing that happens is that
      just this body ends, with the value of the `return`, and then its call yields. -/
  returned : ∀ after site v before, log = after ++ .returns site v :: before →
    Running before site ∧ ∃ a later w, site = some a ∧
      after = later ++ [.yields a.number w, .ends a (.returned v)] ∧ a.Delivers h (.returned v) w
  /-- The code of a body is taken up only while the body runs, and so neither after a
      `return` in it nor after its end. -/
  running : ∀ after a ph before, log = after ++ .takesUp (some a) ph :: before →
    Running before (some a) ∧ PartOf a.closure.body ph
  /-- A body ends with the value of the `return` that was just executed in it, or else
      none was.  The next thing that happens is that its call yields. -/
  ended : ∀ after a completion before, log = after ++ .ends a completion :: before →
    a.EndsWith before completion ∧
      ∃ later w, after = later ++ [.yields a.number w] ∧ a.Delivers h completion w
  /-- An initializer ends with nil. -/
  initializers : ∀ a completion, .ends a completion ∈ log → a.closure.isInitializer = true →
    completion.value = .nil
  /-- A body begins right behind the call that runs it. -/
  begun : ∀ after a before, log = after ++ .begins a :: before →
    ∃ callee earlier, before = .calls a.number callee :: earlier ∧ callee.Runs a.closure
  /-- No two calls have one number. -/
  numbered : ∀ after n callee before, log = after ++ .calls n callee :: before →
    ∀ e ∈ before, e.number? ≠ some n
  /-- A call yields what the end of its own body gives, unless it runs none. -/
  yielded : ∀ after n w before, log = after ++ .yields n w :: before →
    (∃ a completion earlier, before = .ends a completion :: earlier ∧ a.number = n ∧
      a.Delivers h completion w) ∨
    ∃ callee earlier, before = .calls n callee :: earlier ∧ ∀ c, ¬ callee.Runs c
  /-- The receiver of a bound method is an object, and there is only one. -/
  receivers : ∀ c w, BoundTo h c w →
    (∃ object d, w = .object object d) ∧ ∀ w', BoundTo h c w' → w' = w

theorem Disciplined.fits_of_mem {h : Chronicle} {log : ControlLog} (hlog : Disciplined h log)
    {e : ControlEvent} (he : e ∈ log) : ∃ before, e.Fits h before := by
  obtain ⟨after, before, rfl⟩ := List.append_of_mem he
  exact ⟨before, hlog.fits⟩

theorem InOrder.receiver_unique {s : Machine × Chronicle} (hs : InOrder s) {c : Closure}
    {w w' : Value} (hw : BoundTo s.2 c w) (hw' : BoundTo s.2 c w') : w' = w := by
  obtain ⟨scope, method, hbinds, rfl⟩ := hw
  obtain ⟨scope', method', hbinds', heq⟩ := hw'
  have hscope : scope = scope' := (List.cons.inj (congrArg Closure.env heq)).1
  subst hscope
  -- the scope has only one value for `this`
  have hthis := hs.kept.records _ hbinds
  have hthis' := hs.kept.records _ hbinds'
  exact Option.some.inj (Eq.trans (Eq.symm hthis') hthis)

theorem Calm.returnsStayInside {s : ControlState} (hs : Calm s) :
    ReturnsStayInside s.1.2 s.2 := by
  have hrules := hs.rules
  have hrest := hs.rest
  refine ⟨?_, ?_, ?_, ?_, ?_, ?_, ?_, ?_, ?_⟩
  · intro completion hmem
    obtain ⟨before, hfits⟩ := hrules.fits_of_mem hmem
    exact hfits.2
  · intro after site v before heq
    rw [heq] at hrules hrest
    exact ⟨hrules.fits.2.1, hrules.after_returns hrest⟩
  · intro after a ph before heq
    rw [heq] at hrules
    exact hrules.fits.2
  · intro after a completion before heq
    rw [heq] at hrules hrest
    exact ⟨hrules.fits.1, hrules.after_ends hrest⟩
  · intro a completion hmem
    obtain ⟨before, hfits⟩ := hrules.fits_of_mem hmem
    exact hfits.2
  · intro after a before heq
    rw [heq] at hrules
    exact hrules.fits
  · intro after n callee before heq
    rw [heq] at hrules
    exact hrules.fits.2
  · intro after n w before heq
    rw [heq] at hrules
    exact hrules.fits
  · intro c w hw
    refine ⟨?_, fun w' hw' => hs.inOrder.receiver_unique hw hw'⟩
    obtain ⟨scope, method, hbinds, -⟩ := hw
    obtain ⟨-, object, d, hobject, -⟩ := hs.inOrder.sound.bound hbinds
    exact ⟨object, d, hobject⟩

/-- A `return` is executed in an initializer. -/
def ControlEvent.returnsFromInitializer : ControlEvent → Bool
  | .returns (some a) _ => a.closure.isInitializer
  | _ => false

/-- A `return` in an initializer does not change what the call yields. -/
theorem ReturnsStayInside.from_initializer {h : Chronicle} {log : ControlLog}
    (hlog : ReturnsStayInside h log) (hany : log.any ControlEvent.returnsFromInitializer = true) :
    ∃ later a u v before, log =
        later ++ [.yields a.number u, .ends a (.returned v)] ++ .returns (some a) v :: before ∧
      a.closure.isInitializer = true ∧ BoundTo h a.closure u := by
  obtain ⟨e, he, hinit⟩ := List.any_eq_true.mp hany
  obtain ⟨after, before, hsplit⟩ := List.append_of_mem he
  cases e with
  | returns site v =>
    obtain ⟨-, a, later, u, rfl, rfl, hdelivers⟩ := hlog.returned _ _ _ _ hsplit
    have hflag : a.closure.isInitializer = true := hinit
    unfold Activation.Delivers at hdelivers
    rw [if_pos hflag] at hdelivers
    exact ⟨later, a, u, v, before, hsplit, hflag, hdelivers⟩
  | _ => cases hinit

/-- A `return` stays inside of its call.  In every session, of accepted programs that were
    run to their end or cut short: no statement at top level ends by a `return`.  A `return`
    ends the body that it is executed in, at once and no other, so that nothing more of the
    body is executed, no statement and no round of a loop.  Its value is what the call of
    this body yields, and no other call, and a call whose body ends without a `return`
    yields nil.  The body of an initializer ends with nil only, and each call that runs it
    yields the receiver that the initializer is bound to. -/
theorem return_stays_in_its_call (path : String) (interactive : Bool) (limits : Limits)
    (clock : Nat → Float) (actions : List Action) :
    let w := ControlledSession.reach path interactive limits clock actions
    w.recorded.session = Session.reach path interactive limits clock actions ∧
      ReturnsStayInside w.recorded.chronicle w.log := by
  intro w
  refine ⟨?_, (ControlledSession.reach_calm path interactive limits clock actions).state.returnsStayInside⟩
  rw [ControlledSession.reach_follows]
  exact RecordedSession.reach_records path interactive limits clock actions

/-- An initializer that returns from an endless loop, called as a method. -/
theorem return_from_initializer :
    let w := ControlledSession.reach "<in>" true ⟨40, 5⟩ (fun _ => 0)
      [.add "class A \x7b init() \x7b while (true) \x7b return; \x7d \x7d \x7d\nA().init();" 1, .run]
    ∃ later a u v before, w.log =
        later ++ [.yields a.number u, .ends a (.returned v)] ++ .returns (some a) v :: before ∧
      a.closure.isInitializer = true ∧ BoundTo w.recorded.chronicle a.closure u :=
  (return_stays_in_its_call "<in>" true ⟨40, 5⟩ (fun _ => 0)
    [.add "class A \x7b init() \x7b while (true) \x7b return; \x7d \x7d \x7d\nA().init();" 1,
      .run]).2.from_initializer (by decide +kernel +zetaReduce)

end Treewalk
