import Treewalk.Proofs.Session.Registers
import Treewalk.Proofs.Session.Splitting

/-! # The diary of a session

    What becomes of the entries of a session.  Every accepted entry is known by the
    step that added it, and a diary notes for each step what happened in it: which
    entry was queued, which entries were interpreted and how that ended, what was
    shown and what was listed.  The diary tells that entries are interpreted in order
    and at most once, by the first run after them. -/

namespace Treewalk

/-! ### Interpretations -/

/-- An entry, with the number of the step that added it. -/
structure Ticket where
  /-- The number of the step. -/
  step : Nat
  /-- The entry. -/
  entry : Entry

/-- The interpretation of an entry. -/
structure Interpretation where
  /-- What is interpreted. -/
  ticket : Ticket
  /-- How that ends. -/
  outcome : EStateM.Result Abort Machine Value

namespace Interpretation

/-- It was cut short. -/
def raised (i : Interpretation) : Bool :=
  match i.outcome with
  | .ok _ _ => false
  | .error _ _ => true

/-- The value to be shown of it: that of a bare expression. -/
def echo? (i : Interpretation) : Option String :=
  match i.outcome with
  | .ok v _ => if i.ticket.entry.bare then some v.text else none
  | .error _ _ => none

end Interpretation

namespace Session

/-- The interpretation of an entry in a session. -/
def interpret (s : Session) (t : Ticket) : Interpretation :=
  ⟨t, Eval.program s.limits ⟨s.env, s.frames⟩ t.entry.statements .nil s.machine⟩

/-- Interprets entries in order, up to the first that is cut short. -/
def interpretAll (s : Session) : List Ticket → List Interpretation × Session × Option RunFailure
  | [] => ([], s, none)
  | t :: ts =>
    match s.finish t.entry (s.interpret t).outcome with
    | (s', none) => (s.interpret t :: (interpretAll s' ts).1, (interpretAll s' ts).2)
    | (s', some failure) => ([s.interpret t], s', some failure)

theorem interpretAll_next {s s' : Session} {t : Ticket} (ts : List Ticket)
    (h : s.finish t.entry (s.interpret t).outcome = (s', none)) :
    s.interpretAll (t :: ts) = (s.interpret t :: (s'.interpretAll ts).1, (s'.interpretAll ts).2) := by
  rw [interpretAll, h]

theorem interpretAll_raised {s s' : Session} {t : Ticket} (ts : List Ticket) {failure : RunFailure}
    (h : s.finish t.entry (s.interpret t).outcome = (s', some failure)) :
    s.interpretAll (t :: ts) = ([s.interpret t], s', some failure) := by
  rw [interpretAll, h]

theorem finish_failure (s : Session) (i : Interpretation) :
    (s.finish i.ticket.entry i.outcome).2.isSome = i.raised := by
  unfold Interpretation.raised
  cases i.outcome <;> rfl

theorem finish_results (s : Session) (i : Interpretation) :
    (s.finish i.ticket.entry i.outcome).1.results = s.results ++ i.echo?.toList := by
  unfold Interpretation.echo?
  cases i.outcome with
  | ok v m =>
    show (if i.ticket.entry.bare then s.results ++ [v.text] else s.results) = _
    cases i.ticket.entry.bare
    · exact (List.append_nil _).symm
    · rfl
  | error cut m =>
    obtain ⟨fault, frames⟩ := cut
    cases fault <;> exact (List.append_nil _).symm

theorem queue_runEntries (s : Session) (entries : List Entry) :
    (s.runEntries entries).1.queue = s.queue := by
  let P (p : Session × Option RunFailure) : Prop := p.1.queue = s.queue
  refine runInTurn_preserves (P := P) ?_ rfl
  exact fun entry _ s' hs' => (queue_runEntry s' entry).trans hs'

/-- Nothing is queued after a run, whether it failed or not. -/
theorem queue_run (s : Session) : s.run.1.queue = [] :=
  queue_runEntries { s with queue := [] } s.queue

/-- Without the interpretations, it is the run of the entries. -/
theorem interpretAll_runs (s : Session) (ts : List Ticket) :
    (s.interpretAll ts).2 = s.runEntries (ts.map (·.entry)) := by
  induction ts generalizing s with
  | nil => rfl
  | cons t ts ih =>
    have hentry : s.runEntry t.entry = s.finish t.entry (s.interpret t).outcome :=
      s.runEntry_eq t.entry
    rw [List.map_cons, runEntries, runInTurn, hentry]
    cases hfinish : s.finish t.entry (s.interpret t).outcome with
    | mk s' failure =>
      cases failure with
      | none =>
        rw [interpretAll_next ts hfinish]
        exact ih s'
      | some failure => rw [interpretAll_raised ts hfinish]

/-- What is interpreted comes first in the queue. -/
theorem interpretAll_tickets (s : Session) (ts : List Ticket) :
    (s.interpretAll ts).1.map (·.ticket) <+: ts := by
  induction ts generalizing s with
  | nil => exact List.prefix_rfl
  | cons t ts ih =>
    cases hfinish : s.finish t.entry (s.interpret t).outcome with
    | mk s' failure =>
      cases failure with
      | none =>
        rw [interpretAll_next ts hfinish]
        exact List.cons_prefix_cons.mpr ⟨rfl, ih s'⟩
      | some failure =>
        rw [interpretAll_raised ts hfinish]
        exact List.cons_prefix_cons.mpr ⟨rfl, List.nil_prefix⟩

/-- What is to be shown of the interpretations is added to what was to be shown. -/
theorem interpretAll_results (s : Session) (ts : List Ticket) :
    (s.interpretAll ts).2.1.results = s.results ++ (s.interpretAll ts).1.filterMap (·.echo?) := by
  induction ts generalizing s with
  | nil => exact (List.append_nil _).symm
  | cons t ts ih =>
    have hresults := s.finish_results (s.interpret t)
    rw [show (s.interpret t).ticket = t from rfl] at hresults
    cases hfinish : s.finish t.entry (s.interpret t).outcome with
    | mk s' failure =>
      rw [hfinish] at hresults
      cases failure with
      | none =>
        rw [interpretAll_next ts hfinish]
        dsimp only at hresults ⊢
        rw [ih s', hresults, List.append_assoc, List.filterMap_cons]
        cases (s.interpret t).echo? <;> rfl
      | some failure =>
        rw [interpretAll_raised ts hfinish]
        dsimp only at hresults ⊢
        rw [hresults, List.filterMap_cons]
        cases (s.interpret t).echo? <;> rfl

/-- An entry is interpreted unless one before it is cut short. -/
theorem interpretAll_reaches (s : Session) {ts : List Ticket}
    (hordered : ts.Pairwise fun a b => a.step < b.step) {t : Ticket} (ht : t ∈ ts) :
    t ∈ (s.interpretAll ts).1.map (·.ticket) ↔
      ∀ i ∈ (s.interpretAll ts).1, i.ticket.step < t.step → i.raised = false := by
  induction ts generalizing s with
  | nil => cases ht
  | cons first ts ih =>
    obtain ⟨hfirst, hordered⟩ := List.pairwise_cons.mp hordered
    have hraised := s.finish_failure (s.interpret first)
    rw [show (s.interpret first).ticket = first from rfl] at hraised
    cases hfinish : s.finish first.entry (s.interpret first).outcome with
    | mk s' failure =>
      rw [hfinish] at hraised
      -- the first entry is always interpreted; what is behind it depends on how it ends
      rcases List.mem_cons.mp ht with rfl | hmem
      · refine ⟨fun _ i hi hlt => ?_, fun _ => ?_⟩
        · have hfront := (s.interpretAll_tickets (t :: ts)).subset (List.mem_map_of_mem hi)
          rcases List.mem_cons.mp hfront with heq | hlater
          · rw [heq] at hlt
            exact absurd hlt (Nat.lt_irrefl _)
          · exact absurd hlt (Nat.lt_asymm (hfirst _ hlater))
        · cases failure with
          | none => simp [interpretAll_next ts hfinish, interpret]
          | some failure => simp [interpretAll_raised ts hfinish, interpret]
      · have hne : t ≠ first := by
          rintro rfl
          exact Nat.lt_irrefl _ (hfirst t hmem)
        cases failure with
        | none =>
          rw [interpretAll_next ts hfinish]
          have hrest := ih s' hordered hmem
          simp only [List.map_cons, List.mem_cons, forall_eq_or_imp]
          constructor
          · rintro (heq | hin)
            · exact absurd heq hne
            · exact ⟨fun _ => hraised.symm, hrest.mp hin⟩
          · rintro ⟨-, hnone⟩
            exact .inr (hrest.mpr hnone)
        | some failure =>
          rw [interpretAll_raised ts hfinish]
          simp only [List.map_cons, List.map_nil, List.mem_singleton, forall_eq]
          constructor
          · intro heq
            exact absurd heq hne
          · intro hnone
            have hcontra := hnone (hfirst t hmem)
            rw [← hraised] at hcontra
            cases hcontra

end Session

/-! ### Diaries -/

/-- What happens in a step. -/
inductive Happening where
  /-- A text is added; if it is accepted, an entry is queued. -/
  | added (queued : Option Ticket)
  /-- What is queued is run: the entries that are interpreted. -/
  | ran (played : List Interpretation)
  /-- A value is shown, if there is one. -/
  | popped (shown : Option String)
  /-- What is queued is listed, or what was printed is written out. -/
  | looked

namespace Happening

/-- The entry that is queued. -/
def ticket? : Happening → Option Ticket
  | .added queued => queued
  | _ => none

/-- The entries that are interpreted. -/
def played : Happening → List Interpretation
  | .ran played => played
  | _ => []

/-- The value that is shown. -/
def shown? : Happening → Option String
  | .popped shown => shown
  | _ => none

/-- What is queued after a step, given what was queued before. -/
def requeue (queue : List Ticket) : Happening → List Ticket
  | .added queued => queue ++ queued.toList
  | .ran _ => []
  | _ => queue

end Happening

/-- The happenings so far, oldest first; there is one for each step. -/
abbrev Diary := List Happening

namespace Diary

/-- The accepted entries in order. -/
def accepted (d : Diary) : List Ticket := d.filterMap Happening.ticket?

/-- The interpretations in order. -/
def played (d : Diary) : List Interpretation := d.flatMap Happening.played

/-- The values of interpreted bare expressions, in order. -/
def echoes (d : Diary) : List String := d.played.filterMap (·.echo?)

/-- The values that were shown, in order. -/
def shown (d : Diary) : List String := d.filterMap Happening.shown?

/-- The entries that were accepted since the last run, in order. -/
def waiting (d : Diary) : List Ticket := d.foldl Happening.requeue []

section Snoc

variable (d : Diary) (x : Happening)

@[simp] theorem accepted_snoc : accepted (d ++ [x]) = d.accepted ++ x.ticket?.toList := by
  unfold accepted
  rw [List.filterMap_append, List.filterMap_cons]
  cases x.ticket? <;> rfl

@[simp] theorem played_snoc : played (d ++ [x]) = d.played ++ x.played := by
  unfold played
  rw [List.flatMap_append, List.flatMap_singleton]

@[simp] theorem echoes_snoc : echoes (d ++ [x]) = d.echoes ++ x.played.filterMap (·.echo?) := by
  unfold echoes
  rw [played_snoc, List.filterMap_append]

@[simp] theorem shown_snoc : shown (d ++ [x]) = d.shown ++ x.shown?.toList := by
  unfold shown
  rw [List.filterMap_append, List.filterMap_cons]
  cases x.shown? <;> rfl

@[simp] theorem waiting_snoc : waiting (d ++ [x]) = Happening.requeue d.waiting x := by
  unfold waiting
  rw [List.foldl_append]
  rfl

end Snoc

end Diary

/-- A session with its diary. -/
structure DiarySession where
  /-- The session. -/
  session : Session
  /-- What is queued, with the steps that added it. -/
  queued : List Ticket
  /-- What happened so far. -/
  diary : Diary

namespace DiarySession

/-- A session before its first step. -/
def new (path : String) (interactive : Bool) (limits : Limits) (clock : Nat → Float) :
    DiarySession :=
  ⟨.new path interactive limits clock, [], []⟩

/-- The ticket of a text, if it is accepted. -/
def ticketFor (w : DiarySession) (source : String) (line : Int) : Option Ticket :=
  match (check w.session.interactive source line).outcome with
  | .ok (entry, _) => some ⟨w.diary.length, entry⟩
  | .error _ => none

/-- What a run does now. -/
def run (w : DiarySession) : List Interpretation × Session × Option RunFailure :=
  Session.interpretAll { w.session with queue := [] } w.queued

/-- The session after a step. -/
def step (w : DiarySession) : Step → DiarySession
  | .act (.add source line) =>
    ⟨(w.session.add source line).1, w.queued ++ (w.ticketFor source line).toList,
      w.diary ++ [.added (w.ticketFor source line)]⟩
  | .act .run => ⟨w.run.2.1, [], w.diary ++ [.ran w.run.1]⟩
  | .act .pop =>
    ⟨(w.session.act .pop).1, w.queued, w.diary ++ [.popped (w.session.pop?.map (·.1))]⟩
  | .act .takeOutput => ⟨w.session.takeOutput.2, w.queued, w.diary ++ [.looked]⟩
  | .dump => ⟨w.session, w.queued, w.diary ++ [.looked]⟩

/-- The session after some steps. -/
def steps (w : DiarySession) (steps : List Step) : DiarySession := steps.foldl step w

/-- The session after some steps from the beginning. -/
def after (path : String) (interactive : Bool) (limits : Limits) (clock : Nat → Float)
    (steps : List Step) : DiarySession :=
  (new path interactive limits clock).steps steps

/-! ### What the diary keeps -/

/-- The diary is about the session. -/
structure Faithful (w : DiarySession) : Prop where
  entries : w.queued.map (·.entry) = w.session.queue
  waiting : w.queued = w.diary.waiting
  once : List.Sublist (w.diary.played.map (·.ticket) ++ w.queued) w.diary.accepted
  ordered : w.diary.accepted.Pairwise fun a b => a.step < b.step
  earlier : ∀ t ∈ w.diary.accepted, t.step < w.diary.length
  results : w.diary.shown ++ w.session.results = w.diary.echoes

variable {w : DiarySession}

theorem Faithful.queued_ordered (h : w.Faithful) : w.queued.Pairwise fun a b => a.step < b.step :=
  h.ordered.sublist ((List.sublist_append_right _ _).trans h.once)

theorem run_session (h : w.Faithful) : w.run.2 = w.session.run := by
  unfold run Session.run
  rw [Session.interpretAll_runs, h.entries]

/-- A step in which nothing is queued or interpreted. -/
theorem Faithful.idle (h : w.Faithful) {s : Session} {x : Happening}
    (hqueue : s.queue = w.session.queue) (hwaiting : x.requeue w.queued = w.queued)
    (hticket : x.ticket? = none) (hplayed : x.played = [])
    (hresults : x.shown?.toList ++ s.results = w.session.results) :
    Faithful ⟨s, w.queued, w.diary ++ [x]⟩ := by
  refine ⟨h.entries.trans hqueue.symm, ?_, ?_, ?_, ?_, ?_⟩
  · simp only [Diary.waiting_snoc, ← h.waiting, hwaiting]
  · simp only [Diary.played_snoc, Diary.accepted_snoc, hticket, hplayed]
    simpa using h.once
  · simp only [Diary.accepted_snoc, hticket]
    simpa using h.ordered
  · intro t ht
    simp only [Diary.accepted_snoc, hticket, Option.toList_none, List.append_nil] at ht
    have hlt := h.earlier t ht
    simp only [List.length_append]
    omega
  · simp only [Diary.shown_snoc, Diary.echoes_snoc, hplayed, List.filterMap_nil, List.append_nil]
    rw [List.append_assoc, hresults, h.results]

/-- A text is queued as the newest entry, if it is accepted. -/
theorem add_faithful (h : w.Faithful) (source : String) (line : Int) :
    (w.step (.act (.add source line))).Faithful := by
  cases hcheck : (check w.session.interactive source line).outcome with
  | error complaints =>
    have hticket : w.ticketFor source line = none := by
      unfold ticketFor
      rw [hcheck]
    have hsame : (w.session.add source line).1.queue = w.session.queue ∧
        (w.session.add source line).1.results = w.session.results := by
      unfold Session.add
      simp only [hcheck, and_self]
    show Faithful ⟨(w.session.add source line).1, w.queued ++ (w.ticketFor source line).toList,
      w.diary ++ [.added (w.ticketFor source line)]⟩
    rw [hticket, Option.toList_none, List.append_nil]
    exact h.idle hsame.1 (List.append_nil _) rfl rfl hsame.2
  | ok checked =>
    obtain ⟨entry, uses⟩ := checked
    have hticket : w.ticketFor source line = some ⟨w.diary.length, entry⟩ := by
      unfold ticketFor
      rw [hcheck]
    have hqueue : (w.session.add source line).1.queue = w.session.queue ++ [entry] ∧
        (w.session.add source line).1.results = w.session.results := by
      unfold Session.add
      simp only [hcheck, and_self]
    show Faithful ⟨(w.session.add source line).1, w.queued ++ (w.ticketFor source line).toList,
      w.diary ++ [.added (w.ticketFor source line)]⟩
    rw [hticket]
    refine ⟨?_, ?_, ?_, ?_, ?_, ?_⟩
    · simp [h.entries, hqueue.1]
    · simp [← h.waiting, Happening.requeue]
    · simp only [Diary.played_snoc, Diary.accepted_snoc, Happening.played, Happening.ticket?,
        List.append_nil, Option.toList_some]
      rw [← List.append_assoc]
      exact h.once.append_right _
    · simp only [Diary.accepted_snoc, Happening.ticket?, Option.toList_some]
      refine List.pairwise_append.mpr ⟨h.ordered, List.pairwise_singleton _ _, ?_⟩
      intro t ht t' ht'
      cases List.mem_singleton.mp ht'
      exact h.earlier t ht
    · intro t ht
      simp only [Diary.accepted_snoc, Happening.ticket?, Option.toList_some] at ht
      simp only [List.length_append, List.length_singleton]
      rcases List.mem_append.mp ht with ht | ht
      · have hlt := h.earlier t ht
        omega
      · cases List.mem_singleton.mp ht
        exact Nat.lt_succ_self _
    · simp [hqueue.2, h.results, Happening.shown?, Happening.played]

/-- The entries that a run interprets come from the front of the queue, and the others
    are dropped. -/
theorem run_faithful (h : w.Faithful) : (w.step (.act .run)).Faithful := by
  have hqueue : w.run.2.1.queue = [] := by
    rw [run_session h]
    exact Session.queue_run w.session
  have hfront : w.run.1.map (·.ticket) <+: w.queued := Session.interpretAll_tickets _ _
  have hresults : w.run.2.1.results = w.session.results ++ w.run.1.filterMap (·.echo?) :=
    Session.interpretAll_results _ _
  unfold step
  refine ⟨?_, ?_, ?_, ?_, ?_, ?_⟩
  · exact hqueue.symm
  · simp [Happening.requeue]
  · simp only [Diary.played_snoc, Diary.accepted_snoc, Happening.played, Happening.ticket?,
      List.append_nil, Option.toList_none, List.map_append]
    exact (hfront.sublist.append_left _).trans h.once
  · simpa [Happening.ticket?] using h.ordered
  · intro t ht
    simp only [Diary.accepted_snoc, Happening.ticket?, Option.toList_none, List.append_nil] at ht
    have hlt := h.earlier t ht
    simp only [List.length_append]
    omega
  · simp only [Diary.shown_snoc, Diary.echoes_snoc, Happening.shown?, Happening.played,
      Option.toList_none, List.append_nil]
    rw [hresults, ← List.append_assoc, h.results]

theorem step_faithful (h : w.Faithful) (step : Step) : (w.step step).Faithful := by
  cases step with
  | dump => exact h.idle rfl rfl rfl rfl rfl
  | act action =>
    cases action with
    | add source line => exact add_faithful h source line
    | run => exact run_faithful h
    | takeOutput => exact h.idle rfl rfl rfl rfl rfl
    | pop =>
      refine h.idle ?_ rfl rfl rfl ?_
      · unfold Session.act Session.pop?
        cases w.session.results <;> rfl
      · unfold Session.act Session.pop?
        cases hresults : w.session.results with
        | nil => exact hresults
        | cons r rest => rfl

/-- The session goes on as it would without a diary. -/
theorem step_session (h : w.Faithful) (step : Step) :
    (w.step step).session = w.session.step step := by
  cases step with
  | dump => rfl
  | act action =>
    cases action with
    | run => exact congrArg Prod.fst (run_session h)
    | _ => rfl

theorem steps_faithful (h : w.Faithful) (steps : List Step) :
    (w.steps steps).Faithful ∧ (w.steps steps).session = steps.foldl Session.step w.session := by
  induction steps generalizing w with
  | nil => exact ⟨h, rfl⟩
  | cons step steps ih =>
    rw [List.foldl_cons, ← step_session h step]
    exact ih (step_faithful h step)

theorem after_faithful (path : String) (interactive : Bool) (limits : Limits) (clock : Nat → Float)
    (steps : List Step) : (after path interactive limits clock steps).Faithful ∧
      (after path interactive limits clock steps).session =
        Session.afterSteps path interactive limits clock steps := by
  have hnew : (new path interactive limits clock).Faithful :=
    ⟨rfl, rfl, .slnil, .nil, nofun, rfl⟩
  exact steps_faithful hnew steps

example : (after "<in>" true ⟨20, 20⟩ (fun _ => 0) [.act (.add "1" 1), .act (.add "1 +" 1),
    .act (.add "nil.x" 1), .act (.add "2" 1), .act .run, .act (.add "3" 1),
    .act .run]).diary.played.map (·.ticket.step) = [0, 2, 5] := by
  decide +kernel

end DiarySession

end Treewalk
