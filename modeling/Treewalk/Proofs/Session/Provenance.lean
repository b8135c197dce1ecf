import Treewalk.Proofs.Provenance.Upkeep
import Treewalk.Proofs.Scope.Uniqueness
import Treewalk.Proofs.Session.Actions

/-! # The texts of a session

    Which texts a session has accepted is settled by what was added to it.  All code
    that it ever runs or keeps is on its site in these texts
    (`WatchedSession.reach_grounded`). -/

namespace Treewalk

/-! ### Accepted texts -/

/-- What resolution makes of the text that the action adds, if it is accepted. -/
def Action.accepted? (interactive : Bool) : Action → Option Resolution
  | .add source line =>
    match (check interactive source line).outcome with
    | .ok _ => some (resolve (parse interactive (scan source line).tokens).statements)
    | .error _ => none
  | _ => none

/-- The texts that a session has accepted after some actions, oldest first. -/
def acceptedTexts (interactive : Bool) (actions : List Action) : List Resolution :=
  actions.filterMap (·.accepted? interactive)

/-- The programs of some texts. -/
def programs (texts : List Resolution) : List (List ResolvedStmt) := texts.map (·.statements)

theorem acceptedTexts_append (interactive : Bool) (before more : List Action) :
    acceptedTexts interactive (before ++ more) =
      acceptedTexts interactive before ++ acceptedTexts interactive more :=
  List.filterMap_append

theorem acceptedTexts_singleton (interactive : Bool) (action : Action) :
    acceptedTexts interactive [action] = (action.accepted? interactive).toList := by
  unfold acceptedTexts
  cases haction : action.accepted? interactive <;> simp [haction]

theorem programs_append (texts more : List Resolution) :
    programs (texts ++ more) = programs texts ++ programs more :=
  List.map_append

/-- A text that is accepted has no errors, and what is queued is what resolution makes
    of it. -/
structure Accepts (interactive : Bool) (source : String) (line : Int) (entry : Entry) : Prop where
  parsed : (parse interactive (scan source line).tokens).errors = []
  resolved : (resolve (parse interactive (scan source line).tokens).statements).errors = []
  statements : entry.statements =
    (resolve (parse interactive (scan source line).tokens).statements).statements

theorem accepts_of_check {interactive : Bool} {source : String} {line : Int} {entry : Entry}
    {uses : Nat} (h : (check interactive source line).outcome = .ok (entry, uses)) :
    Accepts interactive source line entry := by
  unfold check at h
  simp only at h
  split at h
  · cases h
  · next hcomplaints =>
    split at h
    · cases h
    · next hresolved =>
      have hnil := byLine_eq_nil hcomplaints
      have hparse := List.map_eq_nil_iff.mp (List.append_eq_nil_iff.mp hnil).2
      cases h
      exact ⟨hparse, List.map_eq_nil_iff.mp hresolved, rfl⟩

/-- The texts are accepted programs. -/
def Resolved (texts : List Resolution) : Prop := ∀ program ∈ programs texts, AcceptedProgram program

theorem resolved_acceptedTexts (interactive : Bool) (actions : List Action) :
    Resolved (acceptedTexts interactive actions) := by
  intro program hprogram
  obtain ⟨r, hr, rfl⟩ := List.mem_map.mp hprogram
  obtain ⟨action, -, haction⟩ := List.mem_filterMap.mp hr
  cases action with
  | add source line =>
    cases hcheck : (check interactive source line).outcome with
    | error complaints => simp only [Action.accepted?, hcheck, reduceCtorEq] at haction
    | ok checked =>
      simp only [Action.accepted?, hcheck, Option.some.injEq] at haction
      subst haction
      have haccepts := accepts_of_check hcheck
      exact ⟨_, accepted_of_resolve (wellFormed_of_parse haccepts.parsed) haccepts.resolved⟩
  | _ => cases haction

/-! ### Sessions on site -/

/-- All that the session ran and keeps is on its site in the texts, and it queues only
    programs of these. -/
structure WatchedSession.Grounded (interactive : Bool) (texts : List Resolution)
    (w : WatchedSession) : Prop where
  mode : w.session.interactive = interactive
  state : OnSite (programs texts) (w.session.machine, w.history)
  queue : ∀ entry ∈ w.session.queue, entry.statements ∈ programs texts

/-- The machine at the end of a run. -/
def machineOf {ρ α : Type} : EStateM.Result Abort (Machine ρ) α → Machine ρ
  | .ok _ m => m
  | .error _ m => m

/-- What the run of an entry leaves alone. -/
theorem Session.finish_keeps {ρ : Type} (s : Session ρ) (entry : Entry ρ)
    (out : EStateM.Result Abort (Machine ρ) (Value ρ)) :
    (s.finish entry out).1.machine = machineOf out ∧
      (s.finish entry out).1.interactive = s.interactive ∧
      (s.finish entry out).1.queue = s.queue ∧
      (s.finish entry out).1.localUses = s.localUses := by
  cases out with
  | ok v m => exact ⟨rfl, rfl, rfl, rfl⟩
  | error cut m =>
    obtain ⟨fault, frames⟩ := cut
    cases fault <;> exact ⟨rfl, rfl, rfl, rfl⟩

/-- What is on site at the end of a computation, without the log. -/
theorem Stays.outcome {α : Type} {texts : List (List ResolvedStmt)} {s : Machine × History}
    {quiet : Prop} {post : α → Prop} {out : EStateM.Result Abort (Machine × History) α}
    (h : Stays texts s quiet post out) :
    OnSite texts (machineOf (forget out), logOf out) ∧
      (quiet → (machineOf (forget out)).globals = s.1.globals) := by
  cases h with
  | ok hs hglobals _ => exact ⟨hs, hglobals⟩
  | error hs hglobals => exact ⟨hs, hglobals⟩

/-- The statements of a text are on their sites at top level. -/
theorem sited_of_mem {texts : List (List ResolvedStmt)} {program : List ResolvedStmt}
    (hprogram : program ∈ texts) : ∀ t ∈ program, Sited texts globalEnv (.stmt t) := by
  intro t ht
  obtain ⟨a, ha⟩ := exists_phraseIn hprogram ht
  exact ⟨a, [], ha, .top⟩

namespace WatchedSession

variable {interactive : Bool} {texts : List Resolution} {w : WatchedSession}

theorem runEntry_grounded (htexts : Resolved texts) (h : Grounded interactive texts w)
    {entry : Entry} (hentry : entry.statements ∈ programs texts) :
    Grounded interactive texts (w.runEntry entry).1 := by
  have hrun := (stays_program htexts w.session.limits ⟨w.session.env, w.session.frames⟩
    .nil h.state (sited_of_mem hentry)).outcome.1
  unfold runEntry
  dsimp only
  generalize Watched.steps.program _ _ _ _ _ = out at hrun
  obtain ⟨hmachine, hmode, hqueue, -⟩ := w.session.finish_keeps entry (forget out)
  refine ⟨hmode.trans h.mode, ?_, ?_⟩
  · rw [hmachine]
    exact hrun
  · rw [hqueue]
    exact h.queue

theorem runEntries_grounded (htexts : Resolved texts) (h : Grounded interactive texts w)
    {entries : List Entry} (hentries : ∀ entry ∈ entries, entry.statements ∈ programs texts) :
    Grounded interactive texts (w.runEntries entries).1 := by
  refine runInTurn_preserves (P := fun p => Grounded interactive texts p.1) ?_ h
  exact fun entry hentry _ hw => runEntry_grounded htexts hw (hentries entry hentry)

theorem run_grounded (htexts : Resolved texts) (h : Grounded interactive texts w) :
    Grounded interactive texts w.run.1 := by
  have hempty : Grounded interactive texts { w with session := { w.session with queue := [] } } :=
    ⟨h.mode, h.state, nofun⟩
  exact runEntries_grounded htexts hempty h.queue

/-- More texts leave all that is there on its site. -/
theorem Grounded.append (h : Grounded interactive texts w) (r : Resolution) :
    OnSite (programs (texts ++ [r])) (w.session.machine, w.history) ∧
      ∀ entry ∈ w.session.queue, entry.statements ∈ programs (texts ++ [r]) := by
  rw [programs_append]
  refine ⟨⟨h.state.store.append _, fun event hevent => (h.state.events event hevent).append _⟩, ?_⟩
  exact fun entry hentry => List.mem_append_left _ (h.queue entry hentry)

theorem add_grounded (h : Grounded interactive texts w) (source : String) (line : Int) :
    Grounded interactive (texts ++ ((Action.add source line).accepted? interactive).toList)
      { w with session := (w.session.add source line).1 } := by
  obtain rfl : w.session.interactive = interactive := h.mode
  unfold Session.add
  dsimp only
  cases hcheck : (check w.session.interactive source line).outcome with
  | error complaints =>
    -- a text that is refused leaves the texts as they are
    simp only [Action.accepted?, hcheck, Option.toList_none, List.append_nil]
    exact ⟨rfl, h.state, h.queue⟩
  | ok checked =>
    obtain ⟨entry, uses⟩ := checked
    obtain ⟨-, -, hstatements⟩ := accepts_of_check hcheck
    simp only [Action.accepted?, hcheck, Option.toList_some]
    generalize resolve _ = r at hstatements ⊢
    obtain ⟨hstate, hqueue⟩ := h.append r
    refine ⟨rfl, hstate, ?_⟩
    intro other hother
    rcases List.mem_append.mp hother with hother | hother
    · exact hqueue other hother
    · cases List.mem_singleton.mp hother
      rw [hstatements]
      exact List.mem_map.mpr ⟨r, List.mem_append_right _ List.mem_cons_self, rfl⟩

theorem act_grounded (htexts : Resolved texts) (h : Grounded interactive texts w) (action : Action) :
    Grounded interactive (texts ++ (action.accepted? interactive).toList) (w.act action).1 := by
  have hnone {w' : WatchedSession} (h' : Grounded interactive texts w') :
      Grounded interactive (texts ++ []) w' := by
    rwa [List.append_nil]
  cases action with
  | add source line => exact add_grounded h source line
  | run => exact hnone (run_grounded htexts h)
  | pop =>
    refine hnone ?_
    unfold act Session.act Session.pop?
    dsimp only
    cases w.session.results <;> exact ⟨h.mode, h.state, h.queue⟩
  | takeOutput =>
    exact hnone ⟨h.mode, ⟨h.state.store, h.state.events⟩, h.queue⟩

theorem acts_grounded {before : List Action}
    (h : Grounded interactive (acceptedTexts interactive before) w) (actions : List Action) :
    Grounded interactive (acceptedTexts interactive (before ++ actions)) (w.acts actions).1 := by
  induction actions generalizing w before with
  | nil =>
    rw [List.append_nil]
    exact h
  | cons action actions ih =>
    have hfirst := act_grounded (resolved_acceptedTexts interactive before) h action
    rw [← acceptedTexts_singleton, ← acceptedTexts_append] at hfirst
    have hrest := ih hfirst
    rw [List.append_assoc] at hrest
    exact hrest

theorem new_grounded (path : String) (interactive : Bool) (limits : Limits)
    (clock : Nat → Float) :
    Grounded interactive [] (new path interactive limits clock) := by
  have hbare : StoreSited [] (Store.bare.identity.2 : Store Value) := by
    refine ⟨Nat.zero_lt_one, ?_, ?_⟩
    · intro scope name v hv
      unfold Store.bindings at hv
      cases scope <;> cases hv
    · intro object name v hv
      cases hv
  have hclock : StoreSited [] Store.initial := hbare.bind globalScope Native.clock.name trivial
  exact ⟨rfl, ⟨hclock, nofun⟩, nofun⟩

/-- Every session that can be reached is grounded in the texts it accepted. -/
theorem reach_grounded (path : String) (interactive : Bool) (limits : Limits) (clock : Nat → Float)
    (actions : List Action) : Grounded interactive (acceptedTexts interactive actions)
      (reach path interactive limits clock actions) := by
  have hnew : Grounded interactive (acceptedTexts interactive []) _ :=
    new_grounded path interactive limits clock
  exact acts_grounded hnew actions

end WatchedSession

end Treewalk
