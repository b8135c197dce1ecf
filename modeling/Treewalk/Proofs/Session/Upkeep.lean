import Treewalk.Proofs.Chronicle.Upkeep
import Treewalk.Proofs.Session.Chronicle

/-! # Sessions keep the heap in order

    A session queues accepted programs only, so each of its runs keeps the heap in
    order, also one that is cut short; what it does between runs leaves the heap
    alone. -/

namespace Treewalk

namespace RecordedSession

variable {w : RecordedSession}

/-- The state of the machine, with the chronicle. -/
def state (w : RecordedSession) : Machine × Chronicle := (w.session.machine, w.chronicle)

/-- The heap is in order, and what is queued is accepted. -/
structure InOrder (w : RecordedSession) : Prop where
  heap : Treewalk.InOrder w.state
  queue : ∀ entry ∈ w.session.queue, AcceptedProgram entry.statements

/-- The session is still in order, and later. -/
structure Goes (w w' : RecordedSession) : Prop where
  inOrder : w'.InOrder
  later : Later w.state w'.state

theorem Goes.trans {w' w'' : RecordedSession} (h : Goes w w') (h' : Goes w' w'') : Goes w w'' :=
  ⟨h'.inOrder, h.later.trans h'.later⟩

/-! ### Runs -/

theorem runEntry_goes (h : w.InOrder) {entry : Entry} (hentry : AcceptedProgram entry.statements) :
    Goes w (w.runEntry entry).1 := by
  have hplaced (t : ResolvedStmt) (ht : t ∈ entry.statements) :
      Placed w.chronicle globalEnv (.stmt t) :=
    ⟨entry.statements, [], hentry, .statement ht, .top⟩
  have hrun := leads_program w.session.limits ⟨w.session.env, w.session.frames⟩ .nil h.heap hplaced
  unfold runEntry
  unfold state at hrun
  dsimp only
  generalize Recorded.steps.program _ _ _ _ _ = out at hrun ⊢
  cases hrun with
  | ok hs hlater _ => exact ⟨⟨hs, h.queue⟩, hlater⟩
  | @error cut s' hs hlater =>
    -- what is noted of a failure leaves the machine and the queue alone
    obtain ⟨fault, frames⟩ := cut
    cases fault <;> exact ⟨⟨hs, h.queue⟩, hlater⟩

theorem runEntries_goes (h : w.InOrder) {entries : List Entry}
    (hentries : ∀ entry ∈ entries, AcceptedProgram entry.statements) :
    Goes w (w.runEntries entries).1 := by
  refine runInTurn_preserves (P := fun p => Goes w p.1) ?_ ⟨h, .refl _⟩
  exact fun entry hentry _ hw => hw.trans (runEntry_goes hw.inOrder (hentries entry hentry))

theorem run_goes (h : w.InOrder) : Goes w w.run.1 := by
  have hempty : InOrder { w with session := { w.session with queue := [] } } := ⟨h.heap, nofun⟩
  have hrun := runEntries_goes hempty h.queue
  exact ⟨hrun.inOrder, hrun.later⟩

/-! ### Actions -/

/-- A text is queued only if it is accepted. -/
theorem add_goes (h : w.InOrder) (source : String) (line : Int) :
    Goes w { w with session := (w.session.add source line).1 } := by
  unfold Session.add
  dsimp only
  cases hcheck : (check w.session.interactive source line).outcome with
  | error complaints => exact ⟨⟨h.heap, h.queue⟩, .refl _⟩
  | ok checked =>
    obtain ⟨entry, uses⟩ := checked
    refine ⟨⟨h.heap, ?_⟩, .refl _⟩
    intro e he
    rcases List.mem_append.mp he with he | he
    · exact h.queue e he
    · cases List.mem_singleton.mp he
      exact ⟨_, (accepted_of_check hcheck).accepted⟩

theorem act_goes (h : w.InOrder) (action : Action) : Goes w (w.act action) := by
  cases action with
  | run => exact run_goes h
  | add source line => exact add_goes h source line
  | pop =>
    unfold act Session.act Session.pop?
    dsimp only
    cases w.session.results <;> exact ⟨⟨h.heap, h.queue⟩, .refl _⟩
  | takeOutput => exact ⟨⟨⟨h.heap.sound, h.heap.kept⟩, h.queue⟩, List.suffix_rfl, .refl _⟩

theorem acts_goes (h : w.InOrder) (actions : List Action) : Goes w (w.acts actions) := by
  induction actions generalizing w with
  | nil => exact ⟨h, .refl _⟩
  | cons action actions ih =>
    have hfirst := act_goes h action
    exact hfirst.trans (ih hfirst.inOrder)

theorem new_inOrder (path : String) (interactive : Bool) (limits : Limits) (clock : Nat → Float) :
    (new path interactive limits clock).InOrder := by
  have hkept : Kept [] Store.initial := by
    have hbare : Kept [] (Store.bare.identity.2 : Store Value) := by
      have hempty (scope : ScopeId) (name : String) :
          ((Store.bare.identity.2 : Store Value).bindings scope).find? name = none := by
        unfold Store.bindings
        cases scope <;> rfl
      refine ⟨rfl, rfl, ?_, ?_, nofun⟩
      · intro scope name v hv
        rw [hempty] at hv
        cases hv
      · intro object name v hv
        cases hv
    have hclock : Unreserved Native.clock.name := by
      unfold Unreserved
      decide
    exact hbare.bind trivial (.inl hclock)
  exact ⟨⟨trivial, hkept⟩, nofun⟩

/-- Every session that can be reached is in order. -/
theorem reach_inOrder (path : String) (interactive : Bool) (limits : Limits) (clock : Nat → Float)
    (actions : List Action) : (reach path interactive limits clock actions).InOrder :=
  (acts_goes (new_inOrder path interactive limits clock) actions).inOrder

end RecordedSession

end Treewalk
