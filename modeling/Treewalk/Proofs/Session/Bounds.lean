import Treewalk.Proofs.Bounds
import Treewalk.Proofs.Session.Actions

/-! # Sessions under two bounds

    A session whose runs may nest deeper does what it would have done, unless it would
    have ended in a stack overflow; and then it prints at least as much. -/

namespace Treewalk

/-- The same session under other bounds. -/
def Session.withLimits (s : Session) (limits : Limits) : Session := { s with limits }

/-- A run ended because evaluation was nested too deeply. -/
def Overflows : Option RunFailure → Prop
  | some (.error e) => e.message = RuntimeError.overflowMessage
  | _ => False

instance : DecidablePred Overflows
  | some (.error e) => inferInstanceAs (Decidable (e.message = RuntimeError.overflowMessage))
  | some (.unset _) | some .malformed | some .endless | none => inferInstanceAs (Decidable False)

/-- A run ended because a loop went round too often. -/
def Endless (failure : Option RunFailure) : Prop := failure = some .endless

instance : DecidablePred Endless := fun failure =>
  inferInstanceAs (Decidable (failure = some .endless))

/-! ### What is printed -/

theorem unlines_append (ls more : List String) :
    Text.unlines (ls ++ more) = Text.unlines ls ++ Text.unlines more := by
  have hfrom (text : String) : more.foldl (fun text l => text ++ l ++ "\n") text =
      text ++ Text.unlines more := by
    induction more generalizing text with
    | nil => simp [Text.unlines]
    | cons l more ih =>
      simp only [Text.unlines, List.foldl_cons] at ih ⊢
      rw [ih, ih ("" ++ l ++ "\n")]
      simp only [String.append_assoc, String.empty_append]
  rw [← hfrom, Text.unlines, Text.unlines, List.foldl_append]

/-- More lines make a longer text. -/
theorem output_prefix {m m' : Machine} (h : m.printed.toList <+: m'.printed.toList) :
    ∃ more, m'.output = m.output ++ more := by
  obtain ⟨more, hmore⟩ := h
  exact ⟨Text.unlines more, by rw [Machine.output, ← hmore, unlines_append, Machine.output]⟩

/-! ### Runs -/

/-- A run of a session goes as under other bounds, or was ended by its own bounds, and
    what was printed before that is printed under the other bounds as well. -/
inductive RunsOn (ended : Option RunFailure → Prop) (limits' : Limits)
    (p p' : Session × Option RunFailure) : Prop
  | same : p' = (p.1.withLimits limits', p.2) → RunsOn ended limits' p p'
  | later : ended p.2 → p.1.machine.printed.toList <+: p'.1.machine.printed.toList →
      RunsOn ended limits' p p'

namespace Session

variable {cut : Fault → Prop} {ended : Option RunFailure → Prop} {limits limits' : Limits}

theorem machine_abort (s : Session) (a : Abort) : (s.abort a).1.machine = s.machine := by
  obtain ⟨fault, frames⟩ := a
  cases fault <;> rfl

theorem printed_finish (s : Session) (entry : Entry) (out : EStateM.Result Abort Machine Value) :
    (s.finish entry out).1.machine.printed.toList = linesAt out := by
  cases out with
  | ok v m => rfl
  | error a m =>
    show (Session.abort { s with machine := m } a).1.machine.printed.toList = m.printed.toList
    rw [machine_abort]

/-- Taking an outcome into the session does not depend on the bounds. -/
theorem finish_withLimits (s : Session) (entry : Entry)
    (out : EStateM.Result Abort Machine Value) : (s.withLimits limits').finish entry out =
      ((s.finish entry out).1.withLimits limits', (s.finish entry out).2) := by
  cases out with
  | ok v m => rfl
  | error a m =>
    obtain ⟨fault, frames⟩ := a
    cases fault <;> rfl

/-- A session whose program outlasts the one under its own bounds. -/
theorem runsOn_finish (hended : ∀ (s : Session) a, cut a.fault → ended (some (s.abort a).2))
    (s : Session) (entry : Entry) {out out' : EStateM.Result Abort Machine Value}
    (h : Outlasts cut out out') :
    RunsOn ended limits' (s.finish entry out) ((s.withLimits limits').finish entry out') := by
  cases h with
  | same => exact .same (finish_withLimits s entry out)
  | later hcut hlines =>
    refine .later (hended _ _ hcut) ?_
    rw [printed_finish, printed_finish]
    exact hlines

theorem printed_runEntry (s : Session) (entry : Entry) :
    s.machine.printed.toList <+: (s.runEntry entry).1.machine.printed.toList := by
  rw [runEntry_eq, printed_finish]
  have hself : Prolonged (· = .endless)
      (Eval.program s.limits ⟨s.env, s.frames⟩ entry.statements .nil)
      (Eval.program s.limits ⟨s.env, s.frames⟩ entry.statements .nil) :=
    prolonged_program (.inl rfl) (.inl rfl) _ _ _
  exact hself.prints _

theorem printed_runEntries (s : Session) (entries : List Entry) :
    s.machine.printed.toList <+: (s.runEntries entries).1.machine.printed.toList := by
  let P (p : Session × Option RunFailure) : Prop :=
    s.machine.printed.toList <+: p.1.machine.printed.toList
  refine runInTurn_preserves (P := P) ?_ List.prefix_rfl
  exact fun entry _ s' hs' => hs'.trans (printed_runEntry s' entry)

theorem limits_runEntry (s : Session) (entry : Entry) :
    (s.runEntry entry).1.limits = s.limits := by
  rw [runEntry_eq]
  cases Eval.program s.limits ⟨s.env, s.frames⟩ entry.statements .nil s.machine with
  | ok v m => rfl
  | error a m =>
    obtain ⟨fault, frames⟩ := a
    cases fault <;> rfl

theorem limits_runEntries (s : Session) (entries : List Entry) :
    (s.runEntries entries).1.limits = s.limits := by
  let P (p : Session × Option RunFailure) : Prop := p.1.limits = s.limits
  refine runInTurn_preserves (P := P) ?_ rfl
  exact fun entry _ s' hs' => (limits_runEntry s' entry).trans hs'

/-- Entries run on under greater bounds: one after the other, up to the first that is
    cut. -/
theorem runsOn_runEntries (hended : ∀ (s : Session) a, cut a.fault → ended (some (s.abort a).2))
    (hnone : ¬ ended none) (hrounds : Bounded cut .endless limits.rounds limits'.rounds)
    (hnesting : Bounded cut .overflow limits.nesting limits'.nesting) (s : Session)
    (hlimits : s.limits = limits) (entries : List Entry) :
    RunsOn ended limits' (s.runEntries entries) ((s.withLimits limits').runEntries entries) := by
  subst hlimits
  induction entries generalizing s with
  | nil => exact .same rfl
  | cons entry entries ih =>
    have hentry : RunsOn ended limits' (s.runEntry entry)
        ((s.withLimits limits').runEntry entry) := by
      rw [runEntry_eq, runEntry_eq]
      exact runsOn_finish hended s entry ((prolonged_program hrounds hnesting _ _ _).outlasts _)
    have hkeeps := s.limits_runEntry entry
    unfold runEntries runInTurn
    generalize s.runEntry entry = p at hentry hkeeps ⊢
    generalize (s.withLimits limits').runEntry entry = p' at hentry ⊢
    obtain ⟨s₁, failure⟩ := p
    cases hentry with
    | same heq =>
      subst heq
      cases failure with
      | none => exact ih s₁ (hkeeps ▸ hrounds) (hkeeps ▸ hnesting)
      | some failure => exact .same rfl
    | later hcut hlines =>
      cases failure with
      | none => exact absurd hcut hnone
      | some failure =>
        -- the second run may go on to further entries, which only add lines
        obtain ⟨s₁', failure'⟩ := p'
        refine .later hcut (hlines.trans ?_)
        cases failure' with
        | none => exact printed_runEntries s₁' entries
        | some failure' => exact List.prefix_rfl

theorem runsOn_run (cut : Fault → Prop) (limits limits' : Limits)
    (hended : ∀ (s : Session) a, cut a.fault → ended (some (s.abort a).2)) (hnone : ¬ ended none)
    (hrounds : Bounded cut .endless limits.rounds limits'.rounds)
    (hnesting : Bounded cut .overflow limits.nesting limits'.nesting) (s : Session) :
    RunsOn ended limits' (s.withLimits limits).run (s.withLimits limits').run :=
  runsOn_runEntries hended hnone hrounds hnesting { s.withLimits limits with queue := [] } rfl s.queue

/-- More rounds make no difference to a run that ends. -/
theorem run_more_rounds (s : Session) {rounds : Nat} (h : limits.rounds ≤ rounds)
    (hends : ¬ Endless (s.withLimits limits).run.2) :
    (s.withLimits ⟨limits.nesting, rounds⟩).run =
      ((s.withLimits limits).run.1.withLimits ⟨limits.nesting, rounds⟩,
        (s.withLimits limits).run.2) := by
  have hended (s : Session) (a : Abort) (ha : a.fault = .endless) :
      Endless (some (s.abort a).2) := by
    rw [Session.abort, ha]
    rfl
  have hruns := runsOn_run (· = .endless) limits ⟨limits.nesting, rounds⟩ hended nofun
    (.inr ⟨h, rfl⟩) (.inl rfl) s
  cases hruns with
  | same heq => exact heq
  | later hcut => exact absurd hcut hends

/-- A run that may nest deeper is the same, or takes the place of a stack overflow. -/
theorem runsOn_nesting (s : Session) {nesting nesting' : Nat} (rounds : Nat)
    (h : nesting ≤ nesting') :
    RunsOn Overflows ⟨nesting', rounds⟩ (s.withLimits ⟨nesting, rounds⟩).run
      (s.withLimits ⟨nesting', rounds⟩).run := by
  have hended (s : Session) (a : Abort) (ha : a.fault = .overflow) :
      Overflows (some (s.abort a).2) := by
    rw [Session.abort, ha]
    rfl
  exact runsOn_run (· = .overflow) ⟨nesting, rounds⟩ ⟨nesting', rounds⟩ hended id (.inl rfl)
    (.inr ⟨h, rfl⟩) s

end Session

/-- How deeply a run may nest shows only as a stack overflow.  Of two runs that both end,
    from the same session and the same clock, the one that may nest deeper yields the same
    session (what is printed, the values to be shown, the machine) and the same failure,
    unless the other ends in a stack overflow; and then it prints what the other prints,
    and perhaps more. -/
theorem nesting_shows_only_as_overflow (s : Session) (limits limits' : Limits)
    (h : limits.nesting ≤ limits'.nesting) (hends : ¬ Endless (s.withLimits limits).run.2)
    (hends' : ¬ Endless (s.withLimits limits').run.2) :
    (¬ Overflows (s.withLimits limits).run.2 →
      (s.withLimits limits').run =
        ((s.withLimits limits).run.1.withLimits limits', (s.withLimits limits).run.2)) ∧
    (Overflows (s.withLimits limits).run.2 →
      ∃ more, (s.withLimits limits').run.1.machine.output =
        (s.withLimits limits).run.1.machine.output ++ more) := by
  -- both runs go as with the larger number of rounds, where only the nesting differs
  let rounds := max limits.rounds limits'.rounds
  have hmore := s.run_more_rounds (Nat.le_max_left limits.rounds limits'.rounds) hends
  have hmore' := s.run_more_rounds (Nat.le_max_right limits.rounds limits'.rounds) hends'
  have hruns := s.runsOn_nesting rounds h
  have hlimits := Session.limits_runEntries { s.withLimits limits' with queue := [] } s.queue
  change (s.withLimits limits').run.1.limits = limits' at hlimits
  generalize (s.withLimits limits).run = p at hmore ⊢
  generalize (s.withLimits limits').run = p' at hmore' hlimits ⊢
  obtain ⟨s₁, failure⟩ := p
  obtain ⟨s₁', failure'⟩ := p'
  rw [hmore, hmore'] at hruns
  cases hruns with
  | same heq =>
    injection heq with hs hfailure
    subst hfailure
    have hsame : s₁' = s₁.withLimits limits' := by
      rw [← hlimits]
      exact congrArg (·.withLimits s₁'.limits) hs
    exact ⟨fun _ => by rw [hsame], fun _ => ⟨"", by rw [hsame]; simp [Session.withLimits]⟩⟩
  | later hover hlines => exact ⟨fun hnot => absurd hover hnot, fun _ => output_prefix hlines⟩

/-- A function that calls itself once: the inner call is cut at first, and then runs. -/
theorem inner_call_runs_when_deeper :
    let s := ((Session.new "<in>" true ⟨0, 0⟩ fun _ => 0).add
      "fun f(x) \x7b print x; if (x) f(nil); \x7d f(true);" 1).1
    (∃ more, (s.withLimits ⟨20, 5⟩).run.1.machine.output =
      (s.withLimits ⟨4, 5⟩).run.1.machine.output ++ more) ∧
    (s.withLimits ⟨30, 5⟩).run.2 = (s.withLimits ⟨20, 5⟩).run.2 := by
  intro s
  have hcut := nesting_shows_only_as_overflow s ⟨4, 5⟩ ⟨20, 5⟩ (by decide) (by decide +kernel)
    (by decide +kernel)
  have hruns := nesting_shows_only_as_overflow s ⟨20, 5⟩ ⟨30, 5⟩ (by decide) (by decide +kernel)
    (by decide +kernel)
  refine ⟨hcut.2 (by decide +kernel), ?_⟩
  rw [hruns.1 (by decide +kernel)]

end Treewalk
