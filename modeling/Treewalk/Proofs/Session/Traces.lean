import Treewalk.Proofs.Chronicle.Calls
import Treewalk.Proofs.Session.Chronicle

/-! # Stack traces

    The trace of a runtime error lists the calls that are open when the error is
    raised, newest first and each with the line that was reached in it, and at last
    the script.  Calls that returned before leave nothing in it. -/

namespace Treewalk

/-! ### The lines of a trace -/

/-- The line reached in an entry of a trace: that of the error in the first, and
    in every other that of the call listed before it. -/
def lineReached (e : RuntimeError) (calls : List Call) : Nat → Option Int
  | 0 => e.line
  | i + 1 => calls[i]?.map (·.line)

/-- The trace of an error lists some calls, and behind them the script. -/
structure TraceLists (e : RuntimeError) (calls : List Call) : Prop where
  length : e.trace.length = calls.length + 1
  call : ∀ i c, calls[i]? = some c → e.trace[i]? = some
    ("[line " ++ lineText (lineReached e calls i) ++ "] in " ++ c.callee.callName ++ "()")
  script : e.trace.getLast? = some
    ("[line " ++ lineText (lineReached e calls calls.length) ++ "] in script")

theorem length_traceLines (line : Option Int) (frames : List Frame) :
    (traceLines line frames).length = frames.length + 1 := by
  induction frames generalizing line with
  | nil => rfl
  | cons frame frames ih => simp only [traceLines, List.length_cons, ih]

theorem traceLines_ne_nil (line : Option Int) (frames : List Frame) : traceLines line frames ≠ [] := by
  cases frames <;> simp [traceLines]

/-- An error whose trace is made from the calls lists them. -/
theorem traceLists_of_calls (message : String) (line : Option Int) (calls : List Call) :
    TraceLists ⟨message, line, traceLines line (calls.map Call.frame)⟩ calls := by
  -- the first call is listed with the line at hand, the others with lines of calls
  induction calls generalizing line with
  | nil => exact ⟨rfl, nofun, rfl⟩
  | cons c calls ih =>
    obtain ⟨-, hcall, hscript⟩ := ih (some c.line)
    have hline (i : Nat) : lineReached ⟨message, some c.line, traceLines (some c.line)
        (calls.map Call.frame)⟩ calls i = lineReached ⟨message, line, traceLines line
        ((c :: calls).map Call.frame)⟩ (c :: calls) (i + 1) := by
      cases i <;> rfl
    refine ⟨by simp [length_traceLines], ?_, ?_⟩
    · intro i c' hc'
      cases i with
      | zero =>
        cases hc'
        rfl
      | succ i =>
        rw [← hline]
        exact hcall i c' hc'
    · have hlast := List.getLast?_eq_some_getLast
        (traceLines_ne_nil (some c.line) (calls.map Call.frame))
      rw [List.length_cons, ← hline, ← hscript]
      show (_ :: traceLines (some c.line) (calls.map Call.frame)).getLast? = _
      rw [List.getLast?_cons, hlast]
      rfl

/-! ### Runs -/

namespace RecordedSession

variable {w : RecordedSession}

/-- The calls on the stack of the session are those that are open. -/
structure InTrack (w : RecordedSession) : Prop where
  numbered : WellNumbered w.chronicle
  frames : (openCalls w.chronicle).map Call.frame = w.session.frames

/-- The session is in track after the run, or the error lists the open calls. -/
def EndsInTrack (p : RecordedSession × Option RunFailure) : Prop :=
  WellNumbered p.1.chronicle ∧
    match p.2 with
    | none => p.1.InTrack
    | some (.error e) => TraceLists e (openCalls p.1.chronicle)
    | some _ => True

theorem runEntry_inTrack (h : w.InTrack) (entry : Entry) : EndsInTrack (w.runEntry entry) := by
  have htracked := tracks_program w.session.limits ⟨w.session.env, w.session.frames⟩
    entry.statements .nil w.session.machine w.chronicle h.numbered h.frames
  unfold runEntry
  dsimp only
  generalize Recorded.steps.program _ _ _ _ _ = out at htracked ⊢
  cases htracked with
  | ok hnum hopen =>
    refine ⟨hnum, hnum, ?_⟩
    show (openCalls _).map Call.frame = w.session.frames
    rw [← h.frames, ← hopen]
    rfl
  | @error cut m h' hnum hcut =>
    refine ⟨hnum, ?_⟩
    obtain ⟨fault, frames⟩ := cut
    subst hcut
    cases fault with
    | issue issue line => exact traceLists_of_calls _ _ _
    | overflow => exact traceLists_of_calls _ _ _
    | unset name => trivial
    | malformed => trivial
    | endless => trivial

theorem runEntries_inTrack (h : w.InTrack) (entries : List Entry) :
    EndsInTrack (w.runEntries entries) := by
  refine runInTurn_preserves (P := EndsInTrack) ?_ ⟨h.numbered, h⟩
  exact fun entry _ _ hw => runEntry_inTrack hw.2 entry

end RecordedSession

/-- The trace of an error is the dynamic call stack.  If no calls are left over from
    earlier runs, and a run ends in a runtime error, then its trace lists, newest
    first, the calls that had passed their checks and had not returned when the
    error was raised: the first with the line of the error, each other one with the
    line of the closing parenthesis of the call before it, and at last the script
    with the line of the outermost call.  The chronicle that tells the calls apart
    is that of the run itself. -/
theorem trace_lists_open_calls (s : Session) (hframes : s.frames = []) (e : RuntimeError)
    (hrun : s.run.2 = some (.error e)) :
    ((RecordedSession.mk s []).run.1.session, (RecordedSession.mk s []).run.2) = s.run ∧
      TraceLists e (openCalls (RecordedSession.mk s []).run.1.chronicle) ∧
      (∀ c ∈ openCalls (RecordedSession.mk s []).run.1.chronicle, c.Checked) ∧
      (openCalls (RecordedSession.mk s []).run.1.chronicle).Pairwise
        fun inner outer => outer.number < inner.number := by
  have hrecords := (RecordedSession.mk s []).run_records
  have hstart : RecordedSession.InTrack ⟨{ s with queue := [] }, []⟩ :=
    ⟨wellNumbered_nil, hframes.symm⟩
  have hends : RecordedSession.EndsInTrack (RecordedSession.mk s []).run :=
    RecordedSession.runEntries_inTrack hstart s.queue
  have hfailure : (RecordedSession.mk s []).run.2 = some (.error e) := by
    rw [← hrun, ← hrecords]
  obtain ⟨hnum, hlists⟩ := hends
  rw [hfailure] at hlists
  refine ⟨hrecords, hlists, ?_, hnum.ordered.filter _⟩
  intro c hc
  exact hnum.checked c (List.mem_filter.mp hc).1

/-- An error in an initializer, which a function without a name makes run, after a
    call that has returned. -/
theorem trace_of_failing_initializer :
    TraceLists
      ⟨"Only instances have properties.", some 1,
        ["[line 1] in A()", "[line 4] in fun()", "[line 5] in script"]⟩
      (openCalls (RecordedSession.mk ((Session.new "<in>" true ⟨30, 5⟩ fun _ => 0).add
        ("class A \x7b init(x) \x7b x.y; \x7d \x7d\nclock();\n"
          ++ "var f = fun (x) \x7b\n A(x); \x7d;\nf(nil);") 1).1 []).run.1.chronicle) :=
  (trace_lists_open_calls _ (by decide +kernel) _ (by decide +kernel)).2.1

end Treewalk
