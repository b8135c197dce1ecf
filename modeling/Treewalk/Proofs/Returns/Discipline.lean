import Treewalk.Proofs.Chronicle.Upkeep
import Treewalk.Proofs.Returns.Bodies
import Treewalk.Proofs.Returns.Controlled

/-! # Rules of control

    What each event of a log needs of those before it (`ControlEvent.Fits`): code is
    taken up only in a body that runs, a `return` leaves no choice but that its body
    ends, and the end of a body none but that its call yields.  A log that keeps the
    rules and is not left in the middle of this tells of every `return` what came of
    it (`Disciplined.after_returns`). -/

namespace Treewalk

/-! ### Reading a log -/

/-- The call that an event belongs to, if it belongs to one. -/
def ControlEvent.number? : ControlEvent → Option Nat
  | .calls n _ | .yields n _ => some n
  | .begins a | .ends a _ => some a.number
  | .takesUp site _ | .returns site _ => site.map (·.number)
  | .settles _ => none

/-- The body returns or ends. -/
def ControlEvent.Closes (a : Activation) : ControlEvent → Prop
  | .returns site _ => site = some a
  | .ends a' _ => a' = a
  | _ => False

/-- No body has just returned or ended, so that anything may come next. -/
def Resting : ControlLog → Prop
  | .returns _ _ :: _ | .ends _ _ :: _ => False
  | _ => True

/-- The body has begun and has neither returned nor ended.  At top level there is none
    that could. -/
def Running (log : ControlLog) : Option Activation → Prop
  | none => True
  | some a => .begins a ∈ log ∧ ∀ e ∈ log, ¬ e.Closes a

/-- The phrase is executed as a part of the body, or of a program at top level. -/
def Owns : Option Activation → Code → Prop
  | none, ph => ∃ program, AcceptedProgram program ∧ PartOf program ph
  | some a, ph => PartOf a.closure.body ph

/-- A call of the value runs the body of the function. -/
def Value.Runs : Value → Closure → Prop
  | .function _ c, c' => c' = c
  | .cls _ d, c' => ∃ method env, d.initializer? = some method ∧ c' = { method with env }
  | _, _ => False

/-- What the call yields if its body ends like this: the receiver if the body is that
    of an initializer, and otherwise what was returned, or nil. -/
def Activation.Delivers (h : Chronicle) (a : Activation) (completion : Completion) (w : Value) :
    Prop :=
  if a.closure.isInitializer then BoundTo h a.closure w else w = completion.value

/-- How a running body ends: with the value of the `return` that it has just come to,
    or without having come to any. -/
def Activation.EndsWith (log : ControlLog) (a : Activation) : Completion → Prop
  | .normal => Resting log ∧ Running log (some a)
  | .returned v => ∃ earlier, log = .returns (some a) v :: earlier ∧ Running earlier (some a)

/-! ### The rules -/

/-- What an event needs of the events before it. -/
def ControlEvent.Fits (h : Chronicle) (log : ControlLog) : ControlEvent → Prop
  | .calls n _ => Resting log ∧ ∀ e ∈ log, e.number? ≠ some n
  | .begins a => ∃ callee earlier, log = .calls a.number callee :: earlier ∧ callee.Runs a.closure
  | .takesUp site ph => Resting log ∧ Running log site ∧ Owns site ph
  | .returns site _ => Resting log ∧ Running log site ∧ ∃ a, site = some a
  | .ends a completion =>
    a.EndsWith log completion ∧ (a.closure.isInitializer = true → completion.value = .nil)
  | .yields n w =>
    (∃ a completion earlier, log = .ends a completion :: earlier ∧ a.number = n ∧
      a.Delivers h completion w) ∨
    ∃ callee earlier, log = .calls n callee :: earlier ∧ ∀ c, ¬ callee.Runs c
  | .settles completion => Resting log ∧ completion = .normal

/-- Every event keeps the rules. -/
def Disciplined (h : Chronicle) : ControlLog → Prop
  | [] => True
  | e :: log => e.Fits h log ∧ Disciplined h log

section Rules

variable {h h' : Chronicle} {log before : ControlLog} {a : Activation} {e : ControlEvent}

theorem Running.cons {site : Option Activation} (hrun : Running log site)
    (hopen : ∀ a, site = some a → ¬ e.Closes a) : Running (e :: log) site := by
  cases site with
  | none => trivial
  | some a =>
    exact ⟨List.mem_cons_of_mem e hrun.1, List.forall_mem_cons.mpr ⟨hopen a rfl, hrun.2⟩⟩

theorem Activation.Delivers.mono {completion : Completion} {w : Value}
    (hw : a.Delivers h completion w) (hle : h ⊆ h') : a.Delivers h' completion w := by
  unfold Delivers at hw ⊢
  split
  · next hinit =>
    rw [if_pos hinit] at hw
    exact hw.mono hle
  · next hinit =>
    rw [if_neg hinit] at hw
    exact hw

theorem ControlEvent.Fits.mono (he : e.Fits h log) (hle : h ⊆ h') : e.Fits h' log := by
  cases e with
  | yields n w =>
    rcases he with ⟨a, completion, earlier, heq, hn, hw⟩ | hnone
    · exact .inl ⟨a, completion, earlier, heq, hn, hw.mono hle⟩
    · exact .inr hnone
  | _ => exact he

theorem Disciplined.mono (hlog : Disciplined h log) (hle : h ⊆ h') : Disciplined h' log := by
  induction log with
  | nil => trivial
  | cons e log ih => exact ⟨hlog.1.mono hle, ih hlog.2⟩

theorem Disciplined.of_append {after : ControlLog} (hlog : Disciplined h (after ++ before)) :
    Disciplined h before := by
  induction after with
  | nil => exact hlog
  | cons e after ih => exact ih hlog.2

theorem Disciplined.fits {after : ControlLog} (hlog : Disciplined h (after ++ e :: before)) :
    e.Fits h before :=
  hlog.of_append.1

/-- A log is never left right behind an event that decides what comes next. -/
theorem Disciplined.next {after : ControlLog} (hlog : Disciplined h (after ++ e :: before))
    (hrest : Resting (after ++ e :: before)) (hdecides : ¬ Resting (e :: before)) :
    ∃ later next, after = later ++ [next] ∧ next.Fits h (e :: before) := by
  rcases List.eq_nil_or_concat after with rfl | ⟨later, next, rfl⟩
  · exact absurd hrest hdecides
  · refine ⟨later, next, List.concat_eq_append, ?_⟩
    rw [List.concat_eq_append, List.append_assoc] at hlog
    exact hlog.fits

/-- The end of a body is at once followed by what its call yields. -/
theorem Disciplined.after_ends {after : ControlLog} {completion : Completion}
    (hlog : Disciplined h (after ++ .ends a completion :: before))
    (hrest : Resting (after ++ .ends a completion :: before)) :
    ∃ later w, after = later ++ [.yields a.number w] ∧ a.Delivers h completion w := by
  obtain ⟨later, next, rfl, hnext⟩ := hlog.next hrest id
  cases next with
  | calls n callee => exact hnext.1.elim
  | takesUp site ph => exact hnext.1.elim
  | returns site v => exact hnext.1.elim
  | settles completion => exact hnext.1.elim
  | begins a' =>
    obtain ⟨callee, earlier, heq, -⟩ := hnext
    cases heq
  | ends a' completion' =>
    obtain ⟨hends, -⟩ := hnext
    cases completion' with
    | normal => exact hends.1.elim
    | returned v =>
      obtain ⟨earlier, heq, -⟩ := hends
      cases heq
  | yields n w =>
    rcases hnext with ⟨a', completion', earlier, heq, rfl, hw⟩ | ⟨callee, earlier, heq, -⟩
    · cases heq
      exact ⟨later, w, rfl, hw⟩
    · cases heq

/-- A `return` is at once followed by the end of the body it is in, with its value, and
    then by what the call of that body yields. -/
theorem Disciplined.after_returns {after : ControlLog} {site : Option Activation} {v : Value}
    (hlog : Disciplined h (after ++ .returns site v :: before))
    (hrest : Resting (after ++ .returns site v :: before)) :
    ∃ a later w, site = some a ∧ after = later ++ [.yields a.number w, .ends a (.returned v)] ∧
      a.Delivers h (.returned v) w := by
  obtain ⟨later, next, rfl, hnext⟩ := hlog.next hrest id
  cases next with
  | calls n callee => exact hnext.1.elim
  | takesUp site ph => exact hnext.1.elim
  | returns site v => exact hnext.1.elim
  | settles completion => exact hnext.1.elim
  | begins a =>
    obtain ⟨callee, earlier, heq, -⟩ := hnext
    cases heq
  | yields n w =>
    rcases hnext with ⟨a, completion, earlier, heq, -⟩ | ⟨callee, earlier, heq, -⟩
    · cases heq
    · cases heq
  | ends a completion =>
    cases completion with
    | normal => exact hnext.1.1.elim
    | returned v' =>
      obtain ⟨⟨earlier, heq, -⟩, -⟩ := hnext
      cases heq
      rw [List.append_assoc] at hlog hrest
      obtain ⟨later', w, rfl, hw⟩ := Disciplined.after_ends hlog hrest
      exact ⟨a, later', w, rfl, by simp, hw⟩

end Rules

/-! ### States in control -/

/-- The heap is in order, the log keeps the rules, and its calls have been recorded. -/
structure InControl (s : ControlState) : Prop where
  inOrder : InOrder s.1
  rules : Disciplined s.1.2 s.2
  numbered : ∀ e ∈ s.2, ∀ n, e.number? = some n → n < callCount s.1.2

/-- Anything may come next. -/
structure Calm (s : ControlState) : Prop extends InControl s where
  rest : Resting s.2

/-- The one state comes after the other, and the bodies that run still do, unless it is
    the given one. -/
structure Onward (site : Option Activation) (s s' : ControlState) : Prop where
  heap : Later s.1 s'.1
  others : ∀ site', site' ≠ site → Running s.2 site' → Running s'.2 site'

namespace Onward

variable {site : Option Activation} {s s' s'' : ControlState}

theorem refl (site : Option Activation) (s : ControlState) : Onward site s s :=
  ⟨.refl _, fun _ _ h => h⟩

theorem trans (h : Onward site s s') (h' : Onward site s' s'') : Onward site s s'' :=
  ⟨h.heap.trans h'.heap, fun site' hne hrun => h'.others site' hne (h.others site' hne hrun)⟩

/-- If no body is excepted, then all that run still do. -/
theorem running (h : Onward none s s') (hrun : Running s.2 site) : Running s'.2 site := by
  cases site with
  | none => trivial
  | some a => exact h.others _ nofun hrun

theorem weaken (h : Onward none s s') (site : Option Activation) : Onward site s s' :=
  ⟨h.heap, fun _ _ hrun => h.running hrun⟩

theorem subset (h : Onward site s s') : s.1.2 ⊆ s'.1.2 := h.heap.subset

end Onward

namespace InControl

variable {s : ControlState} {site : Option Activation}

/-- What is recorded does not disturb the log. -/
theorem advance (hs : InControl s) {r : Machine × Chronicle} (hr : InOrder r)
    (hlater : Later s.1 r) : InControl (r, s.2) := by
  refine ⟨hr, hs.rules.mono hlater.subset, fun e he n hn => ?_⟩
  exact Nat.lt_of_lt_of_le (hs.numbered e he n hn) hlater.chronicle.sublist.countP_le

theorem note (hs : InControl s) {e : ControlEvent} (hfits : e.Fits s.1.2 s.2)
    (hnumber : ∀ n, e.number? = some n → n < callCount s.1.2) : InControl (s.1, e :: s.2) :=
  ⟨hs.inOrder, ⟨hfits, hs.rules⟩, List.forall_mem_cons.mpr ⟨hnumber, hs.numbered⟩⟩

theorem number_lt (hs : InControl s) (hrun : Running s.2 site) :
    ∀ n, site.map (·.number) = some n → n < callCount s.1.2 := by
  intro n hn
  cases site with
  | none => cases hn
  | some a => exact hs.numbered _ hrun.1 n hn

end InControl

end Treewalk
