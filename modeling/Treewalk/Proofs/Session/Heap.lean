import Treewalk.Proofs.Chronicle.Pointers
import Treewalk.Proofs.Session.Upkeep

/-! # The heap of a session

    In every state of a session all pointers lead to an end, and along its runs
    nothing that exists is changed but by new bindings: scopes keep the scope around
    them and their names, classes stay what they were created as, and objects keep
    their class and their fields. -/

namespace Treewalk

/-! ### Moments -/

/-- The state in which a record was made, if it tells. -/
def Record.machine? : Record → Option Machine
  | .evaluates _ _ m => some m
  | _ => none

/-- The values that a run hands around: what is called, arguments, what calls yield,
    and receivers. -/
def Record.values : Record → List Value
  | .calls _ callee args _ => callee :: args
  | .returns _ v => [v]
  | .binds _ _ receiver => [receiver]
  | _ => []

/-- The states of a session: the present one, and those in which an expression was
    taken up, newest first. -/
def RecordedSession.moments (w : RecordedSession) : List Machine :=
  w.session.machine :: w.chronicle.filterMap Record.machine?

/-- The value is bound in a scope or is a field of an object. -/
def Store.Holds {α : Type} (s : Store α) (v : α) : Prop :=
  (∃ scope name, (s.bindings scope).find? name = some v) ∨
    ∃ object name, (s.fields object).find? name = some v

section Moments

variable {h : Chronicle}

theorem Kept.fits {s : Store Value} (hk : Kept h s) {v : Value} (hv : s.Holds v) : ValueFits h v := by
  rcases hv with ⟨scope, name, hbound⟩ | ⟨object, name, hfield⟩
  · exact hk.bound scope name v hbound
  · exact hk.fields object name v hfield

theorem mem_machines {m : Machine} (hm : m ∈ h.filterMap Record.machine?) :
    ∃ ctx e, .evaluates ctx e m ∈ h := by
  obtain ⟨r, hr, hmachine⟩ := List.mem_filterMap.mp hm
  cases r with
  | evaluates ctx e m' =>
    cases hmachine
    exact ⟨ctx, e, hr⟩
  | _ => cases hmachine

/-- The store of an earlier moment holds only what fits. -/
theorem Sound.fits_at (hsound : Sound h) {m : Machine} (hm : m ∈ h.filterMap Record.machine?)
    {v : Value} (hv : m.store.Holds v) : ValueFits h v := by
  obtain ⟨ctx, e, hr⟩ := mem_machines hm
  obtain ⟨h₀, hsuffix, -, hkept⟩ := hsound.fits hr
  exact (hkept.fits hv).mono (earlier_subset hsuffix)

theorem Kept.grown {s : Store Value} (hk : Kept h s) {m : Machine}
    (hm : m ∈ h.filterMap Record.machine?) : m.store.Grows s := by
  obtain ⟨ctx, e, hr⟩ := mem_machines hm
  exact hk.records _ hr

/-- From moment to moment the store grows. -/
theorem Sound.machines_grow (hsound : Sound h) : (h.filterMap Record.machine?).Pairwise
    fun newer older => older.store.Grows newer.store := by
  induction h with
  | nil => exact .nil
  | cons r h ih =>
    rw [List.filterMap_cons]
    cases hmachine : r.machine? with
    | none => exact ih hsound.2
    | some m =>
      refine List.pairwise_cons.mpr ⟨?_, ih hsound.2⟩
      cases r with
      | evaluates ctx e m' =>
        cases hmachine
        exact fun older holder => hsound.1.2.grown holder
      | _ => cases hmachine

theorem Sound.values (hsound : Sound h) {r : Record} (hr : r ∈ h) :
    ∀ v ∈ r.values, ValueFits h v := by
  obtain ⟨h₀, hsuffix, hfits⟩ := hsound.fits hr
  have hle := earlier_subset hsuffix
  intro v hv
  cases r with
  | calls number callee args line =>
    rcases List.mem_cons.mp hv with rfl | hv
    · exact hfits.1.mono hle
    · exact (hfits.2 v hv).mono hle
  | returns number w =>
    cases List.mem_singleton.mp hv
    exact ValueFits.mono hfits hle
  | binds scope method receiver =>
    cases List.mem_singleton.mp hv
    obtain ⟨-, -, object, d, -, hreceiver⟩ := hfits
    exact hreceiver.mono hle
  | _ => cases hv

end Moments

/-! ### Heaps -/

/-- The heap of a session over time. -/
structure RecordedSession.HeapEnds (w : RecordedSession) : Prop where
  /-- All that is held leads to an end, at every moment. -/
  held : ∀ m ∈ w.moments, ∀ v, m.store.Holds v → ValueEnds w.chronicle v
  /-- So does all that is handed around. -/
  inFlight : ∀ r ∈ w.chronicle, ∀ v ∈ r.values, ValueEnds w.chronicle v
  /-- So does the environment in which an expression is taken up. -/
  current : ∀ ctx e m, .evaluates ctx e m ∈ w.chronicle → EnvEnds w.chronicle ctx.env
  /-- What there is stays what it is. -/
  pointers : ∀ before, before <:+ w.chronicle → SamePointers before w.chronicle
  /-- No scope loses a name, and no object a field. -/
  grows : w.moments.Pairwise fun newer older => older.store.Grows newer.store
  /-- A class is the same whenever it is met. -/
  classes : ∀ m ∈ w.moments, ∀ m' ∈ w.moments, ∀ id d d',
    m.store.Holds (.cls id d) → m'.store.Holds (.cls id d') → d = d'
  /-- An object has the same class whenever it is met. -/
  objects : ∀ m ∈ w.moments, ∀ m' ∈ w.moments, ∀ object d d',
    m.store.Holds (.object object d) → m'.store.Holds (.object object d') → d = d'

theorem RecordedSession.InOrder.heapEnds {w : RecordedSession} (h : w.InOrder) : w.HeapEnds := by
  have hsound : Sound w.chronicle := h.heap.sound
  have hkept : Kept w.chronicle w.session.machine.store := h.heap.kept
  have hheld (m : Machine) (hm : m ∈ w.moments) (v : Value) (hv : m.store.Holds v) :
      ValueEnds w.chronicle v := by
    rcases List.mem_cons.mp hm with rfl | hm
    · exact (hkept.fits hv).ends hsound
    · exact (hsound.fits_at hm hv).ends hsound
  refine ⟨hheld, ?_, ?_, ?_, ?_, ?_, ?_⟩
  · exact fun r hr v hv => (hsound.values hr v hv).ends hsound
  · intro ctx e m hr
    obtain ⟨h₀, hsuffix, hplaced, -⟩ := hsound.fits hr
    exact ((hplaced.mono (earlier_subset hsuffix)).chain hsound).ends hsound
  · exact fun before hsuffix => samePointers hsound hsuffix.subset
  · exact List.pairwise_cons.mpr ⟨fun m hm => hkept.grown hm, hsound.machines_grow⟩
  · intro m hm m' hm' id d d' hd hd'
    have hclass := ((hheld m hm _ hd).cls id d rfl).classOf?
    have hclass' := ((hheld m' hm' _ hd').cls id d' rfl).classOf?
    exact Option.some.inj (hclass.symm.trans hclass')
  · intro m hm m' hm' object d d' hd hd'
    obtain ⟨id, hinst, hends⟩ := (hheld m hm _ hd).object object d rfl
    obtain ⟨id', hinst', hends'⟩ := (hheld m' hm' _ hd').object object d' rfl
    have hid : id = id' := Option.some.inj (hinst.symm.trans hinst')
    subst hid
    exact Option.some.inj (hends.classOf?.symm.trans hends'.classOf?)

/-- The heap of a session stays well-founded and grows.  After any actions, whatever
    their outcome, and in every state on the way: following the scopes around a scope
    from any environment ends at the global one, following the superclasses of any
    class ends, and so do the loops that search along them.  What exists keeps its
    pointers, its names and its fields, along every run and from one action to the
    next; in particular a class and the class of an object are the same whenever they
    are met, whatever is declared in between. -/
theorem heap_ends_and_grows (path : String) (interactive : Bool) (limits : Limits)
    (clock : Nat → Float) (actions more : List Action) :
    let before := RecordedSession.reach path interactive limits clock actions
    let after := RecordedSession.reach path interactive limits clock (actions ++ more)
    after.session = Session.reach path interactive limits clock (actions ++ more) ∧
      after.HeapEnds ∧ before.chronicle <:+ after.chronicle ∧
      before.session.machine.store.Grows after.session.machine.store := by
  intro before after
  have hbefore := RecordedSession.reach_inOrder path interactive limits clock actions
  have hafter := RecordedSession.reach_inOrder path interactive limits clock (actions ++ more)
  have hgoes : before.Goes after := by
    have hacts := RecordedSession.acts_goes hbefore more
    show before.Goes ((RecordedSession.new path interactive limits clock).acts (actions ++ more))
    rw [RecordedSession.acts_append]
    exact hacts
  exact ⟨RecordedSession.reach_records path interactive limits clock (actions ++ more),
    hafter.heapEnds, hgoes.later.chronicle, hgoes.later.store⟩

end Treewalk
