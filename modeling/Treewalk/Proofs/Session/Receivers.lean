import Treewalk.Proofs.Session.Upkeep

/-! # `this` and `super` are static

    Whenever `this` or `super` is evaluated in a session, however many blocks,
    functions and classes lie between it and its method, it speaks of the receiver
    of the innermost method around it, and of the superclass that the class of that
    method was created with. -/

namespace Treewalk

/-- What an evaluation of `this` or `super` in a state finds: the receiver of the
    innermost method around it, which is an object, and for `super` the class to
    which the superclass evaluated when the class of that method was created.  The
    method of the superclass is searched from there, and bound to that receiver. -/
def SpeaksOfMethod (h : Chronicle) (ctx : Context) (m : Machine) : ResolvedExpr → Prop
  | .this line use => ∃ d text b, EnclosedBy h ctx.env (.expr (.this line use)) d text b ∧
      use = some (d + 1) ∧ (∃ object c, b.receiver = .object object c) ∧
      ∀ rounds n, Eval.expr rounds (n + 1) ctx (.this line use) m = .ok b.receiver m
  | .super line use method => ∃ d text b p,
      EnclosedBy h ctx.env (.expr (.super line use method)) d text b ∧
      b.superclass = some p ∧ use = some (d + 2) ∧
      m.store.getAt ctx.env (d + 2) Keyword.superWord.text = .ok (.cls p.id p.definition) ∧
      m.store.getAt ctx.env (d + 1) Keyword.thisWord.text = .ok b.receiver ∧
      (∃ object c, b.receiver = .object object c) ∧
      ∀ rounds n, Eval.expr rounds (n + 1) ctx (.super line use method) m =
        (match p.definition.findMethod? method.text with
          | some found => do Eval.newFunction (← Eval.bindMethod found b.receiver)
          | none => Eval.fail ctx (.undefinedProperty method.text) method.line) m
  | _ => True

section Evaluations

variable {h : Chronicle} {ctx : Context} {m : Machine}

theorem Placed.speaksOfReceiver {line : Int} {use : Distance}
    (hplaced : Placed h ctx.env (.expr (.this line use))) (hsound : Sound h)
    (hkept : Kept h m.store) : SpeaksOfMethod h ctx m (.this line use) := by
  obtain ⟨d, text, b, henc, rfl⟩ := hplaced.this
  obtain ⟨object, c, hobject, -⟩ := henc.receiver hsound
  refine ⟨d, text, b, henc, rfl, ⟨object, c, hobject⟩, fun rounds n => ?_⟩
  show Eval.access ctx (m.store.getAt ctx.env (d + 1) Keyword.thisWord.text) m = _
  rw [henc.getAt_this hkept]
  rfl

theorem Placed.speaksOfSuperclass {line : Int} {use : Distance} {method : Name}
    (hplaced : Placed h ctx.env (.expr (.super line use method))) (hsound : Sound h)
    (hkept : Kept h m.store) : SpeaksOfMethod h ctx m (.super line use method) := by
  obtain ⟨d, text, b, henc, hsome, rfl⟩ := hplaced.super
  obtain ⟨p, hp, -⟩ := henc.superclass hsound hsome
  obtain ⟨object, c, hobject, -⟩ := henc.receiver hsound
  have hsuper := henc.getAt_super hkept hp
  have hthis := henc.getAt_this hkept
  refine ⟨d, text, b, p, henc, hp, rfl, hsuper, hthis, ⟨object, c, hobject⟩, fun rounds n => ?_⟩
  have hread : Eval.readStore m = .ok m.store m := rfl
  have hfound : Eval.access ctx (m.store.getAt ctx.env (d + 2) Keyword.superWord.text) m =
      .ok (.cls p.id p.definition) m := by
    rw [hsuper]
    rfl
  -- the receiver is one scope inside of the superclass
  have hreceiver : Eval.access ctx (m.store.getAt ctx.env (d + 2 - 1) Keyword.thisWord.text) m =
      .ok b.receiver m := by
    rw [show d + 2 - 1 = d + 1 from rfl, hthis]
    rfl
  show Eval.getSuper ctx (some (d + 2)) method m = _
  simp only [Eval.getSuper]
  rw [bind_of_ok hread, bind_of_ok hfound, bind_of_ok hreceiver]
  dsimp only
  cases p.definition.findMethod? method.text <;> rfl

end Evaluations

/-- `this` and `super` are static and correct in their receiver.  For every session
    and every evaluation of an expression in it, with what was recorded before: if it
    is `this`, then it yields the receiver of the innermost method around it; if it is
    `super`, then the environment at its distance has the superclass that the class of
    that method was created with, the one inside of it has that receiver, and the
    method is looked up in that superclass and bound to that receiver. -/
theorem this_and_super_are_static (path : String) (interactive : Bool) (limits : Limits)
    (clock : Nat → Float) (actions : List Action) :
    (RecordedSession.reach path interactive limits clock actions).session =
      Session.reach path interactive limits clock actions ∧
    ∀ before ctx e m, (.evaluates ctx e m :: before) <:+
        (RecordedSession.reach path interactive limits clock actions).chronicle →
      SpeaksOfMethod before ctx m e := by
  refine ⟨RecordedSession.reach_records path interactive limits clock actions, ?_⟩
  intro before ctx e m hsuffix
  have horder := RecordedSession.reach_inOrder path interactive limits clock actions
  obtain ⟨⟨hplaced, hkept⟩, hsound⟩ := horder.heap.sound.of_suffix hsuffix
  cases e with
  | this line use => exact hplaced.speaksOfReceiver hsound hkept
  | super line use method => exact hplaced.speaksOfSuperclass hsound hkept
  | _ => trivial

/-- An evaluation of `super` begins. -/
def Record.takesUpSuper : Record → Bool
  | .evaluates _ (.super _ _ _) _ => true
  | _ => false

/-- `super` in a function that a method yields, on an instance of a subclass. -/
theorem super_in_yielded_function :
    let w := RecordedSession.reach "<in>" true ⟨40, 5⟩ (fun _ => 0)
      [.add ("class A \x7b m() \x7b return nil; \x7d \x7d\n"
        ++ "class B < A \x7b m() \x7b return fun () \x7b \x7b super.m(); \x7d \x7d; \x7d \x7d\n"
        ++ "class C < B \x7b \x7d\nC().m()();") 1, .run]
    ∃ before ctx line use method m,
      (.evaluates ctx (.super line use method) m :: before) <:+ w.chronicle ∧
        SpeaksOfMethod before ctx m (.super line use method) := by
  intro w
  have hany : w.chronicle.any Record.takesUpSuper = true := by
    decide +kernel +zetaReduce
  obtain ⟨r, hr, hsuper⟩ := List.any_eq_true.mp hany
  obtain ⟨after, before, hsplit⟩ := List.append_of_mem hr
  cases r with
  | evaluates ctx e m =>
    have hsuffix : (.evaluates ctx e m :: before) <:+ w.chronicle := ⟨after, hsplit.symm⟩
    have hspeaks := (this_and_super_are_static _ _ _ _ _).2 _ _ _ _ hsuffix
    cases e with
    | super line use method => exact ⟨before, ctx, line, use, method, m, hsuffix, hspeaks⟩
    | _ => cases hsuper
  | _ => cases hsuper

end Treewalk
