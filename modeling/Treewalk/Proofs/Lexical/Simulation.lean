import Treewalk.Proofs.Lexical.Agreement

/-! # Simulation

    `Simulates` says that a watched computation on the machine and a computation
    of lexical evaluation, started in states that agree, end alike: both with
    related results, or both with the same abort, in states that agree in a
    larger world.  The lemmas follow the operations of the evaluators. -/

namespace Treewalk

open Lexical

/-! ### Growth of worlds -/

/-- A world grows.  Of the scopes it had, only those that are allowed to get new
    names do. -/
structure Grows (allowed : ScopeId → String → Prop) (W W' : World) : Prop extends
    World.Below W W' where
  frame : ∀ {s x c}, s < W.scopes → W'.cell s x = some c → W.cell s x = some c ∨ allowed s x

/-- No scope gets new names. -/
def Nowhere (_ : ScopeId) (_ : String) : Prop := False

/-- The innermost scope may get new names. -/
def Innermost (env : Env) (s : ScopeId) (_ : String) : Prop := env.head? = some s

/-- The innermost scope may get some names. -/
def Declaring (env : Env) (names : List String) (s : ScopeId) (x : String) : Prop :=
  env.head? = some s ∧ x ∈ names

namespace Grows

variable {allowed allowed' : ScopeId → String → Prop} {W W₁ W₂ : World}

theorem refl (W : World) : Grows allowed W W := ⟨.refl W, fun _ hc => .inl hc⟩

theorem trans (h₁ : Grows allowed W W₁) (h₂ : Grows allowed' W₁ W₂)
    (hallowed : ∀ s x, s < W.scopes → allowed' s x → allowed s x) : Grows allowed W W₂ := by
  refine ⟨h₁.toBelow.trans h₂.toBelow, fun {s x c} hs hc => ?_⟩
  rcases h₂.frame (Nat.lt_of_lt_of_le hs h₁.scopes_le) hc with hc | hc
  · exact h₁.frame hs hc
  · exact .inr (hallowed s x hs hc)

theorem weaken (h : Grows allowed W W₁)
    (hallowed : ∀ s x, s < W.scopes → allowed s x → allowed' s x) : Grows allowed' W W₁ :=
  (refl W).trans h hallowed

theorem addScope (W : World) : Grows allowed W W.addScope :=
  ⟨W.below_addScope, fun _ hc => .inl hc⟩

theorem addCell {s : ScopeId} {x : String} (c : Cell) (hnone : W.cell s x = none)
    (hallowed : s < W.scopes → allowed s x) : Grows allowed W (W.addCell s x c) := by
  refine ⟨World.below_addCell c hnone, fun {s₁ x₁ c₁} hs hc => ?_⟩
  rcases World.cell_addCell hc with ⟨rfl, rfl, -⟩ | hold
  · exact .inr (hallowed hs)
  · exact .inl hold

theorem enclosing {x : String} (c : Cell) (hnone : W.cell W.scopes x = none) :
    Grows allowed W (W.enclosing x c) := by
  refine ⟨W.below_addScope.trans (World.below_addCell c hnone), fun {s₁ x₁ c₁} hs hc => ?_⟩
  -- the scope that gets the name is none of those there were
  rcases World.cell_addCell hc with ⟨rfl, -⟩ | hold
  · exact absurd hs (Nat.lt_irrefl _)
  · exact .inl hold

end Grows

/-! ### Computations -/

/-- A fault that a run can come to: it is never malformed, and the read of an
    unset variable is that of a variable being declared. -/
def Fault.Explained (h : History) : Fault → Prop
  | .unset name => ReadsUnset h name
  | .malformed => False
  | _ => True

section Simulates

variable {α β γ δ : Type} {allowed allowed' : ScopeId → String → Prop} {W : World}
  {x : Watched α} {y : Run β} {post post' : World → α → β → Prop}

/-- Both computations end with related results, or both with the same abort. -/
inductive Outcome (allowed : ScopeId → String → Prop) (W : World) (post : World → α → β → Prop) :
    EStateM.Result Abort (Machine × History) α → EStateM.Result Abort State β → Prop
  | ok {a b m h r W'} : Grows allowed W W' → Agrees W' m h r → post W' a b →
      Outcome allowed W post (.ok a (m, h)) (.ok b r)
  | error {e m h r W'} : Agrees W' m h r → e.fault.Explained h →
      Outcome allowed W post (.error e (m, h)) (.error e r)

/-- From states that agree, both computations end alike. -/
def Simulates (allowed : ScopeId → String → Prop) (W : World) (x : Watched α) (y : Run β)
    (post : World → α → β → Prop) : Prop :=
  ∀ m h r, Agrees W m h r → Outcome allowed W post (x (m, h)) (y r)

namespace Simulates

theorem pure {a : α} {b : β} (h : post W a b) :
    Simulates allowed W (pure a) (pure b) post :=
  fun _ _ _ hagrees => .ok (.refl W) hagrees h

theorem mono (hx : Simulates allowed W x y post)
    (hallowed : ∀ s x, s < W.scopes → allowed s x → allowed' s x)
    (hpost : ∀ {W' a b}, Grows allowed W W' → post W' a b → post' W' a b) :
    Simulates allowed' W x y post' := by
  intro m h r hagrees
  have houtcome := hx m h r hagrees
  generalize x (m, h) = u at houtcome ⊢
  generalize y r = v at houtcome ⊢
  cases houtcome with
  | error hagrees₁ hfault => exact .error hagrees₁ hfault
  | ok hW hagrees₁ h => exact .ok (hW.weaken hallowed) hagrees₁ (hpost hW h)

/-- One computation after the other.  The second runs in a larger world, and may
    add names where the first may. -/
theorem bind {f : α → Watched γ} {g : β → Run δ} {post' : World → γ → δ → Prop}
    (hx : Simulates allowed W x y post)
    (hallowed : ∀ s x, s < W.scopes → allowed' s x → allowed s x)
    (hf : ∀ {W' a b}, Grows allowed W W' → post W' a b →
      Simulates allowed' W' (f a) (g b) post') :
    Simulates allowed W (x >>= f) (y >>= g) post' := by
  intro m h r hagrees
  have hfirst := hx m h r hagrees
  generalize hxs : x (m, h) = u at hfirst
  generalize hys : y r = v at hfirst
  cases hfirst with
  | error hagrees₁ hfault =>
    rw [bind_of_error hxs, bind_of_error hys]
    exact .error hagrees₁ hfault
  | ok hW hagrees₁ hpost =>
    rw [bind_of_ok hxs, bind_of_ok hys]
    -- the second computation starts where the first ended, in the larger world
    have hsecond := hf hW hpost _ _ _ hagrees₁
    generalize f _ _ = u at hsecond
    generalize g _ _ = v at hsecond
    cases hsecond with
    | error hagrees₂ hfault => exact .error hagrees₂ hfault
    | ok hW₂ hagrees₂ hpost₂ => exact .ok (hW.trans hW₂ hallowed) hagrees₂ hpost₂

/-- One computation, which adds no names to the scopes there are, before the
    other. -/
theorem first {f : α → Watched γ} {g : β → Run δ} {post' : World → γ → δ → Prop}
    (hx : Simulates Nowhere W x y post)
    (hf : ∀ {W' a b}, Grows Nowhere W W' → post W' a b → Simulates allowed W' (f a) (g b) post') :
    Simulates allowed W (x >>= f) (y >>= g) post' := by
  have hx' : Simulates allowed W x y fun W' a b => Grows Nowhere W W' ∧ post W' a b :=
    hx.mono (fun _ _ _ => False.elim) fun hW hpost => ⟨hW, hpost⟩
  exact hx'.bind (fun _ _ _ h => h) fun _ hpost => hf hpost.1 hpost.2

/-- One computation after the other, where neither adds names to the scopes
    there are. -/
theorem seq {f : α → Watched γ} {g : β → Run δ} {post' : World → γ → δ → Prop}
    (hx : Simulates Nowhere W x y post)
    (hf : ∀ {W' a b}, W.Below W' → post W' a b → Simulates Nowhere W' (f a) (g b) post') :
    Simulates Nowhere W (x >>= f) (y >>= g) post' :=
  hx.first fun hW hpost => hf hW.toBelow hpost

/-- A step on the machine and one of lexical evaluation. -/
theorem step {x : Eval α} {y : Run β}
    (hstep : ∀ m h r, Agrees W m h r → ∃ a m' b r' W', x m = .ok a m' ∧ y r = .ok b r' ∧
      Grows allowed W W' ∧ Agrees W' m' h r' ∧ post W' a b) :
    Simulates allowed W (Watched.lift x) y post := by
  intro m h r hagrees
  obtain ⟨a, m', b, r', W', hx, hy, hW, hagrees', hpost⟩ := hstep m h r hagrees
  have hlift : Watched.lift x (m, h) = .ok a (m', h) := by
    unfold Watched.lift
    simp only [hx]
  rw [hlift, hy]
  exact .ok hW hagrees' hpost

/-- Both are cut short in the same way, by a fault that is a matter of course. -/
theorem abort {ctx : Context} {place : Place} {fault : Fault}
    (hframes : place.frames = ctx.frames) (hfault : ∀ h, fault.Explained h) :
    Simulates allowed W (Watched.lift (Eval.abort ctx fault)) (Lexical.abort place fault) post := by
  intro m h r hagrees
  have hright : (Lexical.abort place fault : Run β) r = .error ⟨fault, ctx.frames⟩ r := by
    rw [← hframes]
    rfl
  rw [hright]
  exact .error hagrees (hfault h)

theorem fail {ctx : Context} {place : Place} (issue : RuntimeIssue) (line : Int)
    (hframes : place.frames = ctx.frames) :
    Simulates allowed W (Watched.lift (Eval.fail ctx issue line)) (Lexical.fail place issue line)
      post :=
  abort hframes fun _ => True.intro

/-- Any event but the end of a declaration. -/
theorem after_note {event : Store Value → Event} {f : Unit → Watched α}
    (hsafe : ∀ m h r, Agrees W m h r → (event m.store).Safe)
    (hother : ∀ store ctx name, event store ≠ .declares ctx name)
    (hf : Simulates allowed W (f ()) y post) :
    Simulates allowed W (Watched.note event >>= f) y post := by
  intro m h r hagrees
  -- the log has grown, the states have not changed
  have hnoted := hagrees.note (hsafe m h r hagrees) fun ctx name _ heq =>
    absurd heq (hother _ ctx name)
  exact hf m _ r hnoted

/-- The evaluation of an expression that looks up nothing by itself. -/
theorem after_evaluates {ctx : Context} {e : ResolvedExpr} {f : Unit → Watched α}
    (hsafe : ∀ store, (Event.evaluates ctx e store).Safe)
    (hf : Simulates allowed W (f ()) y post) :
    Simulates allowed W (Watched.note (.evaluates ctx e) >>= f) y post :=
  after_note (fun m _ _ _ => hsafe m.store) nofun hf

/-- The execution of a statement that looks up nothing by itself. -/
theorem after_executes {ctx : Context} {s : ResolvedStmt} {f : Unit → Watched α}
    (hsafe : ∀ store, (Event.executes ctx s store).Safe)
    (hf : Simulates allowed W (f ()) y post) :
    Simulates allowed W (Watched.note (.executes ctx s) >>= f) y post :=
  after_note (fun m _ _ _ => hsafe m.store) nofun hf

end Simulates

end Simulates

end Treewalk
