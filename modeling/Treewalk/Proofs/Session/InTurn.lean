import Mathlib.Data.List.Forall2
import Treewalk.Session.Basic

/-! # Runs in turn

    Every kind of session runs its entries in turn, up to the first that fails.  What
    one entry preserves is preserved by the run (`runInTurn_preserves`), and sessions
    that go alike at every entry go alike in the run (`runInTurn_alike`). -/

namespace Treewalk

variable {σ τ ε ε' φ φ' : Type} {runOne : σ → ε → σ × Option φ}
  {runOne' : τ → ε' → τ × Option φ'}

theorem runInTurn_single (s : σ) (entry : ε) : runInTurn runOne s [entry] = runOne s entry := by
  unfold runInTurn
  generalize runOne s entry = ran
  obtain ⟨s', failure⟩ := ran
  cases failure <;> rfl

/-- What holds of a session at the start, and after every entry if it held before it,
    holds at the end, where it may tell of the failure. -/
theorem runInTurn_preserves {P : σ × Option φ → Prop} {entries : List ε}
    (hone : ∀ entry ∈ entries, ∀ s, P (s, none) → P (runOne s entry)) {s : σ} (h : P (s, none)) :
    P (runInTurn runOne s entries) := by
  induction entries generalizing s with
  | nil => exact h
  | cons entry entries ih =>
    obtain ⟨hentry, hrest⟩ := List.forall_mem_cons.mp hone
    have hfirst := hentry s h
    unfold runInTurn
    generalize runOne s entry = ran at hfirst
    obtain ⟨s', failure⟩ := ran
    cases failure with
    | none => exact ih hrest hfirst
    | some failure => exact hfirst

/-- Sessions that are related at the start, and after every entry if they were before
    it, are related at the end.  Related runs fail both or neither, so they come to the
    same entries. -/
theorem runInTurn_alike {R : σ × Option φ → τ × Option φ' → Prop} {E : ε → ε' → Prop}
    (hfailure : ∀ {p q}, R p q → p.2.isSome = q.2.isSome)
    (hone : ∀ {s t entry entry'}, E entry entry' → R (s, none) (t, none) →
      R (runOne s entry) (runOne' t entry'))
    {entries : List ε} {entries' : List ε'} (hentries : List.Forall₂ E entries entries')
    {s : σ} {t : τ} (h : R (s, none) (t, none)) :
    R (runInTurn runOne s entries) (runInTurn runOne' t entries') := by
  induction hentries generalizing s t with
  | nil => exact h
  | @cons entry entry' _ _ hentry _ ih =>
    have hfirst := hone hentry h
    unfold runInTurn
    generalize runOne s entry = p at hfirst
    generalize runOne' t entry' = q at hfirst
    have hstops := hfailure hfirst
    obtain ⟨s', failure⟩ := p
    obtain ⟨t', failure'⟩ := q
    cases failure with
    | none =>
      cases failure' with
      | none => exact ih hfirst
      | some failure' => cases hstops
    | some failure =>
      cases failure' with
      | none => cases hstops
      | some failure' => exact hfirst

/-- Sessions that run the same entries alike. -/
theorem runInTurn_alike_same {runOne' : τ → ε → τ × Option φ'}
    {R : σ × Option φ → τ × Option φ' → Prop} {entries : List ε}
    (hfailure : ∀ {p q}, R p q → p.2.isSome = q.2.isSome)
    (hone : ∀ entry ∈ entries, ∀ {s t}, R (s, none) (t, none) →
      R (runOne s entry) (runOne' t entry)) {s : σ} {t : τ} (h : R (s, none) (t, none)) :
    R (runInTurn runOne s entries) (runInTurn runOne' t entries) := by
  have hsame : List.Forall₂ (fun entry entry' => entry = entry' ∧ entry ∈ entries) entries entries :=
    List.forall₂_same.mpr fun _ hentry => ⟨rfl, hentry⟩
  refine runInTurn_alike hfailure ?_ hsame h
  rintro s t entry _ ⟨rfl, hentry⟩ hst
  exact hone entry hentry hst

/-- A session that runs every entry as another one does, seen through a map, runs all of
    them as the other does. -/
theorem runInTurn_map {runOne' : τ → ε → τ × Option φ} {f : σ → τ}
    (hone : ∀ s entry, (f (runOne s entry).1, (runOne s entry).2) = runOne' (f s) entry)
    (s : σ) (entries : List ε) :
    (f (runInTurn runOne s entries).1, (runInTurn runOne s entries).2) =
      runInTurn runOne' (f s) entries := by
  refine runInTurn_alike_same (R := fun p q => (f p.1, p.2) = q) ?failure ?entry rfl
  case failure =>
    rintro p _ rfl
    rfl
  case entry =>
    rintro entry - s _ hs
    cases hs
    exact hone s entry

end Treewalk
