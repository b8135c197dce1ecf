import Treewalk.Proofs.Chronicle.Placement

/-! # Addresses

    Every phrase of a program has an address: the way from the program down to it,
    by the numbers of the parts on that way.  Two phrases may look the same, their
    addresses are never the same, so an address can stand for the identity of a
    phrase. -/

namespace Treewalk

/-! ### Ways -/

namespace Code

/-- The phrase that a way leads to, and the zones it is in.  Each step of the way
    is the number of a part. -/
def follow (zones : List Zone) (ph : Code) : List Nat → Option (List Zone × Code)
  | [] => some (zones, ph)
  | i :: way =>
    match ph.parts[i]? with
    | some (more, inner) => inner.follow (more ++ zones) way
    | none => none

variable {zones : List Zone} {ph : Code}

/-- One more step at the end of a way. -/
theorem follow_step {way : List Nat} {zones' more : List Zone} {found inner : Code} {i : Nat}
    (hway : ph.follow zones way = some (zones', found)) (hi : found.parts[i]? = some (more, inner)) :
    ph.follow zones (way ++ [i]) = some (more ++ zones', inner) := by
  induction way generalizing zones ph with
  | nil =>
    cases hway
    simp only [List.nil_append, follow, hi]
  | cons j way ih =>
    simp only [List.cons_append, follow] at hway ⊢
    split at hway
    · exact ih hway
    · cases hway

end Code

/-- The phrase that a way through a program leads to; the first step is the number
    of a statement. -/
def phraseAt (program : List ResolvedStmt) : List Nat → Option (List Zone × Code)
  | [] => none
  | i :: way => program[i]?.bind fun s => (Code.stmt s).follow [] way

/-- A way through a program leads to one of its phrases. -/
theorem located_of_phraseAt {program : List ResolvedStmt} {way : List Nat} {zones : List Zone}
    {ph : Code} (h : phraseAt program way = some (zones, ph)) : Located program zones ph := by
  have hfollow {way : List Nat} {zones' : List Zone} {found start : Code} {zones : List Zone}
      (hstart : Located program zones start)
      (hway : start.follow zones way = some (zones', found)) : Located program zones' found := by
    induction way generalizing zones start with
    | nil =>
      cases hway
      exact hstart
    | cons i way ih =>
      unfold Code.follow at hway
      split at hway
      · next more inner hi => exact ih (.part hstart (List.mem_of_getElem? hi)) hway
      · cases hway
  cases way with
  | nil => cases h
  | cons i way =>
    obtain ⟨s, hs, hway⟩ := Option.bind_eq_some_iff.mp h
    exact hfollow (.statement (List.mem_of_getElem? hs)) hway

/-! ### Addresses -/

/-- The address of a phrase in some texts. -/
structure Address where
  /-- The number of the text. -/
  text : Nat
  /-- The way to the phrase in it. -/
  way : List Nat
deriving DecidableEq, Repr

/-- The phrase at an address, and the zones it is in. -/
def phraseIn (texts : List (List ResolvedStmt)) (a : Address) : Option (List Zone × Code) :=
  texts[a.text]?.bind fun program => phraseAt program a.way

section Addresses

variable {texts : List (List ResolvedStmt)} {a : Address} {zones : List Zone} {ph : Code}

/-- The address of a part is one step longer. -/
theorem phraseIn_part (h : phraseIn texts a = some (zones, ph)) {more : List Zone} {inner : Code}
    (hpart : (more, inner) ∈ ph.parts) :
    ∃ i, phraseIn texts ⟨a.text, a.way ++ [i]⟩ = some (more ++ zones, inner) := by
  obtain ⟨text, way⟩ := a
  obtain ⟨program, hprogram, hway⟩ := Option.bind_eq_some_iff.mp h
  obtain ⟨i, hi⟩ := List.mem_iff_getElem?.mp hpart
  refine ⟨i, Option.bind_eq_some_iff.mpr ⟨program, hprogram, ?_⟩⟩
  cases way with
  | nil => cases hway
  | cons j way =>
    obtain ⟨s, hs, hway⟩ := Option.bind_eq_some_iff.mp hway
    exact Option.bind_eq_some_iff.mpr ⟨s, hs, Code.follow_step hway hi⟩

/-- The statements of a text have addresses. -/
theorem exists_phraseIn {program : List ResolvedStmt} (hprogram : program ∈ texts)
    {s : ResolvedStmt} (hs : s ∈ program) : ∃ a, phraseIn texts a = some ([], .stmt s) := by
  obtain ⟨text, htext⟩ := List.mem_iff_getElem?.mp hprogram
  obtain ⟨i, hi⟩ := List.mem_iff_getElem?.mp hs
  refine ⟨⟨text, [i]⟩, Option.bind_eq_some_iff.mpr ⟨program, htext, ?_⟩⟩
  exact Option.bind_eq_some_iff.mpr ⟨s, hi, rfl⟩

/-- Later texts leave the addresses in earlier ones alone. -/
theorem phraseIn_append (h : phraseIn texts a = some (zones, ph))
    (more : List (List ResolvedStmt)) : phraseIn (texts ++ more) a = some (zones, ph) := by
  obtain ⟨program, hprogram, hway⟩ := Option.bind_eq_some_iff.mp h
  have hlt : a.text < texts.length := (List.getElem?_eq_some_iff.mp hprogram).1
  refine Option.bind_eq_some_iff.mpr ⟨program, ?_, hway⟩
  rw [List.getElem?_append_left hlt, hprogram]

/-- A phrase at an address is one of an accepted program, if all texts are. -/
theorem acceptedIn_of_phraseIn (htexts : ∀ program ∈ texts, AcceptedProgram program)
    (h : phraseIn texts a = some (zones, ph)) : ph.AcceptedIn zones := by
  obtain ⟨program, hprogram, hway⟩ := Option.bind_eq_some_iff.mp h
  have hlocated : Located program zones ph := located_of_phraseAt hway
  exact hlocated.acceptedIn (htexts program (List.mem_of_getElem? hprogram))

end Addresses

end Treewalk
