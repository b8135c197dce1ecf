import Treewalk.Proofs.Grammar.Acceptance
import Treewalk.Proofs.Grammar.Decision.Statements

/-! # The first mistake

    The parser of a program decides on every list of tokens.  So the first token at which a
    statement is given up is the first one with which the tokens so far are not the
    beginning of a program (`first_mistake_is_earliest`). -/

namespace Treewalk

open Treewalk.Parser Ebnf Computability

/-! ### Nesting -/

theorem Decides.of_zero {α : Type} {p : Parser α} {L K : Language Token} (h : Appends p) :
    Decides 0 p L K :=
  ⟨h, fun _ hlen => absurd hlen (Nat.not_lt_zero _)⟩

/-- With bounds that are enough for fewer than `k` tokens, the three nested parsers decide on
    them.  Each token takes three of the bound: a declaration can hold a statement, and that
    an expression, before a token is read. -/
theorem decides_nested (n k : Nat) :
    (3 * k ≤ n + 2 → ExpressionDecides k n) ∧ (3 * k ≤ n + 1 → StatementDecides k n) ∧
    (3 * k ≤ n → DeclarationDecides k n) := by
  induction n generalizing k with
  | zero =>
    refine ⟨fun h => ?_, fun h => ?_, fun h => ?_⟩ <;> obtain rfl : k = 0 := by omega
    · intro K hK
      unfold expression
      exact .of_zero (.miss _)
    · intro K hK
      unfold statement
      exact .of_zero (.miss _)
    · intro K hK
      unfold declaration
      exact .of_zero (Appends.miss _).recovering
  | succ n ih =>
    -- what is nested has read a token, or is of the next kind
    refine ⟨fun h K hK => ?_, fun h K hK => ?_, fun h K hK => ?_⟩
    · unfold expression
      have he := (ih (k - 1)).1 (by omega)
      have hd := (ih (k - 1)).2.2 (by omega)
      exact decides_assignment he hd.block hK
    · unfold statement
      have he := (ih k).1 (by omega)
      have hs := (ih (k - 1)).2.1 (by omega)
      have hd := (ih (k - 1)).2.2 (by omega)
      exact decides_statementWith he hs hd hK
    · unfold declaration
      have he := (ih k).1 (by omega)
      have hs := (ih k).2.1 (by omega)
      have hd := (ih (k - 1)).2.2 (by omega)
      exact (decides_declarationWith (by omega) he hs hd hK).recovering

/-! ### Programs -/

/-- The parser of programs, with a bound on nesting that is enough for fewer than `k` tokens. -/
def program (k : Nat) : Parser (List SourceStmt) := declarations atEnd (declaration false (3 * k))

/-- The parser of programs decides, with nothing behind the program. -/
theorem decides_program (k : Nat) :
    Decides k (program k) (phrase .program) 1 := by
  have hprogram : phrase .program = (phrase .declaration)∗ := phrase_eq .program
  rw [hprogram]
  refine decides_declarations seesEnd_atEnd (ends_atEnd itemsStart_declaration)
    ((decides_nested (3 * k) k).2.2 (Nat.le_refl _)) fun t v _ => List.cons_ne_nil t v

/-- The outcome of parsing fewer than `k` tokens. -/
theorem run_program {k : Nat} {ts : List Token} (hlen : ts.length < k) :
    program k ⟨ts, #[]⟩ =
      .ok (parse false ts).statements ⟨[], (parse false ts).errors.toArray⟩ := by
  have hbound : nestingBound ts.length ≤ 3 * k := by
    unfold nestingBound
    omega
  exact (parser_makes_progress false).2.2 ts (3 * k) hbound

/-- The first error that unwinds is reported at the token with index `k`, or at the end if
    there is no such token.  To tell the token from others that look like it, this is said of
    all lists of tokens with the same lexemes, on whatever lines. -/
def FirstMistakeAt (ts : List Token) (k : Nat) : Prop :=
  ∀ ts' : List Token, ts'.map (·.lexeme) = ts.map (·.lexeme) →
    ∃ e, (parse false ts').errors.find? (·.unwinds) = some e ∧ e.site = ts'[k]?

/-- There is one such place only. -/
theorem FirstMistakeAt.unique {ts : List Token} {j k : Nat} (hj : FirstMistakeAt ts j)
    (hk : FirstMistakeAt ts k) (hjlen : j ≤ ts.length) (hklen : k ≤ ts.length) : j = k := by
  -- with every token on a line of its own, the site of the error tells the index
  let numbered := ts.mapIdx fun i t => { t with line := i }
  have hsame : numbered.map (·.lexeme) = ts.map (·.lexeme) := by
    refine List.ext_getElem (by simp [numbered]) fun i hi hi' => ?_
    simp [numbered]
  have hget (i : Nat) : numbered[i]?.map (·.line) =
      if i < ts.length then some (i : Int) else none := by
    by_cases hi : i < ts.length <;> simp [numbered, hi]
  obtain ⟨e, hfind, hsite⟩ := hj numbered hsame
  obtain ⟨e', hfind', hsite'⟩ := hk numbered hsame
  obtain rfl := Option.some.inj (hfind.symm.trans hfind')
  have hlines := (hget j).symm.trans
    ((congrArg (Option.map (·.line)) (hsite.symm.trans hsite')).trans (hget k))
  split at hlines <;> split at hlines <;> simp at hlines <;> omega

/-- The tokens before the one with index `k` are the beginning of a program, but with it they
    are not; or there is no such token, and they are no program. -/
structure BreaksAt (ts : List Token) (k : Nat) : Prop where
  inside : k ≤ ts.length
  before : Viable (ts.take k)
  there : k = ts.length ∧ ¬ Sentence ts ∨ k < ts.length ∧ ¬ Viable (ts.take (k + 1))

section BreaksAt

variable {ts ts' : List Token}

theorem BreaksAt.unique {j k : Nat} (hj : BreaksAt ts j) (hk : BreaksAt ts k) : j = k := by
  rcases Nat.lt_trichotomy j k with h | h | h
  · have hno := (hj.there.resolve_left fun ⟨hlen, _⟩ => by have := hk.inside; omega).2
    exact absurd (hk.before.take h) hno
  · exact h
  · have hno := (hk.there.resolve_left fun ⟨hlen, _⟩ => by have := hj.inside; omega).2
    exact absurd (hj.before.take h) hno

theorem BreaksAt.respelled {k : Nat} (hsame : ts'.map (·.lexeme) = ts.map (·.lexeme))
    (h : BreaksAt ts k) : BreaksAt ts' k := by
  have hlen : ts'.length = ts.length := by simpa using congrArg List.length hsame
  have htake (i : Nat) : (ts'.take i).map (·.lexeme) = (ts.take i).map (·.lexeme) := by
    rw [List.map_take, List.map_take, hsame]
  refine ⟨hlen ▸ h.inside, h.before.respelled (htake k), ?_⟩
  rw [hlen]
  exact h.there.imp (.imp_right fun hno h => hno (h.respelled hsame.symm))
    (.imp_right fun hno h => hno (h.respelled (htake (k + 1)).symm))

end BreaksAt

/-! ### Where the parser gives up -/

section Outcomes

variable {k : Nat} {ts us : List Token} {ahead : Option Token}

/-- A program is read to its end, and nothing is missing in it. -/
theorem Finishes.parse {a : List SourceStmt} {rest : List Token}
    (h : Finishes k (program k) us rest.head? a) (hlen : (us ++ rest).length < k) :
    rest = [] ∧ (parse false (us ++ rest)).errors.find? (·.unwinds) = none := by
  obtain ⟨noted, hnoted, hrun⟩ := h
  have hstop := (hrun rest #[] rfl hlen).symm.trans (run_program hlen)
  simp only [EStateM.Result.ok.injEq, ParseState.mk.injEq, Array.empty_append] at hstop
  obtain ⟨-, hrest, herrors⟩ := hstop
  refine ⟨hrest, List.find?_eq_none.mpr fun e he => ?_⟩
  have hpassing := hnoted e (herrors ▸ List.mem_toArray.mpr he)
  simp [hpassing]

/-- Where the parser gives up is the first mistake. -/
theorem GivesUp.parse (h : GivesUp k (program k) us ahead) :
    ∃ what, ∀ rest, rest.head? = ahead → (us ++ rest).length < k →
      (parse false (us ++ rest)).errors.find? (·.unwinds) = some ⟨.missing what, ahead⟩ := by
  obtain ⟨noted, what, hnoted, hrun⟩ := h
  refine ⟨what, fun rest hhead hlen => ?_⟩
  obtain ⟨more, hmore⟩ := hrun rest #[] hhead hlen
  rw [run_program hlen] at hmore
  have herrors := congrArg Array.toList hmore
  simp only [errorsOf, Array.empty_append, Array.toList_append] at herrors
  rw [herrors, List.find?_append, List.find?_eq_none.mpr fun e he => ?_]
  · rfl
  · simp [hnoted e (Array.mem_toList_iff.mp he)]

/-- No mistake is found in a program. -/
theorem Ebnf.Sentence.find?_eq_none (h : Sentence ts) :
    (parse false ts).errors.find? (·.unwinds) = none := by
  cases (decides_program (ts.length + 1)).on ts (Nat.lt_succ_self _) with
  | finishes us rest a hts _ hrun _ =>
    subst hts
    exact (hrun.parse (Nat.lt_succ_self _)).2
  | givesUp _ _ _ _ _ _ hno =>
    rw [mul_one] at hno
    exact absurd h hno

end Outcomes

/-- There are programs with these beginnings that are shorter than some bound. -/
theorem viable_bounded (ts : List Token) (n : Nat) :
    ∃ bound, ∀ i < n, Viable (ts.take i) →
      ∃ vs, Sentence (ts.take i ++ vs) ∧ (ts.take i ++ vs).length < bound := by
  induction n with
  | zero => exact ⟨0, fun i hi => absurd hi (Nat.not_lt_zero i)⟩
  | succ n ih =>
    obtain ⟨bound, hbound⟩ := ih
    by_cases hviable : Viable (ts.take n)
    · obtain ⟨vs, hvs⟩ := hviable
      refine ⟨max bound ((ts.take n ++ vs).length + 1), fun i hi hi' => ?_⟩
      rcases Nat.lt_succ_iff_lt_or_eq.mp hi with hi | rfl
      · obtain ⟨ws, hws, hlen⟩ := hbound i hi hi'
        exact ⟨ws, hws, by omega⟩
      · exact ⟨vs, hvs, by omega⟩
    · refine ⟨bound, fun i hi hi' => ?_⟩
      rcases Nat.lt_succ_iff_lt_or_eq.mp hi with hi | rfl
      · exact hbound i hi hi'
      · exact absurd hi' hviable

/-- If the parser finishes, the tokens are a program; and where it gives up, they break. -/
theorem mistake_or_sentence (ts : List Token) :
    match (parse false ts).errors.find? (·.unwinds) with
    | none => Sentence ts
    | some e => ∃ k, e.site = ts[k]? ∧ BreaksAt ts k := by
  obtain ⟨bound, hbound⟩ := viable_bounded ts (ts.length + 1)
  have hlen : ts.length < ts.length + 1 + bound := by omega
  cases (decides_program (ts.length + 1 + bound)).on ts hlen with
  | finishes us rest a hts hus hrun _ =>
    subst hts
    obtain ⟨rfl, hfind⟩ := hrun.parse hlen
    rw [hfind, List.append_nil]
    exact hus
  | givesUp us vs rest hts hvs hrun hno =>
    obtain ⟨what, hfind⟩ := hrun.parse
    subst hts
    rw [hfind rest rfl hlen]
    rw [mul_one] at hno
    refine ⟨us.length, ?_, ?_, ?_, ?_⟩
    · rw [List.getElem?_append_right (Nat.le_refl _), Nat.sub_self, List.head?_eq_getElem?]
    · simp
    · rw [List.take_left]
      exact ⟨vs, hvs⟩
    · cases rest with
      | nil => exact .inl ⟨by simp, hno⟩
      | cons t rest =>
        refine .inr ⟨by simp, fun hviable => ?_⟩
        obtain ⟨ws, hws, hshort⟩ := hbound _ (by simp) hviable
        have hfront : (us ++ t :: rest).take (us.length + 1) ++ ws = us ++ t :: ws := by
          rw [List.take_length_add_append, List.append_assoc]
          rfl
        rw [hfront] at hws hshort
        -- this program has the same token where the parser gives up
        have hmistake := hfind (t :: ws) rfl (by omega)
        rw [hws.find?_eq_none] at hmistake
        cases hmistake

/-- The first mistake is found at the earliest possible token.  If no error unwinds, the
    tokens are a program.  Otherwise the first one that does is reported at the token with
    some index `k`: the tokens before it are the beginning of a program, and either there is
    no such token and they are no program, or with the token they are not the beginning of
    one.  There is only one such `k` (`FirstMistakeAt.unique`, `BreaksAt.unique`). -/
theorem first_mistake_is_earliest (ts : List Token) :
    match (parse false ts).errors.find? (·.unwinds) with
    | none => Sentence ts
    | some e => ∃ k, e.site = ts[k]? ∧ FirstMistakeAt ts k ∧ BreaksAt ts k := by
  have h := mistake_or_sentence ts
  cases hfind : (parse false ts).errors.find? (·.unwinds) with
  | none =>
    rw [hfind] at h
    exact h
  | some e =>
    rw [hfind] at h
    obtain ⟨k, hsite, hbreaks⟩ := h
    refine ⟨k, hsite, fun ts' hsame => ?_, hbreaks⟩
    have h' := mistake_or_sentence ts'
    cases hfind' : (parse false ts').errors.find? (·.unwinds) with
    | none =>
      rw [hfind'] at h'
      rw [(h'.respelled hsame.symm).find?_eq_none] at hfind
      cases hfind
    | some e' =>
      rw [hfind'] at h'
      obtain ⟨k', hsite', hbreaks'⟩ := h'
      obtain rfl : k' = k := (hbreaks'.respelled hsame.symm).unique hbreaks
      exact ⟨e', rfl, hsite'⟩

end Treewalk
