import Treewalk.Proofs.Grammar.Flat
import Treewalk.Proofs.Grammar.Sentences

/-! # Deciding on a phrase

    A parser that reads a phrase of a language `L` with a text of a language `K` behind it
    looks one token ahead.  On tokens that begin like such a text it goes on until it has
    read a phrase or can tell that there is none: then what was read so far can still be
    completed to a phrase, but not with the token it fails at.  `DecidesAt` says so of one
    list of tokens.  Up to where it decides, a parser does the same for all lists that agree
    up to the token behind. -/

namespace Treewalk

open Treewalk.Parser Ebnf Computability

/-! ### Errors -/

/-- The errors recorded when a parser is done. -/
def errorsOf {α : Type} : EStateM.Result Failure ParseState α → Array ParseError
  | .ok _ s | .error _ s => s.errors

/-- The parser keeps the errors recorded before. -/
def Appends {α : Type} (p : Parser α) : Prop :=
  ∀ s, ∃ more, errorsOf (p s) = s.errors ++ more

/-- The errors were noted in passing. -/
def Passing (errors : Array ParseError) : Prop := ∀ e ∈ errors, e.unwinds = false

theorem Passing.empty : Passing #[] := fun e he => absurd he (Array.not_mem_empty e)

theorem Passing.append {noted noted' : Array ParseError} (h : Passing noted)
    (h' : Passing noted') : Passing (noted ++ noted') := by
  intro e he
  rcases Array.mem_append.mp he with he | he
  · exact h e he
  · exact h' e he

namespace Appends

variable {α β : Type} {p : Parser α} {f : α → Parser β}

theorem pure {a : α} : Appends (pure a) := fun _ => ⟨#[], Array.append_empty.symm⟩

theorem miss (what : Expectation) : Appends (miss what : Parser α) :=
  fun s => ⟨#[⟨.missing what, s.rest.head?⟩], Array.push_eq_append⟩

theorem bind (hp : Appends p) (hf : ∀ a, Appends (f a)) : Appends (p >>= f) := by
  intro s
  obtain ⟨more, hmore⟩ := hp s
  cases hps : p s with
  | error e s₁ =>
    rw [hps] at hmore
    rw [bind_of_error hps]
    exact ⟨more, hmore⟩
  | ok a s₁ =>
    rw [hps] at hmore
    rw [bind_of_ok hps]
    obtain ⟨more', hmore'⟩ := hf a s₁
    have hs₁ : s₁.errors = s.errors ++ more := hmore
    exact ⟨more ++ more', by rw [hmore', hs₁, Array.append_assoc]⟩

/-- A parser that records nothing. -/
theorem of_silent (h : ∀ s, ∃ a rest, p s = .ok a { s with rest }) : Appends p := by
  intro s
  obtain ⟨a, rest, hrun⟩ := h s
  rw [hrun]
  exact ⟨#[], Array.append_empty.symm⟩

theorem stepsUpTo {step : α → Parser (Option α)} (h : ∀ a, Appends (step a)) (n : Nat) (a : α) :
    Appends (stepsUpTo step n a) := by
  induction n generalizing a with
  | zero => exact .pure
  | succ n ih =>
    refine (h a).bind fun next => ?_
    cases next with
    | none => exact .pure
    | some b => exact ih b

theorem steps {step : α → Parser (Option α)} (h : ∀ a, Appends (step a)) (a : α) :
    Appends (steps step a) := by
  refine (h a).bind fun next => ?_
  cases next with
  | none => exact .pure
  | some b => exact (of_silent fun s => ⟨_, s.rest, rfl⟩).bind fun n => stepsUpTo h n b

theorem recovering (hp : Appends p) : Appends (recovering p) := by
  intro s
  have h := hp s
  unfold Parser.recovering
  cases hps : p s with
  | ok a s' =>
    rw [hps] at h
    exact h
  | error e s' =>
    rw [hps] at h
    exact h

end Appends

/-! ### Decisions -/

/-- The parser reads the phrase `us` before tokens that begin with `ahead`, and notes the
    same errors before all of them.  The tokens are fewer than `k`. -/
def Finishes {α : Type} (k : Nat) (p : Parser α) (us : List Token) (ahead : Option Token)
    (a : α) : Prop :=
  ∃ noted, Passing noted ∧ ∀ rest errors, rest.head? = ahead → (us ++ rest).length < k →
    p ⟨us ++ rest, errors⟩ = .ok a ⟨rest, errors ++ noted⟩

/-- The parser misses something behind `us`, before tokens that begin with `ahead`. -/
def GivesUp {α : Type} (k : Nat) (p : Parser α) (us : List Token) (ahead : Option Token) : Prop :=
  ∃ noted what, Passing noted ∧ ∀ rest errors, rest.head? = ahead → (us ++ rest).length < k →
    ∃ more, errorsOf (p ⟨us ++ rest, errors⟩) =
      errors ++ (noted ++ (#[⟨.missing what, ahead⟩] ++ more))

/-- On the tokens `ts` the parser reads a phrase of `L`, and leaves a text of `K` if there is
    one of `L * K`; or it fails at a token with which there is no such text. -/
inductive DecidesAt {α : Type} (k : Nat) (p : Parser α) (L K : Language Token)
    (ts : List Token) : Prop
  | finishes (us rest : List Token) (a : α) : ts = us ++ rest → us ∈ L →
      Finishes k p us rest.head? a → (ts ∈ L * K → rest ∈ K) → DecidesAt k p L K ts
  | givesUp (us vs rest : List Token) : ts = us ++ rest → us ++ vs ∈ L →
      GivesUp k p us rest.head? → ts ∉ L * K → DecidesAt k p L K ts

/-- The parser decides on all lists of fewer than `k` tokens. -/
structure Decides {α : Type} (k : Nat) (p : Parser α) (L K : Language Token) : Prop where
  appends : Appends p
  on : ∀ ts, ts.length < k → DecidesAt k p L K ts

theorem head?_append_congr {us rest rest' : List Token} (h : rest'.head? = rest.head?) :
    (us ++ rest').head? = (us ++ rest).head? := by
  cases us with
  | nil => exact h
  | cons u us => rfl

namespace DecidesAt

variable {α β : Type} {k : Nat} {p : Parser α} {f : α → Parser β} {L M K : Language Token}
  {ts : List Token}

theorem mono {j : Nat} (h : DecidesAt k p L K ts) (hj : j ≤ k) : DecidesAt j p L K ts := by
  cases h with
  | finishes us rest a hts hus hrun hrest =>
    obtain ⟨noted, hnoted, hrun⟩ := hrun
    exact .finishes us rest a hts hus ⟨noted, hnoted, fun rest errors hrest hlen =>
      hrun rest errors hrest (by omega)⟩ hrest
  | givesUp us vs rest hts hvs hrun hrest =>
    obtain ⟨noted, what, hnoted, hrun⟩ := hrun
    exact .givesUp us vs rest hts hvs ⟨noted, what, hnoted, fun rest errors hrest hlen =>
      hrun rest errors hrest (by omega)⟩ hrest

/-- Nothing is read. -/
theorem pure (a : α) : DecidesAt k (pure a) 1 K ts := by
  refine .finishes [] ts a rfl rfl ⟨#[], .empty, fun rest errors _ _ => ?_⟩ fun h => ?_
  · rw [Array.append_empty]
    rfl
  · rwa [one_mul] at h

/-- There is no phrase. -/
theorem miss [hL : HasWord L] (what : Expectation) (h : ts ∉ L * K) :
    DecidesAt k (miss what : Parser α) L K ts := by
  obtain ⟨vs, hvs⟩ := hL.word
  refine .givesUp [] vs ts rfl hvs ⟨#[], what, .empty, fun rest errors hrest _ => ⟨#[], ?_⟩⟩ h
  rw [Array.append_empty, Array.empty_append, ← hrest]
  exact Array.push_eq_append

/-- Before such tokens the parser is another one, behind errors noted at once. -/
theorem note {q : Parser α} {noted : Array ParseError} (hnoted : Passing noted)
    (hrun : ∀ rest errors, rest.head? = ts.head? → p ⟨rest, errors⟩ = q ⟨rest, errors ++ noted⟩)
    (h : DecidesAt k q L K ts) : DecidesAt k p L K ts := by
  cases h with
  | finishes us rest a hts hus hq hrest =>
    obtain ⟨noted', hnoted', hq⟩ := hq
    refine .finishes us rest a hts hus ⟨noted ++ noted', hnoted.append hnoted', ?_⟩ hrest
    intro rest errors hhead hlen
    rw [hrun _ _ (hts ▸ head?_append_congr hhead), hq rest _ hhead hlen, Array.append_assoc]
  | givesUp us vs rest hts hvs hq hrest =>
    obtain ⟨noted', what, hnoted', hq⟩ := hq
    refine .givesUp us vs rest hts hvs ⟨noted ++ noted', what, hnoted.append hnoted', ?_⟩ hrest
    intro rest errors hhead hlen
    obtain ⟨more, hmore⟩ := hq rest (errors ++ noted) hhead hlen
    refine ⟨more, ?_⟩
    rw [hrun _ _ (hts ▸ head?_append_congr hhead), hmore]
    simp only [Array.append_assoc]

/-- Before such tokens the parser is another one. -/
theorem same {q : Parser α}
    (hrun : ∀ rest errors, rest.head? = ts.head? → p ⟨rest, errors⟩ = q ⟨rest, errors⟩)
    (h : DecidesAt k q L K ts) : DecidesAt k p L K ts := by
  refine h.note .empty fun rest errors hhead => ?_
  rw [Array.append_empty]
  exact hrun rest errors hhead

/-- Before such tokens, of which two are looked at, the parser is another one that does not
    give up at the first of them. -/
theorem same_behind {q : Parser α} {t : Token} {rest : List Token}
    (hrun : ∀ rest' errors, rest'.head? = rest.head? →
      p ⟨t :: rest', errors⟩ = q ⟨t :: rest', errors⟩)
    (hL : [] ∉ L) (hq : ¬ GivesUp k q [] (some t)) (h : DecidesAt k q L K (t :: rest)) :
    DecidesAt k p L K (t :: rest) := by
  cases h with
  | finishes us rest₁ a hts hus hgo hrest =>
    obtain ⟨noted, hnoted, hgo⟩ := hgo
    refine .finishes us rest₁ a hts hus ⟨noted, hnoted, fun rest' errors hhead hlen => ?_⟩ hrest
    cases us with
    | nil => exact absurd hus hL
    | cons u us =>
      obtain ⟨rfl, rfl⟩ := List.cons.inj hts
      rw [← hgo rest' errors hhead hlen]
      exact hrun _ errors (head?_append_congr hhead)
  | givesUp us vs rest₁ hts hvs hgo hrest =>
    cases us with
    | nil =>
      obtain rfl : t :: rest = rest₁ := hts
      exact absurd hgo hq
    | cons u us =>
      obtain ⟨noted, what, hnoted, hgo⟩ := hgo
      refine .givesUp (u :: us) vs rest₁ hts hvs
        ⟨noted, what, hnoted, fun rest' errors hhead hlen => ?_⟩ hrest
      obtain ⟨rfl, rfl⟩ := List.cons.inj hts
      obtain ⟨more, hmore⟩ := hgo rest' errors hhead hlen
      refine ⟨more, ?_⟩
      rw [← hmore]
      exact congrArg errorsOf (hrun _ errors (head?_append_congr hhead))

/-- The next token is read, and the parser is another one behind it. -/
theorem take {q : Parser α} {t : Token} {rest : List Token}
    (hrun : ∀ rest' errors, rest'.head? = rest.head? → p ⟨t :: rest', errors⟩ = q ⟨rest', errors⟩)
    (hword : ∀ v ∈ M, t :: v ∈ L) (hrest : t :: rest ∈ L * K → rest ∈ M * K)
    (h : DecidesAt (k - 1) q M K rest) : DecidesAt k p L K (t :: rest) := by
  cases h with
  | finishes us rest₁ a hts hus hq hleft =>
    obtain ⟨noted, hnoted, hq⟩ := hq
    refine .finishes (t :: us) rest₁ a (congrArg (t :: ·) hts) (hword _ hus) ⟨noted, hnoted, ?_⟩
      fun h => hleft (hrest h)
    intro rest' errors hhead hlen
    simp only [List.cons_append, List.length_cons] at hlen
    rw [List.cons_append, hrun _ _ (hts ▸ head?_append_congr hhead)]
    exact hq rest' errors hhead (by omega)
  | givesUp us vs rest₁ hts hvs hq hleft =>
    obtain ⟨noted, what, hnoted, hq⟩ := hq
    refine .givesUp (t :: us) vs rest₁ (congrArg (t :: ·) hts) (hword _ hvs)
      ⟨noted, what, hnoted, ?_⟩ fun h => hleft (hrest h)
    intro rest' errors hhead hlen
    simp only [List.cons_append, List.length_cons] at hlen
    rw [List.cons_append, hrun _ _ (hts ▸ head?_append_congr hhead)]
    exact hq rest' errors hhead (by omega)

/-- Only one kind of phrases is possible. -/
theorem branch (h : DecidesAt k p M K ts) (hM : M ≤ L) (hL : ts ∈ L * K → ts ∈ M * K) :
    DecidesAt k p L K ts := by
  cases h with
  | finishes us rest a hts hus hrun hrest =>
    exact .finishes us rest a hts (hM hus) hrun fun h => hrest (hL h)
  | givesUp us vs rest hts hvs hrun hrest =>
    exact .givesUp us vs rest hts (hM hvs) hrun fun h => hrest (hL h)

/-- A parser followed by another.  What follows the first phrase is the second one and what
    is behind it. -/
theorem bind [hM : HasWord M] (hp : DecidesAt k p L (M * K) ts) (happ : ∀ a, Appends (f a))
    (hf : ∀ a us rest, ts = us ++ rest → us ∈ L → Finishes k p us rest.head? a →
      DecidesAt k (f a) M K rest) :
    DecidesAt k (p >>= f) (L * M) K ts := by
  cases hp with
  | givesUp us vs rest hts hvs hrun hrest =>
    obtain ⟨noted, what, hnoted, hrun⟩ := hrun
    obtain ⟨ws, hws⟩ := hM.word
    refine .givesUp us (vs ++ ws) rest hts ?_ ⟨noted, what, hnoted, ?_⟩ (by rwa [mul_assoc])
    · rw [← List.append_assoc]
      exact Language.append_mem_mul hvs hws
    · intro rest' errors hhead hlen
      obtain ⟨more, hmore⟩ := hrun rest' errors hhead hlen
      cases hps : p ⟨us ++ rest', errors⟩ with
      | error e s₁ =>
        rw [hps] at hmore
        rw [bind_of_error hps]
        exact ⟨more, hmore⟩
      | ok a s₁ =>
        -- the parser has resumed, and what follows only adds errors
        rw [hps] at hmore
        rw [bind_of_ok hps]
        obtain ⟨more', hmore'⟩ := happ a s₁
        have hs₁ : s₁.errors =
            errors ++ (noted ++ (#[⟨.missing what, rest.head?⟩] ++ more)) := hmore
        refine ⟨more ++ more', ?_⟩
        rw [hmore', hs₁]
        simp only [Array.append_assoc]
  | finishes us rest a hts hus hfinishes hrest =>
    obtain ⟨noted, hnoted, hrun⟩ := hfinishes
    have hbehind {vs rest₁ : List Token} (hrest₁ : rest = vs ++ rest₁) {rest' : List Token}
        (errors : Array ParseError) (hhead : rest'.head? = rest₁.head?)
        (hlen : (us ++ vs ++ rest').length < k) :
        (p >>= f) ⟨us ++ vs ++ rest', errors⟩ = f a ⟨vs ++ rest', errors ++ noted⟩ := by
      rw [List.append_assoc] at hlen ⊢
      exact bind_of_ok (hrun _ errors (hrest₁ ▸ head?_append_congr hhead) hlen) f
    cases hf a us rest hts hus ⟨noted, hnoted, hrun⟩ with
    | finishes vs rest₁ b hrest₁ hvs hq hleft =>
      obtain ⟨noted', hnoted', hq⟩ := hq
      refine .finishes (us ++ vs) rest₁ b (by rw [hts, hrest₁, List.append_assoc])
        (Language.append_mem_mul hus hvs) ⟨noted ++ noted', hnoted.append hnoted', ?_⟩ fun h => ?_
      · intro rest' errors hhead hlen
        rw [hbehind hrest₁ errors hhead hlen, hq rest' _ hhead (by simp at hlen ⊢; omega),
          Array.append_assoc]
      · rw [mul_assoc] at h
        exact hleft (hrest h)
    | givesUp vs ws rest₁ hrest₁ hws hq hleft =>
      obtain ⟨noted', what, hnoted', hq⟩ := hq
      refine .givesUp (us ++ vs) ws rest₁ (by rw [hts, hrest₁, List.append_assoc]) ?_
        ⟨noted ++ noted', what, hnoted.append hnoted', ?_⟩ fun h => ?_
      · rw [List.append_assoc]
        exact Language.append_mem_mul hus hws
      · intro rest' errors hhead hlen
        obtain ⟨more, hmore⟩ := hq rest' (errors ++ noted) hhead (by simp at hlen ⊢; omega)
        refine ⟨more, ?_⟩
        rw [hbehind hrest₁ errors hhead hlen, hmore]
        simp only [Array.append_assoc]
      · rw [mul_assoc] at h
        exact hleft (hrest h)

/-- A first step that looks at the next token only and records nothing. -/
theorem after_look {a : α} (hp : ∀ rest errors, rest.head? = ts.head? →
      p ⟨rest, errors⟩ = .ok a ⟨rest, errors⟩) (h : DecidesAt k (f a) L K ts) :
    DecidesAt k (p >>= f) L K ts :=
  h.same fun rest errors hhead => bind_of_ok (hp rest errors hhead) f

end DecidesAt

namespace Decides

variable {α β : Type} {k : Nat} {p : Parser α} {f : α → Parser β} {L M N K : Language Token}

theorem shrink {j : Nat} (h : Decides k p L K) (hj : j ≤ k) : Decides j p L K :=
  ⟨h.appends, fun ts hlen => (h.on ts (by omega)).mono hj⟩

theorem pure (a : α) : Decides k (pure a) 1 K :=
  ⟨.pure, fun _ _ => .pure a⟩

theorem bind [HasWord M] (hp : Decides k p L (M * K)) (hf : ∀ a, Decides k (f a) M K) :
    Decides k (p >>= f) (L * M) K where
  appends := hp.appends.bind fun a => (hf a).appends
  on ts hlen := by
    refine (hp.on ts hlen).bind (fun a => (hf a).appends) fun a us rest hts _ _ => (hf a).on rest ?_
    rw [hts, List.length_append] at hlen
    omega

/-- A last step that reads nothing. -/
theorem last (hp : Decides k p L K) (hf : ∀ a, Decides k (f a) 1 K) :
    Decides k (p >>= f) L K := by
  rw [← one_mul K] at hp
  have hbind := hp.bind hf
  rwa [mul_one] at hbind

theorem map (g : α → β) (hp : Decides k p L K) : Decides k (g <$> p) L K := by
  rw [map_eq_pure_bind]
  exact hp.last fun a => .pure (g a)

/-- An issue is noted before what the parser does. -/
theorem after_report {issue : ParseIssue} (hissue : issue.unwinds = false) (site : Option Token)
    {q : Parser α} (hq : Decides k q L K) :
    Decides k (report issue site >>= fun _ => q) L K where
  appends := Appends.bind (fun s => ⟨#[⟨issue, site⟩], Array.push_eq_append⟩) fun _ => hq.appends
  on ts hlen := by
    have hnoted : Passing #[⟨issue, site⟩] := by
      simpa [Passing, ParseError.unwinds] using hissue
    refine (hq.on ts hlen).note hnoted fun rest errors _ => ?_
    rw [← Array.push_eq_append]
    rfl

theorem after_reportNext {issue : ParseIssue} (hissue : issue.unwinds = false) {q : Parser α}
    (hq : Decides k q L K) :
    Decides k (peek >>= fun site => report issue site >>= fun _ => q) L K where
  appends := (Appends.of_silent fun s => ⟨_, s.rest, rfl⟩).bind fun site =>
    (after_report hissue site hq).appends
  on ts hlen := by
    refine ((after_report hissue ts.head? hq).on ts hlen).after_look fun rest errors hhead => ?_
    rw [← hhead]
    rfl

end Decides

/-! ### Taking tokens -/

/-- The parser takes the next token if `g` accepts it. -/
structure Takes {γ : Type} (p : Parser (Option γ)) (g : Token → Option γ) : Prop where
  takes : ∀ t rest errors c, g t = some c → p ⟨t :: rest, errors⟩ = .ok (some c) ⟨rest, errors⟩
  skips : ∀ rest errors, (∀ t ∈ rest.head?, g t = none) →
    p ⟨rest, errors⟩ = .ok none ⟨rest, errors⟩

theorem Takes.appends {γ : Type} {p : Parser (Option γ)} {g : Token → Option γ} (h : Takes p g) :
    Appends p := by
  refine .of_silent fun s => ?_
  obtain ⟨rest, errors⟩ := s
  by_cases hnone : ∀ t ∈ rest.head?, g t = none
  · exact ⟨none, rest, h.skips rest errors hnone⟩
  · obtain ⟨t, ht, hg⟩ := by simpa using hnone
    obtain ⟨c, hc⟩ := Option.ne_none_iff_exists'.mp hg
    obtain ⟨rest, rfl⟩ := List.head?_eq_some_iff.mp ht
    exact ⟨some c, rest, h.takes t rest errors c hc⟩

theorem takes_acceptWith {γ : Type} (g : Lexeme → Option γ) :
    Takes (acceptWith g) fun t => (g t.lexeme).map (·, t) where
  takes t rest errors c hc := by
    obtain ⟨a, ha, rfl⟩ := Option.map_eq_some_iff.mp hc
    simp [acceptWith, ha]
  skips rest errors h := by
    cases rest with
    | nil => rfl
    | cons t rest =>
      have ht : g t.lexeme = none := Option.map_eq_none_iff.mp (h t rfl)
      simp [acceptWith, ht]

theorem takes_accept (s : Symbol) :
    Takes (accept s) fun t => if t.lexeme = .symbol s then some t else none where
  takes t rest errors c hc := by
    obtain ⟨ht, ⟨⟩⟩ := Option.ite_none_right_eq_some.mp hc
    simp [accept, Token.isSymbol, ht]
  skips rest errors h := by
    cases rest with
    | nil => rfl
    | cons t rest =>
      have ht : t.lexeme ≠ .symbol s := by simpa using h t rfl
      simp [accept, Token.isSymbol, ht]

theorem takes_acceptKeyword (w : Keyword) :
    Takes (acceptKeyword w) fun t => if t.lexeme = .keyword w then some t else none where
  takes t rest errors c hc := by
    obtain ⟨ht, ⟨⟩⟩ := Option.ite_none_right_eq_some.mp hc
    simp [acceptKeyword, Token.isKeyword, ht]
  skips rest errors h := by
    cases rest with
    | nil => rfl
    | cons t rest =>
      have ht : t.lexeme ≠ .keyword w := by simpa using h t rfl
      simp [acceptKeyword, Token.isKeyword, ht]

namespace Decides

variable {α β γ : Type} {k : Nat} {L M N K : Language Token}

/-- A parser that takes the next token or nothing, followed by another. -/
theorem after_taking {p : Parser (Option γ)} {g : Token → Option γ} {f : Option γ → Parser β}
    (hp : Takes p g) (happ : Appends (f none))
    (hskip : ∀ ts, ts.length < k → (∀ t ∈ ts.head?, g t = none) → DecidesAt k (f none) L K ts)
    (htake : ∀ t c, g t = some c → ∃ M, Decides (k - 1) (f (some c)) M K ∧
      (∀ v ∈ M, t :: v ∈ L) ∧ ∀ v, t :: v ∈ L * K → v ∈ M * K) :
    Decides k (p >>= f) L K where
  appends s := by
    obtain ⟨rest, errors⟩ := s
    by_cases hnone : ∀ t ∈ rest.head?, g t = none
    · rw [bind_of_ok (hp.skips rest errors hnone)]
      exact happ _
    · obtain ⟨t, ht, hg⟩ := by simpa using hnone
      obtain ⟨c, hc⟩ := Option.ne_none_iff_exists'.mp hg
      obtain ⟨rest, rfl⟩ := List.head?_eq_some_iff.mp ht
      obtain ⟨M, hM, -⟩ := htake t c hc
      rw [bind_of_ok (hp.takes t rest errors c hc)]
      exact hM.appends _
  on ts hlen := by
    by_cases hnone : ∀ t ∈ ts.head?, g t = none
    · refine (hskip ts hlen hnone).after_look fun rest errors hhead => ?_
      exact hp.skips rest errors (hhead ▸ hnone)
    · obtain ⟨t, ht, hg⟩ := by simpa using hnone
      obtain ⟨c, hc⟩ := Option.ne_none_iff_exists'.mp hg
      obtain ⟨rest, rfl⟩ := List.head?_eq_some_iff.mp ht
      obtain ⟨M, hM, hword, hrest⟩ := htake t c hc
      rw [List.length_cons] at hlen
      exact .take (fun rest' errors _ => bind_of_ok (hp.takes t rest' errors c hc) f) hword
        (hrest rest) (hM.on rest (by omega))

/-- A symbol or keyword may be next, and otherwise there is something else.  If both are
    possible, it is taken. -/
theorem after_optional {p : Parser (Option Token)} {x : Lexeme} {f : Option Token → Parser β}
    (hp : Takes p fun t => if t.lexeme = x then some t else none)
    (hnone : Decides k (f none) N K) (hsome : ∀ t, Decides (k - 1) (f (some t)) M K)
    (hN : ∀ t v, t.lexeme = x → t :: v ∈ N * K → v ∈ M * K) :
    Decides k (p >>= f) (N + token (· = x) * M) K := by
  have hword (ts : List Token) : ts ∈ (N + token (· = x) * M) * K ↔
      ts ∈ N * K ∨ ts ∈ token (· = x) * (M * K) := by
    rw [add_mul, mul_assoc, Language.mem_add]
  refine after_taking hp hnone.appends (fun ts hlen hhead => ?_) fun t c hc => ?_
  · refine (hnone.on ts hlen).branch le_self_add fun h => ?_
    rcases (hword ts).mp h with h | h
    · exact h
    · obtain ⟨t, v, rfl, ht, -⟩ := mem_token_mul.mp h
      simp [ht] at hhead
  · obtain ⟨ht, ⟨⟩⟩ := Option.ite_none_right_eq_some.mp hc
    refine ⟨M, hsome t, fun v hv => .inr (cons_mem_token_mul.mpr ⟨ht, hv⟩), fun v h => ?_⟩
    rcases (hword _).mp h with h | h
    · exact hN t v ht h
    · exact (cons_mem_token_mul.mp h).2

theorem after_accept {s : Symbol} {f : Option Token → Parser β} (hnone : Decides k (f none) N K)
    (hsome : ∀ t, Decides (k - 1) (f (some t)) M K)
    (hN : ∀ t v, t.lexeme = .symbol s → t :: v ∉ N * K) :
    Decides k (accept s >>= f) (N + symbol s * M) K :=
  after_optional (takes_accept s) hnone hsome fun t v ht h => absurd h (hN t v ht)

theorem after_acceptKeyword {w : Keyword} {f : Option Token → Parser β}
    (hnone : Decides k (f none) N K) (hsome : ∀ t, Decides (k - 1) (f (some t)) M K)
    (hN : ∀ t v, t.lexeme = .keyword w → t :: v ∉ N * K) :
    Decides k (acceptKeyword w >>= f) (N + keyword w * M) K :=
  after_optional (takes_acceptKeyword w) hnone hsome fun t v ht h => absurd h (hN t v ht)

/-- A symbol has to be next. -/
theorem after_expect [HasWord M] {s : Symbol} {what : Expectation} {f : Token → Parser β}
    (hf : ∀ t, Decides (k - 1) (f t) M K) :
    Decides k (expect s what >>= f) (symbol s * M) K := by
  unfold expect
  rw [bind_assoc]
  have hmiss (ts : List Token) (h : ts ∉ symbol s * M * K) :
      DecidesAt k ((miss what : Parser Token) >>= f) (symbol s * M) K ts :=
    (DecidesAt.miss what h).same fun _ _ _ => rfl
  refine after_taking (takes_accept s) ((Appends.miss what).bind fun t => (hf t).appends)
    (fun ts hlen hhead => hmiss ts fun h => ?_) fun t c hc => ?_
  · rw [mul_assoc] at h
    obtain ⟨t, v, rfl, ht, -⟩ := mem_token_mul.mp h
    simp [ht] at hhead
  · obtain ⟨ht, ⟨⟩⟩ := Option.ite_none_right_eq_some.mp hc
    refine ⟨M, hf t, fun v hv => cons_mem_token_mul.mpr ⟨ht, hv⟩, fun v h => ?_⟩
    rw [mul_assoc] at h
    exact (cons_mem_token_mul.mp h).2

/-- A name has to be next. -/
theorem after_expectName [hM : HasWord M] {what : Expectation} {f : Name → Parser β}
    (hf : ∀ n, Decides (k - 1) (f n) M K) :
    Decides k (expectName what >>= f) (name * M) K where
  appends := by
    refine Appends.bind (fun s => ?_) fun n => (hf n).appends
    unfold expectName
    split
    · split
      · exact ⟨#[], Array.append_empty.symm⟩
      · exact Appends.miss what s
    · exact Appends.miss what s
  on ts hlen := by
    have hmiss (h : ∀ n us, ts ≠ ident n :: us) :
        DecidesAt k (expectName what >>= f) (name * M) K ts := by
      have hnone : ts ∉ name * M * K := by
        intro hmem
        rw [mul_assoc] at hmem
        obtain ⟨⟨_, l⟩, us, rfl, ⟨text, rfl⟩, -⟩ := mem_token_mul.mp hmem
        exact h ⟨text, l⟩ us rfl
      refine (DecidesAt.miss what hnone).same fun rest errors hhead => ?_
      have hrun : expectName what ⟨rest, errors⟩ = miss what ⟨rest, errors⟩ := by
        cases rest with
        | nil => rfl
        | cons t rest =>
          cases hn : nameOf? t with
          | none => simp [expectName, hn]
          | some n =>
            obtain ⟨us, hts⟩ := List.head?_eq_some_iff.mp hhead.symm
            exact absurd hts (nameOf?_eq hn ▸ h n us)
      exact bind_of_error hrun f
    cases ts with
    | nil => exact hmiss fun _ _ => (List.cons_ne_nil _ _).symm
    | cons t us =>
      cases hn : nameOf? t with
      | none =>
        refine hmiss fun n vs hts => ?_
        rw [(List.cons.inj hts).1] at hn
        cases hn
      | some n =>
        obtain rfl := nameOf?_eq hn
        rw [List.length_cons] at hlen
        refine .take (M := M) (fun rest errors _ => rfl) (fun v hv => ?_) (fun h => ?_)
          ((hf n).on us (by omega))
        · exact cons_mem_token_mul.mpr ⟨⟨_, rfl⟩, hv⟩
        · rw [mul_assoc] at h
          exact (cons_mem_token_mul.mp h).2

theorem expect {s : Symbol} {what : Expectation} : Decides k (expect s what) (symbol s) K := by
  rw [← bind_pure (Parser.expect s what), ← mul_one (symbol s)]
  exact .after_expect fun t => .pure t

theorem expectName {what : Expectation} : Decides k (expectName what) Ebnf.name K := by
  rw [← bind_pure (Parser.expectName what), ← mul_one Ebnf.name]
  exact .after_expectName fun n => .pure n

/-- The next symbol tells which of two kinds of phrases there is. -/
theorem after_nextIs {s : Symbol} {f : Bool → Parser β} (htrue : Decides k (f true) N K)
    (hfalse : Decides k (f false) M K)
    (hN : ∀ ts ∈ N * K, ∃ t v, ts = t :: v ∧ t.lexeme = .symbol s)
    (hM : ∀ t v, t.lexeme = .symbol s → t :: v ∉ M * K) :
    Decides k (nextIs s >>= f) (N + M) K where
  appends := by
    refine (Appends.of_silent fun s => ⟨_, s.rest, rfl⟩).bind fun b => ?_
    cases b with
    | true => exact htrue.appends
    | false => exact hfalse.appends
  on ts hlen := by
    have hrun (rest : List Token) (errors : Array ParseError) (hhead : rest.head? = ts.head?) :
        nextIs s ⟨rest, errors⟩ = .ok (ts.head?.any (·.isSymbol s)) ⟨rest, errors⟩ := by
      rw [← hhead]
      cases rest <;> rfl
    refine .after_look hrun ?_
    cases hnext : ts.head?.any (·.isSymbol s) with
    | true =>
      refine (htrue.on ts hlen).branch le_self_add fun h => ?_
      cases ts with
      | nil => cases hnext
      | cons t v =>
        have ht : t.lexeme = .symbol s := by simpa [Token.isSymbol] using hnext
        rw [add_mul] at h
        exact h.resolve_right (hM t v ht)
    | false =>
      refine (hfalse.on ts hlen).branch le_add_self fun h => ?_
      rw [add_mul] at h
      refine h.resolve_left fun h => ?_
      obtain ⟨t, v, rfl, ht⟩ := hN ts h
      simp [Token.isSymbol, ht] at hnext

end Decides

/-! ### Repetition and recovery -/

/-- A round of a loop on the tokens `ts`: it finds nothing to do, and there is no item; or it
    decides on an item, and nothing else is possible. -/
inductive RoundAt {α : Type} (k : Nat) (step : Parser (Option α)) (A K : Language Token)
    (ts : List Token) : Prop
  | stops : (∀ rest errors, rest.head? = ts.head? →
        step ⟨rest, errors⟩ = .ok none ⟨rest, errors⟩) →
      ts ∉ A * (A∗ * K) → RoundAt k step A K ts
  | goes : (∀ rest errors s', rest.head? = ts.head? → step ⟨rest, errors⟩ ≠ .ok none s') →
      DecidesAt k step A (A∗ * K) ts → ts ∉ K → RoundAt k step A K ts

/-- A parser that never finds nothing to do. -/
def GoesOn {α : Type} (p : Parser (Option α)) : Prop := ∀ s s', p s ≠ .ok none s'

theorem GoesOn.pure {α : Type} (a : α) : GoesOn (Pure.pure (some a)) := nofun

theorem GoesOn.bind {α β : Type} {p : Parser α} {f : α → Parser (Option β)}
    (h : ∀ a, GoesOn (f a)) : GoesOn (p >>= f) := by
  intro s s'
  cases hps : p s with
  | error e s₁ =>
    rw [bind_of_error hps]
    exact nofun
  | ok a s₁ =>
    rw [bind_of_ok hps]
    exact h a s₁ s'

namespace RoundAt

variable {α γ : Type} {k : Nat} {A K : Language Token} {ts : List Token}

theorem nothing (h : ts ∉ A * (A∗ * K)) : RoundAt k (Pure.pure none : Parser (Option α)) A K ts :=
  .stops (fun _ _ _ => rfl) h

/-- A round that starts with the next token. -/
theorem after_taking {p : Parser (Option γ)} {g : Token → Option γ}
    {f : Option γ → Parser (Option α)} (hp : Takes p g) (hlen : ts.length < k)
    (hskip : (∀ t ∈ ts.head?, g t = none) → RoundAt k (f none) A K ts)
    (htake : ∀ t rest c, ts = t :: rest → g t = some c → GoesOn (f (some c)) ∧ t :: rest ∉ K ∧
      ∃ M, Decides (k - 1) (f (some c)) M (A∗ * K) ∧ (∀ v ∈ M, t :: v ∈ A) ∧
        (t :: rest ∈ A * (A∗ * K) → rest ∈ M * (A∗ * K))) :
    RoundAt k (p >>= f) A K ts := by
  by_cases hnone : ∀ t ∈ ts.head?, g t = none
  · have hrun (rest : List Token) (errors : Array ParseError) (hhead : rest.head? = ts.head?) :
        (p >>= f) ⟨rest, errors⟩ = f none ⟨rest, errors⟩ :=
      bind_of_ok (hp.skips rest errors (hhead ▸ hnone)) f
    cases hskip hnone with
    | stops hstop hno =>
      exact .stops (fun rest errors hhead => (hrun rest errors hhead).trans
        (hstop rest errors hhead)) hno
    | goes hgo hitem hno =>
      exact .goes (fun rest errors s' hhead => hrun rest errors hhead ▸ hgo rest errors s' hhead)
        (hitem.same hrun) hno
  · obtain ⟨t, ht, hg⟩ := by simpa using hnone
    obtain ⟨c, hc⟩ := Option.ne_none_iff_exists'.mp hg
    obtain ⟨rest, rfl⟩ := List.head?_eq_some_iff.mp ht
    obtain ⟨hgoesOn, hno, M, hM, hword, hrest⟩ := htake t rest c rfl hc
    have hrun (rest : List Token) (errors : Array ParseError) :
        (p >>= f) ⟨t :: rest, errors⟩ = f (some c) ⟨rest, errors⟩ :=
      bind_of_ok (hp.takes t rest errors c hc) f
    rw [List.length_cons] at hlen
    refine .goes (fun rest' errors s' hhead => ?_) ?_ hno
    · obtain ⟨rest', rfl⟩ := List.head?_eq_some_iff.mp hhead
      rw [hrun]
      exact hgoesOn _ _
    · exact .take (fun rest' errors _ => hrun rest' errors) hword hrest (hM.on rest (by omega))

end RoundAt

namespace Decides

variable {α : Type} {k : Nat} {p : Parser α} {L K : Language Token}

theorem steps {step : α → Parser (Option α)} {A : Language Token}
    (hA : [] ∉ A) (horderly : Orderly step) (happ : ∀ a, Appends (step a))
    (hround : ∀ a ts, ts.length < k → RoundAt k (step a) A K ts) (a : α) :
    Decides k (steps step a) A∗ K where
  appends := .steps happ a
  on ts hlen := by
    have hmany : (A∗ : Language Token) = 1 + A * A∗ :=
      (Language.one_add_self_mul_kstar_eq_kstar A).symm
    -- by induction on the tokens, of which each item has at least one
    induction hn : ts.length using Nat.strongRecOn generalizing a ts with
    | ind n ih =>
      rw [horderly.steps_eq]
      cases hround a ts hlen with
      | stops hstop hno =>
        refine .after_look hstop ?_
        refine (DecidesAt.pure a).branch (le_self_add.trans_eq hmany.symm) fun h => ?_
        rw [hmany, add_mul, mul_assoc] at h
        exact h.resolve_right hno
      | goes hgo hitem hno =>
        have hitems (h : ts ∈ A∗ * K) : ts ∈ A * A∗ * K := by
          rw [hmany, add_mul, one_mul] at h
          exact h.resolve_left hno
        refine .branch (M := A * A∗) ?_ (le_add_self.trans_eq hmany.symm) hitems
        refine hitem.bind (fun next => ?_) fun next us rest hts hus hround => ?_
        · cases next with
          | none => exact .pure
          | some b => exact .steps happ b
        · cases next with
          | none =>
            obtain ⟨noted, -, hrun⟩ := hround
            exact absurd (hrun rest #[] rfl (hts ▸ hlen)) (hgo _ _ _ (by rw [hts]))
          | some b =>
            have hpos : us.length ≠ 0 := fun hnil => hA (List.length_eq_zero_iff.mp hnil ▸ hus)
            rw [hts, List.length_append] at hn hlen
            exact ih rest.length (by omega) b rest (by omega) rfl

/-- A loop in which a token of some kind tells that there is another item. -/
theorem stepsTaking {γ : Type} {p : Parser (Option γ)} {g : Token → Option γ} {P : Lexeme → Prop}
    {X : Language Token} {step : α → Parser (Option α)}
    {f : α → Option γ → Parser (Option α)} (hp : Takes p g)
    (hP : ∀ t, P t.lexeme ↔ ∃ c, g t = some c) (hstep : ∀ a, step a = p >>= f a)
    (horderly : Orderly step) (hnone : ∀ a, f a none = Pure.pure none)
    (hgoesOn : ∀ a c, GoesOn (f a (some c)))
    (hsome : ∀ a c, Decides (k - 1) (f a (some c)) X ((token P * X)∗ * K))
    (hK : ∀ t v, P t.lexeme → t :: v ∉ K) (a : α) :
    Decides k (Parser.steps step a) (token P * X)∗ K := by
  refine steps nil_not_mem_token_mul horderly (fun a => ?_) (fun a ts hlen => ?_) a
  · rw [hstep]
    refine hp.appends.bind fun o => ?_
    cases o with
    | none => exact hnone a ▸ .pure
    | some c => exact (hsome a c).appends
  · rw [hstep]
    refine .after_taking hp hlen (fun hskip => ?_) fun t rest c hts hc => ?_
    · rw [hnone]
      refine .nothing fun h => ?_
      rw [mul_assoc] at h
      obtain ⟨t, v, rfl, ht, -⟩ := mem_token_mul.mp h
      obtain ⟨c, hc⟩ := (hP t).mp ht
      rw [hskip t rfl] at hc
      cases hc
    · have ht : P t.lexeme := (hP t).mpr ⟨c, hc⟩
      refine ⟨hgoesOn a c, hK t rest ht, X, hsome a c, fun v hv => ?_, fun h => ?_⟩
      · exact cons_mem_token_mul.mpr ⟨ht, hv⟩
      · rw [mul_assoc] at h
        exact (cons_mem_token_mul.mp h).2

/-- A statement that is given up is resumed behind it. -/
theorem recovering {p : Parser α} (hp : Decides k p L K) : Decides k (recovering p) L K where
  appends := hp.appends.recovering
  on ts hlen := by
    cases hp.on ts hlen with
    | finishes us rest a hts hus hrun hleft =>
      obtain ⟨noted, hnoted, hrun⟩ := hrun
      refine .finishes us rest (some a) hts hus ⟨noted, hnoted, fun rest' errors hhead hlen => ?_⟩
        hleft
      unfold Parser.recovering
      rw [hrun rest' errors hhead hlen]
    | givesUp us vs rest hts hvs hrun hleft =>
      obtain ⟨noted, what, hnoted, hrun⟩ := hrun
      refine .givesUp us vs rest hts hvs ⟨noted, what, hnoted, fun rest' errors hhead hlen => ?_⟩
        hleft
      have h := hrun rest' errors hhead hlen
      unfold Parser.recovering
      cases hps : p ⟨us ++ rest', errors⟩ with
      | ok a s' =>
        rw [hps] at h
        exact h
      | error e s' =>
        rw [hps] at h
        exact h

end Decides

end Treewalk
