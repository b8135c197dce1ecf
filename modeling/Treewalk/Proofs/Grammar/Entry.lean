import Treewalk.Proofs.Grammar.Script

/-! # Entries

    An interactive entry is a script, or a script that lacks the semicolon at its very
    end.  The semicolon of an expression may be left out wherever an expression statement
    can stand, however deep, but only at the end of the tokens; and whatever else has to
    be read there is then missing.  So what a parser reads is described together with the
    tokens behind it (`ReadsBefore`): a phrase is complete, or it would be with a
    semicolon and has nothing behind it (`UpToSemicolon`). -/

namespace Treewalk

open Treewalk.Parser

/-! ### Reading before a rest -/

/-- The outcome of a parser that started in `s`. -/
def ReadsBefore.Outcome {α : Type} (post : List Token → List Token → α → Prop) (s : ParseState) :
    EStateM.Result Failure ParseState α → Prop
  | .ok a s' =>
    s.errors.size ≤ s'.errors.size ∧
      (s'.errors.size = s.errors.size → ∃ ts, s.rest = ts ++ s'.rest ∧ post ts s'.rest a)
  | .error _ s' => s.errors.size < s'.errors.size

/-- Unless it records an error, the parser reads a phrase with this property of the
    phrase, of the tokens behind it, and of what it yields. -/
def ReadsBefore {α : Type} (p : Parser α) (post : List Token → List Token → α → Prop) : Prop :=
  ∀ s, ReadsBefore.Outcome post s (p s)

theorem Reads.before {α : Type} {p : Parser α} {post : List Token → α → Prop}
    (hp : Reads p post) : ReadsBefore p (fun ts _ a => post ts a) := by
  intro s
  have h := hp s
  cases hps : p s <;> rw [hps] at h <;> exact h

namespace ReadsBefore

variable {α β : Type} {p : Parser α} {post : List Token → List Token → α → Prop}

/-- What is known of the phrase alone. -/
theorem reads {post : List Token → α → Prop} (hp : ReadsBefore p fun ts _ a => post ts a) :
    Reads p post := by
  intro s
  have h := hp s
  cases hps : p s <;> rw [hps] at h <;> exact h

theorem pure {a : α} (h : ∀ rest, post [] rest a) : ReadsBefore (pure a) post :=
  fun s => ⟨Nat.le_refl _, fun _ => ⟨[], rfl, h s.rest⟩⟩

theorem mono {post₂ : List Token → List Token → α → Prop} (hp : ReadsBefore p post)
    (h : ∀ ts rest a, post ts rest a → post₂ ts rest a) : ReadsBefore p post₂ := by
  intro s
  have h₁ := hp s
  cases hps : p s with
  | error e s₁ =>
    rw [hps] at h₁
    exact h₁
  | ok a s₁ =>
    rw [hps] at h₁
    refine ⟨h₁.1, fun hsize => ?_⟩
    obtain ⟨ts, hts, hpost⟩ := h₁.2 hsize
    exact ⟨ts, hts, h ts s₁.rest a hpost⟩

/-- A parser followed by another: what the second one reads is what stands behind the
    phrase of the first. -/
theorem bind {f : α → Parser β} {post' : List Token → List Token → β → Prop}
    (hp : ReadsBefore p post)
    (hf : ∀ a, ReadsBefore (f a) fun vs rest b =>
      ∀ us, post us (vs ++ rest) a → post' (us ++ vs) rest b) :
    ReadsBefore (p >>= f) post' := by
  intro s
  have h₁ := hp s
  cases hps : p s with
  | error e s₁ =>
    rw [hps] at h₁
    rw [bind_of_error hps]
    exact h₁
  | ok a s₁ =>
    rw [hps] at h₁
    rw [bind_of_ok hps]
    have h₂ := hf a s₁
    cases hfs : f a s₁ with
    | error e s₂ =>
      rw [hfs] at h₂
      exact Nat.lt_of_le_of_lt h₁.1 h₂
    | ok b s₂ =>
      rw [hfs] at h₂
      refine ⟨Nat.le_trans h₁.1 h₂.1, fun hsize => ?_⟩
      have hle₁ := h₁.1
      have hle₂ := h₂.1
      obtain ⟨us, hus, hpost⟩ := h₁.2 (by omega)
      obtain ⟨vs, hvs, hpost'⟩ := h₂.2 (by omega)
      rw [hvs] at hpost
      exact ⟨us ++ vs, by rw [hus, hvs, List.append_assoc], hpost' us hpost⟩

theorem map (f : α → β) (hp : ReadsBefore p post) :
    ReadsBefore (f <$> p) fun ts rest b => ∃ a, b = f a ∧ post ts rest a := by
  rw [map_eq_pure_bind]
  refine hp.bind fun a => .pure fun rest us hus => ⟨a, rfl, ?_⟩
  rw [List.append_nil]
  exact hus

theorem phrase {a : α} {s s' : ParseState} (hp : ReadsBefore p post) (h : p s = .ok a s')
    (hsize : s'.errors.size = s.errors.size) :
    ∃ ts, s.rest = ts ++ s'.rest ∧ post ts s'.rest a := by
  have houtcome := hp s
  rw [h] at houtcome
  exact houtcome.2 hsize

/-! ### Elementary parsers -/

/-- A parser that reads nothing, and what it sees of the tokens. -/
theorem of_look {look : List Token → α} (h : ∀ s, p s = .ok (look s.rest) s) :
    ReadsBefore p fun ts rest a => ts = [] ∧ a = look rest := by
  intro s
  rw [h s]
  exact ⟨Nat.le_refl _, fun _ => ⟨[], rfl, rfl, rfl⟩⟩

end ReadsBefore

theorem Looks.reads {α : Type} {p : Parser α} (hp : Looks p) : Reads p fun ts _ => ts = [] := by
  rw [← bind_pure p]
  exact .after_look hp fun a => .pure rfl

theorem reads_expect (symbol : Symbol) (what : Expectation) :
    Reads (expect symbol what) fun ts _ => ∃ l, ts = [sym symbol l] := by
  rw [← bind_pure (expect symbol what)]
  exact .after_expect fun l => .pure ⟨l, rfl⟩

theorem reads_accept (symbol : Symbol) :
    Reads (accept symbol) fun ts found =>
      match found with
      | some t => ts = [t] ∧ t = sym symbol t.line
      | none => ts = [] := by
  rw [← bind_pure (accept symbol)]
  exact .after_accept (.pure rfl) fun l => .pure ⟨rfl, rfl⟩

theorem reads_acceptWith {α : Type} (g : Lexeme → Option α) :
    Reads (acceptWith g) fun ts found =>
      match found with
      | some (a, t) => ts = [t] ∧ g t.lexeme = some a
      | none => ts = [] := by
  rw [← bind_pure (acceptWith g)]
  exact .after_acceptWith (.pure rfl) fun a x l hg => .pure ⟨rfl, hg⟩

theorem reads_acceptNamedFun :
    Reads acceptNamedFun fun ts found => if found then ∃ l, ts = [word .funWord l] else ts = [] := by
  rw [← bind_pure acceptNamedFun]
  exact .after_acceptNamedFun (.pure rfl) fun l => .pure ⟨l, rfl⟩

/-- A keyword that was not read is not the next token. -/
theorem readsBefore_acceptKeyword (k : Keyword) :
    ReadsBefore (acceptKeyword k) fun ts rest found =>
      match found with
      | some t => ts = [t] ∧ t = word k t.line
      | none => ts = [] ∧ Next (· ≠ .keyword k) rest := by
  intro s
  unfold acceptKeyword
  cases hrest : s.rest with
  | nil =>
    refine ⟨Nat.le_refl _, fun _ => ⟨[], rfl, rfl, ?_⟩⟩
    rw [hrest]
    exact nofun
  | cons t rest =>
    dsimp only
    cases ht : t.isKeyword k with
    | false =>
      refine ⟨Nat.le_refl _, fun _ => ⟨[], rfl, rfl, ?_⟩⟩
      rw [hrest, next_cons]
      simpa [Token.isKeyword] using ht
    | true => exact ⟨Nat.le_refl _, fun _ => ⟨[t], hrest, rfl, Token.eq_word ht⟩⟩

/-! ### Repetition and recovery -/

section Repetition

variable {α : Type} {step : α → Parser (Option α)} {I : List Token → List Token → α → Prop}

/-- A step of a loop keeps the invariant `I`, which relates what was read so far and
    what is left to what was made of it. -/
def KeepsBefore (step : α → Parser (Option α)) (I : List Token → List Token → α → Prop) : Prop :=
  ∀ a, ReadsBefore (step a) fun ts rest next =>
    match next with
    | none => ts = []
    | some b => ∀ us, I us (ts ++ rest) a → I (us ++ ts) rest b

/-- What a step and the steps behind it make of the invariant. -/
theorem KeepsBefore.step_bind (hstep : KeepsBefore step I) {more : α → Parser α} (a : α)
    (hmore : ∀ b, ReadsBefore (more b) fun ts rest c =>
      ∀ us, I us (ts ++ rest) b → I (us ++ ts) rest c) :
    ReadsBefore (step a >>= fun next => match next with
      | some b => more b
      | none => pure a) fun ts rest b => ∀ us, I us (ts ++ rest) a → I (us ++ ts) rest b := by
  refine (hstep a).bind fun next => ?_
  cases next with
  | none =>
    refine .pure ?_
    rintro rest _ rfl us hus
    rw [List.append_nil, List.append_nil]
    exact hus
  | some b =>
    refine (hmore b).mono ?_
    intro vs rest c hc ts hb us hus
    rw [← List.append_assoc]
    refine hc _ (hb us ?_)
    rw [← List.append_assoc]
    exact hus

theorem readsBefore_stepsUpTo (hstep : KeepsBefore step I) (n : Nat) (a : α) :
    ReadsBefore (stepsUpTo step n a) fun ts rest b =>
      ∀ us, I us (ts ++ rest) a → I (us ++ ts) rest b := by
  induction n generalizing a with
  | zero =>
    refine .pure fun rest us hus => ?_
    rw [List.append_nil]
    exact hus
  | succ n ih => exact hstep.step_bind a ih

theorem readsBefore_steps (hstep : KeepsBefore step I) (a : α) :
    ReadsBefore (steps step a) fun ts rest b =>
      ∀ us, I us (ts ++ rest) a → I (us ++ ts) rest b := by
  refine hstep.step_bind a fun b => ?_
  refine (ReadsBefore.of_look (p := remaining) fun _ => rfl).bind fun n => ?_
  refine (readsBefore_stepsUpTo hstep n b).mono ?_
  rintro ts rest c hc _ ⟨rfl, -⟩
  exact hc

end Repetition

theorem readsBefore_recovering {α : Type} {p : Parser α}
    {post : List Token → List Token → α → Prop} (hp : ReadsBefore p post) :
    ReadsBefore (recovering p) fun ts rest found => ∃ a, found = some a ∧ post ts rest a := by
  intro s
  have h := hp s
  unfold recovering
  cases hps : p s with
  | error e s' =>
    rw [hps] at h
    exact ⟨Nat.le_of_lt h, fun hsize => absurd hsize (Nat.ne_of_gt h)⟩
  | ok a s' =>
    rw [hps] at h
    refine ⟨h.1, fun hsize => ?_⟩
    obtain ⟨ts, hts, hpost⟩ := h.2 hsize
    exact ⟨ts, hts, a, rfl, hpost⟩

/-! ### Phrases that may lack a semicolon -/

/-- The phrase is complete, or it is at the end of the tokens and complete with one more
    semicolon. -/
def UpToSemicolon (P : List Token → Prop) (ts rest : List Token) : Prop :=
  P ts ∨ rest = [] ∧ ∀ l, P (ts ++ [sym .semicolon l])

namespace UpToSemicolon

variable {P Q : List Token → Prop} {ts us rest : List Token}

/-- What stands before a phrase does not matter. -/
theorem behind (us : List Token) (h : UpToSemicolon P ts rest) (hPQ : ∀ vs, P vs → Q (us ++ vs)) :
    UpToSemicolon Q (us ++ ts) rest := by
  rcases h with h | ⟨hrest, h⟩
  · exact .inl (hPQ ts h)
  · refine .inr ⟨hrest, fun l => ?_⟩
    rw [List.append_assoc]
    exact hPQ _ (h l)

theorem imp (h : UpToSemicolon P ts rest) (hPQ : ∀ vs, P vs → Q vs) : UpToSemicolon Q ts rest :=
  h.behind [] hPQ

/-- Before a token a phrase is complete. -/
theorem complete (h : UpToSemicolon P ts rest) (hrest : rest ≠ []) : P ts :=
  h.resolve_right fun hlacks => hrest hlacks.1

end UpToSemicolon

/-- A phrase of a statement, in which every `else` belongs to the nearest `if`: none
    follows an `if` that could still take one. -/
def EntryStatement (ts rest : List Token) (s : SourceStmt) : Prop :=
  UpToSemicolon (fun ts => ∃ d, Derives true false (.statement d) ts s ∧
    (d = true → Next (· ≠ .keyword .elseWord) rest)) ts rest

/-- A statement at the end of another one. -/
theorem EntryStatement.behind {ts rest : List Token} {s s' : SourceStmt} (us : List Token)
    (h : EntryStatement ts rest s)
    (hrule : ∀ d vs, Derives true false (.statement d) vs s →
      Derives true false (.statement d) (us ++ vs) s') : EntryStatement (us ++ ts) rest s' :=
  UpToSemicolon.behind us h fun vs ⟨d, hvs, hnext⟩ => ⟨d, hrule d vs hvs, hnext⟩

/-- A statement that can take no `else`. -/
theorem EntryStatement.of_closed {ts rest : List Token} {s : SourceStmt}
    (h : Derives true false (.statement false) ts s) : EntryStatement ts rest s :=
  .inl ⟨false, h, nofun⟩

/-- A phrase of a declaration, which was found. -/
def EntryDeclaration (ts rest : List Token) (found : Option SourceStmt) : Prop :=
  ∃ s, found = some s ∧ UpToSemicolon (Derives true false .declaration · s) ts rest

/-! ### Statements and declarations -/

section Statements

variable {expression : Parser SourceExpr} {statement : Parser SourceStmt}
  {declaration : Parser (Option SourceStmt)}

theorem readsBefore_expressionStatement
    (he : Reads expression (Derives true false .expression)) :
    ReadsBefore (expressionStatement true expression) fun ts rest s =>
      UpToSemicolon (Derives true false .exprStmt · s) ts rest := by
  unfold expressionStatement
  refine he.before.bind fun e => (ReadsBefore.of_look (p := atEnd) fun _ => rfl).bind fun ended => ?_
  cases ended with
  | true =>
    refine .pure ?_
    rintro rest _ ⟨rfl, hend⟩ ts hts
    simp only [List.append_nil] at hend ⊢
    exact .inr ⟨List.isEmpty_iff.mp hend.symm, fun l => .exprStmt hts⟩
  | false =>
    refine (reads_expect _ _).before.bind fun _ => .pure ?_
    rintro rest _ ⟨l, rfl⟩ _ ⟨rfl, -⟩ ts hts
    exact .inl (.exprStmt hts)

theorem readsBefore_forInitial (he : Reads expression (Derives true false .expression)) :
    ReadsBefore (forInitial true expression) fun ts rest initial =>
      UpToSemicolon (Derives true false .forInitial · initial) ts rest := by
  unfold forInitial
  refine (reads_accept .semicolon).before.bind fun semicolon => ?_
  cases semicolon with
  | some t =>
    refine .pure ?_
    rintro rest _ ⟨rfl, ht⟩
    rw [ht]
    exact .inl .noInitial
  | none =>
    refine (readsBefore_acceptKeyword .varWord).bind fun var => ?_
    cases var with
    | some t =>
      refine ((reads_varDeclaration t.line he).map some).before.mono ?_
      rintro ts rest _ ⟨s, rfl, hts⟩ _ ⟨rfl, ht⟩ _ rfl
      rw [← ht] at hts
      exact .inl (.varInitial hts)
    | none =>
      refine ((readsBefore_expressionStatement he).map some).mono ?_
      rintro ts rest _ ⟨s, rfl, hts⟩ _ ⟨rfl, -⟩ _ rfl
      exact hts.imp fun vs hvs => .exprInitial hvs

theorem readsBefore_forStatement (l : Int)
    (he : Reads expression (Derives true false .expression))
    (hs : ReadsBefore statement EntryStatement) :
    ReadsBefore (forStatement true expression statement) fun ts rest s =>
      EntryStatement (word .forWord l :: ts) rest s := by
  unfold forStatement
  refine (reads_expect _ _).before.bind fun _ => (readsBefore_forInitial he).bind fun initial => ?_
  refine (reads_unlessNext _ he).before.bind fun condition => ?_
  refine (reads_expect _ _).before.bind fun _ => ?_
  refine (reads_unlessNext _ he).before.bind fun step => ?_
  refine (reads_expect _ _).before.bind fun _ => hs.bind fun body => .pure ?_
  rintro rest us hbody _ ⟨l₃, rfl⟩ vs hstep _ ⟨l₂, rfl⟩ ws hcondition ts hinitial _ ⟨l₁, rfl⟩
  -- a semicolon and a parenthesis follow, so only the body can lack anything
  have hfirst := hinitial.complete (by simp)
  have hwhole : EntryStatement ((word .forWord l :: sym .leftParen l₁ ::
      (ts ++ (ws ++ sym .semicolon l₂ :: (vs ++ [sym .rightParen l₃])))) ++ us) rest
      (.forLoop initial condition step body) := by
    refine hbody.behind _ fun d us hus => ?_
    simp only [List.cons_append, List.append_assoc, List.nil_append]
    exact .forLoop hfirst hcondition hstep hus
  simpa only [List.cons_append, List.append_assoc, List.nil_append, List.append_nil] using hwhole

theorem readsBefore_whileStatement (l : Int)
    (he : Reads expression (Derives true false .expression))
    (hs : ReadsBefore statement EntryStatement) :
    ReadsBefore (whileStatement expression statement) fun ts rest s =>
      EntryStatement (word .whileWord l :: ts) rest s := by
  unfold whileStatement
  refine (reads_expect _ _).before.bind fun _ => he.before.bind fun condition => ?_
  refine (reads_expect _ _).before.bind fun _ => hs.bind fun body => .pure ?_
  rintro rest us hbody _ ⟨l₂, rfl⟩ ts hcondition _ ⟨l₁, rfl⟩
  have hwhole : EntryStatement ((word .whileWord l :: sym .leftParen l₁ ::
      (ts ++ [sym .rightParen l₂])) ++ us) rest (.loop condition body) := by
    refine hbody.behind _ fun d us hus => ?_
    simp only [List.cons_append, List.append_assoc, List.nil_append]
    exact .loop hcondition hus
  simpa only [List.cons_append, List.append_assoc, List.nil_append, List.append_nil] using hwhole

theorem readsBefore_ifStatement (l : Int)
    (he : Reads expression (Derives true false .expression))
    (hs : ReadsBefore statement EntryStatement) :
    ReadsBefore (ifStatement expression statement) fun ts rest s =>
      EntryStatement (word .ifWord l :: ts) rest s := by
  unfold ifStatement
  refine (reads_expect _ _).before.bind fun _ => he.before.bind fun condition => ?_
  refine (reads_expect _ _).before.bind fun _ => hs.bind fun onTrue => ?_
  refine (readsBefore_acceptKeyword .elseWord).bind fun found => ?_
  cases found with
  | none =>
    refine .pure ?_
    rintro rest _ ⟨rfl, hnext⟩ us htrue _ ⟨l₂, rfl⟩ ts hcondition _ ⟨l₁, rfl⟩
    have hwhole := UpToSemicolon.behind (Q := fun ts => ∃ d, Derives true false (.statement d) ts
        (.branch condition onTrue none) ∧ (d = true → Next (· ≠ .keyword .elseWord) rest))
      (word .ifWord l :: sym .leftParen l₁ :: (ts ++ [sym .rightParen l₂])) htrue
    simp only [List.cons_append, List.append_assoc, List.nil_append, List.append_nil] at hwhole ⊢
    refine hwhole ?_
    rintro us ⟨d, hus, -⟩
    exact ⟨true, .ifOnly hcondition hus, fun _ => hnext⟩
  | some t =>
    refine (hs.map some).bind fun onFalse => .pure ?_
    rintro rest vs ⟨b, rfl, hfalse⟩ _ ⟨rfl, ht⟩ us htrue _ ⟨l₂, rfl⟩ ts hcondition _ ⟨l₁, rfl⟩
    -- an `else` follows, so the first branch is complete and leaves no `if` open
    obtain ⟨d, hus, hnext⟩ := htrue.complete (by simp)
    have hclosed : d = false := by
      cases d with
      | false => rfl
      | true => exact absurd (congrArg Token.lexeme ht) (next_cons.mp (hnext rfl))
    have hwhole : EntryStatement ((word .ifWord l :: sym .leftParen l₁ ::
        (ts ++ sym .rightParen l₂ :: (us ++ [word .elseWord t.line]))) ++ vs) rest
        (.branch condition onTrue (some b)) := by
      refine hfalse.behind _ fun d' vs hvs => ?_
      simp only [List.cons_append, List.append_assoc, List.nil_append]
      exact .ifElse (fun _ => hclosed) hcondition hus hvs
    rw [← ht] at hwhole
    simpa only [List.cons_append, List.append_assoc, List.nil_append, List.append_nil] using hwhole

theorem keepsBefore_nextDeclaration {ends : Parser Bool}
    (hends : ReadsBefore ends fun ts rest ended => ts = [] ∧ (rest = [] → ended = true))
    (hd : ReadsBefore declaration EntryDeclaration) :
    KeepsBefore (nextDeclaration ends declaration) fun us rest ss =>
      UpToSemicolon (Derives true false .declarations · ss.reverse) us rest := by
  intro ss
  unfold nextDeclaration
  refine hends.bind fun ended => ?_
  cases ended with
  | true =>
    refine .pure ?_
    rintro rest _ ⟨rfl, -⟩
    rfl
  | false =>
    refine hd.bind fun found => ?_
    cases found with
    | none =>
      refine .pure ?_
      rintro rest us ⟨s, hs, -⟩
      cases hs
    | some s =>
      refine .pure ?_
      rintro rest ts ⟨_, ⟨⟩, hts⟩ _ ⟨rfl, hmore⟩ us hus
      simp only [List.append_nil, List.nil_append] at hmore hts hus ⊢
      -- the loop goes on only before a token, where nothing lacks its semicolon
      have hbefore := hus.complete fun hnil => nomatch hmore hnil
      rw [List.reverse_cons]
      exact hts.behind us fun vs hvs => .moreDeclarations hbefore hvs

theorem readsBefore_declarations {ends : Parser Bool}
    (hends : ReadsBefore ends fun ts rest ended => ts = [] ∧ (rest = [] → ended = true))
    (hd : ReadsBefore declaration EntryDeclaration) :
    ReadsBefore (declarations ends declaration) fun ts rest ss =>
      UpToSemicolon (Derives true false .declarations · ss) ts rest := by
  unfold declarations
  refine (readsBefore_steps (keepsBefore_nextDeclaration hends hd) []).bind fun ss => .pure ?_
  intro rest ts hts
  rw [List.append_nil]
  exact hts [] (.inl .noDeclarations)

theorem readsBefore_atEnd :
    ReadsBefore atEnd fun ts rest ended => ts = [] ∧ (rest = [] → ended = true) := by
  refine (ReadsBefore.of_look (p := atEnd) fun _ => rfl).mono ?_
  rintro ts rest _ ⟨rfl, rfl⟩
  exact ⟨rfl, fun h => List.isEmpty_iff.mpr h⟩

theorem readsBefore_blockEnds :
    ReadsBefore blockEnds fun ts rest ended => ts = [] ∧ (rest = [] → ended = true) := by
  unfold blockEnds
  refine readsBefore_atEnd.bind fun ended => ?_
  cases ended with
  | true =>
    refine .pure ?_
    rintro rest _ ⟨rfl, -⟩
    exact ⟨rfl, fun _ => rfl⟩
  | false =>
    refine (looks_nextIs _).reads.before.mono ?_
    rintro _ rest closed rfl _ ⟨rfl, hmore⟩
    exact ⟨rfl, fun h => nomatch hmore h⟩

/-- The brace that closes a block follows its last statement, which is then complete. -/
theorem reads_entryBlock (hd : ReadsBefore declaration EntryDeclaration) :
    Reads (block declaration) (BlockEnd true false) := by
  refine ReadsBefore.reads ?_
  unfold block
  refine (readsBefore_declarations readsBefore_blockEnds hd).bind fun ss => ?_
  refine (reads_expect _ _).before.bind fun _ => .pure ?_
  rintro rest _ ⟨l, rfl⟩ ts hts
  exact ⟨ts, l, rfl, hts.complete (by simp)⟩

theorem readsBefore_statementWith (he : Reads expression (Derives true false .expression))
    (hs : ReadsBefore statement EntryStatement)
    (hd : ReadsBefore declaration EntryDeclaration) :
    ReadsBefore (statementWith true expression statement declaration) EntryStatement := by
  unfold statementWith
  refine (reads_acceptWith statementKind?).before.bind fun found => ?_
  match found with
  | none =>
    refine (readsBefore_expressionStatement he).mono ?_
    rintro ts rest s hts _ rfl
    exact hts.imp fun vs hvs => ⟨false, .evaluate hvs, nofun⟩
  | some (kind, ⟨x, l⟩) =>
    have hread {p : Parser SourceStmt} {kind : StatementKind}
        (hp : ReadsBefore p fun ts rest s =>
          EntryStatement (⟨StatementKind.lexeme kind, l⟩ :: ts) rest s) :
        ReadsBefore p fun ts rest s => ∀ us, (us = [⟨x, l⟩] ∧ statementKind? x = some kind) →
          EntryStatement (us ++ ts) rest s := by
      refine hp.mono ?_
      rintro ts rest s hts _ ⟨rfl, hkind⟩
      rw [statementKind?_eq hkind]
      exact hts
    have hclosed {p : Parser SourceStmt} {first : Token}
        (hp : Reads p fun ts s => Derives true false (.statement false) (first :: ts) s) :
        ReadsBefore p fun ts rest s => EntryStatement (first :: ts) rest s :=
      hp.before.mono fun ts rest s hts => .of_closed hts
    cases kind with
    | forLoop => exact hread (readsBefore_forStatement l he hs)
    | ifElse => exact hread (readsBefore_ifStatement l he hs)
    | print => exact hread (hclosed (reads_printStatement l he))
    | ret => exact hread (hclosed (reads_returnStatement l he))
    | whileLoop => exact hread (readsBefore_whileStatement l he hs)
    | block =>
      refine hread (hclosed (((reads_entryBlock hd).map Stmt.block).mono ?_))
      rintro _ _ ⟨ss, rfl, us, l₁, rfl, hus⟩
      exact .nested (.block hus)

theorem readsBefore_declarationWith (he : Reads expression (Derives true false .expression))
    (hs : ReadsBefore statement EntryStatement)
    (hd : ReadsBefore declaration EntryDeclaration) :
    ReadsBefore (declarationWith expression statement declaration) fun ts rest s =>
      UpToSemicolon (Derives true false .declaration · s) ts rest := by
  unfold declarationWith
  have hblock := reads_entryBlock hd
  refine (readsBefore_acceptKeyword .classWord).bind fun cls => ?_
  cases cls with
  | some t =>
    refine (reads_classDeclaration t.line hblock).before.mono ?_
    rintro ts rest s hts _ ⟨rfl, ht⟩
    rw [← ht] at hts
    exact .inl hts
  | none =>
    refine reads_acceptNamedFun.before.bind fun named => ?_
    cases named with
    | true =>
      refine ((reads_functionDeclaration _ hblock).map Stmt.function).before.mono ?_
      rintro ts rest _ ⟨f, rfl, hts⟩ _ ⟨l, rfl⟩ _ ⟨rfl, -⟩
      exact .inl (.declareFun hts)
    | false =>
      refine (readsBefore_acceptKeyword .varWord).bind fun var => ?_
      cases var with
      | some t =>
        refine (reads_varDeclaration t.line he).before.mono ?_
        rintro ts rest s hts _ ⟨rfl, ht⟩ _ rfl _ ⟨rfl, -⟩
        rw [← ht] at hts
        exact .inl (.declareVar hts)
      | none =>
        refine hs.mono ?_
        rintro ts rest s hts _ ⟨rfl, -⟩ _ rfl _ ⟨rfl, -⟩
        exact hts.imp fun vs ⟨d, hvs, _⟩ => .statement hvs

end Statements

/-! ### Programs -/

/-- Whatever the bound on nesting, the three nested parsers of an entry read phrases
    that lack at most a semicolon at the end. -/
theorem readsBefore_nested (n : Nat) :
    Reads (expression true n) (Derives true false .expression) ∧
    ReadsBefore (statement true n) EntryStatement ∧
    ReadsBefore (declaration true n) EntryDeclaration := by
  induction n with
  | zero =>
    have hmiss {α : Type} {post : List Token → List Token → α → Prop} :
        ReadsBefore (miss .expression) post :=
      (reads_miss _ fun _ _ => False).before.mono fun _ _ _ hfalse => hfalse.elim
    unfold expression statement declaration
    exact ⟨reads_miss _ _, hmiss, readsBefore_recovering hmiss⟩
  | succ n ih =>
    obtain ⟨he, hs, hd⟩ := ih
    refine ⟨?_, ?_, ?_⟩
    · unfold expression
      exact reads_assignment he (reads_entryBlock hd)
    · unfold statement
      exact readsBefore_statementWith he hs hd
    · unfold declaration
      exact readsBefore_recovering (readsBefore_declarationWith he hs hd)

/-- An entry that is parsed without errors derives as a script, or does so with one more
    semicolon. -/
theorem derives_of_entry {tokens : List Token} (h : (parse true tokens).errors = []) :
    UpToSemicolon (Derives true false .declarations · (parse true tokens).statements) tokens [] := by
  obtain ⟨-, -, hd⟩ := readsBefore_nested (nestingBound tokens.length)
  have hreads := readsBefore_declarations readsBefore_atEnd hd
  obtain ⟨ts, hts, hderives⟩ := hreads.phrase (run_of_parse h) rfl
  obtain rfl : tokens = ts := by simpa using hts
  exact hderives

/-! ### The missing semicolon -/

/-- How the phrases that can end an expression end: not with a semicolon. -/
def Category.Ends : Category → List Token → Prop
  | .primary, ts | .call, ts | .unary, ts | .level _, ts | .operand _, ts | .expression, ts
  | .signature, ts | .block, ts => ∃ us t, ts = us ++ [t] ∧ t.lexeme ≠ .symbol .semicolon
  | _, _ => True

theorem Derives.ends {nearest bare : Bool} {c : Category} {ts : List Token} {t : c.Tree}
    (h : Derives nearest bare c ts t) : c.Ends ts := by
  -- a phrase with tokens in front of it ends as before
  have hfront {ts : List Token} (us : List Token)
      (h : ∃ vs t, ts = vs ++ [t] ∧ t.lexeme ≠ .symbol .semicolon) :
      ∃ vs t, us ++ ts = vs ++ [t] ∧ t.lexeme ≠ .symbol .semicolon := by
    obtain ⟨vs, t, rfl, ht⟩ := h
    exact ⟨us ++ vs, t, (List.append_assoc us vs [t]).symm, ht⟩
  have hlast {us : List Token} {t : Token} (ht : t.lexeme ≠ .symbol .semicolon) :
      ∃ vs t', us ++ [t] = vs ++ [t'] ∧ t'.lexeme ≠ .symbol .semicolon := ⟨us, t, rfl, ht⟩
  induction h with
  | falseWord | trueWord | nilWord | this | name => exact ⟨[], _, rfl, nofun⟩
  | literal hv =>
    refine ⟨[], _, rfl, ?_⟩
    rintro rfl
    cases hv
  | super => exact ⟨[_, _], _, rfl, nofun⟩
  | group | block => exact hfront [_] (hlast nofun)
  | lambda _ ih | unary _ ih => exact hfront [_] ih
  | call => exact hfront _ (hfront [_] (hlast nofun))
  | property => exact hfront _ ⟨[_], _, rfl, nofun⟩
  | callee _ ih | unaryOperand _ ih | operandTighter _ _ ih | operandUnary _ _ ih | operand _ ih
  | operation _ ih => exact ih
  | operator _ _ _ _ ih => exact hfront _ (hfront [_] ih)
  | assign _ ih => exact hfront [_, _] ih
  | setProperty _ _ _ ih => exact hfront _ (hfront [_, _, _] ih)
  | signature _ _ _ ih => exact hfront [_] (hfront _ (hfront [_] ih))
  | _ => exact True.intro

/-- The tokens are a script and behind it an expression without a semicolon, and the
    statements are those of the script and that expression. -/
def EndsInBareExpression (tokens : List Token) (statements : List SourceStmt) : Prop :=
  ∃ us vs ss e, tokens = us ++ vs ∧ Derives true false .declarations us ss ∧
    Derives true false .expression vs e ∧ statements = ss ++ [.expression e]

theorem EndsInBareExpression.not_semicolon {tokens : List Token} {statements : List SourceStmt}
    (h : EndsInBareExpression tokens statements) : endsInSemicolon tokens = false := by
  obtain ⟨us, vs, ss, e, rfl, -, he, -⟩ := h
  obtain ⟨ws, t, rfl, ht⟩ := he.ends
  simpa [endsInSemicolon, ← List.append_assoc, Token.isSymbol] using ht

/-- What lacks its semicolon, if the last statement is an expression, is that
    expression. -/
theorem Derives.bare_of_semicolon {tokens : List Token} {statements : List SourceStmt} {l : Int}
    (h : Derives true false .declarations (tokens ++ [sym .semicolon l]) statements)
    (hlast : endsInExpression statements = true) : EndsInBareExpression tokens statements := by
  generalize htokens : tokens ++ [sym .semicolon l] = ts at h
  cases h with
  | noDeclarations => cases hlast
  | @moreDeclarations us ws ss s hus hws =>
    have hs : s.isExpression = true := by simpa [endsInExpression] using hlast
    obtain ⟨vs, l', e, rfl, he, rfl⟩ := hws.of_isExpression hs
    rw [← List.append_assoc] at htokens
    exact ⟨us, vs, ss, e, (List.append_inj' htokens rfl).1, hus, he, rfl⟩

/-- An interactive entry is a script up to the semicolon at its end.  A script is parsed
    in the same way when it is typed, and none of its values is shown.  An entry that is
    accepted but is no script becomes one with a semicolon behind it, of the same
    statements.  And a value is shown exactly if the last statement of the entry is an
    expression that lacks its own semicolon. -/
theorem entry_is_script_up_to_semicolon (tokens : List Token) :
    ((parse false tokens).errors = [] →
      (parse true tokens).errors = [] ∧
      (parse true tokens).statements = (parse false tokens).statements ∧
      (parse true tokens).bare = false) ∧
    ((parse true tokens).errors = [] → (parse false tokens).errors ≠ [] → ∀ line,
      (parse false (tokens ++ [sym .semicolon line])).errors = [] ∧
      (parse false (tokens ++ [sym .semicolon line])).statements =
        (parse true tokens).statements) ∧
    ((parse true tokens).errors = [] →
      ((parse true tokens).bare = true ↔
        EndsInBareExpression tokens (parse true tokens).statements)) := by
  refine ⟨fun herrors => ?_, fun herrors hscript line => ?_, fun herrors => ⟨fun hbare => ?_, ?_⟩⟩
  · obtain ⟨program, hprogram⟩ : ∃ program, Derives true false .declarations tokens program :=
      (derives_of_parse herrors).isNearest
    rw [(parse_script hprogram false).2.1]
    exact parse_script hprogram true
  · rcases derives_of_entry herrors with h | ⟨-, h⟩
    · exact absurd (parse_of_derives h).1 hscript
    · exact parse_of_derives (h line)
  · rw [parse_bare, herrors] at hbare
    simp only [List.isEmpty_nil, Bool.and_true, Bool.true_and, Bool.and_eq_true] at hbare
    obtain ⟨hlast, hsemicolon⟩ := hbare
    rcases derives_of_entry herrors with h | ⟨-, h⟩
    · -- a script that ends in an expression has all its semicolons
      rw [h.script_ends hlast] at hsemicolon
      cases hsemicolon
    · exact (h 0).bare_of_semicolon hlast
  · intro hends
    have hlast : endsInExpression (parse true tokens).statements = true := by
      obtain ⟨us, vs, ss, e, -, -, -, hss⟩ := hends
      simp [hss, endsInExpression, Stmt.isExpression]
    rw [parse_bare, herrors, hlast, hends.not_semicolon]
    rfl

/-- A name by itself is no script; with a semicolon it is. -/
theorem bare_name_is_entry :
    (parse false ([ident ⟨"a", 1⟩] ++ [sym .semicolon 1])).statements =
      (parse true [ident ⟨"a", 1⟩]).statements ∧
    EndsInBareExpression [ident ⟨"a", 1⟩] (parse true [ident ⟨"a", 1⟩]).statements := by
  have hentry := (entry_is_script_up_to_semicolon [ident ⟨"a", 1⟩]).2
  exact ⟨(hentry.1 (by decide +kernel) (by decide +kernel) 1).2,
    (hentry.2 (by decide +kernel)).mp (by decide +kernel)⟩

end Treewalk
