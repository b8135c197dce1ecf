import Treewalk.Proofs.Grammar.Flat
import Treewalk.Proofs.Grammar.Script
import Treewalk.Token.Scan

/-! # A broken statement among others

    Tokens that neither end a statement nor start one, and the semicolon behind them, are
    read as one expression statement or given up as one, whatever they are: recovery skips
    to the semicolon.  So the statements around them are found as they are without them
    (`broken_statement_stays_alone`). -/

namespace Treewalk

open Treewalk.Parser

/-- The token can stand within an expression statement: it is no semicolon, no brace, and
    no keyword that a statement starts with. -/
structure Token.IsInner (t : Token) : Prop where
  semicolon : t.lexeme ≠ .symbol .semicolon
  leftBrace : t.lexeme ≠ .symbol .leftBrace
  rightBrace : t.lexeme ≠ .symbol .rightBrace
  keyword : t.startsStatement = false

instance : DecidablePred Token.IsInner := fun t =>
  decidable_of_iff (t.lexeme ≠ .symbol .semicolon ∧ t.lexeme ≠ .symbol .leftBrace ∧
      t.lexeme ≠ .symbol .rightBrace ∧ t.startsStatement = false)
    ⟨fun ⟨h₁, h₂, h₃, h₄⟩ => ⟨h₁, h₂, h₃, h₄⟩, fun ⟨h₁, h₂, h₃, h₄⟩ => ⟨h₁, h₂, h₃, h₄⟩⟩

/-! ### Scripts before other tokens -/

/-- Declarations before other tokens are read, and the loop goes on behind them. -/
def Category.RunsOn : (c : Category) → List Token → c.Tree → Prop
  | .declarations, ts, ss => ∀ n rest found errors, 3 * ts.length + 3 ≤ n →
      Next (· ≠ .keyword .elseWord) rest →
      steps (nextDeclaration atEnd (Parser.declaration false n)) found ⟨ts ++ rest, errors⟩ =
        steps (nextDeclaration atEnd (Parser.declaration false n)) (ss.reverse ++ found)
          ⟨rest, errors⟩
  | _, _, _ => True

theorem Derives.runsOn {c : Category} {ts : List Token} {t : c.Tree}
    (h : Derives true false c ts t) : c.RunsOn ts t := by
  induction h with
  | noDeclarations => exact fun n rest found errors _ _ => rfl
  | @moreDeclarations ts us ss s _ hs ih _ =>
    intro n rest found errors hn hnext
    have hstart : StartsDeclaration us := hs.begins
    simp only [List.length_append] at hn
    have hparses : Parses (declaration false n) us rest (some s) :=
      isParsed_of_derives hs n rest (by omega) hnext
    have hround : nextDeclaration atEnd (declaration false n) (ss.reverse ++ found)
        ⟨us ++ rest, errors⟩ = .ok (some (s :: (ss.reverse ++ found))) ⟨rest, errors⟩ :=
      parses_nextDeclaration seesDeclaration_atEnd hstart hparses errors
    have helse : Next (· ≠ .keyword .elseWord) (us ++ rest) := by
      obtain ⟨t, vs, rfl, -, ht⟩ := hstart
      exact next_cons.mpr ht
    rw [List.append_assoc, ih n (us ++ rest) found errors (by omega) helse,
      (orderly_nextDeclaration false n seesEnd_atEnd).steps_eq, bind_of_ok hround,
      List.reverse_append]
    rfl
  | _ => trivial

/-! ### The broken statement -/

/-- Recovery skips tokens within a statement up to the semicolon behind them. -/
theorem resync_inner {ts : List Token} (h : ∀ t ∈ ts, t.IsInner) (l : Int)
    (after : List Token) : resync (ts ++ sym .semicolon l :: after) = after := by
  induction ts with
  | nil =>
    cases after with
    | nil => rfl
    | cons t after => simp [resync, Token.isSymbol]
  | cons t ts ih =>
    obtain ⟨ht, hts⟩ := List.forall_mem_cons.mp h
    have hsemicolon : t.isSymbol .semicolon = false := by simpa [Token.isSymbol] using ht.semicolon
    -- neither the next token within the statement nor the semicolon starts one
    obtain ⟨next, rest, hrest, hnext⟩ : ∃ next rest,
        ts ++ sym .semicolon l :: after = next :: rest ∧ next.startsStatement = false := by
      cases ts with
      | nil => exact ⟨_, after, rfl, rfl⟩
      | cons u us => exact ⟨u, _, rfl, (hts u List.mem_cons_self).keyword⟩
    have hih := ih hts
    rw [hrest] at hih
    rw [List.cons_append, hrest, resync, hsemicolon, hnext]
    exact hih

/-- Where no statement starts, a declaration is an expression statement. -/
theorem declaration_inner (n : Nat) {t : Token} (h : t.startsStatement = false)
    (hbrace : t.lexeme ≠ .symbol .leftBrace) (rest : List Token) (errors : Array ParseError) :
    declaration false (n + 2) ⟨t :: rest, errors⟩ =
      recovering (expressionStatement false (expression false n)) ⟨t :: rest, errors⟩ := by
  have hkeyword (k : Keyword) (hk : k.startsStatement = true) : t.lexeme ≠ .keyword k := by
    intro ht
    simp [Token.startsStatement, ht, hk] at h
  have hskip (k : Keyword) (hk : k.startsStatement = true) :
      acceptKeyword k ⟨t :: rest, errors⟩ = .ok none ⟨t :: rest, errors⟩ := by
    simp [acceptKeyword, Token.isKeyword, hkeyword k hk]
  have hfun : acceptNamedFun ⟨t :: rest, errors⟩ = .ok false ⟨t :: rest, errors⟩ := by
    cases rest <;> simp [acceptNamedFun, Token.isKeyword, hkeyword .funWord rfl]
  have hkind : acceptWith statementKind? ⟨t :: rest, errors⟩ = .ok none ⟨t :: rest, errors⟩ := by
    have hnone : statementKind? t.lexeme = none := by
      unfold statementKind?
      split
      case h_6 => contradiction
      case h_7 => rfl
      all_goals exact absurd ‹_› (hkeyword _ rfl)
    simp [acceptWith, hnone]
  have hstatement : statement false (n + 1) ⟨t :: rest, errors⟩ =
      expressionStatement false (expression false n) ⟨t :: rest, errors⟩ := by
    unfold statement statementWith
    rw [bind_of_ok hkind]
  have hdeclaration : declarationWith (expression false (n + 1)) (statement false (n + 1))
      (declaration false (n + 1)) ⟨t :: rest, errors⟩ =
        expressionStatement false (expression false n) ⟨t :: rest, errors⟩ := by
    exact (bind_of_ok (hskip .classWord rfl) _).trans <| (bind_of_ok hfun _).trans <|
      (bind_of_ok (hskip .varWord rfl) _).trans hstatement
  unfold declaration recovering
  rw [hdeclaration]

/-- Tokens in front of the semicolon that are read without a semicolon are read from the
    phrase before it. -/
theorem split_at_semicolon {us rest broken after : List Token} {l : Int}
    (h : us ++ rest = broken ++ sym .semicolon l :: after) (hus : NoSemicolon us) :
    ∃ back, broken = us ++ back ∧ rest = back ++ sym .semicolon l :: after := by
  rcases List.append_eq_append_iff.mp h with ⟨back, rfl, rfl⟩ | ⟨back, rfl, hback⟩
  · exact ⟨back, rfl, rfl⟩
  · cases back with
    | nil => exact ⟨[], by simp, by simpa using hback.symm⟩
    | cons t back =>
      obtain ⟨rfl, -⟩ := List.cons.inj hback
      exact absurd rfl (hus (sym .semicolon l) (by simp))

/-- The errors were noted in passing, at tokens of the phrase. -/
def NotedIn (phrase : List Token) (errors : List ParseError) : Prop :=
  ∀ e ∈ errors, e.unwinds = false ∧ ∃ t ∈ phrase, e.site = some t

/-- Reading flatly from a phrase within a statement does not reach the semicolon behind it. -/
theorem ReadsFlat.inner {broken after : List Token} {l : Int} {s : ParseState}
    {last : List ParseError} (h : ∀ t ∈ broken, t.IsInner)
    (hreads : ReadsFlat (fun _ => False) ⟨broken ++ sym .semicolon l :: after, #[]⟩ s last) :
    ∃ us back noted, broken = us ++ back ∧ s.rest = back ++ sym .semicolon l :: after ∧
      s.errors.toList = noted ++ last ∧ NotedIn (broken ++ [sym .semicolon l]) noted := by
  obtain ⟨us, hus, hopens | ⟨hsemicolon, noted, hnoted, herrors⟩⟩ := hreads
  · -- the brace of a body would stand before the semicolon
    obtain ⟨vs, l', ws, rfl, hvs⟩ := hopens
    obtain ⟨back, rfl, hback⟩ := split_at_semicolon (by simpa using hus.symm) hvs
    cases back with
    | nil => cases (List.cons.inj hback).1
    | cons t back =>
      obtain ⟨rfl, -⟩ := List.cons.inj hback
      exact absurd rfl (h (sym .leftBrace l') (by simp)).leftBrace
  · obtain ⟨back, rfl, hrest⟩ := split_at_semicolon hus.symm hsemicolon
    refine ⟨us, back, noted, rfl, hrest, by simpa using herrors, fun e he => ?_⟩
    obtain ⟨hpassing, hsite⟩ := hnoted e he
    refine ⟨hpassing, ?_⟩
    rcases hsite with hsite | ⟨t, ht, hsite⟩
    · rw [hrest] at hsite
      cases back with
      | nil => exact ⟨_, by simp, hsite⟩
      | cons t back => exact ⟨t, by simp, hsite⟩
    · exact ⟨t, by simpa using .inl (ht.resolve_left id), hsite⟩

/-- What is found for a phrase of tokens that may be broken, the errors that are noted in
    passing, and the one for which it is given up. -/
inductive FoundFor (phrase : List Token) : Option SourceStmt → List ParseError → Prop
  | expression {e : SourceExpr} {noted : List ParseError} : NotedIn phrase noted →
      FoundFor phrase (some (.expression e)) noted
  | nothing {what : Expectation} {t : Token} {noted : List ParseError} :
      NotedIn phrase noted → t ∈ phrase →
      FoundFor phrase none (noted ++ [⟨.missing what, some t⟩])

/-- A parser that fails within a statement is followed by skipping the rest of it. -/
theorem foundFor_failed {p : Parser SourceStmt} {broken back after : List Token}
    {l : Int} {s s' : ParseState} {what : Expectation} {noted : List ParseError}
    (h : ∀ t ∈ back, t.IsInner) (hback : ∀ t ∈ back, t ∈ broken)
    (hp : p s = .error .failed s') (hrest : s'.rest = back ++ sym .semicolon l :: after)
    (hnoted : NotedIn (broken ++ [sym .semicolon l]) noted)
    (herrors : s'.errors.toList = noted ++ [⟨.missing what, s'.rest.head?⟩]) :
    recovering p s = .ok none ⟨after, s'.errors⟩ ∧
      FoundFor (broken ++ [sym .semicolon l]) none s'.errors.toList := by
  refine ⟨?_, ?_⟩
  · unfold recovering
    rw [hp]
    simp only [hrest, resync_inner h]
  · rw [herrors, hrest]
    cases back with
    | nil => exact .nothing hnoted (by simp)
    | cons t back => exact .nothing hnoted (by simpa using .inl (hback t List.mem_cons_self))

/-- The run of a statement that may be broken ends behind its semicolon.  It is an expression
    if there are no errors. -/
theorem declaration_stays (n : Nat) {broken : List Token} (h : ∀ t ∈ broken, t.IsInner) (l : Int)
    (after : List Token) : ∃ found errors,
      declaration false (n + 2) ⟨broken ++ sym .semicolon l :: after, #[]⟩ =
        .ok found ⟨after, errors⟩ ∧
      FoundFor (broken ++ [sym .semicolon l]) found errors.toList ∧
      (errors = #[] → ∃ e, Derives false false .expression broken e) := by
  have hrun : declaration false (n + 2) ⟨broken ++ sym .semicolon l :: after, #[]⟩ =
      recovering (expressionStatement false (expression false n))
        ⟨broken ++ sym .semicolon l :: after, #[]⟩ := by
    cases broken with
    | nil => exact declaration_inner n rfl (fun hbrace => by cases hbrace) after _
    | cons t ts =>
      have ht := h t List.mem_cons_self
      exact declaration_inner n ht.keyword ht.leftBrace _ _
  rw [hrun]
  have hflat := flat_expression (T := fun _ => False) n ⟨broken ++ sym .semicolon l :: after, #[]⟩
  cases hexpr : expression false n ⟨broken ++ sym .semicolon l :: after, #[]⟩ with
  | error e s =>
    rw [hexpr] at hflat
    obtain ⟨what, hreads⟩ := hflat
    obtain ⟨us, back, noted, rfl, hrest, herrors, hnoted⟩ := hreads.inner h
    obtain ⟨hrecover, hfound⟩ := foundFor_failed
      (fun t ht => h t (List.mem_append_right us ht))
      (fun t ht => List.mem_append_right us ht) (bind_of_error hexpr _) hrest hnoted herrors
    refine ⟨none, s.errors, hrecover, hfound, fun hnil => ?_⟩
    rw [hnil] at herrors
    simp at herrors
  | ok e s =>
    rw [hexpr] at hflat
    obtain ⟨us, back, noted, rfl, hrest, herrors, hnoted⟩ := ReadsFlat.inner h hflat
    rw [List.append_nil] at herrors
    have hrun : expressionStatement false (expression false n)
        ⟨us ++ back ++ sym .semicolon l :: after, #[]⟩ =
          (expect .semicolon .expressionEnd >>= fun _ => pure (.expression e)) s :=
      bind_of_ok hexpr _
    cases back with
    | nil =>
      have hexpect : expect .semicolon .expressionEnd s =
          .ok (sym .semicolon l) { s with rest := after } := by
        refine bind_of_ok (a := some (sym .semicolon l)) ?_ _
        simp [accept, hrest, Token.isSymbol]
      rw [bind_of_ok hexpect] at hrun
      refine ⟨some (.expression e), s.errors, ?_, ?_, fun hnil => ⟨e, ?_⟩⟩
      · unfold recovering
        rw [hrun]
        rfl
      · rw [herrors]
        exact .expression hnoted
      · -- nothing was recorded, so what was read derives
        obtain ⟨ts, hts, hderives⟩ := (reads_nested false n).1.phrase hexpr (by rw [hnil])
        rw [hrest] at hts
        rw [List.append_cancel_right hts]
        exact hderives
    | cons t back =>
      have ht := (h t (by simp)).semicolon
      have hexpect : expect .semicolon .expressionEnd s = miss .expressionEnd s := by
        refine bind_of_ok (a := none) ?_ _
        simp [accept, hrest, Token.isSymbol, ht]
      rw [bind_of_error hexpect] at hrun
      have hlast : (s.errors.push ⟨.missing .expressionEnd, s.rest.head?⟩).toList =
          noted ++ [⟨.missing .expressionEnd, s.rest.head?⟩] := by
        rw [Array.toList_push, herrors]
      obtain ⟨hrecover, hfound⟩ := foundFor_failed
        (fun t ht => h t (List.mem_append_right us ht))
        (fun t ht => List.mem_append_right us ht) hrun hrest hnoted hlast
      refine ⟨none, _, hrecover, hfound, fun hnil => ?_⟩
      simp at hnil

/-! ### The neighbours -/

/-- The loop over a program in which a declaration, found or given up, stands between two
    scripts. -/
theorem steps_around {n : Nat} {before middle after : List Token} {ps qs : List SourceStmt}
    {found : Option SourceStmt} {errors : Array ParseError}
    (hp : Derives true false .declarations before ps)
    (hq : Derives true false .declarations after qs)
    (hrun : declaration false n ⟨middle, #[]⟩ = .ok found ⟨after, errors⟩) (hmiddle : middle ≠ [])
    (hnext : Next (· ≠ .keyword .elseWord) middle)
    (hbefore : 3 * before.length + 3 ≤ n) (hafter : 3 * after.length + 3 ≤ n) :
    steps (nextDeclaration atEnd (declaration false n)) [] ⟨before ++ middle, #[]⟩ =
      .ok (ps ++ found.toList ++ qs).reverse ⟨[], errors⟩ := by
  have hloop := orderly_nextDeclaration false n seesEnd_atEnd
  have hround : nextDeclaration atEnd (declaration false n) ps.reverse ⟨middle, #[]⟩ =
      .ok (some (found.toList ++ ps.reverse)) ⟨after, errors⟩ := by
    have hend : atEnd ⟨middle, #[]⟩ = .ok false ⟨middle, #[]⟩ := by simp [atEnd, hmiddle]
    unfold nextDeclaration
    rw [bind_of_ok hend, if_neg Bool.false_ne_true, bind_of_ok hrun]
    cases found <;> rfl
  have hlast (ss : List SourceStmt) :
      steps (nextDeclaration atEnd (declaration false n)) ss ⟨[], errors⟩ =
        .ok ss ⟨[], errors⟩ := by
    rw [hloop.steps_eq, bind_of_ok (hloop.stops ss _ rfl)]
    rfl
  have hbehind := hq.runsOn n [] (found.toList ++ ps.reverse) errors hafter
    fun t us h => absurd h.symm (List.cons_ne_nil t us)
  rw [List.append_nil] at hbehind
  rw [hp.runsOn n middle [] #[] hbefore hnext, List.append_nil, hloop.steps_eq,
    bind_of_ok hround]
  refine hbehind.trans ((hlast _).trans ?_)
  cases found <;> simp

/-- What is found for a phrase of tokens that may be broken, and the errors recorded. -/
structure KeepsToItself (phrase : List Token) (found : Option SourceStmt)
    (errors : List ParseError) : Prop where
  /-- All that can be found is an expression statement. -/
  expression : ∀ s ∈ found, s.isExpression = true
  /-- It is found unless the parser gave it up. -/
  present : found.isSome ↔ ∀ e ∈ errors, e.unwinds = false
  /-- The errors are at tokens of the phrase. -/
  sites : ∀ e ∈ errors, ∃ t ∈ phrase, e.site = some t
  /-- The parser gave it up at most once. -/
  once : (errors.filter (·.unwinds)).length ≤ 1
  /-- There are errors if and only if the phrase is no script by itself. -/
  accepted : errors ≠ [] ↔ (parse false phrase).errors ≠ []

theorem NotedIn.filter_unwinds {phrase : List Token} {noted : List ParseError}
    (h : NotedIn phrase noted) : noted.filter (·.unwinds) = [] :=
  List.filter_eq_nil_iff.mpr fun e he => by simp [(h e he).1]

theorem FoundFor.keepsToItself {phrase : List Token} {found : Option SourceStmt}
    {errors : List ParseError} (h : FoundFor phrase found errors)
    (haccepted : errors = [] ↔ (parse false phrase).errors = []) :
    KeepsToItself phrase found errors := by
  cases h with
  | expression hnoted =>
    exact {
      expression := by rintro _ ⟨⟩; rfl
      present := iff_of_true rfl fun e he => (hnoted e he).1
      sites := fun e he => (hnoted e he).2
      once := by rw [hnoted.filter_unwinds]; exact Nat.zero_le 1
      accepted := not_congr haccepted }
  | @nothing what t noted hnoted ht =>
    have hlast : (⟨.missing what, some t⟩ : ParseError) ∈ noted ++ [⟨.missing what, some t⟩] :=
      List.mem_append_right noted List.mem_cons_self
    exact {
      expression := nofun
      present := iff_of_false nofun fun hpassing => nomatch hpassing _ hlast
      sites := List.forall_mem_append.mpr
        ⟨fun e he => (hnoted e he).2, List.forall_mem_singleton.mpr ⟨t, ht, rfl⟩⟩
      once := by rw [List.filter_append, hnoted.filter_unwinds]; exact Nat.le_refl 1
      accepted := not_congr haccepted }

/-- One broken statement does not damage its neighbours.  Between two scripts, tokens within
    a statement and a semicolon are found as at most one expression statement, and what is
    found before and behind them is what is found in these scripts alone.  The tokens must
    not begin with `else`, which could continue the last statement before them. -/
theorem broken_statement_stays_alone {before broken after : List Token} {l : Int}
    (hbefore : (parse false before).errors = []) (hafter : (parse false after).errors = [])
    (hbroken : ∀ t ∈ broken, t.IsInner)
    (helse : ∀ t ∈ broken.head?, t.lexeme ≠ .keyword .elseWord) :
    ∃ found : Option SourceStmt,
      (parse false (before ++ (broken ++ sym .semicolon l :: after))).statements =
        (parse false before).statements ++ found.toList ++ (parse false after).statements ∧
      KeepsToItself (broken ++ [sym .semicolon l]) found
        (parse false (before ++ (broken ++ sym .semicolon l :: after))).errors := by
  have hderives {ts : List Token} (h : (parse false ts).errors = []) :
      Derives true false .declarations ts (parse false ts).statements :=
    ((parse_accepts_grammar ts).2 _).mpr ⟨h, rfl⟩
  obtain ⟨n, hn⟩ : ∃ n,
      nestingBound (before ++ (broken ++ sym .semicolon l :: after)).length = n + 2 := ⟨_, rfl⟩
  have hlength := hn
  simp only [nestingBound, List.length_append, List.length_cons] at hlength
  obtain ⟨found, errors, hstays, hfound, hvalid⟩ := declaration_stays n hbroken l after
  have hnext : Next (· ≠ .keyword .elseWord) (broken ++ sym .semicolon l :: after) := by
    cases broken with
    | nil => exact next_cons.mpr nofun
    | cons t ts => exact next_cons.mpr (helse t rfl)
  have hsteps := steps_around (hderives hbefore) (hderives hafter) hstays (by simp) hnext
    (by omega) (by omega)
  have hrun := run_parse false (before ++ (broken ++ sym .semicolon l :: after))
  rw [hn] at hrun
  unfold declarations at hrun
  rw [bind_of_ok hsteps] at hrun
  obtain ⟨hstatements, hstate⟩ := EStateM.Result.ok.inj hrun
  rw [List.reverse_reverse] at hstatements
  have herrors : errors.toList =
      (parse false (before ++ (broken ++ sym .semicolon l :: after))).errors := by
    rw [(ParseState.mk.inj hstate).2]
  refine ⟨found, hstatements.symm,
    herrors ▸ hfound.keepsToItself ⟨fun hnil => ?_, fun hphrase => ?_⟩⟩
  · obtain ⟨e, he⟩ := hvalid (Array.toList_eq_nil_iff.mp hnil)
    have hphrase : Derives false false .declarations (broken ++ [sym .semicolon l])
        [.expression e] := .moreDeclarations .noDeclarations (.statement (.evaluate (.exprStmt he)))
    exact (parse_accepts_grammar _).1.mpr ⟨_, hphrase⟩
  · have hwhole := (hderives hbefore).append ((hderives hphrase).append (hderives hafter))
    rw [List.append_assoc, List.singleton_append] at hwhole
    rw [herrors]
    exact (parse_of_derives hwhole).1

/-- An operand is missing, and a name follows that is no part of the expression. -/
theorem missing_operand_stays_alone :
    (parse false (scan "if (a) b;" 1).tokens).errors = [] ∧
      (parse false (scan "print 1;" 3).tokens).errors = [] ∧
      (parse false ((scan "if (a) b;" 1).tokens ++ ((scan "c + = d e" 2).tokens ++
        sym .semicolon 2 :: (scan "print 1;" 3).tokens))).errors ≠ [] ∧
      ∃ found : Option SourceStmt,
        (parse false ((scan "if (a) b;" 1).tokens ++ ((scan "c + = d e" 2).tokens ++
          sym .semicolon 2 :: (scan "print 1;" 3).tokens))).statements =
            (parse false (scan "if (a) b;" 1).tokens).statements ++ found.toList ++
              (parse false (scan "print 1;" 3).tokens).statements ∧
        KeepsToItself ((scan "c + = d e" 2).tokens ++ [sym .semicolon 2]) found
          (parse false ((scan "if (a) b;" 1).tokens ++ ((scan "c + = d e" 2).tokens ++
            sym .semicolon 2 :: (scan "print 1;" 3).tokens))).errors :=
  ⟨by decide +kernel, by decide +kernel, by decide +kernel,
    broken_statement_stays_alone (by decide +kernel) (by decide +kernel) (by decide +kernel)
      (by decide +kernel)⟩

end Treewalk
