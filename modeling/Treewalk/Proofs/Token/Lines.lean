import Treewalk.Proofs.Token.Scanning

/-! # Lines of a text

    A text that is made of lines, with line feeds between them, is scanned from the number
    of its first line on.  A token then carries the number of the line that holds its last
    character, and a stray character that of its own line, whatever strings and comments
    reach over several lines (`numberedBy_scan`). -/

namespace Treewalk

/-! ### Places -/

/-- What a text begins with ends in line number `n`: it is made of some whole lines, from
    the one with the number `first` on, and of a part of line `n` that is not empty.
    Lines are counted from 1. -/
def EndsIn (lines : List String) (first : Int) (front : List Char) (n : Int) : Prop :=
  ∃ before passed line after part, lines = before ++ passed ++ line :: after ∧
    first = before.length + 1 ∧ n = (before ++ passed).length + 1 ∧
    part ≠ [] ∧ part <+: line.toList ∧
    front = passed.flatMap (fun l => l.toList ++ ['\n']) ++ part

/-- The text is made of some of the lines, from the one with the number `first` on. -/
def MadeOf (lines : List String) (first : Int) (text : String) : Prop :=
  ∃ before ls after, lines = before ++ ls ++ after ∧ ls ≠ [] ∧ first = before.length + 1 ∧
    text = "\n".intercalate ls

/-- The text ends in another character than a line feed. -/
def EndsInLine (front : List Char) : Prop := ∃ c, front.getLast? = some c ∧ c ≠ '\n'

theorem EndsInLine.append {front : List Char} (h : EndsInLine front) (before : List Char) :
    EndsInLine (before ++ front) := by
  obtain ⟨c, hlast, hc⟩ := h
  exact ⟨c, by rw [List.getLast?_append, hlast]; rfl, hc⟩

theorem EndsInLine.ne_nil {front : List Char} (h : EndsInLine front) : front ≠ [] := by
  obtain ⟨c, hlast, -⟩ := h
  rintro rfl
  cases hlast

/-- What follows a line feed in such a text ends as the text does. -/
theorem EndsInLine.behind {before front : List Char} (h : EndsInLine (before ++ '\n' :: front)) :
    EndsInLine front := by
  obtain ⟨c, hlast, hc⟩ := h
  rw [List.getLast?_append, List.getLast?_cons] at hlast
  cases hfront : front.getLast? with
  | none =>
    rw [hfront] at hlast
    exact absurd (Option.some.inj hlast).symm hc
  | some d =>
    rw [hfront] at hlast
    exact ⟨c, hfront.trans hlast, hc⟩

theorem endsInLine_of_not_mem {front : List Char} (hne : front ≠ []) (h : '\n' ∉ front) :
    EndsInLine front :=
  ⟨front.getLast hne, List.getLast?_eq_some_getLast hne,
    fun heq => h (heq ▸ List.getLast_mem hne)⟩

/-- What a text of lines begins with, up to a character in some line, are the lines before
    and a part of that one; so many line feeds are in it. -/
theorem exists_line_of_front {ls : List String} (hls : ∀ l ∈ ls, '\n' ∉ l.toList)
    {front rest : List Char} (h : ("\n".intercalate ls).toList = front ++ rest)
    (hfront : EndsInLine front) :
    ∃ passed line after part, ls = passed ++ line :: after ∧ passed.length = front.count '\n' ∧
      part ≠ [] ∧ part <+: line.toList ∧
      front = passed.flatMap (fun l => l.toList ++ ['\n']) ++ part := by
  induction ls generalizing front with
  | nil =>
    have hnil : front ++ rest = [] := h.symm
    exact absurd (List.append_eq_nil_iff.mp hnil).1 hfront.ne_nil
  | cons l ls ih =>
    obtain ⟨hl, hrest⟩ := List.forall_mem_cons.mp hls
    -- the place is in the first line
    have hfirst (hpre : front <+: l.toList) : ∃ passed line after part,
        l :: ls = passed ++ line :: after ∧ passed.length = front.count '\n' ∧ part ≠ [] ∧
          part <+: line.toList ∧ front = passed.flatMap (fun l => l.toList ++ ['\n']) ++ part := by
      have hcount : front.count '\n' = 0 := List.count_eq_zero.mpr fun hmem => hl (hpre.mem hmem)
      exact ⟨[], l, ls, front, rfl, hcount.symm, hfront.ne_nil, hpre, rfl⟩
    by_cases hls' : ls = []
    · subst hls'
      rw [String.intercalate_singleton] at h
      exact hfirst ⟨rest, h.symm⟩
    · have hjoined : ("\n".intercalate (l :: ls)).toList =
          l.toList ++ '\n' :: ("\n".intercalate ls).toList := by
        rw [String.intercalate_cons_of_ne_nil hls', String.toList_append, String.toList_append]
        simp
      rw [hjoined] at h
      rcases List.append_eq_append_iff.mp h with ⟨more, rfl, hmore⟩ | ⟨more, hmore, -⟩
      · cases more with
        | nil => exact hfirst (by simp)
        | cons c more =>
          -- it is behind the first line and its line feed
          obtain ⟨rfl, hbehind⟩ := List.cons.inj hmore
          obtain ⟨passed, line, after, part, rfl, hcount, hne, hpart, rfl⟩ :=
            ih hrest hbehind hfront.behind
          refine ⟨l :: passed, line, after, part, rfl, ?_, hne, hpart, ?_⟩
          · rw [List.count_append, List.count_eq_zero.mpr hl, List.count_cons_self, ← hcount,
              List.length_cons, Nat.zero_add]
          · simp
      · exact hfirst ⟨more, hmore.symm⟩

/-- A place in a text that is made of lines is in one of them. -/
theorem MadeOf.endsIn {lines : List String} {first : Int} {text : String}
    (h : MadeOf lines first text) (hlines : ∀ l ∈ lines, '\n' ∉ l.toList) {front rest : List Char}
    (hfront : text.toList = front ++ rest) (hend : EndsInLine front) :
    EndsIn lines first front (first + front.count '\n') := by
  obtain ⟨before, ls, after, rfl, -, rfl, rfl⟩ := h
  have hls : ∀ l ∈ ls, '\n' ∉ l.toList := fun l hl =>
    hlines l (List.mem_append_left _ (List.mem_append_right _ hl))
  obtain ⟨passed, line, later, part, rfl, hcount, hne, hpart, heq⟩ :=
    exists_line_of_front hls hfront hend
  refine ⟨before, passed, line, later ++ after, part, by simp, rfl, ?_, hne, hpart, heq⟩
  rw [← hcount, List.length_append]
  omega

/-! ### Ends of lexemes -/

theorem not_mem_of_class {p : Char → Bool} (hp : p '\n' = false) {cs : List Char}
    (h : ∀ c ∈ cs, p c = true) : '\n' ∉ cs := by
  intro hmem
  have hnewline := h _ hmem
  rw [hp] at hnewline
  cases hnewline

theorem IsWord.endsInLine {s : String} (h : IsWord s) : EndsInLine s.toList := by
  obtain ⟨c, cs, heq, hc, hcs⟩ := h
  rw [heq]
  refine endsInLine_of_not_mem (List.cons_ne_nil c cs) (not_mem_of_class (p := isNameChar) rfl ?_)
  refine List.forall_mem_cons.mpr ⟨?_, hcs⟩
  unfold isNameChar
  rw [hc, Bool.true_or]

theorem IsDigits.endsInLine {s : String} (h : IsDigits s) : EndsInLine s.toList :=
  endsInLine_of_not_mem h.1 (not_mem_of_class rfl h.2)

/-- No lexeme ends in a line feed, though one may be inside of a string. -/
theorem Lexeme.HasForm.endsInLine {l : Lexeme} (h : l.HasForm) : EndsInLine l.text.toList := by
  cases l with
  | symbol s => cases s <;> exact endsInLine_of_not_mem (by decide) (by decide)
  | keyword k => exact (isWord_keyword k).endsInLine
  | identifier name => exact h.1.endsInLine
  | string quote content =>
    have hquote : EndsInLine [quote.char] := by cases quote <;> exact ⟨_, rfl, by decide⟩
    simp only [Lexeme.text, String.toList_append, String.toList_singleton]
    exact hquote.append _
  | number whole fraction =>
    cases fraction with
    | none => exact IsDigits.endsInLine h
    | some fraction =>
      simp only [Lexeme.text, String.toList_append]
      exact h.2.endsInLine.append _

/-! ### Numbered scans -/

/-- The piece is one of the text, and its last character is in line number `n`. -/
def PieceOn (lines : List String) (first : Int) (text : String) (p : Piece) (n : Int) : Prop :=
  ∃ before after, Splits text.toList (before ++ p :: after) ∧
    EndsIn lines first (textOf (before ++ [p])) n

/-- The scan of a text that is made of lines gives every token and every stray character
    the number of the line it ends in, in order, and there is nothing else wrong with the
    text.  The last line of the text is the one that its last character is in. -/
structure Scan.NumberedBy (found : Scan) (lines : List String) (first : Int) (text : String) :
    Prop where
  /-- The text is made of lines, and the first of them has the given number. -/
  made : MadeOf lines first text
  /-- There is one token for each lexeme. -/
  lexemes : ∀ ps, Splits text.toList ps →
    found.tokens.map (·.lexeme) = ps.filterMap Piece.lexeme?
  /-- A token carries the number of the line that holds its last character. -/
  tokens : ∀ before l after, Splits text.toList (before ++ .lexeme l :: after) →
    ∃ n, found.tokens[(before.filterMap Piece.lexeme?).length]? = some ⟨l, n⟩ ∧
      EndsIn lines first (textOf (before ++ [.lexeme l])) n
  /-- There is one issue for each stray character. -/
  issues : ∀ ps, Splits text.toList ps →
    found.issues.map (·.1) = ps.filterMap Piece.issue? ∧
      ∀ i ∈ found.issues, i.1 = .unexpectedCharacter
  /-- A stray character is on the line that holds it. -/
  strays : ∀ before c after, Splits text.toList (before ++ .stray c :: after) →
    ∃ n, found.issues[(before.filterMap Piece.issue?).length]? = some (.unexpectedCharacter, n) ∧
      EndsIn lines first (textOf (before ++ [.stray c])) n
  /-- The end of the text is on the line that holds its last character. -/
  endLine : EndsIn lines first text.toList found.endLine

theorem Splits.fits {text : List Char} {before after : List Piece} {p : Piece}
    (h : Splits text (before ++ p :: after)) : ∃ rest, p.Fits rest := by
  induction before generalizing text with
  | nil =>
    cases h with
    | cons hfits _ => exact ⟨_, hfits⟩
  | cons q before ih =>
    cases h with
    | cons _ hrest => exact ih hrest

/-- The lexemes of a text are formed as they should be. -/
theorem Splits.hasForm {text : List Char} {ps : List Piece} {l : Lexeme} (h : Splits text ps)
    (hl : l ∈ ps.filterMap Piece.lexeme?) : l.HasForm := by
  obtain ⟨p, hp, hlexeme⟩ := List.mem_filterMap.mp hl
  obtain ⟨before, after, rfl⟩ := List.append_of_mem hp
  obtain ⟨rest, hfits⟩ := h.fits
  cases p with
  | lexeme l' =>
    cases hlexeme
    exact hfits.1
  | _ => cases hlexeme

theorem hasForm_of_mem_scan {source : String} {line : Int} {t : Token}
    (h : t ∈ (scan source line).tokens) : t.lexeme.HasForm := by
  have hsplits : Splits source.toList (pieces source.toList) := splits_iff.mpr rfl
  refine hsplits.hasForm ?_
  rw [← lexemes_tokensFrom line]
  exact List.mem_map_of_mem h

/-- The text up to a piece is in front of the text behind it. -/
theorem Splits.eq_append {text : List Char} {before after : List Piece} {p : Piece}
    (h : Splits text (before ++ p :: after)) : text = textOf (before ++ [p]) ++ textOf after := by
  rw [← h.textOf_eq]
  simp [textOf]

theorem textOf_concat (before : List Piece) (p : Piece) :
    textOf (before ++ [p]) = textOf before ++ p.text := by
  simp [textOf]

theorem stray_ne_newline {c : Char} (h : ¬ StartsPiece c) : c ≠ '\n' := by
  rintro rfl
  exact h (.inl (by decide))

/-- The scan of a text that is made of lines without line feeds, which does not end in a
    line feed nor within a string or comment. -/
theorem numberedBy_scan {lines : List String} {first : Int} {text : String}
    (hmade : MadeOf lines first text) (hlines : ∀ l ∈ lines, '\n' ∉ l.toList)
    (hend : EndsInLine text.toList)
    (hclosed : ∀ i ∈ (scan text first).issues, i.1.isUnterminated = false) :
    (scan text first).NumberedBy lines first text where
  made := hmade
  lexemes ps hps := by
    rw [splits_iff.mp hps]
    exact lexemes_tokensFrom _ _
  tokens before l after h := by
    obtain ⟨rest, hform, -⟩ := h.fits
    have hfront : EndsInLine (textOf (before ++ [.lexeme l])) := by
      rw [textOf_concat]
      exact hform.endsInLine.append _
    refine ⟨_, ?_, hmade.endsIn hlines h.eq_append hfront⟩
    unfold scan
    rw [← splits_iff.mp h]
    dsimp only
    rw [tokensFrom_at, ← length_tokensFrom first, List.getElem?_append_right (Nat.le_refl _),
      Nat.sub_self]
    rfl
  issues ps hps := by
    refine ⟨?_, fun i hi => ?_⟩
    · rw [splits_iff.mp hps]
      exact kinds_issuesFrom _ _
    · have hkind := hclosed i hi
      cases hi' : i.1 with
      | unexpectedCharacter => rfl
      | _ =>
        rw [hi'] at hkind
        cases hkind
  strays before c after h := by
    obtain ⟨rest, hstray⟩ := h.fits
    have hc := stray_ne_newline hstray
    have hfront : EndsInLine (textOf (before ++ [.stray c])) := by
      rw [textOf_concat]
      exact EndsInLine.append ⟨c, rfl, hc⟩ _
    have hcount : (textOf (before ++ [.stray c])).count '\n' = newlinesIn before := by
      rw [textOf_concat, List.count_append]
      simp [Piece.text, hc, newlinesIn]
    have hplace := hmade.endsIn hlines h.eq_append hfront
    rw [hcount] at hplace
    refine ⟨_, ?_, hplace⟩
    unfold scan
    rw [← splits_iff.mp h]
    dsimp only
    rw [issuesFrom_at first rfl, ← length_issuesFrom first,
      List.getElem?_append_right (Nat.le_refl _), Nat.sub_self]
    rfl
  endLine := by
    have hsplits : Splits text.toList (pieces text.toList) := splits_iff.mpr rfl
    have hline : (scan text first).endLine = first + text.toList.count '\n' := by
      rw [← hsplits.textOf_eq]
      exact lineAfter_eq first _
    rw [hline]
    exact hmade.endsIn hlines (List.append_nil _).symm hend

/-! ### Members of a numbered scan -/

/-- What a filter finds at a position is found in one place, behind so many others. -/
theorem exists_of_getElem?_filterMap {α β : Type} {f : α → Option β} {xs : List α} {i : Nat} {b : β}
    (h : (xs.filterMap f)[i]? = some b) :
    ∃ before x after, xs = before ++ x :: after ∧ f x = some b ∧
      (before.filterMap f).length = i := by
  obtain ⟨hi, hb⟩ := List.getElem?_eq_some_iff.mp h
  have hsplit : xs.filterMap f = (xs.filterMap f).take i ++ b :: (xs.filterMap f).drop (i + 1) := by
    rw [← hb, List.getElem_cons_drop, List.take_append_drop]
  obtain ⟨front, back, rfl, hfront, hback⟩ := List.filterMap_eq_append_iff.mp hsplit
  obtain ⟨skipped, x, after, rfl, hskipped, hx, -⟩ := List.filterMap_eq_cons_iff.mp hback
  refine ⟨front ++ skipped, x, after, (List.append_assoc _ _ _).symm, hx, ?_⟩
  rw [List.filterMap_append, List.filterMap_eq_nil_iff.mpr hskipped, List.append_nil, hfront,
    List.length_take, Nat.min_eq_left (Nat.le_of_lt hi)]

namespace Scan.NumberedBy

variable {found : Scan} {lines : List String} {first : Int} {text : String}

/-- Every token is a lexeme of the text, on the line that holds its last character. -/
theorem pieceOn_token (h : found.NumberedBy lines first text) {t : Token} (ht : t ∈ found.tokens) :
    PieceOn lines first text (.lexeme t.lexeme) t.line := by
  obtain ⟨i, hi⟩ := List.getElem?_of_mem ht
  have hsplits : Splits text.toList (pieces text.toList) := splits_iff.mpr rfl
  have hlexeme : ((pieces text.toList).filterMap Piece.lexeme?)[i]? = some t.lexeme := by
    rw [← h.lexemes _ hsplits, List.getElem?_map, hi]
    rfl
  obtain ⟨before, p, after, hpieces, hp, rfl⟩ := exists_of_getElem?_filterMap hlexeme
  rw [hpieces] at hsplits
  cases p with
  | lexeme l =>
    cases hp
    obtain ⟨n, hfound, hplace⟩ := h.tokens before t.lexeme after hsplits
    have hn : t.line = n := by
      rw [hi] at hfound
      exact congrArg Token.line (Option.some.inj hfound)
    rw [hn]
    exact ⟨before, after, hsplits, hplace⟩
  | _ => cases hp

/-- Every issue is about a stray character of the text, on its line. -/
theorem pieceOn_issue (h : found.NumberedBy lines first text) {i : ScanIssue} {n : Int}
    (hi : (i, n) ∈ found.issues) :
    i = .unexpectedCharacter ∧ ∃ c, PieceOn lines first text (.stray c) n := by
  have hsplits : Splits text.toList (pieces text.toList) := splits_iff.mpr rfl
  obtain ⟨hkinds, hstray⟩ := h.issues _ hsplits
  obtain rfl : i = .unexpectedCharacter := hstray _ hi
  obtain ⟨k, hk⟩ := List.getElem?_of_mem hi
  have hkind : ((pieces text.toList).filterMap Piece.issue?)[k]? = some .unexpectedCharacter := by
    rw [← hkinds, List.getElem?_map, hk]
    rfl
  obtain ⟨before, p, after, hpieces, hp, rfl⟩ := exists_of_getElem?_filterMap hkind
  rw [hpieces] at hsplits
  cases p with
  | stray c =>
    obtain ⟨m, hfound, hplace⟩ := h.strays before c after hsplits
    obtain rfl : n = m := by
      rw [hk] at hfound
      exact congrArg Prod.snd (Option.some.inj hfound)
    exact ⟨rfl, c, before, after, hsplits, hplace⟩
  | _ => cases hp

end Scan.NumberedBy

end Treewalk
