import Treewalk.Proofs.Token.Split

/-! # Scanning loses nothing

    Tokens and issues are read off the pieces of a text from left to right, with
    a running line number.  Read all at once: the tokens are the lexemes among
    the pieces, each on the line of its last character, and the issues belong to
    the pieces that are wrong, each on the line where its piece begins. -/

namespace Treewalk

/-! ### Lines -/

/-- The text that some pieces make up. -/
def textOf (ps : List Piece) : List Char := ps.flatMap Piece.text

/-- How many lines end in the text of some pieces. -/
def newlinesIn (ps : List Piece) : Nat := (textOf ps).count '\n'

theorem newlinesIn_cons (p : Piece) (ps : List Piece) :
    newlinesIn (p :: ps) = p.newlines + newlinesIn ps := by
  simp [newlinesIn, textOf, Piece.newlines]

theorem newlinesIn_append (ps qs : List Piece) :
    newlinesIn (ps ++ qs) = newlinesIn ps + newlinesIn qs := by
  simp [newlinesIn, textOf]

theorem lineAfter_eq (line : Int) (ps : List Piece) : lineAfter line ps = line + newlinesIn ps := by
  induction ps generalizing line with
  | nil => exact (Int.add_zero line).symm
  | cons p ps ih =>
    have hrest : lineAfter (line + p.newlines) ps = line + p.newlines + newlinesIn ps := ih _
    rw [newlinesIn_cons, Int.natCast_add, ← Int.add_assoc]
    exact hrest

/-- The pieces of a text make it up. -/
theorem Splits.textOf_eq {text : List Char} {ps : List Piece} (h : Splits text ps) :
    textOf ps = text := by
  induction h with
  | nil => rfl
  | cons _ _ ih => rw [← ih]; rfl

/-! ### Tokens and issues -/

theorem tokensFrom_append (line : Int) (ps qs : List Piece) :
    tokensFrom line (ps ++ qs) = tokensFrom line ps ++ tokensFrom (line + newlinesIn ps) qs := by
  induction ps generalizing line with
  | nil => simp [tokensFrom, newlinesIn, textOf]
  | cons p ps ih =>
    have hline : line + newlinesIn (p :: ps) = line + p.newlines + newlinesIn ps := by
      rw [newlinesIn_cons, Int.natCast_add, Int.add_assoc]
    rw [hline]
    simp only [List.cons_append, tokensFrom, ih]
    cases p.lexeme? <;> rfl

theorem issuesFrom_append (line : Int) (ps qs : List Piece) :
    issuesFrom line (ps ++ qs) = issuesFrom line ps ++ issuesFrom (line + newlinesIn ps) qs := by
  induction ps generalizing line with
  | nil => simp [issuesFrom, newlinesIn, textOf]
  | cons p ps ih =>
    have hline : line + newlinesIn (p :: ps) = line + p.newlines + newlinesIn ps := by
      rw [newlinesIn_cons, Int.natCast_add, Int.add_assoc]
    rw [hline]
    simp only [List.cons_append, issuesFrom, ih]
    cases p.issue? <;> rfl

theorem lexemes_tokensFrom (line : Int) (ps : List Piece) :
    (tokensFrom line ps).map (·.lexeme) = ps.filterMap Piece.lexeme? := by
  induction ps generalizing line with
  | nil => rfl
  | cons p ps ih =>
    unfold tokensFrom
    cases hp : p.lexeme? with
    | none => simp only [ih, List.filterMap_cons, hp]
    | some l => simp only [List.map_cons, ih, List.filterMap_cons, hp]

theorem kinds_issuesFrom (line : Int) (ps : List Piece) :
    (issuesFrom line ps).map (·.1) = ps.filterMap Piece.issue? := by
  induction ps generalizing line with
  | nil => rfl
  | cons p ps ih =>
    unfold issuesFrom
    cases hp : p.issue? with
    | none => simp only [ih, List.filterMap_cons, hp]
    | some i => simp only [List.map_cons, ih, List.filterMap_cons, hp]

/-- Whether something is left open does not depend on line numbers. -/
theorem any_open_issuesFrom (line : Int) (ps : List Piece) :
    (issuesFrom line ps).any (·.1.isUnterminated) =
      (ps.filterMap Piece.issue?).any ScanIssue.isUnterminated := by
  rw [← kinds_issuesFrom line, List.any_map]
  rfl

/-- A string or comment that is never closed is the last piece. -/
theorem Splits.open_last {text : List Char} {before after : List Piece} {p : Piece} {i : ScanIssue}
    (h : Splits text (before ++ p :: after)) (hp : p.issue? = some i)
    (hi : i.isUnterminated = true) : after = [] := by
  induction before generalizing text with
  | nil =>
    cases h with
    | @cons _ rest _ hfits hrest =>
      have hnil : rest = [] := by
        cases p with
        | openString quote body => exact hfits.2
        | openComment body => exact hfits.2
        | stray c => cases hp; cases hi
        | _ => cases hp
      subst hnil
      exact (splits_iff.mp hrest).trans rfl
  | cons q before ih =>
    cases h with
    | cons _ hrest => exact ih hrest

/-! ### The scan -/

/-- In a text that leaves nothing open, nothing is open whatever the number of its first
    line. -/
theorem closed_of_line {source : String} {line : Int}
    (h : ∀ i ∈ (scan source line).issues, i.1.isUnterminated = false) (other : Int) :
    ∀ i ∈ (scan source other).issues, i.1.isUnterminated = false := by
  have hopen : (scan source other).issues.any (·.1.isUnterminated) =
      (scan source line).issues.any (·.1.isUnterminated) :=
    (any_open_issuesFrom other _).trans (any_open_issuesFrom line _).symm
  intro i hi
  refine Bool.eq_false_iff.mpr fun htrue => ?_
  have hany : (scan source other).issues.any (·.1.isUnterminated) = true :=
    List.any_eq_true.mpr ⟨i, hi, htrue⟩
  rw [hopen] at hany
  obtain ⟨j, hj, hjopen⟩ := List.any_eq_true.mp hany
  rw [h j hj] at hjopen
  cases hjopen

/-- What a scan from the given line should find in a text with the given pieces.
    The end of the text is not among the tokens: there is one, on a line of its
    own. -/
structure Scan.ReadsOff (found : Scan) (line : Int) (ps : List Piece) : Prop where
  /-- The tokens are the lexemes among the pieces, in order. -/
  lexemes : found.tokens.map (·.lexeme) = ps.filterMap Piece.lexeme?
  /-- A token is on the line of its last character. -/
  tokenLine : ∀ before l after, ps = before ++ .lexeme l :: after →
    found.tokens[(before.filterMap Piece.lexeme?).length]? =
      some ⟨l, line + newlinesIn (before ++ [.lexeme l])⟩
  /-- The end of the text comes behind all its lines. -/
  endLine : found.endLine = line + newlinesIn ps
  /-- There is one issue for each stray character and for an unclosed string or
      comment, in order. -/
  issues : found.issues.map (·.1) = ps.filterMap Piece.issue?
  /-- An issue is on the line where its piece begins. -/
  issueLine : ∀ before p after i, ps = before ++ p :: after → p.issue? = some i →
    found.issues[(before.filterMap Piece.issue?).length]? = some (i, line + newlinesIn before)
  /-- An unclosed string or comment is the last piece, and its issue is the last. -/
  openLast : ∀ before p after i, ps = before ++ p :: after → p.issue? = some i →
    i.isUnterminated = true →
    after = [] ∧ found.issues.getLast? = some (i, line + newlinesIn before)

theorem issuesFrom_at {before after : List Piece} {p : Piece} {i : ScanIssue} (line : Int)
    (hp : p.issue? = some i) : issuesFrom line (before ++ p :: after) =
      issuesFrom line before ++ (i, line + newlinesIn before) ::
        issuesFrom (line + newlinesIn (before ++ [p])) after := by
  rw [issuesFrom_append, issuesFrom, newlinesIn_append, newlinesIn_cons]
  simp [hp, newlinesIn, textOf, Int.add_assoc]

theorem tokensFrom_at {before after : List Piece} {l : Lexeme} (line : Int) :
    tokensFrom line (before ++ .lexeme l :: after) =
      tokensFrom line before ++ ⟨l, line + newlinesIn (before ++ [.lexeme l])⟩ ::
        tokensFrom (line + newlinesIn (before ++ [.lexeme l])) after := by
  rw [tokensFrom_append, tokensFrom, newlinesIn_append, newlinesIn_cons]
  simp [Piece.lexeme?, newlinesIn, textOf, Int.add_assoc]

theorem length_tokensFrom (line : Int) (ps : List Piece) :
    (tokensFrom line ps).length = (ps.filterMap Piece.lexeme?).length := by
  rw [← lexemes_tokensFrom line, List.length_map]

theorem length_issuesFrom (line : Int) (ps : List Piece) :
    (issuesFrom line ps).length = (ps.filterMap Piece.issue?).length := by
  rw [← kinds_issuesFrom line, List.length_map]

/-- Scanning is lossless and takes the longest pieces.  A text splits into pieces
    in exactly one way such that each has the form of its kind and none could be
    longer, and the scan finds the tokens and the issues of these pieces. -/
theorem scan_reads_off_pieces (source : String) (line : Int) :
    ∃ ps, (∀ qs, Splits source.toList qs ↔ qs = ps) ∧ textOf ps = source.toList ∧
      (scan source line).ReadsOff line ps := by
  have hsplits : Splits source.toList (pieces source.toList) := splits_iff.mpr rfl
  refine ⟨pieces source.toList, fun qs => splits_iff, hsplits.textOf_eq, ?_⟩
  unfold scan
  dsimp only
  generalize pieces source.toList = ps at hsplits
  exact {
    lexemes := lexemes_tokensFrom line ps
    tokenLine := by
      rintro before l after rfl
      rw [tokensFrom_at, ← length_tokensFrom line, List.getElem?_append_right (Nat.le_refl _),
        Nat.sub_self]
      rfl
    endLine := lineAfter_eq line ps
    issues := kinds_issuesFrom line ps
    issueLine := by
      rintro before p after i rfl hp
      rw [issuesFrom_at line hp, ← length_issuesFrom line,
        List.getElem?_append_right (Nat.le_refl _), Nat.sub_self]
      rfl
    openLast := by
      rintro before p after i rfl hp hi
      have hafter := hsplits.open_last hp hi
      subst hafter
      refine ⟨rfl, ?_⟩
      rw [issuesFrom_at line hp]
      exact List.getLast?_concat }

end Treewalk
