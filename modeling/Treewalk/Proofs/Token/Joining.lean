import Treewalk.Proofs.Token.Scanning

/-! # Texts on lines of their own

    Outside of strings and comments a newline ends every piece.  So two texts
    with a newline between them are scanned as if each stood alone, the second
    one behind the lines of the first. -/

namespace Treewalk

/-- No string or block comment among the pieces is left open. -/
def AllClosed (ps : List Piece) : Prop :=
  ∀ p ∈ ps, ∀ i, p.issue? = some i → i.isUnterminated = false

theorem stops_newline {p : Char → Bool} (hp : p '\n' = false) {rest : List Char}
    (h : Stops p rest) (more : List Char) : Stops p (rest ++ '\n' :: more) := by
  cases rest with
  | nil => exact stops_cons.mpr hp
  | cons c rest => exact stops_cons.mpr (stops_cons.mp h)

/-- A lexeme that ends before the end of the text ends before a newline. -/
theorem endsBefore_newline {l : Lexeme} {rest : List Char} (h : l.EndsBefore rest)
    (more : List Char) : l.EndsBefore (rest ++ '\n' :: more) := by
  cases l with
  | keyword k => exact stops_newline rfl h more
  | identifier name => exact stops_newline rfl h more
  | string quote content => trivial
  | symbol s => cases s <;> first | trivial | exact stops_newline rfl h more
  | number whole fraction =>
    cases fraction with
    | some fraction => exact stops_newline rfl h more
    | none =>
      obtain ⟨hdigits, hpoint⟩ := h
      refine ⟨stops_newline rfl hdigits more, ?_⟩
      intro after hafter
      cases rest with
      | nil => cases hafter
      | cons c rest =>
        -- the point is in the first text, so what follows it stops there too
        rw [List.cons_append, List.cons.injEq] at hafter
        obtain ⟨rfl, rfl⟩ := hafter
        exact stops_newline rfl (hpoint rest rfl) more

theorem fits_newline {p : Piece} {rest : List Char} (h : p.Fits rest)
    (hclosed : ∀ i, p.issue? = some i → i.isUnterminated = false) (more : List Char) :
    p.Fits (rest ++ '\n' :: more) := by
  cases p with
  | lexeme l => exact ⟨h.1, endsBefore_newline h.2 more⟩
  | lineComment body => exact ⟨h.1, stops_newline rfl h.2 more⟩
  | openString quote body => cases hclosed _ rfl
  | openComment body => cases hclosed _ rfl
  | _ => exact h

/-- Two texts with a newline between them split into their pieces and the newline. -/
theorem Splits.join {text more : List Char} {ps qs : List Piece} (h : Splits text ps)
    (hclosed : AllClosed ps) (hmore : Splits more qs) :
    Splits (text ++ '\n' :: more) (ps ++ .newline :: qs) := by
  induction h with
  | nil => exact .cons (p := .newline) trivial hmore
  | @cons p rest ps hfits _ ih =>
    have hfits' := fits_newline hfits (hclosed p List.mem_cons_self) more
    rw [List.append_assoc]
    exact .cons hfits' (ih fun q hq => hclosed q (List.mem_cons_of_mem p hq))

theorem pieces_join {a : String} (b : String) (h : AllClosed (pieces a.toList)) :
    pieces (a ++ "\n" ++ b).toList = pieces a.toList ++ .newline :: pieces b.toList := by
  have hsplits : Splits (a.toList ++ '\n' :: b.toList)
      (pieces a.toList ++ .newline :: pieces b.toList) :=
    (splits_iff.mpr rfl).join h (splits_iff.mpr rfl)
  have htext : (a ++ "\n" ++ b).toList = a.toList ++ '\n' :: b.toList := by simp
  rw [htext]
  exact (splits_iff.mp hsplits).symm

/-! ### Scans -/

/-- How many lines end in a text. -/
def lineEnds (source : String) : Nat := source.toList.count '\n'

theorem newlinesIn_pieces (source : String) : newlinesIn (pieces source.toList) = lineEnds source := by
  have hsplits : Splits source.toList (pieces source.toList) := splits_iff.mpr rfl
  rw [newlinesIn, hsplits.textOf_eq]
  rfl

theorem allClosed_of_scan {source : String} {line : Int}
    (h : ∀ issue ∈ (scan source line).issues, issue.1.isUnterminated = false) :
    AllClosed (pieces source.toList) := by
  intro p hp i hi
  have hkind : i ∈ (scan source line).issues.map (·.1) := by
    rw [show (scan source line).issues = issuesFrom line (pieces source.toList) from rfl,
      kinds_issuesFrom]
    exact List.mem_filterMap.mpr ⟨p, hp, hi⟩
  obtain ⟨issue, hissue, rfl⟩ := List.mem_map.mp hkind
  exact h issue hissue

/-- A scan of two texts with a newline between them finds what scans of the two
    texts find, if the first leaves nothing open. -/
theorem scan_join {a : String} {line : Int} (b : String)
    (h : ∀ issue ∈ (scan a line).issues, issue.1.isUnterminated = false) :
    scan (a ++ "\n" ++ b) line =
      ⟨(scan a line).tokens ++ (scan b (line + lineEnds a + 1)).tokens,
        (scan b (line + lineEnds a + 1)).endLine,
        (scan a line).issues ++ (scan b (line + lineEnds a + 1)).issues⟩ := by
  have hpieces := pieces_join b (allClosed_of_scan h)
  have hnewline : (Piece.newline.newlines : Int) = 1 := rfl
  unfold scan
  dsimp only
  rw [hpieces, tokensFrom_append, issuesFrom_append, lineAfter_eq, lineAfter_eq, newlinesIn_append,
    newlinesIn_cons, newlinesIn_pieces]
  simp only [tokensFrom, issuesFrom, Piece.lexeme?, Piece.issue?, hnewline]
  congr 1
  omega

end Treewalk
