import Treewalk.Proofs.Token.Joining
import Treewalk.Proofs.Token.Lines

/-! # Where tokens end

    A newline ends every token, and so does a space; only in a string or comment they are
    characters like others.  So a newline keeps two texts apart, if and only if the first
    leaves nothing open (`newline_keeps_texts_apart_iff`), and tokens with a space between
    any two of them are those tokens again, next to whatever others they stand
    (`spaced_tokens_scan_alike`). -/

namespace Treewalk

/-! ### Newlines -/

/-- Something was left open just if the wording of an issue says so. -/
theorem ScanIssue.isUnterminated_iff (i : ScanIssue) :
    i.isUnterminated = true ↔ "Unterminated".toList <+: i.message.toList := by
  cases i <;> decide

/-- What is found in one text and then in another. -/
def Scan.followedBy (first second : Scan) : Scan :=
  ⟨first.tokens ++ second.tokens, second.endLine, first.issues ++ second.issues⟩

/-- When something is left open, that is the last issue of the text. -/
theorem issues_behind_open {source : String} {line : Int} {before after : List (ScanIssue × Int)}
    {i : ScanIssue × Int} (h : (scan source line).issues = before ++ i :: after)
    (hi : i.1.isUnterminated = true) : after = [] := by
  have hsplits : Splits source.toList (pieces source.toList) := splits_iff.mpr rfl
  have hkinds : (pieces source.toList).filterMap Piece.issue? =
      before.map (·.1) ++ i.1 :: after.map (·.1) := by
    rw [← kinds_issuesFrom line, ← List.map_cons, ← List.map_append, ← h]
    rfl
  obtain ⟨front, back, hpieces, -, hback⟩ := List.filterMap_eq_append_iff.mp hkinds
  obtain ⟨skipped, p, rest, rfl, -, hp, hrest⟩ := List.filterMap_eq_cons_iff.mp hback
  rw [hpieces, ← List.append_assoc] at hsplits
  rw [hsplits.open_last hp hi, List.filterMap_nil] at hrest
  exact List.map_eq_nil_iff.mp hrest.symm

/-- A newline keeps two texts apart: what is found in both together is what is found in
    each alone, the second one behind the lines of the first.  This holds for every second
    text just if the first leaves no string or comment open. -/
theorem newline_keeps_texts_apart_iff (a : String) (line : Int) :
    (∀ b, scan (a ++ "\n" ++ b) line =
        (scan a line).followedBy (scan b (line + lineEnds a + 1))) ↔
      ∀ issue ∈ (scan a line).issues, ¬ "Unterminated".toList <+: issue.1.message.toList := by
  simp only [← ScanIssue.isUnterminated_iff, Bool.not_eq_true]
  constructor
  · intro hapart issue hissue
    refine Bool.eq_false_iff.mpr fun hopen => ?_
    -- a stray character on the next line would be behind what was left open
    have hissues : (scan (a ++ "\n" ++ "#") line).issues =
        (scan a line).issues ++ [(.unexpectedCharacter, line + lineEnds a + 1)] := by
      rw [hapart "#"]
      rfl
    obtain ⟨before, after, hsplit⟩ := List.append_of_mem hissue
    rw [hsplit, List.append_assoc, List.cons_append] at hissues
    have hnil := issues_behind_open hissues hopen
    exact List.cons_ne_nil _ _ (List.append_eq_nil_iff.mp hnil).2
  · intro hclosed b
    exact scan_join b hclosed

/-! ### Spaces -/

theorem Lexeme.endsBefore_nil (l : Lexeme) : l.EndsBefore [] := by
  cases l with
  | keyword k => exact stops_nil
  | identifier name => exact stops_nil
  | string quote content => trivial
  | symbol s => cases s <;> first | trivial | exact stops_nil
  | number whole fraction =>
    cases fraction with
    | none => exact ⟨stops_nil, nofun⟩
    | some fraction => exact stops_nil

theorem Lexeme.endsBefore_space (l : Lexeme) (rest : List Char) : l.EndsBefore (' ' :: rest) := by
  have hstops {p : Char → Bool} (hp : p ' ' = false) : Stops p (' ' :: rest) := stops_cons.mpr hp
  cases l with
  | keyword k => exact hstops rfl
  | identifier name => exact hstops rfl
  | string quote content => trivial
  | symbol s => cases s <;> first | trivial | exact hstops rfl
  | number whole fraction =>
    cases fraction with
    | none => exact ⟨hstops rfl, nofun⟩
    | some fraction => exact hstops rfl

/-- The text of lexemes with single spaces between them. -/
def spaced (lexemes : List Lexeme) : String := " ".intercalate (lexemes.map Lexeme.text)

/-- The pieces of such a text. -/
def spacedPieces (lexemes : List Lexeme) : List Piece :=
  (lexemes.map Piece.lexeme).intersperse (.blank ' ')

theorem toList_spaced_cons {lexemes : List Lexeme} (hne : lexemes ≠ []) (l : Lexeme) :
    (spaced (l :: lexemes)).toList = l.text.toList ++ ' ' :: (spaced lexemes).toList := by
  unfold spaced
  rw [List.map_cons, String.intercalate_cons_of_ne_nil (by simpa using hne), String.toList_append,
    String.toList_append, List.append_assoc]
  rfl

theorem splits_spaced {lexemes : List Lexeme} (h : ∀ l ∈ lexemes, l.HasForm) :
    Splits (spaced lexemes).toList (spacedPieces lexemes) := by
  induction lexemes with
  | nil => exact .nil
  | cons l rest ih =>
    obtain ⟨hl, hrest⟩ := List.forall_mem_cons.mp h
    cases rest with
    | nil =>
      have hsplits : Splits (l.text.toList ++ []) [.lexeme l] :=
        .cons (p := .lexeme l) ⟨hl, l.endsBefore_nil⟩ .nil
      rwa [List.append_nil] at hsplits
    | cons next rest =>
      have hspace : Splits (' ' :: (spaced (next :: rest)).toList)
          (.blank ' ' :: spacedPieces (next :: rest)) :=
        .cons (p := .blank ' ') (.inl rfl) (ih hrest)
      rw [toList_spaced_cons (List.cons_ne_nil _ _)]
      exact .cons (p := .lexeme l) ⟨hl, l.endsBefore_space _⟩ hspace

theorem filterMap_spacedPieces (lexemes : List Lexeme) :
    (spacedPieces lexemes).filterMap Piece.lexeme? = lexemes ∧
      (spacedPieces lexemes).filterMap Piece.issue? = [] := by
  induction lexemes with
  | nil => exact ⟨rfl, rfl⟩
  | cons l rest ih =>
    cases rest with
    | nil => exact ⟨rfl, rfl⟩
    | cons next rest => exact ⟨congrArg (l :: ·) ih.1, ih.2⟩

/-- A lexeme that is formed as it should be is found again when it is the whole text. -/
theorem scan_lexeme {l : Lexeme} (h : l.HasForm) (line : Int) :
    scan l.text line = ⟨[⟨l, line + lineEnds l.text⟩], line + lineEnds l.text, []⟩ := by
  have hsplits : Splits l.text.toList [.lexeme l] := by
    have halone := splits_spaced (List.forall_mem_singleton.mpr h)
    unfold spaced at halone
    rwa [List.map_singleton, String.intercalate_singleton] at halone
  unfold scan
  rw [← splits_iff.mp hsplits]
  rfl

/-- Lexemes that are formed as they should be are found again when they stand apart, and
    nothing is wrong with their text. -/
theorem scan_spaced {lexemes : List Lexeme} (h : ∀ l ∈ lexemes, l.HasForm) (line : Int) :
    (scan (spaced lexemes) line).tokens.map (·.lexeme) = lexemes ∧
      (scan (spaced lexemes) line).issues = [] := by
  obtain ⟨hlexemes, hissues⟩ := filterMap_spacedPieces lexemes
  unfold scan
  dsimp only
  rw [← splits_iff.mp (splits_spaced h), lexemes_tokensFrom]
  exact ⟨hlexemes, List.map_eq_nil_iff.mp ((kinds_issuesFrom line _).trans hissues)⟩

/-- The tokens of a text, written down again with a space between any two of them, are
    scanned as the same tokens in the same order, and nothing is wrong with them, whatever
    stood between them before.  A lexeme is the kind of a token, its text and the constant
    it stands for. -/
theorem spaced_tokens_scan_alike (source : String) (line line' : Int) :
    (scan (spaced ((scan source line).tokens.map (·.lexeme))) line').tokens.map (·.lexeme) =
        (scan source line).tokens.map (·.lexeme) ∧
      (scan (spaced ((scan source line).tokens.map (·.lexeme))) line').issues = [] := by
  refine scan_spaced (fun l hl => ?_) line'
  obtain ⟨t, ht, rfl⟩ := List.mem_map.mp hl
  exact hasForm_of_mem_scan ht

end Treewalk
