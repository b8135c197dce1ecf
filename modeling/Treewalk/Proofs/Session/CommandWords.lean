import Treewalk.Proofs.Session.Lines
import Treewalk.Proofs.Token.Trimming

/-! # Lines that begin with a word of the shell

    A line that begins with a word of the shell and goes on is a line of a program.  The
    shell takes it apart and puts one space behind the word, so white space there may be
    lost or come about.  It does not matter: the word ends where the name in the program
    does, and what is lost stands between that name and the next token.  Whatever is
    pending, the tokens are those of the line as it was typed
    (`Shell.typed_line_keeps_its_tokens`). -/

namespace Treewalk

/-! ### Pieces that make no difference -/

/-- Two lists of pieces have the same tokens on the same lines, and something is left open
    in both or in none of them. -/
structure PiecesAlike (ps qs : List Piece) : Prop where
  tokens : ∀ line, tokensFrom line ps = tokensFrom line qs
  leftOpen : (ps.filterMap Piece.issue?).any ScanIssue.isUnterminated =
    (qs.filterMap Piece.issue?).any ScanIssue.isUnterminated

namespace PiecesAlike

variable {ps qs rs : List Piece}

theorem refl (ps : List Piece) : PiecesAlike ps ps := ⟨fun _ => rfl, rfl⟩

theorem symm (h : PiecesAlike ps qs) : PiecesAlike qs ps :=
  ⟨fun line => (h.tokens line).symm, h.leftOpen.symm⟩

theorem trans (h : PiecesAlike ps qs) (h' : PiecesAlike qs rs) : PiecesAlike ps rs :=
  ⟨fun line => (h.tokens line).trans (h'.tokens line), h.leftOpen.trans h'.leftOpen⟩

/-- The same piece in front of both. -/
theorem cons (h : PiecesAlike ps qs) (p : Piece) : PiecesAlike (p :: ps) (p :: qs) where
  tokens line := by simp only [tokensFrom, h.tokens]
  leftOpen := by
    cases hp : p.issue? with
    | none => simp only [List.filterMap_cons_none hp, h.leftOpen]
    | some i => simp only [List.filterMap_cons_some hp, List.any_cons, h.leftOpen]

/-- The same pieces in front of both. -/
theorem behind (h : PiecesAlike ps qs) (rs : List Piece) : PiecesAlike (rs ++ ps) (rs ++ qs) := by
  induction rs with
  | nil => exact h
  | cons r rs ih => exact ih.cons r

end PiecesAlike

/-- The piece is no lexeme, ends no line and is not left open. -/
structure Piece.IsAside (p : Piece) : Prop where
  lexeme : p.lexeme? = none
  newlines : p.newlines = 0
  closed : p.issue?.any ScanIssue.isUnterminated = false

theorem Piece.IsAside.alike {p : Piece} (h : p.IsAside) (ps : List Piece) :
    PiecesAlike ps (p :: ps) where
  tokens line := by simp [tokensFrom, h.lexeme, h.newlines]
  leftOpen := by
    cases hp : p.issue? with
    | none => rw [List.filterMap_cons_none hp]
    | some i =>
      have hi : i.isUnterminated = false := by simpa [hp] using h.closed
      rw [List.filterMap_cons_some hp, List.any_cons, hi, Bool.false_or]

/-- White space that ends no line is a blank or a stray character, wherever it stands
    between other pieces. -/
theorem exists_aside {c : Char} (hc : Text.isWhite c = true) (hne : c ≠ '\n') :
    ∃ p : Piece, p.text = [c] ∧ p.IsAside ∧ ∀ rest, p.Fits rest := by
  have hnewlines : [c].count '\n' = 0 := by simp [hne]
  by_cases hblank : c = ' ' ∨ c = '\t' ∨ c = '\r'
  · exact ⟨.blank c, rfl, ⟨rfl, hnewlines, rfl⟩, fun _ => hblank⟩
  · have hstray : ¬ StartsPiece c := by
      obtain ⟨hspace, htab, hreturn⟩ : c ≠ ' ' ∧ c ≠ '\t' ∧ c ≠ '\r' := by
        simpa only [not_or] using hblank
      rintro (hmem | hdigit | hname)
      · simp only [List.mem_cons, hspace, htab, hreturn, hne, false_or, List.not_mem_nil,
          or_false] at hmem
        rcases hmem with rfl | rfl | rfl | rfl | rfl | rfl | rfl | rfl | rfl | rfl | rfl | rfl |
          rfl | rfl | rfl | rfl | rfl <;> exact absurd hc (by decide)
      · rw [isWhite_nameChar (Bool.or_eq_true_iff.mpr (.inr hdigit))] at hc
        cases hc
      · rw [isWhite_nameChar (Bool.or_eq_true_iff.mpr (.inl hname))] at hc
        cases hc
    exact ⟨.stray c, rfl, ⟨rfl, hnewlines, rfl⟩, fun _ => hstray⟩

theorem pieces_cons {p : Piece} {rest : List Char} (h : p.Fits rest) :
    pieces (p.text ++ rest) = p :: pieces rest :=
  (splits_iff.mp (.cons h (splits_iff.mpr rfl))).symm

/-- White space at the front of a line makes no difference. -/
theorem pieces_dropWhile_white {text : List Char} (h : '\n' ∉ text) :
    PiecesAlike (pieces (text.dropWhile Text.isWhite)) (pieces text) := by
  induction text with
  | nil => exact .refl _
  | cons c rest ih =>
    obtain ⟨hc, hrest⟩ := not_or.mp (mt List.mem_cons.mpr h)
    cases hwhite : Text.isWhite c with
    | false =>
      rw [List.dropWhile_cons_of_neg (by simp [hwhite])]
      exact .refl _
    | true =>
      obtain ⟨p, htext, haside, hfits⟩ := exists_aside hwhite (Ne.symm hc)
      have hpieces := pieces_cons (hfits rest)
      rw [htext, List.singleton_append] at hpieces
      rw [List.dropWhile_cons_of_pos hwhite, hpieces]
      exact (ih hrest).trans (haside.alike _)

/-! ### Words of the shell -/

theorem isWord_command {word : String} (h : word ∈ ["help", "EOF", "exit"]) :
    (Lexeme.identifier word).HasForm := by
  have hname : ∀ w ∈ ["help", "EOF", "exit"], ∀ k : Keyword, w ≠ k.text := by
    intro w hw k
    simp only [List.mem_cons, List.not_mem_nil, or_false] at hw
    rcases hw with rfl | rfl | rfl <;> cases k <;> decide
  refine ⟨?_, hname word h⟩
  simp only [List.mem_cons, List.not_mem_nil, or_false] at h
  rcases h with rfl | rfl | rfl <;> exact ⟨_, _, rfl, rfl, List.all_eq_true.mp rfl⟩

/-- What is behind a word of the shell may be moved up to one space from it. -/
theorem pieces_behind_command {word : String} (hword : word ∈ ["help", "EOF", "exit"])
    {rest : List Char} (hstops : Stops isNameChar rest) (hnewline : '\n' ∉ rest) :
    PiecesAlike (pieces (word.toList ++ ' ' :: rest.dropWhile Text.isWhite))
      (pieces (word.toList ++ rest)) := by
  have hform := isWord_command hword
  have hspaced : pieces (word.toList ++ ' ' :: rest.dropWhile Text.isWhite) =
      .lexeme (.identifier word) :: .blank ' ' :: pieces (rest.dropWhile Text.isWhite) := by
    have hfits : (Piece.lexeme (.identifier word)).Fits (' ' :: rest.dropWhile Text.isWhite) :=
      ⟨hform, stops_cons.mpr rfl⟩
    have hspace : (Piece.blank ' ').Fits (rest.dropWhile Text.isWhite) := .inl rfl
    exact (pieces_cons hfits).trans (congrArg _ (pieces_cons hspace))
  have htyped : pieces (word.toList ++ rest) = .lexeme (.identifier word) :: pieces rest :=
    pieces_cons (p := .lexeme (.identifier word)) ⟨hform, hstops⟩
  have hblank : (Piece.blank ' ').IsAside := ⟨rfl, rfl, rfl⟩
  rw [hspaced, htyped]
  exact ((hblank.alike _).symm.trans (pieces_dropWhile_white hnewline)).cons _

/-- What is taken for a line of a program has the pieces of the line, if this does not
    consist of a word of the shell. -/
theorem pieces_ofWords {cs : List Char} (hend : Text.dropTrailing cs = cs) (hnewline : '\n' ∉ cs)
    (hcommand : String.ofList cs ∉ ["help", "EOF", "exit"]) :
    ∃ text, Request.ofWords cs = .source text ∧
      PiecesAlike (pieces text.toList) (pieces cs) := by
  have hsplit : cs.takeWhile isNameChar ++ cs.dropWhile isNameChar = cs :=
    List.takeWhile_append_dropWhile
  have hstops : Stops isNameChar (cs.dropWhile isNameChar) := stops_dropWhile isNameChar cs
  unfold Request.ofWords splitWord
  dsimp only
  generalize cs.takeWhile isNameChar = word at hsplit ⊢
  generalize cs.dropWhile isNameChar = rest at hsplit hstops ⊢
  subst hsplit
  cases hrequest : command? (String.ofList word) with
  | none => exact ⟨_, rfl, by rw [String.toList_ofList]; exact .refl _⟩
  | some request =>
    have hword := (command?_eq_some hrequest).1
    have hne : rest ≠ [] := by
      rintro rfl
      rw [List.append_nil] at hcommand
      exact hcommand hword
    have hargument : Text.strip (String.ofList rest) ≠ "" :=
      fun hnil => hne (Text.eq_nil_of_strip_eq_nil hend hnil)
    have hstrip : (Text.strip (String.ofList rest)).toList = rest.dropWhile Text.isWhite := by
      have hrest := Text.dropTrailing_of_append hend
      have hend' := List.takeWhile_append_dropWhile (p := Text.isWhite) (l := rest)
      rw [← hend'] at hrest
      unfold Text.strip
      rw [String.toList_ofList, String.toList_ofList, Text.dropTrailing_of_append hrest]
    refine ⟨_, if_neg (by simpa using hargument), ?_⟩
    have hpieces := pieces_behind_command hword hstops
      (fun hmem => hnewline (List.mem_append_right _ hmem))
    rw [String.toList_ofList] at hpieces
    simpa [hstrip] using hpieces

/-- A line that is neither blank nor a bare command and does not begin with a question mark
    is a line of a program, with the pieces that it has without the white space around it. -/
theorem pieces_ofLine {line : String} (hnewline : '\n' ∉ (Text.strip line).toList)
    (hquestion : (Text.strip line).toList.head? ≠ some '?')
    (hcommand : Text.strip line ∉ ["", "help", "EOF", "exit"]) :
    ∃ text, Request.ofLine line = .source text ∧
      PiecesAlike (pieces text.toList) (pieces (Text.strip line).toList) := by
  obtain ⟨hne, hwords⟩ := not_or.mp (mt List.mem_cons.mpr hcommand)
  unfold Request.ofLine
  split
  · next hnil => exact absurd (String.toList_eq_nil_iff.mp hnil) hne
  · next rest hmark =>
    rw [hmark] at hquestion
    exact absurd rfl hquestion
  · next rest hmark =>
    rw [hmark]
    exact ⟨_, rfl, by rw [String.toList_ofList]; exact .refl _⟩
  · refine pieces_ofWords (Text.dropTrailing_strip line) hnewline ?_
    rwa [String.ofList_toList]

/-! ### Entries -/

section Entries

variable {s t : String}

theorem PiecesAlike.scan_tokens (h : PiecesAlike (pieces s.toList) (pieces t.toList)) (line : Int) :
    (scan s line).tokens = (scan t line).tokens := by
  unfold scan
  exact h.tokens line

/-- Either both of two texts need another line, or none of them. -/
theorem PiecesAlike.isIncomplete (h : PiecesAlike (pieces s.toList) (pieces t.toList)) :
    Session.isIncomplete s = Session.isIncomplete t := by
  unfold Session.isIncomplete scan
  dsimp only
  rw [any_open_issuesFrom, any_open_issuesFrom, h.leftOpen, h.tokens]

end Entries

namespace Shell

/-- What a line makes up together with what is pending, as both were typed; the white space
    around the line does not count. -/
def typed (sh : Shell) (line : String) : String :=
  if sh.pending.isEmpty then Text.strip line else sh.pending ++ "\n" ++ Text.strip line

/-- The entry that a line is added to has the tokens of the text as it was typed, if no
    string or comment is pending, and it needs another line just if this text does.  The
    line is neither blank nor a bare command, and it does not begin with a question mark. -/
theorem typed_line_keeps_its_tokens (sh : Shell) (line : String)
    (hpending : ∀ issue ∈ (scan sh.pending 1).issues, issue.1.isUnterminated = false)
    (hnewline : '\n' ∉ (Text.strip line).toList)
    (hquestion : (Text.strip line).toList.head? ≠ some '?')
    (hcommand : Text.strip line ∉ ["", "help", "EOF", "exit"]) :
    ∃ text, Request.ofLine line = .source text ∧ sh.feed line = sh.source text ∧
      (∀ number, (scan (Session.extendEntry text sh.pending).1 number).tokens =
        (scan (sh.typed line) number).tokens) ∧
      (Session.extendEntry text sh.pending).2 = (Session.extendEntry (sh.typed line) "").2 := by
  obtain ⟨text, htext, halike⟩ := pieces_ofLine hnewline hquestion hcommand
  have hne : Text.strip line ≠ "" := fun hnil => hcommand (hnil ▸ List.mem_cons_self)
  have hend := Text.dropTrailing_strip line
  obtain ⟨hne', hend'⟩ := (typedAs_of_ofLine htext).ends hend
  have htyped : (Session.extendEntry (Text.strip line) sh.pending).1 = sh.typed line :=
    extendEntry_fst hne hend sh.pending
  have hentry : PiecesAlike (pieces (Session.extendEntry text sh.pending).1.toList)
      (pieces (sh.typed line).toList) := by
    rw [extendEntry_fst hne' hend']
    unfold typed
    split
    · exact halike
    · have hclosed := allClosed_of_scan hpending
      rw [pieces_join _ hclosed, pieces_join _ hclosed]
      exact (halike.cons .newline).behind _
  refine ⟨text, htext, feed_source htext, hentry.scan_tokens, ?_⟩
  have hsame : Session.extendEntry (sh.typed line) "" =
      Session.extendEntry (Text.strip line) sh.pending := by
    unfold Session.extendEntry typed
    rw [if_pos (by decide)]
  rw [hsame, extendEntry_snd, extendEntry_snd, htyped, hentry.isIncomplete]

/-- A word of the shell, a tab, a name and a comment behind an open bracket. -/
theorem exit_as_name_keeps_its_tokens :
    let sh := { startShell .idle false (.ofCalls 1000) ⟨20, 20⟩ with pending := "print (" }
    Request.ofLine " exit\t.size // 'x " = .source "exit .size // 'x" ∧
      (scan (Session.extendEntry "exit .size // 'x" sh.pending).1 4).tokens =
        (scan "print (\nexit\t.size // 'x" 4).tokens ∧
      (Session.extendEntry "exit .size // 'x" sh.pending).2 = true := by
  intro sh
  obtain ⟨text, htext, -, htokens, hmore⟩ :=
    typed_line_keeps_its_tokens sh " exit\t.size // 'x " (by decide +kernel)
      (by decide +kernel) (by decide +kernel) (by decide +kernel)
  have hsource : Request.ofLine " exit\t.size // 'x " = .source "exit .size // 'x" := by
    decide +kernel
  obtain rfl : text = "exit .size // 'x" := by
    rw [hsource] at htext
    exact (Request.source.inj htext).symm
  have htyped : sh.typed " exit\t.size // 'x " = "print (\nexit\t.size // 'x" := by
    decide +kernel
  rw [htyped] at htokens hmore
  exact ⟨hsource, htokens 4, hmore.trans (by decide +kernel)⟩

end Shell

end Treewalk
