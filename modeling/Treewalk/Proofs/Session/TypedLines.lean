import Treewalk.Proofs.Grammar.Balance
import Treewalk.Proofs.Session.Lines
import Treewalk.Proofs.Token.LineEnds

/-! # Entries that are typed line by line

    An entry grows by one line at a time, and each time the white space at its end is
    dropped.  The entry that comes out in the end is the text of all lines without the
    white space at the end of each of them, and without blank lines.  So its tokens are
    those of the text that was typed, and only string literals that go on over the end of
    a line can tell the difference. -/

namespace Treewalk

/-! ### Trimmed texts -/

theorem Lexeme.trimmed_eq_self {l : Lexeme} (h : ∀ quote content, l = .string quote content →
    ∀ front c back, content.toList = front ++ c :: '\n' :: back → Text.isWhite c = false) :
    l.trimmed = l := by
  cases l with
  | string quote content =>
    show Lexeme.string quote (String.ofList (Text.dropBeforeBreaks content.toList)) = _
    rw [Text.dropBeforeBreaks_eq_self (h quote content rfl), String.ofList_toList]
  | _ => rfl

/-- Only string literals change when lines are trimmed, and these are no brackets. -/
theorem bracket_trimmed (l : Lexeme) (line : Int) :
    Token.bracket ⟨l.trimmed, line⟩ = Token.bracket ⟨l, line⟩ := by
  cases l <;> rfl

namespace Session

/-- The number of open brackets depends on the lexemes alone. -/
theorem openBrackets_eq_lexemes (tokens : List Token) : openBrackets tokens =
    ((tokens.map (·.lexeme)).map fun l => Token.bracket ⟨l, 0⟩).sum := by
  rw [openBrackets_eq, List.map_map]
  rfl

/-- Whether another line is needed does not depend on white space at the ends of lines. -/
theorem isIncomplete_trimLines (entry : String) :
    isIncomplete (String.ofList (Text.trimLines entry.toList)) = isIncomplete entry := by
  obtain ⟨hlexemes, hopen⟩ := scan_trimLines entry 1 1
  have hbrackets : openBrackets (scan (String.ofList (Text.trimLines entry.toList)) 1).tokens =
      openBrackets (scan entry 1).tokens := by
    rw [openBrackets_eq_lexemes, hlexemes, openBrackets_eq_lexemes, List.map_map, List.map_map]
    exact congrArg List.sum (List.map_congr_left fun t _ => bracket_trimmed t.lexeme 0)
  unfold isIncomplete
  dsimp only
  rw [hopen, hbrackets]

/-! ### Line by line -/

/-- The entry that lines make up, each added to what the lines before it gave, and whether
    it needs another line. -/
def entered (lines : List String) : String × Bool :=
  lines.foldl (fun entry line => extendEntry line entry.1) ("", false)

@[simp] theorem entered_nil : entered [] = ("", false) := rfl

theorem entered_concat (lines : List String) (line : String) :
    entered (lines ++ [line]) = extendEntry line (entered lines).1 := by
  simp [entered]

/-- Each of the lines but the last leaves an entry that needs another line. -/
def AsksForMore (lines : List String) : Prop :=
  ∀ n < lines.length, 0 < n → (entered (lines.take n)).2 = true

instance (lines : List String) : Decidable (AsksForMore lines) :=
  inferInstanceAs (Decidable (∀ n < lines.length, 0 < n → (entered (lines.take n)).2 = true))

theorem AsksForMore.front {lines : List String} {line : String}
    (h : AsksForMore (lines ++ [line])) : AsksForMore lines := by
  intro n hn hpos
  have hlonger : n < (lines ++ [line]).length := by
    rw [List.length_append]
    omega
  have hentered := h n hlonger hpos
  rwa [List.take_append_of_le_length hn.le] at hentered

theorem AsksForMore.entered_front {lines : List String} {line : String}
    (h : AsksForMore (lines ++ [line])) (hne : lines ≠ []) : (entered lines).2 = true := by
  have hentered := h lines.length (by simp) (List.length_pos_iff.mpr hne)
  rwa [List.take_left] at hentered

/-- An entry that needs another line is not empty. -/
theorem entered_ne_empty {lines : List String} (h : (entered lines).2 = true) :
    (entered lines).1 ≠ "" := by
  induction lines using List.reverseRecOn with
  | nil => cases h
  | append_singleton lines line _ =>
    rw [entered_concat] at h ⊢
    exact (Shell.extendEntry_incomplete h).1

/-- The entry is the text of all lines, trimmed. -/
theorem entered_fst {lines : List String} (hlines : ∀ l ∈ lines, '\n' ∉ l.toList)
    (hmore : AsksForMore lines) :
    (entered lines).1 = String.ofList (Text.trimLines ("\n".intercalate lines).toList) := by
  induction lines using List.reverseRecOn with
  | nil => rfl
  | append_singleton lines line ih =>
    obtain ⟨hfront, hline⟩ := List.forall_mem_append.mp hlines
    have hline : '\n' ∉ line.toList := hline line List.mem_cons_self
    rw [entered_concat]
    by_cases hnil : lines = []
    · subst hnil
      have htrim := Text.foldr_putBeforeEnd_of_line hline (.inl rfl)
      rw [List.append_nil] at htrim
      rw [List.nil_append, String.intercalate_singleton]
      exact congrArg String.ofList htrim.symm
    · have hentry := entered_ne_empty (hmore.entered_front hnil)
      have hpending : (entered lines).1.isEmpty = false := by simpa using hentry
      have htyped : ("\n".intercalate (lines ++ [line])).toList =
          ("\n".intercalate lines).toList ++ '\n' :: line.toList := by
        rw [String.intercalate_append_of_ne_nil hnil (List.cons_ne_nil _ _),
          String.intercalate_singleton, String.toList_append, String.toList_append,
          List.append_assoc]
        rfl
      rw [htyped, Text.trimLines_newline hline]
      unfold extendEntry Text.stripRight
      dsimp only
      rw [hpending, ih hfront hmore.front]
      simp

theorem entered_snd {lines : List String} (hne : lines ≠ []) :
    (entered lines).2 = isIncomplete (entered lines).1 := by
  obtain ⟨front, line, rfl⟩ := (List.eq_nil_or_concat lines).resolve_left hne
  rw [List.concat_eq_append, entered_concat, extendEntry_snd]

/-- Lines that are typed one by one give the tokens of the text that they make up: those
    of the same kinds in the same order, and the same ones but for white space before line
    breaks in string literals.  The last line asks for more just if the text does. -/
theorem typed_lines_have_tokens_of_text {lines : List String} (hne : lines ≠ [])
    (hlines : ∀ l ∈ lines, '\n' ∉ l.toList) (hmore : AsksForMore lines) (number : Int) :
    (scan (entered lines).1 number).tokens.map (·.lexeme) =
        (scan ("\n".intercalate lines) number).tokens.map (·.lexeme.trimmed) ∧
      ((∀ t ∈ (scan ("\n".intercalate lines) number).tokens, ∀ quote content,
          t.lexeme = .string quote content → ∀ front c back,
            content.toList = front ++ c :: '\n' :: back → Text.isWhite c = false) →
        (scan (entered lines).1 number).tokens.map (·.lexeme) =
          (scan ("\n".intercalate lines) number).tokens.map (·.lexeme)) ∧
      (entered lines).2 = (extendEntry ("\n".intercalate lines) "").2 := by
  have hentry := entered_fst hlines hmore
  have htokens : (scan (entered lines).1 number).tokens.map (·.lexeme) =
      (scan ("\n".intercalate lines) number).tokens.map (·.lexeme.trimmed) := by
    rw [hentry]
    exact (scan_trimLines _ number number).1
  refine ⟨htokens, fun hstrings => htokens.trans ?_, ?_⟩
  · exact List.map_congr_left fun t ht => Lexeme.trimmed_eq_self (hstrings t ht)
  · have htyped : (extendEntry ("\n".intercalate lines) "").1 =
        Text.stripRight ("\n".intercalate lines) := rfl
    rw [entered_snd hne, extendEntry_snd, htyped, hentry, isIncomplete_trimLines,
      ← isIncomplete_trimLines (Text.stripRight ("\n".intercalate lines)), Text.stripRight,
      String.toList_ofList, Text.trimLines_dropTrailing, isIncomplete_trimLines]

/-- A function with a comment, a blank line and blanks at the ends of lines, and a string
    on two of them. -/
theorem typed_function_has_tokens_of_text :
    AsksForMore ["fun f(a) \x7b // f ", " ", "print \"a", " b\"; ", "\x7d "] ∧
      (scan (entered ["fun f(a) \x7b // f ", " ", "print \"a", " b\"; ", "\x7d "]).1 3).tokens.map
          (·.lexeme) =
        (scan "fun f(a) \x7b // f \n \nprint \"a\n b\"; \n\x7d " 3).tokens.map (·.lexeme) ∧
      (entered ["fun f(a) \x7b // f ", " ", "print \"a", " b\"; ", "\x7d "]).2 = false := by
  have hmore : AsksForMore ["fun f(a) \x7b // f ", " ", "print \"a", " b\"; ", "\x7d "] := by
    decide +kernel
  have htokens : (scan "fun f(a) \x7b // f \n \nprint \"a\n b\"; \n\x7d " 3).tokens.map
      (·.lexeme.trimmed) =
        (scan "fun f(a) \x7b // f \n \nprint \"a\n b\"; \n\x7d " 3).tokens.map (·.lexeme) := by
    decide +kernel
  obtain ⟨hentered, -, hflag⟩ :=
    typed_lines_have_tokens_of_text (List.cons_ne_nil _ _) (by decide +kernel) hmore 3
  exact ⟨hmore, hentered.trans htokens, hflag.trans (by decide +kernel)⟩

/-- White space at the end of a line is lost in a string literal that goes on. -/
theorem typed_string_loses_blank :
    AsksForMore ["\"a ", "b\""] ∧ (∀ l ∈ ["\"a ", "b\""], '\n' ∉ l.toList) ∧
      (scan (entered ["\"a ", "b\""]).1 1).tokens.map (·.lexeme) = [.string .double "a\nb"] ∧
      (scan ("\n".intercalate ["\"a ", "b\""]) 1).tokens.map (·.lexeme) =
        [.string .double "a \nb"] := by
  decide +kernel

end Session

end Treewalk
