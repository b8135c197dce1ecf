import Treewalk.Token.Scan

/-! # Splitting a text

    `Splits` says what it means to cut a text into pieces, without a procedure:
    the texts of the pieces make up the text, every piece has the form of its
    kind, and none could be longer.  Every text splits in exactly one way, which
    is the one that scanning finds. -/

namespace Treewalk

/-! ### Forms of pieces -/

/-- The text does not go on with a character of the class. -/
def Stops (p : Char → Bool) (rest : List Char) : Prop := ∀ c, rest.head? = some c → p c = false

/-- One or more digits. -/
def IsDigits (s : String) : Prop := s.toList ≠ [] ∧ ∀ c ∈ s.toList, isDigit c = true

/-- A letter or underscore, and then letters, digits and underscores. -/
def IsWord (s : String) : Prop :=
  ∃ c cs, s.toList = c :: cs ∧ isNameStart c = true ∧ ∀ x ∈ cs, isNameChar x = true

/-- The mark that closes a block comment does not occur in the text. -/
def Unclosed (text : List Char) : Prop := ¬ ['*', '/'] <:+: text

/-- The characters that lexemes, comments, blanks and newlines start with. -/
def StartsPiece (c : Char) : Prop :=
  c ∈ [' ', '\t', '\r', '\n', '(', ')', '\x7b', '\x7d', ',', '.', '-', '+', ';', '*', '!', '=', '<',
    '>', '/', '"', '\''] ∨ isDigit c = true ∨ isNameStart c = true

namespace Lexeme

/-- The text of the lexeme has the form of its kind; a name is no keyword. -/
def HasForm : Lexeme → Prop
  | .symbol _ | .keyword _ => True
  | .identifier name => IsWord name ∧ ∀ k : Keyword, name ≠ k.text
  | .string quote content => quote.char ∉ content.toList
  | .number whole none => IsDigits whole
  | .number whole (some fraction) => IsDigits whole ∧ IsDigits fraction

/-- Nothing that follows could belong to the lexeme. -/
def EndsBefore : Lexeme → List Char → Prop
  | .keyword _, rest | .identifier _, rest => Stops isNameChar rest
  | .number _ none, rest =>
    Stops isDigit rest ∧ ∀ after, rest = '.' :: after → Stops isDigit after
  | .number _ (some _), rest => Stops isDigit rest
  | .symbol .bang, rest | .symbol .equal, rest | .symbol .less, rest | .symbol .greater, rest =>
    Stops (· == '=') rest
  | .symbol .slash, rest => Stops (fun c => c == '/' || c == '*') rest
  | .symbol _, _ | .string _ _, _ => True

end Lexeme

/-- The piece can stand before the rest of the text: it has the form of its kind,
    and it could not be longer. -/
def Piece.Fits : Piece → List Char → Prop
  | .lexeme l, rest => l.HasForm ∧ l.EndsBefore rest
  | .blank c, _ => c = ' ' ∨ c = '\t' ∨ c = '\r'
  | .newline, _ => True
  | .lineComment body, rest => '\n' ∉ body ∧ Stops (· != '\n') rest
  | .blockComment body, _ => Unclosed (body ++ ['*'])
  | .stray c, _ => ¬ StartsPiece c
  | .openString quote body, rest => quote.char ∉ body ∧ rest = []
  | .openComment body, rest => Unclosed body ∧ rest = []

/-- The pieces make up the text, and each can stand before those that follow it. -/
inductive Splits : List Char → List Piece → Prop
  | nil : Splits [] []
  | cons {p : Piece} {rest : List Char} {ps : List Piece} :
      p.Fits rest → Splits rest ps → Splits (p.text ++ rest) (p :: ps)

/-! ### Runs of a class -/

section Runs

variable {p : Char → Bool} {body rest : List Char}

theorem stops_nil : Stops p [] := nofun

theorem stops_cons {c : Char} : Stops p (c :: rest) ↔ p c = false := by
  simp [Stops]

theorem stops_dropWhile (p : Char → Bool) (text : List Char) : Stops p (text.dropWhile p) := by
  intro c hc
  have hnot := List.head?_dropWhile_not p text
  rw [hc] at hnot
  exact hnot

theorem mem_takeWhile {c : Char} {text : List Char} (h : c ∈ text.takeWhile p) : p c = true :=
  List.all_eq_true.mp List.all_takeWhile c h

/-- A run that could not be longer is what the search takes. -/
theorem takeWhile_run (hbody : ∀ c ∈ body, p c = true) (hrest : Stops p rest) :
    (body ++ rest).takeWhile p = body := by
  rw [List.takeWhile_append_of_pos hbody]
  cases rest with
  | nil => simp
  | cons c rest => simp [stops_cons.mp hrest]

theorem dropWhile_run (hbody : ∀ c ∈ body, p c = true) (hrest : Stops p rest) :
    (body ++ rest).dropWhile p = rest := by
  rw [List.dropWhile_append_of_pos hbody]
  cases rest with
  | nil => rfl
  | cons c rest => simp [stops_cons.mp hrest]

end Runs

/-! ### Block comments -/

theorem unclosed_nil : Unclosed [] := by
  simp [Unclosed]

theorem unclosed_cons {c : Char} {text : List Char} :
    Unclosed (c :: text) ↔ ¬ (c = '*' ∧ text.head? = some '/') ∧ Unclosed text := by
  have hhead : ['*', '/'] <+: c :: text ↔ c = '*' ∧ text.head? = some '/' := by
    cases text with
    | nil => simp
    | cons d text => simp [List.cons_prefix_cons, eq_comm]
  unfold Unclosed
  rw [List.infix_cons_iff, hhead, not_or]

/-- Up to the star of the closing mark, the text goes on as with the whole mark. -/
theorem head?_closed (body after : List Char) :
    (body ++ '*' :: '/' :: after).head? = (body ++ ['*']).head? := by
  cases body <;> rfl

/-- A block comment ends at the first closing mark. -/
theorem splitBlock_eq_some {text body after : List Char} :
    Piece.splitBlock text = some (body, after) ↔
      text = body ++ '*' :: '/' :: after ∧ Unclosed (body ++ ['*']) := by
  fun_induction Piece.splitBlock text generalizing body with
  | case1 => simp
  | case2 rest =>
    constructor
    · rintro ⟨⟩
      exact ⟨rfl, unclosed_cons.mpr ⟨by simp, unclosed_nil⟩⟩
    · rintro ⟨htext, hopen⟩
      cases body with
      | nil =>
        cases htext
        rfl
      | cons c body =>
        -- a longer body would hold the mark that the text begins with
        rw [List.cons_append, List.cons.injEq] at htext
        obtain ⟨hc, hrest⟩ := htext
        have hhead := head?_closed body after
        rw [← hrest] at hhead
        exact absurd ⟨hc.symm, hhead.symm⟩ (unclosed_cons.mp hopen).1
  | case3 c rest hne ih =>
    have hstart : ¬ (c = '*' ∧ rest.head? = some '/') := by
      rintro ⟨hc, hrest⟩
      obtain ⟨tail, htail⟩ := List.head?_eq_some_iff.mp hrest
      exact hne tail hc htail
    constructor
    · intro h
      obtain ⟨⟨body', after'⟩, hsplit, heq⟩ := Option.map_eq_some_iff.mp h
      cases heq
      obtain ⟨hrest, hopen⟩ := ih.mp hsplit
      rw [List.cons_append, List.cons_append, ← hrest, unclosed_cons, ← head?_closed body' after,
        ← hrest]
      exact ⟨rfl, hstart, hopen⟩
    · rintro ⟨htext, hopen⟩
      cases body with
      | nil =>
        cases htext
        exact absurd ⟨rfl, rfl⟩ hstart
      | cons c' body =>
        rw [List.cons_append, List.cons.injEq] at htext
        obtain ⟨rfl, hrest⟩ := htext
        rw [ih.mpr ⟨hrest, (unclosed_cons.mp hopen).2⟩]
        rfl

theorem splitBlock_eq_none {text : List Char} :
    Piece.splitBlock text = none ↔ Unclosed text := by
  fun_induction Piece.splitBlock text with
  | case1 => simp [Unclosed]
  | case2 rest => simp [unclosed_cons]
  | case3 c rest hne ih =>
    rw [Option.map_eq_none_iff, ih, unclosed_cons]
    refine ⟨fun hopen => ⟨?_, hopen⟩, And.right⟩
    rintro ⟨hc, hrest⟩
    obtain ⟨tail, htail⟩ := List.head?_eq_some_iff.mp hrest
    exact hne tail hc htail

/-! ### What is found is a piece -/

/-- The piece and the rest make up the text, and the piece fits before the rest. -/
def Cuts (text : List Char) (found : Piece × List Char) : Prop :=
  found.1.text ++ found.2 = text ∧ found.1.Fits found.2

theorem cuts_afterSlash (rest : List Char) : Cuts ('/' :: rest) (Piece.afterSlash rest) := by
  unfold Piece.afterSlash
  split
  · next rest =>
    refine ⟨?_, ?_, stops_dropWhile _ rest⟩
    · show '/' :: '/' :: (rest.takeWhile (· != '\n') ++ rest.dropWhile (· != '\n')) = _
      rw [List.takeWhile_append_dropWhile]
    · intro hmem
      simpa using mem_takeWhile hmem
  · next rest =>
    cases hsplit : Piece.splitBlock rest with
    | none => exact ⟨by simp [Piece.text], splitBlock_eq_none.mp hsplit, rfl⟩
    | some found =>
      obtain ⟨body, after⟩ := found
      obtain ⟨hrest, hopen⟩ := splitBlock_eq_some.mp hsplit
      exact ⟨by simp [Piece.text, hrest], hopen⟩
  · next hline hblock =>
    refine ⟨rfl, trivial, ?_⟩
    intro c hc
    obtain ⟨tail, rfl⟩ := List.head?_eq_some_iff.mp hc
    have hslash : c ≠ '/' := fun h => hline tail (by rw [h])
    have hstar : c ≠ '*' := fun h => hblock tail (by rw [h])
    simp [hslash, hstar]

theorem cuts_afterQuote (quote : Quote) (rest : List Char) :
    Cuts (quote.char :: rest) (Piece.afterQuote quote rest) := by
  have hrest := List.takeWhile_append_dropWhile (p := (· != quote.char)) (l := rest)
  have hbody : quote.char ∉ rest.takeWhile (· != quote.char) := by
    intro hmem
    simpa using mem_takeWhile hmem
  unfold Piece.afterQuote
  dsimp only
  split
  · next hnone =>
    -- the search for the closing mark came to the end of the text
    rw [hnone, List.append_nil] at hrest
    rw [hrest] at hbody
    exact ⟨by simp [Piece.text], hbody, rfl⟩
  · next c after hsome =>
    have hstops := stops_dropWhile (· != quote.char) rest
    rw [hsome, stops_cons] at hstops
    have hc : c = quote.char := by simpa using hstops
    subst hc
    rw [hsome] at hrest
    refine ⟨?_, ?_, trivial⟩
    · simp [Piece.text, Lexeme.text, hrest]
    · show quote.char ∉ (String.ofList _).toList
      rw [String.toList_ofList]
      exact hbody

theorem isDigits_run {d : Char} {rest : List Char} (hd : isDigit d = true) :
    IsDigits (String.ofList (d :: rest.takeWhile isDigit)) := by
  refine ⟨by simp, ?_⟩
  intro c hc
  rw [String.toList_ofList] at hc
  rcases List.mem_cons.mp hc with rfl | hc
  · exact hd
  · exact mem_takeWhile hc

theorem cuts_number {d : Char} (hd : isDigit d = true) (rest : List Char) :
    Cuts (d :: rest) (Piece.number d rest) := by
  have hrest := List.takeWhile_append_dropWhile (p := isDigit) (l := rest)
  have hstops := stops_dropWhile isDigit rest
  unfold Piece.number
  dsimp only
  split
  · next e after hpoint =>
    rw [hpoint] at hrest hstops
    split
    · next he =>
      refine ⟨?_, ⟨isDigits_run hd, isDigits_run he⟩, stops_dropWhile isDigit after⟩
      simp [Piece.text, Lexeme.text, hrest]
    · next he =>
      refine ⟨?_, isDigits_run hd, hstops, ?_⟩
      · simp [Piece.text, Lexeme.text, hrest]
      · rintro _ ⟨⟩
        exact stops_cons.mpr (by simpa using he)
  · next hpoint =>
    refine ⟨?_, isDigits_run hd, hstops, ?_⟩
    · simp [Piece.text, Lexeme.text]
    · -- a digit behind the point would have made it part of the number
      intro after hafter c hc
      obtain ⟨tail, rfl⟩ := List.head?_eq_some_iff.mp hc
      exact absurd hafter (hpoint c tail)

theorem wordLexeme_keyword (k : Keyword) : Piece.wordLexeme k.text = .keyword k := by
  cases k <;> rfl

theorem wordLexeme_name {word : String} (h : ∀ k : Keyword, word ≠ k.text) :
    Piece.wordLexeme word = .identifier word := by
  have hnone : Keyword.ofText? word = none := by
    rw [Keyword.ofText?, List.find?_eq_none]
    intro k _ hk
    exact h k (beq_iff_eq.mp hk).symm
  rw [Piece.wordLexeme, hnone]

/-- A word is the keyword it is written like, or else a name. -/
theorem wordLexeme_cases (word : String) :
    (∃ k : Keyword, word = k.text) ∨ ∀ k : Keyword, word ≠ k.text := by
  by_cases h : ∃ k : Keyword, word = k.text
  · exact .inl h
  · exact .inr fun k hk => h ⟨k, hk⟩

theorem cuts_word {c : Char} (hc : isNameStart c = true) (rest : List Char) :
    Cuts (c :: rest) (Piece.word c rest) := by
  have hrest := List.takeWhile_append_dropWhile (p := isNameChar) (l := rest)
  have hstops := stops_dropWhile isNameChar rest
  have hword : IsWord (String.ofList (c :: rest.takeWhile isNameChar)) :=
    ⟨c, _, String.toList_ofList, hc, fun x hx => mem_takeWhile hx⟩
  have htext : (String.ofList (c :: rest.takeWhile isNameChar)).toList ++ rest.dropWhile isNameChar
      = c :: rest := by
    rw [String.toList_ofList, List.cons_append, hrest]
  unfold Piece.word
  generalize String.ofList (c :: rest.takeWhile isNameChar) = word at hword htext ⊢
  rcases wordLexeme_cases word with ⟨k, rfl⟩ | hname
  · rw [wordLexeme_keyword]
    exact ⟨htext, trivial, hstops⟩
  · rw [wordLexeme_name hname]
    exact ⟨htext, ⟨hword, hname⟩, hstops⟩

theorem text_singleSymbol {c : Char} {s : Symbol} (h : Piece.singleSymbol? c = some s) :
    s.text.toList = [c] ∧ ∀ rest, (Lexeme.symbol s).EndsBefore rest := by
  unfold Piece.singleSymbol? at h
  split at h <;> cases h <;> exact ⟨rfl, fun _ => trivial⟩

theorem text_doubleSymbol {c : Char} {alone withEqual : Symbol}
    (h : Piece.doubleSymbol? c = some (alone, withEqual)) :
    (alone.text.toList = [c] ∧
        ∀ rest, (Lexeme.symbol alone).EndsBefore rest ↔ Stops (· == '=') rest) ∧
      withEqual.text.toList = [c, '='] ∧ ∀ rest, (Lexeme.symbol withEqual).EndsBefore rest := by
  unfold Piece.doubleSymbol? at h
  split at h <;> cases h <;> exact ⟨⟨rfl, fun _ => Iff.rfl⟩, rfl, fun _ => trivial⟩

theorem char_quote {c : Char} {q : Quote} (h : Piece.quote? c = some q) : q.char = c := by
  unfold Piece.quote? at h
  split at h <;> cases h <;> rfl

/-- The characters that pieces start with are those that the search knows. -/
theorem startsPiece_iff (c : Char) : StartsPiece c ↔
    (Piece.singleSymbol? c).isSome ∨ (Piece.doubleSymbol? c).isSome ∨ (Piece.quote? c).isSome ∨
      c = '/' ∨ isBlank c = true ∨ c = '\n' ∨ isDigit c = true ∨ isNameStart c = true := by
  constructor
  · rintro (hmem | hdigit | hname)
    · simp only [List.mem_cons, List.not_mem_nil, or_false] at hmem
      rcases hmem with rfl | rfl | rfl | rfl | rfl | rfl | rfl | rfl | rfl | rfl | rfl | rfl | rfl |
        rfl | rfl | rfl | rfl | rfl | rfl | rfl | rfl <;> decide
    · simp [hdigit]
    · simp [hname]
  · rintro (h | h | h | rfl | h | rfl | hdigit | hname)
    · unfold Piece.singleSymbol? at h
      split at h <;> first | exact .inl (by decide) | cases h
    · unfold Piece.doubleSymbol? at h
      split at h <;> first | exact .inl (by decide) | cases h
    · unfold Piece.quote? at h
      split at h <;> first | exact .inl (by decide) | cases h
    · exact .inl (by decide)
    · simp only [isBlank, Bool.or_eq_true, beq_iff_eq] at h
      rcases h with (rfl | rfl) | rfl <;> exact .inl (by decide)
    · exact .inl (by decide)
    · exact .inr (.inl hdigit)
    · exact .inr (.inr hname)

/-- The next piece is a piece, and nothing of the text is lost. -/
theorem cuts_next (c : Char) (rest : List Char) : Cuts (c :: rest) (Piece.next c rest) := by
  unfold Piece.next
  cases hsingle : Piece.singleSymbol? c with
  | some s =>
    obtain ⟨htext, hends⟩ := text_singleSymbol hsingle
    exact ⟨by simp [Piece.text, Lexeme.text, htext], trivial, hends rest⟩
  | none =>
  cases hdouble : Piece.doubleSymbol? c with
  | some symbols =>
    obtain ⟨alone, withEqual⟩ := symbols
    obtain ⟨⟨halone, hends⟩, hboth, hends'⟩ := text_doubleSymbol hdouble
    dsimp only
    split
    · next after => exact ⟨by simp [Piece.text, Lexeme.text, hboth], trivial, hends' after⟩
    · next hnot =>
      refine ⟨by simp [Piece.text, Lexeme.text, halone], trivial, (hends rest).mpr ?_⟩
      intro d hd
      obtain ⟨tail, rfl⟩ := List.head?_eq_some_iff.mp hd
      have hne : d ≠ '=' := fun h => hnot tail (by rw [h])
      simpa using hne
  | none =>
  cases hquote : Piece.quote? c with
  | some q =>
    rw [← char_quote hquote]
    exact cuts_afterQuote q rest
  | none =>
    dsimp only
    split
    · next hslash =>
      rw [beq_iff_eq.mp hslash]
      exact cuts_afterSlash rest
    · next hslash =>
    split
    · next hblank =>
      refine ⟨rfl, ?_⟩
      simp only [isBlank, Bool.or_eq_true, beq_iff_eq] at hblank
      rcases hblank with (hc | hc) | hc
      · exact .inl hc
      · exact .inr (.inr hc)
      · exact .inr (.inl hc)
    · next hblank =>
    split
    · next hnewline =>
      rw [beq_iff_eq.mp hnewline]
      exact ⟨rfl, trivial⟩
    · next hnewline =>
    split
    · next hdigit => exact cuts_number hdigit rest
    · next hdigit =>
    split
    · next hname => exact cuts_word hname rest
    · next hname =>
      -- no branch knows the character, so it is stray
      refine ⟨rfl, fun hstarts => ?_⟩
      rw [startsPiece_iff, hsingle, hdouble, hquote] at hstarts
      simp_all

/-! ### What is a piece is found -/

theorem singleSymbol?_nameChar {c : Char} (h : isNameChar c = true) :
    Piece.singleSymbol? c = none ∧ Piece.doubleSymbol? c = none ∧ Piece.quote? c = none := by
  refine ⟨?_, ?_, ?_⟩
  · unfold Piece.singleSymbol?
    split <;> first | rfl | cases h
  · unfold Piece.doubleSymbol?
    split <;> first | rfl | cases h
  · unfold Piece.quote?
    split <;> first | rfl | cases h

/-- A character of a name starts a number or a word. -/
theorem next_nameChar {c : Char} (h : isNameChar c = true) (rest : List Char) :
    Piece.next c rest = if isDigit c then Piece.number c rest else Piece.word c rest := by
  obtain ⟨hsingle, hdouble, hquote⟩ := singleSymbol?_nameChar h
  have hother : ∀ d : Char, isNameChar d = false → (c == d) = false := by
    intro d hd
    rw [beq_eq_false_iff_ne]
    rintro rfl
    rw [h] at hd
    cases hd
  have hblank : isBlank c = false := by
    simp only [isBlank, hother ' ' rfl, hother '\r' rfl, hother '\t' rfl, Bool.or_false]
  unfold Piece.next
  rw [hsingle, hdouble, hquote]
  simp only [hother '/' rfl, hblank, hother '\n' rfl, Bool.false_eq_true, if_false]
  cases hdigit : isDigit c with
  | true => rfl
  | false =>
    have hname : isNameStart c = true := by
      rwa [isNameChar, hdigit, Bool.or_false] at h
    simp only [hname, Bool.false_eq_true, if_false, if_true]

theorem isDigit_nameStart {c : Char} (h : isNameStart c = true) : isDigit c = false := by
  rw [Bool.eq_false_iff]
  intro hdigit
  simp only [isNameStart, isDigit, Bool.or_eq_true, Bool.and_eq_true, decide_eq_true_eq, beq_iff_eq,
    Char.le_def, UInt32.le_iff_toNat_le] at h hdigit
  rcases h with (h | h) | rfl
  · have h1 : ('9' : Char).val.toNat < ('a' : Char).val.toNat := by decide
    omega
  · have h1 : ('9' : Char).val.toNat < ('A' : Char).val.toNat := by decide
    omega
  · exact absurd hdigit.2 (by decide)

theorem next_digit {c : Char} (h : isDigit c = true) (rest : List Char) :
    Piece.next c rest = Piece.number c rest := by
  have hchar : isNameChar c = true := by rw [isNameChar, h, Bool.or_true]
  rw [next_nameChar hchar, if_pos h]

theorem next_nameStart {c : Char} (h : isNameStart c = true) (rest : List Char) :
    Piece.next c rest = Piece.word c rest := by
  have hchar : isNameChar c = true := by rw [isNameChar, h, Bool.true_or]
  rw [next_nameChar hchar, isDigit_nameStart h, if_neg Bool.false_ne_true]

/-- The search finds the piece at the front of the text. -/
def Finds (p : Piece) (rest : List Char) : Prop :=
  ∃ c cs, p.text = c :: cs ∧ Piece.next c (cs ++ rest) = (p, rest)

theorem finds_word {l : Lexeme} {rest : List Char} (hword : IsWord l.text)
    (hl : Piece.wordLexeme l.text = l) (hends : Stops isNameChar rest) :
    Finds (.lexeme l) rest := by
  obtain ⟨c, cs, htext, hc, hcs⟩ := hword
  refine ⟨c, cs, htext, ?_⟩
  rw [next_nameStart hc, Piece.word, takeWhile_run hcs hends, dropWhile_run hcs hends, ← htext,
    String.ofList_toList, hl]

theorem isWord_keyword (k : Keyword) : IsWord k.text := by
  cases k <;> exact ⟨_, _, rfl, rfl, List.all_eq_true.mp rfl⟩

theorem next_double {c : Char} {alone withEqual : Symbol} {rest : List Char}
    (hsingle : Piece.singleSymbol? c = none)
    (hdouble : Piece.doubleSymbol? c = some (alone, withEqual)) (h : Stops (· == '=') rest) :
    Piece.next c rest = (.lexeme (.symbol alone), rest) := by
  unfold Piece.next
  rw [hsingle, hdouble]
  dsimp only
  split
  · next after => exact absurd (stops_cons.mp h) (by decide)
  · rfl

theorem next_slash (rest : List Char) : Piece.next '/' rest = Piece.afterSlash rest := rfl

theorem next_quote (quote : Quote) (rest : List Char) :
    Piece.next quote.char rest = Piece.afterQuote quote rest := by
  cases quote <;> rfl

theorem finds_symbol {s : Symbol} {rest : List Char} (h : (Lexeme.symbol s).EndsBefore rest) :
    Finds (.lexeme (.symbol s)) rest := by
  cases s with
  | bang | equal | less | greater => exact ⟨_, [], rfl, next_double rfl rfl h⟩
  | bangEqual | equalEqual | lessEqual | greaterEqual => exact ⟨_, ['='], rfl, rfl⟩
  | slash =>
    refine ⟨'/', [], rfl, ?_⟩
    rw [List.nil_append, next_slash]
    unfold Piece.afterSlash
    split
    · exact absurd (stops_cons.mp h) (by decide)
    · exact absurd (stops_cons.mp h) (by decide)
    · rfl
  | _ => exact ⟨_, [], rfl, rfl⟩

theorem IsDigits.exists_cons {s : String} (h : IsDigits s) :
    ∃ d ds, s.toList = d :: ds ∧ s = String.ofList (d :: ds) ∧ isDigit d = true ∧
      ∀ c ∈ ds, isDigit c = true := by
  obtain ⟨hne, hall⟩ := h
  cases hs : s.toList with
  | nil => exact absurd hs hne
  | cons d ds =>
    rw [hs] at hall
    refine ⟨d, ds, rfl, ?_, hall d List.mem_cons_self, fun c hc => hall c (List.mem_cons_of_mem d hc)⟩
    rw [← hs, String.ofList_toList]

theorem finds_number {whole : String} {fraction : Option String} {rest : List Char}
    (hform : (Lexeme.number whole fraction).HasForm)
    (hends : (Lexeme.number whole fraction).EndsBefore rest) :
    Finds (.lexeme (.number whole fraction)) rest := by
  cases fraction with
  | none =>
    obtain ⟨d, ds, htext, rfl, hd, hds⟩ := hform.exists_cons
    obtain ⟨hstops, hpoint⟩ := hends
    refine ⟨d, ds, htext, ?_⟩
    rw [next_digit hd, Piece.number, takeWhile_run hds hstops, dropWhile_run hds hstops]
    split
    · next e after =>
      -- what stands behind the point is no digit
      rw [if_neg (by rw [stops_cons.mp (hpoint _ rfl)]; exact Bool.false_ne_true)]
    · rfl
  | some fraction =>
    obtain ⟨hwhole, hfraction⟩ := hform
    obtain ⟨d, ds, htext, rfl, hd, hds⟩ := hwhole.exists_cons
    obtain ⟨e, es, htext', rfl, he, hes⟩ := hfraction.exists_cons
    have hstops : Stops isDigit ('.' :: e :: (es ++ rest)) := stops_cons.mpr rfl
    refine ⟨d, ds ++ '.' :: e :: es, by simp [Piece.text, Lexeme.text], ?_⟩
    have hrest : ds ++ '.' :: e :: es ++ rest = ds ++ '.' :: e :: (es ++ rest) := by simp
    rw [hrest, next_digit hd, Piece.number, takeWhile_run hds hstops, dropWhile_run hds hstops]
    simp only [he, if_true]
    rw [takeWhile_run hes hends, dropWhile_run hes hends]

theorem ne_of_not_mem {c : Char} {body : List Char} (h : c ∉ body) :
    ∀ x ∈ body, (x != c) = true := by
  intro x hx
  rw [bne_iff_ne]
  rintro rfl
  exact h hx

theorem finds_string {quote : Quote} {content : String} {rest : List Char}
    (h : quote.char ∉ content.toList) : Finds (.lexeme (.string quote content)) rest := by
  have hstops : Stops (· != quote.char) (quote.char :: rest) := stops_cons.mpr (by simp)
  have hbody := ne_of_not_mem h
  refine ⟨quote.char, content.toList ++ [quote.char], by simp [Piece.text, Lexeme.text], ?_⟩
  rw [List.append_assoc, List.singleton_append, next_quote, Piece.afterQuote,
    takeWhile_run hbody hstops, dropWhile_run hbody hstops, String.ofList_toList]

theorem finds_openString {quote : Quote} {body : List Char} (h : quote.char ∉ body) :
    Finds (.openString quote body) [] := by
  refine ⟨quote.char, body, rfl, ?_⟩
  rw [next_quote, Piece.afterQuote, dropWhile_run (ne_of_not_mem h) stops_nil, List.append_nil]

theorem finds_lineComment {body rest : List Char} (h : '\n' ∉ body)
    (hends : Stops (· != '\n') rest) : Finds (.lineComment body) rest := by
  refine ⟨'/', '/' :: body, rfl, ?_⟩
  rw [next_slash, List.cons_append, Piece.afterSlash, takeWhile_run (ne_of_not_mem h) hends,
    dropWhile_run (ne_of_not_mem h) hends]

theorem finds_blockComment {body rest : List Char} (h : Unclosed (body ++ ['*'])) :
    Finds (.blockComment body) rest := by
  have hsplit : Piece.splitBlock (body ++ '*' :: '/' :: rest) = some (body, rest) :=
    splitBlock_eq_some.mpr ⟨rfl, h⟩
  refine ⟨'/', '*' :: body ++ ['*', '/'], rfl, ?_⟩
  rw [next_slash, List.append_assoc]
  simp only [List.cons_append, List.nil_append, Piece.afterSlash, hsplit]

theorem finds_openComment {body : List Char} (h : Unclosed body) :
    Finds (.openComment body) [] := by
  refine ⟨'/', '*' :: body, rfl, ?_⟩
  rw [next_slash, List.append_nil]
  simp only [Piece.afterSlash, splitBlock_eq_none.mpr h]

theorem finds_stray {c : Char} {rest : List Char} (h : ¬ StartsPiece c) :
    Finds (.stray c) rest := by
  refine ⟨c, [], rfl, ?_⟩
  rw [startsPiece_iff] at h
  simp only [not_or, Bool.not_eq_true, Option.isSome_eq_false_iff, Option.isNone_iff_eq_none] at h
  obtain ⟨hsingle, hdouble, hquote, hslash, hblank, hnewline, hdigit, hname⟩ := h
  unfold Piece.next
  rw [hsingle, hdouble, hquote]
  simp [hslash, hblank, hnewline, hdigit, hname]

theorem finds_of_fits {p : Piece} {rest : List Char} (h : p.Fits rest) : Finds p rest := by
  match p, h with
  | .lexeme (.symbol s), ⟨_, hends⟩ => exact finds_symbol hends
  | .lexeme (.keyword k), ⟨_, hends⟩ =>
    exact finds_word (isWord_keyword k) (wordLexeme_keyword k) hends
  | .lexeme (.identifier name), ⟨⟨hword, hname⟩, hends⟩ =>
    exact finds_word hword (wordLexeme_name hname) hends
  | .lexeme (.string quote content), ⟨hform, _⟩ => exact finds_string hform
  | .lexeme (.number whole fraction), ⟨hform, hends⟩ => exact finds_number hform hends
  | .blank c, h => rcases h with rfl | rfl | rfl <;> exact ⟨_, [], rfl, rfl⟩
  | .newline, _ => exact ⟨_, [], rfl, rfl⟩
  | .lineComment body, ⟨hbody, hends⟩ => exact finds_lineComment hbody hends
  | .blockComment body, h => exact finds_blockComment h
  | .stray c, h => exact finds_stray h
  | .openString quote body, ⟨hbody, hrest⟩ =>
    rw [hrest]
    exact finds_openString hbody
  | .openComment body, ⟨hbody, hrest⟩ =>
    rw [hrest]
    exact finds_openComment hbody

/-! ### The whole text -/

theorem length_text_pos {p : Piece} {rest : List Char} (h : p.Fits rest) : 0 < p.text.length := by
  obtain ⟨c, cs, htext, -⟩ := finds_of_fits h
  rw [htext]
  exact Nat.succ_pos _

theorem splits_piecesUpTo (n : Nat) (text : List Char) (hn : text.length ≤ n) :
    Splits text (piecesUpTo n text) := by
  induction n generalizing text with
  | zero =>
    rw [List.length_eq_zero_iff.mp (Nat.le_zero.mp hn)]
    exact .nil
  | succ n ih =>
    cases text with
    | nil => exact .nil
    | cons c rest =>
      obtain ⟨htext, hfits⟩ := cuts_next c rest
      have hlength := congrArg List.length htext
      have hpos := length_text_pos hfits
      rw [List.length_append, List.length_cons] at hlength
      rw [List.length_cons] at hn
      rw [piecesUpTo, ← htext]
      exact .cons hfits (ih _ (by omega))

theorem Splits.eq_piecesUpTo {text : List Char} {ps : List Piece} (h : Splits text ps) (n : Nat)
    (hn : text.length ≤ n) : ps = piecesUpTo n text := by
  induction h generalizing n with
  | nil => cases n <;> rfl
  | @cons p rest ps hfits _ ih =>
    obtain ⟨c, cs, htext, hnext⟩ := finds_of_fits hfits
    rw [htext, List.cons_append, List.length_cons, List.length_append] at hn
    obtain ⟨m, rfl⟩ : ∃ m, n = m + 1 := ⟨n - 1, by omega⟩
    rw [htext, List.cons_append, piecesUpTo, hnext]
    dsimp only
    rw [ih m (by omega)]

/-- A text splits in one way: into the pieces that the search finds. -/
theorem splits_iff {text : List Char} {ps : List Piece} : Splits text ps ↔ ps = pieces text := by
  constructor
  · exact fun h => h.eq_piecesUpTo _ (Nat.le_refl _)
  · rintro rfl
    exact splits_piecesUpTo _ _ (Nat.le_refl _)

end Treewalk
