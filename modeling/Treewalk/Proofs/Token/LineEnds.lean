import Treewalk.Proofs.Token.Trimming

/-! # Texts without white space at the ends of their lines

    White space in front of a line break can be left out of a text, blank lines
    included, and so can white space at its end.  Between the tokens and inside of
    comments this makes no difference; of the tokens only string literals can hold line
    breaks, so these lose white space and all others stay as they are. -/

namespace Treewalk

namespace Text

/-! ### White space before line breaks -/

/-- Puts a character in front of a text, unless it is white and a line break follows. -/
def putBeforeBreak (c : Char) (rest : List Char) : List Char :=
  if isWhite c && rest.head? == some '\n' then rest else c :: rest

/-- A text without the white space that stands before its line breaks.  Of a run of white
    space with line breaks in it, only what begins with the last of them stays. -/
def dropBeforeBreaks (cs : List Char) : List Char := cs.foldr putBeforeBreak []

/-- Puts a character in front of a text, unless it is white and nothing or a line break
    follows. -/
def putBeforeEnd (c : Char) (rest : List Char) : List Char :=
  if isWhite c && (rest.isEmpty || rest.head? == some '\n') then rest else c :: rest

/-- A text without white space before its line breaks and at its end. -/
def trimLines (cs : List Char) : List Char := cs.foldr putBeforeEnd []

/-- The text is empty or goes on in the next line. -/
def AtLineEnd (rest : List Char) : Prop := rest = [] ∨ rest.head? = some '\n'

theorem putBeforeEnd_of_white {c : Char} {rest : List Char} (hc : isWhite c = true)
    (h : AtLineEnd rest) : putBeforeEnd c rest = rest := by
  unfold putBeforeEnd
  rcases h with rfl | h
  · simp [hc]
  · simp [hc, h]

theorem putBeforeEnd_of_not_white {c : Char} (hc : isWhite c = false) (rest : List Char) :
    putBeforeEnd c rest = c :: rest := by
  simp [putBeforeEnd, hc]

theorem putBeforeEnd_of_inside {rest : List Char} (h : ¬ AtLineEnd rest) (c : Char) :
    putBeforeEnd c rest = c :: rest := by
  obtain ⟨hne, hbreak⟩ := not_or.mp h
  simp [putBeforeEnd, hne, hbreak]

/-- A character is put in front of a text, or it is left out at the end of a line. -/
theorem putBeforeEnd_cases (c : Char) (rest : List Char) :
    putBeforeEnd c rest = c :: rest ∨ putBeforeEnd c rest = rest ∧ AtLineEnd rest := by
  by_cases h : AtLineEnd rest
  · cases hc : isWhite c with
    | true => exact .inr ⟨putBeforeEnd_of_white hc h, h⟩
    | false => exact .inl (putBeforeEnd_of_not_white hc rest)
  · exact .inl (putBeforeEnd_of_inside h c)

theorem putBeforeBreak_cases (c : Char) (rest : List Char) :
    putBeforeBreak c rest = c :: rest ∨
      putBeforeBreak c rest = rest ∧ rest.head? = some '\n' := by
  unfold putBeforeBreak
  split
  · next h =>
    rw [Bool.and_eq_true, beq_iff_eq] at h
    exact .inr ⟨rfl, h.2⟩
  · exact .inl rfl

/-- Both ways to put a character in front of a text are the same inside of it. -/
theorem putBeforeEnd_eq {rest : List Char} (hne : rest ≠ []) (c : Char) :
    putBeforeEnd c rest = putBeforeBreak c rest := by
  have hempty : rest.isEmpty = false := by simpa using hne
  simp [putBeforeEnd, putBeforeBreak, hempty]

theorem dropBeforeBreaks_cons (c : Char) (cs : List Char) :
    dropBeforeBreaks (c :: cs) = putBeforeBreak c (dropBeforeBreaks cs) := rfl

theorem trimLines_cons (c : Char) (cs : List Char) :
    trimLines (c :: cs) = putBeforeEnd c (trimLines cs) := rfl

theorem trimLines_append (front back : List Char) :
    trimLines (front ++ back) = front.foldr putBeforeEnd (trimLines back) :=
  List.foldr_append

theorem dropBeforeBreaks_eq_nil {cs : List Char} : dropBeforeBreaks cs = [] ↔ cs = [] := by
  cases cs with
  | nil => simp [dropBeforeBreaks]
  | cons c cs =>
    rw [dropBeforeBreaks_cons]
    rcases putBeforeBreak_cases c (dropBeforeBreaks cs) with h | ⟨h, hbreak⟩
    · simp [h]
    · rw [h]
      constructor
      · intro hnil
        rw [hnil] at hbreak
        cases hbreak
      · exact nofun

/-- Trimming the lines is dropping the white space at the end, and then that before the
    line breaks. -/
theorem trimLines_eq (cs : List Char) : trimLines cs = dropBeforeBreaks (dropTrailing cs) := by
  induction cs with
  | nil => rfl
  | cons c cs ih =>
    have happend := dropTrailing_append_eq [c] cs
    rw [trimLines_cons, ih, show c :: cs = [c] ++ cs from rfl, happend]
    by_cases hnil : dropTrailing cs = []
    · rw [hnil, if_pos rfl]
      cases hc : isWhite c <;> simp [dropTrailing, dropBeforeBreaks, putBeforeEnd, putBeforeBreak, hc]
    · rw [if_neg hnil]
      exact putBeforeEnd_eq (mt dropBeforeBreaks_eq_nil.mp hnil) c

@[simp] theorem trimLines_dropTrailing (cs : List Char) :
    trimLines (dropTrailing cs) = trimLines cs := by
  rw [trimLines_eq, trimLines_eq, dropTrailing_dropTrailing]

/-! ### Parts of a trimmed text -/

/-- A part that ends before something else than white space does not depend on what
    follows. -/
theorem foldr_putBeforeEnd {c : Char} (hc : isWhite c = false) (front rest : List Char) :
    front.foldr putBeforeEnd (c :: rest) = dropBeforeBreaks front ++ c :: rest := by
  induction front with
  | nil => rfl
  | cons d front ih =>
    rw [List.foldr_cons, ih, dropBeforeBreaks_cons, putBeforeEnd_eq (by simp)]
    have hhead : c ≠ '\n' := by
      rintro rfl
      exact absurd hc (by decide)
    cases hfront : dropBeforeBreaks front with
    | nil => simp [putBeforeBreak, hhead]
    | cons e rest' =>
      by_cases hdrop : isWhite d = true ∧ e = '\n' <;> simp [putBeforeBreak, hdrop]

/-- A part without white space stays as it is. -/
theorem foldr_putBeforeEnd_of_not_white {front : List Char}
    (h : ∀ c ∈ front, isWhite c = false) (rest : List Char) :
    front.foldr putBeforeEnd rest = front ++ rest := by
  induction front with
  | nil => rfl
  | cons c front ih =>
    obtain ⟨hc, hfront⟩ := List.forall_mem_cons.mp h
    rw [List.foldr_cons, ih hfront, putBeforeEnd_of_not_white hc, List.cons_append]

/-- The end of a line loses its white space. -/
theorem foldr_putBeforeEnd_of_line {front rest : List Char} (h : '\n' ∉ front)
    (hrest : AtLineEnd rest) : front.foldr putBeforeEnd rest = dropTrailing front ++ rest := by
  induction front with
  | nil => rfl
  | cons c front ih =>
    have hfront : '\n' ∉ front := fun hmem => h (List.mem_cons_of_mem c hmem)
    have happend := dropTrailing_append_eq [c] front
    rw [List.foldr_cons, ih hfront, show c :: front = [c] ++ front from rfl, happend]
    by_cases hnil : dropTrailing front = []
    · rw [hnil, if_pos rfl, List.nil_append]
      cases hc : isWhite c with
      | true => simp [putBeforeEnd_of_white hc hrest, dropTrailing, hc]
      | false => simp [putBeforeEnd_of_not_white hc, dropTrailing, hc]
    · rw [if_neg hnil]
      refine putBeforeEnd_of_inside ?_ c
      -- what is left of the line begins as the line does, with no line break
      obtain ⟨back, hback⟩ := dropTrailing_front front
      cases hkept : dropTrailing front with
      | nil => exact absurd hkept hnil
      | cons d kept =>
        rw [hkept] at hback
        have hd : d ∈ front := hback ▸ List.mem_cons_self
        simp only [AtLineEnd, List.cons_append, List.head?_cons, Option.some.injEq]
        rintro (hnil' | rfl)
        · cases hnil'
        · exact hfront hd

/-- Before a line break a part is trimmed for itself. -/
theorem foldr_putBeforeEnd_of_break (front rest : List Char) :
    front.foldr putBeforeEnd ('\n' :: rest) = trimLines front ++ '\n' :: rest := by
  induction front with
  | nil => rfl
  | cons c front ih =>
    rw [List.foldr_cons, ih, trimLines_cons]
    cases hfront : trimLines front with
    | nil => cases hc : isWhite c <;> simp [putBeforeEnd, hc]
    | cons d kept =>
      by_cases hdrop : isWhite c = true ∧ d = '\n' <;> simp [putBeforeEnd, hdrop]

@[simp] theorem dropTrailing_trimLines (cs : List Char) :
    dropTrailing (trimLines cs) = trimLines cs := by
  induction cs with
  | nil => rfl
  | cons c cs ih =>
    rw [trimLines_cons]
    rcases putBeforeEnd_cases c (trimLines cs) with hput | ⟨hput, -⟩
    · by_cases hnil : trimLines cs = []
      · have hc : isWhite c = false := by
          by_contra hc
          rw [putBeforeEnd_of_white (by simpa using hc) (.inl hnil)] at hput
          simp at hput
        rw [hput, hnil]
        exact dropTrailing_of_not_white (by simpa using hc)
      · rw [hput]
        exact dropTrailing_append hnil ih [c]
    · rw [hput, ih]

/-- A line behind a text: it makes no difference if the text was trimmed before. -/
theorem trimLines_newline {line : List Char} (h : '\n' ∉ line) (cs : List Char) :
    trimLines (cs ++ '\n' :: line) = dropTrailing (trimLines cs ++ '\n' :: line) := by
  have hline : trimLines line = dropTrailing line := by
    have hfoldr := foldr_putBeforeEnd_of_line h (.inl rfl)
    rwa [List.append_nil] at hfoldr
  have hbreak := dropTrailing_append_eq ['\n'] line
  rw [trimLines_append, trimLines_cons, hline, dropTrailing_append_eq,
    show '\n' :: line = ['\n'] ++ line from rfl, hbreak]
  by_cases hnil : dropTrailing line = []
  · rw [hnil, if_pos rfl, dropTrailing_trimLines]
    rfl
  · have hkept : putBeforeEnd '\n' (dropTrailing line) = '\n' :: dropTrailing line := by
      refine putBeforeEnd_of_inside ?_ '\n'
      rintro (hnil' | hhead)
      · exact hnil hnil'
      · obtain ⟨kept, hkept⟩ := List.head?_eq_some_iff.mp hhead
        exact h ((dropTrailing_front line).mem (hkept ▸ List.mem_cons_self))
    rw [if_neg hnil, hkept, foldr_putBeforeEnd_of_break, List.singleton_append,
      if_neg (List.cons_ne_nil _ _)]

/-! ### Beginnings and members -/

/-- A trimmed text begins as the text does, or it is at the end of a line. -/
theorem trimLines_head (c : Char) (cs : List Char) :
    trimLines (c :: cs) = c :: trimLines cs ∨ AtLineEnd (trimLines (c :: cs)) := by
  rw [trimLines_cons]
  rcases putBeforeEnd_cases c (trimLines cs) with h | ⟨h, hend⟩
  · exact .inl h
  · rw [h]
    exact .inr hend

theorem atLineEnd_trimLines {cs : List Char} (h : AtLineEnd cs) : AtLineEnd (trimLines cs) := by
  cases cs with
  | nil => exact .inl rfl
  | cons c cs =>
    rcases trimLines_head c cs with hhead | hend
    · rw [hhead]
      refine .inr ?_
      rcases h with h | h
      · cases h
      · exact h
    · exact hend

theorem dropBeforeBreaks_head? (cs : List Char) :
    (dropBeforeBreaks cs).head? = cs.head? ∨ (dropBeforeBreaks cs).head? = some '\n' := by
  cases cs with
  | nil => exact .inl rfl
  | cons c cs =>
    rw [dropBeforeBreaks_cons]
    rcases putBeforeBreak_cases c (dropBeforeBreaks cs) with h | ⟨h, hbreak⟩
    · exact .inl (by rw [h]; rfl)
    · rw [h]
      exact .inr hbreak

theorem mem_of_mem_dropBeforeBreaks {c : Char} {cs : List Char} (h : c ∈ dropBeforeBreaks cs) :
    c ∈ cs := by
  induction cs with
  | nil => cases h
  | cons d cs ih =>
    rw [dropBeforeBreaks_cons] at h
    rcases putBeforeBreak_cases d (dropBeforeBreaks cs) with hput | ⟨hput, -⟩
    · rw [hput] at h
      rcases List.mem_cons.mp h with rfl | h
      · exact List.mem_cons_self
      · exact List.mem_cons_of_mem d (ih h)
    · rw [hput] at h
      exact List.mem_cons_of_mem d (ih h)

theorem mem_of_mem_trimLines {c : Char} {cs : List Char} (h : c ∈ trimLines cs) : c ∈ cs := by
  rw [trimLines_eq] at h
  exact (dropTrailing_front cs).mem (mem_of_mem_dropBeforeBreaks h)

/-- Without white space before a line break there is nothing to drop. -/
theorem dropBeforeBreaks_eq_self {cs : List Char}
    (h : ∀ front c back, cs = front ++ c :: '\n' :: back → isWhite c = false) :
    dropBeforeBreaks cs = cs := by
  induction cs with
  | nil => rfl
  | cons c cs ih =>
    have hcs : dropBeforeBreaks cs = cs :=
      ih fun front d back hsplit => h (c :: front) d back (by rw [hsplit, List.cons_append])
    rw [dropBeforeBreaks_cons, hcs]
    unfold putBeforeBreak
    split
    · next hdrop =>
      rw [Bool.and_eq_true, beq_iff_eq] at hdrop
      obtain ⟨back, rfl⟩ := List.head?_eq_some_iff.mp hdrop.2
      have hc := h [] c back rfl
      rw [hc] at hdrop
      cases hdrop.1
    · rfl

end Text

open Text

/-! ### Block comments -/

/-- No mark that closes a comment comes about: where white space is left out, a line
    break stays. -/
theorem Unclosed.dropBeforeBreaks {text : List Char} (h : Unclosed text) :
    Unclosed (dropBeforeBreaks text) := by
  induction text with
  | nil => exact h
  | cons c text ih =>
    obtain ⟨hstart, hrest⟩ := unclosed_cons.mp h
    rw [dropBeforeBreaks_cons]
    rcases putBeforeBreak_cases c (Text.dropBeforeBreaks text) with hput | ⟨hput, -⟩
    · rw [hput, unclosed_cons]
      refine ⟨?_, ih hrest⟩
      rintro ⟨hc, hslash⟩
      rcases dropBeforeBreaks_head? text with hhead | hhead
      · exact hstart ⟨hc, hhead ▸ hslash⟩
      · rw [hhead] at hslash
        exact absurd hslash (by decide)
    · rw [hput]
      exact ih hrest

theorem Unclosed.front {front back : List Char} (h : Unclosed (front ++ back)) : Unclosed front :=
  fun hmark => h (hmark.trans (List.prefix_append front back).isInfix)

theorem Unclosed.trimLines {text : List Char} (h : Unclosed text) : Unclosed (trimLines text) := by
  rw [trimLines_eq]
  obtain ⟨back, hback⟩ := dropTrailing_front text
  rw [← hback] at h
  exact h.front.dropBeforeBreaks

/-! ### Lexemes -/

/-- The lexeme that is left when white space before line breaks is dropped: only string
    literals hold line breaks. -/
def Lexeme.trimmed : Lexeme → Lexeme
  | .string quote content => .string quote (String.ofList (Text.dropBeforeBreaks content.toList))
  | l => l

theorem Lexeme.HasForm.trimmed {l : Lexeme} (h : l.HasForm) : l.trimmed.HasForm := by
  cases l with
  | string quote content =>
    show quote.char ∉ (String.ofList (Text.dropBeforeBreaks content.toList)).toList
    rw [String.toList_ofList]
    exact fun hmem => h (mem_of_mem_dropBeforeBreaks hmem)
  | _ => exact h

theorem isWhite_quote (quote : Quote) : isWhite quote.char = false := by
  cases quote <;> decide

theorem IsWord.not_white {s : String} (h : IsWord s) : ∀ c ∈ s.toList, isWhite c = false := by
  obtain ⟨c, cs, htext, hc, hcs⟩ := h
  intro x hx
  rw [htext] at hx
  rcases List.mem_cons.mp hx with rfl | hx
  · exact isWhite_nameChar (Bool.or_eq_true_iff.mpr (.inl hc))
  · exact isWhite_nameChar (hcs x hx)

theorem IsDigits.not_white {s : String} (h : IsDigits s) : ∀ c ∈ s.toList, isWhite c = false :=
  fun c hc => isWhite_nameChar (Bool.or_eq_true_iff.mpr (.inr (h.2 c hc)))

/-- Only string literals can hold white space. -/
theorem Lexeme.HasForm.not_white {l : Lexeme} (h : l.HasForm)
    (hl : ∀ quote content, l ≠ .string quote content) : ∀ c ∈ l.text.toList, isWhite c = false := by
  cases l with
  | symbol s =>
    have hall : s.text.toList.all (fun c => !isWhite c) = true := by cases s <;> decide
    exact fun c hc => by simpa using List.all_eq_true.mp hall c hc
  | keyword k => exact (isWord_keyword k).not_white
  | identifier name => exact IsWord.not_white h.1
  | string quote content => exact absurd rfl (hl quote content)
  | number whole fraction =>
    cases fraction with
    | none => exact IsDigits.not_white h
    | some fraction =>
      have hpoint : isWhite '.' = false := by decide
      simp only [Lexeme.text, String.toList_append, List.forall_mem_append]
      exact ⟨⟨h.1.not_white, by simpa using hpoint⟩, h.2.not_white⟩

theorem Lexeme.trimmed_of_not_string {l : Lexeme} (hl : ∀ quote content, l ≠ .string quote content) :
    l.trimmed = l := by
  cases l with
  | string quote content => exact absurd rfl (hl quote content)
  | _ => rfl

/-- Before any text, a lexeme is trimmed for itself. -/
theorem Lexeme.HasForm.foldr_text {l : Lexeme} (h : l.HasForm) (rest : List Char) :
    l.text.toList.foldr putBeforeEnd rest = l.trimmed.text.toList ++ rest := by
  by_cases hl : ∃ quote content, l = .string quote content
  · obtain ⟨quote, content, rfl⟩ := hl
    have hquote := isWhite_quote quote
    have htext : (Lexeme.string quote content).text.toList =
        quote.char :: (content.toList ++ [quote.char]) := by
      simp [Lexeme.text]
    have htrimmed : (Lexeme.string quote content).trimmed.text.toList =
        quote.char :: (Text.dropBeforeBreaks content.toList ++ [quote.char]) := by
      simp [Lexeme.trimmed, Lexeme.text]
    rw [htext, htrimmed, List.foldr_cons, List.foldr_append, List.foldr_cons, List.foldr_nil,
      putBeforeEnd_of_not_white hquote rest, foldr_putBeforeEnd hquote,
      putBeforeEnd_of_not_white hquote]
    simp
  · have hl : ∀ quote content, l ≠ .string quote content := fun q s hs => hl ⟨q, s, hs⟩
    rw [trimmed_of_not_string hl]
    exact foldr_putBeforeEnd_of_not_white (h.not_white hl) rest

/-! ### What follows a piece -/

theorem Stops.trimLines {p : Char → Bool} (hp : p '\n' = false) {rest : List Char}
    (h : Stops p rest) : Stops p (trimLines rest) := by
  cases rest with
  | nil => exact stops_nil
  | cons c rest =>
    rcases trimLines_head c rest with hhead | hnil | hbreak
    · rw [hhead]
      exact stops_cons.mpr (stops_cons.mp h)
    · rw [hnil]
      exact stops_nil
    · intro d hd
      rw [hbreak] at hd
      cases hd
      exact hp

/-- A lexeme ends where it did. -/
theorem Lexeme.EndsBefore.trimLines {l : Lexeme} {rest : List Char} (h : l.EndsBefore rest) :
    l.trimmed.EndsBefore (trimLines rest) := by
  cases l with
  | keyword k => exact Stops.trimLines rfl h
  | identifier name => exact Stops.trimLines rfl h
  | string quote content => trivial
  | symbol s => cases s <;> first | trivial | exact Stops.trimLines rfl h
  | number whole fraction =>
    cases fraction with
    | some fraction => exact Stops.trimLines rfl h
    | none =>
      refine ⟨Stops.trimLines rfl h.1, ?_⟩
      intro after hafter
      cases rest with
      | nil => cases hafter
      | cons c rest =>
        -- a point is not white, so it is the one that followed before
        rcases trimLines_head c rest with hhead | hnil | hbreak
        · rw [hhead, List.cons.injEq] at hafter
          obtain ⟨rfl, rfl⟩ := hafter
          exact Stops.trimLines rfl (h.2 rest rfl)
        · rw [hnil] at hafter
          cases hafter
        · rw [hafter] at hbreak
          cases hbreak

/-! ### Pieces -/

/-- The text splits into pieces with the given lexemes, and whether something is left open
    in it is the same as for the given pieces. -/
def SplitsAlike (text : List Char) (lexemes : List Lexeme) (ps : List Piece) : Prop :=
  ∃ qs, Splits text qs ∧ qs.filterMap Piece.lexeme? = lexemes ∧
    (qs.filterMap Piece.issue?).any ScanIssue.isUnterminated =
      (ps.filterMap Piece.issue?).any ScanIssue.isUnterminated

section SplitsAlike

variable {text : List Char} {lexemes : List Lexeme} {ps : List Piece}

/-- A piece that is neither a lexeme nor left open may be there or not. -/
theorem SplitsAlike.aside (h : SplitsAlike text lexemes ps) {p : Piece}
    (hopen : (p.issue?.any ScanIssue.isUnterminated) = false) :
    SplitsAlike text lexemes (p :: ps) := by
  obtain ⟨qs, hqs, hlexemes, hissues⟩ := h
  refine ⟨qs, hqs, hlexemes, hissues.trans ?_⟩
  cases hp : p.issue? with
  | none => rw [List.filterMap_cons_none hp]
  | some i =>
    rw [hp] at hopen
    have hi : i.isUnterminated = false := hopen
    rw [List.filterMap_cons_some hp, List.any_cons, hi, Bool.false_or]

/-- A piece in front that keeps what it is. -/
theorem SplitsAlike.cons (h : SplitsAlike text lexemes ps) {p q : Piece} (hfits : q.Fits text)
    (hissue : q.issue? = p.issue?) :
    SplitsAlike (q.text ++ text) (q.lexeme?.toList ++ lexemes) (p :: ps) := by
  obtain ⟨qs, hqs, hlexemes, hissues⟩ := h
  refine ⟨q :: qs, .cons hfits hqs, ?_, ?_⟩
  · rw [← hlexemes]
    cases hq : q.lexeme? with
    | none => rw [List.filterMap_cons_none hq]; rfl
    | some l => rw [List.filterMap_cons_some hq]; rfl
  · cases hp : p.issue? with
    | none => rw [List.filterMap_cons_none (hissue.trans hp), List.filterMap_cons_none hp, hissues]
    | some i =>
      rw [List.filterMap_cons_some (hissue.trans hp), List.filterMap_cons_some hp, List.any_cons,
        List.any_cons, hissues]

/-- A single character that is neither a lexeme nor left open stays or is left out. -/
theorem SplitsAlike.character (h : SplitsAlike text lexemes ps) {p : Piece} {c : Char}
    (htext : p.text = [c]) (hfits : p.Fits text) (hlexeme : p.lexeme? = none)
    (hopen : (p.issue?.any ScanIssue.isUnterminated) = false) :
    SplitsAlike (p.text.foldr putBeforeEnd text) lexemes (p :: ps) := by
  rw [htext]
  show SplitsAlike (putBeforeEnd c text) lexemes (p :: ps)
  rcases putBeforeEnd_cases c text with hput | ⟨hput, -⟩
  · have hcons := h.cons (p := p) hfits rfl
    rw [htext, hlexeme] at hcons
    rw [hput]
    exact hcons
  · rw [hput]
    exact h.aside hopen

end SplitsAlike

theorem atLineEnd_of_stops {rest : List Char} (h : Stops (· != '\n') rest) : AtLineEnd rest := by
  cases rest with
  | nil => exact .inl rfl
  | cons c rest =>
    have hc : c = '\n' := by simpa using stops_cons.mp h
    exact .inr (congrArg some hc)

theorem stops_of_atLineEnd {rest : List Char} (h : AtLineEnd rest) : Stops (· != '\n') rest := by
  intro c hc
  rcases h with rfl | h
  · cases hc
  · rw [h] at hc
    cases hc
    rfl

/-- Trimming the lines of a text trims its lexemes, and what is left open stays open. -/
theorem Splits.trimLines {text : List Char} {ps : List Piece} (h : Splits text ps) :
    SplitsAlike (trimLines text) ((ps.filterMap Piece.lexeme?).map Lexeme.trimmed) ps := by
  induction h with
  | nil => exact ⟨[], .nil, rfl, rfl⟩
  | @cons p rest ps hfits _ ih =>
    rw [trimLines_append]
    cases p with
    | lexeme l =>
      have hcons := ih.cons (p := .lexeme l) (q := .lexeme l.trimmed)
        ⟨hfits.1.trimmed, hfits.2.trimLines⟩ rfl
      rw [show (Piece.lexeme l).text = l.text.toList from rfl, hfits.1.foldr_text]
      exact hcons
    | blank c => exact ih.character rfl hfits rfl rfl
    | newline => exact ih.character rfl trivial rfl rfl
    | stray c => exact ih.character rfl hfits rfl rfl
    | lineComment body =>
      have hend := atLineEnd_trimLines (atLineEnd_of_stops hfits.2)
      have hcons := ih.cons (p := .lineComment body) (q := .lineComment (dropTrailing body))
        ⟨fun hmem => hfits.1 ((dropTrailing_front body).mem hmem), stops_of_atLineEnd hend⟩ rfl
      have hslash : isWhite '/' = false := by decide
      show SplitsAlike (putBeforeEnd '/' (putBeforeEnd '/' (body.foldr putBeforeEnd _))) _ _
      rw [foldr_putBeforeEnd_of_line hfits.1 hend, putBeforeEnd_of_not_white hslash,
        putBeforeEnd_of_not_white hslash]
      exact hcons
    | blockComment body =>
      have hstar : isWhite '*' = false := by decide
      have hslash : isWhite '/' = false := by decide
      have hbody : dropBeforeBreaks body ++ ['*'] = dropBeforeBreaks (body ++ ['*']) := by
        have hfoldr := foldr_putBeforeEnd hstar body []
        rw [← hfoldr]
        have htrim := trimLines_append body ['*']
        rw [trimLines_eq, dropTrailing_append (List.cons_ne_nil _ _) rfl] at htrim
        exact htrim.symm
      have hunclosed : Unclosed (dropBeforeBreaks body ++ ['*']) := by
        rw [hbody]
        exact Unclosed.dropBeforeBreaks hfits
      have hcons := ih.cons (p := .blockComment body) (q := .blockComment (dropBeforeBreaks body))
        hunclosed rfl
      have htext : (Piece.blockComment body).text.foldr putBeforeEnd (Text.trimLines rest) =
          (Piece.blockComment (dropBeforeBreaks body)).text ++ Text.trimLines rest := by
        show putBeforeEnd '/' (putBeforeEnd '*' ((body ++ ['*', '/']).foldr putBeforeEnd _)) = _
        rw [List.foldr_append, List.foldr_cons, List.foldr_cons, List.foldr_nil,
          putBeforeEnd_of_not_white hslash (Text.trimLines rest),
          putBeforeEnd_of_not_white hstar ('/' :: Text.trimLines rest),
          foldr_putBeforeEnd hstar, putBeforeEnd_of_not_white hstar, putBeforeEnd_of_not_white hslash]
        simp [Piece.text]
      rw [htext]
      exact hcons
    | openString quote body =>
      obtain ⟨hbody, rfl⟩ := hfits
      have hcons := ih.cons (p := .openString quote body) (q := .openString quote (Text.trimLines body))
        ⟨fun hmem => hbody (mem_of_mem_trimLines hmem), rfl⟩ rfl
      have htext : (Piece.openString quote body).text.foldr putBeforeEnd (Text.trimLines []) =
          (Piece.openString quote (Text.trimLines body)).text ++ Text.trimLines [] := by
        show putBeforeEnd quote.char (Text.trimLines body) = _
        rw [putBeforeEnd_of_not_white (isWhite_quote quote)]
        simp [Piece.text, Text.trimLines]
      rw [htext]
      exact hcons
    | openComment body =>
      obtain ⟨hbody, rfl⟩ := hfits
      have hstar : isWhite '*' = false := by decide
      have hslash : isWhite '/' = false := by decide
      have hcons := ih.cons (p := .openComment body) (q := .openComment (Text.trimLines body))
        ⟨hbody.trimLines, rfl⟩ rfl
      have htext : (Piece.openComment body).text.foldr putBeforeEnd (Text.trimLines []) =
          (Piece.openComment (Text.trimLines body)).text ++ Text.trimLines [] := by
        show putBeforeEnd '/' (putBeforeEnd '*' (Text.trimLines body)) = _
        rw [putBeforeEnd_of_not_white hstar, putBeforeEnd_of_not_white hslash]
        simp [Piece.text, Text.trimLines]
      rw [htext]
      exact hcons

/-! ### Scans -/

/-- A text and the same text with its lines trimmed scan to the same tokens, up to line
    breaks in strings, and both or none of them leave something open. -/
theorem scan_trimLines (source : String) (line line' : Int) :
    (scan (String.ofList (trimLines source.toList)) line').tokens.map (·.lexeme) =
        (scan source line).tokens.map (·.lexeme.trimmed) ∧
      (scan (String.ofList (trimLines source.toList)) line').issues.any (·.1.isUnterminated) =
        (scan source line).issues.any (·.1.isUnterminated) := by
  have hsplits : Splits source.toList (pieces source.toList) := splits_iff.mpr rfl
  obtain ⟨qs, hqs, hlexemes, hissues⟩ := hsplits.trimLines
  have hpieces : pieces (String.ofList (trimLines source.toList)).toList = qs := by
    rw [String.toList_ofList]
    exact (splits_iff.mp hqs).symm
  unfold scan
  dsimp only
  rw [hpieces, any_open_issuesFrom, any_open_issuesFrom]
  refine ⟨?_, hissues⟩
  have hmap : (tokensFrom line (pieces source.toList)).map (·.lexeme.trimmed) =
      ((tokensFrom line (pieces source.toList)).map (·.lexeme)).map Lexeme.trimmed := by
    rw [List.map_map]
    rfl
  rw [hmap, lexemes_tokensFrom, lexemes_tokensFrom, hlexemes]

end Treewalk
