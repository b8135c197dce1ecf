import Treewalk.Proofs.Text.White
import Treewalk.Proofs.Token.Joining

/-! # Texts without white space at their end

    White space at the end of a text without issues is blanks, newlines and the
    end of a line comment, so a text scans to the same tokens without it.  No
    lexeme ends in white space, and what is white and neither blank nor newline
    can only stand in a string or comment. -/

namespace Treewalk

/-! ### Fronts of a text -/

theorem Stops.front {p : Char → Bool} {front back : List Char} (h : Stops p (front ++ back)) :
    Stops p front := by
  cases front with
  | nil => exact stops_nil
  | cons c front => exact stops_cons.mpr (stops_cons.mp h)

theorem Lexeme.EndsBefore.front {l : Lexeme} {front back : List Char}
    (h : l.EndsBefore (front ++ back)) : l.EndsBefore front := by
  cases l with
  | keyword k => exact Stops.front h
  | identifier name => exact Stops.front h
  | string quote content => trivial
  | symbol s => cases s <;> first | trivial | exact Stops.front h
  | number whole fraction =>
    cases fraction with
    | some fraction => exact Stops.front h
    | none =>
      refine ⟨h.1.front, ?_⟩
      rintro after rfl
      exact (h.2 (after ++ back) rfl).front

/-- A piece that fits before a text fits before every front of it. -/
theorem Piece.Fits.front {p : Piece} {front back : List Char} (h : p.Fits (front ++ back)) :
    p.Fits front := by
  cases p with
  | lexeme l => exact ⟨h.1, h.2.front⟩
  | lineComment body => exact ⟨h.1, Stops.front h.2⟩
  | openString quote body => exact ⟨h.1, (List.append_eq_nil_iff.mp h.2).1⟩
  | openComment body => exact ⟨h.1, (List.append_eq_nil_iff.mp h.2).1⟩
  | _ => exact h

/-! ### Ends of pieces -/

theorem isWhite_nameChar {c : Char} (h : isNameChar c = true) : Text.isWhite c = false := by
  have hrange : 48 ≤ c.toNat ∧ c.toNat ≤ 122 := by
    simp only [isNameChar, isNameStart, isDigit, Bool.or_eq_true, Bool.and_eq_true, beq_iff_eq,
      decide_eq_true_eq, Char.le_def, UInt32.le_iff_toNat_le] at h
    rcases h with ((⟨hlow, hhigh⟩ | ⟨hlow, hhigh⟩) | rfl) | ⟨hlow, hhigh⟩
    · exact ⟨Nat.le_trans (by decide) hlow, hhigh⟩
    · exact ⟨Nat.le_trans (by decide) hlow, Nat.le_trans hhigh (by decide)⟩
    · decide
    · exact ⟨hlow, Nat.le_trans hhigh (by decide)⟩
  simp only [Text.isWhite, Text.inRanges, Text.whiteRanges, List.any_cons, List.any_nil,
    Bool.or_eq_false_iff, Bool.and_eq_false_iff, decide_eq_false_iff_not, and_true]
  omega

theorem IsWord.dropTrailing {s : String} (h : IsWord s) :
    Text.dropTrailing s.toList = s.toList := by
  obtain ⟨c, cs, htext, hc, hcs⟩ := h
  refine Text.dropTrailing_of_not_white fun x hx => isWhite_nameChar ?_
  rw [htext] at hx
  rcases List.mem_cons.mp hx with rfl | hx
  · exact Bool.or_eq_true_iff.mpr (.inl hc)
  · exact hcs x hx

theorem IsDigits.dropTrailing {s : String} (h : IsDigits s) :
    Text.dropTrailing s.toList = s.toList :=
  Text.dropTrailing_of_not_white fun c hc =>
    isWhite_nameChar (Bool.or_eq_true_iff.mpr (.inr (h.2 c hc)))

/-- No lexeme ends in white space. -/
theorem Lexeme.HasForm.dropTrailing {l : Lexeme} (h : l.HasForm) :
    Text.dropTrailing l.text.toList = l.text.toList := by
  cases l with
  | symbol s => cases s <;> rfl
  | keyword k => exact (isWord_keyword k).dropTrailing
  | identifier name => exact h.1.dropTrailing
  | string quote content =>
    have hquote : Text.dropTrailing [quote.char] = [quote.char] := by cases quote <;> rfl
    simp only [Lexeme.text, String.toList_append, String.toList_singleton]
    exact Text.dropTrailing_append (List.cons_ne_nil _ _) hquote _
  | number whole fraction =>
    cases fraction with
    | none => exact IsDigits.dropTrailing h
    | some fraction =>
      simp only [Lexeme.text, String.toList_append]
      exact Text.dropTrailing_append h.2.1 h.2.dropTrailing _

/-! ### Pieces of a trimmed text -/

/-- The trimmed text splits into pieces of which none is wrong, with the same tokens
    as the given ones. -/
def SplitsTrimmed (text : List Char) (ps : List Piece) : Prop :=
  ∃ qs, Splits (Text.dropTrailing text) qs ∧ (∀ q ∈ qs, q.issue? = none) ∧
    ∀ line, tokensFrom line qs = tokensFrom line ps

theorem Piece.Fits.splits {p : Piece} (h : p.Fits []) : Splits p.text [p] := by
  have hsplits : Splits (p.text ++ []) [p] := .cons h .nil
  rwa [List.append_nil] at hsplits

/-- The last piece of a trimmed text is what is left of the last piece that is not
    all white. -/
theorem Piece.Fits.splitsTrimmed {p : Piece} (h : p.Fits []) (hissue : p.issue? = none) :
    SplitsTrimmed p.text [p] := by
  have hkept (hsame : Text.dropTrailing p.text = p.text) : SplitsTrimmed p.text [p] :=
    ⟨[p], by rw [hsame]; exact h.splits, List.forall_mem_singleton.mpr hissue, fun _ => rfl⟩
  cases p with
  | lexeme l => exact hkept h.1.dropTrailing
  | blank c =>
    refine ⟨[], ?_, nofun, fun _ => rfl⟩
    rcases h with rfl | rfl | rfl <;> exact .nil
  | newline => exact ⟨[], .nil, nofun, fun _ => rfl⟩
  | lineComment body =>
    -- the two slashes stay
    have htext : Text.dropTrailing (['/', '/'] ++ body) =
        (Piece.lineComment (Text.dropTrailing body)).text := by
      rw [Text.dropTrailing_append_eq]
      split
      · next hnil => rw [hnil]; rfl
      · rfl
    have hfits : (Piece.lineComment (Text.dropTrailing body)).Fits [] :=
      ⟨fun hmem => h.1 ((Text.dropTrailing_front body).mem hmem), stops_nil⟩
    refine ⟨[.lineComment (Text.dropTrailing body)], ?_, List.forall_mem_singleton.mpr rfl, ?_⟩
    · exact htext ▸ hfits.splits
    · exact fun _ => rfl
  | blockComment body =>
    have hend : Text.dropTrailing ['*', '/'] = ['*', '/'] := rfl
    exact hkept (Text.dropTrailing_append (List.cons_ne_nil _ _) hend ('/' :: '*' :: body))
  | stray c => cases hissue
  | openString quote body => cases hissue
  | openComment body => cases hissue

/-- A text without issues has the same tokens when it is trimmed. -/
theorem Splits.trimmed {text : List Char} {ps : List Piece} (h : Splits text ps)
    (hissues : ∀ p ∈ ps, p.issue? = none) : SplitsTrimmed text ps := by
  induction h with
  | nil => exact ⟨[], .nil, nofun, fun _ => rfl⟩
  | @cons p rest ps hfits _ ih =>
    obtain ⟨hissue, hrest⟩ := List.forall_mem_cons.mp hissues
    obtain ⟨qs, hqs, hclean, htokens⟩ := ih hrest
    have hcons {ps qs : List Piece} (h : ∀ line, tokensFrom line qs = tokensFrom line ps)
        (line : Int) : tokensFrom line (p :: qs) = tokensFrom line (p :: ps) := by
      simp only [tokensFrom, h]
    unfold SplitsTrimmed
    rw [Text.dropTrailing_append_eq]
    split
    · next hnil =>
      -- all that follows is white, so this is the last piece to be trimmed
      rw [hnil] at hqs
      obtain rfl : qs = [] := splits_iff.mp hqs
      have hlast : p.Fits [] := Piece.Fits.front hfits
      obtain ⟨rs, hrs, hclean', htokens'⟩ := hlast.splitsTrimmed hissue
      exact ⟨rs, hrs, hclean', fun line => (htokens' line).trans (hcons htokens line)⟩
    · obtain ⟨back, hback⟩ := Text.dropTrailing_front rest
      rw [← hback] at hfits
      exact ⟨p :: qs, .cons hfits.front hqs, List.forall_mem_cons.mpr ⟨hissue, hclean⟩,
        hcons htokens⟩

/-! ### Scans -/

/-- A text without issues scans to the same tokens, and still without issues, when the
    white space at its end is gone. -/
theorem scan_stripRight {source : String} {line : Int} (h : (scan source line).issues = []) :
    (scan (Text.stripRight source) line).tokens = (scan source line).tokens ∧
      (scan (Text.stripRight source) line).issues = [] := by
  have hsplits : Splits source.toList (pieces source.toList) := splits_iff.mpr rfl
  have hissues : ∀ p ∈ pieces source.toList, p.issue? = none := by
    have hkinds := kinds_issuesFrom line (pieces source.toList)
    rw [show issuesFrom line (pieces source.toList) = [] from h] at hkinds
    exact List.filterMap_eq_nil_iff.mp hkinds.symm
  obtain ⟨qs, hqs, hclean, htokens⟩ := hsplits.trimmed hissues
  have hpieces : pieces (Text.stripRight source).toList = qs := by
    rw [Text.stripRight, String.toList_ofList]
    exact (splits_iff.mp hqs).symm
  unfold scan
  dsimp only
  rw [hpieces]
  refine ⟨htokens line, List.map_eq_nil_iff.mp ((kinds_issuesFrom line qs).trans ?_)⟩
  exact List.filterMap_eq_nil_iff.mpr hclean

end Treewalk
