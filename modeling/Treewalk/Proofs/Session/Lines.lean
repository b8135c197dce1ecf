import Treewalk.Proofs.Session.Faults
import Treewalk.Proofs.Session.Shell
import Treewalk.Proofs.Token.Lines

/-! # Line numbers in the shell

    The shell counts the lines that are part of a program.  An entry is made of some of
    them, with line feeds between, and it is scanned from the number of the first one on.
    So whatever is complained about, now or when a function is called much later, the line
    that is named is the one that was typed. -/

namespace Treewalk

/-! ### Source lines -/

/-- The program text that the shell takes a line for, if it does. -/
def sourceText? (line : String) : Option String :=
  match Request.ofLine line with
  | .source text => some text
  | _ => none

/-- The texts of all lines that are part of a program. -/
def sourceLines (lines : List String) : List String := lines.filterMap sourceText?

/-- How a program text is typed, up to white space around it.  It stands as it is; or it
    begins with a word of the shell, and then one space is between the word and the rest.
    The question mark stands for `help`. -/
inductive TypedAs : String → String → Prop
  | plain {text} : text ≠ "" → TypedAs text text
  | word {word rest} : word ∈ ["help", "EOF", "exit"] → Text.strip rest ≠ "" →
      TypedAs (word ++ rest) (word ++ " " ++ Text.strip rest)
  | question {rest} : Text.strip rest ≠ "" → TypedAs ("?" ++ rest) ("help " ++ Text.strip rest)

theorem command?_eq_some {word : String} {request : Request} (h : command? word = some request) :
    word ∈ ["help", "EOF", "exit"] ∧ ∀ text, request ≠ .source text := by
  unfold command? at h
  split at h <;> cases h <;> exact ⟨by decide, nofun⟩

/-- Words that are no command are a text of a program. -/
theorem typedAs_of_ofWords {cs : List Char} {text : String} (hne : cs ≠ [])
    (h : Request.ofWords cs = .source text) : TypedAs (String.ofList cs) text := by
  unfold Request.ofWords splitWord at h
  dsimp only at h
  split at h
  · cases h
    exact .plain (by simpa using hne)
  · next request hrequest =>
    obtain ⟨hword, hsource⟩ := command?_eq_some hrequest
    have hsplit : String.ofList cs =
        String.ofList (cs.takeWhile isNameChar) ++ String.ofList (cs.dropWhile isNameChar) := by
      rw [← String.ofList_append, List.takeWhile_append_dropWhile]
    split at h
    · exact absurd h (hsource text)
    · next hargument =>
      cases h
      rw [hsplit]
      exact .word hword (by simpa using hargument)

theorem ofWords_question (rest : List Char) :
    Request.ofWords ("help ".toList ++ rest) =
      if (Text.strip (String.ofList rest)).isEmpty then .help
      else .source ("help " ++ Text.strip (String.ofList rest)) := by
  have hstrip : Text.strip (String.ofList (("help ".toList ++ rest).dropWhile isNameChar)) =
      Text.strip (String.ofList rest) := by
    unfold Text.strip
    simp only [String.toList_ofList]
    rfl
  have hword : String.ofList (("help ".toList ++ rest).takeWhile isNameChar) = "help" := rfl
  unfold Request.ofWords splitWord
  dsimp only
  rw [hstrip, hword]
  rfl

theorem typedAs_of_ofLine {line text : String} (h : Request.ofLine line = .source text) :
    TypedAs (Text.strip line) text := by
  unfold Request.ofLine at h
  rw [← String.ofList_toList (s := Text.strip line)]
  split at h
  · cases h
  · next rest hline =>
    rw [ofWords_question] at h
    split at h
    · cases h
    · next hrest =>
      cases h
      rw [hline, String.ofList_cons]
      exact .question (by simpa using hrest)
  · next rest hline =>
    cases h
    rw [hline]
    exact .plain (by simp)
  · next hne _ _ => exact typedAs_of_ofWords hne h

/-- Only blank lines and bare commands are no part of a program. -/
theorem strip_of_ofLine {line : String} (h : ∀ text, Request.ofLine line ≠ .source text) :
    Text.strip line ∈ ["", "help", "?", "exit", "EOF"] := by
  have hend := Text.dropTrailing_strip line
  unfold Request.ofLine at h
  rw [← String.ofList_toList (s := Text.strip line)]
  split at h
  · next hline =>
    rw [hline]
    decide
  · next rest hline =>
    rw [ofWords_question] at h
    split at h
    · next hrest =>
      rw [hline, ← List.singleton_append] at hend
      have hnil := Text.eq_nil_of_strip_eq_nil hend (String.isEmpty_iff.mp hrest)
      rw [hline, hnil]
      decide
    · exact absurd rfl (h _)
  · exact absurd rfl (h _)
  · have hcommand := Shell.command?_of_ofWords hend h rfl
    have hword := (command?_eq_some hcommand).1
    simp only [List.mem_cons, List.not_mem_nil, or_false] at hword ⊢
    rcases hword with hword | hword | hword <;> simp [hword]

theorem sourceText?_eq_some {line text : String} :
    sourceText? line = some text ↔ Request.ofLine line = .source text := by
  unfold sourceText?
  cases Request.ofLine line <;> simp

/-- The lines of programs are those that are neither blank nor bare commands. -/
theorem isSome_sourceText? (line : String) :
    (sourceText? line).isSome ↔ Text.strip line ∉ ["", "help", "?", "exit", "EOF"] := by
  constructor
  · intro h hmem
    -- a line is taken as it is without the white space around it
    have hwords : ∀ s ∈ ["", "help", "?", "exit", "EOF"],
        Text.strip s = s ∧ sourceText? s = none := by decide +kernel
    obtain ⟨hstrip, hnone⟩ := hwords _ hmem
    have hsame : sourceText? (Text.strip line) = sourceText? line := by
      unfold sourceText? Request.ofLine
      rw [hstrip]
    rw [← hsame, hnone] at h
    cases h
  · intro hmem
    by_contra hnone
    refine hmem (strip_of_ofLine fun text htext => hnone ?_)
    rw [sourceText?_eq_some.mpr htext]
    rfl

/-- A text of a program ends in something else than white space. -/
theorem TypedAs.ends {s text : String} (h : TypedAs s text)
    (hs : Text.dropTrailing s.toList = s.toList) :
    text ≠ "" ∧ Text.dropTrailing text.toList = text.toList := by
  have hbehind {rest : String} (hrest : Text.strip rest ≠ "") (front : String) :
      front ++ Text.strip rest ≠ "" ∧ Text.dropTrailing (front ++ Text.strip rest).toList =
        (front ++ Text.strip rest).toList := by
    refine ⟨by simp [hrest], ?_⟩
    rw [String.toList_append]
    exact Text.dropTrailing_append (by simpa using hrest) (Text.dropTrailing_strip rest) _
  cases h with
  | plain hne => exact ⟨hne, hs⟩
  | word _ hrest => exact hbehind hrest _
  | question hrest => exact hbehind hrest _

/-- There are no line feeds in it but those that were typed. -/
theorem TypedAs.newline_not_mem {s text : String} (h : TypedAs s text) (hs : '\n' ∉ s.toList) :
    '\n' ∉ text.toList := by
  cases h with
  | plain _ => exact hs
  | @word word rest _ _ =>
    simp only [String.toList_append, List.mem_append, not_or] at hs ⊢
    exact ⟨⟨hs.1, by decide⟩, fun hmem => hs.2 (Text.mem_of_mem_strip hmem)⟩
  | question _ =>
    simp only [String.toList_append, List.mem_append, not_or] at hs ⊢
    exact ⟨by decide, fun hmem => hs.2 (Text.mem_of_mem_strip hmem)⟩

theorem newline_not_mem_sourceLines {lines : List String} (h : ∀ l ∈ lines, '\n' ∉ l.toList) :
    ∀ text ∈ sourceLines lines, '\n' ∉ text.toList := by
  intro text hmem
  obtain ⟨line, hline, htext⟩ := List.mem_filterMap.mp hmem
  have htyped := typedAs_of_ofLine (sourceText?_eq_some.mp htext)
  exact htyped.newline_not_mem fun hstrip => h line hline (Text.mem_of_mem_strip hstrip)

/-! ### Entries -/

/-- The text is made of the last lines, from the one with the number `first` on. -/
def LastOf (typed : List String) (first : Int) (text : String) : Prop :=
  ∃ before ls, typed = before ++ ls ∧ ls ≠ [] ∧ first = before.length + 1 ∧
    text = "\n".intercalate ls

theorem LastOf.madeOf {typed : List String} {first : Int} {text : String}
    (h : LastOf typed first text) (more : List String) : MadeOf (typed ++ more) first text := by
  obtain ⟨before, ls, rfl, hls, hfirst, htext⟩ := h
  exact ⟨before, ls, more, rfl, hls, hfirst, htext⟩

theorem LastOf.concat {typed : List String} {first : Int} {pending : String}
    (h : LastOf typed first pending) (text : String) :
    LastOf (typed ++ [text]) first (pending ++ "\n" ++ text) := by
  obtain ⟨before, ls, rfl, hls, hfirst, rfl⟩ := h
  refine ⟨before, ls ++ [text], List.append_assoc _ _ _, by simp, hfirst, ?_⟩
  rw [String.intercalate_append_of_ne_nil hls (List.cons_ne_nil _ _), String.intercalate_singleton]

theorem lastOf_concat (typed : List String) (text : String) :
    LastOf (typed ++ [text]) (typed.length + 1) text :=
  ⟨typed, [text], rfl, List.cons_ne_nil _ _, rfl, String.intercalate_singleton.symm⟩

/-- Nothing is trimmed from an entry when a line is added to it. -/
theorem extendEntry_fst {text : String} (hne : text ≠ "")
    (hend : Text.dropTrailing text.toList = text.toList) (pending : String) :
    (Session.extendEntry text pending).1 =
      if pending.isEmpty then text else pending ++ "\n" ++ text := by
  unfold Session.extendEntry Text.stripRight
  dsimp only
  split
  · rw [hend, String.ofList_toList]
  · rw [String.toList_append, Text.dropTrailing_append (by simpa using hne) hend,
      ← String.toList_append, String.ofList_toList]

theorem extendEntry_snd (text pending : String) : (Session.extendEntry text pending).2 =
    Session.isIncomplete (Session.extendEntry text pending).1 := by
  unfold Session.extendEntry
  dsimp only

theorem endsInLine_of_dropTrailing {cs : List Char} (hne : cs ≠ [])
    (h : Text.dropTrailing cs = cs) : EndsInLine cs := by
  rw [Text.dropTrailing_eq, List.rdropWhile_eq_self_iff] at h
  refine ⟨cs.getLast hne, List.getLast?_eq_some_getLast hne, fun hnewline => h hne ?_⟩
  rw [hnewline]
  decide

theorem endsInLine_extendEntry {text : String} (hne : text ≠ "")
    (hend : Text.dropTrailing text.toList = text.toList) (pending : String) :
    EndsInLine (Session.extendEntry text pending).1.toList := by
  have htext := endsInLine_of_dropTrailing (by simpa using hne) hend
  rw [extendEntry_fst hne hend]
  split
  · exact htext
  · rw [String.toList_append]
    exact htext.append _

/-- In an entry that needs no other line, no string or comment is left open. -/
theorem closed_of_complete {entry : String} (h : Session.isIncomplete entry = false)
    (number : Int) : ∀ i ∈ (scan entry number).issues, i.1.isUnterminated = false := by
  have hopen : (scan entry 1).issues.any (·.1.isUnterminated) = false :=
    (Bool.or_eq_false_iff.mp h).1
  have hclosed : ∀ i ∈ (scan entry 1).issues, i.1.isUnterminated = false :=
    fun i hi => Bool.eq_false_iff.mpr (List.any_eq_false.mp hopen i hi)
  exact closed_of_line hclosed number

namespace Shell

/-- The entries that the lines complete, in order, each with the number of its first line.
    They are what the shell hands to its session. -/
def handed (sh : Shell) : List String → List (String × Int)
  | [] => []
  | line :: lines => (sh.completes? line).toList ++ handed (sh.feed line).1 lines

/-- The shell has counted the lines of programs, and knows which of them the pending entry
    is made of. -/
structure Counts (sh : Shell) (typed : List String) : Prop where
  number : sh.lineNumber = typed.length
  pending : sh.pending ≠ "" → LastOf typed sh.entryLine sh.pending

section Feed

variable {sh : Shell} {line text entry : String} {number : Int}

theorem feed_source (hline : Request.ofLine line = .source text) :
    sh.feed line = sh.source text := by
  unfold feed
  rw [hline]

/-- What the shell answers by itself leaves it as it is. -/
theorem feed_command (sh : Shell) (h : sourceText? line = none) :
    (sh.feed line).1 = sh ∧ (sh.feed line).2.err = "" ∧ sh.completes? line = none := by
  unfold sourceText? at h
  unfold feed completes?
  cases hline : Request.ofLine line with
  | source text =>
    rw [hline] at h
    cases h
  | _ => exact ⟨rfl, rfl, rfl⟩

theorem completes?_eq_some (h : sh.completes? line = some (entry, number)) :
    ∃ text, Request.ofLine line = .source text ∧ (Session.extendEntry text sh.pending).1 = entry ∧
      (Session.extendEntry text sh.pending).2 = false ∧ sh.startLine = number := by
  cases hline : sourceText? line with
  | none =>
    rw [(feed_command sh hline).2.2] at h
    cases h
  | some text =>
    have hsource := sourceText?_eq_some.mp hline
    rw [completes?_source sh hsource] at h
    split at h
    · cases h
    · next hcomplete =>
      obtain ⟨hentry, hnumber⟩ := Prod.mk.inj (Option.some.inj h)
      exact ⟨text, hsource, hentry, Bool.eq_false_iff.mpr hcomplete, hnumber⟩

/-- An entry that is complete is run. -/
theorem feed_completed (h : sh.completes? line = some (entry, number)) :
    sh.feed line = sh.conclude (runEntry sh.stack sh.session entry number) := by
  obtain ⟨text, hsource, rfl, hcomplete, rfl⟩ := completes?_eq_some h
  rw [feed_source hsource, source_complete hcomplete]

/-- Without a complete entry nothing is run, and nothing is complained about. -/
theorem feed_idle (h : sh.completes? line = none) :
    (sh.feed line).1.session = sh.session ∧ (sh.feed line).2.err = "" := by
  cases hline : sourceText? line with
  | none =>
    obtain ⟨hsame, herr, -⟩ := feed_command sh hline
    exact ⟨by rw [hsame], herr⟩
  | some text =>
    have hsource := sourceText?_eq_some.mp hline
    rw [completes?_source sh hsource] at h
    split at h
    · next hincomplete =>
      rw [feed_source hsource, source_incomplete hincomplete]
      exact ⟨rfl, rfl⟩
    · cases h

/-! ### Counting -/

variable {typed : List String}

/-- The entry that a line is added to is made of the last lines then. -/
theorem Counts.lastOf (h : sh.Counts typed) (hline : Request.ofLine line = .source text) :
    LastOf (typed ++ [text]) sh.startLine (Session.extendEntry text sh.pending).1 := by
  obtain ⟨hne, hend⟩ := (typedAs_of_ofLine hline).ends (Text.dropTrailing_strip line)
  rw [extendEntry_fst hne hend]
  unfold startLine
  split
  · rw [h.number]
    exact lastOf_concat typed text
  · next hpending => exact (h.pending (by simpa using hpending)).concat text

theorem feed_counts (h : sh.Counts typed) (line : String) :
    (sh.feed line).1.Counts (typed ++ (sourceText? line).toList) := by
  cases hline : sourceText? line with
  | none =>
    rw [(feed_command sh hline).1]
    simpa using h
  | some text =>
    have hsource := sourceText?_eq_some.mp hline
    have hnumber : sh.lineNumber + 1 = (typed ++ [text]).length := by
      rw [h.number, List.length_append]
      rfl
    rw [feed_source hsource]
    cases hincomplete : (Session.extendEntry text sh.pending).2 with
    | true =>
      rw [source_incomplete hincomplete]
      exact ⟨hnumber, fun _ => h.lastOf hsource⟩
    | false =>
      rw [source_complete hincomplete]
      exact ⟨hnumber, fun hne => absurd rfl hne⟩

theorem startShell_counts (host : Host) (color : Bool) (stack : HostStack) (limits : Limits) :
    (startShell host color stack limits).Counts [] :=
  ⟨rfl, fun h => absurd rfl h⟩

/-- An entry is numbered by the lines typed up to now, and by any that follow. -/
theorem Counts.numberedBy (h : sh.Counts typed) (hsome : sh.completes? line = some (entry, number))
    {more : List String}
    (hlines : ∀ l ∈ typed ++ (sourceText? line).toList ++ more, '\n' ∉ l.toList) :
    (scan entry number).NumberedBy (typed ++ (sourceText? line).toList ++ more) number entry := by
  obtain ⟨text, hsource, rfl, hcomplete, rfl⟩ := completes?_eq_some hsome
  obtain ⟨hne, hend⟩ := (typedAs_of_ofLine hsource).ends (Text.dropTrailing_strip line)
  rw [sourceText?_eq_some.mpr hsource, Option.toList_some] at hlines ⊢
  rw [extendEntry_snd] at hcomplete
  exact numberedBy_scan ((h.lastOf hsource).madeOf more) hlines
    (endsInLine_extendEntry hne hend sh.pending) (closed_of_complete hcomplete _)

end Feed

/-- Every entry that is handed over is numbered by the lines of programs. -/
theorem handed_numbered {sh : Shell} {typed : List String} (h : sh.Counts typed)
    {lines : List String} (hlines : ∀ l ∈ typed ++ sourceLines lines, '\n' ∉ l.toList) :
    ∀ p ∈ sh.handed lines, (scan p.1 p.2).NumberedBy (typed ++ sourceLines lines) p.2 p.1 := by
  induction lines generalizing sh typed with
  | nil => exact nofun
  | cons line lines ih =>
    have hcons : typed ++ sourceLines (line :: lines) =
        typed ++ (sourceText? line).toList ++ sourceLines lines := by
      unfold sourceLines
      rw [List.filterMap_cons]
      cases sourceText? line <;> simp
    rw [hcons] at hlines ⊢
    intro p hp
    rcases List.mem_append.mp hp with hp | hp
    · exact h.numberedBy (Option.mem_toList.mp hp) hlines
    · exact ih (feed_counts h line) hlines p hp

theorem handed_append (sh : Shell) (lines more : List String) :
    sh.handed (lines ++ more) = sh.handed lines ++ (sh.after lines).handed more := by
  induction lines generalizing sh with
  | nil => rfl
  | cons line lines ih =>
    rw [List.cons_append, handed, handed, ih, after_cons, List.append_assoc]

/-! ### Sessions -/

section Rooted

variable {T : Token → Prop} {sh : Shell}

/-- Running an entry keeps the session on tokens among `T`, if those of the entry are. -/
theorem runEntry_rooted {stack : HostStack} {s : Session} (h : s.Rooted T) {entry : String}
    {number : Int} (htokens : ∀ t ∈ (scan entry number).tokens, T t) :
    (runEntry stack s entry number).1.Rooted T := by
  have hadd := h.add htokens
  have hrun := hadd.run.1
  generalize hout : runEntry stack s entry number = out
  have hworks := runEntry_works stack s entry number
  rw [hout] at hworks
  cases hworks with
  | exhausted _ => exact h
  | refused _ _ => exact hadd
  | failed _ _ _ | done _ _ _ => exact hrun

theorem conclude_rooted {out : Session × Reporter.Ending × Option RunFailure}
    (h : out.1.Rooted T) : (sh.conclude out).1.session.Rooted T := by
  obtain ⟨session, ending, failure⟩ := out
  cases ending with
  | done => exact h.taken #[] []
  | _ => exact h.taken #[] session.results

theorem feed_rooted (h : sh.session.Rooted T) {line : String}
    (htokens : ∀ p ∈ (sh.completes? line).toList, ∀ t ∈ (scan p.1 p.2).tokens, T t) :
    (sh.feed line).1.session.Rooted T := by
  cases hcompletes : sh.completes? line with
  | none =>
    rw [(feed_idle hcompletes).1]
    exact h
  | some p =>
    rw [feed_completed hcompletes]
    exact conclude_rooted (runEntry_rooted h (htokens p (by simp [hcompletes])))

theorem after_rooted {lines : List String} (h : sh.session.Rooted T)
    (htokens : ∀ p ∈ sh.handed lines, ∀ t ∈ (scan p.1 p.2).tokens, T t) :
    (sh.after lines).session.Rooted T := by
  induction lines generalizing sh with
  | nil => exact h
  | cons line lines ih =>
    obtain ⟨hline, hlines⟩ := List.forall_mem_append.mp htokens
    rw [after_cons]
    exact ih (feed_rooted h hline) hlines

theorem startShell_rooted (host : Host) (color : Bool) (stack : HostStack) (limits : Limits) :
    (startShell host color stack limits).session.Rooted T :=
  Session.new_rooted interactivePath limits host.clock

end Rooted

/-! ### Diagnostics -/

/-- The token is part of one of the entries, and its line is the one that holds its last
    character. -/
def PlacedIn (lines : List String) (entries : List (String × Int)) (t : Token) : Prop :=
  ∃ p ∈ entries, PieceOn lines p.2 p.1 (.lexeme t.lexeme) t.line

/-- What is in an entry that begins on the line with the number `first`, on the lines that
    were typed. -/
def lineMarks (lines : List String) (first : Int) (entry : String) : Marks where
  token t := PieceOn lines first entry (.lexeme t.lexeme) t.line
  issue i n := i = .unexpectedCharacter ∧ ∃ c, PieceOn lines first entry (.stray c) n
  ending := EndsIn lines first entry.toList

/-- How a shell answers a line, given all lines of programs and all entries they make: what
    is complained about is on the line that is named. -/
structure Locates (sh : Shell) (lines : List String) (entries : List (String × Int))
    (line : String) : Prop where
  /-- Without a complete entry nothing is run, and nothing is complained about. -/
  idle : sh.completes? line = none →
    (sh.feed line).1.session = sh.session ∧ (sh.feed line).2.err = ""
  /-- A complete entry is run, and it is one of the entries. -/
  runs : ∀ entry number, sh.completes? line = some (entry, number) →
    (entry, number) ∈ entries ∧
      sh.feed line = sh.conclude (runEntry sh.stack sh.session entry number)
  /-- If the entry is refused, the complaints are about tokens and characters of the entry,
      on the lines that hold them. -/
  refused : ∀ entry number d, sh.completes? line = some (entry, number) →
    sh.Fits entry number → (sh.session.add entry number).2 = some d →
    (sh.feed line).2.err = sh.reporter.format d ++ "\n" ∧
      ∀ f ∈ d.findings, ∃ c, f = .complaint c ∧ c.PointsAt (lineMarks lines number entry)
  /-- If its run fails, the error is at a token of this or an earlier entry, on the line
      that holds it, and so are the calls that led there. -/
  failed : ∀ entry number e, sh.completes? line = some (entry, number) →
    sh.Fits entry number → (sh.session.add entry number).2 = none →
    (sh.session.add entry number).1.run.2 = some (.error e) →
    (sh.feed line).2.err = sh.reporter.format (.runtime e) ++ "\n" ∧
      e.PointsAt (PlacedIn lines entries)

/-- A complaint about a text that is numbered by lines is about something on the line that
    it names. -/
theorem pointsAt_lineMarks {found : Scan} {lines : List String} {first : Int} {entry : String}
    (hnumbered : found.NumberedBy lines first entry) {c : Complaint} (h : c.PointsAt found.marks) :
    c.PointsAt (lineMarks lines first entry) := by
  cases h with
  | scan hissue => exact .scan (hnumbered.pieceOn_issue hissue)
  | parse ht => exact .parse (hnumbered.pieceOn_token ht)
  | parseEnd hend =>
    cases hend
    exact .parseEnd hnumbered.endLine
  | resolve ht => exact .resolve (hnumbered.pieceOn_token ht)

section Locates

variable {sh : Shell} {lines : List String} {entries : List (String × Int)}

/-- The tokens of entries that are numbered by the lines are placed in them. -/
theorem placedIn_of_mem (hnumbered : ∀ p ∈ entries, (scan p.1 p.2).NumberedBy lines p.2 p.1) :
    ∀ p ∈ entries, ∀ t ∈ (scan p.1 p.2).tokens, PlacedIn lines entries t :=
  fun p hp _ ht => ⟨p, hp, (hnumbered p hp).pieceOn_token ht⟩

theorem Steady.locates (h : sh.Steady) (hrooted : sh.session.Rooted (PlacedIn lines entries))
    (hnumbered : ∀ p ∈ entries, (scan p.1 p.2).NumberedBy lines p.2 p.1) {line : String}
    (hhanded : ∀ p ∈ (sh.completes? line).toList, p ∈ entries) : sh.Locates lines entries line := by
  have hanswers := (feed_steady h line).2
  have hmem {entry : String} {number : Int} (hsome : sh.completes? line = some (entry, number)) :
      (entry, number) ∈ entries := hhanded _ (Option.mem_toList.mpr hsome)
  refine ⟨feed_idle, ?_, ?_, ?_⟩
  · exact fun entry number hsome => ⟨hmem hsome, feed_completed hsome⟩
  · intro entry number d hsome hfits hrefused
    refine ⟨(hanswers.refused entry number d hsome hfits hrefused).1, fun f hf => ?_⟩
    obtain ⟨c, rfl, hc⟩ := Session.add_points hrefused f hf
    exact ⟨c, rfl, pointsAt_lineMarks (hnumbered _ (hmem hsome)) hc⟩
  · intro entry number e hsome hfits haccepted hfailed
    refine ⟨(hanswers.failed entry number e hsome hfits haccepted hfailed).1, ?_⟩
    have hadded := hrooted.add (placedIn_of_mem hnumbered _ (hmem hsome))
    exact hadded.run.2 e hfailed

end Locates

end Shell

/-- Diagnostics of the shell point at the lines that were typed.  Lines are counted unless
    they are blank or a bare command.  Whatever lines are typed, every entry that the shell
    hands to its session is made of some of them, and each of its tokens carries the number
    of the line that holds its last character.  So complaints about an entry, and errors of
    its run, name the lines of the tokens and characters they are about. -/
theorem diagnostics_name_typed_lines (host : Host) (color : Bool) (stack : HostStack)
    (limits : Limits) (lines : List String) (hlines : ∀ l ∈ lines, '\n' ∉ l.toList) :
    (∀ l ∈ lines,
      ((sourceText? l).isSome ↔ Text.strip l ∉ ["", "help", "?", "exit", "EOF"]) ∧
        ∀ text, sourceText? l = some text → TypedAs (Text.strip l) text) ∧
      (∀ p ∈ (startShell host color stack limits).handed lines,
        (scan p.1 p.2).NumberedBy (sourceLines lines) p.2 p.1 ∧
          ∀ t ∈ (scan p.1 p.2).tokens,
            PieceOn (sourceLines lines) p.2 p.1 (.lexeme t.lexeme) t.line) ∧
      ∀ before line after, lines = before ++ line :: after →
        ((startShell host color stack limits).after before).Locates (sourceLines lines)
          ((startShell host color stack limits).handed lines) line := by
  have hnumbered : ∀ p ∈ (startShell host color stack limits).handed lines,
      (scan p.1 p.2).NumberedBy (sourceLines lines) p.2 p.1 :=
    Shell.handed_numbered (Shell.startShell_counts host color stack limits)
      (newline_not_mem_sourceLines hlines)
  refine ⟨fun l _ => ⟨isSome_sourceText? l, fun text htext => ?_⟩, fun p hp => ?_, ?_⟩
  · exact typedAs_of_ofLine (sourceText?_eq_some.mp htext)
  · exact ⟨hnumbered p hp, fun t ht => (hnumbered p hp).pieceOn_token ht⟩
  · rintro before line after rfl
    have hplaced := Shell.placedIn_of_mem hnumbered
    have hsteady := Shell.after_steady (Shell.startShell_steady host color stack limits) before
    refine hsteady.locates
      (Shell.after_rooted (Shell.startShell_rooted host color stack limits) fun p hp => hplaced p ?_)
      hnumbered fun p hp => ?_
    · rw [Shell.handed_append]
      exact List.mem_append_left _ hp
    · rw [Shell.handed_append]
      exact List.mem_append_right _ (List.mem_append_left _ hp)

/-- A function is typed over three lines, with a blank one between, and called over two,
    with a command before.  The error is in the third line of programs, and the call is
    closed in the sixth. -/
theorem error_in_line_typed_before :
    let sh := startShell .idle false (.ofCalls 1000) ⟨50, 20⟩
    let lines := ["print 1;", "fun f(x) \x7b", "", "return x + nope;", "\x7d", "help", "f(", "1);"]
    sh.handed lines =
        [("print 1;", 1), ("fun f(x) \x7b\nreturn x + nope;\n\x7d", 2), ("f(\n1);", 5)] ∧
      ((sh.after lines.dropLast).feed "1);").2.err =
        "<in>: error: Undefined variable 'nope'.\n[line 3] in f()\n[line 6] in script\n" ∧
      (RuntimeError.ofIssue (.undefinedVariable "nope") 3 [⟨"f", 6⟩]).PointsAt
        (Shell.PlacedIn (sourceLines lines) (sh.handed lines)) := by
  intro sh lines
  have hruns : sh.handed lines =
        [("print 1;", 1), ("fun f(x) \x7b\nreturn x + nope;\n\x7d", 2), ("f(\n1);", 5)] ∧
      (sh.after lines.dropLast).completes? "1);" = some ("f(\n1);", 5) ∧
      (sh.after lines.dropLast).Fits "f(\n1);" 5 ∧
      ((sh.after lines.dropLast).session.add "f(\n1);" 5).2 = none ∧
      ((sh.after lines.dropLast).session.add "f(\n1);" 5).1.run.2 =
        some (.error (.ofIssue (.undefinedVariable "nope") 3 [⟨"f", 6⟩])) := by
    decide +kernel +zetaReduce
  obtain ⟨hhanded, hcompletes, hfits, haccepted, hfailed⟩ := hruns
  have hlocates :=
    (diagnostics_name_typed_lines .idle false (.ofCalls 1000) ⟨50, 20⟩ lines (by decide)).2.2
    lines.dropLast "1);" [] rfl
  have hlast := hlocates.failed _ _ _ hcompletes hfits haccepted hfailed
  refine ⟨hhanded, ?_, hlast.2⟩
  rw [hlast.1]
  decide +kernel +zetaReduce

end Treewalk
