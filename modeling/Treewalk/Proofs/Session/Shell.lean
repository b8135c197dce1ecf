import Treewalk.CommandLine.Run
import Treewalk.Proofs.Lexical.Session
import Treewalk.Proofs.Session.Diary
import Treewalk.Proofs.Text.White

/-! # The shell between lines

    Whatever lines are typed, the shell asks for a continuation exactly while an
    entry is unfinished, and its session has nothing left to run or to show.  What
    is wrong with an entry is reported and goes no further; only a read of an unset
    variable is passed on.  All this is so however the host emphasises what is
    reported, and whatever exhausts its stack. -/

namespace Treewalk

namespace Shell

/-! ### Lines -/

/-- The shell after some lines, whatever they replied. -/
def after (sh : Shell) (lines : List String) : Shell :=
  lines.foldl (fun sh line => (sh.feed line).1) sh

/-- The number of the line that the entry begins on which the next line is part of. -/
def startLine (sh : Shell) : Int := if sh.pending.isEmpty then sh.lineNumber + 1 else sh.entryLine

/-- The entry that a line completes, if it does, and the line it began on. -/
def completes? (sh : Shell) (line : String) : Option (String × Int) :=
  match Request.ofLine line with
  | .source text =>
    let (entry, incomplete) := Session.extendEntry text sh.pending
    if incomplete then none else some (entry, sh.startLine)
  | _ => none

/-- What holds of a shell between lines. -/
structure Consistent (sh : Shell) : Prop where
  /-- A continuation is asked for exactly while an entry is pending. -/
  continuation : sh.prompt = continuationPrompt ↔ sh.pending ≠ ""
  /-- Otherwise a new entry is asked for. -/
  primary : sh.prompt = primaryPrompt ↔ sh.pending = ""
  /-- What is pending needs another line. -/
  unfinished : sh.pending ≠ "" → Session.extendEntry sh.pending "" = (sh.pending, true)
  /-- Nothing is left to run. -/
  queue : sh.session.queue = []
  /-- Nothing is left to show. -/
  results : sh.session.results = []

/-- The stack of the host holds what it takes to check an entry. -/
def Fits (sh : Shell) (entry : String) (number : Int) : Prop :=
  sh.stack.exhaustedBy sh.session.interactive entry number = false

instance (sh : Shell) (entry : String) (number : Int) : Decidable (sh.Fits entry number) :=
  inferInstanceAs (Decidable (_ = false))

/-- How a shell replies to a line. -/
structure Answers (sh : Shell) (line : String) (reply : Reply) : Prop where
  /-- It stops exactly at the lines `exit` and `EOF`. -/
  stops : reply.stop = true ↔ Text.strip line = "exit" ∨ Text.strip line = "EOF"
  /-- An entry that exhausts the stack of the host is reported, and that goes no further. -/
  exhausted : ∀ entry number, sh.completes? line = some (entry, number) →
    ¬ sh.Fits entry number →
    reply.err = sh.reporter.format .overflow ++ "\n" ∧ reply.cut = none
  /-- So are complaints about an entry. -/
  refused : ∀ entry number d, sh.completes? line = some (entry, number) →
    sh.Fits entry number → (sh.session.add entry number).2 = some d →
    reply.err = sh.reporter.format d ++ "\n" ∧ reply.cut = none
  /-- So is an error of the program when it is run. -/
  failed : ∀ entry number e, sh.completes? line = some (entry, number) →
    sh.Fits entry number → (sh.session.add entry number).2 = none →
    (sh.session.add entry number).1.run.2 = some (.error e) →
    reply.err = sh.reporter.format (.runtime e) ++ "\n" ∧ reply.cut = none
  /-- Only a read of an unset variable is passed on.  Otherwise a line that does not come to
      its end is one whose entry is still being run. -/
  cut : ∀ failure, reply.cut = some failure →
    ∃ entry number, sh.completes? line = some (entry, number) ∧ sh.Fits entry number ∧
      (sh.session.add entry number).2 = none ∧
      (sh.session.add entry number).1.run.2 = some failure ∧
      ((∃ name, failure = .unset name) ∨ failure = .endless)

/-! ### Requests -/

/-- A word of the shell stands alone on the line that asks for it. -/
theorem command?_of_ofWords {cs : List Char} {request : Request}
    (hend : Text.dropTrailing cs = cs) (hsource : ∀ text, request ≠ .source text)
    (h : Request.ofWords cs = request) : command? (String.ofList cs) = some request := by
  unfold Request.ofWords splitWord at h
  dsimp only at h
  have hsplit : cs = cs.takeWhile isNameChar ++ cs.dropWhile isNameChar :=
    (List.takeWhile_append_dropWhile).symm
  split at h
  · exact absurd h.symm (hsource _)
  · next found hfound =>
    split at h
    · next hempty =>
      have hnil : cs.dropWhile isNameChar = [] := by
        rw [hsplit] at hend
        exact Text.eq_nil_of_strip_eq_nil hend (String.isEmpty_iff.mp hempty)
      rw [hnil, List.append_nil] at hsplit
      rw [hsplit, ← h]
      exact hfound
    · exact absurd h.symm (hsource _)

/-- Behind a question mark there is nothing but `help`. -/
theorem ofWords_help (rest : List Char) :
    Request.ofWords ("help ".toList ++ rest) = .help ∨
      ∃ text, Request.ofWords ("help ".toList ++ rest) = .source text := by
  unfold Request.ofWords splitWord
  dsimp only
  have hword : String.ofList (("help ".toList ++ rest).takeWhile isNameChar) = "help" := rfl
  rw [hword]
  show (if _ then _ else _) = _ ∨ _
  split
  · exact .inl rfl
  · exact .inr ⟨_, rfl⟩

theorem command?_of_ofLine {line : String} {request : Request}
    (hrequest : request = .exit ∨ request = .endOfInput)
    (h : Request.ofLine line = request) : command? (Text.strip line) = some request := by
  have hsource : ∀ text, request ≠ .source text := by
    rintro text rfl
    rcases hrequest with h | h <;> cases h
  have hend := Text.dropTrailing_strip line
  unfold Request.ofLine at h
  split at h
  · subst h
    rcases hrequest with h | h <;> cases h
  · next rest _ =>
    subst h
    rcases ofWords_help rest with hhelp | ⟨text, htext⟩
    · rw [hhelp] at hrequest
      rcases hrequest with h | h <;> cases h
    · exact absurd htext (hsource text)
  · exact absurd h.symm (hsource _)
  · rw [← String.ofList_toList (s := Text.strip line)]
    exact command?_of_ofWords hend hsource h

/-- The shell is asked to stop by its two words for that, and by nothing else. -/
theorem ofLine_stops (line : String) :
    (Request.ofLine line = .exit ↔ Text.strip line = "exit") ∧
      (Request.ofLine line = .endOfInput ↔ Text.strip line = "EOF") := by
  refine ⟨⟨fun h => ?_, fun h => ?_⟩, fun h => ?_, fun h => ?_⟩
  · have hcommand := command?_of_ofLine (.inl rfl) h
    unfold command? at hcommand
    split at hcommand <;> cases hcommand
    assumption
  · unfold Request.ofLine
    rw [h]
    rfl
  · have hcommand := command?_of_ofLine (.inr rfl) h
    unfold command? at hcommand
    split at hcommand <;> cases hcommand
    assumption
  · unfold Request.ofLine
    rw [h]
    rfl

/-! ### Entries -/

theorem continuationPrompt_ne : continuationPrompt ≠ primaryPrompt := by decide

/-- An entry that needs another line is not empty, and it is trimmed already. -/
theorem extendEntry_incomplete {text pending : String}
    (h : (Session.extendEntry text pending).2 = true) :
    (Session.extendEntry text pending).1 ≠ "" ∧
      Session.extendEntry (Session.extendEntry text pending).1 "" =
        ((Session.extendEntry text pending).1, true) := by
  unfold Session.extendEntry at h ⊢
  dsimp only at h ⊢
  generalize (if pending.isEmpty then text else pending ++ "\n" ++ text) = typed at h ⊢
  refine ⟨fun hempty => ?_, ?_⟩
  · rw [hempty] at h
    revert h
    decide
  · rw [if_pos (show "".isEmpty = true from rfl), Text.stripRight_stripRight, h]

end Shell

namespace Session

theorem results_add (s : Session) (source : String) (line : Int) :
    (s.add source line).1.results = s.results := by
  unfold add
  dsimp only
  split <;> rfl

/-- A text that is refused is not queued. -/
theorem queue_add_refused {s : Session} {source : String} {line : Int} {d : Diagnostic}
    (h : (s.add source line).2 = some d) : (s.add source line).1.queue = s.queue := by
  unfold add at h ⊢
  dsimp only at h ⊢
  split at h
  · rfl
  · cases h

/-- A failed run shows no value of the entry that failed. -/
theorem results_runEntry_failed {s : Session} {entry : Entry} {failure : RunFailure}
    (h : (s.runEntry entry).2 = some failure) : (s.runEntry entry).1.results = s.results := by
  rw [runEntry_eq] at h ⊢
  cases hrun : Eval.program s.limits ⟨s.env, s.frames⟩ entry.statements .nil s.machine with
  | ok v machine =>
    rw [hrun] at h
    cases h
  | error cut machine =>
    obtain ⟨fault, frames⟩ := cut
    cases fault <;> rfl

/-- If the only text that is queued fails, there is nothing new to show. -/
theorem results_play_failed {s : Session} {source : String} {line : Int} {failure : RunFailure}
    (hqueue : s.queue = []) (haccepted : (s.add source line).2 = none)
    (h : (s.add source line).1.run.2 = some failure) :
    (s.add source line).1.run.1.results = s.results := by
  have hadded : ∃ entry, (s.add source line).1.queue = [entry] := by
    unfold add at haccepted ⊢
    dsimp only at haccepted ⊢
    split at haccepted
    · cases haccepted
    · next entry uses _ => exact ⟨entry, by rw [hqueue]; rfl⟩
  obtain ⟨entry, hentry⟩ := hadded
  rw [run_single hentry] at h ⊢
  rw [results_runEntry_failed h]
  exact s.results_add source line

end Session

namespace Shell

/-! ### Steady shells -/

/-- The session runs accepted programs, from states that such runs lead to. -/
def Sane (s : Session) : Prop :=
  ∃ (w : WatchedSession) (r : Lexical.LSession), w.session = s ∧ SessionsAgree w r

/-- A consistent shell that passes nothing on but failures of the interpreter, on a
    sane session. -/
structure Steady (sh : Shell) : Prop where
  consistent : sh.Consistent
  lenient : sh.reporter.fatal = false
  sane : Sane sh.session

theorem Sane.add {s : Session} (h : Sane s) (source : String) (line : Int) :
    Sane (s.add source line).1 := by
  obtain ⟨w, r, rfl, hagrees⟩ := h
  exact ⟨_, _, rfl, (add_agrees hagrees source line).2⟩

/-- A run of a sane session reads nothing that is not there, but for variables that
    are not set. -/
theorem Sane.run {s : Session} (h : Sane s) : Sane s.run.1 ∧ s.run.2 ≠ some .malformed := by
  obtain ⟨w, r, rfl, hagrees⟩ := h
  have hrun := run_agrees hagrees
  rw [← w.run_erases]
  exact ⟨⟨_, _, rfl, hrun.sessions⟩, fun hmalformed => hrun.explained _ hmalformed⟩

theorem Sane.takeOutput {s : Session} (h : Sane s) : Sane s.takeOutput.2 := by
  obtain ⟨w, r, rfl, hagrees⟩ := h
  exact ⟨_, _, rfl, (takeOutput_agrees hagrees).2⟩

theorem Sane.takeResults {s : Session} (h : Sane s) : Sane (takeResults s).2 := by
  obtain ⟨w, r, rfl, hagrees⟩ := h
  exact ⟨{ w with session := { w.session with results := [] } }, { r with results := [] }, rfl,
    { hagrees with results := rfl }⟩

section Entry

variable {stack : HostStack} {s : Session} {entry : String} {number : Int}

theorem runEntry_exhausted (h : stack.exhaustedBy s.interactive entry number = true) :
    runEntry stack s entry number = (s, .overflow, none) := by
  unfold runEntry
  rw [if_pos h]

theorem runEntry_refused (hfits : stack.exhaustedBy s.interactive entry number = false)
    {d : Diagnostic} (h : (s.add entry number).2 = some d) :
    runEntry stack s entry number = ((s.add entry number).1, .failed d, none) := by
  unfold runEntry
  rw [if_neg (Bool.eq_false_iff.mp hfits)]
  generalize s.add entry number = added at *
  obtain ⟨s', _ | _⟩ := added <;> cases h
  rfl

theorem runEntry_failed (hfits : stack.exhaustedBy s.interactive entry number = false)
    {failure : RunFailure} (haccepted : (s.add entry number).2 = none)
    (h : (s.add entry number).1.run.2 = some failure) :
    runEntry stack s entry number =
      ((s.add entry number).1.run.1, endingOf failure, some failure) := by
  unfold runEntry
  rw [if_neg (Bool.eq_false_iff.mp hfits)]
  generalize s.add entry number = added at *
  obtain ⟨s', _ | _⟩ := added <;> cases haccepted
  dsimp only at h ⊢
  generalize s'.run = ran at *
  obtain ⟨s'', _ | _⟩ := ran <;> cases h
  rfl

theorem runEntry_done (hfits : stack.exhaustedBy s.interactive entry number = false)
    (haccepted : (s.add entry number).2 = none) (h : (s.add entry number).1.run.2 = none) :
    runEntry stack s entry number = ((s.add entry number).1.run.1, .done, none) := by
  unfold runEntry
  rw [if_neg (Bool.eq_false_iff.mp hfits)]
  generalize s.add entry number = added at *
  obtain ⟨s', _ | _⟩ := added <;> cases haccepted
  dsimp only at h ⊢
  generalize s'.run = ran at *
  obtain ⟨s'', _ | _⟩ := ran <;> cases h
  rfl

/-- How work on an entry comes out: it exhausts the stack, it is refused, it is run and
    cut short, or it is run to its end. -/
inductive EntryWork (stack : HostStack) (s : Session) (entry : String) (number : Int) :
    Session × Reporter.Ending × Option RunFailure → Prop
  | exhausted (h : stack.exhaustedBy s.interactive entry number = true) :
      EntryWork stack s entry number (s, .overflow, none)
  | refused {d} (hfits : stack.exhaustedBy s.interactive entry number = false)
      (h : (s.add entry number).2 = some d) :
      EntryWork stack s entry number ((s.add entry number).1, .failed d, none)
  | failed {failure} (hfits : stack.exhaustedBy s.interactive entry number = false)
      (haccepted : (s.add entry number).2 = none)
      (h : (s.add entry number).1.run.2 = some failure) :
      EntryWork stack s entry number
        ((s.add entry number).1.run.1, endingOf failure, some failure)
  | done (hfits : stack.exhaustedBy s.interactive entry number = false)
      (haccepted : (s.add entry number).2 = none)
      (h : (s.add entry number).1.run.2 = none) :
      EntryWork stack s entry number ((s.add entry number).1.run.1, .done, none)

theorem runEntry_works (stack : HostStack) (s : Session) (entry : String) (number : Int) :
    EntryWork stack s entry number (runEntry stack s entry number) := by
  cases hfits : stack.exhaustedBy s.interactive entry number with
  | true =>
    rw [runEntry_exhausted hfits]
    exact .exhausted hfits
  | false =>
    cases haccepted : (s.add entry number).2 with
    | some d =>
      rw [runEntry_refused hfits haccepted]
      exact .refused hfits haccepted
    | none =>
      cases hfailure : (s.add entry number).1.run.2 with
      | some failure =>
        rw [runEntry_failed hfits haccepted hfailure]
        exact .failed hfits haccepted hfailure
      | none =>
        rw [runEntry_done hfits haccepted hfailure]
        exact .done hfits haccepted hfailure

/-- What is left of a session after an entry that ended in the given way. -/
structure Settled (s left : Session) (ending : Reporter.Ending) : Prop where
  sane : Sane left
  queue : left.queue = []
  /-- Only an entry that ended well has anything to show. -/
  results : ending ≠ .done → left.results = s.results

theorem runEntry_settled (hsane : Sane s) (hqueue : s.queue = []) :
    Settled s (runEntry stack s entry number).1 (runEntry stack s entry number).2.1 := by
  have hadd := hsane.add entry number
  have hrun := hadd.run.1
  have hempty : (s.add entry number).1.run.1.queue = [] := Session.queue_run _
  generalize hout : runEntry stack s entry number = out
  have hworks := runEntry_works stack s entry number
  rw [hout] at hworks
  cases hworks with
  | exhausted _ => exact ⟨hsane, hqueue, fun _ => rfl⟩
  | refused _ hrefused =>
    exact ⟨hadd, (Session.queue_add_refused hrefused).trans hqueue, fun _ => s.results_add entry number⟩
  | failed _ haccepted hfailure =>
    exact ⟨hrun, hempty, fun _ => Session.results_play_failed hqueue haccepted hfailure⟩
  | done _ _ _ => exact ⟨hrun, hempty, fun h => absurd rfl h⟩

/-- An accepted run that is cut short, but not by an error, reads an unset variable or is
    in a loop. -/
theorem cut_of_sane (hsane : Sane s) {failure : RunFailure}
    (h : (s.add entry number).1.run.2 = some failure)
    (herror : ∀ e, failure ≠ .error e) : (∃ name, failure = .unset name) ∨ failure = .endless := by
  cases failure with
  | unset name => exact .inl ⟨name, rfl⟩
  | endless => exact .inr rfl
  | malformed => exact absurd h (hsane.add entry number).run.2
  | error e => exact absurd rfl (herror e)

end Entry

theorem guard_fatal (r : Reporter) (ending : Reporter.Ending) :
    (r.guard ending).1.fatal = r.fatal := by
  cases ending <;> rfl

/-- A lenient reporter writes a diagnostic, and the program goes on. -/
theorem guard_failed {r : Reporter} (hlenient : r.fatal = false) (d : Diagnostic) :
    (r.guard (.failed d)).2 = (r.format d ++ "\n", .goesOn) := by
  simp only [Reporter.guard, Reporter.settle, Reporter.throw, hlenient]
  rfl

/-- So it does when the host runs out of stack. -/
theorem guard_overflow {r : Reporter} (hlenient : r.fatal = false) :
    (r.guard .overflow).2 = (r.format .overflow ++ "\n", .goesOn) :=
  guard_failed hlenient .overflow

/-! ### One line -/

/-- What becomes of the shell after a complete entry, given how that ended. -/
def conclude (sh : Shell) (out : Session × Reporter.Ending × Option RunFailure) : Shell × Reply :=
  let printed := out.1.takeOutput.1
  let left := match out.2.1 with
    | .done => takeResults out.1.takeOutput.2
    | _ => ("", out.1.takeOutput.2)
  let report := sh.reporter.guard out.2.1
  ({ sh with
      session := left.2, reporter := report.1, lineNumber := sh.lineNumber + 1
      entryLine := sh.startLine, pending := "", prompt := primaryPrompt },
    { out := printed ++ left.1, err := report.2.1, stop := false
      cut := match report.2.2 with
        | .passedOn | .unfinished => out.2.2
        | _ => none })

section Line

variable {sh : Shell} {text : String}

theorem source_incomplete (h : (Session.extendEntry text sh.pending).2 = true) :
    sh.source text =
      ({ sh with
          lineNumber := sh.lineNumber + 1, entryLine := sh.startLine
          pending := (Session.extendEntry text sh.pending).1, prompt := continuationPrompt },
        ⟨"", "", false, none⟩) := by
  unfold source
  simp only [h, if_true]
  rfl

theorem source_complete (h : (Session.extendEntry text sh.pending).2 = false) :
    sh.source text =
      sh.conclude
        (runEntry sh.stack sh.session (Session.extendEntry text sh.pending).1 sh.startLine) := by
  unfold source conclude startLine
  simp only [h]
  generalize runEntry sh.stack sh.session _ _ = out
  rfl

theorem completes?_source (sh : Shell) {line : String} (hline : Request.ofLine line = .source text) :
    sh.completes? line = if (Session.extendEntry text sh.pending).2 then none
      else some ((Session.extendEntry text sh.pending).1, sh.startLine) := by
  unfold completes?
  rw [hline]

theorem conclude_steady (h : sh.Steady) {out : Session × Reporter.Ending × Option RunFailure}
    (hout : Settled sh.session out.1 out.2.1) : (sh.conclude out).1.Steady := by
  obtain ⟨hc, hlenient, hsane⟩ := h
  obtain ⟨session, ending, failure⟩ := out
  obtain ⟨hsane', hqueue, hresults⟩ := hout
  refine ⟨⟨?_, ⟨fun _ => rfl, fun _ => rfl⟩, fun hne => absurd rfl hne, ?_, ?_⟩, ?_, ?_⟩
  · exact ⟨fun hprompt => absurd hprompt.symm continuationPrompt_ne, fun hne => absurd rfl hne⟩
  · cases ending <;> exact hqueue
  · cases ending with
    | done => rfl
    | _ => exact (hresults nofun).trans hc.results
  · exact (guard_fatal _ _).trans hlenient
  · cases ending with
    | done => exact hsane'.takeOutput.takeResults
    | _ => exact hsane'.takeOutput

/-- A line of a program leaves the shell steady. -/
theorem source_steady (h : sh.Steady) (text : String) : (sh.source text).1.Steady := by
  cases hincomplete : (Session.extendEntry text sh.pending).2 with
  | true =>
    -- the entry goes on: it is not empty, and trimming it again changes nothing
    obtain ⟨hentry, htrimmed⟩ := extendEntry_incomplete hincomplete
    rw [source_incomplete hincomplete]
    refine ⟨⟨⟨fun _ => hentry, fun _ => rfl⟩, ?_, fun _ => htrimmed, h.consistent.queue,
      h.consistent.results⟩, h.lenient, h.sane⟩
    exact ⟨fun hprompt => absurd hprompt continuationPrompt_ne, fun hnil => absurd hnil hentry⟩
  | false =>
    rw [source_complete hincomplete]
    exact conclude_steady h (runEntry_settled h.sane h.consistent.queue)

/-- How the shell replies to a line of a program. -/
theorem source_answers (h : sh.Steady) {line : String} (hline : Request.ofLine line = .source text) :
    sh.Answers line (sh.source text).2 := by
  have hstops := ofLine_stops line
  rw [hline] at hstops
  have hstop : (false = true) ↔ Text.strip line = "exit" ∨ Text.strip line = "EOF" := by
    simp [← hstops.1, ← hstops.2]
  have hcompletes := completes?_source sh hline
  cases hincomplete : (Session.extendEntry text sh.pending).2 with
  | true =>
    rw [hincomplete] at hcompletes
    rw [source_incomplete hincomplete]
    refine ⟨hstop, ?_, ?_, ?_, nofun⟩ <;> simp [hcompletes]
  | false =>
    rw [hincomplete] at hcompletes
    rw [source_complete hincomplete]
    generalize (Session.extendEntry text sh.pending).1 = typed at hcompletes ⊢
    -- the reply is what the reporter makes of how the entry ended
    have hentry {entry : String} {number : Int} (hsome : sh.completes? line = some (entry, number)) :
        (typed, sh.startLine) = (entry, number) := Option.some.inj (hcompletes.symm.trans hsome)
    refine ⟨hstop, ?_, ?_, ?_, ?_⟩
    · intro entry number hsome hfits
      cases hentry hsome
      rw [runEntry_exhausted ((Bool.not_eq_false _).mp hfits)]
      unfold conclude
      simp only [guard_overflow h.lenient, and_self]
    · intro entry number d hsome hfits hrefused
      cases hentry hsome
      rw [runEntry_refused hfits hrefused]
      unfold conclude
      simp only [guard_failed h.lenient, and_self]
    · intro entry number e hsome hfits haccepted hfailed
      cases hentry hsome
      rw [runEntry_failed hfits haccepted hfailed]
      unfold conclude
      simp only [endingOf, guard_failed h.lenient, and_self]
    · intro failure hcut
      generalize hout : runEntry sh.stack sh.session typed sh.startLine = out at hcut
      have hworks := runEntry_works sh.stack sh.session typed sh.startLine
      rw [hout] at hworks
      unfold conclude at hcut
      cases hworks with
      | failed hfits haccepted hfailure =>
        rename_i found
        -- an error is reported and goes no further, anything else is as it was found
        have hfound : found = failure ∧ ∀ e, found ≠ .error e := by
          cases found with
          | error e => simp [endingOf, guard_failed h.lenient] at hcut
          | _ =>
            simp [endingOf, Reporter.guard, h.lenient] at hcut
            exact ⟨hcut, nofun⟩
        obtain ⟨rfl, herror⟩ := hfound
        have hkind := cut_of_sane h.sane hfailure herror
        exact ⟨typed, sh.startLine, hcompletes, hfits, haccepted, hfailure, hkind⟩
      | exhausted _ => simp [guard_overflow h.lenient] at hcut
      | refused _ _ => simp [guard_failed h.lenient] at hcut
      | done _ _ _ => cases hcut

/-- Every line leaves the shell steady, and is answered. -/
theorem feed_steady (h : sh.Steady) (line : String) :
    (sh.feed line).1.Steady ∧ sh.Answers line (sh.feed line).2 := by
  have hstops := ofLine_stops line
  unfold feed
  cases hline : Request.ofLine line with
  | source text => exact ⟨source_steady h text, source_answers h hline⟩
  | _ =>
    -- a word of the shell leaves it as it is
    have hcompletes : sh.completes? line = none := by
      unfold completes?
      rw [hline]
    rw [hline] at hstops
    refine ⟨h, ?_, ?_, ?_, ?_, nofun⟩
    · simp [← hstops.1, ← hstops.2]
    all_goals simp [hcompletes]

end Line

theorem after_cons (sh : Shell) (line : String) (lines : List String) :
    sh.after (line :: lines) = (sh.feed line).1.after lines := by
  simp only [after, List.foldl_cons]

theorem after_steady {sh : Shell} (h : sh.Steady) (lines : List String) : (sh.after lines).Steady := by
  induction lines generalizing sh with
  | nil => exact h
  | cons line lines ih =>
    rw [after_cons]
    exact ih (feed_steady h line).1

theorem startShell_steady (host : Host) (color : Bool) (stack : HostStack) (limits : Limits) :
    (startShell host color stack limits).Steady := by
  refine ⟨⟨⟨?_, fun h => absurd rfl h⟩, ⟨fun _ => rfl, fun _ => rfl⟩, fun h => absurd rfl h, rfl, rfl⟩,
    rfl, ?_⟩
  · exact fun h => absurd h.symm continuationPrompt_ne
  · exact ⟨_, _, rfl, new_agrees interactivePath true limits host.clock⟩

end Shell

/-- The shell is always in a consistent state.  After any lines, whether they were
    answered or a failure was passed on, a continuation is asked for exactly while an
    entry is pending that needs one, and nothing is left to run or to show.  And
    whatever the next line is, the shell stops only at `exit` and `EOF`; complaints
    about an entry, errors of its run and a lack of stack are reported and go no
    further; and nothing is passed on but a read of an unset variable in the run of the
    entry. -/
theorem shell_stays_consistent (host : Host) (color : Bool) (stack : HostStack) (limits : Limits)
    (lines : List String) :
    ((startShell host color stack limits).after lines).Consistent ∧
      ∀ line, ((startShell host color stack limits).after lines).Answers line
        (((startShell host color stack limits).after lines).feed line).2 := by
  have hsteady := Shell.after_steady (Shell.startShell_steady host color stack limits) lines
  exact ⟨hsteady.consistent, fun line => (Shell.feed_steady hsteady line).2⟩

end Treewalk
