import Treewalk.Grammar.Program
import Treewalk.Machine.Eval
import Treewalk.Report.Diagnostic
import Treewalk.Session.HostStack
import Treewalk.Text.Decode
import Treewalk.Text.White
import Treewalk.Tree.Render

/-! # Sessions

    A session takes program texts one after the other, each of which sees what
    the earlier ones declared.  A text is first checked and queued (`add`), and
    run later (`run`). -/

namespace Treewalk

/-! ### Notes -/

/-- What a session notes about its work. -/
inductive Note where
  /-- A text was scanned; the end of the text counts as a token. -/
  | scanned (tokens errors : Nat)
  /-- Tokens were parsed. -/
  | parsed (statements errors : Nat)
  /-- A list of statements was resolved. -/
  | resolved (tally : ResolveTally)
  /-- A text was queued. -/
  | queued (statements : Nat) (path : String) (line : Int)
  /-- A run ended in an error with so many active calls. -/
  | failed (calls : Nat) (message : String)
deriving DecidableEq, Repr

/-- The wording of a note. -/
def Note.message : Note → String
  | .scanned tokens errors =>
    "scanned " ++ toString tokens ++ " token(s), " ++ toString errors ++ " error(s)"
  | .parsed statements errors =>
    "parsed " ++ toString statements ++ " statement(s), " ++ toString errors ++ " error(s)"
  | .resolved tally =>
    "resolved " ++ toString tally.uses ++ " local reference(s), " ++ toString tally.errors
      ++ " error(s)"
  | .queued statements path line =>
    "queued " ++ toString statements ++ " statement(s) from " ++ path ++ ":" ++ toString line
  | .failed calls message =>
    "runtime error at depth " ++ toString calls ++ ": " ++ message

/-! ### Checking a text -/

/-- A text that can be run. -/
structure Entry (ρ : Type := Distance) where
  /-- Its statements. -/
  statements : List (Stmt ρ)
  /-- The value of its last statement is to be shown. -/
  bare : Bool

/-- The outcome of checking a text. -/
structure Checked (α : Type := Entry × Nat) where
  /-- What was noted on the way. -/
  notes : List Note
  /-- What was found of a text that can be run, such as the entry and the number of its
      local uses, or the complaints. -/
  outcome : Except (Complaint × List Complaint) α

/-- Scans, parses and resolves a text whose first line has the given number.
    Scan and parse errors are reported together; resolution only looks at a
    text without them. -/
def check (interactive : Bool) (source : String) (line : Int) : Checked :=
  let scanned := scan source line
  let parsed := parse interactive scanned.tokens
  let notes : List Note :=
    [.scanned (scanned.tokens.length + 1) scanned.issues.length,
     .parsed parsed.statements.length parsed.errors.length]
  let complaints := scanned.issues.map Complaint.ofScan
    ++ parsed.errors.map (Complaint.ofParse scanned.endLine)
  match Complaint.byLine complaints with
  | first :: rest => ⟨notes, .error (first, rest)⟩
  | [] =>
    let resolution := resolve parsed.statements
    let notes := notes ++ resolution.tallies.map .resolved
    match resolution.errors.map Complaint.ofResolve with
    | first :: rest => ⟨notes, .error (first, rest)⟩
    | [] => ⟨notes, .ok (⟨resolution.statements, parsed.bare⟩, resolution.uses.length)⟩

/-! ### Sessions -/

/-- The path that stands for the interactive input. -/
def interactivePath : String := "<in>"

/-- The state of a session, with the notes that uses of names carry in its code. -/
structure Session (ρ : Type := Distance) where
  /-- The path of the program, for diagnostics. -/
  path : String
  /-- Entries are typed one at a time. -/
  interactive : Bool
  /-- Bounds on its runs. -/
  limits : Limits
  /-- The state of the machine. -/
  machine : Machine ρ
  /-- Calls that were active when a run was cut short by a read of an unset
      variable, innermost first; a runtime error clears them. -/
  frames : List Frame
  /-- The texts waiting to be run, oldest first. -/
  queue : List (Entry ρ)
  /-- The values to be shown, oldest first. -/
  results : List String
  /-- The number of local uses in all accepted texts. -/
  localUses : Nat
  /-- What was noted so far. -/
  notes : Array Note

/-- Why a run was cut short. -/
inductive RunFailure where
  /-- An error of the program. -/
  | error (e : RuntimeError)
  /-- A local variable was read before its declaration was complete. -/
  | unset (name : String)
  /-- The tree is none that resolution yields. -/
  | malformed
  /-- A loop goes round more often than is looked at. -/
  | endless
deriving DecidableEq, Repr

/-- Runs some entries in order, up to the first that fails. -/
def runInTurn {σ ε φ : Type} (runOne : σ → ε → σ × Option φ) (s : σ) : List ε → σ × Option φ
  | [] => (s, none)
  | entry :: entries =>
    match runOne s entry with
    | (s, none) => runInTurn runOne s entries
    | (s, some failure) => (s, some failure)

namespace Session

variable {ρ : Type}

/-- A session before its first text. -/
def new (path : String) (interactive : Bool) (limits : Limits) (clock : Nat → Float) : Session ρ :=
  { path, interactive, limits
    machine := .initial clock
    frames := [], queue := [], results := [], localUses := 0, notes := #[] }

/-- The environment that the statements of a text run in. -/
def env (_ : Session ρ) : Env := globalEnv

/-- Checks a text and queues it.  A text with complaints changes nothing but the
    notes. -/
def add (s : Session) (source : String) (line : Int) : Session × Option Diagnostic :=
  let checked := check s.interactive source line
  let s := { s with notes := s.notes ++ checked.notes }
  match checked.outcome with
  | .error (first, rest) => (s, some (.complaints first rest))
  | .ok (entry, uses) =>
    ({ s with
        queue := s.queue ++ [entry]
        localUses := s.localUses + uses
        notes := s.notes.push (.queued entry.statements.length s.path line) }, none)

/-- Records a runtime error: the calls left over from earlier runs are gone. -/
def fail (s : Session ρ) (frames : List Frame) (e : RuntimeError) : Session ρ × RunFailure :=
  ({ s with frames := [], notes := s.notes.push (.failed frames.length e.message) }, .error e)

/-- Records why a run was cut short. -/
def abort (s : Session ρ) (a : Abort) : Session ρ × RunFailure :=
  match a.fault with
  | .issue issue line => s.fail a.frames (.ofIssue issue line a.frames)
  | .overflow => s.fail a.frames (.ofOverflow a.frames)
  | .unset name => ({ s with frames := a.frames }, .unset name)
  | .malformed => (s, .malformed)
  | .endless => (s, .endless)

/-- Runs one entry. -/
def runEntry (s : Session) (entry : Entry) : Session × Option RunFailure :=
  let ctx : Context := ⟨s.env, s.frames⟩
  match Eval.program s.limits ctx entry.statements .nil s.machine with
  | .ok v machine =>
    let results := if entry.bare then s.results ++ [v.text] else s.results
    ({ s with machine, results }, none)
  | .error a machine =>
    let (s, failure) := { s with machine }.abort a
    (s, some failure)

/-- Runs entries in order, up to the first that fails. -/
def runEntries (s : Session) (entries : List Entry) : Session × Option RunFailure :=
  runInTurn runEntry s entries

/-- Runs what is queued, up to the first failure.  The queue is empty afterwards
    either way, so that a failed entry is never run twice. -/
def run (s : Session) : Session × Option RunFailure :=
  runEntries { s with queue := [] } s.queue

/-- The oldest value to be shown, if there is one. -/
def pop? (s : Session ρ) : Option (String × Session ρ) :=
  match s.results with
  | [] => none
  | r :: rest => some (r, { s with results := rest })

/-- The queued statements in printed form. -/
def dump (s : Session) : List String :=
  s.queue.flatMap fun entry => entry.statements.map (·.render)

/-- The text printed since it was last taken. -/
def takeOutput (s : Session ρ) : String × Session ρ :=
  (s.machine.output, { s with machine := { s.machine with printed := #[] } })

/-! ### Opening -/

/-- Why a session could not be opened. -/
inductive OpenFailure where
  /-- A failure that is reported to the user. -/
  | reported (d : Diagnostic)
  /-- The path holds a character that no path can hold. -/
  | nullInPath
  /-- Checking the text of the file exhausts the stack of the host. -/
  | overflow
deriving DecidableEq, Repr

/-- Opens a session on a path.  The path `<in>` is for interactive sessions; any
    other is that of a file, which is read with `read` and queued. -/
def openPath (stack : HostStack) (read : String → Option ByteArray) (s : Session) :
    Except OpenFailure Session :=
  if s.path = interactivePath then
    if s.interactive then .ok s else .error (.reported (.reserved s.path))
  else if s.path.toList.contains '\x00' then .error .nullInPath
  else
    match (read s.path).bind Text.decode? with
    | none => .error (.reported (.unreadable s.path))
    | some source =>
      if stack.exhaustedBy s.interactive source 1 then .error .overflow
      else
        match s.add source 1 with
        | (s, none) => .ok s
        | (_, some d) => .error (.reported d)

/-! ### Continued entries -/

/-- The number of brackets that are opened and not closed. -/
def openBrackets (tokens : List Token) : Int :=
  tokens.foldl
    (fun n t =>
      match t.lexeme with
      | .symbol .leftBrace | .symbol .leftParen => n + 1
      | .symbol .rightBrace | .symbol .rightParen => n - 1
      | _ => n)
    0

/-- An entry needs another line: a string, a comment or a bracket is still open. -/
def isIncomplete (entry : String) : Bool :=
  let scanned := scan entry 1
  scanned.issues.any (·.1.isUnterminated) || decide (0 < openBrackets scanned.tokens)

/-- Adds a line to the entry typed so far.  Yields the entry without the white
    space at its end, and whether it needs another line. -/
def extendEntry (line pending : String) : String × Bool :=
  let entry := Text.stripRight (if pending.isEmpty then line else pending ++ "\n" ++ line)
  (entry, isIncomplete entry)

end Session

end Treewalk
