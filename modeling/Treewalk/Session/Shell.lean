import Treewalk.Report.Reporter
import Treewalk.Session.Basic
import Treewalk.Text.Lines
import Treewalk.Text.Quoted

/-! # The shell

    The shell reads lines.  A line is either a command word of the shell or a
    line of a program; lines of a program are collected until they make a
    complete entry, which is then run. -/

namespace Treewalk

/-! ### Texts -/

namespace Shell

/-- What the shell says when it starts. -/
def intro : String :=
  "oxa interpreter :: Python backend\nType 'help' for more information, 'exit' or Ctrl-D to leave."

/-- What the shell says when asked for help. -/
def help : String :=
  "Welcome to the oxa interpreter!\n\n"
    ++ "oxa is a small dynamically typed scripting language with first-class functions,\n"
    ++ "closures and classes. Statements end with ';' and a bare expression prints its\n"
    ++ "value.\n\n"
    ++ "Try it out by typing 'var greeting = \"hello\";', then 'greeting + \" world\"'.\n"
    ++ "Entries with unclosed braces or parentheses continue on the next line."

/-- Asks for a new entry. -/
def primaryPrompt : String := "> "

/-- Asks for another line of an entry. -/
def continuationPrompt : String := ". "

end Shell

/-! ### Input lines -/

/-- What a line asks of the shell. -/
inductive Request where
  /-- Nothing. -/
  | nothing
  /-- To show the help text. -/
  | help
  /-- To stop at the end of the input. -/
  | endOfInput
  /-- To stop. -/
  | exit
  /-- To take a line of a program. -/
  | source (line : String)
deriving DecidableEq, Repr

/-- Splits a line behind the longest word of letters, digits and underscores at
    its start; the rest loses the white space around it. -/
def splitWord (line : List Char) : String × String :=
  (String.ofList (line.takeWhile isNameChar),
    Text.strip (String.ofList (line.dropWhile isNameChar)))

/-- The command a word is by itself. -/
def command? : String → Option Request
  | "help" => some .help
  | "EOF" => some .endOfInput
  | "exit" => some .exit
  | _ => none

/-- The request of a line whose white space at both ends is gone.  A command
    word followed by anything is a line of a program. -/
def Request.ofWords (line : List Char) : Request :=
  let (word, argument) := splitWord line
  match command? word with
  | none => .source (String.ofList line)
  | some request => if argument.isEmpty then request else .source (word ++ " " ++ argument)

/-- What a line asks for.  A question mark at its start stands for `help`, and
    behind an exclamation mark there is no command. -/
def Request.ofLine (line : String) : Request :=
  match (Text.strip line).toList with
  | [] => .nothing
  | '?' :: rest => .ofWords ("help ".toList ++ rest)
  | '!' :: rest => .source (String.ofList ('!' :: rest))
  | words => .ofWords words

/-! ### The shell -/

/-- The state of a shell. -/
structure Shell where
  /-- The session that runs the entries. -/
  session : Session
  /-- Reports what goes wrong. -/
  reporter : Reporter
  /-- What exhausts the stack of the host. -/
  stack : HostStack
  /-- The lines of program text read so far. -/
  lineNumber : Int
  /-- The entry typed so far, if it needs more lines. -/
  pending : String
  /-- The line the pending entry started on. -/
  entryLine : Int
  /-- What the shell asks the user with. -/
  prompt : String

/-- What a line does. -/
structure Shell.Reply where
  /-- The text written to the output. -/
  out : String
  /-- The text written to the error output. -/
  err : String
  /-- The shell stops. -/
  stop : Bool
  /-- Why the line does not come to its end, if it does not: the failure of the
      interpreter that is passed on, or the loop that still goes round. -/
  cut : Option RunFailure

namespace Shell

/-- A shell on a session. -/
def new (session : Session) (reporter : Reporter) (stack : HostStack) : Shell :=
  { session, reporter, stack
    lineNumber := 0, pending := "", entryLine := 1, prompt := primaryPrompt }

/-- The kind of failure that reading an unset variable is to the user. -/
def unsetKind : String := "KeyError"

/-- How a cut-short run ends for the reporter. -/
def endingOf : RunFailure → Reporter.Ending
  | .error e => .failed (.runtime e)
  | .unset name => .unexpected unsetKind (Text.quoted name)
  | .malformed => .unexpected "Malformed" "program"
  | .endless => .unfinished

/-- Checks and runs a complete entry.  Yields the session, how it ended, and the
    failure if the run was cut short. -/
def runEntry (stack : HostStack) (session : Session) (entry : String) (line : Int) :
    Session × Reporter.Ending × Option RunFailure :=
  if stack.exhaustedBy session.interactive entry line then (session, .overflow, none)
  else
    match session.add entry line with
    | (session, some d) => (session, .failed d, none)
    | (session, none) =>
      match session.run with
      | (session, some failure) => (session, endingOf failure, some failure)
      | (session, none) => (session, .done, none)

/-- Takes all values to be shown, as lines. -/
def takeResults (session : Session) : String × Session :=
  (Text.unlines session.results, { session with results := [] })

/-- Takes a line of a program. -/
def source (sh : Shell) (line : String) : Shell × Reply :=
  let number := sh.lineNumber + 1
  let entryLine := if sh.pending.isEmpty then number else sh.entryLine
  let (entry, incomplete) := Session.extendEntry line sh.pending
  if incomplete then
    ({ sh with lineNumber := number, entryLine, pending := entry, prompt := continuationPrompt },
      ⟨"", "", false, none⟩)
  else
    let (session, ending, failure) := runEntry sh.stack sh.session entry entryLine
    let (printed, session) := session.takeOutput
    let (shown, session) := match ending with
      | .done => takeResults session
      | _ => ("", session)
    let (reporter, err, aftermath) := sh.reporter.guard ending
    let cut := match aftermath with
      | .passedOn | .unfinished => failure
      | _ => none
    ({ sh with
        session, reporter, lineNumber := number, entryLine
        pending := "", prompt := primaryPrompt },
      ⟨printed ++ shown, err, false, cut⟩)

/-- Takes a line of input. -/
def feed (sh : Shell) (line : String) : Shell × Reply :=
  match Request.ofLine line with
  | .nothing => (sh, ⟨"", "", false, none⟩)
  | .help => (sh, ⟨help ++ "\n", "", false, none⟩)
  | .endOfInput => (sh, ⟨"\n", "", true, none⟩)
  | .exit => (sh, ⟨"", "", true, none⟩)
  | .source line => sh.source line

end Shell

end Treewalk
