import Treewalk.CommandLine.Options
import Treewalk.Session.Shell
import Treewalk.Text.Lines

/-! # The command line

    With a path the program of that file is run or printed, and every failure
    ends it with an exit status of its own; without a path the shell is
    started. -/

namespace Treewalk

/-! ### The host -/

/-- What the program finds around it. -/
structure Host where
  /-- The bytes of a file, if it can be opened. -/
  read : String → Option ByteArray
  /-- The text of the standard input. -/
  input : String
  /-- What the clock shows each time it is read. -/
  clock : Nat → Float
  /-- A text emphasised, in the colour of errors if the flag is set. -/
  highlight : Bool → String → String
  /-- What exhausts the stack under a recursion limit. -/
  stack : Int → HostStack

/-- A host without files and input, on which no time passes and nothing is emphasised. -/
def Host.idle : Host where
  read _ := none
  input := ""
  clock _ := 0
  highlight _ text := text
  stack limit := .ofCalls limit.toNat

/-! ### Bounds -/

/-- Evaluation never nests deeper than this, whatever is asked for. -/
def maxNesting : Nat := 10000

/-- The bounds on a run for a given recursion limit, if so many rounds of a loop
    are looked at. -/
def limitsFor (recursionLimit : Int) (rounds : Nat) : Limits :=
  ⟨min maxNesting recursionLimit.toNat, rounds⟩

/-- The bounds on a run unless others are given. -/
def defaultLimits (rounds : Nat) : Limits := limitsFor defaultRecursionLimit rounds

/-! ### Outcomes -/

/-- A failure of the interpreter that leaves the program without an exit status. -/
inductive Crash where
  /-- The recursion limit is not positive. -/
  | limitTooSmall
  /-- The recursion limit is no machine integer. -/
  | limitOutOfRange
  /-- The recursion limit is used up before a program is looked at. -/
  | limitUsedUp
  /-- A run in the shell was cut short. -/
  | run (failure : RunFailure)
deriving DecidableEq, Repr

/-- How the program ends. -/
inductive Exit where
  /-- With an exit status. -/
  | code (n : Int)
  /-- With a failure of the interpreter. -/
  | crash (c : Crash)
  /-- It does not, within the rounds that are looked at: a loop still goes round. -/
  | unfinished
deriving DecidableEq, Repr

/-- What a call of the program does. -/
structure Execution where
  /-- How it ends. -/
  exit : Exit
  /-- What it writes to the output. -/
  out : String
  /-- What it writes to the error output. -/
  err : String
deriving DecidableEq, Repr

/-- How many calls of the host are open when the recursion limit is set, if the
    program is called from the outermost level of a script. -/
def startDepth : Int := 7

/-- Why a recursion limit cannot be set. -/
def limitCrash? (limit : Int) : Option Crash :=
  if limit < -2147483648 ∨ 2147483647 < limit then some .limitOutOfRange
  else if limit < 1 then some .limitTooSmall
  else if limit ≤ startDepth then some .limitUsedUp
  else none

/-! ### Files -/

/-- The end of work on a file, for the reporter. -/
def Session.OpenFailure.ending : Session.OpenFailure → Reporter.Ending
  | .reported d => .failed d
  | .nullInPath => .unexpected "ValueError" "embedded null byte"
  | .overflow => .overflow

/-- What comes of guarded work that has written something. -/
def Reporter.finish (r : Reporter) (out : String) (ending : Reporter.Ending) : Execution :=
  match r.guard ending with
  | (_, err, .exits code) => ⟨.code code, out, err⟩
  | (_, err, .unfinished) => ⟨.unfinished, out, err⟩
  | (_, err, _) => ⟨.code 0, out, err⟩

/-- Runs or prints the program of a file. -/
def runFile (host : Host) (rounds : Nat) (options : Options) (path : String) : Execution :=
  let reporter := Reporter.new host.highlight true (!options.noColor) (some path)
  let stack := host.stack options.recursionLimit
  let session := Session.new path false (limitsFor options.recursionLimit rounds) host.clock
  match session.openPath stack host.read with
  | .error failure => reporter.finish "" failure.ending
  | .ok session =>
    if options.printAst then
      if stack.printing (session.queue.flatMap (·.statements)) then reporter.finish "" .overflow
      else reporter.finish (Text.unlines session.dump) .done
    else
      match session.run with
      | (session, none) => reporter.finish session.machine.output .done
      | (session, some failure) =>
        reporter.finish session.machine.output (Shell.endingOf failure)

/-! ### The shell loop -/

/-- Feeds lines to a shell until it stops, writing the prompt before each line.
    The end of the lines counts as the line `EOF`. -/
def shellLoop (sh : Shell) (out err : String) : List String → Execution
  | [] =>
    let (_, reply) := sh.feed "EOF"
    ⟨.code 0, out ++ sh.prompt ++ reply.out, err ++ reply.err⟩
  | line :: lines =>
    let (sh', reply) := sh.feed line
    let out := out ++ sh.prompt ++ reply.out
    let err := err ++ reply.err
    match reply.cut with
    | some .endless => ⟨.unfinished, out, err⟩
    | some failure =>
      let (_, again, _) := sh'.reporter.guard (Shell.endingOf failure)
      ⟨.crash (.run failure), out, err ++ again⟩
    | none => if reply.stop then ⟨.code 0, out, err⟩ else shellLoop sh' out err lines

/-- A shell as the command line starts it. -/
def startShell (host : Host) (color : Bool) (stack : HostStack) (limits : Limits) : Shell :=
  .new (.new interactivePath true limits host.clock)
    (.new host.highlight false color (some interactivePath)) stack

/-- Runs the shell on the standard input. -/
def runShell (host : Host) (rounds : Nat) (options : Options) : Execution :=
  let sh := startShell host (!options.noColor) (host.stack options.recursionLimit)
    (limitsFor options.recursionLimit rounds)
  shellLoop sh (Shell.intro ++ "\n") "" (Text.lines host.input)

/-! ### The program -/

/-- What a call of the program with some arguments does, as far as that shows in so
    many rounds of each loop. -/
def execute (host : Host) (rounds : Nat) (argv : List String) : Execution :=
  match Options.ofArguments argv with
  | .error .help => ⟨.code 0, helpText, ""⟩
  | .error (.refused issue) => ⟨.code refusalCode, "", refusalText issue⟩
  | .ok options =>
    match limitCrash? options.recursionLimit with
    | some crash => ⟨.crash crash, "", ""⟩
    | none =>
      match options.file with
      | some path => runFile host rounds options path
      | none => runShell host rounds options

end Treewalk
