import Treewalk.CommandLine.Run
import Std.Time.DateTime.Timestamp

/-! # The executable

    Reads the command line, the program file and the input, and writes what the
    pure program answers.  Nothing is decided here. -/

namespace Treewalk

/-- Seconds since the epoch. -/
def currentTime : IO Float := do
  let now ← Std.Time.Timestamp.now
  pure (Float.ofInt now.toMillisecondsSinceUnixEpoch.val / 1000.0)

/-- The bytes of a file, if it can be opened. -/
def readFile? (path : String) : IO (Option ByteArray) := do
  try
    let bytes ← IO.FS.readBinFile path
    pure (some bytes)
  catch _ => pure none

/-- More rounds of a loop than there is time for. -/
def manyRounds : Nat := 0x4000000000000000

/-- The escape sequence that selects a rendition of the terminal. -/
def rendition (code : String) : String := "\x1b[" ++ code ++ "m"

/-- A text in bold, and in red if the flag is set. -/
def inBold (red : Bool) (text : String) : String :=
  rendition "1" ++ (if red then rendition "31" else "") ++ text ++ rendition "0"

/-- What this machine offers to the program, given the file and the time. -/
def thisHost (file : Option ByteArray) (now : Float) : Host where
  read _ := file
  input := ""
  clock _ := now
  highlight := inBold
  stack limit := .ofCalls limit.toNat

/-- Feeds the lines of the standard input to a shell until it stops. -/
partial def interact (sh : Shell) (input output errors : IO.FS.Stream) : IO UInt32 := do
  output.putStr sh.prompt
  output.flush
  let text ← input.getLine
  let line := if text.isEmpty then "EOF" else ((Text.lines text).headD "")
  let now ← currentTime
  let session := { sh.session with machine := { sh.session.machine with clock := fun _ => now } }
  let (sh, reply) := { sh with session }.feed line
  output.putStr reply.out
  errors.putStr reply.err
  match reply.cut with
  | some failure =>
    errors.putStr (sh.reporter.guard (Shell.endingOf failure)).2.1
    pure 1
  | none => if reply.stop then pure 0 else interact sh input output errors

/-- Writes what a call of the program does and yields its exit status. -/
def present (e : Execution) : IO UInt32 := do
  (← IO.getStdout).putStr e.out
  (← IO.getStderr).putStr e.err
  match e.exit with
  | .code n => pure (UInt32.ofNat n.toNat)
  | .crash _ | .unfinished => pure 1

end Treewalk

/-- Runs the interpreter. -/
def main (argv : List String) : IO UInt32 := do
  let now ← Treewalk.currentTime
  let call (file : Option ByteArray) : IO UInt32 :=
    Treewalk.present (Treewalk.execute (Treewalk.thisHost file now) Treewalk.manyRounds argv)
  match Treewalk.Options.ofArguments argv with
  | .ok options =>
    match options.file, Treewalk.limitCrash? options.recursionLimit with
    | none, none =>
      let output ← IO.getStdout
      output.putStr (Treewalk.Shell.intro ++ "\n")
      let host := Treewalk.thisHost none now
      let limits := Treewalk.limitsFor options.recursionLimit Treewalk.manyRounds
      let stack := host.stack options.recursionLimit
      let sh := Treewalk.startShell host (!options.noColor) stack limits
      Treewalk.interact sh (← IO.getStdin) output (← IO.getStderr)
    | some path, none => do call (← Treewalk.readFile? path)
    | _, some _ => call none
  | .error _ => call none
