import Treewalk.Report.Diagnostic

/-! # Reporting

    A reporter lays out diagnostics, remembers the last exit status, and decides
    whether a failure ends the program. -/

namespace Treewalk

/-! ### Layout -/

/-- Longer stack traces are cut in the middle to this many entries. -/
def traceLimit : Nat := 16

/-- A stack trace with its middle part left out if it is too long. -/
def shortenTrace (trace : List String) : List String :=
  if trace.length ≤ traceLimit then trace
  else
    let half := traceLimit / 2
    let skipped := trace.length - 2 * half
    trace.take half ++ ("... " ++ toString skipped ++ " more frame(s) ...")
      :: trace.drop (trace.length - half)

/-- How and for which program failures are reported. -/
structure Reporter where
  /-- A failure ends the program. -/
  fatal : Bool
  /-- Diagnostics are emphasised. -/
  color : Bool
  /-- How the host emphasises a text, in the colour of errors if the flag is set. -/
  highlight : Bool → String → String
  /-- The path of the program, if it is known. -/
  path : Option String
  /-- The status of the last failure. -/
  status : ExitStatus

namespace Reporter

/-- A reporter before any failure. -/
def new (highlight : Bool → String → String) (fatal color : Bool) (path : Option String) :
    Reporter :=
  { fatal, color, highlight, path, status := .ok }

/-- The text, emphasised if the reporter does that. -/
def paint (r : Reporter) (red : Bool) (text : String) : String :=
  if r.color then r.highlight red text else text

/-- The layout of a complaint. -/
def complaintText (r : Reporter) (c : Complaint) : String :=
  "[line " ++ toString c.line ++ "] " ++ r.paint true "Error" ++ c.place ++ ": " ++ c.message

/-- The layout of a runtime error: the message behind the path of the program,
    then the stack trace. -/
def runtimeText (r : Reporter) (e : RuntimeError) : String :=
  let header := r.paint true "error: "
  let header := match r.path with
    | some path => if path.isEmpty then header else r.paint false (path ++ ": ") ++ header
    | none => header
  "\n".intercalate ((header ++ e.message) :: shortenTrace e.trace)

/-- The layout of a finding. -/
def findingText (r : Reporter) : Finding → String
  | .complaint c => r.complaintText c
  | .runtime e => r.runtimeText e
  | .other message _ internal _ =>
    (if internal then r.paint true "[internal] " else "") ++ r.paint true "error: " ++ message

/-- The layout of a diagnostic: its findings, one below the other. -/
def format (r : Reporter) (d : Diagnostic) : String :=
  "\n".intercalate (d.findings.map r.findingText)

/-! ### Guarded work -/

/-- How work that a reporter guards came to its end. -/
inductive Ending where
  /-- Without failure. -/
  | done
  /-- The user interrupted it. -/
  | interrupted
  /-- It asked to leave the program with an exit status. -/
  | leave (code : Int)
  /-- The interpreter ran out of stack outside of a running program. -/
  | overflow
  /-- It failed in a way that is reported to the user. -/
  | failed (d : Diagnostic)
  /-- The interpreter itself failed: the kind of failure and its description. -/
  | unexpected (kind description : String)
  /-- It has not come to its end: a loop still goes round. -/
  | unfinished

/-- What happens after guarded work. -/
inductive Aftermath where
  /-- The program goes on. -/
  | goesOn
  /-- The program ends with an exit status. -/
  | exits (code : Int)
  /-- The failure is passed on. -/
  | passedOn
  /-- Nothing yet: the work goes on. -/
  | unfinished
deriving DecidableEq, Repr

/-- Writes a diagnostic and remembers its status. -/
def throw (r : Reporter) (d : Diagnostic) : Reporter × String :=
  ({ r with status := d.status }, r.format d ++ "\n")

/-- Reports a diagnostic that is the end of the matter. -/
def settle (r : Reporter) (d : Diagnostic) : Reporter × String × Aftermath :=
  let (r', text) := r.throw d
  (r', text, if r.fatal then .exits d.status.code else .goesOn)

/-- Reports how guarded work ended: the reporter afterwards, the text written,
    and what happens next. -/
def guard (r : Reporter) : Ending → Reporter × String × Aftermath
  | .done => (r, "", .goesOn)
  | .interrupted => r.settle .interrupted
  | .leave code => (r, "", .exits code)
  | .overflow => r.settle .overflow
  | .failed d => r.settle d
  | .unexpected kind description =>
    let d := Diagnostic.unexpected kind description
    let (r', text) := r.throw d
    (r', text, if r.fatal then .exits d.status.code else .passedOn)
  | .unfinished => (r, "", .unfinished)

end Reporter

end Treewalk
