import Treewalk.Grammar.Issue
import Treewalk.Machine.Basic
import Treewalk.Scope.Resolve
import Treewalk.Sort
import Treewalk.Token.Scan

/-! # Diagnostics

    What the user is told when something is wrong, and the exit status that
    goes with it. -/

namespace Treewalk

/-! ### Exit statuses -/

/-- Classes of failure that calling scripts can tell apart. -/
inductive ExitStatus where
  | ok | internal | badSyntax | badScoping | runtime | unreadable | interrupted
deriving DecidableEq, Repr

/-- The process exit status of a class. -/
def ExitStatus.code : ExitStatus → Nat
  | .ok => 0
  | .internal => 1
  | .badSyntax => 65
  | .badScoping => 66
  | .runtime => 70
  | .unreadable => 74
  | .interrupted => 130

/-- The one of two statuses with the greater exit status. -/
def ExitStatus.max (a b : ExitStatus) : ExitStatus := if a.code < b.code then b else a

/-! ### Complaints about a text -/

/-- The phases that find fault with a program before it runs. -/
inductive Phase where
  | scan | parse | resolve
deriving DecidableEq, Repr

/-- The exit status for complaints of a phase. -/
def Phase.status : Phase → ExitStatus
  | .scan | .parse => .badSyntax
  | .resolve => .badScoping

/-- A fault found before the program runs. -/
structure Complaint where
  /-- The phase that found it. -/
  phase : Phase
  /-- The line it is on. -/
  line : Int
  /-- Where on the line, in words that follow the word "Error". -/
  place : String
  /-- What is wrong. -/
  message : String
deriving DecidableEq, Repr

namespace Complaint

/-- The place of a token, given by its text. -/
def near (text : String) : String := " at '" ++ text ++ "'"

/-- The place behind the last token. -/
def atEnd : String := " at end"

/-- The complaint of the scanner about an issue. -/
def ofScan (issue : ScanIssue × Int) : Complaint := ⟨.scan, issue.2, "", issue.1.message⟩

/-- The complaint of the parser about an error in a text that ends on a line. -/
def ofParse (endLine : Int) (e : ParseError) : Complaint :=
  match e.site with
  | some t => ⟨.parse, t.line, near t.text, e.issue.message⟩
  | none => ⟨.parse, endLine, atEnd, e.issue.message⟩

/-- The complaint of resolution about an error. -/
def ofResolve (e : ResolveError) : Complaint :=
  ⟨.resolve, e.site.line, near e.site.text, e.issue.message⟩

/-- The text of a complaint without colour. -/
def text (c : Complaint) : String :=
  "[line " ++ toString c.line ++ "] Error" ++ c.place ++ ": " ++ c.message

/-- Complaints in the order of their lines; on one line they keep their order. -/
def byLine (cs : List Complaint) : List Complaint :=
  sortBy (fun a b => decide (a.line ≤ b.line)) cs

end Complaint

/-! ### Runtime errors -/

/-- A line number as it is shown; it may be unknown. -/
def lineText : Option Int → String
  | some line => toString line
  | none => "None"

/-- The lines of a stack trace, innermost call first: each call with the line
    reached in it, and at last the top level. -/
def traceLines : Option Int → List Frame → List String
  | line, [] => ["[line " ++ lineText line ++ "] in script"]
  | line, frame :: frames =>
    ("[line " ++ lineText line ++ "] in " ++ frame.name ++ "()") :: traceLines (some frame.line) frames

/-- An error of a running program. -/
structure RuntimeError where
  /-- What is wrong. -/
  message : String
  /-- The line it happened on, if known. -/
  line : Option Int
  /-- The stack trace, innermost call first. -/
  trace : List String
deriving DecidableEq, Repr

namespace RuntimeError

/-- The message for evaluation that is nested too deeply. -/
def overflowMessage : String := "Stack overflow."

/-- The error of an issue on a line, with the active calls. -/
def ofIssue (issue : RuntimeIssue) (line : Int) (frames : List Frame) : RuntimeError :=
  ⟨issue.message, some line, traceLines (some line) frames⟩

/-- The error of evaluation that is nested too deeply.  It has no place of its
    own, so the innermost call stands for it. -/
def ofOverflow (frames : List Frame) : RuntimeError :=
  let line := frames.head?.map (·.line)
  ⟨overflowMessage, line, traceLines line frames⟩

end RuntimeError

/-! ### Findings -/

/-- One thing that is wrong. -/
inductive Finding where
  /-- A complaint about a text. -/
  | complaint (c : Complaint)
  /-- An error of a running program. -/
  | runtime (e : RuntimeError)
  /-- Any other failure. -/
  | other (message : String) (line : Option Int) (internal : Bool) (status : ExitStatus)
deriving DecidableEq, Repr

namespace Finding

/-- The exit status that goes with a finding. -/
def status : Finding → ExitStatus
  | .complaint c => c.phase.status
  | .runtime _ => .runtime
  | .other _ _ _ status => status

/-- What is wrong, in short. -/
def message : Finding → String
  | .complaint c => c.message
  | .runtime e => e.message
  | .other message _ _ _ => message

/-- The line of a finding, if it has one. -/
def line : Finding → Option Int
  | .complaint c => some c.line
  | .runtime e => e.line
  | .other _ line _ _ => line

/-- The text of a finding without colour, path and trace. -/
def text : Finding → String
  | .complaint c => c.text
  | .runtime e => e.message
  | .other message _ _ _ => message

end Finding

/-! ### Diagnostics -/

/-- What is reported to the user at one time. -/
inductive Diagnostic where
  /-- One finding. -/
  | single (f : Finding)
  /-- Findings that are reported together, at least one. -/
  | several (first : Finding) (rest : List Finding)
deriving DecidableEq, Repr

namespace Diagnostic

/-- The first finding. -/
def first : Diagnostic → Finding
  | .single f => f
  | .several first _ => first

/-- The findings behind the first. -/
def rest : Diagnostic → List Finding
  | .single _ => []
  | .several _ rest => rest

/-- All findings in order. -/
def findings (d : Diagnostic) : List Finding := d.first :: d.rest

/-- The exit status that goes with a diagnostic: the greatest of its findings. -/
def status (d : Diagnostic) : ExitStatus :=
  d.rest.foldl (fun s f => s.max f.status) d.first.status

/-- What is wrong, in short. -/
def message : Diagnostic → String
  | .single f => f.message
  | .several _ rest => toString (rest.length + 1) ++ " error(s)"

/-- The line of a diagnostic: that of its first finding. -/
def line (d : Diagnostic) : Option Int := d.first.line

/-- The text of a diagnostic without colour, path and trace. -/
def text (d : Diagnostic) : String := "\n".intercalate (d.findings.map (·.text))

/-- One complaint about a text. -/
def complaint (c : Complaint) : Diagnostic := .single (.complaint c)

/-- The complaints of a phase, at least one. -/
def complaints (first : Complaint) (rest : List Complaint) : Diagnostic :=
  .several (.complaint first) (rest.map .complaint)

/-- An error of a running program. -/
def runtime (e : RuntimeError) : Diagnostic := .single (.runtime e)

/-- Any other failure. -/
def other (message : String) (line : Option Int) (internal : Bool) (status : ExitStatus) :
    Diagnostic :=
  .single (.other message line internal status)

/-- Some diagnostics as one, with the findings of all of them in order. -/
def together (first : Diagnostic) (others : List Diagnostic) : Diagnostic :=
  .several first.first (first.rest ++ others.flatMap findings)

/-- The program file cannot be opened or is no text. -/
def unreadable (path : String) : Diagnostic :=
  .other ("'" ++ path ++ "' could not be opened") none false .unreadable

/-- The path stands for the interactive input. -/
def reserved (path : String) : Diagnostic :=
  .other ("'" ++ path ++ "' is a reserved filename") none false .internal

/-- The user interrupted the run. -/
def interrupted : Diagnostic := .other "keyboard interrupt" none false .interrupted

/-- The interpreter ran out of stack outside of a running program. -/
def overflow : Diagnostic := .runtime ⟨RuntimeError.overflowMessage, none, []⟩

/-- A failure of the interpreter itself: its kind and a description. -/
def unexpected (kind description : String) : Diagnostic :=
  .other ("unknown error: '" ++ kind ++ ": " ++ description ++ "'") none true .internal

end Diagnostic

end Treewalk
