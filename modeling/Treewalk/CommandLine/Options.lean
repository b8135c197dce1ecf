import Treewalk.Text.Integer
import Treewalk.Text.Quoted

/-! # Command-line arguments

    Arguments are options or the path of a program.  A long option may be
    shortened as long as it stays unambiguous and may carry its value behind an
    equals sign; short options may be run together; everything behind `--` is a
    path, and so is what looks like a negative number. -/

namespace Treewalk

/-! ### Options -/

/-- The options. -/
inductive Flag where
  | help | printAst | noColor | verbose | recursionLimit
deriving DecidableEq, Repr

namespace Flag

/-- The ways an option can be written, in the order they are listed. -/
def names : Flag → List String
  | .help => ["-h", "--help"]
  | .printAst => ["--print-ast"]
  | .noColor => ["--no-color"]
  | .verbose => ["-v", "--verbose"]
  | .recursionLimit => ["--recursion-limit"]

/-- Every option. -/
def all : List Flag := [.help, .printAst, .noColor, .verbose, .recursionLimit]

/-- The option takes a value. -/
def takesValue : Flag → Bool
  | .recursionLimit => true
  | _ => false

/-- How an option is called in messages. -/
def title (f : Flag) : String := "/".intercalate f.names

/-- Every way to write an option, with the option. -/
def table : List (String × Flag) := all.flatMap fun f => f.names.map (·, f)

/-- The option that is written exactly so. -/
def named? (name : String) : Option Flag := table.lookup name

end Flag

/-- The bound on nesting that holds unless another is given. -/
def defaultRecursionLimit : Int := 10000

/-- What the arguments ask for. -/
structure Options where
  /-- The program to run; without one the shell is started. -/
  file : Option String
  /-- Print the program instead of running it. -/
  printAst : Bool
  /-- Do not emphasise diagnostics. -/
  noColor : Bool
  /-- Write notes on every phase. -/
  verbose : Bool
  /-- The bound on nesting. -/
  recursionLimit : Int
deriving DecidableEq, Repr

/-- What no arguments ask for. -/
def Options.default : Options := ⟨none, false, false, false, defaultRecursionLimit⟩

/-! ### Mistakes -/

/-- Why arguments are refused. -/
inductive ArgumentIssue where
  /-- The argument could be short for several options. -/
  | ambiguous (argument : String) (candidates : List String)
  /-- The option takes no value, but one is attached. -/
  | ignoredValue (flag : Flag) (value : String)
  /-- The option lacks its value. -/
  | missingValue (flag : Flag)
  /-- The value is no integer. -/
  | notInteger (flag : Flag) (value : String)
  /-- There is no use for these arguments. -/
  | unrecognized (arguments : List String)
deriving DecidableEq, Repr

/-- The wording of an issue. -/
def ArgumentIssue.message : ArgumentIssue → String
  | .ambiguous argument candidates =>
    "ambiguous option: " ++ argument ++ " could match " ++ ", ".intercalate candidates
  | .ignoredValue flag value =>
    "argument " ++ flag.title ++ ": ignored explicit argument " ++ Text.quoted value
  | .missingValue flag => "argument " ++ flag.title ++ ": expected one argument"
  | .notInteger flag value =>
    "argument " ++ flag.title ++ ": invalid int value: " ++ Text.quoted value
  | .unrecognized arguments => "unrecognized arguments: " ++ " ".intercalate arguments

/-- Why reading the arguments stops early. -/
inductive ArgumentStop where
  /-- The help text is asked for. -/
  | help
  /-- The arguments are refused. -/
  | refused (issue : ArgumentIssue)
deriving DecidableEq, Repr

/-! ### Kinds of arguments -/

/-- What an argument is. -/
inductive Argument where
  /-- The mark behind which there are no options. -/
  | separator
  /-- A path or the value of an option. -/
  | plain (text : String)
  /-- An option, perhaps with something attached to it; `short` tells that it
      was written with one dash. -/
  | option (flag : Flag) (short : Bool) (attached : Option (List Char))
  /-- An option that does not exist. -/
  | unknown (text : String)
deriving DecidableEq, Repr

/-- The argument is an option, known or not. -/
def Argument.isOption : Argument → Bool
  | .option .. | .unknown _ => true
  | .separator | .plain _ => false

/-- Splits an argument at the first equals sign. -/
def splitEquals (cs : List Char) : List Char × Option (List Char) :=
  match cs.dropWhile (· != '=') with
  | [] => (cs, none)
  | _ :: value => (cs.takeWhile (· != '='), some value)

/-- Decimal digits of any script, at least one. -/
def allDigits (cs : List Char) : Bool :=
  !cs.isEmpty && cs.all fun c => (Text.digitValue? c).isSome

/-- The argument looks like a negative number, with or without a fraction; one
    line end may follow. -/
def looksNegative (cs : List Char) : Bool :=
  match cs with
  | '-' :: rest =>
    let body := if rest.getLast? = some '\n' then rest.dropLast else rest
    allDigits body ||
      (match body.dropWhile fun c => (Text.digitValue? c).isSome with
       | '.' :: fraction => allDigits fraction
       | _ => false)
  | _ => false

/-- The options a long argument may be short for. -/
def longCandidates (name : List Char) : List (String × Flag) :=
  Flag.table.filter fun (full, _) => name.isPrefixOf full.toList

/-- What an argument that starts with a dash and is written like no option is. -/
def classifyUnusual (text : String) (cs : List Char) : Argument :=
  if looksNegative cs || cs.contains ' ' then .plain text else .unknown text

/-- What an argument with two dashes is, unless it names an option exactly. -/
def classifyLong (text : String) (cs : List Char) : Except ArgumentStop Argument :=
  let (name, value) := splitEquals cs
  match longCandidates name with
  | [] => .ok (classifyUnusual text cs)
  | [(_, flag)] => .ok (.option flag false value)
  | several => .error (.refused (.ambiguous text (several.map (·.1))))

/-- What an argument with one dash is, unless it names an option exactly. -/
def classifyShort (text : String) (cs : List Char) : Argument :=
  match Flag.named? (String.ofList (cs.take 2)) with
  | some flag => .option flag true (some (cs.drop 2))
  | none => classifyUnusual text cs

/-- What an argument is, if no `--` came before it. -/
def classify (text : String) : Except ArgumentStop Argument :=
  match text.toList with
  | '-' :: '-' :: [] => .ok .separator
  | '-' :: second :: rest =>
    let cs := '-' :: second :: rest
    let short := second != '-'
    match Flag.named? text with
    | some flag => .ok (.option flag short none)
    | none =>
      match splitEquals cs with
      | (name, some value) =>
        match Flag.named? (String.ofList name) with
        | some flag => .ok (.option flag short (some value))
        | none => if short then .ok (classifyShort text cs) else classifyLong text cs
      | (_, none) => if short then .ok (classifyShort text cs) else classifyLong text cs
  | _ => .ok (.plain text)

/-- What the arguments are. -/
def classifyAll : List String → Except ArgumentStop (List Argument)
  | [] => .ok []
  | text :: rest => do
    match ← classify text with
    | .separator => pure (.separator :: rest.map .plain)
    | argument =>
      let others ← classifyAll rest
      pure (argument :: others)

/-- How an argument was written. -/
def Argument.text : Argument → String
  | .separator => "--"
  | .plain text | .unknown text => text
  | .option flag _ _ => flag.title

/-! ### Reading options -/

/-- What has been read so far. -/
structure ArgumentState where
  /-- The options set so far. -/
  options : Options
  /-- The path has been read. -/
  hasFile : Bool
  /-- Arguments there is no use for. -/
  extras : List String

/-- Sets an option that takes no value. -/
def ArgumentState.set (s : ArgumentState) : Flag → Except ArgumentStop ArgumentState
  | .help => .error .help
  | .printAst => .ok { s with options := { s.options with printAst := true } }
  | .noColor => .ok { s with options := { s.options with noColor := true } }
  | .verbose => .ok { s with options := { s.options with verbose := true } }
  | .recursionLimit => .error (.refused (.missingValue .recursionLimit))

/-- Sets options that take no value, in order. -/
def ArgumentState.setAll (s : ArgumentState) : List Flag → Except ArgumentStop ArgumentState
  | [] => .ok s
  | f :: fs => do (← s.set f).setAll fs

/-- Sets the value of an option. -/
def ArgumentState.setValue (s : ArgumentState) (flag : Flag) (value : String) :
    Except ArgumentStop ArgumentState :=
  match Text.integer? value with
  | some n => .ok { s with options := { s.options with recursionLimit := n } }
  | none => .error (.refused (.notInteger flag value))

/-- Adds arguments there is no use for. -/
def ArgumentState.addExtras (s : ArgumentState) (texts : List String) : ArgumentState :=
  { s with extras := s.extras ++ texts }

/-- The short options that are run together behind the dash of `flag`, with that
    option first. -/
def flagRun (flag : Flag) : List Char → Except ArgumentStop (List Flag)
  | [] => .ok [flag]
  | c :: cs =>
    match Flag.named? (String.ofList ['-', c]) with
    | none => .error (.refused (.ignoredValue flag (String.ofList (c :: cs))))
    | some next => do
      let others ← flagRun next cs
      pure (flag :: others)

/-- Reads an option that takes no value but has something attached to it.  Behind
    one dash that may be more short options, all of which have to exist before
    any of them counts. -/
def readAttached (s : ArgumentState) (flag : Flag) (short : Bool) (attached : List Char) :
    Except ArgumentStop ArgumentState :=
  if short && !attached.isEmpty then do
    let flags ← flagRun flag attached
    s.setAll flags
  else .error (.refused (.ignoredValue flag (String.ofList attached)))

/-- Reads an option; the arguments behind it may hold its value.  Yields the
    arguments that are left. -/
def readOption (s : ArgumentState) (flag : Flag) (short : Bool) (attached : Option (List Char))
    (rest : List Argument) : Except ArgumentStop (ArgumentState × List Argument) :=
  if flag.takesValue then
    match attached with
    | some value => do pure (← s.setValue flag (String.ofList value), rest)
    | none =>
      match rest with
      | .plain text :: others => do pure (← s.setValue flag text, others)
      | _ => .error (.refused (.missingValue flag))
  else
    match attached with
    | none => do pure (← s.set flag, rest)
    | some cs => do pure (← readAttached s flag short cs, rest)

/-- Reads the arguments behind the last option: the path, with the mark before
    or behind it, and what there is no use for. -/
def readLast (s : ArgumentState) (rest : List Argument) : ArgumentState :=
  let texts := (rest.map (·.text))
  if s.hasFile then s.addExtras texts
  else
    let withFile (text : String) : ArgumentState :=
      { s with options := { s.options with file := some text }, hasFile := true }
    match rest with
    | [] | [.separator] => s
    | .separator :: file :: _ => (withFile file.text).addExtras (texts.drop 2)
    | file :: .separator :: _ => (withFile file.text).addExtras (texts.drop 2)
    | file :: _ => (withFile file.text).addExtras (texts.drop 1)

/-- Reads arguments from left to right; the number bounds the steps. -/
def readArguments : Nat → ArgumentState → List Argument → Except ArgumentStop ArgumentState
  | 0, s, _ => .ok s
  | n + 1, s, args =>
    if args.any (·.isOption) then
      match args with
      | .option flag short attached :: rest => do
        let (s, rest) ← readOption s flag short attached rest
        readArguments n s rest
      | .unknown text :: rest => readArguments n (s.addExtras [text]) rest
      | file :: rest =>
        if s.hasFile then readArguments n (s.addExtras [file.text]) rest
        else
          readArguments n
            { s with options := { s.options with file := some file.text }, hasFile := true } rest
      | [] => .ok s
    else .ok (readLast s args)

/-- Reads the arguments of the command line. -/
def Options.ofArguments (argv : List String) : Except ArgumentStop Options := do
  let args ← classifyAll argv
  let s ← readArguments (args.length + 1) ⟨.default, false, []⟩ args
  match s.extras with
  | [] => pure s.options
  | extras => .error (.refused (.unrecognized extras))

/-! ### Texts -/

/-- How the program is called. -/
def usageText : String :=
  "usage: oxa [-h] [--print-ast] [--no-color] [-v]\n"
    ++ "           [--recursion-limit RECURSION_LIMIT]\n"
    ++ "           [file]\n"

/-- What the program and its options do. -/
def helpText : String :=
  usageText
    ++ "\noxa scripting language interpreter\n\n"
    ++ "positional arguments:\n"
    ++ "  file                  file to interpret and run (if empty, goes to command-\n"
    ++ "                        line mode)\n\n"
    ++ "options:\n"
    ++ "  -h, --help            show this help message and exit\n"
    ++ "  --print-ast           print the parsed program in prefix notation instead of\n"
    ++ "                        running it\n"
    ++ "  --no-color            do not highlight diagnostics\n"
    ++ "  -v, --verbose         log each pipeline phase to stderr\n"
    ++ "  --recursion-limit RECURSION_LIMIT\n"
    ++ "                        host recursion limit, bounds how deeply oxa calls may\n"
    ++ "                        nest (default: " ++ toString defaultRecursionLimit ++ ")\n"

/-- What is written when arguments are refused. -/
def refusalText (issue : ArgumentIssue) : String :=
  usageText ++ "oxa: error: " ++ issue.message ++ "\n"

/-- The exit status when arguments are refused. -/
def refusalCode : Int := 2

end Treewalk
