import Treewalk.Main
import Treewalk.Value.Describe
import Treewalk.Proofs.Grammar.Acceptance
import Treewalk.Proofs.Scope.Resolution
import Treewalk.Proofs.Lexical.Session
import Treewalk.Proofs.Token.Scanning
import Treewalk.Proofs.Scope.Rejection
import Treewalk.Proofs.Renumbering
import Treewalk.Proofs.Scope.Uniqueness
import Treewalk.Proofs.Token.Joining
import Treewalk.Proofs.Grammar.Script
import Treewalk.Proofs.Session.Splitting
import Treewalk.Proofs.Registers
import Treewalk.Proofs.Session.Registers
import Treewalk.Proofs.Session.Traces
import Treewalk.Proofs.Chronicle.Upkeep
import Treewalk.Proofs.Session.Upkeep
import Treewalk.Proofs.Session.Receivers
import Treewalk.Proofs.Chronicle.Pointers
import Treewalk.Proofs.Session.Heap
import Treewalk.Proofs.Session.Diary
import Treewalk.Proofs.Session.Entries
import Treewalk.Proofs.Session.Shell
import Treewalk.Proofs.Provenance.Addresses
import Treewalk.Proofs.Provenance.Sites
import Treewalk.Proofs.Provenance.Upkeep
import Treewalk.Proofs.Session.Provenance
import Treewalk.Proofs.Session.Depths
import Treewalk.Proofs.Session.Globals
import Treewalk.Proofs.Renaming.Trees
import Treewalk.Proofs.Renaming.Rules
import Treewalk.Proofs.Renaming.Relation
import Treewalk.Proofs.Renaming.Simulation
import Treewalk.Proofs.Session.Renaming
import Treewalk.Proofs.Bounds
import Treewalk.Proofs.Session.Bounds
import Treewalk.Proofs.Grammar.Entry
import Treewalk.Proofs.Grammar.Alike
import Treewalk.Proofs.Grammar.Progress
import Treewalk.Proofs.Grammar.Tokens
import Treewalk.Proofs.Scope.Sites
import Treewalk.Proofs.Faults
import Treewalk.Proofs.Session.Faults
import Treewalk.Proofs.Token.Lines
import Treewalk.Proofs.Session.Lines
import Treewalk.Proofs.Grammar.Balance
import Treewalk.Proofs.Token.Trimming
import Treewalk.Proofs.Session.Checking
import Treewalk.Proofs.Session.Continuation
import Treewalk.Proofs.Tree.Rendering
import Treewalk.Proofs.CommandLine.Files
import Treewalk.Proofs.CommandLine.Deep
import Treewalk.Proofs.Lexical.ForLoop
import Treewalk.Proofs.Returns.Controlled
import Treewalk.Proofs.Returns.Bodies
import Treewalk.Proofs.Returns.Discipline
import Treewalk.Proofs.Returns.Upkeep
import Treewalk.Proofs.Session.Returns
import Treewalk.Proofs.Token.LineEnds
import Treewalk.Proofs.Session.TypedLines
import Treewalk.Proofs.Number.Rounding
import Treewalk.Proofs.Number.Reading
import Treewalk.Proofs.Tree.Nested
import Treewalk.Proofs.Tree.Reading
import Treewalk.Proofs.Tree.Legibility
import Treewalk.Proofs.Grammar.Flat
import Treewalk.Proofs.Grammar.Recovery
import Treewalk.Proofs.Grammar.Sentences
import Treewalk.Proofs.Grammar.Decision
import Treewalk.Proofs.Grammar.Decision.Expressions
import Treewalk.Proofs.Grammar.Decision.Statements
import Treewalk.Proofs.Grammar.Earliest
import Treewalk.Proofs.Token.Boundaries
import Treewalk.Proofs.Session.CommandWords
import Treewalk.Proofs.Number.Literals
import Treewalk.Proofs.Number.Integral
import Treewalk.Proofs.Environment.Forest
