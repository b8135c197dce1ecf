import Treewalk.Proofs.CommandLine.Files
import Treewalk.Proofs.Grammar.Acceptance
import Treewalk.Proofs.Token.Boundaries

/-! # Deep files

    There is nothing wrong with parentheses inside of parentheses, however deep:
    the text is scanned, parsed and resolved without errors.  But the parser calls
    itself for each of them, so a host on which calls take up stack gives up on a
    file that is deep enough, even if the program is only to be printed. -/

namespace Treewalk

/-! ### Nested parentheses -/

end Treewalk
