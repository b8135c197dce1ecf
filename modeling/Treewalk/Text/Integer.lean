import Treewalk.Text.Digit
import Treewalk.Text.White

/-! # Integers in text

    An integer is written with decimal digits of any script, perhaps with a sign
    in front, single underscores between digits, and white space around it.  It
    has at most 4300 digits. -/

namespace Treewalk.Text

/-- White space that may stand around an integer: the information separators do
    not count. -/
def isPadding (c : Char) : Bool := isWhite c && !(0x1C ≤ c.toNat && c.toNat ≤ 0x1F)

/-- The greatest number of digits an integer may have. -/
def maxDigits : Nat := 4300

/-- The values of the digits behind a digit, up to the end of the text. -/
def moreDigits? : List Char → Option (List Nat)
  | [] => some []
  | '_' :: c :: rest => do
    let d ← digitValue? c
    let ds ← moreDigits? rest
    pure (d :: ds)
  | c :: rest => do
    let d ← digitValue? c
    let ds ← moreDigits? rest
    pure (d :: ds)

/-- The natural number that the digits of a text make. -/
def natural? : List Char → Option Nat
  | [] => none
  | c :: rest => do
    let d ← digitValue? c
    let ds ← moreDigits? rest
    if maxDigits < ds.length + 1 then none
    else pure ((d :: ds).foldl (fun n k => 10 * n + k) 0)

/-- The integer that a text is. -/
def integer? (s : String) : Option Int :=
  let padded := s.toList.dropWhile isPadding
  match (padded.reverse.dropWhile isPadding).reverse with
  | '-' :: rest => (natural? rest).map fun n => -(n : Int)
  | '+' :: rest => (natural? rest).map Int.ofNat
  | cs => (natural? cs).map Int.ofNat

end Treewalk.Text
