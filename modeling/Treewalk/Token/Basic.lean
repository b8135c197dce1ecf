import Treewalk.Number.Layout

/-! # Tokens

    A token is a lexeme together with the line its last character is on.
    A lexeme holds what its text means, and the text can be written back
    from it: that is `Lexeme.text`. -/

namespace Treewalk

/-! ### Symbols and keywords -/

/-- Punctuation and operators. -/
inductive Symbol where
  | leftParen | rightParen | leftBrace | rightBrace
  | comma | dot | minus | plus | semicolon | slash | star
  | bang | bangEqual | equal | equalEqual
  | greater | greaterEqual | less | lessEqual
deriving DecidableEq, Repr

/-- How a symbol is written. -/
def Symbol.text : Symbol → String
  | .leftParen => "("
  | .rightParen => ")"
  | .leftBrace => "\x7b"
  | .rightBrace => "\x7d"
  | .comma => ","
  | .dot => "."
  | .minus => "-"
  | .plus => "+"
  | .semicolon => ";"
  | .slash => "/"
  | .star => "*"
  | .bang => "!"
  | .bangEqual => "!="
  | .equal => "="
  | .equalEqual => "=="
  | .greater => ">"
  | .greaterEqual => ">="
  | .less => "<"
  | .lessEqual => "<="

/-- Words that cannot be used as names. -/
inductive Keyword where
  | andWord | classWord | elseWord | falseWord | forWord | funWord | ifWord | nilWord
  | orWord | printWord | returnWord | superWord | thisWord | trueWord | varWord | whileWord
deriving DecidableEq, Repr

namespace Keyword

/-- How a keyword is written. -/
def text : Keyword → String
  | .andWord => "and"
  | .classWord => "class"
  | .elseWord => "else"
  | .falseWord => "false"
  | .forWord => "for"
  | .funWord => "fun"
  | .ifWord => "if"
  | .nilWord => "nil"
  | .orWord => "or"
  | .printWord => "print"
  | .returnWord => "return"
  | .superWord => "super"
  | .thisWord => "this"
  | .trueWord => "true"
  | .varWord => "var"
  | .whileWord => "while"

/-- Every keyword. -/
def all : List Keyword :=
  [.andWord, .classWord, .elseWord, .falseWord, .forWord, .funWord, .ifWord, .nilWord,
   .orWord, .printWord, .returnWord, .superWord, .thisWord, .trueWord, .varWord, .whileWord]

/-- The keyword with the given text, if it is one. -/
def ofText? (word : String) : Option Keyword := all.find? fun k => k.text == word

/-- A keyword that can only stand at the start of a statement. -/
def startsStatement : Keyword → Bool
  | .classWord | .funWord | .varWord | .forWord | .ifWord | .whileWord | .printWord
  | .returnWord => true
  | _ => false

end Keyword

/-! ### Lexemes -/

/-- The mark a string literal opens and closes with. -/
inductive Quote where
  | single | double
deriving DecidableEq, Repr

/-- The character of a quotation mark. -/
def Quote.char : Quote → Char
  | .single => '\''
  | .double => '"'

/-- The smallest meaningful units of a program text. -/
inductive Lexeme where
  /-- Punctuation or an operator. -/
  | symbol (s : Symbol)
  /-- A reserved word. -/
  | keyword (k : Keyword)
  /-- A name. -/
  | identifier (name : String)
  /-- A string literal with the text between its quotation marks. -/
  | string (quote : Quote) (content : String)
  /-- A number literal: the digits before the point and those after it, if there is one. -/
  | number (whole : String) (fraction : Option String)
deriving DecidableEq, Repr

/-- How a lexeme is written. -/
def Lexeme.text : Lexeme → String
  | .symbol s => s.text
  | .keyword k => k.text
  | .identifier name => name
  | .string quote content => String.singleton quote.char ++ content ++ String.singleton quote.char
  | .number whole none => whole
  | .number whole (some fraction) => whole ++ "." ++ fraction

/-! ### Literals -/

/-- Constants a program can write down. -/
inductive Literal where
  | nil
  | bool (b : Bool)
  | number (x : Float)
  | string (s : String)

/-- The constant that a string or number lexeme stands for. -/
def Lexeme.literal? : Lexeme → Option Literal
  | .string _ content => some (.string content)
  | .number whole fraction =>
    some (.number (Number.ofNumeral whole.toList (fraction.getD "").toList).toFloat)
  | _ => none

/-! ### Tokens -/

/-- A lexeme and the line of its last character. -/
structure Token where
  /-- What the token is. -/
  lexeme : Lexeme
  /-- The line its last character is on. -/
  line : Int
deriving DecidableEq, Repr

namespace Token

/-- How the token is written. -/
def text (t : Token) : String := t.lexeme.text

/-- The token is the given symbol. -/
def isSymbol (t : Token) (s : Symbol) : Bool := t.lexeme == .symbol s

/-- The token is the given keyword. -/
def isKeyword (t : Token) (k : Keyword) : Bool := t.lexeme == .keyword k

/-- The token can only stand at the start of a statement. -/
def startsStatement (t : Token) : Bool :=
  match t.lexeme with
  | .keyword k => k.startsStatement
  | _ => false

end Token

end Treewalk
