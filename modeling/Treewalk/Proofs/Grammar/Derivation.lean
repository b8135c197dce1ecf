import Treewalk.Grammar.Program

/-! # The grammar

    The grammar of programs as an inductive relation between phrases, which are
    token lists, and trees.  Every rule says which phrases make up a phrase, so
    a derivation uses each token of its phrase once and in order, and which tree
    it stands for.  A repetition is a rule that adds one item at the end, so
    that operators, calls and property accesses group to the left.

        program     ::= declaration*
        declaration ::= "class" NAME ("<" NAME)? "{" function* "}" | "fun" function
                      | var-decl | statement
        function    ::= NAME "(" (NAME ("," NAME)*)? ")" block
        var-decl    ::= "var" NAME ("=" expression)? ";"
        statement   ::= expr-stmt | block | "print" expression ";" | "return" expression? ";"
                      | "while" "(" expression ")" statement
                      | "if" "(" expression ")" statement ("else" statement)?
                      | "for" "(" (var-decl | expr-stmt | ";") expression? ";" expression? ")"
                        statement
        block       ::= "{" declaration* "}"
        expr-stmt   ::= expression ";"
        expression  ::= (call ".")? NAME "=" expression | or
        or          ::= and ("or" and)*                (likewise the tighter operators)
        unary       ::= ("!" | "-") unary | call
        call        ::= primary ("(" (expression ("," expression)*)? ")" | "." NAME)*
        primary     ::= "true" | "false" | "nil" | "this" | NUMBER | STRING | NAME
                      | "(" expression ")" | "super" "." NAME
                      | "fun" "(" (NAME ("," NAME)*)? ")" block

    Read this way an `else` may belong to any open `if` before it.  With
    `nearest` only the derivations count in which it belongs to the nearest one.
    With `bare` an expression statement may lack its semicolon. -/

namespace Treewalk

/-! ### Tokens and categories -/

/-- The token of a symbol. -/
abbrev sym (s : Symbol) (line : Int) : Token := ⟨.symbol s, line⟩

/-- The token of a keyword. -/
abbrev word (k : Keyword) (line : Int) : Token := ⟨.keyword k, line⟩

/-- The token of a name. -/
abbrev ident (n : Name) : Token := ⟨.identifier n.text, n.line⟩

/-- The kinds of phrases. -/
inductive Category where
  | primary | call | unary
  /-- Operands joined by the operators of a level. -/
  | level (l : Parser.Level)
  /-- An operand of the operators of a level. -/
  | operand (l : Parser.Level)
  | expression
  /-- An expression or nothing. -/
  | optional
  /-- Expressions with commas between them. -/
  | arguments
  /-- What stands between the parentheses of a call. -/
  | argumentList
  /-- Names with commas between them. -/
  | params
  /-- What stands between the parentheses of a function. -/
  | paramList
  /-- A parameter list in parentheses and a block. -/
  | signature
  | block | function
  /-- The methods of a class. -/
  | methods
  | exprStmt | varDecl
  /-- The first clause of a `for`, with its semicolon. -/
  | forInitial
  /-- A statement; `dangling` if it ends in an `if` without `else`. -/
  | statement (dangling : Bool)
  | declaration | declarations

/-- The trees of a category. -/
abbrev Category.Tree : Category → Type
  | .primary | .call | .unary | .level _ | .operand _ | .expression => SourceExpr
  | .optional => Option SourceExpr
  | .arguments | .argumentList => List SourceExpr
  | .params | .paramList => List Name
  | .signature => List Name × List SourceStmt
  | .block | .declarations => List SourceStmt
  | .function => SourceFun
  | .methods => List SourceFun
  | .exprStmt | .varDecl | .statement _ | .declaration => SourceStmt
  | .forInitial => Option SourceStmt

/-- The next tighter level of operators. -/
def Parser.Level.tighter? : Parser.Level → Option Parser.Level
  | .or => some .and
  | .and => some .equality
  | .equality => some .comparison
  | .comparison => some .term
  | .term => some .factor
  | .factor => none

/-! ### Rules -/

/-- A phrase of a category and its tree. -/
inductive Derives (nearest bare : Bool) : (c : Category) → List Token → c.Tree → Prop
  -- primary expressions
  | falseWord {l} : Derives nearest bare .primary [word .falseWord l] (.literal (.bool false))
  | trueWord {l} : Derives nearest bare .primary [word .trueWord l] (.literal (.bool true))
  | nilWord {l} : Derives nearest bare .primary [word .nilWord l] (.literal .nil)
  | literal {x v l} :
      Lexeme.literal? x = some v → Derives nearest bare .primary [⟨x, l⟩] (.literal v)
  | this {l} : Derives nearest bare .primary [word .thisWord l] (.this l ())
  | name {n} : Derives nearest bare .primary [ident n] (.variable n ())
  | super {l l₁ n} :
      Derives nearest bare .primary [word .superWord l, sym .dot l₁, ident n] (.super l () n)
  | group {l₁ l₂ ts e} :
      Derives nearest bare .expression ts e →
      Derives nearest bare .primary (sym .leftParen l₁ :: (ts ++ [sym .rightParen l₂])) (.group e)
  | lambda {l ts names body} :
      Derives nearest bare .signature ts (names, body) →
      Derives nearest bare .primary (word .funWord l :: ts) (.lambda l names body)
  -- calls and properties
  | callee {ts e} : Derives nearest bare .primary ts e → Derives nearest bare .call ts e
  | call {l₁ l₂ ts us f args} :
      Derives nearest bare .call ts f → Derives nearest bare .argumentList us args →
      Derives nearest bare .call (ts ++ sym .leftParen l₁ :: (us ++ [sym .rightParen l₂]))
        (.call f args l₂)
  | property {l ts o n} :
      Derives nearest bare .call ts o →
      Derives nearest bare .call (ts ++ [sym .dot l, ident n]) (.get o n)
  -- operators
  | unaryOperand {ts e} : Derives nearest bare .call ts e → Derives nearest bare .unary ts e
  | unary {op l ts e} :
      Derives nearest bare .unary ts e →
      Derives nearest bare .unary (sym (UnaryOp.symbol op) l :: ts) (.unary op l e)
  | operandTighter {l l' ts e} :
      Parser.Level.tighter? l = some l' → Derives nearest bare (.level l') ts e →
      Derives nearest bare (.operand l) ts e
  | operandUnary {l ts e} :
      Parser.Level.tighter? l = none → Derives nearest bare .unary ts e →
      Derives nearest bare (.operand l) ts e
  | operand {l ts e} :
      Derives nearest bare (.operand l) ts e → Derives nearest bare (.level l) ts e
  | operator {l x op line ts us a b} :
      Derives nearest bare (.level l) ts a → Parser.Level.operator? l x = some op →
      Derives nearest bare (.operand l) us b →
      Derives nearest bare (.level l) (ts ++ ⟨x, line⟩ :: us) (op.join line a b)
  -- assignments
  | operation {ts e} :
      Derives nearest bare (.level .or) ts e → Derives nearest bare .expression ts e
  | assign {n l ts e} :
      Derives nearest bare .expression ts e →
      Derives nearest bare .expression (ident n :: sym .equal l :: ts) (.assign n () e)
  | setProperty {n l₁ l₂ ts us o e} :
      Derives nearest bare .call ts o → Derives nearest bare .expression us e →
      Derives nearest bare .expression
        (ts ++ sym .dot l₁ :: ident n :: sym .equal l₂ :: us) (.set o n e)
  | absent : Derives nearest bare .optional [] none
  | present {ts e} :
      Derives nearest bare .expression ts e → Derives nearest bare .optional ts (some e)
  -- lists
  | oneArgument {ts e} :
      Derives nearest bare .expression ts e → Derives nearest bare .arguments ts [e]
  | moreArguments {l ts us es e} :
      Derives nearest bare .arguments ts es → Derives nearest bare .expression us e →
      Derives nearest bare .arguments (ts ++ sym .comma l :: us) (es ++ [e])
  | noArguments : Derives nearest bare .argumentList [] []
  | someArguments {ts es} :
      Derives nearest bare .arguments ts es → es.length ≤ maxArguments →
      Derives nearest bare .argumentList ts es
  | oneParam {n} : Derives nearest bare .params [ident n] [n]
  | moreParams {l ts ns n} :
      Derives nearest bare .params ts ns →
      Derives nearest bare .params (ts ++ [sym .comma l, ident n]) (ns ++ [n])
  | noParams : Derives nearest bare .paramList [] []
  | someParams {ts ns} :
      Derives nearest bare .params ts ns → ns.length ≤ maxArguments →
      Derives nearest bare .paramList ts ns
  -- functions and blocks
  | signature {l₁ l₂ ts us names body} :
      Derives nearest bare .paramList ts names → Derives nearest bare .block us body →
      Derives nearest bare .signature (sym .leftParen l₁ :: (ts ++ sym .rightParen l₂ :: us))
        (names, body)
  | block {l₁ l₂ ts ss} :
      Derives nearest bare .declarations ts ss →
      Derives nearest bare .block (sym .leftBrace l₁ :: (ts ++ [sym .rightBrace l₂])) ss
  | function {n ts names body} :
      Derives nearest bare .signature ts (names, body) →
      Derives nearest bare .function (ident n :: ts) (.mk n names body)
  | noMethods : Derives nearest bare .methods [] []
  | moreMethods {ts us ms m} :
      Derives nearest bare .methods ts ms → Derives nearest bare .function us m →
      Derives nearest bare .methods (ts ++ us) (ms ++ [m])
  -- statements
  | exprStmt {l ts e} :
      Derives nearest bare .expression ts e →
      Derives nearest bare .exprStmt (ts ++ [sym .semicolon l]) (.expression e)
  | bareStmt {ts e} :
      bare = true → Derives nearest bare .expression ts e →
      Derives nearest bare .exprStmt ts (.expression e)
  | evaluate {ts s} :
      Derives nearest bare .exprStmt ts s → Derives nearest bare (.statement false) ts s
  | print {l l₁ ts e} :
      Derives nearest bare .expression ts e →
      Derives nearest bare (.statement false) (word .printWord l :: (ts ++ [sym .semicolon l₁]))
        (.print e)
  | ret {l l₁ ts e} :
      Derives nearest bare .optional ts e →
      Derives nearest bare (.statement false) (word .returnWord l :: (ts ++ [sym .semicolon l₁]))
        (.ret l e)
  | nested {ts ss} :
      Derives nearest bare .block ts ss → Derives nearest bare (.statement false) ts (.block ss)
  | loop {d l l₁ l₂ ts us c body} :
      Derives nearest bare .expression ts c → Derives nearest bare (.statement d) us body →
      Derives nearest bare (.statement d)
        (word .whileWord l :: sym .leftParen l₁ :: (ts ++ sym .rightParen l₂ :: us)) (.loop c body)
  | ifOnly {d l l₁ l₂ ts us c a} :
      Derives nearest bare .expression ts c → Derives nearest bare (.statement d) us a →
      Derives nearest bare (.statement true)
        (word .ifWord l :: sym .leftParen l₁ :: (ts ++ sym .rightParen l₂ :: us))
        (.branch c a none)
  | ifElse {d d' l l₁ l₂ l₃ ts us vs c a b} :
      (nearest = true → d = false) → Derives nearest bare .expression ts c →
      Derives nearest bare (.statement d) us a → Derives nearest bare (.statement d') vs b →
      Derives nearest bare (.statement d')
        (word .ifWord l :: sym .leftParen l₁ ::
          (ts ++ sym .rightParen l₂ :: (us ++ word .elseWord l₃ :: vs)))
        (.branch c a (some b))
  | noInitial {l} : Derives nearest bare .forInitial [sym .semicolon l] none
  | varInitial {ts s} :
      Derives nearest bare .varDecl ts s → Derives nearest bare .forInitial ts (some s)
  | exprInitial {ts s} :
      Derives nearest bare .exprStmt ts s → Derives nearest bare .forInitial ts (some s)
  | forLoop {d l l₁ l₂ l₃ ts us vs ws initial c step body} :
      Derives nearest bare .forInitial ts initial → Derives nearest bare .optional us c →
      Derives nearest bare .optional vs step → Derives nearest bare (.statement d) ws body →
      Derives nearest bare (.statement d)
        (word .forWord l :: sym .leftParen l₁ ::
          (ts ++ (us ++ sym .semicolon l₂ :: (vs ++ sym .rightParen l₃ :: ws))))
        (.forLoop initial c step body)
  -- declarations
  | var {l l₁ n} :
      Derives nearest bare .varDecl [word .varWord l, ident n, sym .semicolon l₁] (.var n none)
  | varInit {l l₁ l₂ n ts e} :
      Derives nearest bare .expression ts e →
      Derives nearest bare .varDecl
        (word .varWord l :: ident n :: sym .equal l₁ :: (ts ++ [sym .semicolon l₂]))
        (.var n (some e))
  | statement {d ts s} :
      Derives nearest bare (.statement d) ts s → Derives nearest bare .declaration ts s
  | declareVar {ts s} :
      Derives nearest bare .varDecl ts s → Derives nearest bare .declaration ts s
  | declareFun {l ts f} :
      Derives nearest bare .function ts f →
      Derives nearest bare .declaration (word .funWord l :: ts) (.function f)
  | declareClass {l l₁ l₂ n ts ms} :
      Derives nearest bare .methods ts ms →
      Derives nearest bare .declaration
        (word .classWord l :: ident n :: sym .leftBrace l₁ :: (ts ++ [sym .rightBrace l₂]))
        (.classDecl n none ms)
  | declareSubclass {l l₁ l₂ l₃ n m ts ms} :
      Derives nearest bare .methods ts ms →
      Derives nearest bare .declaration
        (word .classWord l :: ident n :: sym .less l₁ :: ident m :: sym .leftBrace l₂ ::
          (ts ++ [sym .rightBrace l₃]))
        (.classDecl n (some (m, ())) ms)
  | noDeclarations : Derives nearest bare .declarations [] []
  | moreDeclarations {ts us ss s} :
      Derives nearest bare .declarations ts ss → Derives nearest bare .declaration us s →
      Derives nearest bare .declarations (ts ++ us) (ss ++ [s])

end Treewalk
