import Treewalk.Proofs.Grammar.Acceptance
import Treewalk.Proofs.Scope.Accepted
import Treewalk.Token.Scan

/-! # Programs from texts are well-formed

    The names in a text are no keywords, since a scan makes keywords of those,
    and a branch or loop body is a statement, never a declaration.  So what is
    parsed from a text without errors is well-formed. -/

namespace Treewalk

/-! ### Names in a text -/

/-- No name among the tokens is a keyword. -/
def UnreservedNames (ts : List Token) : Prop :=
  ∀ n : Name, ident n ∈ ts → Unreserved n.text

theorem UnreservedNames.append_left {ts us : List Token} (h : UnreservedNames (ts ++ us)) :
    UnreservedNames ts :=
  fun n hn => h n (List.mem_append_left us hn)

theorem UnreservedNames.append_right {ts us : List Token} (h : UnreservedNames (ts ++ us)) :
    UnreservedNames us :=
  fun n hn => h n (List.mem_append_right ts hn)

theorem UnreservedNames.tail {t : Token} {ts : List Token} (h : UnreservedNames (t :: ts)) :
    UnreservedNames ts :=
  fun n hn => h n (List.mem_cons_of_mem t hn)

theorem UnreservedNames.head {n : Name} {ts : List Token} (h : UnreservedNames (ident n :: ts)) :
    Unreserved n.text :=
  h n List.mem_cons_self

theorem unreserved_wordLexeme {text name : String}
    (h : Piece.wordLexeme text = .identifier name) : Unreserved name := by
  unfold Piece.wordLexeme at h
  split at h
  · cases h
  · next hnone =>
    cases h
    exact hnone

/-- A piece is a name only if it is no keyword. -/
theorem unreserved_next {c : Char} {rest : List Char} {name : String}
    (h : (Piece.next c rest).1 = .lexeme (.identifier name)) : Unreserved name := by
  -- of all pieces only words can be names, and words that are keywords are none
  unfold Piece.next at h
  split at h
  · cases h
  split at h
  · split at h <;> cases h
  split at h
  · unfold Piece.afterQuote at h
    split at h <;> cases h
  split at h
  · unfold Piece.afterSlash at h
    repeat' split at h
    all_goals cases h
  split at h
  · cases h
  split at h
  · cases h
  split at h
  · unfold Piece.number at h
    repeat' split at h
    all_goals cases h
  split at h
  · unfold Piece.word at h
    injection h with h
    exact unreserved_wordLexeme h
  · cases h

theorem unreserved_piecesUpTo {n : Nat} {source : List Char} {name : String}
    (h : .lexeme (.identifier name) ∈ piecesUpTo n source) : Unreserved name := by
  induction n generalizing source with
  | zero => cases source <;> cases h
  | succ n ih =>
    cases source with
    | nil => cases h
    | cons c rest =>
      simp only [piecesUpTo, List.mem_cons] at h
      rcases h with hnext | hrest
      · exact unreserved_next hnext.symm
      · exact ih hrest

theorem mem_tokensFrom {t : Token} {line : Int} {ps : List Piece} (h : t ∈ tokensFrom line ps) :
    .lexeme t.lexeme ∈ ps := by
  induction ps generalizing line with
  | nil => cases h
  | cons p ps ih =>
    unfold tokensFrom at h
    cases hp : p.lexeme? with
    | none =>
      simp only [hp] at h
      exact List.mem_cons_of_mem p (ih h)
    | some l =>
      simp only [hp, List.mem_cons] at h
      rcases h with rfl | h
      · cases p with
        | lexeme l' =>
          cases hp
          exact List.mem_cons_self
        | _ => cases hp
      · exact List.mem_cons_of_mem p (ih h)

theorem unreservedNames_scan (source : String) (line : Int) :
    UnreservedNames (scan source line).tokens :=
  fun _ hn => unreserved_piecesUpTo (mem_tokensFrom hn)

/-! ### Trees of derivations -/

/-- The tree of a phrase is well-formed, and a statement is plain. -/
def Category.WellFormed : (c : Category) → c.Tree → Prop
  | .primary, e | .call, e | .unary, e | .level _, e | .operand _, e | .expression, e =>
    WellFormedExpr e
  | .optional, e => ∀ x, e = some x → WellFormedExpr x
  | .arguments, es | .argumentList, es => ∀ e ∈ es, WellFormedExpr e
  | .params, ns | .paramList, ns => ∀ n ∈ ns, Unreserved n.text
  | .signature, (names, body) =>
    (∀ n ∈ names, Unreserved n.text) ∧ ∀ s ∈ body, WellFormedStmt s
  | .block, ss | .declarations, ss => ∀ s ∈ ss, WellFormedStmt s
  | .function, f => Unreserved f.name.text ∧ WellFormedFun f
  | .methods, ms => ∀ m ∈ ms, WellFormedFun m
  | .exprStmt, s | .statement _, s => WellFormedStmt s ∧ s.IsPlain
  | .varDecl, s | .declaration, s => WellFormedStmt s
  | .forInitial, initial => ∀ s, initial = some s → WellFormedStmt s

theorem forall_mem_snoc {α : Type} {P : α → Prop} {as : List α} {a : α} (has : ∀ x ∈ as, P x)
    (ha : P a) : ∀ x ∈ as ++ [a], P x := by
  intro x hx
  rcases List.mem_append.mp hx with hx | hx
  · exact has x hx
  · rw [List.mem_singleton.mp hx]
    exact ha

theorem forall_eq_some {α : Type} {P : α → Prop} {a : α} (ha : P a) : ∀ x, some a = some x → P x := by
  rintro x ⟨⟩
  exact ha

theorem wellFormed_pair {a b : SourceStmt} (ha : WellFormedStmt a)
    (hb : WellFormedStmt b) : WellFormedStmt (.block [a, b]) := by
  refine .block fun s hs => ?_
  rw [List.mem_cons, List.mem_singleton] at hs
  rcases hs with rfl | rfl
  · exact ha
  · exact hb

/-- A `for` statement without a step. -/
theorem wellFormed_forLoop_none {initial : Option SourceStmt} {condition : Option SourceExpr}
    {body : SourceStmt} (hinitial : ∀ s, initial = some s → WellFormedStmt s)
    (hcondition : ∀ e, condition = some e → WellFormedExpr e)
    (hbody : WellFormedStmt body) (hplain : body.IsPlain) :
    WellFormedStmt (.forLoop initial condition none body) ∧
      (Stmt.forLoop initial condition none body).IsPlain := by
  have hloop : WellFormedStmt (.loop (condition.getD (.literal (.bool true))) body) := by
    refine .loop ?_ hbody hplain
    cases condition with
    | none => exact .literal
    | some e => exact hcondition e rfl
  cases initial with
  | none => exact ⟨hloop, hplain⟩
  | some s => exact ⟨wellFormed_pair (hinitial s rfl) hloop, rfl⟩

/-- The derived form of a `for` statement is plain: its parts stand in blocks,
    but for a body, which is plain itself. -/
theorem wellFormed_forLoop {initial : Option SourceStmt} {condition step : Option SourceExpr}
    {body : SourceStmt} (hinitial : ∀ s, initial = some s → WellFormedStmt s)
    (hcondition : ∀ e, condition = some e → WellFormedExpr e)
    (hstep : ∀ e, step = some e → WellFormedExpr e)
    (hbody : WellFormedStmt body) (hplain : body.IsPlain) :
    WellFormedStmt (.forLoop initial condition step body) ∧
      (Stmt.forLoop initial condition step body).IsPlain := by
  cases step with
  | none => exact wellFormed_forLoop_none hinitial hcondition hbody hplain
  | some e =>
    have hround := wellFormed_pair hbody (.expression (hstep e rfl))
    exact wellFormed_forLoop_none hinitial hcondition hround rfl

theorem Derives.wellFormed {nearest bare : Bool} {c : Category} {ts : List Token} {t : c.Tree}
    (h : Derives nearest bare c ts t) (hts : UnreservedNames ts) : c.WellFormed t := by
  induction h with
  -- expressions
  | falseWord | trueWord | nilWord | literal => exact .literal
  | this => exact .this
  | name => exact .variable
  | super => exact .super
  | group _ ih => exact .group (ih hts.tail.append_left)
  | lambda _ ih =>
    obtain ⟨hnames, hbody⟩ := ih hts.tail
    exact .lambda hnames hbody
  | callee _ ih | unaryOperand _ ih | operandTighter _ _ ih | operandUnary _ _ ih | operand _ ih
  | operation _ ih => exact ih hts
  | call _ _ ihf ihargs =>
    exact .call (ihf hts.append_left) (ihargs hts.append_right.tail.append_left)
  | property _ ih => exact .get (ih hts.append_left)
  | unary _ ih => exact .unary (ih hts.tail)
  | @operator _ _ op _ _ _ _ _ _ _ _ iha ihb =>
    have ha := iha hts.append_left
    have hb := ihb hts.append_right.tail
    cases op with
    | binary op => exact .binary ha hb
    | logical op => exact .logical ha hb
  | assign _ ih => exact .assign hts.head (ih hts.tail.tail)
  | setProperty _ _ iho ihe =>
    exact .set (iho hts.append_left) (ihe hts.append_right.tail.tail.tail)
  -- lists
  | absent | noInitial => exact nofun
  | present _ ih => exact forall_eq_some (ih hts)
  | oneArgument _ ih =>
    intro e he
    rw [List.mem_singleton.mp he]
    exact ih hts
  | moreArguments _ _ ihes ihe =>
    exact forall_mem_snoc (ihes hts.append_left) (ihe hts.append_right.tail)
  | noArguments | noParams | noMethods | noDeclarations => exact nofun
  | someArguments _ _ ih | someParams _ _ ih => exact ih hts
  | oneParam =>
    intro n hn
    rw [List.mem_singleton.mp hn]
    exact hts.head
  | moreParams _ ih => exact forall_mem_snoc (ih hts.append_left) hts.append_right.tail.head
  -- functions and blocks
  | signature _ _ ihnames ihbody =>
    exact ⟨ihnames hts.tail.append_left, ihbody hts.tail.append_right.tail⟩
  | block _ ih => exact ih hts.tail.append_left
  | function _ ih =>
    obtain ⟨hnames, hbody⟩ := ih hts.tail
    exact ⟨hts.head, .mk hnames hbody⟩
  | moreMethods _ _ ihms ihm =>
    exact forall_mem_snoc (ihms hts.append_left) (ihm hts.append_right).2
  -- statements
  | exprStmt _ ih => exact ⟨.expression (ih hts.append_left), rfl⟩
  | bareStmt _ _ ih => exact ⟨.expression (ih hts), rfl⟩
  | evaluate _ ih => exact ih hts
  | print _ ih => exact ⟨.print (ih hts.tail.append_left), rfl⟩
  | ret _ ih => exact ⟨.ret (ih hts.tail.append_left), rfl⟩
  | nested _ ih => exact ⟨.block (ih hts), rfl⟩
  | loop _ _ ihc ihs =>
    obtain ⟨hbody, hplain⟩ := ihs hts.tail.tail.append_right.tail
    exact ⟨.loop (ihc hts.tail.tail.append_left) hbody hplain, hplain⟩
  | ifOnly _ _ ihc iha =>
    obtain ⟨ha, hplain⟩ := iha hts.tail.tail.append_right.tail
    exact ⟨.branch (ihc hts.tail.tail.append_left) ha nofun hplain nofun, hplain⟩
  | ifElse _ _ _ _ ihc iha ihb =>
    have hbranches := hts.tail.tail.append_right.tail
    obtain ⟨ha, haplain⟩ := iha hbranches.append_left
    obtain ⟨hb, hbplain⟩ := ihb hbranches.append_right.tail
    refine ⟨.branch (ihc hts.tail.tail.append_left) ha (forall_eq_some hb) haplain
      (forall_eq_some hbplain), ?_⟩
    show _ ++ _ = []
    rw [haplain, hbplain]
    rfl
  | varInitial _ ih => exact forall_eq_some (ih hts)
  | exprInitial _ ih => exact forall_eq_some (ih hts).1
  | forLoop _ _ _ _ ihi ihc ihs ihb =>
    have hclauses := hts.tail.tail
    have hrest := hclauses.append_right.append_right.tail
    obtain ⟨hbody, hplain⟩ := ihb hrest.append_right.tail
    exact wellFormed_forLoop (ihi hclauses.append_left) (ihc hclauses.append_right.append_left)
      (ihs hrest.append_left) hbody hplain
  -- declarations
  | var => exact .var hts.tail.head nofun
  | varInit _ ih => exact .var hts.tail.head (forall_eq_some (ih hts.tail.tail.tail.append_left))
  | statement _ ih => exact (ih hts).1
  | declareVar _ ih => exact ih hts
  | declareFun _ ih =>
    obtain ⟨hname, hdecl⟩ := ih hts.tail
    exact .function hname hdecl
  | declareClass _ ih => exact .classDecl hts.tail.head (ih hts.tail.tail.tail.append_left)
  | declareSubclass _ ih =>
    exact .classDecl hts.tail.head (ih hts.tail.tail.tail.tail.tail.append_left)
  | moreDeclarations _ _ ihss ihs =>
    exact forall_mem_snoc (ihss hts.append_left) (ihs hts.append_right)

/-- What is parsed from a text without errors is well-formed. -/
theorem wellFormed_of_parse {interactive : Bool} {source : String} {line : Int}
    (h : (parse interactive (scan source line).tokens).errors = []) :
    ∀ s ∈ (parse interactive (scan source line).tokens).statements, WellFormedStmt s :=
  (derives_of_parse h).wellFormed (unreservedNames_scan source line)

end Treewalk
