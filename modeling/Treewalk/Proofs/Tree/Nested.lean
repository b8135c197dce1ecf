import Treewalk.Proofs.Token.Split
import Treewalk.Tree.Render

/-! # Nested texts

    A printed tree is a word, a text between double quotes, or a list in parentheses with
    single spaces between its items.  Words hold neither blanks nor parentheses, and the
    text between quotes holds no quote, so it is known where each of them ends.  Hence the
    characters determine the nesting. -/

namespace Treewalk

/-! ### Nested texts and their characters -/

/-- A text with nested lists. -/
inductive Nested where
  /-- A word, or a text between double quotes. -/
  | atom (text : String)
  /-- A list in parentheses. -/
  | node (items : List Nested)

mutual

/-- The characters of a nested text. -/
def Nested.chars : Nested → List Char
  | .atom text => text.toList
  | .node [] => ['(', ')']
  | .node (x :: xs) => '(' :: (x.chars ++ charsOfMore xs ++ [')'])

/-- The characters of the items behind the first one. -/
def charsOfMore : List Nested → List Char
  | [] => []
  | x :: xs => ' ' :: (x.chars ++ charsOfMore xs)

end

/-- The nested text as it is printed. -/
def Nested.text (x : Nested) : String := String.ofList x.chars

@[simp] theorem Nested.toList_text (x : Nested) : x.text.toList = x.chars := String.toList_ofList

@[simp] theorem Nested.text_atom (s : String) : (Nested.atom s).text = s := by
  rw [← String.toList_inj, toList_text, chars]

/-- Items with spaces between them. -/
theorem chars_intercalate (x : Nested) (xs : List Nested) :
    (" ".intercalate ((x :: xs).map Nested.text)).toList = x.chars ++ charsOfMore xs := by
  induction xs generalizing x with
  | nil => simp [charsOfMore]
  | cons y ys ih =>
    have hne : (y :: ys).map Nested.text ≠ [] := by simp
    rw [List.map_cons, String.intercalate_cons_of_ne_nil hne, String.toList_append,
      String.toList_append, ih, charsOfMore, Nested.toList_text, List.append_assoc]
    rfl

/-- A list with a word in front is printed as a node. -/
theorem Nested.text_node (head : String) (xs : List Nested) :
    (Nested.node (.atom head :: xs)).text = parenthesize head (xs.map Nested.text) := by
  have hitems := chars_intercalate (.atom head) xs
  rw [List.map_cons, text_atom] at hitems
  rw [← String.toList_inj, parenthesize, String.toList_append, String.toList_append, hitems,
    toList_text]
  simp [chars]

/-- A list of names is printed as one of parameters. -/
theorem Nested.text_params (params : List Name) :
    (Nested.node (params.map fun n => .atom n.text)).text = renderParams params := by
  have htexts : params.map (·.text) = (params.map fun n => Nested.atom n.text).map Nested.text := by
    rw [List.map_map]
    exact List.map_congr_left fun n _ => (text_atom n.text).symm
  rw [← String.toList_inj, renderParams, String.toList_append, String.toList_append, htexts,
    toList_text]
  cases params with
  | nil => rfl
  | cons n params =>
    rw [List.map_cons, chars_intercalate]
    simp [chars]

/-! ### Where an atom ends -/

/-- A character of a word. -/
def isInner (c : Char) : Bool := c != ' ' && c != '(' && c != ')' && c != '"'

/-- The text is a word, or it stands between double quotes and holds none. -/
def IsAtom (text : String) : Prop :=
  (text.toList ≠ [] ∧ ∀ c ∈ text.toList, isInner c = true) ∨
    ∃ body, '"' ∉ body ∧ text.toList = '"' :: (body ++ ['"'])

theorem isAtom_of_all {text : String}
    (h : (!text.toList.isEmpty && text.toList.all isInner) = true) : IsAtom text := by
  rw [Bool.and_eq_true, List.all_eq_true] at h
  exact .inl ⟨by simpa using h.1, h.2⟩

mutual

/-- All atoms of the text are words or stand between quotes. -/
def Nested.IsPlain : Nested → Prop
  | .atom text => IsAtom text
  | .node items => ArePlain items

/-- All items are plain. -/
def ArePlain : List Nested → Prop
  | [] => True
  | x :: xs => x.IsPlain ∧ ArePlain xs

end

/-- An atom begins with a character of a word or with a quote. -/
theorem IsAtom.head {text : String} (h : IsAtom text) :
    ∃ c cs, text.toList = c :: cs ∧ (isInner c = true ∨ c = '"') := by
  rcases h with ⟨hne, hinner⟩ | ⟨body, -, htext⟩
  · obtain ⟨c, cs, hcons⟩ := List.exists_cons_of_ne_nil hne
    exact ⟨c, cs, hcons, .inl (hinner c (hcons ▸ List.mem_cons_self))⟩
  · exact ⟨'"', _, htext, .inr rfl⟩

/-- A plain text begins with neither a space nor a closing parenthesis. -/
theorem Nested.IsPlain.head {x : Nested} (h : x.IsPlain) :
    ∃ c cs, x.chars = c :: cs ∧ c ≠ ' ' ∧ c ≠ ')' := by
  cases x with
  | atom text =>
    obtain ⟨c, cs, htext, hc⟩ := IsAtom.head h
    refine ⟨c, cs, htext, ?_, ?_⟩ <;> rintro rfl <;> revert hc <;> decide
  | node items => cases items <;> exact ⟨'(', _, rfl, by decide, by decide⟩

/-- An atom before a space, a parenthesis or the end is known from the characters. -/
theorem atom_unique {a b : String} (ha : IsAtom a) (hb : IsAtom b) {rest rest' : List Char}
    (hrest : Stops isInner rest) (hrest' : Stops isInner rest')
    (h : a.toList ++ rest = b.toList ++ rest') : a = b ∧ rest = rest' := by
  have hquote : isInner '"' = false := by decide
  -- both are words or both stand between quotes, since they begin alike
  rcases ha with ⟨hane, hainner⟩ | ⟨body, hbody, hatext⟩
  · rcases hb with ⟨hbne, hbinner⟩ | ⟨body, -, hbtext⟩
    · have hsame : a.toList = b.toList := by
        rw [← takeWhile_run hainner hrest, h, takeWhile_run hbinner hrest']
      rw [hsame] at h
      exact ⟨String.toList_inj.mp hsame, List.append_cancel_left h⟩
    · obtain ⟨c, cs, hcons⟩ := List.exists_cons_of_ne_nil hane
      rw [hcons, hbtext] at h
      obtain rfl : c = '"' := by injection h
      have hinner := hainner '"' (hcons ▸ List.mem_cons_self)
      rw [hquote] at hinner
      cases hinner
  · rcases hb with ⟨hbne, hbinner⟩ | ⟨body', hbody', hbtext⟩
    · obtain ⟨c, cs, hcons⟩ := List.exists_cons_of_ne_nil hbne
      rw [hcons, hatext] at h
      obtain rfl : '"' = c := by injection h
      have hinner := hbinner '"' (hcons ▸ List.mem_cons_self)
      rw [hquote] at hinner
      cases hinner
    · have hrun {body : List Char} (hbody : '"' ∉ body) : ∀ c ∈ body, (c != '"') = true :=
        fun c hc => bne_iff_ne.mpr fun hceq => hbody (hceq ▸ hc)
      have hstop (more : List Char) : Stops (· != '"') ('"' :: more) := stops_cons.mpr rfl
      have htail : body ++ '"' :: rest = body' ++ '"' :: rest' := by
        rw [hatext, hbtext] at h
        simpa using h
      have hsame : body = body' := by
        rw [← takeWhile_run (hrun hbody) (hstop rest), htail,
          takeWhile_run (hrun hbody') (hstop rest')]
      subst hsame
      refine ⟨String.toList_inj.mp (hatext.trans hbtext.symm), ?_⟩
      have hcancel := List.append_cancel_left htail
      injection hcancel

/-! ### Unique reading -/

theorem stops_more (xs : List Nested) (rest : List Char) :
    Stops isInner (charsOfMore xs ++ ')' :: rest) := by
  cases xs with
  | nil => exact stops_cons.mpr (by decide)
  | cons x xs => exact stops_cons.mpr (by decide)

mutual

/-- Plain texts that begin alike are the same, and the same follows. -/
theorem Nested.chars_unique : (x y : Nested) → x.IsPlain → y.IsPlain → (rest rest' : List Char) →
    Stops isInner rest → Stops isInner rest' → x.chars ++ rest = y.chars ++ rest' →
      x = y ∧ rest = rest'
  | .atom a, .atom b, hx, hy, rest, rest', hrest, hrest', h => by
    obtain ⟨rfl, hsame⟩ := atom_unique hx hy hrest hrest' h
    exact ⟨rfl, hsame⟩
  | .atom a, .node ys, hx, _, rest, rest', _, _, h => by
    obtain ⟨c, cs, htext, hc⟩ := IsAtom.head hx
    obtain ⟨cs', hcs'⟩ : ∃ cs', (Nested.node ys).chars ++ rest' = '(' :: cs' := by
      cases ys <;> exact ⟨_, rfl⟩
    rw [hcs', Nested.chars, htext] at h
    obtain rfl : c = '(' := by injection h
    exact absurd hc (by decide)
  | .node xs, .atom b, _, hy, rest, rest', _, _, h => by
    obtain ⟨c, cs, htext, hc⟩ := IsAtom.head hy
    obtain ⟨cs', hcs'⟩ : ∃ cs', (Nested.node xs).chars ++ rest = '(' :: cs' := by
      cases xs <;> exact ⟨_, rfl⟩
    rw [hcs', Nested.chars, htext] at h
    obtain rfl : '(' = c := by injection h
    exact absurd hc (by decide)
  | .node [], .node [], _, _, rest, rest', _, _, h => by
    simp only [Nested.chars, List.cons_append, List.nil_append, List.cons.injEq, true_and] at h
    exact ⟨rfl, h⟩
  | .node [], .node (y :: ys), _, hy, rest, rest', _, _, h => by
    obtain ⟨c, cs, htext, -, hc⟩ := hy.1.head
    simp only [Nested.chars, htext, List.cons_append, List.cons.injEq, true_and] at h
    exact absurd h.1.symm hc
  | .node (x :: xs), .node [], hx, _, rest, rest', _, _, h => by
    obtain ⟨c, cs, htext, -, hc⟩ := hx.1.head
    simp only [Nested.chars, htext, List.cons_append, List.cons.injEq, true_and] at h
    exact absurd h.1 hc
  | .node (x :: xs), .node (y :: ys), hx, hy, rest, rest', _, _, h => by
    have hitems : x.chars ++ (charsOfMore xs ++ ')' :: rest) =
        y.chars ++ (charsOfMore ys ++ ')' :: rest') := by
      simpa [Nested.chars] using h
    obtain ⟨rfl, hmore⟩ := Nested.chars_unique x y hx.1 hy.1 _ _ (stops_more xs rest)
      (stops_more ys rest') hitems
    obtain ⟨rfl, hsame⟩ := charsOfMore_unique xs ys hx.2 hy.2 rest rest' hmore
    exact ⟨rfl, hsame⟩

/-- So are the items of a list up to its closing parenthesis. -/
theorem charsOfMore_unique : (xs ys : List Nested) → ArePlain xs → ArePlain ys →
    (rest rest' : List Char) → charsOfMore xs ++ ')' :: rest = charsOfMore ys ++ ')' :: rest' →
      xs = ys ∧ rest = rest'
  | [], [], _, _, rest, rest', h => by
    simp only [charsOfMore, List.nil_append, List.cons.injEq, true_and] at h
    exact ⟨rfl, h⟩
  | [], _ :: _, _, _, _, _, h | _ :: _, [], _, _, _, _, h => by
    simp [charsOfMore] at h
  | x :: xs, y :: ys, hx, hy, rest, rest', h => by
    have hitems : x.chars ++ (charsOfMore xs ++ ')' :: rest) =
        y.chars ++ (charsOfMore ys ++ ')' :: rest') := by
      simpa [charsOfMore] using h
    obtain ⟨rfl, hmore⟩ := Nested.chars_unique x y hx.1 hy.1 _ _ (stops_more xs rest)
      (stops_more ys rest') hitems
    obtain ⟨rfl, hsame⟩ := charsOfMore_unique xs ys hx.2 hy.2 rest rest' hmore
    exact ⟨rfl, hsame⟩

end

/-- Plain texts with the same characters are the same. -/
theorem Nested.eq_of_chars {x y : Nested} (hx : x.IsPlain) (hy : y.IsPlain)
    (h : x.chars = y.chars) : x = y :=
  (x.chars_unique y hx hy [] [] stops_nil stops_nil (by rw [h])).1

variable {ρ : Type}

/-! ### The nested texts of trees -/

mutual

/-- The nested text that an expression is printed as. -/
def Expr.nested : Expr ρ → Nested
  | .literal value => .atom value.render
  | .group inner => .node [.atom "group", inner.nested]
  | .unary op _ operand => .node [.atom op.symbol.text, operand.nested]
  | .binary op _ left right => .node [.atom op.symbol.text, left.nested, right.nested]
  | .logical op _ left right => .node [.atom op.keyword.text, left.nested, right.nested]
  | .variable name _ => .atom name.text
  | .assign name _ value => .node [.atom "=", .atom name.text, value.nested]
  | .call callee arguments _ =>
    .node (.atom "call" :: callee.nested :: nestedExprs arguments)
  | .get object name => .node [.atom ".", object.nested, .atom name.text]
  | .set object name value =>
    .node [.atom "=", .node [.atom ".", object.nested, .atom name.text], value.nested]
  | .this _ _ => .atom "this"
  | .super _ _ method => .node [.atom "super", .atom method.text]
  | .lambda _ params body =>
    .node (.atom "fun" :: .node (params.map fun n => .atom n.text) :: nestedStmts body)

/-- The nested texts of some expressions. -/
def nestedExprs : List (Expr ρ) → List Nested
  | [] => []
  | e :: es => e.nested :: nestedExprs es

/-- The nested text that a statement is printed as. -/
def Stmt.nested : Stmt ρ → Nested
  | .expression e => .node [.atom ";", e.nested]
  | .print e => .node [.atom "print", e.nested]
  | .var name none => .node [.atom "var", .atom name.text]
  | .var name (some e) => .node [.atom "var", .atom name.text, e.nested]
  | .block body => .node (.atom "block" :: nestedStmts body)
  | .branch condition onTrue none => .node [.atom "if", condition.nested, onTrue.nested]
  | .branch condition onTrue (some onFalse) =>
    .node [.atom "if", condition.nested, onTrue.nested, onFalse.nested]
  | .loop condition body => .node [.atom "while", condition.nested, body.nested]
  | .function decl => decl.nested
  | .ret _ none => .node [.atom "return"]
  | .ret _ (some e) => .node [.atom "return", e.nested]
  | .classDecl name none methods =>
    .node (.atom "class" :: .atom name.text :: nestedFuns methods)
  | .classDecl name (some (superName, _)) methods =>
    .node (.atom "class" :: .atom name.text :: .atom "<" :: .atom superName.text ::
      nestedFuns methods)

/-- The nested texts of some statements. -/
def nestedStmts : List (Stmt ρ) → List Nested
  | [] => []
  | s :: ss => s.nested :: nestedStmts ss

/-- The nested text that a function or method is printed as. -/
def FunDecl.nested : FunDecl ρ → Nested
  | .mk name params body =>
    .node (.atom "fun" :: .atom name.text :: .node (params.map fun n => .atom n.text) ::
      nestedStmts body)

/-- The nested texts of some methods. -/
def nestedFuns : List (FunDecl ρ) → List Nested
  | [] => []
  | d :: ds => d.nested :: nestedFuns ds

end

/-! ### Printing -/

mutual

/-- An expression is printed as its nested text. -/
theorem Expr.text_nested : (e : Expr ρ) → e.nested.text = e.render
  | .literal _ | .variable _ _ | .this _ _ => Nested.text_atom _
  | .group e | .unary _ _ e | .assign _ _ e | .get e _ => by
    simp only [Expr.nested, Expr.render, Nested.text_node, Nested.text_atom, List.map_cons,
      List.map_nil, e.text_nested]
  | .super _ _ m => by
    simp only [Expr.nested, Expr.render, Nested.text_node, Nested.text_atom, List.map_cons,
      List.map_nil]
  | .binary _ _ l r | .logical _ _ l r | .set l _ r => by
    simp only [Expr.nested, Expr.render, Nested.text_node, Nested.text_atom, List.map_cons,
      List.map_nil, l.text_nested, r.text_nested]
  | .call f args _ => by
    simp only [Expr.nested, Expr.render, Nested.text_node, List.map_cons, f.text_nested,
      text_nestedExprs args]
  | .lambda _ params body => by
    simp only [Expr.nested, Expr.render, Nested.text_node, List.map_cons, Nested.text_params,
      text_nestedStmts body]

theorem text_nestedExprs : (es : List (Expr ρ)) →
    (nestedExprs es).map Nested.text = renderExprs es
  | [] => rfl
  | e :: es => by
    rw [renderExprs, nestedExprs, List.map_cons, e.text_nested, text_nestedExprs es]

/-- So is a statement. -/
theorem Stmt.text_nested : (s : Stmt ρ) → s.nested.text = s.render
  | .expression e | .print e | .var _ (some e) | .ret _ (some e) => by
    simp only [Stmt.nested, Stmt.render, Nested.text_node, Nested.text_atom, List.map_cons,
      List.map_nil, e.text_nested]
  | .var _ none | .ret _ none => by
    simp only [Stmt.nested, Stmt.render, Nested.text_node, Nested.text_atom, List.map_cons,
      List.map_nil]
  | .block body => by
    simp only [Stmt.nested, Stmt.render, Nested.text_node, text_nestedStmts body]
  | .branch c a none | .loop c a => by
    simp only [Stmt.nested, Stmt.render, Nested.text_node, List.map_cons, List.map_nil,
      c.text_nested, a.text_nested]
  | .branch c a (some b) => by
    simp only [Stmt.nested, Stmt.render, Nested.text_node, List.map_cons, List.map_nil,
      c.text_nested, a.text_nested, b.text_nested]
  | .function decl => decl.text_nested
  | .classDecl _ none methods | .classDecl _ (some (_, _)) methods => by
    simp only [Stmt.nested, Stmt.render, Nested.text_node, Nested.text_atom, List.map_cons,
      text_nestedFuns methods]

theorem text_nestedStmts : (ss : List (Stmt ρ)) →
    (nestedStmts ss).map Nested.text = renderStmts ss
  | [] => rfl
  | s :: ss => by
    rw [renderStmts, nestedStmts, List.map_cons, s.text_nested, text_nestedStmts ss]

theorem FunDecl.text_nested : (m : FunDecl ρ) → m.nested.text = m.render
  | .mk _ params body => by
    simp only [FunDecl.nested, FunDecl.render, Nested.text_node, Nested.text_atom, List.map_cons,
      Nested.text_params, text_nestedStmts body]

theorem text_nestedFuns : (ms : List (FunDecl ρ)) →
    (nestedFuns ms).map Nested.text = renderDecls ms
  | [] => rfl
  | m :: ms => by
    rw [renderDecls, nestedFuns, List.map_cons, m.text_nested, text_nestedFuns ms]

end

end Treewalk
