import Treewalk.Proofs.Chronicle.Placement
import Treewalk.Proofs.Grammar.Tokens
import Treewalk.Proofs.Watched

/-! # What a fault is blamed on

    A mistake that shows when a program runs is reported on the line of a token: that of
    a phrase that the run has taken up, and of a kind that fits the mistake.  The calls
    that are active when a run is cut short were taken up, too, and are listed with the
    lines of their closing parentheses (`accounts_program`). -/

namespace Treewalk

/-! ### Tokens of phrases -/

/-- A mistake of the kind shows at a lexeme: the name in question, the operator, or the
    parenthesis that closes a call. -/
def RuntimeIssue.ShowsAt : RuntimeIssue → Lexeme → Prop
  | .undefinedVariable name, l => l.text = name
  | .undefinedProperty name, l => l = .identifier name
  | .addOperands, l => l = .symbol .plus
  | .numberOperands, l =>
    ∃ s ∈ [Symbol.minus, .star, .slash, .greater, .greaterEqual, .less, .lessEqual], l = .symbol s
  | .numberOperand, l => l = .symbol .minus
  | .divisionByZero, l => l = .symbol .slash
  | .notCallable, l | .wrongArity _ _, l => l = .symbol .rightParen
  | .noProperties, l | .noFields, l | .superclassNotClass, l => ∃ name, l = .identifier name

namespace Code

/-- The token that the faults of the phrase itself are reported at. -/
def site? : Code → Option Token
  | .expr (.unary op line _) => some (sym op.symbol line)
  | .expr (.binary op line _ _) => some (sym op.symbol line)
  | .expr (.variable name _) | .expr (.assign name _ _) | .expr (.get _ name)
  | .expr (.set _ name _) | .expr (.super _ _ name) => some (ident name)
  | .expr (.this line _) => some (word .thisWord line)
  | .expr (.call _ _ line) => some (sym .rightParen line)
  | .stmt (.classDecl _ (some (superName, _)) _) => some (ident superName)
  | _ => none

/-- The tokens of a phrase. -/
def tokens : Code → List Token
  | .expr e => e.tokens
  | .stmt s => s.tokens

theorem mem_tokens_of_site? {ph : Code} {t : Token} (h : ph.site? = some t) : t ∈ ph.tokens := by
  unfold site? at h
  split at h <;> cases h <;> simp [tokens, Expr.tokens, Stmt.tokens]

/-- The tokens of a part are tokens of the whole. -/
theorem tokens_part {ph : Code} : ∀ part ∈ ph.parts, part.2.tokens ⊆ ph.tokens := by
  have hbody {body : List ResolvedStmt} {zone : Zone} {ts : List Token}
      (h : body.flatMap Stmt.tokens ⊆ ts) :
      ∀ part ∈ body.map fun s => ([zone], Code.stmt s), part.2.tokens ⊆ ts :=
    List.forall_mem_map.mpr fun s hs t ht => h (List.mem_flatMap.mpr ⟨s, hs, ht⟩)
  have hfun (m : ResolvedFun) : m.body.flatMap Stmt.tokens ⊆ m.tokens := by
    cases m
    simp [FunDecl.tokens, FunDecl.body]
  cases ph with
  | expr e =>
    cases e with
    | call f args line =>
      refine List.forall_mem_cons.mpr ⟨?_, List.forall_mem_map.mpr fun e he t ht => ?_⟩
      · simp [tokens, Expr.tokens]
      · have hmem : t ∈ args.flatMap Expr.tokens := List.mem_flatMap.mpr ⟨e, he, ht⟩
        simp only [tokens, Expr.tokens, tokensOfExprs_eq_flatMap]
        exact List.mem_cons_of_mem _ (List.mem_append_right _ hmem)
    | lambda line params body => exact hbody (by simp [tokens, Expr.tokens])
    | _ => simp [parts, tokens, Expr.tokens]
  | stmt s =>
    cases s with
    | block body => exact hbody (by simp [tokens, Stmt.tokens])
    | function decl => exact hbody (hfun decl)
    | classDecl name superclass methods =>
      have hmethods : methods.flatMap FunDecl.tokens ⊆
          tokens (.stmt (.classDecl name superclass methods)) := by
        cases superclass <;> simp [tokens, Stmt.tokens]
      intro part hpart
      obtain ⟨m, hm, hpart⟩ := List.mem_flatMap.mp hpart
      refine hbody (fun t ht => hmethods ?_) part hpart
      exact List.mem_flatMap.mpr ⟨m, hm, hfun m ht⟩
    | var name initial => cases initial <;> simp [parts, tokens, Stmt.tokens]
    | branch c a b => cases b <;> simp [parts, tokens, Stmt.tokens]
    | ret line value => cases value <;> simp [parts, tokens, Stmt.tokens]
    | _ => simp [parts, tokens, Stmt.tokens]

end Code

/-- The tokens of a phrase of a program are tokens of the program. -/
theorem Located.tokens_subset {program : List ResolvedStmt} {zones : List Zone} {ph : Code}
    (h : Located program zones ph) : ph.tokens ⊆ tokensOfStmts program := by
  induction h with
  | statement hs =>
    intro t ht
    rw [tokensOfStmts_eq_flatMap]
    exact List.mem_flatMap.mpr ⟨_, hs, ht⟩
  | part _ hpart ih => exact fun t ht => ih (Code.tokens_part _ hpart ht)

/-! ### Elementary steps -/

/-- If the computation fails, the active calls are the given ones, and a mistake is one
    that shows at the given token, on its line. -/
def FailsAt {α : Type} (frames : List Frame) (site : Option Token) (y : Eval α) : Prop :=
  ∀ m cut m', y m = .error cut m' → cut.frames = frames ∧
    ∀ issue line, cut.fault = .issue issue line →
      ∃ t, site = some t ∧ issue.ShowsAt t.lexeme ∧ t.line = line

namespace FailsAt

variable {α β : Type} {ctx : Context} {frames : List Frame} {site : Option Token} {y : Eval α}

theorem of_ok (h : ∀ m, ∃ a m', y m = .ok a m') : FailsAt frames site y := by
  intro m cut m' herror
  obtain ⟨a, m'', hok⟩ := h m
  rw [hok] at herror
  cases herror

theorem pure {a : α} : FailsAt frames site (pure a) := of_ok fun m => ⟨a, m, rfl⟩

theorem bind {f : α → Eval β} (hy : FailsAt frames site y) (hf : ∀ a, FailsAt frames site (f a)) :
    FailsAt frames site (y >>= f) := by
  intro m cut m' herror
  cases hrun : y m with
  | error cut' m'' =>
    rw [bind_of_error hrun] at herror
    cases herror
    exact hy m _ _ hrun
  | ok a m'' =>
    rw [bind_of_ok hrun] at herror
    exact hf a m'' cut m' herror

theorem fail {t : Token} {issue : RuntimeIssue} {line : Int} (hshows : issue.ShowsAt t.lexeme)
    (hline : t.line = line) : FailsAt ctx.frames (some t) (Eval.fail ctx issue line : Eval α) := by
  intro m cut m' herror
  cases herror
  refine ⟨rfl, ?_⟩
  rintro issue' line' ⟨⟩
  exact ⟨t, rfl, hshows, hline⟩

/-- A fault that is no mistake of the program. -/
theorem abort {fault : Fault} (h : ∀ issue line, fault ≠ .issue issue line) :
    FailsAt ctx.frames site (Eval.abort ctx fault : Eval α) := by
  intro m cut m' herror
  cases herror
  exact ⟨rfl, fun issue line hfault => absurd hfault (h issue line)⟩

theorem access (ctx : Context) (found : Except AccessFault α) :
    FailsAt ctx.frames site (Eval.access ctx found) := by
  cases found with
  | ok a => exact .pure
  | error fault => cases fault <;> exact .abort nofun

theorem readStore : FailsAt frames site Eval.readStore := of_ok fun m => ⟨m.store, m, rfl⟩

theorem modifyStore (f : Store Value → Store Value) : FailsAt frames site (Eval.modifyStore f) :=
  of_ok fun _ => ⟨_, _, rfl⟩

theorem updateStore (f : Store Value → α × Store Value) :
    FailsAt frames site (Eval.updateStore f) :=
  of_ok fun _ => ⟨_, _, rfl⟩

theorem newFunction (closure : Closure) : FailsAt frames site (Eval.newFunction closure) :=
  of_ok fun _ => ⟨_, _, rfl⟩

theorem bindMethod (method : Closure) (receiver : Value) :
    FailsAt frames site (Eval.bindMethod method receiver) :=
  of_ok fun _ => ⟨_, _, rfl⟩

theorem bindParams (env : Env) (params : List String) (args : List Value) :
    FailsAt frames site (Eval.bindParams env params args) := by
  induction params generalizing args with
  | nil => exact .pure
  | cons p ps ih =>
    cases args with
    | nil => exact .pure
    | cons v vs => exact (modifyStore _).bind fun _ => ih vs

/-! ### Variables and properties -/

variable {t : Token} {name : Name}

theorem lookUp (htext : t.text = name.text) (hline : t.line = name.line) (use : Distance) :
    FailsAt ctx.frames (some t) (Eval.lookUp ctx name use) := by
  refine readStore.bind fun store => ?_
  cases use with
  | some d => exact access ctx _
  | none =>
    dsimp only
    cases store.lookup? globalEnv name.text with
    | some v => exact .pure
    | none => exact .fail htext hline

theorem assignTo (name : Name) (use : Distance) (v : Value) :
    FailsAt ctx.frames (some (ident name)) (Eval.assignTo ctx name use v) := by
  refine bind ?_ fun scope => modifyStore _
  cases use with
  | some d => exact access ctx _
  | none =>
    refine readStore.bind fun store => ?_
    cases store.owner? globalEnv name.text with
    | some scope => exact .pure
    | none => exact .fail rfl rfl

theorem getProperty (object : Value) (name : Name) :
    FailsAt ctx.frames (some (ident name)) (Eval.getProperty ctx object name) := by
  cases object with
  | object id definition =>
    refine readStore.bind fun store => ?_
    cases (store.fields id).find? name.text with
    | some v => exact .pure
    | none =>
      dsimp only
      cases definition.findMethod? name.text with
      | some method => exact (bindMethod _ _).bind fun _ => newFunction _
      | none => exact .fail rfl rfl
  | _ => exact .fail ⟨name.text, rfl⟩ rfl

theorem getSuper (use : Distance) (method : Name) :
    FailsAt ctx.frames (some (ident method)) (Eval.getSuper ctx use method) := by
  cases use with
  | none => exact .abort nofun
  | some d =>
    refine readStore.bind fun store => (access ctx _).bind fun superclass => ?_
    refine (access ctx _).bind fun receiver => ?_
    cases superclass with
    | cls id definition =>
      dsimp only
      cases definition.findMethod? method.text with
      | some closure => exact (bindMethod _ _).bind fun _ => newFunction _
      | none => exact .fail rfl rfl
    | _ => exact .abort nofun

/-! ### Operators and classes -/

theorem unary (op : UnaryOp) (line : Int) (v : Value) :
    FailsAt ctx.frames (some (sym op.symbol line)) (Eval.operator ctx line (op.apply v)) := by
  cases op with
  | not => exact .pure
  | negate =>
    cases v with
    | number x => exact .pure
    | _ => exact .fail rfl rfl

theorem onNumbers {f : Float → Float → OpResult}
    (hshows : RuntimeIssue.numberOperands.ShowsAt t.lexeme)
    (hf : ∀ x y, FailsAt ctx.frames (some t) (Eval.operator ctx t.line (f x y))) (a b : Value) :
    FailsAt ctx.frames (some t) (Eval.operator ctx t.line (onNumbers f a b)) := by
  unfold Treewalk.onNumbers
  split
  · exact hf _ _
  · exact .fail hshows rfl

theorem add (line : Int) (a b : Value) : FailsAt ctx.frames (some (sym .plus line))
    (Eval.operator ctx line (BinaryOp.add.apply a b)) := by
  cases a with
  | number x =>
    cases b with
    | number y => exact .pure
    | _ => exact .fail rfl rfl
  | string x =>
    cases b with
    | string y => exact .pure
    | _ => exact .fail rfl rfl
  | _ => exact .fail rfl rfl

theorem binary (op : BinaryOp) (line : Int) (a b : Value) :
    FailsAt ctx.frames (some (sym op.symbol line)) (Eval.operator ctx line (op.apply a b)) := by
  cases op with
  | equal => exact .pure
  | notEqual => exact .pure
  | add => exact add line a b
  | divide =>
    refine onNumbers (t := sym _ line) ⟨_, by decide, rfl⟩ (fun x y => ?_) a b
    split
    · exact .fail rfl rfl
    · exact .pure
  | subtract | multiply | greater | greaterEqual | less | lessEqual =>
    exact onNumbers (t := sym _ line) ⟨_, by decide, rfl⟩ (fun _ _ => .pure) a b

theorem declareClass (name : Name) (superclass : Option (Name × Distance))
    (methods : List ResolvedFun) :
    FailsAt ctx.frames (Code.site? (.stmt (.classDecl name superclass methods)))
      (Eval.declareClass ctx name superclass methods) := by
  cases superclass with
  | none => exact (modifyStore _).bind fun _ => (updateStore _).bind fun _ => modifyStore _
  | some found =>
    obtain ⟨superName, use⟩ := found
    refine (lookUp rfl rfl use).bind fun v => bind ?_ fun superclass => ?_
    · cases v with
      | cls id definition => exact .pure
      | _ => exact .fail ⟨superName.text, rfl⟩ rfl
    · refine (modifyStore _).bind fun _ => (updateStore _).bind fun _ => ?_
      exact (modifyStore _).bind fun _ => (updateStore _).bind fun _ => modifyStore _

end FailsAt

/-! ### Runs -/

/-- The run has taken up the phrase. -/
def Taken (h : History) : Code → Prop
  | .expr e => ∃ ctx store, Event.evaluates ctx e store ∈ h
  | .stmt s => ∃ ctx store, Event.executes ctx s store ∈ h

theorem Taken.mono {h h' : History} {ph : Code} (htaken : Taken h ph) (hsub : h ⊆ h') :
    Taken h' ph := by
  cases ph with
  | expr e =>
    obtain ⟨ctx, store, hevent⟩ := htaken
    exact ⟨ctx, store, hsub hevent⟩
  | stmt t =>
    obtain ⟨ctx, store, hevent⟩ := htaken
    exact ⟨ctx, store, hsub hevent⟩

/-- A mistake is one that shows at the token of a phrase that was taken up, on its line. -/
def Blamed (h : History) (fault : Fault) : Prop :=
  ∀ issue line, fault = .issue issue line →
    ∃ ph t, Taken h ph ∧ ph.site? = some t ∧ issue.ShowsAt t.lexeme ∧ t.line = line

/-- The call was taken up. -/
def Called (h : History) (f : Frame) : Prop :=
  ∃ callee args, Taken h (.expr (.call callee args f.line))

/-- The outcome of a computation that began with the given log and active calls.  The
    log only grows.  If the computation is cut short, the fault is blamed on a phrase that
    was taken up, and the active calls were there before or taken up since. -/
inductive Accounts {α : Type} (before : History) (frames : List Frame) :
    EStateM.Result Abort (Machine × History) α → Prop
  | ok {a s'} : before ⊆ s'.2 → Accounts before frames (.ok a s')
  | error {cut s'} : before ⊆ s'.2 → Blamed s'.2 cut.fault →
      (∀ f ∈ cut.frames, f ∈ frames ∨ Called s'.2 f) → Accounts before frames (.error cut s')

namespace Accounts

variable {α β : Type} {s : Machine × History} {frames : List Frame} {x : Watched α}

theorem pure {a : α} : Accounts s.2 frames ((pure a : Watched α) s) :=
  .ok (List.Subset.refl _)

/-- What is accounted for from a later log on, is accounted for. -/
theorem later {before now : History} {out : EStateM.Result Abort (Machine × History) α}
    (h : Accounts now frames out) (hsub : before ⊆ now) : Accounts before frames out := by
  cases h with
  | ok hgrows => exact .ok fun event hevent => hgrows (hsub hevent)
  | error hgrows hfault hframes =>
    exact .error (fun event hevent => hgrows (hsub hevent)) hfault hframes

theorem bind {f : α → Watched β} (hx : Accounts s.2 frames (x s))
    (hf : ∀ a s', s.2 ⊆ s'.2 → Accounts s'.2 frames (f a s')) :
    Accounts s.2 frames ((x >>= f) s) := by
  generalize hrun : x s = out at hx
  cases hx with
  | error hgrows hfault hframes =>
    rw [bind_of_error hrun]
    exact .error hgrows hfault hframes
  | ok hgrows =>
    rw [bind_of_ok hrun]
    exact (hf _ _ hgrows).later hgrows

theorem note {event : Store Value → Event} {f : Unit → Watched α}
    (hf : ∀ s', event s.1.store ∈ s'.2 → Accounts s'.2 frames (f () s')) :
    Accounts s.2 frames ((Watched.note event >>= f) s) :=
  (hf (s.1, event s.1.store :: s.2) List.mem_cons_self).later (List.subset_cons_self _ _)

/-- A call that was taken up before may become active. -/
theorem call {f : Frame} {out : EStateM.Result Abort (Machine × History) α}
    (h : Accounts s.2 (f :: frames) out) (hcalled : Called s.2 f) : Accounts s.2 frames out := by
  cases h with
  | ok hgrows => exact .ok hgrows
  | error hgrows hfault hframes =>
    refine .error hgrows hfault fun g hg => ?_
    rcases hframes g hg with hmem | htaken
    · rcases List.mem_cons.mp hmem with rfl | hmem
      · obtain ⟨callee, args, htaken⟩ := hcalled
        exact .inr ⟨callee, args, htaken.mono hgrows⟩
      · exact .inl hmem
    · exact .inr htaken

/-- A step that fails only at a token of what was taken up. -/
theorem of_failsAt {y : Eval α} {site : Option Token} (hy : FailsAt frames site y)
    (hsite : ∀ t, site = some t → ∃ ph, Taken s.2 ph ∧ ph.site? = some t) :
    Accounts s.2 frames (Watched.lift y s) := by
  unfold Watched.lift
  cases hrun : y s.1 with
  | ok a m => exact .ok (List.Subset.refl _)
  | error cut m =>
    obtain ⟨hframes, hfault⟩ := hy _ _ _ hrun
    refine .error (List.Subset.refl _) ?_ fun f hf => .inl (hframes ▸ hf)
    intro issue line heq
    obtain ⟨t, ht, hshows, hline⟩ := hfault issue line heq
    obtain ⟨ph, htaken, hph⟩ := hsite t ht
    exact ⟨ph, t, htaken, hph, hshows, hline⟩

theorem lift {y : Eval α} {ph : Code} (hy : FailsAt frames ph.site? y) (htaken : Taken s.2 ph) :
    Accounts s.2 frames (Watched.lift y s) :=
  of_failsAt hy fun _ ht => ⟨ph, htaken, ht⟩

/-- A step that makes no mistake. -/
theorem quiet {y : Eval α} (hy : FailsAt frames none y) : Accounts s.2 frames (Watched.lift y s) :=
  of_failsAt hy nofun

theorem fail {ctx : Context} {ph : Code} {t : Token} {issue : RuntimeIssue}
    (hsite : ph.site? = some t) (htaken : Taken s.2 ph) (hshows : issue.ShowsAt t.lexeme) :
    Accounts s.2 ctx.frames (Watched.lift (Eval.fail ctx issue t.line : Eval α) s) := by
  refine lift ?_ htaken
  rw [hsite]
  exact .fail hshows rfl

end Accounts

section Step

variable {eval : Context → ResolvedExpr → Watched Value}
  {exec : Context → ResolvedStmt → Watched Completion}

theorem accounts_inOrder {frames : List Frame} {f : ResolvedExpr → Watched Value}
    (hf : ∀ e s, Accounts s.2 frames (f e s)) (es : List ResolvedExpr) (s : Machine × History) :
    Accounts s.2 frames (Eval.inOrder f es s) := by
  induction es generalizing s with
  | nil => exact .pure
  | cons e es ih => exact (hf e s).bind fun v s₁ _ => (ih s₁).bind fun vs s₂ _ => .pure

theorem accounts_sequence {frames : List Frame} {f : ResolvedStmt → Watched Completion}
    (hf : ∀ t s, Accounts s.2 frames (f t s)) (ss : List ResolvedStmt) (s : Machine × History) :
    Accounts s.2 frames (Eval.sequence f ss s) := by
  induction ss generalizing s with
  | nil => exact .pure
  | cons t ss ih =>
    refine (hf t s).bind fun completion s₁ _ => ?_
    cases completion with
    | normal => exact ih s₁
    | returned v => exact .pure

theorem accounts_whileLoop {ctx : Context} {condition : Watched Value} {body : Watched Completion}
    (hc : ∀ s, Accounts s.2 ctx.frames (condition s)) (hb : ∀ s, Accounts s.2 ctx.frames (body s))
    (n : Nat) (s : Machine × History) :
    Accounts s.2 ctx.frames
      (Eval.whileLoop (Watched.lift (Eval.abort ctx .endless)) condition body n s) := by
  induction n generalizing s with
  | zero => exact .quiet (.abort nofun)
  | succ n ih =>
    refine (hc s).bind fun v s₁ _ => ?_
    cases v.truthy with
    | false => exact .pure
    | true =>
      refine (hb s₁).bind fun completion s₂ _ => ?_
      cases completion with
      | normal => exact ih s₂
      | returned v => exact .pure

theorem accounts_runClosure (hexec : ∀ ctx t s, Accounts s.2 ctx.frames (exec ctx t s))
    (frames : List Frame) (closure : Closure) (args : List Value) (s : Machine × History) :
    Accounts s.2 frames (Watched.steps.runClosure exec frames closure args s) := by
  refine .note fun s₁ _ => (Accounts.quiet (.updateStore _)).bind fun env s₂ _ => ?_
  refine (Accounts.quiet (.bindParams _ _ _)).bind fun _ s₃ _ => ?_
  refine (accounts_sequence (hexec ⟨env, frames⟩) closure.body s₃).bind fun completion s₄ _ => ?_
  cases closure.isInitializer with
  | false => exact .pure
  | true =>
    refine .note fun s₅ _ => (Accounts.quiet .readStore).bind fun store s₆ _ => ?_
    exact .quiet (.access ⟨env, frames⟩ _)

theorem accounts_instantiate (hexec : ∀ ctx t s, Accounts s.2 ctx.frames (exec ctx t s))
    (frames : List Frame) (cls : Nat) (definition : Class) (args : List Value)
    (s : Machine × History) :
    Accounts s.2 frames (Watched.steps.instantiate exec frames cls definition args s) := by
  refine (Accounts.quiet (.updateStore _)).bind fun id s₁ _ => ?_
  cases definition.initializer? with
  | none => exact .pure
  | some method =>
    refine (Accounts.quiet (.bindMethod _ _)).bind fun bound s₂ _ => ?_
    exact (accounts_runClosure hexec frames bound args s₂).bind fun _ s₃ _ => .pure

theorem accounts_run (hexec : ∀ ctx t s, Accounts s.2 ctx.frames (exec ctx t s))
    (frames : List Frame) (args : List Value) (callee : Value) (s : Machine × History) :
    Accounts s.2 frames (Watched.steps.run exec frames args callee s) := by
  cases callee with
  | native id f =>
    cases f with
    | clock => exact .ok (List.Subset.refl _)
  | function id closure => exact accounts_runClosure hexec frames closure args s
  | cls id definition => exact accounts_instantiate hexec frames id definition args s
  | _ => exact .pure

/-- A call becomes active once its arguments are found to fit. -/
theorem accounts_apply (hexec : ∀ ctx t s, Accounts s.2 ctx.frames (exec ctx t s)) {ctx : Context}
    {line : Int} {callee : ResolvedExpr} {arguments : List ResolvedExpr} {s : Machine × History}
    (htaken : Taken s.2 (.expr (.call callee arguments line))) (f : Value) (args : List Value) :
    Accounts s.2 ctx.frames (Watched.steps.apply exec ctx line f args s) := by
  unfold Steps.apply
  cases f.signature? with
  | none => exact .fail (t := sym .rightParen line) rfl htaken rfl
  | some signature =>
    obtain ⟨name, arity⟩ := signature
    dsimp only
    split
    · exact (accounts_run hexec _ args f s).call ⟨callee, arguments, htaken⟩
    · exact .fail (t := sym .rightParen line) rfl htaken rfl

theorem accounts_exprStep (heval : ∀ ctx e s, Accounts s.2 ctx.frames (eval ctx e s))
    (hexec : ∀ ctx t s, Accounts s.2 ctx.frames (exec ctx t s)) (ctx : Context) {e : ResolvedExpr}
    {s : Machine × History} (htaken : Taken s.2 (.expr e)) :
    Accounts s.2 ctx.frames (Watched.steps.exprStep eval exec ctx e s) := by
  cases e with
  | literal value => exact .pure
  | group inner => exact heval ctx inner s
  | unary op line operand =>
    refine (heval ctx operand s).bind fun v s₁ hgrows => ?_
    exact .lift (.unary op line v) (htaken.mono hgrows)
  | binary op line left right =>
    refine (heval ctx left s).bind fun a s₁ hgrows => ?_
    refine (heval ctx right s₁).bind fun b s₂ hgrows' => ?_
    exact .lift (.binary op line a b) ((htaken.mono hgrows).mono hgrows')
  | logical op line left right =>
    refine (heval ctx left s).bind fun v s₁ _ => ?_
    split
    · exact .pure
    · exact heval ctx right s₁
  | «variable» name use => exact .lift (.lookUp rfl rfl use) htaken
  | assign name use value =>
    refine (heval ctx value s).bind fun v s₁ hgrows => ?_
    exact (Accounts.lift (.assignTo name use v) (htaken.mono hgrows)).bind fun _ s₂ _ => .pure
  | call callee arguments line =>
    refine (heval ctx callee s).bind fun f s₁ hgrows => ?_
    refine (accounts_inOrder (heval ctx) arguments s₁).bind fun args s₂ hgrows' => ?_
    exact accounts_apply hexec ((htaken.mono hgrows).mono hgrows') f args
  | get object name =>
    refine (heval ctx object s).bind fun v s₁ hgrows => ?_
    exact .lift (.getProperty v name) (htaken.mono hgrows)
  | set object name value =>
    refine (heval ctx object s).bind fun o s₁ hgrows => ?_
    cases o with
    | object id definition =>
      refine (heval ctx value s₁).bind fun v s₂ _ => ?_
      exact (Accounts.quiet (.modifyStore (·.setField id name.text v))).bind fun _ s₃ _ => .pure
    | _ => exact .fail (t := ident name) rfl (htaken.mono hgrows) ⟨name.text, rfl⟩
  | this line use => exact .lift (.lookUp rfl rfl use) htaken
  | super line use method => exact .lift (.getSuper use method) htaken
  | lambda line params body => exact .quiet (.newFunction _)

theorem accounts_optional (heval : ∀ ctx e s, Accounts s.2 ctx.frames (eval ctx e s))
    (ctx : Context) (value : Option ResolvedExpr) (s : Machine × History) :
    Accounts s.2 ctx.frames (Steps.optional eval ctx value s) := by
  cases value with
  | none => exact .pure
  | some e => exact heval ctx e s

theorem accounts_stmtStep (heval : ∀ ctx e s, Accounts s.2 ctx.frames (eval ctx e s))
    (hexec : ∀ ctx t s, Accounts s.2 ctx.frames (exec ctx t s)) (rounds : Nat) (ctx : Context)
    {t : ResolvedStmt} {s : Machine × History} (htaken : Taken s.2 (.stmt t)) :
    Accounts s.2 ctx.frames (Watched.steps.stmtStep eval exec rounds ctx t s) := by
  cases t with
  | expression e => exact (heval ctx e s).bind fun _ s₁ _ => .pure
  | print e =>
    refine (heval ctx e s).bind fun v s₁ _ => ?_
    exact (Accounts.quiet (.of_ok fun _ => ⟨_, _, rfl⟩)).bind fun _ s₂ _ => .pure
  | var name initial =>
    refine (accounts_optional heval ctx initial s).bind fun v s₁ _ => ?_
    refine (Accounts.quiet (.modifyStore (·.define ctx.env name.text v))).bind fun _ s₂ _ => ?_
    exact .note fun s₃ _ => .pure
  | block body =>
    refine (Accounts.quiet (.updateStore _)).bind fun env s₁ _ => ?_
    exact accounts_sequence (hexec { ctx with env }) body s₁
  | branch condition onTrue onFalse =>
    refine (heval ctx condition s).bind fun v s₁ _ => ?_
    cases v.truthy with
    | true => exact hexec ctx onTrue s₁
    | false =>
      cases onFalse with
      | none => exact .pure
      | some t => exact hexec ctx t s₁
  | loop condition body => exact accounts_whileLoop (heval ctx condition) (hexec ctx body) rounds s
  | function decl =>
    refine (Accounts.quiet (.newFunction _)).bind fun f s₁ _ => ?_
    refine (Accounts.quiet (.modifyStore (·.define ctx.env decl.name.text f))).bind ?_
    exact fun _ s₂ _ => .pure
  | ret line value =>
    exact (accounts_optional heval ctx value s).bind fun v s₁ _ => .pure
  | classDecl name superclass methods =>
    exact (Accounts.lift (.declareClass name superclass methods) htaken).bind fun _ s₁ _ => .pure

end Step

/-- Whatever is evaluated or executed, its faults are accounted for. -/
theorem accounts_walk (rounds n : Nat) :
    (∀ ctx e s, Accounts s.2 ctx.frames (Watched.steps.expr rounds n ctx e s)) ∧
    ∀ ctx t s, Accounts s.2 ctx.frames (Watched.steps.stmt rounds n ctx t s) := by
  induction n with
  | zero =>
    exact ⟨fun ctx e s => .quiet (.abort (by nofun)), fun ctx t s => .quiet (.abort (by nofun))⟩
  | succ n ih =>
    obtain ⟨heval, hexec⟩ := ih
    -- what is taken up is logged first, so its own faults can be blamed on it
    refine ⟨fun ctx e s => .note fun s₁ hevent => ?_, fun ctx t s => .note fun s₁ hevent => ?_⟩
    · exact accounts_exprStep heval hexec ctx ⟨ctx, s.1.store, hevent⟩
    · exact accounts_stmtStep heval hexec rounds ctx ⟨ctx, s.1.store, hevent⟩

theorem accounts_program (limits : Limits) (ctx : Context) (ss : List ResolvedStmt) (last : Value)
    (s : Machine × History) :
    Accounts s.2 ctx.frames (Watched.steps.program limits ctx ss last s) := by
  obtain ⟨heval, hexec⟩ := accounts_walk limits.rounds limits.nesting
  induction ss generalizing last s with
  | nil => exact .pure
  | cons t ss ih =>
    cases t with
    | expression e => exact (heval ctx e s).bind fun v s₁ _ => ih v s₁
    | _ => exact (hexec ctx _ s).bind fun _ s₁ _ => ih .nil s₁

end Treewalk
