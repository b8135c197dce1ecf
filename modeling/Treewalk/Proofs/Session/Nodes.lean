import Treewalk.Proofs.Notes.Runs
import Treewalk.Proofs.Scope.Nodes
import Treewalk.Proofs.Session.Actions

/-! # Sessions with a table of depths

    A session whose programs are left as they were parsed, except that every node has an
    identity.  Resolution writes the depths of local uses into a table, each accepted text
    adds its table to the one of the session, and evaluation looks up in that one, at each
    use, what it holds there at the time.  Put in place of the identities, the depths of
    the table give the session back: the two are seen to do the same, whatever they are
    asked (`acts_resolved`). -/

namespace Treewalk

variable {ρ σ τ : Type}

/-! ### Sessions with other notes -/

/-- The entry with other notes. -/
def Entry.map (f : ρ → σ) (entry : Entry ρ) : Entry σ := ⟨mapStmts f entry.statements, entry.bare⟩

/-- The session with other notes in all code it holds. -/
def Session.map (f : ρ → σ) (s : Session ρ) : Session σ :=
  { path := s.path, interactive := s.interactive, limits := s.limits
    machine := s.machine.map f, frames := s.frames, queue := s.queue.map (·.map f)
    results := s.results, localUses := s.localUses, notes := s.notes }

theorem Entry.map_map (g : σ → τ) (f : ρ → σ) (entry : Entry ρ) :
    (entry.map f).map g = entry.map fun i => g (f i) :=
  congrArg (Entry.mk · entry.bare) (mapStmts_mapStmts g f entry.statements)

namespace Session

variable (f : ρ → σ)

theorem map_map (g : σ → τ) (s : Session ρ) : (s.map f).map g = s.map fun i => g (f i) := by
  have hentries : (s.queue.map (·.map f)).map (·.map g) = s.queue.map (·.map fun i => g (f i)) := by
    rw [List.map_map]
    exact List.map_congr_left fun entry _ => entry.map_map g f
  unfold map
  dsimp only
  rw [Machine.map_map, hentries]

theorem map_new (path : String) (interactive : Bool) (limits : Limits) (clock : Nat → Float) :
    (new path interactive limits clock).map f = new path interactive limits clock := by
  unfold map new
  rw [Machine.map_initial]
  rfl

theorem abort_map (s : Session ρ) (a : Abort) :
    (s.map f).abort a = ((s.abort a).1.map f, (s.abort a).2) := by
  unfold abort
  cases a.fault <;> rfl

/-- What a run leaves of a session does not depend on the notes. -/
theorem finish_map (s : Session ρ) (entry : Entry ρ)
    (out : EStateM.Result Abort (Machine ρ) (Value ρ)) :
    (s.map f).finish (entry.map f) (mapOutcome f (Value.map f) out) =
      ((s.finish entry out).1.map f, (s.finish entry out).2) := by
  cases out with
  | ok v machine =>
    unfold mapOutcome finish
    dsimp only
    rw [Value.text_map]
    rfl
  | error a machine =>
    exact congrArg (fun ended => (ended.1, some ended.2)) (abort_map f { s with machine } a)

end Session

/-! ### Texts with identities -/

/-- The statements of a text, their nodes numbered from an identity on, and the identity
    that comes next. -/
def nodesOf (interactive : Bool) (source : String) (line : Int) (made : Nat) :
    List (Stmt NodeId) × Nat :=
  numberStmts (parse interactive (scan source line).tokens).statements made

/-- Scans, parses and resolves a text whose nodes are numbered.  A text that can be run
    comes with the table of its depths. -/
def checkNodes (interactive : Bool) (source : String) (line : Int) (made : Nat) :
    Checked (Entry NodeId × DepthTable) :=
  let scanned := scan source line
  let parsed := parse interactive scanned.tokens
  let notes : List Note :=
    [.scanned (scanned.tokens.length + 1) scanned.issues.length,
     .parsed parsed.statements.length parsed.errors.length]
  let complaints := scanned.issues.map Complaint.ofScan
    ++ parsed.errors.map (Complaint.ofParse scanned.endLine)
  match Complaint.byLine complaints with
  | first :: rest => ⟨notes, .error (first, rest)⟩
  | [] =>
    let program := (nodesOf interactive source line made).1
    let resolver := (Resolving.program program .initial).2
    let notes := notes ++ resolver.found.tallies.toList.map .resolved
    match resolver.found.errors.toList.map Complaint.ofResolve with
    | first :: rest => ⟨notes, .error (first, rest)⟩
    | [] => ⟨notes, .ok (⟨program, parsed.bare⟩, resolver.locals)⟩

/-- Puts what was found of a text into another form. -/
def Checked.map {α β : Type} (g : α → β) (c : Checked α) : Checked β := ⟨c.notes, c.outcome.map g⟩

section Check

variable (interactive : Bool) (source : String) (line : Int) (made : Nat)

/-- The nodes of a text are numbered one after the other. -/
theorem notes_nodesOf : ∃ count, (nodesOf interactive source line made).2 = made + count ∧
    notesOfStmts (nodesOf interactive source line made).1 = List.range' made count := by
  obtain ⟨hnotes, hnext⟩ :=
    countsStmts (parse interactive (scan source line).tokens).statements made
  exact ⟨_, hnext, hnotes⟩

theorem nodup_nodesOf : (notesOfStmts (nodesOf interactive source line made).1).Nodup := by
  obtain ⟨count, -, hnotes⟩ := notes_nodesOf interactive source line made
  rw [hnotes]
  exact List.nodup_range'

theorem source_nodesOf : sourceOfStmts (nodesOf interactive source line made).1 =
    (parse interactive (scan source line).tokens).statements :=
  (source_mapStmtsM _ _ made).trans (sourceOfStmts_eq _)

/-- A text is checked with identities as it is without, and the depths of its table are
    those that stand in its resolved tree. -/
theorem check_eq_checkNodes : check interactive source line =
    (checkNodes interactive source line made).map fun (entry, locals) =>
      (entry.map locals.find?, locals.size) := by
  have hnodup := nodup_nodesOf interactive source line made
  have hsource := source_nodesOf interactive source line made
  have hsize := Resolving.size_locals hnodup
  have htrees := Resolving.mapStmts_find?_locals hnodup
  obtain ⟨found, hprogram, -, -, herrors, htallies⟩ :=
    Resolving.program_initial (nodesOf interactive source line made).1
  rw [hsource] at hsize htrees herrors htallies
  unfold check checkNodes
  dsimp only
  generalize Complaint.byLine _ = complaints
  cases complaints with
  | cons first rest => rfl
  | nil =>
    rw [hprogram]
    dsimp only
    rw [herrors, htallies, ← Resolving.locals_eq]
    generalize List.map Complaint.ofResolve _ = complaints
    cases complaints with
    | cons first rest => rfl
    | nil => simp only [Checked.map, Except.map, Entry.map, htrees, hsize]

end Check

/-! ### Sessions with a table -/

/-- A session with the identities of its nodes and the table of depths. -/
structure NodeSession where
  /-- The session, with identities for notes. -/
  session : Session NodeId
  /-- How many nodes were made. -/
  made : NodeId
  /-- The depths of the local uses in all accepted texts. -/
  locals : DepthTable
  /-- The texts that were accepted, each with the table it came with, oldest first. -/
  accepted : List (Entry NodeId × DepthTable)

namespace NodeSession

/-- A session before its first text. -/
def new (path : String) (interactive : Bool) (limits : Limits) (clock : Nat → Float) :
    NodeSession :=
  ⟨.new path interactive limits clock, 0, .empty, []⟩

/-- Checks a text and queues it.  The nodes of any text are new, but only the table of one
    without complaints is added to that of the session. -/
def add (s : NodeSession) (source : String) (line : Int) : NodeSession × Option Diagnostic :=
  let checked := checkNodes s.session.interactive source line s.made
  let made := (nodesOf s.session.interactive source line s.made).2
  let session := { s.session with notes := s.session.notes ++ checked.notes }
  match checked.outcome with
  | .error (first, rest) => ({ s with session, made }, some (.complaints first rest))
  | .ok (entry, locals) =>
    ({ session :=
        { session with
          queue := session.queue ++ [entry]
          localUses := session.localUses + locals.size
          notes := session.notes.push (.queued entry.statements.length session.path line) }
       made
       locals := s.locals.update locals
       accepted := s.accepted ++ [(entry, locals)] }, none)

/-- Runs one entry, with distances looked up in the table. -/
def runEntry (s : NodeSession) (entry : Entry NodeId) : NodeSession × Option RunFailure :=
  let ctx : Context := ⟨s.session.env, s.session.frames⟩
  let result := (Steps.plain s.locals.find?).program s.session.limits ctx entry.statements .nil
    s.session.machine
  ({ s with session := (s.session.finish entry result).1 }, (s.session.finish entry result).2)

/-- Runs entries in order, up to the first that fails. -/
def runEntries (s : NodeSession) (entries : List (Entry NodeId)) : NodeSession × Option RunFailure :=
  runInTurn runEntry s entries

/-- Runs what is queued. -/
def run (s : NodeSession) : NodeSession × Option RunFailure :=
  runEntries { s with session := { s.session with queue := [] } } s.session.queue

/-- Does an action. -/
def act (s : NodeSession) : Action → NodeSession × Observation
  | .add source line => ((s.add source line).1, .added (s.add source line).2)
  | .run => (s.run.1, .ran s.run.2)
  | .pop =>
    match s.session.pop? with
    | some (shown, session) => ({ s with session }, .popped (some shown))
    | none => (s, .popped none)
  | .takeOutput => ({ s with session := s.session.takeOutput.2 }, .took s.session.takeOutput.1)

/-- Does some actions in order. -/
def acts (s : NodeSession) : List Action → NodeSession × List Observation
  | [] => (s, [])
  | action :: actions =>
    let (s', seen) := s.act action
    let (s'', more) := s'.acts actions
    (s'', seen :: more)

/-- The session that some actions lead to. -/
def reach (path : String) (interactive : Bool) (limits : Limits) (clock : Nat → Float)
    (actions : List Action) : NodeSession :=
  ((new path interactive limits clock).acts actions).1

/-- The session with the depths of the table in place of the identities. -/
def resolved (s : NodeSession) : Session := s.session.map s.locals.find?

/-- The nodes of the accepted texts. -/
def nodes (s : NodeSession) : List NodeId :=
  s.accepted.flatMap fun p => notesOfStmts p.1.statements

/-! ### Runs -/

theorem runEntry_resolved (s : NodeSession) (entry : Entry NodeId) :
    ((s.runEntry entry).1.resolved, (s.runEntry entry).2) =
      s.resolved.runEntry (entry.map s.locals.find?) := by
  have hdepth : ∀ node, id (s.locals.find? node) = s.locals.find? node := fun _ => rfl
  have hprogram := Steps.mimics_program hdepth s.session.limits
    ⟨s.session.env, s.session.frames⟩ entry.statements .nil s.session.machine
  rw [Steps.plain_program] at hprogram
  have hfinish := Session.finish_map s.locals.find? s.session entry
    ((Steps.plain s.locals.find?).program s.session.limits ⟨s.session.env, s.session.frames⟩
      entry.statements .nil s.session.machine)
  rw [← hprogram] at hfinish
  rw [Session.runEntry_eq]
  exact hfinish.symm

theorem runEntries_resolved (s : NodeSession) (entries : List (Entry NodeId)) :
    ((s.runEntries entries).1.resolved, (s.runEntries entries).2) =
      s.resolved.runEntries (entries.map (·.map s.locals.find?)) := by
  let R (p : NodeSession × Option RunFailure) (q : Session × Option RunFailure) : Prop :=
    p.1.locals = s.locals ∧ (p.1.resolved, p.2) = q
  suffices hrun : R (s.runEntries entries) (s.resolved.runEntries _) from hrun.2
  refine runInTurn_alike (R := R) ?failure ?entry
    (List.forall₂_map_right_iff.mpr (List.forall₂_same.mpr fun _ _ => rfl)) ⟨rfl, rfl⟩
  case failure =>
    rintro p _ ⟨-, rfl⟩
    rfl
  case entry =>
    rintro s' _ entry _ rfl ⟨hlocals, hs'⟩
    cases hs'
    -- no run writes to the table
    exact ⟨hlocals, hlocals ▸ s'.runEntry_resolved entry⟩

theorem run_resolved (s : NodeSession) : (s.run.1.resolved, s.run.2) = s.resolved.run :=
  runEntries_resolved _ _

end NodeSession

end Treewalk
