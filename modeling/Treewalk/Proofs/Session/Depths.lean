import Treewalk.Proofs.Session.Confined
import Treewalk.Proofs.Session.Provenance
import Mathlib.Algebra.GroupWithZero.Nat
import Mathlib.Data.List.Flatten
import Mathlib.Data.List.Infix

/-! # The table of depths over time

    No identity is given to two nodes, so what an accepted text adds to the table of
    depths is new to it, and the table keeps all it has.  All code that a session holds is
    that of accepted texts.  So at each use that a run comes to, the table has the depth
    that was put there when the text was added (`depths_are_permanent`). -/

namespace Treewalk

/-- A text without complaints is queued as it was numbered, and comes with the table that
    resolution makes for it. -/
theorem numbered_of_checkNodes {interactive : Bool} {source : String} {line : Int} {made : Nat}
    {entry : Entry NodeId} {locals : DepthTable}
    (h : (checkNodes interactive source line made).outcome = .ok (entry, locals)) :
    entry.statements = (nodesOf interactive source line made).1 ∧
      locals = Resolving.locals entry.statements := by
  unfold checkNodes at h
  simp only at h
  split at h
  · cases h
  · split at h
    · cases h
    · cases h
      exact ⟨rfl, rfl⟩

namespace NodeSession

/-- The resolution of a text with identities. -/
def resolution (entry : Entry NodeId) : Resolution := resolve (sourceOfStmts entry.statements)

/-- The nodes of the accepted texts are all different, all code is theirs, and the table
    holds what resolution found for them. -/
structure Tidy (interactive : Bool) (texts : List Resolution) (s : NodeSession) : Prop where
  mode : s.session.interactive = interactive
  /-- What was accepted are these texts. -/
  texts : s.accepted.map (fun p => resolution p.1) = texts
  /-- The identities that come next are new. -/
  fresh : ∀ node ∈ s.nodes, node < s.made
  /-- No identity is given to two nodes. -/
  nodup : s.nodes.Nodup
  /-- Each text comes with the table that resolution makes for it. -/
  tables : ∀ p ∈ s.accepted, p.2 = Resolving.locals p.1.statements
  /-- The table of the session is made of these. -/
  entries : s.locals.entries = s.accepted.flatMap (·.2.entries)
  /-- It has the depths of each of them. -/
  kept : ∀ p ∈ s.accepted, ∀ node ∈ notesOfStmts p.1.statements,
    s.locals.find? node = p.2.find? node
  localUses : s.session.localUses = s.locals.size
  confined : s.session.Confined s.nodes

variable {interactive : Bool} {texts : List Resolution} {s : NodeSession}

theorem new_tidy (path : String) (interactive : Bool) (limits : Limits) (clock : Nat → Float) :
    (new path interactive limits clock).Tidy interactive [] where
  mode := rfl
  texts := rfl
  fresh := nofun
  nodup := .nil
  tables := nofun
  entries := rfl
  kept := nofun
  localUses := rfl
  confined := fun _ => Session.map_new _ path interactive limits clock

namespace Tidy

theorem nodup_notes (h : s.Tidy interactive texts) {p : Entry NodeId × DepthTable}
    (hp : p ∈ s.accepted) : (notesOfStmts p.1.statements).Nodup :=
  (List.nodup_flatMap.mp h.nodup).1 p hp

theorem nodes_locals_sublist (h : s.Tidy interactive texts) : s.locals.nodes.Sublist s.nodes := by
  unfold DepthTable.nodes nodes
  rw [h.entries, List.map_flatMap]
  refine List.Sublist.flatMap_right _ fun p hp => ?_
  rw [h.tables p hp]
  exact Resolving.nodes_locals_sublist (h.nodup_notes hp)

/-- What has no part in the nodes and the table may change, and identities may be left out. -/
theorem withSession (h : s.Tidy interactive texts) {session : Session NodeId} {made : Nat}
    (hconfined : session.Confined s.nodes) (hmade : s.made ≤ made)
    (hmode : session.interactive = s.session.interactive)
    (huses : session.localUses = s.session.localUses) :
    Tidy interactive texts { s with session, made } :=
  { h with
    mode := hmode.trans h.mode
    fresh := fun node hnode => Nat.lt_of_lt_of_le (h.fresh node hnode) hmade
    localUses := huses.trans h.localUses
    confined := hconfined }

end Tidy

/-! ### Adding a text -/

section Add

variable {entry : Entry NodeId} {made : Nat}

/-- The nodes of the entry are new. -/
structure Numbered (s : NodeSession) (made : Nat) (entry : Entry NodeId) : Prop where
  nodup : (notesOfStmts entry.statements).Nodup
  notes : ∀ node ∈ notesOfStmts entry.statements, s.made ≤ node ∧ node < made
  le : s.made ≤ made

theorem numbered_nodesOf {source : String} {line : Int}
    (hentry : entry.statements = (nodesOf interactive source line s.made).1) :
    Numbered s (nodesOf interactive source line s.made).2 entry := by
  obtain ⟨count, hmade, hnotes⟩ := notes_nodesOf interactive source line s.made
  rw [← hentry] at hnotes
  refine ⟨?_, fun node hnode => ?_, hmade ▸ Nat.le_add_right _ _⟩
  · rw [hnotes]
    exact List.nodup_range'
  · rw [hnotes] at hnode
    rw [hmade]
    exact List.mem_range'_1.mp hnode

variable (h : s.Tidy interactive texts) (hnew : Numbered s made entry)
include h hnew

theorem disjoint_notes : List.Disjoint (notesOfStmts entry.statements) s.nodes := by
  intro node hnode hold
  exact Nat.lt_irrefl node (Nat.lt_of_lt_of_le (h.fresh node hold) (hnew.notes node hnode).1)

theorem disjoint_locals :
    List.Disjoint (Resolving.locals entry.statements).nodes s.locals.nodes :=
  List.disjoint_of_subset_left (Resolving.nodes_locals_sublist hnew.nodup).subset
    (List.disjoint_of_subset_right h.nodes_locals_sublist.subset (disjoint_notes h hnew))

theorem entries_update : (s.locals.update (Resolving.locals entry.statements)).entries =
    s.locals.entries ++ (Resolving.locals entry.statements).entries :=
  DepthTable.entries_update
    ((Resolving.nodes_locals_sublist hnew.nodup).nodup hnew.nodup) (disjoint_locals h hnew)

theorem find?_update (node : NodeId) :
    (s.locals.update (Resolving.locals entry.statements)).find? node =
      (s.locals.find? node).or ((Resolving.locals entry.statements).find? node) :=
  DepthTable.find?_update
    ((Resolving.nodes_locals_sublist hnew.nodup).nodup hnew.nodup) (disjoint_locals h hnew) node

/-- All other nodes keep their depths. -/
theorem find?_update_old {node : NodeId} (hnode : node ∉ notesOfStmts entry.statements) :
    (s.locals.update (Resolving.locals entry.statements)).find? node = s.locals.find? node := by
  have hnone : (Resolving.locals entry.statements).find? node = none :=
    DepthTable.find?_eq_none_iff.mpr fun hmem =>
      hnode ((Resolving.nodes_locals_sublist hnew.nodup).subset hmem)
  rw [find?_update h hnew, hnone, Option.or_none]

/-- The nodes of the entry have the depths that were found for it. -/
theorem find?_update_new {node : NodeId} (hnode : node ∈ notesOfStmts entry.statements) :
    (s.locals.update (Resolving.locals entry.statements)).find? node =
      (Resolving.locals entry.statements).find? node := by
  have hnone : s.locals.find? node = none :=
    DepthTable.find?_eq_none_iff.mpr fun hmem =>
      disjoint_notes h hnew hnode (h.nodes_locals_sublist.subset hmem)
  rw [find?_update h hnew, hnone, Option.none_or]

/-- The depths of the entry change nothing of the session. -/
theorem map_update : s.session.map (s.locals.update (Resolving.locals entry.statements)).find? =
    s.resolved :=
  h.confined.map_congr fun _ hnode =>
    find?_update_old h hnew fun hmem => disjoint_notes h hnew hmem hnode

end Add

/-- A session with one more entry. -/
theorem map_queue (f : NodeId → Distance) (s : Session NodeId) (entry : Entry NodeId) (uses : Nat)
    (notes : Array Note) :
    Session.map f { s with queue := s.queue ++ [entry], localUses := uses, notes } =
      { s.map f with queue := (s.map f).queue ++ [entry.map f], localUses := uses, notes } := by
  unfold Session.map
  rw [List.map_append]
  rfl

/-- A text is added to the session with the table as it is to the one without. -/
theorem add_resolved (h : s.Tidy interactive texts) (source : String) (line : Int) :
    ((s.add source line).1.resolved, (s.add source line).2) = s.resolved.add source line := by
  have hmode : s.resolved.interactive = s.session.interactive := rfl
  unfold Session.add
  rw [hmode, check_eq_checkNodes _ _ _ s.made]
  unfold add
  dsimp only [Checked.map]
  cases hcheck : (checkNodes s.session.interactive source line s.made).outcome with
  | error complaints => rfl
  | ok checked =>
    obtain ⟨entry, locals⟩ := checked
    obtain ⟨hentry, rfl⟩ := numbered_of_checkNodes hcheck
    have hnew := numbered_nodesOf hentry
    have hmap : entry.map (s.locals.update (Resolving.locals entry.statements)).find? =
        entry.map (Resolving.locals entry.statements).find? :=
      congrArg (Entry.mk · entry.bare) (mapStmts_congr fun node => find?_update_new h hnew)
    have hlength : (entry.map (Resolving.locals entry.statements).find?).statements.length =
        entry.statements.length := length_mapStmts _ _
    dsimp only [Except.map]
    rw [hlength, ← hmap]
    unfold resolved
    dsimp only
    rw [map_queue, map_update h hnew]
    rfl

/-- A text that is accepted keeps the session tidy. -/
theorem accept_tidy (h : s.Tidy interactive texts) {entry : Entry NodeId} {made : Nat}
    (hnew : Numbered s made entry) {session : Session NodeId}
    (hsession : session.Confined (s.nodes ++ notesOfStmts entry.statements))
    (hmode : session.interactive = s.session.interactive)
    (huses : session.localUses =
      s.session.localUses + (Resolving.locals entry.statements).size) :
    Tidy interactive (texts ++ [resolution entry])
      { session, made, locals := s.locals.update (Resolving.locals entry.statements)
        accepted := s.accepted ++ [(entry, Resolving.locals entry.statements)] } := by
  have hnodes {locals : DepthTable} : nodes
      { session, made, locals
        accepted := s.accepted ++ [(entry, Resolving.locals entry.statements)] } =
        s.nodes ++ notesOfStmts entry.statements := by
    unfold nodes
    rw [List.flatMap_append, List.flatMap_singleton]
  have hentries := entries_update h hnew
  refine
    { mode := hmode.trans h.mode, texts := ?texts, fresh := ?fresh, nodup := ?nodup
      tables := ?tables, entries := ?entries, kept := ?kept, localUses := ?localUses
      confined := hnodes ▸ hsession }
  case texts => rw [List.map_append, h.texts, List.map_singleton]
  case fresh =>
    intro node hnode
    rw [hnodes] at hnode
    rcases List.mem_append.mp hnode with hnode | hnode
    · exact Nat.lt_of_lt_of_le (h.fresh node hnode) hnew.le
    · exact (hnew.notes node hnode).2
  case nodup =>
    rw [hnodes]
    exact h.nodup.append hnew.nodup fun node hold hmem => disjoint_notes h hnew hmem hold
  case tables =>
    intro p hp
    rcases List.mem_append.mp hp with hp | hp
    · exact h.tables p hp
    · cases List.mem_singleton.mp hp
      rfl
  case entries => rw [hentries, h.entries, List.flatMap_append, List.flatMap_singleton]
  case kept =>
    intro p hp node hnode
    rcases List.mem_append.mp hp with hp | hp
    · have hold : node ∉ notesOfStmts entry.statements := fun hmem =>
        disjoint_notes h hnew hmem (List.mem_flatMap.mpr ⟨p, hp, hnode⟩)
      exact (find?_update_old h hnew hold).trans (h.kept p hp node hnode)
    · cases List.mem_singleton.mp hp
      exact find?_update_new h hnew hnode
  case localUses =>
    unfold DepthTable.size at huses ⊢
    rw [huses, h.localUses, hentries, List.length_append, DepthTable.size]

/-- A text is accepted if it is accepted with identities, with the same resolution. -/
theorem accepted?_add (interactive : Bool) (source : String) (line : Int) (made : Nat) :
    (Action.add source line).accepted? interactive =
      match (checkNodes interactive source line made).outcome with
      | .ok (entry, _) => some (resolution entry)
      | .error _ => none := by
  have hcheck := congrArg Checked.outcome (check_eq_checkNodes interactive source line made)
  unfold Action.accepted?
  dsimp only
  rw [hcheck]
  unfold Checked.map
  cases hnodes : (checkNodes interactive source line made).outcome with
  | error complaints => rfl
  | ok checked =>
    obtain ⟨hentry, -⟩ := numbered_of_checkNodes hnodes
    have hsource := source_nodesOf interactive source line made
    rw [← hentry] at hsource
    rw [← hsource]
    rfl

theorem add_tidy (h : s.Tidy interactive texts) (source : String) (line : Int) :
    (s.add source line).1.Tidy interactive
      (texts ++ ((Action.add source line).accepted? interactive).toList) := by
  obtain rfl : s.session.interactive = interactive := h.mode
  obtain ⟨count, hmade, -⟩ := notes_nodesOf s.session.interactive source line s.made
  rw [accepted?_add _ _ _ s.made]
  unfold add
  dsimp only
  cases hnodes : (checkNodes s.session.interactive source line s.made).outcome with
  | error complaints =>
    -- identities that were given to the nodes of a text that is refused are not given again
    rw [Option.toList_none, List.append_nil]
    have hcode := Session.Confined.iff.mp h.confined
    have hle : s.made ≤ (nodesOf s.session.interactive source line s.made).2 :=
      hmade ▸ Nat.le_add_right _ _
    exact h.withSession (Session.Confined.iff.mpr hcode) hle rfl rfl
  | ok checked =>
    obtain ⟨entry, locals⟩ := checked
    obtain ⟨hentry, rfl⟩ := numbered_of_checkNodes hnodes
    refine accept_tidy h (numbered_nodesOf hentry) ?_ rfl rfl
    have hsession := h.confined.mono (List.subset_append_left _ (notesOfStmts entry.statements))
    have hstatements := mapStmts_confine.mpr
      (List.subset_append_right s.nodes (notesOfStmts entry.statements))
    refine Session.Confined.iff.mpr fun other => ⟨hsession.machine other, fun queued hqueued => ?_⟩
    rcases List.mem_append.mp hqueued with hqueued | hqueued
    · exact hsession.queued hqueued other
    · cases List.mem_singleton.mp hqueued
      exact congrArg (Entry.mk · entry.bare) (hstatements other)

/-! ### Runs -/

theorem runEntry_tidy (h : s.Tidy interactive texts) {entry : Entry NodeId}
    (hentry : ∀ other, entry.map (confine s.nodes other) = entry) :
    (s.runEntry entry).1.Tidy interactive texts := by
  obtain ⟨-, hmode, -, huses⟩ := s.session.finish_keeps entry
    ((Steps.plain s.locals.find?).program s.session.limits ⟨s.session.env, s.session.frames⟩
      entry.statements .nil s.session.machine)
  exact h.withSession (runEntry_confined h.confined hentry) (Nat.le_refl _) hmode huses

theorem runEntries_tidy (h : s.Tidy interactive texts) {entries : List (Entry NodeId)}
    (hentries : ∀ entry ∈ entries, ∀ other, entry.map (confine s.nodes other) = entry) :
    (s.runEntries entries).1.Tidy interactive texts := by
  let P (p : NodeSession × Option RunFailure) : Prop :=
    p.1.Tidy interactive texts ∧ p.1.nodes = s.nodes
  suffices hrun : P (s.runEntries entries) from hrun.1
  refine runInTurn_preserves (P := P) ?_ ⟨h, rfl⟩
  rintro entry hentry s' ⟨htidy, hnodes⟩
  have hconfined := hnodes ▸ hentries entry hentry
  exact ⟨runEntry_tidy htidy hconfined, hnodes⟩

theorem run_tidy (h : s.Tidy interactive texts) : s.run.1.Tidy interactive texts := by
  have hempty : Session.Confined s.nodes { s.session with queue := [] } :=
    Session.Confined.iff.mpr fun other => ⟨h.confined.machine other, nofun⟩
  have hqueue : ∀ entry ∈ s.session.queue, ∀ other, entry.map (confine s.nodes other) = entry :=
    fun entry hentry => h.confined.queued hentry
  exact runEntries_tidy (h.withSession hempty (Nat.le_refl _) rfl rfl) hqueue

/-! ### Actions -/

theorem act_tidy (h : s.Tidy interactive texts) (action : Action) :
    (s.act action).1.Tidy interactive (texts ++ (action.accepted? interactive).toList) := by
  have hnone {s' : NodeSession} (h' : s'.Tidy interactive texts) :
      s'.Tidy interactive (texts ++ []) := by
    rwa [List.append_nil]
  cases action with
  | add source line => exact add_tidy h source line
  | run => exact hnone (run_tidy h)
  | pop =>
    refine hnone ?_
    unfold act Session.pop?
    dsimp only
    cases s.session.results with
    | nil => exact h
    | cons shown rest =>
      have hcode := Session.Confined.iff.mp h.confined
      exact h.withSession (Session.Confined.iff.mpr hcode) (Nat.le_refl _) rfl rfl
  | takeOutput =>
    refine hnone (h.withSession (Session.Confined.iff.mpr fun other => ?_) (Nat.le_refl _) rfl rfl)
    have hmachine := congrArg (fun m : Machine NodeId => { m with printed := #[] })
      (h.confined.machine other)
    exact ⟨hmachine, fun entry hentry => h.confined.queued hentry other⟩

/-- What is asked of the session with the table shows what it shows of the one without. -/
theorem act_resolved (h : s.Tidy interactive texts) (action : Action) :
    ((s.act action).1.resolved, (s.act action).2) = s.resolved.act action := by
  cases action with
  | add source line =>
    have hadd := add_resolved h source line
    show ((s.add source line).1.resolved, Observation.added (s.add source line).2) =
      ((s.resolved.add source line).1, .added (s.resolved.add source line).2)
    rw [← hadd]
  | run =>
    have hrun := s.run_resolved
    show (s.run.1.resolved, Observation.ran s.run.2) = (s.resolved.run.1, .ran s.resolved.run.2)
    rw [← hrun]
  | pop =>
    have hresults : s.resolved.results = s.session.results := rfl
    unfold act Session.act Session.pop?
    dsimp only
    rw [hresults]
    cases s.session.results <;> rfl
  | takeOutput => rfl

theorem acts_tidy {before : List Action}
    (h : s.Tidy interactive (acceptedTexts interactive before)) (actions : List Action) :
    (s.acts actions).1.Tidy interactive (acceptedTexts interactive (before ++ actions)) := by
  induction actions generalizing s before with
  | nil =>
    rw [List.append_nil]
    exact h
  | cons action actions ih =>
    have hfirst := act_tidy h action
    rw [← acceptedTexts_singleton, ← acceptedTexts_append] at hfirst
    have hrest := ih hfirst
    rw [List.append_assoc] at hrest
    exact hrest

/-- So does all that is asked of it, one after the other. -/
theorem acts_resolved (h : s.Tidy interactive texts) (actions : List Action) :
    ((s.acts actions).1.resolved, (s.acts actions).2) = s.resolved.acts actions := by
  induction actions generalizing s texts with
  | nil => rfl
  | cons action actions ih =>
    have haction := act_resolved h action
    have hfirst := act_tidy h action
    unfold acts Session.acts
    rw [← haction]
    generalize s.act action = p at hfirst
    obtain ⟨s', seen⟩ := p
    dsimp only
    rw [← ih hfirst]

theorem reach_tidy (path : String) (interactive : Bool) (limits : Limits) (clock : Nat → Float)
    (actions : List Action) : (reach path interactive limits clock actions).Tidy interactive
      (acceptedTexts interactive actions) :=
  @acts_tidy _ _ [] (new_tidy path interactive limits clock) actions

/-! ### More texts -/

theorem accepted_runEntries (s : NodeSession) (entries : List (Entry NodeId)) :
    (s.runEntries entries).1.accepted = s.accepted := by
  let P (p : NodeSession × Option RunFailure) : Prop := p.1.accepted = s.accepted
  refine runInTurn_preserves (P := P) ?_ rfl
  exact fun _ _ _ hs' => hs'

theorem accepted_act (s : NodeSession) (action : Action) :
    s.accepted <+: (s.act action).1.accepted := by
  cases action with
  | add source line =>
    unfold act add
    dsimp only
    cases (checkNodes s.session.interactive source line s.made).outcome with
    | error complaints => exact List.prefix_rfl
    | ok checked => exact List.prefix_append s.accepted _
  | run =>
    have hrun : s.run.1.accepted = s.accepted := accepted_runEntries _ _
    exact ⟨[], (List.append_nil _).trans hrun.symm⟩
  | pop =>
    unfold act
    dsimp only
    cases s.session.pop? <;> exact List.prefix_rfl
  | takeOutput => exact List.prefix_rfl

theorem accepted_acts (s : NodeSession) (actions : List Action) :
    s.accepted <+: (s.acts actions).1.accepted := by
  induction actions generalizing s with
  | nil => exact List.prefix_rfl
  | cons action actions ih => exact (s.accepted_act action).trans (ih _)

theorem acts_append (s : NodeSession) (before more : List Action) :
    (s.acts (before ++ more)).1 = ((s.acts before).1.acts more).1 := by
  induction before generalizing s with
  | nil => rfl
  | cons action before ih => exact ih _

namespace Tidy

theorem pairwise_disjoint (h : s.Tidy interactive texts) :
    s.accepted.Pairwise fun p q => List.Disjoint p.2.nodes q.2.nodes := by
  have hsubset {p : Entry NodeId × DepthTable} (hp : p ∈ s.accepted) :
      p.2.nodes ⊆ notesOfStmts p.1.statements := by
    rw [h.tables p hp]
    exact (Resolving.nodes_locals_sublist (h.nodup_notes hp)).subset
  refine (List.nodup_flatMap.mp h.nodup).2.imp_of_mem fun hp hq hdisjoint => ?_
  exact List.disjoint_of_subset_left (hsubset hp)
    (List.disjoint_of_subset_right (hsubset hq) hdisjoint)

theorem size_table (h : s.Tidy interactive texts) {p : Entry NodeId × DepthTable}
    (hp : p ∈ s.accepted) : p.2.size = (resolution p.1).uses.length := by
  rw [h.tables p hp]
  exact Resolving.size_locals (h.nodup_notes hp)

theorem size_locals (h : s.Tidy interactive texts) :
    s.locals.size = (s.accepted.map fun p => (resolution p.1).uses.length).sum := by
  unfold DepthTable.size
  rw [h.entries, List.length_flatMap]
  exact congrArg List.sum (List.map_congr_left fun p hp => h.size_table hp)

/-- A text keeps the depths it came with. -/
theorem find?_later {s' : NodeSession} {texts' : List Resolution}
    (h' : s'.Tidy interactive texts') (hpre : s.accepted <+: s'.accepted) {node : NodeId}
    (hnode : node ∈ s.nodes) : ∃ p ∈ s.accepted, node ∈ notesOfStmts p.1.statements ∧
      s'.locals.find? node = p.2.find? node := by
  obtain ⟨p, hp, hnode⟩ := List.mem_flatMap.mp hnode
  exact ⟨p, hp, hnode, h'.kept p (hpre.subset hp) node hnode⟩

end Tidy

end NodeSession

/-- Later texts never disturb the depths of earlier ones.  Evaluation that looks up the
    depths in a table shows what evaluation of resolved trees shows, and each accepted text
    comes with the table that resolution makes for it.  No two of these have a node in
    common; the table of the session is made of all of them, and has as many entries as
    local uses were found.  It never loses an entry, and none is changed.  So each node of
    a function or method that the session holds has, at any later time, the depth that was
    found for it when its text was added; and what a run does depends on nothing else in
    the table. -/
theorem depths_are_permanent (path : String) (interactive : Bool) (limits : Limits)
    (clock : Nat → Float) (before more : List Action) :
    let s := NodeSession.reach path interactive limits clock before
    let later := NodeSession.reach path interactive limits clock (before ++ more)
    ((s.resolved, ((NodeSession.new path interactive limits clock).acts before).2) =
        (Session.new path interactive limits clock).acts before ∧
      s.accepted.map (fun p => NodeSession.resolution p.1) = acceptedTexts interactive before ∧
      ∀ p ∈ s.accepted,
        mapStmts p.2.find? p.1.statements = (NodeSession.resolution p.1).statements) ∧
    (s.nodes.Nodup ∧ s.accepted.Pairwise (fun p q => List.Disjoint p.2.nodes q.2.nodes) ∧
      s.locals.entries = s.accepted.flatMap (·.2.entries) ∧ s.locals.nodes.Nodup) ∧
    (s.accepted <+: later.accepted ∧ s.locals.entries <+: later.locals.entries ∧
      ∀ node ∈ s.nodes, later.locals.find? node = s.locals.find? node) ∧
    (s.session.localUses = s.locals.size ∧
      s.locals.size = (s.accepted.map fun p => (NodeSession.resolution p.1).uses.length).sum ∧
      ∀ p ∈ s.accepted, p.2.size = (NodeSession.resolution p.1).uses.length) ∧
    (∀ v, s.session.machine.store.Holds v → ∀ c, v.Carries c → ∀ node ∈ notesOfStmts c.body,
      ∃ p ∈ s.accepted, node ∈ notesOfStmts p.1.statements ∧
        later.locals.find? node = p.2.find? node) ∧
    ∀ t : DepthTable,
      (∀ p ∈ later.accepted, ∀ node ∈ notesOfStmts p.1.statements,
        t.find? node = p.2.find? node) →
      ({ later with locals := t } : NodeSession).run =
        ({ later.run.1 with locals := t }, later.run.2) := by
  intro s later
  have h : s.Tidy interactive (acceptedTexts interactive before) :=
    NodeSession.reach_tidy path interactive limits clock before
  have hlater : later.Tidy interactive (acceptedTexts interactive (before ++ more)) :=
    NodeSession.reach_tidy path interactive limits clock (before ++ more)
  have haccepted : s.accepted <+: later.accepted := by
    have hacts := NodeSession.acts_append (.new path interactive limits clock) before more
    show s.accepted <+: ((NodeSession.new path interactive limits clock).acts _).1.accepted
    rw [hacts]
    exact NodeSession.accepted_acts s more
  refine ⟨⟨?_, h.texts, ?_⟩, ⟨h.nodup, h.pairwise_disjoint, h.entries, ?_⟩, ⟨haccepted, ?_, ?_⟩,
    ⟨h.localUses, h.size_locals, fun p => h.size_table⟩, ?_, ?_⟩
  · have hacts := NodeSession.acts_resolved
      (NodeSession.new_tidy path interactive limits clock) before
    have hnew := Session.map_new DepthTable.empty.find? path interactive limits clock
    exact hacts.trans (congrArg (fun s : Session => s.acts before) hnew)
  · intro p hp
    rw [h.tables p hp]
    exact Resolving.mapStmts_find?_locals (h.nodup_notes hp)
  · exact h.nodes_locals_sublist.nodup h.nodup
  · rw [h.entries, hlater.entries]
    exact haccepted.flatMap _
  · intro node hnode
    obtain ⟨p, hp, hmem, hfind⟩ := hlater.find?_later haccepted hnode
    rw [hfind, h.kept p hp node hmem]
  · intro v hv c hc node hnode
    exact hlater.find?_later haccepted (h.confined.held hv hc hnode)
  · intro t ht
    refine NodeSession.run_congr hlater.confined fun node hnode => ?_
    obtain ⟨p, hp, hmem⟩ := List.mem_flatMap.mp hnode
    rw [ht p hp node hmem, hlater.kept p hp node hmem]

end Treewalk
