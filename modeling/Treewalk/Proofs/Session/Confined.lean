import Treewalk.Proofs.Session.Heap
import Treewalk.Proofs.Session.Nodes

/-! # Code of known nodes

    Code is confined to some nodes if it has no others: whatever is put in place of all
    other nodes, it stays as it is.  Said like this, confinement of a session is kept by
    every run, since a run with other notes does the same (`runEntry_confined`), and the
    bodies of all functions and methods that the session holds are confined with it
    (`Confined.held`).  So what a run does depends on a table of depths only at these
    nodes (`run_congr`). -/

namespace Treewalk

/-! ### Other nodes -/

/-- The node if it is among the given ones, and another one in place of all others. -/
def confine (nodes : List NodeId) (other node : NodeId) : NodeId :=
  if node ∈ nodes then node else other

section Confine

variable {nodes nodes' : List NodeId} {other node : NodeId}

theorem confine_of_mem (h : node ∈ nodes) : confine nodes other node = node := if_pos h

theorem confine_of_notMem (h : node ∉ nodes) : confine nodes other node = other := if_neg h

theorem confine_confine : confine nodes other (confine nodes other node) =
    confine nodes other node := by
  by_cases h : node ∈ nodes
  · rw [confine_of_mem h, confine_of_mem h]
  · rw [confine_of_notMem h]
    unfold confine
    exact ite_self other

theorem confine_of_subset (h : nodes ⊆ nodes') (other' : NodeId) :
    confine nodes' other (confine nodes other' node) =
      confine nodes (confine nodes' other other') node := by
  by_cases hnode : node ∈ nodes
  · rw [confine_of_mem hnode, confine_of_mem hnode, confine_of_mem (h hnode)]
  · rw [confine_of_notMem hnode, confine_of_notMem hnode]

theorem mem_of_confine_eq (h : ∀ other, confine nodes other node = node) : node ∈ nodes := by
  by_contra hnode
  have hnext := h (node + 1)
  rw [confine_of_notMem hnode] at hnext
  exact Nat.succ_ne_self node hnext

/-- What depends on a function only at some nodes, and at any one node in place of all
    others, is the same for functions that agree on those nodes. -/
theorem eq_of_agree {σ β : Type} {F : (NodeId → σ) → β} {f g : NodeId → σ}
    (hF : ∀ other f, F f = F fun node => f (confine nodes other node))
    (h : ∀ node ∈ nodes, f node = g node) : F f = F g := by
  -- a function between the two agrees with each of them at another node
  let between (node : NodeId) : σ := if node = 0 then f node else g node
  have hleft (node : NodeId) : f (confine nodes 0 node) = between (confine nodes 0 node) := by
    by_cases hnode : node ∈ nodes
    · rw [confine_of_mem hnode]
      exact (ite_eq_left_iff.mpr fun _ => (h node hnode).symm).symm
    · rw [confine_of_notMem hnode]
      exact (if_pos rfl).symm
  have hright (node : NodeId) : between (confine nodes 1 node) = g (confine nodes 1 node) := by
    by_cases hnode : node ∈ nodes
    · rw [confine_of_mem hnode]
      exact ite_eq_right_iff.mpr fun _ => h node hnode
    · rw [confine_of_notMem hnode]
      exact if_neg Nat.one_ne_zero
  calc F f = F fun node => f (confine nodes 0 node) := hF 0 f
    _ = F fun node => between (confine nodes 0 node) := by simp only [hleft]
    _ = F between := (hF 0 between).symm
    _ = F fun node => between (confine nodes 1 node) := hF 1 between
    _ = F fun node => g (confine nodes 1 node) := by simp only [hright]
    _ = F g := (hF 1 g).symm

theorem mapStmts_confine {ss : List (Stmt NodeId)} :
    (∀ other, mapStmts (confine nodes other) ss = ss) ↔ notesOfStmts ss ⊆ nodes := by
  constructor
  · intro h node hnode
    refine mem_of_confine_eq fun other => ?_
    have hnotes := congrArg notesOfStmts (h other)
    rw [notesOfStmts_map] at hnotes
    exact List.map_inj_left.mp (hnotes.trans (List.map_id _).symm) node hnode
  · intro h other
    refine ext_notes (mapStmts_mapStmts _ _ ss) ?_
    rw [notesOfStmts_map]
    exact (List.map_congr_left fun node hnode => confine_of_mem (h hnode)).trans (List.map_id _)

end Confine

/-! ### Values -/

theorem Class.lineage_map {ρ σ ε : Type} (f : ρ → σ) : (d : Class ρ ε) →
    (d.map f).lineage = d.lineage.map (·.map f)
  | .mk _ none _ => rfl
  | .mk name (some superclass) methods =>
    congrArg (Class.map f (.mk name (some superclass) methods) :: ·) (superclass.lineage_map f)

theorem Class.methods_map {ρ σ ε : Type} (f : ρ → σ) (d : Class ρ ε) :
    (d.map f).methods = d.methods.map (·.map f) := by
  unfold Class.map
  split <;> rfl

section Fixed

variable {ρ ε : Type} {f : ρ → ρ}

/-- A class that stays as it is has methods that do, also those it inherits. -/
theorem Class.method_fixed {d d' : Class ρ ε} (h : d.map f = d) (hd' : d' ∈ d.lineage)
    {name : String} {c : Closure ρ ε} (hc : d'.methods.find? name = some c) : c.map f = c := by
  have hlineage := Class.lineage_map f d
  rw [h] at hlineage
  have hfixed : d'.map f = d' :=
    List.map_inj_left.mp (hlineage.symm.trans (List.map_id _).symm) d' hd'
  have hfind := Table.find?_map (·.map f) d'.methods name
  rw [← Class.methods_map, hfixed, hc] at hfind
  exact (Option.some.inj hfind).symm

/-- A value that stays as it is carries functions that do. -/
theorem Value.carried_fixed {v : Value ρ ε} (h : v.map f = v) {c : Closure ρ ε}
    (hc : v.Carries c) : c.map f = c := by
  cases v with
  | function id closure =>
    cases hc
    exact (Value.function.inj h).2
  | cls id d =>
    obtain ⟨d', hd', name, hfound⟩ := hc
    exact Class.method_fixed (Value.cls.inj h).2 hd' hfound
  | object id d =>
    obtain ⟨d', hd', name, hfound⟩ := hc
    exact Class.method_fixed (Value.object.inj h).2 hd' hfound
  | _ => exact hc.elim

/-- A store that stays as it is holds values that do. -/
theorem Store.held_fixed {α : Type} {g : α → α} {s : Store α} (h : s.map g = s) {v : α}
    (hv : s.Holds v) : g v = v := by
  rcases hv with ⟨scope, name, hbound⟩ | ⟨object, name, hfield⟩
  · have hfind := Table.find?_map g (s.bindings scope) name
    rw [← bindings_map, h, hbound] at hfind
    exact (Option.some.inj hfind).symm
  · have hfind := Table.find?_map g (s.fields object) name
    rw [← fields_map, h, hfield] at hfind
    exact (Option.some.inj hfind).symm

end Fixed

/-! ### Sessions -/

namespace Session

/-- The code that the session holds has no other nodes than these. -/
def Confined (nodes : List NodeId) (s : Session NodeId) : Prop :=
  ∀ other, s.map (confine nodes other) = s

namespace Confined

variable {nodes nodes' : List NodeId} {s : Session NodeId}

theorem mono (h : s.Confined nodes) (hsubset : nodes ⊆ nodes') : s.Confined nodes' := by
  intro other
  have hboth := map_map (confine nodes 0) (confine nodes' other) s
  rw [h 0] at hboth
  rw [hboth]
  simp only [confine_of_subset hsubset]
  exact h _

/-- Notes that are the same for these nodes are the same for the session. -/
theorem map_congr {σ : Type} {f g : NodeId → σ} (h : s.Confined nodes)
    (hnodes : ∀ node ∈ nodes, f node = g node) : s.map f = s.map g := by
  have hmap (other : NodeId) (f : NodeId → σ) :
      s.map f = s.map fun node => f (confine nodes other node) := by
    have hboth := map_map (confine nodes other) f s
    rwa [h other] at hboth
  exact eq_of_agree hmap hnodes

/-- It is the machine and the queue that have code. -/
theorem iff : s.Confined nodes ↔ ∀ other, s.machine.map (confine nodes other) = s.machine ∧
    ∀ entry ∈ s.queue, entry.map (confine nodes other) = entry := by
  constructor
  · intro h other
    have hqueue := congrArg Session.queue (h other)
    exact ⟨congrArg Session.machine (h other),
      List.map_inj_left.mp (hqueue.trans (List.map_id _).symm)⟩
  · intro h other
    obtain ⟨hmachine, hqueue⟩ := h other
    unfold Session.map
    rw [hmachine, List.map_congr_left hqueue, List.map_id']

theorem machine (h : s.Confined nodes) (other : NodeId) :
    s.machine.map (confine nodes other) = s.machine := (iff.mp h other).1

theorem queued (h : s.Confined nodes) {entry : Entry NodeId} (hentry : entry ∈ s.queue)
    (other : NodeId) : entry.map (confine nodes other) = entry :=
  (iff.mp h other).2 entry hentry

/-- The bodies of the functions and methods that the session holds have no other nodes. -/
theorem held (h : s.Confined nodes) {v : Value NodeId} (hv : s.machine.store.Holds v)
    {c : Closure NodeId} (hc : v.Carries c) : notesOfStmts c.body ⊆ nodes := by
  refine mapStmts_confine.mp fun other => ?_
  have hstore := congrArg Machine.store (h.machine other)
  have hv' := Store.held_fixed hstore hv
  exact congrArg Closure.body (Value.carried_fixed hv' hc)

end Confined

end Session

/-! ### Runs -/

theorem mapOutcome_mapOutcome {ρ σ τ : Type} (g : σ → τ) (f : ρ → σ)
    (out : EStateM.Result Abort (Machine ρ) (Value ρ)) :
    mapOutcome g (Value.map g) (mapOutcome f (Value.map f) out) =
      mapOutcome (fun i => g (f i)) (Value.map fun i => g (f i)) out := by
  cases out <;> simp only [mapOutcome, Value.map_map, Machine.map_map]

namespace Steps

section Fixed

variable {ρ : Type} {f : ρ → ρ} {ss : List (Stmt ρ)} {m : Machine ρ}

/-- A program whose notes stay as they are, on such a machine, does the same with the
    distances of what the notes become. -/
theorem program_eq_mapOutcome (hss : mapStmts f ss = ss) (hm : m.map f = m) (d : ρ → Distance)
    (limits : Limits) (ctx : Context) : (plain d).program limits ctx ss .nil m =
      mapOutcome f (Value.map f) ((plain fun i => d (f i)).program limits ctx ss .nil m) := by
  have hprogram := mimics_program (fun _ => rfl) limits ctx ss .nil m (d := fun i => d (f i))
  rw [hss, hm] at hprogram
  exact hprogram

/-- What it yields and leaves stays as it is, too. -/
theorem program_fixed (hf : ∀ i, f (f i) = f i) (hss : mapStmts f ss = ss) (hm : m.map f = m)
    (d : ρ → Distance) (limits : Limits) (ctx : Context) :
    mapOutcome f (Value.map f) ((plain d).program limits ctx ss .nil m) =
      (plain d).program limits ctx ss .nil m := by
  rw [program_eq_mapOutcome hss hm d, mapOutcome_mapOutcome]
  simp only [hf]

theorem program_distances (hf : ∀ i, f (f i) = f i) (hss : mapStmts f ss = ss) (hm : m.map f = m)
    (d : ρ → Distance) (limits : Limits) (ctx : Context) :
    (plain d).program limits ctx ss .nil m =
      (plain fun i => d (f i)).program limits ctx ss .nil m := by
  rw [program_eq_mapOutcome hss hm d, program_fixed hf hss hm]

end Fixed

/-- A run takes distances only at the nodes that its code is confined to. -/
theorem program_congr {nodes : List NodeId} {d d' : NodeId → Distance}
    (h : ∀ node ∈ nodes, d node = d' node) {ss : List (Stmt NodeId)}
    (hss : ∀ other, mapStmts (confine nodes other) ss = ss) {m : Machine NodeId}
    (hm : ∀ other, m.map (confine nodes other) = m) (limits : Limits) (ctx : Context) :
    (plain d).program limits ctx ss .nil m = (plain d').program limits ctx ss .nil m :=
  eq_of_agree
    (fun other d =>
      program_distances (fun _ => confine_confine) (hss other) (hm other) d limits ctx)
    h

end Steps

namespace NodeSession

variable {nodes : List NodeId} {s : NodeSession} {entry : Entry NodeId}

/-- A run keeps to the nodes of the session and of the entry. -/
theorem runEntry_confined (h : s.session.Confined nodes)
    (hentry : ∀ other, entry.map (confine nodes other) = entry) :
    (s.runEntry entry).1.session.Confined nodes := by
  intro other
  have hfinish := Session.finish_map (confine nodes other) s.session entry
    ((Steps.plain s.locals.find?).program s.session.limits ⟨s.session.env, s.session.frames⟩
      entry.statements .nil s.session.machine)
  rw [Steps.program_fixed (fun _ => confine_confine) (congrArg Entry.statements (hentry other))
    (h.machine other), h other, hentry other] at hfinish
  exact (congrArg Prod.fst hfinish).symm

/-- A run does the same with any table that has the same depths at these nodes. -/
theorem runEntry_congr (h : s.session.Confined nodes)
    (hentry : ∀ other, entry.map (confine nodes other) = entry) {t : DepthTable}
    (ht : ∀ node ∈ nodes, t.find? node = s.locals.find? node) :
    ({ s with locals := t } : NodeSession).runEntry entry =
      ({ (s.runEntry entry).1 with locals := t }, (s.runEntry entry).2) := by
  unfold runEntry
  dsimp only
  rw [Steps.program_congr ht (fun other => congrArg Entry.statements (hentry other)) h.machine]

theorem runEntries_congr (h : s.session.Confined nodes) {entries : List (Entry NodeId)}
    (hentries : ∀ entry ∈ entries, ∀ other, entry.map (confine nodes other) = entry)
    {t : DepthTable} (ht : ∀ node ∈ nodes, t.find? node = s.locals.find? node) :
    ({ s with locals := t } : NodeSession).runEntries entries =
      ({ (s.runEntries entries).1 with locals := t }, (s.runEntries entries).2) := by
  let R (p q : NodeSession × Option RunFailure) : Prop :=
    (p.1.session.Confined nodes ∧ p.1.locals = s.locals) ∧ q = ({ p.1 with locals := t }, p.2)
  suffices hrun : R (s.runEntries entries) (runEntries { s with locals := t } entries) from hrun.2
  refine runInTurn_alike_same (R := R) ?failure ?entry ⟨⟨h, rfl⟩, rfl⟩
  case failure =>
    rintro p _ ⟨-, rfl⟩
    rfl
  case entry =>
    rintro entry hentry s' _ ⟨⟨hconfined, hlocals⟩, heq⟩
    cases heq
    have hfixed := hentries entry hentry
    rw [← hlocals] at ht
    exact ⟨⟨runEntry_confined hconfined hfixed, hlocals⟩, runEntry_congr hconfined hfixed ht⟩

theorem run_congr (h : s.session.Confined nodes) {t : DepthTable}
    (ht : ∀ node ∈ nodes, t.find? node = s.locals.find? node) :
    ({ s with locals := t } : NodeSession).run = ({ s.run.1 with locals := t }, s.run.2) := by
  have hempty : Session.Confined nodes { s.session with queue := [] } :=
    Session.Confined.iff.mpr fun other => ⟨h.machine other, nofun⟩
  have hqueue : ∀ entry ∈ s.session.queue, ∀ other, entry.map (confine nodes other) = entry :=
    fun entry hentry => h.queued hentry
  exact @runEntries_congr nodes { s with session := { s.session with queue := [] } } hempty _
    hqueue _ ht

end NodeSession

end Treewalk
