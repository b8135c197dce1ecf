import Treewalk.Proofs.Table
import Treewalk.Tree.Basic
import Mathlib.Data.List.Nodup

/-! # Tables of depths

    Depths of local uses, by the identities of the nodes that use the names.  What is
    written under a node goes over what is there; it is only where the nodes are new that
    a table grows by what is written and keeps all it has (`entries_noteAll`,
    `entries_update`). -/

namespace Treewalk

/-- The identity of a node: the number it was given when it was built. -/
abbrev NodeId := Nat

/-- Depths of local uses. -/
structure DepthTable where
  /-- The nodes with their depths, oldest first. -/
  entries : List (NodeId × Nat)

namespace DepthTable

/-- The table without nodes. -/
def empty : DepthTable := ⟨[]⟩

/-- The depth at a node, if it has one. -/
def find? (t : DepthTable) (node : NodeId) : Distance := t.entries.lookup node

/-- The nodes that have a depth. -/
def nodes (t : DepthTable) : List NodeId := t.entries.map (·.1)

/-- The number of depths. -/
def size (t : DepthTable) : Nat := t.entries.length

/-- Writes a depth into a list of entries, over the one that the node has. -/
def put (node : NodeId) (depth : Nat) : List (NodeId × Nat) → List (NodeId × Nat)
  | [] => [(node, depth)]
  | (other, d) :: rest =>
    if node = other then (other, depth) :: rest else (other, d) :: put node depth rest

/-- Writes the depth of a node. -/
def record (t : DepthTable) (node : NodeId) (depth : Nat) : DepthTable := ⟨put node depth t.entries⟩

/-- Writes the depth of a node if there is one. -/
def note (t : DepthTable) (node : NodeId) : Distance → DepthTable
  | some depth => t.record node depth
  | none => t

/-- Writes the depths of some nodes, in order. -/
def noteAll (t : DepthTable) (uses : List (NodeId × Distance)) : DepthTable :=
  uses.foldl (fun t (node, use) => t.note node use) t

/-- Writes what another table holds. -/
def update (t new : DepthTable) : DepthTable :=
  new.entries.foldl (fun t (node, depth) => t.record node depth) t

/-! ### What is found -/

theorem lookup_put (node other : NodeId) (depth : Nat) (entries : List (NodeId × Nat)) :
    (put node depth entries).lookup other =
      if other = node then some depth else entries.lookup other := by
  induction entries with
  | nil => exact Table.lookup_cons_eq other node depth []
  | cons entry rest ih =>
    obtain ⟨key, d⟩ := entry
    unfold put
    by_cases hkey : node = key
    · subst hkey
      rw [if_pos rfl, Table.lookup_cons_eq, Table.lookup_cons_eq]
      by_cases h : other = node <;> simp [h]
    · rw [if_neg hkey, Table.lookup_cons_eq, Table.lookup_cons_eq, ih]
      by_cases h : other = key
      · subst h
        simp [Ne.symm hkey]
      · simp [h]

theorem find?_record (t : DepthTable) (node other : NodeId) (depth : Nat) :
    (t.record node depth).find? other = if other = node then some depth else t.find? other :=
  lookup_put node other depth t.entries

theorem find?_note_of_ne (t : DepthTable) {node other : NodeId} (h : other ≠ node)
    (use : Distance) : (t.note node use).find? other = t.find? other := by
  cases use with
  | none => rfl
  | some depth => exact (find?_record t node other depth).trans (if_neg h)

theorem find?_note_self {t : DepthTable} {node : NodeId} (h : t.find? node = none)
    (use : Distance) : (t.note node use).find? node = use := by
  cases use with
  | none => exact h
  | some depth => exact (find?_record t node node depth).trans (if_pos rfl)

theorem find?_eq_none_iff {t : DepthTable} {node : NodeId} :
    t.find? node = none ↔ node ∉ t.nodes := by
  unfold find? nodes
  induction t.entries with
  | nil => simp
  | cons entry rest ih =>
    rw [Table.lookup_cons_eq, List.map_cons, List.mem_cons, not_or, ← ih]
    by_cases h : node = entry.1 <;> simp [h]

/-- Nodes that nothing is written for keep their depths. -/
theorem find?_noteAll_of_notMem {uses : List (NodeId × Distance)} {node : NodeId}
    (h : node ∉ uses.map (·.1)) (t : DepthTable) : (t.noteAll uses).find? node = t.find? node := by
  induction uses generalizing t with
  | nil => rfl
  | cons use uses ih =>
    rw [List.map_cons, List.mem_cons, not_or] at h
    exact (ih h.2 _).trans (find?_note_of_ne t h.1 use.2)

/-- What was written for a new node is found at it. -/
theorem find?_noteAll_of_mem {uses : List (NodeId × Distance)} {node : NodeId} {use : Distance}
    (hnodup : (uses.map (·.1)).Nodup) (h : (node, use) ∈ uses) {t : DepthTable}
    (hnew : t.find? node = none) : (t.noteAll uses).find? node = use := by
  induction uses generalizing t with
  | nil => cases h
  | cons first uses ih =>
    rw [List.map_cons, List.nodup_cons] at hnodup
    rcases List.mem_cons.mp h with rfl | hrest
    · exact (find?_noteAll_of_notMem hnodup.1 _).trans (find?_note_self hnew use)
    · have hne : node ≠ first.1 := by
        rintro rfl
        exact hnodup.1 (List.mem_map.mpr ⟨_, hrest, rfl⟩)
      exact ih hnodup.2 hrest ((find?_note_of_ne t hne first.2).trans hnew)

/-- What is found at some new nodes is what was written for them, one by one. -/
theorem map_find?_noteAll {uses : List (NodeId × Distance)} (hnodup : (uses.map (·.1)).Nodup) :
    (uses.map (·.1)).map (empty.noteAll uses).find? = uses.map (·.2) := by
  rw [List.map_map]
  exact List.map_congr_left fun use huse => find?_noteAll_of_mem hnodup huse rfl

/-! ### What is kept -/

theorem noteAll_append (t : DepthTable) (uses more : List (NodeId × Distance)) :
    t.noteAll (uses ++ more) = (t.noteAll uses).noteAll more :=
  List.foldl_append

theorem entries_record_of_new {t : DepthTable} {node : NodeId} (h : node ∉ t.nodes) (depth : Nat) :
    (t.record node depth).entries = t.entries ++ [(node, depth)] := by
  unfold nodes at h
  unfold record
  dsimp only
  generalize t.entries = entries at h
  induction entries with
  | nil => rfl
  | cons entry rest ih =>
    rw [List.map_cons, List.mem_cons, not_or] at h
    unfold put
    rw [if_neg h.1, ih h.2, List.cons_append]

/-- A use with its depth, if it has one. -/
def depth? (use : NodeId × Distance) : Option (NodeId × Nat) := use.2.map (use.1, ·)

theorem entries_note_of_new {t : DepthTable} {use : NodeId × Distance} (h : use.1 ∉ t.nodes) :
    (t.note use.1 use.2).entries = t.entries ++ (depth? use).toList := by
  obtain ⟨node, depth | depth⟩ := use
  · exact (List.append_nil _).symm
  · exact entries_record_of_new h depth

/-- Writing the depths of new nodes adds them behind the others. -/
theorem entries_noteAll {uses : List (NodeId × Distance)} {t : DepthTable}
    (hnodup : (uses.map (·.1)).Nodup) (hnew : ∀ use ∈ uses, use.1 ∉ t.nodes) :
    (t.noteAll uses).entries = t.entries ++ uses.filterMap depth? := by
  induction uses generalizing t with
  | nil => exact (List.append_nil _).symm
  | cons use uses ih =>
    obtain ⟨hfirst, hnew⟩ := List.forall_mem_cons.mp hnew
    rw [List.map_cons, List.nodup_cons] at hnodup
    have hentries := entries_note_of_new hfirst
    have hrest : ∀ other ∈ uses, other.1 ∉ (t.note use.1 use.2).nodes := by
      intro other hother hmem
      unfold nodes at hmem
      rw [hentries, List.map_append, List.mem_append] at hmem
      rcases hmem with hmem | hmem
      · exact hnew other hother hmem
      · -- the only node that was added is that of the first use
        obtain ⟨entry, hentry, heq⟩ := List.mem_map.mp hmem
        obtain ⟨depth, -, rfl⟩ := Option.map_eq_some_iff.mp (Option.mem_toList.mp hentry)
        exact hnodup.1 (List.mem_map.mpr ⟨other, hother, heq.symm⟩)
    have hcons : (use :: uses).filterMap depth? = (depth? use).toList ++ uses.filterMap depth? := by
      cases h : depth? use <;> simp [h]
    show ((t.note use.1 use.2).noteAll uses).entries = _
    rw [ih hnodup.2 hrest, hentries, List.append_assoc, hcons]

theorem map_fst_sublist (uses : List (NodeId × Distance)) :
    ((uses.filterMap depth?).map (·.1)).Sublist (uses.map (·.1)) := by
  induction uses with
  | nil => exact .slnil
  | cons use uses ih =>
    obtain ⟨node, depth | depth⟩ := use
    · exact ih.cons node
    · exact ih.cons_cons node

theorem length_depths (uses : List (NodeId × Distance)) :
    (uses.filterMap depth?).length = ((uses.map (·.2)).filterMap id).length := by
  induction uses with
  | nil => rfl
  | cons use uses ih =>
    obtain ⟨node, depth | depth⟩ := use
    · exact ih
    · exact congrArg (· + 1) ih

theorem update_eq_noteAll (t new : DepthTable) :
    t.update new = t.noteAll (new.entries.map fun (node, depth) => (node, some depth)) := by
  unfold update noteAll
  rw [List.foldl_map]
  rfl

theorem filterMap_depth? (entries : List (NodeId × Nat)) :
    (entries.map fun (node, depth) => (node, some depth)).filterMap depth? = entries := by
  rw [List.filterMap_map]
  exact List.filterMap_some

/-- Writing what a table of other nodes holds adds it behind the rest. -/
theorem entries_update {t new : DepthTable} (hnodup : new.nodes.Nodup)
    (hnew : List.Disjoint new.nodes t.nodes) : (t.update new).entries = t.entries ++ new.entries := by
  have hnodes : (new.entries.map fun (node, depth) => (node, some depth)).map (·.1) = new.nodes := by
    rw [List.map_map]
    rfl
  rw [update_eq_noteAll, entries_noteAll (by rwa [hnodes]), filterMap_depth?]
  intro use huse
  exact hnew (hnodes ▸ List.mem_map_of_mem huse)

/-- What such a table holds is found, and so is all that was there before. -/
theorem find?_update {t new : DepthTable} (hnodup : new.nodes.Nodup)
    (hnew : List.Disjoint new.nodes t.nodes) (node : NodeId) :
    (t.update new).find? node = (t.find? node).or (new.find? node) := by
  unfold find?
  rw [entries_update hnodup hnew, List.lookup_append]

end DepthTable

end Treewalk
