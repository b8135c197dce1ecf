import Treewalk.Proofs.Scope.Resolution

/-! # What the table of depths holds

    Resolution records a depth for every local use of a program and for nothing else: the
    table has as many entries as there are local uses (`size_locals`), and its nodes are
    nodes of the program, each once (`nodes_locals_sublist`). -/

namespace Treewalk

/-! ### Uses and notes -/

theorem distances_noted (kind : UseKind) (name : Name) (use : Distance) :
    (noted kind name use).map (·.distance) = [use].filterMap id := by
  cases use <;> rfl

mutual

/-- The local uses are the uses that have a note, in the same order. -/
theorem distances_localUses : (e : ResolvedExpr) →
    (localUses e).map (·.distance) = e.notes.filterMap id
  | .literal _ => rfl
  | .variable _ use | .this _ use | .super _ use _ => distances_noted _ _ use
  | .group e | .unary _ _ e | .get e _ => distances_localUses e
  | .binary _ _ l r | .logical _ _ l r | .set r _ l => by
    simp only [localUses, Expr.notes, List.map_append, List.filterMap_append,
      distances_localUses l, distances_localUses r]
  | .assign _ use e => by
    simp only [localUses, Expr.notes, List.map_append, List.filterMap_append,
      distances_localUses e, distances_noted]
  | .call f args _ => by
    simp only [localUses, Expr.notes, List.map_append, List.filterMap_append,
      distances_localUses f, distances_localUsesOfExprs args]
  | .lambda _ _ body => distances_localUsesOfStmts body

theorem distances_localUsesOfExprs : (es : List ResolvedExpr) →
    (localUsesOfExprs es).map (·.distance) = (notesOfExprs es).filterMap id
  | [] => rfl
  | e :: es => by
    simp only [localUsesOfExprs, notesOfExprs, List.map_append, List.filterMap_append,
      distances_localUses e, distances_localUsesOfExprs es]

theorem distances_localUsesOfStmt : (s : ResolvedStmt) →
    (localUsesOfStmt s).map (·.distance) = s.notes.filterMap id
  | .var _ none | .ret _ none => rfl
  | .expression e | .print e | .var _ (some e) | .ret _ (some e) => distances_localUses e
  | .block body => distances_localUsesOfStmts body
  | .branch c a none | .loop c a => by
    simp only [localUsesOfStmt, Stmt.notes, List.map_append, List.filterMap_append,
      distances_localUses c, distances_localUsesOfStmt a]
  | .branch c a (some b) => by
    simp only [localUsesOfStmt, Stmt.notes, List.map_append, List.filterMap_append,
      distances_localUses c, distances_localUsesOfStmt a, distances_localUsesOfStmt b]
  | .function decl => distances_localUsesOfFun decl
  | .classDecl _ none methods => distances_localUsesOfFuns methods
  | .classDecl _ (some (_, use)) methods => by
    rw [localUsesOfStmt, Stmt.notes, List.map_append, distances_noted,
      distances_localUsesOfFuns methods, ← List.filterMap_append]
    rfl

theorem distances_localUsesOfStmts : (ss : List ResolvedStmt) →
    (localUsesOfStmts ss).map (·.distance) = (notesOfStmts ss).filterMap id
  | [] => rfl
  | s :: ss => by
    simp only [localUsesOfStmts, notesOfStmts, List.map_append, List.filterMap_append,
      distances_localUsesOfStmt s, distances_localUsesOfStmts ss]

theorem distances_localUsesOfFun : (m : ResolvedFun) →
    (localUsesOfFun m).map (·.distance) = m.notes.filterMap id
  | .mk _ _ body => distances_localUsesOfStmts body

theorem distances_localUsesOfFuns : (ms : List ResolvedFun) →
    (localUsesOfFuns ms).map (·.distance) = (notesOfFuns ms).filterMap id
  | [] => rfl
  | m :: ms => by
    simp only [localUsesOfFuns, notesOfFuns, List.map_append, List.filterMap_append,
      distances_localUsesOfFun m, distances_localUsesOfFuns ms]

end

namespace Resolving

variable {ss : List (Stmt NodeId)}

/-! ### The entries of a program -/

theorem entries_locals (hnodup : (notesOfStmts ss).Nodup) :
    (locals ss).entries = (uses ss).filterMap DepthTable.depth? := by
  rw [← map_fst_uses] at hnodup
  rw [locals_eq]
  exact DepthTable.entries_noteAll hnodup fun _ _ => List.not_mem_nil

/-- The nodes of the table are nodes of the program, in the same order. -/
theorem nodes_locals_sublist (hnodup : (notesOfStmts ss).Nodup) :
    (locals ss).nodes.Sublist (notesOfStmts ss) := by
  unfold DepthTable.nodes
  rw [entries_locals hnodup, ← map_fst_uses]
  exact DepthTable.map_fst_sublist (uses ss)

/-- The table has one entry for each local use. -/
theorem size_locals (hnodup : (notesOfStmts ss).Nodup) :
    (locals ss).size = (resolve (sourceOfStmts ss)).uses.length := by
  obtain ⟨-, huses, -⟩ := annotated_of_resolve (sourceOfStmts ss)
  unfold DepthTable.size
  calc (locals ss).entries.length
      = ((uses ss).filterMap DepthTable.depth?).length := by rw [entries_locals hnodup]
    _ = ((notesOfStmts (resolve (sourceOfStmts ss)).statements).filterMap id).length := by
        rw [DepthTable.length_depths, map_snd_uses]
    _ = (resolve (sourceOfStmts ss)).uses.length := by
        rw [← distances_localUsesOfStmts, ← huses, List.length_map]

end Resolving

end Treewalk
