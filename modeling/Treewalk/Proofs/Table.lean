import Treewalk.Table

/-! # Tables as finite maps

    A table answers a name with what was written to it last.  The lemmas say so
    for every operation, so that no later proof looks at the entries. -/

namespace Treewalk.Table

variable {α : Type}

@[simp] theorem find?_empty (name : String) : (empty : Table α).find? name = none := rfl

theorem lookup_cons_eq {κ : Type} [BEq κ] [LawfulBEq κ] [DecidableEq κ] (key name : κ) (a : α)
    (rest : List (κ × α)) :
    ((name, a) :: rest).lookup key = if key = name then some a else rest.lookup key := by
  rw [List.lookup_cons]
  by_cases h : key = name
  · simp [h]
  · have hbeq : (key == name) = false := by simpa using h
    rw [hbeq, if_neg h]

theorem lookup_put (name : String) (a : α) (key : String) (entries : List (String × α)) :
    (put name a entries).lookup key = if key = name then some a else entries.lookup key := by
  induction entries with
  | nil => exact lookup_cons_eq key name a []
  | cons entry rest ih =>
    obtain ⟨other, b⟩ := entry
    unfold put
    by_cases hname : name = other
    · subst hname
      simp only [beq_self_eq_true, if_true, lookup_cons_eq]
      by_cases hkey : key = name <;> simp [hkey]
    · have hbeq : (name == other) = false := by simpa using hname
      simp only [hbeq, Bool.false_eq_true, if_false, lookup_cons_eq, ih]
      by_cases hkey : key = other
      · subst hkey
        have hne : ¬ key = name := fun h => hname h.symm
        simp [hne]
      · simp [hkey]

theorem find?_insert (t : Table α) (name key : String) (a : α) :
    (t.insert name a).find? key = if key = name then some a else t.find? key :=
  lookup_put name a key t.entries

theorem contains_insert (t : Table α) (name key : String) (a : α) :
    (t.insert name a).contains key = true ↔ key = name ∨ t.contains key = true := by
  unfold contains
  rw [find?_insert]
  by_cases h : key = name <;> simp [h]

/-- Of two writes to one name the second counts. -/
theorem insert_insert (t : Table α) (name : String) (a b : α) :
    (t.insert name a).insert name b = t.insert name b := by
  have hput : ∀ entries, put name b (put name a entries) = put name b entries := by
    intro entries
    induction entries with
    | nil => simp [put]
    | cons entry rest ih =>
      obtain ⟨key, c⟩ := entry
      by_cases h : name = key
      · simp [put, h]
      · simp [put, h, ih]
  unfold insert
  rw [hput]

/-- A write to a name that is present keeps the names, any other adds its name. -/
theorem names_insert (t : Table α) (name : String) (a : α) :
    (t.insert name a).names = if name ∈ t.names then t.names else t.names ++ [name] := by
  unfold insert names
  induction t.entries with
  | nil => rfl
  | cons entry rest ih =>
    obtain ⟨key, b⟩ := entry
    unfold put
    by_cases hname : name = key
    · subst hname
      simp
    · have hbeq : (name == key) = false := by simpa using hname
      simp only [hbeq, Bool.false_eq_true, if_false, List.map_cons, ih, List.mem_cons, hname,
        false_or]
      split <;> simp

end Treewalk.Table
