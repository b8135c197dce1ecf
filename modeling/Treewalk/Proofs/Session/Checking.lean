import Treewalk.Proofs.Session.Actions

/-! # Checks of a text

    A check asks the scanner and the parser, and then, if neither complains,
    resolution.  Complaints of scanner and parser are reported together in the
    order of their lines, those of the scanner first on each line, and none is
    lost or repeated on the way. -/

namespace Treewalk

/-! ### Sorting by a key -/

section Sorting

variable {α : Type} (key : α → Int)

theorem insertBy_pairwise (a : α) {bs : List α} (h : bs.Pairwise fun x y => key x ≤ key y) :
    (insertBy (fun x y => decide (key x ≤ key y)) a bs).Pairwise fun x y => key x ≤ key y := by
  induction bs with
  | nil => exact List.pairwise_singleton _ a
  | cons b bs ih =>
    obtain ⟨hb, hbs⟩ := List.pairwise_cons.mp h
    rw [insertBy]
    split
    · next hle =>
      have hab : key a ≤ key b := of_decide_eq_true hle
      refine List.pairwise_cons.mpr ⟨List.forall_mem_cons.mpr ⟨hab, fun x hx => ?_⟩, h⟩
      exact Int.le_trans hab (hb x hx)
    · next hlt =>
      have hba : key b ≤ key a := by
        rw [decide_eq_true_eq, Int.not_le] at hlt
        exact Int.le_of_lt hlt
      refine List.pairwise_cons.mpr ⟨fun x hx => ?_, ih hbs⟩
      rcases List.mem_cons.mp ((insertBy_perm _ a bs).mem_iff.mp hx) with rfl | hx
      · exact hba
      · exact hb x hx

/-- Sorted elements ascend. -/
theorem sortBy_pairwise (as : List α) :
    (sortBy (fun x y => decide (key x ≤ key y)) as).Pairwise fun x y => key x ≤ key y := by
  induction as with
  | nil => exact .nil
  | cons a as ih => exact insertBy_pairwise key a ih

theorem filter_insertBy (k : Int) (a : α) (bs : List α) :
    (insertBy (fun x y => decide (key x ≤ key y)) a bs).filter (key · == k) =
      (a :: bs).filter (key · == k) := by
  induction bs with
  | nil => rfl
  | cons b bs ih =>
    rw [insertBy]
    split
    · rfl
    · next hlt =>
      -- the two that change places have different keys
      have hne : ¬(key a = k ∧ key b = k) := by
        rintro ⟨ha, hb⟩
        exact hlt (decide_eq_true (Int.le_of_eq (ha.trans hb.symm)))
      simp only [List.filter_cons, ih, beq_iff_eq]
      split <;> split <;> simp_all

/-- Elements with one key keep their order. -/
theorem filter_sortBy (k : Int) (as : List α) :
    (sortBy (fun x y => decide (key x ≤ key y)) as).filter (key · == k) =
      as.filter (key · == k) := by
  induction as with
  | nil => rfl
  | cons a as ih =>
    rw [sortBy, List.foldr_cons, filter_insertBy, List.filter_cons, List.filter_cons]
    rw [sortBy] at ih
    rw [ih]

end Sorting

/-! ### Complaints -/

/-- The complaints of the scanner. -/
def scanComplaints (source : String) (line : Int) : List Complaint :=
  (scan source line).issues.map .ofScan

/-- The complaints of the parser about the tokens that the scanner finds. -/
def parseComplaints (interactive : Bool) (source : String) (line : Int) : List Complaint :=
  (parse interactive (scan source line).tokens).errors.map (.ofParse (scan source line).endLine)

/-- The complaints of resolution about the tree that the parser builds. -/
def scopeComplaints (interactive : Bool) (source : String) (line : Int) : List Complaint :=
  (resolve (parse interactive (scan source line).tokens).statements).errors.map .ofResolve

theorem phase_ofParse (endLine : Int) (e : ParseError) :
    (Complaint.ofParse endLine e).phase = .parse := by
  unfold Complaint.ofParse
  split <;> rfl

/-- Complaints in the order of their lines, with those of the scanner before those of
    the parser on each line; otherwise they keep their order. -/
structure InLineOrder (scanned parsed reported : List Complaint) : Prop where
  ascending : reported.Pairwise fun a b => a.line ≤ b.line
  onLine (n : Int) : reported.filter (·.line == n) =
    scanned.filter (·.line == n) ++ parsed.filter (·.line == n)

namespace InLineOrder

variable {scanned parsed reported : List Complaint}

theorem of_byLine (scanned parsed : List Complaint) :
    InLineOrder scanned parsed (Complaint.byLine (scanned ++ parsed)) where
  ascending := sortBy_pairwise Complaint.line (scanned ++ parsed)
  onLine n := (filter_sortBy Complaint.line n (scanned ++ parsed)).trans (List.filter_append _ _)

/-- Each complaint is reported, as often as it was made. -/
theorem perm (h : InLineOrder scanned parsed reported) : reported.Perm (scanned ++ parsed) := by
  refine List.perm_iff_count.mpr fun c => ?_
  have hcount (cs : List Complaint) : cs.count c = (cs.filter (·.line == c.line)).count c :=
    (List.count_filter (p := fun x : Complaint => x.line == c.line) (beq_self_eq_true c.line)).symm
  rw [List.count_append, hcount reported, hcount scanned, hcount parsed, h.onLine,
    List.count_append]

theorem ne_resolve {interactive : Bool} {source : String} {line : Int}
    (h : InLineOrder (scanComplaints source line) (parseComplaints interactive source line) reported)
    {c : Complaint} (hc : c ∈ reported) : c.phase ≠ .resolve := by
  rcases List.mem_append.mp (h.perm.mem_iff.mp hc) with hscan | hparse
  · obtain ⟨issue, -, rfl⟩ := List.mem_map.mp hscan
    exact nofun
  · obtain ⟨e, -, rfl⟩ := List.mem_map.mp hparse
    rw [phase_ofParse]
    exact nofun

/-- If something is reported, then scanner or parser found an error. -/
theorem found {interactive : Bool} {source : String} {line : Int} {c : Complaint}
    (h : InLineOrder (scanComplaints source line) (parseComplaints interactive source line) reported)
    (hc : c ∈ reported) : (scan source line).issues ≠ [] ∨
      (parse interactive (scan source line).tokens).errors ≠ [] := by
  rcases List.mem_append.mp (h.perm.mem_iff.mp hc) with hscan | hparse
  · exact .inl fun hnil => by simp [scanComplaints, hnil] at hscan
  · exact .inr fun hnil => by simp [parseComplaints, hnil] at hparse

end InLineOrder

/-! ### Verdicts -/

/-- What a check of a text comes to. -/
inductive Verdict (interactive : Bool) (source : String) (line : Int) :
    Except (Complaint × List Complaint) (Entry × Nat) → Prop
  /-- The text is refused for what scanner and parser have to say. -/
  | illFormed {first rest}
      (h : InLineOrder (scanComplaints source line) (parseComplaints interactive source line)
        (first :: rest)) :
      Verdict interactive source line (.error (first, rest))
  /-- The text is refused for what resolution has to say. -/
  | illScoped {first rest} (hscan : (scan source line).issues = [])
      (hparse : (parse interactive (scan source line).tokens).errors = [])
      (h : scopeComplaints interactive source line = first :: rest) :
      Verdict interactive source line (.error (first, rest))
  /-- Nobody has anything to say. -/
  | accepted {entry uses} (hscan : (scan source line).issues = [])
      (hparse : (parse interactive (scan source line).tokens).errors = [])
      (hscope : (resolve (parse interactive (scan source line).tokens).statements).errors = [])
      (hstatements : entry.statements =
        (resolve (parse interactive (scan source line).tokens).statements).statements) :
      Verdict interactive source line (.ok (entry, uses))

theorem check_verdict (interactive : Bool) (source : String) (line : Int) :
    Verdict interactive source line (check interactive source line).outcome := by
  have hordered := InLineOrder.of_byLine (scanComplaints source line)
    (parseComplaints interactive source line)
  unfold check
  simp only
  split
  · next hcomplaints => exact .illFormed (hcomplaints ▸ hordered)
  · next hcomplaints =>
    have hnil := List.append_eq_nil_iff.mp (byLine_eq_nil hcomplaints)
    have hscan := List.map_eq_nil_iff.mp hnil.1
    have hparse := List.map_eq_nil_iff.mp hnil.2
    split
    · next hscope => exact .illScoped hscan hparse hscope
    · next hscope => exact .accepted hscan hparse (List.map_eq_nil_iff.mp hscope) rfl

end Treewalk
