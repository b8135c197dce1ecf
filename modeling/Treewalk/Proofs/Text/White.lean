import Mathlib.Data.List.DropRight
import Mathlib.Data.List.TakeWhile
import Treewalk.Text.White

/-! # Texts without white space at their ends

    A text whose white space at the end was dropped does not end in white space,
    so dropping it again changes nothing, and what stands last in such a text is
    not white. -/

namespace Treewalk.Text

theorem dropTrailing_eq (cs : List Char) : dropTrailing cs = cs.rdropWhile isWhite := rfl

@[simp] theorem dropTrailing_dropTrailing (cs : List Char) :
    dropTrailing (dropTrailing cs) = dropTrailing cs :=
  List.rdropWhile_idempotent isWhite cs

@[simp] theorem stripRight_stripRight (s : String) : stripRight (stripRight s) = stripRight s := by
  unfold stripRight
  rw [String.toList_ofList, dropTrailing_dropTrailing]

theorem dropTrailing_strip (s : String) : dropTrailing (strip s).toList = (strip s).toList := by
  unfold strip
  rw [String.toList_ofList, dropTrailing_dropTrailing]

/-- Only white space is stripped down to nothing. -/
theorem isWhite_of_strip_eq_nil {cs : List Char} (h : strip (String.ofList cs) = "") :
    ∀ c ∈ cs, isWhite c = true := by
  have hdropped : dropTrailing (cs.dropWhile isWhite) = [] := by
    unfold strip at h
    rw [String.toList_ofList] at h
    exact String.ofList_eq_empty_iff.mp h
  rw [dropTrailing_eq, List.rdropWhile_eq_nil_iff] at hdropped
  -- what is left at the front begins with something else than white space
  have hnil : cs.dropWhile isWhite = [] := by
    cases hfront : cs.dropWhile isWhite with
    | nil => rfl
    | cons c rest =>
      have hhead := List.head?_dropWhile_not isWhite cs
      rw [hfront] at hhead hdropped
      have hwhite := hdropped c List.mem_cons_self
      simp [hwhite] at hhead
  exact List.dropWhile_eq_nil_iff.mp hnil

/-- A text that does not end in white space has no part at its end that does. -/
theorem dropTrailing_of_append {front back : List Char}
    (h : dropTrailing (front ++ back) = front ++ back) : dropTrailing back = back := by
  rw [dropTrailing_eq, List.rdropWhile_eq_self_iff] at h ⊢
  intro hne
  have hlast := h (List.append_ne_nil_of_right_ne_nil front hne)
  rwa [List.getLast_append_of_ne_nil _ hne] at hlast

/-- The end of a text that does not end in white space is empty if nothing is left
    of it. -/
theorem eq_nil_of_strip_eq_nil {front back : List Char}
    (hend : dropTrailing (front ++ back) = front ++ back)
    (h : strip (String.ofList back) = "") : back = [] := by
  rw [← dropTrailing_of_append hend, dropTrailing_eq, List.rdropWhile_eq_nil_iff]
  exact isWhite_of_strip_eq_nil h

/-! ### Parts of a text -/

theorem dropTrailing_front (cs : List Char) : dropTrailing cs <+: cs :=
  List.rdropWhile_prefix isWhite cs

theorem dropTrailing_of_not_white {cs : List Char} (h : ∀ c ∈ cs, isWhite c = false) :
    dropTrailing cs = cs := by
  rw [dropTrailing_eq, List.rdropWhile_eq_self_iff]
  intro hne
  rw [h _ (List.getLast_mem hne)]
  decide

/-- White space is dropped from the front part only if the back part is all white. -/
theorem dropTrailing_append_eq (front back : List Char) : dropTrailing (front ++ back) =
    if dropTrailing back = [] then dropTrailing front else front ++ dropTrailing back := by
  unfold dropTrailing
  rw [List.reverse_append, List.dropWhile_append]
  simp only [List.isEmpty_iff, List.reverse_eq_nil_iff]
  split
  · rfl
  · rw [List.reverse_append, List.reverse_reverse]

/-! ### Texts behind others -/

/-- What ends in something else than white space does so behind any text. -/
theorem dropTrailing_append {back : List Char} (hne : back ≠ []) (h : dropTrailing back = back)
    (front : List Char) : dropTrailing (front ++ back) = front ++ back := by
  rw [dropTrailing_eq, List.rdropWhile_eq_self_iff] at h ⊢
  intro _
  rw [List.getLast_append_of_ne_nil _ hne]
  exact h hne

theorem mem_of_mem_strip {c : Char} {s : String} (h : c ∈ (strip s).toList) : c ∈ s.toList := by
  unfold strip at h
  rw [String.toList_ofList, dropTrailing_eq] at h
  exact (List.dropWhile_suffix isWhite).mem ((List.rdropWhile_prefix isWhite _).mem h)

end Treewalk.Text
