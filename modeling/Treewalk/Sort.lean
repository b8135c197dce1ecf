/-! # Stable sorting

    Sorting by insertion from the right: an element goes in front of the first
    one that it may precede, so elements that may precede each other keep their
    order. -/

namespace Treewalk

variable {α : Type}

/-- Puts an element in front of the first one that it may precede. -/
def insertBy (le : α → α → Bool) (a : α) : List α → List α
  | [] => [a]
  | b :: bs => if le a b then a :: b :: bs else b :: insertBy le a bs

/-- The elements in ascending order. -/
def sortBy (le : α → α → Bool) (as : List α) : List α := as.foldr (insertBy le) []

theorem insertBy_perm (le : α → α → Bool) (a : α) (bs : List α) :
    (insertBy le a bs).Perm (a :: bs) := by
  induction bs with
  | nil => exact .refl _
  | cons b bs ih =>
    rw [insertBy]
    split
    · exact .refl _
    · exact (ih.cons b).trans (.swap a b bs)

/-- Sorting neither loses nor adds an element. -/
theorem sortBy_perm (le : α → α → Bool) (as : List α) : (sortBy le as).Perm as := by
  induction as with
  | nil => exact .refl _
  | cons a as ih => exact (insertBy_perm le a _).trans (ih.cons a)

end Treewalk
