import Mathlib.Data.List.Nodup
import Mathlib.Data.Set.Insert

/-!
# Sets given by a list of their members or of their non-members

One list stands for a finite set or for the complement of one.  Adding an
element to the set is putting it on the list in the first reading and taking it
off the list in the second.
-/

namespace KernelProgramming.ListedSet

variable {α : Type*} [DecidableEq α] {xs : List α} {a b : α}

/-- The elements on the list or, when `negated`, those that are not. -/
def listed (negated : Bool) (xs : List α) : Set α := {a | decide (a ∈ xs) ≠ negated}

@[simp] theorem mem_listed_false : a ∈ listed false xs ↔ a ∈ xs := by
  simp [listed]

@[simp] theorem mem_listed_true : a ∈ listed true xs ↔ a ∉ xs := by
  simp [listed]

theorem listed_false_nil : listed false ([] : List α) = ∅ := by
  ext a
  simp

theorem listed_true_nil : listed true ([] : List α) = Set.univ := by
  ext a
  simp

theorem listed_false_cons (xs : List α) (a : α) :
    listed false (a :: xs) = insert a (listed false xs) := by
  ext b
  simp

theorem listed_true_cons (xs : List α) (a : α) :
    listed true (a :: xs) = listed true xs \ {a} := by
  ext b
  simp [and_comm]

theorem listed_false_erase (hxs : xs.Nodup) (a : α) :
    listed false (xs.erase a) = listed false xs \ {a} := by
  ext b
  simp [hxs.mem_erase_iff, and_comm]

theorem listed_true_erase (hxs : xs.Nodup) (a : α) :
    listed true (xs.erase a) = insert a (listed true xs) := by
  ext b
  simp only [mem_listed_true, hxs.mem_erase_iff, Set.mem_insert_iff]
  tauto

end KernelProgramming.ListedSet
