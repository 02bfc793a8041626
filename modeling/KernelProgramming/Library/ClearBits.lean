import Mathlib.Data.Finset.Card
import Mathlib.Tactic.Common

/-!
# The clear bits of a bitmap

How many of the first `n` bits are clear, and by how much that changes when one
of them is written.
-/

namespace KernelProgramming.ClearBits

variable {n j : ℕ} {bit : ℕ → Bool}

def clearBits (n : ℕ) (bit : ℕ → Bool) : Finset ℕ :=
  (Finset.range n).filter fun i => bit i = false

/-- The change in the number of clear bits when a bit goes from `old` to `new`. -/
def change (old new : Bool) : ℤ := if old = new then 0 else if new then -1 else 1

@[simp] theorem mem_clearBits {i : ℕ} : i ∈ clearBits n bit ↔ i < n ∧ bit i = false := by
  simp [clearBits]

theorem card_clearBits_le (n : ℕ) (bit : ℕ → Bool) : (clearBits n bit).card ≤ n :=
  (Finset.card_filter_le ..).trans (Finset.card_range n).le

theorem clearBits_congr {bit' : ℕ → Bool} (h : ∀ i < n, bit' i = bit i) :
    clearBits n bit' = clearBits n bit := by
  ext i
  rw [mem_clearBits, mem_clearBits]
  exact and_congr_right fun hi => by rw [h i hi]

theorem card_clearBits_update (hj : j < n) (value : Bool) :
    ((clearBits n (Function.update bit j value)).card : ℤ) =
      (clearBits n bit).card + change (bit j) value := by
  rcases eq_or_ne (bit j) value with rfl | hne
  · simp [change]
  · cases value with
    | true =>
        have hbit : bit j = false := Bool.eq_false_of_not_eq_true hne
        have hmem : j ∈ clearBits n bit := mem_clearBits.mpr ⟨hj, hbit⟩
        have herase : clearBits n (Function.update bit j true) = (clearBits n bit).erase j := by
          ext i
          rcases eq_or_ne i j with rfl | hij
          · simp
          · simp [hij]
        have hcard := Finset.card_erase_add_one hmem
        rw [herase, change, if_neg hne, if_pos rfl]
        omega
    | false =>
        have hbit : bit j = true := Bool.eq_true_of_not_eq_false hne
        have hmem : j ∉ clearBits n bit := fun hin => hne (mem_clearBits.mp hin).2
        have hinsert : clearBits n (Function.update bit j false) =
            insert j (clearBits n bit) := by
          ext i
          rcases eq_or_ne i j with rfl | hij
          · simp [hj]
          · simp [hij]
        rw [hinsert, Finset.card_insert_of_notMem hmem, change, if_neg hne,
          if_neg Bool.false_ne_true]
        omega

end KernelProgramming.ClearBits
