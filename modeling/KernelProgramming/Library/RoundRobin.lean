import Mathlib.Data.Nat.ModEq
import Mathlib.Logic.Function.Basic

/-!
# Slots filled in rotation

The entries of a log are written one after another into `m` slots, slot `0`
again after slot `m - 1`.  The slots hold the last `m` entries, and the slot
whose turn it is holds the oldest of these.
-/

namespace KernelProgramming.RoundRobin

variable {α : Type*} {m i j k : ℕ} {log : List α} {slot : ℕ → Option α} {x : α}

/-- Each of the last `m` entries of the log is in the slot of its turn. -/
def Filled (m : ℕ) (log : List α) (slot : ℕ → Option α) : Prop :=
  ∀ j < log.length, log.length ≤ j + m → slot (j % m) = log[j]?

theorem mod_ne_mod (hlt : j < k) (hk : k < j + m) : j % m ≠ k % m := by
  intro heq
  have hdvd : m ∣ k - j := (Nat.modEq_iff_dvd' hlt.le).mp heq
  have hle := Nat.le_of_dvd (Nat.sub_pos_of_lt hlt) hdvd
  omega

theorem filled_nil (m : ℕ) (slot : ℕ → Option α) : Filled m [] slot :=
  fun _ hj => absurd hj (Nat.not_lt_zero _)

theorem Filled.push (h : Filled m log slot) (x : α) :
    Filled m (log ++ [x]) (Function.update slot (log.length % m) (some x)) := by
  intro j hj hwindow
  rw [List.length_append, List.length_singleton] at hj hwindow
  rcases Nat.eq_or_lt_of_le (Nat.le_of_lt_succ hj) with rfl | hlt
  · rw [Function.update_self, List.getElem?_concat_length]
  · have hne : j % m ≠ log.length % m := mod_ne_mod hlt (Nat.lt_of_succ_le hwindow)
    rw [Function.update_of_ne hne, List.getElem?_append_left hlt]
    exact h j hlt (Nat.le_of_succ_le hwindow)

/-- Every slot that had its turn holds one of the last `m` entries. -/
theorem exists_turn {n : ℕ} (hi : i < m) (hin : i < n) :
    ∃ j < n, n ≤ j + m ∧ j % m = i := by
  have hmod := Nat.div_add_mod (n - 1 - i) m
  have hlt := Nat.mod_lt (n - 1 - i) (Nat.zero_lt_of_lt hi)
  refine ⟨i + m * ((n - 1 - i) / m), ?_, ?_, ?_⟩
  · omega
  · omega
  · rw [Nat.add_mul_mod_self_left, Nat.mod_eq_of_lt hi]

theorem Filled.oldest (h : Filled m log slot) (hm : 0 < m) (hfull : m ≤ log.length) :
    slot (log.length % m) = log[log.length - m]? := by
  rw [Nat.mod_eq_sub_mod hfull]
  apply h
  · omega
  · omega

/-- A value held by one slot alone does not come again in the log. -/
theorem Filled.last (h : Filled m log slot) (hwindow : log.length ≤ j + m)
    (halone : ∀ k < log.length, slot (k % m) = some x → k % m = j % m) (hjk : j < k) :
    log[k]? ≠ some x := by
  intro hk
  obtain ⟨hlt, -⟩ := List.getElem?_eq_some_iff.mp hk
  have hslot := h k hlt (hwindow.trans (Nat.add_le_add_right hjk.le m))
  have hsame := halone k hlt (hslot.trans hk)
  exact mod_ne_mod hjk (hlt.trans_le hwindow) hsame.symm

end KernelProgramming.RoundRobin
