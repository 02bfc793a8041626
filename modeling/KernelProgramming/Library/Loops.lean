import Mathlib.Algebra.Order.Group.Nat
import Mathlib.Logic.Function.Basic
import Mathlib.Tactic.Common

/-!
# Counting loops over an array

A loop `for (i = 0; i < n; i++)` changes a state that its body passes on.
Loops inside one another are taken for one loop over all their cells.  A loop
whose iterations write cells of their own leaves in each cell what one
iteration has written.
-/

namespace KernelProgramming.Loops

variable {σ α : Type*} {n a b : ℕ} {f g : ℕ → σ → σ} {s : σ}

/-- `for (i = 0; i < n; i++)` with its body, on the state that the body changes. -/
def forLoop : ℕ → (ℕ → σ → σ) → σ → σ
  | 0, _, s => s
  | n + 1, body, s => body n (forLoop n body s)

theorem forLoop_keeps (Inv : ℕ → σ → Prop) (hstart : Inv 0 s)
    (hstep : ∀ i t, i < n → Inv i t → Inv (i + 1) (f i t)) : Inv n (forLoop n f s) := by
  induction n with
  | zero => exact hstart
  | succ n ih =>
      exact hstep n _ n.lt_succ_self (ih fun i t hi => hstep i t (hi.trans n.lt_succ_self))

theorem forLoop_congr (h : ∀ i t, i < n → f i t = g i t) :
    forLoop n f s = forLoop n g s := by
  induction n with
  | zero => rfl
  | succ n ih =>
      rw [forLoop, forLoop, ih fun i t hi => h i t (hi.trans n.lt_succ_self)]
      exact h n _ n.lt_succ_self

theorem forLoop_add : forLoop (a + b) f s =
    forLoop b (fun i => f (a + i)) (forLoop a f s) := by
  induction b with
  | zero => rfl
  | succ b ih => rw [← Nat.add_assoc, forLoop, forLoop, ih]

/-- Two loops inside one another run through the cells of all rows. -/
theorem forLoop_mul : forLoop (a * b) f s =
    forLoop a (fun i => forLoop b fun j => f (i * b + j)) s := by
  induction a with
  | zero =>
      rw [Nat.zero_mul]
      rfl
  | succ a ih => rw [Nat.succ_mul, forLoop_add, forLoop, ih]

/-! ## Rows and columns -/

theorem row_of {i j : ℕ} (hj : j < b) : (i * b + j) / b = i := by
  rw [Nat.mul_comm, Nat.mul_add_div (Nat.zero_lt_of_lt hj), Nat.div_eq_of_lt hj, Nat.add_zero]

theorem col_of {i j : ℕ} (hj : j < b) : (i * b + j) % b = j := by
  rw [Nat.mul_comm, Nat.mul_add_mod, Nat.mod_eq_of_lt hj]

theorem cell_lt {i j : ℕ} (hi : i < a) (hj : j < b) : i * b + j < a * b := by
  have hle := Nat.mul_le_mul_right b (Nat.succ_le_of_lt hi)
  rw [Nat.succ_mul] at hle
  omega

theorem cell_inj {i i' j j' : ℕ} (hj : j < b) (hj' : j' < b) (h : i * b + j = i' * b + j') :
    i = i' ∧ j = j' := by
  have hrow := congrArg (· / b) h
  have hcol := congrArg (· % b) h
  simp only [row_of hj, row_of hj', col_of hj, col_of hj'] at hrow hcol
  exact ⟨hrow, hcol⟩

/-- Two loops inside one another, as one loop that finds out the row and the column. -/
theorem forLoop_rows {f : ℕ → ℕ → σ → σ} :
    forLoop a (fun i => forLoop b fun j => f i j) s =
      forLoop (a * b) (fun x => f (x / b) (x % b)) s := by
  rw [forLoop_mul]
  refine forLoop_congr fun i t _ => forLoop_congr fun j u hj => ?_
  rw [row_of hj, col_of hj]

/-! ## Writing cells -/

/-- A loop that changes nothing but one cell. -/
theorem forLoop_update {g : ℕ → α → α} (c : ℕ → α) (x : ℕ) :
    forLoop n (fun k c => Function.update c x (g k (c x))) c =
      Function.update c x (forLoop n g (c x)) := by
  induction n with
  | zero => exact (Function.update_eq_self x c).symm
  | succ n ih =>
      rw [forLoop, ih, forLoop, Function.update_self, Function.update_idem]

/-- A loop each iteration of which changes a cell of its own. -/
theorem forLoop_cells {g : ℕ → α → α} (c : ℕ → α) (p x : ℕ) :
    forLoop n (fun y c => Function.update c (p + y) (g y (c (p + y)))) c x =
      if p ≤ x ∧ x < p + n then g (x - p) (c x) else c x := by
  induction n with
  | zero =>
      rw [if_neg (by omega)]
      rfl
  | succ n ih =>
      rw [forLoop]
      rcases eq_or_ne x (p + n) with rfl | hne
      · -- no iteration before the last one writes this cell
        rw [Function.update_self, ih, if_neg (by omega), if_pos (by omega), Nat.add_sub_cancel_left]
      · rw [Function.update_of_ne hne, ih]
        have hiff : p ≤ x ∧ x < p + n ↔ p ≤ x ∧ x < p + (n + 1) := by omega
        rw [if_congr hiff rfl rfl]

end KernelProgramming.Loops
