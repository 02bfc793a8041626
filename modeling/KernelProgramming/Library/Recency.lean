import Mathlib.Data.List.Dedup
import Mathlib.Data.List.Induction
import Mathlib.Tactic.Common

/-!
# Least recently used memories

A memory of `m` frames that gives up the page used least recently holds the
first `m` pages in the order of their last use.
-/

namespace KernelProgramming.Recency

variable {α : Type*} [DecidableEq α] {m : ℕ} {p : α} {s t xs w : List α}

/-- The page `p` moves to the front. -/
def touch (s : List α) (p : α) : List α := p :: s.filter (· ≠ p)

/-- The memory after a reference to `p`; the page at the end is given up if
there are more than `m`. -/
def serve (m : ℕ) (s : List α) (p : α) : List α := (touch s p).take m

/-- The faults of the references from the memory `s` on. -/
def faultsFrom (m : ℕ) : List α → List α → ℕ
  | _, [] => 0
  | s, p :: rest => (if p ∈ s then 0 else 1) + faultsFrom m (serve m s p) rest

def faults (m : ℕ) (xs : List α) : ℕ := faultsFrom m [] xs

/-- All pages in the order of their last use, the last one first. -/
def recency (xs : List α) : List α := xs.foldl touch []

theorem nodup_touch (h : s.Nodup) (p : α) : (touch s p).Nodup :=
  List.nodup_cons.mpr ⟨by simp, h.filter _⟩

/-- A memory is the front of the list of all pages. -/
theorem take_touch (h : s.Nodup) (m : ℕ) (p : α) :
    (touch (s.take m) p).take m = (touch s p).take m := by
  cases m with
  | zero => rfl
  | succ m =>
      simp only [touch, List.take_succ_cons]
      congr 1
      induction s generalizing m with
      | nil => rfl
      | cons x s ih =>
          obtain ⟨hx, hs⟩ := List.nodup_cons.mp h
          by_cases hxp : x = p
          · -- no other page is `p`, so the filter keeps all of them
            have hkeep : ∀ l : List α, l ⊆ s → l.filter (· ≠ p) = l := fun l hl =>
              List.filter_eq_self.mpr fun y hy => by
                simpa using fun heq : y = p => hx (hxp.trans heq.symm ▸ hl hy)
            rw [List.take_succ_cons, List.filter_cons_of_neg (by simpa using hxp),
              List.filter_cons_of_neg (by simpa using hxp), hkeep _ (List.take_subset m s),
              hkeep s (List.Subset.refl s), List.take_take, Nat.min_self]
          · rw [List.take_succ_cons, List.filter_cons_of_pos (by simpa using hxp),
              List.filter_cons_of_pos (by simpa using hxp)]
            cases m with
            | zero => rfl
            | succ m =>
                rw [List.take_succ_cons, List.take_succ_cons, ih hs]

theorem faultsFrom_append (m : ℕ) (s xs ys : List α) :
    faultsFrom m s (xs ++ ys) = faultsFrom m s xs + faultsFrom m (xs.foldl (serve m) s) ys := by
  induction xs generalizing s with
  | nil => simp [faultsFrom]
  | cons p xs ih =>
    rw [List.cons_append, faultsFrom, faultsFrom, ih, Nat.add_assoc, List.foldl_cons]

theorem foldl_serve (h : s.Nodup) (m : ℕ) (xs : List α) :
    xs.foldl (serve m) (s.take m) = (xs.foldl touch s).take m := by
  induction xs generalizing s with
  | nil => rfl
  | cons p xs ih => rw [List.foldl_cons, List.foldl_cons, serve, take_touch h, ih (nodup_touch h p)]

/-- A reference is a fault if the page is not among the `m` used last. -/
theorem faults_concat (m : ℕ) (xs : List α) (p : α) :
    faults m (xs ++ [p]) = faults m xs + if p ∈ (recency xs).take m then 0 else 1 := by
  have hmemory : xs.foldl (serve m) [] = (recency xs).take m := by
    rw [recency, ← foldl_serve List.nodup_nil, List.take_nil]
  rw [faults, faultsFrom_append, hmemory, faultsFrom, faultsFrom, Nat.add_zero]
  rfl

/-! ## The references of a window -/

/-- The pages of the last references come first, then what was there before. -/
theorem recency_append (xs w : List α) :
    recency (xs ++ w) = recency w ++ (recency xs).filter (· ∉ w) := by
  induction w using List.reverseRecOn with
  | nil => simp [recency]
  | append_singleton w p ih =>
      have hlast : ∀ ys : List α, recency (ys ++ [p]) = touch (recency ys) p := fun ys => by
        simp [recency]
      rw [← List.append_assoc, hlast, hlast, ih, touch, touch, List.filter_append,
        List.filter_filter, List.cons_append]
      congr 2
      apply List.filter_congr
      intro q _
      simp [not_or, and_comm]

theorem recency_eq_dedup (w : List α) : recency w = w.dedup.reverse := by
  induction w with
  | nil => rfl
  | cons p w ih =>
      rw [show p :: w = [p] ++ w from rfl, recency_append, ih, List.singleton_append]
      by_cases hp : p ∈ w
      · simp [recency, touch, hp]
      · simp [recency, touch, hp]

end KernelProgramming.Recency
