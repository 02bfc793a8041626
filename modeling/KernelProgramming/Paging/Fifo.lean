import Mathlib.Data.Nat.ModEq
import KernelProgramming.Paging.Pager

/-!
# The two policies that keep no record of references

`fifo.c` evicts the frames in rotation, `rand.c` a frame drawn by `random()`.
Neither looks at the core map, and both name a frame of the simulated memory
on every call.
-/

namespace KernelProgramming.Paging

/-! ## fifo.c -/

/-- The global `evict` of `fifo.c`, the frame evicted last. -/
def fifoEvict (s : Sim ℤ) : Except Halt (ℕ × Sim ℤ) :=
  let evict := (s.alg + 1) % s.memsize
  .ok (evict.toNat, { s with alg := evict })

def fifoRef (s : Sim ℤ) (_p : PtePtr) : Except Halt (Sim ℤ) := .ok s

def fifoInit (s : Sim ℤ) : Sim ℤ := { s with alg := -1 }

def fifo : Functions ℤ := ⟨fifoInit, fifoRef, fifoEvict⟩

theorem fifo_polite : fifo.Polite where
  init_view _ := rfl
  ref_view := by
    intro s p s' h
    rw [← Except.ok.inj h]
  evict_view := by
    intro s f s' h
    obtain ⟨-, rfl⟩ := Prod.mk.inj (Except.ok.inj h)
    rfl

theorem fifoEvict_lt (s : Sim ℤ) (hm : 1 ≤ s.memsize) :
    ∃ frame s₂, fifoEvict s = .ok (frame, s₂) ∧ frame < s.memsize := by
  refine ⟨_, _, rfl, ?_⟩
  have hlt := Int.emod_lt_of_pos (s.alg + 1) (Int.natCast_pos.mpr hm)
  have hnonneg := Int.emod_nonneg (s.alg + 1) (Int.natCast_ne_zero.mpr (Nat.ne_of_gt hm))
  omega

/-! ## rand.c -/

/-- The global state of `rand.c` is the sequence of values that the calls of
`random()` are still to return. -/
def randEvict (s : Sim (ℕ → ℕ)) : Except Halt (ℕ × Sim (ℕ → ℕ)) :=
  .ok (s.alg 0 % s.memsize, { s with alg := fun n => s.alg (n + 1) })

def randRef (s : Sim (ℕ → ℕ)) (_p : PtePtr) : Except Halt (Sim (ℕ → ℕ)) := .ok s

def rand : Functions (ℕ → ℕ) := ⟨id, randRef, randEvict⟩

theorem rand_polite : rand.Polite where
  init_view _ := rfl
  ref_view := by
    intro s p s' h
    rw [← Except.ok.inj h]
  evict_view := by
    intro s f s' h
    obtain ⟨-, rfl⟩ := Prod.mk.inj (Except.ok.inj h)
    rfl

end KernelProgramming.Paging
