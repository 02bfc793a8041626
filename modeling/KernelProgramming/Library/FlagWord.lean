import Mathlib.Algebra.Group.Nat.Defs
import Mathlib.Data.Nat.Basic
import Mathlib.Tactic.Common

/-!
# Words that carry a number and a few flags

A machine word of width `w` holds a number in its high bits and single-bit
flags in its low `k` bits.  This module gives the three operations used on
such words (test, set and clear a flag) their interaction laws, and shows
that none of them disturbs the number.
-/

namespace KernelProgramming.FlagWord

variable {w : ℕ}

/-- The word has a bit in common with `flag`. -/
def hasFlag (x flag : BitVec w) : Bool := decide (x &&& flag ≠ 0#w)

def setFlag (x flag : BitVec w) : BitVec w := x ||| flag

def clearFlag (x flag : BitVec w) : BitVec w := x &&& ~~~flag

/-- The number held above the low `k` bits. -/
def number (k : ℕ) (x : BitVec w) : ℕ := (x >>> k).toNat

/-- The word that holds the number `n` and no flag. -/
def pack (w k n : ℕ) : BitVec w := BitVec.ofNat w n <<< k

theorem hasFlag_eq_false_iff (x flag : BitVec w) :
    hasFlag x flag = false ↔ x &&& flag = 0#w := by
  simp [hasFlag]

@[simp] theorem hasFlag_setFlag (x f g : BitVec w) :
    hasFlag (setFlag x f) g = (hasFlag x g || hasFlag f g) := by
  have hdist : (x ||| f) &&& g = (x &&& g) ||| (f &&& g) := by
    ext i
    simp only [BitVec.getElem_and, BitVec.getElem_or]
    grind
  have hzero : ∀ a b : BitVec w, a ||| b = 0#w ↔ a = 0#w ∧ b = 0#w := by
    intro a b
    constructor
    · intro h
      have hbit : ∀ i, a.getLsbD i = false ∧ b.getLsbD i = false := by
        intro i
        simpa using congrArg (fun v => v.getLsbD i) h
      exact ⟨BitVec.eq_of_getLsbD_eq fun i _ => by simp [(hbit i).1],
        BitVec.eq_of_getLsbD_eq fun i _ => by simp [(hbit i).2]⟩
    · rintro ⟨rfl, rfl⟩
      simp
  simp only [hasFlag, setFlag, hdist, ne_eq, hzero, not_and_or, Bool.decide_or]

theorem hasFlag_clearFlag_of_disjoint {f g : BitVec w} (x : BitVec w) (h : f &&& g = 0#w) :
    hasFlag (clearFlag x f) g = hasFlag x g := by
  have heq : (x &&& ~~~f) &&& g = x &&& g := by
    apply BitVec.eq_of_getLsbD_eq
    intro i hi
    have hbit : (f.getLsbD i && g.getLsbD i) = false := by
      simpa using congrArg (fun v => v.getLsbD i) h
    simp only [BitVec.getLsbD_and, BitVec.getLsbD_not, hi, decide_true, Bool.true_and]
    grind
  simp only [hasFlag, clearFlag, heq]

@[simp] theorem hasFlag_clearFlag_self (x f : BitVec w) :
    hasFlag (clearFlag x f) f = false := by
  rw [hasFlag_eq_false_iff, clearFlag]
  apply BitVec.eq_of_getLsbD_eq
  intro i hi
  simp only [BitVec.getLsbD_and, BitVec.getLsbD_not, hi, decide_true, Bool.true_and,
    BitVec.getLsbD_zero]
  grind

@[simp] theorem setFlag_setFlag (x f : BitVec w) : setFlag (setFlag x f) f = setFlag x f := by
  simp [setFlag, BitVec.or_assoc]

@[simp] theorem setFlag_clearFlag (x f : BitVec w) :
    setFlag (clearFlag x f) f = setFlag x f := by
  apply BitVec.eq_of_getLsbD_eq
  intro i hi
  simp only [setFlag, clearFlag, BitVec.getLsbD_or, BitVec.getLsbD_and, BitVec.getLsbD_not, hi,
    decide_true, Bool.true_and]
  grind

/-! ## The number is independent of the flags -/

theorem number_setFlag {k : ℕ} {f : BitVec w} (x : BitVec w) (hf : f >>> k = 0#w) :
    number k (setFlag x f) = number k x := by
  rw [number, setFlag, BitVec.ushiftRight_or_distrib, hf, BitVec.or_zero, number]

theorem number_clearFlag {k : ℕ} {f : BitVec w} (x : BitVec w) (hf : f >>> k = 0#w) :
    number k (clearFlag x f) = number k x := by
  have heq : clearFlag x f >>> k = x >>> k := by
    apply BitVec.eq_of_getLsbD_eq
    intro i hi
    have hbit : f.getLsbD (k + i) = false := by
      simpa using congrArg (fun v => v.getLsbD i) hf
    simp only [clearFlag, BitVec.getLsbD_ushiftRight, BitVec.getLsbD_and, BitVec.getLsbD_not,
      hbit]
    grind
  rw [number, heq, number]

theorem number_pack {k n : ℕ} (hk : k ≤ w) (hn : n < 2 ^ (w - k)) :
    number k (pack w k n) = n := by
  have hsplit : 2 ^ w = 2 ^ (w - k) * 2 ^ k := by
    rw [← Nat.pow_add, Nat.sub_add_cancel hk]
  have hlt : n * 2 ^ k < 2 ^ w := by
    rw [hsplit]
    exact Nat.mul_lt_mul_of_pos_right hn (Nat.two_pow_pos k)
  have hle : n ≤ n * 2 ^ k := Nat.le_mul_of_pos_right n (Nat.two_pow_pos k)
  rw [number, pack, BitVec.toNat_ushiftRight, BitVec.toNat_shiftLeft, BitVec.toNat_ofNat,
    Nat.mod_eq_of_lt (Nat.lt_of_le_of_lt hle hlt), Nat.shiftLeft_eq, Nat.mod_eq_of_lt hlt,
    Nat.shiftRight_eq_div_pow, Nat.mul_div_cancel _ (Nat.two_pow_pos k)]

theorem hasFlag_pack {k : ℕ} {f : BitVec w} (n : ℕ) (hf : f >>> k = 0#w) :
    hasFlag (pack w k n) f = false := by
  rw [hasFlag_eq_false_iff, pack]
  apply BitVec.eq_of_getLsbD_eq
  intro i hi
  simp only [BitVec.getLsbD_and, BitVec.getLsbD_shiftLeft, hi, decide_true, Bool.true_and,
    BitVec.getLsbD_zero]
  by_cases hik : i < k
  · simp [hik]
  · have hbit : f.getLsbD i = false := by
      have h := congrArg (fun v => v.getLsbD (i - k)) hf
      simpa [Nat.add_sub_cancel' (not_lt.mp hik)] using h
    simp [hbit]

end KernelProgramming.FlagWord
