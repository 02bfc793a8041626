import Mathlib.Data.BitVec
import Mathlib.Tactic.Common

/-!
# Byte-addressed memory

A memory gives a byte at every address.  Numbers of two and four bytes are
stored with the lowest byte first; a store keeps only the bytes it has room for.
-/

namespace KernelProgramming.ByteMemory

abbrev Byte := BitVec 8

variable {m m' : ℕ → Byte} {a b v n : ℕ} {s : List Byte}

def get16 (m : ℕ → Byte) (a : ℕ) : ℕ := (m a).toNat + 256 * (m (a + 1)).toNat

def get32 (m : ℕ → Byte) (a : ℕ) : ℕ := get16 m a + 65536 * get16 m (a + 2)

/-- The `n` bytes from `a` on. -/
def getBytes (m : ℕ → Byte) (a n : ℕ) : List Byte := (List.range n).map fun i => m (a + i)

/-- Stores a string of bytes from `a` on. -/
def putBytes (m : ℕ → Byte) (a : ℕ) (s : List Byte) : ℕ → Byte := fun x =>
  if a ≤ x then s[x - a]?.getD (m x) else m x

def bytes16 (v : ℕ) : List Byte := [BitVec.ofNat 8 v, BitVec.ofNat 8 (v / 256)]

def bytes32 (v : ℕ) : List Byte :=
  [BitVec.ofNat 8 v, BitVec.ofNat 8 (v / 256), BitVec.ofNat 8 (v / 65536),
    BitVec.ofNat 8 (v / 16777216)]

@[simp] theorem length_bytes16 (v : ℕ) : (bytes16 v).length = 2 := rfl

@[simp] theorem length_bytes32 (v : ℕ) : (bytes32 v).length = 4 := rfl

/-! ## What a store changes -/

theorem putBytes_of_disjoint {x : ℕ} (h : x < a ∨ a + s.length ≤ x) (m : ℕ → Byte) :
    putBytes m a s x = m x := by
  unfold putBytes
  split
  · rw [List.getElem?_eq_none (by omega), Option.getD_none]
  · rfl

theorem putBytes_apply {i : ℕ} (h : i < s.length) (m : ℕ → Byte) (a : ℕ) :
    putBytes m a s (a + i) = s[i] := by
  unfold putBytes
  rw [if_pos (Nat.le_add_right a i), Nat.add_sub_cancel_left, List.getElem?_eq_getElem h,
    Option.getD_some]

/-- What a store leaves at an address does not depend on the memory around it. -/
theorem putBytes_congr {x : ℕ} (h : (x < a ∨ a + s.length ≤ x) → m x = m' x) :
    putBytes m a s x = putBytes m' a s x := by
  by_cases hx : x < a ∨ a + s.length ≤ x
  · rw [putBytes_of_disjoint hx, putBytes_of_disjoint hx, h hx]
  · obtain ⟨i, rfl⟩ := Nat.exists_eq_add_of_le (show a ≤ x by omega)
    rw [putBytes_apply (by omega), putBytes_apply (by omega)]

/-- Stores to places apart from each other commute. -/
theorem putBytes_comm {t : List Byte} (h : a + s.length ≤ b ∨ b + t.length ≤ a) (m : ℕ → Byte) :
    putBytes (putBytes m a s) b t = putBytes (putBytes m b t) a s := by
  funext x
  by_cases hx : x < a ∨ a + s.length ≤ x
  · rw [putBytes_of_disjoint hx]
    exact putBytes_congr fun _ => putBytes_of_disjoint hx m
  · rw [putBytes_of_disjoint (m := putBytes m a s) (show x < b ∨ b + t.length ≤ x by omega)]
    exact putBytes_congr fun hx' => absurd hx' hx

/-! ## Loads depend on the bytes they read -/

theorem get16_congr (h : ∀ i < 2, m (a + i) = m' (b + i)) : get16 m a = get16 m' b := by
  rw [get16, get16, h 1 (by omega), show m a = m' b from h 0 (by omega)]

theorem get32_congr (h : ∀ i < 4, m (a + i) = m' (b + i)) : get32 m a = get32 m' b := by
  have hlow : get16 m a = get16 m' b := get16_congr fun i hi => h i (by omega)
  have hhigh : get16 m (a + 2) = get16 m' (b + 2) := get16_congr fun i hi => by
    rw [Nat.add_assoc, Nat.add_assoc]
    exact h (2 + i) (by omega)
  rw [get32, get32, hlow, hhigh]

theorem getBytes_congr (h : ∀ i < n, m (a + i) = m' (b + i)) : getBytes m a n = getBytes m' b n :=
  List.map_congr_left fun i hi => h i (List.mem_range.mp hi)

theorem get16_lt (m : ℕ → Byte) (a : ℕ) : get16 m a < 65536 := by
  have h₀ := (m a).isLt
  have h₁ := (m (a + 1)).isLt
  unfold get16
  omega

theorem get32_lt (m : ℕ → Byte) (a : ℕ) : get32 m a < 4294967296 := by
  have h₀ := get16_lt m a
  have h₁ := get16_lt m (a + 2)
  unfold get32
  omega

@[simp] theorem length_getBytes (m : ℕ → Byte) (a n : ℕ) : (getBytes m a n).length = n := by
  simp [getBytes]

/-! ## Loads after a store -/

theorem get16_putBytes_same (m : ℕ → Byte) (a v : ℕ) :
    get16 (putBytes m a (bytes16 v)) a = v % 2 ^ 16 := by
  have h₀ : putBytes m a (bytes16 v) a = BitVec.ofNat 8 v :=
    putBytes_apply (i := 0) (by simp) m a
  have h₁ : putBytes m a (bytes16 v) (a + 1) = BitVec.ofNat 8 (v / 256) :=
    putBytes_apply (i := 1) (by simp) m a
  rw [get16, h₀, h₁]
  simp only [BitVec.toNat_ofNat]
  omega

theorem get32_putBytes_same (m : ℕ → Byte) (a v : ℕ) :
    get32 (putBytes m a (bytes32 v)) a = v % 2 ^ 32 := by
  have h₀ : putBytes m a (bytes32 v) a = BitVec.ofNat 8 v :=
    putBytes_apply (i := 0) (by simp) m a
  have h₁ : putBytes m a (bytes32 v) (a + 1) = BitVec.ofNat 8 (v / 256) :=
    putBytes_apply (i := 1) (by simp) m a
  have h₂ : putBytes m a (bytes32 v) (a + 2) = BitVec.ofNat 8 (v / 65536) :=
    putBytes_apply (i := 2) (by simp) m a
  have h₃ : putBytes m a (bytes32 v) (a + 2 + 1) = BitVec.ofNat 8 (v / 16777216) :=
    putBytes_apply (i := 3) (by simp) m a
  rw [get32, get16, get16, h₀, h₁, h₂, h₃]
  simp only [BitVec.toNat_ofNat]
  omega

theorem get16_putBytes_of_disjoint (h : b + 2 ≤ a ∨ a + s.length ≤ b) (m : ℕ → Byte) :
    get16 (putBytes m a s) b = get16 m b :=
  get16_congr fun i hi => putBytes_of_disjoint (by omega) m

theorem get32_putBytes_of_disjoint (h : b + 4 ≤ a ∨ a + s.length ≤ b) (m : ℕ → Byte) :
    get32 (putBytes m a s) b = get32 m b :=
  get32_congr fun i hi => putBytes_of_disjoint (by omega) m

theorem getBytes_putBytes_same (m : ℕ → Byte) (a : ℕ) (s : List Byte) :
    getBytes (putBytes m a s) a s.length = s := by
  apply List.ext_getElem (length_getBytes ..)
  intro i hi hi'
  simp only [getBytes, List.getElem_map, List.getElem_range]
  exact putBytes_apply hi' m a

end KernelProgramming.ByteMemory
