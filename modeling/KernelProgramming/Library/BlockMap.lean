import Mathlib.Algebra.Group.Nat.Defs
import Mathlib.Data.Finset.Card
import Mathlib.Data.Finset.Union
import Mathlib.Tactic.Common

/-!
# Block maps with three levels of pointer blocks

A file names its first `direct` blocks itself; the blocks behind them are
reached through one, two or three pointer blocks of `ptrs` pointers each.  A
pointer block is there only if the way to a block of the file leads through it.
-/

namespace KernelProgramming.BlockMap

/-- The pointer blocks of a file.  Those below the top of a level are numbered. -/
inductive PtrBlock
  | indirect
  | double
  | doubleLeaf (i : ℕ)
  | triple
  | tripleNode (i : ℕ)
  | tripleLeaf (i : ℕ)
  deriving DecidableEq

/-- The pointer blocks on the way to block number `n` of a file. -/
def route (direct ptrs n : ℕ) : List PtrBlock :=
  if n < direct then []
  else if n < direct + ptrs then [.indirect]
  else if n < direct + ptrs + ptrs ^ 2 then [.double, .doubleLeaf ((n - direct - ptrs) / ptrs)]
  else
    let offset := n - direct - ptrs - ptrs ^ 2
    [.triple, .tripleNode (offset / ptrs ^ 2), .tripleLeaf (offset / ptrs)]

/-- The pointer blocks of a file of `n` blocks. -/
def ptrBlocks (direct ptrs n : ℕ) : Finset PtrBlock :=
  (Finset.range n).biUnion fun i => (route direct ptrs i).toFinset

/-- All blocks of a file with `n` blocks of data. -/
def blocksOf (direct ptrs n : ℕ) : ℕ := n + (ptrBlocks direct ptrs n).card

/-- The number of blocks of `size` items that `n` items fill, the last one
perhaps in part. -/
def fill (n size : ℕ) : ℕ := (n + (size - 1)) / size

/-- The pointer blocks of a file of `n` blocks, level by level. -/
def ptrList (direct ptrs n : ℕ) : List PtrBlock :=
  (if direct < n then [.indirect] else []) ++
    ((if direct + ptrs < n then
        .double :: (List.range (fill (min (n - direct - ptrs) (ptrs ^ 2)) ptrs)).map .doubleLeaf
      else []) ++
    if direct + ptrs + ptrs ^ 2 < n then
      .triple ::
        ((List.range (fill (n - direct - ptrs - ptrs ^ 2) (ptrs ^ 2))).map .tripleNode ++
          (List.range (fill (n - direct - ptrs - ptrs ^ 2) ptrs)).map .tripleLeaf)
    else [])

variable {direct ptrs n size i : ℕ}

theorem lt_fill_iff (hsize : 0 < size) : i < fill n size ↔ ∃ k < n, k / size = i := by
  rw [fill, Nat.lt_div_iff_mul_lt hsize]
  constructor
  · intro h
    refine ⟨size * i, ?_, Nat.mul_div_cancel_left i hsize⟩
    rw [Nat.mul_comm]
    omega
  · rintro ⟨k, hk, rfl⟩
    have hle := Nat.div_mul_le_self k size
    omega

theorem mem_ptrBlocks {b : PtrBlock} :
    b ∈ ptrBlocks direct ptrs n ↔ ∃ k < n, b ∈ route direct ptrs k := by
  simp [ptrBlocks]

/-- A block behind the first `start` ones is given by its distance from them. -/
theorem exists_behind_iff {start : ℕ} {p : ℕ → Prop} :
    (∃ k < n, start ≤ k ∧ p (k - start)) ↔ ∃ k < n - start, p k := by
  constructor
  · rintro ⟨k, hk, hle, h⟩
    exact ⟨k - start, by omega, h⟩
  · rintro ⟨k, hk, h⟩
    refine ⟨start + k, by omega, by omega, ?_⟩
    rwa [Nat.add_sub_cancel_left]

theorem mem_route_double (j : ℕ) : (PtrBlock.doubleLeaf j ∈ route direct ptrs i ↔
    direct + ptrs ≤ i ∧ i - (direct + ptrs) < ptrs ^ 2 ∧ (i - (direct + ptrs)) / ptrs = j) ∧
    (PtrBlock.double ∈ route direct ptrs i ↔
      direct + ptrs ≤ i ∧ i - (direct + ptrs) < ptrs ^ 2) := by
  unfold route
  rw [Nat.sub_sub]
  split_ifs <;> simp <;> omega

theorem mem_route_triple (j : ℕ) : (PtrBlock.tripleNode j ∈ route direct ptrs i ↔
    direct + ptrs + ptrs ^ 2 ≤ i ∧ (i - (direct + ptrs + ptrs ^ 2)) / ptrs ^ 2 = j) ∧
    (PtrBlock.tripleLeaf j ∈ route direct ptrs i ↔
      direct + ptrs + ptrs ^ 2 ≤ i ∧ (i - (direct + ptrs + ptrs ^ 2)) / ptrs = j) ∧
    (PtrBlock.triple ∈ route direct ptrs i ↔ direct + ptrs + ptrs ^ 2 ≤ i) := by
  unfold route
  rw [Nat.sub_sub, Nat.sub_sub]
  split_ifs <;> simp <;> omega

theorem mem_ptrBlocks_iff (hptrs : 0 < ptrs) {b : PtrBlock} :
    b ∈ ptrBlocks direct ptrs n ↔ b ∈ ptrList direct ptrs n := by
  have hsquare : 0 < ptrs ^ 2 := Nat.pow_pos hptrs
  rw [mem_ptrBlocks]
  cases b with
  | indirect =>
      have hroute : ∀ k, PtrBlock.indirect ∈ route direct ptrs k ↔
          direct ≤ k ∧ k < direct + ptrs := by
        intro k
        unfold route
        split_ifs <;> simp <;> omega
      have hlist : PtrBlock.indirect ∈ ptrList direct ptrs n ↔ direct < n := by simp [ptrList]
      simp only [hroute, hlist]
      exact ⟨fun ⟨k, hk, h⟩ => by omega, fun h => ⟨direct, h, le_rfl, by omega⟩⟩
  | double =>
      have hlist : PtrBlock.double ∈ ptrList direct ptrs n ↔ direct + ptrs < n := by
        simp [ptrList]
      simp only [(mem_route_double 0).2, hlist]
      exact ⟨fun ⟨k, hk, h⟩ => by omega, fun h => ⟨direct + ptrs, h, le_rfl, by omega⟩⟩
  | doubleLeaf j =>
      have hlist : PtrBlock.doubleLeaf j ∈ ptrList direct ptrs n ↔ direct + ptrs < n ∧
          j < fill (min (n - direct - ptrs) (ptrs ^ 2)) ptrs := by
        simp [ptrList]
      simp only [(mem_route_double j).1, hlist, lt_fill_iff hptrs, Nat.sub_sub]
      rw [exists_behind_iff (p := fun k => k < ptrs ^ 2 ∧ k / ptrs = j)]
      constructor
      · rintro ⟨k, hk, hlt, rfl⟩
        exact ⟨by omega, k, by omega, rfl⟩
      · rintro ⟨-, k, hk, rfl⟩
        exact ⟨k, by omega, by omega, rfl⟩
  | triple =>
      have hlist : PtrBlock.triple ∈ ptrList direct ptrs n ↔ direct + ptrs + ptrs ^ 2 < n := by
        simp [ptrList]
      simp only [(mem_route_triple 0).2.2, hlist]
      exact ⟨fun ⟨k, hk, h⟩ => by omega, fun h => ⟨direct + ptrs + ptrs ^ 2, h, le_rfl⟩⟩
  | tripleNode j =>
      have hlist : PtrBlock.tripleNode j ∈ ptrList direct ptrs n ↔
          direct + ptrs + ptrs ^ 2 < n ∧
            j < fill (n - direct - ptrs - ptrs ^ 2) (ptrs ^ 2) := by
        simp [ptrList]
      simp only [(mem_route_triple j).1, hlist, lt_fill_iff hsquare, Nat.sub_sub]
      rw [exists_behind_iff (p := fun k => k / ptrs ^ 2 = j), Nat.add_assoc]
      exact ⟨fun ⟨k, hk, h⟩ => ⟨by omega, k, hk, h⟩, fun ⟨_, h⟩ => h⟩
  | tripleLeaf j =>
      have hlist : PtrBlock.tripleLeaf j ∈ ptrList direct ptrs n ↔
          direct + ptrs + ptrs ^ 2 < n ∧ j < fill (n - direct - ptrs - ptrs ^ 2) ptrs := by
        simp [ptrList]
      simp only [(mem_route_triple j).2.1, hlist, lt_fill_iff hptrs, Nat.sub_sub]
      rw [exists_behind_iff (p := fun k => k / ptrs = j), Nat.add_assoc]
      exact ⟨fun ⟨k, hk, h⟩ => ⟨by omega, k, hk, h⟩, fun ⟨_, h⟩ => h⟩

theorem nodup_ptrList (direct ptrs n : ℕ) : (ptrList direct ptrs n).Nodup := by
  have hmap : ∀ (f : ℕ → PtrBlock) (k : ℕ), Function.Injective f →
      ((List.range k).map f).Nodup := fun f k hf => List.nodup_range.map hf
  have hdouble := hmap .doubleLeaf (fill (min (n - direct - ptrs) (ptrs ^ 2)) ptrs)
    fun _ _ h => PtrBlock.doubleLeaf.inj h
  have hnode := hmap .tripleNode (fill (n - direct - ptrs - ptrs ^ 2) (ptrs ^ 2))
    fun _ _ h => PtrBlock.tripleNode.inj h
  have hleaf := hmap .tripleLeaf (fill (n - direct - ptrs - ptrs ^ 2) ptrs)
    fun _ _ h => PtrBlock.tripleLeaf.inj h
  unfold ptrList
  split_ifs <;> simp [List.nodup_append, hdouble, hnode, hleaf] <;> grind

/-- The size of a file, level by level. -/
theorem blocksOf_eq (hptrs : 0 < ptrs) : blocksOf direct ptrs n =
    n + (if direct < n then 1 else 0) +
      (if direct + ptrs < n then 1 + fill (min (n - direct - ptrs) (ptrs ^ 2)) ptrs else 0) +
      if direct + ptrs + ptrs ^ 2 < n then
        1 + fill (n - direct - ptrs - ptrs ^ 2) (ptrs ^ 2) +
          fill (n - direct - ptrs - ptrs ^ 2) ptrs
      else 0 := by
  have hset : ptrBlocks direct ptrs n = (ptrList direct ptrs n).toFinset := by
    ext b
    rw [mem_ptrBlocks_iff hptrs, List.mem_toFinset]
  rw [blocksOf, hset, List.toFinset_card_of_nodup (nodup_ptrList direct ptrs n)]
  unfold ptrList
  split_ifs <;> simp <;> omega

end KernelProgramming.BlockMap
