import KernelProgramming.Library.BlockMap
import KernelProgramming.Ext2.Cp

/-!
# The block estimate of `ext2_cp`

`have_enough_blocks` computes the number of blocks of a file from its size by
four formulas, one for each level of the block map.  They are compared with
the number of blocks that a file of that size has.
-/

namespace KernelProgramming.Ext2

open BlockMap

/-- The data blocks and the pointer blocks of a file of `size` bytes. -/
def fileBlocks (size : ℕ) : ℕ := blocksOf directBlockCount numOfPtrsInBlock (fill size 1024)

/-- Every size from this one on is too large for the block map. -/
def ext2Limit : ℕ := (12 + 256 + 256 ^ 2 + 256 ^ 3) * 1024

variable {size : ℕ}

theorem fileBlocks_eq (size : ℕ) : fileBlocks size =
    (size + 1023) / 1024 + (if 12 * 1024 < size then 1 else 0) +
      (if 268 * 1024 < size then
        1 + (min ((size + 1023) / 1024 - 268) 65536 + 255) / 256 else 0) +
      if 65804 * 1024 < size then
        1 + ((size + 1023) / 1024 - 65804 + 65535) / 65536 +
          ((size + 1023) / 1024 - 65804 + 255) / 256
      else 0 := by
  have hlt : ∀ k, k < (size + 1023) / 1024 ↔ k * 1024 < size := by
    intro k
    omega
  rw [fileBlocks, blocksOf_eq (by decide)]
  simp only [fill, directBlockCount, numOfPtrsInBlock, Nat.sub_sub, Nat.reduceAdd, Nat.reduceSub,
    Nat.reducePow, hlt]

/-- Through the first three levels the estimate fails only where a level begins. -/
theorem estimate_below (h : size < 65804 * 1024) :
    ∃ needed, numBlocksNeeded size = some needed ∧
      needed = fileBlocks size + if size = 12 * 1024 ∨ size = 268 * 1024 then 1 else 0 := by
  rw [fileBlocks_eq]
  unfold numBlocksNeeded dbleIndirectBlock tpleIndirectBlock
  by_cases h₁ : size < 12 * 1024
  · rw [if_pos h₁]
    refine ⟨_, rfl, ?_⟩
    split_ifs <;> omega
  · rw [if_neg h₁]
    by_cases h₂ : size < 12 * 1024 + 256 * 1024
    · rw [if_pos h₂]
      refine ⟨_, rfl, ?_⟩
      split_ifs <;> omega
    · rw [if_neg h₂, if_pos (by omega)]
      refine ⟨_, rfl, ?_⟩
      split_ifs <;> omega

/-- In the range of the triple indirect block the estimate is always too large. -/
theorem estimate_above (h : 65804 * 1024 ≤ size) (hlimit : size < ext2Limit) :
    ∃ needed, numBlocksNeeded size = some needed ∧ fileBlocks size < needed := by
  rw [fileBlocks_eq]
  unfold ext2Limit at hlimit
  unfold numBlocksNeeded totalBlockCount
  rw [if_neg (by omega), if_neg (by omega), if_neg (by omega), if_pos (by omega)]
  refine ⟨_, rfl, ?_⟩
  split_ifs <;> omega

/-- The estimate is the number of blocks, and a file is refused only if it does not fit. -/
def EstimateExact (size : ℕ) : Prop :=
  numBlocksNeeded size = some (fileBlocks size) ∧
    ∀ d, haveEnoughBlocks d size = false → d.u16 bgFreeBlocksCount < fileBlocks size

/-- The estimate is exact unless the file fills its direct or its single indirect blocks to
the last byte or needs the triple indirect block. -/
theorem estimateExact_iff (hlimit : size < ext2Limit) : EstimateExact size ↔
    size < 65804 * 1024 ∧ size ≠ 12 * 1024 ∧ size ≠ 268 * 1024 := by
  constructor
  · rintro ⟨hexact, -⟩
    have hbelow : size < 65804 * 1024 := by
      by_contra habove
      obtain ⟨needed, hneeded, hlt⟩ := estimate_above (Nat.le_of_not_lt habove) hlimit
      exact hlt.ne (Option.some.inj (hexact.symm.trans hneeded))
    obtain ⟨needed, hneeded, heq⟩ := estimate_below hbelow
    have hsame := Option.some.inj (hexact.symm.trans hneeded)
    split_ifs at heq <;> omega
  · rintro ⟨hbelow, hdirect, hindirect⟩
    obtain ⟨needed, hneeded, heq⟩ := estimate_below hbelow
    rw [if_neg (by omega), Nat.add_zero] at heq
    refine ⟨hneeded.trans (congrArg some heq), fun d hrefused => ?_⟩
    unfold haveEnoughBlocks at hrefused
    rw [hneeded, heq] at hrefused
    exact Nat.lt_of_not_le (of_decide_eq_false hrefused)

theorem estimateExact_iff_single : EstimateExact 5000 ↔
    5000 < 65804 * 1024 ∧ 5000 ≠ 12 * 1024 ∧ 5000 ≠ 268 * 1024 :=
  estimateExact_iff (by decide)

/-- Twelve direct blocks need no pointer block, but thirteen blocks are asked for. -/
theorem estimate_not_exact : ¬ ∀ size, size < ext2Limit → EstimateExact size := by
  intro h
  have hneeded := (h (12 * 1024) (by decide)).1
  rw [fileBlocks_eq] at hneeded
  revert hneeded
  decide

end KernelProgramming.Ext2
