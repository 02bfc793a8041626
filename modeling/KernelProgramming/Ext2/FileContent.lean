import KernelProgramming.Ext2.Copying

/-!
# What a copied file holds

A file is read back through the block map of its inode.  The copy loops leave
out one block of the source behind each full pointer block of the double
indirect level, so that the blocks behind it come one place too early.
-/

namespace KernelProgramming.Ext2

open ByteMemory BlockMap

variable {L : Layout} {d : Disk} {u v w : View} {content : List Byte}
  {b c i j k t depth : ℕ} {bs : List ℕ}

/-! ## Reading a file -/

/-- The slot of the inode behind which block `j` of a file is, and its place there. -/
def slotOf (j : ℕ) : ℕ × ℕ :=
  if j < directBlockCount then (j, 0)
  else if j < directBlockCount + 256 then (indirectBlock, j - directBlockCount)
  else if j < directBlockCount + 256 + 256 ^ 2 then
    (dbleIndirectBlock, j - directBlockCount - 256)
  else (tpleIndirectBlock, j - directBlockCount - 256 - 256 ^ 2)

/-- The number of blocks that the block map has room for. -/
def maxBlocks : ℕ := directBlockCount + 256 + 256 ^ 2 + 256 ^ 3

theorem div_lt_ptrs (ht : t < 256 ^ (depth + 1)) : t / 256 ^ depth < numOfPtrsInBlock :=
  Nat.div_lt_of_lt_mul (by rwa [Nat.pow_succ] at ht)

theorem slotLevel_direct (hi : i < directBlockCount) : slotLevel i = 0 :=
  Nat.sub_eq_zero_of_le hi

theorem slotLevel_indirect : slotLevel indirectBlock = 1 ∧ slotLevel dbleIndirectBlock = 2 ∧
    slotLevel tpleIndirectBlock = 3 := ⟨rfl, rfl, rfl⟩

theorem slotOf_bounds (hj : j < maxBlocks) :
    (slotOf j).1 < totalBlockCount ∧ (slotOf j).2 < 256 ^ slotLevel (slotOf j).1 := by
  obtain ⟨hone, htwo, hthree⟩ := slotLevel_indirect
  unfold maxBlocks directBlockCount at hj
  unfold slotOf directBlockCount
  split_ifs with h₁ h₂ h₃
  · rw [slotLevel_direct h₁]
    exact ⟨h₁.trans (show directBlockCount < totalBlockCount by decide), Nat.one_pos⟩
  · rw [hone]
    exact ⟨show indirectBlock < totalBlockCount by decide, by omega⟩
  · rw [htwo]
    exact ⟨show dbleIndirectBlock < totalBlockCount by decide, by omega⟩
  · rw [hthree]
    exact ⟨show tpleIndirectBlock < totalBlockCount by decide, by omega⟩

namespace View

/-- The block at place `t` behind block `b`, through `depth` levels of pointers; 0 is a hole. -/
def leafAt (v : View) : ℕ → ℕ → ℕ → ℕ
  | 0, b, _ => b
  | depth + 1, b, t =>
      if b = 0 then 0 else v.leafAt depth (v.word b (t / 256 ^ depth)) (t % 256 ^ depth)

/-- Block `j` of the file in inode `n`. -/
def fileBlock (v : View) (n j : ℕ) : ℕ :=
  v.leafAt (slotLevel (slotOf j).1) ((v.inode n).block (slotOf j).1) (slotOf j).2

/-- Byte `i` of the file in inode `n`. -/
def fileByte (v : View) (n i : ℕ) : Byte :=
  if v.fileBlock n (i / 1024) = 0 then 0
  else v.byte (1024 * v.fileBlock n (i / 1024) + i % 1024)

/-- The content of the file in inode `n`. -/
def contents (v : View) (n : ℕ) : List Byte :=
  (List.range (v.inode n).size).map (v.fileByte n)

end View

namespace View

/-- What is read behind a block depends on the blocks that are reached from it. -/
theorem leafAt_congr (h : ∀ c ∈ v.tree depth b, v.SameBlock w c) (ht : t < 256 ^ depth) :
    w.leafAt depth b t = v.leafAt depth b t ∧
      (v.leafAt depth b t ≠ 0 → v.leafAt depth b t ∈ v.tree depth b) := by
  induction depth generalizing b t with
  | zero =>
      refine ⟨rfl, fun hb => ?_⟩
      rw [tree, if_neg (show b ≠ 0 from hb)]
      exact List.mem_singleton_self b
  | succ depth ih =>
      by_cases hb : b = 0
      · simp only [leafAt, if_pos hb]
        exact ⟨trivial, fun hne => absurd rfl hne⟩
      simp only [leafAt, tree, if_neg hb] at h ⊢
      have hrow := div_lt_ptrs ht
      have hsub : ∀ c ∈ v.tree depth (v.word b (t / 256 ^ depth)), c ∈
          (List.range numOfPtrsInBlock).flatMap fun i => v.tree depth (v.word b i) := fun c hc =>
        List.mem_flatMap.mpr ⟨_, List.mem_range.mpr hrow, hc⟩
      obtain ⟨heq, hmem⟩ := ih (fun c hc => h c (List.mem_cons_of_mem b (hsub c hc)))
        (Nat.mod_lt t (Nat.pow_pos (by decide)))
      rw [word_congr (h b List.mem_cons_self) hrow]
      exact ⟨heq, fun hne => List.mem_cons_of_mem b (hsub _ (hmem hne))⟩

/-- A file depends on the blocks that its inode owns. -/
theorem contents_congr (hsize : (w.inode k).size = (v.inode k).size)
    (hblocks : (w.inode k).block = (v.inode k).block) (hlt : (v.inode k).size < 2 ^ 32)
    (h : ∀ c ∈ v.owned k, v.SameBlock w c) : w.contents k = v.contents k := by
  rw [contents, contents, hsize]
  refine List.map_congr_left fun i hi => ?_
  have hblock : i / 1024 < maxBlocks := by
    have hlt := List.mem_range.mp hi
    unfold maxBlocks directBlockCount
    omega
  obtain ⟨hslot, hplace⟩ := slotOf_bounds hblock
  have hsub : ∀ c ∈ v.tree (slotLevel (slotOf (i / 1024)).1)
      ((v.inode k).block (slotOf (i / 1024)).1), c ∈ v.owned k := fun c hc =>
    List.mem_flatMap.mpr ⟨_, List.mem_range.mpr hslot, hc⟩
  obtain ⟨heq, hmem⟩ := leafAt_congr (fun c hc => h c (hsub c hc)) hplace
  rw [fileByte, fileByte, fileBlock, fileBlock, hblocks, heq]
  split_ifs with hzero
  · rfl
  · exact h _ (hsub _ (hmem hzero)) _ (Nat.mod_lt i (by decide))

end View

/-! ## The block of the source -/

/-- The place in the source, counted from the first block behind a pointer block, of the block
that the copy loops store at place `t`. -/
def sourceAt : ℕ → ℕ → ℕ
  | 0, _ => 0
  | depth + 1, t => t / 256 ^ depth * span depth + sourceAt depth (t % 256 ^ depth)

/-- The block of the source that the copy loops store as block `j` of the file. -/
def sourceBlock (j : ℕ) : ℕ := first (slotOf j).1 + sourceAt (slotLevel (slotOf j).1) (slotOf j).2

theorem sourceAt_one (t : ℕ) : sourceAt 1 t = t := by
  rw [sourceAt, sourceAt, span, Nat.pow_zero, Nat.div_one, Nat.mul_one, Nat.add_zero]

theorem sourceAt_two (t : ℕ) : sourceAt 2 t = t / 256 * 257 + t % 256 := by
  rw [sourceAt, Nat.pow_one, sourceAt_one]
  rfl

theorem sourceBlock_double (hge : 268 ≤ j) (hlt : j < 65804) :
    sourceBlock j = 268 + ((j - 268) / 256 * 257 + (j - 268) % 256) := by
  unfold sourceBlock slotOf directBlockCount
  rw [if_neg (by omega), if_neg (by omega), if_pos (by omega), slotLevel_indirect.2.1, sourceAt_two,
    Nat.sub_sub]
  rfl

theorem sourceBlock_triple (hge : 65804 ≤ j) : 66060 ≤ sourceBlock j := by
  unfold sourceBlock slotOf directBlockCount
  rw [if_neg (by omega), if_neg (by omega), if_neg (by omega)]
  exact Nat.le_add_right 66060 _

/-- Up to the end of the first pointer block of the double indirect level nothing is left
out. -/
theorem sourceBlock_eq (hj : j < 524) : sourceBlock j = j := by
  rcases Nat.lt_or_ge j 268 with hlow | hhigh
  · unfold sourceBlock slotOf directBlockCount
    rcases Nat.lt_or_ge j 12 with hdirect | hindirect
    · rw [if_pos hdirect, first_of_le hdirect.le, slotLevel_direct hdirect]
      rfl
    · rw [if_neg (Nat.not_lt_of_le hindirect), if_pos (by omega), slotLevel_indirect.1,
        sourceAt_one]
      exact Nat.add_sub_of_le hindirect
  · rw [sourceBlock_double hhigh (by omega)]
    omega

/-- Of the blocks that the first three levels have to do with, every 257th one is left out. -/
theorem sourceBlock_ne_iff (hc : c < 66060) :
    (∀ j < maxBlocks, sourceBlock j ≠ c) ↔ 268 ≤ c ∧ (c - 268) % 257 = 256 := by
  have hmax : 65804 ≤ maxBlocks := by decide
  constructor
  · intro hnone
    by_contra hin
    rcases Nat.lt_or_ge c 524 with hlt | hge
    · exact hnone c (by omega) (sourceBlock_eq hlt)
    · -- the place behind the double indirect block
      have hj : 268 + ((c - 268) / 257 * 256 + (c - 268) % 257) < 65804 := by omega
      refine hnone _ (hj.trans_le hmax) ?_
      rw [sourceBlock_double (by omega) hj, Nat.add_sub_cancel_left]
      omega
  · rintro ⟨hge, hmod⟩ j hj heq
    rcases Nat.lt_or_ge j 268 with hlow | hhigh
    · rw [sourceBlock_eq (by omega)] at heq
      omega
    rcases Nat.lt_or_ge j 65804 with hdouble | htriple
    · rw [sourceBlock_double hhigh hdouble] at heq
      omega
    · have hle := sourceBlock_triple htriple
      omega

/-! ## Reading what has been stored -/

namespace View

theorem Filled.leafAt (h : v.Filled w content depth b c)
    (hne : ∀ x ∈ w.placed content depth b c, x ≠ 0) (ht : t < 256 ^ depth)
    (hin : c + sourceAt depth t < numChunks content) :
    w.Holds content (w.leafAt depth b t) (c + sourceAt depth t) ∧
      w.leafAt depth b t ∈ w.placed content depth b c := by
  induction depth generalizing b c t with
  | zero => exact ⟨h, List.mem_singleton_self b⟩
  | succ depth ih =>
      have hrow := div_lt_ptrs ht
      have hpos : 0 < 256 ^ depth := Nat.pow_pos (by decide)
      rw [sourceAt, ← Nat.add_assoc] at hin
      have hcell : t / 256 ^ depth < cells 256 depth (numChunks content - c) :=
        lt_cells_iff.mpr ⟨hrow, by omega⟩
      have hsub : ∀ x ∈ w.placed content depth (w.word b (t / 256 ^ depth))
          (c + t / 256 ^ depth * span depth), x ∈ w.placed content (depth + 1) b c := fun x hx =>
        List.mem_cons_of_mem b (List.mem_flatMap.mpr ⟨_, List.mem_range.mpr hcell, hx⟩)
      obtain ⟨hholds, hmem⟩ := ih (h.2 _ hcell) (fun x hx => hne x (hsub x hx))
        (Nat.mod_lt t hpos) hin
      rw [View.leafAt, if_neg (hne b (mem_placed_self ..)), sourceAt, ← Nat.add_assoc]
      exact ⟨hholds, hsub _ hmem⟩

end View

/-- Each block of the file holds its block of the source. -/
theorem Stored.fileBlock (h : Stored L k content totalBlockCount u w bs) (hj : j < maxBlocks)
    (hin : sourceBlock j < numChunks content) :
    w.Holds content (w.fileBlock k j) (sourceBlock j) ∧ w.fileBlock k j ∈ bs := by
  obtain ⟨hslot, hplace⟩ := slotOf_bounds hj
  have hfirst : first (slotOf j).1 < numChunks content := (Nat.le_add_right ..).trans_lt hin
  have hsub : ∀ x ∈ w.placed content (slotLevel (slotOf j).1) ((w.inode k).block (slotOf j).1)
      (first (slotOf j).1), x ∈ bs := by
    intro x hx
    rw [← h.blocks_eq]
    refine List.mem_flatMap.mpr ⟨_, List.mem_range.mpr hslot, ?_⟩
    rwa [if_pos hfirst]
  have hne : ∀ x ∈ bs, x ≠ 0 := fun x hx => (View.mem_clear.mp (h.lays.subset_clear x hx)).1
  obtain ⟨hholds, hmem⟩ := (h.filled _ hslot hfirst).leafAt (fun x hx => hne x (hsub x hx))
    hplace hin
  exact ⟨hholds, hsub _ hmem⟩

theorem View.Holds.byte (h : v.Holds content b j) (hi : i < (chunk content j).length) :
    v.byte (1024 * b + i) = (chunk content j)[i] := by
  have hlt : i < (getBytes v.byte (1024 * b) (chunk content j).length).length := by simpa using hi
  have hget : (getBytes v.byte (1024 * b) (chunk content j).length)[i] = (chunk content j)[i] :=
    List.getElem_of_eq h hlt
  simpa [getBytes] using hget

/-- A source of at most 524 blocks is read back as it is. -/
theorem Stored.contents_eq (h : Stored L k content totalBlockCount u w bs)
    (hsmall : numChunks content ≤ 524) (hsize : (w.inode k).size = content.length) :
    w.contents k = content := by
  rw [View.contents, hsize]
  refine List.ext_getElem (by simp) fun i hi hi' => ?_
  have hblock : i / 1024 < numChunks content := by
    rw [numChunks, fill]
    omega
  have hsource := sourceBlock_eq (hblock.trans_le hsmall)
  obtain ⟨hholds, hmem⟩ := h.fileBlock (j := i / 1024)
    ((hblock.trans_le hsmall).trans (by decide)) (by rwa [hsource])
  rw [hsource] at hholds
  have hne : w.fileBlock k (i / 1024) ≠ 0 := (View.mem_clear.mp (h.lays.subset_clear _ hmem)).1
  have hin : i % 1024 < (chunk content (i / 1024)).length := by
    rw [chunk, List.length_take, List.length_drop]
    omega
  rw [List.getElem_map, List.getElem_range, View.fileByte, if_neg hne, hholds.byte hin]
  simp only [chunk, List.getElem_take, List.getElem_drop]
  congr 1
  omega

/-! ## The blocks of the inode -/

/-- The free blocks do not hold any numbers of blocks. -/
def View.Blank (L : Layout) (v : View) : Prop :=
  ∀ b ∈ v.clear L .block, ∀ i < numOfPtrsInBlock, v.word b i = 0

theorem flatMap_range_of_nil {f : ℕ → List ℕ} {m n : ℕ} (hle : m ≤ n)
    (h : ∀ i < n, m ≤ i → f i = []) : (List.range n).flatMap f = (List.range m).flatMap f := by
  induction n, hle using Nat.le_induction with
  | base => rfl
  | succ n hle ih =>
      rw [List.range_succ, List.flatMap_append, List.flatMap_singleton, h n n.lt_succ_self hle,
        List.append_nil]
      exact ih fun i hi => h i (hi.trans n.lt_succ_self)

theorem View.Filled.tree_eq (h : v.Filled w content depth b c)
    (hne : ∀ x ∈ w.placed content depth b c, x ≠ 0)
    (hblank : depth ≠ 0 → ∀ x ∈ w.placed content depth b c, ∀ i < 256, v.word x i = 0) :
    w.tree depth b = w.placed content depth b c := by
  have hb := hne b (View.mem_placed_self ..)
  induction depth generalizing b c with
  | zero => rw [View.tree, if_neg hb, View.placed]
  | succ depth ih =>
      have hblank := hblank depth.succ_ne_zero
      rw [View.tree, if_neg hb, View.placed]
      refine congrArg (b :: ·) ?_
      rw [numOfPtrsInBlock, flatMap_range_of_nil (View.cells_le 256 depth (numChunks content - c))]
      · refine List.flatMap_congr fun i hi => ?_
        have hcell := List.mem_range.mp hi
        have hsub : ∀ x ∈ w.placed content depth (w.word b i) (c + i * span depth),
            x ∈ w.placed content (depth + 1) b c := fun x hx =>
          List.mem_cons_of_mem b (List.mem_flatMap.mpr ⟨i, hi, hx⟩)
        exact ih (h.2 i hcell) (fun x hx => hne x (hsub x hx))
          (fun _ x hx => hblank x (hsub x hx)) (hne _ (hsub _ (View.mem_placed_self ..)))
      · intro i hi hout
        rw [h.1 i hi hout, hblank b (View.mem_placed_self ..) i hi]
        exact (w.tree_zero depth).1

/-- The blocks that have been taken are the blocks of the inode. -/
theorem Stored.owned_eq (h : Stored L k content totalBlockCount u w bs)
    (hempty : ∀ i, (u.inode k).block i = 0)
    (hblank : directBlockCount < numChunks content → u.Blank L) : w.owned k = bs := by
  rw [View.owned, ← h.blocks_eq]
  refine List.flatMap_congr fun i hi => ?_
  have hslot := List.mem_range.mp hi
  split_ifs with hmore
  · have hsub : ∀ x ∈ w.placed content (slotLevel i) ((w.inode k).block i) (first i),
        x ∈ u.clear L .block := by
      intro x hx
      refine h.lays.subset_clear x ?_
      rw [← h.blocks_eq]
      refine List.mem_flatMap.mpr ⟨i, hi, ?_⟩
      rwa [if_pos hmore]
    refine (h.filled i hslot hmore).tree_eq (fun x hx => (View.mem_clear.mp (hsub x hx)).1) ?_
    intro hlevel x hx
    refine hblank ?_ x (hsub x hx)
    -- a slot with pointers comes after the direct ones
    have hge : directBlockCount ≤ i := by
      by_contra hlt
      exact hlevel (slotLevel_direct (Nat.lt_of_not_le hlt))
    refine lt_of_le_of_lt ?_ hmore
    rw [first]
    split_ifs
    · exact hge
    · exact Nat.le_add_right ..
    · exact (Nat.le_add_right ..).trans (Nat.le_add_right ..)
  · rw [h.kept i fun _ => Nat.le_of_not_lt hmore, hempty]
    exact (w.tree_zero _).1

/-! ## The cost -/

theorem rowCost_one (n r : ℕ) : rowCost (cost 0) (span 0) n r = min n r := by
  induction n generalizing r with
  | zero => rw [rowCost, Nat.zero_min]
  | succ n ih =>
      rw [rowCost, ih]
      simp only [cost, span]
      split_ifs <;> omega

theorem cost_one (r : ℕ) : cost 1 r = 1 + min 256 r := by rw [cost, rowCost_one, numOfPtrsInBlock]

theorem rowCost_two (n r : ℕ) : rowCost (cost 1) (span 1) n r = (ptrRows n r).1 := by
  induction n generalizing r with
  | zero => rfl
  | succ n ih =>
      rw [rowCost, ptrRows, ih, cost_one]
      split_ifs
      · rfl
      · rw [Nat.sub_sub, Nat.add_assoc]
        rfl

theorem fileCost_eq (h : numChunks content ≤ 66060) :
    fileCost content = copyCost (numChunks content) := by
  have htriple : slotCost content tpleIndirectBlock = 0 := if_neg (Nat.not_lt_of_le h)
  have hone : slotCost content indirectBlock = if numChunks content - 12 = 0 then 0
      else 1 + min 256 (numChunks content - 12) := by
    rw [slotCost, slotLevel_indirect.1, cost_one]
    change (if 12 < numChunks content then 1 + min 256 (numChunks content - 12) else 0) = _
    split_ifs <;> omega
  have htwo : slotCost content dbleIndirectBlock = if numChunks content - 12 - 256 = 0 then 0
      else 1 + (ptrRows 256 (numChunks content - 12 - 256)).1 := by
    rw [slotCost, slotLevel_indirect.2.1, cost, rowCost_two, Nat.sub_sub]
    change (if 268 < numChunks content then
      1 + (ptrRows 256 (numChunks content - 268)).1 else 0) = _
    split_ifs
    · omega
    · rfl
    · rfl
    · omega
  rw [fileCost, copyCost, htriple, hone, htwo, Nat.add_zero, directBlockCount]

/-- The check of `have_enough_blocks` leaves room for the whole file. -/
theorem fileCost_le (hcounted : d.u16 bgFreeBlocksCount = (v.clear L .block).length)
    (henough : haveEnoughBlocks d content.length = true) :
    fileCost content ≤ (v.clear L .block).length ∧ numChunks content ≤ 8192 := by
  have hneeded := fileBlocks_le henough
  have hcost := copyCost_le_fileBlocks content.length
  have hfill : fill content.length 1024 ≤ fileBlocks content.length := by
    rw [fileBlocks, blocksOf]
    exact Nat.le_add_right ..
  have hcount := View.length_clear_le L v .block
  have hblocks := L.count_le .block
  have hchunks : numChunks content ≤ 8192 := by
    rw [numChunks]
    omega
  refine ⟨?_, hchunks⟩
  rw [fileCost_eq (by omega), numChunks]
  omega

end KernelProgramming.Ext2
