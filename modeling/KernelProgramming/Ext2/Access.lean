import KernelProgramming.Ext2.Volume

/-!
# Accesses seen on the volume

Loads from the image read the volume; stores to the fields of an inode change
that inode and nothing else.
-/

namespace KernelProgramming.Ext2

open ByteMemory

/-- Entry `i` of the block of pointers `b`. -/
def View.word (v : View) (b i : ℕ) : ℕ := get32 v.byte (1024 * b + 4 * i)

namespace Layout

variable {L : Layout} {d d' : Disk} {v : View} {b i n : ℕ}

/-! ## Loads -/

theorem isPlain_zero (L : Layout) : L.IsPlain 0 := by
  have h₁ := L.blockBitmap_lt
  have h₂ := L.blockBitmap_ge
  have h₃ := L.inodeBitmap_ge
  have h₄ := L.inodeTable_ge
  refine ⟨by omega, by decide, by decide, by omega, by omega, by omega⟩

theorem IsPlain.lt (h : L.IsPlain b) : b < L.blocksCount := h.1

theorem Shows.byte_eq (h : L.Shows d v) {a : ℕ} (ha : L.IsPlain (a / 1024)) :
    d.byte a = v.byte a := by
  rw [← h.2]
  exact (if_pos ha).symm

theorem Shows.byte_block (h : L.Shows d v) (hb : L.IsPlain b) (hi : i < 1024) :
    d.byte (1024 * b + i) = v.byte (1024 * b + i) :=
  h.byte_eq (by rwa [show (1024 * b + i) / 1024 = b by omega])

theorem Shows.u32_block (h : L.Shows d v) (hb : L.IsPlain b) (hi : i < 256) :
    d.u32 (1024 * b + 4 * i) = v.word b i :=
  get32_congr fun k hk => by
    rw [Nat.add_assoc]
    exact h.byte_block hb (by omega)

theorem Shows.blockPtr_eq (h : L.Shows d v) (hb : b < L.blocksCount) :
    blockPtr d b = .ok (1024 * b) := by
  have hle := L.blocksCount_le
  rw [blockPtr, follow, blockStart, Nat.mod_eq_of_lt (by omega), if_pos]
  rw [h.1.numBlocks_eq]
  omega

theorem Shows.getInodeTable_eq (h : L.Shows d v) : getInodeTable d = 1024 * L.inodeTable := by
  have hle := L.blocksCount_le
  have hend := L.tableEnd_le
  rw [getInodeTable, h.1.inodeTable_eq, blockStart, Nat.mod_eq_of_lt (by omega)]

theorem Shows.follow_inode (h : L.Shows d v) (hn : L.IsInode n) :
    follow d (L.inodeAddress n) = .ok (L.inodeAddress n) := by
  have hend := L.tableEnd_le
  obtain ⟨-, hadr⟩ := L.inodeAddress_bounds hn
  rw [follow, if_pos]
  rw [h.1.numBlocks_eq]
  omega

theorem Shows.inodePtr_eq (h : L.Shows d v) (hn : L.IsInode n) :
    inodePtr d n = .ok (L.inodeAddress n) := by
  rw [inodePtr, if_neg (by have := hn.1; omega), h.getInodeTable_eq]
  exact h.follow_inode hn

theorem isInode_root : L.IsInode rootInodeNumber :=
  ⟨by decide, le_trans (by decide) L.root_le⟩

theorem Shows.getRootInode_eq (h : L.Shows d v) :
    getRootInode d = .ok (L.inodeAddress rootInodeNumber) :=
  h.inodePtr_eq isInode_root

theorem Shows.inode_eq (h : L.Shows d v) (hn : L.IsInode n) :
    v.inode n = inodeAt d.byte (L.inodeAddress n) := by
  rw [← h.2]
  exact if_pos hn

theorem Shows.iBlock_eq (h : L.Shows d v) (hn : L.IsInode n) (hi : i < totalBlockCount) :
    d.u32 (iBlock (L.inodeAddress n) i) = (v.inode n).block i := by
  rw [h.inode_eq hn]
  exact (if_pos hi).symm

theorem Shows.iBlocks_eq (h : L.Shows d v) (hn : L.IsInode n) :
    d.u32 (iBlocks (L.inodeAddress n)) = (v.inode n).blocks := by
  rw [h.inode_eq hn]
  rfl

theorem Shows.iLinksCount_eq (h : L.Shows d v) (hn : L.IsInode n) :
    d.u16 (iLinksCount (L.inodeAddress n)) = (v.inode n).linksCount := by
  rw [h.inode_eq hn]
  rfl

theorem Shows.linksCount_lt (h : L.Shows d v) (hn : L.IsInode n) :
    (v.inode n).linksCount < 65536 := by
  rw [h.inode_eq hn]
  exact get16_lt _ _

/-! ## Stores to an inode -/

theorem inodeAt_setBlock (m : ℕ → Byte) (a : ℕ) (hi : i < totalBlockCount) (x : ℕ) :
    inodeAt (putBytes m (iBlock a i) (bytes32 x)) a =
      { inodeAt m a with block := Function.update (inodeAt m a).block i (x % 2 ^ 32) } := by
  have hi' : i < 15 := hi
  ext k
  · exact get16_putBytes_of_disjoint (by simp only [iMode, iBlock]; omega) m
  · exact get32_putBytes_of_disjoint (by simp only [iSize, iBlock]; omega) m
  · exact get32_putBytes_of_disjoint (by simp only [iDtime, iBlock]; omega) m
  · exact get16_putBytes_of_disjoint (by simp only [iLinksCount, iBlock]; omega) m
  · exact get32_putBytes_of_disjoint (by simp only [iBlocks, iBlock]; omega) m
  · by_cases hk : k = i
    · subst hk
      simp only [inodeAt, Function.update_self]
      rw [if_pos hi, get32_putBytes_same]
    · simp only [inodeAt, Function.update_of_ne hk]
      rw [get32_putBytes_of_disjoint (by simp only [iBlock, length_bytes32]; omega)]

theorem inodeAt_setBlocks (m : ℕ → Byte) (a x : ℕ) :
    inodeAt (putBytes m (iBlocks a) (bytes32 x)) a =
      { inodeAt m a with blocks := x % 2 ^ 32 } := by
  ext k
  · exact get16_putBytes_of_disjoint (by simp only [iMode, iBlocks]; omega) m
  · exact get32_putBytes_of_disjoint (by simp only [iSize, iBlocks]; omega) m
  · exact get32_putBytes_of_disjoint (by simp only [iDtime, iBlocks]; omega) m
  · exact get16_putBytes_of_disjoint (by simp only [iLinksCount, iBlocks]; omega) m
  · exact get32_putBytes_same m _ x
  · simp only [inodeAt]
    rw [get32_putBytes_of_disjoint (by simp only [iBlock, iBlocks, length_bytes32]; omega)]

theorem inodeAt_setLinksCount (m : ℕ → Byte) (a x : ℕ) :
    inodeAt (putBytes m (iLinksCount a) (bytes16 x)) a =
      { inodeAt m a with linksCount := x % 2 ^ 16 } := by
  ext k
  · exact get16_putBytes_of_disjoint (by simp only [iMode, iLinksCount]; omega) m
  · exact get32_putBytes_of_disjoint (by simp only [iSize, iLinksCount]; omega) m
  · exact get32_putBytes_of_disjoint (by simp only [iDtime, iLinksCount]; omega) m
  · exact get16_putBytes_same m _ x
  · exact get32_putBytes_of_disjoint (by simp only [iBlocks, iLinksCount, length_bytes16]; omega) m
  · simp only [inodeAt]
    rw [get32_putBytes_of_disjoint (by simp only [iBlock, iLinksCount, length_bytes16]; omega)]

theorem inodeAt_setSize (m : ℕ → Byte) (a x : ℕ) :
    inodeAt (putBytes m (iSize a) (bytes32 x)) a = { inodeAt m a with size := x % 2 ^ 32 } := by
  ext k
  · exact get16_putBytes_of_disjoint (by simp only [iMode, iSize]; omega) m
  · exact get32_putBytes_same m _ x
  · exact get32_putBytes_of_disjoint (by simp only [iDtime, iSize, length_bytes32]; omega) m
  · exact get16_putBytes_of_disjoint (by simp only [iLinksCount, iSize, length_bytes32]; omega) m
  · exact get32_putBytes_of_disjoint (by simp only [iBlocks, iSize, length_bytes32]; omega) m
  · simp only [inodeAt]
    rw [get32_putBytes_of_disjoint (by simp only [iBlock, iSize, length_bytes32]; omega)]

theorem inodeAt_setDtime (m : ℕ → Byte) (a x : ℕ) :
    inodeAt (putBytes m (iDtime a) (bytes32 x)) a = { inodeAt m a with dtime := x % 2 ^ 32 } := by
  ext k
  · exact get16_putBytes_of_disjoint (by simp only [iMode, iDtime]; omega) m
  · exact get32_putBytes_of_disjoint (by simp only [iSize, iDtime]; omega) m
  · exact get32_putBytes_same m _ x
  · exact get16_putBytes_of_disjoint (by simp only [iLinksCount, iDtime, length_bytes32]; omega) m
  · exact get32_putBytes_of_disjoint (by simp only [iBlocks, iDtime, length_bytes32]; omega) m
  · simp only [inodeAt]
    rw [get32_putBytes_of_disjoint (by simp only [iBlock, iDtime, length_bytes32]; omega)]

theorem sameBut_copy_after {k a : ℕ} (h : k ≤ a) (d : Disk) (s : List Byte) :
    SameBut (k ≤ ·) d (d.copy a s) :=
  (sameBut_copy d a s).mono fun _ hx => le_trans h hx.1

theorem sameBut_copy_inode (d : Disk) (a k : ℕ) {s : List Byte} (h : k + s.length ≤ 128) :
    SameBut (Within a 128) d (d.copy (a + k) s) :=
  (sameBut_copy d (a + k) s).mono fun x hx => by
    unfold Within at hx ⊢
    omega

theorem clearSlots (d : Disk) (a n : ℕ) :
    let d' := (List.range n).foldl (fun d i => d.setU32 (iBlock a i) 0) d
    SameBut (Within (a + 40) (4 * n)) d d' ∧ ∀ i < n, d'.u32 (iBlock a i) = 0 := by
  intro d'
  induction n with
  | zero => exact ⟨⟨rfl, fun _ _ => rfl⟩, fun i hi => absurd hi (Nat.not_lt_zero i)⟩
  | succ n ih =>
      obtain ⟨hsame, hzero⟩ := ih
      have hstep : d' = Disk.setU32 ((List.range n).foldl
          (fun d i => d.setU32 (iBlock a i) 0) d) (iBlock a n) 0 := by
        simp [d', List.range_succ]
      rw [hstep]
      refine ⟨(hsame.mono ?_).trans ((sameBut_copy _ (iBlock a n) (bytes32 0)).mono ?_), ?_⟩
      · unfold Within
        omega
      · unfold Within
        simp only [iBlock, length_bytes32]
        omega
      · intro i hi
        by_cases hin : i = n
        · subst hin
          exact get32_putBytes_same _ _ 0
        · refine (get32_putBytes_of_disjoint ?_ _).trans (hzero i (by omega))
          simp only [iBlock, length_bytes32]
          omega

theorem inodeAt_initInode (d : Disk) (a mode size now : ℕ) :
    SameBut (Within a 128) d (initInode d a mode size now) ∧
      inodeAt (initInode d a mode size now).byte a =
        ⟨mode % 2 ^ 16, size % 2 ^ 32, 0, 1, 0, fun _ => 0⟩ := by
  set d₁ := d.setU16 (iMode a) mode with hd₁
  set d₂ := d₁.setU16 (iUid a) 0 with hd₂
  set d₃ := d₂.setU32 (iSize a) size with hd₃
  set d₄ := d₃.setU32 (iCtime a) now with hd₄
  set d₅ := d₄.setU32 (iDtime a) 0 with hd₅
  set d₆ := d₅.setU16 (iGid a) 0 with hd₆
  set d₇ := d₆.setU16 (iLinksCount a) 1 with hd₇
  set d₈ := d₇.setU32 (iBlocks a) 0 with hd₈
  set d₉ := d₈.setU32 (iOsd1 a) 0 with hd₉
  set d₁₀ := d₉.setU32 (iGeneration a) 0 with hd₁₀
  set d₁₁ := d₁₀.setU32 (iFileAcl a) 0 with hd₁₁
  set d₁₂ := d₁₁.setU32 (iDirAcl a) 0 with hd₁₂
  set d₁₃ := d₁₂.setU32 (iFaddr a) 0 with hd₁₃
  set d' := initInode d a mode size now with hd'
  obtain ⟨hslots, hzero⟩ := clearSlots d₁₃ a totalBlockCount
  -- what the stores behind each one change
  have h₁₃ : SameBut (a + 40 ≤ ·) d₁₃ d' := hslots.mono fun x hx => hx.1
  have h₉ : SameBut (a + 40 ≤ ·) d₉ d' :=
    ((((sameBut_copy_after (by simp only [iGeneration]; omega) d₉ _).trans
      (sameBut_copy_after (by simp only [iFileAcl]; omega) d₁₀ _)).trans
      (sameBut_copy_after (by simp only [iDirAcl]; omega) d₁₁ _)).trans
      (sameBut_copy_after (by simp only [iFaddr]; omega) d₁₂ _)).trans h₁₃
  have h₈ : SameBut (a + 36 ≤ ·) d₈ d' :=
    (sameBut_copy_after le_rfl d₈ _).trans (h₉.mono fun x hx => le_trans (by omega) hx)
  have h₇ : SameBut (a + 28 ≤ ·) d₇ d' :=
    (sameBut_copy_after le_rfl d₇ _).trans (h₈.mono fun x hx => le_trans (by omega) hx)
  have h₆ : SameBut (a + 26 ≤ ·) d₆ d' :=
    (sameBut_copy_after le_rfl d₆ _).trans (h₇.mono fun x hx => le_trans (by omega) hx)
  have h₅ : SameBut (a + 24 ≤ ·) d₅ d' :=
    (sameBut_copy_after le_rfl d₅ _).trans (h₆.mono fun x hx => le_trans (by omega) hx)
  have h₄ : SameBut (a + 20 ≤ ·) d₄ d' :=
    (sameBut_copy_after le_rfl d₄ _).trans (h₅.mono fun x hx => le_trans (by omega) hx)
  have h₃ : SameBut (a + 12 ≤ ·) d₃ d' :=
    (sameBut_copy_after le_rfl d₃ _).trans (h₄.mono fun x hx => le_trans (by omega) hx)
  have h₁ : SameBut (a + 2 ≤ ·) d₁ d' :=
    ((sameBut_copy_after (by simp only [iUid]; omega) d₁ _).trans
      (sameBut_copy_after (by simp only [iSize]; omega) d₂ _)).trans
      (h₃.mono fun x hx => le_trans (by omega) hx)
  constructor
  · have h₂ : SameBut (Within a 128) d d₂ :=
      (sameBut_copy_inode d a 0 (by simp)).trans (sameBut_copy_inode d₁ a 2 (by simp))
    have h₅ : SameBut (Within a 128) d₂ d₅ :=
      ((sameBut_copy_inode d₂ a 4 (by simp)).trans (sameBut_copy_inode d₃ a 12 (by simp))).trans
        (sameBut_copy_inode d₄ a 20 (by simp))
    have h₈ : SameBut (Within a 128) d₅ d₈ :=
      ((sameBut_copy_inode d₅ a 24 (by simp)).trans (sameBut_copy_inode d₆ a 26 (by simp))).trans
        (sameBut_copy_inode d₇ a 28 (by simp))
    have h₁₁ : SameBut (Within a 128) d₈ d₁₁ :=
      ((sameBut_copy_inode d₈ a 36 (by simp)).trans (sameBut_copy_inode d₉ a 100 (by simp))).trans
        (sameBut_copy_inode d₁₀ a 104 (by simp))
    have h₁₃ : SameBut (Within a 128) d₁₁ d₁₃ :=
      (sameBut_copy_inode d₁₁ a 108 (by simp)).trans (sameBut_copy_inode d₁₂ a 112 (by simp))
    refine (((h₂.trans h₅).trans h₈).trans (h₁₁.trans h₁₃)).trans (hslots.mono fun x hx => ?_)
    unfold Within totalBlockCount at *
    omega
  · ext i
    · refine (h₁.u16 fun i hi => ?_).trans (get16_putBytes_same _ _ mode)
      simp only [iMode]
      omega
    · refine (h₃.u32 fun i hi => ?_).trans (get32_putBytes_same _ _ size)
      simp only [iSize]
      omega
    · refine (h₅.u32 fun i hi => ?_).trans (get32_putBytes_same _ _ 0)
      simp only [iDtime]
      omega
    · refine (h₇.u16 fun i hi => ?_).trans (get16_putBytes_same _ _ 1)
      simp only [iLinksCount]
      omega
    · refine (h₈.u32 fun i hi => ?_).trans (get32_putBytes_same _ _ 0)
      simp only [iBlocks]
      omega
    · simp only [inodeAt]
      split_ifs with hi
      · exact hzero i hi
      · rfl

/-- A store inside of an inode. -/
theorem Shows.copy_inode (h : L.Shows d v) (hn : L.IsInode n) {a : ℕ} {s : List Byte}
    (hin : L.inodeAddress n ≤ a ∧ a + s.length ≤ L.inodeAddress n + 128) :
    L.Shows (d.copy a s)
      (v.setInode n (inodeAt (putBytes d.byte a s) (L.inodeAddress n))) :=
  h.of_sameBut_inode hn ((sameBut_copy d a s).mono fun x hx => by
    unfold Within at hx ⊢
    omega)

theorem Shows.initInode (h : L.Shows d v) (hn : L.IsInode n) (mode size now : ℕ) :
    L.Shows (initInode d (L.inodeAddress n) mode size now)
      (v.setInode n ⟨mode % 2 ^ 16, size % 2 ^ 32, 0, 1, 0, fun _ => 0⟩) := by
  obtain ⟨hsame, hinode⟩ := inodeAt_initInode d (L.inodeAddress n) mode size now
  rw [← hinode]
  exact h.of_sameBut_inode hn hsame

theorem Shows.setBlock (h : L.Shows d v) (hn : L.IsInode n) (hi : i < totalBlockCount) (x : ℕ) :
    L.Shows (d.setU32 (iBlock (L.inodeAddress n) i) x)
      (v.setInode n
        { v.inode n with block := Function.update (v.inode n).block i (x % 2 ^ 32) }) := by
  rw [h.inode_eq hn, ← inodeAt_setBlock _ _ hi]
  rw [totalBlockCount] at hi
  exact h.copy_inode hn (by simp only [iBlock, length_bytes32]; omega)

theorem Shows.setBlocks (h : L.Shows d v) (hn : L.IsInode n) (x : ℕ) :
    L.Shows (d.setU32 (iBlocks (L.inodeAddress n)) x)
      (v.setInode n { v.inode n with blocks := x % 2 ^ 32 }) := by
  rw [h.inode_eq hn, ← inodeAt_setBlocks]
  exact h.copy_inode hn (by simp only [iBlocks, length_bytes32]; omega)

theorem Shows.setLinksCount (h : L.Shows d v) (hn : L.IsInode n) (x : ℕ) :
    L.Shows (d.setU16 (iLinksCount (L.inodeAddress n)) x)
      (v.setInode n { v.inode n with linksCount := x % 2 ^ 16 }) := by
  rw [h.inode_eq hn, ← inodeAt_setLinksCount]
  exact h.copy_inode hn (by simp only [iLinksCount, length_bytes16]; omega)

theorem Shows.setSize (h : L.Shows d v) (hn : L.IsInode n) (x : ℕ) :
    L.Shows (d.setU32 (iSize (L.inodeAddress n)) x)
      (v.setInode n { v.inode n with size := x % 2 ^ 32 }) := by
  rw [h.inode_eq hn, ← inodeAt_setSize]
  exact h.copy_inode hn (by simp only [iSize, length_bytes32]; omega)

theorem Shows.setDtime (h : L.Shows d v) (hn : L.IsInode n) (x : ℕ) :
    L.Shows (d.setU32 (iDtime (L.inodeAddress n)) x)
      (v.setInode n { v.inode n with dtime := x % 2 ^ 32 }) := by
  rw [h.inode_eq hn, ← inodeAt_setDtime]
  exact h.copy_inode hn (by simp only [iDtime, length_bytes32]; omega)

end Layout

end KernelProgramming.Ext2
