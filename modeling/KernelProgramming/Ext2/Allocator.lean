import KernelProgramming.Library.ClearBits
import KernelProgramming.Ext2.Volume
import KernelProgramming.Library.Runs

/-!
# The bitmaps and the counters of free blocks and inodes

Any sequence of calls of `update_bitmap` keeps the counters of the superblock
and of the group in step with the bitmaps.
-/

namespace KernelProgramming.Ext2

open ByteMemory ClearBits Runs

def bitCount (d : Disk) : BitmapType → ℕ
  | .block => d.u32 sBlocksCount
  | .inode => d.u32 sInodesCount

def bitmapBlock (d : Disk) : BitmapType → ℕ
  | .block => d.u32 bgBlockBitmap
  | .inode => d.u32 bgInodeBitmap

/-- Each bitmap has a block of the image to itself, apart from the superblock and the group
descriptor, and both counters are the number of its clear bits. -/
structure InStep (d : Disk) : Prop where
  numBlocks_le : d.numBlocks ≤ 2 ^ 22
  bitCount_le : ∀ t, bitCount d t ≤ 8192
  bitmap_lt : ∀ t, bitmapBlock d t < d.numBlocks
  bitmap_ne : ∀ t, bitmapBlock d t ≠ 1 ∧ bitmapBlock d t ≠ 2
  bitmaps_ne : bitmapBlock d .block ≠ bitmapBlock d .inode
  free_eq : ∀ t, d.u32 (freeCount t) = (clearBits (bitCount d t) (bitSet d t)).card
  groupFree_eq : ∀ t, d.u16 (groupFreeCount t) = (clearBits (bitCount d t) (bitSet d t)).card

/-- The effect of `update_bitmap`: the counters go up or down by one, without wrapping, if the
bit changes, and the other bitmap and its counters stay as they are. -/
structure Updates (d d' : Disk) (t : BitmapType) (num : ℕ) (value : Bool) : Prop where
  numBlocks_eq : d'.numBlocks = d.numBlocks
  bitCount_eq : bitCount d' = bitCount d
  bitmapBlock_eq : bitmapBlock d' = bitmapBlock d
  free : (d'.u32 (freeCount t) : ℤ) =
    d.u32 (freeCount t) + if num = 0 then 0 else change (bitSet d t (num - 1)) value
  groupFree : (d'.u16 (groupFreeCount t) : ℤ) =
    d.u16 (groupFreeCount t) + if num = 0 then 0 else change (bitSet d t (num - 1)) value
  free_other : ∀ u ≠ t, d'.u32 (freeCount u) = d.u32 (freeCount u)
  groupFree_other : ∀ u ≠ t, d'.u16 (groupFreeCount u) = d.u16 (groupFreeCount u)
  bit : ∀ i < 8192, bitSet d' t i = if i + 1 = num then value else bitSet d t i
  byte_other : ∀ u ≠ t, ∀ i < 1024,
    d'.byte (1024 * bitmapBlock d u + i) = d.byte (1024 * bitmapBlock d u + i)
  bit_other : ∀ u ≠ t, ∀ i < 8192, bitSet d' u i = bitSet d u i

section Update

variable {d d' : Disk} {t u : BitmapType} {num : ℕ} {value : Bool}

theorem InStep.bitmapBlock_ne (h : InStep d) (hne : u ≠ t) :
    bitmapBlock d u ≠ bitmapBlock d t := by
  cases t with
  | block =>
      cases u with
      | block => exact absurd rfl hne
      | inode => exact h.bitmaps_ne.symm
  | inode =>
      cases u with
      | block => exact h.bitmaps_ne
      | inode => exact absurd rfl hne

theorem InStep.bitmapStart_eq (h : InStep d) (t : BitmapType) :
    bitmapStart d t = 1024 * bitmapBlock d t := by
  have hlt := h.bitmap_lt t
  have hle := h.numBlocks_le
  have hmod : 1024 * bitmapBlock d t % 2 ^ 32 = 1024 * bitmapBlock d t :=
    Nat.mod_eq_of_lt (by omega)
  cases t with
  | block => exact hmod
  | inode => exact hmod

theorem InStep.bitSet_eq (h : InStep d) (t : BitmapType) (i : ℕ) :
    bitSet d t i = (d.byte (1024 * bitmapBlock d t + i / 8)).getLsbD (i % 8) := by
  rw [bitSet, h.bitmapStart_eq]

/-- The fields of the superblock and of the group descriptor that are not counters. -/
theorem fields_of_sameBut {P : ℕ → Prop} (hsame : SameBut P d d')
    (hP : ∀ a, P a → ¬ (1024 ≤ a ∧ a < 1036) ∧ ¬ (2048 ≤ a ∧ a < 2060)) :
    bitCount d' = bitCount d ∧ bitmapBlock d' = bitmapBlock d := by
  have hread : ∀ a, (1024 ≤ a ∧ a + 4 ≤ 1036) ∨ (2048 ≤ a ∧ a + 4 ≤ 2060) →
      d'.u32 a = d.u32 a := by
    intro a ha
    apply hsame.u32
    intro i hi hPi
    obtain ⟨h₁, h₂⟩ := hP _ hPi
    omega
  constructor
  · funext t
    cases t with
    | block => exact hread _ (by decide)
    | inode => exact hread _ (by decide)
  · funext t
    cases t with
    | block => exact hread _ (by decide)
    | inode => exact hread _ (by decide)

theorem sameBut_addToCounters (d : Disk) (t : BitmapType) (n k : ℕ) :
    SameBut (fun x => Within (freeCount t) 4 x ∨ Within (groupFreeCount t) 2 x) d
      (addToCounters d t n k) := by
  have hfree : SameBut (fun x => Within (freeCount t) 4 x ∨ Within (groupFreeCount t) 2 x) d
      (d.setU32 (freeCount t) (d.u32 (freeCount t) + n)) :=
    (sameBut_copy d _ (bytes32 _)).mono fun x hx => Or.inl hx
  apply hfree.trans
  exact (sameBut_copy _ _ (bytes16 _)).mono fun x hx => Or.inr hx

theorem counters_addToCounters (d : Disk) (t : BitmapType) (n k : ℕ) :
    (addToCounters d t n k).u32 (freeCount t) = (d.u32 (freeCount t) + n) % 2 ^ 32 ∧
      (addToCounters d t n k).u16 (groupFreeCount t) =
        (d.u16 (groupFreeCount t) + k) % 2 ^ 16 := by
  have hfree := Layout.freeCount_bounds t
  have hgroup := Layout.groupFreeCount_bounds t
  have hbefore : (d.setU32 (freeCount t) (d.u32 (freeCount t) + n)).u16 (groupFreeCount t) =
      d.u16 (groupFreeCount t) :=
    get16_putBytes_of_disjoint (by simp only [length_bytes32]; omega) d.byte
  constructor
  · apply (get32_putBytes_of_disjoint (by omega) _).trans
    exact get32_putBytes_same d.byte _ _
  · rw [addToCounters, hbefore]
    exact get16_putBytes_same _ _ _

/-- Both counters of a bitmap have changed by `delta`, and nothing else has. -/
structure Recounts (d d' : Disk) (t : BitmapType) (delta : ℤ) : Prop where
  same : SameBut (fun x => Within (freeCount t) 4 x ∨ Within (groupFreeCount t) 2 x) d d'
  free : (d'.u32 (freeCount t) : ℤ) = d.u32 (freeCount t) + delta
  groupFree : (d'.u16 (groupFreeCount t) : ℤ) = d.u16 (groupFreeCount t) + delta

theorem recounts_self (d : Disk) (t : BitmapType) : Recounts d d t 0 :=
  ⟨⟨rfl, fun _ _ => rfl⟩, (add_zero _).symm, (add_zero _).symm⟩

theorem recounts_countDown (hfree : 1 ≤ d.u32 (freeCount t))
    (hgroup : 1 ≤ d.u16 (groupFreeCount t)) : Recounts d (countDown d t) t (-1) := by
  obtain ⟨h32, h16⟩ := counters_addToCounters d t (2 ^ 32 - 1) (2 ^ 16 - 1)
  have hlt32 := get32_lt d.byte (freeCount t)
  have hlt16 := get16_lt d.byte (groupFreeCount t)
  refine ⟨sameBut_addToCounters .., ?_, ?_⟩
  · rw [countDown, h32]
    simp only [Disk.u32] at hfree ⊢
    omega
  · rw [countDown, h16]
    simp only [Disk.u16] at hgroup ⊢
    omega

theorem recounts_countUp (hfree : d.u32 (freeCount t) + 1 < 2 ^ 32)
    (hgroup : d.u16 (groupFreeCount t) + 1 < 2 ^ 16) : Recounts d (countUp d t) t 1 := by
  obtain ⟨h32, h16⟩ := counters_addToCounters d t 1 1
  refine ⟨sameBut_addToCounters .., ?_, ?_⟩
  · rw [countUp, h32, Nat.mod_eq_of_lt hfree]
    rfl
  · rw [countUp, h16, Nat.mod_eq_of_lt hgroup]
    rfl

/-- The counters may be changed as a write to the bitmap demands. -/
theorem InStep.recounts (h : InStep d) (hpos : num ≠ 0) (hnum : num ≤ bitCount d t) :
    Recounts d (if bitSet d t (num - 1) then d else countDown d t) t
        (change (bitSet d t (num - 1)) true) ∧
      Recounts d (if bitSet d t (num - 1) then countUp d t else d) t
        (change (bitSet d t (num - 1)) false) := by
  have hcount := card_clearBits_le (bitCount d t) (bitSet d t)
  have hle := h.bitCount_le t
  have hfree := h.free_eq t
  have hgroup := h.groupFree_eq t
  cases hbit : bitSet d t (num - 1) with
  | true =>
      constructor
      · exact recounts_self d t
      · exact recounts_countUp (by omega) (by omega)
  | false =>
      have hmem : num - 1 ∈ clearBits (bitCount d t) (bitSet d t) :=
        mem_clearBits.mpr ⟨by omega, hbit⟩
      have hcard := Finset.card_pos.mpr ⟨_, hmem⟩
      constructor
      · exact recounts_countDown (by omega) (by omega)
      · exact recounts_self d t

/-- The addresses that a change of a bit in byte `k` of a bitmap writes to. -/
def WritesBit (d : Disk) (t : BitmapType) (k x : ℕ) : Prop :=
  (Within (freeCount t) 4 x ∨ Within (groupFreeCount t) 2 x) ∨ x = 1024 * bitmapBlock d t + k

theorem Recounts.other {d₁ : Disk} {delta : ℤ} (h : Recounts d d₁ t delta) (hu : u ≠ t) :
    d₁.u32 (freeCount u) = d.u32 (freeCount u) ∧
      d₁.u16 (groupFreeCount u) = d.u16 (groupFreeCount u) := by
  have hfree := Layout.freeCount_bounds u
  have hgroup := Layout.groupFreeCount_bounds u
  have hfree' := Layout.freeCount_bounds t
  have hgroup' := Layout.groupFreeCount_bounds t
  have hapart := Layout.freeCount_apart hu
  have hgroupApart := Layout.groupFreeCount_apart hu
  constructor
  · apply h.same.u32
    intro i hi
    unfold Within
    omega
  · apply h.same.u16
    intro i hi
    unfold Within
    omega

section Store

variable {d₁ : Disk} {k : ℕ} {b : Byte}

/-- The counters are in other blocks than the bitmaps. -/
theorem InStep.not_writesBit (h : InStep d) (hk : k < 1024) {i : ℕ} (hi : i < 1024)
    (hne : u = t → i ≠ k) : ¬ WritesBit d t k (1024 * bitmapBlock d u + i) := by
  have hneu := h.bitmap_ne u
  have hfree := Layout.freeCount_bounds t
  have hgroup := Layout.groupFreeCount_bounds t
  rintro ((hx | hx) | hx)
  · unfold Within at hx
    omega
  · unfold Within at hx
    omega
  · rcases eq_or_ne u t with rfl | hut
    · have := hne rfl
      omega
    · have := h.bitmapBlock_ne hut
      omega

theorem InStep.fields_of_writesBit (h : InStep d) (hk : k < 1024)
    (hsame : SameBut (WritesBit d t k) d d') :
    bitCount d' = bitCount d ∧ bitmapBlock d' = bitmapBlock d := by
  have hne := h.bitmap_ne t
  have hfree := Layout.freeCount_bounds t
  have hgroup := Layout.groupFreeCount_bounds t
  apply fields_of_sameBut hsame
  rintro a ((ha | ha) | rfl)
  · unfold Within at ha
    omega
  · unfold Within at ha
    omega
  · omega

theorem InStep.bitSet_store (h : InStep d) (hfields : bitmapBlock d' = bitmapBlock d) (i : ℕ) :
    bitSet d' u i = (d'.byte (1024 * bitmapBlock d u + i / 8)).getLsbD (i % 8) := by
  have hstart : bitmapStart d' u = 1024 * bitmapBlock d u := by
    rw [← h.bitmapStart_eq u]
    cases u with
    | block => exact congrArg blockStart (congrFun hfields .block)
    | inode => exact congrArg blockStart (congrFun hfields .inode)
  rw [bitSet, hstart]

theorem sameBut_setByte (d : Disk) (a : ℕ) (b : Byte) : SameBut (· = a) d (d.setByte a b) := by
  apply (sameBut_copy d a [b]).mono
  intro x hx
  unfold Within at hx
  rw [List.length_singleton] at hx
  omega

/-- The counters are left as they are when a byte of a bitmap is stored. -/
theorem InStep.counters_store (h : InStep d) (u : BitmapType)
    (hstore : SameBut (· = 1024 * bitmapBlock d t + k) d₁ d') (hk : k < 1024) :
    d'.u32 (freeCount u) = d₁.u32 (freeCount u) ∧
      d'.u16 (groupFreeCount u) = d₁.u16 (groupFreeCount u) := by
  have hne := h.bitmap_ne t
  have hfree := Layout.freeCount_bounds u
  have hgroup := Layout.groupFreeCount_bounds u
  constructor
  · apply hstore.u32
    intro i hi
    omega
  · apply hstore.u16
    intro i hi
    omega

/-- A write to one bit of a bitmap, after its counters have been changed. -/
theorem InStep.storeBit (h : InStep d) (hpos : num ≠ 0) (hnum : num ≤ bitCount d t)
    (hcounted : Recounts d d₁ t (change (bitSet d t (num - 1)) value))
    (hb : ∀ i < 8, b.getLsbD i = if i = (num - 1) % 8 then value else
      (d₁.byte (bitmapStart d t + (num - 1) / 8)).getLsbD i) :
    Updates d (d₁.setByte (bitmapStart d t + (num - 1) / 8) b) t num value := by
  have hle := h.bitCount_le t
  rw [h.bitmapStart_eq] at hb ⊢
  obtain ⟨k, hk⟩ : ∃ k, (num - 1) / 8 = k := ⟨_, rfl⟩
  rw [hk] at hb ⊢
  have hk1024 : k < 1024 := by omega
  have hstore := sameBut_setByte d₁ (1024 * bitmapBlock d t + k) b
  have hstored : (d₁.setByte (1024 * bitmapBlock d t + k) b).byte
      (1024 * bitmapBlock d t + k) = b := putBytes_apply (i := 0) (by simp) d₁.byte _
  obtain ⟨d', hd'⟩ : ∃ d', d₁.setByte (1024 * bitmapBlock d t + k) b = d' := ⟨_, rfl⟩
  rw [hd'] at hstore hstored ⊢
  have hsame : SameBut (WritesBit d t k) d d' :=
    (hcounted.same.mono fun _ => Or.inl).trans (hstore.mono fun _ => Or.inr)
  obtain ⟨hcount', hbitmap'⟩ := h.fields_of_writesBit hk1024 hsame
  have hbyte : ∀ u, ∀ i < 1024, (u = t → i ≠ k) →
      d'.byte (1024 * bitmapBlock d u + i) = d.byte (1024 * bitmapBlock d u + i) :=
    fun u i hi hik => hsame.byte_eq _ (h.not_writesBit hk1024 hi hik)
  have hcounters := fun u => h.counters_store u hstore hk1024
  constructor
  · exact hsame.numBlocks_eq
  · exact hcount'
  · exact hbitmap'
  · rw [(hcounters t).1, if_neg hpos, hcounted.free]
  · rw [(hcounters t).2, if_neg hpos, hcounted.groupFree]
  · exact fun u hu => (hcounters u).1.trans (hcounted.other hu).1
  · exact fun u hu => (hcounters u).2.trans (hcounted.other hu).2
  · intro i hi
    rw [h.bitSet_store hbitmap', h.bitSet_eq]
    by_cases hik : i / 8 = k
    · -- the byte that was stored
      have hold : d₁.byte (1024 * bitmapBlock d t + k) =
          d.byte (1024 * bitmapBlock d t + k) := by
        have hne := h.bitmap_ne t
        have hfree := Layout.freeCount_bounds t
        have hgroup := Layout.groupFreeCount_bounds t
        apply hcounted.same.byte_eq
        unfold Within
        omega
      rw [hik, hstored, hb _ (Nat.mod_lt i (by decide)), hold]
      apply if_congr _ rfl rfl
      omega
    · rw [hbyte t (i / 8) (by omega) fun _ => hik, if_neg (by omega)]
  · exact fun u hu i hi => hbyte u i hi fun heq => absurd heq hu
  · intro u hu i hi
    rw [h.bitSet_store hbitmap', h.bitSet_eq, hbyte u (i / 8) (by omega) fun heq => absurd heq hu]

end Store

theorem updates_zero (d : Disk) (t : BitmapType) (value : Bool) :
    Updates d d t 0 value := by
  constructor
  all_goals simp

theorem InStep.updateBitmap (h : InStep d) (hnum : num ≤ bitCount d t) (value : Bool) :
    ∃ d', updateBitmap d t num value = .ok d' ∧ Updates d d' t num value := by
  by_cases hpos : num = 0
  · rw [hpos]
    exact ⟨d, rfl, updates_zero d t value⟩
  have hle := h.bitCount_le t
  have hlt := h.bitmap_lt t
  have hfollow : follow d (bitmapStart d t + (num - 1) / 8) =
      .ok (bitmapStart d t + (num - 1) / 8) := by
    rw [h.bitmapStart_eq]
    exact if_pos (by omega)
  have hbit : (d.byte (bitmapStart d t + (num - 1) / 8)).getLsbD ((num - 1) % 8) =
      bitSet d t (num - 1) := rfl
  obtain ⟨hdown, hup⟩ := h.recounts hpos hnum
  unfold Ext2.updateBitmap
  rw [if_neg hpos, hfollow]
  cases value with
  | true =>
      refine ⟨_, rfl, ?_⟩
      rw [hbit]
      apply h.storeBit hpos hnum hdown
      intro i hi
      rw [getLsbD_set _ _ hi]
      split_ifs <;> simp [*]
  | false =>
      refine ⟨_, rfl, ?_⟩
      rw [hbit]
      apply h.storeBit hpos hnum hup
      intro i hi
      rw [getLsbD_clear _ _ hi]
      split_ifs <;> simp [*]

/-- The counters follow the bitmap. -/
theorem Updates.inStep (hupdates : Updates d d' t num value) (h : InStep d)
    (hnum : num ≤ bitCount d t) : InStep d' := by
  obtain ⟨hblocks, hcount, hbitmap, hfree, hgroup, hfreeOther, hgroupOther, hbit, -, hbitOther⟩ :=
    hupdates
  have hle := h.bitCount_le t
  have hcard : ((clearBits (bitCount d t) (bitSet d' t)).card : ℤ) =
      (clearBits (bitCount d t) (bitSet d t)).card +
        if num = 0 then 0 else change (bitSet d t (num - 1)) value := by
    split_ifs with hpos
    · rw [clearBits_congr fun i hi => ?_, add_zero]
      rw [hbit i (by omega), if_neg (by omega)]
    · rw [← card_clearBits_update (j := num - 1) (by omega)]
      rw [clearBits_congr fun i hi => ?_]
      rw [hbit i (by omega), Function.update_apply]
      exact if_congr (by omega) rfl rfl
  have hcardOther : ∀ u ≠ t, clearBits (bitCount d u) (bitSet d' u) =
      clearBits (bitCount d u) (bitSet d u) := fun u hu =>
    clearBits_congr fun i hi => hbitOther u hu i (hi.trans_le (h.bitCount_le u))
  constructor
  · exact hblocks ▸ h.numBlocks_le
  · exact hcount ▸ h.bitCount_le
  · exact hbitmap ▸ hblocks ▸ h.bitmap_lt
  · exact hbitmap ▸ h.bitmap_ne
  · exact hbitmap ▸ h.bitmaps_ne
  · intro u
    rw [hcount]
    rcases eq_or_ne u t with rfl | hu
    · have hold := h.free_eq u
      omega
    · rw [hfreeOther u hu, hcardOther u hu]
      exact h.free_eq u
  · intro u
    rw [hcount]
    rcases eq_or_ne u t with rfl | hu
    · have hold := h.groupFree_eq u
      omega
    · rw [hgroupOther u hu, hcardOther u hu]
      exact h.groupFree_eq u

end Update

/-! ## Looking for a clear bit -/

def findFree (d : Disk) : BitmapType → ℕ
  | .block => findFreeBlock d
  | .inode => findFreeInode d

/-- The numbers that may be given out: clear ones, and no reserved inodes. -/
def freeNumbers (d : Disk) (t : BitmapType) : Set ℕ :=
  { num | (match t with | .block => 1 | .inode => 12) ≤ num ∧ num ≤ bitCount d t ∧
    bitSet d t (num - 1) = false }

/-- The search returns the least number that may be given out, 0 if there is none. -/
def FindsLeast (d : Disk) (t : BitmapType) : Prop :=
  (findFree d t = 0 ↔ freeNumbers d t = ∅) ∧
    (findFree d t ≠ 0 → IsLeast (freeNumbers d t) (findFree d t))

theorem numberOf_isLeast (n : ℕ) (p : ℕ → Bool) :
    let num := numberOf ((List.range n).find? p)
    let numbers := { num | 1 ≤ num ∧ num ≤ n ∧ p (num - 1) = true }
    (num = 0 ↔ numbers = ∅) ∧ (num ≠ 0 → IsLeast numbers num) := by
  intro num numbers
  cases hfind : (List.range n).find? p with
  | none =>
      have hnum : num = 0 := by
        change numberOf ((List.range n).find? p) = 0
        rw [hfind]
        rfl
      have hnumbers : numbers = ∅ := by
        apply Set.eq_empty_of_forall_notMem
        intro k hk
        obtain ⟨hpos, hle, hk⟩ := hk
        exact List.find?_eq_none.mp hfind (k - 1) (List.mem_range.mpr (by omega)) hk
      exact ⟨⟨fun _ => hnumbers, fun _ => hnum⟩, fun hne => absurd hnum hne⟩
  | some i =>
      have hnum : num = i + 1 := by
        change numberOf ((List.range n).find? p) = i + 1
        rw [hfind]
        rfl
      obtain ⟨hi, hmem, hbefore⟩ := List.find?_range_eq_some.mp hfind
      have hleast : IsLeast numbers num := by
        rw [hnum]
        refine ⟨⟨Nat.le_add_left .., List.mem_range.mp hmem, hi⟩, fun k hk => ?_⟩
        by_contra hlt
        have hclear := hbefore (k - 1) (by have := hk.1; omega)
        rw [hk.2.2] at hclear
        exact Bool.noConfusion hclear
      refine ⟨⟨fun hzero => absurd hzero (by omega), fun hempty => ?_⟩, fun _ => hleast⟩
      exact absurd hleast.1 (hempty ▸ Set.notMem_empty num)

theorem findsLeast (d : Disk) (t : BitmapType) : FindsLeast d t := by
  cases t with
  | block =>
      have hset : freeNumbers d .block = { num | 1 ≤ num ∧ num ≤ d.u32 sBlocksCount ∧
          (!bitSet d .block (num - 1)) = true } := by
        ext num
        simp [freeNumbers, bitCount]
      rw [FindsLeast, hset]
      exact numberOf_isLeast _ _
  | inode =>
      have hset : freeNumbers d .inode = { num | 1 ≤ num ∧ num ≤ d.u32 sInodesCount ∧
          (decide (ext2GoodOldFirstIno ≤ num - 1) && !bitSet d .inode (num - 1)) = true } := by
        ext num
        change 12 ≤ num ∧ num ≤ d.u32 sInodesCount ∧ bitSet d .inode (num - 1) = false ↔
          1 ≤ num ∧ num ≤ d.u32 sInodesCount ∧
            (decide (11 ≤ num - 1) && !bitSet d .inode (num - 1)) = true
        rw [Bool.and_eq_true, decide_eq_true_iff, Bool.not_eq_true']
        constructor
        · exact fun ⟨hge, hle, hclear⟩ => ⟨by omega, hle, by omega, hclear⟩
        · exact fun ⟨_, hle, hge, hclear⟩ => ⟨by omega, hle, hclear⟩
      rw [FindsLeast, hset]
      exact numberOf_isLeast _ _

/-! ## Runs -/

/-- The calls of the allocator that the tools make. -/
inductive AllocatorCall
  | updateBitmap (t : BitmapType) (num : ℕ) (value : Bool)
  | findFreeBlock
  | findFreeInode

/-- The number given to `update_bitmap` is one of the bitmap, or 0. -/
def AllocatorCall.InRange (d : Disk) : AllocatorCall → Prop
  | .updateBitmap t num _ => num ≤ bitCount d t
  | .findFreeBlock => True
  | .findFreeInode => True

def performCall (d : Disk) : AllocatorCall → Except Fault Disk
  | .updateBitmap t num value => updateBitmap d t num value
  | .findFreeBlock => .ok d
  | .findFreeInode => .ok d

def performCalls (d : Disk) (calls : List AllocatorCall) : Except Fault Disk :=
  calls.foldlM performCall d

/-- Numbers found and marked one after the other, each for one of the bitmaps. -/
def takeFree (d : Disk) : List BitmapType → Except Fault (List (BitmapType × ℕ) × Disk)
  | [] => .ok ([], d)
  | t :: ts => do
      let num := findFree d t
      let d ← updateBitmap d t num true
      let (taken, d) ← takeFree d ts
      .ok ((t, num) :: taken, d)

section Run

variable {start d d' : Disk} {calls : List AllocatorCall} {ts : List BitmapType}

theorem InStep.performCall (h : InStep d) {c : AllocatorCall} (hc : c.InRange d) :
    ∃ d', performCall d c = .ok d' ∧ InStep d' ∧ bitCount d' = bitCount d := by
  cases c with
  | updateBitmap t num value =>
      obtain ⟨d', hd', hupdates⟩ := h.updateBitmap hc value
      exact ⟨d', hd', hupdates.inStep h hc, hupdates.bitCount_eq⟩
  | findFreeBlock => exact ⟨d, rfl, h, rfl⟩
  | findFreeInode => exact ⟨d, rfl, h, rfl⟩

theorem findFree_le (hne : findFree d t ≠ 0) :
    findFree d t ≤ bitCount d t ∧ bitSet d t (findFree d t - 1) = false :=
  ((findsLeast d t).2 hne).1.2

theorem findFree_inRange (d : Disk) (t : BitmapType) : findFree d t ≤ bitCount d t := by
  by_cases hzero : findFree d t = 0
  · rw [hzero]
    exact Nat.zero_le _
  · exact (findFree_le hzero).1

/-- What is taken was clear before. -/
theorem InStep.takeFree_clear (h : InStep d) (ts : List BitmapType) :
    ∃ taken d', takeFree d ts = .ok (taken, d') ∧ (taken.filter fun e => e.2 ≠ 0).Nodup ∧
      ∀ t num, (t, num) ∈ taken → num ≠ 0 →
        num ≤ bitCount d t ∧ bitSet d t (num - 1) = false := by
  induction ts generalizing d with
  | nil => exact ⟨[], d, rfl, List.nodup_nil, fun _ _ hmem => absurd hmem List.not_mem_nil⟩
  | cons u ts ih =>
      obtain ⟨d₁, hd₁, hupdates⟩ := h.updateBitmap (findFree_inRange d u) true
      obtain ⟨rest, d', htail, hnodup, hrest⟩ := ih (hupdates.inStep h (findFree_inRange d u))
      refine ⟨(u, findFree d u) :: rest, d', ?_, ?_, fun t num hmem hne => ?_⟩
      · rw [takeFree, hd₁]
        change (takeFree d₁ ts >>= fun r => .ok ((u, findFree d u) :: r.1, r.2)) = _
        rw [htail]
        rfl
      · rw [List.filter_cons]
        split_ifs with hne
        · refine List.nodup_cons.mpr ⟨fun hmem => ?_, hnodup⟩
          have hpos : findFree d u ≠ 0 := of_decide_eq_true hne
          -- the number has been marked, so it cannot be found again
          obtain ⟨hle, hclear⟩ := hrest u _ (List.mem_of_mem_filter hmem) hpos
          have hcount := h.bitCount_le u
          rw [hupdates.bitCount_eq] at hle
          rw [hupdates.bit _ (by omega), if_pos (by omega)] at hclear
          exact Bool.noConfusion hclear
        · exact hnodup
      · rcases List.mem_cons.mp hmem with heq | hmem
        · obtain ⟨rfl, rfl⟩ := Prod.mk.inj heq
          exact findFree_le hne
        · obtain ⟨hle, hclear⟩ := hrest t num hmem hne
          rw [hupdates.bitCount_eq] at hle
          have hlt : num - 1 < 8192 := by
            have hcount := h.bitCount_le t
            omega
          refine ⟨hle, ?_⟩
          rcases eq_or_ne t u with rfl | htu
          · rw [hupdates.bit _ hlt] at hclear
            split_ifs at hclear
            exact hclear
          · rw [hupdates.bit_other t htu _ hlt] at hclear
            exact hclear

theorem InStep.takeFree_nodup (h : InStep d) (ts : List BitmapType) :
    ∃ taken d', takeFree d ts = .ok (taken, d') ∧ (taken.filter fun e => e.2 ≠ 0).Nodup := by
  obtain ⟨taken, d', htake, hnodup, -⟩ := h.takeFree_clear ts
  exact ⟨taken, d', htake, hnodup⟩

/-- Any sequence of calls keeps the counters in step with the bitmaps.  At every point of it
the next call of `update_bitmap` changes one bitmap and its counters only, the searches find
the least number, and numbers found and marked one after the other are distinct. -/
theorem allocator_inStep (h : InStep start) (hcalls : ∀ c ∈ calls, c.InRange start) :
    (∃ last, performCalls start calls = .ok last) ∧
      ∀ past rest d, calls = past ++ rest → performCalls start past = .ok d →
        InStep d ∧
        (∀ t num value d', AllocatorCall.updateBitmap t num value ∈ rest.head? →
          updateBitmap d t num value = .ok d' → Updates d d' t num value) ∧
        (∀ t, FindsLeast d t) ∧
        ∀ ts, ∃ taken d', takeFree d ts = .ok (taken, d') ∧
          (taken.filter fun e => e.2 ≠ 0).Nodup := by
  have hrun : ∀ past rest, calls = past ++ rest →
      Yields (performCalls start past) (fun d => InStep d ∧ bitCount d = bitCount start)
        fun _ => False := by
    intro past rest heq
    apply run_keeps past ⟨h, rfl⟩
    rintro before c after d hpast - ⟨hd, hcount⟩
    have hmem : c ∈ calls := by simp [heq, hpast]
    have hrange : c.InRange d := by
      have hc := hcalls c hmem
      cases c with
      | updateBitmap t num value => exact le_of_le_of_eq hc (congrFun hcount t).symm
      | findFreeBlock => trivial
      | findFreeInode => trivial
    obtain ⟨d', hd', hinStep, hcount'⟩ := hd.performCall hrange
    rw [hd']
    exact ⟨hinStep, hcount'.trans hcount⟩
  constructor
  · obtain ⟨last, hlast, -⟩ := (hrun calls [] (List.append_nil _).symm).exists_ok
    exact ⟨last, hlast⟩
  · intro past rest d heq hpast
    obtain ⟨hd, hcount⟩ := (hrun past rest heq).of_eq_ok hpast
    refine ⟨hd, fun t num value d' hc hd' => ?_, findsLeast d, fun ts => hd.takeFree_nodup ts⟩
    have hmem : AllocatorCall.updateBitmap t num value ∈ calls := by
      rw [heq]
      exact List.mem_append_right _ (List.mem_of_mem_head? hc)
    have hnum : num ≤ bitCount d t := hcount ▸ hcalls _ hmem
    obtain ⟨d₁, hd₁, hupdates⟩ := hd.updateBitmap hnum value
    obtain rfl : d₁ = d' := Except.ok.inj (hd₁.symm.trans hd')
    exact hupdates

/-- Eight blocks and sixteen inodes, all of them free, with the bitmaps in blocks 3 and 4. -/
def emptyVolume : Disk where
  numBlocks := 8
  byte a := if a = 1024 ∨ a = 1040 ∨ a = 2062 then 16 else if a = 1028 ∨ a = 1036 ∨ a = 2060 then 8
    else if a = 2048 then 3 else if a = 2052 then 4 else 0

theorem inStep_emptyVolume : InStep emptyVolume := by
  constructor
  · decide
  · rintro (_ | _) <;> decide
  · rintro (_ | _) <;> decide
  · rintro (_ | _) <;> decide
  · decide
  · rintro (_ | _) <;> decide
  · rintro (_ | _) <;> decide

theorem allocator_inStep_twice :
    (∃ last, performCalls emptyVolume [.updateBitmap .block 3 true, .updateBitmap .block 3 true] =
        .ok last) ∧
      ∀ past rest d, [.updateBitmap .block 3 true, .updateBitmap .block 3 true] = past ++ rest →
        performCalls emptyVolume past = .ok d →
        InStep d ∧
        (∀ t num value d', AllocatorCall.updateBitmap t num value ∈ rest.head? →
          updateBitmap d t num value = .ok d' → Updates d d' t num value) ∧
        (∀ t, FindsLeast d t) ∧
        ∀ ts, ∃ taken d', takeFree d ts = .ok (taken, d') ∧
          (taken.filter fun e => e.2 ≠ 0).Nodup := by
  apply allocator_inStep inStep_emptyVolume
  intro c hc
  have hrange : AllocatorCall.InRange emptyVolume (.updateBitmap .block 3 true) := by
    change 3 ≤ bitCount emptyVolume .block
    decide
  rcases List.mem_pair.mp hc with rfl | rfl
  · exact hrange
  · exact hrange

end Run

end KernelProgramming.Ext2
