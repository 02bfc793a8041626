import KernelProgramming.Ext2.Consistency

/-!
# The release of blocks

The loops of `free_all_blocks_of_inode` release the words of pointer blocks one
after the other.  Where no word 0 stands for a pointer block, or block 0 holds
nothing but zeros, these are the blocks that the inode owns.
-/

namespace KernelProgramming.Ext2

open ByteMemory

variable {L : Layout} {d : Disk} {v w : View} {t u : BitmapType} {a b i n x : ℕ} {bs cs : List ℕ}

namespace View

/-- `update_bitmap` with value 0, which leaves out the number 0. -/
def releaseOne (v : View) (t : BitmapType) (b : ℕ) : View := if b = 0 then v else v.release t b

def releaseAll (v : View) (t : BitmapType) (bs : List ℕ) : View :=
  bs.foldl (fun v b => v.releaseOne t b) v

theorem releaseAll_append : v.releaseAll t (bs ++ cs) = (v.releaseAll t bs).releaseAll t cs :=
  List.foldl_append ..

theorem releaseOne_frame (v : View) (t : BitmapType) (b : ℕ) :
    (v.releaseOne t b).inode = v.inode ∧ (v.releaseOne t b).byte = v.byte := by
  unfold releaseOne
  split <;> exact ⟨rfl, rfl⟩

theorem releaseAll_frame (v : View) (t : BitmapType) (bs : List ℕ) :
    (v.releaseAll t bs).inode = v.inode ∧ (v.releaseAll t bs).byte = v.byte := by
  induction bs generalizing v with
  | nil => exact ⟨rfl, rfl⟩
  | cons b bs ih =>
      obtain ⟨hinode, hbyte⟩ := v.releaseOne_frame t b
      exact ⟨(ih _).1.trans hinode, (ih _).2.trans hbyte⟩

theorem bit_releaseOne (v : View) (t : BitmapType) (b : ℕ) :
    (v.releaseOne t b).bit t i = (v.bit t i && decide (i + 1 ≠ b)) := by
  unfold releaseOne
  split
  · next hb =>
      subst hb
      simp
  · next hb =>
      change Function.update v.bit t _ t i = _
      rw [Function.update_self, Function.update_apply]
      by_cases hi : i = b - 1
      · rw [if_pos hi, decide_eq_false (by omega), Bool.and_false]
      · rw [if_neg hi, decide_eq_true (by omega), Bool.and_true]

theorem bit_releaseOne_of_ne (h : u ≠ t) (v : View) (b : ℕ) :
    (v.releaseOne t b).bit u = v.bit u := by
  unfold releaseOne
  split
  · rfl
  · exact Function.update_of_ne h ..

theorem bit_releaseAll (v : View) (t : BitmapType) (bs : List ℕ) :
    (v.releaseAll t bs).bit t i = (v.bit t i && decide (i + 1 ∉ bs)) := by
  induction bs generalizing v with
  | nil => simp [releaseAll]
  | cons b bs ih =>
      apply (ih _).trans
      rw [bit_releaseOne, Bool.and_assoc, ← Bool.decide_and]
      simp only [List.mem_cons, not_or]

theorem bit_releaseAll_of_ne (h : u ≠ t) (v : View) (bs : List ℕ) :
    (v.releaseAll t bs).bit u = v.bit u := by
  induction bs generalizing v with
  | nil => rfl
  | cons b bs ih => exact (ih _).trans (bit_releaseOne_of_ne h v b)

theorem Counted.releaseOne (h : v.Counted L) (hle : b ≤ L.count t) :
    (v.releaseOne t b).Counted L := by
  unfold View.releaseOne
  by_cases hzero : b = 0
  · rwa [if_pos hzero]
  rw [if_neg hzero]
  intro u
  by_cases hu : u = t
  · subst hu
    obtain ⟨hfree, hgroup⟩ := h u
    cases hbit : v.bit u (b - 1) with
    | false =>
        have hsame : (v.release u b).bit u = v.bit u := by
          change Function.update v.bit u _ u = _
          rw [Function.update_self, ← hbit, Function.update_eq_self]
        rw [clear_congr hsame]
        simp only [release, hbit, Bool.false_eq_true, if_false]
        exact ⟨hfree, hgroup⟩
    | true =>
        -- the old list of free numbers is the new one without the number
        have hold : v.bit u = Function.update ((v.release u b).bit u) (b - 1) true := by
          change _ = Function.update (Function.update v.bit u _ u) _ _
          rw [Function.update_self, Function.update_idem, ← hbit, Function.update_eq_self]
        have hclear := clear_of_bit_eq_update (L := L) hzero hold
        have hin : b ∈ (v.release u b).clear L u := by
          refine mem_clear.mpr ⟨hzero, hle, ?_⟩
          change Function.update v.bit u _ u _ = _
          rw [Function.update_self, Function.update_self]
        have hlen := length_filter_ne (nodup_clear L (v.release u b) u) hin
        rw [← hclear] at hlen
        have hbound := length_clear_le L (v.release u b) u
        have hcount := L.count_le u
        simp only [release, hbit, if_true, Function.update_self]
        change _ = ((v.release u b).clear L u).length ∧ _ = ((v.release u b).clear L u).length
        omega
  · have hsame : (v.release t b).free u = v.free u ∧
        (v.release t b).groupFree u = v.groupFree u := by
      simp only [release]
      split <;> simp [Function.update_of_ne hu]
    rw [clear_release_of_ne hu, hsame.1, hsame.2]
    exact h u

theorem Counted.releaseAll (h : v.Counted L) (hle : ∀ b ∈ bs, b ≤ L.count t) :
    (v.releaseAll t bs).Counted L := by
  induction bs generalizing v with
  | nil => exact h
  | cons b bs ih =>
      exact ih (h.releaseOne (hle b List.mem_cons_self)) fun c hc =>
        hle c (List.mem_cons_of_mem b hc)

end View

/-! ## Words that the loops read -/

/-- The word at `a` is `x`, whatever the bitmaps say. -/
def Layout.Holds (L : Layout) (v : View) (a x : ℕ) : Prop :=
  ∀ d v', L.Shows d v' → v'.inode = v.inode → v'.byte = v.byte → d.u32 a = x

namespace Layout

theorem Holds.congr (h : L.Holds v a x) (hinode : w.inode = v.inode) (hbyte : w.byte = v.byte) :
    L.Holds w a x := fun d v' hshows hinode' hbyte' =>
  h d v' hshows (hinode'.trans hinode) (hbyte'.trans hbyte)

theorem holds_word (hb : L.IsPlain b) (hi : i < numOfPtrsInBlock) :
    L.Holds v (1024 * b + 4 * i) (v.word b i) := fun d v' h _ hbyte => by
  rw [h.u32_block hb hi, View.word, hbyte, View.word]

theorem holds_block (hn : L.IsInode n) (hi : i < totalBlockCount) :
    L.Holds v (iBlock (L.inodeAddress n) i) ((v.inode n).block i) := fun d v' h hinode _ => by
  rw [h.iBlock_eq hn hi, hinode]

theorem Shows.updateBitmap_release (h : L.Shows d v) (t : BitmapType) (hle : b ≤ 8192) :
    ∃ d', updateBitmap d t b false = .ok d' ∧ L.Shows d' (v.releaseOne t b) := by
  unfold View.releaseOne
  by_cases hb : b = 0
  · rw [if_pos hb, hb]
    exact ⟨d, rfl, h⟩
  · rw [if_neg hb]
    exact h.updateBitmap_false t hb hle

/-- A loop each of whose rounds releases some blocks. -/
theorem Shows.foldlM {round : Disk → ℕ → Except Fault Disk} {bs : ℕ → List ℕ} (h : L.Shows d v)
    (hround : ∀ i < n, ∀ d v', L.Shows d v' → v'.inode = v.inode → v'.byte = v.byte →
      ∃ d', round d i = .ok d' ∧ L.Shows d' (v'.releaseAll .block (bs i))) :
    ∃ d', (List.range n).foldlM round d = .ok d' ∧
      L.Shows d' (v.releaseAll .block ((List.range n).flatMap bs)) := by
  induction n with
  | zero => exact ⟨d, rfl, h⟩
  | succ n ih =>
      obtain ⟨d₁, hloop, h₁⟩ := ih fun i hi => hround i (by omega)
      obtain ⟨hinode, hbyte⟩ := v.releaseAll_frame .block ((List.range n).flatMap bs)
      obtain ⟨d₂, hlast, h₂⟩ := hround n (Nat.lt_succ_self n) d₁ _ h₁ hinode hbyte
      refine ⟨d₂, ?_, ?_⟩
      · rw [List.range_succ, List.foldlM_append, hloop]
        simp only [bind, Except.bind, List.foldlM_cons, hlast]
        rfl
      · rw [List.range_succ, List.flatMap_append, List.flatMap_singleton, View.releaseAll_append]
        exact h₂

theorem Shows.freeWords {f : ℕ → ℕ} (h : L.Shows d v) (hread : ∀ i < n, L.Holds v (a + 4 * i) (f i))
    (hle : ∀ i < n, f i ≤ 8192) :
    ∃ d', freeWords d a n = .ok d' ∧
      L.Shows d' (v.releaseAll .block ((List.range n).map f)) := by
  rw [← List.flatMap_pure_eq_map]
  apply h.foldlM
  intro i hi d' v' h' hinode hbyte
  rw [hread i hi d' v' h' hinode hbyte]
  exact h'.updateBitmap_release .block (hle i hi)

end Layout

/-! ## The blocks of an inode -/

namespace View

/-- What is released for a block of pointers. -/
def indirect (v : View) (b : ℕ) : List ℕ := (List.range numOfPtrsInBlock).map (v.word b) ++ [b]

/-- What is released for a block of pointers to pointer blocks. -/
def doubleIndirect (v : View) (b : ℕ) : List ℕ :=
  ((List.range numOfPtrsInBlock).flatMap fun i => v.indirect (v.word b i)) ++ [b]

theorem word_of_byte_eq (h : w.byte = v.byte) (b i : ℕ) : w.word b i = v.word b i := by
  rw [word, h, word]

theorem indirect_of_byte_eq (h : w.byte = v.byte) (b : ℕ) : w.indirect b = v.indirect b := by
  rw [indirect, indirect, List.map_congr_left fun i _ => word_of_byte_eq h b i]

theorem doubleIndirect_of_byte_eq (h : w.byte = v.byte) (b : ℕ) :
    w.doubleIndirect b = v.doubleIndirect b := by
  rw [doubleIndirect, doubleIndirect,
    List.flatMap_congr fun i _ => by rw [indirect_of_byte_eq h, word_of_byte_eq h]]

/-- What is released for an inode without a triple indirect block. -/
def released (v : View) (n : ℕ) : List ℕ :=
  (List.range directBlockCount).map (v.inode n).block ++
    (if (v.inode n).block indirectBlock ≠ 0 then v.indirect ((v.inode n).block indirectBlock)
      else []) ++
    if (v.inode n).block dbleIndirectBlock ≠ 0 then
      v.doubleIndirect ((v.inode n).block dbleIndirectBlock) else []

/-- What is released for row `i` of a triple indirect block: the pointer block
number `i` of the row is gone through once for each of them. -/
def tripleRow (v : View) (b i : ℕ) : List ℕ :=
  (List.range numOfPtrsInBlock).flatMap fun j =>
    (List.range numOfPtrsInBlock).map (v.word (v.word b i)) ++ [v.word b j]

def tripleIndirect (v : View) (b : ℕ) : List ℕ :=
  ((List.range numOfPtrsInBlock).flatMap fun i => v.tripleRow (v.word b i) i ++ [v.word b i]) ++ [b]

theorem tripleRow_of_byte_eq (h : w.byte = v.byte) (b i : ℕ) :
    w.tripleRow b i = v.tripleRow b i := by
  have hword : w.word = v.word := funext fun b => funext (word_of_byte_eq h b)
  rw [tripleRow, hword, tripleRow]

theorem tripleIndirect_of_byte_eq (h : w.byte = v.byte) (b : ℕ) :
    w.tripleIndirect b = v.tripleIndirect b := by
  simp only [tripleIndirect, tripleRow_of_byte_eq h, word_of_byte_eq h]

/-- All that is released for an inode. -/
def passed (v : View) (n : ℕ) : List ℕ :=
  v.released n ++ if (v.inode n).block tpleIndirectBlock ≠ 0 then
    v.tripleIndirect ((v.inode n).block tpleIndirectBlock) else []

/-- Block `b` can be gone through as a block of pointers: its words are numbers
in the bitmap. -/
structure PointerBlock (L : Layout) (v : View) (b : ℕ) : Prop where
  plain : L.IsPlain b
  words_le : ∀ i < numOfPtrsInBlock, v.word b i ≤ 8192

/-- The loops over the blocks of an inode keep to the volume. -/
structure Walkable (L : Layout) (v : View) (n : ℕ) : Prop where
  direct : ∀ i < directBlockCount, (v.inode n).block i ≤ 8192
  indirect : (v.inode n).block indirectBlock ≠ 0 →
    v.PointerBlock L ((v.inode n).block indirectBlock)
  double : (v.inode n).block dbleIndirectBlock ≠ 0 →
    L.IsPlain ((v.inode n).block dbleIndirectBlock) ∧ ∀ i < numOfPtrsInBlock,
      v.PointerBlock L (v.word ((v.inode n).block dbleIndirectBlock) i)
  triple : (v.inode n).block tpleIndirectBlock ≠ 0 →
    L.IsPlain ((v.inode n).block tpleIndirectBlock) ∧ ∀ i < numOfPtrsInBlock,
      v.PointerBlock L (v.word ((v.inode n).block tpleIndirectBlock) i) ∧
        v.PointerBlock L (v.word (v.word ((v.inode n).block tpleIndirectBlock) i) i)

theorem PointerBlock.of_byte_eq (h : w.byte = v.byte) (hb : v.PointerBlock L b) :
    w.PointerBlock L b :=
  ⟨hb.plain, fun i hi => by rw [word_of_byte_eq h]; exact hb.words_le i hi⟩

theorem Walkable.congr (hwalk : v.Walkable L n) (hblock : (w.inode n).block = (v.inode n).block)
    (hbyte : w.byte = v.byte) : w.Walkable L n where
  direct i hi := by
    rw [hblock]
    exact hwalk.direct i hi
  indirect hne := by
    rw [hblock] at hne ⊢
    exact (hwalk.indirect hne).of_byte_eq hbyte
  double hne := by
    rw [hblock] at hne ⊢
    obtain ⟨hplain, hrows⟩ := hwalk.double hne
    refine ⟨hplain, fun i hi => ?_⟩
    rw [word_of_byte_eq hbyte]
    exact (hrows i hi).of_byte_eq hbyte
  triple hne := by
    rw [hblock] at hne ⊢
    obtain ⟨hplain, hrows⟩ := hwalk.triple hne
    refine ⟨hplain, fun i hi => ?_⟩
    simp only [word_of_byte_eq hbyte]
    exact ⟨(hrows i hi).1.of_byte_eq hbyte, (hrows i hi).2.of_byte_eq hbyte⟩

def words (v : View) (b : ℕ) : List ℕ := (List.range numOfPtrsInBlock).map (v.word b)

theorem mem_words {b x : ℕ} : x ∈ v.words b ↔ ∃ i < numOfPtrsInBlock, v.word b i = x := by
  simp [words]

/-- What is read through a double indirect block because a zero is followed. -/
def doubleStrays (v : View) (b : ℕ) : List ℕ :=
  (List.range numOfPtrsInBlock).flatMap fun i => if v.word b i = 0 then v.words 0 else []

/-- What is read through a triple indirect block because zeros are followed. -/
def tripleStrays (v : View) (b : ℕ) : List ℕ :=
  (List.range numOfPtrsInBlock).flatMap fun i =>
    if v.word b i = 0 then v.words (v.word 0 i) ++ v.words 0
    else if v.word (v.word b i) i = 0 then v.words 0 else []

def strays (v : View) (n : ℕ) : List ℕ :=
  (if (v.inode n).block dbleIndirectBlock ≠ 0 then
    v.doubleStrays ((v.inode n).block dbleIndirectBlock) else []) ++
  if (v.inode n).block tpleIndirectBlock ≠ 0 then
    v.tripleStrays ((v.inode n).block tpleIndirectBlock) else []

/-- The strays are numbers in the bitmap, and they are read from blocks without
metadata. -/
structure StraysFit (L : Layout) (v : View) (n : ℕ) : Prop where
  le : ∀ x ∈ v.strays n, x ≤ 8192
  plain : (v.inode n).block tpleIndirectBlock ≠ 0 → ∀ i < numOfPtrsInBlock,
    v.word ((v.inode n).block tpleIndirectBlock) i = 0 → L.IsPlain (v.word 0 i)

/-- No triple indirect block, and no hole among the pointer blocks unless block
0 holds only zeros. -/
def Releasable (v : View) (n : ℕ) : Prop :=
  (v.inode n).block tpleIndirectBlock = 0 ∧
    ((v.inode n).block dbleIndirectBlock = 0 ∨
      (∀ i < numOfPtrsInBlock, v.word ((v.inode n).block dbleIndirectBlock) i ≠ 0) ∨
      ∀ i < numOfPtrsInBlock, v.word 0 i = 0)

end View

namespace Layout

theorem Shows.freeIndirect (h : L.Shows d v) (hslot : L.Holds v a b) (hb : L.IsPlain b)
    (hle : ∀ i < numOfPtrsInBlock, v.word b i ≤ 8192) :
    ∃ d', freeIndirect d a = .ok d' ∧ L.Shows d' (v.releaseAll .block (v.indirect b)) := by
  have hcount := L.blocksCount_le
  obtain ⟨d₁, hwords, h₁⟩ := h.freeWords (fun i hi => holds_word hb hi) hle
  obtain ⟨hinode, hbyte⟩ := v.releaseAll_frame .block
    ((List.range numOfPtrsInBlock).map (v.word b))
  obtain ⟨d₂, hlast, h₂⟩ :=
    h₁.updateBitmap_release .block (b := b) (by have := hb.lt; omega)
  refine ⟨d₂, ?_, ?_⟩
  · unfold Ext2.freeIndirect
    rw [hslot d v h rfl rfl, h.blockPtr_eq hb.lt]
    simp only [bind, Except.bind, hwords]
    rw [hslot d₁ _ h₁ hinode hbyte, hlast]
  · rw [View.indirect, View.releaseAll_append]
    exact h₂

theorem Shows.freeDoubleIndirect (h : L.Shows d v) (hslot : L.Holds v a b) (hb : L.IsPlain b)
    (hplain : ∀ i < numOfPtrsInBlock, L.IsPlain (v.word b i))
    (hle : ∀ i < numOfPtrsInBlock, ∀ j < numOfPtrsInBlock, v.word (v.word b i) j ≤ 8192) :
    ∃ d', freeDoubleIndirect d a = .ok d' ∧
      L.Shows d' (v.releaseAll .block (v.doubleIndirect b)) := by
  have hcount := L.blocksCount_le
  have hround : ∀ i < numOfPtrsInBlock, ∀ d v', L.Shows d v' → v'.inode = v.inode →
      v'.byte = v.byte → ∃ d', Ext2.freeIndirect d (1024 * b + 4 * i) = .ok d' ∧
        L.Shows d' (v'.releaseAll .block (v.indirect (v.word b i))) := by
    intro i hi d' v' h' hinode hbyte
    rw [← View.indirect_of_byte_eq hbyte]
    apply h'.freeIndirect ((holds_word hb hi).congr hinode hbyte) (hplain i hi)
    intro j hj
    rw [View.word_of_byte_eq hbyte]
    exact hle i hi j hj
  obtain ⟨d₁, hloop, h₁⟩ := h.foldlM hround
  obtain ⟨hinode, hbyte⟩ := v.releaseAll_frame .block
    ((List.range numOfPtrsInBlock).flatMap fun i => v.indirect (v.word b i))
  obtain ⟨d₂, hlast, h₂⟩ :=
    h₁.updateBitmap_release .block (b := b) (by have := hb.lt; omega)
  refine ⟨d₂, ?_, ?_⟩
  · unfold Ext2.freeDoubleIndirect
    rw [hslot d v h rfl rfl, h.blockPtr_eq hb.lt]
    simp only [bind, Except.bind, hloop]
    rw [hslot d₁ _ h₁ hinode hbyte, hlast]
  · rw [View.doubleIndirect, View.releaseAll_append]
    exact h₂

theorem IsPlain.le {b : ℕ} (hb : L.IsPlain b) : b ≤ 8192 :=
  le_trans hb.lt.le L.blocksCount_le

theorem Shows.freeTripleRow (h : L.Shows d v) (hb : v.PointerBlock L b)
    (hrow : v.PointerBlock L (v.word b i)) (hi : i < numOfPtrsInBlock) :
    ∃ d', freeTripleRow d (1024 * b) i = .ok d' ∧
      L.Shows d' (v.releaseAll .block (v.tripleRow b i)) := by
  apply h.foldlM
  intro j hj d' v' h' hinode hbyte
  have hword := (holds_word hb.plain hi).congr hinode hbyte
  obtain ⟨d₁, hwords, h₁⟩ := h'.freeWords (f := v.word (v.word b i))
    (fun k hk => (holds_word hrow.plain hk).congr hinode hbyte) hrow.words_le
  obtain ⟨hinode₁, hbyte₁⟩ := v'.releaseAll_frame .block
    ((List.range numOfPtrsInBlock).map (v.word (v.word b i)))
  obtain ⟨d₂, hlast, h₂⟩ := h₁.updateBitmap_release .block (hb.words_le j hj)
  refine ⟨d₂, ?_, ?_⟩
  · rw [hword d' v' h' rfl rfl, h'.blockPtr_eq hrow.plain.lt]
    simp only [bind, Except.bind, hwords]
    rw [((holds_word hb.plain hj).congr hinode hbyte) d₁ _ h₁ hinode₁ hbyte₁, hlast]
  · rw [View.releaseAll_append]
    exact h₂

theorem Shows.freeTripleIndirect (h : L.Shows d v) (hslot : L.Holds v a b) (hb : L.IsPlain b)
    (hrows : ∀ i < numOfPtrsInBlock, v.PointerBlock L (v.word b i) ∧
      v.PointerBlock L (v.word (v.word b i) i)) :
    ∃ d', freeTripleIndirect d a = .ok d' ∧
      L.Shows d' (v.releaseAll .block (v.tripleIndirect b)) := by
  have hround : ∀ i < numOfPtrsInBlock, ∀ d v', L.Shows d v' → v'.inode = v.inode →
      v'.byte = v.byte → ∃ d', (do
        let currentPtrPos ← blockPtr d (d.u32 (1024 * b + 4 * i))
        let d ← Ext2.freeTripleRow d currentPtrPos i
        updateBitmap d .block (d.u32 (1024 * b + 4 * i)) false) = .ok d' ∧
          L.Shows d' (v'.releaseAll .block (v.tripleRow (v.word b i) i ++ [v.word b i])) := by
    intro i hi d' v' h' hinode hbyte
    have hword := (holds_word hb hi).congr hinode hbyte
    obtain ⟨hrow, hthrough⟩ := hrows i hi
    obtain ⟨d₁, hloop, h₁⟩ := h'.freeTripleRow (hrow.of_byte_eq hbyte)
      (by rw [View.word_of_byte_eq hbyte]; exact hthrough.of_byte_eq hbyte) hi
    rw [View.tripleRow_of_byte_eq hbyte] at h₁
    obtain ⟨hinode₁, hbyte₁⟩ := v'.releaseAll_frame .block (v.tripleRow (v.word b i) i)
    obtain ⟨d₂, hlast, h₂⟩ := h₁.updateBitmap_release .block hrow.plain.le
    refine ⟨d₂, ?_, ?_⟩
    · rw [hword d' v' h' rfl rfl, h'.blockPtr_eq hrow.plain.lt]
      simp only [bind, Except.bind, hloop]
      rw [hword d₁ _ h₁ hinode₁ hbyte₁, hlast]
    · rw [View.releaseAll_append]
      exact h₂
  obtain ⟨d₁, hloop, h₁⟩ := h.foldlM hround
  obtain ⟨hinode, hbyte⟩ := v.releaseAll_frame .block
    ((List.range numOfPtrsInBlock).flatMap fun i => v.tripleRow (v.word b i) i ++ [v.word b i])
  obtain ⟨d₂, hlast, h₂⟩ := h₁.updateBitmap_release .block hb.le
  refine ⟨d₂, ?_, ?_⟩
  · unfold Ext2.freeTripleIndirect
    rw [hslot d v h rfl rfl, h.blockPtr_eq hb.lt]
    simp only [bind, Except.bind] at hloop ⊢
    rw [hloop]
    simp only
    rw [hslot d₁ _ h₁ hinode hbyte, hlast]
  · rw [View.tripleIndirect, View.releaseAll_append]
    exact h₂

end Layout

namespace View

variable {k : ℕ}

theorem owned_eq_append (v : View) (n : ℕ) :
    v.owned n = ((List.range directBlockCount).flatMap fun i => v.tree 0 ((v.inode n).block i)) ++
      (v.tree 1 ((v.inode n).block indirectBlock) ++
        (v.tree 2 ((v.inode n).block dbleIndirectBlock) ++
          v.tree 3 ((v.inode n).block tpleIndirectBlock))) := by
  have hslots : List.range totalBlockCount =
      List.range directBlockCount ++ [indirectBlock, dbleIndirectBlock, tpleIndirectBlock] := rfl
  have hdirect : ∀ i ∈ List.range directBlockCount,
      v.tree (slotLevel i) ((v.inode n).block i) = v.tree 0 ((v.inode n).block i) := fun i hi => by
    rw [List.mem_range] at hi
    rw [show slotLevel i = 0 by unfold slotLevel; omega]
  rw [owned, hslots, List.flatMap_append, List.flatMap_congr hdirect]
  congr 1
  simp only [List.flatMap_cons, List.flatMap_nil, List.append_nil]
  rfl

/-! ## What the loops get to -/

/-- The blocks in row `b`, number `i`, of a triple indirect block that the loops
get to: of its pointer blocks only number `i` is gone through. -/
def keptRow (v : View) (b i : ℕ) : List ℕ :=
  if b = 0 then []
  else b :: (((List.range numOfPtrsInBlock).flatMap fun j => v.leaves 0 (v.word b j)) ++
    v.leaves 1 (v.word b i))

def keptTriple (v : View) (b : ℕ) : List ℕ :=
  if b = 0 then []
  else b :: (List.range numOfPtrsInBlock).flatMap fun i => v.keptRow (v.word b i) i

def kept (v : View) (n : ℕ) : List ℕ :=
  ((List.range directBlockCount).flatMap fun i => v.tree 0 ((v.inode n).block i)) ++
    (v.tree 1 ((v.inode n).block indirectBlock) ++
      (v.tree 2 ((v.inode n).block dbleIndirectBlock) ++
        v.keptTriple ((v.inode n).block tpleIndirectBlock)))

theorem mem_leaves_zero {b x : ℕ} (hx : x ≠ 0) : x ∈ v.leaves 0 b ↔ b = x := by
  rw [leaves]
  split_ifs with hb
  · simp [hb, hx.symm]
  · rw [List.mem_singleton, eq_comm]

theorem mem_leaves_one {b x : ℕ} (hx : x ≠ 0) : x ∈ v.leaves 1 b ↔ b ≠ 0 ∧ x ∈ v.words b := by
  by_cases hb : b = 0
  · simp [leaves, hb]
  · rw [leaves, if_neg hb, and_iff_right hb, List.mem_flatMap, mem_words]
    simp only [List.mem_range, mem_leaves_zero hx]

theorem mem_tree_one {b x : ℕ} (hx : x ≠ 0) : x ∈ v.tree 1 b ↔ b ≠ 0 ∧ x ∈ v.indirect b := by
  by_cases hb : b = 0
  · simp [tree, hb]
  · have htree : ∀ c, v.tree 0 c = v.leaves 0 c := fun c => rfl
    rw [tree, if_neg hb, and_iff_right hb, indirect, List.mem_cons, List.mem_append,
      List.mem_singleton, List.mem_flatMap, List.mem_map, or_comm]
    simp only [htree, mem_leaves_zero hx]

theorem mem_doubleIndirect {b x : ℕ} (hb : b ≠ 0) (hx : x ≠ 0) :
    x ∈ v.doubleIndirect b ↔ x ∈ v.tree 2 b ∨ x ∈ v.doubleStrays b := by
  have hrow : ∀ i, x ∈ v.indirect (v.word b i) ↔
      x ∈ v.tree 1 (v.word b i) ∨ x ∈ if v.word b i = 0 then v.words 0 else [] := by
    intro i
    rw [mem_tree_one hx]
    by_cases hzero : v.word b i = 0
    · rw [hzero, indirect, List.mem_append, List.mem_singleton]
      simp [hx, words]
    · simp [hzero]
  rw [doubleIndirect, tree, if_neg hb, doubleStrays]
  simp only [List.mem_append, List.mem_cons, List.mem_flatMap, List.not_mem_nil, or_false, hrow]
  constructor
  · rintro (⟨i, hi, hin | hin⟩ | rfl)
    · exact .inl (.inr ⟨i, hi, hin⟩)
    · exact .inr ⟨i, hi, hin⟩
    · exact .inl (.inl rfl)
  · rintro ((rfl | ⟨i, hi, hin⟩) | ⟨i, hi, hin⟩)
    · exact .inr rfl
    · exact .inl ⟨i, hi, .inl hin⟩
    · exact .inl ⟨i, hi, .inr hin⟩

theorem mem_tripleRow {b i x : ℕ} :
    x ∈ v.tripleRow b i ↔ x ∈ v.words (v.word b i) ∨ x ∈ v.words b := by
  rw [tripleRow, List.mem_flatMap]
  simp only [List.mem_append, List.mem_singleton, List.mem_range]
  constructor
  · rintro ⟨j, hj, hin | rfl⟩
    · exact .inl hin
    · exact .inr (mem_words.mpr ⟨j, hj, rfl⟩)
  · rintro (hin | hin)
    · exact ⟨0, by decide, .inl hin⟩
    · obtain ⟨j, hj, rfl⟩ := mem_words.mp hin
      exact ⟨j, hj, .inr rfl⟩

theorem mem_keptRow {b i x : ℕ} (hx : x ≠ 0) : x ∈ v.keptRow b i ↔
    b ≠ 0 ∧ (x = b ∨ x ∈ v.words b ∨ v.word b i ≠ 0 ∧ x ∈ v.words (v.word b i)) := by
  by_cases hb : b = 0
  · simp [keptRow, hb]
  · rw [keptRow, if_neg hb, and_iff_right hb, List.mem_cons, List.mem_append, List.mem_flatMap,
      mem_leaves_one hx]
    simp only [List.mem_range, mem_leaves_zero hx, mem_words]

theorem mem_tripleIndirect {b x : ℕ} (hb : b ≠ 0) (hx : x ≠ 0) :
    x ∈ v.tripleIndirect b ↔ x ∈ v.keptTriple b ∨ x ∈ v.tripleStrays b := by
  have hrow : ∀ i, x ∈ v.tripleRow (v.word b i) i ++ [v.word b i] ↔
      x ∈ v.keptRow (v.word b i) i ∨ x ∈ if v.word b i = 0 then
        v.words (v.word 0 i) ++ v.words 0
        else if v.word (v.word b i) i = 0 then v.words 0 else [] := by
    intro i
    rw [List.mem_append, List.mem_singleton, mem_tripleRow, mem_keptRow hx]
    by_cases hzero : v.word b i = 0
    · simp [hzero, hx]
    · by_cases hhole : v.word (v.word b i) i = 0
      · simp only [hzero, hhole, if_false, if_true]
        tauto
      · simp only [hzero, hhole, if_false, List.not_mem_nil]
        tauto
  have htriple : x ∈ v.tripleIndirect b ↔ (∃ i ∈ List.range numOfPtrsInBlock,
      x ∈ v.tripleRow (v.word b i) i ++ [v.word b i]) ∨ x = b := by
    rw [tripleIndirect, List.mem_append, List.mem_flatMap, List.mem_singleton]
  rw [htriple, keptTriple, if_neg hb, tripleStrays, List.mem_cons, List.mem_flatMap,
    List.mem_flatMap]
  simp only [hrow]
  constructor
  · rintro (⟨i, hi, hin | hin⟩ | rfl)
    · exact .inl (.inr ⟨i, hi, hin⟩)
    · exact .inr ⟨i, hi, hin⟩
    · exact .inl (.inl rfl)
  · rintro ((rfl | ⟨i, hi, hin⟩) | ⟨i, hi, hin⟩)
    · exact .inr rfl
    · exact .inl ⟨i, hi, .inl hin⟩
    · exact .inl ⟨i, hi, .inr hin⟩

/-- The loops pass blocks of the inode and strays. -/
theorem mem_passed (v : View) (n : ℕ) {x : ℕ} (hx : x ≠ 0) :
    x ∈ v.passed n ↔ x ∈ v.kept n ∨ x ∈ v.strays n := by
  have hshape : ∀ p q r r' s s' : Prop,
      ((p ∨ q) ∨ r ∨ r') ∨ s ∨ s' ↔ (p ∨ q ∨ r ∨ s) ∨ r' ∨ s' := by tauto
  have hdirect : x ∈ (List.range directBlockCount).map (v.inode n).block ↔
      x ∈ (List.range directBlockCount).flatMap fun i => v.tree 0 ((v.inode n).block i) := by
    have htree : ∀ c, v.tree 0 c = v.leaves 0 c := fun c => rfl
    rw [List.mem_map, List.mem_flatMap]
    simp only [htree, mem_leaves_zero hx]
  have hone : x ∈ (if (v.inode n).block indirectBlock ≠ 0 then
      v.indirect ((v.inode n).block indirectBlock) else []) ↔
        x ∈ v.tree 1 ((v.inode n).block indirectBlock) := by
    rw [mem_tree_one hx]
    split_ifs with hzero <;> simp [hzero]
  have htwo : x ∈ (if (v.inode n).block dbleIndirectBlock ≠ 0 then
      v.doubleIndirect ((v.inode n).block dbleIndirectBlock) else []) ↔
        x ∈ v.tree 2 ((v.inode n).block dbleIndirectBlock) ∨
          x ∈ if (v.inode n).block dbleIndirectBlock ≠ 0 then
            v.doubleStrays ((v.inode n).block dbleIndirectBlock) else [] := by
    by_cases hzero : (v.inode n).block dbleIndirectBlock = 0
    · simp [hzero, (v.tree_zero _).1]
    · rw [if_pos hzero, if_pos hzero, mem_doubleIndirect hzero hx]
  have hthree : x ∈ (if (v.inode n).block tpleIndirectBlock ≠ 0 then
      v.tripleIndirect ((v.inode n).block tpleIndirectBlock) else []) ↔
        x ∈ v.keptTriple ((v.inode n).block tpleIndirectBlock) ∨
          x ∈ if (v.inode n).block tpleIndirectBlock ≠ 0 then
            v.tripleStrays ((v.inode n).block tpleIndirectBlock) else [] := by
    by_cases hzero : (v.inode n).block tpleIndirectBlock = 0
    · simp [hzero, keptTriple]
    · rw [if_pos hzero, if_pos hzero, mem_tripleIndirect hzero hx]
  rw [passed, List.mem_append, released, List.mem_append, List.mem_append, kept, List.mem_append,
    List.mem_append, List.mem_append, strays, List.mem_append]
  exact (or_congr (or_congr (or_congr hdirect hone) htwo) hthree).trans (hshape ..)

theorem Releasable.strays_eq_zero (h : v.Releasable n) {x : ℕ} (hx : x ∈ v.strays n) : x = 0 := by
  obtain ⟨htriple, hdouble⟩ := h
  rw [strays, htriple, if_neg (not_not.mpr rfl), List.append_nil] at hx
  split_ifs at hx with hne
  · obtain ⟨i, hi, hx⟩ := List.mem_flatMap.mp hx
    split_ifs at hx with hzero
    · rcases hdouble.resolve_left hne with hnone | hzeros
      · exact absurd hzero (hnone i (List.mem_range.mp hi))
      · obtain ⟨j, hj, rfl⟩ := mem_words.mp hx
        exact hzeros j hj
    · exact absurd hx List.not_mem_nil
  · exact absurd hx List.not_mem_nil

theorem Releasable.passed_eq (h : v.Releasable n) : v.passed n = v.released n := by
  rw [passed, h.1, if_neg (not_not.mpr rfl), List.append_nil]

theorem mem_released (h : v.Releasable n) (hx : x ≠ 0) : x ∈ v.released n ↔ x ∈ v.owned n := by
  have hkept : v.kept n = v.owned n := by
    rw [kept, owned_eq_append, h.1, (v.tree_zero 3).1, keptTriple, if_pos rfl]
  rw [← h.passed_eq, mem_passed v n hx, hkept]
  exact or_iff_left fun hin => hx (h.strays_eq_zero hin)

/-- Words of a pointer block of the inode are zero or blocks of the inode. -/
theorem word_of_mem_tree {depth : ℕ} (hb : b ≠ 0) (hi : i < numOfPtrsInBlock)
    (hword : v.word b i ≠ 0) : v.word b i ∈ v.tree (depth + 1) b := by
  rw [tree, if_neg hb]
  refine List.mem_cons_of_mem b (List.mem_flatMap.mpr ⟨i, List.mem_range.mpr hi, ?_⟩)
  cases depth with
  | zero => rw [tree, if_neg hword]; exact List.mem_singleton_self _
  | succ depth => rw [tree, if_neg hword]; exact List.mem_cons_self

theorem mem_tree_self {depth b : ℕ} (hb : b ≠ 0) : b ∈ v.tree depth b := by
  cases depth <;> simp [tree, hb]

theorem tree_word_subset {depth b : ℕ} (hb : b ≠ 0) (hi : i < numOfPtrsInBlock) :
    v.tree depth (v.word b i) ⊆ v.tree (depth + 1) b := fun x hx => by
  rw [tree, if_neg hb]
  exact List.mem_cons_of_mem b (List.mem_flatMap.mpr ⟨i, List.mem_range.mpr hi, hx⟩)

theorem tree_subset_owned {depth : ℕ} (hi : i < totalBlockCount) (hlevel : slotLevel i = depth) :
    v.tree depth ((v.inode n).block i) ⊆ v.owned n := fun x hx =>
  List.mem_flatMap.mpr ⟨i, List.mem_range.mpr hi, by rwa [hlevel]⟩

/-- The pointer blocks of a tree can be gone through. -/
theorem pointerBlock_of_tree {depth b : ℕ} (hb : b ≠ 0)
    (hplain : ∀ x ∈ v.tree (depth + 1) b, L.IsPlain x) : v.PointerBlock L b := by
  refine ⟨hplain b (mem_tree_self hb), fun i hi => ?_⟩
  by_cases hword : v.word b i = 0
  · rw [hword]
    exact Nat.zero_le _
  · exact (hplain _ (word_of_mem_tree hb hi hword)).le

theorem pointerBlock_of_words {b : ℕ} (hb : L.IsPlain b) (hle : ∀ x ∈ v.words b, x ≤ 8192) :
    v.PointerBlock L b :=
  ⟨hb, fun i hi => hle _ (mem_words.mpr ⟨i, hi, rfl⟩)⟩

theorem StraysFit.walkable (hfit : v.StraysFit L n) (hplain : ∀ b ∈ v.owned n, L.IsPlain b) :
    v.Walkable L n where
  direct i hi := by
    by_cases hzero : (v.inode n).block i = 0
    · rw [hzero]
      exact Nat.zero_le _
    · rw [directBlockCount] at hi
      have hlevel : slotLevel i = 0 := by
        unfold slotLevel directBlockCount
        omega
      exact (hplain _ (tree_subset_owned (by rw [totalBlockCount]; omega) hlevel
        (mem_tree_self hzero))).le
  indirect hne := pointerBlock_of_tree hne fun x hx =>
    hplain x (tree_subset_owned (by decide) (show slotLevel indirectBlock = 0 + 1 from rfl) hx)
  double hne := by
    have htree := fun x hx => hplain x (tree_subset_owned (by decide)
      (show slotLevel dbleIndirectBlock = 2 from rfl) hx)
    refine ⟨htree _ (mem_tree_self hne), fun i hi => ?_⟩
    by_cases hzero : v.word ((v.inode n).block dbleIndirectBlock) i = 0
    · rw [hzero]
      refine pointerBlock_of_words L.isPlain_zero fun x hx => hfit.le x ?_
      rw [strays, if_pos hne]
      refine List.mem_append_left _ (List.mem_flatMap.mpr ⟨i, List.mem_range.mpr hi, ?_⟩)
      rwa [if_pos hzero]
    · exact pointerBlock_of_tree hzero fun x hx => htree x (tree_word_subset hne hi hx)
  triple hne := by
    have htree := fun x hx => hplain x (tree_subset_owned (by decide)
      (show slotLevel tpleIndirectBlock = 3 from rfl) hx)
    refine ⟨htree _ (mem_tree_self hne), fun i hi => ?_⟩
    have hstrays : ∀ x, (x ∈ if v.word ((v.inode n).block tpleIndirectBlock) i = 0 then
        v.words (v.word 0 i) ++ v.words 0
        else if v.word (v.word ((v.inode n).block tpleIndirectBlock) i) i = 0 then v.words 0
        else []) → x ≤ 8192 := fun x hx => hfit.le x (by
      rw [strays, if_pos hne]
      exact List.mem_append_right _ (List.mem_flatMap.mpr ⟨i, List.mem_range.mpr hi, hx⟩))
    by_cases hzero : v.word ((v.inode n).block tpleIndirectBlock) i = 0
    · simp only [if_pos hzero, List.mem_append] at hstrays
      rw [hzero]
      exact ⟨pointerBlock_of_words L.isPlain_zero fun x hx => hstrays x (.inr hx),
        pointerBlock_of_words (hfit.plain hne i hi hzero) fun x hx => hstrays x (.inl hx)⟩
    · have hrow := fun x hx => htree x (tree_word_subset hne hi hx)
      refine ⟨pointerBlock_of_tree hzero hrow, ?_⟩
      by_cases hhole : v.word (v.word ((v.inode n).block tpleIndirectBlock) i) i = 0
      · simp only [if_neg hzero, if_pos hhole] at hstrays
        rw [hhole]
        exact pointerBlock_of_words L.isPlain_zero hstrays
      · exact pointerBlock_of_tree hhole fun x hx => hrow x (tree_word_subset hzero hi hx)

theorem Releasable.straysFit (h : v.Releasable n) : v.StraysFit L n where
  le x hx := by
    rw [h.strays_eq_zero hx]
    exact Nat.zero_le _
  plain hne := absurd h.1 hne

end View

namespace Layout

/-- The test of a slot and the loop over what is behind it. -/
theorem Shows.freeLevel {free : Disk → ℕ → Except Fault Disk} {bs : List ℕ} (h : L.Shows d v)
    (hslot : L.Holds v a b)
    (hfree : b ≠ 0 → ∃ d', free d a = .ok d' ∧ L.Shows d' (v.releaseAll .block bs)) :
    ∃ d', (if d.u32 a ≠ 0 then free d a else .ok d) = .ok d' ∧
      L.Shows d' (v.releaseAll .block (if b ≠ 0 then bs else [])) := by
  rw [hslot d v h rfl rfl]
  by_cases hb : b ≠ 0
  · rw [if_pos hb, if_pos hb]
    exact hfree hb
  · rw [if_neg hb, if_neg hb]
    exact ⟨d, rfl, h⟩

/-- What a `do` block makes of a conditional assignment. -/
theorem ite_bind {α β : Type} (c : Prop) [Decidable c] (x y : Except Fault α)
    (k : α → Except Fault β) :
    (if c then x.bind k else y.bind k) = (if c then x else y).bind k := by
  split_ifs <;> rfl

theorem freeAllBlocksOfInode_eq (d : Disk) (inode : ℕ) :
    Ext2.freeAllBlocksOfInode d inode =
      (freeWords d (iBlock inode 0) directBlockCount).bind fun d =>
      (if d.u32 (iBlock inode indirectBlock) ≠ 0 then
        Ext2.freeIndirect d (iBlock inode indirectBlock) else .ok d).bind fun d =>
      (if d.u32 (iBlock inode dbleIndirectBlock) ≠ 0 then
        Ext2.freeDoubleIndirect d (iBlock inode dbleIndirectBlock) else .ok d).bind fun d =>
      if d.u32 (iBlock inode tpleIndirectBlock) ≠ 0 then
        freeTripleIndirect d (iBlock inode tpleIndirectBlock) else .ok d := by
  unfold Ext2.freeAllBlocksOfInode
  refine congrArg (Except.bind _) (funext fun d => (ite_bind _ _ _ _).trans ?_)
  exact congrArg (Except.bind _) (funext fun d => ite_bind _ _ _ _)

theorem Shows.freeAllBlocks_passed (h : L.Shows d v) (hn : L.IsInode n) (hwalk : v.Walkable L n) :
    ∃ d', Ext2.freeAllBlocksOfInode d (L.inodeAddress n) = .ok d' ∧
      L.Shows d' (v.releaseAll .block (v.passed n)) := by
  set b₁ := (v.inode n).block indirectBlock with hb₁
  set b₂ := (v.inode n).block dbleIndirectBlock with hb₂
  set b₃ := (v.inode n).block tpleIndirectBlock with hb₃
  -- the direct blocks
  obtain ⟨d₁, hwords, h₁⟩ := h.freeWords (a := iBlock (L.inodeAddress n) 0) (n := directBlockCount)
    (f := (v.inode n).block) (fun i hi => by
      have hslot := holds_block (v := v) hn (lt_trans hi (show directBlockCount < totalBlockCount by
        decide))
      rwa [show iBlock (L.inodeAddress n) 0 + 4 * i = iBlock (L.inodeAddress n) i by
        simp only [iBlock, Nat.mul_zero, Nat.add_zero]]) hwalk.direct
  obtain ⟨hinode₁, hbyte₁⟩ := v.releaseAll_frame .block
    ((List.range directBlockCount).map (v.inode n).block)
  -- the indirect block
  have hslot₁ : L.Holds (v.releaseAll .block ((List.range directBlockCount).map (v.inode n).block))
      (iBlock (L.inodeAddress n) indirectBlock) b₁ :=
    (holds_block hn (by decide)).congr hinode₁ hbyte₁
  obtain ⟨d₂, hone, h₂⟩ := h₁.freeLevel hslot₁ fun hne =>
    have hptrs := (hwalk.indirect hne).of_byte_eq hbyte₁
    h₁.freeIndirect hslot₁ hptrs.plain hptrs.words_le
  rw [View.indirect_of_byte_eq hbyte₁, ← View.releaseAll_append] at h₂
  obtain ⟨hinode₂, hbyte₂⟩ := v.releaseAll_frame .block
    ((List.range directBlockCount).map (v.inode n).block ++ if b₁ ≠ 0 then v.indirect b₁ else [])
  -- the double indirect block
  have hslot₂ := ((holds_block (v := v) hn (show dbleIndirectBlock < totalBlockCount by
    decide)).congr hinode₂ hbyte₂)
  obtain ⟨d₃, htwo, h₃⟩ := h₂.freeLevel hslot₂ fun hne => by
    obtain ⟨hplain, hrows⟩ := hwalk.double hne
    have hrow : ∀ i < numOfPtrsInBlock, (v.releaseAll .block _).PointerBlock L _ := fun i hi =>
      (hrows i hi).of_byte_eq hbyte₂
    refine h₂.freeDoubleIndirect hslot₂ hplain (fun i hi => ?_) fun i hi => ?_
    · rw [View.word_of_byte_eq hbyte₂]
      exact (hrow i hi).plain
    · rw [View.word_of_byte_eq hbyte₂]
      exact (hrow i hi).words_le
  rw [View.doubleIndirect_of_byte_eq hbyte₂, ← View.releaseAll_append] at h₃
  have h₃ : L.Shows d₃ (v.releaseAll .block (v.released n)) := h₃
  -- the triple indirect block
  obtain ⟨hinode₃, hbyte₃⟩ := v.releaseAll_frame .block (v.released n)
  have hslot₃ := ((holds_block (v := v) hn (show tpleIndirectBlock < totalBlockCount by
    decide)).congr hinode₃ hbyte₃)
  obtain ⟨d₄, hthree, h₄⟩ := h₃.freeLevel hslot₃ fun hne => by
    obtain ⟨hplain, hrows⟩ := hwalk.triple hne
    apply h₃.freeTripleIndirect hslot₃ hplain
    intro i hi
    rw [View.word_of_byte_eq hbyte₃, View.word_of_byte_eq hbyte₃]
    exact ⟨(hrows i hi).1.of_byte_eq hbyte₃, (hrows i hi).2.of_byte_eq hbyte₃⟩
  rw [View.tripleIndirect_of_byte_eq hbyte₃, ← View.releaseAll_append] at h₄
  refine ⟨d₄, ?_, h₄⟩
  rw [freeAllBlocksOfInode_eq, hwords]
  simp only [Except.bind]
  rw [hone]
  simp only
  rw [htwo]
  exact hthree

theorem Shows.freeAllBlocksOfInode (h : L.Shows d v) (hn : L.IsInode n)
    (hplain : ∀ b ∈ v.owned n, L.IsPlain b) (hrel : v.Releasable n) :
    ∃ d', freeAllBlocksOfInode d (L.inodeAddress n) = .ok d' ∧
      L.Shows d' (v.releaseAll .block (v.released n)) := by
  rw [← hrel.passed_eq]
  exact h.freeAllBlocks_passed hn (hrel.straysFit.walkable hplain)

end Layout

end KernelProgramming.Ext2
