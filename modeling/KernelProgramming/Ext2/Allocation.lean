import Mathlib.Data.List.Nodup
import KernelProgramming.Ext2.Access

/-!
# Allocation

The numbers that are free, in the order in which the tools take them, and the
counters that go with them.
-/

namespace KernelProgramming.Ext2

/-- How many numbers a bitmap has. -/
def Layout.count (L : Layout) : BitmapType → ℕ
  | .block => L.blocksCount
  | .inode => L.inodesCount

theorem Layout.count_le (L : Layout) (t : BitmapType) : L.count t ≤ 8192 := by
  cases t with
  | block => exact L.blocksCount_le
  | inode => exact L.inodesCount_le

namespace View

variable {L : Layout} {v : View} {t : BitmapType} {b : ℕ}

/-- The numbers whose bit is clear. -/
def clear (L : Layout) (v : View) (t : BitmapType) : List ℕ :=
  ((List.range (L.count t)).filter fun i => !v.bit t i).map (· + 1)

/-- Both counters of both bitmaps are right. -/
def Counted (L : Layout) (v : View) : Prop :=
  ∀ t, v.free t = (v.clear L t).length ∧ v.groupFree t = (v.clear L t).length

theorem mem_clear : b ∈ v.clear L t ↔ b ≠ 0 ∧ b ≤ L.count t ∧ v.bit t (b - 1) = false := by
  simp only [clear, List.mem_map, List.mem_filter, List.mem_range, Bool.not_eq_true']
  constructor
  · rintro ⟨i, ⟨hi, hbit⟩, rfl⟩
    exact ⟨by omega, by omega, hbit⟩
  · rintro ⟨hpos, hle, hbit⟩
    exact ⟨b - 1, ⟨by omega, hbit⟩, by omega⟩

theorem nodup_clear (L : Layout) (v : View) (t : BitmapType) : (v.clear L t).Nodup :=
  (List.nodup_range.filter _).map fun _ _ h => Nat.succ.inj h

theorem length_clear_le (L : Layout) (v : View) (t : BitmapType) :
    (v.clear L t).length ≤ L.count t := by
  have hle := List.length_filter_le (fun i => !v.bit t i) (List.range (L.count t))
  rwa [List.length_range, ← List.length_map (f := (· + 1))] at hle

theorem clear_congr {w : View} (h : w.bit t = v.bit t) : w.clear L t = v.clear L t := by
  simp only [clear, h]

theorem clear_of_bit_eq_update {w : View} (hpos : b ≠ 0)
    (h : w.bit t = Function.update (v.bit t) (b - 1) true) :
    w.clear L t = (v.clear L t).filter (· ≠ b) := by
  simp only [clear, h, List.filter_map, List.filter_filter]
  congr 1
  apply List.filter_congr
  intro i _
  by_cases hi : i = b - 1
  · subst hi
    simp [show b - 1 + 1 = b by omega]
  · have : i + 1 ≠ b := by omega
    simp [Function.update_of_ne hi, this]

theorem clear_mark (hpos : b ≠ 0) :
    (v.mark t b).clear L t = (v.clear L t).filter (· ≠ b) :=
  clear_of_bit_eq_update hpos (Function.update_self ..)

theorem clear_mark_of_ne {u : BitmapType} (h : u ≠ t) :
    (v.mark t b).clear L u = v.clear L u :=
  clear_congr (Function.update_of_ne h ..)

theorem clear_release_of_ne {u : BitmapType} (h : u ≠ t) :
    (v.release t b).clear L u = v.clear L u :=
  clear_congr (Function.update_of_ne h ..)

theorem clear_mark_head {bs : List ℕ} (h : v.clear L t = b :: bs) :
    (v.mark t b).clear L t = bs := by
  have hmem : b ∈ v.clear L t := h ▸ List.mem_cons_self
  have hnodup := h ▸ nodup_clear L v t
  rw [clear_mark (mem_clear.mp hmem).1, h, List.filter_cons_of_neg (by simp)]
  apply List.filter_eq_self.mpr
  intro x hx
  have : x ≠ b := fun hxb => (List.nodup_cons.mp hnodup).1 (hxb ▸ hx)
  simpa using this

theorem length_filter_ne {l : List ℕ} (hl : l.Nodup) (hb : b ∈ l) :
    (l.filter (· ≠ b)).length + 1 = l.length := by
  have hlen := List.length_erase_add_one hb
  rw [hl.erase_eq_filter] at hlen
  convert hlen using 4
  simp [bne, beq_eq_decide]

theorem counters_mark_of_ne {u : BitmapType} (h : u ≠ t) (v : View) (b : ℕ) :
    (v.mark t b).free u = v.free u ∧ (v.mark t b).groupFree u = v.groupFree u := by
  simp only [mark]
  split <;> simp [Function.update_of_ne h]

theorem Counted.mark (h : Counted L v) (hpos : b ≠ 0) (hle : b ≤ L.count t) :
    Counted L (v.mark t b) := by
  intro u
  by_cases hu : u = t
  · subst hu
    obtain ⟨hfree, hgroup⟩ := h u
    cases hbit : v.bit u (b - 1) with
    | true =>
        have hclear : (v.mark u b).clear L u = v.clear L u := by
          rw [clear_mark hpos]
          apply List.filter_eq_self.mpr
          intro x hx
          have : x ≠ b := by
            rintro rfl
            rw [mem_clear, hbit] at hx
            exact Bool.noConfusion hx.2.2
          simpa using this
        rw [hclear]
        simp only [View.mark, hbit, if_true]
        exact ⟨hfree, hgroup⟩
    | false =>
        have hlen := length_filter_ne (nodup_clear L v u) (mem_clear.mpr ⟨hpos, hle, hbit⟩)
        rw [← clear_mark hpos] at hlen
        have hbound := length_clear_le L v u
        have hcount := L.count_le u
        simp only [View.mark, hbit, Bool.false_eq_true, if_false, Function.update_self]
        change _ = ((v.mark u b).clear L u).length ∧ _ = ((v.mark u b).clear L u).length
        omega
  · obtain ⟨hfree, hgroup⟩ := v.counters_mark_of_ne hu b
    rw [clear_mark_of_ne hu, hfree, hgroup]
    exact h u

end View

/-- Inode `k` gets the free block `b` in slot `i`. -/
def View.attach (v : View) (k i b : ℕ) : View :=
  (v.mark .block b).setInode k { v.inode k with
    block := Function.update (v.inode k).block i b
    blocks := ((v.inode k).blocks + 1) % 2 ^ 32 }

theorem View.setInode_setInode (v : View) (n : ℕ) (x y : Inode) :
    (v.setInode n x).setInode n y = v.setInode n y := by
  simp only [setInode, Function.update_idem]

theorem View.inode_setInode (v : View) (n : ℕ) (x : Inode) : (v.setInode n x).inode n = x :=
  Function.update_self ..

theorem View.inode_setInode_of_ne {k n : ℕ} (h : k ≠ n) (v : View) (x : Inode) :
    (v.setInode n x).inode k = v.inode k :=
  Function.update_of_ne h ..

theorem View.mark_setInode (v : View) (n : ℕ) (x : Inode) (t : BitmapType) (b : ℕ) :
    (v.setInode n x).mark t b = (v.mark t b).setInode n x := rfl

theorem View.clear_setInode (L : Layout) (v : View) (n : ℕ) (x : Inode) (t : BitmapType) :
    (v.setInode n x).clear L t = v.clear L t := rfl

section Search

variable {L : Layout} {d : Disk} {v : View} {n : ℕ}

theorem numberOf_find? (p : ℕ → Bool) (l : List ℕ) :
    numberOf (l.find? p) = ((l.filter p).map (· + 1)).headD 0 := by
  induction l with
  | nil => rfl
  | cons i l ih =>
      cases hp : p i with
      | true => simp [hp, numberOf]
      | false => simpa [hp] using ih

/-- `find_free_block` takes the first free number. -/
theorem Layout.Shows.findFreeBlock_eq (h : L.Shows d v) :
    findFreeBlock d = (v.clear L .block).headD 0 := by
  have hbits : ∀ i ∈ List.range (L.count .block), bitSet d .block i = v.bit .block i := by
    intro i hi
    have hle := L.count_le .block
    exact h.bitSet_eq .block (by rw [List.mem_range] at hi; omega)
  have hcount : d.u32 sBlocksCount = L.count .block := h.1.blocksCount_eq
  rw [findFreeBlock, hcount, numberOf_find?, View.clear,
    List.filter_congr fun i hi => by rw [hbits i hi]]

theorem Layout.Shows.findFreeBlock_mem (h : L.Shows d v) (hne : findFreeBlock d ≠ 0) :
    findFreeBlock d ∈ v.clear L .block := by
  rw [h.findFreeBlock_eq] at hne ⊢
  cases hclear : v.clear L .block with
  | nil => simp [hclear] at hne
  | cons b bs => simp

/-- `find_free_inode` takes a free number behind the reserved ones. -/
theorem Layout.Shows.findFreeInode_mem (h : L.Shows d v) (hne : findFreeInode d ≠ 0) :
    findFreeInode d ∈ v.clear L .inode ∧ ext2GoodOldFirstIno < findFreeInode d := by
  have hcount : d.u32 sInodesCount = L.inodesCount := h.1.inodesCount_eq
  unfold findFreeInode at hne ⊢
  rw [hcount] at hne ⊢
  cases hfind : (List.range L.inodesCount).find? fun i =>
      decide (ext2GoodOldFirstIno ≤ i) && !bitSet d .inode i with
  | none => simp [hfind, numberOf] at hne
  | some i =>
      have hi := List.mem_range.mp (List.mem_of_find?_eq_some hfind)
      have hfree := List.find?_some hfind
      simp only [Bool.and_eq_true, decide_eq_true_eq, Bool.not_eq_true'] at hfree
      rw [h.bitSet_eq .inode (by have := L.inodesCount_le; omega)] at hfree
      refine ⟨View.mem_clear.mpr ⟨Nat.succ_ne_zero i, hi, hfree.2⟩, ?_⟩
      exact Nat.lt_succ_of_le hfree.1

theorem Layout.Shows.attach (h : L.Shows d v) {k i b : ℕ} (hk : L.IsInode k)
    (hi : i < totalBlockCount) (hb : b ∈ v.clear L .block) :
    ∃ d₁, updateBitmap d .block b true = .ok d₁ ∧ L.Shows d₁ (v.mark .block b) ∧
      let d₂ := d₁.setU32 (iBlock (L.inodeAddress k) i) b
      L.Shows (d₂.setU32 (iBlocks (L.inodeAddress k)) (d₂.u32 (iBlocks (L.inodeAddress k)) + 1))
        (v.attach k i b) := by
  obtain ⟨hne, hle, -⟩ := View.mem_clear.mp hb
  have hcount := L.count_le .block
  obtain ⟨d₁, hmark, h₁⟩ := h.updateBitmap_true .block hne (by omega)
  refine ⟨d₁, hmark, h₁, ?_⟩
  intro d₂
  have h₂ : L.Shows d₂ ((v.mark .block b).setInode k
      { v.inode k with block := Function.update (v.inode k).block i b }) := by
    have hslot := h₁.setBlock hk hi b
    rwa [Nat.mod_eq_of_lt (show b < 2 ^ 32 by omega)] at hslot
  have h₃ := h₂.setBlocks hk ((v.inode k).blocks + 1)
  rw [View.setInode_setInode, View.inode_setInode] at h₃
  rw [h₂.iBlocks_eq hk, View.inode_setInode]
  exact h₃

end Search

end KernelProgramming.Ext2
