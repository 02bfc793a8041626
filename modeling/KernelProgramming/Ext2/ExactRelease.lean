import KernelProgramming.Ext2.Release

/-!
# Which blocks are released

`free_all_blocks_of_inode` follows zeros into block 0, and in a triple indirect
block it goes through the wrong pointer blocks.  It releases the blocks of the
inode if and only if neither matters.
-/

namespace KernelProgramming.Ext2

open ByteMemory

variable {L : Layout} {d : Disk} {v w : View} {t u : BitmapType} {b i n x : ℕ} {bs cs : List ℕ}

namespace View

/-! ## The counters -/

theorem counters_releaseOne (v : View) (t : BitmapType) (b : ℕ) :
    (v.releaseOne t b).free t =
        (if b ≠ 0 ∧ v.bit t (b - 1) = true then (v.free t + 1) % 2 ^ 32 else v.free t) ∧
      (v.releaseOne t b).groupFree t =
        if b ≠ 0 ∧ v.bit t (b - 1) = true then (v.groupFree t + 1) % 2 ^ 16 else v.groupFree t := by
  unfold releaseOne
  by_cases hb : b = 0
  · simp [hb]
  · rw [if_neg hb]
    cases hbit : v.bit t (b - 1) <;> simp [release, hb, hbit]

theorem counters_releaseAll_of_ne (h : u ≠ t) (v : View) (bs : List ℕ) :
    (v.releaseAll t bs).free u = v.free u ∧ (v.releaseAll t bs).groupFree u = v.groupFree u := by
  induction bs generalizing v with
  | nil => exact ⟨rfl, rfl⟩
  | cons b bs ih =>
      obtain ⟨hfree, hgroup⟩ := ih (v.releaseOne t b)
      refine ⟨hfree.trans ?_, hgroup.trans ?_⟩ <;> unfold releaseOne release <;>
        split_ifs <;> simp [h]

/-- Each number counts once, when its bit is cleared. -/
theorem counters_releaseAll (hfree : v.free t < 2 ^ 32) (hgroup : v.groupFree t < 2 ^ 16)
    (hcs : cs.Nodup) (hmarked : ∀ x ∈ cs, x ≠ 0 ∧ v.bit t (x - 1) = true)
    (hmem : ∀ x, x ≠ 0 → v.bit t (x - 1) = true → (x ∈ bs ↔ x ∈ cs)) :
    (v.releaseAll t bs).free t = (v.free t + cs.length) % 2 ^ 32 ∧
      (v.releaseAll t bs).groupFree t = (v.groupFree t + cs.length) % 2 ^ 16 := by
  induction bs generalizing v cs with
  | nil =>
      obtain rfl : cs = [] := List.eq_nil_iff_forall_not_mem.mpr fun x hx =>
        List.not_mem_nil ((hmem x (hmarked x hx).1 (hmarked x hx).2).mpr hx)
      exact ⟨(Nat.mod_eq_of_lt hfree).symm, (Nat.mod_eq_of_lt hgroup).symm⟩
  | cons b bs ih =>
      obtain ⟨hfree₁, hgroup₁⟩ := v.counters_releaseOne t b
      have hbit : ∀ x, x ≠ 0 → (v.releaseOne t b).bit t (x - 1) =
          (v.bit t (x - 1) && decide (x ≠ b)) := fun x hx => by
        rw [bit_releaseOne, Nat.sub_add_cancel (Nat.pos_of_ne_zero hx)]
      change ((v.releaseOne t b).releaseAll t bs).free t = _ ∧
        ((v.releaseOne t b).releaseAll t bs).groupFree t = _
      by_cases hb : b ≠ 0 ∧ v.bit t (b - 1) = true
      · rw [if_pos hb] at hfree₁ hgroup₁
        have hin : b ∈ cs := (hmem b hb.1 hb.2).mp List.mem_cons_self
        have hlen := List.length_erase_of_mem hin
        have hpos := List.length_pos_of_mem hin
        have hmarked' : ∀ x ∈ cs.erase b,
            x ≠ 0 ∧ (v.releaseOne t b).bit t (x - 1) = true := fun x hx => by
          obtain ⟨hne, hxcs⟩ := hcs.mem_erase_iff.mp hx
          obtain ⟨hx0, hxbit⟩ := hmarked x hxcs
          rw [hbit x hx0, hxbit]
          exact ⟨hx0, by simpa using hne⟩
        have hmem' : ∀ x, x ≠ 0 → (v.releaseOne t b).bit t (x - 1) = true →
            (x ∈ bs ↔ x ∈ cs.erase b) := fun x hx hxbit => by
          rw [hbit x hx, Bool.and_eq_true, decide_eq_true_eq] at hxbit
          have hiff := hmem x hx hxbit.1
          rw [List.mem_cons, or_iff_right hxbit.2] at hiff
          rw [hcs.mem_erase_iff, hiff, and_iff_right hxbit.2]
        obtain ⟨hf, hg⟩ := ih (by rw [hfree₁]; exact Nat.mod_lt _ (by decide))
          (by rw [hgroup₁]; exact Nat.mod_lt _ (by decide)) (hcs.erase b) hmarked' hmem'
        rw [hf, hg, hfree₁, hgroup₁, hlen]
        omega
      · rw [if_neg hb] at hfree₁ hgroup₁
        rw [← hfree₁, ← hgroup₁]
        have hother : ∀ x, x ≠ 0 → v.bit t (x - 1) = true → x ≠ b := fun x hx hxbit heq =>
          hb ⟨heq ▸ hx, heq ▸ hxbit⟩
        refine ih (by rwa [hfree₁]) (by rwa [hgroup₁]) hcs (fun x hx => ?_) fun x hx hxbit => ?_
        · obtain ⟨hx0, hxbit⟩ := hmarked x hx
          exact ⟨hx0, by rw [hbit x hx0, hxbit]; simpa using hother x hx0 hxbit⟩
        · rw [hbit x hx, Bool.and_eq_true] at hxbit
          rw [← hmem x hx hxbit.1, List.mem_cons]
          exact (or_iff_right (hother x hx hxbit.1)).symm

/-! ## Exactly these blocks -/

/-- The blocks `bs` are marked as free and counted, and nothing else is changed. -/
structure Frees (v w : View) (bs : List ℕ) : Prop where
  blockBits : ∀ i, w.bit .block i = (v.bit .block i && decide (i + 1 ∉ bs))
  counters : w.free .block = (v.free .block + bs.length) % 2 ^ 32 ∧
    w.groupFree .block = (v.groupFree .block + bs.length) % 2 ^ 16
  inodeBits : w.bit .inode = v.bit .inode
  inodeCounters : w.free .inode = v.free .inode ∧ w.groupFree .inode = v.groupFree .inode
  inode : w.inode = v.inode
  byte : w.byte = v.byte

theorem frees_iff (hfree : v.free .block < 2 ^ 32) (hgroup : v.groupFree .block < 2 ^ 16)
    (hcs : cs.Nodup) (hmarked : ∀ x ∈ cs, x ≠ 0 ∧ v.bit .block (x - 1) = true) :
    v.Frees (v.releaseAll .block bs) cs ↔
      ∀ x, x ≠ 0 → v.bit .block (x - 1) = true → (x ∈ bs ↔ x ∈ cs) := by
  constructor
  · intro h x hx hbit
    have hsame := h.blockBits (x - 1)
    rw [bit_releaseAll, hbit, Nat.sub_add_cancel (Nat.pos_of_ne_zero hx)] at hsame
    simpa [not_iff_not] using hsame
  · intro hmem
    have hne : BitmapType.inode ≠ .block := by decide
    obtain ⟨hinode, hbyte⟩ := v.releaseAll_frame .block bs
    refine ⟨fun i => ?_, counters_releaseAll hfree hgroup hcs hmarked hmem,
      bit_releaseAll_of_ne hne v bs, counters_releaseAll_of_ne hne v bs, hinode, hbyte⟩
    rw [bit_releaseAll]
    cases hbit : v.bit .block i with
    | false => rfl
    | true =>
        rw [Bool.true_and, Bool.true_and, decide_eq_decide, not_iff_not]
        exact hmem (i + 1) (Nat.succ_ne_zero i) (by rwa [Nat.add_sub_cancel])

/-! ## What the loops do not get to -/

/-- The data behind the other pointer blocks in row `b`, number `i`. -/
def skippedRow (v : View) (b i : ℕ) : List ℕ :=
  if b = 0 then []
  else ((List.range numOfPtrsInBlock).erase i).flatMap fun j => v.leaves 1 (v.word b j)

def skipped (v : View) (n : ℕ) : List ℕ :=
  if (v.inode n).block tpleIndirectBlock = 0 then []
  else (List.range numOfPtrsInBlock).flatMap fun i =>
    v.skippedRow (v.word ((v.inode n).block tpleIndirectBlock) i) i

theorem tree_one_eq (v : View) (b : ℕ) : v.tree 1 b = v.leaves 0 b ++ v.leaves 1 b := by
  by_cases hb : b = 0
  · simp [tree, leaves, hb]
  · rw [tree, leaves, leaves, if_neg hb, if_neg hb, if_neg hb]
    rfl

theorem tree_two_perm (v : View) (b : ℕ) (hi : i < numOfPtrsInBlock) :
    (v.tree 2 b).Perm (v.keptRow b i ++ v.skippedRow b i) := by
  by_cases hb : b = 0
  · simp [tree, keptRow, skippedRow, hb]
  rw [tree, keptRow, skippedRow, if_neg hb, if_neg hb, if_neg hb, List.cons_append,
    List.append_assoc]
  apply List.Perm.cons b
  have hrest : ((List.range numOfPtrsInBlock).flatMap fun j => v.leaves 1 (v.word b j)).Perm
      (v.leaves 1 (v.word b i) ++
        ((List.range numOfPtrsInBlock).erase i).flatMap fun j => v.leaves 1 (v.word b j)) := by
    rw [← List.flatMap_cons (f := fun j => v.leaves 1 (v.word b j))]
    exact (List.perm_cons_erase (List.mem_range.mpr hi)).flatMap_right _
  have hrows : ((List.range numOfPtrsInBlock).flatMap fun j => v.tree 1 (v.word b j)).Perm
      (((List.range numOfPtrsInBlock).flatMap fun j => v.leaves 0 (v.word b j)) ++
        (List.range numOfPtrsInBlock).flatMap fun j => v.leaves 1 (v.word b j)) := by
    simp only [tree_one_eq]
    exact (List.flatMap_append_perm ..).symm
  exact hrows.trans (hrest.append_left _)

/-- The blocks of the inode are those that the loops get to and the others. -/
theorem owned_perm (v : View) (n : ℕ) : (v.owned n).Perm (v.kept n ++ v.skipped n) := by
  have htriple : (v.tree 3 ((v.inode n).block tpleIndirectBlock)).Perm
      (v.keptTriple ((v.inode n).block tpleIndirectBlock) ++ v.skipped n) := by
    rw [skipped, keptTriple, tree]
    split_ifs with hzero
    · exact .refl _
    · rw [List.cons_append]
      refine List.Perm.cons _ (List.Perm.trans ?_ (List.flatMap_append_perm ..).symm)
      exact List.Perm.flatMap_left _ fun i hi => v.tree_two_perm _ (List.mem_range.mp hi)
  rw [owned_eq_append, kept, List.append_assoc, List.append_assoc, List.append_assoc]
  exact ((htriple.append_left _).append_left _).append_left _

/-! ## The inode -/

/-- The blocks behind the pointers of an inode are blocks without metadata that
are in use, each of them once. -/
structure BlockTree (L : Layout) (v : View) (n : ℕ) : Prop where
  used : ∀ b ∈ v.owned n, b ≠ 0 ∧ L.IsPlain b ∧ v.bit .block (b - 1) = true
  once : (v.owned n).Nodup

/-- Neither the zeros that are followed nor the pointer blocks that are not gone
through make a difference. -/
structure Harmless (v : View) (n : ℕ) : Prop where
  strays : ∀ x ∈ v.strays n, x ≠ 0 → v.bit .block (x - 1) = true → x ∈ v.owned n
  skipped : v.skipped n ⊆ v.strays n

theorem BlockTree.harmless_iff (htree : v.BlockTree L n) :
    v.Harmless n ↔
      ∀ x, x ≠ 0 → v.bit .block (x - 1) = true → (x ∈ v.passed n ↔ x ∈ v.owned n) := by
  have hperm := v.owned_perm n
  have hmem : ∀ x, x ∈ v.owned n ↔ x ∈ v.kept n ∨ x ∈ v.skipped n := fun x => by
    rw [hperm.mem_iff, List.mem_append]
  have hdisjoint := (List.nodup_append.mp (hperm.nodup_iff.mp htree.once)).2.2
  constructor
  · intro hharmless x hx hbit
    rw [v.mem_passed n hx, hmem]
    constructor
    · rintro (hin | hin)
      · exact .inl hin
      · exact (hmem x).mp (hharmless.strays x hin hx hbit)
    · rintro (hin | hin)
      · exact .inl hin
      · exact .inr (hharmless.skipped hin)
  · intro hall
    refine ⟨fun x hin hx hbit => ?_, fun x hin => ?_⟩
    · exact (hall x hx hbit).mp ((v.mem_passed n hx).mpr (.inr hin))
    · have howned := (hmem x).mpr (.inr hin)
      obtain ⟨hx, -, hbit⟩ := htree.used x howned
      apply ((v.mem_passed n hx).mp ((hall x hx hbit).mpr howned)).resolve_left
      intro hkept
      exact hdisjoint x hkept x hin rfl

end View

/-- `free_all_blocks_of_inode` releases the blocks of the inode and nothing else. -/
def FreesExactly (L : Layout) (d : Disk) (v : View) (n : ℕ) : Prop :=
  ∃ d' w, freeAllBlocksOfInode d (L.inodeAddress n) = .ok d' ∧ L.Shows d' w ∧
    v.Frees w (v.owned n)

theorem Layout.Shows.freesExactly_iff (h : L.Shows d v) (hn : L.IsInode n)
    (htree : v.BlockTree L n) (hfit : v.StraysFit L n) :
    FreesExactly L d v n ↔ v.Harmless n := by
  obtain ⟨d', hret, h'⟩ := h.freeAllBlocks_passed hn
    (hfit.walkable fun b hb => (htree.used b hb).2.1)
  have hfree : v.free .block < 2 ^ 32 := by
    rw [← h.2]
    exact get32_lt _ _
  have hgroup : v.groupFree .block < 2 ^ 16 := by
    rw [← h.2]
    exact get16_lt _ _
  rw [htree.harmless_iff, ← View.frees_iff hfree hgroup htree.once fun x hx =>
    ⟨(htree.used x hx).1, (htree.used x hx).2.2⟩]
  constructor
  · rintro ⟨d'', w, hret', hw, hfrees⟩
    obtain rfl : d' = d'' := Except.ok.inj (hret.symm.trans hret')
    rwa [h'.2.symm.trans hw.2]
  · exact fun hfrees => ⟨d', _, hret, h', hfrees⟩

/-- Strays that are numbers in the bitmap must be harmless, and then this is all
that matters. -/
theorem free_exact (h : L.Shows d v) (hn : L.IsInode n) (htree : v.BlockTree L n) :
    (v.StraysFit L n ∧ v.Harmless n → FreesExactly L d v n) ∧
      (v.StraysFit L n → FreesExactly L d v n → v.Harmless n) :=
  ⟨fun hboth => (h.freesExactly_iff hn htree hboth.1).mpr hboth.2,
    fun hfit => (h.freesExactly_iff hn htree hfit).mp⟩

/-! ## A sparse file -/

/-- The file in inode 12 has one block of data, the first behind its double
indirect block, and block 0 begins with the bytes `boot`. -/
def sparseDisk (boot : List Byte) : Disk where
  numBlocks := 16
  byte x :=
    match x / 1024 with
    | 0 => putBytes (fun _ => 0) 0 boot x
    | 1 => putBytes (fun _ => 0) sInodesCount
        (bytes32 16 ++ bytes32 16 ++ bytes32 0 ++ bytes32 5 ++ bytes32 4) x
    | 2 => putBytes (fun _ => 0) bgBlockBitmap
        (bytes32 3 ++ bytes32 4 ++ bytes32 5 ++ bytes16 5 ++ bytes16 4) x
    | 3 => putBytes (fun _ => 0) (1024 * 3) [0xFF#8, 0x83#8] x
    | 4 => putBytes (fun _ => 0) (1024 * 4) [0xFF#8, 0x0F#8] x
    | 5 => putInodes (fun _ => 0) (smallLayout.inodeAddress 2) [(ext2SIfdir, 2, 7)] x
    | 6 => putBytes (putInodes (fun _ => 0) (smallLayout.inodeAddress 12) [(ext2SIfreg, 1, 0)])
        (iBlock (smallLayout.inodeAddress 12) dbleIndirectBlock) (bytes32 8) x
    | 8 => putBytes (fun _ => 0) (1024 * 8) (bytes32 9) x
    | 9 => putBytes (fun _ => 0) (1024 * 9) (bytes32 10) x
    | _ => 0

def sparseView (boot : List Byte) : View := smallLayout.view (sparseDisk boot)

theorem sparse_shows (boot : List Byte) : smallLayout.Shows (sparseDisk boot) (sparseView boot) :=
  ⟨⟨rfl, rfl, rfl, rfl, rfl, rfl⟩, rfl⟩

theorem sparse_owned : ∀ boot ∈ [[], bytes32 7], (sparseView boot).owned 12 = [8, 9, 10] := by
  decide +kernel

theorem sparse_blockTree {boot : List Byte} (hboot : boot ∈ [[], bytes32 7]) :
    (sparseView boot).BlockTree smallLayout 12 := by
  have hall : ∀ boot ∈ [[], bytes32 7], ∀ b ∈ [8, 9, 10],
      b ≠ 0 ∧ smallLayout.IsPlain b ∧ (sparseView boot).bit .block (b - 1) = true := by
    decide
  have howned := sparse_owned boot hboot
  exact ⟨fun b hb => hall boot hboot b (howned ▸ hb), howned ▸ by decide⟩

/-- If block 0 is empty, the zeros do no harm. -/
theorem free_exact_sparse : ((sparseView []).StraysFit smallLayout 12 ∧
    (sparseView []).Harmless 12 → FreesExactly smallLayout (sparseDisk []) (sparseView []) 12) ∧
      ((sparseView []).StraysFit smallLayout 12 →
        FreesExactly smallLayout (sparseDisk []) (sparseView []) 12 →
          (sparseView []).Harmless 12) :=
  free_exact (sparse_shows []) (by decide) (sparse_blockTree (by simp))

/-- A number 7 at the beginning of block 0 is the block of the root directory. -/
theorem not_free_exact : ¬ ∀ (L : Layout) (d : Disk) (v : View) (n : ℕ), L.Shows d v →
    L.IsInode n → (v.inode n).mode = ext2SIfreg → v.BlockTree L n → FreesExactly L d v n := by
  intro h
  have htree := sparse_blockTree (show bytes32 7 ∈ [[], bytes32 7] by simp)
  have hstrays : (sparseView (bytes32 7)).strays 12 =
      (sparseView (bytes32 7)).doubleStrays 8 ++ [] := rfl
  have hmem : ∀ x, x ∈ (sparseView (bytes32 7)).strays 12 ↔
      x ∈ (sparseView (bytes32 7)).words 0 := by
    intro x
    rw [hstrays, List.append_nil, View.doubleStrays, List.mem_flatMap]
    constructor
    · rintro ⟨i, -, hx⟩
      split_ifs at hx with hzero
      · exact hx
      · exact absurd hx List.not_mem_nil
    · exact fun hx => ⟨1, by decide, by rwa [if_pos (by decide)]⟩
  have hwords : ∀ x ∈ (sparseView (bytes32 7)).words 0, x ≤ 8192 := by decide +kernel
  have hfit : (sparseView (bytes32 7)).StraysFit smallLayout 12 :=
    ⟨fun x hx => hwords x ((hmem x).mp hx), fun hne => absurd rfl hne⟩
  have hharmless := ((sparse_shows (bytes32 7)).freesExactly_iff (by decide) htree hfit).mp
    (h smallLayout _ _ 12 (sparse_shows (bytes32 7)) (by decide) rfl htree)
  have hin := hharmless.strays 7 ((hmem 7).mpr (View.mem_words.mpr ⟨0, by decide, rfl⟩)) (by decide)
    rfl
  rw [sparse_owned (bytes32 7) (by simp)] at hin
  exact absurd hin (by decide)

end KernelProgramming.Ext2
