import KernelProgramming.Ext2.MkdirLookup
import KernelProgramming.Library.Runs

/-!
# mkdir, when it fails

`ext2_mkdir` gives back the inode if there is no free block.  Once it has a
block for the new directory it can only fail because all slots of the directory
above are in use, and then the link count, this block and a wrong bit stay
changed.
-/

namespace KernelProgramming.Ext2

open ByteMemory

variable {L : Layout} {d d' : Disk} {v w : View} {n p code now inode : ℕ} {path name : CString}

/-- The command gets to the point where it takes an inode, for a directory in
the one with number `p`. -/
structure MkdirAccepts (d : Disk) (path : CString) (p : ℕ) : Prop where
  absolute : path.head? = some slash
  missing : findDirEntry d path = .ok none
  parent : findParentInode d path = .ok p ∧ p ≠ 0
  short : (findFileNameByPath path).length ≤ 1016

theorem ext2Mkdir_cases (hret : ext2Mkdir d path now = .ok (code, d')) :
    (∃ p, MkdirAccepts d path p ∧
      makeDirectory d p (findFileNameByPath path) now = .ok (code, d')) ∨
      (∀ p, ¬ MkdirAccepts d path p) ∧ d' = d ∧ code ≠ 0 := by
  unfold ext2Mkdir at hret
  by_cases habsolute : path.head? = some slash
  swap
  · rw [if_pos habsolute] at hret
    obtain ⟨rfl, rfl⟩ := Prod.mk.inj (Except.ok.inj hret)
    exact .inr ⟨fun p hp => habsolute hp.absolute, rfl, by decide⟩
  rw [if_neg (not_not.mpr habsolute)] at hret
  obtain ⟨r, hfind, hret⟩ := Runs.bind_eq_ok_iff.mp hret
  cases r with
  | some entry =>
      obtain ⟨rfl, rfl⟩ := Prod.mk.inj (Except.ok.inj hret)
      refine .inr ⟨fun p hp => ?_, rfl, by decide⟩
      exact absurd (hfind.symm.trans hp.missing) (by simp)
  | none =>
      obtain ⟨p, hparent, hret⟩ := Runs.bind_eq_ok_iff.mp hret
      simp only at hret
      split_ifs at hret with hzero hlong
      · obtain ⟨rfl, rfl⟩ := Prod.mk.inj (Except.ok.inj hret)
        refine .inr ⟨fun k hk => ?_, rfl, by decide⟩
        obtain rfl : p = k := Except.ok.inj (hparent.symm.trans hk.parent.1)
        exact hk.parent.2 hzero
      · obtain ⟨rfl, rfl⟩ := Prod.mk.inj (Except.ok.inj hret)
        refine .inr ⟨fun k hk => ?_, rfl, by decide⟩
        exact absurd hk.short (Nat.not_le_of_gt hlong)
      · exact .inl ⟨p, ⟨habsolute, hfind, ⟨hparent, hzero⟩, Nat.le_of_not_gt hlong⟩, hret⟩

namespace Layout

/-- What is marked as free at the end are not the things that were taken. -/
theorem Shows.growParent_fails (h : L.Shows d v) (hn : L.IsInode n)
    (hret : Ext2.growParent d inode n name = .ok (code, d')) (hcode : code ≠ 0) :
    ∃ w, L.Shows d' w ∧ w.inode = v.inode := by
  have hle : n ≤ 8192 := le_trans hn.2 L.inodesCount_le
  obtain ⟨d₁, v₁, hmark, h₁, hinode⟩ : ∃ d₁ v₁, updateBitmap d .block (findFreeBlock d) true =
      .ok d₁ ∧ L.Shows d₁ v₁ ∧ v₁.inode = v.inode := by
    by_cases hzero : findFreeBlock d = 0
    · exact ⟨d, v, by rw [updateBitmap, if_pos hzero], h, rfl⟩
    · obtain ⟨hpos, hle, -⟩ := View.mem_clear.mp (h.findFreeBlock_mem hzero)
      obtain ⟨d₁, hmark, h₁⟩ := h.updateBitmap_true .block hpos (le_trans hle (L.count_le .block))
      exact ⟨d₁, _, hmark, h₁, rfl⟩
  obtain ⟨d₂, hblock, h₂⟩ := h₁.updateBitmap_false .block hn.bounds.1 hle
  obtain ⟨d₃, hfree, h₃⟩ := h₂.updateBitmap_false .inode hn.bounds.1 hle
  simp only [Ext2.growParent, bind, Except.bind, hmark] at hret
  cases hslot : freeSlot d₁ inode with
  | some i =>
      simp only [hslot] at hret
      cases hptr : blockPtr (((d₁.setU32 (iBlock inode i) (findFreeBlock d)).setU32 (iBlocks inode)
          ((d₁.setU32 (iBlock inode i) (findFreeBlock d)).u32 (iBlocks inode) + 1)))
          (findFreeBlock d) with
      | error f => simp [hptr] at hret
      | ok a =>
          simp only [hptr] at hret
          exact absurd (congrArg Prod.fst (Except.ok.inj hret)).symm hcode
  | none =>
      simp only [hslot, hblock, hfree] at hret
      obtain rfl : d₃ = d' := congrArg Prod.snd (Except.ok.inj hret)
      exact ⟨_, h₃, hinode⟩

/-- The directory above keeps the link of the directory that is not made. -/
theorem Shows.makeDirectory_changed (h : L.Shows d v) (hc : v.Consistent L) (hp : v.Live L p)
    (havailable : ¬ v.Exhausted L) (hret : Ext2.makeDirectory d p name now = .ok (code, d'))
    (hcode : code ≠ 0) : ¬ Unchanged L d' v := by
  rw [h.exhausted_iff, not_or] at havailable
  obtain ⟨d₁, v₁, n, b, entries, hcreates, -, -, -, h₁, hmake⟩ :=
    h.beginDirectory hc hp havailable.1 havailable.2 name now
  rw [hmake] at hret
  have hn : L.IsInode n := ((hcreates.live n).mpr (.inl rfl)).1
  cases hput : allocateSpace d₁ (L.inodeAddress p) name.length n name ext2FtDir
      (List.range totalBlockCount) with
  | error f => simp [hput, bind, Except.bind] at hret
  | ok r =>
      obtain ⟨found, d₂⟩ := r
      cases found with
      | true =>
          simp only [hput, bind, Except.bind, if_true] at hret
          exact absurd (congrArg Prod.fst (Except.ok.inj hret)).symm hcode
      | false =>
          obtain rfl := allocateSpace_of_false hput
          simp only [hput, bind, Except.bind, Bool.false_eq_true, if_false] at hret
          obtain ⟨w, hw, hinode⟩ := h₁.growParent_fails hn hret hcode
          rw [hw.unchanged_iff]
          intro huntouched
          have hlinks := congrArg Inode.linksCount (huntouched.inode p hp)
          rw [hinode, View.inode_setInode] at hlinks
          have hlt := h.linksCount_lt hp.1
          change ((v.inode p).linksCount + 1) % 2 ^ 16 = (v.inode p).linksCount at hlinks
          omega

end Layout

theorem mkdir_fails (h : L.Shows d v) (hc : v.Consistent L)
    (hret : ext2Mkdir d path now = .ok (code, d')) (hcode : code ≠ 0) :
    ((∀ p, MkdirAccepts d path p → v.Exhausted L) → Unchanged L d' v) ∧
      (Unchanged L d' v → ∀ p, MkdirAccepts d path p → v.Live L p → v.Exhausted L) := by
  rcases ext2Mkdir_cases hret with ⟨p, haccepts, hmake⟩ | ⟨hrefuses, rfl, -⟩
  · refine ⟨fun hall => ?_, fun hunchanged k hk hlive => ?_⟩
    · obtain ⟨code', d'', hret', -, hunchanged⟩ :=
        h.makeDirectory_lacking hc (h.exhausted_iff.mp (hall p haccepts))
      obtain rfl : d'' = d' := congrArg Prod.snd (Except.ok.inj (hret'.symm.trans hmake))
      exact hunchanged
    · obtain rfl : p = k := Except.ok.inj (haccepts.parent.1.symm.trans hk.parent.1)
      by_contra havailable
      exact h.makeDirectory_changed hc hlive havailable hmake hcode hunchanged
  · exact ⟨fun _ => ⟨v, h, hc.untouched_self⟩, fun _ p hp => absurd hp (hrefuses p)⟩

/-! ## No block left -/

/-- The same volume as `smallDisk` with no free block. -/
def crowdedDisk : Disk :=
  ((smallDisk.copy (1024 * 3) [0xFF#8, 0xFF#8]).copy (sInodesCount + 12) (bytes32 0)).copy
    (bgBlockBitmap + 12) (bytes16 0)

def crowdedView : View := smallLayout.view crowdedDisk

theorem crowded_shows : smallLayout.Shows crowdedDisk crowdedView :=
  ⟨⟨rfl, by decide, by decide, by decide, by decide,
    by decide⟩, rfl⟩

def crowdedOwned (n : ℕ) : List ℕ := if n = 2 then [7] else []

theorem crowded_owned : ∀ n < 17, crowdedView.owned n = crowdedOwned n := by decide +kernel

theorem crowded_consistent : crowdedView.Consistent smallLayout :=
  View.consistent_of_table crowdedOwned crowded_owned (fun t => by cases t <;> decide)
    (by decide +kernel) (by decide +kernel) (by decide +kernel) (by decide +kernel)
    (by decide +kernel) (by decide +kernel) (by decide +kernel)

theorem mkdir_fails_crowded : ∃ d', ext2Mkdir crowdedDisk [slash, 0x61#8] 0 = .ok (enoent, d') ∧
    Unchanged smallLayout d' crowdedView := by
  obtain ⟨d', hret⟩ := exists_ok_of_map_fst (show
    (ext2Mkdir crowdedDisk [slash, 0x61#8] 0).map Prod.fst = .ok enoent by decide +kernel)
  exact ⟨d', hret, (mkdir_fails crowded_shows crowded_consistent hret (by decide)).1
    fun p _ => .inr (by decide)⟩

/-! ## A directory with all slots in use -/

/-- A volume of 780 blocks of which two are free. -/
def fullLayout : Layout := widerLayout 780 (by decide) (by decide)

/-- Entry `k` of the root directory; all but the first two name the file in
inode 12. -/
def fullEntry (k : ℕ) : List Byte :=
  match k with
  | 0 => entryBytes 2 256 ext2FtDir [dot]
  | 1 => entryBytes 2 256 ext2FtDir [dot, dot]
  | k => entryBytes 12 256 ext2FtRegFile [BitVec.ofNat 8 (0x40 + k)]

/-- The words of the blocks from 19 on that are not zero.  Blocks 19 to 21 are
pointer blocks whose words, taken for entries, tile the block. -/
def fullWords (b : ℕ) : List (ℕ × ℕ) :=
  if b = 19 then [(0, 22), (1, 760), (190, 23), (191, 264)]
  else if b = 20 then [(0, 24), (1, 764), (191, 25), (192, 260)]
  else if b = 21 then [(0, 26), (1, 768), (192, 27), (193, 256)]
  else if b ∈ [22, 760, 23, 264] then [(1, 1024)]
  else []

def fullWord (b i : ℕ) : ℕ := ((fullWords b).lookup i).getD 0

/-- The root directory has blocks 7 to 21 in its slots. -/
def fullDisk : Disk where
  numBlocks := 780
  byte x :=
    match x / 1024 with
    | 1 => putBytes (fun _ => 0) sInodesCount
        (bytes32 16 ++ bytes32 780 ++ bytes32 0 ++ bytes32 2 ++ bytes32 4) x
    | 2 => putBytes (fun _ => 0) bgBlockBitmap
        (bytes32 3 ++ bytes32 4 ++ bytes32 5 ++ bytes16 2 ++ bytes16 4) x
    | 3 => if x = 1024 * 3 + 3 then 0xE7#8 else 0xFF#8
    | 4 => putBytes (fun _ => 0) (1024 * 4) [0xFF#8, 0x0F#8] x
    | 5 => putBytes (putInodes (fun _ => 0) (fullLayout.inodeAddress 2) [(ext2SIfdir, 2, 0)])
        (iBlock (fullLayout.inodeAddress 2) 0)
        ((List.range totalBlockCount).flatMap fun i => bytes32 (7 + i)) x
    | 6 => putInodes (fun _ => 0) (fullLayout.inodeAddress 12) [(ext2SIfreg, 46, 0)] x
    | b =>
        if b < 19 then (fullEntry (x / 256 - 28)).getD (x % 256) 0
        else (bytes32 (fullWord b (x % 1024 / 4))).getD (x % 4) 0

def fullView : View := fullLayout.view fullDisk

theorem full_shows : fullLayout.Shows fullDisk fullView :=
  ⟨⟨rfl, by decide, by decide, by decide, by decide,
    by decide⟩, rfl⟩

theorem full_byte {x : ℕ} (hx : 19 ≤ x / 1024) : fullDisk.byte x =
    (bytes32 (fullWord (x / 1024) (x % 1024 / 4))).getD (x % 4) 0 := by
  simp only [fullDisk]
  split
  case h_7 => rw [if_neg (Nat.not_lt.mpr hx)]
  all_goals omega

theorem full_word {b i : ℕ} (hb : 19 ≤ b) (hplain : fullLayout.IsPlain b) (hi : i < 256)
    (hlt : fullWord b i < 2 ^ 32) : fullView.word b i = fullWord b i := by
  have hbyte : ∀ k < 4, fullView.byte (1024 * b + 4 * i + k) =
      putBytes (fun _ => 0) (1024 * b + 4 * i) (bytes32 (fullWord b i)) (1024 * b + 4 * i + k) := by
    intro k hk
    have hblock : (1024 * b + 4 * i + k) / 1024 = b := by omega
    have hword : (1024 * b + 4 * i + k) % 1024 / 4 = i := by omega
    have hrest : (1024 * b + 4 * i + k) % 4 = k := by omega
    rw [putBytes_apply (by simpa using hk)]
    change (if fullLayout.IsPlain ((1024 * b + 4 * i + k) / 1024) then
      fullDisk.byte (1024 * b + 4 * i + k) else 0) = _
    rw [if_pos (by rwa [hblock]), full_byte (by rwa [hblock]), hblock, hword, hrest,
      List.getD_eq_getElem?_getD, List.getElem?_eq_getElem, Option.getD_some]
  rw [View.word, get32_congr hbyte, get32_putBytes_same, Nat.mod_eq_of_lt hlt]

theorem full_word_eq {b i : ℕ} (hb : b ∈ [19, 20, 21, 24, 764, 25, 260, 26, 768, 27, 256])
    (hi : i < 256) : fullView.word b i = fullWord b i := by
  have hplain : ∀ b ∈ [19, 20, 21, 24, 764, 25, 260, 26, 768, 27, 256],
      19 ≤ b ∧ fullLayout.IsPlain b := by decide
  have hlt : ∀ b ∈ [19, 20, 21, 24, 764, 25, 260, 26, 768, 27, 256], ∀ i < 256,
      fullWord b i < 2 ^ 32 := by decide +kernel
  exact full_word (hplain b hb).1 (hplain b hb).2 hi (hlt b hb i hi)

/-- Nothing is behind the pointer blocks in the lower levels. -/
theorem full_tree_zero (depth : ℕ) {b : ℕ} (hb : b ∈ [0, 24, 764, 25, 260, 26, 768, 27, 256]) :
    fullView.tree depth b = (if b = 0 then [] else [b]) ∧
      (depth ≠ 0 → fullView.leaves depth b = []) := by
  cases depth with
  | zero => exact ⟨rfl, fun h => absurd rfl h⟩
  | succ depth =>
      rcases List.mem_cons.mp hb with rfl | hb
      · exact ⟨rfl, fun _ => rfl⟩
      have hword : ∀ i ∈ List.range numOfPtrsInBlock, fullView.word b i = 0 := by
        intro i hi
        have hall : ∀ b ∈ [24, 764, 25, 260, 26, 768, 27, 256], fullWords b = [] := by decide
        rw [full_word_eq (List.mem_of_mem_drop (show b ∈ [19, 20, 21, 24, 764, 25, 260, 26, 768,
          27, 256].drop 3 from hb)) (List.mem_range.mp hi), fullWord, hall b hb]
        rfl
      have hne : ∀ b ∈ [24, 764, 25, 260, 26, 768, 27, 256], b ≠ 0 := by decide
      rw [View.tree, View.leaves, if_neg (hne b hb), if_neg (hne b hb), if_neg (hne b hb)]
      constructor
      · rw [List.flatMap_eq_nil_iff.mpr fun i hi => by
          rw [hword i hi, (fullView.tree_zero depth).1]]
      · exact fun _ => List.flatMap_eq_nil_iff.mpr fun i hi => by
          rw [hword i hi, (fullView.tree_zero depth).2]

/-- The pointer blocks in the slots, with what is behind them in the next level. -/
theorem full_tree (depth : ℕ) {b : ℕ} (hb : b ∈ [19, 20, 21])
    (hnext : ∀ i < numOfPtrsInBlock, depth = 0 ∨
      fullWord b i ∈ [0, 24, 764, 25, 260, 26, 768, 27, 256]) :
    fullView.tree (depth + 1) b =
        b :: (List.range numOfPtrsInBlock).flatMap (fun i =>
          if fullWord b i = 0 then [] else [fullWord b i]) ∧
      fullView.leaves (depth + 1) b = if depth = 0 then
        (List.range numOfPtrsInBlock).flatMap (fun i =>
          if fullWord b i = 0 then [] else [fullWord b i]) else [] := by
  have hne : ∀ b ∈ [19, 20, 21], b ≠ 0 := by decide
  have hword : ∀ i ∈ List.range numOfPtrsInBlock, fullView.word b i = fullWord b i := fun i hi =>
    full_word_eq (List.mem_of_mem_take (show b ∈ [19, 20, 21, 24, 764, 25, 260, 26, 768, 27,
      256].take 3 from hb)) (List.mem_range.mp hi)
  rw [View.tree, View.leaves, if_neg (hne b hb), if_neg (hne b hb)]
  constructor
  · congr 1
    apply List.flatMap_congr
    intro i hi
    rw [hword i hi]
    rcases hnext i (List.mem_range.mp hi) with rfl | hzero
    · rfl
    · exact (full_tree_zero depth hzero).1
  · split_ifs with hdepth
    · subst hdepth
      apply List.flatMap_congr
      intro i hi
      rw [hword i hi]
      rfl
    · apply List.flatMap_eq_nil_iff.mpr
      intro i hi
      rw [hword i hi]
      exact (full_tree_zero depth ((hnext i (List.mem_range.mp hi)).resolve_left hdepth)).2 hdepth

def fullOwned (n : ℕ) : List ℕ :=
  if n = 2 then
    [7, 8, 9, 10, 11, 12, 13, 14, 15, 16, 17, 18, 19, 22, 760, 23, 264, 20, 24, 764, 25, 260,
      21, 26, 768, 27, 256]
  else []

def fullData : List ℕ := [7, 8, 9, 10, 11, 12, 13, 14, 15, 16, 17, 18, 22, 760, 23, 264]

theorem full_root : fullView.owned 2 = fullOwned 2 ∧ fullView.data 2 = fullData := by
  have hblock : ∀ i < totalBlockCount, (fullView.inode 2).block i = 7 + i := by decide
  have hnext : ∀ b ∈ [20, 21], ∀ i < numOfPtrsInBlock,
      fullWord b i ∈ [0, 24, 764, 25, 260, 26, 768, 27, 256] := by decide +kernel
  have hindirect := full_tree 0 (show 19 ∈ [19, 20, 21] by decide) fun _ _ => .inl rfl
  have hdouble := full_tree 1 (show 20 ∈ [19, 20, 21] by decide) fun i hi =>
    .inr (hnext 20 (by decide) i hi)
  have htriple := full_tree 2 (show 21 ∈ [19, 20, 21] by decide) fun i hi =>
    .inr (hnext 21 (by decide) i hi)
  have hslots : List.range totalBlockCount = List.range directBlockCount ++ [12, 13, 14] := rfl
  have hdirect : ∀ i ∈ List.range directBlockCount,
      fullView.tree (slotLevel i) ((fullView.inode 2).block i) = [7 + i] ∧
        fullView.leaves (slotLevel i) ((fullView.inode 2).block i) = [7 + i] := by
    intro i hi
    have hlt : i < directBlockCount := List.mem_range.mp hi
    have hlevel : slotLevel i = 0 := by
      unfold slotLevel
      omega
    rw [hlevel, hblock i (lt_trans hlt (by decide)), View.tree, View.leaves, if_neg (by omega)]
    exact ⟨rfl, rfl⟩
  rw [View.owned, View.data, hslots, List.flatMap_append, List.flatMap_append,
    List.flatMap_congr fun i hi => (hdirect i hi).1,
    List.flatMap_congr fun i hi => (hdirect i hi).2]
  simp only [List.flatMap_cons, List.flatMap_nil, hblock 12 (by decide), hblock 13 (by decide),
    hblock 14 (by decide)]
  change _ ++ (fullView.tree 1 19 ++ (fullView.tree 2 20 ++ (fullView.tree 3 21 ++ []))) = _ ∧
    _ ++ (fullView.leaves 1 19 ++ (fullView.leaves 2 20 ++ (fullView.leaves 3 21 ++ []))) = _
  rw [hindirect.1, hindirect.2, hdouble.1, hdouble.2, htriple.1, htriple.2]
  exact ⟨by decide, by decide⟩

theorem full_owned : ∀ n < 17, fullView.owned n = fullOwned n := by
  intro n hn
  by_cases hroot : n = 2
  · rw [hroot]
    exact full_root.1
  · have hzero : ∀ n < 17, n = 2 ∨ ∀ i < totalBlockCount, (fullView.inode n).block i = 0 := by
      decide
    rw [fullOwned, if_neg hroot]
    apply List.flatMap_eq_nil_iff.mpr
    intro i hi
    rw [((hzero n hn).resolve_left hroot) i (List.mem_range.mp hi)]
    exact (fullView.tree_zero _).1

theorem full_consistent : fullView.Consistent fullLayout := by
  have hdir : ∀ n < 17, (fullView.inode n).IsDirectory → n = 2 := by decide
  refine View.consistent_of_table fullOwned full_owned (fun t => by cases t <;> decide +kernel)
    (by decide +kernel) (by decide +kernel) (by decide +kernel) (by decide +kernel) ?_ ?_
    (by decide)
  · intro n hn hlive hisdir
    obtain rfl := hdir n hn hisdir
    rw [full_root.2]
    decide
  · intro n hn hlive hisdir
    obtain rfl := hdir n hn hisdir
    rw [View.files, full_root.2]
    decide

/-- A name of 254 bytes in the root directory. -/
def longPath : CString := slash :: List.replicate 254 0x61#8

theorem full_run : ∃ d', ext2Mkdir fullDisk longPath 0 = .ok (enospc, d') ∧
    d'.u16 (iLinksCount (fullLayout.inodeAddress rootInodeNumber)) = 3 :=
  exists_ok_of_map (by decide +kernel)

/-- The root directory is left with a link too many. -/
theorem mkdir_not_unchanged : ¬ ∀ (L : Layout) (d d' : Disk) (v : View) (path : CString)
    (code now : ℕ), L.Shows d v → v.Consistent L → path.head? = some slash → tokens path ≠ [] →
    ext2Mkdir d path now = .ok (code, d') → code ≠ 0 → Unchanged L d' v := by
  intro h
  obtain ⟨d', hret, hlinks⟩ := full_run
  obtain ⟨w, hw, huntouched⟩ := h fullLayout fullDisk d' fullView longPath enospc 0 full_shows
    full_consistent rfl (by decide +kernel) hret (by decide)
  rw [hw.iLinksCount_eq Layout.isInode_root,
    huntouched.inode rootInodeNumber full_consistent.root.1] at hlinks
  have htwo : (fullView.inode rootInodeNumber).linksCount = 2 := by decide
  omega

end KernelProgramming.Ext2
