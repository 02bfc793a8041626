import KernelProgramming.Ext2.Allocation
import KernelProgramming.Ext2.Directory

/-!
# Consistent volumes

The blocks that an inode owns through the block map, the entries of a
directory, and what makes a volume consistent.
-/

namespace KernelProgramming.Ext2

open ByteMemory

/-- How many levels of pointer blocks are behind slot `i` of an inode. -/
def slotLevel (i : ℕ) : ℕ := i + 1 - directBlockCount

def Inode.IsDirectory (inode : Inode) : Prop := inode.mode / 4096 = 4

instance (inode : Inode) : Decidable inode.IsDirectory := inferInstanceAs (Decidable (_ = _))

def Inode.DirectOnly (inode : Inode) : Prop :=
  ∀ i, directBlockCount ≤ i → i < totalBlockCount → inode.block i = 0

namespace View

variable {L : Layout} {v w : View} {n k b : ℕ}

/-! ## The block map -/

/-- The data blocks behind the number `b`, `depth` levels of pointer blocks
deep; 0 is a hole. -/
def leaves (v : View) : ℕ → ℕ → List ℕ
  | 0, b => if b = 0 then [] else [b]
  | depth + 1, b =>
      if b = 0 then []
      else (List.range numOfPtrsInBlock).flatMap fun i => v.leaves depth (v.word b i)

/-- The data blocks together with the pointer blocks. -/
def tree (v : View) : ℕ → ℕ → List ℕ
  | 0, b => if b = 0 then [] else [b]
  | depth + 1, b =>
      if b = 0 then []
      else b :: (List.range numOfPtrsInBlock).flatMap fun i => v.tree depth (v.word b i)

def data (v : View) (n : ℕ) : List ℕ :=
  (List.range totalBlockCount).flatMap fun i => v.leaves (slotLevel i) ((v.inode n).block i)

def owned (v : View) (n : ℕ) : List ℕ :=
  (List.range totalBlockCount).flatMap fun i => v.tree (slotLevel i) ((v.inode n).block i)

def SameBlock (v w : View) (b : ℕ) : Prop :=
  ∀ i < 1024, w.byte (1024 * b + i) = v.byte (1024 * b + i)

theorem leaves_subset_tree (v : View) (depth b : ℕ) : v.leaves depth b ⊆ v.tree depth b := by
  induction depth generalizing b with
  | zero => exact List.Subset.refl _
  | succ depth ih =>
      simp only [leaves, tree]
      split_ifs
      · exact List.Subset.refl _
      · apply List.subset_cons_of_subset b
        intro c hc
        obtain ⟨i, hi, hci⟩ := List.mem_flatMap.mp hc
        exact List.mem_flatMap.mpr ⟨i, hi, ih _ hci⟩

theorem data_subset_owned (v : View) (n : ℕ) : v.data n ⊆ v.owned n := by
  intro c hc
  obtain ⟨i, hi, hci⟩ := List.mem_flatMap.mp hc
  exact List.mem_flatMap.mpr ⟨i, hi, leaves_subset_tree v _ _ hci⟩

theorem word_congr (h : v.SameBlock w b) {i : ℕ} (hi : i < numOfPtrsInBlock) :
    w.word b i = v.word b i := by
  rw [numOfPtrsInBlock] at hi
  apply get32_congr
  intro j hj
  rw [Nat.add_assoc]
  exact h _ (by omega)

theorem tree_zero (v : View) (depth : ℕ) : v.tree depth 0 = [] ∧ v.leaves depth 0 = [] := by
  cases depth <;> exact ⟨rfl, rfl⟩

theorem tree_congr {depth : ℕ} (h : ∀ c ∈ v.tree depth b, v.SameBlock w c) :
    w.tree depth b = v.tree depth b ∧ w.leaves depth b = v.leaves depth b := by
  induction depth generalizing b with
  | zero => exact ⟨rfl, rfl⟩
  | succ depth ih =>
      by_cases hb : b = 0
      · simp [tree, leaves, hb]
      simp only [tree, leaves, if_neg hb] at h ⊢
      have hword : ∀ i ∈ List.range numOfPtrsInBlock, w.word b i = v.word b i := fun i hi =>
        word_congr (h b List.mem_cons_self) (List.mem_range.mp hi)
      have hsub : ∀ i ∈ List.range numOfPtrsInBlock,
          w.tree depth (v.word b i) = v.tree depth (v.word b i) ∧
            w.leaves depth (v.word b i) = v.leaves depth (v.word b i) := fun i hi =>
        ih fun c hc => h c (List.mem_cons_of_mem b (List.mem_flatMap.mpr ⟨i, hi, hc⟩))
      constructor
      · rw [List.flatMap_congr fun i hi => by rw [hword i hi, (hsub i hi).1]]
      · exact List.flatMap_congr fun i hi => by rw [hword i hi, (hsub i hi).2]

theorem owned_congr (hinode : (w.inode n).block = (v.inode n).block)
    (h : ∀ c ∈ v.owned n, v.SameBlock w c) : w.owned n = v.owned n ∧ w.data n = v.data n := by
  have hslot : ∀ i ∈ List.range totalBlockCount,
      w.tree (slotLevel i) ((v.inode n).block i) = v.tree (slotLevel i) ((v.inode n).block i) ∧
        w.leaves (slotLevel i) ((v.inode n).block i) =
          v.leaves (slotLevel i) ((v.inode n).block i) := fun i hi =>
    tree_congr fun c hc => h c (List.mem_flatMap.mpr ⟨i, hi, hc⟩)
  constructor
  · exact List.flatMap_congr fun i hi => by rw [hinode, (hslot i hi).1]
  · exact List.flatMap_congr fun i hi => by rw [hinode, (hslot i hi).2]

/-! ## Directories -/

def entriesOf (v : View) (b : ℕ) : List ℕ := (entries v.byte (1024 * b)).1

def TiledBlock (v : View) (b : ℕ) : Prop :=
  Tiled v.byte (1024 * b + 1024) (1024 * b) (v.entriesOf b)

instance : DecidablePred v.TiledBlock := fun _ => Tiled.decidable _ _

/-- The live entries of a directory. -/
def files (v : View) (n : ℕ) : List DirEntry := filesIn v.byte ((v.data n).flatMap v.entriesOf)

def lookup (v : View) (n : ℕ) (name : CString) : Option DirEntry :=
  (v.files n).find? fun e => e.name == name

/-- The entry that a path leads to: each component but the last one names a
directory. -/
def walk (v : View) : ℕ → List CString → Option DirEntry
  | _, [] => none
  | n, [name] => if (v.inode n).IsDirectory then v.lookup n name else none
  | n, name :: next :: rest =>
      if (v.inode n).IsDirectory then
        (v.lookup n name).bind fun e => v.walk e.inode (next :: rest)
      else none

def Live (L : Layout) (v : View) (n : ℕ) : Prop := L.IsInode n ∧ v.bit .inode (n - 1) = true

instance : DecidablePred (v.Live L) := fun _ => inferInstanceAs (Decidable (_ ∧ _))

/-- The bitmaps with their counters, the block map and the directories of the
volume fit together. -/
structure Consistent (L : Layout) (v : View) : Prop where
  counted : v.Counted L
  /-- the metadata and the padding of the block bitmap are marked -/
  reserved : ∀ b, 1 ≤ b → b ≤ L.blocksCount → ¬ L.IsPlain b → v.bit .block (b - 1) = true
  used : ∀ n, v.Live L n → ∀ b ∈ v.owned n, b ≠ 0 ∧ L.IsPlain b ∧ v.bit .block (b - 1) = true
  once : ∀ n, v.Live L n → (v.owned n).Nodup
  apart : ∀ n k, v.Live L n → v.Live L k → n ≠ k → ∀ b ∈ v.owned n, b ∉ v.owned k
  tiled : ∀ n, v.Live L n → (v.inode n).IsDirectory → ∀ b ∈ v.data n, v.TiledBlock b
  named : ∀ n, v.Live L n → (v.inode n).IsDirectory → ∀ e ∈ v.files n, v.Live L e.inode
  root : v.Live L rootInodeNumber ∧ (v.inode rootInodeNumber).IsDirectory

theorem entriesOf_congr (h : v.SameBlock w b) (htiled : v.TiledBlock b) :
    w.TiledBlock b ∧ w.entriesOf b = v.entriesOf b ∧
      filesIn w.byte (w.entriesOf b) = filesIn v.byte (v.entriesOf b) := by
  have hbyte : ∀ x, 1024 * b ≤ x → x < 1024 * b + 1024 → w.byte x = v.byte x := by
    intro x hx hx'
    obtain ⟨i, rfl⟩ := Nat.exists_eq_add_of_le hx
    exact h i (by omega)
  obtain ⟨htiled', hfiles⟩ := Tiled.congr htiled hbyte
  have heq : w.entriesOf b = v.entriesOf b := by rw [entriesOf, htiled'.entries_eq]
  refine ⟨?_, heq, by rw [heq, hfiles]⟩
  rw [TiledBlock, heq]
  exact htiled'

/-- A directory depends on the blocks that it owns. -/
theorem files_congr (hinode : (w.inode n).block = (v.inode n).block)
    (h : ∀ c ∈ v.owned n, v.SameBlock w c) (htiled : ∀ b ∈ v.data n, v.TiledBlock b) :
    (∀ b ∈ w.data n, w.TiledBlock b) ∧ w.files n = v.files n := by
  obtain ⟨-, hdata⟩ := owned_congr hinode h
  have hblock : ∀ b ∈ v.data n, w.TiledBlock b ∧ w.entriesOf b = v.entriesOf b ∧
      filesIn w.byte (w.entriesOf b) = filesIn v.byte (v.entriesOf b) := fun b hb =>
    entriesOf_congr (h b (data_subset_owned v n hb)) (htiled b hb)
  refine ⟨fun b hb => (hblock b (hdata ▸ hb)).1, ?_⟩
  rw [files, files, hdata]
  generalize v.data n = bs at hblock
  induction bs with
  | nil => rfl
  | cons b bs ih =>
      rw [List.flatMap_cons, List.flatMap_cons, filesIn_append, filesIn_append,
        (hblock b List.mem_cons_self).2.2, ih fun c hc => hblock c (List.mem_cons_of_mem b hc)]

/-! ## Changes that concern one inode -/

/-- Inode `k` keeps its mode, its block numbers and the bytes of its blocks. -/
structure Keeps (v w : View) (k : ℕ) : Prop where
  mode : (w.inode k).mode = (v.inode k).mode
  block : (w.inode k).block = (v.inode k).block
  same : ∀ c ∈ v.owned k, v.SameBlock w c

theorem Keeps.owned_eq (h : v.Keeps w k) : w.owned k = v.owned k := (owned_congr h.block h.same).1

theorem Keeps.data_eq (h : v.Keeps w k) : w.data k = v.data k := (owned_congr h.block h.same).2

theorem Keeps.isDirectory_iff (h : v.Keeps w k) :
    (w.inode k).IsDirectory ↔ (v.inode k).IsDirectory := by
  unfold Inode.IsDirectory
  rw [h.mode]

theorem Keeps.directOnly (h : v.Keeps w k) (hdirect : (v.inode k).DirectOnly) :
    (w.inode k).DirectOnly := fun i hi hi' => by
  rw [h.block]
  exact hdirect i hi hi'

theorem Keeps.files_eq (h : v.Keeps w k) (hc : v.Consistent L) (hk : v.Live L k)
    (hdir : (v.inode k).IsDirectory) :
    (∀ b ∈ w.data k, w.TiledBlock b) ∧ w.files k = v.files k :=
  files_congr h.block h.same (hc.tiled k hk hdir)

/-- The number of links is nothing that consistency depends on. -/
theorem keeps_setLinks (v : View) (p x k : ℕ) :
    v.Keeps (v.setInode p { v.inode p with linksCount := x }) k := by
  by_cases hk : k = p
  · subst hk
    exact ⟨by rw [inode_setInode], by rw [inode_setInode], fun _ _ _ _ => rfl⟩
  · exact ⟨by rw [inode_setInode_of_ne hk], by rw [inode_setInode_of_ne hk], fun _ _ _ _ => rfl⟩

/-- What a change that concerns only inode `p` has to respect. -/
structure Replaces (L : Layout) (v w : View) (p : ℕ) : Prop where
  counted : w.Counted L
  marked : ∀ b, b ≠ 0 → v.bit .block (b - 1) = true → (v.Live L p → b ∉ v.owned p) →
    w.bit .block (b - 1) = true
  live : ∀ k, k ≠ p → (w.Live L k ↔ v.Live L k)
  keeps : ∀ k, k ≠ p → v.Live L k → v.Keeps w k
  used : w.Live L p → ∀ b ∈ w.owned p, b ≠ 0 ∧ L.IsPlain b ∧ w.bit .block (b - 1) = true
  once : w.Live L p → (w.owned p).Nodup
  apart : w.Live L p → ∀ k, k ≠ p → v.Live L k → ∀ b ∈ w.owned p, b ∉ v.owned k
  tiled : w.Live L p → (w.inode p).IsDirectory → ∀ b ∈ w.data p, w.TiledBlock b
  named : w.Live L p → (w.inode p).IsDirectory → ∀ e ∈ w.files p, w.Live L e.inode
  still : v.Live L p → w.Live L p ∨ ∀ k, k ≠ p → v.Live L k → (v.inode k).IsDirectory →
    ∀ e ∈ v.files k, e.inode ≠ p
  root : p = rootInodeNumber → w.Live L p ∧ (w.inode p).IsDirectory

theorem Consistent.replace {p : ℕ} (hc : v.Consistent L) (h : Replaces L v w p) :
    w.Consistent L where
  counted := h.counted
  reserved b hb hle hplain :=
    h.marked b (Nat.ne_of_gt hb) (hc.reserved b hb hle hplain) fun hp hin =>
      hplain (hc.used p hp b hin).2.1
  used n hn b hb := by
    by_cases hnp : n = p
    · subst hnp
      exact h.used hn b hb
    · have hv := (h.live n hnp).mp hn
      rw [(h.keeps n hnp hv).owned_eq] at hb
      obtain ⟨hne, hplain, hbit⟩ := hc.used n hv b hb
      exact ⟨hne, hplain, h.marked b hne hbit fun hp => hc.apart n p hv hp hnp b hb⟩
  once n hn := by
    by_cases hnp : n = p
    · subst hnp
      exact h.once hn
    · have hv := (h.live n hnp).mp hn
      rw [(h.keeps n hnp hv).owned_eq]
      exact hc.once n hv
  apart n k hn hk hne b hb := by
    by_cases hnp : n = p
    · subst hnp
      have hv := (h.live k hne.symm).mp hk
      rw [(h.keeps k hne.symm hv).owned_eq]
      exact h.apart hn k hne.symm hv b hb
    · have hv := (h.live n hnp).mp hn
      rw [(h.keeps n hnp hv).owned_eq] at hb
      by_cases hkp : k = p
      · subst hkp
        exact fun hin => h.apart hk n hnp hv b hin hb
      · have hv' := (h.live k hkp).mp hk
        rw [(h.keeps k hkp hv').owned_eq]
        exact hc.apart n k hv hv' hne b hb
  tiled n hn hdir := by
    by_cases hnp : n = p
    · subst hnp
      exact h.tiled hn hdir
    · have hv := (h.live n hnp).mp hn
      have hkeeps := h.keeps n hnp hv
      exact (hkeeps.files_eq hc hv (hkeeps.isDirectory_iff.mp hdir)).1
  named n hn hdir e he := by
    by_cases hnp : n = p
    · subst hnp
      exact h.named hn hdir e he
    · have hv := (h.live n hnp).mp hn
      have hkeeps := h.keeps n hnp hv
      have hdir' := hkeeps.isDirectory_iff.mp hdir
      rw [(hkeeps.files_eq hc hv hdir').2] at he
      have hlive := hc.named n hv hdir' e he
      by_cases hep : e.inode = p
      · rw [hep] at hlive ⊢
        exact (h.still hlive).resolve_right fun hnone => hnone n hnp hv hdir' e he hep
      · exact (h.live _ hep).mpr hlive
  root := by
    by_cases hroot : p = rootInodeNumber
    · rw [← hroot]
      exact h.root hroot
    · have hne := Ne.symm hroot
      refine ⟨(h.live _ hne).mpr hc.root.1, ?_⟩
      exact (h.keeps _ hne hc.root.1).isDirectory_iff.mpr hc.root.2

end View

/-! ## Small volumes -/

/-- It is enough to look at the numbers of the inodes and of the blocks one
after the other, if it is known which blocks the inodes own. -/
theorem View.consistent_of_table {L : Layout} {v : View} (own : ℕ → List ℕ)
    (howned : ∀ n < L.inodesCount + 1, v.owned n = own n) (hcounted : v.Counted L)
    (hreserved : ∀ b < L.blocksCount + 1, 1 ≤ b → ¬ L.IsPlain b → v.bit .block (b - 1) = true)
    (hused : ∀ n < L.inodesCount + 1, ∀ b ∈ own n,
      b ≠ 0 ∧ L.IsPlain b ∧ v.bit .block (b - 1) = true)
    (honce : ∀ n < L.inodesCount + 1, (own n).Nodup)
    (hapart : ∀ n < L.inodesCount + 1, ∀ k < L.inodesCount + 1, n = k ∨ ∀ b ∈ own n, b ∉ own k)
    (htiled : ∀ n < L.inodesCount + 1, v.Live L n → (v.inode n).IsDirectory →
      ∀ b ∈ v.data n, v.TiledBlock b)
    (hnamed : ∀ n < L.inodesCount + 1, v.Live L n → (v.inode n).IsDirectory →
      ∀ e ∈ v.files n, v.Live L e.inode)
    (hroot : v.Live L rootInodeNumber ∧ (v.inode rootInodeNumber).IsDirectory) :
    v.Consistent L := by
  have hlt : ∀ {n}, v.Live L n → n < L.inodesCount + 1 := fun hn => Nat.lt_succ_of_le hn.1.2
  refine ⟨hcounted, fun b hb hle => hreserved b (Nat.lt_succ_of_le hle) hb, fun n hn b hb => ?_,
    fun n hn => ?_, fun n k hn hk hne b hb => ?_, fun n hn => htiled n (hlt hn) hn,
    fun n hn => hnamed n (hlt hn) hn, hroot⟩
  · exact hused n (hlt hn) b (howned n (hlt hn) ▸ hb)
  · rw [howned n (hlt hn)]
    exact honce n (hlt hn)
  · rw [howned n (hlt hn)] at hb
    rw [howned k (hlt hk)]
    exact (hapart n (hlt hn) k (hlt hk)).resolve_left hne b hb

/-- The fields of an entry, as far as its name. -/
def entryBytes (inode length fileType : ℕ) (name : CString) : List Byte :=
  bytes32 inode ++ bytes16 length ++ [BitVec.ofNat 8 name.length, BitVec.ofNat 8 fileType] ++ name

/-- The inodes from the one at `inode` on, with their modes, links and blocks. -/
def putInodes (m : ℕ → Byte) (inode : ℕ) : List (ℕ × ℕ × ℕ) → ℕ → Byte
  | [] => m
  | (mode, links, block) :: rest =>
      putBytes (putBytes (putBytes (putInodes m (inode + 128) rest) (iMode inode) (bytes16 mode))
        (iLinksCount inode) (bytes16 links)) (iBlock inode 0) (bytes32 block)

/-- A volume of 16 blocks with an empty root directory. -/
def smallLayout : Layout where
  blocksCount := 16
  inodesCount := 16
  blockBitmap := 3
  inodeBitmap := 4
  inodeTable := 5
  blocksCount_le := by decide
  inodesCount_le := by decide
  root_le := by decide
  blockBitmap_ge := by decide
  inodeBitmap_ge := by decide
  inodeTable_ge := by decide
  blockBitmap_lt := by decide
  inodeBitmap_lt := by decide
  tableEnd_le := by decide
  bitmaps_ne := by decide
  blockBitmap_apart := by decide
  inodeBitmap_apart := by decide

/-- The same with `n` blocks. -/
def widerLayout (n : ℕ) (hlow : 16 ≤ n) (hhigh : n ≤ 8192) : Layout :=
  { smallLayout with
    blocksCount := n
    blocksCount_le := hhigh
    blockBitmap_lt := smallLayout.blockBitmap_lt.trans_le hlow
    inodeBitmap_lt := smallLayout.inodeBitmap_lt.trans_le hlow
    tableEnd_le := smallLayout.tableEnd_le.trans hlow }

def smallDisk : Disk :=
  let d : Disk := ⟨16, fun _ => 0⟩
  let d := d.copy sInodesCount (bytes32 16 ++ bytes32 16 ++ bytes32 0 ++ bytes32 8 ++ bytes32 5)
  let d := d.copy bgBlockBitmap (bytes32 3 ++ bytes32 4 ++ bytes32 5 ++ bytes16 8 ++ bytes16 5)
  let d := d.copy (1024 * 3) [0x7F#8, 0x80#8]
  let d := d.copy (1024 * 4) [0xFF#8, 0x07#8]
  let root := smallLayout.inodeAddress rootInodeNumber
  let d := d.copy (iMode root) (bytes16 ext2SIfdir)
  let d := d.copy (iLinksCount root) (bytes16 2 ++ bytes32 1)
  let d := d.copy (iBlock root 0) (bytes32 7)
  d.copy (1024 * 7) (bytes32 2 ++ bytes16 12 ++ [1#8, 2#8, dot, 0#8, 0#8, 0#8] ++
    bytes32 2 ++ bytes16 1012 ++ [2#8, 2#8, dot, dot])

def smallView : View := smallLayout.view smallDisk

theorem small_shows : smallLayout.Shows smallDisk smallView :=
  ⟨⟨rfl, by decide, by decide, by decide, by decide,
    by decide⟩, rfl⟩

theorem small_block {n i : ℕ} (hn : n ≠ 2) (hi : i < totalBlockCount) :
    (smallView.inode n).block i = 0 := by
  by_cases hin : smallLayout.IsInode n
  · obtain ⟨hpos, hle⟩ := hin
    change n ≤ 16 at hle
    have hbyte : ∀ x, 5120 ≤ x → x < 5248 ∨ 5376 ≤ x → x < 7168 → smallDisk.byte x = 0 := by
      intro x hge hout hlt
      simp only [smallDisk, Disk.copy]
      repeat rw [putBytes_of_disjoint (by
        simp [sInodesCount, bgBlockBitmap, iMode, iLinksCount, iBlock, Layout.inodeAddress,
          smallLayout, rootInodeNumber]; omega)]
    rw [← small_shows.iBlock_eq ⟨hpos, hle⟩ hi]
    rw [totalBlockCount] at hi
    have hzero : smallDisk.u32 (iBlock (smallLayout.inodeAddress n) i) = get32 (fun _ => 0) 0 :=
      get32_congr fun j hj => by
        refine hbyte _ ?_ ?_ ?_ <;> simp only [iBlock, Layout.inodeAddress, smallLayout] <;> omega
    rw [hzero]
    rfl
  · have hnone : smallView.inode n = ⟨0, 0, 0, 0, 0, fun _ => 0⟩ := if_neg hin
    rw [hnone]

theorem small_owned (n : ℕ) : smallView.owned n = if n = 2 then [7] else [] := by
  by_cases hn : n = 2
  · subst hn
    decide
  · rw [if_neg hn, View.owned, List.flatMap_eq_nil_iff]
    intro i hi
    rw [small_block hn (List.mem_range.mp hi)]
    exact (smallView.tree_zero _).1

theorem small_files : smallView.files 2 = [⟨[dot], 2, 2⟩, ⟨[dot, dot], 2, 2⟩] := by decide +kernel

theorem small_consistent : smallView.Consistent smallLayout where
  counted t := by cases t <;> decide
  reserved b hb hle hplain := by
    have hall : ∀ b < 17, 1 ≤ b → ¬ smallLayout.IsPlain b →
        smallView.bit .block (b - 1) = true := by
      decide
    exact hall b (Nat.lt_succ_of_le hle) hb hplain
  used n _ b hb := by
    rw [small_owned] at hb
    split_ifs at hb with hn
    · obtain rfl := List.mem_singleton.mp hb
      decide
    · exact absurd hb List.not_mem_nil
  once n _ := by
    rw [small_owned]
    split_ifs <;> simp
  apart n k _ _ hne b hb hb' := by
    rw [small_owned] at hb hb'
    split_ifs at hb hb' with hn hk
    · exact hne (hn.trans hk.symm)
    · exact absurd hb' List.not_mem_nil
    · exact absurd hb List.not_mem_nil
    · exact absurd hb List.not_mem_nil
  tiled n _ _ b hb := by
    have hb' := View.data_subset_owned _ _ hb
    rw [small_owned] at hb'
    split_ifs at hb' with hn
    · obtain rfl := List.mem_singleton.mp hb'
      decide
    · exact absurd hb' List.not_mem_nil
  named n _ _ e he := by
    by_cases hn : n = 2
    · subst hn
      rw [small_files] at he
      simp only [List.mem_cons, List.not_mem_nil, or_false] at he
      rcases he with rfl | rfl <;> decide
    · have hnone : smallView.data n = [] := List.subset_nil.mp fun b hb => by
        have hb' := View.data_subset_owned _ _ hb
        rwa [small_owned, if_neg hn] at hb'
      rw [View.files, hnone] at he
      exact absurd he List.not_mem_nil
  root := by decide

/-! ## A volume with room for a larger file -/

/-- A volume of 32 blocks with an empty root directory. -/
def wideLayout : Layout := widerLayout 32 (by decide) (by decide)

def wideDisk : Disk where
  numBlocks := 32
  byte x :=
    match x / 1024 with
    | 1 => putBytes (fun _ => 0) sInodesCount
        (bytes32 16 ++ bytes32 32 ++ bytes32 0 ++ bytes32 24 ++ bytes32 5) x
    | 2 => putBytes (fun _ => 0) bgBlockBitmap
        (bytes32 3 ++ bytes32 4 ++ bytes32 5 ++ bytes16 24 ++ bytes16 5) x
    | 3 => putBytes (fun _ => 0) (1024 * 3) [0x7F#8, 0#8, 0#8, 0x80#8] x
    | 4 => putBytes (fun _ => 0) (1024 * 4) [0xFF#8, 0x07#8] x
    | 5 => putInodes (fun _ => 0) (wideLayout.inodeAddress 2) [(ext2SIfdir, 2, 7)] x
    | 7 => putBytes (fun _ => 0) (1024 * 7) (entryBytes 2 12 ext2FtDir [dot] ++ [0#8, 0#8, 0#8] ++
        entryBytes 2 1012 ext2FtDir [dot, dot]) x
    | _ => 0

def wideView : View := wideLayout.view wideDisk

theorem wide_shows : wideLayout.Shows wideDisk wideView :=
  ⟨⟨rfl, by decide, by decide, by decide, by decide,
    by decide⟩, rfl⟩

def wideOwned (n : ℕ) : List ℕ := if n = 2 then [7] else []

theorem wide_owned : ∀ n < 17, wideView.owned n = wideOwned n := by decide

theorem wide_consistent : wideView.Consistent wideLayout :=
  View.consistent_of_table wideOwned wide_owned (fun t => by cases t <;> decide)
    (by decide) (by decide) (by decide) (by decide)
    (by decide) (by decide) (by decide)

/-- A file of thirteen blocks, which needs a pointer block. -/
def thirteenBlocks : List Byte := List.replicate 12289 0x61#8

theorem length_thirteenBlocks : thirteenBlocks.length = 12289 := List.length_replicate

end KernelProgramming.Ext2
