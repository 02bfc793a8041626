import Mathlib.Logic.Function.Basic
import Mathlib.Tactic.Common
import KernelProgramming.Ext2.General

/-!
# The volume in the image

With a sane layout of superblock, group descriptor, bitmaps and inode table,
the image is a pair of bitmaps with their counters, a table of inodes, and the
bytes of all other blocks.  Every access of the tools is one to this view.
-/

namespace KernelProgramming.Ext2

open ByteMemory

/-- Where the metadata of a volume of a single group are. -/
structure Layout where
  blocksCount : ℕ
  inodesCount : ℕ
  blockBitmap : ℕ
  inodeBitmap : ℕ
  inodeTable : ℕ
  blocksCount_le : blocksCount ≤ 8192
  inodesCount_le : inodesCount ≤ 8192
  root_le : ext2GoodOldFirstIno ≤ inodesCount
  blockBitmap_ge : 3 ≤ blockBitmap
  inodeBitmap_ge : 3 ≤ inodeBitmap
  inodeTable_ge : 3 ≤ inodeTable
  blockBitmap_lt : blockBitmap < blocksCount
  inodeBitmap_lt : inodeBitmap < blocksCount
  tableEnd_le : inodeTable + (inodesCount + 7) / 8 ≤ blocksCount
  bitmaps_ne : blockBitmap ≠ inodeBitmap
  blockBitmap_apart : blockBitmap < inodeTable ∨ inodeTable + (inodesCount + 7) / 8 ≤ blockBitmap
  inodeBitmap_apart : inodeBitmap < inodeTable ∨ inodeTable + (inodesCount + 7) / 8 ≤ inodeBitmap

/-- The fields of an inode that the tools read. -/
@[ext] structure Inode where
  mode : ℕ
  size : ℕ
  dtime : ℕ
  linksCount : ℕ
  blocks : ℕ
  block : ℕ → ℕ

def inodeAt (m : ℕ → Byte) (inode : ℕ) : Inode where
  mode := get16 m (iMode inode)
  size := get32 m (iSize inode)
  dtime := get32 m (iDtime inode)
  linksCount := get16 m (iLinksCount inode)
  blocks := get32 m (iBlocks inode)
  block i := if i < totalBlockCount then get32 m (iBlock inode i) else 0

/-- What the tools see of a volume. -/
@[ext] structure View where
  free : BitmapType → ℕ
  groupFree : BitmapType → ℕ
  bit : BitmapType → ℕ → Bool
  inode : ℕ → Inode
  byte : ℕ → Byte

def View.setInode (v : View) (n : ℕ) (inode : Inode) : View :=
  { v with inode := Function.update v.inode n inode }

namespace Layout

variable (L : Layout)

def bitmap : BitmapType → ℕ
  | .block => L.blockBitmap
  | .inode => L.inodeBitmap

def inodeAddress (n : ℕ) : ℕ := 1024 * L.inodeTable + 128 * (n - 1)

/-- A block without metadata. -/
def IsPlain (b : ℕ) : Prop :=
  b < L.blocksCount ∧ b ≠ 1 ∧ b ≠ 2 ∧ b ≠ L.blockBitmap ∧ b ≠ L.inodeBitmap ∧
    ¬ (L.inodeTable ≤ b ∧ b < L.inodeTable + (L.inodesCount + 7) / 8)

instance : DecidablePred L.IsPlain := fun _ => inferInstanceAs (Decidable (_ ∧ _))

def IsInode (n : ℕ) : Prop := 1 ≤ n ∧ n ≤ L.inodesCount

instance : DecidablePred L.IsInode := fun _ => inferInstanceAs (Decidable (_ ∧ _))

def view (d : Disk) : View where
  free t := d.u32 (freeCount t)
  groupFree t := d.u16 (groupFreeCount t)
  bit t i := if i < 8192 then (d.byte (1024 * L.bitmap t + i / 8)).getLsbD (i % 8) else false
  inode n := if L.IsInode n then inodeAt d.byte (L.inodeAddress n) else ⟨0, 0, 0, 0, 0, fun _ => 0⟩
  byte a := if L.IsPlain (a / 1024) then d.byte a else 0

/-- The superblock and the group descriptor of the image give this layout. -/
structure Describes (d : Disk) : Prop where
  numBlocks_eq : d.numBlocks = L.blocksCount
  blocksCount_eq : d.u32 sBlocksCount = L.blocksCount
  inodesCount_eq : d.u32 sInodesCount = L.inodesCount
  blockBitmap_eq : d.u32 bgBlockBitmap = L.blockBitmap
  inodeBitmap_eq : d.u32 bgInodeBitmap = L.inodeBitmap
  inodeTable_eq : d.u32 bgInodeTable = L.inodeTable

/-- The image holds the volume `v`. -/
def Shows (d : Disk) (v : View) : Prop := L.Describes d ∧ L.view d = v

theorem bitmap_bounds (t : BitmapType) :
    3 ≤ L.bitmap t ∧ L.bitmap t < L.blocksCount ∧
      (L.bitmap t < L.inodeTable ∨ L.inodeTable + (L.inodesCount + 7) / 8 ≤ L.bitmap t) := by
  cases t with
  | block => exact ⟨L.blockBitmap_ge, L.blockBitmap_lt, L.blockBitmap_apart⟩
  | inode => exact ⟨L.inodeBitmap_ge, L.inodeBitmap_lt, L.inodeBitmap_apart⟩

theorem inodeAddress_bounds {n : ℕ} (hn : L.IsInode n) :
    1024 * L.inodeTable ≤ L.inodeAddress n ∧
      L.inodeAddress n + 128 ≤ 1024 * (L.inodeTable + (L.inodesCount + 7) / 8) := by
  obtain ⟨h₁, h₂⟩ := hn
  unfold inodeAddress
  omega

end Layout

/-! ## Images that agree on a part of the bytes -/

/-- The images differ at most at addresses with `P`. -/
structure SameBut (P : ℕ → Prop) (d d' : Disk) : Prop where
  numBlocks_eq : d'.numBlocks = d.numBlocks
  byte_eq : ∀ a, ¬ P a → d'.byte a = d.byte a

theorem SameBut.mono {P Q : ℕ → Prop} {d d' : Disk} (h : SameBut P d d') (hPQ : ∀ a, P a → Q a) :
    SameBut Q d d' :=
  ⟨h.numBlocks_eq, fun a ha => h.byte_eq a fun hP => ha (hPQ a hP)⟩

theorem SameBut.trans {P : ℕ → Prop} {d d' d'' : Disk} (h : SameBut P d d')
    (h' : SameBut P d' d'') : SameBut P d d'' :=
  ⟨h'.numBlocks_eq.trans h.numBlocks_eq, fun a ha => (h'.byte_eq a ha).trans (h.byte_eq a ha)⟩

theorem SameBut.blockPtr_eq {P : ℕ → Prop} {d d' : Disk} (h : SameBut P d d') (b : ℕ) :
    blockPtr d' b = blockPtr d b := by
  rw [blockPtr, blockPtr, follow, follow, h.numBlocks_eq]

theorem SameBut.u32 {P : ℕ → Prop} {d d' : Disk} (h : SameBut P d d') {a : ℕ}
    (ha : ∀ i < 4, ¬ P (a + i)) : d'.u32 a = d.u32 a :=
  get32_congr fun i hi => h.byte_eq _ (ha i hi)

theorem SameBut.u16 {P : ℕ → Prop} {d d' : Disk} (h : SameBut P d d') {a : ℕ}
    (ha : ∀ i < 2, ¬ P (a + i)) : d'.u16 a = d.u16 a :=
  get16_congr fun i hi => h.byte_eq _ (ha i hi)

def Within (a n x : ℕ) : Prop := a ≤ x ∧ x < a + n

theorem sameBut_copy (d : Disk) (a : ℕ) (s : List Byte) :
    SameBut (Within a s.length) d (d.copy a s) :=
  ⟨rfl, fun x hx => putBytes_of_disjoint (by unfold Within at hx; omega) _⟩

theorem inodeAt_congr {m m' : ℕ → Byte} {inode : ℕ} (h : ∀ a, Within inode 128 a → m' a = m a) :
    inodeAt m' inode = inodeAt m inode := by
  have h32 : ∀ k, k + 4 ≤ 128 → get32 m' (inode + k) = get32 m (inode + k) := fun k hk =>
    get32_congr fun i hi => h _ ⟨by omega, by omega⟩
  have h16 : ∀ k, k + 2 ≤ 128 → get16 m' (inode + k) = get16 m (inode + k) := fun k hk =>
    get16_congr fun i hi => h _ ⟨by omega, by omega⟩
  ext i
  · exact h16 0 (by omega)
  · exact h32 4 (by omega)
  · exact h32 20 (by omega)
  · exact h16 26 (by omega)
  · exact h32 28 (by omega)
  · simp only [inodeAt]
    split
    · next hi =>
        rw [totalBlockCount] at hi
        simpa [iBlock, Nat.add_assoc] using h32 (40 + 4 * i) (by omega)
    · rfl

namespace Layout

variable {L : Layout} {d d' : Disk} {v : View}

/-- Superblock and group descriptor are outside of the plain blocks, of the
bitmaps and of the inode table. -/
theorem Describes.of_sameBut {P : ℕ → Prop} (h : L.Describes d) (hsame : SameBut P d d')
    (hP : ∀ a, P a → ¬ (1024 ≤ a ∧ a < 1036) ∧ ¬ (2048 ≤ a ∧ a < 2060)) : L.Describes d' where
  numBlocks_eq := hsame.numBlocks_eq.trans h.numBlocks_eq
  blocksCount_eq := (hsame.u32 fun i hi hx => by
    have := hP _ hx
    unfold sBlocksCount at this
    omega).trans h.blocksCount_eq
  inodesCount_eq := (hsame.u32 fun i hi hx => by
    have := hP _ hx
    unfold sInodesCount at this
    omega).trans h.inodesCount_eq
  blockBitmap_eq := (hsame.u32 fun i hi hx => by
    have := hP _ hx
    unfold bgBlockBitmap at this
    omega).trans h.blockBitmap_eq
  inodeBitmap_eq := (hsame.u32 fun i hi hx => by
    have := hP _ hx
    unfold bgInodeBitmap at this
    omega).trans h.inodeBitmap_eq
  inodeTable_eq := (hsame.u32 fun i hi hx => by
    have := hP _ hx
    unfold bgInodeTable at this
    omega).trans h.inodeTable_eq

theorem view_free_of_sameBut {P : ℕ → Prop} (hsame : SameBut P d d')
    (hP : ∀ a, P a → ¬ (1024 ≤ a ∧ a < 3072)) :
    (L.view d').free = (L.view d).free ∧ (L.view d').groupFree = (L.view d).groupFree := by
  constructor
  · funext t
    refine hsame.u32 fun i hi hx => hP _ hx ?_
    cases t <;> simp only [freeCount, sFreeBlocksCount, sFreeInodesCount] <;> omega
  · funext t
    refine hsame.u16 fun i hi hx => hP _ hx ?_
    cases t <;> simp only [groupFreeCount, bgFreeBlocksCount, bgFreeInodesCount] <;> omega

theorem view_bit_of_sameBut {P : ℕ → Prop} (hsame : SameBut P d d') (t : BitmapType)
    (hP : ∀ a, P a → a / 1024 ≠ L.bitmap t) : (L.view d').bit t = (L.view d).bit t := by
  funext i
  simp only [view]
  split
  · rw [hsame.byte_eq _ fun hx => hP _ hx (by omega)]
  · rfl

theorem view_inode_of_sameBut {P : ℕ → Prop} (hsame : SameBut P d d') {n : ℕ}
    (hP : ∀ a, P a → ¬ Within (L.inodeAddress n) 128 a) :
    (L.view d').inode n = (L.view d).inode n := by
  simp only [view]
  split
  · exact inodeAt_congr fun a ha => hsame.byte_eq a fun hx => hP a hx ha
  · rfl

theorem view_byte_of_sameBut {P : ℕ → Prop} (hsame : SameBut P d d')
    (hP : ∀ a, P a → ¬ L.IsPlain (a / 1024)) : (L.view d').byte = (L.view d).byte := by
  funext a
  simp only [view]
  split
  · next ha => exact hsame.byte_eq a fun hx => hP a hx ha
  · rfl

theorem block_of_within_inode {n a : ℕ} (hn : L.IsInode n) (ha : Within (L.inodeAddress n) 128 a) :
    L.inodeTable ≤ a / 1024 ∧ a / 1024 < L.inodeTable + (L.inodesCount + 7) / 8 := by
  obtain ⟨h₁, h₂⟩ := L.inodeAddress_bounds hn
  unfold Within at ha
  omega

theorem Shows.of_sameBut_plain {P : ℕ → Prop} (h : L.Shows d v) (hsame : SameBut P d d')
    (hplain : ∀ x, P x → L.IsPlain (x / 1024)) :
    L.Shows d' { v with byte := (L.view d').byte } := by
  obtain ⟨hd, rfl⟩ := h
  have hblock : ∀ x, P x → x / 1024 ≠ 1 ∧ x / 1024 ≠ 2 := fun x hx =>
    ⟨(hplain x hx).2.1, (hplain x hx).2.2.1⟩
  have hfree := view_free_of_sameBut (L := L) hsame fun x hx => by
    have := hblock x hx
    omega
  refine ⟨hd.of_sameBut hsame fun x hx => ?_, View.ext hfree.1 hfree.2 ?_ ?_ rfl⟩
  · have := hblock x hx
    omega
  · funext t
    apply view_bit_of_sameBut hsame t
    intro x hx
    cases t with
    | block => exact (hplain x hx).2.2.2.1
    | inode => exact (hplain x hx).2.2.2.2.1
  · funext n
    by_cases hn : L.IsInode n
    · apply view_inode_of_sameBut hsame
      intro x hx hin
      exact (hplain x hx).2.2.2.2.2 (block_of_within_inode hn hin)
    · simp [view, hn]

theorem Shows.copy (h : L.Shows d v) {a : ℕ} {s : List Byte}
    (hplain : ∀ x, Within a s.length x → L.IsPlain (x / 1024)) :
    L.Shows (d.copy a s) { v with byte := putBytes v.byte a s } := by
  refine (congrArg (L.Shows _) ?_).mp (h.of_sameBut_plain (sameBut_copy d a s) hplain)
  congr 1
  obtain ⟨-, rfl⟩ := h
  funext x
  simp only [view]
  by_cases hx : L.IsPlain (x / 1024)
  · rw [if_pos hx]
    exact putBytes_congr fun _ => (if_pos hx).symm
  · rw [if_neg hx]
    have hout : x < a ∨ a + s.length ≤ x := by
      by_contra hin
      exact hx (hplain x ⟨by omega, by omega⟩)
    rw [putBytes_of_disjoint hout, if_neg hx]

theorem Shows.of_sameBut_inode (h : L.Shows d v) {n : ℕ} (hn : L.IsInode n)
    (hsame : SameBut (Within (L.inodeAddress n) 128) d d') :
    L.Shows d' (v.setInode n (inodeAt d'.byte (L.inodeAddress n))) := by
  obtain ⟨hd, rfl⟩ := h
  have htable := fun {x} hx => block_of_within_inode (a := x) hn hx
  have hge := L.inodeTable_ge
  have hfree := view_free_of_sameBut (L := L) hsame fun x hx => by
    have := htable hx
    omega
  refine ⟨hd.of_sameBut hsame fun x hx => ?_, View.ext hfree.1 hfree.2 ?_ ?_ ?_⟩
  · have := htable hx
    omega
  · funext t
    apply view_bit_of_sameBut hsame t
    intro x hx
    have := htable hx
    have := L.bitmap_bounds t
    omega
  · funext k
    by_cases hk : k = n
    · subst hk
      simp [view, hn, View.setInode]
    · change (L.view d').inode k = Function.update (L.view d).inode n _ k
      rw [Function.update_of_ne hk]
      by_cases hk' : L.IsInode k
      · apply view_inode_of_sameBut hsame
        intro x hx hx'
        obtain ⟨h₁, -⟩ := hn
        obtain ⟨h₂, -⟩ := hk'
        unfold Within inodeAddress at hx hx'
        omega
      · simp [view, hk']
  · exact view_byte_of_sameBut hsame fun x hx hplain => hplain.2.2.2.2.2 (htable hx)

theorem bitmap_inj {t u : BitmapType} (h : L.bitmap t = L.bitmap u) : t = u := by
  have hne := L.bitmaps_ne
  cases t <;> cases u <;> first | rfl | exact absurd h hne | exact absurd h.symm hne

theorem Describes.bitmapStart_eq (h : L.Describes d) (t : BitmapType) :
    bitmapStart d t = 1024 * L.bitmap t := by
  have hle := L.blocksCount_le
  have hb := L.bitmap_bounds t
  have hbitmap : bitmapStart d t = blockStart (L.bitmap t) := by
    cases t with
    | block => exact congrArg blockStart h.blockBitmap_eq
    | inode => exact congrArg blockStart h.inodeBitmap_eq
  rw [hbitmap, blockStart, Nat.mod_eq_of_lt (by omega)]

theorem Shows.bitSet_eq (h : L.Shows d v) (t : BitmapType) {i : ℕ} (hi : i < 8192) :
    bitSet d t i = v.bit t i := by
  rw [bitSet, h.1.bitmapStart_eq, ← h.2]
  simp [view, hi]

theorem Shows.setByte (h : L.Shows d v) (t : BitmapType) {k : ℕ} (hk : k < 1024) (b : Byte) :
    L.Shows (d.setByte (1024 * L.bitmap t + k) b)
      { v with
        bit := Function.update v.bit t fun i =>
          if i / 8 = k then b.getLsbD (i % 8) else v.bit t i } := by
  obtain ⟨hd, rfl⟩ := h
  have hsame : SameBut (Within (1024 * L.bitmap t + k) 1) d (d.setByte _ b) :=
    sameBut_copy d (1024 * L.bitmap t + k) [b]
  have hb := L.bitmap_bounds t
  have hblock : ∀ x, Within (1024 * L.bitmap t + k) 1 x → x / 1024 = L.bitmap t := by
    unfold Within
    omega
  have hfree := view_free_of_sameBut (L := L) hsame fun x hx => by
    have := hblock x hx
    omega
  refine ⟨hd.of_sameBut hsame fun x hx => ?_, View.ext hfree.1 hfree.2 ?_ ?_ ?_⟩
  · have := hblock x hx
    omega
  · funext u
    by_cases hu : u = t
    · subst hu
      funext i
      change _ = Function.update (L.view d).bit u _ u i
      rw [Function.update_self]
      simp only [view]
      by_cases hi : i < 8192
      · rw [if_pos hi, if_pos hi]
        by_cases hik : i / 8 = k
        · have hbyte :
              (d.setByte (1024 * L.bitmap u + k) b).byte (1024 * L.bitmap u + i / 8) = b := by
            rw [hik]
            exact putBytes_apply (s := [b]) (i := 0) (by simp) _ _
          rw [if_pos hik, hbyte]
        · rw [if_neg hik, hsame.byte_eq _ (by unfold Within; omega)]
      · have hik : i / 8 ≠ k := by omega
        rw [if_neg hi, if_neg hik, if_neg hi]
    · change (L.view (d.setByte _ b)).bit u = Function.update (L.view d).bit t _ u
      rw [Function.update_of_ne hu]
      exact view_bit_of_sameBut hsame u fun x hx heq =>
        hu (bitmap_inj (heq.symm.trans (hblock x hx)))
  · funext n
    by_cases hn : L.IsInode n
    · apply view_inode_of_sameBut hsame
      intro x hx hin
      have := block_of_within_inode hn hin
      have := hblock x hx
      omega
    · simp [view, hn]
  · apply view_byte_of_sameBut hsame
    intro x hx hplain
    obtain ⟨-, -, -, h₁, h₂, -⟩ := hplain
    have := hblock x hx
    cases t with
    | block => exact h₁ this
    | inode => exact h₂ this

theorem freeCount_bounds (t : BitmapType) : 1036 ≤ freeCount t ∧ freeCount t + 4 ≤ 1044 := by
  cases t <;> decide

theorem groupFreeCount_bounds (t : BitmapType) :
    2060 ≤ groupFreeCount t ∧ groupFreeCount t + 2 ≤ 2064 := by
  cases t <;> decide

theorem freeCount_apart {t u : BitmapType} (h : u ≠ t) :
    freeCount u + 4 ≤ freeCount t ∨ freeCount t + 4 ≤ freeCount u := by
  cases t <;> cases u <;> first | exact absurd rfl h | decide

theorem groupFreeCount_apart {t u : BitmapType} (h : u ≠ t) :
    groupFreeCount u + 2 ≤ groupFreeCount t ∨ groupFreeCount t + 2 ≤ groupFreeCount u := by
  cases t <;> cases u <;> first | exact absurd rfl h | decide

theorem Shows.setCounters (h : L.Shows d v) (t : BitmapType) (n k : ℕ) :
    L.Shows ((d.setU32 (freeCount t) n).setU16 (groupFreeCount t) k)
      { v with
        free := Function.update v.free t (n % 2 ^ 32)
        groupFree := Function.update v.groupFree t (k % 2 ^ 16) } := by
  obtain ⟨hd, rfl⟩ := h
  have hf := freeCount_bounds t
  have hg := groupFreeCount_bounds t
  have hsame : SameBut (fun x => Within (freeCount t) 4 x ∨ Within (groupFreeCount t) 2 x) d
      ((d.setU32 (freeCount t) n).setU16 (groupFreeCount t) k) :=
    ((sameBut_copy d (freeCount t) (bytes32 n)).mono fun _ => Or.inl).trans
      ((sameBut_copy _ (groupFreeCount t) (bytes16 k)).mono fun _ => Or.inr)
  have hblock : ∀ x, Within (freeCount t) 4 x ∨ Within (groupFreeCount t) 2 x →
      x / 1024 = 1 ∨ x / 1024 = 2 := by
    unfold Within
    omega
  refine ⟨hd.of_sameBut hsame fun x hx => ?_, View.ext ?_ ?_ ?_ ?_ ?_⟩
  · unfold Within at hx
    omega
  · funext u
    change get32 (putBytes (putBytes d.byte _ (bytes32 n)) _ (bytes16 k)) (freeCount u) =
      Function.update (L.view d).free t _ u
    have hu := freeCount_bounds u
    rw [get32_putBytes_of_disjoint (by omega)]
    by_cases hut : u = t
    · subst hut
      rw [Function.update_self, get32_putBytes_same]
    · rw [Function.update_of_ne hut, get32_putBytes_of_disjoint (freeCount_apart hut)]
      rfl
  · funext u
    change get16 (putBytes (putBytes d.byte _ (bytes32 n)) _ (bytes16 k)) (groupFreeCount u) =
      Function.update (L.view d).groupFree t _ u
    have hu := groupFreeCount_bounds u
    by_cases hut : u = t
    · subst hut
      rw [Function.update_self, get16_putBytes_same]
    · rw [Function.update_of_ne hut, get16_putBytes_of_disjoint (groupFreeCount_apart hut)]
      exact get16_putBytes_of_disjoint (by simp; omega) _
  · funext u
    apply view_bit_of_sameBut hsame u
    intro x hx
    have := hblock x hx
    have := L.bitmap_bounds u
    omega
  · funext m
    by_cases hm : L.IsInode m
    · apply view_inode_of_sameBut hsame
      intro x hx hin
      have := block_of_within_inode hm hin
      have := hblock x hx
      have := L.inodeTable_ge
      omega
    · simp [view, hm]
  · apply view_byte_of_sameBut hsame
    intro x hx hplain
    rcases hblock x hx with h | h
    · exact hplain.2.1 h
    · exact hplain.2.2.1 h

end Layout

namespace View

/-- Marks a number as used, counting if it was not. -/
def mark (v : View) (t : BitmapType) (num : ℕ) : View :=
  { v with
    free := if v.bit t (num - 1) then v.free
      else Function.update v.free t ((v.free t + (2 ^ 32 - 1)) % 2 ^ 32)
    groupFree := if v.bit t (num - 1) then v.groupFree
      else Function.update v.groupFree t ((v.groupFree t + (2 ^ 16 - 1)) % 2 ^ 16)
    bit := Function.update v.bit t (Function.update (v.bit t) (num - 1) true) }

/-- Marks a number as free, counting if it was not. -/
def release (v : View) (t : BitmapType) (num : ℕ) : View :=
  { v with
    free := if v.bit t (num - 1) then Function.update v.free t ((v.free t + 1) % 2 ^ 32)
      else v.free
    groupFree := if v.bit t (num - 1) then
        Function.update v.groupFree t ((v.groupFree t + 1) % 2 ^ 16)
      else v.groupFree
    bit := Function.update v.bit t (Function.update (v.bit t) (num - 1) false) }

end View

section Allocation

variable {L : Layout} {d : Disk} {v : View} {t : BitmapType} {num : ℕ}

theorem Layout.Shows.follow_bitmap (h : L.Shows d v) (hnum : num ≤ 8192) :
    follow d (bitmapStart d t + (num - 1) / 8) = .ok (1024 * L.bitmap t + (num - 1) / 8) := by
  have hb := L.bitmap_bounds t
  rw [follow, h.1.bitmapStart_eq, h.1.numBlocks_eq, if_pos]
  omega

theorem getLsbD_bit (j : ℕ) {i : ℕ} (hi : i < 8) :
    (1#8 <<< j).getLsbD i = decide (i = j) := by
  rw [BitVec.getLsbD_shiftLeft, BitVec.getLsbD_one]
  grind

theorem getLsbD_set (b : Byte) (j : ℕ) {i : ℕ} (hi : i < 8) :
    (b ||| 1#8 <<< j).getLsbD i = (b.getLsbD i || decide (i = j)) := by
  rw [BitVec.getLsbD_or, getLsbD_bit j hi]

theorem getLsbD_clear (b : Byte) (j : ℕ) {i : ℕ} (hi : i < 8) :
    (b &&& ~~~(1#8 <<< j)).getLsbD i = (b.getLsbD i && !decide (i = j)) := by
  rw [BitVec.getLsbD_and, BitVec.getLsbD_not, getLsbD_bit j hi]
  simp [hi]

theorem Layout.Shows.addToCounters (h : L.Shows d v) (t : BitmapType) (n k : ℕ) :
    L.Shows (addToCounters d t n k)
      { v with
        free := Function.update v.free t ((v.free t + n) % 2 ^ 32)
        groupFree := Function.update v.groupFree t ((v.groupFree t + k) % 2 ^ 16) } := by
  have hgroup : (d.setU32 (freeCount t) (d.u32 (freeCount t) + n)).u16 (groupFreeCount t) =
      d.u16 (groupFreeCount t) := by
    have := freeCount_bounds t
    have := groupFreeCount_bounds t
    exact get16_putBytes_of_disjoint (by simp; omega) _
  have hshows := h.setCounters t (d.u32 (freeCount t) + n) (d.u16 (groupFreeCount t) + k)
  rw [← hgroup] at hshows
  obtain ⟨hd, rfl⟩ := h
  have hgroup' : (L.view d).groupFree t = d.u16 (groupFreeCount t) := rfl
  rw [hgroup', ← hgroup]
  exact hshows

/-- The byte of a bitmap from which bit number `i` is taken. -/
theorem Layout.Shows.bit_eq (h : L.Shows d v) (t : BitmapType) {i k : ℕ} (hi : i < 8192)
    (hk : i / 8 = k) : (d.byte (1024 * L.bitmap t + k)).getLsbD (i % 8) = v.bit t i := by
  subst hk
  rw [← h.2]
  simp [Layout.view, hi]

/-- The store of a byte of a bitmap in which only the bit of `num` may differ. -/
theorem Layout.Shows.storeBit (h : L.Shows d v) (t : BitmapType) (hnum : num ≤ 8192) {b : Byte}
    {value : Bool}
    (hb : ∀ i < 8, b.getLsbD i = if i = (num - 1) % 8 then value
      else (d.byte (1024 * L.bitmap t + (num - 1) / 8)).getLsbD i) :
    L.Shows (d.setByte (1024 * L.bitmap t + (num - 1) / 8) b)
      { v with bit := Function.update v.bit t (Function.update (v.bit t) (num - 1) value) } := by
  refine (congrArg (L.Shows _) ?_).mp (h.setByte t (k := (num - 1) / 8) (by omega) b)
  congr 2
  funext i
  split
  · next hik =>
      rw [hb _ (Nat.mod_lt _ (by omega)), h.bit_eq t (by omega) hik, Function.update_apply]
      refine if_congr ?_ rfl rfl
      omega
  · next hik =>
      rw [Function.update_of_ne]
      rintro rfl
      exact hik rfl

/-- `update_bitmap` with value 1. -/
theorem Layout.Shows.updateBitmap_true (h : L.Shows d v) (t : BitmapType) (hpos : num ≠ 0)
    (hnum : num ≤ 8192) :
    ∃ d', updateBitmap d t num true = .ok d' ∧ L.Shows d' (v.mark t num) := by
  have hbit := h.bit_eq t (i := num - 1) (by omega) rfl
  have hset : ∀ b : Byte, ∀ i < 8, (b ||| 1#8 <<< ((num - 1) % 8)).getLsbD i =
      if i = (num - 1) % 8 then true else b.getLsbD i := by
    intro b i hi
    rw [getLsbD_set b _ hi]
    split <;> simp [*]
  unfold updateBitmap
  rw [if_neg hpos, h.follow_bitmap hnum]
  refine ⟨_, rfl, ?_⟩
  simp only [hbit]
  cases hmarked : v.bit t (num - 1) with
  | true =>
      rw [if_pos rfl, View.mark, hmarked]
      exact h.storeBit t hnum (hset _)
  | false =>
      rw [if_neg Bool.false_ne_true, View.mark, hmarked]
      exact (h.addToCounters t (2 ^ 32 - 1) (2 ^ 16 - 1)).storeBit t hnum (hset _)

/-- `update_bitmap` with value 0. -/
theorem Layout.Shows.updateBitmap_false (h : L.Shows d v) (t : BitmapType) (hpos : num ≠ 0)
    (hnum : num ≤ 8192) :
    ∃ d', updateBitmap d t num false = .ok d' ∧ L.Shows d' (v.release t num) := by
  have hbit := h.bit_eq t (i := num - 1) (by omega) rfl
  have hset : ∀ b : Byte, ∀ i < 8, (b &&& ~~~(1#8 <<< ((num - 1) % 8))).getLsbD i =
      if i = (num - 1) % 8 then false else b.getLsbD i := by
    intro b i hi
    rw [getLsbD_clear b _ hi]
    split <;> simp [*]
  unfold updateBitmap
  rw [if_neg hpos, h.follow_bitmap hnum]
  refine ⟨_, rfl, ?_⟩
  simp only [hbit]
  cases hmarked : v.bit t (num - 1) with
  | true =>
      rw [if_pos rfl, View.release, hmarked]
      exact (h.addToCounters t 1 1).storeBit t hnum (hset _)
  | false =>
      rw [if_neg Bool.false_ne_true, View.release, hmarked]
      exact h.storeBit t hnum (hset _)

end Allocation

end KernelProgramming.Ext2
