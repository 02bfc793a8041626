import KernelProgramming.Ext2.Cp
import KernelProgramming.Ext2.Entering
import KernelProgramming.Library.Runs

/-!
# Writes beside a directory

While a tool makes a new file, a new directory or a new link it writes to inodes
of the table, to blocks that were free, and at most to block 0.  The blocks of a
directory stay what they are.
-/

namespace KernelProgramming.Ext2

open ByteMemory Runs

variable {L : Layout} {d d' : Disk} {v w w' : View} {b c k n p : ℕ} {t : BitmapType} {s : Copying}

namespace View

/-- From `v` to `w` the slots of directory `p`, and all blocks in use, are left
as they are. -/
structure Respects (v w : View) (p : ℕ) : Prop where
  slots : (w.inode p).block = (v.inode p).block
  marked : ∀ t i, v.bit t i = true → w.bit t i = true
  same : ∀ b, b ≠ 0 → v.bit .block (b - 1) = true → v.SameBlock w b

/-- A block that may be written to. -/
def Spare (L : Layout) (v : View) (b : ℕ) : Prop :=
  L.IsPlain b ∧ (b ≠ 0 → v.bit .block (b - 1) = false)

/-- The metadata are marked in the block bitmap. -/
def Reserved (L : Layout) (v : View) : Prop :=
  ∀ b, 1 ≤ b → b ≤ L.blocksCount → ¬ L.IsPlain b → v.bit .block (b - 1) = true

theorem respects_refl (v : View) (p : ℕ) : v.Respects v p :=
  ⟨rfl, fun _ _ => id, fun _ _ _ _ _ => rfl⟩

theorem spare_zero (L : Layout) (v : View) : v.Spare L 0 :=
  ⟨L.isPlain_zero, fun h => absurd rfl h⟩

theorem Respects.mark (h : v.Respects w p) (t : BitmapType) (n : ℕ) :
    v.Respects (w.mark t n) p :=
  ⟨h.slots, fun u i hi => bit_mark_of_bit (h.marked u i hi) n, h.same⟩

theorem Respects.setInode (h : v.Respects w p) {x : Inode}
    (hx : k = p → x.block = (w.inode p).block) : v.Respects (w.setInode k x) p := by
  refine ⟨?_, h.marked, h.same⟩
  by_cases hk : k = p
  · subst hk
    rw [inode_setInode, hx rfl]
    exact h.slots
  · rw [inode_setInode_of_ne (Ne.symm hk)]
    exact h.slots

theorem Respects.setOther (h : v.Respects w p) (hk : k ≠ p) (x : Inode) :
    v.Respects (w.setInode k x) p := h.setInode fun heq => absurd heq hk

theorem Respects.write (h : v.Respects w p) (hb : v.Spare L b) (hinode : w'.inode = w.inode)
    (hbit : w'.bit = w.bit) (hsame : ∀ c, c ≠ b → w.SameBlock w' c) : v.Respects w' p := by
  refine ⟨?_, fun t i hi => ?_, fun c hc hmarked i hi => ?_⟩
  · rw [hinode]
    exact h.slots
  · rw [hbit]
    exact h.marked t i hi
  · have hne : c ≠ b := by
      rintro rfl
      rw [hb.2 hc] at hmarked
      cases hmarked
    exact (hsame c hne i hi).trans (h.same c hc hmarked i hi)

theorem Respects.putBlock (h : v.Respects w p) (hb : v.Spare L b) {a : ℕ} {bytes : List Byte}
    (hin : 1024 * b ≤ a ∧ a + bytes.length ≤ 1024 * b + 1024) :
    v.Respects { w with byte := putBytes w.byte a bytes } p :=
  h.write hb rfl rfl fun c hc i hi => putBytes_of_disjoint (by omega) _

theorem Respects.rewrites {entries : List DirEntry} (h : v.Respects w p) (hb : v.Spare L b)
    (hrw : w.Rewrites w' b entries) : v.Respects w' p := by
  apply h.write hb
  · rw [hrw.eq]
  · rw [hrw.eq]
  · exact hrw.same

/-- A number that is free now was free before, and the metadata are not. -/
theorem Reserved.spare (hres : v.Reserved L) (h : v.Respects w p) (hb : b ∈ w.clear L .block) :
    v.Spare L b := by
  obtain ⟨hne, hle, hclear⟩ := mem_clear.mp hb
  have hbit : v.bit .block (b - 1) = false := by
    by_contra htrue
    rw [Bool.not_eq_false] at htrue
    rw [h.marked _ _ htrue] at hclear
    cases hclear
  refine ⟨?_, fun _ => hbit⟩
  by_contra hplain
  rw [hres b (Nat.pos_of_ne_zero hne) hle hplain] at hbit
  cases hbit

end View

namespace Layout

theorem Shows.spare_findFreeBlock (h : L.Shows d w) (hres : v.Reserved L)
    (hr : v.Respects w p) : v.Spare L (findFreeBlock d) := by
  by_cases hfree : findFreeBlock d = 0
  · rw [hfree]
    exact v.spare_zero L
  · exact hres.spare hr (h.findFreeBlock_mem hfree)

/-- The number that is taken may be 0, for no block. -/
theorem Shows.takeBlock (h : L.Shows d w) :
    ∃ d' w', updateBitmap d .block (findFreeBlock d) true = .ok d' ∧ L.Shows d' w' ∧
      w'.inode = w.inode ∧ (findFreeBlock d ≠ 0 → w'.bit .block (findFreeBlock d - 1) = true) ∧
      ∀ (v : View) (p : ℕ), v.Respects w p → v.Respects w' p := by
  by_cases hfree : findFreeBlock d = 0
  · rw [hfree]
    exact ⟨d, w, rfl, h, rfl, fun hne => absurd rfl hne, fun _ _ => id⟩
  · obtain ⟨hne, hle, -⟩ := View.mem_clear.mp (h.findFreeBlock_mem hfree)
    have hcount := L.count_le .block
    obtain ⟨d', hmark, h'⟩ := h.updateBitmap_true .block hne (by omega)
    exact ⟨d', _, hmark, h', rfl, fun _ => View.bit_mark_self .., fun v p hr => hr.mark .block _⟩

theorem Shows.write_respects {a : ℕ} {bytes : List Byte} (h : L.Shows d w)
    (hr : v.Respects w p) (hb : v.Spare L b)
    (hin : 1024 * b ≤ a ∧ a + bytes.length ≤ 1024 * b + 1024) :
    ∃ w', L.Shows (d.copy a bytes) w' ∧ v.Respects w' p := by
  have h' := h.copy (a := a) (s := bytes) fun x hx => by
    unfold Within at hx
    rw [show x / 1024 = b by omega]
    exact hb.1
  exact ⟨_, h', hr.putBlock hb hin⟩

end Layout

/-! ## The data of a file -/

/-- The image of a volume in which directory `p` is as it is in `v`. -/
def Besides (L : Layout) (v : View) (p : ℕ) (d : Disk) : Prop :=
  ∃ w, L.Shows d w ∧ v.Respects w p

/-- With at most one block read ahead. -/
structure Copies (L : Layout) (v : View) (p : ℕ) (s : Copying) : Prop where
  besides : Besides L v p s.disk
  buffer_le : s.buffer.length ≤ 1024

/-- The computation ends, with a result for which `Q` holds. -/
abbrev Ends {α : Type} (x : Except Fault α) (Q : α → Prop) : Prop := Yields x Q fun _ => False

section Copying

variable (hres : v.Reserved L) (hk : L.IsInode k) (hkp : k ≠ p)

theorem copies_fread (h : Besides L v p s.disk) : Copies L v p s.fread :=
  ⟨h, by rw [Copying.fread, List.length_take]; exact Nat.min_le_left ..⟩

theorem copyDataToBlock_copies (hs : Copies L v p s) (hd : Besides L v p d) (hb : v.Spare L b) :
    Ends (copyDataToBlock s d b) fun s => Copies L v p s.fread := by
  obtain ⟨w, h, hr⟩ := hd
  have hin : 1024 * b ≤ 1024 * b ∧ 1024 * b + s.buffer.length ≤ 1024 * b + 1024 :=
    ⟨le_rfl, Nat.add_le_add_left hs.buffer_le _⟩
  obtain ⟨w', h', hr'⟩ := h.write_respects hr hb hin
  rw [copyDataToBlock, h.blockPtr_eq hb.1.lt]
  exact copies_fread ⟨w', h', hr'⟩

include hres hk hkp

theorem newSlot_besides (hd : Besides L v p d) {i : ℕ} (hi : i < totalBlockCount) :
    Ends (newSlot d (L.inodeAddress k) i) fun r => v.Spare L r.1 ∧ Besides L v p r.2 := by
  obtain ⟨w, h, hr⟩ := hd
  have hspare := h.spare_findFreeBlock hres hr
  obtain ⟨d₁, w₁, hmark, h₁, -, -, hkeeps⟩ := h.takeBlock
  have h₂ := h₁.setBlock hk hi (findFreeBlock d)
  have h₃ := h₂.setBlocks hk ((d₁.setU32 (iBlock (L.inodeAddress k) i) (findFreeBlock d)).u32
    (iBlocks (L.inodeAddress k)) + 1)
  rw [newSlot, hmark]
  refine ⟨hspare, _, h₃, ?_⟩
  exact ((hkeeps v p hr).setOther hkp _).setOther hkp _

theorem newPointer_besides (hd : Besides L v p d) {ptrs offset : ℕ} (hptrs : v.Spare L ptrs)
    (hoffset : offset < 256) :
    Ends (newPointer d (L.inodeAddress k) (1024 * ptrs + 4 * offset)) fun r =>
      v.Spare L r.1 ∧ Besides L v p r.2 := by
  obtain ⟨w, h, hr⟩ := hd
  have hspare := h.spare_findFreeBlock hres hr
  obtain ⟨d₁, w₁, hmark, h₁, -, -, hkeeps⟩ := h.takeBlock
  have h₂ := h₁.setBlocks hk (d₁.u32 (iBlocks (L.inodeAddress k)) + 1)
  have hr₂ := (hkeeps v p hr).setOther hkp { w₁.inode k with
    blocks := (d₁.u32 (iBlocks (L.inodeAddress k)) + 1) % 2 ^ 32 }
  have hin : 1024 * ptrs ≤ 1024 * ptrs + 4 * offset ∧
      1024 * ptrs + 4 * offset + (bytes32 (findFreeBlock d)).length ≤ 1024 * ptrs + 1024 := by
    rw [length_bytes32]
    omega
  obtain ⟨w₃, h₃, hr₃⟩ := h₂.write_respects hr₂ hptrs hin
  rw [newPointer, hmark]
  exact ⟨hspare, w₃, h₃, hr₃⟩

theorem writeDirect_copies (n i : ℕ) (hs : Copies L v p s) (hi : i + n ≤ totalBlockCount) :
    Ends (writeDirect (L.inodeAddress k) n i s) (Copies L v p) := by
  induction n generalizing i s with
  | zero => exact hs
  | succ n ih =>
      rw [writeDirect]
      split
      · exact hs
      · apply (newSlot_besides hres hk hkp hs.besides (by omega)).bind
        rintro ⟨b, d⟩ ⟨hb, hd⟩
        apply (copyDataToBlock_copies hs hd hb).bind
        exact fun s hs => ih (i + 1) hs (by omega)

theorem fillPtrBlock_copies {ptrs : ℕ} (hptrs : v.Spare L ptrs) (n offset : ℕ)
    (hs : Copies L v p s) (hoffset : offset + n ≤ 256) :
    Ends (fillPtrBlock (L.inodeAddress k) (1024 * ptrs) n offset s) (Copies L v p) := by
  induction n generalizing offset s with
  | zero => exact hs
  | succ n ih =>
      rw [fillPtrBlock]
      split
      · exact hs
      · apply (newPointer_besides hres hk hkp hs.besides hptrs (by omega)).bind
        rintro ⟨b, d⟩ ⟨hb, hd⟩
        apply (copyDataToBlock_copies hs hd hb).bind
        exact fun s hs => ih (offset + 1) hs (by omega)

/-- A pointer block of its own is filled in each turn. -/
theorem fillRow_copies {ptrs offset : ℕ} {fill : ℕ → Copying → Except Fault Copying}
    {next : Copying → Except Fault Copying} (hptrs : v.Spare L ptrs) (hs : Copies L v p s)
    (hoffset : offset < 256)
    (hfill : ∀ b s, v.Spare L b → Copies L v p s → Ends (fill (1024 * b) s) (Copies L v p))
    (hnext : ∀ s, Copies L v p s → Ends (next s.fread) (Copies L v p)) :
    Ends (do
        let (blockNum, d) ← newPointer s.disk (L.inodeAddress k) (1024 * ptrs + 4 * offset)
        let row ← blockPtr d blockNum
        let s ← fill row { s with disk := d }
        next s.fread) (Copies L v p) := by
  apply (newPointer_besides hres hk hkp hs.besides hptrs hoffset).bind
  rintro ⟨b, d⟩ ⟨hb, hd⟩
  obtain ⟨w, h, hr⟩ := hd
  simp only [h.blockPtr_eq hb.1.lt]
  exact (hfill b { s with disk := d } hb ⟨⟨w, h, hr⟩, hs.buffer_le⟩).bind hnext

theorem fillPtrPtrBlock_copies {ptrs : ℕ} (hptrs : v.Spare L ptrs) (n offset : ℕ)
    (hs : Copies L v p s) (hoffset : offset + n ≤ 256) :
    Ends (fillPtrPtrBlock (L.inodeAddress k) (1024 * ptrs) n offset s) (Copies L v p) := by
  induction n generalizing offset s with
  | zero => exact hs
  | succ n ih =>
      rw [fillPtrPtrBlock]
      split
      · exact hs
      · apply fillRow_copies hres hk hkp hptrs hs (by omega)
        · exact fun b s hb hs => fillPtrBlock_copies hres hk hkp hb numOfPtrsInBlock 0 hs le_rfl
        · exact fun s hs => ih (offset + 1) (copies_fread hs.besides) (by omega)

theorem fillPtrPtrPtrBlock_copies {ptrs : ℕ} (hptrs : v.Spare L ptrs) (n offset : ℕ)
    (hs : Copies L v p s) (hoffset : offset + n ≤ 256) :
    Ends (fillPtrPtrPtrBlock (L.inodeAddress k) (1024 * ptrs) n offset s) (Copies L v p) := by
  induction n generalizing offset s with
  | zero => exact hs
  | succ n ih =>
      rw [fillPtrPtrPtrBlock]
      split
      · exact hs
      · apply fillRow_copies hres hk hkp hptrs hs (by omega)
        · exact fun b s hb hs => fillPtrPtrBlock_copies hres hk hkp hb numOfPtrsInBlock 0 hs le_rfl
        · exact fun s hs => ih (offset + 1) (copies_fread hs.besides) (by omega)

theorem writeLevel_copies {i : ℕ} {fill : ℕ → Copying → Except Fault Copying}
    (hi : i < totalBlockCount) (hs : Copies L v p s)
    (hfill : ∀ b s, v.Spare L b → Copies L v p s → Ends (fill (1024 * b) s) (Copies L v p)) :
    Ends (writeLevel (L.inodeAddress k) i fill s) (Copies L v p) := by
  rw [writeLevel]
  split
  · exact hs
  · apply (newSlot_besides hres hk hkp hs.besides hi).bind
    rintro ⟨b, d⟩ ⟨hb, hd⟩
    obtain ⟨w, h, hr⟩ := hd
    simp only [h.blockPtr_eq hb.1.lt]
    exact hfill b { s with disk := d } hb ⟨⟨w, h, hr⟩, hs.buffer_le⟩

theorem copyFileData_besides (hd : Besides L v p d) (content : List Byte) :
    Ends (copyFileData d (L.inodeAddress k) content) (Besides L v p) := by
  have hstart : Copies L v p (Copying.fread ⟨d, [], content⟩) := copies_fread hd
  rw [copyFileData]
  apply (writeDirect_copies hres hk hkp directBlockCount 0 hstart (by decide)).bind
  intro s hs
  apply (writeLevel_copies hres hk hkp (by decide) hs fun b s hb hs =>
    fillPtrBlock_copies hres hk hkp hb numOfPtrsInBlock 0 hs le_rfl).bind
  intro s hs
  apply (writeLevel_copies hres hk hkp (by decide) hs fun b s hb hs =>
    fillPtrPtrBlock_copies hres hk hkp hb numOfPtrsInBlock 0 hs le_rfl).bind
  intro s hs
  apply (writeLevel_copies hres hk hkp (by decide) hs fun b s hb hs =>
    fillPtrPtrPtrBlock_copies hres hk hkp hb numOfPtrsInBlock 0 hs le_rfl).bind
  exact fun s hs => hs.besides

end Copying

end KernelProgramming.Ext2
