import KernelProgramming.Ext2.Commands
import KernelProgramming.Ext2.MkdirFailure
import KernelProgramming.Ext2.Respecting
import KernelProgramming.Ext2.SymlinkLookup

/-!
# Growing directories

A directory that is full gets a new block in its first unused slot.  The loops
that look for the slot go through all fifteen of them, while the last three are
for pointer blocks.
-/

namespace KernelProgramming.Ext2

open ByteMemory Runs

variable {L : Layout} {d d' : Disk} {v w w' : View} {a b c i k m n p type now depth : ℕ}
  {name path filePath : CString} {site : LinkSite}

namespace View

/-- What the growth of directory `p` rests on. -/
structure Growing (L : Layout) (v : View) (p : ℕ) : Prop where
  reserved : v.Reserved L
  live : v.Live L p
  blocks : ∀ i < directBlockCount, (v.inode p).block i ≠ 0 →
    L.IsPlain ((v.inode p).block i) ∧ v.bit .block ((v.inode p).block i - 1) = true ∧
      v.TiledBlock ((v.inode p).block i)
  direct : (v.inode p).DirectOnly

theorem DirectOnly.lt (h : (v.inode p).DirectOnly) (hi : i < totalBlockCount)
    (hne : (v.inode p).block i ≠ 0) : i < directBlockCount := by
  by_contra hge
  exact hne (h i (not_lt.mp hge) hi)

theorem Growing.data (h : v.Growing L p) (hb : b ∈ v.data p) :
    b ≠ 0 ∧ L.IsPlain b ∧ v.bit .block (b - 1) = true ∧ v.TiledBlock b := by
  rw [data_of_directOnly h.direct] at hb
  obtain ⟨hmem, hne⟩ := List.mem_filter.mp hb
  obtain ⟨i, hi, rfl⟩ := List.mem_map.mp hmem
  have hne' : (v.inode p).block i ≠ 0 := by simpa using hne
  exact ⟨hne', h.blocks i (DirectOnly.lt h.direct (List.mem_range.mp hi) hne') hne'⟩

theorem Consistent.growing (hc : v.Consistent L) (hp : v.IsDir L p)
    (hdirect : (v.inode p).DirectOnly) : v.Growing L p where
  reserved := hc.reserved
  live := hp.1
  blocks i hi hne := by
    have hdata : (v.inode p).block i ∈ v.data p := by
      rw [data_of_directOnly hdirect]
      refine List.mem_filter.mpr ⟨List.mem_map_of_mem (List.mem_range.mpr ?_), by simpa⟩
      exact hi.trans (by decide)
    obtain ⟨-, hplain, hbit⟩ := hc.used p hp.1 _ (data_subset_owned v p hdata)
    exact ⟨hplain, hbit, hc.tiled p hp.1 hp.2 _ hdata⟩
  direct := hdirect

/-- Slot `i` gets the number `b`, of a block that is free so far, or 0. -/
theorem Growing.grow (h : v.Growing L p) (hi : i < directBlockCount)
    (hslots : (w.inode p).block = Function.update (v.inode p).block i b)
    (hmarked : ∀ t j, v.bit t j = true → w.bit t j = true)
    (hsame : ∀ c, c ≠ 0 → v.bit .block (c - 1) = true → v.SameBlock w c)
    (hb : b ≠ 0 → L.IsPlain b ∧ w.bit .block (b - 1) = true ∧ w.TiledBlock b) :
    w.Growing L p where
  reserved c hc hle hplain := hmarked _ _ (h.reserved c hc hle hplain)
  live := ⟨h.live.1, hmarked _ _ h.live.2⟩
  blocks j hj hne := by
    rw [hslots] at hne ⊢
    by_cases hji : j = i
    · subst hji
      rw [Function.update_self] at hne ⊢
      exact hb hne
    · rw [Function.update_of_ne hji] at hne ⊢
      obtain ⟨hplain, hbit, htiled⟩ := h.blocks j hj hne
      exact ⟨hplain, hmarked _ _ hbit, (entriesOf_congr (hsame _ hne hbit) htiled).1⟩
  direct j hj hj' := by
    rw [hslots, Function.update_of_ne (by omega)]
    exact h.direct j hj hj'

theorem Growing.respects (h : v.Growing L p) (hr : v.Respects w p) : w.Growing L p := by
  -- slot 0 gets the number that it has
  have hpos : 0 < directBlockCount := by decide
  apply h.grow hpos (b := (v.inode p).block 0) _ hr.marked hr.same
  · intro hne
    obtain ⟨hplain, hbit, htiled⟩ := h.blocks 0 hpos hne
    exact ⟨hplain, hr.marked _ _ hbit, (entriesOf_congr (hr.same _ hne hbit) htiled).1⟩
  · rw [hr.slots, Function.update_eq_self]

theorem Growing.rewrites {entries : List DirEntry} (h : v.Growing L p)
    (hrw : v.Rewrites w b entries) : w.Growing L p := by
  have hinode : w.inode = v.inode := by rw [hrw.eq]
  have hbit : w.bit = v.bit := by rw [hrw.eq]
  refine ⟨?_, ?_, fun i hi hne => ?_, ?_⟩
  · rw [Reserved, hbit]
    exact h.reserved
  · rw [Live, hbit]
    exact h.live
  · rw [hinode] at hne ⊢
    obtain ⟨hplain, hmarked, htiled⟩ := h.blocks i hi hne
    rw [hbit]
    refine ⟨hplain, hmarked, ?_⟩
    by_cases hib : (v.inode p).block i = b
    · rw [hib]
      exact hrw.tiled
    · exact (entriesOf_congr (hrw.same _ hib) htiled).1
  · rw [hinode]
    exact h.direct

theorem Growing.hasRoom (h : v.Growing L p) (hr : v.Respects w p)
    (hroom : v.HasRoom L p n 0) : w.HasRoom L p n 0 := by
  have hg := h.respects hr
  apply hroom.congr hr.slots
  · rw [data_of_directOnly h.direct, data_of_directOnly hg.direct, hr.slots]
  · exact fun b hb => hr.same b (h.data hb).1 (h.data hb).2.2.1
  · exact fun b hb => (h.data hb).2.2.2
  · exact fun _ => Nat.zero_le _

end View

/-! ## The entry -/

/-- The image of a volume in which directory `p` can grow. -/
def Grows (L : Layout) (p : ℕ) (d : Disk) : Prop := ∃ w, L.Shows d w ∧ w.Growing L p

namespace Layout

/-- The entry goes into a block of the directory, or there is a direct slot for
a new one. -/
theorem Shows.allocateSpace_grows (h : L.Shows d w) (hg : w.Growing L p)
    (hroom : w.HasRoom L p name.length 0) (hname : name.length < 256) (hn : n < 2 ^ 32)
    (hpos : n ≠ 0) (htype : type < 256) {found : Bool}
    (hret : allocateSpace d (L.inodeAddress p) name.length n name type
      (List.range totalBlockCount) = .ok (found, d')) :
    if found then Grows L p d' else d' = d ∧ ∃ i < directBlockCount, (w.inode p).block i = 0 := by
  have hput := h.allocateSpace_eq hg.live.1 (List.range totalBlockCount)
    (fun i hi => List.mem_range.mp hi) (fun b hb => by
      rw [← View.data_of_directOnly hg.direct] at hb
      exact ⟨(hg.data hb).2.1, (hg.data hb).2.2.2⟩) hname hn hpos htype
  rw [← View.data_of_directOnly hg.direct] at hput
  unfold View.HasRoom at hroom
  cases hfind : (w.data p).find? (w.takes name.length) with
  | some b =>
      rw [hfind] at hput hroom
      obtain ⟨d₁, hput, hins⟩ := hput hroom
      obtain ⟨rfl, rfl⟩ := Prod.mk.inj (Except.ok.inj (hput.symm.trans hret))
      obtain ⟨-, hplain, -, htiled⟩ := hg.data (List.mem_of_find?_eq_some hfind)
      obtain ⟨w', entries, h', hrw, -⟩ := h.inserted hplain htiled hins
      exact ⟨w', h', hg.rewrites hrw⟩
  | none =>
      rw [hfind] at hput hroom
      obtain ⟨rfl, rfl⟩ := Prod.mk.inj (Except.ok.inj (hput.symm.trans hret))
      exact ⟨rfl, hroom.1⟩

end Layout

/-! ## A new block -/

/-- The block at `a` now holds a single entry. -/
structure OneEntry (a : ℕ) (d d' : Disk) : Prop where
  sameBut : SameBut (fun x => a ≤ x ∧ x < a + 1024) d d'
  recLen_eq : recLen d'.byte a = 1024

theorem OneEntry.tiled (h : OneEntry a d d') : Tiled d'.byte (a + 1024) a [a] := by
  have hrec := h.recLen_eq
  have hroom := room_bounds (nameLen d'.byte a)
  have hlt := nameLen_lt d'.byte a
  refine .cons ⟨?_, ?_⟩ ?_ ?_
  · rw [hrec]
  · rw [hrec]
    omega
  · rw [hrec]
  · rw [hrec]
    exact .nil

/-- Bytes are stored in the block, beside `rec_len`. -/
theorem OneEntry.copy {bytes : List Byte} (h : OneEntry a d d')
    (hin : a ≤ b ∧ b + bytes.length ≤ a + 1024) (hbeside : b + bytes.length ≤ a + 4 ∨ a + 6 ≤ b) :
    OneEntry a d (d'.copy b bytes) where
  sameBut := h.sameBut.trans ((sameBut_copy d' b bytes).mono fun x hx => by
    unfold Within at hx
    omega)
  recLen_eq := (get16_putBytes_of_disjoint (by omega) _).trans h.recLen_eq

theorem OneEntry.before {d₁ : Disk} (h : OneEntry a d₁ d')
    (hsame : SameBut (fun x => a ≤ x ∧ x < a + 1024) d d₁) : OneEntry a d d' :=
  ⟨hsame.trans h.sameBut, h.recLen_eq⟩

theorem oneEntry_setRecLen (hsame : SameBut (fun x => a ≤ x ∧ x < a + 1024) d d') :
    OneEntry a d (d'.setU16 (a + 4) 1024) where
  sameBut := hsame.trans ((sameBut_copy d' (a + 4) _).mono fun x hx => by
    simp only [Within, length_bytes16] at hx
    omega)
  recLen_eq := get16_putBytes_same _ _ _

theorem sameBut_block (hin : a ≤ b ∧ b + 4 ≤ a + 1024) (x : ℕ) :
    SameBut (fun x => a ≤ x ∧ x < a + 1024) d (d.setU32 b x) :=
  (sameBut_copy d b _).mono fun x hx => by
    simp only [Within, length_bytes32] at hx
    omega

section

variable (hname : name.length ≤ 1016)

include hname

theorem fillFirstEntry_oneEntry (d : Disk) (a n nameLength type : ℕ) :
    OneEntry a d (fillFirstEntry d a n nameLength name type) := by
  have hsame : SameBut (fun x => a ≤ x ∧ x < a + 1024) d
      ((d.setU32 a n).setU8 (a + 6) nameLength) :=
    (sameBut_block (by omega) n).trans ((sameBut_copy _ (a + 6) _).mono fun x hx => by
      simp only [Within, List.length_singleton] at hx
      omega)
  apply ((oneEntry_setRecLen hsame).copy (b := a + 8) (by omega) (by omega)).copy
  · simp
  · simp

theorem fillLinkEntry_oneEntry (d : Disk) (a n file : ℕ) :
    OneEntry a d (fillLinkEntry d a n file name) := by
  have hsame : SameBut (fun x => a ≤ x ∧ x < a + 1024) d (d.setU32 a n) :=
    sameBut_block (by omega) n
  apply ((oneEntry_setRecLen hsame).copy (b := a + 8) (by omega) (by omega)).copy
  · simp
  · simp

theorem fillNewBlock_oneEntry (d : Disk) (a n nameLength type : ℕ) :
    OneEntry a d (fillNewBlock d a nameLength n name type) := by
  have hstart : OneEntry a d (d.setU16 (a + 4) 1024) := oneEntry_setRecLen ⟨rfl, fun _ _ => rfl⟩
  have hlen : OneEntry a d ((d.setU16 (a + 4) 1024).setU8 (a + 6) nameLength) :=
    hstart.copy (by simp) (by simp)
  have hnum : OneEntry a d (((d.setU16 (a + 4) 1024).setU8 (a + 6) nameLength).setU32 a n) :=
    hlen.copy (by simp) (by simp)
  have htype : OneEntry a d ((((d.setU16 (a + 4) 1024).setU8 (a + 6) nameLength).setU32 a n).setU8
      (a + 7) type) :=
    hnum.copy (by simp) (by simp)
  exact htype.copy (by omega) (by omega)

end

namespace Layout

/-- The new block gets its number into the first unused slot. -/
theorem Shows.growSlot (h : L.Shows d w) (hg : w.Growing L p)
    (hzero : ∃ i < directBlockCount, (w.inode p).block i = 0) :
    ∃ d₁ i, updateBitmap d .block (findFreeBlock d) true = .ok d₁ ∧
      freeSlot d₁ (L.inodeAddress p) = some i ∧
      let d₂ := d₁.setU32 (iBlock (L.inodeAddress p) i) (findFreeBlock d)
      let d₃ := d₂.setU32 (iBlocks (L.inodeAddress p)) (d₂.u32 (iBlocks (L.inodeAddress p)) + 1)
      blockPtr d₃ (findFreeBlock d) = .ok (1024 * findFreeBlock d) ∧
        ∀ d₄, OneEntry (1024 * findFreeBlock d) d₃ d₄ → Grows L p d₄ := by
  have hself := w.respects_refl p
  have hspare := h.spare_findFreeBlock hg.reserved hself
  obtain ⟨d₁, w₁, hmark, h₁, hinode, hbit, hkeeps⟩ := h.takeBlock
  have hr₁ := hkeeps w p hself
  have hp := hg.live.1
  obtain ⟨i, hi, hslot, -⟩ := h₁.freeSlot_eq hp (by rwa [hinode])
  refine ⟨d₁, i, hmark, hslot, ?_⟩
  intro d₂ d₃
  have h₃ : L.Shows d₃ _ :=
    (h₁.setBlock hp (hi.trans (by decide)) (findFreeBlock d)).setBlocks hp
      (d₂.u32 (iBlocks (L.inodeAddress p)) + 1)
  refine ⟨h₃.blockPtr_eq hspare.1.lt, fun d₄ hone => ?_⟩
  obtain ⟨w₄, h₄, hrw⟩ := h₃.rewrites hspare.1 hone.sameBut hone.tiled
  have hlt : findFreeBlock d < 2 ^ 32 :=
    lt_of_lt_of_le hspare.1.lt (le_trans L.blocksCount_le (by decide))
  have hinode₄ : (w₄.inode p).block =
      Function.update (w.inode p).block i (findFreeBlock d) := by
    rw [hrw.eq]
    simp only [View.inode_setInode, hinode, Nat.mod_eq_of_lt hlt]
  have hbit₄ : w₄.bit = w₁.bit := by rw [hrw.eq]; rfl
  refine ⟨w₄, h₄, hg.grow hi hinode₄ ?_ ?_ ?_⟩
  · rw [hbit₄]
    exact hr₁.marked
  · intro c hc hmarked j hj
    have hne : c ≠ findFreeBlock d := by
      rintro rfl
      rw [hspare.2 hc] at hmarked
      cases hmarked
    exact (hrw.same c hne j hj).trans (hr₁.same c hc hmarked j hj)
  · rw [hbit₄]
    exact fun hne => ⟨hspare.1, hbit hne, hrw.tiled⟩

/-- The order of `ext2_cp`: the block is filled before it gets its slot. -/
theorem Shows.growFilled (h : L.Shows d w) (hg : w.Growing L p)
    (hzero : ∃ i < directBlockCount, (w.inode p).block i = 0) {d₁ d₂ : Disk}
    (hmark : updateBitmap d .block (findFreeBlock d) true = .ok d₁)
    (hone : OneEntry (1024 * findFreeBlock d) d₁ d₂) :
    Grows L p (addBlock d₂ (L.inodeAddress p) (findFreeBlock d)) := by
  have hself := w.respects_refl p
  have hspare := h.spare_findFreeBlock hg.reserved hself
  obtain ⟨d₁', w₁, hmark', h₁, hinode, hbit, hkeeps⟩ := h.takeBlock
  obtain rfl : d₁ = d₁' := Except.ok.inj (hmark.symm.trans hmark')
  obtain ⟨w₂, h₂, hrw⟩ := h₁.rewrites hspare.1 hone.sameBut hone.tiled
  have hg₂ : w₂.Growing L p := (hg.respects (hkeeps w p hself)).rewrites hrw
  have hinode₂ : w₂.inode = w.inode := by rw [hrw.eq, ← hinode]
  have hp := hg.live.1
  obtain ⟨i, hi, hslot, -⟩ := h₂.freeSlot_eq hp (by rwa [hinode₂])
  have hlt : findFreeBlock d < 2 ^ 32 :=
    lt_of_lt_of_le hspare.1.lt (le_trans L.blocksCount_le (by decide))
  rw [addBlock, hslot]
  refine ⟨_, (h₂.setBlock hp (hi.trans (by decide)) (findFreeBlock d)).setBlocks hp _,
    hg₂.grow hi (b := findFreeBlock d) ?_ (fun _ _ => id) (fun _ _ _ _ _ => rfl) ?_⟩
  · simp only [View.inode_setInode, Nat.mod_eq_of_lt hlt]
  · refine fun hne => ⟨hspare.1, ?_, hrw.tiled⟩
    change w₂.bit .block _ = true
    rw [hrw.eq]
    exact hbit hne

end Layout

end KernelProgramming.Ext2
