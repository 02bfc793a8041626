import KernelProgramming.Ext2.Creation

/-!
# Commands that fail

A command that fails has to give back what it has taken: the numbers that it has
marked, and what it has stored where something is in use.
-/

namespace KernelProgramming.Ext2

open ByteMemory

variable {L : Layout} {d d' : Disk} {v w : View} {t : BitmapType} {b k n p code : ℕ}
  {path name : CString}

/-! ## No place -/

theorem allocateSpaceInBlock_of_false {nameLength blockNum inodeNum type : ℕ}
    (h : allocateSpaceInBlock d nameLength blockNum inodeNum name type = .ok (false, d')) :
    d' = d := by
  unfold allocateSpaceInBlock at h
  cases hptr : blockPtr d blockNum with
  | error f => simp [hptr, bind, Except.bind] at h
  | ok dir =>
      simp only [hptr, bind, Except.bind] at h
      cases hsearch : searchBlock d.byte dir (reusable d.byte) with
      | error f => simp [hsearch] at h
      | ok r =>
          cases r with
          | some entry => simp [hsearch] at h
          | none =>
              cases hlast : (entries d.byte dir).1.getLast? with
              | none => simp [hsearch, hlast] at h
              | some prev =>
                  simp only [hsearch, hlast, splitLast] at h
                  split_ifs at h
                  · simp at h
                  · exact (congrArg Prod.snd (Except.ok.inj h)).symm

/-- The loop changes nothing as long as it does not find a place. -/
theorem allocateSpace_of_false {inode nameLength inodeNum type : ℕ} {slots : List ℕ}
    (h : allocateSpace d inode nameLength inodeNum name type slots = .ok (false, d')) : d' = d := by
  induction slots with
  | nil => exact (congrArg Prod.snd (Except.ok.inj h)).symm
  | cons i slots ih =>
      rw [allocateSpace] at h
      split_ifs at h with hzero
      · exact ih h
      · cases hput : allocateSpaceInBlock d nameLength (d.u32 (iBlock inode i)) inodeNum name
            type with
        | error f => simp [hput, bind, Except.bind] at h
        | ok r =>
            obtain ⟨found, d₁⟩ := r
            cases found with
            | true => simp [hput, bind, Except.bind] at h
            | false =>
                obtain rfl := allocateSpaceInBlock_of_false hput
                simp only [hput, bind, Except.bind, Bool.false_eq_true, if_false] at h
                exact ih h

theorem exists_ok_of_map {α : Type} {r : Except Fault (ℕ × Disk)} {f : Disk → α} {x : α}
    (h : r.map (fun r => (r.1, f r.2)) = .ok (code, x)) : ∃ d', r = .ok (code, d') ∧ f d' = x := by
  cases r with
  | error f => exact absurd h (by simp [Except.map])
  | ok r =>
      obtain ⟨hcode, hx⟩ := Prod.ext_iff.mp (Except.ok.inj h)
      exact ⟨r.2, congrArg Except.ok (Prod.ext hcode rfl), hx⟩

theorem exists_ok_of_map_fst {r : Except Fault (ℕ × Disk)} {code : ℕ}
    (h : r.map Prod.fst = .ok code) : ∃ d', r = .ok (code, d') := by
  cases r with
  | error f => exact absurd h (by simp [Except.map])
  | ok r => exact ⟨r.2, congrArg Except.ok (Prod.ext (Except.ok.inj h) rfl)⟩

/-! ## What has to stay -/

namespace View

theorem release_mark (hbit : v.bit t (n - 1) = false) (hfree : v.free t < 2 ^ 32)
    (hgroup : v.groupFree t < 2 ^ 16) : (v.mark t n).release t n = v := by
  have hback : ∀ x m : ℕ, 0 < m → x < m → ((x + (m - 1)) % m + 1) % m = x := by
    intro x m hm hx
    rw [Nat.mod_add_mod, Nat.add_assoc, Nat.sub_add_cancel hm, Nat.add_mod_right,
      Nat.mod_eq_of_lt hx]
  have hmarked : (v.mark t n).bit t (n - 1) = true := bit_mark_self v t n
  rw [release, hmarked, if_pos rfl, if_pos rfl]
  ext1
  · simp only [mark, hbit, Bool.false_eq_true, if_false, Function.update_self,
      Function.update_idem]
    rw [hback _ _ (by decide) hfree, Function.update_eq_self]
  · simp only [mark, hbit, Bool.false_eq_true, if_false, Function.update_self,
      Function.update_idem]
    rw [hback _ _ (by decide) hgroup, Function.update_eq_self]
  · simp only [mark, Function.update_self, Function.update_idem]
    rw [← hbit, Function.update_eq_self, Function.update_eq_self]
  · rfl
  · rfl

/-- The bitmaps and the counters are the same, and so are the inodes in use,
their blocks and their entries. -/
structure Untouched (L : Layout) (v w : View) : Prop where
  bit : w.bit = v.bit
  free : w.free = v.free
  groupFree : w.groupFree = v.groupFree
  inode : ∀ n, v.Live L n → w.inode n = v.inode n
  block : ∀ n, v.Live L n → ∀ b ∈ v.owned n, v.SameBlock w b
  files : ∀ n, v.Live L n → (v.inode n).IsDirectory → w.files n = v.files n

theorem Consistent.untouched (hc : v.Consistent L) (hbit : w.bit = v.bit)
    (hfree : w.free = v.free) (hgroup : w.groupFree = v.groupFree)
    (hinode : ∀ n, v.Live L n → w.inode n = v.inode n)
    (hblock : ∀ b, b ≠ 0 → v.bit .block (b - 1) = true → v.SameBlock w b) : v.Untouched L w := by
  have hsame : ∀ n, v.Live L n → ∀ b ∈ v.owned n, v.SameBlock w b := fun n hn b hb =>
    hblock b (hc.used n hn b hb).1 (hc.used n hn b hb).2.2
  exact ⟨hbit, hfree, hgroup, hinode, hsame, fun n hn hdir =>
    (files_congr (by rw [hinode n hn]) (hsame n hn) (hc.tiled n hn hdir)).2⟩

theorem Consistent.untouched_self (hc : v.Consistent L) : v.Untouched L v :=
  hc.untouched rfl rfl rfl (fun _ _ => rfl) fun _ _ _ _ _ => rfl

/-- An inode that is not in use may change. -/
theorem Consistent.untouched_setInode (hc : v.Consistent L) (hn : ¬ v.Live L n) (inode : Inode) :
    v.Untouched L (v.setInode n inode) :=
  hc.untouched rfl rfl rfl
    (fun _ hk => inode_setInode_of_ne (fun heq => hn (by rwa [← heq])) v inode) fun _ _ _ _ _ => rfl

/-- What was free does not become used. -/
theorem not_untouched (hn : n ∈ v.clear L t) (hbit : w.bit t (n - 1) = true) :
    ¬ v.Untouched L w := fun h => by
  rw [h.bit, (mem_clear.mp hn).2.2] at hbit
  exact Bool.false_ne_true hbit

/-- There is no inode or no block that could be taken. -/
def Exhausted (L : Layout) (v : View) : Prop :=
  (∀ n ∈ v.clear L .inode, n ≤ ext2GoodOldFirstIno) ∨ v.clear L .block = []

end View

/-- The image holds the volume as it was before. -/
def Unchanged (L : Layout) (d' : Disk) (v : View) : Prop := ∃ w, L.Shows d' w ∧ v.Untouched L w

namespace Layout

theorem Shows.unchanged_iff (h : L.Shows d' w) : Unchanged L d' v ↔ v.Untouched L w := by
  constructor
  · rintro ⟨w', h', huntouched⟩
    rwa [← h.2, h'.2]
  · exact fun huntouched => ⟨w, h, huntouched⟩

theorem Shows.counters_lt (h : L.Shows d v) (t : BitmapType) :
    v.free t < 2 ^ 32 ∧ v.groupFree t < 2 ^ 16 := by
  rw [← h.2]
  exact ⟨get32_lt _ _, get16_lt _ _⟩

/-! ## Nothing left -/

theorem Shows.findFreeBlock_eq_zero_iff (h : L.Shows d v) :
    findFreeBlock d = 0 ↔ v.clear L .block = [] := by
  constructor
  · intro hzero
    by_contra hne
    obtain ⟨b, bs, hclear⟩ := List.exists_cons_of_ne_nil hne
    rw [h.findFreeBlock_eq, hclear] at hzero
    exact (View.mem_clear.mp (hclear ▸ List.mem_cons_self)).1 hzero
  · intro hclear
    rw [h.findFreeBlock_eq, hclear]
    rfl

/-- No inode behind the reserved ones is free. -/
theorem Shows.findFreeInode_eq_zero_iff (h : L.Shows d v) :
    findFreeInode d = 0 ↔ ∀ n ∈ v.clear L .inode, n ≤ ext2GoodOldFirstIno := by
  constructor
  · intro hzero n hn
    obtain ⟨hpos, hle, hbit⟩ := View.mem_clear.mp hn
    change n ≤ L.inodesCount at hle
    by_contra hgt
    have hcount : d.u32 sInodesCount = L.inodesCount := h.1.inodesCount_eq
    have hbitSet := h.bitSet_eq .inode (i := n - 1) (by have := L.inodesCount_le; omega)
    rw [findFreeInode, hcount] at hzero
    cases hfind : (List.range L.inodesCount).find? fun i =>
        decide (ext2GoodOldFirstIno ≤ i) && !bitSet d .inode i with
    | some i =>
        rw [hfind] at hzero
        exact absurd hzero (Nat.succ_ne_zero i)
    | none =>
        have hnot := List.find?_eq_none.mp hfind (n - 1) (List.mem_range.mpr (by omega))
        rw [hbitSet, hbit, decide_eq_true (show ext2GoodOldFirstIno ≤ n - 1 by omega)] at hnot
        exact hnot rfl
  · intro hall
    by_contra hne
    obtain ⟨hmem, hgt⟩ := h.findFreeInode_mem hne
    exact absurd (hall _ hmem) (Nat.not_le_of_gt hgt)

theorem Shows.exhausted_iff (h : L.Shows d v) :
    v.Exhausted L ↔ findFreeInode d = 0 ∨ v.clear L .block = [] := by
  rw [View.Exhausted, h.findFreeInode_eq_zero_iff]

/-! ## Taking and giving back -/

theorem isInode_of_clear (hn : n ∈ v.clear L .inode) : L.IsInode n :=
  ⟨Nat.pos_of_ne_zero (View.mem_clear.mp hn).1, (View.mem_clear.mp hn).2.1⟩

theorem Shows.takeInode (h : L.Shows d v) (hn : n ∈ v.clear L .inode) :
    ∃ d', updateBitmap d .inode n true = .ok d' ∧ L.Shows d' (v.mark .inode n) ∧
      inodePtr d' n = .ok (L.inodeAddress n) := by
  obtain ⟨hpos, hle, -⟩ := View.mem_clear.mp hn
  have hcount := L.count_le .inode
  obtain ⟨d', hret, h'⟩ := h.updateBitmap_true .inode hpos (by omega)
  exact ⟨d', hret, h', h'.inodePtr_eq (isInode_of_clear hn)⟩

theorem Shows.giveBack {inode : Inode} (h : L.Shows d v)
    (h' : L.Shows d' ((v.mark .inode n).setInode n inode)) (hn : n ∈ v.clear L .inode) :
    ∃ d'', updateBitmap d' .inode n false = .ok d'' ∧ L.Shows d'' (v.setInode n inode) := by
  obtain ⟨hpos, hle, hbit⟩ := View.mem_clear.mp hn
  have hcount := L.count_le .inode
  obtain ⟨d'', hret, hshows⟩ := h'.updateBitmap_false .inode hpos (by omega)
  have hcounters := h.counters_lt .inode
  refine ⟨d'', hret, (congrArg (L.Shows d'') ?_).mp hshows⟩
  change ((v.mark .inode n).release .inode n).setInode n inode = v.setInode n inode
  rw [View.release_mark hbit hcounters.1 hcounters.2]

end Layout

end KernelProgramming.Ext2
