import KernelProgramming.Ext2.Insertion

/-!
# When a directory block stays well formed

The tests by which `allocate_space_in_block` chooses a place do not compare its
size with the new name.  The block stays tiled if and only if the name fits.
-/

namespace KernelProgramming.Ext2

open ByteMemory

variable {d d' : Disk} {a b e n z inodeNum type start blockNum : ℕ} {m : ℕ → Byte}
  {name : CString} {es xs ys : List ℕ}

/-- The first entry behind a tiled part of a block. -/
theorem Tiled.wellFormed_of_prefix (h : Tiled m z a es) (hxs : Tiled m b a xs) (hb : b < z) :
    WellFormed m b ∧ ∃ ys, Tiled m z (b + recLen m b) ys := by
  induction hxs generalizing es with
  | nil =>
      cases h with
      | nil => exact absurd hb (lt_irrefl _)
      | cons hwf _ htail => exact ⟨hwf, _, htail⟩
  | cons hwf hle htail ih =>
      cases h with
      | nil =>
          have := htail.le
          omega
      | cons _ _ htail' => exact ih htail'

/-- A deleted entry that gets a name must be long enough for it. -/
theorem Tiled.reuse_fits (h : Tiled d.byte z a (xs ++ e :: ys)) (hname : name.length < 256)
    (hinode : inodeNum < 2 ^ 32) (htype : type < 256)
    (h' : Tiled (fillEntry d e name.length inodeNum name type).byte z a es) :
    room name.length ≤ recLen d.byte e := by
  obtain ⟨hxs, hwf, hle, -⟩ := h.around
  have hlong := hwf.le
  have hsame := fillEntry_sameBut d e inodeNum type name
  obtain ⟨hlen, -, hrec⟩ := fillEntry_entry (d := d) (e := e) hname hinode htype
  obtain ⟨hxs', -⟩ := hxs.congr fun x hx hx' => hsame.byte_eq x (by unfold Filled; omega)
  have hroom := (h'.wellFormed_of_prefix hxs' (by omega)).1.room_le
  rwa [hlen, hrec] at hroom

/-- What the last entry gives up must be long enough for the new one. -/
theorem Tiled.splitLast_fits (h : Tiled d.byte z a (xs ++ [e]))
    (hname : name.length < 256) (hinode : inodeNum < 2 ^ 32) (htype : type < 256)
    (htest : (16 + name.length + nameLen d.byte e + 3) / 4 * 4 ≤ recLen d.byte e)
    (hsplit : Ext2.splitLast d e name.length inodeNum name type = (true, d'))
    (h' : Tiled d'.byte z a es) :
    room (nameLen d.byte e) + room name.length ≤ recLen d.byte e := by
  obtain ⟨hxs, hwf, hle, -⟩ := h.around
  have hp := room_bounds (nameLen d.byte e)
  obtain ⟨d'', hsplit', -, hbyte, hrec, hrem, hlen, -⟩ :=
    splitLast_eq (d := d) (e := e) hname hinode htype htest
  obtain rfl : d'' = d' := congrArg Prod.snd (hsplit'.symm.trans hsplit)
  obtain ⟨hxs', -⟩ := hxs.congr fun x hx hx' => hbyte x (by omega) (by omega) (by omega)
  -- the tiling meets the shortened entry and then the new one
  obtain ⟨-, ys, hys⟩ := h'.wellFormed_of_prefix hxs' (by omega)
  rw [hrec] at hys
  have hroom := (hys.wellFormed_of_prefix .nil (by omega)).1.room_le
  rw [hlen, hrem] at hroom
  omega

/-- The block at `start` keeps its entries and gets the new one, or nothing is
changed at all. -/
def InsertionKeeps (d : Disk) (blockNum start inodeNum : ℕ) (name : CString) (type : ℕ)
    (es : List ℕ) : Prop :=
  ∃ found d', allocateSpaceInBlock d name.length blockNum inodeNum name type = .ok (found, d') ∧
    if found then Inserted d d' start (start + 1024) es ⟨name, inodeNum, type⟩ else d' = d

section

variable (hptr : blockPtr d blockNum = .ok start) (h : Tiled d.byte (start + 1024) start es)
  (hname : name.length < 256) (hinode : inodeNum < 2 ^ 32) (hpos : inodeNum ≠ 0)
  (htype : type < 256)

include hptr h hname hinode hpos htype

theorem Tiled.insertionKeeps
    (hfits : takes d.byte name.length es = true → FitsIn d.byte name.length es) :
    InsertionKeeps d blockNum start inodeNum name type es := by
  have hput := allocateSpaceInBlock_eq hptr h hname hinode hpos htype
  by_cases htakes : takes d.byte name.length es = true
  · rw [if_pos htakes] at hput
    obtain ⟨d', hput, hins⟩ := hput (hfits htakes)
    exact ⟨true, d', hput, hins⟩
  · rw [if_neg htakes] at hput
    exact ⟨false, d, hput, rfl⟩

omit hpos in
theorem Tiled.fits_of_insertionKeeps
    (hkeeps : InsertionKeeps d blockNum start inodeNum name type es)
    (htakes : takes d.byte name.length es = true) : FitsIn d.byte name.length es := by
  obtain ⟨found, d', hput, hins⟩ := hkeeps
  have hmod : name.length % 256 = name.length := Nat.mod_eq_of_lt hname
  unfold allocateSpaceInBlock at hput
  unfold takes at htakes
  unfold FitsIn
  simp only [bind, Except.bind, hptr, hmod, h.searchBlock_eq, h.entries_eq] at hput
  cases hfind : es.find? (reusable d.byte) with
  | some e =>
      obtain ⟨xs, ys, rfl⟩ := List.append_of_mem (List.mem_of_find?_eq_some hfind)
      rw [hfind] at hput
      obtain ⟨rfl, rfl⟩ := Prod.mk.inj (Except.ok.inj hput)
      obtain ⟨-, es', htiled, -⟩ := hins
      exact h.reuse_fits hname hinode htype htiled
  | none =>
      rw [hfind] at hput htakes
      cases hlast : es.getLast? with
      | none =>
          rw [hlast] at htakes
          exact absurd htakes Bool.false_ne_true
      | some e =>
          obtain ⟨xs, rfl⟩ := List.getLast?_eq_some_iff.mp hlast
          rw [hlast] at hput htakes
          have htest := of_decide_eq_true htakes
          have hsplit := Except.ok.inj hput
          obtain rfl : found = true := by
            rw [Ext2.splitLast, if_pos htest] at hsplit
            exact (congrArg Prod.fst hsplit).symm
          obtain ⟨-, es', htiled, -⟩ := hins
          exact h.splitLast_fits hname hinode htype htest hsplit htiled

theorem insertion_keeps_iff :
    InsertionKeeps d blockNum start inodeNum name type es ↔
      (takes d.byte name.length es = true → FitsIn d.byte name.length es) :=
  ⟨h.fits_of_insertionKeeps hptr hname hinode htype,
    h.insertionKeeps hptr hname hinode hpos htype⟩

end

/-- A block with a deleted entry of 12 bytes before a live one. -/
def reusedDisk : Disk :=
  (Disk.mk 2 fun _ => 0).copy 1024 (bytes32 0 ++ bytes16 12 ++ [1#8, 1#8, 0x61#8, 0#8, 0#8, 0#8] ++
    bytes32 11 ++ bytes16 1012 ++ [1#8, 1#8, 0x62#8])

theorem reused_tiled : Tiled reusedDisk.byte (1024 + 1024) 1024 [1024, 1036] := by decide

theorem insertion_keeps_iff_short :
    InsertionKeeps reusedDisk 1 1024 12 [0x63#8] ext2FtRegFile [1024, 1036] ↔
      (takes reusedDisk.byte 1 [1024, 1036] = true → FitsIn reusedDisk.byte 1 [1024, 1036]) :=
  insertion_keeps_iff (by decide) reused_tiled (by decide) (by decide) (by decide) (by decide)

/-- The name `abcde` is written over the entry behind. -/
theorem insertion_not_keeps : ¬ ∀ (d : Disk) (blockNum start inodeNum type : ℕ) (name : CString)
    (es : List ℕ), blockPtr d blockNum = .ok start → Tiled d.byte (start + 1024) start es →
    1 ≤ name.length → name.length < 256 → inodeNum < 2 ^ 32 → inodeNum ≠ 0 → type < 256 →
      InsertionKeeps d blockNum start inodeNum name type es := by
  intro h
  have hkeeps := h reusedDisk 1 1024 12 ext2FtRegFile [0x61#8, 0x62#8, 0x63#8, 0x64#8, 0x65#8]
    [1024, 1036] (by decide) reused_tiled (by decide) (by decide) (by decide) (by decide)
    (by decide)
  have hfits := reused_tiled.fits_of_insertionKeeps (by decide) (by decide) (by decide) (by decide)
    hkeeps (by decide)
  revert hfits
  decide

end KernelProgramming.Ext2
