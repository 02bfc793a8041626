import KernelProgramming.Ext2.Unlink

/-!
# The block of a removed name

`ext2_rm` looks for the block that holds the entry, to free it if nothing else is
in it.  The search ends in the first block of the directory, where `.` and `..`
are, whatever it finds there.
-/

namespace KernelProgramming.Ext2

open ByteMemory

variable {L : Layout} {d d' : Disk} {v w : View} {a b f i j k n p : ℕ} {path : CString}

namespace View

/-- The entry at `a` is in the block that slot `i` of directory `p` leads to. -/
structure HeldIn (L : Layout) (v : View) (p a i : ℕ) : Prop extends v.Entry L p a where
  slot_lt : i < directBlockCount
  slot_ne : (v.inode p).block i ≠ 0
  held : a ∈ v.entriesOf ((v.inode p).block i)

/-- A single entry of the block is in use. -/
def HoldsOne (v : View) (b : ℕ) : Prop := (v.entriesOf b).countP (live v.byte) = 1

def FirstSlot (v : View) (p i : ℕ) : Prop := ∀ j < i, (v.inode p).block j = 0

/-- What happens to the blocks of directory `p` when the name in slot `i` goes. -/
structure ReleasesBlock (v w : View) (p i : ℕ) : Prop where
  emptied : v.HoldsOne ((v.inode p).block i) →
    w.bit .block ((v.inode p).block i - 1) = false ∧
      (w.inode p).block = Function.update (v.inode p).block i 0 ∧
      (w.inode p).blocks = ((v.inode p).blocks + (2 ^ 32 - 1)) % 2 ^ 32
  shared : ¬ v.HoldsOne ((v.inode p).block i) → (w.inode p).block = (v.inode p).block

end View

/-- The entry at `a`, which the path names, is found in its slot `i`, and its block goes
with the last name in it. -/
structure ReleasesEmptied (L : Layout) (d : Disk) (v : View) (path : CString) (p a i : ℕ) :
    Prop where
  locate : locateDirEntryInBlock d (L.inodeAddress p) a = .ok (some i)
  remove : ∀ recursive now depth,
    ∃ d' w, ext2Rm d recursive path now (depth + 1) = .ok (0, d') ∧ L.Shows d' w ∧
      v.ReleasesBlock w p i

/-! ## The first block -/

theorem find?_first {P : ℕ → Bool} (hi : i < n) (hP : P i = true) (hfirst : ∀ j < i, P j = false) :
    (List.range n).find? P = some i := by
  rw [List.find?_range_eq_some]
  exact ⟨hP, List.mem_range.mpr hi, fun j hj => by rw [hfirst j hj]; rfl⟩

namespace View

theorem HeldIn.slot_total (h : v.HeldIn L p a i) : i < totalBlockCount :=
  h.slot_lt.trans (by decide)

/-- The first block of a directory holds `.` and `..`. -/
theorem FirstSlot.not_holdsOne (hfirst : v.FirstSlot p i) (hheld : v.HeldIn L p a i)
    (hh : v.Hierarchy L) : ¬ v.HoldsOne ((v.inode p).block i) := by
  have hp := hheld.isDir
  obtain ⟨b, bs, x, y, hdata, hx, hy, hxe, hye, hxname, hyname, -⟩ := hh.exists_dots hp
  rw [data_of_directOnly (hh.direct p hp)] at hdata
  obtain ⟨j, hj, hfind, rfl⟩ := find?_slot hdata
  have hfirst' : (List.range totalBlockCount).find? (fun j => (v.inode p).block j != 0) = some i :=
    find?_first hheld.slot_total (by simpa using hheld.slot_ne) fun j hj => by simp [hfirst j hj]
  obtain rfl : j = i := Option.some.inj (hfind.symm.trans hfirst')
  have hne : x ≠ y := by
    rintro rfl
    exact absurd (hxname.symm.trans hyname) (by decide)
  have htwo := two_le_countP hx hy hne hxe.live hye.live
  intro hone
  rw [HoldsOne] at hone
  omega

end View

namespace Layout

/-- The search takes the first slot in use. -/
theorem Shows.locateDirEntryInBlock_eq (h : L.Shows d v) (hc : v.Consistent L)
    (hh : v.Hierarchy L) (hheld : v.HeldIn L p a i) :
    ∃ k ≤ i, v.FirstSlot p k ∧ (v.inode p).block k ≠ 0 ∧
      locateDirEntryInBlock d (L.inodeAddress p) a = .ok (some k) := by
  have hp := hheld.isDir
  have hslot : ∀ j < totalBlockCount, d.u32 (iBlock (L.inodeAddress p) j) = (v.inode p).block j :=
    fun j hj => h.iBlock_eq hp.1.1 hj
  have hin := hheld.slot_total
  have hex : ∃ k, (v.inode p).block k ≠ 0 := ⟨i, hheld.slot_ne⟩
  have hk := Nat.find_spec hex
  have hki : Nat.find hex ≤ i := Nat.find_min' hex hheld.slot_ne
  have hfirst : v.FirstSlot p (Nat.find hex) := fun j hj => not_not.mp (Nat.find_min hex hj)
  generalize Nat.find hex = k at hk hki hfirst
  have hfind : (List.range totalBlockCount).find?
      (fun j => d.u32 (iBlock (L.inodeAddress p) j) != 0) = some k := by
    apply find?_first (by omega)
    · simpa [hslot k (by omega)] using hk
    · intro j hj
      simp [hslot j (by omega), hfirst j hj]
  have hdata : (v.inode p).block k ∈ v.data p := by
    rw [View.data_of_directOnly (hh.direct p hp)]
    exact List.mem_filter.mpr ⟨List.mem_map_of_mem (List.mem_range.mpr (by omega)), by simpa⟩
  have hplain := (hc.used p hp.1 _ (View.data_subset_owned v p hdata)).2.1
  obtain ⟨htiled, -⟩ := h.tiled hplain (hc.tiled p hp.1 hp.2 _ hdata)
  refine ⟨k, hki, hfirst, hk, ?_⟩
  rw [locateDirEntryInBlock, hfind]
  simp only [bind, Except.bind, hslot k (by omega), h.blockPtr_eq hplain.lt, htiled.searchBlock_eq]

/-- Whatever name of a file goes, its directory keeps its inode. -/
theorem Shows.ext2Rm_directory (h : L.Shows d v) (hc : v.Consistent L) (hh : v.Hierarchy L)
    (hnames : v.Names L path p a) (hlen : path.length % 16 ≠ 0)
    (htype : fileType v.byte a = ext2FtRegFile ∨ fileType v.byte a = ext2FtSymlink)
    (hfit : (v.inode (v.target a)).linksCount = 1 → v.StraysFit L (v.target a))
    (recursive : Bool) (now depth : ℕ) :
    ∃ d' w, ext2Rm d recursive path now (depth + 1) = .ok (0, d') ∧ L.Shows d' w ∧
      w.inode p = v.inode p := by
  have hw := (View.Pruned.refl (X := fun _ => False) hc).toThinned
  have hA : ∀ x ∈ ([] : List ℕ), ¬ (v.inode (v.target x)).IsDirectory := fun _ hx =>
    absurd hx List.not_mem_nil
  have hnotdir : fileType v.byte a ≠ ext2FtDir := by
    rcases htype with htype | htype <;> rw [htype] <;> decide
  have hfile := mt (hh.types p a hnames.entry).mpr hnotdir
  have hchild := hh.child_of_entry hnames.entry hfile
  have hlive := hc.live_target hnames.entry
  have hpos := ((View.Pruned.refl (X := fun _ => False) hc).freed_iff hc hh hchild
    List.not_mem_nil hfile).1
  obtain ⟨d', hret, h'⟩ := (h.removeFile_eq hw hc hh hchild List.not_mem_nil hpos (fun hone =>
    ((hfit hone).walkable fun b hb => (hc.used _ hlive b hb).2.1).congr
      ((hw.dropLink _).block _) rfl) now
    fun d w h hw => Runs.yields_of_eq_ok
      ((h.findDirEntry_names hw hc hh hA hnames).2 hlen) rfl).exists_ok
  have hne : p ≠ v.target a := fun heq => hfile (heq ▸ hnames.entry.isDir.2)
  refine ⟨d', _, ?_, h', View.inode_removeName_of_ne hne v now⟩
  have hfind := (h.findDirEntry_names hw hc hh hA hnames).1
  rw [if_neg List.not_mem_nil] at hfind
  have htype' := h.fileType_eq hw hc hnames.entry
  unfold ext2Rm
  rw [if_neg (by simp [hnames.absolute]), if_neg hnames.length_ne_one]
  simp only [bind, Except.bind, hfind]
  rw [if_neg (fun hboth => hnotdir (htype' ▸ hboth.1)), removeDirectoryOrFileOrLink,
    if_pos (htype' ▸ htype), hret]

end Layout

theorem ReleasesEmptied.firstSlot (hrel : ReleasesEmptied L d v path p a i) (h : L.Shows d v)
    (hc : v.Consistent L) (hh : v.Hierarchy L) (hheld : v.HeldIn L p a i) : v.FirstSlot p i := by
  obtain ⟨k, -, hfirst, -, hlocate⟩ := h.locateDirEntryInBlock_eq hc hh hheld
  obtain rfl : k = i := Option.some.inj (Except.ok.inj (hlocate.symm.trans hrel.locate))
  exact hfirst

/-- The block of the name is the first one of the directory, which is never
empty, and the parent of the path is found. -/
theorem releasesEmptied_iff (h : L.Shows d v) (hc : v.Consistent L) (hh : v.Hierarchy L)
    (hheld : v.HeldIn L p a i) (hnames : v.Names L path p a)
    (htype : fileType v.byte a = ext2FtRegFile ∨ fileType v.byte a = ext2FtSymlink) :
    (ReleasesEmptied L d v path p a i → v.FirstSlot p i ∧ path.length % 16 ≠ 0) ∧
      (v.FirstSlot p i ∧ path.length % 16 ≠ 0 →
        ((v.inode (v.target a)).linksCount = 1 → v.StraysFit L (v.target a)) →
        ReleasesEmptied L d v path p a i) := by
  refine ⟨fun hrel => ⟨hrel.firstSlot h hc hh hheld, ?_⟩, fun ⟨hfirst, hlen⟩ hfit => ?_⟩
  · obtain ⟨d', w, hret, -⟩ := hrel.remove false 0 0
    exact length_of_ext2Rm hret
  obtain ⟨k, hki, -, hk, hlocate⟩ := h.locateDirEntryInBlock_eq hc hh hheld
  obtain rfl : k = i := by
    by_contra hne
    exact hk (hfirst k (by omega))
  refine ⟨hlocate, fun recursive now depth => ?_⟩
  obtain ⟨d', w, hret, h', hinode⟩ :=
    h.ext2Rm_directory hc hh hnames hlen htype hfit recursive now depth
  refine ⟨d', w, hret, h', fun hone => absurd hone (hfirst.not_holdsOne hheld hh), fun _ => ?_⟩
  rw [hinode]

/-! ## A name in a block of its own -/

/-- The root has a second block, with the name `f` of the file in it that is `g` in the
first one. -/
def loneDisk : Disk where
  numBlocks := 16
  byte x :=
    match x / 1024 with
    | 1 => putBytes (fun _ => 0) sInodesCount
        (bytes32 16 ++ bytes32 16 ++ bytes32 0 ++ bytes32 7 ++ bytes32 4) x
    | 2 => putBytes (fun _ => 0) bgBlockBitmap
        (bytes32 3 ++ bytes32 4 ++ bytes32 5 ++ bytes16 7 ++ bytes16 4) x
    | 3 => putBytes (fun _ => 0) (1024 * 3) [0xFF#8, 0x80#8] x
    | 4 => putBytes (fun _ => 0) (1024 * 4) [0xFF#8, 0x0F#8] x
    | 5 => putBytes (putInodes (fun _ => 0) (smallLayout.inodeAddress 2) [(ext2SIfdir, 2, 7)])
        (iBlock (smallLayout.inodeAddress 2) 1) (bytes32 8) x
    | 6 => putInodes (fun _ => 0) (smallLayout.inodeAddress 12) [(ext2SIfreg, 2, 0)] x
    | 7 => putBytes (fun _ => 0) (1024 * 7) (entryBytes 2 12 ext2FtDir [dot] ++ [0#8, 0#8, 0#8] ++
        entryBytes 2 12 ext2FtDir [dot, dot] ++ [0#8, 0#8] ++
        entryBytes 12 1000 ext2FtRegFile [0x67#8]) x
    | 8 => putBytes (fun _ => 0) (1024 * 8) (entryBytes 12 1024 ext2FtRegFile [0x66#8]) x
    | _ => 0

def loneView : View := smallLayout.view loneDisk

theorem lone_shows : smallLayout.Shows loneDisk loneView :=
  ⟨⟨rfl, by decide, by decide, by decide, by decide,
    by decide⟩, rfl⟩

def loneOwned (n : ℕ) : List ℕ := if n = 2 then [7, 8] else []

theorem lone_owned : ∀ n < 17, loneView.owned n = loneOwned n := by decide

theorem lone_consistent : loneView.Consistent smallLayout :=
  View.consistent_of_table loneOwned lone_owned (fun t => by cases t <;> decide)
    (by decide) (by decide) (by decide) (by decide)
    (by decide) (by decide) (by decide)

def loneEntries : List ℕ := [7168, 7180, 7192, 8192]

theorem lone_entry (h : loneView.Entry smallLayout k a) : k = 2 ∧ a ∈ loneEntries := by
  have hall : ∀ k < 17, loneView.IsDir smallLayout k → k = 2 ∧ ∀ a ∈ loneView.slots k,
      a ∈ loneEntries := by decide
  obtain ⟨hk, hslots⟩ := hall k (Nat.lt_succ_of_le h.isDir.1.1.2) h.isDir
  exact ⟨hk, hslots a h.slot⟩

theorem lone_child (h : loneView.Child smallLayout k a) :
    ¬ (loneView.inode (loneView.target a)).IsDirectory := by
  have hall : ∀ a ∈ loneEntries, loneView.name a ≠ [dot] → loneView.name a ≠ [dot, dot] →
      ¬ (loneView.inode (loneView.target a)).IsDirectory := by decide
  exact hall _ (lone_entry h.toEntry).2 h.not_dot h.not_dot_dot

theorem lone_hierarchy : loneView.Hierarchy smallLayout where
  direct k hk i hi hi' := by
    have hall : ∀ n < 17, (loneView.inode n).IsDirectory → ∀ i < totalBlockCount,
      directBlockCount ≤ i → (loneView.inode n).block i = 0 := by decide
    exact hall k (Nat.lt_succ_of_le hk.1.1.2) hk.2 i hi' hi
  dots k hk := by
    have hall : ∀ k < 17, loneView.IsDir smallLayout k → k = 2 := by decide
    obtain rfl := hall k (Nat.lt_succ_of_le hk.1.1.2) hk
    exact ⟨7, [8], 2, [⟨[0x67#8], 12, ext2FtRegFile⟩], by decide, by decide +kernel⟩
  names k a x ha hx hname := by
    have hall : ∀ a ∈ loneEntries, ∀ x ∈ loneEntries,
      loneView.name a = loneView.name x → a = x := by decide
    exact hall _ (lone_entry ha).2 _ (lone_entry hx).2 hname
  legal k a ha := by
    have hall : ∀ a ∈ loneEntries, loneView.name a ≠ [] ∧ slash ∉ loneView.name a ∧
      0 ∉ loneView.name a := by decide
    exact hall _ (lone_entry ha).2
  types k a ha := by
    have hall : ∀ a ∈ loneEntries, (fileType loneView.byte a = ext2FtDir ↔
      (loneView.inode (loneView.target a)).IsDirectory) := by decide
    exact hall _ (lone_entry ha).2
  parent k q a x ha _ _ hdir := absurd hdir (lone_child ha)
  descends := ⟨fun _ => 0, fun k a ha hdir => absurd hdir (lone_child ha)⟩
  links n hn := by
    have hall : ∀ n < 17, loneView.Live smallLayout n →
      (loneView.inode n).linksCount = (loneView.namers smallLayout n).length := by decide
    exact hall n (Nat.lt_succ_of_le hn.1.2) hn

theorem lone_held : loneView.HeldIn smallLayout 2 7192 0 ∧ loneView.HeldIn smallLayout 2 8192 1 :=
  ⟨⟨⟨by decide, by decide, by decide⟩, by decide, by decide, by decide⟩,
    ⟨⟨by decide, by decide, by decide⟩, by decide, by decide, by decide⟩⟩

/-- `/g`, which is in the first of the two blocks. -/
theorem releasesEmptied_iff_first :
    ReleasesEmptied smallLayout loneDisk loneView [slash, 0x67#8] 2 7192 0 :=
  (releasesEmptied_iff lone_shows lone_consistent lone_hierarchy lone_held.1
    ⟨rfl, by decide, lone_held.1.toEntry, [], by decide, rfl⟩ (.inl (by decide))).2
    ⟨fun j hj => absurd hj (Nat.not_lt_zero j), by decide⟩ fun hone => absurd hone (by decide)

theorem not_releasesEmptied : ¬ ∀ (L : Layout) (d : Disk) (v : View) (path : CString)
    (p a i : ℕ), L.Shows d v → v.Consistent L → v.Hierarchy L → v.HeldIn L p a i →
    v.Names L path p a → fileType v.byte a = ext2FtRegFile ∨ fileType v.byte a = ext2FtSymlink →
    ReleasesEmptied L d v path p a i := by
  intro h
  have hrel := h smallLayout loneDisk loneView [slash, 0x66#8] 2 8192 1 lone_shows lone_consistent
    lone_hierarchy lone_held.2 ⟨rfl, by decide, lone_held.2.toEntry, [], by decide, rfl⟩
    (.inl (by decide))
  have hfirst := hrel.firstSlot lone_shows lone_consistent lone_hierarchy lone_held.2
  exact absurd (hfirst 0 (by decide)) (by decide)

end KernelProgramming.Ext2
