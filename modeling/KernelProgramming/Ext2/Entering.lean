import KernelProgramming.Ext2.Creation
import KernelProgramming.Ext2.Paths

/-!
# A name in a directory

What the tools that make new names have in common: the place for the entry, and
the lookup of the name afterwards.
-/

namespace KernelProgramming.Ext2

open ByteMemory

variable {L : Layout} {d : Disk} {v w : View} {i k n p type : ℕ} {dir name : CString}

theorem exists_name {path : CString} (habsolute : path.head? = some slash)
    (hslash : path.getLast? ≠ some slash) :
    ∃ dir name, path = dir ++ slash :: name ∧ slash ∉ name ∧ name ≠ [] := by
  obtain ⟨dir, name, rfl, hname⟩ := exists_last_slash (List.mem_of_mem_head? habsolute)
  refine ⟨dir, name, rfl, hname, ?_⟩
  rintro rfl
  simp at hslash

/-- A directory in which a name is not found has been searched to the end. -/
theorem View.directOnly_of_lookup (hsearch : v.Searchable p name) (h : v.lookup p name = none) :
    (v.inode p).DirectOnly := by
  apply hsearch.resolve_right
  rintro ⟨e, he, hname⟩
  obtain ⟨rest, hdata⟩ := v.data_eq_append p
  have hnone := List.find?_eq_none.mp h e (by
    rw [View.files, hdata, List.flatMap_append, filesIn_append]
    exact List.mem_append_left _ he)
  simp [hname] at hnone

theorem View.SearchPath.concat {names : List CString} (hpath : v.SearchPath n (names ++ [name]))
    (hreach : v.reach n names = some p) (hc : v.Consistent L) (hn : v.Live L n)
    (h : v.Extends L w) (hdir : (w.inode p).IsDirectory) (hsearch : w.Searchable p name) :
    w.SearchPath n (names ++ [name]) := by
  induction names generalizing n with
  | nil =>
      obtain rfl : n = p := by simpa [View.reach] using hreach
      exact ⟨hdir, hsearch, fun _ _ => trivial⟩
  | cons first names ih =>
      obtain ⟨hdir', hsearch', hnext⟩ := hpath
      rw [View.reach, if_pos hdir'] at hreach
      obtain ⟨e, he, hrest⟩ := Option.bind_eq_some_iff.mp hreach
      refine ⟨h.dir n hn hdir', h.search n first hn hdir' hsearch', fun e' he' => ?_⟩
      rw [h.lookup n first e hn hdir' he] at he'
      obtain rfl := Option.some.inj he'
      exact ih (hnext e he) hrest (hc.live_of_lookup hn hdir' he)

/-! ## Room for a name -/

/-- The first place that directory `p` has for a name of this length is large
enough; if there is no place, it can get one of at least `spare` free blocks. -/
def View.HasRoom (L : Layout) (v : View) (p nameLength spare : ℕ) : Prop :=
  match (v.data p).find? (v.takes nameLength) with
  | some b => v.FitsIn nameLength b
  | none => (∃ i < directBlockCount, (v.inode p).block i = 0) ∧
      spare ≤ (v.clear L .block).length

/-- Directory `p` has a place for a name of this length, and the first one is large enough. -/
def View.HasPlace (v : View) (p nameLength : ℕ) : Prop :=
  match (v.data p).find? (v.takes nameLength) with
  | some b => v.FitsIn nameLength b
  | none => False

instance (p nameLength : ℕ) : Decidable (v.HasPlace p nameLength) := by
  unfold View.HasPlace
  split <;> infer_instance

theorem View.HasPlace.exists_find {nameLength : ℕ} (h : v.HasPlace p nameLength) :
    ∃ b, (v.data p).find? (v.takes nameLength) = some b ∧ v.FitsIn nameLength b := by
  unfold View.HasPlace at h
  split at h
  · exact ⟨_, ‹_›, h⟩
  · exact h.elim

theorem View.HasPlace.hasRoom {nameLength : ℕ} (h : v.HasPlace p nameLength) (spare : ℕ) :
    v.HasRoom L p nameLength spare := by
  obtain ⟨b, hfind, hfits⟩ := h.exists_find
  rw [View.HasRoom, hfind]
  exact hfits

/-- The places of a directory depend on its own blocks. -/
theorem View.place_congr (hdata : w.data p = v.data p)
    (hsame : ∀ b ∈ v.data p, v.SameBlock w b) (htiled : ∀ b ∈ v.data p, v.TiledBlock b)
    (nameLength : ℕ) :
    (w.data p).find? (w.takes nameLength) = (v.data p).find? (v.takes nameLength) ∧
      ∀ b ∈ v.data p, (w.FitsIn nameLength b ↔ v.FitsIn nameLength b) := by
  have hchoice : ∀ b ∈ v.data p, w.takes nameLength b = v.takes nameLength b ∧
      (w.FitsIn nameLength b ↔ v.FitsIn nameLength b) := by
    intro b hb
    have hes := (View.entriesOf_congr (hsame b hb) (htiled b hb)).2.1
    rw [View.takes, View.takes, View.FitsIn, View.FitsIn, hes]
    exact Tiled.choice_congr (htiled b hb) (fun x hx hx' => by
      obtain ⟨i, rfl⟩ := Nat.exists_eq_add_of_le hx
      exact hsame b hb i (by omega)) nameLength
  refine ⟨?_, fun b hb => (hchoice b hb).2⟩
  rw [hdata]
  exact find?_congr fun b hb => (hchoice b hb).1

theorem View.HasRoom.congr {nameLength s t : ℕ} (hroom : v.HasRoom L p nameLength s)
    (hblock : (w.inode p).block = (v.inode p).block) (hdata : w.data p = v.data p)
    (hsame : ∀ b ∈ v.data p, v.SameBlock w b) (htiled : ∀ b ∈ v.data p, v.TiledBlock b)
    (hspare : s ≤ (v.clear L .block).length → t ≤ (w.clear L .block).length) :
    w.HasRoom L p nameLength t := by
  obtain ⟨hplace, hfits⟩ := View.place_congr hdata hsame htiled nameLength
  unfold View.HasRoom at hroom ⊢
  rw [hplace]
  cases hfind : (v.data p).find? (v.takes nameLength) with
  | some b =>
      rw [hfind] at hroom
      exact (hfits b (List.mem_of_find?_eq_some hfind)).mpr hroom
  | none =>
      rw [hfind] at hroom
      obtain ⟨hzero, hfree⟩ := hroom
      rw [hblock]
      exact ⟨hzero, hspare hfree⟩

theorem View.Keeps.place (h : v.Keeps w p) (hc : v.Consistent L) (hp : v.Live L p)
    (hdir : (v.inode p).IsDirectory) (nameLength : ℕ) :
    (w.data p).find? (w.takes nameLength) = (v.data p).find? (v.takes nameLength) ∧
      ∀ b ∈ v.data p, (w.FitsIn nameLength b ↔ v.FitsIn nameLength b) :=
  View.place_congr h.data_eq (fun b hb => h.same b (View.data_subset_owned v p hb))
    (hc.tiled p hp hdir) nameLength

theorem View.Keeps.hasRoom {nameLength s t : ℕ} (h : v.Keeps w p) (hc : v.Consistent L)
    (hp : v.Live L p) (hdir : (v.inode p).IsDirectory)
    (hspare : s ≤ (v.clear L .block).length → t ≤ (w.clear L .block).length)
    (hroom : v.HasRoom L p nameLength s) : w.HasRoom L p nameLength t :=
  hroom.congr h.block h.data_eq (fun b hb => h.same b (View.data_subset_owned v p hb))
    (hc.tiled p hp hdir) hspare

namespace Layout

theorem IsInode.bounds (hn : L.IsInode n) : n ≠ 0 ∧ n < 2 ^ 32 := by
  obtain ⟨hpos, hle⟩ := hn
  have := L.inodesCount_le
  omega

/-! ## Places -/

theorem Shows.freeSlot_eq (h : L.Shows d v) (hk : L.IsInode k)
    (hzero : ∃ i < directBlockCount, (v.inode k).block i = 0) :
    ∃ i < directBlockCount, freeSlot d (L.inodeAddress k) = some i ∧ (v.inode k).block i = 0 := by
  have hfree : freeSlot d (L.inodeAddress k) =
      (List.range totalBlockCount).find? fun i => (v.inode k).block i == 0 :=
    find?_congr fun i hi => by rw [h.iBlock_eq hk (List.mem_range.mp hi)]
  obtain ⟨j, hj, hjzero⟩ := hzero
  rw [hfree]
  cases hfind : (List.range totalBlockCount).find? fun i => (v.inode k).block i == 0 with
  | none =>
      have hnone := List.find?_eq_none.mp hfind j
        (List.mem_range.mpr (lt_trans hj (by decide)))
      exact absurd (beq_iff_eq.mpr hjzero) hnone
  | some i =>
      obtain ⟨hi, -, hleast⟩ := List.find?_range_eq_some.mp hfind
      refine ⟨i, ?_, rfl, beq_iff_eq.mp hi⟩
      by_contra hle
      have hbefore := hleast j (by omega)
      simp [hjzero] at hbefore

/-- A new block for the directory goes into its first free slot. -/
theorem Shows.grow (h : L.Shows d v) (hp : L.IsInode p)
    (hzero : ∃ i < directBlockCount, (v.inode p).block i = 0) (hfree : findFreeBlock d ≠ 0) :
    ∃ d₁ i, updateBitmap d .block (findFreeBlock d) true = .ok d₁ ∧
      freeSlot d₁ (L.inodeAddress p) = some i ∧ i < directBlockCount ∧ (v.inode p).block i = 0 ∧
      findFreeBlock d ∈ v.clear L .block ∧
      let d₂ := d₁.setU32 (iBlock (L.inodeAddress p) i) (findFreeBlock d)
      L.Shows (d₂.setU32 (iBlocks (L.inodeAddress p)) (d₂.u32 (iBlocks (L.inodeAddress p)) + 1))
        (v.attach p i (findFreeBlock d)) := by
  have hb := h.findFreeBlock_mem hfree
  obtain ⟨d₁, hmark, h₁, -⟩ := h.attach hp (show 0 < totalBlockCount by decide) hb
  obtain ⟨i, hi, hslot, hizero⟩ := h₁.freeSlot_eq hp hzero
  obtain ⟨d₁', hmark', -, h₂⟩ := h.attach hp (lt_trans hi (by decide)) hb
  obtain rfl : d₁ = d₁' := Except.ok.inj (hmark.symm.trans hmark')
  exact ⟨d₁, i, hmark, hslot, hi, hizero, hb, h₂⟩

/-- The first block with a place gets the entry, if the name fits. -/
theorem Shows.enter_place (h : L.Shows d v) (hc : v.Consistent L) (hp : v.Live L p)
    (hdir : (v.inode p).IsDirectory) (hdirect : (v.inode p).DirectOnly)
    (hname : name.length < 256) (hn : v.Live L n) (htype : type < 256) :
    match (v.data p).find? (v.takes name.length) with
    | some b => v.FitsIn name.length b → ∃ d' w entries,
        allocateSpace d (L.inodeAddress p) name.length n name type (List.range totalBlockCount) =
            .ok (true, d') ∧ L.Shows d' w ∧ v.Rewrites w b entries ∧
          Adds ⟨name, n, type⟩ (filesIn v.byte (v.entriesOf b)) entries
    | none => allocateSpace d (L.inodeAddress p) name.length n name type
        (List.range totalBlockCount) = .ok (false, d) := by
  have hblocks : ∀ b ∈ v.data p, L.IsPlain b ∧ v.TiledBlock b := fun b hb =>
    ⟨(hc.used p hp b (View.data_subset_owned v p hb)).2.1, hc.tiled p hp hdir b hb⟩
  have hput := h.allocateSpace_eq hp.1 (List.range totalBlockCount)
    (fun i hi => List.mem_range.mp hi) (by rwa [← View.data_of_directOnly hdirect]) hname
    hn.1.bounds.2 hn.1.bounds.1 htype
  rw [← View.data_of_directOnly hdirect] at hput
  cases hfind : (v.data p).find? (v.takes name.length) with
  | some b =>
      rw [hfind] at hput
      intro hfits
      obtain ⟨d', hput, hins⟩ := hput hfits
      obtain ⟨hplain, htiled⟩ := hblocks b (List.mem_of_find?_eq_some hfind)
      obtain ⟨w, entries, hw, hrw, hadds⟩ := h.inserted hplain htiled hins
      exact ⟨d', w, entries, hput, hw, hrw, hadds⟩
  | none =>
      rw [hfind] at hput
      exact hput

/-! ## Lookup afterwards -/

/-- A name is looked up in the directory that the path in front of it leads to. -/
theorem Shows.findDirEntry_lookup (h : L.Shows d v) (hc : v.Consistent L) (hname : slash ∉ name)
    (hne : name ≠ []) (habsolute : (dir ++ slash :: name).head? = some slash)
    (hsearch : v.SearchPath rootInodeNumber (tokens dir ++ [name]))
    (hreach : v.reach rootInodeNumber (tokens dir) = some p) :
    ∃ r, findDirEntry d (dir ++ slash :: name) = .ok r ∧
      r.map (dirEntry d.byte) = v.lookup p name := by
  have htail : tokens (dir ++ slash :: name).tail = tokens dir ++ [name] :=
    (tokens_tail habsolute).trans (tokens_split hname hne)
  obtain ⟨r, hfind, hr⟩ := h.findDirEntry_eq hc (dir ++ slash :: name) (by rwa [htail])
    (by rw [htail]; simp)
  refine ⟨r, hfind, ?_⟩
  rw [hr, htail, View.walk_concat, hreach]
  exact if_pos (hsearch.directory hreach).1

/-- The path to a name in directory `p` still leads to that directory. -/
theorem Shows.findDirEntry_still (h : L.Shows d w) (hc : v.Consistent L) (hcw : w.Consistent L)
    (hstill : v.Extends L w) (hname : slash ∉ name) (hne : name ≠ [])
    (habsolute : (dir ++ slash :: name).head? = some slash)
    (hsearch : v.SearchPath rootInodeNumber (tokens dir ++ [name]))
    (hreach : v.reach rootInodeNumber (tokens dir) = some p) (hdir : (w.inode p).IsDirectory)
    (hdirect : (w.inode p).DirectOnly) :
    ∃ r, findDirEntry d (dir ++ slash :: name) = .ok r ∧
      r.map (dirEntry d.byte) = w.lookup p name :=
  h.findDirEntry_lookup hcw hname hne habsolute
    (hsearch.concat hreach hc hc.root.1 hstill hdir (.inl hdirect))
    (hstill.reach hc hc.root.1 hreach)

end Layout

theorem Layout.Shows.finds {path : CString} (h : L.Shows d w) (hc : w.Consistent L)
    (hne : tokens path.tail ≠ []) (hsearch : w.SearchPath rootInodeNumber (tokens path.tail))
    (hreach : w.reach rootInodeNumber (tokens path.tail) = some k) :
    ∃ entry, findDirEntry d path = .ok (some entry) ∧ entryInode d.byte entry = k := by
  obtain ⟨r, hfind, hr⟩ := h.findDirEntry_eq hc _ hsearch hne
  rw [← w.walk_eq_reach _ hne, ← hr] at hreach
  cases r with
  | none => exact absurd hreach (by simp)
  | some entry => exact ⟨entry, hfind, Option.some.inj hreach⟩

end KernelProgramming.Ext2
