import KernelProgramming.Ext2.PathSplit

/-!
# When path resolution is the walk through the directories

`find_dir_entry` does not look whether a component names a directory.  It takes
the blocks of a file for blocks of a directory, and goes on from what it meets.
-/

namespace KernelProgramming.Ext2

open ByteMemory

variable {L : Layout} {d : Disk} {v : View} {path name token : CString}
  {names rest : List CString} {inode n k e : ℕ}

/-! ## Searches that find nothing -/

/-- The blocks in these slots are in the image, and no entry of length 0 is met
in them. -/
def ScanEnds (d : Disk) (inode : ℕ) (slots : List ℕ) : Prop :=
  ∀ i ∈ slots, d.u32 (iBlock inode i) ≠ 0 →
    ∃ start, blockPtr d (d.u32 (iBlock inode i)) = .ok start ∧ (entries d.byte start).2 = true

theorem locateFrom_eq_none_iff (d : Disk) (inode : ℕ) (name : CString) (slots : List ℕ) :
    locateFrom d inode name slots = .ok none ↔
      (scannedFrom d inode slots).find? (matchesName d.byte name) = none ∧
        ScanEnds d inode slots := by
  induction slots with
  | nil => simp [locateFrom, scannedFrom, ScanEnds]
  | cons i slots ih =>
      have hcons : ScanEnds d inode (i :: slots) ↔ (d.u32 (iBlock inode i) ≠ 0 →
          ∃ start, blockPtr d (d.u32 (iBlock inode i)) = .ok start ∧
            (entries d.byte start).2 = true) ∧ ScanEnds d inode slots :=
        List.forall_mem_cons
      rw [hcons, locateFrom, scannedFrom]
      by_cases hzero : d.u32 (iBlock inode i) = 0
      · rw [if_pos hzero, if_pos hzero, ih]
        simp [hzero]
      rw [if_neg hzero, if_neg hzero]
      cases hptr : blockPtr d (d.u32 (iBlock inode i)) with
      | error f => simp [bind, Except.bind, hzero]
      | ok start =>
          simp only [bind, Except.bind, searchBlock, List.find?_append, Option.or_eq_none_iff]
          cases (entries d.byte start).1.find? (matchesName d.byte name) with
          | some e => simp
          | none =>
              cases hend : (entries d.byte start).2 with
              | false => simp [hzero, hend]
              | true => simp [hzero, hend, ih]

/-- The walk from this inode on ends at a name that it does not meet. -/
def DeadEnd (d : Disk) : ℕ → List CString → Prop
  | _, [] => False
  | inode, name :: rest =>
      match (scannedFrom d inode (List.range totalBlockCount)).find? (matchesName d.byte name) with
      | none => ScanEnds d inode (List.range totalBlockCount)
      | some e => ∃ next, inodePtr d (entryInode d.byte e) = .ok next ∧ DeadEnd d next rest

theorem locateFileByName_eq_none_iff (d : Disk) (inode : ℕ) (name : CString) :
    locateFileByName d inode name = .ok none ↔
      (scannedFrom d inode (List.range totalBlockCount)).find? (matchesName d.byte name) = none ∧
        ScanEnds d inode (List.range totalBlockCount) :=
  locateFrom_eq_none_iff d inode name _

theorem locateFileByName_eq_some_iff : locateFileByName d inode name = .ok (some e) ↔
    (scannedFrom d inode (List.range totalBlockCount)).find? (matchesName d.byte name) =
      some e := by
  obtain ⟨r, hr, hscanned⟩ := locateFrom_scanned d inode (List.range totalBlockCount)
  rw [locateFileByName, hscanned]
  exact ⟨found_of_elim hr, fun h => by rw [h]; rfl⟩

theorem walkPath_eq_none_iff (d : Disk) (inode : ℕ) (token : CString) (rest : List CString) :
    walkPath d inode token rest = .ok none ↔ DeadEnd d inode (token :: rest) := by
  induction rest generalizing inode token with
  | nil =>
      rw [walkPath, DeadEnd, locateFileByName_eq_none_iff]
      cases (scannedFrom d inode (List.range totalBlockCount)).find? (matchesName d.byte token) with
      | none => simp
      | some e => simp [DeadEnd]
  | cons next rest ih =>
      rw [walkPath, DeadEnd]
      cases hfind : (scannedFrom d inode (List.range totalBlockCount)).find?
          (matchesName d.byte token) with
      | none =>
          by_cases hend : ScanEnds d inode (List.range totalBlockCount)
          · have hnone := (locateFileByName_eq_none_iff d inode token).mpr ⟨hfind, hend⟩
            simp [bind, Except.bind, hnone, hend]
          · cases hlocate : locateFileByName d inode token with
            | error f => simp [bind, Except.bind, hend]
            | ok r =>
                cases r with
                | none => exact absurd ((locateFileByName_eq_none_iff ..).mp hlocate).2 hend
                | some e =>
                    rw [locateFileByName_eq_some_iff.mp hlocate] at hfind
                    exact absurd hfind (by simp)
      | some e =>
          rw [locateFileByName_eq_some_iff.mpr hfind]
          simp only [bind, Except.bind]
          cases inodePtr d (entryInode d.byte e) with
          | error f => simp
          | ok inode => simp [ih]

/-! ## Resolution -/

/-- `find_dir_entry` ends and returns the entry that the path leads to. -/
def Resolves (d : Disk) (v : View) (path : CString) : Prop :=
  ∃ r, findDirEntry d path = .ok r ∧
    r.map (dirEntry d.byte) = v.walk rootInodeNumber (tokens path)

/-- Where the components lead to something else than a directory, the walk along
those that are left comes to nothing. -/
def StraysEnd (L : Layout) (d : Disk) (v : View) (n : ℕ) (names : List CString) : Prop :=
  ∀ before rest k, names = before ++ rest → rest ≠ [] → v.reach n before = some k →
    ¬ (v.inode k).IsDirectory → DeadEnd d (L.inodeAddress k) rest

theorem straysEnd_of_not_directory (hdir : ¬ (v.inode n).IsDirectory) (hne : names ≠ []) :
    StraysEnd L d v n names ↔ DeadEnd d (L.inodeAddress n) names := by
  refine ⟨fun h => h [] names n rfl hne rfl hdir, fun h before rest k hsplit hrest hreach hk => ?_⟩
  cases before with
  | nil =>
      obtain rfl : n = k := Option.some.inj hreach
      obtain rfl : names = rest := hsplit
      exact h
  | cons name before =>
      rw [View.reach, if_neg hdir] at hreach
      exact absurd hreach (by simp)

theorem straysEnd_of_directory (hdir : (v.inode n).IsDirectory) :
    StraysEnd L d v n (name :: rest) ↔
      ∀ e, v.lookup n name = some e → StraysEnd L d v e.inode rest := by
  constructor
  · intro h e he before rest' k hsplit hrest hreach hk
    refine h (name :: before) rest' k (by rw [hsplit, List.cons_append]) hrest ?_ hk
    rw [View.reach, if_pos hdir, he]
    exact hreach
  · intro h before rest' k hsplit hrest hreach hk
    cases before with
    | nil =>
        obtain rfl : n = k := Option.some.inj hreach
        exact absurd hdir hk
    | cons name' before =>
        obtain ⟨rfl, rfl⟩ := List.cons.inj hsplit
        rw [View.reach, if_pos hdir] at hreach
        obtain ⟨e, he, hreach⟩ := Option.bind_eq_some_iff.mp hreach
        exact h e he before rest' k rfl hrest hreach hk

/-- What the walk along the path from inode `n` on should give. -/
def ResolvesFrom (L : Layout) (d : Disk) (v : View) (n : ℕ) (token : CString)
    (rest : List CString) : Prop :=
  ∃ r, walkPath d (L.inodeAddress n) token rest = .ok r ∧
    r.map (dirEntry d.byte) = v.walk n (token :: rest)

theorem resolvesFrom_of_not_directory (hdir : ¬ (v.inode n).IsDirectory) :
    ResolvesFrom L d v n token rest ↔ StraysEnd L d v n (token :: rest) := by
  have hwalk : v.walk n (token :: rest) = none := by
    cases rest <;> rw [View.walk, if_neg hdir]
  rw [ResolvesFrom, hwalk, straysEnd_of_not_directory hdir (List.cons_ne_nil token rest),
    ← walkPath_eq_none_iff]
  constructor
  · rintro ⟨r, hwalk, hr⟩
    rwa [Option.map_eq_none_iff.mp hr] at hwalk
  · exact fun h => ⟨none, h, rfl⟩

namespace Layout

/-- One directory after the other, up to the first inode that is none. -/
theorem Shows.resolvesFrom_iff (h : L.Shows d v) (hc : v.Consistent L)
    (hdirect : ∀ n, v.Live L n → (v.inode n).IsDirectory → (v.inode n).DirectOnly)
    (token : CString) (rest : List CString) (hn : v.Live L n) :
    ResolvesFrom L d v n token rest ↔ StraysEnd L d v n (token :: rest) := by
  induction rest generalizing n token with
  | nil =>
      by_cases hdir : (v.inode n).IsDirectory
      · rw [straysEnd_of_directory hdir]
        refine iff_of_true ?_ fun e _ before rest k hsplit hrest => ?_
        · rw [ResolvesFrom, walkPath, View.walk, if_pos hdir]
          have hopen : v.OpenAt L n token := hc.openAt hn hdir (.inl (hdirect n hn hdir))
          exact h.locateFileByName_eq hn.1 hopen.blocks hopen.searchable
        · exact absurd (List.append_eq_nil_iff.mp hsplit.symm).2 hrest
      · exact resolvesFrom_of_not_directory hdir
  | cons next rest ih =>
      by_cases hdir : (v.inode n).IsDirectory
      · have hopen : v.OpenAt L n token := hc.openAt hn hdir (.inl (hdirect n hn hdir))
        obtain ⟨r, hlocate, hr⟩ := h.locateFileByName_eq hn.1 hopen.blocks hopen.searchable
        rw [straysEnd_of_directory hdir, ResolvesFrom, walkPath, View.walk, if_pos hdir, hlocate,
          ← hr]
        cases r with
        | none => exact iff_of_true ⟨none, rfl, rfl⟩ fun e he => absurd he (by simp)
        | some entry =>
            have hlive := hc.live_of_lookup hn hdir hr.symm
            simp only [bind, Except.bind, Option.map_some, Option.bind_some, Option.some.injEq,
              forall_eq']
            rw [h.inodePtr_eq (n := entryInode d.byte entry) hlive.1]
            exact ih next hlive
      · exact resolvesFrom_of_not_directory hdir

theorem Shows.resolvesFrom_root (h : L.Shows d v) (habsolute : path.head? = some slash)
    (htokens : tokens path = token :: rest) :
    Resolves d v path ↔ ResolvesFrom L d v rootInodeNumber token rest := by
  rw [Resolves, findDirEntry, tokens_tail habsolute, h.getRootInode_eq, htokens]
  rfl

end Layout

/-- A path on which all components but the last name directories, as far as they
are found. -/
theorem resolves_of_directories (h : L.Shows d v) (hc : v.Consistent L)
    (hdirect : ∀ n, v.Live L n → (v.inode n).IsDirectory → (v.inode n).DirectOnly)
    (habsolute : path.head? = some slash) (hne : tokens path ≠ [])
    (hdirs : ∀ before rest k, tokens path = before ++ rest → rest ≠ [] →
      v.reach rootInodeNumber before = some k → (v.inode k).IsDirectory) :
    Resolves d v path := by
  obtain ⟨token, rest, htokens⟩ := List.exists_cons_of_ne_nil hne
  rw [h.resolvesFrom_root habsolute htokens, h.resolvesFrom_iff hc hdirect token rest hc.root.1,
    ← htokens]
  exact fun before rest k hsplit hrest hreach hk =>
    absurd (hdirs before rest k hsplit hrest hreach) hk

theorem resolves_iff (h : L.Shows d v) (hc : v.Consistent L)
    (hdirect : ∀ n, v.Live L n → (v.inode n).IsDirectory → (v.inode n).DirectOnly)
    (habsolute : path.head? = some slash) (hne : tokens path ≠ []) :
    Resolves d v path ↔ StraysEnd L d v rootInodeNumber (tokens path) := by
  obtain ⟨token, rest, htokens⟩ := List.exists_cons_of_ne_nil hne
  rw [h.resolvesFrom_root habsolute htokens, htokens]
  exact h.resolvesFrom_iff hc hdirect token rest hc.root.1

/-! ## A file that looks like a directory -/

/-- The file `f`, which is also `g`, has a direct block with an entry `x` in it
and an indirect block. -/
def fileDisk : Disk where
  numBlocks := 16
  byte x :=
    match x / 1024 with
    | 1 => putBytes (fun _ => 0) sInodesCount
        (bytes32 16 ++ bytes32 16 ++ bytes32 0 ++ bytes32 5 ++ bytes32 4) x
    | 2 => putBytes (fun _ => 0) bgBlockBitmap
        (bytes32 3 ++ bytes32 4 ++ bytes32 5 ++ bytes16 5 ++ bytes16 4) x
    | 3 => putBytes (fun _ => 0) (1024 * 3) [0xFF#8, 0x83#8] x
    | 4 => putBytes (fun _ => 0) (1024 * 4) [0xFF#8, 0x0F#8] x
    | 5 => putInodes (fun _ => 0) (smallLayout.inodeAddress 2) [(ext2SIfdir, 2, 7)] x
    | 6 => putBytes (putInodes (fun _ => 0) (smallLayout.inodeAddress 12) [(ext2SIfreg, 2, 8)])
        (iBlock (smallLayout.inodeAddress 12) indirectBlock) (bytes32 9) x
    | 7 => putBytes (fun _ => 0) (1024 * 7) (entryBytes 2 12 ext2FtDir [dot] ++ [0#8, 0#8, 0#8] ++
        entryBytes 2 12 ext2FtDir [dot, dot] ++ [0#8, 0#8] ++
        entryBytes 12 12 ext2FtRegFile [0x66#8] ++ [0#8, 0#8, 0#8] ++
        entryBytes 12 988 ext2FtRegFile [0x67#8]) x
    | 8 => putBytes (fun _ => 0) (1024 * 8) (entryBytes 2 1024 ext2FtDir [0x78#8]) x
    | 9 => putBytes (fun _ => 0) (1024 * 9) (bytes32 10) x
    | _ => 0

def fileView : View := smallLayout.view fileDisk

theorem file_shows : smallLayout.Shows fileDisk fileView :=
  ⟨⟨rfl, by decide, by decide, by decide, by decide,
    by decide⟩, rfl⟩

def fileOwned (n : ℕ) : List ℕ :=
  if n = 2 then [7] else if n = 12 then [8, 9, 10] else []

theorem file_owned : ∀ n < 17, fileView.owned n = fileOwned n := by decide +kernel

theorem file_consistent : fileView.Consistent smallLayout :=
  View.consistent_of_table fileOwned file_owned (fun t => by cases t <;> decide)
    (by decide) (by decide) (by decide) (by decide)
    (by decide) (by decide) (by decide)

theorem file_direct (n : ℕ) (hn : fileView.Live smallLayout n)
    (hdir : (fileView.inode n).IsDirectory) : (fileView.inode n).DirectOnly := by
  have hall : ∀ n < 17, (fileView.inode n).IsDirectory → ∀ i < totalBlockCount,
      directBlockCount ≤ i → (fileView.inode n).block i = 0 := by decide
  exact fun i hi hi' => hall n (Nat.lt_succ_of_le hn.1.2) hdir i hi' hi

/-- `/f`. -/
theorem resolves_iff_file : Resolves fileDisk fileView [slash, 0x66#8] ↔
    StraysEnd smallLayout fileDisk fileView rootInodeNumber (tokens [slash, 0x66#8]) :=
  resolves_iff file_shows file_consistent file_direct rfl (by decide)

/-- In the file `f` the name `x` is found. -/
theorem not_resolves : ¬ ∀ (L : Layout) (d : Disk) (v : View) (path : CString),
    L.Shows d v → v.Consistent L →
    (∀ n, v.Live L n → (v.inode n).IsDirectory → (v.inode n).DirectOnly) →
    path.head? = some slash → tokens path ≠ [] → Resolves d v path := by
  intro h
  obtain ⟨r, hfind, hr⟩ := h smallLayout fileDisk fileView [slash, 0x66#8, slash, 0x78#8] file_shows
    file_consistent file_direct rfl (by decide)
  have hfound : findDirEntry fileDisk [slash, 0x66#8, slash, 0x78#8] = .ok (some 8192) := by
    decide
  have hwalk : fileView.walk rootInodeNumber (tokens [slash, 0x66#8, slash, 0x78#8]) = none := by
    decide
  rw [hfound] at hfind
  rw [← Except.ok.inj hfind, hwalk] at hr
  exact absurd hr (by simp)

end KernelProgramming.Ext2
