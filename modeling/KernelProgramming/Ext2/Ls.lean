import Mathlib.Data.List.TakeWhile
import Mathlib.Tactic.IntervalCases
import KernelProgramming.Ext2.Directory
import KernelProgramming.Ext2.Rm

/-!
# ext2_ls.c

The listing of a directory, and its agreement with `locate_file_by_name`.
-/

namespace KernelProgramming.Ext2

open ByteMemory

/-- What `printf` prints of the copy of a name, which ends at the first `'\0'`. -/
def printName (m : ℕ → Byte) (entry : ℕ) : CString := (entryName m entry).takeWhile (· ≠ 0)

def listBlock (m : ℕ → Byte) (start : ℕ) (shown : ℕ → Bool) : Except Fault (List CString) :=
  if (entries m start).2 then .ok (((entries m start).1.filter shown).map (printName m))
  else .error .hang

def listSlots (d : Disk) (dirInode : ℕ) (shown : ℕ → Bool) :
    List ℕ → Except Fault (List CString)
  | [] => .ok []
  | i :: slots =>
      if d.u32 (iBlock dirInode i) = 0 then listSlots d dirInode shown slots
      else do
        let dir ← blockPtr d (d.u32 (iBlock dirInode i))
        let names ← listBlock d.byte dir shown
        .ok (names ++ (← listSlots d dirInode shown slots))

/-- The lines printed for a directory; `flag` is that for `-a`. -/
def listDirectory (d : Disk) (dirInode : ℕ) (flag : Bool) : Except Fault (List CString) :=
  if flag then listSlots d dirInode (live d.byte) (List.range totalBlockCount)
  else
    listSlots d dirInode (fun dir => live d.byte dir && checkIfExternalEntry d.byte dir)
      (List.range totalBlockCount)

inductive Listed
  | nothing
  | directory (dirInode : ℕ)
  | file (destFile : ℕ)

/-- What the path of `ext2_ls` stands for. -/
def findListed (d : Disk) (path : CString) : Except Fault Listed :=
  if path.length = 1 then do
    .ok (.directory (← getRootInode d))
  else do
    match ← findDirEntry d path with
    | none => .ok .nothing
    | some destFile =>
        if fileType d.byte destFile = ext2FtDir then do
          .ok (.directory (← inodePtr d (entryInode d.byte destFile)))
        else .ok (.file destFile)

/-- `main` on an image that could be mapped: the exit code and the lines printed. -/
def ext2Ls (d : Disk) (flag : Bool) (path : CString) : Except Fault (ℕ × List CString) :=
  if path.head? ≠ some slash then .ok (einval, [])
  else do
    match ← findListed d path with
    | .nothing => .ok (enoent, [])
    | .directory dirInode => .ok (0, ← listDirectory d dirInode flag)
    | .file destFile => .ok (0, [printName d.byte destFile])

/-- The blocks of the directory are direct ones.  The entries `es i` of block `i` follow one
another to its end, and the names in use have no `'\0'`. -/
structure DirectDirectory (d : Disk) (dirInode : ℕ) (es : ℕ → List ℕ) : Prop where
  numBlocks_le : d.numBlocks ≤ 2 ^ 22
  indirect_eq : ∀ i, directBlockCount ≤ i → i < totalBlockCount → d.u32 (iBlock dirInode i) = 0
  nil_of_zero : ∀ i, d.u32 (iBlock dirInode i) = 0 → es i = []
  block_lt : ∀ i < directBlockCount, d.u32 (iBlock dirInode i) < d.numBlocks
  chained : ∀ i < directBlockCount, d.u32 (iBlock dirInode i) ≠ 0 →
    Chained d.byte (1024 * d.u32 (iBlock dirInode i) + 1024) (1024 * d.u32 (iBlock dirInode i))
      (es i)
  name : ∀ i, ∀ e ∈ es i, live d.byte e = true → (0 : Byte) ∉ entryName d.byte e

/-- The live entries in the order of the blocks. -/
def liveEntries (d : Disk) (es : ℕ → List ℕ) : List ℕ :=
  ((List.range totalBlockCount).flatMap es).filter (live d.byte)

section Listing

variable {d : Disk} {dirInode : ℕ} {es : ℕ → List ℕ} {shown : ℕ → Bool}

theorem DirectDirectory.blockPtr_eq (h : DirectDirectory d dirInode es) {i : ℕ}
    (hi : i < totalBlockCount) (hne : d.u32 (iBlock dirInode i) ≠ 0) :
    i < directBlockCount ∧
      blockPtr d (d.u32 (iBlock dirInode i)) = .ok (1024 * d.u32 (iBlock dirInode i)) := by
  have hdirect : i < directBlockCount := by
    refine Nat.lt_of_not_le fun hge => hne (h.indirect_eq i hge hi)
  have hlt := h.block_lt i hdirect
  have hle := h.numBlocks_le
  refine ⟨hdirect, ?_⟩
  rw [blockPtr, blockStart, Nat.mod_eq_of_lt (by omega)]
  exact if_pos (by omega)

theorem listBlock_eq {start : ℕ} {m : ℕ → Byte} {xs : List ℕ}
    (h : Chained m (start + 1024) start xs) (shown : ℕ → Bool) :
    listBlock m start shown = .ok ((xs.filter shown).map (printName m)) := by
  rw [listBlock, h.entries_eq]
  rfl

theorem DirectDirectory.listSlots_eq (h : DirectDirectory d dirInode es) (shown : ℕ → Bool)
    {slots : List ℕ} (hslots : ∀ i ∈ slots, i < totalBlockCount) :
    listSlots d dirInode shown slots =
      .ok (((slots.flatMap es).filter shown).map (printName d.byte)) := by
  induction slots with
  | nil => rfl
  | cons i slots ih =>
      obtain ⟨hi, hrest⟩ := List.forall_mem_cons.mp hslots
      rw [listSlots, List.flatMap_cons, List.filter_append, List.map_append]
      split_ifs with hzero
      · rw [h.nil_of_zero i hzero]
        exact ih hrest
      · obtain ⟨hdirect, hptr⟩ := h.blockPtr_eq hi hzero
        rw [hptr]
        change (listBlock d.byte _ shown >>= fun names =>
          listSlots d dirInode shown slots >>= fun rest => .ok (names ++ rest)) = _
        rw [listBlock_eq (h.chained i hdirect hzero), ih hrest]
        rfl

theorem DirectDirectory.locateFrom_eq (h : DirectDirectory d dirInode es) (fileName : CString)
    {slots : List ℕ} (hslots : ∀ i ∈ slots, i < totalBlockCount) :
    locateFrom d dirInode fileName slots =
      .ok ((slots.flatMap es).find? (matchesName d.byte fileName)) := by
  induction slots with
  | nil => rfl
  | cons i slots ih =>
      obtain ⟨hi, hrest⟩ := List.forall_mem_cons.mp hslots
      rw [locateFrom, List.flatMap_cons, List.find?_append]
      split_ifs with hzero
      · rw [h.nil_of_zero i hzero]
        exact ih hrest
      · obtain ⟨hdirect, hptr⟩ := h.blockPtr_eq hi hzero
        rw [hptr]
        have hsearch := (h.chained i hdirect hzero).searchBlock_eq (matchesName d.byte fileName)
        cases hfind : (es i).find? (matchesName d.byte fileName) with
        | none =>
            rw [hfind] at hsearch
            simp only [bind, Except.bind, hsearch]
            exact ih hrest
        | some entry =>
            rw [hfind] at hsearch
            simp only [bind, Except.bind, hsearch]
            rfl

theorem DirectDirectory.name_liveEntries (h : DirectDirectory d dirInode es) {e : ℕ}
    (he : e ∈ liveEntries d es) : (0 : Byte) ∉ entryName d.byte e := by
  obtain ⟨hmem, hlive⟩ := List.mem_filter.mp he
  obtain ⟨i, -, hi⟩ := List.mem_flatMap.mp hmem
  exact h.name i e hi hlive

/-- Where there is no `'\0'`, the name is printed whole. -/
theorem printName_eq {m : ℕ → Byte} {e : ℕ} (h : (0 : Byte) ∉ entryName m e) :
    printName m e = entryName m e := by
  refine List.takeWhile_eq_self_iff.mpr fun c hc => decide_eq_true ?_
  rintro rfl
  exact h hc

theorem DirectDirectory.printed_eq (h : DirectDirectory d dirInode es) :
    (liveEntries d es).map (printName d.byte) = (liveEntries d es).map (entryName d.byte) :=
  List.map_congr_left fun _ he => printName_eq (h.name_liveEntries he)

/-- Without `-a` the names `.` and `..` are left out. -/
theorem DirectDirectory.external_eq (h : DirectDirectory d dirInode es) :
    (((List.range totalBlockCount).flatMap es).filter
        fun dir => live d.byte dir && checkIfExternalEntry d.byte dir).map (printName d.byte) =
      ((liveEntries d es).map (entryName d.byte)).filter
        fun name => name ≠ [dot] ∧ name ≠ [dot, dot] := by
  have hsplit : ((List.range totalBlockCount).flatMap es).filter
      (fun dir => live d.byte dir && checkIfExternalEntry d.byte dir) =
        (liveEntries d es).filter (checkIfExternalEntry d.byte) := by
    rw [liveEntries, List.filter_filter]
    exact List.filter_congr fun e _ => Bool.and_comm ..
  rw [hsplit, ← h.printed_eq, List.filter_map]
  congr 1
  apply List.filter_congr
  intro e _
  simp [checkIfExternalEntry, printName]

theorem find?_matchesName (d : Disk) (es : ℕ → List ℕ) (fileName : CString) :
    ((List.range totalBlockCount).flatMap es).find? (matchesName d.byte fileName) =
      (liveEntries d es).find? fun e => entryName d.byte e == fileName := by
  rw [liveEntries, List.find?_filter]
  refine find?_congr fun e _ => ?_
  rw [matchesName, live, Bool.eq_iff_iff, Bool.and_eq_true, Bool.and_eq_true,
    decide_eq_true_iff, beq_iff_eq, beq_iff_eq]
  constructor
  · rintro ⟨⟨-, hlive⟩, hname⟩
    exact ⟨hlive, hname⟩
  · rintro ⟨hlive, hname⟩
    refine ⟨⟨?_, hlive⟩, hname⟩
    rw [← hname, entryName, length_getBytes]

/-- `ext2_ls -a` prints the names of the live entries in order, `ext2_ls` the same without
`.` and `..`, and `locate_file_by_name` finds the first live entry with a name, or none if the
name is not printed. -/
theorem ls_locate (h : DirectDirectory d dirInode es) :
    ∃ names, names = (liveEntries d es).map (entryName d.byte) ∧
      listDirectory d dirInode true = .ok names ∧
      listDirectory d dirInode false =
        .ok (names.filter fun name => name ≠ [dot] ∧ name ≠ [dot, dot]) ∧
      (∀ path, path.head? = some slash → findListed d path = .ok (.directory dirInode) →
        ext2Ls d true path = .ok (0, names) ∧
        ext2Ls d false path =
          .ok (0, names.filter fun name => name ≠ [dot] ∧ name ≠ [dot, dot])) ∧
      ∀ fileName,
        locateFileByName d dirInode fileName =
          .ok ((liveEntries d es).find? fun e => entryName d.byte e == fileName) ∧
        (locateFileByName d dirInode fileName = .ok none ↔ fileName ∉ names) := by
  have hslots : ∀ i ∈ List.range totalBlockCount, i < totalBlockCount := fun i =>
    List.mem_range.mp
  have hall : listDirectory d dirInode true =
      .ok ((liveEntries d es).map (entryName d.byte)) := by
    rw [← h.printed_eq]
    exact h.listSlots_eq (live d.byte) hslots
  have hexternal : listDirectory d dirInode false =
      .ok (((liveEntries d es).map (entryName d.byte)).filter
        fun name => name ≠ [dot] ∧ name ≠ [dot, dot]) := by
    rw [← h.external_eq]
    exact h.listSlots_eq _ hslots
  refine ⟨_, rfl, hall, hexternal, fun path hpath hfind => ?_, fun fileName => ?_⟩
  · rw [ext2Ls, ext2Ls, if_neg (not_not_intro hpath), if_neg (not_not_intro hpath), hfind]
    constructor
    · change (listDirectory d dirInode true >>= fun names => .ok (0, names)) = _
      rw [hall]
      rfl
    · change (listDirectory d dirInode false >>= fun names => .ok (0, names)) = _
      rw [hexternal]
      rfl
  · have hlocate : locateFileByName d dirInode fileName =
        .ok ((liveEntries d es).find? fun e => entryName d.byte e == fileName) := by
      rw [locateFileByName, h.locateFrom_eq fileName hslots, find?_matchesName]
    refine ⟨hlocate, ?_⟩
    rw [hlocate, Except.ok.injEq, List.find?_eq_none, List.mem_map]
    simp only [beq_iff_eq, not_exists, not_and]

/-- A directory with the entry `a` and a deleted one behind it; its inode is at 5120. -/
def singleEntry : Disk where
  numBlocks := 8
  byte x := if x = 5160 then 6 else if x = 6144 then 3 else if x = 6148 then 12
    else if x = 6150 then 1 else if x = 6152 then 0x61 else if x = 6160 then 0xF4
    else if x = 6161 then 3 else 0

theorem directDirectory_singleEntry :
    DirectDirectory singleEntry 5120 fun i => if i = 0 then [6144, 6156] else [] where
  numBlocks_le := by decide
  indirect_eq := by decide
  nil_of_zero i hzero := by
    split_ifs with hi
    · subst hi
      exact absurd hzero (by decide)
    · rfl
  block_lt := by decide
  chained i hi hne := by
    change i < 12 at hi
    interval_cases i
    · exact .cons (by decide) (by decide) (.cons (by decide) (by decide) .nil)
    all_goals exact absurd rfl hne
  name i e he hlive := by
    split_ifs at he
    · rcases List.mem_pair.mp he with rfl | rfl
      · decide
      · exact absurd hlive (by decide)
    · exact absurd he List.not_mem_nil

theorem ls_locate_single :
    ∃ names, names = (liveEntries singleEntry fun i => if i = 0 then [6144, 6156] else []).map
        (entryName singleEntry.byte) ∧
      listDirectory singleEntry 5120 true = .ok names ∧
      listDirectory singleEntry 5120 false =
        .ok (names.filter fun name => name ≠ [dot] ∧ name ≠ [dot, dot]) ∧
      (∀ path, path.head? = some slash →
        findListed singleEntry path = .ok (.directory 5120) →
        ext2Ls singleEntry true path = .ok (0, names) ∧
        ext2Ls singleEntry false path =
          .ok (0, names.filter fun name => name ≠ [dot] ∧ name ≠ [dot, dot])) ∧
      ∀ fileName,
        locateFileByName singleEntry 5120 fileName =
          .ok ((liveEntries singleEntry fun i => if i = 0 then [6144, 6156] else []).find?
            fun e => entryName singleEntry.byte e == fileName) ∧
        (locateFileByName singleEntry 5120 fileName = .ok none ↔ fileName ∉ names) :=
  ls_locate directDirectory_singleEntry

end Listing

end KernelProgramming.Ext2
