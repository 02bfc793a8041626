import KernelProgramming.Ext2.Consistency

/-!
# Lookup on a consistent volume

In directories without pointer blocks `locate_file_by_name` finds the entry
with the name, and `find_dir_entry` walks the path.
-/

namespace KernelProgramming.Ext2

open ByteMemory

variable {L : Layout} {d : Disk} {v : View} {n : ℕ} {name : CString}

/-- The search for a name in terms of what the entries say. -/
theorem find_matchesName (m : ℕ → Byte) (name : CString) (es : List ℕ) :
    (es.find? (matchesName m name)).map (dirEntry m) =
      (filesIn m es).find? fun e => e.name == name := by
  induction es with
  | nil => rfl
  | cons e es ih =>
      have hmatch : matchesName m name e = (live m e && (dirEntry m e).name == name) := by
        have hlen : (entryName m e).length = nameLen m e := length_getBytes ..
        simp only [matchesName, live, dirEntry]
        by_cases hname : entryName m e = name
        · rw [← hname, hlen, beq_self_eq_true, Bool.true_and]
        · have hne : (entryName m e == name) = false := beq_eq_false_iff_ne.mpr hname
          rw [hne, Bool.and_false, Bool.and_false]
      rw [filesIn_cons]
      by_cases hlive : live m e = true
      · by_cases hname : (dirEntry m e).name == name
        · simp [hmatch, hlive, hname]
        · simp [hmatch, hlive, hname, ih]
      · simp [hmatch, hlive, ih]

/-- Without pointer blocks the data are in the slots that are not zero. -/
theorem View.data_of_directOnly (h : (v.inode n).DirectOnly) :
    v.data n = ((List.range totalBlockCount).map (v.inode n).block).filter (· ≠ 0) := by
  have hslot : ∀ i ∈ List.range totalBlockCount,
      v.leaves (slotLevel i) ((v.inode n).block i) =
        if (v.inode n).block i = 0 then [] else [(v.inode n).block i] := by
    intro i hi
    rw [List.mem_range] at hi
    by_cases hdirect : i < directBlockCount
    · have hlevel : slotLevel i = 0 := by
        unfold slotLevel
        omega
      rw [hlevel]
      rfl
    · rw [h i (by omega) hi, if_pos rfl]
      cases slotLevel i <;> rfl
  rw [data, List.flatMap_congr hslot]
  generalize List.range totalBlockCount = slots
  induction slots with
  | nil => rfl
  | cons i slots ih =>
      rw [List.flatMap_cons, ih, List.map_cons]
      by_cases hi : (v.inode n).block i = 0
      · rw [if_pos hi, List.nil_append, List.filter_cons_of_neg (by simpa using hi)]
      · rw [if_neg hi, List.filter_cons_of_pos (by simpa using hi), List.singleton_append]

namespace View

theorem owned_of_directOnly (h : (v.inode n).DirectOnly) : v.owned n = v.data n := by
  apply List.flatMap_congr
  intro i hi
  rw [List.mem_range] at hi
  by_cases hdirect : i < directBlockCount
  · have hlevel : slotLevel i = 0 := by
      unfold slotLevel
      omega
    rw [hlevel]
    rfl
  · rw [h i (by omega) hi, (v.tree_zero _).1, (v.tree_zero _).2]

/-- The data blocks in the slots without pointer blocks. -/
def direct (v : View) (n : ℕ) : List ℕ :=
  ((List.range directBlockCount).map (v.inode n).block).filter (· ≠ 0)

theorem data_eq_append (v : View) (n : ℕ) : ∃ rest, v.data n = v.direct n ++ rest := by
  refine ⟨[12, 13, 14].flatMap fun i => v.leaves (slotLevel i) ((v.inode n).block i), ?_⟩
  have hslots : List.range totalBlockCount = List.range directBlockCount ++ [12, 13, 14] := rfl
  rw [data, hslots, List.flatMap_append, direct]
  congr 1
  have hdirect : ∀ i ∈ List.range directBlockCount, slotLevel i = 0 := fun i hi => by
    rw [List.mem_range] at hi
    unfold slotLevel
    omega
  generalize List.range directBlockCount = slots at hdirect
  induction slots with
  | nil => rfl
  | cons i slots ih =>
      rw [List.flatMap_cons, hdirect i List.mem_cons_self,
        ih fun j hj => hdirect j (List.mem_cons_of_mem i hj), List.map_cons, leaves]
      by_cases hi : (v.inode n).block i = 0
      · rw [if_pos hi, List.filter_cons_of_neg (by simpa using hi), List.nil_append]
      · rw [if_neg hi, List.filter_cons_of_pos (by simpa using hi), List.singleton_append]

/-- The search of directory `n` for the name does not run into pointer blocks. -/
def Searchable (v : View) (n : ℕ) (name : CString) : Prop :=
  (v.inode n).DirectOnly ∨
    ∃ e ∈ filesIn v.byte ((v.direct n).flatMap v.entriesOf), e.name = name

end View

namespace Layout

theorem Shows.tiled (h : L.Shows d v) {b : ℕ} (hb : L.IsPlain b) (htiled : v.TiledBlock b) :
    Tiled d.byte (1024 * b + 1024) (1024 * b) (v.entriesOf b) ∧
      filesIn d.byte (v.entriesOf b) = filesIn v.byte (v.entriesOf b) :=
  Tiled.congr htiled fun x hx hx' => by
    obtain ⟨i, rfl⟩ := Nat.exists_eq_add_of_le hx
    exact h.byte_block hb (by omega)

/-- The loop over the slots, for slots whose blocks are tiled. -/
theorem Shows.locateFrom_find (h : L.Shows d v) (hn : L.IsInode n) (slots : List ℕ)
    (hslots : ∀ i ∈ slots, i < totalBlockCount)
    (hblocks : ∀ b ∈ (slots.map (v.inode n).block).filter (· ≠ 0), L.IsPlain b ∧ v.TiledBlock b) :
    locateFrom d (L.inodeAddress n) name slots =
      .ok ((((slots.map (v.inode n).block).filter (· ≠ 0)).flatMap v.entriesOf).find?
        (matchesName d.byte name)) := by
  induction slots with
  | nil => rfl
  | cons i slots ih =>
      have hblock := h.iBlock_eq hn (hslots i List.mem_cons_self)
      have hrest := fun j hj => hslots j (List.mem_cons_of_mem i hj)
      by_cases hzero : (v.inode n).block i = 0
      · rw [List.map_cons, List.filter_cons_of_neg (by simpa using hzero)] at hblocks ⊢
        rw [locateFrom, hblock, if_pos hzero]
        exact ih hrest hblocks
      · rw [List.map_cons, List.filter_cons_of_pos (by simpa using hzero)] at hblocks ⊢
        obtain ⟨hplain, htiled⟩ := hblocks _ List.mem_cons_self
        rw [locateFrom, hblock, if_neg hzero, h.blockPtr_eq hplain.lt, List.flatMap_cons,
          List.find?_append]
        simp only [bind, Except.bind, (h.tiled hplain htiled).1.searchBlock_eq]
        cases (v.entriesOf ((v.inode n).block i)).find? (matchesName d.byte name) with
        | some e => rfl
        | none => exact ih hrest fun b hb => hblocks b (List.mem_cons_of_mem _ hb)

theorem Shows.filesIn_eq (h : L.Shows d v) {bs : List ℕ}
    (hblocks : ∀ b ∈ bs, L.IsPlain b ∧ v.TiledBlock b) :
    filesIn d.byte (bs.flatMap v.entriesOf) = filesIn v.byte (bs.flatMap v.entriesOf) := by
  induction bs with
  | nil => rfl
  | cons b bs ih =>
      obtain ⟨hplain, htiled⟩ := hblocks b List.mem_cons_self
      rw [List.flatMap_cons, filesIn_append, filesIn_append, (h.tiled hplain htiled).2,
        ih fun c hc => hblocks c (List.mem_cons_of_mem b hc)]

theorem locateFrom_append (d : Disk) (inode : ℕ) (name : CString) (xs ys : List ℕ) :
    locateFrom d inode name (xs ++ ys) =
      match locateFrom d inode name xs with
      | .ok none => locateFrom d inode name ys
      | r => r := by
  induction xs with
  | nil => rfl
  | cons i xs ih =>
      rw [List.cons_append, locateFrom, locateFrom]
      by_cases hzero : d.u32 (iBlock inode i) = 0
      · rw [if_pos hzero, if_pos hzero, ih]
      · rw [if_neg hzero, if_neg hzero]
        cases blockPtr d (d.u32 (iBlock inode i)) with
        | error f => rfl
        | ok dir =>
            simp only [bind, Except.bind]
            cases searchBlock d.byte dir (matchesName d.byte name) with
            | error f => rfl
            | ok r =>
                cases r with
                | none => exact ih
                | some e => rfl

/-- The search goes through all blocks of the directory, or it ends in one of the
first. -/
theorem Shows.locateFileByName_find (h : L.Shows d v) (hn : L.IsInode n)
    (hblock : ∀ b ∈ v.data n, L.IsPlain b ∧ v.TiledBlock b) (hsearch : v.Searchable n name) :
    ∃ bs rest r, v.data n = bs ++ rest ∧ locateFileByName d (L.inodeAddress n) name = .ok r ∧
      r = (bs.flatMap v.entriesOf).find? (matchesName d.byte name) ∧ (rest = [] ∨ r ≠ none) := by
  rcases hsearch with hdirect | ⟨e, he, hname⟩
  · rw [View.data_of_directOnly hdirect] at hblock ⊢
    exact ⟨_, [], _, (List.append_nil _).symm,
      h.locateFrom_find hn _ (fun i hi => List.mem_range.mp hi) hblock, rfl, .inl rfl⟩
  · obtain ⟨rest, hdata⟩ := v.data_eq_append n
    have hslots : List.range totalBlockCount = List.range directBlockCount ++ [12, 13, 14] := rfl
    have hblock' : ∀ b ∈ v.direct n, L.IsPlain b ∧ v.TiledBlock b := fun b hb =>
      hblock b (hdata ▸ List.mem_append_left rest hb)
    have hlocate : locateFrom d (L.inodeAddress n) name (List.range directBlockCount) =
        .ok (((v.direct n).flatMap v.entriesOf).find? (matchesName d.byte name)) :=
      h.locateFrom_find hn (List.range directBlockCount)
        (fun i hi => lt_trans (List.mem_range.mp hi) (by decide)) hblock'
    -- the name is found before the slots with pointer blocks
    have hfound : ((v.direct n).flatMap v.entriesOf).find? (matchesName d.byte name) ≠ none := by
      intro hnone
      have hmap := find_matchesName d.byte name ((v.direct n).flatMap v.entriesOf)
      rw [hnone, h.filesIn_eq hblock'] at hmap
      have := List.find?_eq_none.mp hmap.symm e he
      simp [hname] at this
    refine ⟨v.direct n, rest, _, hdata, ?_, rfl, .inr hfound⟩
    obtain ⟨entry, hentry⟩ := Option.ne_none_iff_exists'.mp hfound
    rw [locateFileByName, hslots, locateFrom_append, hlocate, hentry]

theorem Shows.locateFileByName_eq (h : L.Shows d v) (hn : L.IsInode n)
    (hblock : ∀ b ∈ v.data n, L.IsPlain b ∧ v.TiledBlock b) (hsearch : v.Searchable n name) :
    ∃ r, locateFileByName d (L.inodeAddress n) name = .ok r ∧
      r.map (dirEntry d.byte) = v.lookup n name := by
  obtain ⟨bs, rest, r, hdata, hlocate, hr, hend⟩ := h.locateFileByName_find hn hblock hsearch
  refine ⟨r, hlocate, ?_⟩
  have hmap : r.map (dirEntry d.byte) =
      (filesIn v.byte (bs.flatMap v.entriesOf)).find? fun e => e.name == name := by
    rw [hr, find_matchesName, h.filesIn_eq fun b hb => hblock b (hdata ▸ List.mem_append_left _ hb)]
  rw [View.lookup, View.files, hdata, List.flatMap_append, filesIn_append, List.find?_append,
    ← hmap]
  rcases hend with rfl | hfound
  · simp
  · obtain ⟨entry, rfl⟩ := Option.ne_none_iff_exists'.mp hfound
    rfl

end Layout

/-! ## Paths -/

/-- Directory `n` can be searched for the name. -/
structure View.OpenAt (L : Layout) (v : View) (n : ℕ) (name : CString) : Prop where
  isInode : L.IsInode n
  isDirectory : (v.inode n).IsDirectory
  blocks : ∀ b ∈ v.data n, L.IsPlain b ∧ v.TiledBlock b
  searchable : v.Searchable n name

/-- A path leads through such directories. -/
def View.OpenPath (L : Layout) (v : View) : ℕ → List CString → Prop
  | _, [] => True
  | n, name :: rest => v.OpenAt L n name ∧ ∀ e, v.lookup n name = some e → v.OpenPath L e.inode rest

/-- On a consistent volume, where the inodes and blocks are what they should be,
it is enough that the directories can be searched. -/
def View.SearchPath (v : View) : ℕ → List CString → Prop
  | _, [] => True
  | n, name :: rest => (v.inode n).IsDirectory ∧ v.Searchable n name ∧
      ∀ e, v.lookup n name = some e → v.SearchPath e.inode rest

theorem View.mem_of_lookup {e : DirEntry} (h : v.lookup n name = some e) :
    e ∈ v.files n ∧ e.name = name :=
  ⟨List.mem_of_find?_eq_some h, by simpa using List.find?_some h⟩

theorem View.Consistent.live_of_lookup {e : DirEntry} (hc : v.Consistent L) (hn : v.Live L n)
    (hdir : (v.inode n).IsDirectory) (h : v.lookup n name = some e) : v.Live L e.inode :=
  hc.named n hn hdir e (View.mem_of_lookup h).1

namespace View

/-- The inode that a path leads to from `n`. -/
def reach (v : View) : ℕ → List CString → Option ℕ
  | n, [] => some n
  | n, name :: rest =>
      if (v.inode n).IsDirectory then (v.lookup n name).bind fun e => v.reach e.inode rest
      else none

theorem walk_eq_reach (v : View) (n : ℕ) {names : List CString} (h : names ≠ []) :
    (v.walk n names).map DirEntry.inode = v.reach n names := by
  induction names generalizing n with
  | nil => exact absurd rfl h
  | cons name rest ih =>
      cases rest with
      | nil =>
          rw [walk, reach]
          split_ifs
          · cases v.lookup n name <;> rfl
          · rfl
      | cons next rest =>
          rw [walk, reach]
          split_ifs
          · cases v.lookup n name with
            | none => rfl
            | some e => exact ih e.inode (List.cons_ne_nil next rest)
          · rfl

/-- The last component is looked up in the directory that the others lead to. -/
theorem walk_concat (v : View) (n : ℕ) (names : List CString) (name : CString) :
    v.walk n (names ++ [name]) = (v.reach n names).bind fun p =>
      if (v.inode p).IsDirectory then v.lookup p name else none := by
  induction names generalizing n with
  | nil => rfl
  | cons first names ih =>
      obtain ⟨next, rest, hrest⟩ : ∃ next rest, names ++ [name] = next :: rest :=
        List.exists_cons_of_ne_nil (by simp)
      rw [List.cons_append, hrest, walk, reach, ← hrest]
      split_ifs
      · cases v.lookup n first with
        | none => rfl
        | some e => exact ih e.inode
      · rfl

theorem Consistent.live_of_reach (hc : v.Consistent L) (hn : v.Live L n) {names : List CString}
    {k : ℕ} (h : v.reach n names = some k) : v.Live L k := by
  induction names generalizing n with
  | nil =>
      obtain rfl : n = k := by simpa [reach] using h
      exact hn
  | cons name rest ih =>
      rw [reach] at h
      split_ifs at h with hdir
      obtain ⟨e, he, hrest⟩ := Option.bind_eq_some_iff.mp h
      exact ih (hc.live_of_lookup hn hdir he) hrest

theorem Consistent.openAt (hc : v.Consistent L) (hn : v.Live L n)
    (hdir : (v.inode n).IsDirectory) (hsearch : v.Searchable n name) : v.OpenAt L n name :=
  ⟨hn.1, hdir, fun b hb =>
    ⟨(hc.used n hn b (data_subset_owned v n hb)).2.1, hc.tiled n hn hdir b hb⟩, hsearch⟩

theorem SearchPath.openPath {names : List CString} (h : v.SearchPath n names)
    (hc : v.Consistent L) (hn : v.Live L n) : v.OpenPath L n names := by
  induction names generalizing n with
  | nil => trivial
  | cons name rest ih =>
      obtain ⟨hdir, hsearch, hnext⟩ := h
      exact ⟨hc.openAt hn hdir hsearch, fun e he =>
        ih (hnext e he) (hc.live_of_lookup hn hdir he)⟩

theorem SearchPath.of_append {names rest : List CString}
    (h : v.SearchPath n (names ++ rest)) : v.SearchPath n names := by
  induction names generalizing n with
  | nil => trivial
  | cons name names ih =>
      obtain ⟨hdir, hsearch, hnext⟩ := h
      exact ⟨hdir, hsearch, fun e he => ih (hnext e he)⟩

theorem SearchPath.directory {names : List CString} {k : ℕ}
    (h : v.SearchPath n (names ++ [name])) (hreach : v.reach n names = some k) :
    (v.inode k).IsDirectory ∧ v.Searchable k name := by
  induction names generalizing n with
  | nil =>
      obtain rfl : n = k := by simpa [reach] using hreach
      exact ⟨h.1, h.2.1⟩
  | cons first names ih =>
      obtain ⟨hdir, -, hnext⟩ := h
      rw [reach, if_pos hdir] at hreach
      obtain ⟨e, he, hrest⟩ := Option.bind_eq_some_iff.mp hreach
      exact ih (hnext e he) hrest

end View

namespace Layout

theorem Shows.walkPath_eq (h : L.Shows d v) (token : CString) (rest : List CString)
    (hpath : v.OpenPath L n (token :: rest)) :
    ∃ r, walkPath d (L.inodeAddress n) token rest = .ok r ∧
      r.map (dirEntry d.byte) = v.walk n (token :: rest) := by
  induction rest generalizing n token with
  | nil =>
      obtain ⟨hopen, -⟩ := hpath
      rw [walkPath, View.walk, if_pos hopen.isDirectory]
      exact h.locateFileByName_eq hopen.isInode hopen.blocks hopen.searchable
  | cons next rest ih =>
      obtain ⟨hopen, hnext⟩ := hpath
      obtain ⟨r, hlocate, hr⟩ :=
        h.locateFileByName_eq hopen.isInode hopen.blocks hopen.searchable
      rw [walkPath, View.walk, if_pos hopen.isDirectory, hlocate, ← hr]
      cases r with
      | none => exact ⟨none, rfl, rfl⟩
      | some entry =>
          have hrest := hnext (dirEntry d.byte entry) hr.symm
          obtain ⟨r, hwalk, hr'⟩ := ih next hrest
          refine ⟨r, ?_, hr'⟩
          simp only [bind, Except.bind]
          rw [h.inodePtr_eq (n := entryInode d.byte entry) hrest.1.isInode]
          exact hwalk

/-- `find_dir_entry` finds what the path leads to. -/
theorem Shows.findDirEntry_of_openPath (h : L.Shows d v) (path : CString)
    (hpath : v.OpenPath L rootInodeNumber (tokens path.tail)) (hne : tokens path.tail ≠ []) :
    ∃ r, findDirEntry d path = .ok r ∧
      r.map (dirEntry d.byte) = v.walk rootInodeNumber (tokens path.tail) := by
  rw [findDirEntry, h.getRootInode_eq]
  simp only [bind, Except.bind]
  cases htokens : tokens path.tail with
  | nil => exact absurd htokens hne
  | cons token rest =>
      rw [htokens] at hpath
      exact h.walkPath_eq token rest hpath

theorem Shows.findDirEntry_eq (h : L.Shows d v) (hc : v.Consistent L) (path : CString)
    (hpath : v.SearchPath rootInodeNumber (tokens path.tail)) (hne : tokens path.tail ≠ []) :
    ∃ r, findDirEntry d path = .ok r ∧
      r.map (dirEntry d.byte) = v.walk rootInodeNumber (tokens path.tail) :=
  h.findDirEntry_of_openPath path (hpath.openPath hc hc.root.1) hne

end Layout

end KernelProgramming.Ext2
