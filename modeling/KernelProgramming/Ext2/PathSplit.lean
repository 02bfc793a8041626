import KernelProgramming.Ext2.Paths
import KernelProgramming.Library.Runs

/-!
# When the split of a path agrees with the walk

`mkdir`, `ln`, `cp` and `rm` look a path up with `find_dir_entry` and split it
with `find_parent_inode` and `find_file_name_by_path`.  The split drops a slash
at the end of the path from the parent but not from the name.
-/

namespace KernelProgramming.Ext2

open ByteMemory

variable {d : Disk} {path dir name other token : CString} {rest : List CString}
  {inode parent e : ℕ}

/-! ## The entries that a search meets -/

def scannedFrom (d : Disk) (inode : ℕ) : List ℕ → List ℕ
  | [] => []
  | i :: slots =>
      if d.u32 (iBlock inode i) = 0 then scannedFrom d inode slots
      else match blockPtr d (d.u32 (iBlock inode i)) with
        | .error _ => []
        | .ok dir =>
            (entries d.byte dir).1 ++
              if (entries d.byte dir).2 then scannedFrom d inode slots else []

/-- The directory shows an entry with this name to a search. -/
def NamedIn (d : Disk) (inode : ℕ) (name : CString) : Prop :=
  ∃ e ∈ scannedFrom d inode (List.range totalBlockCount), matchesName d.byte name e = true

instance (d : Disk) (inode : ℕ) (name : CString) : Decidable (NamedIn d inode name) :=
  inferInstanceAs (Decidable (∃ e ∈ _, _))

/-- The searches for different names differ in what they find, not in how they
end when they find nothing. -/
theorem locateFrom_scanned (d : Disk) (inode : ℕ) (slots : List ℕ) :
    ∃ r, (∀ e, r ≠ .ok (some e)) ∧ ∀ name, locateFrom d inode name slots =
      ((scannedFrom d inode slots).find? (matchesName d.byte name)).elim r
        fun e => .ok (some e) := by
  induction slots with
  | nil => exact ⟨.ok none, fun e => by simp, fun name => rfl⟩
  | cons i slots ih =>
      obtain ⟨r, hr, ih⟩ := ih
      by_cases hzero : d.u32 (iBlock inode i) = 0
      · refine ⟨r, hr, fun name => ?_⟩
        rw [locateFrom, scannedFrom, if_pos hzero, if_pos hzero]
        exact ih name
      cases hptr : blockPtr d (d.u32 (iBlock inode i)) with
      | error f =>
          refine ⟨.error f, fun e => by simp, fun name => ?_⟩
          rw [locateFrom, scannedFrom, if_neg hzero, if_neg hzero, hptr]
          rfl
      | ok start =>
          cases hend : (entries d.byte start).2 with
          | true =>
              refine ⟨r, hr, fun name => ?_⟩
              rw [locateFrom, scannedFrom, if_neg hzero, if_neg hzero, hptr]
              simp only [bind, Except.bind, searchBlock, hend, if_true, List.find?_append]
              cases (entries d.byte start).1.find? (matchesName d.byte name) with
              | some e => rfl
              | none => exact ih name
          | false =>
              refine ⟨.error .hang, fun e => by simp, fun name => ?_⟩
              rw [locateFrom, scannedFrom, if_neg hzero, if_neg hzero, hptr]
              simp only [bind, Except.bind, searchBlock, hend, List.find?_append,
                Bool.false_eq_true, if_false, List.find?_nil, Option.or_none]
              cases (entries d.byte start).1.find? (matchesName d.byte name) with
              | some e => rfl
              | none => rfl

theorem entryName_of_matchesName {m : ℕ → Byte} (h : matchesName m name e = true) :
    entryName m e = name := by
  unfold matchesName at h
  simp only [Bool.and_eq_true, beq_iff_eq] at h
  exact h.2

theorem found_of_elim {r : Except Fault (Option ℕ)} {found : Option ℕ} (hr : ∀ e, r ≠ .ok (some e))
    (h : (found.elim r fun e => .ok (some e)) = .ok (some e)) : found = some e := by
  cases found with
  | none => exact absurd h (hr e)
  | some e' => simpa using h

theorem locateFileByName_matches (h : locateFileByName d inode name = .ok (some e)) :
    e ∈ scannedFrom d inode (List.range totalBlockCount) ∧ matchesName d.byte name e = true := by
  obtain ⟨r, hr, hlocate⟩ := locateFrom_scanned d inode (List.range totalBlockCount)
  rw [locateFileByName, hlocate] at h
  have hfind := found_of_elim hr h
  exact ⟨List.mem_of_find?_eq_some hfind, List.find?_some hfind⟩

/-- The searches for two names agree only if both find nothing. -/
theorem locateFileByName_eq_iff (hne : name ≠ other) :
    locateFileByName d inode name = locateFileByName d inode other ↔
      ¬ NamedIn d inode name ∧ ¬ NamedIn d inode other := by
  obtain ⟨r, hr, hlocate⟩ := locateFrom_scanned d inode (List.range totalBlockCount)
  have hnamed : ∀ name, ¬ NamedIn d inode name ↔ (scannedFrom d inode
      (List.range totalBlockCount)).find? (matchesName d.byte name) = none := fun name => by
    simp [NamedIn]
  have hapart : ∀ {a b : CString} {e : ℕ}, a ≠ b →
      locateFileByName d inode a = locateFileByName d inode b →
      (scannedFrom d inode (List.range totalBlockCount)).find? (matchesName d.byte a) ≠ some e := by
    intro a b e hab heq hfind
    rw [locateFileByName, locateFileByName, hlocate, hlocate, hfind] at heq
    have hother := found_of_elim hr heq.symm
    exact hab ((entryName_of_matchesName (List.find?_some hfind)).symm.trans
      (entryName_of_matchesName (List.find?_some hother)))
  rw [hnamed, hnamed]
  constructor
  · intro heq
    exact ⟨Option.eq_none_iff_forall_ne_some.mpr fun e => hapart hne heq,
      Option.eq_none_iff_forall_ne_some.mpr fun e => hapart hne.symm heq.symm⟩
  · rintro ⟨hname, hother⟩
    rw [locateFileByName, locateFileByName, hlocate, hlocate, hname, hother]

/-- On a volume these are the entries of the directory. -/
theorem Layout.Shows.namedIn_iff {L : Layout} {v : View} {n : ℕ} (h : L.Shows d v)
    (hopen : v.OpenAt L n name) : NamedIn d (L.inodeAddress n) name ↔ (v.lookup n name).isSome := by
  obtain ⟨r, hlocate, hlookup⟩ :=
    h.locateFileByName_eq hopen.isInode hopen.blocks hopen.searchable
  obtain ⟨_, -, hscanned⟩ :=
    locateFrom_scanned d (L.inodeAddress n) (List.range totalBlockCount)
  rw [← hlookup, Option.isSome_map]
  constructor
  · rintro ⟨e, he, hmatch⟩
    obtain ⟨e', he'⟩ := Option.isSome_iff_exists.mp (List.find?_isSome.mpr ⟨e, he, hmatch⟩)
    rw [locateFileByName, hscanned, he'] at hlocate
    rw [← Except.ok.inj hlocate]
    rfl
  · intro hsome
    obtain ⟨e, rfl⟩ := Option.isSome_iff_exists.mp hsome
    exact ⟨e, locateFileByName_matches hlocate⟩

/-! ## The walk -/

theorem findDirEntry_congr {path' : CString} (h : tokens path.tail = tokens path'.tail) :
    findDirEntry d path = findDirEntry d path' := by
  rw [findDirEntry, findDirEntry, h]

theorem findDirEntry_matches {names : List CString} (htokens : tokens path.tail = names ++ [name])
    (h : findDirEntry d path = .ok (some e)) : matchesName d.byte name e = true := by
  rw [findDirEntry, htokens] at h
  cases hroot : getRootInode d with
  | error f => simp [hroot, bind, Except.bind] at h
  | ok root =>
      simp only [hroot, bind, Except.bind] at h
      cases names with
      | nil => exact (locateFileByName_matches h).2
      | cons token rest =>
          simp only [List.cons_append, walkPath_concat, Except.bind] at h
          split at h
          · exact absurd h (by simp)
          · split at h
            · exact absurd h (by simp)
            · split at h
              · exact absurd h (by simp)
              · exact (locateFileByName_matches h).2

/-- What `find_parent_inode` returns if the last slash is behind `dir`. -/
def parentOf (d : Disk) (dir : CString) : Except Fault ℕ :=
  if dir = [] then .ok rootInodeNumber
  else (findDirEntry d dir).map fun r => (r.map (entryInode d.byte)).getD 0

/-- The walk to `name` behind `dir` is a search in the parent. -/
theorem findDirEntry_eq_locate (habsolute : path.head? = some slash)
    (htokens : tokens path = tokens dir ++ [name]) (hdir : dir = [] ∨ dir.head? = some slash)
    (hparent : parentOf d dir = .ok parent) (hptr : inodePtr d parent = .ok inode) :
    findDirEntry d path = locateFileByName d inode name := by
  rw [findDirEntry, tokens_tail habsolute, htokens]
  unfold parentOf at hparent
  rcases hdir with rfl | hdir
  · obtain rfl : rootInodeNumber = parent := Except.ok.inj hparent
    rw [getRootInode, hptr]
    rfl
  · have hne : dir ≠ [] := by
      rintro rfl
      exact absurd hdir (by simp)
    rw [if_neg hne, findDirEntry, tokens_tail hdir] at hparent
    cases hroot : getRootInode d with
    | error f =>
        rw [hroot] at hparent
        exact absurd hparent (by simp [bind, Except.bind, Except.map])
    | ok root =>
        rw [hroot] at hparent
        simp only [bind, Except.bind] at hparent ⊢
        cases htok : tokens dir with
        | nil =>
            rw [htok] at hparent
            exact absurd hparent (by simp [Except.map])
        | cons token rest =>
            rw [htok] at hparent
            simp only [List.cons_append, walkPath_concat, Except.bind]
            dsimp only at hparent
            cases hwalk : walkPath d root token rest with
            | error f =>
                rw [hwalk] at hparent
                exact absurd hparent (by simp [Except.map])
            | ok r =>
                rw [hwalk] at hparent
                cases r with
                | none =>
                    obtain rfl : 0 = parent := Except.ok.inj hparent
                    exact absurd hptr (by simp [inodePtr])
                | some e =>
                    obtain rfl : entryInode d.byte e = parent := Except.ok.inj hparent
                    simp only [hptr]

/-! ## The shapes of a path -/

/-- A path with a name in it ends with that name and slashes. -/
theorem exists_name_slashes (habsolute : path.head? = some slash) (hne : tokens path ≠ []) :
    ∃ dir name k, path = dir ++ slash :: name ++ List.replicate k slash ∧ slash ∉ name ∧
      name ≠ [] ∧ (dir = [] ∨ dir.head? = some slash) := by
  induction path using List.reverseRecOn with
  | nil => exact absurd habsolute (by simp)
  | append_singleton core last ih =>
      by_cases hlast : last = slash
      · subst hlast
        have htokens : tokens (core ++ [slash]) = tokens core := by
          rw [tokens_append_slash]
          exact List.append_nil _
        have hcore : core ≠ [] := by
          rintro rfl
          exact hne htokens
        obtain ⟨dir, name, k, hpath, hname, hname_ne, hdir⟩ :=
          ih (by rwa [List.head?_append_of_ne_nil _ hcore] at habsolute) (htokens ▸ hne)
        refine ⟨dir, name, k + 1, ?_, hname, hname_ne, hdir⟩
        rw [hpath, List.replicate_succ', List.append_assoc]
      · obtain ⟨dir, name, hpath, hname⟩ := exists_last_slash (List.mem_of_mem_head? habsolute)
        refine ⟨dir, name, 0, by rw [hpath]; simp, hname, ?_, ?_⟩
        · rintro rfl
          have := congrArg List.getLast? hpath
          rw [List.getLast?_concat, List.getLast?_concat] at this
          exact hlast (Option.some.inj this)
        · rw [hpath] at habsolute
          cases dir with
          | nil => exact .inl rfl
          | cons b dir => exact .inr habsolute

theorem tokens_slashes (path : CString) (k : ℕ) :
    tokens (path ++ List.replicate k slash) = tokens path := by
  induction k with
  | zero => rw [List.replicate_zero, List.append_nil]
  | succ k ih =>
      rw [List.replicate_succ', ← List.append_assoc, tokens_append_slash, ih]
      exact List.append_nil _

/-- Between two slashes at the end there is the name `/`. -/
theorem lastSlashInPath_two (core : CString) :
    lastSlashInPath (core ++ [slash, slash]) = core.length := by
  have hlast : (core ++ [slash, slash]).getLast? = some slash := by
    rw [List.getLast?_append]
    rfl
  have hdrop : (core ++ [slash, slash]).dropLast = core ++ [slash] := by
    rw [List.dropLast_append_of_ne_nil (by simp)]
    rfl
  simp only [lastSlashInPath, if_pos hlast, hdrop]
  simp [List.findIdx?_cons]

theorem findFileNameByPath_of_last (hlast : lastSlashInPath (dir ++ slash :: name) = dir.length)
    (hshort : (dir ++ slash :: name).length < 2 ^ 32) :
    findFileNameByPath (dir ++ slash :: name) = name := by
  simp only [List.length_append, List.length_cons] at hshort
  rw [findFileNameByPath, hlast, Nat.mod_eq_of_lt (by omega)]
  simp

/-! ## The directory in front of the last component -/

/-- The components lead from the root directory to a directory, whose inode is at
`inode`. -/
def DirectoryAt (d : Disk) (names : List CString) (inode : ℕ) : Prop :=
  d.u16 (iMode inode) / 4096 = 4 ∧
    match names with
    | [] => getRootInode d = .ok inode
    | token :: rest => ∃ root entry, getRootInode d = .ok root ∧
        walkPath d root token rest = .ok (some entry) ∧
          inodePtr d (entryInode d.byte entry) = .ok inode

theorem findDirEntry_of_tokens (h : tokens path.tail = token :: rest) :
    findDirEntry d path = (getRootInode d).bind fun root => walkPath d root token rest := by
  rw [findDirEntry, h]
  rfl

/-- If the path can be looked up, so can what is in front of its last component, as
long as this is a path with a component. -/
theorem exists_parentOf {r : Option ℕ} (habsolute : path.head? = some slash)
    (htokens : tokens path = tokens dir ++ [name]) (hdir : dir = [] ∨ dir.head? = some slash)
    (hne : tokens dir = [] → dir = []) (hfind : findDirEntry d path = .ok r) :
    ∃ parent, parentOf d dir = .ok parent := by
  unfold parentOf
  by_cases hnil : dir = []
  · exact ⟨_, if_pos hnil⟩
  rw [if_neg hnil]
  have hhead := hdir.resolve_left hnil
  cases htok : tokens dir with
  | nil => exact absurd (hne htok) hnil
  | cons token rest =>
      rw [htok, List.cons_append] at htokens
      rw [findDirEntry_of_tokens ((tokens_tail habsolute).trans htokens)] at hfind
      rw [findDirEntry_of_tokens ((tokens_tail hhead).trans htok)]
      obtain ⟨root, hroot, hwalk⟩ := Runs.bind_eq_ok_iff.mp hfind
      rw [walkPath_concat] at hwalk
      obtain ⟨found, hfound, -⟩ := Runs.bind_eq_ok_iff.mp hwalk
      exact ⟨_, by rw [hroot, Except.bind, hfound]; rfl⟩

theorem directoryAt_iff (hdir : dir = [] ∨ dir.head? = some slash)
    (hparent : parentOf d dir = .ok parent) :
    DirectoryAt d (tokens dir) inode ↔
      inodePtr d parent = .ok inode ∧ d.u16 (iMode inode) / 4096 = 4 := by
  unfold parentOf at hparent
  unfold DirectoryAt
  rw [and_comm]
  refine and_congr_left fun _ => ?_
  by_cases hnil : dir = []
  · rw [if_pos hnil] at hparent
    rw [hnil, ← Except.ok.inj hparent]
    rfl
  rw [if_neg hnil] at hparent
  have hhead := hdir.resolve_left hnil
  obtain ⟨r, hfind, hr⟩ : ∃ r, findDirEntry d dir = .ok r ∧
      (r.map (entryInode d.byte)).getD 0 = parent := by
    cases hfind : findDirEntry d dir with
    | error f => exact absurd (hfind ▸ hparent) (by simp [Except.map])
    | ok r => exact ⟨r, rfl, Except.ok.inj (hfind ▸ hparent)⟩
  cases htok : tokens dir with
  | nil =>
      rw [findDirEntry, tokens_tail hhead, htok] at hfind
      obtain ⟨root, -, hwild⟩ := Runs.bind_eq_ok_iff.mp hfind
      exact absurd hwild (by simp)
  | cons token rest =>
      rw [findDirEntry_of_tokens ((tokens_tail hhead).trans htok)] at hfind
      obtain ⟨root, hroot, hwalk⟩ := Runs.bind_eq_ok_iff.mp hfind
      rw [← hr]
      constructor
      · rintro ⟨root', entry, hroot', hwalk', hptr⟩
        obtain rfl := Except.ok.inj (hroot.symm.trans hroot')
        obtain rfl := Except.ok.inj (hwalk.symm.trans hwalk')
        exact hptr
      · intro hptr
        cases r with
        | none => exact absurd hptr (by simp [inodePtr])
        | some entry => exact ⟨root, entry, hroot, hwalk, hptr⟩

/-! ## Walk and split -/

/-- `find_parent_inode` returns, and if it has found a directory, the name that is split
off is found there as the path is by the walk. -/
def SplitAgrees (d : Disk) (path : CString) : Prop :=
  ∃ parent, findParentInode d path = .ok parent ∧ ∀ inode, inodePtr d parent = .ok inode →
    d.u16 (iMode inode) / 4096 = 4 →
      findDirEntry d path = locateFileByName d inode (findFileNameByPath path)

/-- What is in front of the last slash is a path with a component, if it is not
empty. -/
def ParentNamed (path : CString) : Prop :=
  tokens (path.take (lastSlashInPath path)) = [] → path.take (lastSlashInPath path) = []

section

variable (habsolute : path.head? = some slash) (hshort : path.length < 2 ^ 32)
  (htokens : tokens path = tokens dir ++ [name])

include habsolute hshort htokens

/-- The name that is split off, which is `file`, is searched for where the walk ends. -/
theorem splitAgrees_iff_locate {file : CString} {r : Option ℕ}
    (hfind : findDirEntry d path = .ok r) (hpath : path = dir ++ slash :: file)
    (hlast : lastSlashInPath path = dir.length) (hdir : dir = [] ∨ dir.head? = some slash) :
    SplitAgrees d path ↔ path.length % 16 ≠ 0 ∧ ParentNamed path ∧
      ∀ inode, DirectoryAt d (tokens dir) inode →
        locateFileByName d inode name = locateFileByName d inode file := by
  have htake : path.take (lastSlashInPath path) = dir := by
    rw [hlast, hpath, List.take_left']
    rfl
  have hfile : findFileNameByPath path = file := by
    subst hpath
    exact findFileNameByPath_of_last hlast hshort
  rw [ParentNamed, htake, SplitAgrees, hfile]
  have heq : path.length % 16 ≠ 0 → findParentInode d path = parentOf d dir := fun hlen => by
    subst hpath
    exact findParentInode_eq d hlast hlen
  constructor
  · rintro ⟨parent, hparent, hall⟩
    have hlen := length_of_findParentInode hparent
    rw [heq hlen] at hparent
    refine ⟨hlen, fun hnil => by_contra fun hne => ?_, fun inode hat => ?_⟩
    · rw [parentOf, if_neg hne, findDirEntry, tokens_tail (hdir.resolve_left hne), hnil] at hparent
      cases hroot : getRootInode d with
      | error f => exact absurd (hroot ▸ hparent) (by simp [bind, Except.bind, Except.map])
      | ok root => exact absurd (hroot ▸ hparent) (by simp [bind, Except.bind, Except.map])
    · obtain ⟨hptr, hmode⟩ := (directoryAt_iff hdir hparent).mp hat
      rw [← hall inode hptr hmode]
      exact (findDirEntry_eq_locate habsolute htokens hdir hparent hptr).symm
  · rintro ⟨hlen, hne, hall⟩
    obtain ⟨parent, hparent⟩ := exists_parentOf habsolute htokens hdir hne hfind
    refine ⟨parent, (heq hlen).trans hparent, fun inode hptr hmode => ?_⟩
    rw [findDirEntry_eq_locate habsolute htokens hdir hparent hptr]
    exact hall inode ((directoryAt_iff hdir hparent).mpr ⟨hptr, hmode⟩)

/-- Two slashes at the end are taken for a name in the directory itself. -/
theorem splitAgrees_iff_slashes {front : CString} {r : Option ℕ}
    (hfind : findDirEntry d path = .ok r) (hpath : path = front ++ [slash, slash])
    (hname : slash ∉ name) :
    SplitAgrees d path ↔ path.length % 16 ≠ 0 ∧
      ∀ inode, ¬ DirectoryAt d (tokens path) inode := by
  have hfront : tokens front = tokens path := by
    rw [hpath]
    exact (tokens_slashes front 2).symm
  have hne : front ≠ [] := by
    rintro rfl
    rw [← hfront, show tokens [] = [] from rfl] at htokens
    exact absurd htokens.symm (by simp)
  have hhead : front.head? = some slash := by
    rwa [hpath, List.head?_append_of_ne_nil _ hne] at habsolute
  have hwalk : findDirEntry d front = .ok r := by
    rw [← hfind]
    exact findDirEntry_congr (by rw [tokens_tail hhead, tokens_tail habsolute, hfront])
  have hfile : findFileNameByPath path = [slash] := by
    rw [hpath] at hshort ⊢
    exact findFileNameByPath_of_last (lastSlashInPath_two front) hshort
  have hparentOf : parentOf d front = .ok ((r.map (entryInode d.byte)).getD 0) := by
    rw [parentOf, if_neg hne, hwalk]
    rfl
  have heq : path.length % 16 ≠ 0 →
      findParentInode d path = .ok ((r.map (entryInode d.byte)).getD 0) := fun hlen => by
    rw [← hparentOf]
    subst hpath
    exact findParentInode_eq d (lastSlashInPath_two front) hlen
  rw [← hfront, SplitAgrees, hfile]
  constructor
  · rintro ⟨parent, hparent, hall⟩
    have hlen := length_of_findParentInode hparent
    obtain rfl := Except.ok.inj ((heq hlen).symm.trans hparent)
    refine ⟨hlen, fun inode hat => ?_⟩
    obtain ⟨hptr, hmode⟩ := (directoryAt_iff (.inr hhead) hparentOf).mp hat
    have hlocate := hall inode hptr hmode
    rw [hfind] at hlocate
    cases r with
    | none => exact absurd hptr (by simp [inodePtr])
    | some e =>
        have hmatch := findDirEntry_matches (by rw [tokens_tail habsolute, htokens]) hfind
        have hmatch' := (locateFileByName_matches hlocate.symm).2
        have hboth := (entryName_of_matchesName hmatch).symm.trans (entryName_of_matchesName hmatch')
        rw [hboth] at hname
        exact hname List.mem_cons_self
  · rintro ⟨hlen, hnot⟩
    exact ⟨_, heq hlen, fun inode hptr hmode =>
      absurd ((directoryAt_iff (.inr hhead) hparentOf).mpr ⟨hptr, hmode⟩) (hnot inode)⟩

end

/-- The two agree where the parent can be looked up, unless slashes at the end of the
path matter. -/
theorem split_agrees_iff {r : Option ℕ} (habsolute : path.head? = some slash)
    (hshort : path.length < 2 ^ 32) (hne : tokens path ≠ [])
    (hfind : findDirEntry d path = .ok r) :
    SplitAgrees d path ↔ path.length % 16 ≠ 0 ∧ ParentNamed path ∧
      if [slash, slash] <:+ path then ∀ inode, ¬ DirectoryAt d (tokens path) inode
      else path.getLast? = some slash → ∀ inode, DirectoryAt d (tokens path).dropLast inode →
        ¬ NamedIn d inode ((tokens path).getLast hne) ∧
          ¬ NamedIn d inode ((tokens path).getLast hne ++ [slash]) := by
  obtain ⟨dir, name, k, hpath, hname, hname_ne, hdir⟩ := exists_name_slashes habsolute hne
  have htokens : tokens path = tokens dir ++ [name] := by
    rw [hpath, tokens_slashes, tokens_split hname hname_ne]
  have hlastToken : (tokens path).getLast hne = name := by
    simp only [htokens, List.getLast_concat]
  have hlast : lastSlashInPath (dir ++ slash :: name) = dir.length :=
    lastSlashInPath_eq hname hname_ne
  have hcore := getLast?_ne_slash dir hname hname_ne
  have hinit : (tokens path).dropLast = tokens dir := by rw [htokens, List.dropLast_concat]
  rw [hlastToken, hinit]
  rcases k with - | - | k
  · -- no slash behind the name
    rw [List.replicate_zero, List.append_nil] at hpath
    have hend : path.getLast? ≠ some slash := by rwa [hpath]
    have htwo : ¬ [slash, slash] <:+ path := by
      rintro ⟨front, hfront⟩
      exact hend (by rw [← hfront, List.getLast?_append]; rfl)
    rw [splitAgrees_iff_locate habsolute hshort htokens hfind hpath (by rwa [hpath]) hdir,
      if_neg htwo]
    exact and_congr_right fun _ => and_congr_right fun _ =>
      iff_of_true (fun _ _ => rfl) fun hslash => absurd hslash hend
  · -- one slash, which only the walk drops
    have hsplit : path = dir ++ slash :: (name ++ [slash]) := by
      rw [hpath]
      simp
    rw [List.replicate_one] at hpath
    have hend : path.getLast? = some slash := by rw [hpath, List.getLast?_concat]
    have htwo : ¬ [slash, slash] <:+ path := by
      rintro ⟨front, hfront⟩
      have hfront' : (front ++ [slash]) ++ [slash] = (dir ++ slash :: name) ++ [slash] := by
        rw [List.append_assoc, ← hpath]
        exact hfront
      exact hcore (List.append_cancel_right hfront' ▸ List.getLast?_concat)
    rw [splitAgrees_iff_locate habsolute hshort htokens hfind hsplit
      (by rw [hpath, lastSlashInPath_concat hcore, hlast]) hdir, if_neg htwo]
    refine and_congr_right fun _ => and_congr_right fun _ => ?_
    rw [forall_prop_of_true hend]
    exact forall_congr' fun inode => imp_congr_right fun _ => locateFileByName_eq_iff (by simp)
  · have hsplit : path = (dir ++ slash :: name ++ List.replicate k slash) ++ [slash, slash] := by
      rw [hpath, List.replicate_succ', List.replicate_succ']
      simp
    have hnamed : ParentNamed path := fun hnil => by
      rw [hsplit, lastSlashInPath_two, List.take_left', tokens_slashes,
        tokens_split hname hname_ne] at hnil
      · exact absurd hnil (by simp)
      · rfl
    rw [splitAgrees_iff_slashes habsolute hshort htokens hfind hsplit hname,
      if_pos ⟨_, hsplit.symm⟩]
    exact and_congr_right fun _ => (and_iff_right hnamed).symm

theorem split_agrees_iff_dot : SplitAgrees smallDisk [slash, dot] :=
  (split_agrees_iff (r := some 7168) rfl (by decide) (by decide) (by decide)).mpr
    ⟨by decide, fun _ => by decide, by
      rw [if_neg (by decide)]
      exact fun hlast => absurd hlast (by decide)⟩

/-- The walk of `/./` finds the entry `.` of the root directory, in which there
is no name `./`. -/
theorem split_not_agrees : ¬ ∀ (L : Layout) (d : Disk) (v : View) (path : CString) (parent : ℕ),
    L.Shows d v → v.Consistent L → path.head? = some slash → tokens path ≠ [] →
    findParentInode d path = .ok parent → (v.inode parent).IsDirectory →
      findDirEntry d path =
        locateFileByName d (L.inodeAddress parent) (findFileNameByPath path) := by
  intro h
  have heq := h smallLayout smallDisk smallView [slash, dot, slash] 2 small_shows small_consistent
    rfl (by decide) rfl (by decide)
  revert heq
  decide

end KernelProgramming.Ext2
