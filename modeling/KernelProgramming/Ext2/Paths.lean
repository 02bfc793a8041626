import KernelProgramming.Ext2.Lookup

/-!
# Paths and their last component

The tools split a path at its last slash.  Where no slash follows the last
component this agrees with the walk along the tokens.
-/

namespace KernelProgramming.Ext2

variable {path dir name rest : CString}

theorem tokens_append_slash (dir rest : CString) :
    tokens (dir ++ slash :: rest) = tokens dir ++ tokens rest := by
  rw [tokens, List.splitOn_append_cons_self, List.filter_append]
  rfl

theorem tokens_name (hname : slash ∉ name) (hne : name ≠ []) : tokens name = [name] := by
  rw [tokens, List.splitOn_eq_singleton hname]
  simp [hne]

theorem tokens_tail (h : path.head? = some slash) : tokens path.tail = tokens path := by
  cases path with
  | nil => rfl
  | cons b path =>
      obtain rfl : b = slash := by simpa using h
      exact (tokens_append_slash [] path).symm

theorem exists_last_slash (h : slash ∈ path) :
    ∃ dir name, path = dir ++ slash :: name ∧ slash ∉ name := by
  obtain ⟨xs, ys, hsplit, hxs⟩ := List.eq_append_cons_of_mem (List.mem_reverse.mpr h)
  refine ⟨ys.reverse, xs.reverse, ?_, by simpa using hxs⟩
  rw [← List.reverse_reverse path, hsplit]
  simp

theorem getLast?_ne_slash (dir : CString) (hname : slash ∉ name) (hne : name ≠ []) :
    (dir ++ slash :: name).getLast? ≠ some slash := by
  obtain ⟨init, last, rfl⟩ := List.eq_nil_or_concat name |>.resolve_left hne
  rw [List.concat_eq_append] at hname ⊢
  have hother : last ≠ slash := by
    rintro rfl
    simp at hname
  have hsplit : dir ++ slash :: (init ++ [last]) = (dir ++ slash :: init) ++ [last] := by simp
  rw [hsplit, List.getLast?_concat]
  simpa using hother

theorem lastSlashInPath_eq (hname : slash ∉ name) (hne : name ≠ []) :
    lastSlashInPath (dir ++ slash :: name) = dir.length := by
  have hlast := getLast?_ne_slash dir hname hne
  have hfind : (dir ++ slash :: name).reverse.findIdx? (· = slash) = some name.length := by
    rw [List.reverse_append, List.reverse_cons, List.append_assoc]
    have hnone : name.reverse.findIdx? (· = slash) = none := by
      rw [List.findIdx?_eq_none_iff]
      intro b hb
      have : b ≠ slash := fun heq => hname (heq ▸ List.mem_reverse.mp hb)
      simpa using this
    rw [List.findIdx?_append, hnone]
    simp [List.findIdx?_cons]
  simp only [lastSlashInPath, if_neg hlast, hfind]
  simp

/-- A slash at the end does not count. -/
theorem lastSlashInPath_concat (hlast : path.getLast? ≠ some slash) :
    lastSlashInPath (path ++ [slash]) = lastSlashInPath path := by
  rw [lastSlashInPath, lastSlashInPath, if_neg hlast]
  simp

theorem findFileNameByPath_eq (hname : slash ∉ name) (hne : name ≠ [])
    (hlen : dir.length + 1 < 2 ^ 32) : findFileNameByPath (dir ++ slash :: name) = name := by
  rw [findFileNameByPath, lastSlashInPath_eq hname hne, Nat.mod_eq_of_lt hlen]
  simp

theorem tokens_split (hname : slash ∉ name) (hne : name ≠ []) :
    tokens (dir ++ slash :: name) = tokens dir ++ [name] := by
  rw [tokens_append_slash, tokens_name hname hne]

/-- The part of a path with single slashes that leads to the last directory. -/
theorem exists_parent (habsolute : path.head? = some slash) (hsingle : ¬ [slash, slash] <:+: path)
    (hne : tokens path ≠ []) :
    ∃ dir name rest, path = dir ++ slash :: rest ∧ lastSlashInPath path = dir.length ∧
      tokens path = tokens dir ++ [name] ∧
      (dir = [] ∨ dir.head? = some slash ∧ tokens dir ≠ []) := by
  have hpath : path ≠ [] := by
    rintro rfl
    exact absurd habsolute (by simp)
  -- `core` is the path without a slash at its end
  obtain ⟨core, last, hcore, hlast, htail⟩ : ∃ core last, path = core ++ last ∧
      core.getLast? ≠ some slash ∧ (last = [] ∨ last = [slash]) := by
    by_cases h : path.getLast? = some slash
    · obtain ⟨core, rfl⟩ := List.getLast?_eq_some_iff.mp h
      refine ⟨core, [slash], rfl, fun h' => ?_, .inr rfl⟩
      obtain ⟨front, rfl⟩ := List.getLast?_eq_some_iff.mp h'
      exact hsingle ⟨front, [], by simp⟩
    · exact ⟨path, [], by simp, h, .inl rfl⟩
  have hcore_ne : core ≠ [] := by
    rintro rfl
    rcases htail with rfl | rfl
    · exact hpath hcore
    · exact hne (hcore ▸ rfl)
  have hhead : core.head? = some slash := by
    rwa [hcore, List.head?_append_of_ne_nil _ hcore_ne] at habsolute
  obtain ⟨dir, name, rfl, hname⟩ := exists_last_slash (List.mem_of_mem_head? hhead)
  have hname_ne : name ≠ [] := by
    rintro rfl
    exact hlast (by simp)
  have htokens : tokens path = tokens dir ++ [name] := by
    rw [hcore, ← tokens_split hname hname_ne]
    rcases htail with rfl | rfl
    · rw [List.append_nil]
    · rw [tokens_append_slash]
      exact List.append_nil _
  refine ⟨dir, name, name ++ last, by rw [hcore]; simp, ?_, htokens, ?_⟩
  · rcases htail with rfl | rfl
    · rw [hcore, List.append_nil, lastSlashInPath_eq hname hname_ne]
    · rw [hcore, lastSlashInPath_concat hlast, lastSlashInPath_eq hname hname_ne]
  · by_cases hdir : dir = []
    · exact .inl hdir
    have hdirhead : dir.head? = some slash := by
      rwa [List.head?_append_of_ne_nil _ hdir] at hhead
    refine .inr ⟨hdirhead, ?_⟩
    obtain ⟨before, part, rfl, hpart⟩ := exists_last_slash (List.mem_of_mem_head? hdirhead)
    rw [tokens_split hpart ?_]
    · simp
    · rintro rfl
      exact hsingle ⟨before, name ++ last, by rw [hcore]; simp⟩

/-- The last component is searched for where the walk along the others ends. -/
theorem walkPath_concat (d : Disk) (inode : ℕ) (token : CString) (rest : List CString)
    (name : CString) : walkPath d inode token (rest ++ [name]) =
      (walkPath d inode token rest).bind fun r =>
        match r with
        | none => .ok none
        | some entry => (inodePtr d (entryInode d.byte entry)).bind fun i =>
            locateFileByName d i name := by
  induction rest generalizing inode token with
  | nil =>
      rw [List.nil_append, walkPath, walkPath]
      simp only [bind, Except.bind]
      cases locateFileByName d inode token with
      | error f => rfl
      | ok r =>
          cases r with
          | none => rfl
          | some entry =>
              simp only
              cases inodePtr d (entryInode d.byte entry) <;> rfl
  | cons next rest ih =>
      rw [List.cons_append, walkPath, walkPath]
      simp only [bind, Except.bind]
      cases locateFileByName d inode token with
      | error f => rfl
      | ok r =>
          cases r with
          | none => rfl
          | some entry =>
              simp only
              cases inodePtr d (entryInode d.byte entry) with
              | error f => rfl
              | ok i => exact ih i next

/-- The array of `find_parent_inode` has no room for the `'\0'`. -/
theorem findParentInode_overrun (d : Disk) (h : path.length % 16 = 0) :
    findParentInode d path = .error .overrun := by
  have hroom : stackRoom path.length ≤ path.length :=
    Nat.le_of_not_lt fun hlt => lt_stackRoom_iff.mp hlt h
  rw [findParentInode, if_pos hroom]

theorem length_of_findParentInode {d : Disk} {p : ℕ} (h : findParentInode d path = .ok p) :
    path.length % 16 ≠ 0 := fun hlen => by
  rw [findParentInode_overrun d hlen] at h
  exact absurd h (by simp)

/-- The directory is what comes before the last slash. -/
theorem findParentInode_eq (d : Disk)
    (hlast : lastSlashInPath (dir ++ slash :: rest) = dir.length)
    (hlen : (dir ++ slash :: rest).length % 16 ≠ 0) :
    findParentInode d (dir ++ slash :: rest) =
      if dir = [] then .ok rootInodeNumber
      else (findDirEntry d dir).map fun r => (r.map (entryInode d.byte)).getD 0 := by
  rw [findParentInode, hlast, if_neg (Nat.not_le_of_gt (lt_stackRoom_iff.mpr hlen))]
  simp only [List.take_left', List.length_append, List.length_cons,
    if_neg (show ¬ dir.length + (rest.length + 1) ≤ dir.length by omega)]
  split
  · rfl
  · cases findDirEntry d dir with
    | error f => rfl
    | ok r => cases r <;> rfl

namespace Layout

variable {L : Layout} {d : Disk} {v : View} {p : ℕ}

/-- `find_parent_inode` finds the directory that the components but the last
lead to. -/
theorem Shows.reach_of_findParentInode (h : L.Shows d v) (hc : v.Consistent L)
    (hname : slash ∉ name) (hne : name ≠ [])
    (habsolute : (dir ++ slash :: name).head? = some slash)
    (hpath : v.SearchPath rootInodeNumber (tokens dir ++ [name]))
    (hret : findParentInode d (dir ++ slash :: name) = .ok p) (hp : p ≠ 0) :
    v.reach rootInodeNumber (tokens dir) = some p := by
  rw [findParentInode_eq d (lastSlashInPath_eq hname hne) (length_of_findParentInode hret)] at hret
  by_cases hdir : dir = []
  · rw [if_pos hdir] at hret
    obtain rfl : rootInodeNumber = p := Except.ok.inj hret
    rw [hdir]
    rfl
  · rw [if_neg hdir] at hret
    have habs : dir.head? = some slash := by
      obtain ⟨b, rest, rfl⟩ := List.exists_cons_of_ne_nil hdir
      exact habsolute
    have htokens : tokens dir ≠ [] := by
      intro hnil
      rw [findDirEntry, tokens_tail habs, hnil, h.getRootInode_eq] at hret
      exact absurd hret (by simp [bind, Except.bind, Except.map])
    obtain ⟨r, hfind, hr⟩ := h.findDirEntry_eq hc dir
      (by rw [tokens_tail habs]; exact hpath.of_append) (by rwa [tokens_tail habs])
    rw [hfind] at hret
    rw [tokens_tail habs] at hr
    rw [← v.walk_eq_reach _ htokens, ← hr]
    cases r with
    | none => exact absurd (Except.ok.inj hret).symm hp
    | some e => exact congrArg some (Except.ok.inj hret)

end Layout

end KernelProgramming.Ext2
