import KernelProgramming.Ext2.Arranged
import KernelProgramming.Ext2.Commands
import KernelProgramming.Ext2.RmSubtree
import KernelProgramming.Library.FileTree

/-!
# Volumes as file trees

What can be found and read on a volume, without the blocks it is stored in, and
what each of the tools is to do with it.
-/

namespace KernelProgramming.Ext2

open ByteMemory FileTree

variable {L : Layout} {d : Disk} {u v w : View} {a k n p x : ℕ} {new : DirEntry} {name : CString}

/-- The names that do not hold what they name. -/
def IsDots (name : CString) : Prop := name = [dot] ∨ name = [dot, dot]

namespace View

/-- The directories and files of a volume by their inodes. -/
def fileTree (L : Layout) (v : View) : Tree ℕ CString (List Byte) := fun n =>
  if v.Live L n then
    some (if (v.inode n).IsDirectory then .dir fun name => (v.lookup n name).map DirEntry.inode
      else .file (v.contents n))
  else none

theorem fileTree_dir (h : v.IsDir L k) :
    v.fileTree L k = some (.dir fun name => (v.lookup k name).map DirEntry.inode) := by
  rw [fileTree, if_pos h.1, if_pos h.2]

theorem fileTree_file (h : v.Live L n) (hfile : ¬ (v.inode n).IsDirectory) :
    v.fileTree L n = some (.file (v.contents n)) := by
  rw [fileTree, if_pos h, if_neg hfile]

theorem eq_of_fileTree {content : List Byte} (h : v.fileTree L n = some (.file content)) :
    v.contents n = content := by
  unfold fileTree at h
  split_ifs at h
  · cases h
  · exact Node.file.inj (Option.some.inj h)

theorem fileTree_eq_none (h : ¬ v.Live L n) : v.fileTree L n = none := if_neg h

theorem fileTree_isDir : (v.fileTree L).IsDir k ↔ v.IsDir L k := by
  refine ⟨fun ⟨es, hes⟩ => ?_, fun h => ⟨_, fileTree_dir h⟩⟩
  by_cases hlive : v.Live L k
  · refine ⟨hlive, ?_⟩
    by_contra hfile
    rw [fileTree_file hlive hfile] at hes
    cases hes
  · rw [fileTree_eq_none hlive] at hes
    cases hes

theorem fileTree_lookup (h : v.IsDir L k) (name : CString) :
    (v.fileTree L).lookup k name = (v.lookup k name).map DirEntry.inode :=
  Tree.lookup_of_dir (fileTree_dir h) name

/-- A path leads to the same inode in the tree and on the volume. -/
theorem fileTree_reach (hc : v.Consistent L) {names : List CString} (hn : v.Live L n) :
    (v.fileTree L).reach n names = v.reach n names := by
  induction names generalizing n with
  | nil => rfl
  | cons name rest ih =>
      rw [Tree.reach, reach]
      by_cases hdir : (v.inode n).IsDirectory
      · rw [if_pos hdir, fileTree_lookup ⟨hn, hdir⟩]
        cases hlookup : v.lookup n name with
        | none => rfl
        | some e => exact ih (hc.live_of_lookup hn hdir hlookup)
      · rw [if_neg hdir]
        cases hlookup : (v.fileTree L).lookup n name with
        | none => rfl
        | some m => exact absurd (fileTree_isDir.mp (Tree.isDir_of_lookup hlookup)).2 hdir

/-! ## The names in the tree -/

theorem Entry.lookup_eq (h : v.Entry L k a) (hs : v.Sound L) :
    v.lookup k (v.name a) = some (dirEntry v.byte a) := by
  rw [(Pruned.refl (X := fun _ => False) hs.consistent).toThinned.lookup_eq hs.consistent
    hs.hierarchy h, if_neg List.not_mem_nil]

theorem Child.not_isDots (h : v.Child L k a) : ¬ IsDots (v.name a) :=
  not_or.mpr ⟨h.not_dot, h.not_dot_dot⟩

theorem Entry.fileTree_lookup (h : v.Entry L k a) (hs : v.Sound L) :
    (v.fileTree L).lookup k (v.name a) = some (v.target a) := by
  rw [View.fileTree_lookup h.isDir, h.lookup_eq hs]
  rfl

theorem exists_child_of_fileTree (h : (v.fileTree L).lookup k name = some n)
    (hname : ¬ IsDots name) : ∃ x, v.Child L k x ∧ v.name x = name ∧ v.target x = n := by
  have hk := fileTree_isDir.mp (Tree.isDir_of_lookup h)
  rw [fileTree_lookup hk, Option.map_eq_some_iff] at h
  obtain ⟨e, he, rfl⟩ := h
  obtain ⟨x, hx, rfl, htarget⟩ := hk.exists_entry he
  rw [IsDots, not_or] at hname
  exact ⟨x, ⟨hx, hname.1, hname.2⟩, rfl, htarget⟩

theorem fileTree_below (hs : v.Sound L) {c : ℕ} :
    (v.fileTree L).Below IsDots c k ↔ v.Below L c k := by
  constructor
  · intro h
    induction h with
    | refl => exact .refl
    | step h hname hdots hdir ih =>
        obtain ⟨x, hx, -, rfl⟩ := exists_child_of_fileTree hname hdots
        exact ih.step hx (fileTree_isDir.mp hdir).2
  · intro h
    induction h with
    | refl => exact .refl
    | step h hchild hdir ih =>
        exact ih.step (hchild.fileTree_lookup hs) hchild.not_isDots
          (fileTree_isDir.mpr ⟨hs.consistent.live_target hchild.toEntry, hdir⟩)

/-- The entries that go with another one are the names that go with its name. -/
theorem fileTree_goes (hs : v.Sound L) (h : v.Child L p a) (hx : v.Child L k x) :
    (v.fileTree L).Goes IsDots p (v.name a) k (v.name x) ↔ v.Goes L a x := by
  have hc := hs.consistent
  rw [Tree.Goes, Goes]
  refine or_congr ?_ ?_
  · constructor
    · rintro ⟨rfl, hname⟩
      exact hs.arranged.entry_eq hx.toEntry h.toEntry hname
    · rintro rfl
      exact ⟨hc.slot_unique hx.isDir h.isDir hx.slot h.slot, rfl⟩
  · constructor
    · rintro ⟨-, n, hn, hdir, hbelow⟩
      obtain rfl := Option.some.inj ((h.fileTree_lookup hs).symm.trans hn)
      exact ⟨(fileTree_isDir.mp hdir).2, k, (fileTree_below hs).mp hbelow, hx⟩
    · rintro ⟨hdir, q, hbelow, hxq⟩
      obtain rfl := hc.slot_unique hx.isDir hxq.isDir hx.slot hxq.slot
      exact ⟨hx.not_isDots, _, h.fileTree_lookup hs,
        fileTree_isDir.mpr ⟨hc.live_target h.toEntry, hdir⟩, (fileTree_below hs).mpr hbelow⟩

/-! ## What the changes of the volume do to the tree -/

theorem fileTree_congr (hc : v.Consistent L) (hlive : w.Live L n ↔ v.Live L n)
    (hkeeps : v.Live L n → v.KeepsFile w n) (hsize : v.Live L n → (w.inode n).size < 2 ^ 32) :
    w.fileTree L n = v.fileTree L n := by
  by_cases hn : v.Live L n
  swap
  · rw [fileTree_eq_none hn, fileTree_eq_none (hlive.not.mpr hn)]
  have hkeep := hkeeps hn
  by_cases hdir : (v.inode n).IsDirectory
  · rw [fileTree_dir ⟨hn, hdir⟩,
      fileTree_dir ⟨hlive.mpr hn, hkeep.isDirectory_iff.mpr hdir⟩]
    simp only [lookup, (hkeep.files_eq hc hn hdir).2]
  · rw [fileTree_file hn hdir,
      fileTree_file (hlive.mpr hn) (hkeep.isDirectory_iff.not.mpr hdir),
      hkeep.contents_eq (hkeep.size ▸ hsize hn)]

theorem fileTree_setLinks (hc : v.Consistent L) (x : ℕ)
    (hsize : ∀ n, v.Live L n →
      ((v.setInode p { v.inode p with linksCount := x }).inode n).size < 2 ^ 32) :
    (v.setInode p { v.inode p with linksCount := x }).fileTree L = v.fileTree L := by
  funext n
  exact fileTree_congr hc Iff.rfl (fun _ => keepsFile_setLinks v p x n) (hsize n)

theorem Enters.fileTree_eq (h : Enters L u w p new) (hc : u.Consistent L) (hp : u.IsDir L p)
    (hnone : u.lookup p new.name = none)
    (hsize : ∀ n, w.Live L n → (w.inode n).size < 2 ^ 32) :
    w.fileTree L = (u.fileTree L).link p new.name new.inode := by
  rw [Tree.link_of_dir (fileTree_dir hp)]
  funext k
  by_cases hkp : k = p
  · subst hkp
    rw [Function.update_self, fileTree_dir ((h.isDir_iff hp k).mpr hp)]
    refine congrArg (fun es => some (Node.dir es)) (funext fun name => ?_)
    rw [lookup, h.adds.find?_eq fun heq => heq ▸ hnone, Function.update_apply]
    split_ifs
    · rfl
    · rfl
  · rw [Function.update_of_ne hkp]
    exact fileTree_congr hc (h.live k) (fun hk => ⟨h.keeps k hkp hk, by rw [h.inode k hkp]⟩)
      fun hk => hsize k ((h.live k).mpr hk)

/-- A node that was not in use comes to the others. -/
theorem fileTree_create (hc : v.Consistent L) (hlive : ∀ k, u.Live L k ↔ k = n ∨ v.Live L k)
    (hkeeps : ∀ k, k ≠ n → v.Live L k → v.KeepsFile u k)
    (hsize : ∀ k, v.Live L k → (v.inode k).size < 2 ^ 32) {node : Node ℕ CString (List Byte)}
    (hnode : u.fileTree L n = some node) : u.fileTree L = (v.fileTree L).create n node := by
  funext k
  by_cases hkn : k = n
  · rw [hkn, Tree.create, Function.update_self, hnode]
  · rw [Tree.create, Function.update_of_ne hkn]
    exact fileTree_congr hc ((hlive k).trans (or_iff_right hkn)) (hkeeps k hkn) fun hk =>
      (hkeeps k hkn hk).size ▸ hsize k hk

end View

/-- The entry that is found for a path names the inode that it leads to. -/
theorem Layout.Shows.reach_of_findDirEntry (h : L.Shows d v) (hc : v.Consistent L)
    {path : CString} (habsolute : path.head? = some slash)
    (hsearch : v.SearchPath rootInodeNumber (tokens path.tail))
    (hfind : findDirEntry d path = .ok (some a)) :
    v.reach rootInodeNumber (tokens path) = some (entryInode d.byte a) := by
  have hne : tokens path.tail ≠ [] := fun hnil => by
    rw [findDirEntry, h.getRootInode_eq] at hfind
    exact absurd hfind (by simp [hnil, bind, Except.bind])
  obtain ⟨r, hfind', hr⟩ := h.findDirEntry_eq hc path hsearch hne
  obtain rfl : r = some a := Except.ok.inj (hfind'.symm.trans hfind)
  rw [← tokens_tail habsolute, ← v.walk_eq_reach _ hne, ← hr]
  rfl

/-! ## What the tools are to do -/

/-- A directory with nothing in it but `.` and `..`. -/
def newDir (n p : ℕ) : Node ℕ CString (List Byte) :=
  .dir fun name => if name = [dot] then some n else if name = [dot, dot] then some p else none

/-- The path leads to directory `p`, where its last name is free. -/
structure FreeName (t : Tree ℕ CString (List Byte)) (path : CString) (p : ℕ) (name : CString) :
    Prop where
  place : ∃ names, tokens path = names ++ [name] ∧ t.reach rootInodeNumber names = some p
  isDir : t.IsDir p
  free : t.lookup p name = none

theorem FreeName.of_reach (hc : v.Consistent L) {path : CString} {names : List CString}
    (htokens : tokens path = names ++ [name]) (hreach : v.reach rootInodeNumber names = some p)
    (hp : v.IsDir L p) (hnone : v.lookup p name = none) :
    FreeName (v.fileTree L) path p name where
  place := ⟨names, htokens, (View.fileTree_reach hc hc.root.1).trans hreach⟩
  isDir := View.fileTree_isDir.mpr hp
  free := by rw [View.fileTree_lookup hp, hnone, Option.map_none]

/-- What the command makes of a file tree: new nodes get any number that is not in
use, and a symbolic link is a file with the path in it. -/
def Command.Effect (t t' : Tree ℕ CString (List Byte)) : Command → Prop
  | .mkdir path _ => ∃ p name n, FreeName t path p name ∧ t n = none ∧
      t' = (t.create n (newDir n p)).link p name n
  | .cp _ nativePath native destPath _ => ∃ file stored p n, native = some file ∧
      t.reach rootInodeNumber (tokens destPath) = some p ∧ t.IsDir p ∧
        t.lookup p (findFileNameByPath nativePath) = none ∧ t n = none ∧
          -- the copy of a longer file lacks some of its blocks
          (numChunks file.content ≤ 524 → stored = file.content) ∧
            t' = (t.create n (.file stored)).link p (findFileNameByPath nativePath) n
  | .ln false filePath destPath _ _ => ∃ p name n, FreeName t destPath p name ∧
      t.reach rootInodeNumber (tokens filePath) = some n ∧ ¬ t.IsDir n ∧ t' = t.link p name n
  | .ln true filePath destPath _ _ => ∃ p name n, FreeName t destPath p name ∧
      t.reach rootInodeNumber (tokens filePath) ≠ none ∧ t n = none ∧
        t' = (t.create n (.file filePath)).link p name n
  | .rm recursive path _ _ => ∃ names name p n, tokens path = names ++ [name] ∧
      t.reach rootInodeNumber names = some p ∧ t.lookup p name = some n ∧
        (t.IsDir n → recursive = true) ∧ t' = t.remove IsDots p name

def Command.Removes : Command → Prop
  | .rm .. => True
  | _ => False

/-- The other commands only add to the tree. -/
theorem Command.Effect.extends {c : Command} {t t' : Tree ℕ CString (List Byte)}
    (h : c.Effect t t') (hc : ¬ c.Removes) : t.Extends t' := by
  have hnew : ∀ {n p : ℕ} {name : CString} (node : Node ℕ CString (List Byte)),
      t.lookup p name = none → t.IsDir p → t n = none →
        t.Extends ((t.create n node).link p name n) := by
    intro n p name node hfree hdir hn
    have hcreate := Tree.extends_create node hn
    refine hcreate.trans (Tree.extends_link n ?_)
    have hne : p ≠ n := by
      rintro rfl
      obtain ⟨es, hes⟩ := hdir
      simp [hes] at hn
    rwa [Tree.lookup, Tree.create, Function.update_of_ne hne]
  cases c with
  | mkdir path now =>
      obtain ⟨p, name, n, hplace, hn, rfl⟩ := h
      exact hnew _ hplace.free hplace.isDir hn
  | cp leftover nativePath native destPath now =>
      obtain ⟨file, stored, p, n, -, -, hdir, hfree, hn, -, rfl⟩ := h
      exact hnew _ hfree hdir hn
  | ln symbolic filePath destPath now depth =>
      cases symbolic with
      | false =>
          obtain ⟨p, name, n, hplace, -, -, rfl⟩ := h
          exact Tree.extends_link n hplace.free
      | true =>
          obtain ⟨p, name, n, hplace, -, hn, rfl⟩ := h
          exact hnew _ hplace.free hplace.isDir hn
  | rm recursive path now depth => exact absurd trivial hc

/-- The effects of commands with the codes they return, zero where nothing went wrong. -/
inductive Effects : Tree ℕ CString (List Byte) → List (Command × ℕ) →
    Tree ℕ CString (List Byte) → Prop
  | nil (t : Tree ℕ CString (List Byte)) : Effects t [] t
  | done {t t₁ t₂ : Tree ℕ CString (List Byte)} {c : Command} {cmds : List (Command × ℕ)}
      (effect : c.Effect t t₁) (rest : Effects t₁ cmds t₂) : Effects t ((c, 0) :: cmds) t₂
  | idle {t t' : Tree ℕ CString (List Byte)} {c : Command} {code : ℕ}
      {cmds : List (Command × ℕ)} (failed : code ≠ 0) (rest : Effects t cmds t') :
      Effects t ((c, code) :: cmds) t'

theorem Effects.extends {cmds : List (Command × ℕ)} {t t' : Tree ℕ CString (List Byte)}
    (h : Effects t cmds t') (hcmds : ∀ x ∈ cmds, ¬ x.1.Removes) : t.Extends t' := by
  induction h with
  | nil t => exact .refl t
  | done heffect _ ih =>
      obtain ⟨hc, hrest⟩ := List.forall_mem_cons.mp hcmds
      exact (heffect.extends hc).trans (ih hrest)
  | idle _ _ ih => exact ih (List.forall_mem_cons.mp hcmds).2

end KernelProgramming.Ext2
