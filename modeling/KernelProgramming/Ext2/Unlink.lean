import KernelProgramming.Ext2.RmSubtree
import KernelProgramming.Ext2.PathWalk

/-!
# Removing the names of a file one by one

Each run of `ext2_rm` on a name of a regular file takes this name out of its
directory.  The inode and its blocks stay until the last name is gone.
-/

namespace KernelProgramming.Ext2

open ByteMemory

variable {L : Layout} {d d' : Disk} {v w : View} {a b f k n p x : ℕ} {A as : List ℕ}
  {X : ℕ → Prop} {path name : CString} {names : List CString}

namespace View

/-- The path with single slashes names the entry at `a` in directory `p`: its
components but the last one lead there, over `.` and `..` or not. -/
structure Names (L : Layout) (v : View) (path : CString) (p a : ℕ) : Prop where
  absolute : path.head? = some slash
  single : ¬ [slash, slash] <:+: path
  entry : v.Entry L p a
  reach : ∃ names, tokens path = names ++ [v.name a] ∧ v.reach rootInodeNumber names = some p

theorem Names.length_ne_one (hnames : v.Names L path p a) : path.length ≠ 1 := fun hlength => by
  obtain ⟨b, rfl⟩ := List.length_eq_one_iff.mp hlength
  obtain rfl : b = slash := by simpa using hnames.absolute
  obtain ⟨names, htokens, -⟩ := hnames.reach
  rw [show tokens [slash] = [] by decide] at htokens
  exact absurd htokens.symm (by simp)

/-- A regular file with names of the right type whose content is in direct and
single indirect blocks. -/
structure RegularFile (L : Layout) (v : View) (f : ℕ) : Prop where
  live : v.Live L f
  mode : (v.inode f).mode / 4096 = 8
  named : v.namers L f ≠ []
  types : ∀ p a, v.Entry L p a → v.target a = f → fileType v.byte a = ext2FtRegFile
  double : (v.inode f).block dbleIndirectBlock = 0
  triple : (v.inode f).block tpleIndirectBlock = 0

theorem RegularFile.not_directory (hf : v.RegularFile L f) : ¬ (v.inode f).IsDirectory := by
  intro hdir
  have hmode := hf.mode
  rw [Inode.IsDirectory] at hdir
  omega

/-- Without names of files the directories are all still reached. -/
theorem Thinned.reach_of_files (hw : v.Thinned L A w) (hc : v.Consistent L) (hh : v.Hierarchy L)
    (hA : ∀ a ∈ A, ¬ (v.inode (v.target a)).IsDirectory) (hn : v.IsDir L n)
    (hreach : v.reach n names = some p) (hp : (v.inode p).IsDirectory) :
    v.IsDir L p ∧ w.OpenPath L n names ∧ w.reach n names = some p := by
  induction names generalizing n with
  | nil =>
      obtain rfl : n = p := Option.some.inj hreach
      exact ⟨hn, trivial, rfl⟩
  | cons name rest ih =>
      rw [reach, if_pos hn.2] at hreach
      obtain ⟨e, he, hrest⟩ := Option.bind_eq_some_iff.mp hreach
      obtain ⟨a, ha, rfl, htarget⟩ := hn.exists_entry he
      have hdir : (v.inode e.inode).IsDirectory := by
        cases rest with
        | nil =>
            obtain rfl : e.inode = p := Option.some.inj hrest
            exact hp
        | cons next rest =>
            rw [reach] at hrest
            split_ifs at hrest with hdir
            exact hdir
      have hnot : a ∉ A := fun hin => hA a hin (htarget ▸ hdir)
      have hlive := hc.live_of_lookup hn.1 hn.2 he
      obtain ⟨hpdir, hopen, hreach'⟩ := ih ⟨hlive, hdir⟩ hrest
      have hat := hw.openAt hc hh hn (v.name a)
      have hlookup : w.lookup n (v.name a) = some (dirEntry v.byte a) := by
        rw [hw.lookup_eq hc hh ha, if_neg hnot]
      have hinode : (dirEntry v.byte a).inode = e.inode := htarget
      refine ⟨hpdir, ⟨hat, fun e' he' => ?_⟩, ?_⟩
      · rw [hlookup] at he'
        rw [← Option.some.inj he', hinode]
        exact hopen
      · rw [reach, if_pos hat.isDirectory, hlookup]
        change w.reach (dirEntry v.byte a).inode rest = some p
        rwa [hinode]

end View

namespace Layout

/-- What the paths to the entries lead to when names of files are gone. -/
theorem Shows.findDirEntry_names (h : L.Shows d w) (hw : v.Thinned L A w) (hc : v.Consistent L)
    (hh : v.Hierarchy L) (hA : ∀ a ∈ A, ¬ (v.inode (v.target a)).IsDirectory)
    (hnames : v.Names L path p a) :
    findDirEntry d path = .ok (if a ∈ A then none else some a) ∧
      (path.length % 16 ≠ 0 → findParentInode d path = .ok p) := by
  have hp := hnames.entry.isDir
  obtain ⟨names, htokens, hreach⟩ := hnames.reach
  obtain ⟨dir, name, rest, hsplit, hlast, htokens', habove⟩ :=
    exists_parent hnames.absolute hnames.single (by rw [htokens]; simp)
  obtain ⟨rfl, hname⟩ := List.append_inj' (htokens'.symm.trans htokens) rfl
  obtain ⟨-, hopen, hreach'⟩ := hw.reach_of_files hc hh hA hc.root hreach hp.2
  have hparent : tokens dir ≠ [] → dir.head? = some slash ∧
      ∃ entry, findDirEntry d dir = .ok (some entry) ∧ entryInode d.byte entry = p := fun hne => by
    have hhead : dir.head? = some slash :=
      (habove.resolve_left fun hnil => hne (hnil ▸ rfl)).1
    have htail := tokens_tail hhead
    obtain ⟨r, hfind, hr⟩ :=
      h.findDirEntry_of_openPath dir (by rwa [htail]) (by rwa [htail])
    rw [htail] at hr
    rw [← w.walk_eq_reach _ hne, ← hr] at hreach'
    cases r with
    | none => exact absurd hreach' (by simp)
    | some entry => exact ⟨hhead, entry, hfind, Option.some.inj hreach'⟩
  have hroot : tokens dir = [] → p = rootInodeNumber := fun hnil => by
    rw [hnil] at hreach
    exact (Option.some.inj hreach).symm
  constructor
  · rw [h.findDirEntry_concat hp.1.1 hnames.absolute htokens hroot hparent]
    exact h.locateFileByName_entry hw hc hh hnames.entry
  · intro hlen
    rw [hsplit, findParentInode_eq d (hsplit ▸ hlast) (hsplit ▸ hlen)]
    rcases habove with rfl | ⟨hhead, hne⟩
    · rw [if_pos rfl, hroot rfl]
    · obtain ⟨-, entry, hfind, hentry⟩ := hparent hne
      have hdir : dir ≠ [] := by
        rintro rfl
        exact hne rfl
      rw [if_neg hdir, hfind]
      exact congrArg Except.ok hentry

theorem Shows.dirEntry_eq (h : L.Shows d w) (hw : v.Thinned L A w) (hc : v.Consistent L)
    (ha : v.Entry L p a) (hnot : a ∉ A) : dirEntry d.byte a = dirEntry v.byte a := by
  obtain ⟨-, -, -, -, -, hwf, -⟩ := hc.slot_bounds ha.isDir ha.slot
  obtain ⟨-, hname, -, -⟩ := hw.slot_eq hc ha.isDir ha.slot
  have hle := hwf.le
  refine (entry_congr fun i hi _ _ => ?_).2.2.trans (hw.dirEntry_eq hc ha.isDir ha.slot hnot)
  exact h.slot_byte hc ha.isDir ha.slot (by omega)

/-- One run of `ext2_rm`. -/
theorem Shows.ext2Rm_file (h : L.Shows d w) (hw : v.Pruned L X A w) (hc : v.Consistent L)
    (hh : v.Hierarchy L) (hf : v.RegularFile L f) (hA : ∀ x ∈ A, v.target x = f)
    (hnames : v.Names L path p a) (hlen : path.length % 16 ≠ 0) (htarget : v.target a = f)
    (hnot : a ∉ A) (recursive : Bool) (now depth : ℕ) :
    ∃ d' w', ext2Rm d recursive path now (depth + 1) = .ok (0, d') ∧ L.Shows d' w' ∧
      v.Pruned L X (a :: A) w' ∧ ∀ t i, L.count t ≤ i → w'.bit t i = w.bit t i := by
  have hfile := hf.not_directory
  have hA' : ∀ x ∈ A, ¬ (v.inode (v.target x)).IsDirectory := fun x hx => by rwa [hA x hx]
  obtain ⟨hfind, -⟩ := h.findDirEntry_names hw.toThinned hc hh hA' hnames
  rw [if_neg hnot] at hfind
  have hchild := hh.child_of_entry hnames.entry (by rwa [htarget])
  have htype : fileType d.byte a = ext2FtRegFile :=
    (h.fileType_eq hw.toThinned hc hnames.entry).trans (hf.types p a hnames.entry htarget)
  obtain ⟨d', hret, w', h', hw', hbits⟩ := (h.removeFile hw hc hh hchild hnot (by rwa [htarget])
    (fun _ => by rw [htarget]; exact ⟨hf.triple, .inl hf.double⟩) now
    fun d w h hw => Runs.yields_of_eq_ok
      ((h.findDirEntry_names hw hc hh hA' hnames).2 hlen) rfl).exists_ok
  refine ⟨d', w', ?_, h', hw', hbits⟩
  have hnotdir : ¬ (fileType d.byte a = ext2FtDir ∧ ¬ recursive = true) := by
    rw [htype]
    exact fun hboth => absurd hboth.1 (by decide)
  unfold ext2Rm
  rw [if_neg (by simp [hnames.absolute]), if_neg hnames.length_ne_one]
  simp only [bind, Except.bind, hfind, if_neg hnotdir]
  rw [removeDirectoryOrFileOrLink, if_pos (.inl htype), hret]

end Layout

/-! ## Runs -/

structure RmCommand where
  path : CString
  recursive : Bool
  now : ℕ

/-- One command after the other, with the codes that they return. -/
def rmEach (depth : ℕ) (d : Disk) : List RmCommand → Except Fault (List ℕ × Disk)
  | [] => .ok ([], d)
  | c :: rest => do
      let (code, d) ← ext2Rm d c.recursive c.path c.now depth
      let (codes, d) ← rmEach depth d rest
      .ok (code :: codes, d)

theorem length_of_fixParent {r : ℕ × Disk} (h : fixParent d a path = .ok r) :
    path.length % 16 ≠ 0 := by
  obtain ⟨parent, hparent, -⟩ := Runs.bind_eq_ok_iff.mp h
  exact length_of_findParentInode hparent

theorem length_of_removeFile {now : ℕ} (h : removeFile d a path now = .ok d') :
    path.length % 16 ≠ 0 := by
  obtain ⟨inode, -, h⟩ := Runs.bind_eq_ok_iff.mp h
  dsimp only at h
  split at h
  · obtain ⟨d₁, -, h⟩ := Runs.bind_eq_ok_iff.mp h
    obtain ⟨d₂, -, h⟩ := Runs.bind_eq_ok_iff.mp h
    obtain ⟨d₃, -, h⟩ := Runs.bind_eq_ok_iff.mp h
    obtain ⟨r, hfix, -⟩ := Runs.bind_eq_ok_iff.mp h
    exact length_of_fixParent hfix
  · obtain ⟨d₁, -, h⟩ := Runs.bind_eq_ok_iff.mp h
    obtain ⟨r, hfix, -⟩ := Runs.bind_eq_ok_iff.mp h
    exact length_of_fixParent hfix

/-- What is removed has a parent that `find_parent_inode` has found. -/
theorem length_of_ext2Rm {recursive : Bool} {now depth : ℕ}
    (h : ext2Rm d recursive path now depth = .ok (0, d')) : path.length % 16 ≠ 0 := by
  unfold ext2Rm at h
  split_ifs at h with habsolute hroot
  · exact absurd (congrArg Prod.fst (Except.ok.inj h)) (by simp [einval])
  · exact absurd (congrArg Prod.fst (Except.ok.inj h)) (by simp [einval])
  obtain ⟨r, -, h⟩ := Runs.bind_eq_ok_iff.mp h
  cases r with
  | none => exact absurd (congrArg Prod.fst (Except.ok.inj h)) (by simp [enoent])
  | some destFile =>
      dsimp only at h
      split_ifs at h with htype
      · exact absurd (congrArg Prod.fst (Except.ok.inj h)) (by simp [eisdir])
      obtain ⟨d₁, hremove, -⟩ := Runs.bind_eq_ok_iff.mp h
      cases depth with
      | zero => exact absurd hremove (by simp [removeDirectoryOrFileOrLink])
      | succ depth =>
          rw [removeDirectoryOrFileOrLink] at hremove
          split_ifs at hremove with hfile
          · exact length_of_removeFile hremove
          · obtain ⟨inode, -, hremove⟩ := Runs.bind_eq_ok_iff.mp hremove
            obtain ⟨d₂, -, hremove⟩ := Runs.bind_eq_ok_iff.mp hremove
            obtain ⟨r, hparent, -⟩ := Runs.bind_eq_ok_iff.mp hremove
            exact length_of_fixParent hparent

theorem length_of_rmEach {cmds : List RmCommand} {n depth : ℕ}
    (h : rmEach depth d cmds = .ok (List.replicate n 0, d')) :
    ∀ c ∈ cmds, c.path.length % 16 ≠ 0 := by
  induction cmds generalizing d n with
  | nil => exact fun c hc => absurd hc List.not_mem_nil
  | cons c cmds ih =>
      obtain ⟨⟨code, d₁⟩, hret, h⟩ := Runs.bind_eq_ok_iff.mp h
      obtain ⟨⟨codes, d₂⟩, hrest, h⟩ := Runs.bind_eq_ok_iff.mp h
      obtain ⟨hcodes, rfl⟩ := Prod.mk.inj (Except.ok.inj h)
      cases n with
      | zero => exact absurd hcodes (by simp)
      | succ n =>
          obtain ⟨rfl, rfl⟩ := List.cons.inj (hcodes.trans List.replicate_succ)
          exact List.forall_mem_cons.mpr ⟨length_of_ext2Rm hret, ih hrest⟩

/-- The commands are for the names of `f` at the addresses `as`. -/
def NamesOf (L : Layout) (v : View) (f : ℕ) (cmds : List RmCommand) (as : List ℕ) : Prop :=
  List.Forall₂ (fun c a => (∃ p, v.Names L c.path p a) ∧ v.target a = f) cmds as

theorem Layout.Shows.rmEach {cmds : List RmCommand} (h : L.Shows d w) (hw : v.Pruned L X A w)
    (hc : v.Consistent L) (hh : v.Hierarchy L) (hf : v.RegularFile L f)
    (hA : ∀ x ∈ A, v.target x = f) (hcmds : NamesOf L v f cmds as) (hnodup : as.Nodup)
    (hnew : ∀ a ∈ as, a ∉ A) (hlens : ∀ c ∈ cmds, c.path.length % 16 ≠ 0) (depth : ℕ) :
    ∃ d' w', rmEach (depth + 1) d cmds = .ok (List.replicate as.length 0, d') ∧ L.Shows d' w' ∧
      v.Pruned L X (as.reverse ++ A) w' ∧ ∀ t i, L.count t ≤ i → w'.bit t i = w.bit t i := by
  induction hcmds generalizing d w A with
  | nil => exact ⟨d, w, rfl, h, hw, fun _ _ _ => rfl⟩
  | @cons c a cmds as hfirst hrest ih =>
      obtain ⟨⟨p, hnames⟩, htarget⟩ := hfirst
      obtain ⟨hnot, hnodup⟩ := List.nodup_cons.mp hnodup
      obtain ⟨hlen, hlens⟩ := List.forall_mem_cons.mp hlens
      obtain ⟨d₁, w₁, hret, h₁, hw₁, hbits₁⟩ := h.ext2Rm_file hw hc hh hf hA hnames hlen htarget
        (hnew a List.mem_cons_self) c.recursive c.now depth
      obtain ⟨d₂, w₂, hruns, h₂, hw₂, hbits₂⟩ := ih h₁ hw₁
        (List.forall_mem_cons.mpr ⟨htarget, hA⟩) hnodup (fun x hx hin => by
          rcases List.mem_cons.mp hin with rfl | hin
          · exact hnot hx
          · exact hnew x (List.mem_cons_of_mem a hx) hin) hlens
      refine ⟨d₂, w₂, ?_, h₂, ?_, fun t i hi => (hbits₂ t i hi).trans (hbits₁ t i hi)⟩
      · simp only [Ext2.rmEach, bind, Except.bind, hret, hruns]
        rfl
      · rwa [List.reverse_cons, List.append_assoc]

/-! ## What is left -/

namespace View

/-- The entries `as`, all of them names of the file `f`, are gone, and the file
with them if there are no others. -/
structure NamesRemoved (L : Layout) (d : Disk) (v w : View) (f : ℕ) (as : List ℕ) : Prop where
  shows : L.Shows d w
  resolves : ∀ path p a, v.Names L path p a →
    findDirEntry d path = .ok (if a ∈ as then none else some a)
  entries : ∀ p a, v.Entry L p a → a ∉ as → dirEntry d.byte a = dirEntry v.byte a
  byte : w.byte = without v.byte as
  others : ∀ n, v.Live L n → n ≠ f → w.inode n = v.inode n
  owned : ∀ n, v.Live L n → w.owned n = v.owned n
  contents : ∀ n, v.Live L n → ¬ (v.inode n).IsDirectory → ∀ b ∈ v.owned n, v.SameBlock w b
  /-- as long as the file has a name -/
  kept : as.length < (v.namers L f).length →
    w.inode f = { v.inode f with linksCount := (v.namers L f).length - as.length } ∧
      w.bit = v.bit ∧ w.free = v.free ∧ w.groupFree = v.groupFree
  /-- after the last name -/
  gone : as.length = (v.namers L f).length →
    (∀ i, w.bit .inode i = (v.bit .inode i && decide (i + 1 ≠ f))) ∧
      (∀ i, w.bit .block i = (v.bit .block i && decide (i + 1 ∉ v.owned f))) ∧
      (w.free .inode = v.free .inode + 1 ∧ w.groupFree .inode = v.groupFree .inode + 1) ∧
      w.free .block = v.free .block + (v.owned f).length ∧
        w.groupFree .block = v.groupFree .block + (v.owned f).length

/-- Released numbers join the free ones. -/
theorem clear_of_released {t : BitmapType} {bs : List ℕ} (hbs : bs.Nodup)
    (hmarked : ∀ b ∈ bs, b ≠ 0 ∧ b ≤ L.count t ∧ v.bit t (b - 1) = true)
    (hbit : ∀ i, w.bit t i = (v.bit t i && decide (i + 1 ∉ bs))) :
    (w.clear L t).length = (v.clear L t).length + bs.length := by
  have hdisjoint : ∀ b ∈ v.clear L t, b ∉ bs := fun b hb hin => by
    rw [mem_clear, (hmarked b hin).2.2] at hb
    exact absurd hb.2.2 (by decide)
  have hperm : (w.clear L t).Perm (v.clear L t ++ bs) := by
    refine (List.perm_ext_iff_of_nodup (nodup_clear L w t) ?_).mpr fun b => ?_
    · exact List.nodup_append.mpr ⟨nodup_clear L v t, hbs, fun x hx y hy heq =>
        hdisjoint x hx (heq ▸ hy)⟩
    · rw [List.mem_append, mem_clear, mem_clear, hbit]
      by_cases hb : b ≠ 0
      · rw [Nat.sub_add_cancel (Nat.pos_of_ne_zero hb)]
        have := hmarked b
        by_cases hin : b ∈ bs <;> simp_all
      · have hout : b ∉ bs := fun hin => hb (hmarked b hin).1
        tauto
  rw [hperm.length_eq, List.length_append]

theorem clear_of_bit (hbit : w.bit = v.bit) (t : BitmapType) : w.clear L t = v.clear L t := by
  rw [clear, clear, hbit]

section

variable (hw : v.Pruned L X A w) (hc : v.Consistent L) (hh : v.Hierarchy L)
  (hf : v.RegularFile L f) (hA : ∀ x ∈ A, v.target x = f)

include hw hA

theorem Pruned.names_subset : A ⊆ v.namers L f := fun x hx => by
  obtain ⟨k, hchild⟩ := hw.children x hx
  exact mem_namers.mpr ⟨k, hchild.toEntry, hA x hx⟩

include hh hf

theorem Pruned.links_eq : (w.inode f).linksCount = (v.namers L f).length - A.length := by
  have hlinks := hw.links f hf.live hf.not_directory
  have hcount : A.countP (fun a => v.target a == f) = A.length :=
    List.countP_eq_length.mpr fun x hx => beq_iff_eq.mpr (hA x hx)
  rw [hcount, hh.links f hf.live] at hlinks
  omega

include hc

theorem Pruned.freed_iff_all : v.Freed L A n ↔ n = f ∧ A.length = (v.namers L f).length := by
  have hsub := hw.nodup.subperm (hw.names_subset hA)
  constructor
  · rintro ⟨⟨a, ha, htarget⟩, hall⟩
    obtain rfl : n = f := htarget.symm.trans (hA a ha)
    refine ⟨rfl, le_antisymm hsub.length_le ?_⟩
    refine ((hh.namers_nodup hc n).subperm fun x hx => ?_).length_le
    obtain ⟨k, hentry, hx⟩ := mem_namers.mp hx
    exact hall k x (hh.child_of_entry hentry (hx ▸ hf.not_directory)) hx
  · rintro ⟨rfl, hlen⟩
    have hperm := hsub.perm_of_length_le hlen.ge
    obtain ⟨a, ha⟩ := List.exists_mem_of_ne_nil _ hf.named
    have hain := hperm.mem_iff.mpr ha
    refine ⟨⟨a, hain, hA a hain⟩, fun q x hx htarget => ?_⟩
    exact hperm.mem_iff.mpr (mem_namers.mpr ⟨q, hx.toEntry, htarget⟩)

theorem Pruned.inode_eq_of_ne (hn : v.Live L n) (hne : n ≠ f) (hX : ¬ X n) :
    w.inode n = v.inode n := by
  by_cases hdir : (v.inode n).IsDirectory
  · exact hw.dirs n hX hdir fun x hx heq => hne (heq.symm.trans (hA x hx))
  · have hlinks := hw.links n hn hdir
    have hcount : A.countP (fun a => v.target a == n) = 0 :=
      List.countP_eq_zero.mpr fun x hx => by
        rw [hA x hx, beq_iff_eq]
        exact Ne.symm hne
    rw [hcount, Nat.add_zero] at hlinks
    rw [hw.kept n fun hfreed => hne ((hw.freed_iff_all hc hh hf hA).mp hfreed).1, hlinks]

variable (hpad : ∀ t i, L.count t ≤ i → w.bit t i = v.bit t i)

include hpad

/-- The bitmaps while the file has a name. -/
theorem Pruned.bit_of_kept (hlt : A.length < (v.namers L f).length) : w.bit = v.bit := by
  have hnone : ∀ n, ¬ v.Freed L A n := fun n hn =>
    hlt.ne ((hw.freed_iff_all hc hh hf hA).mp hn).2
  funext t i
  by_cases hi : L.count t ≤ i
  · exact hpad t i hi
  rw [Bool.eq_iff_iff]
  cases t with
  | inode =>
      have hinode := hw.inodes (i + 1) ⟨by omega, not_le.mp hi⟩
      rw [Nat.add_sub_cancel] at hinode
      rw [hinode]
      exact and_iff_left (hnone _)
  | block =>
      have hblock := hw.blocks (i + 1) (by omega) (not_le.mp hi)
      rw [Nat.add_sub_cancel] at hblock
      rw [hblock]
      exact and_iff_left fun k hk => absurd hk (hnone k)

theorem Pruned.counters_of_kept (hlt : A.length < (v.namers L f).length) :
    w.free = v.free ∧ w.groupFree = v.groupFree := by
  have hclear := clear_of_bit (L := L) (hw.bit_of_kept hc hh hf hA hpad hlt)
  constructor <;> funext t
  · rw [(hw.counted t).1, (hc.counted t).1, hclear]
  · rw [(hw.counted t).2, (hc.counted t).2, hclear]

/-- The bitmaps after the last name. -/
theorem Pruned.bit_of_gone (hlen : A.length = (v.namers L f).length) :
    (∀ i, w.bit .inode i = (v.bit .inode i && decide (i + 1 ≠ f))) ∧
      ∀ i, w.bit .block i = (v.bit .block i && decide (i + 1 ∉ v.owned f)) := by
  have hfreed : ∀ n, v.Freed L A n ↔ n = f := fun n =>
    (hw.freed_iff_all hc hh hf hA).trans (and_iff_left hlen)
  constructor <;> intro i <;> rw [Bool.eq_iff_iff, Bool.and_eq_true, decide_eq_true_eq]
  · by_cases hi : L.count .inode ≤ i
    · have hne : i + 1 ≠ f := by
        have hle : f ≤ L.count .inode := hf.live.1.2
        omega
      rw [hpad .inode i hi]
      exact (and_iff_left hne).symm
    · have hinode := hw.inodes (i + 1) ⟨by omega, not_le.mp hi⟩
      rw [Nat.add_sub_cancel, hfreed] at hinode
      exact hinode
  · by_cases hi : L.count .block ≤ i
    · have hout : i + 1 ∉ v.owned f := fun hin => by
        have hlt : i + 1 < L.count .block := (hc.used f hf.live _ hin).2.1.lt
        omega
      rw [hpad .block i hi]
      exact (and_iff_left hout).symm
    · have hblock := hw.blocks (i + 1) (by omega) (not_le.mp hi)
      rw [Nat.add_sub_cancel] at hblock
      rw [hblock]
      simp only [hfreed, forall_eq]

theorem Pruned.counters_of_gone (hlen : A.length = (v.namers L f).length) :
    (w.free .inode = v.free .inode + 1 ∧ w.groupFree .inode = v.groupFree .inode + 1) ∧
      w.free .block = v.free .block + (v.owned f).length ∧
        w.groupFree .block = v.groupFree .block + (v.owned f).length := by
  obtain ⟨hinode, hblock⟩ := hw.bit_of_gone hc hh hf hA hpad hlen
  have hmarked : ∀ b ∈ [f], b ≠ 0 ∧ b ≤ L.count .inode ∧ v.bit .inode (b - 1) = true :=
    fun b hb => by
      rw [List.mem_singleton.mp hb]
      exact ⟨Nat.ne_of_gt hf.live.1.1, hf.live.1.2, hf.live.2⟩
  have hinodes := clear_of_released (w := w) (List.nodup_singleton f) hmarked fun i => by
    simp only [hinode, List.mem_singleton, ne_eq]
  have hblocks := clear_of_released (hc.once f hf.live) (fun b hb => by
    obtain ⟨hne, hplain, hbit⟩ := hc.used f hf.live b hb
    exact ⟨hne, hplain.lt.le, hbit⟩) hblock
  rw [(hw.counted .inode).1, (hw.counted .inode).2, (hc.counted .inode).1, (hc.counted .inode).2,
    (hw.counted .block).1, (hw.counted .block).2, (hc.counted .block).1, (hc.counted .block).2]
  exact ⟨⟨hinodes, hinodes⟩, hblocks, hblocks⟩

end

end View

theorem NamesOf.target_eq {cmds : List RmCommand} (h : NamesOf L v f cmds as) (hx : x ∈ as) :
    v.target x = f := by
  induction h with
  | nil => exact absurd hx List.not_mem_nil
  | cons hfirst hrest ih =>
      rcases List.mem_cons.mp hx with rfl | hx
      · exact hfirst.2
      · exact ih hx

/-- Each run takes one name away; the last one takes the file. -/
theorem Layout.Shows.unlinks {cmds : List RmCommand} (h : L.Shows d v) (hc : v.Consistent L)
    (hh : v.Hierarchy L) (hf : v.RegularFile L f) (hcmds : NamesOf L v f cmds as)
    (hnodup : as.Nodup) (hlens : ∀ c ∈ cmds, c.path.length % 16 ≠ 0) (depth : ℕ) :
    ∃ d' w, Ext2.rmEach (depth + 1) d cmds = .ok (List.replicate as.length 0, d') ∧
      v.NamesRemoved L d' w f as := by
  obtain ⟨d', w, hret, h', hw, hpad⟩ := h.rmEach (View.Pruned.refl (X := fun _ => False) hc) hc hh
    hf (fun _ hx => absurd hx List.not_mem_nil) hcmds hnodup (fun _ _ => List.not_mem_nil) hlens
    depth
  rw [List.append_nil] at hw
  have hA : ∀ x ∈ as.reverse, v.target x = f := fun x hx =>
    hcmds.target_eq (List.mem_reverse.mp hx)
  have hlen : as.reverse.length = as.length := List.length_reverse
  have hthin := hw.toThinned
  have hA' : ∀ x ∈ as.reverse, ¬ (v.inode (v.target x)).IsDirectory := fun x hx => by
    rw [hA x hx]
    exact hf.not_directory
  refine ⟨d', w, hret, ?_⟩
  exact
    { shows := h'
      resolves := fun path p a hnames => by
        simpa using (h'.findDirEntry_names hthin hc hh hA' hnames).1
      entries := fun p a ha hin =>
        h'.dirEntry_eq hthin hc ha fun hx => hin (List.mem_reverse.mp hx)
      byte := by
        rw [hw.byte]
        funext x
        simp only [without, List.mem_reverse]
      others := fun n hn hne => hw.inode_eq_of_ne hc hh hf hA hn hne id
      owned := fun n hn => hthin.owned_eq hc hh hn
      contents := fun n hn hfile b hb => hthin.sameBlock hc hn hfile hb
      kept := fun hlt => by
        rw [← hlen] at hlt ⊢
        refine ⟨?_, hw.bit_of_kept hc hh hf hA hpad hlt, hw.counters_of_kept hc hh hf hA hpad hlt⟩
        rw [← hw.links_eq hh hf hA]
        exact hw.kept f fun hfreed => hlt.ne ((hw.freed_iff_all hc hh hf hA).mp hfreed).2
      gone := fun hall => by
        rw [← hlen] at hall
        obtain ⟨hinode, hblock⟩ := hw.bit_of_gone hc hh hf hA hpad hall
        exact ⟨hinode, hblock, hw.counters_of_gone hc hh hf hA hpad hall⟩ }

/-- All runs succeed if none of the paths has a length that leaves no room for its end
in the array of `find_parent_inode`. -/
theorem unlink_names_iff {cmds : List RmCommand} (h : L.Shows d v) (hc : v.Consistent L)
    (hh : v.Hierarchy L) (hf : v.RegularFile L f) (hcmds : NamesOf L v f cmds as)
    (hnodup : as.Nodup) (depth : ℕ) :
    (∃ d' w, rmEach (depth + 1) d cmds = .ok (List.replicate as.length 0, d') ∧
      v.NamesRemoved L d' w f as) ↔ ∀ c ∈ cmds, c.path.length % 16 ≠ 0 :=
  ⟨fun ⟨_, _, hret, _⟩ => length_of_rmEach hret, fun hlens => h.unlinks hc hh hf hcmds hnodup hlens
    depth⟩

/-! ## The file with two names -/

def fileEntries : List ℕ := [7168, 7180, 7192, 7204]

theorem file_entry (h : fileView.Entry smallLayout k a) : k = 2 ∧ a ∈ fileEntries := by
  have hall : ∀ k < 17, fileView.IsDir smallLayout k → k = 2 ∧ ∀ a ∈ fileView.slots k,
      a ∈ fileEntries := by decide
  obtain ⟨hk, hslots⟩ := hall k (Nat.lt_succ_of_le h.isDir.1.1.2) h.isDir
  exact ⟨hk, hslots a h.slot⟩

theorem file_child (h : fileView.Child smallLayout k a) : a = 7192 ∨ a = 7204 := by
  have hall : ∀ a ∈ fileEntries, fileView.name a ≠ [dot] → fileView.name a ≠ [dot, dot] →
      a = 7192 ∨ a = 7204 := by decide
  exact hall _ (file_entry h.toEntry).2 h.not_dot h.not_dot_dot

theorem file_targets : ∀ a, a = 7192 ∨ a = 7204 →
    fileView.target a = 12 ∧ ¬ (fileView.inode (fileView.target a)).IsDirectory := by
  rintro a (rfl | rfl) <;> decide

theorem file_hierarchy : fileView.Hierarchy smallLayout where
  direct k hk := file_direct k hk.1 hk.2
  dots k hk := by
    have hall : ∀ k < 17, fileView.IsDir smallLayout k → k = 2 := by decide
    obtain rfl := hall k (Nat.lt_succ_of_le hk.1.1.2) hk
    exact ⟨7, [], 2, [⟨[0x66#8], 12, ext2FtRegFile⟩, ⟨[0x67#8], 12, ext2FtRegFile⟩],
      by decide +kernel⟩
  names k a x ha hx hname := by
    have hall : ∀ a ∈ fileEntries, ∀ x ∈ fileEntries,
      fileView.name a = fileView.name x → a = x := by decide
    exact hall _ (file_entry ha).2 _ (file_entry hx).2 hname
  legal k a ha := by
    have hall : ∀ a ∈ fileEntries, fileView.name a ≠ [] ∧ slash ∉ fileView.name a ∧
      0 ∉ fileView.name a := by decide
    exact hall _ (file_entry ha).2
  types k a ha := by
    have hall : ∀ a ∈ fileEntries, (fileType fileView.byte a = ext2FtDir ↔
      (fileView.inode (fileView.target a)).IsDirectory) := by decide
    exact hall _ (file_entry ha).2
  parent k q a x ha _ _ hdir := absurd hdir (file_targets a (file_child ha)).2
  descends := ⟨fun _ => 0, fun k a ha hdir => absurd hdir (file_targets a (file_child ha)).2⟩
  links n hn := by
    have hall : ∀ n < 17, fileView.Live smallLayout n →
      (fileView.inode n).linksCount = (fileView.namers smallLayout n).length := by decide
    exact hall n (Nat.lt_succ_of_le hn.1.2) hn

theorem file_regular : fileView.RegularFile smallLayout 12 where
  live := by decide
  mode := by decide
  named := by decide
  types p a ha htarget := by
    have hall : ∀ a ∈ fileEntries, fileView.target a = 12 →
      fileType fileView.byte a = ext2FtRegFile := by decide
    exact hall a (file_entry ha).2 htarget
  double := by decide
  triple := by decide

/-- `/f` and `/./g`. -/
def fileCommands : List RmCommand :=
  [⟨[slash, 0x66#8], false, 0⟩, ⟨[slash, dot, slash, 0x67#8], true, 1⟩]

theorem file_commands : NamesOf smallLayout fileView 12 fileCommands [7192, 7204] := by
  have hentry : fileView.Entry smallLayout 2 7192 ∧ fileView.Entry smallLayout 2 7204 :=
    ⟨⟨by decide, by decide, by decide⟩,
      ⟨by decide, by decide, by decide⟩⟩
  refine .cons ⟨⟨2, rfl, by decide, hentry.1, [], by decide, rfl⟩, by decide⟩ ?_
  refine .cons ⟨⟨2, rfl, by decide, hentry.2, [[dot]], by decide, by decide⟩,
    by decide⟩ .nil

theorem unlink_names_iff_file :
    ∃ d w, rmEach (0 + 1) fileDisk fileCommands = .ok (List.replicate [7192, 7204].length 0, d) ∧
      fileView.NamesRemoved smallLayout d w 12 [7192, 7204] :=
  (unlink_names_iff file_shows file_consistent file_hierarchy file_regular file_commands
    (by decide) 0).mpr (by decide)

/-- `/./././././././f`, with 16 characters. -/
def sixteenPath : CString := (List.replicate 7 [slash, dot]).flatten ++ [slash, 0x66#8]

theorem not_unlink_names : ¬ ∀ (L : Layout) (d : Disk) (v : View) (f : ℕ) (cmds : List RmCommand)
    (as : List ℕ) (depth : ℕ), L.Shows d v → v.Consistent L → v.Hierarchy L → v.RegularFile L f →
      NamesOf L v f cmds as → as.Nodup →
        ∃ d' w, rmEach (depth + 1) d cmds = .ok (List.replicate as.length 0, d') ∧
          v.NamesRemoved L d' w f as := by
  intro h
  have hnames : NamesOf smallLayout fileView 12 [⟨sixteenPath, false, 0⟩] [7192] := by
    refine .cons ⟨⟨2, rfl, by decide, ⟨by decide, by decide, by decide⟩,
      List.replicate 7 [dot], by decide, by decide⟩, by decide⟩ .nil
  obtain ⟨d', w, hret, -⟩ := h smallLayout fileDisk fileView 12 [⟨sixteenPath, false, 0⟩] [7192] 0
    file_shows file_consistent file_hierarchy file_regular hnames (by decide)
  exact length_of_rmEach hret _ (List.mem_singleton_self _) (by decide)

end KernelProgramming.Ext2
