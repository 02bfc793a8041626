import KernelProgramming.Ext2.CpContent
import KernelProgramming.Library.NameForest
import Mathlib.Algebra.BigOperators.Group.Finset.Basic

/-!
# Sound volumes

The directories of a volume by what their entries say: a tree whose directories
begin with `.` and `..`, and link counts that are numbers of entries.  This is
the form in which new names are easily put into it.
-/

namespace KernelProgramming.Ext2

open ByteMemory NameForest

variable {L : Layout} {d d' : Disk} {u v w : View} {a b k m n p q : ℕ} {e new : DirEntry}
  {name : CString}

namespace View

/-- Directory `k` has the live entry `e`, which is not `.` or `..`. -/
structure Contains (L : Layout) (v : View) (k : ℕ) (e : DirEntry) : Prop where
  isDir : v.IsDir L k
  mem : e ∈ v.files k
  not_dot : e.name ≠ [dot]
  not_dot_dot : e.name ≠ [dot, dot]

/-- The entries of a volume without the link counts: they form a tree of directories. -/
structure Arranged (L : Layout) (v : View) : Prop where
  direct : ∀ k, v.IsDir L k → (v.inode k).DirectOnly
  opens : ∀ k, v.IsDir L k → v.Opens k
  names : ∀ k, v.IsDir L k → ((v.files k).map DirEntry.name).Nodup
  legal : ∀ k, v.IsDir L k → ∀ e ∈ v.files k, e.name ≠ [] ∧ slash ∉ e.name ∧ 0 ∉ e.name
  types : ∀ k, v.IsDir L k → ∀ e ∈ v.files k,
    (e.fileType = ext2FtDir ↔ (v.inode e.inode).IsDirectory)
  forest : Forest (fun k e n => v.Contains L k e ∧ e.inode = n) fun n => (v.inode n).IsDirectory
  /-- `..` leads to the directory that holds the name -/
  above : ∀ k e, v.Contains L k e → (v.inode e.inode).IsDirectory →
    ⟨[dot, dot], k, ext2FtDir⟩ ∈ v.files e.inode

/-- The number of live entries that name inode `n`. -/
def nameCount (L : Layout) (v : View) (n : ℕ) : ℕ :=
  ∑ k ∈ (Finset.range (L.inodesCount + 1)).filter fun k => v.IsDir L k,
    (v.files k).countP fun e => e.inode == n

/-- All directories but those in `X` are below the root, which is its own parent. -/
structure Rooted (L : Layout) (v : View) (X : Set ℕ) : Prop where
  top : ⟨[dot, dot], rootInodeNumber, ext2FtDir⟩ ∈ v.files rootInodeNumber
  unnamed : ∀ k e, v.Contains L k e → e.inode ≠ rootInodeNumber
  inside : ∀ n ∉ X, v.IsDir L n → n ≠ rootInodeNumber → ∃ k e, v.Contains L k e ∧ e.inode = n

/-- A consistent volume in which the directories form a tree and the links are the names. -/
structure Sound (L : Layout) (v : View) : Prop where
  consistent : v.Consistent L
  arranged : v.Arranged L
  rooted : v.Rooted L ∅
  linked : ∀ n, v.Live L n → (v.inode n).linksCount = v.nameCount L n

/-- File `n` has the same content in both volumes. -/
structure KeepsFile (v w : View) (n : ℕ) : Prop extends v.Keeps w n where
  size : (w.inode n).size = (v.inode n).size

/-- So do all files that are in both volumes. -/
def KeepsFiles (L : Layout) (v w : View) : Prop :=
  ∀ n, v.Live L n → w.Live L n → ¬ (v.inode n).IsDirectory → v.KeepsFile w n

theorem KeepsFile.trans (h : v.KeepsFile u n) (h' : u.KeepsFile w n) : v.KeepsFile w n where
  mode := h'.mode.trans h.mode
  block := h'.block.trans h.block
  same c hin := (h.same c hin).trans (h'.same c (h.owned_eq ▸ hin))
  size := h'.size.trans h.size

theorem KeepsFile.contents_eq (h : v.KeepsFile w n) (hsize : (v.inode n).size < 2 ^ 32) :
    w.contents n = v.contents n :=
  contents_congr h.size h.block hsize h.same

theorem KeepsFiles.refl (L : Layout) (v : View) : v.KeepsFiles L v := fun _ _ _ _ =>
  ⟨⟨rfl, rfl, fun _ _ _ _ => rfl⟩, rfl⟩

theorem KeepsFiles.trans (h : v.KeepsFiles L u) (h' : u.KeepsFiles L w)
    (hlive : ∀ n, v.Live L n → u.Live L n) : v.KeepsFiles L w := fun n hv hw hfile =>
  have hfirst := h n hv (hlive n hv) hfile
  hfirst.trans (h' n (hlive n hv) hw (hfirst.isDirectory_iff.not.mpr hfile))

theorem keepsFile_setLinks (v : View) (p x n : ℕ) :
    v.KeepsFile (v.setInode p { v.inode p with linksCount := x }) n := by
  refine ⟨keeps_setLinks v p x n, ?_⟩
  by_cases hn : n = p
  · subst hn
    rw [inode_setInode]
  · rw [inode_setInode_of_ne hn]

theorem keepsFiles_setLinks (L : Layout) (v : View) (p x : ℕ) :
    v.KeepsFiles L (v.setInode p { v.inode p with linksCount := x }) :=
  fun n _ _ _ => keepsFile_setLinks v p x n

/-! ## Entries by their addresses -/

theorem length_namers (L : Layout) (v : View) (n : ℕ) :
    (v.namers L n).length = v.nameCount L n := by
  have hcount : ∀ k, ((v.slots k).filter fun a => Ext2.live v.byte a && v.target a == n).length =
      (v.files k).countP fun e => e.inode == n := fun k => by
    rw [files, filesIn, List.countP_map, List.countP_filter, List.countP_eq_length_filter]
    refine congrArg List.length (List.filter_congr fun a _ => ?_)
    exact Bool.and_comm _ _
  have hnodup := (List.nodup_range (n := L.inodesCount + 1)).filter fun k => decide (v.IsDir L k)
  rw [namers, List.length_flatMap, nameCount]
  simp only [hcount]
  rw [← List.sum_toFinset _ hnodup]
  refine Finset.sum_congr (Finset.ext fun k => ?_) fun _ _ => rfl
  simp

theorem Child.contains (h : v.Child L k a) : v.Contains L k (dirEntry v.byte a) :=
  ⟨h.isDir, h.mem_files, h.not_dot, h.not_dot_dot⟩

theorem Opens.files_eq (h : v.Opens k) (hdirect : (v.inode k).DirectOnly) :
    ∃ b bs q es, v.data k = b :: bs ∧ filesIn v.byte (v.entriesOf b) =
      ⟨[dot], k, ext2FtDir⟩ :: ⟨[dot, dot], q, ext2FtDir⟩ :: es := by
  obtain ⟨x, y, es, q, hes, hx, hy, hdot, hdots⟩ := h.entries
  obtain ⟨bs, hdata⟩ := data_cons hdirect h.slot
  refine ⟨_, bs, q, filesIn v.byte es, hdata, ?_⟩
  rw [hes, filesIn_cons, filesIn_cons, if_pos hx, if_pos hy, hdot, hdots]
  rfl

theorem Opens.mem_files (h : v.Opens k) (hdirect : (v.inode k).DirectOnly) :
    ⟨[dot], k, ext2FtDir⟩ ∈ v.files k ∧ ∃ q, ⟨[dot, dot], q, ext2FtDir⟩ ∈ v.files k := by
  obtain ⟨b, bs, q, es, hdata, hfiles⟩ := h.files_eq hdirect
  have hin : ∀ e ∈ filesIn v.byte (v.entriesOf b), e ∈ v.files k := fun e he => by
    rw [files, hdata, List.flatMap_cons, filesIn_append]
    exact List.mem_append_left _ he
  rw [hfiles] at hin
  exact ⟨hin _ List.mem_cons_self, q, hin _ (List.mem_cons_of_mem _ List.mem_cons_self)⟩

/-- A name that is missing is not one of the first two. -/
theorem Arranged.dots_ne (ha : v.Arranged L) (hp : v.IsDir L p) (hnone : v.lookup p name = none) :
    name ≠ [dot] ∧ name ≠ [dot, dot] := by
  have hother : ∀ e ∈ v.files p, name ≠ e.name := fun e he heq =>
    List.find?_eq_none.mp hnone e he (beq_iff_eq.mpr heq.symm)
  obtain ⟨hdot, q, hdots⟩ := (ha.opens p hp).mem_files (ha.direct p hp)
  exact ⟨hother _ hdot, hother _ hdots⟩

theorem Arranged.entry_eq (ha : v.Arranged L) {x : ℕ} (h : v.Entry L k a) (h' : v.Entry L k x)
    (hname : v.name a = v.name x) : a = x := by
  have hnodup := ha.names k h.isDir
  rw [files, filesIn, List.map_map] at hnodup
  exact List.inj_on_of_nodup_map hnodup (List.mem_filter.mpr ⟨h.slot, h.live⟩)
    (List.mem_filter.mpr ⟨h'.slot, h'.live⟩) hname

theorem Sound.hierarchy (h : v.Sound L) : v.Hierarchy L where
  direct := h.arranged.direct
  dots k hk := (h.arranged.opens k hk).files_eq (h.arranged.direct k hk)
  names k a x ha hx := h.arranged.entry_eq ha hx
  legal k a ha := h.arranged.legal k ha.isDir _ ha.mem_files
  types k a ha := h.arranged.types k ha.isDir _ ha.mem_files
  parent k q a x ha hx heq hdir := by
    obtain ⟨rfl, hentry⟩ :=
      h.arranged.forest.parent k q _ _ _ ⟨ha.contains, rfl⟩ ⟨hx.contains, heq.symm⟩ hdir
    exact h.arranged.entry_eq ha.toEntry hx.toEntry (congrArg DirEntry.name hentry)
  descends := by
    obtain ⟨height, hheight⟩ := h.arranged.forest.descends
    exact ⟨height, fun k a ha hdir => hheight k _ _ ⟨ha.contains, rfl⟩ hdir⟩
  links n hn := (h.linked n hn).trans (length_namers L v n).symm

/-! ## Directories that stay as they are -/

theorem Opens.keeps (h : v.Opens k) (hc : v.Consistent L) (hk : v.IsDir L k)
    (hdirect : (v.inode k).DirectOnly) (hkeeps : v.Keeps w k) : w.Opens k := by
  obtain ⟨bs, hdata⟩ := data_cons hdirect h.slot
  have hmem : (v.inode k).block 0 ∈ v.data k := hdata ▸ List.mem_cons_self
  have hsame := hkeeps.same _ (data_subset_owned v k hmem)
  have htiled := hc.tiled k hk.1 hk.2 _ hmem
  exact h.keepsFirst (.of_sameBlock (by rw [hkeeps.block]) htiled hsame) htiled
    (entriesOf_congr hsame htiled).1

theorem nameCount_congr (hdirs : ∀ k, w.IsDir L k ↔ v.IsDir L k)
    (hfiles : ∀ k, v.IsDir L k → w.files k = v.files k) (n : ℕ) :
    w.nameCount L n = v.nameCount L n := by
  refine Finset.sum_congr (Finset.filter_congr fun k _ => hdirs k) fun k hk => ?_
  rw [hfiles k (Finset.mem_filter.mp hk).2]

theorem Rooted.mono {X Y : Set ℕ} (h : v.Rooted L X) (hXY : X ⊆ Y) : v.Rooted L Y :=
  ⟨h.top, h.unnamed, fun n hn => h.inside n fun hin => hn (hXY hin)⟩

/-- The same entries, and perhaps directories that no entry names yet. -/
theorem Rooted.of_contains {X Y : Set ℕ} (h : v.Rooted L X)
    (hroot : w.files rootInodeNumber = v.files rootInodeNumber)
    (hcontains : ∀ k e, w.Contains L k e ↔ v.Contains L k e)
    (hdirs : ∀ n ∉ Y, w.IsDir L n → n ∉ X ∧ v.IsDir L n) : w.Rooted L Y where
  top := hroot ▸ h.top
  unnamed k e he := h.unnamed k e ((hcontains k e).mp he)
  inside n hn hdir hne := by
    obtain ⟨hnX, hdir⟩ := hdirs n hn hdir
    obtain ⟨k, e, he, hen⟩ := h.inside n hnX hdir hne
    exact ⟨k, e, (hcontains k e).mpr he, hen⟩

theorem contains_congr (hdirs : ∀ k, w.IsDir L k ↔ v.IsDir L k)
    (hfiles : ∀ k, v.IsDir L k → w.files k = v.files k) :
    w.Contains L k e ↔ v.Contains L k e := by
  constructor
  · intro h
    have hk := (hdirs k).mp h.isDir
    exact ⟨hk, hfiles k hk ▸ h.mem, h.not_dot, h.not_dot_dot⟩
  · intro h
    exact ⟨(hdirs k).mpr h.isDir, (hfiles k h.isDir).symm ▸ h.mem, h.not_dot, h.not_dot_dot⟩

/-- The same directories with the same blocks, next to anything else. -/
theorem Arranged.of_keeps (ha : v.Arranged L) (hc : v.Consistent L)
    (hdirs : ∀ k, w.IsDir L k ↔ v.IsDir L k) (hkeeps : ∀ k, v.Live L k → v.Keeps w k) :
    w.Arranged L ∧ (∀ X, v.Rooted L X → w.Rooted L X) ∧
      ∀ n, w.nameCount L n = v.nameCount L n := by
  have hfiles : ∀ k, v.IsDir L k → w.files k = v.files k := fun k hk =>
    ((hkeeps k hk.1).files_eq hc hk.1 hk.2).2
  have hmode : ∀ k, v.IsDir L k → ∀ e ∈ v.files k,
      ((w.inode e.inode).IsDirectory ↔ (v.inode e.inode).IsDirectory) := fun k hk e he =>
    (hkeeps _ (hc.named k hk.1 hk.2 e he)).isDirectory_iff
  have hcontains : ∀ {k e}, w.Contains L k e ↔ v.Contains L k e := contains_congr hdirs hfiles
  have hdir : ∀ {k e}, w.Contains L k e → (w.inode e.inode).IsDirectory →
      (v.inode e.inode).IsDirectory := fun {k e} h hdir =>
    (hmode k (hcontains.mp h).isDir e (hcontains.mp h).mem).mp hdir
  refine ⟨⟨fun k hk => ?_, fun k hk => ?_, fun k hk => ?_, fun k hk e he => ?_, fun k hk e he => ?_,
    ha.forest.mono ?_, fun k e h hedir => ?_⟩, fun X hr => ?_, nameCount_congr hdirs hfiles⟩
  · have hk := (hdirs k).mp hk
    exact (hkeeps k hk.1).directOnly (ha.direct k hk)
  · have hk := (hdirs k).mp hk
    exact (ha.opens k hk).keeps hc hk (ha.direct k hk) (hkeeps k hk.1)
  · have hk := (hdirs k).mp hk
    rw [hfiles k hk]
    exact ha.names k hk
  · have hk := (hdirs k).mp hk
    exact ha.legal k hk e (hfiles k hk ▸ he)
  · have hk := (hdirs k).mp hk
    rw [hfiles k hk] at he
    rw [hmode k hk e he]
    exact ha.types k hk e he
  · rintro k e n ⟨h, rfl⟩ hedir
    exact ⟨⟨hcontains.mp h, rfl⟩, hdir h hedir⟩
  · have h' := hcontains.mp h
    have hedir' := hdir h hedir
    rw [hfiles _ ⟨hc.named k h'.isDir.1 h'.isDir.2 e h'.mem, hedir'⟩]
    exact ha.above k e h' hedir'
  · exact hr.of_contains (hfiles _ hc.root) (fun k e => hcontains) fun n hn hdir =>
      ⟨hn, (hdirs n).mp hdir⟩

/-! ## A name more -/

section Enters

variable (h : Enters L u w p new) (hc : u.Consistent L) (ha : u.Arranged L) (hp : u.IsDir L p)

include h

include hp in
theorem Enters.isDirectory_iff (n : ℕ) : (w.inode n).IsDirectory ↔ (u.inode n).IsDirectory := by
  by_cases hn : n = p
  · rw [hn]
    exact iff_of_true h.isDirectory hp.2
  · rw [h.inode n hn]

include hp in
theorem Enters.isDir_iff (k : ℕ) : w.IsDir L k ↔ u.IsDir L k :=
  and_congr (h.live k) (h.isDirectory_iff hp k)

include hp in
theorem Enters.keepsFiles : u.KeepsFiles L w := fun n hn _ hfile => by
  have hnp : n ≠ p := fun heq => hfile (heq ▸ hp.2)
  exact ⟨h.keeps n hnp hn, by rw [h.inode n hnp]⟩

include hc in
theorem Enters.files_eq (hk : u.IsDir L k) (hkp : k ≠ p) : w.files k = u.files k :=
  ((h.keeps k hkp hk.1).files_eq hc hk.1 hk.2).2

include hc hp in
theorem Enters.mem_files (hk : u.IsDir L k) :
    e ∈ w.files k ↔ e ∈ u.files k ∨ k = p ∧ e = new := by
  by_cases hkp : k = p
  · subst hkp
    rw [h.adds.mem_iff]
    tauto
  · rw [h.files_eq hc hk hkp]
    tauto

include hc hp in
theorem Enters.nameCount_eq (n : ℕ) :
    w.nameCount L n = u.nameCount L n + if new.inode = n then 1 else 0 := by
  have hmem : p ∈ (Finset.range (L.inodesCount + 1)).filter fun k => u.IsDir L k :=
    Finset.mem_filter.mpr ⟨Finset.mem_range.mpr (Nat.lt_succ_of_le hp.1.1.2), hp⟩
  have hdirs : ((Finset.range (L.inodesCount + 1)).filter fun k => w.IsDir L k) =
      (Finset.range (L.inodesCount + 1)).filter fun k => u.IsDir L k :=
    Finset.filter_congr fun k _ => h.isDir_iff hp k
  rw [nameCount, nameCount, hdirs, ← Finset.add_sum_erase _ _ hmem, ← Finset.add_sum_erase _ _ hmem,
    h.adds.perm.countP_eq, List.countP_cons]
  have hrest : ∀ k ∈ ((Finset.range (L.inodesCount + 1)).filter fun k => u.IsDir L k).erase p,
      (w.files k).countP (fun e => e.inode == n) = (u.files k).countP fun e => e.inode == n := by
    intro k hk
    obtain ⟨hkp, hk⟩ := Finset.mem_erase.mp hk
    rw [h.files_eq hc (Finset.mem_filter.mp hk).2 hkp]
  rw [Finset.sum_congr rfl hrest]
  simp only [beq_iff_eq]
  omega

include hc hp in
theorem Enters.contains_or (hk : w.Contains L k e) : u.Contains L k e ∨ k = p ∧ e = new := by
  have hdir := (h.isDir_iff hp k).mp hk.isDir
  exact ((h.mem_files hc hp hdir).mp hk.mem).imp_left fun he =>
    ⟨hdir, he, hk.not_dot, hk.not_dot_dot⟩

/-- A new name for a file, or the only name for a new directory. -/
theorem Enters.arranged (hc : u.Consistent L) (ha : u.Arranged L) (hp : u.IsDir L p)
    (hfirst : u.KeepsFirst w p) (hnone : u.lookup p new.name = none)
    (hlegal : new.name ≠ [] ∧ slash ∉ new.name ∧ 0 ∉ new.name)
    (htype : new.fileType = ext2FtDir ↔ (u.inode new.inode).IsDirectory)
    (hsub : (u.inode new.inode).IsDirectory → new.inode ≠ p ∧
      (∀ k e, u.Contains L k e → e.inode ≠ new.inode) ∧ (∀ e, ¬ u.Contains L new.inode e) ∧
        u.IsDir L new.inode ∧ ⟨[dot, dot], p, ext2FtDir⟩ ∈ u.files new.inode) :
    w.Arranged L := by
  have hmode := h.isDirectory_iff hp
  have hmem : ∀ {k e}, u.IsDir L k → (e ∈ w.files k ↔ e ∈ u.files k ∨ k = p ∧ e = new) :=
    fun hk => h.mem_files hc hp hk
  have hother : ∀ e ∈ u.files p, e.name ≠ new.name := fun e he heq => by
    have hnot := List.find?_eq_none.mp hnone e he
    exact hnot (beq_iff_eq.mpr heq)
  have hcontains : ∀ {k e}, w.Contains L k e → u.Contains L k e ∨ k = p ∧ e = new :=
    fun hk => h.contains_or hc hp hk
  refine ⟨fun k hk => ?_, fun k hk => ?_, fun k hk => ?_, fun k hk e he => ?_, fun k hk e he => ?_,
    ?_, fun k e hk hedir => ?_⟩
  · by_cases hkp : k = p
    · rw [hkp]
      exact h.directOnly
    · rw [h.inode k hkp]
      exact ha.direct k ((h.isDir_iff hp k).mp hk)
  · have hk := (h.isDir_iff hp k).mp hk
    by_cases hkp : k = p
    · subst hkp
      obtain ⟨bs, hdata⟩ := data_cons (ha.direct k hk) (ha.opens k hk).slot
      obtain ⟨bs', hdata'⟩ := data_cons h.directOnly
        (show (w.inode k).block 0 ≠ 0 by rw [hfirst.slot]; exact (ha.opens k hk).slot)
      rw [hfirst.slot] at hdata'
      exact (ha.opens k hk).keepsFirst hfirst
        (hc.tiled k hk.1 hk.2 _ (hdata ▸ List.mem_cons_self))
        (h.consistent.tiled k ((h.live k).mpr hk.1) h.isDirectory _
          (hdata' ▸ List.mem_cons_self))
    · exact (ha.opens k hk).keeps hc hk (ha.direct k hk) (h.keeps k hkp hk.1)
  · have hk := (h.isDir_iff hp k).mp hk
    by_cases hkp : k = p
    · subst hkp
      rw [(h.adds.perm.map DirEntry.name).nodup_iff, List.map_cons, List.nodup_cons]
      refine ⟨fun hin => ?_, ha.names k hk⟩
      obtain ⟨e, he, hname⟩ := List.mem_map.mp hin
      exact hother e he hname
    · rw [h.files_eq hc hk hkp]
      exact ha.names k hk
  · have hk := (h.isDir_iff hp k).mp hk
    rcases (hmem hk).mp he with he | ⟨-, rfl⟩
    · exact ha.legal k hk e he
    · exact hlegal
  · have hk := (h.isDir_iff hp k).mp hk
    rw [hmode]
    rcases (hmem hk).mp he with he | ⟨-, rfl⟩
    · exact ha.types k hk e he
    · exact htype
  · by_cases hdir : (u.inode new.inode).IsDirectory
    · obtain ⟨hnp, hin, hout, -⟩ := hsub hdir
      refine ha.forest.graft (e := new) hnp (fun k f hk => hin k f hk.1 hk.2)
        (fun f m hk => hout f hk.1) ?_
      rintro k f m ⟨hk, rfl⟩ hm
      rw [hmode] at hm
      exact (hcontains hk).imp (fun hk => ⟨⟨hk, rfl⟩, hm⟩) fun ⟨hkp, hf⟩ => ⟨hkp, hf, by rw [hf]⟩
    · refine ha.forest.mono ?_
      rintro k f m ⟨hk, rfl⟩ hm
      rw [hmode] at hm
      rcases hcontains hk with hk | ⟨-, rfl⟩
      · exact ⟨⟨hk, rfl⟩, hm⟩
      · exact absurd hm hdir
  · rw [hmode] at hedir
    rcases hcontains hk with hk | ⟨rfl, rfl⟩
    · have hlive := hc.named k hk.isDir.1 hk.isDir.2 e hk.mem
      exact (hmem ⟨hlive, hedir⟩).mpr (.inl (ha.above k e hk hedir))
    · obtain ⟨-, -, -, hnew, hdots⟩ := hsub hedir
      exact (hmem hnew).mpr (.inl hdots)

theorem Enters.rooted {X : Set ℕ} (hc : u.Consistent L) (hp : u.IsDir L p) (hr : u.Rooted L X)
    (hX : X ⊆ {new.inode}) (hroot : new.inode ≠ rootInodeNumber)
    (hdots : new.name ≠ [dot] ∧ new.name ≠ [dot, dot]) : w.Rooted L ∅ := by
  have hold : ∀ {k e}, u.Contains L k e → w.Contains L k e := fun {k e} hk =>
    ⟨(h.isDir_iff hp k).mpr hk.isDir, (h.mem_files hc hp hk.isDir).mpr (.inl hk.mem),
      hk.not_dot, hk.not_dot_dot⟩
  have hnew : w.Contains L p new :=
    ⟨(h.isDir_iff hp p).mpr hp, (h.mem_files hc hp hp).mpr (.inr ⟨rfl, rfl⟩), hdots.1, hdots.2⟩
  refine ⟨(h.mem_files hc hp hc.root).mpr (.inl hr.top), fun k e hk => ?_, fun n _ hn hne => ?_⟩
  · rcases h.contains_or hc hp hk with hk | ⟨-, rfl⟩
    · exact hr.unnamed k e hk
    · exact hroot
  · by_cases hnX : n ∈ X
    · obtain rfl : n = new.inode := hX hnX
      exact ⟨p, new, hnew, rfl⟩
    · obtain ⟨k, e, hk, hen⟩ := hr.inside n hnX ((h.isDir_iff hp n).mp hn) hne
      exact ⟨k, e, hold hk, hen⟩

end Enters

end View

end KernelProgramming.Ext2
