import KernelProgramming.Ext2.FileTrees

/-!
# New names in a sound volume

What `ext2_mkdir`, `ext2_cp` and `ext2_ln` make of a sound volume: each of them
counts a link and makes an entry, and the volume is sound again afterwards.
-/

namespace KernelProgramming.Ext2

open ByteMemory FileTree NameForest

variable {L : Layout} {d d' : Disk} {u v w : View} {b k m n p now depth : ℕ} {new : DirEntry}
  {name path leftover nativePath filePath destPath : CString} {content : List Byte} {bs : List ℕ}

namespace View

/-- The links that are counted before the entry is made are those of the volume with the entry. -/
theorem Enters.sound (h : Enters L u w p new) (hc : u.Consistent L) (hp : u.IsDir L p)
    (hw : w.Arranged L) (hr : w.Rooted L ∅)
    (hlinks : (w.inode p).linksCount = (u.inode p).linksCount)
    (hlinked : ∀ n, u.Live L n →
      (u.inode n).linksCount = u.nameCount L n + if new.inode = n then 1 else 0) :
    w.Sound L := by
  refine ⟨h.consistent, hw, hr, fun n hn => ?_⟩
  rw [h.nameCount_eq hc hp, ← hlinked n ((h.live n).mp hn)]
  by_cases hnp : n = p
  · rw [hnp]
    exact hlinks
  · rw [h.inode n hnp]

theorem Consistent.nameCount_fresh (hc : v.Consistent L) (hn : ¬ v.Live L n) :
    v.nameCount L n = 0 := by
  refine Finset.sum_eq_zero fun k hk => List.countP_eq_zero.mpr fun e he heq => hn ?_
  obtain ⟨-, hk⟩ := Finset.mem_filter.mp hk
  exact beq_iff_eq.mp heq ▸ hc.named k hk.1 hk.2 e he

/-! ## A new directory -/

section Creates

variable (h : Creates L v w n b (dotEntries n p)) (hc : v.Consistent L)

include h

theorem Creates.isDir_iff : w.IsDir L k ↔ k = n ∨ v.IsDir L k := by
  constructor
  · rintro ⟨hlive, hdir⟩
    rcases (h.live k).mp hlive with rfl | hk
    · exact .inl rfl
    · exact .inr ⟨hk, (h.keeps k hk).isDirectory_iff.mp hdir⟩
  · rintro (rfl | hk)
    · exact ⟨(h.live _).mpr (.inl rfl), h.isDirectory⟩
    · exact ⟨(h.live k).mpr (.inr hk.1), (h.keeps k hk.1).isDirectory_iff.mpr hk.2⟩

theorem Creates.keepsFiles : v.KeepsFiles L w := fun k hk _ _ =>
  ⟨h.keeps k hk, by rw [h.inode k fun heq => h.fresh (heq ▸ hk)]⟩

include hc

theorem Creates.files_old (hk : v.IsDir L k) : w.files k = v.files k :=
  ((h.keeps k hk.1).files_eq hc hk.1 hk.2).2

theorem Creates.nameCount_eq (m : ℕ) :
    w.nameCount L m =
      v.nameCount L m + ((if n = m then 1 else 0) + if p = m then 1 else 0) := by
  have hlive : w.Live L n := (h.live n).mpr (.inl rfl)
  have hnot : n ∉ (Finset.range (L.inodesCount + 1)).filter fun k => v.IsDir L k := fun hin =>
    h.fresh (Finset.mem_filter.mp hin).2.1
  have hdirs : ((Finset.range (L.inodesCount + 1)).filter fun k => w.IsDir L k) =
      insert n ((Finset.range (L.inodesCount + 1)).filter fun k => v.IsDir L k) := by
    ext k
    simp only [Finset.mem_filter, Finset.mem_insert, Finset.mem_range, h.isDir_iff]
    have hlt := Nat.lt_succ_of_le hlive.1.2
    constructor
    · rintro ⟨hk, rfl | hdir⟩
      · exact .inl rfl
      · exact .inr ⟨hk, hdir⟩
    · rintro (rfl | ⟨hk, hdir⟩)
      · exact ⟨hlt, .inl rfl⟩
      · exact ⟨hk, .inr hdir⟩
  rw [nameCount, nameCount, hdirs, Finset.sum_insert hnot, h.files_eq]
  have hrest : ∀ k ∈ (Finset.range (L.inodesCount + 1)).filter fun k => v.IsDir L k,
      (w.files k).countP (fun e => e.inode == m) = (v.files k).countP fun e => e.inode == m := by
    intro k hk
    rw [h.files_old hc (Finset.mem_filter.mp hk).2]
  rw [Finset.sum_congr rfl hrest]
  simp only [dotEntries, List.countP_cons, List.countP_nil, beq_iff_eq]
  omega

/-- Nothing names the new directory yet but its own `.`. -/
theorem Creates.contains_iff {e : DirEntry} : w.Contains L k e ↔ v.Contains L k e := by
  constructor
  · rintro ⟨hdir, hmem, hdot, hdots⟩
    rcases h.isDir_iff.mp hdir with rfl | hk
    · rw [h.files_eq, dotEntries, List.mem_cons, List.mem_singleton] at hmem
      rcases hmem with rfl | rfl
      · exact absurd rfl hdot
      · exact absurd rfl hdots
    · exact ⟨hk, h.files_old hc hk ▸ hmem, hdot, hdots⟩
  · rintro ⟨hdir, hmem, hdot, hdots⟩
    exact ⟨h.isDir_iff.mpr (.inr hdir), (h.files_old hc hdir).symm ▸ hmem, hdot, hdots⟩

theorem Creates.isDirectory_target (hk : v.IsDir L k) {e : DirEntry} (he : e ∈ v.files k) :
    (w.inode e.inode).IsDirectory ↔ (v.inode e.inode).IsDirectory :=
  (h.keeps _ (hc.named k hk.1 hk.2 e he)).isDirectory_iff

theorem Creates.arranged (ha : v.Arranged L) (hp : v.IsDir L p) (hopens : w.Opens n)
    (hdirect : (w.inode n).DirectOnly) : w.Arranged L := by
  have hfiles : ∀ {k}, v.IsDir L k → w.files k = v.files k := fun hk => h.files_old hc hk
  refine ⟨fun k hk => ?_, fun k hk => ?_, fun k hk => ?_, fun k hk e he => ?_, fun k hk e he => ?_,
    ha.forest.mono ?_, fun k e hk hedir => ?_⟩
  · rcases h.isDir_iff.mp hk with rfl | hk
    · exact hdirect
    · exact (h.keeps k hk.1).directOnly (ha.direct k hk)
  · rcases h.isDir_iff.mp hk with rfl | hk
    · exact hopens
    · exact (ha.opens k hk).keeps hc hk (ha.direct k hk) (h.keeps k hk.1)
  · rcases h.isDir_iff.mp hk with rfl | hk
    · rw [h.files_eq]
      exact show [[dot], [dot, dot]].Nodup by decide
    · rw [hfiles hk]
      exact ha.names k hk
  · rcases h.isDir_iff.mp hk with rfl | hk
    · rw [h.files_eq, dotEntries, List.mem_cons, List.mem_singleton] at he
      rcases he with rfl | rfl
      · exact show [dot] ≠ [] ∧ slash ∉ [dot] ∧ 0 ∉ [dot] by decide
      · exact show [dot, dot] ≠ [] ∧ slash ∉ [dot, dot] ∧ 0 ∉ [dot, dot] by decide
    · exact ha.legal k hk e (hfiles hk ▸ he)
  · rcases h.isDir_iff.mp hk with rfl | hk
    · rw [h.files_eq, dotEntries, List.mem_cons, List.mem_singleton] at he
      rcases he with rfl | rfl
      · exact iff_of_true rfl h.isDirectory
      · exact iff_of_true rfl ((h.keeps p hp.1).isDirectory_iff.mpr hp.2)
    · rw [hfiles hk] at he
      rw [h.isDirectory_target hc hk he]
      exact ha.types k hk e he
  · rintro k e m ⟨hk, rfl⟩ hm
    have hk := (h.contains_iff hc).mp hk
    exact ⟨⟨hk, rfl⟩, (h.isDirectory_target hc hk.isDir hk.mem).mp hm⟩
  · have hk := (h.contains_iff hc).mp hk
    have hedir := (h.isDirectory_target hc hk.isDir hk.mem).mp hedir
    rw [hfiles ⟨hc.named k hk.isDir.1 hk.isDir.2 e hk.mem, hedir⟩]
    exact ha.above k e hk hedir

theorem Creates.fileTree_eq (hsize : ∀ k, v.Live L k → (v.inode k).size < 2 ^ 32) :
    w.fileTree L = (v.fileTree L).create n (newDir n p) := by
  refine fileTree_create hc h.live (fun k hk hlive => ⟨h.keeps k hlive, by rw [h.inode k hk]⟩)
    hsize ?_
  rw [fileTree_dir (h.isDir_iff.mpr (.inl rfl)), newDir]
  refine congrArg (fun es => some (Node.dir es)) (funext fun name => ?_)
  rw [lookup, h.files_eq, dotEntries]
  by_cases hdot : name = [dot]
  · subst hdot
    rfl
  by_cases hdots : name = [dot, dot]
  · subst hdots
    rfl
  rw [if_neg hdot, if_neg hdots, List.find?_cons, beq_eq_false_iff_ne.mpr (Ne.symm hdot)]
  simp only [List.find?_cons, beq_eq_false_iff_ne.mpr (Ne.symm hdots)]
  rfl

theorem Creates.rooted (hr : v.Rooted L ∅) : w.Rooted L {n} :=
  hr.of_contains (h.files_old hc hc.root) (fun _ _ => h.contains_iff hc) fun _ hne hdir =>
    ⟨Set.notMem_empty _, (h.isDir_iff.mp hdir).resolve_left hne⟩

end Creates

/-- The inode of a new directory is named by its two names and its own `.`. -/
theorem Creates.sound (h : Creates L v u n b (dotEntries n p)) (hs : v.Sound L) (hp : v.IsDir L p)
    (hopens : u.Opens n) (hdirect : (u.inode n).DirectOnly) (hlinks : (u.inode n).linksCount = 2)
    (hnone : v.lookup p name = none) (hlegal : name ≠ [] ∧ slash ∉ name ∧ 0 ∉ name)
    {x : View} (hx : x = u.setInode p { u.inode p with linksCount := (v.inode p).linksCount + 1 })
    (henter : Enters L x w p ⟨name, n, ext2FtDir⟩) (hfirst : x.KeepsFirst w p)
    (hparent : (w.inode p).linksCount = (x.inode p).linksCount) : w.Sound L := by
  have hc := hs.consistent
  have hnp : n ≠ p := fun heq => h.fresh (heq ▸ hp.1)
  have hkeeps : ∀ k, u.Keeps x k := hx ▸ keeps_setLinks u p _
  have hcx : x.Consistent L := hx ▸ h.consistent.setLinks p _
  have hlive : ∀ k, x.Live L k ↔ u.Live L k := fun k => by
    rw [hx]
    rfl
  have hdirs : ∀ k, x.IsDir L k ↔ u.IsDir L k := fun k =>
    and_congr (hlive k) (hkeeps k).isDirectory_iff
  have hp_u : u.IsDir L p := h.isDir_iff.mpr (.inr hp)
  have hn_u : u.IsDir L n := h.isDir_iff.mpr (.inl rfl)
  obtain ⟨harr, hrooted, hcount⟩ := (h.arranged hc hs.arranged hp hopens hdirect).of_keeps
    h.consistent hdirs fun k _ => hkeeps k
  have hfiles : ∀ {k}, u.IsDir L k → x.files k = u.files k := fun {k} hk =>
    ((hkeeps k).files_eq h.consistent hk.1 hk.2).2
  have hcontains : ∀ {k e}, x.Contains L k e → v.Contains L k e := fun {k e} hk =>
    (h.contains_iff hc).mp ⟨(hdirs k).mp hk.isDir, hfiles ((hdirs k).mp hk.isDir) ▸ hk.mem,
      hk.not_dot, hk.not_dot_dot⟩
  have hnone_x : x.lookup p name = none := by
    rwa [lookup, hfiles hp_u, h.files_old hc hp]
  have hp_x := (hdirs p).mpr hp_u
  have hn_x := (hdirs n).mpr hn_u
  have hroot : n ≠ rootInodeNumber := fun heq => h.fresh (heq ▸ hc.root.1)
  refine henter.sound hcx hp_x ?_ (henter.rooted hcx hp_x (hrooted _ (h.rooted hc hs.rooted))
    le_rfl hroot (harr.dots_ne hp_x hnone_x)) hparent fun k hk => ?_
  · refine henter.arranged hcx harr hp_x hfirst hnone_x hlegal (iff_of_true rfl hn_x.2) fun _ =>
      ⟨hnp, fun k e hk heq => h.fresh ?_, fun e hk => h.fresh (hcontains hk).isDir.1, hn_x, ?_⟩
    · have hk := hcontains hk
      exact (show e.inode = n from heq) ▸ hc.named k hk.isDir.1 hk.isDir.2 e hk.mem
    · rw [hfiles hn_u, h.files_eq]
      exact List.mem_cons_of_mem _ List.mem_cons_self
  · rw [hcount, h.nameCount_eq hc]
    by_cases hkn : k = n
    · subst hkn
      rw [hx, inode_setInode_of_ne hnp, hlinks, hc.nameCount_fresh h.fresh]
      simp [hnp.symm]
    have hk_v : v.Live L k := ((h.live k).mp ((hlive k).mp hk)).resolve_left hkn
    by_cases hkp : k = p
    · subst hkp
      rw [hx, inode_setInode, ← hs.linked k hk_v]
      simp [hnp]
    · rw [hx, inode_setInode_of_ne hkp, h.inode k hkn, hs.linked k hk_v]
      simp [Ne.symm hkn, Ne.symm hkp]

end View

namespace Layout

theorem Shows.makeDirectory_sound (h : L.Shows d v) (hs : v.Sound L) (hp : v.IsDir L p)
    (hname : name.length < 256) (hroom : v.HasRoom L p name.length 2)
    (hlinks : (v.inode p).linksCount < 65535) (hnone : v.lookup p name = none)
    (hlegal : name ≠ [] ∧ slash ∉ name ∧ 0 ∉ name)
    (hret : Ext2.makeDirectory d p name now = .ok (0, d')) :
    ∃ w n, L.Shows d' w ∧ w.Sound L ∧ v.KeepsFiles L w ∧ ¬ v.Live L n ∧
      w.fileTree L = ((v.fileTree L).create n (newDir n p)).link p name n := by
  have hc := hs.consistent
  have hlack : ¬ (findFreeInode d = 0 ∨ v.clear L .block = []) := by
    intro hlack
    obtain ⟨code, d'', hret', hcode, -⟩ := h.makeDirectory_lacking hc hlack
    exact hcode (congrArg Prod.fst (Except.ok.inj (hret'.symm.trans hret)))
  rw [not_or] at hlack
  obtain ⟨d₁, u, n, b, hcreates, hopens, hdirect, hb, hlinks_n, h₁, hmake⟩ :=
    h.beginDirectory_opens hc hp.1 hlack.1 hlack.2 name now
  rw [hmake] at hret
  rw [Nat.mod_eq_of_lt (by omega)] at h₁
  have hp_u : u.IsDir L p := hcreates.isDir_iff.mpr (.inr hp)
  have hinode : u.inode p = v.inode p := hcreates.inode p fun heq =>
    hcreates.fresh (heq ▸ hp.1)
  -- the directory above, with one link more
  set x := u.setInode p { u.inode p with linksCount := (v.inode p).linksCount + 1 } with hx
  have hkeeps : u.Keeps x p := View.keeps_setLinks u p _ p
  have hcx : x.Consistent L := hcreates.consistent.setLinks p _
  have hp_x : x.IsDir L p := ⟨hp_u.1, hkeeps.isDirectory_iff.mpr hp_u.2⟩
  have hdirect_x : (x.inode p).DirectOnly := by
    rw [hx, View.inode_setInode, hinode]
    exact hs.arranged.direct p hp
  have hslot_x : (x.inode p).block 0 ≠ 0 := by
    rw [hx, View.inode_setInode, hinode]
    exact (hs.arranged.opens p hp).slot
  have hroom_x : x.HasRoom L p name.length 1 := by
    refine hkeeps.hasRoom hcreates.consistent hp_u.1 hp_u.2 id
      ((hcreates.keeps p hp.1).hasRoom hc hp.1 hp.2 (fun hle => ?_) hroom)
    have hlen := View.length_filter_ne (View.nodup_clear L v .block) hb
    rw [hcreates.clear]
    omega
  have hn_x : x.Live L n := (hcreates.live n).mpr (.inl rfl)
  obtain ⟨d₂, w, hput, h₂, henter, hparent⟩ :=
    h₁.enter hcx hp_x.1 hp_x.2 hdirect_x hname hroom_x hn_x
  obtain rfl : d₂ = d' := congrArg Prod.snd (Except.ok.inj (hput.symm.trans hret))
  have hfirst : x.KeepsFirst w p := by
    obtain ⟨⟨found, d₃⟩, hspace, hgrow⟩ := Runs.bind_eq_ok_iff.mp hret
    refine h₁.enter_keepsFirst hcx hp_x hdirect_x hslot_x hroom_x hname hn_x (by decide) hspace
      hgrow ?_ w h₂
    rintro rfl hzero hspare hgrow
    refine h₁.growParent_keepsFirst hcx hp_x hdirect_x hslot_x hname hzero (fun hnone => ?_) hgrow
    rw [h₁.findFreeBlock_eq_zero_iff.mp hnone] at hspare
    exact absurd hspare (by simp)
  have hfiles : v.KeepsFiles L w := by
    refine hcreates.keepsFiles.trans ?_ fun k hk => (hcreates.live k).mpr (.inr hk)
    exact (View.keepsFiles_setLinks L u p _).trans (henter.keepsFiles hp_x) fun _ hk => hk
  have htree := hcreates.fileTree_eq hc fun k hk => h.size_lt hk.1
  have hsame : x.fileTree L = u.fileTree L :=
    View.fileTree_setLinks hcreates.consistent _ fun k hk => h₁.size_lt hk.1
  have hnone_x : x.lookup p name = none := by
    rwa [View.lookup, (hkeeps.files_eq hcreates.consistent hp_u.1 hp_u.2).2,
      hcreates.files_old hc hp]
  refine ⟨w, n, h₂,
    hcreates.sound hs hp hopens hdirect hlinks_n hnone hlegal hx henter hfirst hparent, hfiles,
    hcreates.fresh, ?_⟩
  rw [henter.fileTree_eq hcx hp_x hnone_x fun k hk => h₂.size_lt hk.1, hsame, htree]

end Layout

/-! ## A new file -/

namespace View

/-- In volume `u` a new file has got its inode `n`, but no name. -/
structure GetsFile (L : Layout) (v u : View) (n : ℕ) : Prop where
  consistent : u.Consistent L
  fresh : ¬ v.Live L n
  live : ∀ k, u.Live L k ↔ k = n ∨ v.Live L k
  not_directory : ¬ (u.inode n).IsDirectory
  linksCount : (u.inode n).linksCount = 1
  inode : ∀ k, k ≠ n → u.inode k = v.inode k
  keeps : ∀ k, v.Live L k → v.Keeps u k

section GetsFile

variable (h : GetsFile L v u n)

include h

theorem GetsFile.isDir_iff : u.IsDir L k ↔ v.IsDir L k := by
  constructor
  · rintro ⟨hk, hdir⟩
    rcases (h.live k).mp hk with rfl | hk
    · exact absurd hdir h.not_directory
    · exact ⟨hk, (h.keeps k hk).isDirectory_iff.mp hdir⟩
  · exact fun hk => ⟨(h.live k).mpr (.inr hk.1), (h.keeps k hk.1).isDirectory_iff.mpr hk.2⟩

theorem GetsFile.keepsFile (hk : v.Live L k) : v.KeepsFile u k :=
  ⟨h.keeps k hk, by rw [h.inode k fun heq => h.fresh (heq ▸ hk)]⟩

theorem GetsFile.fileTree_eq (hc : v.Consistent L)
    (hsize : ∀ k, v.Live L k → (v.inode k).size < 2 ^ 32) :
    u.fileTree L = (v.fileTree L).create n (.file (u.contents n)) :=
  fileTree_create hc h.live (fun _ _ hk => h.keepsFile hk) hsize
    (fileTree_file ((h.live n).mpr (.inl rfl)) h.not_directory)

theorem GetsFile.lookup_eq (hc : v.Consistent L) (hp : v.IsDir L p) :
    u.lookup p name = v.lookup p name := by
  rw [lookup, lookup, ((h.keeps p hp.1).files_eq hc hp.1 hp.2).2]

/-- The file gets its name. -/
theorem GetsFile.enters_sound (hs : v.Sound L) (hp : v.IsDir L p) (henters : Enters L u w p new)
    (hn : new.inode = n) (hfirst : u.KeepsFirst w p)
    (hparent : (w.inode p).linksCount = (u.inode p).linksCount)
    (hnone : v.lookup p new.name = none)
    (hlegal : new.name ≠ [] ∧ slash ∉ new.name ∧ 0 ∉ new.name) (htype : new.fileType ≠ ext2FtDir) :
    w.Sound L ∧ v.KeepsFiles L w := by
  have hc := hs.consistent
  have hcu := h.consistent
  obtain ⟨harr, hrooted, hcount⟩ := hs.arranged.of_keeps hc (fun k => h.isDir_iff) h.keeps
  have hp_u := h.isDir_iff.mpr hp
  have hnone_u : u.lookup p new.name = none := (h.lookup_eq hc hp).trans hnone
  have hfile : ¬ (u.inode new.inode).IsDirectory := hn ▸ h.not_directory
  have harr_w := henters.arranged hcu harr hp_u hfirst hnone_u hlegal (iff_of_false htype hfile)
    fun hdir => absurd hdir hfile
  have hroot : new.inode ≠ rootInodeNumber := fun heq => h.fresh (hn.symm.trans heq ▸ hc.root.1)
  have hrooted_w := henters.rooted hcu hp_u (hrooted _ hs.rooted) (Set.empty_subset _) hroot
    (harr.dots_ne hp_u hnone_u)
  have hfiles : v.KeepsFiles L u := fun k hk _ _ => h.keepsFile hk
  refine ⟨henters.sound hcu hp_u harr_w hrooted_w hparent fun k hk => ?_,
    hfiles.trans (henters.keepsFiles hp_u) fun k hk => (h.live k).mpr (.inr hk)⟩
  rw [hcount, hn]
  by_cases hkn : k = n
  · rw [hkn, hc.nameCount_fresh h.fresh, h.linksCount, if_pos rfl]
  · rw [h.inode k hkn, if_neg (Ne.symm hkn), hs.linked k (((h.live k).mp hk).resolve_left hkn)]
    rfl

end GetsFile

theorem TakesFile.getsFile (h : v.TakesFile L u n content bs) (hc : v.Consistent L)
    (hblank : directBlockCount < numChunks content → v.Blank L) : GetsFile L v u n where
  consistent := h.consistent hc hblank
  fresh := h.fresh
  live _ := h.live_iff
  not_directory := h.not_directory
  linksCount := by rw [h.inode_eq, fileInode]
  inode _ hk := h.inode_of_ne hk
  keeps _ hk := h.keeps hc hk

/-! ## A new link -/

/-- A link more is counted for file `m`, which gets a new name. -/
theorem Enters.addLink_sound (henters : Enters L (v.addLink m) w p new) (hs : v.Sound L)
    (hp : v.IsDir L p) (hm : new.inode = m) (hfile : ¬ (v.inode m).IsDirectory)
    (hcounts : (v.inode m).linksCount < 65535) (hfirst : (v.addLink m).KeepsFirst w p)
    (hparent : (w.inode p).linksCount = ((v.addLink m).inode p).linksCount)
    (hnone : v.lookup p new.name = none)
    (hlegal : new.name ≠ [] ∧ slash ∉ new.name ∧ 0 ∉ new.name) (htype : new.fileType ≠ ext2FtDir)
    (hsize : ∀ k, v.Live L k → (v.inode k).size < 2 ^ 32)
    (hsize' : ∀ k, w.Live L k → (w.inode k).size < 2 ^ 32) :
    w.Sound L ∧ v.KeepsFiles L w ∧ w.fileTree L = (v.fileTree L).link p new.name m := by
  have hc := hs.consistent
  have hkeeps : ∀ k, v.Keeps (v.addLink m) k := keeps_setLinks v m _
  have hdirs : ∀ k, (v.addLink m).IsDir L k ↔ v.IsDir L k := fun k =>
    and_congr Iff.rfl (hkeeps k).isDirectory_iff
  obtain ⟨harr, hrooted, hcount⟩ := hs.arranged.of_keeps hc hdirs fun k _ => hkeeps k
  have hcu : (v.addLink m).Consistent L := hc.setLinks m _
  have hp_u := (hdirs p).mpr hp
  have hnone_u : (v.addLink m).lookup p new.name = none := by
    rwa [lookup, ((hkeeps p).files_eq hc hp.1 hp.2).2]
  have hfile_u : ¬ ((v.addLink m).inode new.inode).IsDirectory := by
    rwa [hm, (hkeeps m).isDirectory_iff]
  have harr_w := henters.arranged hcu harr hp_u hfirst hnone_u hlegal
    (iff_of_false htype hfile_u) fun hdir => absurd hdir hfile_u
  have hroot : new.inode ≠ rootInodeNumber := fun heq => hfile_u (heq ▸ hcu.root.2)
  have hrooted_w := henters.rooted hcu hp_u (hrooted _ hs.rooted) (Set.empty_subset _) hroot
    (harr.dots_ne hp_u hnone_u)
  refine ⟨henters.sound hcu hp_u harr_w hrooted_w hparent fun k hk => ?_,
    (keepsFiles_setLinks L v m _).trans (henters.keepsFiles hp_u) fun _ hk => hk, ?_⟩
  · rw [hcount, addLink, hm]
    by_cases hkm : k = m
    · subst hkm
      rw [inode_setInode, if_pos rfl, ← hs.linked _ hk]
      exact Nat.mod_eq_of_lt (by omega)
    · rw [inode_setInode_of_ne hkm, if_neg (Ne.symm hkm), hs.linked k hk]
      rfl
  · have htree : (v.addLink m).fileTree L = v.fileTree L := fileTree_setLinks hc _ fun k hk =>
      (keepsFile_setLinks v m _ k).size ▸ hsize k hk
    rw [henters.fileTree_eq hcu hp_u hnone_u hsize', htree, hm]

end View

/-! ## The commands -/

theorem mkdir_sound (h : L.Shows d v) (hs : v.Sound L) (hcreatable : Creatable L v path)
    (hzero : 0 ∉ path) (hret : ext2Mkdir d path now = .ok (0, d')) :
    ∃ w, L.Shows d' w ∧ w.Sound L ∧ v.KeepsFiles L w ∧
      (Command.mkdir path now).Effect (v.fileTree L) (w.fileTree L) := by
  have hc := hs.consistent
  rcases ext2Mkdir_cases hret with ⟨p, haccepts, hmake⟩ | ⟨-, -, hcode⟩
  swap
  · exact absurd rfl hcode
  obtain ⟨dir, name, rfl, hname, hne⟩ := exists_name haccepts.absolute hcreatable.noSlash
  have hsearch := hcreatable.search
  rw [tokens_split hname hne] at hsearch
  have hshort := hcreatable.short
  rw [List.length_append, List.length_cons] at hshort
  rw [findFileNameByPath_eq hname hne (by omega)] at hmake
  have hreach := h.reach_of_findParentInode hc hname hne haccepts.absolute hsearch
    haccepts.parent.1 haccepts.parent.2
  obtain ⟨hlen, hlinks, hroom⟩ := hcreatable.room _ _ _ (tokens_split hname hne) hreach
  obtain ⟨r, hfind, hr⟩ := h.findDirEntry_lookup hc hname hne haccepts.absolute hsearch hreach
  obtain rfl : r = none := Except.ok.inj (hfind.symm.trans haccepts.missing)
  have hp : v.IsDir L p := ⟨hc.live_of_reach hc.root.1 hreach, (hsearch.directory hreach).1⟩
  have hzero' : 0 ∉ name := fun hin =>
    hzero (List.mem_append_right _ (List.mem_cons_of_mem _ hin))
  obtain ⟨w, n, hw, hsound, hfiles, hfresh, htree⟩ :=
    h.makeDirectory_sound hs hp hlen hroom hlinks hr.symm ⟨hne, hname, hzero'⟩ hmake
  exact ⟨w, hw, hsound, hfiles, p, name, n,
    .of_reach hc (tokens_split hname hne) hreach hp hr.symm, View.fileTree_eq_none hfresh, htree⟩

theorem Copyable.run_sound (h : L.Shows d v) (hs : v.Sound L)
    (hcopy : Copyable L v leftover nativePath destPath content p name) (hzero : 0 ∉ name)
    (hfits : destPath.length + 1 + name.length ≤ pathMax)
    (henough : haveEnoughBlocks d content.length = true) (hinode : findFreeInode d ≠ 0)
    (now : ℕ) :
    ∃ d' u w n bs,
      ext2Cp d leftover nativePath (some ⟨true, true, content⟩) destPath now = .ok (0, d') ∧
      L.Shows d' w ∧ v.TakesFile L u n content bs ∧
      View.Enters L u w p ⟨name, n, ext2FtRegFile⟩ ∧ u.Spares w p ∧ w.Sound L ∧
      v.KeepsFiles L w ∧ w.fileTree L =
        ((v.fileTree L).create n (.file (u.contents n))).link p name n := by
  have hc := hs.consistent
  obtain ⟨d', u, w, n, bs, hret, hw, htakes, henters, hspares, hfirst⟩ :=
    hcopy.run h hc hfits henough hinode now
  have hp : v.IsDir L p :=
    ⟨hc.live_of_reach hc.root.1 hcopy.reach, (hcopy.search.directory hcopy.reach).1⟩
  have hgets := htakes.getsFile hc hcopy.blank
  have hp_u := hgets.isDir_iff.mpr hp
  have hfirst := hfirst (hs.arranged.opens p hp).slot
  obtain ⟨hsound, hfiles⟩ := hgets.enters_sound hs hp henters rfl hfirst hspares.linksCount
    hcopy.missing ⟨hcopy.nonempty, hcopy.noSlash, hzero⟩ (show ext2FtRegFile ≠ ext2FtDir by decide)
  refine ⟨d', u, w, n, bs, hret, hw, htakes, henters, hspares, hsound, hfiles, ?_⟩
  have hnone : u.lookup p name = none := (hgets.lookup_eq hc hp).trans hcopy.missing
  rw [henters.fileTree_eq hgets.consistent hp_u hnone fun k hk => hw.size_lt hk.1,
    hgets.fileTree_eq hc fun k hk => h.size_lt hk.1]

/-- The entry that a hard link is made for can be found again, and its links can be counted. -/
theorem ln_sound (h : L.Shows d v) (hs : v.Sound L)
    (hlinkable : Linkable L d v filePath destPath depth) (hzero : 0 ∉ destPath)
    (hmatches : ∀ file names name p, findDirEntry d filePath = .ok (some file) →
      tokens destPath = names ++ [name] → v.reach rootInodeNumber names = some p →
        LinkMatches d v p file name)
    (hret : ext2Ln d false filePath destPath now depth = .ok (0, d')) :
    ∃ w, L.Shows d' w ∧ w.Sound L ∧ v.KeepsFiles L w ∧
      (Command.ln false filePath destPath now depth).Effect (v.fileTree L) (w.fileTree L) := by
  have hc := hs.consistent
  rcases ext2Ln_cases hret with ⟨site, site', haccepts, hcopy, hlink⟩ | ⟨-, -, hcode⟩
  swap
  · exact absurd rfl hcode
  obtain rfl : site = site' :=
    Except.ok.inj ((LinkSite.afterCopy_of_lt hlinkable.fits site).symm.trans hcopy)
  rw [argcNotFour_of_lt hlinkable.fits, if_neg Bool.false_ne_true] at hlink
  obtain ⟨dir, name, p, rfl, hplace⟩ := h.linkPlace hc haccepts hlinkable.toLinkPaths
  obtain ⟨k, hentry⟩ := hplace.entry
  have hslot := (h.dirEntry_slot rfl hc hentry.isDir hentry.slot).1
  have hnum : entryInode d.byte site.file = v.target site.file := congrArg DirEntry.inode hslot
  have htype : fileType d.byte site.file = fileType v.byte site.file :=
    congrArg DirEntry.fileType hslot
  obtain ⟨hnolink, hcounts, hstores⟩ :=
    hmatches _ _ _ _ hplace.source hplace.tokens_eq hplace.reach
  obtain ⟨r, htarget, -⟩ := Runs.bind_eq_ok_iff.mp hlink
  cases r with
  | none =>
      rw [Ext2.hardLink, htarget] at hlink
      exact absurd (congrArg Prod.fst (Except.ok.inj hlink)) (by simp [enoent])
  | some a =>
      obtain ⟨m, hm, rfl, hsame⟩ :=
        h.hardLinkTarget (hc.live_target hentry).1 hnum hlinkable.target htarget
      obtain rfl := hsame hnolink
      obtain ⟨hname, hroom⟩ := hlinkable.room _ _ _ hplace.tokens_eq hplace.reach
      rw [← hplace.filename] at hname hroom hstores
      obtain ⟨w, new, hw, henters, hlinks, -, hstored⟩ :=
        h.hardLink_enters hc hplace.isDir.1 hplace.isDir.2 hplace.directOnly hname hroom hentry hm
          htarget hplace.dirInode hlink
      obtain rfl := hstored.mpr hstores
      have hfirst := h.hardLink_keepsFirst hc hplace.isDir hplace.directOnly
        (hs.arranged.opens p hplace.isDir).slot hname hroom hentry hm htarget hplace.dirInode hlink
        w hw
      have hzero' : 0 ∉ name := fun hin =>
        hzero (List.mem_append_right _ (List.mem_cons_of_mem _ hin))
      have hlegal : site.filename ≠ [] ∧ slash ∉ site.filename ∧ 0 ∉ site.filename := by
        rw [hplace.filename]
        exact ⟨hplace.nonempty, hplace.noSlash, hzero'⟩
      have hnone : v.lookup p site.filename = none := hplace.filename ▸ hplace.missing
      -- the source is no directory
      have hnot : fileType v.byte site.file ≠ ext2FtDir := htype ▸ haccepts.admits.isFile
      have hfile : ¬ (v.inode (v.target site.file)).IsDirectory := fun hdir =>
        hnot ((hs.arranged.types k hentry.isDir _ hentry.mem_files).mpr hdir)
      obtain ⟨hsound, hfiles, htree⟩ := henters.addLink_sound hs hplace.isDir rfl hfile hcounts
        hfirst hlinks hnone hlegal hnot (fun k hk => h.size_lt hk.1) fun k hk => hw.size_lt hk.1
      refine ⟨w, hw, hsound, hfiles, p, site.filename, v.target site.file,
        .of_reach hc (hplace.filename ▸ hplace.tokens_eq) hplace.reach hplace.isDir hnone, ?_,
        fun hdir => hfile (View.fileTree_isDir.mp hdir).2, htree⟩
      rw [View.fileTree_reach hc hc.root.1, ← hnum]
      exact h.reach_of_findDirEntry hc haccepts.absolute.1 hlinkable.source hplace.source

/-- A file of at most one block is what is in it. -/
theorem View.contents_eq_getBytes (hle : (v.inode n).size ≤ 1024)
    (hb : (v.inode n).block 0 ≠ 0) :
    v.contents n = getBytes v.byte (1024 * (v.inode n).block 0) (v.inode n).size := by
  rw [contents, getBytes]
  refine List.map_congr_left fun i hi => ?_
  have hi := List.mem_range.mp hi
  have hzero : i / 1024 = 0 := by omega
  have hblock : v.fileBlock n 0 = (v.inode n).block 0 := rfl
  rw [fileByte, hzero, hblock, if_neg hb, Nat.mod_eq_of_lt (by omega)]

theorem Layout.TakesLink.getsFile {d₁ : Disk} (hlink : TakesLink L v d₁ u filePath n b)
    (hc : v.Consistent L) : View.GetsFile L v u n where
  consistent := hlink.consistent hc
  fresh hlive := Bool.false_ne_true
    ((View.mem_clear.mp hlink.freeInode).2.2.symm.trans hlive.2)
  live _ := hlink.takes.live_iff hlink.freeInode
  not_directory := by
    rw [hlink.inode]
    exact show ¬ ext2SIflnk / 4096 = 4 by decide
  linksCount := by rw [hlink.inode]
  inode k hk := hlink.takes.inode k hk
  keeps _ hk := hlink.takes.keeps hc hlink.freeInode hlink.freeBlock hk

/-- The path is in the only block of the link. -/
theorem Layout.TakesLink.contents_eq {d₁ : Disk} (hlink : TakesLink L v d₁ u filePath n b)
    (hfit : filePath.length ≤ 1024) : u.contents n = filePath := by
  have hlen : (u.inode n).size = filePath.length := by
    rw [hlink.inode]
    exact Nat.mod_eq_of_lt (by omega)
  have hblock : (u.inode n).block 0 = b := by
    rw [hlink.inode]
    exact Function.update_self 0 b fun _ => 0
  have hb : b ≠ 0 := (View.mem_clear.mp hlink.freeBlock).1
  rw [View.contents_eq_getBytes (hlen ▸ hfit) (hblock ▸ hb), hlen, hblock, hlink.content]

/-- The new symbolic link gets its name in directory `p`. -/
theorem Layout.TakesLink.enters_sound {site : LinkSite} {d₁ : Disk}
    (hlink : TakesLink L v d₁ u filePath n b) (hfit : filePath.length ≤ 1024)
    (hsize : ∀ k, v.Live L k → (v.inode k).size < 2 ^ 32) (hs : v.Sound L) (hp : v.IsDir L p)
    (hname : site.filename.length < 256) (hroom : v.HasRoom L p site.filename.length 0)
    (hentry : v.Entry L k site.file) (hnone : v.lookup p site.filename = none)
    (hlegal : site.filename ≠ [] ∧ slash ∉ site.filename ∧ 0 ∉ site.filename)
    (htypes : TypesLink v p site.file site.filename)
    (hret : (do
      let (found, d) ← allocateSpace d₁ (L.inodeAddress p) site.filename.length n site.filename
        ext2FtSymlink (List.range totalBlockCount)
      if found then .ok (0, d) else Ext2.growSymbolicLink d site (L.inodeAddress p) n b) =
        .ok (0, d')) :
    ∃ w, L.Shows d' w ∧ w.Sound L ∧ v.KeepsFiles L w ∧ ¬ v.Live L n ∧
      w.fileTree L = ((v.fileTree L).create n (.file filePath)).link p site.filename n := by
  have hc := hs.consistent
  have hgets := hlink.getsFile hc
  have hkeeps := hgets.keeps p hp.1
  have hp_u := hgets.isDir_iff.mpr hp
  obtain ⟨w, new, hw, henters, hspares, hnew, hinode, htyped⟩ :=
    hlink.enters hc hp.1 hp.2 (hs.arranged.direct p hp) hname hroom hentry hret
  have hfirst : u.KeepsFirst w p := by
    obtain ⟨⟨found, d₂⟩, hput, hgrow⟩ := Runs.bind_eq_ok_iff.mp hret
    have hdirect := hkeeps.directOnly (hs.arranged.direct p hp)
    have hslot : (u.inode p).block 0 ≠ 0 := by
      rw [hkeeps.block]
      exact (hs.arranged.opens p hp).slot
    have hroom_u := hkeeps.hasRoom hc hp.1 hp.2 (fun _ => Nat.zero_le _) hroom
    apply hlink.shows.enter_keepsFirst hgets.consistent hp_u hdirect hslot hroom_u hname
      ((hgets.live n).mpr (.inl rfl)) (by decide) hput hgrow ?_ w hw
    rintro rfl hzero - hgrow
    exact hlink.shows.growSymbolicLink_keepsFirst hgets.consistent hp_u hdirect hslot hname hzero
      hgrow
  have htype : new.fileType ≠ ext2FtDir := by
    rw [htyped.mpr htypes]
    decide
  rw [← hnew] at hnone hlegal
  obtain ⟨hsound, hfiles⟩ := hgets.enters_sound hs hp henters hinode hfirst hspares.linksCount
    hnone hlegal htype
  refine ⟨w, hw, hsound, hfiles, hgets.fresh, ?_⟩
  rw [henters.fileTree_eq hgets.consistent hp_u ((hgets.lookup_eq hc hp).trans hnone)
    fun k hk => hw.size_lt hk.1, hgets.fileTree_eq hc hsize, hlink.contents_eq hfit, hinode, hnew]

theorem symlink_sound (h : L.Shows d v) (hs : v.Sound L)
    (hlinkable : SymLinkable L v filePath destPath) (hzero : 0 ∉ destPath)
    (hroot : ∃ name, tokens destPath = [name])
    (htypes : ∀ file name, findDirEntry d filePath = .ok (some file) → tokens destPath = [name] →
      TypesLink v rootInodeNumber file name)
    (hret : ext2Ln d true filePath destPath now depth = .ok (0, d')) :
    ∃ w, L.Shows d' w ∧ w.Sound L ∧ v.KeepsFiles L w ∧
      (Command.ln true filePath destPath now depth).Effect (v.fileTree L) (w.fileTree L) := by
  have hc := hs.consistent
  obtain ⟨site, dir, name, p, rfl, haccepts, hplace, hfit, d₁, u, n, b, htaken, henter⟩ :=
    h.symLinkPlace hc hlinkable.toLinkPaths hret
  obtain ⟨only, honly⟩ := hroot
  obtain ⟨hname, hroom⟩ := hlinkable.room only honly
  obtain ⟨hnil, hnames⟩ :=
    List.append_inj' (hplace.tokens_eq.symm.trans honly : tokens dir ++ [name] = [] ++ [only]) rfl
  obtain rfl := List.singleton_inj.mp hnames
  obtain rfl := hplace.named hnil
  obtain rfl : rootInodeNumber = p := Option.some.inj hplace.reach
  obtain ⟨k, hentry⟩ := hplace.entry
  have hsite : symbolicLinkDir d site.dir = L.inodeAddress rootInodeNumber := by
    rw [hplace.root.mpr rfl, symbolicLinkDir, h.getInodeTable_eq]
    rfl
  rw [hsite, htaken.shows.follow_inode Layout.isInode_root] at henter
  have hzero' : 0 ∉ name := fun hin =>
    hzero (List.mem_append_right _ (List.mem_cons_of_mem _ hin))
  have htypes := htypes _ _ hplace.source honly
  have hmissing := hplace.missing
  have hlegal : name ≠ [] ∧ slash ∉ name ∧ 0 ∉ name := ⟨hplace.nonempty, hplace.noSlash, hzero'⟩
  rw [← hplace.filename] at hname hroom htypes hmissing hlegal
  obtain ⟨w, hw, hsound, hfiles, hfresh, htree⟩ := htaken.enters_sound hfit
    (fun k hk => h.size_lt hk.1) hs hc.root hname hroom hentry hmissing hlegal htypes henter
  have htokens : tokens ([] ++ slash :: name) = tokens [] ++ [site.filename] := by
    rw [hplace.filename]
    exact hplace.tokens_eq
  refine ⟨w, hw, hsound, hfiles, _, site.filename, n,
    .of_reach hc htokens hplace.reach hc.root hmissing, ?_, View.fileTree_eq_none hfresh, htree⟩
  rw [View.fileTree_reach hc hc.root.1,
    h.reach_of_findDirEntry hc haccepts.absolute.1 hlinkable.source hplace.source]
  exact Option.some_ne_none _

end KernelProgramming.Ext2
