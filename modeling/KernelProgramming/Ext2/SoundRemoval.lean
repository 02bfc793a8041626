import KernelProgramming.Ext2.SoundNames
import KernelProgramming.Ext2.Unlink

/-!
# Names taken out of a sound volume

What `ext2_rm` leaves of a sound volume, with and without `-r`.  The names that
are gone may be those of files or a whole subtree; in either case the links that
are left are the names that are left.
-/

namespace KernelProgramming.Ext2

open ByteMemory FileTree NameForest

variable {L : Layout} {d d' : Disk} {v w : View} {a k n p q x : ℕ} {A : List ℕ} {X : ℕ → Prop}
  {e : DirEntry} {path : CString}

theorem filter_sublist_filter {l : List ℕ} {f g : ℕ → Bool} (h : ∀ a ∈ l, f a = true → g a = true) :
    (l.filter f).Sublist (l.filter g) := by
  rw [List.filter_congr (q := fun a => f a && g a), ← List.filter_filter]
  · exact List.filter_sublist
  · intro a ha
    rw [Bool.eq_iff_iff, Bool.and_eq_true]
    exact ⟨fun hf => ⟨hf, h a ha hf⟩, And.left⟩

namespace View

/-- The names `A` are gone with all that they were the only names of, and a
directory among it with all its names. -/
structure Trimmed (L : Layout) (v : View) (A : List ℕ) (w : View) : Prop
    extends v.Thinned L A w where
  nodup : A.Nodup
  counted : w.Counted L
  live : ∀ n, w.Live L n ↔ v.Live L n ∧ ¬ v.Freed L A n
  blocks : ∀ b, b ≠ 0 → b ≤ L.blocksCount →
    (w.bit .block (b - 1) = true ↔
      v.bit .block (b - 1) = true ∧ ∀ n, v.Freed L A n → b ∉ v.owned n)
  kept : ∀ n, ¬ v.Freed L A n → w.inode n = { v.inode n with linksCount := (w.inode n).linksCount }
  links : ∀ n, v.Live L n → ¬ (v.inode n).IsDirectory →
    (w.inode n).linksCount + A.countP (fun a => v.target a == n) = (v.inode n).linksCount
  closed : ∀ a ∈ A, (v.inode (v.target a)).IsDirectory → ∀ x, v.Child L (v.target a) x → x ∈ A

/-- The entry at `a` names `n`, and it goes by itself or with its directory. -/
def Lost (L : Layout) (v : View) (A : List ℕ) (n a : ℕ) : Prop :=
  (∃ k, v.Entry L k a ∧ (a ∈ A ∨ v.Freed L A k)) ∧ v.target a = n

/-- The entry at `a` is `..` in a directory that goes and is in directory `n`. -/
def LostAbove (L : Layout) (v : View) (A : List ℕ) (n a : ℕ) : Prop :=
  ∃ x ∈ A, v.Child L n x ∧ (v.inode (v.target x)).IsDirectory ∧ v.Entry L (v.target x) a ∧
    v.name a = [dot, dot]

section Trimmed

variable (hw : v.Trimmed L A w) (hs : v.Sound L)

include hw

theorem Trimmed.isDir_iff : w.IsDir L k ↔ v.IsDir L k ∧ ¬ v.Freed L A k := by
  rw [IsDir, IsDir, hw.live, hw.isDirectory_iff]
  tauto

/-- What is in a directory that is gone is gone. -/
theorem Trimmed.mem_of_freed (hk : v.Freed L A k) (hx : v.Child L k x) : x ∈ A := by
  obtain ⟨⟨a, ha, rfl⟩, -⟩ := hk
  exact hw.closed a ha hx.isDir.2 x hx

include hs

theorem Freed.live (h : v.Freed L A n) : v.Live L n := by
  obtain ⟨⟨a, ha, rfl⟩, -⟩ := h
  obtain ⟨k, hchild⟩ := hw.children a ha
  exact hs.consistent.live_target hchild.toEntry

/-- A directory has one name, so it goes with it. -/
theorem Trimmed.freed_target (ha : a ∈ A) (hdir : (v.inode (v.target a)).IsDirectory) :
    v.Freed L A (v.target a) := by
  obtain ⟨k, hchild⟩ := hw.children a ha
  refine ⟨⟨a, ha, rfl⟩, fun q x hx heq => ?_⟩
  rw [hs.hierarchy.parent q k x a hx hchild heq (heq ▸ hdir)]
  exact ha

theorem Trimmed.entry_iff : w.Entry L k a ↔ v.Entry L k a ∧ a ∉ A ∧ ¬ v.Freed L A k := by
  have hc := hs.consistent
  have hh := hs.hierarchy
  constructor
  · intro h
    obtain ⟨hk, hnot⟩ := hw.isDir_iff.mp h.isDir
    have hslot := hw.slots_eq hc hh hk ▸ h.slot
    obtain ⟨hlive, hin⟩ := (hw.live_iff hc hk hslot).mp h.live
    exact ⟨⟨hk, hslot, hlive⟩, hin, hnot⟩
  · rintro ⟨h, hin, hnot⟩
    refine ⟨hw.isDir_iff.mpr ⟨h.isDir, hnot⟩, ?_, (hw.live_iff hc h.isDir h.slot).mpr ⟨h.live, hin⟩⟩
    rw [hw.slots_eq hc hh h.isDir]
    exact h.slot

theorem Trimmed.namers_sublist (n : ℕ) : (w.namers L n).Sublist (v.namers L n) := by
  have hc := hs.consistent
  have hdirs : ((List.range (L.inodesCount + 1)).filter fun k => decide (w.IsDir L k)).Sublist
      ((List.range (L.inodesCount + 1)).filter fun k => decide (v.IsDir L k)) :=
    List.monotone_filter_right _ fun k hk =>
      decide_eq_true (hw.isDir_iff.mp (of_decide_eq_true hk)).1
  refine (List.Sublist.flatMap_right _ fun k hk => ?_).trans (hdirs.flatMap _)
  have hk := (hw.isDir_iff.mp (of_decide_eq_true (List.mem_filter.mp hk).2)).1
  rw [hw.slots_eq hc hs.hierarchy hk]
  refine filter_sublist_filter fun a ha hboth => ?_
  rw [Bool.and_eq_true] at hboth ⊢
  obtain ⟨hlive, hnot⟩ := (hw.live_iff hc hk ha).mp hboth.1
  exact ⟨hlive, hw.target_eq hc hk ha hnot ▸ hboth.2⟩

theorem Trimmed.lost_file (hn : v.Live L n) (hfile : ¬ (v.inode n).IsDirectory) :
    v.Lost L A n a ↔ a ∈ A.filter fun x => v.target x == n := by
  rw [List.mem_filter, beq_iff_eq]
  constructor
  · rintro ⟨⟨k, hentry, hin | hgone⟩, rfl⟩
    · exact ⟨hin, rfl⟩
    · exact ⟨hw.mem_of_freed hgone (hs.hierarchy.child_of_entry hentry hfile), rfl⟩
  · rintro ⟨hin, rfl⟩
    obtain ⟨k, hchild⟩ := hw.children a hin
    exact ⟨⟨k, hchild.toEntry, .inl hin⟩, rfl⟩

/-- A directory that stays loses the names `..` for it. -/
theorem Trimmed.lost_dir (hn : v.IsDir L n) (hnot : ¬ v.Freed L A n) :
    v.Lost L A n a ↔ v.LostAbove L A n a := by
  constructor
  · rintro ⟨⟨k, hentry, hgone⟩, rfl⟩
    have hout : a ∉ A := fun hin => hnot (hw.freed_target hs hin hn.2)
    have hgone := hgone.resolve_left hout
    obtain ⟨hself, q, hdots⟩ := (hs.arranged.opens k hentry.isDir).mem_files
      (hs.arranged.direct k hentry.isDir)
    have hunique := List.inj_on_of_nodup_map (hs.arranged.names k hentry.isDir)
    by_cases hdot : v.name a = [dot]
    · have hsame := congrArg DirEntry.inode (hunique hentry.mem_files hself hdot)
      exact absurd hgone ((show v.target a = k from hsame) ▸ hnot)
    by_cases habove : v.name a = [dot, dot]
    swap
    · exact absurd (hw.mem_of_freed hgone ⟨hentry, hdot, habove⟩) hout
    obtain ⟨⟨x, hx, rfl⟩, -⟩ := id hgone
    obtain ⟨p, hchild⟩ := hw.children x hx
    have hname := hunique (hs.arranged.above p _ hchild.contains hentry.isDir.2) hentry.mem_files
      habove.symm
    obtain rfl : p = v.target a := congrArg DirEntry.inode hname
    exact ⟨x, hx, hchild, hentry.isDir.2, hentry, habove⟩
  · rintro ⟨x, hx, hchild, hdir, hentry, hname⟩
    refine ⟨⟨_, hentry, .inr (hw.freed_target hs hx hdir)⟩, ?_⟩
    exact congrArg DirEntry.inode (List.inj_on_of_nodup_map (hs.arranged.names _ hentry.isDir)
      hentry.mem_files (hs.arranged.above n _ hchild.contains hdir) hname)

/-- The names that are left and those that are lost are all the names. -/
theorem Trimmed.nameCount_eq {lost : List ℕ} (hnodup : lost.Nodup)
    (hmem : ∀ a, a ∈ lost ↔ v.Lost L A n a) :
    w.nameCount L n + lost.length = v.nameCount L n := by
  have hc := hs.consistent
  have hh := hs.hierarchy
  have hperm : (w.namers L n ++ lost).Perm (v.namers L n) := by
    refine (List.perm_ext_iff_of_nodup ?_ (hh.namers_nodup hc n)).mpr fun a => ?_
    · refine List.nodup_append.mpr
        ⟨(hh.namers_nodup hc n).sublist (hw.namers_sublist hs n), hnodup, ?_⟩
      rintro a ha x hx rfl
      obtain ⟨k, hentry, -⟩ := mem_namers.mp ha
      obtain ⟨hentry, hin, hnot⟩ := (hw.entry_iff hs).mp hentry
      obtain ⟨⟨q, hentry', hgone⟩, -⟩ := (hmem a).mp hx
      obtain rfl := hc.slot_unique hentry.isDir hentry'.isDir hentry.slot hentry'.slot
      exact hgone.elim hin hnot
    · rw [List.mem_append, mem_namers, mem_namers, hmem]
      constructor
      · rintro (⟨k, hentry, htarget⟩ | ⟨⟨k, hentry, -⟩, htarget⟩)
        · obtain ⟨hentry, hin, -⟩ := (hw.entry_iff hs).mp hentry
          exact ⟨k, hentry, (hw.target_eq hc hentry.isDir hentry.slot hin).symm.trans htarget⟩
        · exact ⟨k, hentry, htarget⟩
      · rintro ⟨k, hentry, htarget⟩
        by_cases hgone : a ∈ A ∨ v.Freed L A k
        · exact .inr ⟨⟨k, hentry, hgone⟩, htarget⟩
        · rw [not_or] at hgone
          refine .inl ⟨k, (hw.entry_iff hs).mpr ⟨hentry, hgone⟩, ?_⟩
          rwa [hw.target_eq hc hentry.isDir hentry.slot hgone.1]
  have hlength := hperm.length_eq
  rwa [List.length_append, length_namers, length_namers] at hlength

theorem Trimmed.files_sublist (hk : v.IsDir L k) : (w.files k).Sublist (v.files k) := by
  have hc := hs.consistent
  change (filesIn w.byte (w.slots k)).Sublist (filesIn v.byte (v.slots k))
  rw [hw.slots_eq hc hs.hierarchy hk, filesIn, filesIn]
  have hmap : ((v.slots k).filter (Ext2.live w.byte)).map (dirEntry w.byte) =
      ((v.slots k).filter (Ext2.live w.byte)).map (dirEntry v.byte) := by
    refine List.map_congr_left fun a hin => ?_
    obtain ⟨hslot, hlive⟩ := List.mem_filter.mp hin
    exact hw.dirEntry_eq hc hk hslot ((hw.live_iff hc hk hslot).mp hlive).2
  rw [hmap]
  exact (filter_sublist_filter fun a hslot hlive => ((hw.live_iff hc hk hslot).mp hlive).1).map _

/-- The entries that are not names in the tree stay. -/
theorem Trimmed.mem_files_of_dots (hk : v.IsDir L k) (h : e ∈ v.files k)
    (hdots : e.name = [dot] ∨ e.name = [dot, dot]) : e ∈ w.files k := by
  obtain ⟨a, ha, hlive, rfl⟩ := mem_filesIn.mp h
  refine (hw.toThinned.mem_files hs.consistent hs.hierarchy hk).mpr
    ⟨a, ⟨hk, ha, hlive⟩, fun hin => ?_, rfl⟩
  obtain ⟨q, hchild⟩ := hw.children a hin
  exact hdots.elim hchild.not_dot hchild.not_dot_dot

theorem Trimmed.contains (h : w.Contains L k e) :
    v.Contains L k e ∧ ¬ v.Freed L A k ∧ ¬ v.Freed L A e.inode := by
  obtain ⟨hk, hnot⟩ := hw.isDir_iff.mp h.isDir
  obtain ⟨a, ha, hin, rfl⟩ :=
    (hw.toThinned.mem_files hs.consistent hs.hierarchy hk).mp h.mem
  have hchild : v.Child L k a := ⟨ha, h.not_dot, h.not_dot_dot⟩
  exact ⟨hchild.contains, hnot, fun hgone => hin (hgone.2 k a hchild rfl)⟩

/-- The directory above one that stays does so, too. -/
theorem Trimmed.above_kept (hk : v.IsDir L k) (hnot : ¬ v.Freed L A k)
    (hq : ⟨[dot, dot], q, ext2FtDir⟩ ∈ v.files k) : ¬ v.Freed L A q := by
  have hunique : ∀ p, ⟨[dot, dot], p, ext2FtDir⟩ ∈ v.files k → p = q := fun p hp =>
    congrArg DirEntry.inode (List.inj_on_of_nodup_map (hs.arranged.names k hk) hp hq rfl)
  by_cases hroot : k = rootInodeNumber
  · subst hroot
    rwa [← hunique _ hs.rooted.top]
  · obtain ⟨p, e, he, rfl⟩ := hs.rooted.inside k (Set.notMem_empty k) hk hroot
    obtain rfl := hunique p (hs.arranged.above p e he hk.2)
    obtain ⟨a, ha, hlive, rfl⟩ := mem_filesIn.mp he.mem
    have hchild : v.Child L p a := ⟨⟨he.isDir, ha, hlive⟩, he.not_dot, he.not_dot_dot⟩
    exact fun hgone => hnot (hw.freed_target hs (hw.mem_of_freed hgone hchild) hk.2)

theorem Trimmed.consistent : w.Consistent L := by
  have hc := hs.consistent
  have hh := hs.hierarchy
  have howned : ∀ n, v.Live L n → w.owned n = v.owned n := fun n hn => hw.owned_eq hc hh hn
  refine ⟨hw.counted, fun b hb hle hplain => ?_, fun n hn b hb => ?_, fun n hn => ?_,
    fun n k hn hk hne b hb => ?_, fun n hn hdir b hb => ?_, fun n hn hdir e he => ?_, ?_⟩
  · refine (hw.blocks b (Nat.ne_of_gt hb) hle).mpr ⟨hc.reserved b hb hle hplain, fun k hk hin => ?_⟩
    exact hplain (hc.used k (hk.live hw hs) b hin).2.1
  · obtain ⟨hn, hnot⟩ := (hw.live n).mp hn
    rw [howned n hn] at hb
    obtain ⟨hne, hplain, hbit⟩ := hc.used n hn b hb
    refine ⟨hne, hplain, (hw.blocks b hne hplain.lt.le).mpr ⟨hbit, fun k hk => ?_⟩⟩
    exact hc.apart n k hn (hk.live hw hs) (fun heq => hnot (heq ▸ hk)) b hb
  · have hn := ((hw.live n).mp hn).1
    rw [howned n hn]
    exact hc.once n hn
  · have hn := ((hw.live n).mp hn).1
    have hk := ((hw.live k).mp hk).1
    rw [howned n hn] at hb
    rw [howned k hk]
    exact hc.apart n k hn hk hne b hb
  · have hn := (hw.isDir_iff.mp ⟨hn, hdir⟩).1
    rw [hw.data_eq (hs.arranged.direct n hn)] at hb
    exact (hw.tiled hc hn hb).1
  · obtain ⟨hn, hnot⟩ := hw.isDir_iff.mp ⟨hn, hdir⟩
    have he' := (hw.files_sublist hs hn).subset he
    refine (hw.live _).mpr ⟨hc.named n hn.1 hn.2 e he', ?_⟩
    by_cases hdots : e.name = [dot] ∨ e.name = [dot, dot]
    · obtain ⟨hself, q, habove⟩ := (hs.arranged.opens n hn).mem_files (hs.arranged.direct n hn)
      have hunique := List.inj_on_of_nodup_map (hs.arranged.names n hn)
      rcases hdots with hdot | hdots
      · obtain rfl := hunique he' hself hdot
        exact hnot
      · obtain rfl := hunique he' habove hdots
        exact hw.above_kept hs hn hnot he'
    · rw [not_or] at hdots
      exact (hw.contains hs ⟨hw.isDir_iff.mpr ⟨hn, hnot⟩, he, hdots.1, hdots.2⟩).2.2
  · refine hw.isDir_iff.mpr ⟨hc.root, fun hgone => ?_⟩
    obtain ⟨⟨a, ha, htarget⟩, -⟩ := hgone
    obtain ⟨k, hchild⟩ := hw.children a ha
    exact hs.rooted.unnamed k _ hchild.contains htarget

theorem Trimmed.opens (hk : v.IsDir L k) : w.Opens k := by
  have hc := hs.consistent
  have hopens := hs.arranged.opens k hk
  obtain ⟨x, y, es, q, hes, hx, hy, hdot, hdots⟩ := hopens.entries
  obtain ⟨bs, hdata⟩ := data_cons (hs.arranged.direct k hk) hopens.slot
  have hblock : (v.inode k).block 0 ∈ v.data k := hdata ▸ List.mem_cons_self
  have hstays : ∀ z ∈ x :: y :: es, Ext2.live v.byte z = true →
      (v.name z = [dot] ∨ v.name z = [dot, dot]) →
        Ext2.live w.byte z = true ∧ dirEntry w.byte z = dirEntry v.byte z := by
    intro z hz hlive hname
    have hslot : z ∈ v.slots k := List.mem_flatMap.mpr ⟨_, hblock, hes ▸ hz⟩
    have hnot : z ∉ A := fun hin => by
      obtain ⟨q, hchild⟩ := hw.children z hin
      exact hname.elim hchild.not_dot hchild.not_dot_dot
    exact ⟨(hw.live_iff hc hk hslot).mpr ⟨hlive, hnot⟩, hw.dirEntry_eq hc hk hslot hnot⟩
  obtain ⟨hx', hx⟩ := hstays x List.mem_cons_self hx (.inl (congrArg DirEntry.name hdot))
  obtain ⟨hy', hy⟩ := hstays y (List.mem_cons_of_mem _ List.mem_cons_self) hy
    (.inr (congrArg DirEntry.name hdots))
  refine ⟨by rw [hw.block]; exact hopens.slot, x, y, es, q, ?_, hx', hy', hx.trans hdot,
    hy.trans hdots⟩
  rw [hw.block, (hw.tiled hc hk hblock).2, hes]

theorem Trimmed.arranged : w.Arranged L := by
  have hc := hs.consistent
  have ha := hs.arranged
  have hdir : ∀ {k}, w.IsDir L k → v.IsDir L k := fun hk => (hw.isDir_iff.mp hk).1
  refine ⟨fun k hk => hw.directOnly (ha.direct k (hdir hk)), fun k hk => hw.opens hs (hdir hk),
    fun k hk => (ha.names k (hdir hk)).sublist ((hw.files_sublist hs (hdir hk)).map _),
    fun k hk e he => ha.legal k (hdir hk) e ((hw.files_sublist hs (hdir hk)).subset he),
    fun k hk e he => ?_, ha.forest.mono ?_, fun k e hk hedir => ?_⟩
  · rw [hw.isDirectory_iff]
    exact ha.types k (hdir hk) e ((hw.files_sublist hs (hdir hk)).subset he)
  · rintro k e n ⟨hk, rfl⟩ hn
    exact ⟨⟨(hw.contains hs hk).1, rfl⟩, hw.isDirectory_iff.mp hn⟩
  · have hk := (hw.contains hs hk).1
    have hedir := hw.isDirectory_iff.mp hedir
    exact hw.mem_files_of_dots hs ⟨hc.named k hk.isDir.1 hk.isDir.2 e hk.mem, hedir⟩
      (ha.above k e hk hedir) (.inr rfl)

theorem Trimmed.rooted : w.Rooted L ∅ where
  top := hw.mem_files_of_dots hs hs.consistent.root hs.rooted.top (.inr rfl)
  unnamed k e he := hs.rooted.unnamed k e (hw.contains hs he).1
  inside n hn hdir hne := by
    obtain ⟨hdir, hnot⟩ := hw.isDir_iff.mp hdir
    obtain ⟨k, e, he, rfl⟩ := hs.rooted.inside n hn hdir hne
    obtain ⟨a, ha, hlive, rfl⟩ := mem_filesIn.mp he.mem
    have hchild : v.Child L k a := ⟨⟨he.isDir, ha, hlive⟩, he.not_dot, he.not_dot_dot⟩
    have hin : a ∉ A := fun hin => hnot (hw.freed_target hs hin hdir.2)
    have hk : ¬ v.Freed L A k := fun hgone => hin (hw.mem_of_freed hgone hchild)
    refine ⟨k, dirEntry v.byte a, ⟨hw.isDir_iff.mpr ⟨he.isDir, hk⟩, ?_, he.not_dot,
      he.not_dot_dot⟩, rfl⟩
    exact (hw.toThinned.mem_files hs.consistent hs.hierarchy he.isDir).mpr
      ⟨a, hchild.toEntry, hin, rfl⟩

/-- What is left is sound if the directories have lost a link for each `..`. -/
theorem Trimmed.sound (hdirs : ∀ n, v.IsDir L n → ¬ v.Freed L A n → ∃ lost : List ℕ,
    lost.Nodup ∧ (∀ a, a ∈ lost ↔ v.LostAbove L A n a) ∧
      (w.inode n).linksCount + lost.length = (v.inode n).linksCount) : w.Sound L := by
  refine ⟨hw.consistent hs, hw.arranged hs, hw.rooted hs, fun n hn => ?_⟩
  obtain ⟨hlive, hnot⟩ := (hw.live n).mp hn
  have hlinked := hs.linked n hlive
  by_cases hdir : (v.inode n).IsDirectory
  · obtain ⟨lost, hnodup, hmem, hlinks⟩ := hdirs n ⟨hlive, hdir⟩ hnot
    have hcount := hw.nameCount_eq hs hnodup fun a =>
      (hmem a).trans (hw.lost_dir hs ⟨hlive, hdir⟩ hnot).symm
    omega
  · have hcount := hw.nameCount_eq hs (hw.nodup.filter _) fun a =>
      (hw.lost_file hs hlive hdir).symm
    have hlinks := hw.links n hlive hdir
    rw [List.countP_eq_length_filter] at hlinks
    omega

theorem Trimmed.keepsFiles : v.KeepsFiles L w := fun n hn hnw hfile => by
  refine ⟨⟨hw.mode n, hw.block n, fun c hin => hw.sameBlock hs.consistent hn hfile hin⟩, ?_⟩
  rw [hw.kept n ((hw.live n).mp hnw).2]

/-! ## The names that are gone from the tree -/

section Goes

variable (h : v.Child L p a) (hmem : ∀ x, x ∈ A ↔ v.Goes L a x)

include h hmem

theorem Trimmed.lost_iff :
    (v.fileTree L).Lost IsDots p (v.name a) n ↔ v.Freed L A n := by
  constructor
  · rintro ⟨⟨k, s, hgoes, hlookup⟩, hall⟩
    have hchild : ∀ {k s}, (v.fileTree L).Goes IsDots p (v.name a) k s →
        (v.fileTree L).lookup k s = some n → ∃ x ∈ A, v.target x = n := by
      intro k s hgoes hlookup
      obtain ⟨x, hx, rfl, htarget⟩ :=
        exists_child_of_fileTree hlookup (hgoes.not_loose h.not_isDots)
      exact ⟨x, (hmem x).mpr ((fileTree_goes hs h hx).mp hgoes), htarget⟩
    refine ⟨hchild hgoes hlookup, fun q x hx htarget => ?_⟩
    have hgone := hall q _ hx.not_isDots (htarget ▸ hx.fileTree_lookup hs)
    exact (hmem x).mpr ((fileTree_goes hs h hx).mp hgone)
  · rintro ⟨⟨x, hx, rfl⟩, hall⟩
    obtain ⟨k, hchild⟩ := hw.children x hx
    refine ⟨⟨k, _, (fileTree_goes hs h hchild).mpr ((hmem x).mp hx), hchild.fileTree_lookup hs⟩,
      fun q s hdots hlookup => ?_⟩
    obtain ⟨y, hy, rfl, htarget⟩ := exists_child_of_fileTree hlookup hdots
    exact (fileTree_goes hs h hy).mpr ((hmem y).mp (hall q y hy htarget))

open Classical in
/-- What a directory that stays has under a name. -/
theorem Trimmed.lookup_inode (hk : v.IsDir L k) (s : CString) :
    (w.lookup k s).map DirEntry.inode =
      if (v.fileTree L).Goes IsDots p (v.name a) k s then none
      else (v.lookup k s).map DirEntry.inode := by
  cases hfind : v.lookup k s with
  | none =>
      have hnone : w.lookup k s = none := List.find?_eq_none.mpr fun e he =>
        List.find?_eq_none.mp hfind e ((hw.files_sublist hs hk).subset he)
      rw [hnone, Option.map_none, ite_self]
  | some e =>
      obtain ⟨x, hx, rfl, -⟩ := hk.exists_entry hfind
      rw [hw.toThinned.lookup_eq hs.consistent hs.hierarchy hx, ← hfind, hx.lookup_eq hs]
      by_cases hdots : IsDots (v.name x)
      · -- the names `.` and `..` are never among those that go
        have hin : x ∉ A := fun hin => by
          obtain ⟨q, hchild⟩ := hw.children x hin
          exact hchild.not_isDots hdots
        rw [if_neg hin, if_neg fun hgoes => hgoes.not_loose h.not_isDots hdots]
      · rw [IsDots, not_or] at hdots
        rw [fileTree_goes hs h ⟨hx, hdots.1, hdots.2⟩, ← hmem]
        split_ifs <;> rfl

theorem Trimmed.fileTree_eq (hsize : ∀ n, v.Live L n → (v.inode n).size < 2 ^ 32) :
    w.fileTree L = (v.fileTree L).remove IsDots p (v.name a) := by
  funext n
  by_cases hn : v.Live L n
  swap
  · rw [Tree.remove_of_none (fileTree_eq_none hn),
      fileTree_eq_none fun hlive => hn ((hw.live n).mp hlive).1]
  have hlost := hw.lost_iff hs h hmem (n := n)
  by_cases hgone : v.Freed L A n
  · rw [Tree.remove_of_lost (hlost.mpr hgone),
      fileTree_eq_none fun hlive => ((hw.live n).mp hlive).2 hgone]
  have hnot := hlost.not.mpr hgone
  have hlive : w.Live L n := (hw.live n).mpr ⟨hn, hgone⟩
  by_cases hdir : (v.inode n).IsDirectory
  · rw [Tree.remove_of_dir (fileTree_dir ⟨hn, hdir⟩) hnot,
      fileTree_dir ⟨hlive, hw.isDirectory_iff.mpr hdir⟩]
    exact congrArg (fun es => some (Node.dir es))
      (funext (hw.lookup_inode hs h hmem ⟨hn, hdir⟩))
  · rw [Tree.remove_of_file (fileTree_file hn hdir) hnot,
      fileTree_file hlive (hw.isDirectory_iff.not.mpr hdir),
      (hw.keepsFiles hs n hn hlive hdir).contents_eq (hsize n hn)]

end Goes

end Trimmed

/-! ## Names of files and subtrees -/

theorem Pruned.trimmed (hw : v.Pruned L X A w) (hclosed : ∀ a ∈ A,
    (v.inode (v.target a)).IsDirectory → ∀ x, v.Child L (v.target a) x → x ∈ A) :
    v.Trimmed L A w :=
  { hw with
    live := fun n => by
      rw [Live, Live, and_assoc]
      exact and_congr_right fun hn => hw.inodes n hn
    closed := hclosed }

/-- The directories do not change when names of files go. -/
theorem Pruned.sound_of_files (hw : v.Pruned L (fun _ => False) A w) (hs : v.Sound L)
    (hfiles : ∀ a ∈ A, ¬ (v.inode (v.target a)).IsDirectory) :
    w.Sound L ∧ v.KeepsFiles L w := by
  have htrim := hw.trimmed fun a ha hdir => absurd hdir (hfiles a ha)
  refine ⟨htrim.sound hs fun n hn _ => ⟨[], .nil, fun a => ?_, ?_⟩, htrim.keepsFiles hs⟩
  · refine iff_of_false List.not_mem_nil ?_
    rintro ⟨x, hx, -, hdir, -⟩
    exact hfiles x hx hdir
  · have heq := hw.dirs n id hn.2 fun a ha heq => hfiles a ha (heq ▸ hn.2)
    rw [heq]
    rfl

end View

theorem SubtreeRemoved.trimmed (h : SubtreeRemoved L v w p a A) (hw : v.Thinned L A w) :
    v.Trimmed L A w := by
  have hfreed : ∀ n, v.Freed L A n ↔ v.NamedOnly L (v.Goes L a) n := fun n =>
    View.NamedOnly.congr h.mem
  refine { hw with
    nodup := h.nodup
    counted := h.counted
    live := fun n => by rw [h.live, hfreed]
    blocks := fun b hb hle => by
      rw [h.blocks b hb hle]
      exact and_congr_right fun _ => forall_congr' fun n => imp_congr_left (hfreed n).symm
    kept := fun n hn => h.kept n fun hgone => hn ((hfreed n).mpr hgone)
    links := h.files
    closed := fun y hy hdir x hx => (h.mem x).mpr ?_ }
  rcases (h.mem y).mp hy with rfl | ⟨hadir, q, hbelow, hchild⟩
  · exact .inr ⟨hdir, _, .refl, hx⟩
  · exact .inr ⟨hadir, _, hbelow.step hchild hdir, hx⟩

/-- The directory above the subtree loses the name `..` in its top. -/
theorem SubtreeRemoved.sound (h : SubtreeRemoved L v w p a A) (hw : v.Thinned L A w)
    (hs : v.Sound L) (hchild : v.Child L p a) (hdir : (v.inode (v.target a)).IsDirectory) :
    w.Sound L ∧ v.KeepsFiles L w := by
  have hc := hs.consistent
  have htrim := h.trimmed hw
  have hin : a ∈ A := (h.mem a).mpr (.inl rfl)
  -- the other names that go are in directories that go
  have htop : ∀ n x, ¬ v.Freed L A n → x ∈ A → v.Child L n x → x = a ∧ n = p := by
    intro n x hnot hx hxn
    rcases (h.mem x).mp hx with rfl | ⟨-, q, hbelow, hxq⟩
    · exact ⟨rfl, hc.slot_unique hxn.isDir hchild.isDir hxn.slot hchild.slot⟩
    · obtain rfl := hc.slot_unique hxn.isDir hxq.isDir hxn.slot hxq.slot
      obtain ⟨y, hy, rfl⟩ := hbelow.exists_goes hdir
      exact absurd (htrim.freed_target hs ((h.mem y).mpr hy) hxn.isDir.2) hnot
  refine ⟨htrim.sound hs fun n hn hnot => ?_, htrim.keepsFiles hs⟩
  by_cases hnp : n = p
  · subst hnp
    have hk : v.IsDir L (v.target a) := ⟨hc.live_target hchild.toEntry, hdir⟩
    obtain ⟨y, hy, hlive, hdots⟩ :=
      View.mem_filesIn.mp (hs.arranged.above n _ hchild.contains hdir)
    have hentry : v.Entry L (v.target a) y := ⟨hk, hy, hlive⟩
    have hname : v.name y = [dot, dot] := congrArg DirEntry.name hdots
    refine ⟨[y], List.nodup_singleton y, fun x => ?_, h.parent.2⟩
    rw [List.mem_singleton]
    constructor
    · rintro rfl
      exact ⟨a, hin, hchild, hdir, hentry, hname⟩
    · rintro ⟨z, hz, hzn, -, hx, hxname⟩
      obtain ⟨rfl, -⟩ := htop n z hnot hz hzn
      exact hs.arranged.entry_eq hx hentry (hxname.trans hname.symm)
  · refine ⟨[], .nil, fun x => ?_, ?_⟩
    · refine iff_of_false List.not_mem_nil ?_
      rintro ⟨z, hz, hzn, -⟩
      exact hnp (htop n z hnot hz hzn).2
    · have hkept : ¬ v.NamedOnly L (v.Goes L a) n := fun hgone =>
        hnot ((View.NamedOnly.congr h.mem).mpr hgone)
      rw [h.dirs n hn.2 hkept hnp]
      rfl

/-! ## The command -/

/-- What `ext2_rm` takes for granted about a name of a file or of a link. -/
structure RemovableName (L : Layout) (v : View) (path : CString) (p a : ℕ) : Prop
    extends v.Names L path p a where
  type : fileType v.byte a = ext2FtRegFile ∨ fileType v.byte a = ext2FtSymlink
  releasable : (v.inode (v.target a)).linksCount = 1 → v.Releasable (v.target a)

/-- What `ext2_rm -r` takes for granted about the path to a directory. -/
structure RemovableDir (L : Layout) (v : View) (path : CString) (k : ℕ) : Prop
    extends PlainPath path, v.Removable L k where
  reach : v.reach rootInodeNumber (tokens path) = some k
  isDirectory : (v.inode k).IsDirectory
  ne_root : k ≠ rootInodeNumber

theorem RemovableName.ext2Rm (hrem : RemovableName L v path p a) (hlen : path.length % 16 ≠ 0)
    (h : L.Shows d v) (hs : v.Sound L) (recursive : Bool) (now depth : ℕ) :
    ∃ d' w, ext2Rm d recursive path now (depth + 1) = .ok (0, d') ∧ L.Shows d' w ∧ w.Sound L ∧
      v.KeepsFiles L w ∧
        (Command.rm recursive path now depth).Effect (v.fileTree L) (w.fileTree L) := by
  have hc := hs.consistent
  have hh := hs.hierarchy
  have hw : v.Pruned L (fun _ => False) [] v := .refl hc
  have hnil : ∀ x ∈ ([] : List ℕ), ¬ (v.inode (v.target x)).IsDirectory := fun _ hx =>
    absurd hx List.not_mem_nil
  have hnames := hrem.toNames
  have hfile : ¬ (v.inode (v.target a)).IsDirectory := fun hdir => by
    have htype := hrem.type
    rw [(hh.types p a hnames.entry).mpr hdir] at htype
    exact absurd htype (by decide)
  have hchild := hh.child_of_entry hnames.entry hfile
  have hfind := (h.findDirEntry_names hw.toThinned hc hh hnil hnames).1
  rw [if_neg List.not_mem_nil] at hfind
  have htype : fileType d.byte a = ext2FtRegFile ∨ fileType d.byte a = ext2FtSymlink := by
    rw [h.fileType_eq hw.toThinned hc hnames.entry]
    exact hrem.type
  obtain ⟨d', hret, w, h', hw', -⟩ := (h.removeFile hw hc hh hchild List.not_mem_nil hfile
    (fun hgone => hrem.releasable
      ((hw.freed_iff hc hh hchild List.not_mem_nil hfile).2.mp hgone)) now
    fun d w h hw => Runs.yields_of_eq_ok
      ((h.findDirEntry_names hw hc hh hnil hnames).2 hlen) rfl).exists_ok
  have hfiles : ∀ x ∈ [a], ¬ (v.inode (v.target x)).IsDirectory := fun x hx =>
    List.mem_singleton.mp hx ▸ hfile
  obtain ⟨hsound, hkeeps⟩ := hw'.sound_of_files hs hfiles
  have htrim := hw'.trimmed fun x hx hdir => absurd hdir (hfiles x hx)
  have htree := htrim.fileTree_eq hs hchild
    (fun x => by rw [List.mem_singleton, View.Goes, or_iff_left fun hdir => hfile hdir.1])
    fun n hn => h.size_lt hn.1
  obtain ⟨names, htokens, hreach⟩ := hnames.reach
  refine ⟨d', w, ?_, h', hsound, hkeeps, names, v.name a, p, v.target a, htokens,
    (View.fileTree_reach hc hc.root.1).trans hreach, hchild.fileTree_lookup hs,
    fun hdir => absurd (View.fileTree_isDir.mp hdir).2 hfile, htree⟩
  have hnotdir : ¬ (fileType d.byte a = ext2FtDir ∧ ¬ recursive = true) := by
    rintro ⟨hdir, -⟩
    rw [hdir] at htype
    exact absurd htype (by decide)
  unfold Ext2.ext2Rm
  rw [if_neg (by simp [hnames.absolute]), if_neg hnames.length_ne_one]
  simp only [bind, Except.bind, hfind, if_neg hnotdir]
  rw [removeDirectoryOrFileOrLink, if_pos htype, hret]

/-- A recursion that comes to its end has not overrun an array. -/
theorem RemovableDir.ext2Rm (hrem : RemovableDir L v path k) (h : L.Shows d v) (hs : v.Sound L)
    (now : ℕ) :
    ∃ depth, ∀ n ≥ depth, ∀ d', ext2Rm d true path now n = .ok (0, d') →
      ∃ w, L.Shows d' w ∧ w.Sound L ∧ v.KeepsFiles L w ∧
        ∀ depth, (Command.rm true path now depth).Effect (v.fileTree L) (w.fileTree L) := by
  have hc := hs.consistent
  have hh := hs.hierarchy
  obtain ⟨p, a, as, names, hchild, rfl, hroute, htokens, haddr, hfind⟩ :=
    hrem.toPlainPath.exists_child (E := (· = .overrun)) hc hh (.inl rfl) hrem.reach hrem.ne_root
  obtain ⟨depth, hyields⟩ :=
    h.removeSubtree now hc hh hchild hrem.isDirectory haddr hrem.toRemovable
  refine ⟨depth, fun n hn d' hret => ?_⟩
  have hlength : path.length ≠ 1 := fun hlength => by
    obtain ⟨b, rfl⟩ := List.length_eq_one_iff.mp hlength
    obtain rfl : b = slash := by simpa using hrem.absolute
    rw [show tokens [slash] = [] by decide] at htokens
    exact absurd htokens.symm (by simp)
  unfold Ext2.ext2Rm at hret
  rw [if_neg (by simp [hrem.absolute]), if_neg hlength] at hret
  obtain ⟨found, hfound, hret⟩ := Runs.bind_eq_ok_iff.mp hret
  obtain rfl : some a = found := Except.ok.inj ((hfind d h).symm.trans hfound)
  simp only [not_true_eq_false, and_false, if_false] at hret
  obtain ⟨d₁, hremove, hret⟩ := Runs.bind_eq_ok_iff.mp hret
  obtain rfl : d₁ = d' := congrArg Prod.snd (Except.ok.inj hret)
  obtain ⟨w, A, hshows, hthinned, hremoved⟩ := (hyields n hn).of_eq_ok hremove
  obtain ⟨hsound, hkeeps⟩ := hremoved.sound hthinned hs hchild hrem.isDirectory
  have htree := (hremoved.trimmed hthinned).fileTree_eq hs hchild hremoved.mem
    fun n hn => h.size_lt hn.1
  have hnone : v.Pruned L (fun _ => False) [] v := .refl hc
  have hreach := (hnone.route hc hh hroute fun _ _ => List.not_mem_nil).2
  exact ⟨w, hshows, hsound, hkeeps, fun _ => ⟨names, v.name a, p, v.target a, htokens,
    (View.fileTree_reach hc hc.root.1).trans hreach, hchild.fileTree_lookup hs, fun _ => rfl, htree⟩⟩

end KernelProgramming.Ext2
