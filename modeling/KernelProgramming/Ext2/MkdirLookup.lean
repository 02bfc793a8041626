import KernelProgramming.Ext2.Entering
import KernelProgramming.Ext2.Rollback
import KernelProgramming.Ext2.Mkdir

/-!
# mkdir, then lookup

When `ext2_mkdir` succeeds, the new directory is found under its path, provided
that the name fits the places it is put into.
-/

namespace KernelProgramming.Ext2

open ByteMemory

variable {L : Layout} {d d' : Disk} {v w : View} {a b i k n p inodeNum type : ℕ} {name : CString}

/-! ## The first entry of a block -/

theorem fillFirstEntry_eq (d : Disk) (e inodeNum type : ℕ) (name : CString) :
    fillFirstEntry d e inodeNum name.length name type =
      fillEntry (d.setU16 (e + 4) 1024) e name.length inodeNum name type := by
  have hu32 : (d.setU32 e inodeNum).setU8 (e + 6) name.length =
      (d.setU8 (e + 6) name.length).setU32 e inodeNum :=
    congrArg (Disk.mk d.numBlocks) (putBytes_comm (by simp) d.byte)
  have hu8 : (d.setU8 (e + 6) name.length).setU16 (e + 4) 1024 =
      (d.setU16 (e + 4) 1024).setU8 (e + 6) name.length :=
    congrArg (Disk.mk d.numBlocks) (putBytes_comm (by simp) d.byte)
  have hu16 : ((d.setU8 (e + 6) name.length).setU32 e inodeNum).setU16 (e + 4) 1024 =
      ((d.setU8 (e + 6) name.length).setU16 (e + 4) 1024).setU32 e inodeNum :=
    congrArg (Disk.mk d.numBlocks) (putBytes_comm (by simp) _)
  simp only [fillFirstEntry, fillEntry, hu32, hu16, hu8, List.take_length]

theorem fillFirstEntry_tiled (d : Disk) (hname : name.length < 256) (hinode : inodeNum < 2 ^ 32)
    (hpos : inodeNum ≠ 0) (htype : type < 256) :
    let d' := fillFirstEntry d a inodeNum name.length name type
    SameBut (fun x => a ≤ x ∧ x < a + 1024) d d' ∧ Tiled d'.byte (a + 1024) a [a] ∧
      filesIn d'.byte [a] = [⟨name, inodeNum, type⟩] ∧ live d'.byte a = true ∧
      recLen d'.byte a = 1024 ∧ nameLen d'.byte a = name.length := by
  intro d'
  have hd' : d' = fillEntry (d.setU16 (a + 4) 1024) a name.length inodeNum name type :=
    fillFirstEntry_eq d a inodeNum type name
  have hsame := fillEntry_sameBut (d.setU16 (a + 4) 1024) a inodeNum type name
  obtain ⟨hlen, hentry, hrec⟩ :=
    fillEntry_entry (d := d.setU16 (a + 4) 1024) (e := a) hname hinode htype
  rw [← hd'] at hsame hlen hentry hrec
  have hrec' : recLen d'.byte a = 1024 := hrec.trans (get16_putBytes_same _ _ _)
  have hroom := room_bounds name.length
  have hlive : live d'.byte a = true := by
    have hnum : entryInode d'.byte a = inodeNum := congrArg DirEntry.inode hentry
    simp [live, hnum, hpos]
  refine ⟨((sameBut_copy d (a + 4) (bytes16 1024)).mono ?_).trans (hsame.mono ?_), ?_, ?_, hlive,
    hrec', hlen⟩
  · intro x hx
    unfold Within at hx
    rw [length_bytes16] at hx
    omega
  · intro x hx
    unfold Filled at hx
    omega
  · refine .cons ⟨?_, ?_⟩ ?_ ?_
    · rw [hrec']
    · rw [hrec', hlen]
      omega
    · rw [hrec']
    · rw [hrec']
      exact .nil
  · rw [filesIn_cons, hlive, if_pos rfl, hentry]
    rfl

/-- The entries `.` and `..`. -/
def dotEntries (n p : ℕ) : List DirEntry := [⟨[dot], n, ext2FtDir⟩, ⟨[dot, dot], p, ext2FtDir⟩]

theorem dotEntries_tiled (hptr : blockPtr d b = .ok a)
    (hn : n < 2 ^ 32) (hnpos : n ≠ 0) (hp : p < 2 ^ 32) (hppos : p ≠ 0) :
    ∃ d' es, allocateSpaceInBlock (fillFirstEntry d a n 1 [dot] ext2FtDir) 2 b p [dot, dot]
        ext2FtDir = .ok (true, d') ∧
      SameBut (fun x => a ≤ x ∧ x < a + 1024) d d' ∧ Tiled d'.byte (a + 1024) a es ∧
      (filesIn d'.byte es).Perm (dotEntries n p) := by
  have hfirst := fillFirstEntry_tiled (a := a) d (show [dot].length < 256 by decide) hn hnpos
    (show ext2FtDir < 256 by decide)
  rw [List.length_singleton] at hfirst
  set d₁ := fillFirstEntry d a n 1 [dot] ext2FtDir with hd₁
  obtain ⟨hsame, htiled, hfiles, hlive, hrec, hlen⟩ := hfirst
  have hreusable : [a].find? (reusable d₁.byte) = none := by
    cases htiled with
    | cons hwf _ _ =>
        rw [List.find?_singleton, hwf.reusable_eq, hlive]
        rfl
  have htakes : takes d₁.byte 2 [a] = true := by
    rw [takes, hreusable]
    simp only [List.getLast?_singleton, hrec, hlen]
    decide
  have hfits : FitsIn d₁.byte 2 [a] := by
    rw [FitsIn, hreusable]
    simp only [List.getLast?_singleton, hrec, hlen]
    decide
  have hput := allocateSpaceInBlock_eq ((hsame.blockPtr_eq b).trans hptr) htiled
    (show [dot, dot].length < 256 by decide) hp hppos
    (show ext2FtDir < 256 by decide)
  rw [if_pos (show takes d₁.byte [dot, dot].length [a] = true from htakes)] at hput
  obtain ⟨d', hput, hsame', es, htiled', hadds⟩ := hput hfits
  refine ⟨d', es, hput, hsame.trans hsame', htiled', ?_⟩
  rw [hfiles] at hadds
  exact hadds.perm.trans (List.Perm.swap _ _ _)

/-- Directory `p` has a new subdirectory `n`, and what was found before is still
found. -/
structure View.MadeDirectory (L : Layout) (v w : View) (p n : ℕ) (name : CString) : Prop where
  consistent : w.Consistent L
  fresh : ¬ v.Live L n
  live : w.Live L n
  isDirectory : (w.inode n).IsDirectory
  linksCount : (w.inode n).linksCount = 2
  block : ∃ b, w.data n = [b]
  files : (w.files n).Perm (dotEntries n p)
  parent : Adds ⟨name, n, ext2FtDir⟩ (v.files p) (w.files p)
  parentLinks : (w.inode p).linksCount = (v.inode p).linksCount + 1
  parentDirectory : (w.inode p).IsDirectory ∧ (w.inode p).DirectOnly
  lookup : w.lookup p name = some ⟨name, n, ext2FtDir⟩
  still : v.Extends L w

/-- A new directory, one link more for `p`, and an entry in `p`. -/
theorem View.Creates.madeDirectory {v₁ : View} {entries : List DirEntry}
    (h : View.Creates L v v₁ n b entries) (hc : v.Consistent L) (hp : v.Live L p)
    (hdir : (v.inode p).IsDirectory) (hperm : entries.Perm (dotEntries n p))
    (hlinks : (v₁.inode n).linksCount = 2) (hnone : v.lookup p name = none)
    (henter : View.Enters L (v₁.setInode p
      { v₁.inode p with linksCount := (v.inode p).linksCount + 1 }) w p ⟨name, n, ext2FtDir⟩)
    (hparent : (w.inode p).linksCount = (v.inode p).linksCount + 1) :
    v.MadeDirectory L w p n name := by
  set u := v₁.setInode p { v₁.inode p with linksCount := (v.inode p).linksCount + 1 } with hu
  have hnp : n ≠ p := fun heq => h.fresh (heq ▸ hp)
  have hc₁ := h.consistent
  have hcu : u.Consistent L := hc₁.setLinks p _
  have hkeeps : ∀ k, v₁.Keeps u k := View.keeps_setLinks v₁ p _
  have hp₁ : v₁.Live L p := (h.live p).mpr (.inr hp)
  have hn₁ : v₁.Live L n := (h.live n).mpr (.inl rfl)
  have hdir₁ := (h.keeps p hp).isDirectory_iff.mpr hdir
  have hfiles_p : u.files p = v.files p :=
    ((hkeeps p).files_eq hc₁ hp₁ hdir₁).2.trans ((h.keeps p hp).files_eq hc hp hdir).2
  have hfiles_n : u.files n = entries :=
    ((hkeeps n).files_eq hc₁ hn₁ h.isDirectory).2.trans h.files_eq
  have hkeeps_n : u.Keeps w n := henter.keeps n hnp hn₁
  have hinode_n : w.inode n = v₁.inode n := by
    rw [henter.inode n hnp, View.inode_setInode_of_ne hnp]
  have hdir_u : (u.inode n).IsDirectory := (hkeeps n).isDirectory_iff.mpr h.isDirectory
  have hnone_u : u.lookup p name = none := by rwa [View.lookup, hfiles_p]
  refine ⟨henter.consistent, h.fresh, (henter.live n).mpr hn₁, ?_, ?_, ⟨b, ?_⟩, ?_, ?_, hparent,
    ⟨henter.isDirectory, henter.directOnly⟩, henter.lookup_eq hnone_u, ?_⟩
  · rw [hinode_n]
    exact h.isDirectory
  · rw [hinode_n, hlinks]
  · rw [hkeeps_n.data_eq, (hkeeps n).data_eq, h.data_eq]
  · rw [(hkeeps_n.files_eq hcu hn₁ hdir_u).2, hfiles_n]
    exact hperm
  · rw [← hfiles_p]
    exact henter.adds
  · have hstill : v₁.Extends L u := hc₁.extends_of_keeps_all fun k _ => hkeeps k
    exact ((h.extends hc).trans hstill fun k hk => (h.live k).mpr (.inr hk)).trans
      (henter.extends hcu hnone_u) fun k hk => (h.live k).mpr (.inr hk)

namespace Layout

theorem Shows.fillFirstEntry (h : L.Shows d v) (hb : L.IsPlain b) (hname : name.length < 256)
    (hn : L.IsInode n) (htype : type < 256) :
    ∃ w, L.Shows (fillFirstEntry d (1024 * b) n name.length name type) w ∧
      v.Rewrites w b [⟨name, n, type⟩] := by
  obtain ⟨hsame, htiled, hfiles, -⟩ :=
    fillFirstEntry_tiled (a := 1024 * b) d hname hn.bounds.2 hn.bounds.1 htype
  rw [← hfiles]
  exact h.rewrites hb hsame htiled

theorem Shows.makeDirectoryBlock (h : L.Shows d v) (hn : L.IsInode n) (hp : L.IsInode p)
    (hb : b ∈ v.clear L .block) (hplain : L.IsPlain b) :
    ∃ d' w entries, makeDirectoryBlock d n (L.inodeAddress n) p b = .ok d' ∧ L.Shows d' w ∧
      (v.attach n 0 b).Rewrites w b entries ∧ entries.Perm (dotEntries n p) := by
  obtain ⟨d₁, hmark, -, h₂⟩ := h.attach hn (show 0 < totalBlockCount by decide) hb
  obtain ⟨d', es, hput, hsame, htiled, hperm⟩ :=
    dotEntries_tiled (n := n) (p := p) (h₂.blockPtr_eq hplain.lt) hn.bounds.2 hn.bounds.1
      hp.bounds.2 hp.bounds.1
  obtain ⟨w, hw, hrw⟩ := h₂.rewrites hplain hsame htiled
  refine ⟨d', w, _, ?_, hw, hrw, hperm⟩
  rw [Ext2.makeDirectoryBlock, hmark]
  simp only [bind, Except.bind]
  rw [h₂.blockPtr_eq hplain.lt]
  simp only [hput]

theorem Shows.growParent (h : L.Shows d v) (hc : v.Consistent L) (hp : v.Live L p)
    (hdir : (v.inode p).IsDirectory) (hdirect : (v.inode p).DirectOnly)
    (hname : name.length < 256) (hzero : ∃ i < directBlockCount, (v.inode p).block i = 0)
    (hspare : 1 ≤ (v.clear L .block).length) (hn : v.Live L n) :
    ∃ d' w, growParent d (L.inodeAddress p) n name = .ok (0, d') ∧ L.Shows d' w ∧
      View.Enters L v w p ⟨name, n, ext2FtDir⟩ ∧
      (w.inode p).linksCount = (v.inode p).linksCount := by
  have hfree : findFreeBlock d ≠ 0 := fun hnone => by
    rw [h.findFreeBlock_eq_zero_iff.mp hnone] at hspare
    exact Nat.not_succ_le_zero 0 hspare
  obtain ⟨d₁, i, hmark, hslot, hi, hizero, hb, h₂⟩ := h.grow hp.1 hzero hfree
  obtain ⟨-, hplain, -⟩ := hc.free_block hb
  obtain ⟨w, hw, hrw⟩ := h₂.fillFirstEntry hplain hname hn.1 (show ext2FtDir < 256 by decide)
  refine ⟨_, w, ?_, hw, ?_, ?_⟩
  · rw [Ext2.growParent, hmark]
    simp only [bind, Except.bind, hslot]
    rw [h₂.blockPtr_eq hplain.lt]
  · exact hc.enters_block hp hdir hdirect hi hizero hb hrw hn
  · have hinode : w.inode = (v.attach p i (findFreeBlock d)).inode := by rw [hrw.eq]
    rw [hinode, View.attach, View.inode_setInode]

/-- The end of `main`: the directory above gets the entry. -/
theorem Shows.enter (h : L.Shows d v) (hc : v.Consistent L) (hp : v.Live L p)
    (hdir : (v.inode p).IsDirectory) (hdirect : (v.inode p).DirectOnly)
    (hname : name.length < 256) (hroom : v.HasRoom L p name.length 1) (hn : v.Live L n) :
    ∃ d' w, (do
        let (found, d) ← allocateSpace d (L.inodeAddress p) name.length n name ext2FtDir
          (List.range totalBlockCount)
        if found then .ok (0, d) else Ext2.growParent d (L.inodeAddress p) n name) = .ok (0, d') ∧
      L.Shows d' w ∧ View.Enters L v w p ⟨name, n, ext2FtDir⟩ ∧
      (w.inode p).linksCount = (v.inode p).linksCount := by
  have hput := h.enter_place hc hp hdir hdirect hname hn (show ext2FtDir < 256 by decide)
  unfold View.HasRoom at hroom
  cases hfind : (v.data p).find? (v.takes name.length) with
  | some b =>
      rw [hfind] at hput hroom
      obtain ⟨d', w, entries, hput, hw, hrw, hadds⟩ := hput hroom
      have hb := List.mem_of_find?_eq_some hfind
      refine ⟨d', w, ?_, hw, hc.enters hp hdir hdirect hb hrw hadds hn, by rw [hrw.eq]⟩
      rw [hput]
      rfl
  | none =>
      rw [hfind] at hput hroom
      obtain ⟨d', w, hgrow, hw⟩ := h.growParent hc hp hdir hdirect hname hroom.1 hroom.2 hn
      refine ⟨d', w, ?_, hw⟩
      rw [hput]
      exact hgrow

/-- The inode of the new directory, as it is before it gets a block. -/
theorem Shows.newInode (h : L.Shows d v) (hn : L.IsInode n) (now : ℕ) :
    L.Shows ((Ext2.initInode d (L.inodeAddress n) ext2SIfdir 1024 now).setU16
        (iLinksCount (L.inodeAddress n)) 2)
      (v.setInode n ⟨ext2SIfdir, 1024, 0, 2, 0, fun _ => 0⟩) := by
  have hlinks := (h.initInode hn ext2SIfdir 1024 now).setLinksCount hn 2
  rwa [View.setInode_setInode, View.inode_setInode] at hlinks

/-- Without a free inode or a free block nothing is left behind. -/
theorem Shows.makeDirectory_lacking (h : L.Shows d v) (hc : v.Consistent L) {now : ℕ}
    (hlack : findFreeInode d = 0 ∨ v.clear L .block = []) :
    ∃ code d', makeDirectory d p name now = .ok (code, d') ∧ code ≠ 0 ∧ Unchanged L d' v := by
  unfold Ext2.makeDirectory
  by_cases hzero : findFreeInode d = 0
  · rw [if_pos hzero]
    exact ⟨_, _, rfl, by decide, v, h, hc.untouched_self⟩
  obtain ⟨hn, -⟩ := h.findFreeInode_mem hzero
  obtain ⟨d₁, hmark, h₁, hptr⟩ := h.takeInode hn
  have h₂ := h₁.newInode (isInode_of_clear hn) now
  have hfull : findFreeBlock ((Ext2.initInode d₁ (L.inodeAddress (findFreeInode d)) ext2SIfdir 1024
      now).setU16 (iLinksCount (L.inodeAddress (findFreeInode d))) 2) = 0 := by
    rw [h₂.findFreeBlock_eq_zero_iff, View.clear_setInode, View.clear_mark_of_ne (by decide)]
    exact hlack.resolve_left hzero
  obtain ⟨d', hundo, h'⟩ := h.giveBack h₂ hn
  have hfresh : ¬ v.Live L (findFreeInode d) := fun hlive =>
    Bool.false_ne_true ((View.mem_clear.mp hn).2.2.symm.trans hlive.2)
  refine ⟨enoent, d', ?_, by decide, _, h', hc.untouched_setInode hfresh _⟩
  simp only [bind, Except.bind, if_neg hzero, hmark, hptr, if_pos hfull, hundo]

/-- The new directory is there, and the directory above has one link more. -/
theorem Shows.beginDirectory (h : L.Shows d v) (hc : v.Consistent L) (hp : v.Live L p)
    (hzero : findFreeInode d ≠ 0) (hblock : v.clear L .block ≠ []) (name : CString) (now : ℕ) :
    ∃ d₁ v₁ n b entries, View.Creates L v v₁ n b entries ∧ b ∈ v.clear L .block ∧
      entries.Perm (dotEntries n p) ∧ (v₁.inode n).linksCount = 2 ∧
      L.Shows d₁ (v₁.setInode p
        { v₁.inode p with linksCount := ((v.inode p).linksCount + 1) % 2 ^ 16 }) ∧
      makeDirectory d p name now = (do
        let (found, d) ← allocateSpace d₁ (L.inodeAddress p) name.length n name ext2FtDir
          (List.range totalBlockCount)
        if found then .ok (0, d) else Ext2.growParent d (L.inodeAddress p) n name) := by
  obtain ⟨hn, hgood⟩ := h.findFreeInode_mem hzero
  set n := findFreeInode d with hfresh
  obtain ⟨d₁, hmark, h₁, hptr⟩ := h.takeInode hn
  have h₂ := h₁.newInode (isInode_of_clear hn) now
  set d₂ := (Ext2.initInode d₁ (L.inodeAddress n) ext2SIfdir 1024 now).setU16
    (iLinksCount (L.inodeAddress n)) 2 with hd₂
  have hclear : ((v.mark .inode n).setInode n ⟨ext2SIfdir, 1024, 0, 2, 0, fun _ => 0⟩).clear L
      .block = v.clear L .block := by
    rw [View.clear_setInode, View.clear_mark_of_ne (by decide)]
  have hfull : findFreeBlock d₂ ≠ 0 := fun hnone =>
    hblock (hclear ▸ h₂.findFreeBlock_eq_zero_iff.mp hnone)
  have hb := h₂.findFreeBlock_mem hfull
  set b := findFreeBlock d₂ with hfreeBlock
  have hb' : b ∈ v.clear L .block := hclear ▸ hb
  obtain ⟨d₃, v₁, entries, hmake, h₃, hrw, hperm⟩ :=
    h₂.makeDirectoryBlock (isInode_of_clear hn) hp.1 hb (hc.free_block hb').2.1
  rw [View.attach, View.inode_setInode, View.mark_setInode, View.setInode_setInode] at hrw
  have hcreates : View.Creates L v v₁ n b entries := by
    refine hc.creates hn hgood hb' ?_ ?_ hrw ?_
    · exact show ext2SIfdir / 4096 = 4 by decide
    · rfl
    · intro e he
      rw [hperm.mem_iff, dotEntries] at he
      simp only [List.mem_cons, List.not_mem_nil, or_false] at he
      rcases he with rfl | rfl
      · exact .inl rfl
      · exact .inr hp
  have hinode : v₁.inode p = v.inode p := hcreates.inode p fun heq => hcreates.fresh (heq ▸ hp)
  have hlinks₁ : (v₁.inode n).linksCount = 2 := by
    rw [hrw.eq]
    simp only [View.inode_setInode]
  refine ⟨_, v₁, n, b, entries, hcreates, hb', hperm, hlinks₁,
    h₃.setLinksCount hp.1 ((v.inode p).linksCount + 1), ?_⟩
  unfold Ext2.makeDirectory
  simp only [bind, Except.bind, ← hfresh, if_neg hzero, hmark, hptr, ← hd₂, ← hfreeBlock,
    if_neg hfull, hmake, h₃.inodePtr_eq hp.1, h₃.iLinksCount_eq hp.1, hinode]

theorem Shows.makeDirectory (h : L.Shows d v) (hc : v.Consistent L) (hp : v.Live L p)
    (hdir : (v.inode p).IsDirectory) (hdirect : (v.inode p).DirectOnly)
    (hname : name.length < 256) (hroom : v.HasRoom L p name.length 2)
    (hlinks : (v.inode p).linksCount < 65535) (hnone : v.lookup p name = none) {now : ℕ}
    (hret : makeDirectory d p name now = .ok (0, d')) :
    ∃ w n, L.Shows d' w ∧ v.MadeDirectory L w p n name := by
  have hlack : ¬ (findFreeInode d = 0 ∨ v.clear L .block = []) := by
    intro hlack
    obtain ⟨code, d'', hret', hcode, -⟩ :=
      h.makeDirectory_lacking hc hlack
    exact hcode (congrArg Prod.fst (Except.ok.inj (hret'.symm.trans hret)))
  rw [not_or] at hlack
  obtain ⟨d₁, v₁, n, b, entries, hcreates, hb, hperm, hlinks₁, h₁, hmake⟩ :=
    h.beginDirectory hc hp hlack.1 hlack.2 name now
  rw [hmake] at hret
  rw [Nat.mod_eq_of_lt (by omega)] at h₁
  have hp₁ : v₁.Live L p := (hcreates.live p).mpr (.inr hp)
  have hinode : v₁.inode p = v.inode p := hcreates.inode p fun heq => hcreates.fresh (heq ▸ hp)
  -- the directory above
  set u := v₁.setInode p { v₁.inode p with linksCount := (v.inode p).linksCount + 1 } with hu
  have hkeeps : v₁.Keeps u p := View.keeps_setLinks v₁ p _ p
  have hdir₁ := (hcreates.keeps p hp).isDirectory_iff.mpr hdir
  have hdirect_u : (u.inode p).DirectOnly := by
    rw [hu, View.inode_setInode, hinode]
    exact hdirect
  have hroom₁ : v₁.HasRoom L p name.length 1 := by
    refine (hcreates.keeps p hp).hasRoom hc hp hdir (fun hle => ?_) hroom
    have hlen := View.length_filter_ne (View.nodup_clear L v .block) hb
    rw [hcreates.clear]
    omega
  have hroom_u : u.HasRoom L p name.length 1 :=
    hkeeps.hasRoom hcreates.consistent hp₁ hdir₁ id hroom₁
  obtain ⟨d₂, w, hput, h₂, henter, hlinks_w⟩ :=
    h₁.enter (hcreates.consistent.setLinks p _) hp₁ (hkeeps.isDirectory_iff.mpr hdir₁) hdirect_u
      hname hroom_u ((hcreates.live n).mpr (.inl rfl))
  obtain rfl : d₂ = d' := congrArg Prod.snd (Except.ok.inj (hput.symm.trans hret))
  refine ⟨w, n, h₂, hcreates.madeDirectory hc hp hdir hperm hlinks₁ hnone henter ?_⟩
  rw [hlinks_w, View.inode_setInode]

end Layout

/-! ## The path -/

/-- The new directory `n` under `path`, in directory `p`. -/
structure Visible (L : Layout) (v w : View) (d' : Disk) (path : CString) (p n : ℕ)
    (name : CString) : Prop where
  place : ∃ names, tokens path = names ++ [name] ∧ v.reach rootInodeNumber names = some p
  found : ∃ entry, findDirEntry d' path = .ok (some entry) ∧
    dirEntry d'.byte entry = ⟨name, n, ext2FtDir⟩
  fresh : ¬ v.Live L n
  isDirectory : (w.inode n).IsDirectory
  linksCount : (w.inode n).linksCount = 2
  block : ∃ b, w.data n = [b]
  files : (w.files n).Perm (dotEntries n p)
  parent : Adds ⟨name, n, ext2FtDir⟩ (v.files p) (w.files p)
  parentLinks : (w.inode p).linksCount = (v.inode p).linksCount + 1
  resolves : ∀ path k, v.reach rootInodeNumber (tokens path) = some k →
    w.reach rootInodeNumber (tokens path) = some k
  finds : ∀ path k, tokens path.tail ≠ [] → v.SearchPath rootInodeNumber (tokens path.tail) →
    v.reach rootInodeNumber (tokens path.tail) = some k →
    ∃ entry, findDirEntry d' path = .ok (some entry) ∧ entryInode d'.byte entry = k

/-- What `ext2_mkdir` takes for granted about the path, the directories along it
and the place for the name. -/
structure Creatable (L : Layout) (v : View) (path : CString) : Prop where
  short : path.length < 2 ^ 32
  noSlash : path.getLast? ≠ some slash
  search : v.SearchPath rootInodeNumber (tokens path)
  room : ∀ names name p, tokens path = names ++ [name] → v.reach rootInodeNumber names = some p →
    name.length < 256 ∧ (v.inode p).linksCount < 65535 ∧ v.HasRoom L p name.length 2

theorem View.MadeDirectory.visible {dir : CString} (hmade : v.MadeDirectory L w p n name)
    (h : L.Shows d' w) (hc : v.Consistent L) (hname : slash ∉ name) (hne : name ≠ [])
    (habsolute : (dir ++ slash :: name).head? = some slash)
    (hsearch : v.SearchPath rootInodeNumber (tokens dir ++ [name]))
    (hreach : v.reach rootInodeNumber (tokens dir) = some p) :
    Visible L v w d' (dir ++ slash :: name) p n name := by
  have htokens : tokens (dir ++ slash :: name) = tokens dir ++ [name] := tokens_split hname hne
  have htail := (tokens_tail habsolute).trans htokens
  refine ⟨⟨tokens dir, htokens, hreach⟩, ?_, hmade.fresh, hmade.isDirectory, hmade.linksCount,
    hmade.block, hmade.files, hmade.parent, hmade.parentLinks, ?_, ?_⟩
  · obtain ⟨r, hfind, hr⟩ := h.findDirEntry_still hc hmade.consistent hmade.still hname hne
      habsolute hsearch hreach hmade.parentDirectory.1 hmade.parentDirectory.2
    rw [hmade.lookup] at hr
    obtain ⟨entry, rfl, hentry⟩ := Option.map_eq_some_iff.mp hr
    exact ⟨entry, hfind, hentry⟩
  · exact fun path k hpath => hmade.still.reach hc hc.root.1 hpath
  · intro path k hne hpath hk
    exact h.finds hmade.consistent hne (hmade.still.searchPath hc hc.root.1 hk hpath)
      (hmade.still.reach hc hc.root.1 hk)

theorem mkdir_visible {path : CString} {now : ℕ} (h : L.Shows d v) (hc : v.Consistent L)
    (hcreatable : Creatable L v path) (hret : ext2Mkdir d path now = .ok (0, d')) :
    ∃ w p n name, L.Shows d' w ∧ Visible L v w d' path p n name := by
  unfold ext2Mkdir at hret
  by_cases habsolute : path.head? ≠ some slash
  · rw [if_pos habsolute] at hret
    exact absurd hret (by simp [einval])
  rw [if_neg habsolute] at hret
  rw [not_not] at habsolute
  obtain ⟨dir, name, rfl, hname, hne⟩ := exists_name habsolute hcreatable.noSlash
  have htokens : tokens (dir ++ slash :: name) = tokens dir ++ [name] := tokens_split hname hne
  have htail := (tokens_tail habsolute).trans htokens
  have hsearch := hcreatable.search
  rw [htokens] at hsearch
  have hshort := hcreatable.short
  rw [List.length_append, List.length_cons] at hshort
  obtain ⟨r, hfind, hr⟩ := h.findDirEntry_eq hc (dir ++ slash :: name) (by rwa [htail])
    (by rw [htail]; simp)
  rw [hfind] at hret
  simp only [bind, Except.bind] at hret
  cases r with
  | some entry => exact absurd hret (by simp [eexist])
  | none =>
      simp only at hret
      cases hparent : findParentInode d (dir ++ slash :: name) with
      | error f =>
          rw [hparent] at hret
          exact absurd hret (by simp)
      | ok p =>
          rw [hparent, findFileNameByPath_eq hname hne (by omega)] at hret
          simp only at hret
          by_cases hzero : p = 0
          · rw [if_pos hzero] at hret
            exact absurd hret (by simp [enoent])
          have hreach := h.reach_of_findParentInode hc hname hne habsolute hsearch hparent hzero
          obtain ⟨hlen, hlinks, hroom⟩ := hcreatable.room _ _ _ htokens hreach
          rw [if_neg hzero, if_neg (by omega)] at hret
          obtain ⟨hdir, hsearchable⟩ := hsearch.directory hreach
          have hnone : v.lookup p name = none := by
            rw [htail, View.walk_concat, hreach] at hr
            change none = if _ then _ else _ at hr
            rw [if_pos hdir] at hr
            exact hr.symm
          obtain ⟨w, n, hw, hmade⟩ := h.makeDirectory hc (hc.live_of_reach hc.root.1 hreach) hdir
            (View.directOnly_of_lookup hsearchable hnone) hlen hroom hlinks hnone hret
          exact ⟨w, p, n, name, hw, hmade.visible hw hc hname hne habsolute hsearch hreach⟩

theorem small_creatable : Creatable smallLayout smallView [slash, 0x61#8] := by
  have htokens : tokens [slash, 0x61#8] = [[0x61#8]] := by decide
  refine ⟨by decide, by decide, ?_, fun names name p hsplit hreach => ?_⟩
  · rw [htokens]
    refine ⟨by decide, .inl fun i hi hi' => ?_, fun _ _ => trivial⟩
    have hall : ∀ i < totalBlockCount, directBlockCount ≤ i →
        (smallView.inode rootInodeNumber).block i = 0 := by decide
    exact hall i hi' hi
  · rw [htokens] at hsplit
    obtain ⟨rfl, hname⟩ :=
      List.append_inj' (show [] ++ [[0x61#8]] = names ++ [name] from hsplit) rfl
    obtain rfl := List.singleton_inj.mp hname
    obtain rfl := Option.some.inj hreach
    have hfind : (smallView.data rootInodeNumber).find? (smallView.takes 1) = some 7 := by
      decide
    refine ⟨by decide, by decide, ?_⟩
    rw [View.HasRoom, List.length_singleton, hfind]
    decide

theorem mkdir_visible_small : ∃ d' w p n name,
    ext2Mkdir smallDisk [slash, 0x61#8] 0 = .ok (0, d') ∧ smallLayout.Shows d' w ∧
      Visible smallLayout smallView w d' [slash, 0x61#8] p n name := by
  obtain ⟨d', hret⟩ := exists_ok_of_map_fst
    (show (ext2Mkdir smallDisk [slash, 0x61#8] 0).map Prod.fst = .ok 0 by decide)
  obtain ⟨w, p, n, name, hw, hvisible⟩ :=
    mkdir_visible small_shows small_consistent small_creatable hret
  exact ⟨d', w, p, n, name, hret, hw, hvisible⟩

/-- The slash at the end of a path becomes a part of the name. -/
theorem mkdir_not_visible : ¬ ∀ (L : Layout) (d d' : Disk) (v : View) (path : CString) (now : ℕ),
    L.Shows d v → v.Consistent L → ext2Mkdir d path now = .ok (0, d') →
      ∃ w p n name, L.Shows d' w ∧ Visible L v w d' path p n name := by
  intro h
  obtain ⟨d', hret⟩ := exists_ok_of_map_fst
    (show (ext2Mkdir smallDisk [slash, 0x61#8, slash] 0).map Prod.fst = .ok 0 by decide)
  have hlost : ((ext2Mkdir smallDisk [slash, 0x61#8, slash] 0).bind fun r =>
      findDirEntry r.2 [slash, 0x61#8, slash]) = .ok none := by decide
  rw [hret] at hlost
  obtain ⟨w, p, n, name, -, hvisible⟩ := h _ _ _ _ _ _ small_shows small_consistent hret
  obtain ⟨entry, hfound, -⟩ := hvisible.found
  exact absurd (hlost.symm.trans hfound) (by simp)

end KernelProgramming.Ext2
