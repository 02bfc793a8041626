import KernelProgramming.Ext2.Ln
import KernelProgramming.Ext2.PathWalk
import KernelProgramming.Ext2.Rollback

/-!
# ln, when it fails

A hard link that cannot be entered gives back the link of its target only if
there is no free block, a symbolic link its inode and its block only if there
is no second free block.
-/

namespace KernelProgramming.Ext2

open ByteMemory

variable {L : Layout} {d d' : Disk} {v w : View} {symbolic : Bool} {b n code now depth : ℕ}
  {filePath destPath : CString} {site : LinkSite}

/-- The command gets past its checks, with these entries. -/
structure LnAccepts (d : Disk) (filePath destPath : CString) (site : LinkSite) : Prop where
  absolute : filePath.head? = some slash ∧ destPath.head? = some slash
  notRoot : destPath.length ≠ 1
  admits : site.Admits d filePath destPath

theorem findLinkSite_inl (h : findLinkSite d filePath destPath = .ok (.inl code)) : code ≠ 0 := by
  obtain ⟨r, -, h⟩ := Runs.bind_eq_ok_iff.mp h
  cases r with
  | none =>
      obtain rfl := Sum.inl.inj (Except.ok.inj h)
      decide
  | some file =>
      obtain ⟨dir, -, h⟩ := Runs.bind_eq_ok_iff.mp h
      split_ifs at h
      iterate 3
        obtain rfl := Sum.inl.inj (Except.ok.inj h)
        decide
      obtain ⟨-, -, h⟩ := Runs.bind_eq_ok_iff.mp h
      obtain ⟨r, -, h⟩ := Runs.bind_eq_ok_iff.mp h
      cases r with
      | some entry =>
          obtain rfl := Sum.inl.inj (Except.ok.inj h)
          decide
      | none =>
          simp only at h
          split_ifs at h
          · obtain rfl := Sum.inl.inj (Except.ok.inj h)
            decide
          · exact absurd (Except.ok.inj h) (by simp)

theorem ext2Ln_cases (hret : ext2Ln d symbolic filePath destPath now depth = .ok (code, d')) :
    (∃ site site', LnAccepts d filePath destPath site ∧
      site.afterCopy filePath destPath = .ok site' ∧
      (if argcNotFour symbolic filePath destPath then symbolicLink d site' filePath now
        else hardLink d site' filePath depth) = .ok (code, d')) ∨
      (∀ site, ¬ LnAccepts d filePath destPath site) ∧ d' = d ∧ code ≠ 0 := by
  unfold ext2Ln at hret
  by_cases habsolute : filePath.head? ≠ some slash ∨ destPath.head? ≠ some slash
  · rw [if_pos habsolute] at hret
    obtain ⟨rfl, rfl⟩ := Prod.mk.inj (Except.ok.inj hret)
    refine .inr ⟨fun site hsite => ?_, rfl, by decide⟩
    rcases habsolute with hne | hne
    · exact hne hsite.absolute.1
    · exact hne hsite.absolute.2
  rw [if_neg habsolute] at hret
  rw [not_or, not_not, not_not] at habsolute
  by_cases hroot : destPath.length = 1
  · rw [if_pos hroot] at hret
    obtain ⟨rfl, rfl⟩ := Prod.mk.inj (Except.ok.inj hret)
    exact .inr ⟨fun site hsite => hsite.notRoot hroot, rfl, by decide⟩
  rw [if_neg hroot] at hret
  obtain ⟨r, hfind, hret⟩ := Runs.bind_eq_ok_iff.mp hret
  cases r with
  | inl refused =>
      obtain ⟨rfl, rfl⟩ := Prod.mk.inj (Except.ok.inj hret)
      refine .inr ⟨fun site hsite => ?_, rfl, findLinkSite_inl hfind⟩
      exact absurd (hfind.symm.trans (findLinkSite_eq_inr_iff.mpr hsite.admits)) (by simp)
  | inr site =>
      obtain ⟨site', hcopy, hret⟩ := Runs.bind_eq_ok_iff.mp hret
      exact .inl ⟨site, site', ⟨habsolute, hroot, findLinkSite_eq_inr_iff.mp hfind⟩, hcopy, hret⟩

namespace Layout

/-! ## Hard links -/

/-- A failure is undone if it is for want of a block. -/
theorem Shows.hardLink_fails (h : L.Shows d v) (hc : v.Consistent L) (hn : L.IsInode n)
    (htarget : hardLinkTarget d site filePath depth = .ok (some (L.inodeAddress n)))
    (hret : hardLink d site filePath depth = .ok (code, d')) (hcode : code ≠ 0) :
    Unchanged L d' v ↔ v.clear L .block = [] := by
  obtain ⟨r, hr, hret⟩ := Runs.bind_eq_ok_iff.mp hret
  obtain rfl : some (L.inodeAddress n) = r := Except.ok.inj (htarget.symm.trans hr)
  obtain ⟨dirInode, -, hret⟩ := Runs.bind_eq_ok_iff.mp hret
  obtain ⟨⟨found, d₁⟩, hput, hret⟩ := Runs.bind_eq_ok_iff.mp hret
  cases found with
  | true => exact absurd (congrArg Prod.fst (Except.ok.inj hret)).symm hcode
  | false =>
      obtain rfl := allocateSpace_of_false hput
      have h₁ := h.setLinksCount hn (d.u16 (iLinksCount (L.inodeAddress n)) + 1)
      set d₁ := d.setU16 (iLinksCount (L.inodeAddress n))
        (d.u16 (iLinksCount (L.inodeAddress n)) + 1) with hd₁
      obtain ⟨d₂, hmark, hret⟩ := Runs.bind_eq_ok_iff.mp hret
      rw [← View.clear_setInode L v n _ .block, ← h₁.findFreeBlock_eq_zero_iff]
      by_cases hzero : findFreeBlock d₁ = 0
      · rw [if_pos hzero] at hret
        rw [hzero, updateBitmap, if_pos rfl] at hmark
        obtain rfl : d₁ = d₂ := Except.ok.inj hmark
        obtain rfl := congrArg Prod.snd (Except.ok.inj hret)
        have h₂ := h₁.setLinksCount hn (d₁.u16 (iLinksCount (L.inodeAddress n)) + (2 ^ 16 - 1))
        rw [View.setInode_setInode, View.inode_setInode] at h₂
        have hlt := h.linksCount_lt hn
        have hlinks : (d₁.u16 (iLinksCount (L.inodeAddress n)) + (2 ^ 16 - 1)) % 2 ^ 16 =
            (v.inode n).linksCount := by
          rw [h₁.iLinksCount_eq hn, View.inode_setInode, h.iLinksCount_eq hn]
          change (((v.inode n).linksCount + 1) % 2 ^ 16 + (2 ^ 16 - 1)) % 2 ^ 16 = _
          omega
        have hsame : v.setInode n { v.inode n with linksCount := (v.inode n).linksCount } = v := by
          exact View.ext rfl rfl rfl (Function.update_eq_self n v.inode) rfl
        rw [hlinks, hsame] at h₂
        exact iff_of_true ⟨v, h₂, hc.untouched_self⟩ hzero
      · rw [if_neg hzero] at hret
        obtain ⟨hpos, hle, -⟩ := View.mem_clear.mp (h₁.findFreeBlock_mem hzero)
        obtain ⟨d₂', hmark', h₂⟩ :=
          h₁.updateBitmap_true .block hpos (le_trans hle (L.count_le .block))
        obtain rfl : d₂ = d₂' := Except.ok.inj (hmark.symm.trans hmark')
        refine iff_of_false ?_ hzero
        cases hslot : freeSlot d₂ dirInode with
        | some i =>
            simp only [hslot] at hret
            obtain ⟨linkEntry, -, hret⟩ := Runs.bind_eq_ok_iff.mp hret
            exact absurd (congrArg Prod.fst (Except.ok.inj hret)).symm hcode
        | none =>
            simp only [hslot] at hret
            obtain rfl : d₂ = d' := congrArg Prod.snd (Except.ok.inj hret)
            rw [h₂.unchanged_iff]
            exact View.not_untouched (h₁.findFreeBlock_mem hzero) (View.bit_mark_self _ .block _)

/-! ## Symbolic links -/

/-- The inode of the link, before it has a block. -/
def linkInode (size : ℕ) : Inode := ⟨ext2SIflnk, size % 2 ^ 32, 0, 1, 0, fun _ => 0⟩

theorem Shows.storeLinkPath (h : L.Shows d v) (hn : L.IsInode n) (hb : L.IsPlain b)
    (hlen : filePath.length ≤ 1024) :
    ∃ d', storeLinkPath d (L.inodeAddress n) b filePath = .ok d' ∧
      L.Shows d' ({ v with byte := putBytes v.byte (1024 * b) filePath }.setInode n
        { v.inode n with
          block := Function.update (v.inode n).block 0 b
          blocks := ((v.inode n).blocks + 1) % 2 ^ 32 }) := by
  have hcopy := h.copy (a := 1024 * b) (s := filePath) fun x hx => by
    unfold Within at hx
    rwa [show x / 1024 = b by omega]
  have hslot := hcopy.setBlock hn (show 0 < totalBlockCount by decide) b
  have hlt : b < 2 ^ 32 := lt_of_lt_of_le hb.lt (le_trans L.blocksCount_le (by decide))
  rw [Nat.mod_eq_of_lt hlt] at hslot
  have hcount := hslot.setBlocks hn ((v.inode n).blocks + 1)
  rw [View.setInode_setInode, View.inode_setInode] at hcount
  refine ⟨_, ?_, hcount⟩
  simp only [Ext2.storeLinkPath, bind, Except.bind, h.blockPtr_eq hb.lt]
  rw [hslot.iBlocks_eq hn, View.inode_setInode]

end Layout

namespace View

/-- The inode is filled in, the path goes into the block. -/
theorem takes_link (v : View) (n b : ℕ) (x y : Inode) {s : List Byte} (hlen : s.length ≤ 1024) :
    v.Takes ({ ((v.mark .inode n).setInode n x).mark .block b with
      byte := putBytes v.byte (1024 * b) s }.setInode n y) n b := by
  refine ⟨?_, fun k hk => ?_, fun c hcb i hi => ?_⟩
  · rw [mark_setInode]
    generalize (v.mark .inode n).mark .block b = u
    rfl
  · rw [inode_setInode_of_ne hk]
    exact inode_setInode_of_ne hk v x
  · exact putBytes_of_disjoint (by omega) v.byte

theorem content_link (v : View) (n b : ℕ) (x : Inode) (s : List Byte) :
    getBytes ({ v with byte := putBytes v.byte (1024 * b) s }.setInode n x).byte (1024 * b)
      s.length = s :=
  getBytes_putBytes_same v.byte (1024 * b) s

theorem Takes.bit_inode (h : v.Takes w n b) : w.bit .inode (n - 1) = true := by
  rw [h.bit_eq]
  exact bit_mark_of_bit (s := .block) (bit_mark_self v .inode n) b

theorem Takes.length_clear (h : v.Takes w n b) (hb : b ∈ v.clear L .block) :
    (w.clear L .block).length + 1 = (v.clear L .block).length := by
  rw [h.clear hb]
  exact length_filter_ne (nodup_clear L v .block) hb

/-- Marking both as free again restores the bitmaps and the counters. -/
theorem Takes.untouched (h : v.Takes w n b) (hc : v.Consistent L) (hn : n ∈ v.clear L .inode)
    (hb : b ∈ v.clear L .block) (hlt : ∀ t, v.free t < 2 ^ 32 ∧ v.groupFree t < 2 ^ 16) :
    v.Untouched L ((w.release .block b).release .inode n) := by
  obtain ⟨hfree, hgroup⟩ := v.counters_mark_of_ne (show BitmapType.block ≠ .inode by decide) n
  have hfirst : ((v.mark .inode n).mark .block b).release .block b = v.mark .inode n :=
    release_mark (mem_clear.mp hb).2.2 (hfree ▸ (hlt .block).1) (hgroup ▸ (hlt .block).2)
  have hsecond := release_mark (mem_clear.mp hn).2.2 (hlt .inode).1 (hlt .inode).2
  have hback : (w.release .block b).release .inode n =
      { v with inode := w.inode, byte := w.byte } := by
    rw [h.eq]
    change { (((v.mark .inode n).mark .block b).release .block b).release .inode n with
      inode := w.inode, byte := w.byte } = _
    rw [hfirst, hsecond]
  rw [hback]
  refine hc.untouched rfl rfl rfl (fun k hk => h.inode k ?_) fun c hc' hbit => h.same c ?_
  · rintro rfl
    exact Bool.false_ne_true ((mem_clear.mp hn).2.2.symm.trans hk.2)
  · rintro rfl
    exact Bool.false_ne_true ((mem_clear.mp hb).2.2.symm.trans hbit)

end View

namespace Layout

/-- The link could not be entered: its inode and its block are given back if
this is for want of another block. -/
theorem Shows.growSymbolicLink_fails (h : L.Shows d v) (hc : v.Consistent L)
    (hn : n ∈ v.clear L .inode) (hb : b ∈ v.clear L .block) {d₁ : Disk} (h₁ : L.Shows d₁ w)
    (htakes : v.Takes w n b) {dirInode : ℕ}
    (hret : Ext2.growSymbolicLink d₁ site dirInode n b = .ok (code, d')) (hcode : code ≠ 0) :
    Unchanged L d' v ↔ (v.clear L .block).length = 1 := by
  have hlength := htakes.length_clear hb
  by_cases hzero : findFreeBlock d₁ = 0
  · rw [Ext2.growSymbolicLink, if_pos hzero] at hret
    obtain ⟨hbpos, hble, -⟩ := View.mem_clear.mp hb
    obtain ⟨hnpos, hnle, -⟩ := View.mem_clear.mp hn
    obtain ⟨d₂, hblock, h₂⟩ :=
      h₁.updateBitmap_false .block hbpos (le_trans hble (L.count_le .block))
    obtain ⟨d₃, hfree, h₃⟩ :=
      h₂.updateBitmap_false .inode hnpos (le_trans hnle (L.count_le .inode))
    simp only [bind, Except.bind, hblock, hfree] at hret
    obtain rfl : d₃ = d' := congrArg Prod.snd (Except.ok.inj hret)
    rw [h₁.findFreeBlock_eq_zero_iff, ← List.length_eq_zero_iff] at hzero
    exact iff_of_true ⟨_, h₃, htakes.untouched hc hn hb h.counters_lt⟩ (by omega)
  · have hnonempty : (w.clear L .block).length ≠ 0 := fun hlen =>
      hzero (h₁.findFreeBlock_eq_zero_iff.mpr (List.length_eq_zero_iff.mp hlen))
    refine iff_of_false ?_ (by omega)
    rw [Ext2.growSymbolicLink, if_neg hzero] at hret
    obtain ⟨hpos, hle, -⟩ := View.mem_clear.mp (h₁.findFreeBlock_mem hzero)
    obtain ⟨d₂, hmark, h₂⟩ := h₁.updateBitmap_true .block hpos (le_trans hle (L.count_le .block))
    simp only [bind, Except.bind, hmark] at hret
    cases hslot : freeSlot d₂ dirInode with
    | some i =>
        simp only [hslot] at hret
        obtain ⟨linkEntry, -, hret⟩ := Runs.bind_eq_ok_iff.mp hret
        exact absurd (congrArg Prod.fst (Except.ok.inj hret)).symm hcode
    | none =>
        simp only [hslot] at hret
        obtain rfl : d₂ = d' := congrArg Prod.snd (Except.ok.inj hret)
        rw [h₂.unchanged_iff]
        exact View.not_untouched hn (View.bit_mark_of_bit htakes.bit_inode _)

/-- The link has its inode and its block, which holds the path. -/
structure TakesLink (L : Layout) (v : View) (d₁ : Disk) (u : View) (filePath : CString)
    (n b : ℕ) : Prop where
  freeInode : n ∈ v.clear L .inode
  good : ext2GoodOldFirstIno < n
  freeBlock : b ∈ v.clear L .block
  shows : L.Shows d₁ u
  takes : v.Takes u n b
  inode : u.inode n =
    ⟨ext2SIflnk, filePath.length % 2 ^ 32, 0, 1, 1, Function.update (fun _ => 0) 0 b⟩
  content : getBytes u.byte (1024 * b) filePath.length = filePath

theorem Shows.symbolicLink_cases (h : L.Shows d v) (hc : v.Consistent L)
    (hret : Ext2.symbolicLink d site filePath now = .ok (code, d')) :
    (v.Exhausted L ∧ code ≠ 0 ∧ Unchanged L d' v) ∨
      ¬ v.Exhausted L ∧ ((1024 < filePath.length ∧ code ≠ 0 ∧ ¬ Unchanged L d' v) ∨
        filePath.length ≤ 1024 ∧ ∃ d₁ u n b, TakesLink L v d₁ u filePath n b ∧ (do
          let dirInode ← follow d₁ (symbolicLinkDir d site.dir)
          let (found, d) ← allocateSpace d₁ dirInode site.filename.length n site.filename
            ext2FtSymlink (List.range totalBlockCount)
          if found then .ok (0, d) else Ext2.growSymbolicLink d site dirInode n b) =
            .ok (code, d')) := by
  rw [h.exhausted_iff]
  by_cases hzero : findFreeInode d = 0
  · rw [Ext2.symbolicLink, if_pos hzero] at hret
    obtain ⟨rfl, rfl⟩ := Prod.mk.inj (Except.ok.inj hret)
    exact .inl ⟨.inl hzero, by decide, v, h, hc.untouched_self⟩
  rw [Ext2.symbolicLink, if_neg hzero] at hret
  obtain ⟨hn, hgood⟩ := h.findFreeInode_mem hzero
  set n := findFreeInode d with hfresh
  obtain ⟨d₁, hmark, h₁, hptr⟩ := h.takeInode hn
  have h₂ := h₁.initInode (isInode_of_clear hn) ext2SIflnk filePath.length now
  simp only [bind, Except.bind, hmark, hptr] at hret
  set d₂ := Ext2.initInode d₁ (L.inodeAddress n) ext2SIflnk filePath.length now with hd₂
  have hclear : ((v.mark .inode n).setInode n (linkInode filePath.length)).clear L .block =
      v.clear L .block := by
    rw [View.clear_setInode, View.clear_mark_of_ne (by decide)]
  by_cases hfull : findFreeBlock d₂ = 0
  · obtain ⟨d₃, hundo, h₃⟩ := h.giveBack h₂ hn
    simp only [if_pos hfull, hundo] at hret
    obtain ⟨rfl, rfl⟩ := Prod.mk.inj (Except.ok.inj hret)
    have hnone : v.clear L .block = [] := hclear ▸ h₂.findFreeBlock_eq_zero_iff.mp hfull
    have hlive : ¬ v.Live L n := fun hlive =>
      Bool.false_ne_true ((View.mem_clear.mp hn).2.2.symm.trans hlive.2)
    exact .inl ⟨.inr hnone, by decide, _, h₃, hc.untouched_setInode hlive _⟩
  have hb : findFreeBlock d₂ ∈ v.clear L .block := hclear ▸ h₂.findFreeBlock_mem hfull
  set b := findFreeBlock d₂ with hfreeBlock
  obtain ⟨hne, hplain, -⟩ := hc.free_block hb
  have havailable : ¬ (n = 0 ∨ v.clear L .block = []) :=
    not_or.mpr ⟨hzero, fun hnone => List.not_mem_nil (hnone ▸ hb)⟩
  refine .inr ⟨havailable, ?_⟩
  obtain ⟨d₃, hmark', h₃⟩ := h₂.updateBitmap_true .block hne
    (le_trans (View.mem_clear.mp hb).2.1 (L.count_le .block))
  simp only [if_neg hfull, hmark'] at hret
  by_cases hlong : 1024 < filePath.length
  · rw [Ext2.enterSymbolicLink, if_pos hlong] at hret
    obtain ⟨rfl, rfl⟩ := Prod.mk.inj (Except.ok.inj hret)
    refine .inl ⟨hlong, by decide, ?_⟩
    rw [h₃.unchanged_iff]
    exact View.not_untouched hn (View.bit_mark_of_bit (View.bit_mark_self v .inode n) b)
  · have hshort := Nat.le_of_not_gt hlong
    obtain ⟨d₄, hstore, h₄⟩ := h₃.storeLinkPath (isInode_of_clear hn) hplain hshort
    rw [Ext2.enterSymbolicLink, if_neg hlong] at hret
    obtain ⟨d₄', hstore', henter⟩ := Runs.bind_eq_ok_iff.mp hret
    obtain rfl : d₄ = d₄' := Except.ok.inj (hstore.symm.trans hstore')
    refine .inr ⟨hshort, d₄, _, n, b, ⟨hn, hgood, hb, h₄, v.takes_link n b _ _ hshort, ?_, ?_⟩,
      henter⟩
    · rw [View.inode_setInode, View.mark_setInode, View.inode_setInode]
      rfl
    · exact View.content_link _ n b _ filePath

theorem Shows.symbolicLink_fails (h : L.Shows d v) (hc : v.Consistent L)
    (hret : Ext2.symbolicLink d site filePath now = .ok (code, d')) (hcode : code ≠ 0) :
    Unchanged L d' v ↔ v.Exhausted L ∨
      filePath.length ≤ 1024 ∧ (v.clear L .block).length = 1 := by
  rcases h.symbolicLink_cases hc hret with ⟨hexhausted, -, hunchanged⟩ | ⟨havailable, hrest⟩
  · exact iff_of_true hunchanged (.inl hexhausted)
  rw [or_iff_right havailable]
  rcases hrest with ⟨hlong, -, hchanged⟩ | ⟨hshort, d₁, u, n, b, hlink, henter⟩
  · exact iff_of_false hchanged fun hand => absurd hand.1 (Nat.not_le_of_gt hlong)
  · rw [and_iff_right hshort]
    obtain ⟨dirInode, -, hspace⟩ := Runs.bind_eq_ok_iff.mp henter
    obtain ⟨⟨found, d₂⟩, hput, hgrow⟩ := Runs.bind_eq_ok_iff.mp hspace
    cases found with
    | true => exact absurd (congrArg Prod.fst (Except.ok.inj hgrow)).symm hcode
    | false =>
        obtain rfl := allocateSpace_of_false hput
        exact h.growSymbolicLink_fails hc hlink.freeInode hlink.freeBlock hlink.shows hlink.takes
          hgrow hcode

end Layout

/-! ## All failures -/

/-- What has been taken when the command fails is given back. -/
def LnUndone (L : Layout) (d : Disk) (v : View) (symbolic : Bool) (filePath : CString) (depth : ℕ)
    (site : LinkSite) : Prop :=
  if symbolic then
    v.Exhausted L ∨ filePath.length ≤ 1024 ∧ (v.clear L .block).length = 1
  else hardLinkTarget d site filePath depth = .ok none ∨ v.clear L .block = []

/-- A hard link is made to one of the inodes of the volume. -/
def LinksInode (L : Layout) (d : Disk) (symbolic : Bool) (filePath : CString) (depth : ℕ)
    (site : LinkSite) : Prop :=
  symbolic = false → ∀ a, hardLinkTarget d site filePath depth = .ok (some a) →
    ∃ n, L.IsInode n ∧ a = L.inodeAddress n

theorem Layout.Shows.unchanged_iff_undone (h : L.Shows d v) (hc : v.Consistent L)
    (hlinks : LinksInode L d symbolic filePath depth site)
    (hret : (if symbolic then symbolicLink d site filePath now
      else hardLink d site filePath depth) = .ok (code, d')) (hcode : code ≠ 0) :
    Unchanged L d' v ↔ LnUndone L d v symbolic filePath depth site := by
  cases symbolic with
  | true => exact h.symbolicLink_fails hc hret hcode
  | false =>
      obtain ⟨r, htarget, hlink⟩ := Runs.bind_eq_ok_iff.mp hret
      cases r with
      | none =>
          obtain rfl : d = d' := congrArg Prod.snd (Except.ok.inj hlink)
          exact iff_of_true ⟨v, h, hc.untouched_self⟩ (.inl htarget)
      | some a =>
          obtain ⟨n, hn, rfl⟩ := hlinks rfl a htarget
          rw [h.hardLink_fails hc hn htarget hret hcode]
          refine (or_iff_right fun hnone => ?_).symm
          exact absurd (htarget.symm.trans hnone) (by simp)

/-- The source is what it was before the last copy. -/
theorem LinkSite.target_of_afterCopy {site' : LinkSite}
    (h : site.afterCopy filePath destPath = .ok site') :
    hardLinkTarget d site' filePath depth = hardLinkTarget d site filePath depth := by
  rcases LinkSite.of_afterCopy h with rfl | rfl <;> rfl

theorem LinkSite.file_of_afterCopy {site' : LinkSite}
    (h : site.afterCopy filePath destPath = .ok site') : site'.file = site.file := by
  rcases LinkSite.of_afterCopy h with rfl | rfl <;> rfl

/-- `argc` decides after the last copy which kind of link is made. -/
theorem ln_fails (h : L.Shows d v) (hc : v.Consistent L)
    (hret : ext2Ln d symbolic filePath destPath now depth = .ok (code, d')) (hcode : code ≠ 0) :
    ((∀ site, LnAccepts d filePath destPath site →
        LinksInode L d (argcNotFour symbolic filePath destPath) filePath depth site ∧
          LnUndone L d v (argcNotFour symbolic filePath destPath) filePath depth site) →
        Unchanged L d' v) ∧
      (Unchanged L d' v → ∀ site, LnAccepts d filePath destPath site →
        LinksInode L d (argcNotFour symbolic filePath destPath) filePath depth site →
          LnUndone L d v (argcNotFour symbolic filePath destPath) filePath depth site) := by
  rcases ext2Ln_cases hret with ⟨site, site', haccepts, hcopy, hlink⟩ | ⟨hrefuses, rfl, -⟩
  · have htarget : hardLinkTarget d site' filePath depth = hardLinkTarget d site filePath depth :=
      LinkSite.target_of_afterCopy hcopy
    have hiff : LinksInode L d (argcNotFour symbolic filePath destPath) filePath depth site' →
        (Unchanged L d' v ↔
          LnUndone L d v (argcNotFour symbolic filePath destPath) filePath depth site') :=
      fun hlinks => h.unchanged_iff_undone hc hlinks hlink hcode
    unfold LinksInode LnUndone at hiff
    rw [htarget] at hiff
    refine ⟨fun hall => ?_, fun hunchanged other hother hlinks => ?_⟩
    · obtain ⟨hlinks, hundone⟩ := hall site haccepts
      exact (hiff hlinks).mpr hundone
    · obtain rfl : site = other := Sum.inr.inj (Except.ok.inj
        ((findLinkSite_eq_inr_iff.mpr haccepts.admits).symm.trans
          (findLinkSite_eq_inr_iff.mpr hother.admits)))
      exact (hiff hlinks).mp hunchanged
  · exact ⟨fun _ => ⟨v, h, hc.untouched_self⟩, fun _ site hsite => absurd hsite (hrefuses site)⟩

/-! ## No inode left -/

/-- The same volume as `fileDisk` with no free inode. -/
def spentDisk : Disk :=
  ((fileDisk.copy (1024 * 4) [0xFF#8, 0xFF#8]).copy (sInodesCount + 16) (bytes32 0)).copy
    (bgBlockBitmap + 14) (bytes16 0)

def spentView : View := smallLayout.view spentDisk

theorem spent_shows : smallLayout.Shows spentDisk spentView :=
  ⟨⟨rfl, by decide, by decide, by decide, by decide,
    by decide⟩, rfl⟩

theorem spent_owned : ∀ n < 17, spentView.owned n = fileOwned n := by decide +kernel

theorem spent_consistent : spentView.Consistent smallLayout :=
  View.consistent_of_table fileOwned spent_owned (fun t => by cases t <;> decide)
    (by decide) (by decide) (by decide) (by decide)
    (by decide) (by decide) (by decide)

theorem ln_fails_spent : ∃ d',
    ext2Ln spentDisk true [slash, 0x66#8] [slash, 0x68#8] 0 0 = .ok (enospc, d') ∧
      Unchanged smallLayout d' spentView := by
  obtain ⟨d', hret⟩ := exists_ok_of_map_fst (show
    (ext2Ln spentDisk true [slash, 0x66#8] [slash, 0x68#8] 0 0).map Prod.fst = .ok enospc by
      decide)
  refine ⟨d', hret, (ln_fails spent_shows spent_consistent hret (by decide)).1 fun site _ => ?_⟩
  rw [show argcNotFour true [slash, 0x66#8] [slash, 0x68#8] = true by decide]
  exact ⟨fun h => absurd h (by decide), .inl (.inl (by decide))⟩

/-! ## A path that is too long -/

/-- The file `f`, with 1024 slashes in front. -/
def slashedPath : CString := List.replicate 1024 slash ++ [0x66#8]

theorem slashed_run : ∃ d',
    ext2Ln fileDisk true slashedPath [slash, 0x68#8] 0 0 = .ok (enospc, d') ∧
      (smallLayout.view d').bit .inode 12 = true :=
  exists_ok_of_map (f := fun d' => (smallLayout.view d').bit .inode 12) (by decide +kernel)

/-- The inode taken for the link stays marked. -/
theorem ln_not_unchanged : ¬ ∀ (L : Layout) (d d' : Disk) (v : View) (symbolic : Bool)
    (filePath destPath : CString) (code now depth : ℕ), L.Shows d v → v.Consistent L →
    filePath.head? = some slash → destPath.head? = some slash →
    ext2Ln d symbolic filePath destPath now depth = .ok (code, d') → code ≠ 0 →
      Unchanged L d' v := by
  intro h
  obtain ⟨d', hret, hmarked⟩ := slashed_run
  obtain ⟨w, hw, huntouched⟩ := h smallLayout fileDisk d' fileView true slashedPath [slash, 0x68#8]
    enospc 0 0 file_shows file_consistent rfl rfl hret (by decide)
  rw [hw.2, huntouched.bit] at hmarked
  exact absurd hmarked (by decide)

end KernelProgramming.Ext2
