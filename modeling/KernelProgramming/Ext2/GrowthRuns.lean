import KernelProgramming.Ext2.Growth

/-!
# Runs that make entries in one directory

Each of the tools looks for space in the blocks of the directory and gives it a
new block if there is none.  As long as a direct slot is unused whenever that
happens, the slots for pointer blocks stay unused.
-/

namespace KernelProgramming.Ext2

open ByteMemory Runs Relation

variable {L : Layout} {d d' d₀ : Disk} {v w : View} {b k m n p type now depth : ℕ}
  {name path filePath : CString} {site : LinkSite}

namespace Layout

/-! ## The entry -/

section Entering

variable (h : L.Shows d w) (hg : w.Growing L p)

include h hg

/-- `rest` is what the tool does when no block has room. -/
theorem Shows.enter_grows (hroom : w.HasRoom L p name.length 0) (hname : name.length < 256)
    (hn : n < 2 ^ 32) (hpos : n ≠ 0) (htype : type < 256) {found : Bool} {d₁ : Disk}
    (hput : allocateSpace d (L.inodeAddress p) name.length n name type
      (List.range totalBlockCount) = .ok (found, d₁))
    {rest : Except Fault (ℕ × Disk)}
    (hret : (if found then .ok (0, d₁) else rest) = .ok (0, d'))
    (hgrow : d₁ = d → (∃ i < directBlockCount, (w.inode p).block i = 0) → rest = .ok (0, d') →
      Grows L p d') : Grows L p d' := by
  have hentry := h.allocateSpace_grows hg hroom hname hn hpos htype hput
  cases found with
  | true =>
      obtain ⟨-, rfl⟩ := Prod.mk.inj (Except.ok.inj hret)
      exact hentry
  | false =>
      obtain ⟨hsame, hzero⟩ := hentry
      exact hgrow hsame hzero hret

theorem Shows.growParent_grows (hname : name.length ≤ 1016)
    (hzero : ∃ i < directBlockCount, (w.inode p).block i = 0)
    (hret : Ext2.growParent d (L.inodeAddress p) n name = .ok (0, d')) : Grows L p d' := by
  obtain ⟨d₁, i, hmark, hslot, hptr, hone⟩ := h.growSlot hg hzero
  simp only [Ext2.growParent, bind, Except.bind, hmark, hslot, hptr] at hret
  obtain ⟨-, rfl⟩ := Prod.mk.inj (Except.ok.inj hret)
  exact hone _ (fillFirstEntry_oneEntry hname ..)

theorem Shows.growHardLink_grows {fileInode : ℕ} (hname : site.filename.length ≤ 1016)
    (hzero : ∃ i < directBlockCount, (w.inode p).block i = 0)
    (hret : Ext2.growHardLink d site fileInode (L.inodeAddress p) = .ok (0, d')) :
    Grows L p d' := by
  obtain ⟨d₁, i, hmark, hslot, hptr, hone⟩ := h.growSlot hg hzero
  simp only [Ext2.growHardLink, bind, Except.bind, hmark] at hret
  split_ifs at hret with hfree
  · cases hret
  · simp only [hslot, hptr] at hret
    obtain ⟨-, rfl⟩ := Prod.mk.inj (Except.ok.inj hret)
    exact hone _ (fillLinkEntry_oneEntry hname ..)

theorem Shows.growSymbolicLink_grows (hname : site.filename.length ≤ 1016)
    (hzero : ∃ i < directBlockCount, (w.inode p).block i = 0)
    (hret : Ext2.growSymbolicLink d site (L.inodeAddress p) n b = .ok (0, d')) :
    Grows L p d' := by
  obtain ⟨d₁, i, hmark, hslot, hptr, hone⟩ := h.growSlot hg hzero
  rw [Ext2.growSymbolicLink] at hret
  split_ifs at hret with hfree
  · obtain ⟨d₂, -, hret⟩ := bind_eq_ok_iff.mp hret
    obtain ⟨d₃, -, hret⟩ := bind_eq_ok_iff.mp hret
    cases hret
  · simp only [bind, Except.bind, hmark, hslot, hptr] at hret
    obtain ⟨-, rfl⟩ := Prod.mk.inj (Except.ok.inj hret)
    apply hone
    apply (fillLinkEntry_oneEntry hname ..).before
    exact (sameBut_copy _ _ _).mono fun x hx => by
      simp only [Within, List.length_singleton] at hx
      omega

end Entering

/-! ## The tools -/

theorem entryInode_ne_zero {a : ℕ}
    (h : Ext2.hardLinkTarget d site filePath depth = .ok (some a)) :
    entryInode d.byte site.file ≠ 0 := by
  obtain ⟨inode, hptr, -⟩ := bind_eq_ok_iff.mp h
  intro hzero
  rw [inodePtr, if_pos hzero] at hptr
  cases hptr

/-- The inode that is taken is not that of the directory. -/
theorem Shows.takeFreeInode (h : L.Shows d v) (hp : v.Live L p) (hfree : findFreeInode d ≠ 0) :
    L.IsInode (findFreeInode d) ∧ findFreeInode d ≠ p ∧
      ∃ d₁, updateBitmap d .inode (findFreeInode d) true = .ok d₁ ∧
        inodePtr d₁ (findFreeInode d) = .ok (L.inodeAddress (findFreeInode d)) ∧
        ∃ w, L.Shows d₁ w ∧ v.Respects w p := by
  obtain ⟨hn, -⟩ := h.findFreeInode_mem hfree
  have hne : findFreeInode d ≠ p := by
    intro heq
    have hclear := (View.mem_clear.mp hn).2.2
    rw [heq, hp.2] at hclear
    cases hclear
  obtain ⟨d₁, hmark, h₁, hptr⟩ := h.takeInode hn
  exact ⟨isInode_of_clear hn, hne, d₁, hmark, hptr, _, h₁, (v.respects_refl p).mark .inode _⟩

/-- The entry of the source is read again after the inode has been changed. -/
theorem Shows.entryInode_of_plain (h : L.Shows d v) (h' : L.Shows d' w) (hbyte : w.byte = v.byte)
    {e : ℕ} (hplain : ∃ b, L.IsPlain b ∧ 1024 * b ≤ e ∧ e + 4 ≤ 1024 * b + 1024) :
    entryInode d'.byte e = entryInode d.byte e := by
  obtain ⟨b, hb, hle, hin⟩ := hplain
  apply entryInode_congr
  intro i hi
  have hblock : L.IsPlain ((e + i) / 1024) := by
    rw [show (e + i) / 1024 = b by omega]
    exact hb
  rw [h'.byte_eq hblock, hbyte, h.byte_eq hblock]

section Tools

variable (h : L.Shows d v) (hg : v.Growing L p)

include h hg

theorem Shows.makeDirectory_grows (hname : name.length < 256)
    (hroom : v.HasRoom L p name.length 0)
    (hret : Ext2.makeDirectory d p name now = .ok (0, d')) : Grows L p d' := by
  rw [Ext2.makeDirectory] at hret
  split_ifs at hret with hfree
  · cases hret
  obtain ⟨hn, hne, d₁, hmark, hptr, w₁, h₁, hr₁⟩ := h.takeFreeInode hg.live hfree
  have h₂ := h₁.newInode hn now
  have hr₂ := hr₁.setOther hne ⟨ext2SIfdir, 1024, 0, 2, 0, fun _ => 0⟩
  simp only [bind, Except.bind, hmark, hptr] at hret
  split_ifs at hret with hblock
  · split at hret
    · cases hret
    · cases hret
  have hb := h₂.findFreeBlock_mem hblock
  have hspare := hg.reserved.spare hr₂ hb
  obtain ⟨d₃, w₃, entries, hmake, h₃, hrw, -⟩ :=
    h₂.makeDirectoryBlock hn hg.live.1 hb hspare.1
  have hr₃ : v.Respects w₃ p := by
    apply View.Respects.rewrites _ hspare hrw
    exact (hr₂.mark .block _).setOther hne _
  have h₄ := h₃.setLinksCount hg.live.1 (d₃.u16 (iLinksCount (L.inodeAddress p)) + 1)
  have hr₄ := hr₃.setInode (k := p) (x := { w₃.inode p with
    linksCount := (d₃.u16 (iLinksCount (L.inodeAddress p)) + 1) % 2 ^ 16 }) fun _ => rfl
  simp only [hmake, h₃.inodePtr_eq hg.live.1] at hret
  obtain ⟨hpos, hlt⟩ := hn.bounds
  have hg₄ := hg.respects hr₄
  obtain ⟨⟨found, d₅⟩, hput, hret⟩ := bind_eq_ok_iff.mp hret
  apply h₄.enter_grows hg₄ (hg.hasRoom hr₄ hroom) hname hlt hpos (by decide) hput hret
  rintro rfl hzero hgrow
  exact h₄.growParent_grows hg₄ (by omega) hzero hgrow

theorem Shows.linkNewFile_grows (hname : name.length < 256)
    (hroom : v.HasRoom L p name.length 0) (hn : L.IsInode n) {newInode : ℕ}
    (hret : Ext2.linkNewFile d ⟨none, L.inodeAddress p, name⟩ n newInode = .ok (0, d')) :
    Grows L p d' := by
  obtain ⟨hpos, hlt⟩ := hn.bounds
  rw [Ext2.linkNewFile] at hret
  obtain ⟨⟨found, d₁⟩, hput, hret⟩ := bind_eq_ok_iff.mp hret
  apply h.enter_grows hg hroom hname hlt hpos (by decide) hput hret
  rintro rfl hzero hgrow
  simp only at hgrow
  split_ifs at hgrow with hfree
  · obtain ⟨d₂, -, hgrow⟩ := bind_eq_ok_iff.mp hgrow
    obtain ⟨d₃, -, hgrow⟩ := bind_eq_ok_iff.mp hgrow
    cases hgrow
  · obtain ⟨d₂, hmark, hgrow⟩ := bind_eq_ok_iff.mp hgrow
    have hspare := h.spare_findFreeBlock hg.reserved (v.respects_refl p)
    obtain ⟨d₂', w₂, hmark', h₂, -⟩ := h.takeBlock
    obtain rfl : d₂ = d₂' := Except.ok.inj (hmark.symm.trans hmark')
    rw [h₂.blockPtr_eq hspare.1.lt] at hgrow
    obtain ⟨-, rfl⟩ := Prod.mk.inj (Except.ok.inj hgrow)
    exact h.growFilled hg hzero hmark (fillNewBlock_oneEntry (by omega) ..)

theorem Shows.copyTo_grows {content : List Byte} (hname : name.length < 256)
    (hroom : v.HasRoom L p name.length 0)
    (hret : copyTo d content now ⟨none, L.inodeAddress p, name⟩ = .ok (0, d')) :
    Grows L p d' := by
  rw [copyTo] at hret
  simp only at hret
  split_ifs at hret with hfree
  · cases hret
  obtain ⟨hn, hne, d₁, hmark, hptr, w₁, h₁, hr₁⟩ := h.takeFreeInode hg.live hfree
  simp only [bind, Except.bind, hmark, hptr] at hret
  have hd₂ : Besides L v p
      (Ext2.initInode d₁ (L.inodeAddress (findFreeInode d)) ext2SIfreg content.length now) :=
    ⟨_, h₁.initInode hn ext2SIfreg content.length now, hr₁.setOther hne _⟩
  obtain ⟨d₃, hcopy, w₃, h₃, hr₃⟩ :=
    (copyFileData_besides hg.reserved hn hne hd₂ content).exists_ok
  simp only [hcopy] at hret
  exact h₃.linkNewFile_grows (hg.respects hr₃) hname (hg.hasRoom hr₃ hroom) hn hret

theorem Shows.hardLink_grows (hdir : hardLinkDir d site.dir = .ok (L.inodeAddress p))
    (hname : site.filename.length < 256) (hroom : v.HasRoom L p site.filename.length 0)
    (htarget : ∀ a, Ext2.hardLinkTarget d site filePath depth = .ok (some a) →
      ∃ m, L.IsInode m ∧ a = L.inodeAddress m)
    (hplain : ∃ b, L.IsPlain b ∧ 1024 * b ≤ site.file ∧ site.file + 4 ≤ 1024 * b + 1024)
    (hret : hardLink d site filePath depth = .ok (0, d')) : Grows L p d' := by
  obtain ⟨target, hfile, hret⟩ := bind_eq_ok_iff.mp hret
  cases target with
  | none => cases hret
  | some a =>
      obtain ⟨m, hm, rfl⟩ := htarget a hfile
      obtain ⟨dirInode, hdir', hret⟩ := bind_eq_ok_iff.mp hret
      obtain rfl := Except.ok.inj (hdir.symm.trans hdir')
      obtain ⟨⟨found, d₂⟩, hput, hret⟩ := bind_eq_ok_iff.mp hret
      have h₁ := h.setLinksCount hm (d.u16 (iLinksCount (L.inodeAddress m)) + 1)
      have hr₁ := (v.respects_refl p).setInode (k := m) (x := { v.inode m with
        linksCount := (d.u16 (iLinksCount (L.inodeAddress m)) + 1) % 2 ^ 16 })
        fun heq => by rw [heq]
      have hentry := h.entryInode_of_plain h₁ rfl hplain
      have hpos : entryInode d.byte site.file ≠ 0 := entryInode_ne_zero hfile
      rw [hentry] at hput
      have hg₁ := hg.respects hr₁
      apply h₁.enter_grows hg₁ (hg.hasRoom hr₁ hroom) hname (get32_lt ..) hpos (by decide) hput
        hret
      rintro rfl hzero hgrow
      exact h₁.growHardLink_grows hg₁ (by omega) hzero hgrow

theorem Shows.symbolicLink_grows (hdir : symbolicLinkDir d site.dir = L.inodeAddress p)
    (hname : site.filename.length < 256) (hroom : v.HasRoom L p site.filename.length 0)
    (hret : symbolicLink d site filePath now = .ok (0, d')) : Grows L p d' := by
  rw [symbolicLink] at hret
  split_ifs at hret with hfree
  · cases hret
  obtain ⟨hn, hne, d₁, hmark, hptr, w₁, h₁, hr₁⟩ := h.takeFreeInode hg.live hfree
  have h₂ := h₁.initInode hn ext2SIflnk filePath.length now
  have hr₂ := hr₁.setOther hne (linkInode filePath.length)
  simp only [bind, Except.bind, hmark, hptr] at hret
  split_ifs at hret with hblock
  · split at hret
    · cases hret
    · cases hret
  have hspare := h₂.spare_findFreeBlock hg.reserved hr₂
  obtain ⟨d₃, w₃, hmark', h₃, -, -, hkeeps⟩ := h₂.takeBlock
  simp only [hmark', enterSymbolicLink] at hret
  split_ifs at hret with hlong
  · cases hret
  have hshort := Nat.le_of_not_gt hlong
  obtain ⟨d₄, hstore, h₄⟩ := h₃.storeLinkPath hn hspare.1 hshort
  have hbesides : Besides L v p d₄ :=
    ⟨_, h₄, ((hkeeps v p hr₂).putBlock hspare ⟨le_rfl, Nat.add_le_add_left hshort _⟩).setOther
      hne _⟩
  obtain ⟨w₄, h₄, hr₄⟩ := hbesides
  simp only [bind, Except.bind, hstore, hdir, h₄.follow_inode hg.live.1] at hret
  obtain ⟨⟨found, d₅⟩, hput, hret⟩ := bind_eq_ok_iff.mp hret
  have hg₄ := hg.respects hr₄
  obtain ⟨hpos, hlt⟩ := hn.bounds
  apply h₄.enter_grows hg₄ (hg.hasRoom hr₄ hroom) hname hlt hpos (by decide) hput hret
  rintro rfl hzero hgrow
  exact h₄.growSymbolicLink_grows hg₄ (by omega) hzero hgrow

end Tools

end Layout

/-! ## Runs -/

/-- The command makes the entry `name` in directory `p`. -/
def Command.Enters (L : Layout) (d : Disk) (p : ℕ) (name : CString) : Command → Prop
  | .mkdir path _ => MkdirAccepts d path p ∧ findFileNameByPath path = name
  | .cp leftover nativePath _ destPath _ =>
      findDestination d leftover nativePath destPath = .ok (.inr ⟨none, L.inodeAddress p, name⟩)
  | .ln symbolic filePath destPath _ _ => ∃ site site', LnAccepts d filePath destPath site ∧
      site.afterCopy filePath destPath = .ok site' ∧ site'.filename = name ∧
        if argcNotFour symbolic filePath destPath then
          symbolicLinkDir d site'.dir = L.inodeAddress p
        else hardLinkDir d site'.dir = .ok (L.inodeAddress p)
  | .rm .. => False

/-- The entry that a hard link copies is outside the metadata, and the inode that gets a link
more is one of the table. -/
def Command.SourceInside (L : Layout) (d : Disk) : Command → Prop
  | .ln symbolic filePath destPath _ depth => argcNotFour symbolic filePath destPath = false →
      ∀ site, LnAccepts d filePath destPath site → LinksInode L d false filePath depth site ∧
        ∃ b, L.IsPlain b ∧ 1024 * b ≤ site.file ∧ site.file + 4 ≤ 1024 * b + 1024
  | _ => True

/-- The name goes where the first block that is long enough has room for it, or
into a new block for a direct slot. -/
structure Command.Fits (L : Layout) (d : Disk) (p : ℕ) (name : CString) (c : Command) : Prop where
  short : name.length < 256
  room : (L.view d).HasRoom L p name.length 0
  source : c.SourceInside L d

/-- A successful creation in directory `p`. -/
def Creates (L : Layout) (p : ℕ) (name : CString) (c : Command) (d d' : Disk) : Prop :=
  c.Enters L d p name ∧ c.run d = .ok (0, d')

/-- The entries that are found in directory `p` are in blocks of its block map, and none is
in a block that has its number in a slot for pointer blocks. -/
def EntriesMapped (L : Layout) (p : ℕ) (d : Disk) : Prop :=
  ∀ name entry, locateFileByName d (L.inodeAddress p) name = .ok (some entry) →
    entry / 1024 ∈ (L.view d).data p ∧
      ∀ i, directBlockCount ≤ i → i < totalBlockCount →
        ((L.view d).inode p).block i ≠ entry / 1024

theorem LnAccepts.eq {site' : LinkSite} {destPath : CString}
    (h : LnAccepts d filePath destPath site) (h' : LnAccepts d filePath destPath site') :
    site = site' := by
  have hsite := findLinkSite_eq_inr_iff.mpr h.admits
  have hsite' := findLinkSite_eq_inr_iff.mpr h'.admits
  exact Sum.inr.inj (Except.ok.inj (hsite.symm.trans hsite'))

theorem exists_copyTo {leftover nativePath destPath : CString} {native : Option NativeFile}
    {dest : Destination} (hdest : findDestination d leftover nativePath destPath = .ok (.inr dest))
    (hret : ext2Cp d leftover nativePath native destPath now = .ok (0, d')) :
    ∃ content, copyTo d content now dest = .ok (0, d') := by
  cases native with
  | none => cases hret
  | some file =>
      rw [ext2Cp] at hret
      simp only [bind, Except.bind, hdest] at hret
      split_ifs at hret
      · cases hret
      · exact ⟨file.content, hret⟩
      · cases hret
      · cases hret
      · cases hret

theorem Command.grows {c : Command} (hgrows : Grows L p d) (hcreates : Creates L p name c d d')
    (hfits : c.Fits L d p name) : Grows L p d' := by
  obtain ⟨v, h, hg⟩ := hgrows
  obtain ⟨henters, hrun⟩ := hcreates
  obtain ⟨hshort, hroom, hsource⟩ := hfits
  rw [h.2] at hroom
  cases c with
  | mkdir path now =>
      obtain ⟨haccepts, rfl⟩ := henters
      rcases ext2Mkdir_cases hrun with ⟨q, hq, hmake⟩ | ⟨hrefuses, -⟩
      · obtain rfl : p = q := Except.ok.inj (haccepts.parent.1.symm.trans hq.parent.1)
        exact h.makeDirectory_grows hg hshort hroom hmake
      · exact absurd haccepts (hrefuses p)
  | cp leftover nativePath native destPath now =>
      obtain ⟨content, hcopy⟩ := exists_copyTo henters hrun
      exact h.copyTo_grows hg hshort hroom hcopy
  | ln symbolic filePath destPath now depth =>
      obtain ⟨site, site', haccepts, hcopy, rfl, hdir⟩ := henters
      rcases ext2Ln_cases hrun with ⟨other, other', haccepts', hcopy', hlink⟩ | ⟨hrefuses, -, -⟩
      · obtain rfl : site = other := haccepts.eq haccepts'
        obtain rfl : site' = other' := Except.ok.inj (hcopy.symm.trans hcopy')
        cases hargc : argcNotFour symbolic filePath destPath with
        | true =>
            rw [hargc, if_pos rfl] at hdir hlink
            exact h.symbolicLink_grows hg hdir hshort hroom hlink
        | false =>
            rw [hargc, if_neg Bool.false_ne_true] at hdir hlink
            obtain ⟨hinode, hplain⟩ := hsource hargc site haccepts
            rw [← LinkSite.file_of_afterCopy hcopy] at hplain
            rw [LinksInode, ← LinkSite.target_of_afterCopy hcopy] at hinode
            exact h.hardLink_grows hg hdir hshort hroom (hinode rfl) hplain hlink
      · exact absurd haccepts (hrefuses site)
  | rm recursive path now depth => exact henters.elim

theorem Grows.entriesMapped (hgrows : Grows L p d) : EntriesMapped L p d := by
  obtain ⟨v, h, hg⟩ := hgrows
  intro name entry hfound
  have hblocks : ∀ b ∈ v.data p, L.IsPlain b ∧ v.TiledBlock b := fun b hb =>
    ⟨(hg.data hb).2.1, (hg.data hb).2.2.2⟩
  have hsearch : v.Searchable p name := .inl hg.direct
  obtain ⟨bs, rest, r, hdata, hret, hr, -⟩ :=
    h.locateFileByName_find hg.live.1 hblocks hsearch
  obtain rfl := Except.ok.inj (hret.symm.trans hfound)
  have hmem := List.mem_of_find?_eq_some hr.symm
  obtain ⟨b, hb, hentry⟩ := List.mem_flatMap.mp hmem
  have hbdata : b ∈ v.data p := hdata ▸ List.mem_append_left rest hb
  obtain ⟨hlow, hhigh, hwf⟩ := ((h.tiled (hblocks b hbdata).1 (hblocks b hbdata).2).1).bounds hentry
  have hle := hwf.le
  have hblock : entry / 1024 = b := by omega
  rw [hblock, h.2]
  refine ⟨hbdata, fun i hi hlt hslot => (hg.data hbdata).1 ?_⟩
  rw [← hslot]
  exact hg.direct i hi hlt

theorem entriesMapped_of_run (h : L.Shows d₀ v) (hc : v.Consistent L) (hp : v.IsDir L p)
    (hdirect : (v.inode p).DirectOnly)
    (hrun : ReflTransGen (fun d d' => ∃ c name, Creates L p name c d d' ∧ c.Fits L d p name)
      d₀ d) : EntriesMapped L p d ∧ ((L.view d).inode p).DirectOnly := by
  have hgrows : Grows L p d := by
    induction hrun with
    | refl => exact ⟨v, h, hc.growing hp hdirect⟩
    | tail _ hstep ih =>
        obtain ⟨c, name, hcreates, hfits⟩ := hstep
        exact c.grows ih hcreates hfits
  refine ⟨hgrows.entriesMapped, ?_⟩
  obtain ⟨w, hw, hg⟩ := hgrows
  rw [hw.2]
  exact hg.direct

theorem mkdirAccepts_of_run (hparent : findParentInode d path = .ok p)
    (hret : ext2Mkdir d path now = .ok (0, d')) (hchanged : d' ≠ d) : MkdirAccepts d path p := by
  rcases ext2Mkdir_cases hret with ⟨q, haccepts, -⟩ | ⟨-, hsame, -⟩
  · obtain rfl : p = q := Except.ok.inj (hparent.symm.trans haccepts.parent.1)
    exact haccepts
  · exact absurd hsame hchanged

/-- `ext2_mkdir /a` gives the root directory another block, in which `ext2_mkdir /b` then
finds a place. -/
theorem packed_run : ∃ d₁ d₂,
    Creates smallLayout 2 [0x61#8] (.mkdir [slash, 0x61#8] 0) packedDisk d₁ ∧
    Creates smallLayout 2 [0x62#8] (.mkdir [slash, 0x62#8] 0) d₁ d₂ ∧
    (smallLayout.view d₁).data 2 = [7, 9] ∧ (smallLayout.view d₁).HasPlace 2 1 := by
  have hrun : (do
      let parent ← findParentInode packedDisk [slash, 0x61#8]
      let r ← ext2Mkdir packedDisk [slash, 0x61#8] 0
      let parent' ← findParentInode r.2 [slash, 0x62#8]
      let s ← ext2Mkdir r.2 [slash, 0x62#8] 0
      let v := smallLayout.view r.2
      let w := smallLayout.view s.2
      return ([parent, r.1, (v.inode 2).linksCount, parent', s.1, (w.inode 2).linksCount],
        v.data 2, decide (v.HasPlace 2 1))) = .ok ([2, 0, 3, 2, 0, 4], [7, 9], true) := by
    decide +kernel
  obtain ⟨parent, hparent, hrun⟩ := bind_eq_ok_iff.mp hrun
  obtain ⟨⟨code, d₁⟩, hmkdir, hrun⟩ := bind_eq_ok_iff.mp hrun
  obtain ⟨parent', hparent', hrun⟩ := bind_eq_ok_iff.mp hrun
  obtain ⟨⟨code', d₂⟩, hmkdir', hrun⟩ := bind_eq_ok_iff.mp hrun
  simp only [pure, Except.pure, Except.ok.injEq, Prod.mk.injEq, List.cons.injEq, and_true,
    decide_eq_true_eq] at hrun
  obtain ⟨⟨rfl, rfl, hlinks, rfl, rfl, hlinks'⟩, hdata, hplace⟩ := hrun
  have hchanged : d₁ ≠ packedDisk := by
    rintro rfl
    exact absurd hlinks (by decide)
  have hchanged' : d₂ ≠ d₁ := by
    rintro rfl
    exact absurd (hlinks.symm.trans hlinks') (by decide)
  refine ⟨d₁, d₂, ⟨⟨mkdirAccepts_of_run hparent hmkdir hchanged, by decide⟩, hmkdir⟩,
    ⟨⟨mkdirAccepts_of_run hparent' hmkdir' hchanged', by decide⟩, hmkdir'⟩, hdata, hplace⟩

theorem entriesMapped_of_run_mkdir : ∃ d₁ d₂,
    Creates smallLayout 2 [0x61#8] (.mkdir [slash, 0x61#8] 0) packedDisk d₁ ∧
    Creates smallLayout 2 [0x62#8] (.mkdir [slash, 0x62#8] 0) d₁ d₂ ∧
      (smallLayout.view d₁).data 2 = [7, 9] ∧
      EntriesMapped smallLayout 2 d₂ ∧ ((smallLayout.view d₂).inode 2).DirectOnly := by
  obtain ⟨d₁, d₂, hcreates, hcreates', hdata, hplace⟩ := packed_run
  have hdirect : (packedView.inode 2).DirectOnly := by
    have hall : ∀ i < totalBlockCount, directBlockCount ≤ i →
        (packedView.inode 2).block i = 0 := by decide
    exact fun i hi hi' => hall i hi' hi
  have hroom : (smallLayout.view packedDisk).HasRoom smallLayout 2 1 0 := by
    have hfind : (packedView.data 2).find? (packedView.takes 1) = none := by decide
    rw [← packedView, View.HasRoom, hfind]
    exact ⟨⟨1, by decide, by decide⟩, Nat.zero_le _⟩
  have hrun : ReflTransGen (fun d d' => ∃ c name, Creates smallLayout 2 name c d d' ∧
      c.Fits smallLayout d 2 name) packedDisk d₂ :=
    .tail (.single ⟨_, _, hcreates, by decide, hroom, trivial⟩)
      ⟨_, _, hcreates', by decide, hplace.hasRoom 0, trivial⟩
  exact ⟨d₁, d₂, hcreates, hcreates', hdata,
    entriesMapped_of_run packed_shows packed_consistent (by decide) hdirect hrun⟩

/-! ## A directory with twelve full blocks -/

/-- A volume of 24 blocks of which five are free. -/
def brimLayout : Layout := widerLayout 24 (by decide) (by decide)

/-- The root directory has blocks 7 to 18 in its direct slots. -/
def brimDisk : Disk where
  numBlocks := 24
  byte x :=
    match x / 1024 with
    | 1 => putBytes (fun _ => 0) sInodesCount
        (bytes32 16 ++ bytes32 24 ++ bytes32 0 ++ bytes32 5 ++ bytes32 4) x
    | 2 => putBytes (fun _ => 0) bgBlockBitmap
        (bytes32 3 ++ bytes32 4 ++ bytes32 5 ++ bytes16 5 ++ bytes16 4) x
    | 3 => putBytes (fun _ => 0) (1024 * 3) [0xFF#8, 0xFF#8, 0x83#8] x
    | 4 => putBytes (fun _ => 0) (1024 * 4) [0xFF#8, 0x0F#8] x
    | 5 => putBytes (putInodes (fun _ => 0) (brimLayout.inodeAddress 2) [(ext2SIfdir, 2, 0)])
        (iBlock (brimLayout.inodeAddress 2) 0)
        ((List.range directBlockCount).flatMap fun i => bytes32 (7 + i)) x
    | 6 => putInodes (fun _ => 0) (brimLayout.inodeAddress 12) [(ext2SIfreg, 46, 0)] x
    | b => if b < 19 then (fullEntry (x / 256 - 28)).getD (x % 256) 0 else 0

def brimView : View := brimLayout.view brimDisk

theorem brim_shows : brimLayout.Shows brimDisk brimView :=
  ⟨⟨rfl, by decide, by decide, by decide, by decide,
    by decide⟩, rfl⟩

def brimOwned (n : ℕ) : List ℕ :=
  if n = 2 then [7, 8, 9, 10, 11, 12, 13, 14, 15, 16, 17, 18] else []

theorem brim_owned : ∀ n < 17, brimView.owned n = brimOwned n := by decide +kernel

theorem brim_consistent : brimView.Consistent brimLayout :=
  View.consistent_of_table brimOwned brim_owned (fun t => by cases t <;> decide +kernel)
    (by decide +kernel) (by decide) (by decide) (by decide)
    (by decide) (by decide) (by decide)

theorem brim_run : ∃ d, Creates brimLayout 2 longPath.tail (.mkdir longPath 0) brimDisk d ∧
    locateFileByName d (brimLayout.inodeAddress 2) longPath.tail = .ok (some 20480) ∧
      ((brimLayout.view d).inode 2).block 12 = 20 := by
  have hrun : (do
      let parent ← findParentInode brimDisk longPath
      let r ← ext2Mkdir brimDisk longPath 0
      let found ← locateFileByName r.2 (brimLayout.inodeAddress 2) longPath.tail
      return (parent, r.1, found, ((brimLayout.view r.2).inode 2).block 12)) =
        .ok (2, 0, some 20480, 20) := by
    decide +kernel
  obtain ⟨parent, hparent, hrun⟩ := bind_eq_ok_iff.mp hrun
  obtain ⟨⟨code, d⟩, hmkdir, hrun⟩ := bind_eq_ok_iff.mp hrun
  obtain ⟨found, hfound, hrun⟩ := bind_eq_ok_iff.mp hrun
  simp only [pure, Except.pure, Except.ok.injEq, Prod.mk.injEq] at hrun
  obtain ⟨rfl, rfl, rfl, hslot⟩ := hrun
  have hchanged : d ≠ brimDisk := by
    rintro rfl
    exact absurd hslot (by decide)
  have hname : findFileNameByPath longPath = longPath.tail := by decide +kernel
  exact ⟨d, ⟨⟨mkdirAccepts_of_run hparent hmkdir hchanged, hname⟩, hmkdir⟩, hfound, hslot⟩

theorem not_entriesMapped : ¬ ∀ (L : Layout) (d₀ d : Disk) (v : View) (p : ℕ), L.Shows d₀ v →
    v.Consistent L → v.IsDir L p →
    ReflTransGen (fun d d' => ∃ c name, Creates L p name c d d') d₀ d → EntriesMapped L p d := by
  intro h
  obtain ⟨d, hcreates, hfound, hslot⟩ := brim_run
  have hmapped := h brimLayout brimDisk d brimView 2 brim_shows brim_consistent (by decide)
    (.single ⟨_, _, hcreates⟩)
  exact (hmapped _ _ hfound).2 12 (by decide) (by decide) hslot

end KernelProgramming.Ext2
