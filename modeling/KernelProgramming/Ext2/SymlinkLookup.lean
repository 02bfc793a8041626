import KernelProgramming.Ext2.LnLookup

/-!
# ln -s, then lookup

When `ext2_ln -s` succeeds for a name in the root directory, the link is found there
and holds the path, and nothing else in use has changed.  The address that the
command computes for any other directory is not that of its inode: unless the
number of the inode is one of the reserved ones, it is not in the image.
-/

namespace KernelProgramming.Ext2

open ByteMemory

variable {L : Layout} {d d' d₁ : Disk} {u v w : View} {b k m n p now depth : ℕ}
  {filePath destPath name : CString} {site : LinkSite} {new : DirEntry}

/-! ## What stays -/

/-- Directory `p` may have another block, and its blocks may change; nothing else
that is in use does. -/
structure View.Spares (v w : View) (p : ℕ) : Prop where
  inode : ∀ k, k ≠ p → w.inode k = v.inode k
  mode : (w.inode p).mode = (v.inode p).mode
  size : (w.inode p).size = (v.inode p).size
  linksCount : (w.inode p).linksCount = (v.inode p).linksCount
  slots : ∀ i, (v.inode p).block i ≠ 0 → (w.inode p).block i = (v.inode p).block i
  block : ∀ c, v.bit .block (c - 1) = true → c ∉ v.data p → v.SameBlock w c

namespace View

theorem Rewrites.spares {entries : List DirEntry} (h : v.Rewrites w b entries)
    (hb : b ∈ v.data p) : v.Spares w p := by
  have hinode : w.inode = v.inode := by rw [h.eq]
  refine ⟨fun k _ => by rw [hinode], by rw [hinode], by rw [hinode], by rw [hinode],
    fun i _ => by rw [hinode], fun c _ hc => h.same c ?_⟩
  rintro rfl
  exact hc hb

/-- The slot and the block that the directory gets were free. -/
theorem Rewrites.spares_attach {entries : List DirEntry} {i : ℕ}
    (h : (v.attach p i b).Rewrites w b entries) (hzero : (v.inode p).block i = 0)
    (hb : b ∈ v.clear L .block) : v.Spares w p := by
  have hinode : w.inode = (v.attach p i b).inode := by rw [h.eq]
  have hself : w.inode p = (v.attach p i b).inode p := by rw [hinode]
  rw [attach, inode_setInode] at hself
  refine ⟨fun k hk => ?_, by rw [hself], by rw [hself], by rw [hself], fun j hj => ?_,
    fun c hc _ => h.same c ?_⟩
  · rw [hinode]
    exact inode_setInode_of_ne hk _ _
  · rw [hself]
    refine Function.update_of_ne ?_ ..
    rintro rfl
    exact hj hzero
  · rintro rfl
    exact Bool.false_ne_true ((mem_clear.mp hb).2.2.symm.trans hc)

end View

/-! ## The entry for the link -/

/-- In directory `p` the entry gets the type of a link: where there is no place for the
name, the new block gets the type of the source. -/
def TypesLink (v : View) (p file : ℕ) (name : CString) : Prop :=
  (v.data p).find? (v.takes name.length) = none → fileType v.byte file = ext2FtSymlink

namespace Layout

/-- A new block for the directory: the type is that of the source. -/
theorem Shows.growSymbolicLink (h : L.Shows d v) (hc : v.Consistent L) (hp : v.Live L p)
    (hdir : (v.inode p).IsDirectory) (hdirect : (v.inode p).DirectOnly)
    (hname : site.filename.length < 256) (hzero : ∃ i < directBlockCount, (v.inode p).block i = 0)
    (hentry : v.Entry L k site.file) (hn : v.Live L n)
    (hret : Ext2.growSymbolicLink d site (L.inodeAddress p) n m = .ok (0, d')) :
    ∃ w, L.Shows d' w ∧
      View.Enters L v w p ⟨site.filename, n, fileType v.byte site.file⟩ ∧ v.Spares w p := by
  by_cases hfree : findFreeBlock d = 0
  · rw [Ext2.growSymbolicLink, if_pos hfree] at hret
    obtain ⟨d₁, -, hundo⟩ := Runs.bind_eq_ok_iff.mp hret
    obtain ⟨d₂, -, hundone⟩ := Runs.bind_eq_ok_iff.mp hundo
    exact absurd (congrArg Prod.fst (Except.ok.inj hundone)) (by simp [enospc])
  rw [Ext2.growSymbolicLink, if_neg hfree] at hret
  obtain ⟨d₁, hmark, hgrow⟩ := Runs.bind_eq_ok_iff.mp hret
  obtain ⟨d₁', i, hmark', hslot, hi, hizero, hb, h₂⟩ := h.grow hp.1 hzero hfree
  obtain rfl : d₁ = d₁' := Except.ok.inj (hmark.symm.trans hmark')
  obtain ⟨-, hplain, -⟩ := hc.free_block hb
  simp only [hslot] at hgrow
  set b := findFreeBlock d with hfreeBlock
  set d₂ := (d₁.setU32 (iBlock (L.inodeAddress p) i) b).setU32 (iBlocks (L.inodeAddress p))
    ((d₁.setU32 (iBlock (L.inodeAddress p) i) b).u32 (iBlocks (L.inodeAddress p)) + 1) with hd₂
  change L.Shows d₂ (v.attach p i b) at h₂
  rw [h₂.blockPtr_eq hplain.lt] at hgrow
  obtain rfl := congrArg Prod.snd (Except.ok.inj hgrow)
  have hsame : SameBut (fun x => 1024 * b ≤ x ∧ x < 1024 * b + 1024) d₂
      (d₂.setU8 (1024 * b + 6) site.filename.length) :=
    (sameBut_copy d₂ (1024 * b + 6) _).mono fun x hx => by
      simp only [Within, List.length_singleton] at hx
      omega
  obtain ⟨-, w, stored, hw, hrw, henters, hstored⟩ :=
    h₂.fillLinkEntry hc hp hdir hdirect hi hizero hb hsame hname hentry hn
  have hnameLen : nameLen (d₂.setU8 (1024 * b + 6) site.filename.length).byte (1024 * b) =
      site.filename.length := by
    have hbyte : (d₂.setU8 (1024 * b + 6) site.filename.length).byte (1024 * b + 6) =
        BitVec.ofNat 8 site.filename.length :=
      putBytes_apply (s := [BitVec.ofNat 8 site.filename.length]) (i := 0) (by simp) _ _
    rw [nameLen, hbyte, BitVec.toNat_ofNat, Nat.mod_eq_of_lt hname]
  obtain rfl := hstored.mpr hnameLen
  exact ⟨w, hw, henters, hrw.spares_attach hizero hb⟩

theorem TakesLink.consistent (hlink : TakesLink L v d₁ u filePath n b) (hc : v.Consistent L) :
    u.Consistent L := by
  have hfile : ¬ (u.inode n).IsDirectory := by
    rw [hlink.inode]
    exact show ¬ ext2SIflnk / 4096 = 4 by decide
  exact hc.takes hlink.takes hlink.freeInode hlink.good hlink.freeBlock (by rw [hlink.inode])
    (fun hdir => absurd hdir hfile) fun hdir => absurd hdir hfile

theorem TakesLink.enters (hlink : TakesLink L v d₁ u filePath n b) (hc : v.Consistent L)
    (hp : v.Live L p) (hdir : (v.inode p).IsDirectory) (hdirect : (v.inode p).DirectOnly)
    (hname : site.filename.length < 256) (hroom : v.HasRoom L p site.filename.length 0)
    (hentry : v.Entry L k site.file)
    (hret : (do
      let (found, d) ← allocateSpace d₁ (L.inodeAddress p) site.filename.length n site.filename
        ext2FtSymlink (List.range totalBlockCount)
      if found then .ok (0, d) else Ext2.growSymbolicLink d site (L.inodeAddress p) n b) =
        .ok (0, d')) :
    ∃ w new, L.Shows d' w ∧ View.Enters L u w p new ∧ u.Spares w p ∧
      new.name = site.filename ∧ new.inode = n ∧
      (new.fileType = ext2FtSymlink ↔ TypesLink v p site.file site.filename) := by
  have hcu := hlink.consistent hc
  have hlive : ∀ k, u.Live L k ↔ k = n ∨ v.Live L k := fun k =>
    hlink.takes.live_iff hlink.freeInode
  have hkeeps : ∀ k, v.Live L k → v.Keeps u k := fun k hk =>
    hlink.takes.keeps hc hlink.freeInode hlink.freeBlock hk
  have hnu : u.Live L n := (hlive n).mpr (.inl rfl)
  have hpu : u.Live L p := (hlive p).mpr (.inr hp)
  have hdir_u := (hkeeps p hp).isDirectory_iff.mpr hdir
  have hdirect_u := (hkeeps p hp).directOnly hdirect
  have henter := hlink.shows.enter_place hcu hpu hdir_u hdirect_u hname hnu
    (show ext2FtSymlink < 256 by decide)
  obtain ⟨hplace, hfits⟩ := (hkeeps p hp).place hc hp hdir site.filename.length
  rw [hplace] at henter
  obtain ⟨⟨found, d₂⟩, hput, hgrow⟩ := Runs.bind_eq_ok_iff.mp hret
  unfold View.HasRoom at hroom
  unfold TypesLink
  cases hfind : (v.data p).find? (v.takes site.filename.length) with
  | some c =>
      rw [hfind] at henter hroom
      have hcdata := List.mem_of_find?_eq_some hfind
      obtain ⟨d₃, w, entries, hput', hw, hrw, hadds⟩ := henter ((hfits c hcdata).mpr hroom)
      obtain ⟨rfl, rfl⟩ := Prod.mk.inj (Except.ok.inj (hput'.symm.trans hput))
      obtain rfl : d₃ = d' := congrArg Prod.snd (Except.ok.inj hgrow)
      have hcdata_u : c ∈ u.data p := by rwa [(hkeeps p hp).data_eq]
      exact ⟨w, _, hw, hcu.enters hpu hdir_u hdirect_u hcdata_u hrw hadds hnu,
        hrw.spares hcdata_u, rfl, rfl, iff_of_true rfl fun hnone => absurd hnone (by simp)⟩
  | none =>
      rw [hfind] at henter hroom
      obtain ⟨rfl, rfl⟩ := Prod.mk.inj (Except.ok.inj (henter.symm.trans hput))
      have hzero_u : ∃ i < directBlockCount, (u.inode p).block i = 0 := by
        rw [(hkeeps p hp).block]
        exact hroom.1
      obtain ⟨hentry_u, hsame⟩ :=
        hentry.keeps hc (hkeeps k hentry.isDir.1) ((hlive k).mpr (.inr hentry.isDir.1))
      obtain ⟨w, hw, henters, hspares⟩ :=
        hlink.shows.growSymbolicLink hcu hpu hdir_u hdirect_u hname hzero_u hentry_u hnu hgrow
      refine ⟨w, _, hw, henters, hspares, rfl, rfl, ?_⟩
      rw [show fileType u.byte site.file = fileType v.byte site.file from
        congrArg DirEntry.fileType hsame]
      exact ⟨fun htype _ => htype, fun htype => htype rfl⟩

end Layout

/-! ## The link -/

/-- What `ext2_ln -s` takes for granted about the paths and the place for the name:
there is room for it in the root directory, and a path with more names in front
of it leads to an inode that is not a reserved one. -/
structure SymLinkable (L : Layout) (v : View) (filePath destPath : CString) : Prop
    extends LinkPaths v filePath destPath where
  room : ∀ name, tokens destPath = [name] → name.length < 256 ∧
    v.HasRoom L rootInodeNumber name.length 0
  notReserved : ∀ names name p, names ≠ [] → tokens destPath = names ++ [name] →
    v.reach rootInodeNumber names = some p → 8 < p

/-- The symbolic link `n` under `destPath`, in directory `p`, and nothing else. -/
structure SymLinked (L : Layout) (v w : View) (d' : Disk) (filePath destPath : CString)
    (p n : ℕ) (name : CString) : Prop where
  consistent : w.Consistent L
  place : ∃ names, tokens destPath = names ++ [name] ∧ v.reach rootInodeNumber names = some p
  found : ∃ entry, findDirEntry d' destPath = .ok (some entry) ∧
    dirEntry d'.byte entry = ⟨name, n, ext2FtSymlink⟩
  fresh : ¬ v.Live L n
  live : w.Live L n
  mode : (w.inode n).mode = ext2SIflnk
  size : (w.inode n).size = filePath.length
  content : v.bit .block ((w.inode n).block 0 - 1) = false ∧
    getBytes w.byte (1024 * (w.inode n).block 0) filePath.length = filePath
  parent : Adds ⟨name, n, ext2FtSymlink⟩ (v.files p) (w.files p)
  parentInode : (w.inode p).mode = (v.inode p).mode ∧ (w.inode p).size = (v.inode p).size ∧
    (w.inode p).linksCount = (v.inode p).linksCount ∧
    ∀ i, (v.inode p).block i ≠ 0 → (w.inode p).block i = (v.inode p).block i
  inodes : ∀ k, k ≠ n → k ≠ p → w.inode k = v.inode k
  directories : ∀ k, k ≠ p → v.Live L k → (v.inode k).IsDirectory → w.files k = v.files k
  blocks : ∀ c, v.bit .block (c - 1) = true → c ∉ v.data p → v.SameBlock w c

/-- A link to the path has been made: between `v` and `u` it gets its inode and its
block, between `u` and `w` the root directory gets the entry `new`. -/
structure MakesSymLink (L : Layout) (d : Disk) (v u w : View) (filePath : CString)
    (site : LinkSite) (name : CString) (n b : ℕ) (new : DirEntry) : Prop
    extends LinkPlace L d v filePath site [] name rootInodeNumber where
  short : filePath.length ≤ 1024
  taken : ∃ d₁, Layout.TakesLink L v d₁ u filePath n b
  enters : View.Enters L u w rootInodeNumber new
  spares : u.Spares w rootInodeNumber
  name_eq : new.name = name
  inode_eq : new.inode = n
  typed : new.fileType = ext2FtSymlink ↔ TypesLink v rootInodeNumber site.file name

/-- The table begins behind the first blocks of the image, and the inodes are taken to be
128 times as far apart as they are. -/
theorem LinkPlace.le_symbolicLinkDir {dir : CString}
    (hplace : LinkPlace L d v filePath site dir name p) (h : L.Shows d v) (hdir : dir ≠ [])
    (hp : 8 < p) : 1024 * 128 ≤ symbolicLinkDir d site.dir := by
  have haddress := hplace.dirInode
  cases hsite : site.dir with
  | none => exact absurd (hplace.root.mp hsite) hdir
  | some entry =>
      rw [hsite, hardLinkDir, inodePtr, h.getInodeTable_eq] at haddress
      split_ifs at haddress with hzero
      rw [follow] at haddress
      split_ifs at haddress with hin
      have hnum := Except.ok.inj haddress
      have hlt : entryInode d.byte entry < 2 ^ 32 := get32_lt _ _
      rw [Layout.inodeAddress] at hnum
      simp only [symbolicLinkDir]
      omega

/-- The link has its inode and its block when it is going to be entered. -/
theorem Layout.Shows.symLinkPlace (h : L.Shows d v) (hc : v.Consistent L)
    (hpaths : LinkPaths v filePath destPath)
    (hret : ext2Ln d true filePath destPath now depth = .ok (0, d')) :
    ∃ site dir name p, destPath = dir ++ slash :: name ∧ LnAccepts d filePath destPath site ∧
      LinkPlace L d v filePath site dir name p ∧ filePath.length ≤ 1024 ∧
      ∃ d₁ u n b, TakesLink L v d₁ u filePath n b ∧ (do
        let dirInode ← follow d₁ (symbolicLinkDir d site.dir)
        let (found, d) ← allocateSpace d₁ dirInode site.filename.length n site.filename
          ext2FtSymlink (List.range totalBlockCount)
        if found then .ok (0, d) else Ext2.growSymbolicLink d site dirInode n b) =
          .ok (0, d') := by
  rcases ext2Ln_cases hret with ⟨site, site', haccepts, hcopy, hlink⟩ | ⟨-, -, hcode⟩
  swap
  · exact absurd rfl hcode
  obtain rfl : site = site' :=
    Except.ok.inj ((LinkSite.afterCopy_of_lt hpaths.fits site).symm.trans hcopy)
  rw [argcNotFour_of_lt hpaths.fits, if_pos rfl] at hlink
  obtain ⟨dir, name, p, rfl, hplace⟩ := h.linkPlace hc haccepts hpaths
  rcases h.symbolicLink_cases hc hlink with ⟨-, hcode, -⟩ | ⟨-, ⟨-, hcode, -⟩ | hmade⟩
  · exact absurd rfl hcode
  · exact absurd rfl hcode
  obtain ⟨hshort, hmade⟩ := hmade
  exact ⟨site, dir, name, p, rfl, haccepts, hplace, hshort, hmade⟩

theorem Layout.Shows.makesSymLink (h : L.Shows d v) (hc : v.Consistent L)
    (hblocks : d.numBlocks ≤ 128) (hlinkable : SymLinkable L v filePath destPath)
    (hret : ext2Ln d true filePath destPath now depth = .ok (0, d')) :
    ∃ u w site name n b new, destPath = slash :: name ∧ L.Shows d' w ∧
      MakesSymLink L d v u w filePath site name n b new := by
  obtain ⟨site, dir, name, p, rfl, -, hplace, hshort, d₁, u, n, b, htaken, henter⟩ :=
    h.symLinkPlace hc hlinkable.toLinkPaths hret
  obtain ⟨k, hentry⟩ := hplace.entry
  -- the name is one in the root directory
  have hnil : dir = [] := by
    by_contra hdir
    have hp := hlinkable.notReserved _ _ _ (mt hplace.named hdir) hplace.tokens_eq hplace.reach
    have hfar := hplace.le_symbolicLinkDir h hdir hp
    have hnum : d₁.numBlocks = d.numBlocks :=
      htaken.shows.1.numBlocks_eq.trans h.1.numBlocks_eq.symm
    obtain ⟨dirInode, hfollow, -⟩ := Runs.bind_eq_ok_iff.mp henter
    rw [follow, if_neg (by omega)] at hfollow
    exact absurd hfollow (by simp)
  subst hnil
  obtain rfl : rootInodeNumber = p := Option.some.inj hplace.reach
  obtain ⟨hname, hroom⟩ := hlinkable.room name hplace.tokens_eq
  have hsite : symbolicLinkDir d site.dir = L.inodeAddress rootInodeNumber := by
    rw [hplace.root.mpr rfl, symbolicLinkDir, h.getInodeTable_eq]
    rfl
  rw [hsite, htaken.shows.follow_inode isInode_root] at henter
  rw [← hplace.filename] at hname hroom
  obtain ⟨w, new, hw, henters, hspares, hnew, hinode, htyped⟩ :=
    htaken.enters hc hc.root.1 hc.root.2 hplace.directOnly hname hroom hentry henter
  rw [hplace.filename] at hnew htyped
  exact ⟨u, w, site, name, n, b, new, rfl, hw, hplace, hshort, ⟨d₁, htaken⟩, henters, hspares, hnew,
    hinode, htyped⟩

section MakesSymLink

variable (hmakes : MakesSymLink L d v u w filePath site name n b new) (hc : v.Consistent L)

include hmakes hc

theorem MakesSymLink.keeps (hk : v.Live L k) : v.Keeps u k := by
  obtain ⟨d₁, htaken⟩ := hmakes.taken
  exact htaken.takes.keeps hc htaken.freeInode htaken.freeBlock hk

theorem MakesSymLink.files_root : u.data rootInodeNumber = v.data rootInodeNumber ∧
    u.files rootInodeNumber = v.files rootInodeNumber := by
  have hkeeps := hmakes.keeps hc hc.root.1
  exact ⟨hkeeps.data_eq, (hkeeps.files_eq hc hc.root.1 hc.root.2).2⟩

/-- What is found under the name is the new entry. -/
theorem MakesSymLink.found (hw : L.Shows d' w) :
    ∃ entry, findDirEntry d' (slash :: name) = .ok (some entry) ∧ dirEntry d'.byte entry = new := by
  have hcw := hmakes.enters.consistent
  have hopen : w.OpenAt L rootInodeNumber name :=
    hcw.openAt hcw.root.1 hmakes.enters.isDirectory (.inl hmakes.enters.directOnly)
  obtain ⟨r, hlocate, hr⟩ := hw.locateFileByName_eq hopen.isInode hopen.blocks hopen.searchable
  have hnone : u.lookup rootInodeNumber new.name = none := by
    rw [hmakes.name_eq, View.lookup, (hmakes.files_root hc).2]
    exact hmakes.missing
  rw [← hmakes.name_eq, hmakes.enters.lookup_eq hnone] at hr
  obtain ⟨entry, rfl, hentry⟩ := Option.map_eq_some_iff.mp hr
  refine ⟨entry, ?_, hentry⟩
  rw [← hlocate]
  exact hw.findDirEntry_name Layout.isInode_root hmakes.noSlash hmakes.nonempty hmakes.absolute
    (.inl ⟨rfl, rfl⟩)

/-- The inode of the link and its block are as they were when the directory got
the entry. -/
theorem MakesSymLink.content : (w.inode n).mode = ext2SIflnk ∧
    (w.inode n).size = filePath.length ∧ (w.inode n).block 0 = b ∧
    getBytes w.byte (1024 * b) filePath.length = filePath := by
  obtain ⟨d₁, htaken⟩ := hmakes.taken
  have hroot : n ≠ rootInodeNumber := by
    rintro rfl
    exact absurd htaken.good (by decide)
  have hinode := hmakes.spares.inode n hroot
  rw [htaken.inode] at hinode
  have hshort := hmakes.short
  have hnotin : b ∉ u.data rootInodeNumber := by
    rw [(hmakes.files_root hc).1]
    exact fun hin => (hc.free_block htaken.freeBlock).2.2 _ hc.root.1
      (View.data_subset_owned v _ hin)
  have hbit : u.bit .block (b - 1) = true := by
    rw [htaken.takes.bit_eq]
    exact View.bit_mark_self _ .block b
  have hsame := hmakes.spares.block b hbit hnotin
  refine ⟨by rw [hinode], ?_, by simp [hinode], ?_⟩
  · rw [hinode]
    exact Nat.mod_eq_of_lt (by omega)
  · rw [getBytes_congr fun i hi => hsame i (by omega)]
    exact htaken.content

theorem MakesSymLink.symLinked (hw : L.Shows d' w)
    (htype : TypesLink v rootInodeNumber site.file name) :
    SymLinked L v w d' filePath (slash :: name) rootInodeNumber n name := by
  obtain ⟨d₁, htaken⟩ := hmakes.taken
  obtain ⟨entry, hfind, hentry⟩ := hmakes.found hc hw
  obtain ⟨hdata, hfiles⟩ := hmakes.files_root hc
  obtain ⟨hmode, hsize, hblock, hcontent⟩ := hmakes.content hc
  obtain ⟨-, -, hbit⟩ := View.mem_clear.mp htaken.freeBlock
  have hnew : new = ⟨name, n, ext2FtSymlink⟩ := by
    rw [← hmakes.name_eq, ← hmakes.inode_eq, ← hmakes.typed.mpr htype]
  have hlive : ∀ k, u.Live L k ↔ k = n ∨ v.Live L k := fun k =>
    htaken.takes.live_iff htaken.freeInode
  have hfresh : ¬ v.Live L n := fun h =>
    Bool.false_ne_true ((View.mem_clear.mp htaken.freeInode).2.2.symm.trans h.2)
  have hroot : rootInodeNumber ≠ n := fun heq => hfresh (heq ▸ hc.root.1)
  have hparent : u.inode rootInodeNumber = v.inode rootInodeNumber := htaken.takes.inode _ hroot
  have hspares := hmakes.spares
  refine ⟨hmakes.enters.consistent, ⟨[], hmakes.tokens_eq, rfl⟩, ⟨entry, hfind, ?_⟩, hfresh,
    (hmakes.enters.live n).mpr ((hlive n).mpr (.inl rfl)), hmode, hsize, ?_, ?_, ?_, ?_, ?_, ?_⟩
  · rw [hentry, hnew]
  · rw [hblock]
    exact ⟨hbit, hcontent⟩
  · rw [← hfiles, ← hnew]
    exact hmakes.enters.adds
  · rw [← hparent]
    exact ⟨hspares.mode, hspares.size, hspares.linksCount, hspares.slots⟩
  · exact fun k hkn hkp => (hspares.inode k hkp).trans (htaken.takes.inode k hkn)
  · intro k hkp hk hdir
    have hkeeps := hmakes.keeps hc hk
    have hcu := htaken.consistent hc
    have hku : u.Live L k := (hlive k).mpr (.inr hk)
    have hstill := (hmakes.enters.keeps k hkp hku).files_eq hcu hku
      (hkeeps.isDirectory_iff.mpr hdir)
    exact hstill.2.trans (hkeeps.files_eq hc hk hdir).2
  · intro c hused hc' i hi
    have hcb : c ≠ b := by
      rintro rfl
      exact Bool.false_ne_true (hbit.symm.trans hused)
    have hbit_u : u.bit .block (c - 1) = true := by
      rw [htaken.takes.bit_eq]
      exact View.bit_mark_of_bit (View.bit_mark_of_bit hused n) b
    rw [← hdata] at hc'
    exact (hspares.block c hbit_u hc' i hi).trans (htaken.takes.same c hcb i hi)

end MakesSymLink

theorem ln_symLinked_iff (h : L.Shows d v) (hc : v.Consistent L) (hblocks : d.numBlocks ≤ 128)
    (hlinkable : SymLinkable L v filePath destPath)
    (hret : ext2Ln d true filePath destPath now depth = .ok (0, d')) :
    (∃ w p n name, L.Shows d' w ∧ SymLinked L v w d' filePath destPath p n name) ↔
      ∀ file name, findDirEntry d filePath = .ok (some file) → tokens destPath = [name] →
        TypesLink v rootInodeNumber file name := by
  obtain ⟨u, w, site, name, n, b, new, rfl, hw, hmakes⟩ := h.makesSymLink hc hblocks hlinkable hret
  have htokens : tokens (slash :: name) = [name] := hmakes.tokens_eq
  constructor
  · rintro ⟨w', p, n', name', -, hlinked⟩ file name'' hsource honly
    obtain rfl : site.file = file :=
      Option.some.inj (Except.ok.inj (hmakes.source.symm.trans hsource))
    obtain rfl := List.singleton_inj.mp (htokens.symm.trans honly)
    obtain ⟨entry, hfind, hentry⟩ := hmakes.found hc hw
    obtain ⟨entry', hfind', hentry'⟩ := hlinked.found
    obtain rfl := Option.some.inj (Except.ok.inj (hfind.symm.trans hfind'))
    apply hmakes.typed.mp
    rw [← hentry, hentry']
  · intro hall
    exact ⟨w, rootInodeNumber, n, name, hw,
      hmakes.symLinked hc hw (hall _ _ hmakes.source htokens)⟩

/-! ## A root directory without a place -/

theorem link_symLinkable : SymLinkable smallLayout linkView [slash, 0x66#8] [slash, 0x68#8] := by
  have htokens : tokens [slash, 0x68#8] = [[0x68#8]] := by decide
  refine ⟨⟨by decide, by decide, by decide, link_searchPath [0x66#8], link_searchPath [0x68#8]⟩,
    fun name hname => ?_, fun names name p hne hsplit _ => ?_⟩
  · obtain rfl := List.singleton_inj.mp (htokens.symm.trans hname)
    refine ⟨by decide, ?_⟩
    rw [View.HasRoom, List.length_singleton, link_place]
    decide
  · have hlength := congrArg List.length (htokens.symm.trans hsplit)
    rw [List.length_append, List.length_singleton] at hlength
    exact absurd (List.length_eq_zero_iff.mp (Nat.succ.inj hlength.symm)) hne

theorem ln_symLinked_iff_root : ∃ d' w p n name,
    ext2Ln linkDisk true [slash, 0x66#8] [slash, 0x68#8] 0 0 = .ok (0, d') ∧
      smallLayout.Shows d' w ∧
      SymLinked smallLayout linkView w d' [slash, 0x66#8] [slash, 0x68#8] p n name := by
  obtain ⟨d', hret⟩ := exists_ok_of_map_fst (show
    (ext2Ln linkDisk true [slash, 0x66#8] [slash, 0x68#8] 0 0).map Prod.fst = .ok 0 by
      decide)
  obtain ⟨w, p, n, name, hw, hlinked⟩ :=
    (ln_symLinked_iff link_shows link_consistent (by decide) link_symLinkable hret).mpr
      fun file name _ honly => by
        have htokens : tokens [slash, 0x68#8] = [[0x68#8]] := by decide
        obtain rfl := List.singleton_inj.mp (htokens.symm.trans honly)
        rw [TypesLink, List.length_singleton, link_place]
        exact fun hnone => absurd hnone (by simp)
  exact ⟨d', w, p, n, name, hret, hw, hlinked⟩

/-- The block of the root directory ends with the entry of the file `f`, which has no room
for another one. -/
def packedDisk : Disk where
  numBlocks := 16
  byte x :=
    match x / 1024 with
    | 1 => putBytes (fun _ => 0) sInodesCount
        (bytes32 16 ++ bytes32 16 ++ bytes32 0 ++ bytes32 8 ++ bytes32 4) x
    | 2 => putBytes (fun _ => 0) bgBlockBitmap
        (bytes32 3 ++ bytes32 4 ++ bytes32 5 ++ bytes16 8 ++ bytes16 4) x
    | 3 => putBytes (fun _ => 0) (1024 * 3) [0x7F#8, 0x80#8] x
    | 4 => putBytes (fun _ => 0) (1024 * 4) [0xFF#8, 0x0F#8] x
    | 5 => putInodes (fun _ => 0) (smallLayout.inodeAddress 2) [(ext2SIfdir, 2, 7)] x
    | 6 => putInodes (fun _ => 0) (smallLayout.inodeAddress 12) [(ext2SIfreg, 1, 0)] x
    | 7 => putBytes (putBytes (fun _ => 0) (1024 * 7) (entryBytes 2 12 ext2FtDir [dot] ++
        [0#8, 0#8, 0#8] ++ entryBytes 2 1000 ext2FtDir [dot, dot])) (1024 * 7 + 1012)
        (entryBytes 12 12 ext2FtRegFile [0x66#8]) x
    | _ => 0

def packedView : View := smallLayout.view packedDisk

theorem packed_shows : smallLayout.Shows packedDisk packedView :=
  ⟨⟨rfl, by decide, by decide, by decide, by decide,
    by decide⟩, rfl⟩

def packedOwned (n : ℕ) : List ℕ := if n = 2 then [7] else []

theorem packed_owned : ∀ n < 17, packedView.owned n = packedOwned n := by decide

theorem packed_consistent : packedView.Consistent smallLayout :=
  View.consistent_of_table packedOwned packed_owned (fun t => by cases t <;> decide)
    (by decide) (by decide) (by decide) (by decide)
    (by decide) (by decide) (by decide)

/-- The new block gets the link as a regular file. -/
theorem ln_not_symLinked : ¬ ∀ (L : Layout) (d d' : Disk) (v : View)
    (filePath destPath : CString) (now depth : ℕ), L.Shows d v → v.Consistent L →
    d.numBlocks ≤ 128 → filePath.length ≤ 1023 →
    ext2Ln d true filePath destPath now depth = .ok (0, d') →
      ∃ w p n name, L.Shows d' w ∧ SymLinked L v w d' filePath destPath p n name := by
  intro h
  obtain ⟨d', hret, htype⟩ : ∃ d',
      ext2Ln packedDisk true [slash, 0x66#8] [slash, 0x68#8] 0 0 = .ok (0, d') ∧
        (findDirEntry d' [slash, 0x68#8]).map (Option.map (fileType d'.byte)) =
          .ok (some ext2FtRegFile) :=
    exists_ok_of_map (f := fun d' =>
      (findDirEntry d' [slash, 0x68#8]).map (Option.map (fileType d'.byte))) (by decide +kernel)
  obtain ⟨w, p, n, name, -, hlinked⟩ :=
    h _ _ _ _ _ _ _ _ packed_shows packed_consistent (by decide) (by decide) hret
  obtain ⟨entry, hfind, hentry⟩ := hlinked.found
  rw [hfind] at htype
  have hlink : fileType d'.byte entry = ext2FtSymlink := congrArg DirEntry.fileType hentry
  have hfile := Option.some.inj (Except.ok.inj htype)
  exact absurd (hfile.symm.trans hlink) (by decide)

end KernelProgramming.Ext2
