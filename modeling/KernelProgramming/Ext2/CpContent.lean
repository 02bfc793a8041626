import KernelProgramming.Ext2.FileContent
import KernelProgramming.Ext2.FirstEntries

/-!
# cp, then reading the file

When `ext2_cp` makes a new file, the name is found in its directory, and the
file is read back from the inode that it names.
-/

namespace KernelProgramming.Ext2

open ByteMemory BlockMap

variable {L : Layout} {d d' : Disk} {u v w : View} {content : List Byte}
  {b k n p now : ℕ} {bs : List ℕ} {name leftover nativePath destPath : CString}

/-! ## The inode of the file -/

/-- The inode as it is before the first block is written. -/
def fileInode (size : ℕ) : Inode := ⟨ext2SIfreg, size, 0, 1, 0, fun _ => 0⟩

/-- Inode `n` and the blocks `bs`, which were free, are taken for the file. -/
structure View.TakesFile (L : Layout) (v w : View) (n : ℕ) (content : List Byte) (bs : List ℕ) :
    Prop where
  free : n ∈ v.clear L .inode
  good : ext2GoodOldFirstIno < n
  stored : Stored L n content totalBlockCount
    ((v.mark .inode n).setInode n (fileInode content.length)) w bs

namespace View.TakesFile

variable (h : v.TakesFile L w n content bs)

include h

theorem fresh : ¬ v.Live L n := fun hlive =>
  Bool.false_ne_true ((mem_clear.mp h.free).2.2.symm.trans hlive.2)

theorem isInode : L.IsInode n := Layout.isInode_of_clear h.free

theorem clear_eq : v.clear L .block = bs ++ w.clear L .block := by
  rw [← h.stored.lays.clear_eq, View.clear_setInode, View.clear_mark_of_ne (by decide)]

theorem live_iff : w.Live L k ↔ k = n ∨ v.Live L k :=
  View.live_mark_inode h.isInode h.stored.lays.inodeBit

theorem inode_of_ne (hk : k ≠ n) : w.inode k = v.inode k := by
  rw [h.stored.lays.others k hk, View.inode_setInode_of_ne hk]
  rfl

theorem inode_eq : w.inode n = { fileInode content.length with
    blocks := (w.inode n).blocks, block := (w.inode n).block } := by
  have hself := h.stored.lays.self
  rwa [View.inode_setInode] at hself

theorem same {c : ℕ} (hc : c ∉ bs) : v.SameBlock w c :=
  h.stored.lays.same c List.not_mem_nil hc

theorem not_directory : ¬ (w.inode n).IsDirectory := by
  rw [h.inode_eq]
  exact show ¬ ext2SIfreg / 4096 = 4 by decide

theorem keeps (hc : v.Consistent L) (hk : v.Live L k) : v.Keeps w k := by
  have hkn : k ≠ n := by
    rintro rfl
    exact h.fresh hk
  have hinode := h.inode_of_ne hkn
  refine ⟨by rw [hinode], by rw [hinode], fun c hin => h.same fun hcbs => ?_⟩
  have hfree : c ∈ v.clear L .block := by
    rw [h.clear_eq]
    exact List.mem_append_left _ hcbs
  exact (hc.free_block hfree).2.2 k hk hin

/-- A new file that needs no pointer block, or finds no numbers in the free blocks. -/
theorem owned_eq (hblank : directBlockCount < numChunks content → v.Blank L) :
    w.owned n = bs := by
  refine h.stored.owned_eq (fun i => ?_) fun hlarge b hb i hi => ?_
  · rw [View.inode_setInode]
    rfl
  · rw [View.clear_setInode, View.clear_mark_of_ne (by decide)] at hb
    exact hblank hlarge b hb i hi

theorem consistent (hc : v.Consistent L)
    (hblank : directBlockCount < numChunks content → v.Blank L) : w.Consistent L := by
  have howned := h.owned_eq hblank
  have hlays := h.stored.lays
  obtain ⟨hnpos, hnle, -⟩ := mem_clear.mp h.free
  have hin : ∀ c ∈ bs, c ∈ v.clear L .block := fun c hc => by
    rw [h.clear_eq]
    exact List.mem_append_left _ hc
  have hnodup : bs.Nodup := (List.nodup_append.mp (h.clear_eq ▸ View.nodup_clear L v .block)).1
  have hmarked : ∀ c, v.bit .block c = true → w.bit .block c = true := fun c hbit =>
    (hlays.blockBit c).mpr (.inl (show (v.mark .inode n).bit .block c = true from
      bit_mark_of_bit hbit n))
  have hreplaces : Replaces L v w n :=
    { counted := hlays.counted (hc.counted.mark hnpos hnle)
      marked := fun c _ hbit _ => hmarked _ hbit
      live := fun k hk => h.live_iff.trans (or_iff_right hk)
      keeps := fun k _ hk => h.keeps hc hk
      used := fun _ c hc' => by
        rw [howned] at hc'
        obtain ⟨hne, hplain, -⟩ := hc.free_block (hin c hc')
        refine ⟨hne, hplain, (hlays.blockBit _).mpr (.inr ?_)⟩
        rwa [Nat.sub_add_cancel (Nat.pos_of_ne_zero hne)]
      once := fun _ => by rwa [howned]
      apart := fun _ k _ hk c hc' => by
        rw [howned] at hc'
        exact (hc.free_block (hin c hc')).2.2 k hk
      tiled := fun _ hdir => absurd hdir h.not_directory
      named := fun _ hdir => absurd hdir h.not_directory
      still := fun hlive => absurd hlive h.fresh
      root := fun heq => absurd h.good (by rw [heq]; decide) }
  exact hc.replace hreplaces

end View.TakesFile

namespace Layout

theorem Shows.groupFree_eq (h : L.Shows d v) (hc : v.Consistent L) :
    d.u16 bgFreeBlocksCount = (v.clear L .block).length := by
  obtain ⟨-, rfl⟩ := h
  exact (hc.counted .block).2

theorem Shows.size_lt (h : L.Shows d v) (hn : L.IsInode n) : (v.inode n).size < 2 ^ 32 := by
  rw [h.inode_eq hn]
  exact get32_lt _ _

/-- `copy_to` up to the point where the new file gets its name. -/
theorem Shows.takesFile (h : L.Shows d v) (hc : v.Consistent L)
    (henough : haveEnoughBlocks d content.length = true) (hinode : findFreeInode d ≠ 0) (now : ℕ) :
    ∃ d₁ w n bs, L.Shows d₁ w ∧ v.TakesFile L w n content bs ∧ bs.length = fileCost content ∧
      ∀ dest : Destination, dest.entry = none →
        copyTo d content now dest = linkNewFile d₁ dest n (L.inodeAddress n) := by
  obtain ⟨hn, hgood⟩ := h.findFreeInode_mem hinode
  obtain ⟨d₀, hmark, h₀, hptr⟩ := h.takeInode hn
  obtain ⟨hroom, hchunks⟩ := fileCost_le (h.groupFree_eq hc) henough
  have h₁ := h₀.initInode (isInode_of_clear hn) ext2SIfreg content.length now
  have hsize : content.length % 2 ^ 32 = content.length := by
    rw [numChunks, fill] at hchunks
    exact Nat.mod_eq_of_lt (by omega)
  rw [hsize] at h₁
  change L.Shows _ ((v.mark .inode (findFreeInode d)).setInode (findFreeInode d)
    (fileInode content.length)) at h₁
  have hclear : ((v.mark .inode (findFreeInode d)).setInode (findFreeInode d)
      (fileInode content.length)).clear L .block = v.clear L .block := by
    rw [View.clear_setInode, View.clear_mark_of_ne (by decide)]
  obtain ⟨d₁, w, bs, hcopy, hw, hstored, hlength⟩ :=
    copyFileData_stored h₁ (fun b hb => (hc.free_block (hclear ▸ hb)).2.1) (isInode_of_clear hn)
      (by rwa [hclear])
  refine ⟨d₁, w, _, bs, hw, ⟨hn, hgood, hstored⟩, hlength, fun dest hdest => ?_⟩
  rw [copyTo, hdest]
  simp only [if_neg hinode, bind, Except.bind, hmark, hptr, hcopy]

/-! ## The entry -/

theorem fillNewBlock_eq (d : Disk) (e inodeNum type : ℕ) (name : CString) :
    fillNewBlock d e name.length inodeNum name type =
      Ext2.fillFirstEntry d e inodeNum name.length name type := by
  rw [fillFirstEntry_eq, fillEntry, fillNewBlock, List.take_length]
  exact congrArg (Disk.mk d.numBlocks) (putBytes_comm (by simp) _)

/-- The directory gets a new block, which is filled before it gets its slot. -/
theorem Shows.entersAdded (h : L.Shows d v) (hc : v.Consistent L) (hp : v.Live L p)
    (hdir : (v.inode p).IsDirectory) (hdirect : (v.inode p).DirectOnly)
    (hname : name.length < 256) (hzero : ∃ i < directBlockCount, (v.inode p).block i = 0)
    (hfree : findFreeBlock d ≠ 0) (hn : v.Live L n) :
    ∃ d₁ w, updateBitmap d .block (findFreeBlock d) true = .ok d₁ ∧
      blockPtr d₁ (findFreeBlock d) = .ok (1024 * findFreeBlock d) ∧
      L.Shows (addBlock (fillNewBlock d₁ (1024 * findFreeBlock d) name.length n name ext2FtRegFile)
        (L.inodeAddress p) (findFreeBlock d)) w ∧
      View.Enters L v w p ⟨name, n, ext2FtRegFile⟩ ∧ v.Spares w p := by
  have hb := h.findFreeBlock_mem hfree
  set b := findFreeBlock d with hfreeBlock
  obtain ⟨hne, hle, -⟩ := View.mem_clear.mp hb
  have hcount := L.count_le .block
  obtain ⟨-, hplain, -⟩ := hc.free_block hb
  obtain ⟨d₁, hmark, h₁⟩ := h.updateBitmap_true .block hne (by omega)
  obtain ⟨w₁, h₂, hrw⟩ :=
    h₁.fillFirstEntry hplain hname hn.1 (show ext2FtRegFile < 256 by decide)
  rw [← fillNewBlock_eq] at h₂
  have hinode : w₁.inode = v.inode := by
    rw [hrw.eq]
    rfl
  obtain ⟨i, hi, hslot, hizero⟩ := h₂.freeSlot_eq hp.1 (by rwa [hinode])
  rw [hinode] at hizero
  have h₃ := h₂.setBlock hp.1 (hi.trans (by decide)) b
  have h₄ := h₃.setBlocks hp.1 ((w₁.inode p).blocks + 1)
  rw [View.setInode_setInode, View.inode_setInode, hinode,
    Nat.mod_eq_of_lt (show b < 2 ^ 32 by omega)] at h₄
  have hrw' : (v.attach p i b).Rewrites (w₁.setInode p { v.inode p with
      block := Function.update (v.inode p).block i b
      blocks := ((v.inode p).blocks + 1) % 2 ^ 32 }) b [⟨name, n, ext2FtRegFile⟩] := by
    refine ⟨?_, hrw.same, hrw.tiled, hrw.entries_eq⟩
    rw [View.setInode, hinode, View.attach, View.setInode, hrw.eq]
    rfl
  refine ⟨d₁, _, hmark, h₁.blockPtr_eq hplain.lt, ?_,
    hc.enters_block hp hdir hdirect hi hizero hb hrw' hn, hrw'.spares_attach hizero hb⟩
  rw [Ext2.addBlock, hslot]
  simp only
  rw [h₃.iBlocks_eq hp.1, View.inode_setInode]
  simp only [hinode]
  exact h₄

theorem Shows.linkNewFile (h : L.Shows d v) (hc : v.Consistent L) (hp : v.Live L p)
    (hdir : (v.inode p).IsDirectory) (hdirect : (v.inode p).DirectOnly)
    (hname : name.length < 256) (hroom : v.HasRoom L p name.length 1) (hn : v.Live L n)
    (newInode : ℕ) :
    ∃ d' w, linkNewFile d ⟨none, L.inodeAddress p, name⟩ n newInode = .ok (0, d') ∧
      L.Shows d' w ∧ View.Enters L v w p ⟨name, n, ext2FtRegFile⟩ ∧ v.Spares w p := by
  have hput := h.enter_place hc hp hdir hdirect hname hn (show ext2FtRegFile < 256 by decide)
  unfold View.HasRoom at hroom
  cases hfind : (v.data p).find? (v.takes name.length) with
  | some b =>
      rw [hfind] at hput hroom
      obtain ⟨d', w, entries, hput, hw, hrw, hadds⟩ := hput hroom
      have hb := List.mem_of_find?_eq_some hfind
      refine ⟨d', w, ?_, hw, hc.enters hp hdir hdirect hb hrw hadds hn, hrw.spares hb⟩
      rw [Ext2.linkNewFile]
      simp only [bind, Except.bind, hput, if_true]
  | none =>
      rw [hfind] at hput hroom
      have hfree : findFreeBlock d ≠ 0 := fun hnone => by
        rw [h.findFreeBlock_eq_zero_iff.mp hnone] at hroom
        exact absurd hroom.2 (by simp)
      obtain ⟨d₁, w, hmark, hptr, hw, henters, hspares⟩ :=
        h.entersAdded hc hp hdir hdirect hname hroom.1 hfree hn
      refine ⟨_, w, ?_, hw, henters, hspares⟩
      rw [Ext2.linkNewFile]
      simp only [bind, Except.bind, hput, Bool.false_eq_true, if_false, if_neg hfree, hmark, hptr]

end Layout

/-! ## The command -/

/-- What `ext2_cp` takes for granted when it is to make a file in directory `p`, under a name
that is not there. -/
structure Copyable (L : Layout) (v : View) (leftover nativePath destPath : CString)
    (content : List Byte) (p : ℕ) (name : CString) : Prop where
  absolute : destPath.head? = some slash
  fileName : findFileNameByPath nativePath = name
  nonempty : name ≠ []
  noSlash : slash ∉ name
  short : name.length < 256
  /-- the array that is not initialized starts with the end of a string -/
  initial : destPath.length ≠ 1 → leftover = []
  search : v.SearchPath rootInodeNumber (tokens destPath ++ [name])
  reach : v.reach rootInodeNumber (tokens destPath) = some p
  directory : destPath.length = 1 ∨
    ∃ e, v.walk rootInodeNumber (tokens destPath) = some e ∧ e.fileType = ext2FtDir
  missing : v.lookup p name = none
  room : v.HasRoom L p name.length (fileCost content + 1)
  /-- a file with pointer blocks finds no old numbers in them -/
  blank : directBlockCount < numChunks content → v.Blank L

/-- The file `n` in directory `p`, and nothing else. -/
structure CopiedFile (L : Layout) (v w : View) (d' : Disk) (destPath : CString)
    (content : List Byte) (p n : ℕ) (name : CString) : Prop where
  consistent : w.Consistent L
  found : ∃ entry, findDirEntry d' (destPath ++ slash :: name) = .ok (some entry) ∧
    dirEntry d'.byte entry = ⟨name, n, ext2FtRegFile⟩
  fresh : ¬ v.Live L n
  live : w.Live L n
  mode : (w.inode n).mode = ext2SIfreg
  size : (w.inode n).size = content.length
  linksCount : (w.inode n).linksCount = 1
  stores : ∀ j < maxBlocks, sourceBlock j < numChunks content →
    w.Holds content (w.fileBlock n j) (sourceBlock j)
  leavesOut : ∀ c < numChunks content, (∀ j < maxBlocks, sourceBlock j ≠ c) ↔
    268 ≤ c ∧ (c - 268) % 257 = 256
  contents : numChunks content ≤ 524 → w.contents n = content
  parent : Adds ⟨name, n, ext2FtRegFile⟩ (v.files p) (w.files p)
  inodes : ∀ k, k ≠ n → k ≠ p → w.inode k = v.inode k
  directories : ∀ k, k ≠ p → v.Live L k → (v.inode k).IsDirectory → w.files k = v.files k
  others : ∀ k, v.Live L k → ¬ (v.inode k).IsDirectory → w.contents k = v.contents k

section Command

variable (h : L.Shows d v) (hc : v.Consistent L)

include h hc

/-- The array for the path of the new file has room for it, or it is overrun. -/
theorem Copyable.findDestination_eq
    (hcopy : Copyable L v leftover nativePath destPath content p name) :
    findDestination d leftover nativePath destPath =
      if pathMax < destPath.length + 1 + name.length then .error .overrun
      else .ok (.inr ⟨none, L.inodeAddress p, name⟩) := by
  have htail := tokens_tail hcopy.absolute
  have hhead : (destPath ++ slash :: name).head? = some slash := by
    rw [List.head?_append, hcopy.absolute]
    rfl
  obtain ⟨r, hfind, hr⟩ := h.findDirEntry_lookup hc hcopy.noSlash hcopy.nonempty hhead hcopy.search
    hcopy.reach
  rw [hcopy.missing, Option.map_eq_none_iff] at hr
  subst hr
  have hlength : (destPath ++ slash :: name).length = destPath.length + 1 + name.length := by
    rw [List.length_append, List.length_cons]
    omega
  have hin : destinationIn d (L.inodeAddress p) [] nativePath destPath =
      if pathMax < destPath.length + 1 + name.length then .error .overrun
      else .ok (.inr ⟨none, L.inodeAddress p, name⟩) := by
    have hshort := hcopy.short
    rw [destinationIn]
    simp only [hcopy.fileName, if_neg (show ¬ name.length > 1016 by omega), List.nil_append,
      hlength, hfind, bind, Except.bind]
  rw [Ext2.findDestination]
  by_cases hone : destPath.length = 1
  · obtain ⟨c, rfl⟩ := List.length_eq_one_iff.mp hone
    obtain rfl : c = slash := by simpa using hcopy.absolute
    obtain rfl : rootInodeNumber = p := Option.some.inj hcopy.reach
    rw [if_pos hone, h.getRootInode_eq]
    exact hin
  · obtain ⟨e, he, htype⟩ := hcopy.directory.resolve_left hone
    have hne : tokens destPath ≠ [] := by
      intro hnil
      rw [hnil] at he
      cases he
    obtain ⟨r, hdest, hr⟩ := h.findDirEntry_eq hc destPath
      (by rw [htail]; exact hcopy.search.of_append) (by rwa [htail])
    rw [htail, he] at hr
    obtain ⟨entry, rfl, rfl⟩ := Option.map_eq_some_iff.mp hr
    have hreach := hcopy.reach
    rw [← v.walk_eq_reach _ hne, he] at hreach
    obtain rfl : entryInode d.byte entry = p := Option.some.inj hreach
    have hp := hc.live_of_reach hc.root.1 hcopy.reach
    rw [if_neg hone, hcopy.initial hone]
    simp only [bind, Except.bind, hdest, h.inodePtr_eq hp.1]
    rw [if_pos (show fileType d.byte entry = ext2FtDir from htype)]
    exact hin

theorem Copyable.findDestination (hcopy : Copyable L v leftover nativePath destPath content p name)
    (hfits : destPath.length + 1 + name.length ≤ pathMax) :
    findDestination d leftover nativePath destPath =
      .ok (.inr ⟨none, L.inodeAddress p, name⟩) := by
  rw [hcopy.findDestination_eq h hc, if_neg (Nat.not_lt_of_ge hfits)]

/-- The file and its name, in two steps. -/
theorem Copyable.run (hcopy : Copyable L v leftover nativePath destPath content p name)
    (hfits : destPath.length + 1 + name.length ≤ pathMax)
    (henough : haveEnoughBlocks d content.length = true) (hinode : findFreeInode d ≠ 0)
    (now : ℕ) :
    ∃ d' u w n bs,
      ext2Cp d leftover nativePath (some ⟨true, true, content⟩) destPath now = .ok (0, d') ∧
      L.Shows d' w ∧ v.TakesFile L u n content bs ∧
      View.Enters L u w p ⟨name, n, ext2FtRegFile⟩ ∧ u.Spares w p ∧
      ((v.inode p).block 0 ≠ 0 → u.KeepsFirst w p) := by
  have hp := hc.live_of_reach hc.root.1 hcopy.reach
  obtain ⟨hdir, hsearch⟩ := hcopy.search.directory hcopy.reach
  have hdirect := View.directOnly_of_lookup hsearch hcopy.missing
  obtain ⟨d₁, u, n, bs, hu, htakes, hlength, hlink⟩ := h.takesFile hc henough hinode now
  have hkeeps := htakes.keeps hc hp
  have hroom : u.HasRoom L p name.length 1 := hkeeps.hasRoom hc hp hdir (fun hle => by
    rw [htakes.clear_eq, List.length_append, hlength] at hle
    omega) hcopy.room
  have hcu := htakes.consistent hc hcopy.blank
  have hp_u : u.IsDir L p := ⟨htakes.live_iff.mpr (.inr hp), hkeeps.isDirectory_iff.mpr hdir⟩
  have hdirect_u := hkeeps.directOnly hdirect
  have hn_u : u.Live L n := htakes.live_iff.mpr (.inl rfl)
  obtain ⟨d', w, hret, hw, henters, hspares⟩ :=
    hu.linkNewFile hcu hp_u.1 hp_u.2 hdirect_u hcopy.short hroom hn_u (L.inodeAddress n)
  refine ⟨d', u, w, n, bs, ?_, hw, htakes, henters, hspares, fun hslot => ?_⟩
  swap
  · exact hu.linkNewFile_keepsFirst hcu hp_u hdirect_u (by rwa [hkeeps.block]) hcopy.short
      (hroom.mono (Nat.zero_le 1)) hn_u hret w hw
  rw [ext2Cp]
  simp only [not_true_eq_false, if_false, henough, hcopy.absolute, ne_eq, bind, Except.bind,
    hcopy.findDestination h hc hfits]
  exact (hlink _ rfl).trans hret

omit h in
/-- What is in use before the command and is not a block of the directory stays. -/
theorem View.TakesFile.sameBlock (htakes : v.TakesFile L u n content bs) (hspares : u.Spares w p)
    (hp : v.Live L p) (hk : v.Live L k) (hkp : k ≠ p) {c : ℕ} (hin : c ∈ v.owned k) :
    v.SameBlock w c := by
  have hkeeps := htakes.keeps hc hp
  have hbit : u.bit .block (c - 1) = true :=
    (htakes.stored.lays.blockBit _).mpr (.inl (show (v.mark .inode n).bit .block (c - 1) = true from
      View.bit_mark_of_bit (hc.used k hk c hin).2.2 n))
  refine ((htakes.keeps hc hk).same c hin).trans (hspares.block c hbit fun hdata => ?_)
  rw [hkeeps.data_eq] at hdata
  exact hc.apart k p hk hp hkp c hin (View.data_subset_owned v p hdata)

omit h in
/-- The file does not change when the directory gets the name. -/
theorem View.TakesFile.keeps_file (htakes : v.TakesFile L u n content bs)
    (hspares : u.Spares w p) (hp : v.Live L p) (hblank : directBlockCount < numChunks content →
      v.Blank L) : w.inode n = u.inode n ∧ ∀ c ∈ u.owned n, u.SameBlock w c := by
  refine ⟨hspares.inode n fun heq => htakes.fresh (heq ▸ hp), fun c hin => ?_⟩
  rw [htakes.owned_eq hblank] at hin
  have hclear : c ∈ v.clear L .block := by
    rw [htakes.clear_eq]
    exact List.mem_append_left _ hin
  have hbit : u.bit .block (c - 1) = true := (htakes.stored.lays.blockBit _).mpr (.inr (by
    rwa [Nat.sub_add_cancel (Nat.pos_of_ne_zero (View.mem_clear.mp hclear).1)]))
  refine hspares.block c hbit fun hdata => ?_
  rw [(htakes.keeps hc hp).data_eq] at hdata
  exact (hc.free_block hclear).2.2 p hp (View.data_subset_owned v p hdata)

omit h hc in
/-- What has been stored is there after the directory has got the name. -/
theorem View.TakesFile.readsBack (htakes : v.TakesFile L u n content bs)
    (hchunks : numChunks content ≤ 8192) (hinode : w.inode n = u.inode n)
    (hsame : ∀ c ∈ u.owned n, u.SameBlock w c) (howned : u.owned n = bs) :
    (∀ j < maxBlocks, sourceBlock j < numChunks content →
      w.Holds content (w.fileBlock n j) (sourceBlock j)) ∧
      (numChunks content ≤ 524 → w.contents n = content) := by
  refine ⟨fun j hj hin => ?_, fun hsmall => ?_⟩
  · obtain ⟨hholds, hmem⟩ := htakes.stored.fileBlock hj hin
    have hblock : w.fileBlock n j = u.fileBlock n j := by
      obtain ⟨hslot, hplace⟩ := slotOf_bounds hj
      rw [View.fileBlock, View.fileBlock, hinode]
      refine (View.leafAt_congr (fun c hc => hsame c ?_) hplace).1
      exact List.mem_flatMap.mpr ⟨_, List.mem_range.mpr hslot, hc⟩
    rw [hblock]
    exact hholds.congr (hsame _ (howned ▸ hmem))
  · have hsize : (u.inode n).size = content.length := by
      rw [htakes.inode_eq]
      rfl
    have hlt : (u.inode n).size < 2 ^ 32 := by
      rw [hsize]
      rw [numChunks, fill] at hchunks
      omega
    rw [View.contents_congr (by rw [hinode]) (by rw [hinode]) hlt hsame]
    exact htakes.stored.contents_eq hsmall hsize

/-- The file that has been made is read back, and the other files are as they were. -/
theorem cp_readsBack (hcopy : Copyable L v leftover nativePath destPath content p name)
    (hfits : destPath.length + 1 + name.length ≤ pathMax)
    (henough : haveEnoughBlocks d content.length = true) (hinode : findFreeInode d ≠ 0)
    (now : ℕ) :
    ∃ d' w n,
      ext2Cp d leftover nativePath (some ⟨true, true, content⟩) destPath now = .ok (0, d') ∧
      L.Shows d' w ∧ CopiedFile L v w d' destPath content p n name := by
  obtain ⟨d', u, w, n, bs, hret, hw, htakes, henters, hspares, -⟩ :=
    hcopy.run h hc hfits henough hinode now
  obtain ⟨-, hchunks⟩ := fileCost_le (h.groupFree_eq hc) henough
  have hp := hc.live_of_reach hc.root.1 hcopy.reach
  obtain ⟨hdir, -⟩ := hcopy.search.directory hcopy.reach
  have hcu := htakes.consistent hc hcopy.blank
  have hlive : ∀ k, v.Live L k → u.Live L k := fun k hk => htakes.live_iff.mpr (.inr hk)
  have hfiles : ∀ k, v.Live L k → (v.inode k).IsDirectory → u.files k = v.files k :=
    fun k hk hkdir => ((htakes.keeps hc hk).files_eq hc hk hkdir).2
  obtain ⟨hinode', hsame⟩ := htakes.keeps_file hc hspares hp hcopy.blank
  obtain ⟨hstores, hcontents⟩ :=
    htakes.readsBack hchunks hinode' hsame (htakes.owned_eq hcopy.blank)
  have hmode := htakes.inode_eq
  rw [← hinode'] at hmode
  have hnone : u.lookup p name = none := by
    rw [View.lookup, hfiles p hp hdir]
    exact hcopy.missing
  have hextends : v.Extends L w :=
    (hc.extends_of_keeps_all fun k hk => htakes.keeps hc hk).trans (henters.extends hcu hnone) hlive
  refine ⟨d', w, n, hret, hw, henters.consistent, ?_, htakes.fresh,
    (henters.live n).mpr (htakes.live_iff.mpr (.inl rfl)), ?_, ?_, ?_, hstores,
    fun c hc' => sourceBlock_ne_iff (by omega), hcontents, hfiles p hp hdir ▸ henters.adds,
    fun k hkn hkp => ?_, fun k hkp hk hkdir => ?_, fun k hk hkdir => ?_⟩
  · have hhead : (destPath ++ slash :: name).head? = some slash := by
      rw [List.head?_append, hcopy.absolute]
      rfl
    obtain ⟨r, hfind, hr⟩ := hw.findDirEntry_still hc henters.consistent hextends hcopy.noSlash
      hcopy.nonempty hhead hcopy.search hcopy.reach henters.isDirectory henters.directOnly
    rw [henters.lookup_eq hnone] at hr
    obtain ⟨entry, rfl, hentry⟩ := Option.map_eq_some_iff.mp hr
    exact ⟨entry, hfind, hentry⟩
  · rw [hmode]
    rfl
  · rw [hmode]
    rfl
  · rw [hmode]
    rfl
  · rw [hspares.inode k hkp, htakes.inode_of_ne hkn]
  · have hkeeps := (htakes.keeps hc hk).isDirectory_iff.mpr hkdir
    rw [((henters.keeps k hkp (hlive k hk)).files_eq hcu (hlive k hk) hkeeps).2, hfiles k hk hkdir]
  · have hkp : k ≠ p := fun heq => hkdir (heq ▸ hdir)
    have hkn : k ≠ n := fun heq => htakes.fresh (heq ▸ hk)
    have hinode : w.inode k = v.inode k := by rw [hspares.inode k hkp, htakes.inode_of_ne hkn]
    exact View.contents_congr (by rw [hinode]) (by rw [hinode]) (h.size_lt hk.1) fun c hin =>
      htakes.sameBlock hc hspares hp hk hkp hin

end Command

/-! ## A file with a pointer block -/

theorem wide_blank : wideView.Blank wideLayout := by
  intro b hb i hi
  have hclear : ∀ b ∈ wideView.clear wideLayout .block, 8 ≤ b ∧ wideLayout.IsPlain b := by decide
  obtain ⟨hge, hplain⟩ := hclear b hb
  have hbyte : ∀ x, 8 ≤ x / 1024 → wideDisk.byte x = 0 := by
    intro x hx
    simp only [wideDisk]
    split
    all_goals first | rfl | omega
  have hword : get32 wideView.byte (1024 * b + 4 * i) = get32 (fun _ => 0#8) 0 := by
    refine get32_congr fun k hk => ?_
    rw [numOfPtrsInBlock] at hi
    rw [Nat.add_assoc, ← wide_shows.byte_block hplain (by omega)]
    exact hbyte _ (by omega)
  rw [View.word, hword]
  rfl

theorem wide_copyable : Copyable wideLayout wideView [] [slash, 0x62#8] [slash] thirteenBlocks
    rootInodeNumber [0x62#8] where
  absolute := rfl
  fileName := by decide
  nonempty := by decide
  noSlash := by decide
  short := by decide
  initial := fun _ => rfl
  search := ⟨by decide, .inl fun i hi hi' => by
    have hall : ∀ i < totalBlockCount, directBlockCount ≤ i →
        (wideView.inode rootInodeNumber).block i = 0 := by decide
    exact hall i hi' hi, fun _ _ => trivial⟩
  reach := rfl
  directory := .inl rfl
  missing := by decide +kernel
  room := by
    have hfind : (wideView.data rootInodeNumber).find? (wideView.takes 1) = some 7 := by decide
    rw [View.HasRoom, List.length_singleton, hfind]
    decide
  blank := fun _ => wide_blank

theorem cp_readsBack_wide : ∃ d' w n, ext2Cp wideDisk [] [slash, 0x62#8]
    (some ⟨true, true, thirteenBlocks⟩) [slash] 7 = .ok (0, d') ∧ wideLayout.Shows d' w ∧
      CopiedFile wideLayout wideView w d' [slash] thirteenBlocks rootInodeNumber n [0x62#8] :=
  cp_readsBack wide_shows wide_consistent wide_copyable (by decide) wide_enough (by decide) 7

end KernelProgramming.Ext2
