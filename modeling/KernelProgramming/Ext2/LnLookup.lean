import KernelProgramming.Ext2.Entering
import KernelProgramming.Ext2.Hierarchy
import KernelProgramming.Ext2.LnFailure

/-!
# ln, then lookup

When `ext2_ln` without `-s` succeeds, the new name is found with the inode of the
file that the source leads to, provided that the source is no symbolic link.
-/

namespace KernelProgramming.Ext2

open ByteMemory

variable {L : Layout} {d d' : Disk} {v w : View} {a b k m n p inodeNum file depth now : ℕ}
  {filePath destPath path dir name : CString} {site : LinkSite} {new : DirEntry}

/-! ## The file that a path leads to -/

/-- The entry that `path` leads to is the one at `final`, once the symbolic links
are followed. -/
inductive FollowsTo (d : Disk) : CString → ℕ → Prop
  | file {path : CString} {entry inode : ℕ} (hfind : findDirEntry d path = .ok (some entry))
      (hptr : inodePtr d (entryInode d.byte entry) = .ok inode)
      (hfile : d.u16 (iMode inode) ≠ ext2SIflnk) : FollowsTo d path entry
  | link {path next : CString} {entry inode final : ℕ}
      (hfind : findDirEntry d path = .ok (some entry))
      (hptr : inodePtr d (entryInode d.byte entry) = .ok inode)
      (hlink : d.u16 (iMode inode) = ext2SIflnk) (hread : linkPath d inode = .ok next)
      (hnext : FollowsTo d next final) : FollowsTo d path final

theorem FollowsTo.no_link (h : FollowsTo d path file) : ∃ inode,
    inodePtr d (entryInode d.byte file) = .ok inode ∧ d.u16 (iMode inode) ≠ ext2SIflnk := by
  induction h with
  | file hfind hptr hfile => exact ⟨_, hptr, hfile⟩
  | link _ _ _ _ _ ih => exact ih

/-- If the source is no link, it is the file. -/
theorem FollowsTo.eq_of_file {entry inode : ℕ} (h : FollowsTo d path file)
    (hfind : findDirEntry d path = .ok (some entry))
    (hptr : inodePtr d (entryInode d.byte entry) = .ok inode)
    (hfile : d.u16 (iMode inode) ≠ ext2SIflnk) : file = entry := by
  cases h with
  | file hfind' _ _ => exact Option.some.inj (Except.ok.inj (hfind'.symm.trans hfind))
  | link hfind' hptr' hlink _ _ =>
      obtain rfl := Option.some.inj (Except.ok.inj (hfind'.symm.trans hfind))
      obtain rfl := Except.ok.inj (hptr'.symm.trans hptr)
      exact absurd hlink hfile

/-- Inode `m` gets one link more. -/
def View.addLink (v : View) (m : ℕ) : View :=
  v.setInode m { v.inode m with linksCount := ((v.inode m).linksCount + 1) % 2 ^ 16 }

/-! ## A new block with the link -/

/-- Whether the entry that `ext2_ln` makes for the one at `file` gets its type and the
whole name: the type is stored as that of a regular file where there is a place
for the name, the length of the name is not stored in a new block. -/
def StoresLink (d : Disk) (v : View) (p file : ℕ) (name : CString) : Prop :=
  match (v.data p).find? (v.takes name.length) with
  | some _ => fileType v.byte file = ext2FtRegFile
  | none => nameLen v.byte (1024 * findFreeBlock d) = name.length

/-- The name has the length that the byte in front of it happens to say. -/
theorem fillLinkEntry_tiled (d : Disk) (hname : name.length < 256) (hinode : inodeNum < 2 ^ 32)
    (hpos : inodeNum ≠ 0) (hfile : file + 7 < a ∨ a + 1024 ≤ file + 7) :
    let d' := fillLinkEntry d a inodeNum file name
    SameBut (fun x => a ≤ x ∧ x < a + 1024) d d' ∧ Tiled d'.byte (a + 1024) a [a] ∧
      ∃ stored, filesIn d'.byte [a] = [⟨stored, inodeNum, fileType d.byte file⟩] ∧
        (stored = name ↔ nameLen d.byte a = name.length) := by
  intro d'
  set d₁ := d.setU32 a inodeNum with hd₁
  set d₂ := d₁.setU16 (a + 4) 1024 with hd₂
  set d₃ := d₂.copy (a + 8) name with hd₃
  have hd' : d' = d₃.setU8 (a + 7) (fileType d₃.byte file) := rfl
  have hsame₃ : SameBut (fun x => a ≤ x ∧ x < a + 1024) d d₃ := by
    refine (((sameBut_copy d a _).mono ?_).trans ((sameBut_copy d₁ (a + 4) _).mono ?_)).trans
      ((sameBut_copy d₂ (a + 8) _).mono ?_)
    all_goals
      intro x hx
      simp only [Within, length_bytes32, length_bytes16] at hx ⊢
      omega
  have hsame : SameBut (fun x => a ≤ x ∧ x < a + 1024) d d' :=
    hsame₃.trans ((sameBut_copy d₃ (a + 7) _).mono fun x hx => by
      simp only [Within, List.length_singleton] at hx
      omega)
  have htype₃ : fileType d₃.byte file = fileType d.byte file :=
    congrArg BitVec.toNat (hsame₃.byte_eq _ (by omega))
  have hrec : recLen d'.byte a = 1024 := by
    refine (get16_putBytes_of_disjoint (by simp) _).trans
      ((get16_putBytes_of_disjoint (by simp) _).trans ?_)
    exact get16_putBytes_same _ _ _
  have hnum : entryInode d'.byte a = inodeNum := by
    refine (get32_putBytes_of_disjoint (by omega) _).trans
      ((get32_putBytes_of_disjoint (by omega) _).trans
        ((get32_putBytes_of_disjoint (by omega) _).trans ?_))
    exact (get32_putBytes_same _ a inodeNum).trans (Nat.mod_eq_of_lt hinode)
  have htype : fileType d'.byte a = fileType d.byte file := by
    have hbyte : d'.byte (a + 7) = BitVec.ofNat 8 (fileType d₃.byte file) :=
      putBytes_apply (s := [BitVec.ofNat 8 (fileType d₃.byte file)]) (i := 0) (by simp) _ (a + 7)
    rw [fileType, hbyte, BitVec.toNat_ofNat, htype₃]
    exact Nat.mod_eq_of_lt (BitVec.isLt _)
  have hlen : nameLen d'.byte a = nameLen d.byte a := by
    apply congrArg BitVec.toNat
    refine (putBytes_of_disjoint (by simp) _).trans ((putBytes_of_disjoint (by simp) _).trans
      ((putBytes_of_disjoint (by simp) _).trans (putBytes_of_disjoint (by simp) _)))
  have hlive : live d'.byte a = true := by simp [live, hnum, hpos]
  have hroom := room_bounds (nameLen d'.byte a)
  have hlt := nameLen_lt d'.byte a
  refine ⟨hsame, .cons ⟨?_, ?_⟩ ?_ ?_, entryName d'.byte a, ?_, ?_⟩
  · rw [hrec]
  · rw [hrec]
    omega
  · rw [hrec]
  · rw [hrec]
    exact .nil
  · rw [filesIn_cons, hlive, if_pos rfl, dirEntry, hnum, htype]
    rfl
  · rw [entryName, hlen]
    constructor
    · intro heq
      rw [← heq, length_getBytes]
    · intro heq
      have hstore : ∀ i < name.length, d'.byte (a + 8 + i) = d₃.byte (a + 8 + i) :=
        fun i _ => putBytes_of_disjoint (by simp) _
      rw [heq, getBytes_congr hstore]
      exact getBytes_putBytes_same _ (a + 8) name

namespace Layout

/-- The entry is filled in after stores to the new block, which do not reach the
entry of the source. -/
theorem Shows.fillLinkEntry {d₂ d₃ : Disk} {i : ℕ} (h : L.Shows d₂ (v.attach p i b))
    (hc : v.Consistent L) (hp : v.Live L p) (hdir : (v.inode p).IsDirectory)
    (hdirect : (v.inode p).DirectOnly) (hi : i < directBlockCount)
    (hzero : (v.inode p).block i = 0) (hb : b ∈ v.clear L .block)
    (hsame : SameBut (fun x => 1024 * b ≤ x ∧ x < 1024 * b + 1024) d₂ d₃)
    (hname : name.length < 256) (hentry : v.Entry L k file) (hn : v.Live L n) :
    entryInode d₃.byte file = v.target file ∧ ∃ w stored,
      L.Shows (fillLinkEntry d₃ (1024 * b) n file name) w ∧
      (v.attach p i b).Rewrites w b [⟨stored, n, fileType v.byte file⟩] ∧
      View.Enters L v w p ⟨stored, n, fileType v.byte file⟩ ∧
      (stored = name ↔ nameLen d₃.byte (1024 * b) = name.length) := by
  obtain ⟨-, hplain, hunused⟩ := hc.free_block hb
  have hbyte : (v.attach p i b).byte = v.byte := rfl
  have hfile := (h.dirEntry_slot hbyte hc hentry.isDir hentry.slot).1
  obtain ⟨c, hcdata, -, hge, hle, hwf, -⟩ := hc.slot_bounds hentry.isDir hentry.slot
  have hcb : c ≠ b := fun heq =>
    hunused k hentry.isDir.1 (heq ▸ View.data_subset_owned v k hcdata)
  have hlen := hwf.le
  have hnum : entryInode d₃.byte file = v.target file :=
    (entryInode_congr fun i hi => hsame.byte_eq _ (by omega)).trans (congrArg DirEntry.inode hfile)
  have htype : fileType d₃.byte file = fileType v.byte file :=
    (congrArg BitVec.toNat (hsame.byte_eq _ (by omega))).trans (congrArg DirEntry.fileType hfile)
  obtain ⟨hsame', htiled, stored, hfiles, hstored⟩ :=
    fillLinkEntry_tiled d₃ hname hn.1.bounds.2 hn.1.bounds.1
      (show file + 7 < 1024 * b ∨ 1024 * b + 1024 ≤ file + 7 by omega)
  obtain ⟨w, hw, hrw⟩ := h.rewrites hplain (hsame.trans hsame') htiled
  rw [hfiles, htype] at hrw
  exact ⟨hnum, w, stored, hw, hrw, hc.enters_block hp hdir hdirect hi hzero hb hrw hn, hstored⟩

theorem Shows.growHardLink (h : L.Shows d v) (hc : v.Consistent L) (hp : v.Live L p)
    (hdir : (v.inode p).IsDirectory) (hdirect : (v.inode p).DirectOnly)
    (hname : site.filename.length < 256) (hzero : ∃ i < directBlockCount, (v.inode p).block i = 0)
    (hentry : v.Entry L k site.file)
    (hret : growHardLink d site a (L.inodeAddress p) = .ok (0, d')) :
    ∃ w stored, L.Shows d' w ∧
      View.Enters L v w p ⟨stored, v.target site.file, fileType v.byte site.file⟩ ∧
      (w.inode p).linksCount = (v.inode p).linksCount ∧
      (stored = site.filename ↔
        nameLen v.byte (1024 * findFreeBlock d) = site.filename.length) := by
  obtain ⟨d₁, hmark, hgrow⟩ := Runs.bind_eq_ok_iff.mp hret
  by_cases hfree : findFreeBlock d = 0
  · rw [if_pos hfree] at hgrow
    exact absurd (congrArg Prod.fst (Except.ok.inj hgrow)) (by simp [enospc])
  rw [if_neg hfree] at hgrow
  obtain ⟨d₁', i, hmark', hslot, hi, hizero, hb, h₂⟩ := h.grow hp.1 hzero hfree
  obtain rfl : d₁ = d₁' := Except.ok.inj (hmark.symm.trans hmark')
  obtain ⟨-, hplain, -⟩ := hc.free_block hb
  simp only [hslot] at hgrow
  set b := findFreeBlock d with hfreeBlock
  set d₂ := (d₁.setU32 (iBlock (L.inodeAddress p) i) b).setU32 (iBlocks (L.inodeAddress p))
    ((d₁.setU32 (iBlock (L.inodeAddress p) i) b).u32 (iBlocks (L.inodeAddress p)) + 1) with hd₂
  change L.Shows d₂ (v.attach p i b) at h₂
  rw [h₂.blockPtr_eq hplain.lt] at hgrow
  obtain rfl := congrArg Prod.snd (Except.ok.inj hgrow)
  obtain ⟨hnum, w, stored, hw, hrw, henters, hstored⟩ :=
    h₂.fillLinkEntry hc hp hdir hdirect hi hizero hb ⟨rfl, fun _ _ => rfl⟩ hname hentry
      (hc.live_target hentry)
  have hnameLen : nameLen d₂.byte (1024 * b) = nameLen v.byte (1024 * b) :=
    nameLen_congr (h₂.byte_block hplain (by omega))
  rw [hnameLen] at hstored
  refine ⟨w, stored, ?_, henters, ?_, hstored⟩
  · rw [hnum]
    exact hw
  · have hinode : w.inode = (v.attach p i b).inode := by rw [hrw.eq]
    rw [hinode, View.attach, View.inode_setInode]

theorem Shows.hardLink_enters (h : L.Shows d v) (hc : v.Consistent L) (hp : v.Live L p)
    (hdir : (v.inode p).IsDirectory) (hdirect : (v.inode p).DirectOnly)
    (hname : site.filename.length < 256) (hroom : v.HasRoom L p site.filename.length 0)
    (hentry : v.Entry L k site.file) (hm : L.IsInode m)
    (htarget : hardLinkTarget d site filePath depth = .ok (some (L.inodeAddress m)))
    (hsite : hardLinkDir d site.dir = .ok (L.inodeAddress p))
    (hret : hardLink d site filePath depth = .ok (0, d')) :
    ∃ w new, L.Shows d' w ∧ View.Enters L (v.addLink m) w p new ∧
      (w.inode p).linksCount = ((v.addLink m).inode p).linksCount ∧
      new.inode = v.target site.file ∧
      (new = ⟨site.filename, v.target site.file, fileType v.byte site.file⟩ ↔
        StoresLink d v p site.file site.filename) := by
  obtain ⟨r, htarget', hlink⟩ := Runs.bind_eq_ok_iff.mp hret
  obtain rfl : some (L.inodeAddress m) = r := Except.ok.inj (htarget.symm.trans htarget')
  obtain ⟨dirInode, hsite', hspace⟩ := Runs.bind_eq_ok_iff.mp hlink
  obtain rfl : L.inodeAddress p = dirInode := Except.ok.inj (hsite.symm.trans hsite')
  obtain ⟨⟨found, d₂⟩, hput, hgrow⟩ := Runs.bind_eq_ok_iff.mp hspace
  have h₁ := h.setLinksCount hm (d.u16 (iLinksCount (L.inodeAddress m)) + 1)
  rw [h.iLinksCount_eq hm] at h₁ hput
  set d₁ := d.setU16 (iLinksCount (L.inodeAddress m)) ((v.inode m).linksCount + 1) with hd₁
  change L.Shows d₁ (v.addLink m) at h₁
  have hc₁ : (v.addLink m).Consistent L := hc.setLinks m _
  have hkeeps : v.Keeps (v.addLink m) p := View.keeps_setLinks v m _ p
  have hdir₁ := hkeeps.isDirectory_iff.mpr hdir
  have hdirect₁ := hkeeps.directOnly hdirect
  have hentry₁ : (v.addLink m).Entry L k site.file :=
    (hentry.keeps hc (View.keeps_setLinks v m _ k) hentry.isDir.1).1
  have hlive := hc.live_target hentry
  have hnum : entryInode d₁.byte site.file = v.target site.file :=
    congrArg DirEntry.inode (h₁.dirEntry_slot rfl hc₁ hentry₁.isDir hentry₁.slot).1
  have henter := h₁.enter_place hc₁ hp hdir₁ hdirect₁ hname hlive
    (show ext2FtRegFile < 256 by decide)
  obtain ⟨hplace, hfits⟩ := hkeeps.place hc hp hdir site.filename.length
  rw [hnum] at hput
  rw [hplace] at henter
  unfold View.HasRoom at hroom
  unfold StoresLink
  cases hfind : (v.data p).find? (v.takes site.filename.length) with
  | some b =>
      rw [hfind] at henter hroom
      have hb := List.mem_of_find?_eq_some hfind
      obtain ⟨d₃, w, entries, hput', hw, hrw, hadds⟩ := henter ((hfits b hb).mpr hroom)
      obtain ⟨rfl, rfl⟩ := Prod.mk.inj (Except.ok.inj (hput'.symm.trans hput))
      obtain rfl : d₃ = d' := congrArg Prod.snd (Except.ok.inj hgrow)
      have hb₁ : b ∈ (v.addLink m).data p := by rwa [hkeeps.data_eq]
      refine ⟨w, _, hw, hc₁.enters hp hdir₁ hdirect₁ hb₁ hrw hadds hlive, by rw [hrw.eq], rfl, ?_⟩
      simp [eq_comm]
  | none =>
      rw [hfind] at henter hroom
      obtain ⟨rfl, rfl⟩ := Prod.mk.inj (Except.ok.inj (henter.symm.trans hput))
      have hfree : findFreeBlock d₁ = findFreeBlock d := by
        rw [h₁.findFreeBlock_eq, h.findFreeBlock_eq, View.addLink, View.clear_setInode]
      have hzero₁ : ∃ i < directBlockCount, ((v.addLink m).inode p).block i = 0 := by
        rw [hkeeps.block]
        exact hroom.1
      obtain ⟨w, stored, hw, henters, hlinks, hstored⟩ :=
        h₁.growHardLink hc₁ hp hdir₁ hdirect₁ hname hzero₁ hentry₁ hgrow
      rw [hfree] at hstored
      refine ⟨w, _, hw, henters, hlinks, rfl, ?_⟩
      rw [← show _ ↔ nameLen v.byte (1024 * findFreeBlock d) = site.filename.length from hstored]
      exact ⟨congrArg DirEntry.name, fun heq => by rw [heq]; rfl⟩

end Layout

/-! ## The directory of the link -/

theorem linkDirPath_eq (hname : slash ∉ name) (hne : name ≠ []) (hlen : dir.length + 1 < 2 ^ 32) :
    linkDirPath (dir ++ slash :: name) = dir ++ [slash] := by
  rw [linkDirPath, lastSlashInPath_eq hname hne, Nat.mod_eq_of_lt hlen, List.take_length_add_append]
  rfl

theorem LinkSite.Admits.dir_eq_none_iff (hsite : site.Admits d filePath (dir ++ slash :: name))
    (hname : slash ∉ name) (hne : name ≠ []) (hlen : dir.length + 1 < 2 ^ 32) :
    site.dir = none ↔ dir = [] := by
  rw [hsite.root, linkDirPath_eq hname hne hlen]
  simp

namespace Layout

/-- The directory of the link is the one that the path in front of the name
leads to. -/
theorem Shows.linkDir (h : L.Shows d v) (hc : v.Consistent L)
    (hsite : site.Admits d filePath (dir ++ slash :: name)) (hname : slash ∉ name)
    (hne : name ≠ []) (hlen : dir.length + 1 < 2 ^ 32)
    (habsolute : (dir ++ slash :: name).head? = some slash)
    (hsearch : v.SearchPath rootInodeNumber (tokens dir ++ [name])) :
    ∃ p, v.reach rootInodeNumber (tokens dir) = some p ∧
      hardLinkDir d site.dir = .ok (L.inodeAddress p) ∧ (tokens dir = [] → dir = []) := by
  have hnone := hsite.dir_eq_none_iff hname hne hlen
  cases hdir : site.dir with
  | none =>
      obtain rfl := hnone.mp hdir
      exact ⟨rootInodeNumber, rfl, h.getRootInode_eq, fun _ => rfl⟩
  | some entry =>
      have hdirne : dir ≠ [] := fun heq => by
        rw [hnone.mpr heq] at hdir
        exact absurd hdir (by simp)
      obtain ⟨hfind, -⟩ := hsite.directory entry hdir
      rw [linkDirPath_eq hname hne hlen] at hfind
      have habs : (dir ++ [slash]).head? = some slash := by
        rwa [List.head?_append_of_ne_nil _ hdirne] at habsolute ⊢
      have htail : tokens (dir ++ [slash]).tail = tokens dir := by
        rw [tokens_tail habs, tokens_append_slash]
        exact List.append_nil _
      have htokens : tokens dir ≠ [] := fun hnil => by
        rw [findDirEntry, htail, hnil, h.getRootInode_eq] at hfind
        exact absurd hfind (by simp [bind, Except.bind])
      obtain ⟨r, hfind', hr⟩ := h.findDirEntry_eq hc (dir ++ [slash])
        (by rw [htail]; exact hsearch.of_append) (by rwa [htail])
      obtain rfl : r = some entry := Except.ok.inj (hfind'.symm.trans hfind)
      have hreach : v.reach rootInodeNumber (tokens dir) = some (entryInode d.byte entry) := by
        rw [← v.walk_eq_reach _ htokens, ← htail, ← hr]
        rfl
      refine ⟨_, hreach, ?_, fun hnil => absurd hnil htokens⟩
      exact h.inodePtr_eq (hc.live_of_reach hc.root.1 hreach).1

/-- A name is searched for in the directory that the path in front of it leads to. -/
theorem Shows.findDirEntry_name (h : L.Shows d v) (hp : L.IsInode p) (hname : slash ∉ name)
    (hne : name ≠ []) (habsolute : (dir ++ slash :: name).head? = some slash)
    (hdir : dir = [] ∧ p = rootInodeNumber ∨
      ∃ entry, findDirEntry d dir = .ok (some entry) ∧ entryInode d.byte entry = p) :
    findDirEntry d (dir ++ slash :: name) = locateFileByName d (L.inodeAddress p) name := by
  have htail : tokens (dir ++ slash :: name).tail = tokens dir ++ [name] :=
    (tokens_tail habsolute).trans (tokens_split hname hne)
  rcases hdir with ⟨rfl, rfl⟩ | ⟨entry, hfind, rfl⟩
  · rw [findDirEntry, h.getRootInode_eq, htail]
    rfl
  · have hdirne : dir ≠ [] := fun heq => by
      rw [heq, findDirEntry, h.getRootInode_eq] at hfind
      exact absurd hfind (by simp [tokens, bind, Except.bind])
    rw [List.head?_append_of_ne_nil _ hdirne] at habsolute
    rw [findDirEntry, h.getRootInode_eq, tokens_tail habsolute] at hfind
    rw [findDirEntry, h.getRootInode_eq, htail]
    cases htokens : tokens dir with
    | nil =>
        rw [htokens] at hfind
        exact absurd hfind (by simp [bind, Except.bind])
    | cons token rest =>
        rw [htokens] at hfind
        simp only [bind, Except.bind, List.cons_append] at hfind ⊢
        rw [walkPath_concat, hfind]
        simp only [Except.bind, h.inodePtr_eq hp]

end Layout

/-- The paths are such as `ext2_ln` takes for granted; the copy of the destination
ends in front of `argc`. -/
structure LinkPaths (v : View) (filePath destPath : CString) : Prop where
  fits : destPath.length < stackRoom filePath.length + 12
  short : destPath.length < 2 ^ 32
  noSlash : destPath.getLast? ≠ some slash
  source : v.SearchPath rootInodeNumber (tokens filePath.tail)
  search : v.SearchPath rootInodeNumber (tokens destPath)

/-- What the checks have found for such paths: the entry of the source, and directory
`p` for a name that is not in it. -/
structure LinkPlace (L : Layout) (d : Disk) (v : View) (filePath : CString) (site : LinkSite)
    (dir name : CString) (p : ℕ) : Prop where
  source : findDirEntry d filePath = .ok (some site.file)
  entry : ∃ k, v.Entry L k site.file
  noSlash : slash ∉ name
  nonempty : name ≠ []
  absolute : (dir ++ slash :: name).head? = some slash
  search : v.SearchPath rootInodeNumber (tokens dir ++ [name])
  reach : v.reach rootInodeNumber (tokens dir) = some p
  named : tokens dir = [] → dir = []
  isDir : v.IsDir L p
  directOnly : (v.inode p).DirectOnly
  missing : v.lookup p name = none
  filename : site.filename = name
  dirInode : hardLinkDir d site.dir = .ok (L.inodeAddress p)
  root : site.dir = none ↔ dir = []

theorem LinkPlace.tokens_eq (h : LinkPlace L d v filePath site dir name p) :
    tokens (dir ++ slash :: name) = tokens dir ++ [name] := tokens_split h.noSlash h.nonempty

theorem Layout.Shows.linkPlace (h : L.Shows d v) (hc : v.Consistent L)
    (haccepts : LnAccepts d filePath destPath site) (hpaths : LinkPaths v filePath destPath) :
    ∃ dir name p, destPath = dir ++ slash :: name ∧
      LinkPlace L d v filePath site dir name p := by
  obtain ⟨-, habsolute⟩ := haccepts.absolute
  have hadmits := haccepts.admits
  obtain ⟨dir, name, rfl, hname, hne⟩ := exists_name habsolute hpaths.noSlash
  have hsearch := hpaths.search
  rw [tokens_split hname hne] at hsearch
  have hshort := hpaths.short
  rw [List.length_append, List.length_cons] at hshort
  have hlen : dir.length + 1 < 2 ^ 32 := by omega
  obtain ⟨p, hreach, hsite, hnamed⟩ := h.linkDir hc hadmits hname hne hlen habsolute hsearch
  obtain ⟨hdir, hsearchable⟩ := hsearch.directory hreach
  obtain ⟨r, hfind, hr⟩ := h.findDirEntry_lookup hc hname hne habsolute hsearch hreach
  obtain rfl : r = none := Except.ok.inj (hfind.symm.trans hadmits.missing)
  have hnone : v.lookup p name = none := hr.symm
  exact ⟨dir, name, p, rfl, hadmits.source,
    h.entry_of_findDirEntry hc hpaths.source hadmits.source, hname, hne, habsolute, hsearch, hreach,
    hnamed, ⟨hc.live_of_reach hc.root.1 hreach, hdir⟩, View.directOnly_of_lookup hsearchable hnone,
    hnone, hadmits.name.trans (findFileNameByPath_eq hname hne hlen), hsite,
    hadmits.dir_eq_none_iff hname hne hlen⟩

/-! ## The link -/

/-- What `ext2_ln` takes for granted about the paths, the target of a chain of links
and the place for the name. -/
structure Linkable (L : Layout) (d : Disk) (v : View) (filePath destPath : CString) (depth : ℕ) :
    Prop extends LinkPaths v filePath destPath where
  target : ∀ inode, readSymbolicLink d depth filePath = .ok (some inode) →
    ∃ n, L.IsInode n ∧ inode = L.inodeAddress n
  room : ∀ names name p, tokens destPath = names ++ [name] →
    v.reach rootInodeNumber names = some p → name.length < 256 ∧ v.HasRoom L p name.length 0

/-- The entry at `file` is found again under `destPath` with the name `name`, in the
inode one link more is counted, and what was found before is still found. -/
structure HardLinked (v w : View) (d d' : Disk) (filePath destPath : CString) (file : ℕ)
    (name : CString) : Prop where
  target : FollowsTo d filePath file
  place : ∃ names, tokens destPath = names ++ [name]
  found : ∃ entry, findDirEntry d' destPath = .ok (some entry) ∧
    dirEntry d'.byte entry = ⟨name, entryInode d.byte file, fileType d.byte file⟩
  linksCount : (w.inode (entryInode d.byte file)).linksCount =
    (v.inode (entryInode d.byte file)).linksCount + 1
  resolves : ∀ path k, v.reach rootInodeNumber (tokens path) = some k →
    w.reach rootInodeNumber (tokens path) = some k
  finds : ∀ path k, tokens path.tail ≠ [] → v.SearchPath rootInodeNumber (tokens path.tail) →
    v.reach rootInodeNumber (tokens path.tail) = some k →
    ∃ entry, findDirEntry d' path = .ok (some entry) ∧ entryInode d'.byte entry = k

/-- The source at `file` is no symbolic link, its links can be counted, and the
entry that is made for it in directory `p` is right. -/
structure LinkMatches (d : Disk) (v : View) (p file : ℕ) (name : CString) : Prop where
  no_link : (v.inode (v.target file)).mode ≠ ext2SIflnk
  counts : (v.inode (v.target file)).linksCount < 65535
  stores : StoresLink d v p file name

/-- A link has been made for the entry at `site.file`: directory `p` has the entry
`new`, and in inode `m` one link more is counted. -/
structure MakesLink (L : Layout) (d : Disk) (v w : View) (filePath : CString) (site : LinkSite)
    (dir name : CString) (m p : ℕ) (new : DirEntry) : Prop
    extends LinkPlace L d v filePath site dir name p where
  target : (v.inode (v.target site.file)).mode ≠ ext2SIflnk → m = v.target site.file
  enters : View.Enters L (v.addLink m) w p new
  links : (w.inode p).linksCount = ((v.addLink m).inode p).linksCount
  inode : new.inode = v.target site.file
  stored : new = ⟨name, v.target site.file, fileType v.byte site.file⟩ ↔
    StoresLink d v p site.file name

namespace Layout

/-- The link is counted in an inode of the volume, which is that of the source if
this is no symbolic link. -/
theorem Shows.hardLinkTarget (h : L.Shows d v) (hn : L.IsInode n)
    (hnum : entryInode d.byte site.file = n)
    (hinode : ∀ inode, readSymbolicLink d depth filePath = .ok (some inode) →
      ∃ m, L.IsInode m ∧ inode = L.inodeAddress m)
    (htarget : Ext2.hardLinkTarget d site filePath depth = .ok (some a)) :
    ∃ m, L.IsInode m ∧ a = L.inodeAddress m ∧ ((v.inode n).mode ≠ ext2SIflnk → m = n) := by
  obtain ⟨fileInode, hptr, htarget⟩ := Runs.bind_eq_ok_iff.mp htarget
  rw [hnum, h.inodePtr_eq hn] at hptr
  obtain rfl := Except.ok.inj hptr
  have hmode : d.u16 (iMode (L.inodeAddress n)) = (v.inode n).mode := by
    rw [h.inode_eq hn]
    rfl
  rw [hmode] at htarget
  by_cases hlink : (v.inode n).mode = ext2SIflnk
  · rw [if_pos hlink] at htarget
    obtain ⟨m, hm, rfl⟩ := hinode a htarget
    exact ⟨m, hm, rfl, fun hne => absurd hlink hne⟩
  · rw [if_neg hlink] at htarget
    exact ⟨n, hn, (Option.some.inj (Except.ok.inj htarget)).symm, fun _ => rfl⟩

theorem Shows.makesLink (h : L.Shows d v) (hc : v.Consistent L)
    (hlinkable : Linkable L d v filePath destPath depth)
    (hret : ext2Ln d false filePath destPath now depth = .ok (0, d')) :
    ∃ w site dir name m p new, destPath = dir ++ slash :: name ∧ L.Shows d' w ∧
      MakesLink L d v w filePath site dir name m p new := by
  rcases ext2Ln_cases hret with ⟨site, site', haccepts, hcopy, hlink⟩ | ⟨-, -, hcode⟩
  swap
  · exact absurd rfl hcode
  obtain rfl : site = site' :=
    Except.ok.inj ((LinkSite.afterCopy_of_lt hlinkable.fits site).symm.trans hcopy)
  rw [argcNotFour_of_lt hlinkable.fits, if_neg Bool.false_ne_true] at hlink
  obtain ⟨dir, name, p, rfl, hplace⟩ := h.linkPlace hc haccepts hlinkable.toLinkPaths
  obtain ⟨k, hentry⟩ := hplace.entry
  have hnum : entryInode d.byte site.file = v.target site.file :=
    congrArg DirEntry.inode (h.dirEntry_slot rfl hc hentry.isDir hentry.slot).1
  obtain ⟨r, htarget, -⟩ := Runs.bind_eq_ok_iff.mp hlink
  cases r with
  | none =>
      rw [Ext2.hardLink, htarget] at hlink
      exact absurd (congrArg Prod.fst (Except.ok.inj hlink)) (by simp [enoent])
  | some a =>
      obtain ⟨m, hm, rfl, hsame⟩ :=
        h.hardLinkTarget (hc.live_target hentry).1 hnum hlinkable.target htarget
      obtain ⟨hname, hroom⟩ := hlinkable.room _ _ _ hplace.tokens_eq hplace.reach
      rw [← hplace.filename] at hname hroom
      obtain ⟨w, new, hw, henters, hlinks, hinode, hstored⟩ :=
        h.hardLink_enters hc hplace.isDir.1 hplace.isDir.2 hplace.directOnly hname hroom hentry hm
          htarget hplace.dirInode hlink
      rw [hplace.filename] at hstored
      exact ⟨w, site, dir, name, m, p, new, rfl, hw, hplace, hsame, henters, hlinks, hinode,
        hstored⟩

end Layout

section MakesLink

variable (hmakes : MakesLink L d v w filePath site dir name m p new) (h : L.Shows d v)
  (hc : v.Consistent L)

include hmakes

theorem MakesLink.linksCount_eq (k : ℕ) :
    (w.inode k).linksCount = ((v.addLink m).inode k).linksCount := by
  by_cases hk : k = p
  · rw [hk]
    exact hmakes.links
  · rw [hmakes.enters.inode k hk]

include hc

/-- The name was not in the directory before the entry was made. -/
theorem MakesLink.lookup_none : (v.addLink m).lookup p name = none := by
  have hkeeps : v.Keeps (v.addLink m) p := View.keeps_setLinks v m _ p
  rw [View.lookup, (hkeeps.files_eq hc hmakes.isDir.1 hmakes.isDir.2).2]
  exact hmakes.missing

include h

theorem MakesLink.entry_eq : v.Live L (v.target site.file) ∧
    entryInode d.byte site.file = v.target site.file ∧
    fileType d.byte site.file = fileType v.byte site.file := by
  obtain ⟨k, hentry⟩ := hmakes.entry
  have hslot := (h.dirEntry_slot rfl hc hentry.isDir hentry.slot).1
  exact ⟨hc.live_target hentry, congrArg DirEntry.inode hslot, congrArg DirEntry.fileType hslot⟩

variable (hw : L.Shows d' w)

include hw

theorem MakesLink.hardLinked (hmatches : LinkMatches d v p site.file name) :
    HardLinked v w d d' filePath (dir ++ slash :: name) site.file name := by
  obtain ⟨hlive, hnum, htype⟩ := hmakes.entry_eq h hc
  obtain rfl := hmakes.target hmatches.no_link
  obtain rfl := hmakes.stored.mpr hmatches.stores
  set m := v.target site.file with hm
  have hnone := hmakes.lookup_none hc
  have hstill : v.Extends L w :=
    (hc.extends_of_keeps_all fun k _ => View.keeps_setLinks v m _ k).trans
      (hmakes.enters.extends (hc.setLinks m _) hnone) fun k hk => hk
  have hcw := hmakes.enters.consistent
  refine ⟨?_, ⟨tokens dir, hmakes.tokens_eq⟩, ?_, ?_, ?_, ?_⟩
  · have hptr : inodePtr d (entryInode d.byte site.file) = .ok (L.inodeAddress m) := by
      rw [hnum]
      exact h.inodePtr_eq hlive.1
    have hmode := hmatches.no_link
    rw [h.inode_eq hlive.1] at hmode
    exact .file hmakes.source hptr hmode
  · obtain ⟨r, hfind, hr⟩ := hw.findDirEntry_still hc hcw hstill hmakes.noSlash hmakes.nonempty
      hmakes.absolute hmakes.search hmakes.reach hmakes.enters.isDirectory hmakes.enters.directOnly
    rw [hmakes.enters.lookup_eq hnone] at hr
    obtain ⟨entry, rfl, hentry⟩ := Option.map_eq_some_iff.mp hr
    refine ⟨entry, hfind, ?_⟩
    rw [hentry, hnum, htype]
  · have hcounts : (v.inode m).linksCount < 65535 := hmatches.counts
    rw [hnum, hmakes.linksCount_eq, View.addLink, View.inode_setInode]
    exact Nat.mod_eq_of_lt (by omega)
  · exact fun path k hpath => hstill.reach hc hc.root.1 hpath
  · intro path k hne hpath hk
    exact hw.finds hcw hne (hstill.searchPath hc hc.root.1 hk hpath)
      (hstill.reach hc hc.root.1 hk)

/-- The name can only be found in directory `p`, whose only new entry is `new`. -/
theorem MakesLink.linkMatches {final : ℕ} {found : CString}
    (hlinked : HardLinked v w d d' filePath (dir ++ slash :: name) final found) :
    LinkMatches d v p site.file name := by
  obtain ⟨hlive, hnum, htype⟩ := hmakes.entry_eq h hc
  have hcw := hmakes.enters.consistent
  have hpw : w.Live L p := (hmakes.enters.live p).mpr hmakes.isDir.1
  -- the path in front of the name is still found
  have hparent : dir = [] ∧ p = rootInodeNumber ∨
      ∃ entry, findDirEntry d' dir = .ok (some entry) ∧ entryInode d'.byte entry = p := by
    by_cases hnil : dir = []
    · have hreach := hmakes.reach
      rw [hnil] at hreach
      exact .inl ⟨hnil, (Option.some.inj hreach).symm⟩
    · have habs : dir.head? = some slash := by
        rw [← List.head?_append_of_ne_nil _ hnil]
        exact hmakes.absolute
      refine .inr (hlinked.finds dir p ?_ ?_ ?_)
      all_goals rw [tokens_tail habs]
      · exact fun htokens => hnil (hmakes.named htokens)
      · exact hmakes.search.of_append
      · exact hmakes.reach
  obtain ⟨entry, hfind, hfound⟩ := hlinked.found
  rw [hw.findDirEntry_name hpw.1 hmakes.noSlash hmakes.nonempty hmakes.absolute hparent] at hfind
  have hopen : w.OpenAt L p name :=
    hcw.openAt hpw hmakes.enters.isDirectory (.inl hmakes.enters.directOnly)
  obtain ⟨r, hlocate, hr⟩ := hw.locateFileByName_eq hpw.1 hopen.blocks hopen.searchable
  obtain rfl : r = some entry := Except.ok.inj (hlocate.symm.trans hfind)
  have hnone := hmakes.lookup_none hc
  rw [View.lookup, hmakes.enters.adds.find?_eq fun _ => hnone] at hr
  by_cases hsame : name = new.name
  swap
  · rw [if_neg hsame] at hr
    exact absurd (hr.trans hnone) (by simp)
  rw [if_pos hsame] at hr
  have hnew : ⟨found, entryInode d.byte final, fileType d.byte final⟩ = new :=
    hfound.symm.trans (Option.some.inj hr)
  have hinode : entryInode d.byte final = v.target site.file :=
    (congrArg DirEntry.inode hnew).trans hmakes.inode
  obtain ⟨inode, hptr, hmode⟩ := hlinked.target.no_link
  rw [hinode, h.inodePtr_eq hlive.1] at hptr
  obtain rfl := Except.ok.inj hptr
  have hno : (v.inode (v.target site.file)).mode ≠ ext2SIflnk := by
    rw [h.inode_eq hlive.1]
    exact hmode
  have hfinal : final = site.file := hlinked.target.eq_of_file hmakes.source (by
    rw [hnum]
    exact h.inodePtr_eq hlive.1) hmode
  rw [hfinal, hnum, htype] at hnew
  refine ⟨hno, ?_, hmakes.stored.mp ?_⟩
  · have hlinks := hlinked.linksCount
    rw [hfinal, hnum, hmakes.linksCount_eq, hmakes.target hno, View.addLink, View.inode_setInode]
      at hlinks
    have hlt := h.linksCount_lt hlive.1
    change ((v.inode (v.target site.file)).linksCount + 1) % 2 ^ 16 = _ at hlinks
    omega
  · rw [← hnew, hsame, ← hnew]

end MakesLink

theorem ln_hardLinked_iff (h : L.Shows d v) (hc : v.Consistent L)
    (hlinkable : Linkable L d v filePath destPath depth)
    (hret : ext2Ln d false filePath destPath now depth = .ok (0, d')) :
    (∃ w file name, L.Shows d' w ∧ HardLinked v w d d' filePath destPath file name) ↔
      ∀ file names name p, findDirEntry d filePath = .ok (some file) →
        tokens destPath = names ++ [name] → v.reach rootInodeNumber names = some p →
          LinkMatches d v p file name := by
  obtain ⟨w, site, dir, name, m, p, new, rfl, hw, hmakes⟩ := h.makesLink hc hlinkable hret
  constructor
  · rintro ⟨w', final, found, hw', hlinked⟩ file names' name' p' hsource htokens hreach
    obtain rfl : w = w' := hw.2.symm.trans hw'.2
    obtain rfl : site.file = file :=
      Option.some.inj (Except.ok.inj (hmakes.source.symm.trans hsource))
    obtain ⟨rfl, hnames⟩ := List.append_inj' (hmakes.tokens_eq.symm.trans htokens) rfl
    obtain rfl := List.singleton_inj.mp hnames
    obtain rfl : p = p' := Option.some.inj (hmakes.reach.symm.trans hreach)
    exact hmakes.linkMatches h hc hw hlinked
  · intro hall
    exact ⟨w, site.file, name, hw, hmakes.hardLinked h hc hw
      (hall _ _ _ _ hmakes.source hmakes.tokens_eq hmakes.reach)⟩

/-! ## A link to a symbolic link -/

/-- The root directory has a directory `l`, an empty file `f` and a symbolic link
`s` to `/f`. -/
def linkDisk : Disk where
  numBlocks := 16
  byte x :=
    match x / 1024 with
    | 1 => putBytes (fun _ => 0) sInodesCount
        (bytes32 16 ++ bytes32 16 ++ bytes32 0 ++ bytes32 6 ++ bytes32 3) x
    | 2 => putBytes (fun _ => 0) bgBlockBitmap
        (bytes32 3 ++ bytes32 4 ++ bytes32 5 ++ bytes16 6 ++ bytes16 3) x
    | 3 => putBytes (fun _ => 0) (1024 * 3) [0xFF#8, 0x81#8] x
    | 4 => putBytes (fun _ => 0) (1024 * 4) [0xFF#8, 0x1F#8] x
    | 5 => putInodes (fun _ => 0) (smallLayout.inodeAddress 2) [(ext2SIfdir, 3, 7)] x
    | 6 => putBytes (putInodes (fun _ => 0) (smallLayout.inodeAddress 11)
        [(ext2SIfdir, 2, 8), (ext2SIfreg, 1, 0), (ext2SIflnk, 1, 9)])
        (iSize (smallLayout.inodeAddress 13)) (bytes32 2) x
    | 7 => putBytes (fun _ => 0) (1024 * 7) (entryBytes 2 12 ext2FtDir [dot] ++ [0#8, 0#8, 0#8] ++
        entryBytes 2 12 ext2FtDir [dot, dot] ++ [0#8, 0#8] ++
        entryBytes 11 12 ext2FtDir [0x6C#8] ++ [0#8, 0#8, 0#8] ++
        entryBytes 12 12 ext2FtRegFile [0x66#8] ++ [0#8, 0#8, 0#8] ++
        entryBytes 13 976 ext2FtSymlink [0x73#8]) x
    | 8 => putBytes (fun _ => 0) (1024 * 8) (entryBytes 11 12 ext2FtDir [dot] ++ [0#8, 0#8, 0#8] ++
        entryBytes 2 1012 ext2FtDir [dot, dot]) x
    | 9 => putBytes (fun _ => 0) (1024 * 9) [slash, 0x66#8] x
    | _ => 0

def linkView : View := smallLayout.view linkDisk

theorem link_shows : smallLayout.Shows linkDisk linkView :=
  ⟨⟨rfl, by decide, by decide, by decide, by decide,
    by decide⟩, rfl⟩

def linkOwned (n : ℕ) : List ℕ :=
  if n = 2 then [7] else if n = 11 then [8] else if n = 13 then [9] else []

theorem link_owned : ∀ n < 17, linkView.owned n = linkOwned n := by decide

theorem link_consistent : linkView.Consistent smallLayout :=
  View.consistent_of_table linkOwned link_owned (fun t => by cases t <;> decide +kernel)
    (by decide +kernel) (by decide +kernel) (by decide +kernel) (by decide +kernel)
    (by decide) (by decide) (by decide)

theorem link_searchPath (name : CString) : linkView.SearchPath rootInodeNumber [name] := by
  refine ⟨by decide, .inl fun i hi hi' => ?_, fun _ _ => trivial⟩
  have hall : ∀ i < totalBlockCount, directBlockCount ≤ i →
      (linkView.inode rootInodeNumber).block i = 0 := by decide
  exact hall i hi' hi

theorem link_place : (linkView.data rootInodeNumber).find? (linkView.takes 1) = some 7 := by
  decide

/-- `/h` is a name in the root directory. -/
theorem link_dest {names : List CString} (hsplit : tokens [slash, 0x68#8] = names ++ [name])
    (hreach : linkView.reach rootInodeNumber names = some p) :
    name = [0x68#8] ∧ p = rootInodeNumber := by
  have htokens : tokens [slash, 0x68#8] = [] ++ [[0x68#8]] := by decide
  obtain ⟨rfl, hname⟩ := List.append_inj' (htokens.symm.trans hsplit) rfl
  exact ⟨(List.singleton_inj.mp hname).symm, (Option.some.inj hreach).symm⟩

theorem link_linkable :
    Linkable smallLayout linkDisk linkView [slash, 0x66#8] [slash, 0x68#8] 1 := by
  refine ⟨⟨by decide, by decide, by decide, link_searchPath [0x66#8], link_searchPath [0x68#8]⟩,
    ?_, ?_⟩
  · intro inode hread
    have hfile : readSymbolicLink linkDisk 1 [slash, 0x66#8] =
        .ok (some (smallLayout.inodeAddress 12)) := by decide
    exact ⟨12, by decide, (Option.some.inj (Except.ok.inj (hfile.symm.trans hread))).symm⟩
  · intro names name p hsplit hreach
    obtain ⟨rfl, rfl⟩ := link_dest hsplit hreach
    refine ⟨by decide, ?_⟩
    rw [View.HasRoom, List.length_singleton, link_place]
    decide

theorem ln_hardLinked_iff_file : ∃ d' w file name,
    ext2Ln linkDisk false [slash, 0x66#8] [slash, 0x68#8] 0 1 = .ok (0, d') ∧
      smallLayout.Shows d' w ∧
      HardLinked linkView w linkDisk d' [slash, 0x66#8] [slash, 0x68#8] file name := by
  obtain ⟨d', hret⟩ := exists_ok_of_map_fst (show
    (ext2Ln linkDisk false [slash, 0x66#8] [slash, 0x68#8] 0 1).map Prod.fst = .ok 0 by
      decide)
  obtain ⟨w, file, name, hw, hlinked⟩ :=
    (ln_hardLinked_iff link_shows link_consistent link_linkable hret).mpr
      fun file names name p hsource hsplit hreach => by
        have hfind : findDirEntry linkDisk [slash, 0x66#8] = .ok (some 7204) := by decide
        obtain rfl := Option.some.inj (Except.ok.inj (hfind.symm.trans hsource))
        obtain ⟨rfl, rfl⟩ := link_dest hsplit hreach
        refine ⟨by decide, by decide, ?_⟩
        rw [StoresLink, List.length_singleton, link_place]
        decide
  exact ⟨d', w, file, name, hret, hw, hlinked⟩

/-- A link to `/s` names the inode of the symbolic link, but is counted in that
of `f`. -/
theorem ln_not_hardLinked : ¬ ∀ (L : Layout) (d d' : Disk) (v : View)
    (filePath destPath : CString) (now depth : ℕ), L.Shows d v → v.Consistent L →
    ext2Ln d false filePath destPath now depth = .ok (0, d') →
      ∃ w file name, L.Shows d' w ∧ HardLinked v w d d' filePath destPath file name := by
  intro h
  obtain ⟨d', hret, hnum⟩ : ∃ d',
      ext2Ln linkDisk false [slash, 0x73#8] [slash, 0x68#8] 0 2 = .ok (0, d') ∧
        (findDirEntry d' [slash, 0x68#8]).map (Option.map (entryInode d'.byte)) =
          .ok (some 13) := by
    exact exists_ok_of_map (f := fun d' =>
      (findDirEntry d' [slash, 0x68#8]).map (Option.map (entryInode d'.byte))) (by decide)
  obtain ⟨w, file, name, -, hlinked⟩ := h _ _ _ _ _ _ _ _ link_shows link_consistent hret
  obtain ⟨entry, hfind, hentry⟩ := hlinked.found
  rw [hfind] at hnum
  have hfile : entryInode linkDisk.byte file = 13 :=
    (congrArg DirEntry.inode hentry).symm.trans (Option.some.inj (Except.ok.inj hnum))
  obtain ⟨inode, hptr, hmode⟩ := hlinked.target.no_link
  rw [hfile, link_shows.inodePtr_eq (show smallLayout.IsInode 13 by decide)] at hptr
  obtain rfl := Except.ok.inj hptr
  exact hmode (by decide)

end KernelProgramming.Ext2
