import KernelProgramming.Ext2.General
import KernelProgramming.Library.Runs

/-!
# ext2_ln.c

Makes a hard link to a file, or with `-s` a symbolic link, which is an inode
whose block holds the path of the file.
-/

namespace KernelProgramming.Ext2

open ByteMemory

/-! ## Symbolic links -/

/-- What `memcpy` takes from the first block of a link to `new_path`, as a string. -/
def linkPath (d : Disk) (inode : ℕ) : Except Fault CString :=
  let start := blockStart (d.u32 (iBlock inode 0))
  let size := d.u32 (iSize inode)
  if 1024 * d.numBlocks < start + size then .error .wild
  else if pathMax < size then .error .overrun
  else .ok ((getBytes d.byte start size).takeWhile (· ≠ 0))

/-- `depth` bounds the calls of `read_symbolic_link`, of which there need not be
a last one. -/
def readSymbolicLink (d : Disk) : ℕ → CString → Except Fault (Option ℕ)
  | 0, _ => .error .hang
  | depth + 1, path => do
      match ← findDirEntry d path with
      | none => .ok none
      | some target =>
          let targetInode ← inodePtr d (entryInode d.byte target)
          if d.u16 (iMode targetInode) = ext2SIflnk then do
            let newPath ← linkPath d targetInode
            readSymbolicLink d depth newPath
          else .ok (some targetInode)

/-! ## The checks -/

/-- The entry of the source, that of the destination directory unless it is the
root directory, and the name of the link. -/
structure LinkSite where
  file : ℕ
  dir : Option ℕ
  filename : CString

/-- `dir_path`, which ends with the slash before the name. -/
def linkDirPath (destPath : CString) : CString :=
  destPath.take ((lastSlashInPath destPath + 1) % 2 ^ 32)

/-- `strcpy` to `buf`, which has room for the path of the source.  Behind the array lie
`argv`, which is not needed any more, and 4 bytes that nothing uses, then `argc`,
`is_root` and integers that are set later, and from 72 bytes on the pointers. -/
def copyToBuf (filePath path : CString) : Except Fault Unit :=
  if path.length < stackRoom filePath.length + 72 then .ok () else .error .overrun

/-- The bytes of a path in `buf` from `place` on make `c` of an integer that lies there:
`strtok` puts a zero for the slash behind the last name. -/
def leaves (path : CString) (place : ℕ) (c : Byte) : Bool :=
  path.drop place == [c] || path.drop place == [c, slash]

/-- `NULL` for the root directory too.  With a 1 in `is_root` the directory is not
checked any further, not even for `NULL`. -/
def findLinkDir (d : Disk) (filePath destPath : CString) : Except Fault (Option ℕ) :=
  if (linkDirPath destPath).length = 1 then .ok none
  else do
    copyToBuf filePath (linkDirPath destPath)
    if leaves (linkDirPath destPath) (stackRoom filePath.length + 16) 1#8 then .error .overrun
    else findDirEntry d (linkDirPath destPath)

/-- `main` up to the point where something is changed. -/
def findLinkSite (d : Disk) (filePath destPath : CString) : Except Fault (ℕ ⊕ LinkSite) := do
  match ← findDirEntry d filePath with
  | none => .ok (.inl enoent)
  | some file => do
      let dir ← findLinkDir d filePath destPath
      if (linkDirPath destPath).length ≠ 1 ∧ dir = none then .ok (.inl enoent)
      else if fileType d.byte file = ext2FtDir then .ok (.inl eisdir)
      else if dir.any fun entry => fileType d.byte entry != ext2FtDir then .ok (.inl eisdir)
      else do
        copyToBuf filePath destPath
        match ← findDirEntry d destPath with
        | some _ => .ok (.inl eexist)
        | none =>
            let filename := findFileNameByPath destPath
            if filename.length > 1016 then .ok (.inl enametoolong)
            else .ok (.inr ⟨file, dir, filename⟩)

/-- Whether `argc` is not 4 after the last copy to `buf`, whose characters from
`stackRoom filePath.length + 12` on are then its bytes. -/
def argcNotFour (symbolic : Bool) (filePath destPath : CString) : Bool :=
  let place := stackRoom filePath.length + 12
  if destPath.length < place then symbolic else !leaves destPath place 4#8

/-- The copy reaches `is_root` in the same way.  If the directory was the root and is
not taken for it any more, `dir->inode` is read where `dir` is `NULL`. -/
def LinkSite.afterCopy (site : LinkSite) (filePath destPath : CString) : Except Fault LinkSite :=
  let place := stackRoom filePath.length + 16
  if destPath.length < place then .ok site
  else if leaves destPath place 1#8 then .ok { site with dir := none }
  else if site.dir = none then .error .wild
  else .ok site

/-- The first entry of a new block for the directory. -/
def fillLinkEntry (d : Disk) (linkEntry inodeNum file : ℕ) (filename : CString) : Disk :=
  let d := d.setU32 linkEntry inodeNum
  let d := d.setU16 (linkEntry + 4) 1024
  let d := d.copy (linkEntry + 8) filename
  d.setU8 (linkEntry + 7) (fileType d.byte file)

/-! ## Hard links -/

def hardLinkDir (d : Disk) : Option ℕ → Except Fault ℕ
  | some dir => inodePtr d (entryInode d.byte dir)
  | none => getRootInode d

/-- `NULL` if a symbolic link on the way has no target. -/
def hardLinkTarget (d : Disk) (site : LinkSite) (filePath : CString) (depth : ℕ) :
    Except Fault (Option ℕ) := do
  let fileInode ← inodePtr d (entryInode d.byte site.file)
  if d.u16 (iMode fileInode) = ext2SIflnk then readSymbolicLink d depth filePath
  else .ok (some fileInode)

/-- A new block for the directory; the length of the name is not stored. -/
def growHardLink (d : Disk) (site : LinkSite) (fileInode dirInode : ℕ) :
    Except Fault (ℕ × Disk) := do
  let newBlockNum := findFreeBlock d
  let d ← updateBitmap d .block newBlockNum true
  if newBlockNum = 0 then
    .ok (enospc, d.setU16 (iLinksCount fileInode) (d.u16 (iLinksCount fileInode) + (2 ^ 16 - 1)))
  else
    match freeSlot d dirInode with
    | some i => do
        let d := d.setU32 (iBlock dirInode i) newBlockNum
        let d := d.setU32 (iBlocks dirInode) (d.u32 (iBlocks dirInode) + 1)
        let linkEntry ← blockPtr d newBlockNum
        .ok (0, fillLinkEntry d linkEntry (entryInode d.byte site.file) site.file site.filename)
    | none => .ok (enospc, d)

def hardLink (d : Disk) (site : LinkSite) (filePath : CString) (depth : ℕ) :
    Except Fault (ℕ × Disk) := do
  match ← hardLinkTarget d site filePath depth with
  | none => .ok (enoent, d)
  | some fileInode => do
      let dirInode ← hardLinkDir d site.dir
      let d := d.setU16 (iLinksCount fileInode) (d.u16 (iLinksCount fileInode) + 1)
      let (found, d) ← allocateSpace d dirInode site.filename.length (entryInode d.byte site.file)
        site.filename ext2FtRegFile (List.range totalBlockCount)
      if found then .ok (0, d) else growHardLink d site fileInode dirInode

/-! ## Symbolic links -/

/-- `get_inode_table(disk) + TO_INDEX(dir->inode) * sizeof(struct ext2_inode)`,
where the addition counts in inodes already. -/
def symbolicLinkDir (d : Disk) : Option ℕ → ℕ
  | some dir => getInodeTable d + 128 * (128 * ((entryInode d.byte dir + (2 ^ 32 - 1)) % 2 ^ 32))
  | none => getInodeTable d + 128 * (rootInodeNumber - 1)

def growSymbolicLink (d : Disk) (site : LinkSite) (dirInode linkInodeNum linkBlockNum : ℕ) :
    Except Fault (ℕ × Disk) := do
  let newBlockNum := findFreeBlock d
  if newBlockNum = 0 then do
    let d ← updateBitmap d .block linkBlockNum false
    let d ← updateBitmap d .inode linkInodeNum false
    .ok (enospc, d)
  else do
    let d ← updateBitmap d .block newBlockNum true
    match freeSlot d dirInode with
    | some i => do
        let d := d.setU32 (iBlock dirInode i) newBlockNum
        let d := d.setU32 (iBlocks dirInode) (d.u32 (iBlocks dirInode) + 1)
        let linkEntry ← blockPtr d newBlockNum
        let d := d.setU8 (linkEntry + 6) site.filename.length
        .ok (0, fillLinkEntry d linkEntry linkInodeNum site.file site.filename)
    | none => .ok (enospc, d)

/-- The path goes into the block of the link. -/
def storeLinkPath (d : Disk) (linkInode linkBlockNum : ℕ) (filePath : CString) :
    Except Fault Disk := do
  let blockToWrite ← blockPtr d linkBlockNum
  let d := d.copy blockToWrite filePath
  let d := d.setU32 (iBlock linkInode 0) linkBlockNum
  .ok (d.setU32 (iBlocks linkInode) (d.u32 (iBlocks linkInode) + 1))

/-- `main` from the point where the link has its inode and its block. -/
def enterSymbolicLink (d : Disk) (site : LinkSite) (filePath : CString)
    (dirInode linkInodeNum linkInode linkBlockNum : ℕ) : Except Fault (ℕ × Disk) := do
  if 1024 < filePath.length then .ok (enospc, d)
  else do
    let d ← storeLinkPath d linkInode linkBlockNum filePath
    let dirInode ← follow d dirInode
    let (found, d) ← allocateSpace d dirInode site.filename.length linkInodeNum site.filename
      ext2FtSymlink (List.range totalBlockCount)
    if found then .ok (0, d) else growSymbolicLink d site dirInode linkInodeNum linkBlockNum

def symbolicLink (d : Disk) (site : LinkSite) (filePath : CString) (now : ℕ) :
    Except Fault (ℕ × Disk) := do
  let dirInode := symbolicLinkDir d site.dir
  let linkInodeNum := findFreeInode d
  if linkInodeNum = 0 then .ok (enospc, d)
  else do
    let d ← updateBitmap d .inode linkInodeNum true
    let linkInode ← inodePtr d linkInodeNum
    let d := initInode d linkInode ext2SIflnk filePath.length now
    let linkBlockNum := findFreeBlock d
    if linkBlockNum = 0 then do
      let d ← updateBitmap d .inode linkInodeNum false
      .ok (enospc, d)
    else do
      let d ← updateBitmap d .block linkBlockNum true
      enterSymbolicLink d site filePath dirInode linkInodeNum linkInode linkBlockNum

/-- `main` on an image that could be mapped. -/
def ext2Ln (d : Disk) (symbolic : Bool) (filePath destPath : CString) (now depth : ℕ) :
    Except Fault (ℕ × Disk) :=
  if filePath.head? ≠ some slash ∨ destPath.head? ≠ some slash then .ok (einval, d)
  else if destPath.length = 1 then .ok (eisdir, d)
  else do
    match ← findLinkSite d filePath destPath with
    | .inl code => .ok (code, d)
    | .inr site => do
        let site ← site.afterCopy filePath destPath
        if argcNotFour symbolic filePath destPath then symbolicLink d site filePath now
        else hardLink d site filePath depth

/-! ## What the checks find -/

/-- The checks let the paths pass. -/
structure LinkSite.Admits (d : Disk) (filePath destPath : CString) (site : LinkSite) : Prop where
  source : findDirEntry d filePath = .ok (some site.file)
  isFile : fileType d.byte site.file ≠ ext2FtDir
  root : site.dir = none ↔ (linkDirPath destPath).length = 1
  directory : ∀ dir ∈ site.dir, findDirEntry d (linkDirPath destPath) = .ok (some dir) ∧
    fileType d.byte dir = ext2FtDir
  fits : destPath.length < stackRoom filePath.length + 72
  checked : leaves (linkDirPath destPath) (stackRoom filePath.length + 16) 1#8 = false
  missing : findDirEntry d destPath = .ok none
  name : site.filename = findFileNameByPath destPath
  short : site.filename.length ≤ 1016

theorem copyToBuf_eq {filePath path : CString}
    (h : path.length < stackRoom filePath.length + 72) : copyToBuf filePath path = .ok () :=
  if_pos h

theorem fits_of_copyToBuf {filePath path : CString} {u : Unit}
    (h : copyToBuf filePath path = .ok u) : path.length < stackRoom filePath.length + 72 := by
  unfold copyToBuf at h
  split_ifs at h with hfits
  exact hfits

theorem length_linkDirPath_le (destPath : CString) :
    (linkDirPath destPath).length ≤ destPath.length := by
  rw [linkDirPath, List.length_take]
  exact Nat.min_le_right _ _

theorem findLinkDir_of_ne {d : Disk} {filePath destPath : CString}
    (hlen : (linkDirPath destPath).length ≠ 1)
    (hfits : destPath.length < stackRoom filePath.length + 72)
    (hchecked : leaves (linkDirPath destPath) (stackRoom filePath.length + 16) 1#8 = false) :
    findLinkDir d filePath destPath = findDirEntry d (linkDirPath destPath) := by
  have hle := length_linkDirPath_le destPath
  rw [findLinkDir, if_neg hlen, copyToBuf_eq (by omega), hchecked]
  rfl

theorem checked_of_findLinkDir {d : Disk} {filePath destPath : CString} {dir : Option ℕ}
    (h : findLinkDir d filePath destPath = .ok dir) :
    leaves (linkDirPath destPath) (stackRoom filePath.length + 16) 1#8 = false := by
  unfold findLinkDir at h
  split_ifs at h with hlen hleaves
  · have hnil : (linkDirPath destPath).drop (stackRoom filePath.length + 16) = [] :=
      List.drop_eq_nil_of_le (by omega)
    rw [leaves, hnil]
    rfl
  · obtain ⟨u, -, h⟩ := Runs.bind_eq_ok_iff.mp h
    cases h
  · exact Bool.eq_false_iff.mpr hleaves

theorem findLinkSite_eq_inr_iff {d : Disk} {filePath destPath : CString} {site : LinkSite} :
    findLinkSite d filePath destPath = .ok (.inr site) ↔ site.Admits d filePath destPath := by
  constructor
  · intro h
    obtain ⟨r, hsource, h⟩ := Runs.bind_eq_ok_iff.mp h
    cases r with
    | none => exact absurd h (by simp)
    | some file =>
        obtain ⟨dir, hdir, h⟩ := Runs.bind_eq_ok_iff.mp h
        split_ifs at h with hnone hfile htype
        iterate 3 exact absurd h (by simp)
        obtain ⟨u, hcopy, h⟩ := Runs.bind_eq_ok_iff.mp h
        have hfits := fits_of_copyToBuf hcopy
        have hchecked := checked_of_findLinkDir hdir
        obtain ⟨r, hmissing, h⟩ := Runs.bind_eq_ok_iff.mp h
        cases r with
        | some entry => exact absurd h (by simp)
        | none =>
            simp only at h
            split_ifs at h with hlong
            · exact absurd h (by simp)
            obtain rfl := Sum.inr.inj (Except.ok.inj h)
            refine ⟨hsource, hfile, ?_, ?_, hfits, hchecked, hmissing, rfl,
              Nat.le_of_not_lt hlong⟩
            · rw [not_and'] at hnone
              refine ⟨fun hdirNone => not_not.mp (hnone hdirNone), fun hlen => ?_⟩
              rw [findLinkDir, if_pos hlen] at hdir
              exact (Except.ok.inj hdir).symm
            · intro entry hentry
              obtain rfl := Option.mem_def.mp hentry
              have hlen : (linkDirPath destPath).length ≠ 1 := fun hlen => by
                rw [findLinkDir, if_pos hlen] at hdir
                exact absurd (Except.ok.inj hdir) (by simp)
              rw [findLinkDir_of_ne hlen hfits hchecked] at hdir
              exact ⟨hdir, by simpa using htype⟩
  · rintro ⟨hsource, hfile, hroot, hdir, hfits, hchecked, hmissing, hname, hshort⟩
    obtain ⟨file, dir, filename⟩ := site
    subst hname
    cases dir with
    | none =>
      have hlen := hroot.mp rfl
      simp [findLinkSite, findLinkDir, hsource, hlen, hfile, copyToBuf_eq hfits, hmissing, bind,
        Except.bind, Nat.not_lt.mpr hshort]
    | some dir =>
      have hlen : (linkDirPath destPath).length ≠ 1 := fun hlen => absurd (hroot.mpr hlen) (by simp)
      obtain ⟨hfind, htype⟩ := hdir dir rfl
      simp [findLinkSite, findLinkDir_of_ne hlen hfits hchecked, hsource, hlen, hfile, hfind,
        htype, copyToBuf_eq hfits, hmissing, bind, Except.bind, Nat.not_lt.mpr hshort]

/-- A copy that ends in front of `argc` changes nothing that is needed. -/
theorem argcNotFour_of_lt {filePath destPath : CString}
    (h : destPath.length < stackRoom filePath.length + 12) (symbolic : Bool) :
    argcNotFour symbolic filePath destPath = symbolic := if_pos h

theorem LinkSite.afterCopy_of_lt {filePath destPath : CString}
    (h : destPath.length < stackRoom filePath.length + 12) (site : LinkSite) :
    site.afterCopy filePath destPath = .ok site := if_pos (by omega)

/-- The copy has no effect on the entries and the name, but for the directory. -/
theorem LinkSite.of_afterCopy {filePath destPath : CString} {site site' : LinkSite}
    (h : site.afterCopy filePath destPath = .ok site') :
    site' = site ∨ site' = { site with dir := none } := by
  simp only [LinkSite.afterCopy] at h
  split_ifs at h
  · exact .inl (Except.ok.inj h).symm
  · exact .inr (Except.ok.inj h).symm
  · exact .inl (Except.ok.inj h).symm

end KernelProgramming.Ext2
