import KernelProgramming.Ext2.General

/-!
# ext2_rm.c

Removes a file or a link, or a directory with everything in it.
-/

namespace KernelProgramming.Ext2

open ByteMemory

/-- The test by which `locate_dir_entry_in_block` leaves its loop: names of the
same length that agree in no character. -/
def sameName (m : ℕ → Byte) (fileEntry entry : ℕ) : Bool :=
  nameLen m entry == nameLen m fileEntry &&
    ((entryName m entry).zip (entryName m fileEntry)).all fun c => c.1 != c.2

/-- The first slot in use, whatever the loop over its block has found; `none`
for -1. -/
def locateDirEntryInBlock (d : Disk) (parentInode fileEntry : ℕ) : Except Fault (Option ℕ) :=
  match (List.range totalBlockCount).find? fun i => d.u32 (iBlock parentInode i) != 0 with
  | none => .ok none
  | some i => do
      let dir ← blockPtr d (d.u32 (iBlock parentInode i))
      let _ ← searchBlock d.byte dir (sameName d.byte fileEntry)
      .ok (some i)

/-- The address of `i_block[index]`; index -1 leads to the field before. -/
def slotAddress (inode : ℕ) : Option ℕ → ℕ
  | some i => iBlock inode i
  | none => iOsd1 inode

def updateParentInodeBlock (d : Disk) (parentInode : ℕ) (index : Option ℕ) :
    Except Fault Disk := do
  let slot := slotAddress parentInode index
  let dir ← blockPtr d (d.u32 slot)
  if ¬ (entries d.byte dir).2 then .error .hang
  else if (entries d.byte dir).1.countP (live d.byte) = 1 then do
    let d ← updateBitmap d .block (d.u32 slot) false
    let d := d.setU32 slot 0
    .ok (d.setU32 (iBlocks parentInode) (d.u32 (iBlocks parentInode) + (2 ^ 32 - 1)))
  else .ok d

/-- The end of both kinds of removal: the parent's blocks. -/
def fixParent (d : Disk) (dirEntry : ℕ) (path : CString) : Except Fault (ℕ × Disk) := do
  let parentInode ← inodePtr d (← findParentInode d path)
  let index ← locateDirEntryInBlock d parentInode dirEntry
  let d ← updateParentInodeBlock d parentInode index
  .ok (parentInode, d)

def removeFile (d : Disk) (dirEntry : ℕ) (path : CString) (now : ℕ) : Except Fault Disk := do
  let inode ← inodePtr d (entryInode d.byte dirEntry)
  let d := d.setU16 (iLinksCount inode) (d.u16 (iLinksCount inode) + (2 ^ 16 - 1))
  let d ← if d.u16 (iLinksCount inode) = 0 then do
      let d ← freeAllBlocksOfInode d inode
      let d ← updateBitmap d .inode (entryInode d.byte dirEntry) false
      let d := d.setU32 (iDtime inode) now
      .ok (d.setU32 (iSize inode) 0)
    else .ok d
  let (_, d) ← fixParent d dirEntry path
  .ok (d.setU32 dirEntry 0)

def removeEmptyDirectory (d : Disk) (emptyDirectory : ℕ) (path : CString) (now : ℕ) :
    Except Fault Disk := do
  let (parentInode, d) ← fixParent d emptyDirectory path
  let d := d.setU16 (iLinksCount parentInode) (d.u16 (iLinksCount parentInode) + (2 ^ 16 - 1))
  let d ← updateBitmap d .inode (entryInode d.byte emptyDirectory) false
  let inode ← inodePtr d (entryInode d.byte emptyDirectory)
  let d := d.setU32 (iDtime inode) now
  let d := d.setU32 (iSize inode) 0
  let d ← freeWords d (iBlock inode 0) totalBlockCount
  .ok (d.setU32 emptyDirectory 0)

/-- The characters from `a` up to the next `'\0'`. -/
def cStringAt (m : ℕ → Byte) (a : ℕ) : ℕ → CString
  | 0 => []
  | n + 1 => if m a = 0 then [] else m a :: cStringAt m (a + 1) n

def checkIfExternalEntry (m : ℕ → Byte) (entry : ℕ) : Bool :=
  let printName := (entryName m entry).takeWhile (· ≠ 0)
  printName ≠ [dot] && printName ≠ [dot, dot]

/-- The path of an entry is made in `entry_path` from its name on the disk, which ends
with the next `'\0'`. -/
def removeEntry (remove : Disk → ℕ → CString → Except Fault Disk) (path : CString) (d : Disk)
    (dir : ℕ) : Except Fault Disk :=
  if live d.byte dir && checkIfExternalEntry d.byte dir then
    let entryPath := path ++ slash :: cStringAt d.byte (dir + 8) (1024 * d.numBlocks)
    if pathMax < entryPath.length then .error .overrun else remove d dir entryPath
  else .ok d

/-- The loop over the entries of one block of a directory. -/
def removeEntries (remove : Disk → ℕ → CString → Except Fault Disk) (path : CString)
    (start : ℕ) : ℕ → ℕ → Disk → Except Fault Disk
  | 0, _, d => .ok d
  | n + 1, position, d =>
      if position < 1024 then do
        let dir := start + position
        let d ← removeEntry remove path d dir
        if recLen d.byte dir = 0 then .error .hang
        else removeEntries remove path start n (position + recLen d.byte dir) d
      else .ok d

/-- At most `depth` directories deep. -/
def removeDirectoryOrFileOrLink (now : ℕ) :
    ℕ → Disk → ℕ → CString → Except Fault Disk
  | 0, _, _, _ => .error .hang
  | depth + 1, d, dirEntry, path =>
      if fileType d.byte dirEntry = ext2FtRegFile ∨ fileType d.byte dirEntry = ext2FtSymlink then
        removeFile d dirEntry path now
      else do
        let inode ← inodePtr d (entryInode d.byte dirEntry)
        let d := d.setU16 (iLinksCount inode) (d.u16 (iLinksCount inode) + (2 ^ 16 - 2))
        let d ← (List.range totalBlockCount).foldlM (fun d i =>
          if d.u32 (iBlock inode i) = 0 then .ok d
          else do
            let start ← blockPtr d (d.u32 (iBlock inode i))
            removeEntries (removeDirectoryOrFileOrLink now depth) path start 1025 0 d) d
        removeEmptyDirectory d dirEntry path now

/-- `main` on an image that could be mapped; `recursive` is the flag `-r`. -/
def ext2Rm (d : Disk) (recursive : Bool) (path : CString) (now depth : ℕ) :
    Except Fault (ℕ × Disk) :=
  if path.head? ≠ some slash then .ok (einval, d)
  else if path.length = 1 then .ok (einval, d)
  else do
    match ← findDirEntry d path with
    | none => .ok (enoent, d)
    | some destFile =>
        if fileType d.byte destFile = ext2FtDir ∧ ¬ recursive then .ok (eisdir, d)
        else .ok (0, ← removeDirectoryOrFileOrLink now depth d destFile path)

end KernelProgramming.Ext2
