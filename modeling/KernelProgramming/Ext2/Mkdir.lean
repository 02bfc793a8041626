import KernelProgramming.Ext2.General

/-!
# ext2_mkdir.c

Makes a directory: an inode and a block for it with the entries `.` and `..`,
and an entry in the directory above.
-/

namespace KernelProgramming.Ext2

/-- The assignments to the first entry of a block, which takes up all of it. -/
def fillFirstEntry (d : Disk) (entry inodeNum nameLength : ℕ) (name : CString) (fileType : ℕ) :
    Disk :=
  let d := d.setU32 entry inodeNum
  let d := d.setU8 (entry + 6) nameLength
  let d := d.setU16 (entry + 4) 1024
  let d := d.copy (entry + 8) name
  d.setU8 (entry + 7) fileType

/-- The block of the new directory. -/
def makeDirectoryBlock (d : Disk) (newInodeNum newInode parentInodeNum newBlockNum : ℕ) :
    Except Fault Disk := do
  let d ← updateBitmap d .block newBlockNum true
  let d := d.setU32 (iBlock newInode 0) newBlockNum
  let d := d.setU32 (iBlocks newInode) (d.u32 (iBlocks newInode) + 1)
  let dirEntry ← blockPtr d newBlockNum
  let d := fillFirstEntry d dirEntry newInodeNum 1 [dot] ext2FtDir
  let (_, d) ← allocateSpaceInBlock d 2 newBlockNum parentInodeNum [dot, dot] ext2FtDir
  .ok d

/-- A new block for the directory above.  Nothing checks whether there was a
free one: the number 0 is put into the slot like any other. -/
def growParent (d : Disk) (parentInode newInodeNum : ℕ) (fileName : CString) :
    Except Fault (ℕ × Disk) := do
  let newBlockNum := findFreeBlock d
  let d ← updateBitmap d .block newBlockNum true
  match freeSlot d parentInode with
  | some i => do
      let d := d.setU32 (iBlock parentInode i) newBlockNum
      let d := d.setU32 (iBlocks parentInode) (d.u32 (iBlocks parentInode) + 1)
      let parentEntry ← blockPtr d newBlockNum
      .ok (0, fillFirstEntry d parentEntry newInodeNum fileName.length fileName ext2FtDir)
  | none => do
      let d ← updateBitmap d .block newInodeNum false
      let d ← updateBitmap d .inode newInodeNum false
      .ok (enospc, d)

/-- `main` from the point where the directory above and the name are known. -/
def makeDirectory (d : Disk) (parentInodeNum : ℕ) (fileName : CString) (now : ℕ) :
    Except Fault (ℕ × Disk) := do
  let newInodeNum := findFreeInode d
  if newInodeNum = 0 then .ok (enospc, d)
  else do
    let d ← updateBitmap d .inode newInodeNum true
    let newInode ← inodePtr d newInodeNum
    let d := initInode d newInode ext2SIfdir 1024 now
    let d := d.setU16 (iLinksCount newInode) 2
    let newBlockNum := findFreeBlock d
    if newBlockNum = 0 then do
      let d ← updateBitmap d .inode newInodeNum false
      .ok (enoent, d)
    else do
      let d ← makeDirectoryBlock d newInodeNum newInode parentInodeNum newBlockNum
      let parentInode ← inodePtr d parentInodeNum
      let d := d.setU16 (iLinksCount parentInode) (d.u16 (iLinksCount parentInode) + 1)
      let (found, d) ← allocateSpace d parentInode fileName.length newInodeNum fileName ext2FtDir
        (List.range totalBlockCount)
      if found then .ok (0, d) else growParent d parentInode newInodeNum fileName

/-- `main` on an image that could be mapped; the exit code and the image. -/
def ext2Mkdir (d : Disk) (path : CString) (now : ℕ) : Except Fault (ℕ × Disk) :=
  if path.head? ≠ some slash then .ok (einval, d)
  else do
    match ← findDirEntry d path with
    | some _ => .ok (eexist, d)
    | none => do
        let parentInodeNum ← findParentInode d path
        if parentInodeNum = 0 then .ok (enoent, d)
        else
          let fileName := findFileNameByPath path
          if fileName.length > 1016 then .ok (enametoolong, d)
          else makeDirectory d parentInodeNum fileName now

end KernelProgramming.Ext2
