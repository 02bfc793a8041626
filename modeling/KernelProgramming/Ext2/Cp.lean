import KernelProgramming.Ext2.General

/-!
# ext2_cp.c

Copies a file of the host into the image: the blocks are written through the
four levels of the block map, with the next block of the file always read ahead.
-/

namespace KernelProgramming.Ext2

open ByteMemory

/-- What `lstat` and `fopen` find at the source path. -/
structure NativeFile where
  isRegular : Bool
  readable : Bool
  content : List Byte

/-- `num_blocks_needed`; `pow` is exact on these arguments. -/
def numBlocksNeeded (size : ℕ) : Option ℕ :=
  if size < 12 * 1024 then
    some (size / 1024 + if size % 1024 ≠ 0 then 1 else 0)
  else if size < 12 * 1024 + 256 * 1024 then
    some (dbleIndirectBlock + (size - 12 * 1024) / 1024 +
      if (size - 12 * 1024) % 1024 ≠ 0 then 1 else 0)
  else if size < 12 * 1024 + 256 * 1024 + 256 ^ 2 * 1024 then
    let endBlocks := (size - 12 * 1024 - 256 * 1024) / 1024 +
      if (size - 12 * 1024 - 256 * 1024) % 1024 ≠ 0 then 1 else 0
    let ptrBlocks := endBlocks / 256 + if endBlocks % 256 ≠ 0 then 1 else 0
    some (tpleIndirectBlock + 256 + (ptrBlocks + endBlocks))
  else if size < 12 * 1024 + 256 * 1024 + 256 ^ 2 * 1024 + 256 ^ 3 * 1024 then
    let endBlocks := (size - 12 * 1024 - 256 * 1024 / 1024 - 256 ^ 2 * 1024) / 1024 +
      if (size - 12 * 1024 - 256 * 1024 - 256 ^ 2 * 1024) % 1024 ≠ 0 then 1 else 0
    let ptrBlocks := endBlocks / 256 + if endBlocks % 256 ≠ 0 then 1 else 0
    let ptrPtrBlocks := ptrBlocks / 256 + if ptrBlocks / 256 % 256 ≠ 0 then 1 else 0
    some (totalBlockCount + 2 * 256 + 256 ^ 2 + (ptrBlocks + endBlocks + ptrPtrBlocks))
  else none

def haveEnoughBlocks (d : Disk) (size : ℕ) : Bool :=
  match numBlocksNeeded size with
  | some needed => decide (needed ≤ d.u16 bgFreeBlocksCount)
  | none => false

/-! ## The copy loops -/

/-- The image, the bytes read ahead (`buffer` and `bytes_read`) and those that
are still in the file. -/
structure Copying where
  disk : Disk
  buffer : List Byte
  rest : List Byte

def Copying.fread (s : Copying) : Copying :=
  { s with buffer := s.rest.take 1024, rest := s.rest.drop 1024 }

/-- A block for the file whose number goes into slot `i` of the inode. -/
def newSlot (d : Disk) (inode i : ℕ) : Except Fault (ℕ × Disk) := do
  let blockNum := findFreeBlock d
  let d ← updateBitmap d .block blockNum true
  let d := d.setU32 (iBlock inode i) blockNum
  .ok (blockNum, d.setU32 (iBlocks inode) (d.u32 (iBlocks inode) + 1))

/-- A block for the file whose number goes to the address `pointer`. -/
def newPointer (d : Disk) (inode pointer : ℕ) : Except Fault (ℕ × Disk) := do
  let blockNum := findFreeBlock d
  let d ← updateBitmap d .block blockNum true
  let d := d.setU32 (iBlocks inode) (d.u32 (iBlocks inode) + 1)
  .ok (blockNum, d.setU32 pointer blockNum)

def copyDataToBlock (s : Copying) (d : Disk) (blockNum : ℕ) : Except Fault Copying := do
  let blockToWrite ← blockPtr d blockNum
  .ok { s with disk := d.copy blockToWrite s.buffer }

/-- The loop over the direct blocks, with `n` slots left from `blockIndex` on. -/
def writeDirect (inode : ℕ) : ℕ → ℕ → Copying → Except Fault Copying
  | 0, _, s => .ok s
  | n + 1, blockIndex, s =>
      if s.buffer = [] then .ok s
      else do
        let (blockNum, d) ← newSlot s.disk inode blockIndex
        let s ← copyDataToBlock s d blockNum
        writeDirect inode n (blockIndex + 1) s.fread

/-- The loop that fills a block of pointers with data blocks, with `n` pointers
left from `offset` on. -/
def fillPtrBlock (inode ptrBlock : ℕ) : ℕ → ℕ → Copying → Except Fault Copying
  | 0, _, s => .ok s
  | n + 1, offset, s =>
      if s.buffer = [] then .ok s
      else do
        let (blockNum, d) ← newPointer s.disk inode (ptrBlock + 4 * offset)
        let s ← copyDataToBlock s d blockNum
        fillPtrBlock inode ptrBlock n (offset + 1) s.fread

/-- The loop that fills a block of pointers to pointer blocks.  After each
pointer block it reads once more, so that the block read ahead is lost. -/
def fillPtrPtrBlock (inode ptrPtrBlock : ℕ) : ℕ → ℕ → Copying → Except Fault Copying
  | 0, _, s => .ok s
  | n + 1, offset, s =>
      if s.buffer = [] then .ok s
      else do
        let (blockNum, d) ← newPointer s.disk inode (ptrPtrBlock + 4 * offset)
        let ptrBlock ← blockPtr d blockNum
        let s ← fillPtrBlock inode ptrBlock numOfPtrsInBlock 0 { s with disk := d }
        fillPtrPtrBlock inode ptrPtrBlock n (offset + 1) s.fread

/-- The loop for the triple indirect block, which loses blocks in the same way. -/
def fillPtrPtrPtrBlock (inode ptrPtrPtrBlock : ℕ) : ℕ → ℕ → Copying → Except Fault Copying
  | 0, _, s => .ok s
  | n + 1, offset, s =>
      if s.buffer = [] then .ok s
      else do
        let (blockNum, d) ← newPointer s.disk inode (ptrPtrPtrBlock + 4 * offset)
        let ptrPtrBlock ← blockPtr d blockNum
        let s ← fillPtrPtrBlock inode ptrPtrBlock numOfPtrsInBlock 0 { s with disk := d }
        fillPtrPtrPtrBlock inode ptrPtrPtrBlock n (offset + 1) s.fread

/-- One of the three levels of pointer blocks: nothing is left to do if no byte
was read, else the level gets its block in slot `i` and `fill` writes to it. -/
def writeLevel (inode i : ℕ) (fill : ℕ → Copying → Except Fault Copying) (s : Copying) :
    Except Fault Copying :=
  if s.buffer = [] then .ok s
  else do
    let (blockNum, d) ← newSlot s.disk inode i
    fill (← blockPtr d blockNum) { s with disk := d }

def copyFileData (d : Disk) (inode : ℕ) (content : List Byte) : Except Fault Disk := do
  let s : Copying := ⟨d, [], content⟩
  let s ← writeDirect inode directBlockCount 0 s.fread
  let s ← writeLevel inode indirectBlock
    (fun ptrBlock => fillPtrBlock inode ptrBlock numOfPtrsInBlock 0) s
  let s ← writeLevel inode dbleIndirectBlock
    (fun ptrPtrBlock => fillPtrPtrBlock inode ptrPtrBlock numOfPtrsInBlock 0) s
  let s ← writeLevel inode tpleIndirectBlock
    (fun ptrPtrPtrBlock => fillPtrPtrPtrBlock inode ptrPtrPtrBlock numOfPtrsInBlock 0) s
  .ok s.disk

/-! ## The destination -/

/-- What the search for the destination yields: the entry of a file to be
overwritten, or the directory that gets a new one, and the name in it. -/
structure Destination where
  entry : Option ℕ
  dirInode : ℕ
  nativeFileName : CString

/-- The destination in a directory, with what the local array `path` holds when
`strcat` comes to it. -/
def destinationIn (d : Disk) (dirInode : ℕ) (path nativePath destPath : CString) :
    Except Fault (ℕ ⊕ Destination) := do
  let nativeFileName := findFileNameByPath nativePath
  if nativeFileName.length > 1016 then .ok (.inl enametoolong)
  else
    let path := path ++ (destPath ++ slash :: nativeFileName)
    if pathMax < path.length then .error .overrun
    else do
      let entry ← findDirEntry d path
      .ok (.inr ⟨entry, dirInode, nativeFileName⟩)

/-- For a directory other than the root, `path` is not initialized: `leftover` is
the string that happens to be there. -/
def findDestination (d : Disk) (leftover nativePath destPath : CString) :
    Except Fault (ℕ ⊕ Destination) := do
  if destPath.length = 1 then destinationIn d (← getRootInode d) [] nativePath destPath
  else
    match ← findDirEntry d destPath with
    | none => .ok (.inl enoent)
    | some entry =>
        let destInode ← inodePtr d (entryInode d.byte entry)
        if fileType d.byte entry = ext2FtDir then
          destinationIn d destInode leftover nativePath destPath
        else do
          -- the inode of the parent is not used when a file is overwritten
          let _ ← findParentInode d destPath
          .ok (.inr ⟨some entry, destInode, findFileNameByPath destPath⟩)

/-! ## The new entry -/

/-- A new block for a directory with a single entry in it. -/
def fillNewBlock (d : Disk) (start nameLength inodeNum : ℕ) (fileName : CString) (fileType : ℕ) :
    Disk :=
  let d := d.setU16 (start + 4) 1024
  let d := d.setU8 (start + 6) nameLength
  let d := d.setU32 start inodeNum
  let d := d.setU8 (start + 7) fileType
  d.copy (start + 8) fileName

/-- Gives a directory a new block, if it has a slot for it. -/
def addBlock (d : Disk) (inode blockNum : ℕ) : Disk :=
  match freeSlot d inode with
  | some i =>
      let d := d.setU32 (iBlock inode i) blockNum
      d.setU32 (iBlocks inode) (d.u32 (iBlocks inode) + 1)
  | none => d

def linkNewFile (d : Disk) (dest : Destination) (newInodeNum newInode : ℕ) :
    Except Fault (ℕ × Disk) := do
  let name := dest.nativeFileName
  let (found, d) ← allocateSpace d dest.dirInode name.length newInodeNum name ext2FtRegFile
    (List.range totalBlockCount)
  if found then .ok (0, d)
  else
    let newBlockNum := findFreeBlock d
    if newBlockNum = 0 then do
      let d ← freeAllBlocksOfInode d newInode
      let d ← updateBitmap d .inode newInodeNum false
      .ok (enospc, d)
    else do
      let d ← updateBitmap d .block newBlockNum true
      let newFileEntry ← blockPtr d newBlockNum
      let d := fillNewBlock d newFileEntry name.length newInodeNum name ext2FtRegFile
      .ok (0, addBlock d dest.dirInode newBlockNum)

/-- `main` from the point where the destination is known. -/
def copyTo (d : Disk) (content : List Byte) (now : ℕ) (dest : Destination) :
    Except Fault (ℕ × Disk) :=
  match dest.entry with
  | some entry => do
      let inode ← inodePtr d (entryInode d.byte entry)
      let d ← freeAllBlocksOfInode d inode
      let d := initInode d inode ext2SIfreg content.length now
      let d ← copyFileData d inode content
      .ok (0, d)
  | none => do
      let newInodeNum := findFreeInode d
      if newInodeNum = 0 then .ok (enospc, d)
      else do
        let d ← updateBitmap d .inode newInodeNum true
        let inode ← inodePtr d newInodeNum
        let d := initInode d inode ext2SIfreg content.length now
        let d ← copyFileData d inode content
        linkNewFile d dest newInodeNum inode

/-- `leftover` is what the local array `path` of `main` holds before anything is
stored there. -/
def ext2Cp (d : Disk) (leftover nativePath : CString) (native : Option NativeFile)
    (destPath : CString) (now : ℕ) : Except Fault (ℕ × Disk) :=
  match native with
  | none => .ok (einval, d)
  | some file =>
      if ¬ file.isRegular then .ok (einval, d)
      else if ¬ haveEnoughBlocks d file.content.length then .ok (enospc, d)
      else if ¬ file.readable then .ok (enoent, d)
      else if destPath.head? ≠ some slash then .ok (einval, d)
      else do
        match ← findDestination d leftover nativePath destPath with
        | .inl code => .ok (code, d)
        | .inr dest => copyTo d file.content now dest

end KernelProgramming.Ext2
