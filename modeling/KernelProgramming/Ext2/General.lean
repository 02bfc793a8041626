import KernelProgramming.Ext2.Image

/-!
# ext2general.c

The functions that the tools share: the bitmaps, lookup of names and paths,
new directory entries, new inodes, and the release of the blocks of an inode.
-/

namespace KernelProgramming.Ext2

open ByteMemory

/-! ## The bitmaps -/

inductive BitmapType
  | block
  | inode
  deriving DecidableEq, Repr

def bitmapStart (d : Disk) : BitmapType → ℕ
  | .block => blockStart (d.u32 bgBlockBitmap)
  | .inode => blockStart (d.u32 bgInodeBitmap)

def freeCount : BitmapType → ℕ
  | .block => sFreeBlocksCount
  | .inode => sFreeInodesCount

def groupFreeCount : BitmapType → ℕ
  | .block => bgFreeBlocksCount
  | .inode => bgFreeInodesCount

def bitSet (d : Disk) (bitmapType : BitmapType) (i : ℕ) : Bool :=
  (d.byte (bitmapStart d bitmapType + i / 8)).getLsbD (i % 8)

/-- Adds `n` to the counter of the superblock and `k` to that of the group, both
of which wrap around. -/
def addToCounters (d : Disk) (bitmapType : BitmapType) (n k : ℕ) : Disk :=
  let d := d.setU32 (freeCount bitmapType) (d.u32 (freeCount bitmapType) + n)
  d.setU16 (groupFreeCount bitmapType) (d.u16 (groupFreeCount bitmapType) + k)

def countDown (d : Disk) (bitmapType : BitmapType) : Disk :=
  addToCounters d bitmapType (2 ^ 32 - 1) (2 ^ 16 - 1)

def countUp (d : Disk) (bitmapType : BitmapType) : Disk := addToCounters d bitmapType 1 1

def updateBitmap (d : Disk) (bitmapType : BitmapType) (num : ℕ) (value : Bool) :
    Except Fault Disk :=
  if num = 0 then .ok d
  else do
    let bitmap ← follow d (bitmapStart d bitmapType + (num - 1) / 8)
    let bit := (num - 1) % 8
    if value then
      let d := if (d.byte bitmap).getLsbD bit then d else countDown d bitmapType
      .ok (d.setByte bitmap (d.byte bitmap ||| 1#8 <<< bit))
    else
      let d := if (d.byte bitmap).getLsbD bit then countUp d bitmapType else d
      .ok (d.setByte bitmap (d.byte bitmap &&& ~~~(1#8 <<< bit)))

/-- The number after the first index for which a loop stops, 0 if it does not. -/
def numberOf (index : Option ℕ) : ℕ :=
  match index with
  | some i => i + 1
  | none => 0

def findFreeInode (d : Disk) : ℕ :=
  numberOf ((List.range (d.u32 sInodesCount)).find? fun i =>
    decide (ext2GoodOldFirstIno ≤ i) && !bitSet d .inode i)

def findFreeBlock (d : Disk) : ℕ :=
  numberOf ((List.range (d.u32 sBlocksCount)).find? fun i => !bitSet d .block i)

/-! ## Lookup -/

/-- The comparison of `locate_file_by_name`.  The name on the disk is compared
as a C string; it can only be equal to `fileName` if it has no `'\0'`. -/
def matchesName (m : ℕ → Byte) (fileName : CString) (entry : ℕ) : Bool :=
  nameLen m entry == fileName.length && entryInode m entry != 0 && entryName m entry == fileName

/-- A loop over the entries of a block that stops at the first one with `stop`. -/
def searchBlock (m : ℕ → Byte) (start : ℕ) (stop : ℕ → Bool) : Except Fault (Option ℕ) :=
  match (entries m start).1.find? stop with
  | some entry => .ok (some entry)
  | none => if (entries m start).2 then .ok none else .error .hang

def locateFrom (d : Disk) (inode : ℕ) (fileName : CString) : List ℕ → Except Fault (Option ℕ)
  | [] => .ok none
  | i :: slots =>
      if d.u32 (iBlock inode i) = 0 then locateFrom d inode fileName slots
      else do
        let dir ← blockPtr d (d.u32 (iBlock inode i))
        match ← searchBlock d.byte dir (matchesName d.byte fileName) with
        | some entry => .ok (some entry)
        | none => locateFrom d inode fileName slots

def locateFileByName (d : Disk) (inode : ℕ) (fileName : CString) : Except Fault (Option ℕ) :=
  locateFrom d inode fileName (List.range totalBlockCount)

def walkPath (d : Disk) (inode : ℕ) (token : CString) :
    List CString → Except Fault (Option ℕ)
  | [] => locateFileByName d inode token
  | next :: rest => do
      match ← locateFileByName d inode token with
      | none => .ok none
      | some entry => walkPath d (← inodePtr d (entryInode d.byte entry)) next rest

/-- A path without a name makes `locate_file_by_name` take the length of `NULL`. -/
def findDirEntry (d : Disk) (path : CString) : Except Fault (Option ℕ) := do
  let rootInode ← getRootInode d
  match tokens path.tail with
  | [] => .error .wild
  | token :: rest => walkPath d rootInode token rest

/-- 0 if there is no such directory.  `path` itself lies behind the array that it is
copied to, and is read once more after that. -/
def findParentInode (d : Disk) (path : CString) : Except Fault ℕ := do
  let parentPath := path.take (lastSlashInPath path)
  if stackRoom path.length ≤ path.length then .error .overrun
  else if path.length ≤ lastSlashInPath path then .error .wild
  else if parentPath = [] then .ok rootInodeNumber
  else
    match ← findDirEntry d parentPath with
    | none => .ok 0
    | some entry => .ok (entryInode d.byte entry)

/-! ## New directory entries -/

/-- The length that an entry needs for its name, in units of four bytes. -/
def recLenPerFourBytes (nameLen : ℕ) : ℕ := (8 + nameLen + 3) / 4

/-- The assignments to the fields of an entry, apart from `rec_len`.  `nameLen`
is an `unsigned char`. -/
def fillEntry (d : Disk) (entry nameLen inodeNum : ℕ) (fileName : CString) (fileType : ℕ) : Disk :=
  let d := d.setU8 (entry + 6) nameLen
  let d := d.setU32 entry inodeNum
  let d := d.copy (entry + 8) (fileName.take nameLen)
  d.setU8 (entry + 7) fileType

/-- A deleted entry with room for the name that it had. -/
def reusable (m : ℕ → Byte) (entry : ℕ) : Bool :=
  entryInode m entry == 0 && decide (recLenPerFourBytes (nameLen m entry) * 4 ≤ recLen m entry)

/-- The part of `allocate_space_in_block` behind the loop: the last entry of
the block is split. -/
def splitLast (d : Disk) (prev nameLength inodeNum : ℕ) (fileName : CString) (fileType : ℕ) :
    Bool × Disk :=
  let recLenNeeded := (16 + nameLength + nameLen d.byte prev + 3) / 4
  if recLenNeeded * 4 ≤ recLen d.byte prev then
    let newRecLen := recLenPerFourBytes (nameLen d.byte prev) * 4
    let remainder := recLen d.byte prev - newRecLen
    let d := d.setU16 (prev + 4) newRecLen
    let dir := prev + newRecLen
    let d := d.setU16 (dir + 4) remainder
    (true, fillEntry d dir nameLength inodeNum fileName fileType)
  else (false, d)

/-- `nameLength` is passed as an `unsigned char`. -/
def allocateSpaceInBlock (d : Disk) (nameLength blockNum inodeNum : ℕ) (fileName : CString)
    (fileType : ℕ) : Except Fault (Bool × Disk) := do
  let nameLength := nameLength % 256
  let dir ← blockPtr d blockNum
  match ← searchBlock d.byte dir (reusable d.byte) with
  | some entry => .ok (true, fillEntry d entry nameLength inodeNum fileName fileType)
  | none =>
      match (entries d.byte dir).1.getLast? with
      | none => .error .wild
      | some prev => .ok (splitLast d prev nameLength inodeNum fileName fileType)

/-- The loops of the tools that look for a place in the blocks of a directory. -/
def allocateSpace (d : Disk) (inode nameLength inodeNum : ℕ) (fileName : CString) (fileType : ℕ) :
    List ℕ → Except Fault (Bool × Disk)
  | [] => .ok (false, d)
  | i :: slots =>
      if d.u32 (iBlock inode i) = 0 then
        allocateSpace d inode nameLength inodeNum fileName fileType slots
      else do
        let (found, d) ← allocateSpaceInBlock d nameLength (d.u32 (iBlock inode i)) inodeNum
          fileName fileType
        if found then .ok (true, d)
        else allocateSpace d inode nameLength inodeNum fileName fileType slots

/-! ## Inodes and their blocks -/

def freeSlot (d : Disk) (inode : ℕ) : Option ℕ :=
  (List.range totalBlockCount).find? fun i => d.u32 (iBlock inode i) == 0

/-- `now` is the time that `time(NULL)` returns. -/
def initInode (d : Disk) (inode mode size now : ℕ) : Disk :=
  let d := d.setU16 (iMode inode) mode
  let d := d.setU16 (iUid inode) 0
  let d := d.setU32 (iSize inode) size
  let d := d.setU32 (iCtime inode) now
  let d := d.setU32 (iDtime inode) 0
  let d := d.setU16 (iGid inode) 0
  let d := d.setU16 (iLinksCount inode) 1
  let d := d.setU32 (iBlocks inode) 0
  let d := d.setU32 (iOsd1 inode) 0
  let d := d.setU32 (iGeneration inode) 0
  let d := d.setU32 (iFileAcl inode) 0
  let d := d.setU32 (iDirAcl inode) 0
  let d := d.setU32 (iFaddr inode) 0
  (List.range totalBlockCount).foldl (fun d i => d.setU32 (iBlock inode i) 0) d

/-- `update_bitmap` for the `n` words from `start` on. -/
def freeWords (d : Disk) (start n : ℕ) : Except Fault Disk :=
  (List.range n).foldlM (fun d i => updateBitmap d .block (d.u32 (start + 4 * i)) false) d

/-- The innermost loop over a block of pointers and the release of that block,
whose number is at `slot`. -/
def freeIndirect (d : Disk) (slot : ℕ) : Except Fault Disk := do
  let currentPos ← blockPtr d (d.u32 slot)
  let d ← freeWords d currentPos numOfPtrsInBlock
  updateBitmap d .block (d.u32 slot) false

/-- The two inner loops over a block of pointers to pointer blocks. -/
def freeDoubleIndirect (d : Disk) (slot : ℕ) : Except Fault Disk := do
  let currentPtrPos ← blockPtr d (d.u32 slot)
  let d ← (List.range numOfPtrsInBlock).foldlM
    (fun d i => freeIndirect d (currentPtrPos + 4 * i)) d
  updateBitmap d .block (d.u32 slot) false

/-- The middle loop for triple indirect blocks, with the counter `i` of the
outer loop: `current_ptr_pos[i]` is followed 256 times, `current_ptr_pos[j]`
released. -/
def freeTripleRow (d : Disk) (currentPtrPos i : ℕ) : Except Fault Disk :=
  (List.range numOfPtrsInBlock).foldlM (fun d j => do
    let currentPos ← blockPtr d (d.u32 (currentPtrPos + 4 * i))
    let d ← freeWords d currentPos numOfPtrsInBlock
    updateBitmap d .block (d.u32 (currentPtrPos + 4 * j)) false) d

def freeTripleIndirect (d : Disk) (slot : ℕ) : Except Fault Disk := do
  let currentPtrPtrPos ← blockPtr d (d.u32 slot)
  let d ← (List.range numOfPtrsInBlock).foldlM (fun d i => do
    let currentPtrPos ← blockPtr d (d.u32 (currentPtrPtrPos + 4 * i))
    let d ← freeTripleRow d currentPtrPos i
    updateBitmap d .block (d.u32 (currentPtrPtrPos + 4 * i)) false) d
  updateBitmap d .block (d.u32 slot) false

def freeAllBlocksOfInode (d : Disk) (inode : ℕ) : Except Fault Disk := do
  let d ← freeWords d (iBlock inode 0) directBlockCount
  let d ← if d.u32 (iBlock inode indirectBlock) ≠ 0 then
    freeIndirect d (iBlock inode indirectBlock) else .ok d
  let d ← if d.u32 (iBlock inode dbleIndirectBlock) ≠ 0 then
    freeDoubleIndirect d (iBlock inode dbleIndirectBlock) else .ok d
  if d.u32 (iBlock inode tpleIndirectBlock) ≠ 0 then
    freeTripleIndirect d (iBlock inode tpleIndirectBlock) else .ok d

end KernelProgramming.Ext2
