import KernelProgramming.Library.ByteMemory

/-!
# The disk image

The image that `read_image` maps is a sequence of blocks of 1024 bytes; a
pointer into it is an address, the number of bytes from `disk` on.  This module
gives the places of the fields that the tools use, and the strings and paths
that they handle.
-/

namespace KernelProgramming.Ext2

open ByteMemory

/-- A path or a name, without the `'\0'` behind it. -/
abbrev CString := List Byte

/-- How a tool stops without returning: `wild` is an access outside of the
image, `hang` a loop that never ends.  After an `overrun` a local array has been
written past its end, over something that is needed again, and nothing is said
about the run any more. -/
inductive Fault
  | wild
  | hang
  | overrun
  deriving DecidableEq, Repr

def totalBlockCount : ℕ := 15

def directBlockCount : ℕ := 12

def indirectBlock : ℕ := 12

def dbleIndirectBlock : ℕ := 13

def tpleIndirectBlock : ℕ := 14

def numOfPtrsInBlock : ℕ := 256

def rootInodeNumber : ℕ := 2

def ext2GoodOldFirstIno : ℕ := 11

def ext2SIflnk : ℕ := 0xA000

def ext2SIfreg : ℕ := 0x8000

def ext2SIfdir : ℕ := 0x4000

def ext2FtRegFile : ℕ := 1

def ext2FtDir : ℕ := 2

def ext2FtSymlink : ℕ := 7

/-- The image; `numBlocks` is `EXT2_NUM_BLOCKS`, which `ext2.h` sets to 128. -/
structure Disk where
  numBlocks : ℕ
  byte : ℕ → Byte

namespace Disk

def u32 (d : Disk) (a : ℕ) : ℕ := get32 d.byte a

def u16 (d : Disk) (a : ℕ) : ℕ := get16 d.byte a

/-- `memcpy`, and the loops that copy a name. -/
def copy (d : Disk) (a : ℕ) (s : List Byte) : Disk := { d with byte := putBytes d.byte a s }

def setByte (d : Disk) (a : ℕ) (b : Byte) : Disk := d.copy a [b]

def setU8 (d : Disk) (a v : ℕ) : Disk := d.copy a [BitVec.ofNat 8 v]

def setU16 (d : Disk) (a v : ℕ) : Disk := d.copy a (bytes16 v)

def setU32 (d : Disk) (a v : ℕ) : Disk := d.copy a (bytes32 v)

end Disk

/-- The address `a`, which is going to be accessed. -/
def follow (d : Disk) (a : ℕ) : Except Fault ℕ :=
  if a < 1024 * d.numBlocks then .ok a else .error .wild

/-- `disk + EXT2_BLOCK_SIZE * num`, in `unsigned` arithmetic. -/
def blockStart (num : ℕ) : ℕ := 1024 * num % 2 ^ 32

def blockPtr (d : Disk) (num : ℕ) : Except Fault ℕ := follow d (blockStart num)

/-! ## The superblock and the group descriptor -/

def sInodesCount : ℕ := 1024

def sBlocksCount : ℕ := 1024 + 4

def sFreeBlocksCount : ℕ := 1024 + 12

def sFreeInodesCount : ℕ := 1024 + 16

def bgBlockBitmap : ℕ := 2048

def bgInodeBitmap : ℕ := 2048 + 4

def bgInodeTable : ℕ := 2048 + 8

def bgFreeBlocksCount : ℕ := 2048 + 12

def bgFreeInodesCount : ℕ := 2048 + 14

/-! ## Inodes -/

def iMode (inode : ℕ) : ℕ := inode

def iUid (inode : ℕ) : ℕ := inode + 2

def iSize (inode : ℕ) : ℕ := inode + 4

def iCtime (inode : ℕ) : ℕ := inode + 12

def iDtime (inode : ℕ) : ℕ := inode + 20

def iGid (inode : ℕ) : ℕ := inode + 24

def iLinksCount (inode : ℕ) : ℕ := inode + 26

def iBlocks (inode : ℕ) : ℕ := inode + 28

def iOsd1 (inode : ℕ) : ℕ := inode + 36

def iBlock (inode i : ℕ) : ℕ := inode + 40 + 4 * i

def iGeneration (inode : ℕ) : ℕ := inode + 100

def iFileAcl (inode : ℕ) : ℕ := inode + 104

def iDirAcl (inode : ℕ) : ℕ := inode + 108

def iFaddr (inode : ℕ) : ℕ := inode + 112

def getInodeTable (d : Disk) : ℕ := blockStart (d.u32 bgInodeTable)

/-- `get_inode_table(disk) + TO_INDEX(num)`; `TO_INDEX(0)` is the largest
`unsigned` number. -/
def inodePtr (d : Disk) (num : ℕ) : Except Fault ℕ :=
  if num = 0 then .error .wild else follow d (getInodeTable d + 128 * (num - 1))

def getRootInode (d : Disk) : Except Fault ℕ := inodePtr d rootInodeNumber

/-! ## Directory entries -/

def entryInode (m : ℕ → Byte) (entry : ℕ) : ℕ := get32 m entry

def recLen (m : ℕ → Byte) (entry : ℕ) : ℕ := get16 m (entry + 4)

def nameLen (m : ℕ → Byte) (entry : ℕ) : ℕ := (m (entry + 6)).toNat

def fileType (m : ℕ → Byte) (entry : ℕ) : ℕ := (m (entry + 7)).toNat

def entryName (m : ℕ → Byte) (entry : ℕ) : CString := getBytes m (entry + 8) (nameLen m entry)

def live (m : ℕ → Byte) (entry : ℕ) : Bool := entryInode m entry != 0

/-- The entries of the block at `start` from `position` on, as the loops over
`rec_len` meet them, and whether such a loop comes to its end: an entry of
length 0 is met again and again. -/
def entriesFrom (m : ℕ → Byte) (start : ℕ) : ℕ → ℕ → List ℕ × Bool
  | 0, _ => ([], true)
  | fuel + 1, position =>
      if position < 1024 then
        let entry := start + position
        if recLen m entry = 0 then ([entry], false)
        else
          let rest := entriesFrom m start fuel (position + recLen m entry)
          (entry :: rest.1, rest.2)
      else ([], true)

/-- A loop meets at most 1024 entries of positive length. -/
def entries (m : ℕ → Byte) (start : ℕ) : List ℕ × Bool := entriesFrom m start 1025 0

/-! ## Paths -/

def slash : Byte := 0x2F#8

def dot : Byte := 0x2E#8

def tokens (path : CString) : List CString := (path.splitOn slash).filter (· ≠ [])

/-- The place of the last slash that is followed by a name; -1 as an `unsigned`
number if there is none. -/
def lastSlashInPath (path : CString) : ℕ :=
  let path := if path.getLast? = some slash then path.dropLast else path
  match path.reverse.findIdx? (· = slash) with
  | some i => path.length - 1 - i
  | none => 2 ^ 32 - 1

def findFileNameByPath (path : CString) : CString := path.drop ((lastSlashInPath path + 1) % 2 ^ 32)

/-! ## Local arrays -/

/-- The bytes that the build of the Makefile sets aside for `char a[n]`, where `n` is
the length of a path: the stack grows by multiples of 16. -/
def stackRoom (n : ℕ) : ℕ := (n + 15) / 16 * 16

/-- The longest string for a `char a[PATH_MAX]`.  Behind its 1024 bytes there are 8
that nothing uses, and then the guard of the frame, whose first byte is 0. -/
def pathMax : ℕ := 1032

theorem lt_stackRoom_iff {n : ℕ} : n < stackRoom n ↔ n % 16 ≠ 0 := by
  unfold stackRoom
  omega

/-! ## Exit codes -/

def enoent : ℕ := 2

def eexist : ℕ := 17

def eisdir : ℕ := 21

def einval : ℕ := 22

def enospc : ℕ := 28

def enametoolong : ℕ := 36

end KernelProgramming.Ext2
