import Mathlib.Logic.Function.Basic
import KernelProgramming.Library.FlagWord
import KernelProgramming.Paging.Bitmap

/-!
# Demand paging with a two-level page table

The state of the memory simulator and the functions of `pagetable.c`,
`swap.c` and `sim.c` that act on it.  A pointer to a page table entry is the
pair of indices that leads to the entry; a pointer into `coremap` is the index
of the frame.  Functions that can stop the program return `Except Halt`.
-/

namespace KernelProgramming.Paging

open FlagWord

def pageShift : ℕ := 12

def pgValid : BitVec 32 := 0x1#32

def pgDirty : BitVec 32 := 0x2#32

def pgRef : BitVec 32 := 0x4#32

def pgOnswap : BitVec 32 := 0x8#32

def invalidSwap : ℤ := -1

def pgdirShift : ℕ := 24

def ptrsPerPgdir : ℕ := 4096

def ptrsPerPgtbl : ℕ := 4096

def simpagesize : ℕ := 16

def pgdirIndex (x : ℕ) : ℕ := x >>> pgdirShift

def pgtblIndex (x : ℕ) : ℕ := (x >>> pageShift) % ptrsPerPgtbl

structure PgtblEntry where
  /-- frame number and status bits -/
  frame : BitVec 32
  swapOff : ℤ
  deriving DecidableEq, Repr

/-- A pointer to a page table entry. -/
structure PtePtr where
  idx : ℕ
  entry : ℕ
  deriving DecidableEq, Repr

def ptePtr (vaddr : ℕ) : PtePtr := ⟨pgdirIndex vaddr, pgtblIndex vaddr⟩

structure Frame where
  inUse : Bool
  pte : Option PtePtr
  next : Option ℕ
  previous : Option ℕ
  deriving DecidableEq, Repr

/-- The sixteen bytes of a simulated page: the version counter, the address
word behind it and four unused bytes. -/
structure SimPage where
  version : BitVec 32
  vaddr : ℕ
  rest : BitVec 32
  deriving DecidableEq, Repr

/-- The globals of the simulator.  `alg` stands for the globals of the chosen
replacement algorithm. -/
structure Sim (σ : Type) where
  memsize : ℕ
  coremap : ℕ → Frame
  physmem : ℕ → SimPage
  pgdir : ℕ → Option (ℕ → PgtblEntry)
  swapmap : Bitmap
  /-- the pages of the swap file, by byte offset -/
  swapfile : ℕ → Option SimPage
  hitCount : ℕ
  missCount : ℕ
  refCount : ℕ
  evictCleanCount : ℕ
  evictDirtyCount : ℕ
  /-- number of failed self-checks reported on `stderr` -/
  checkFailures : ℕ
  alg : σ

structure Functions (σ : Type) where
  init : Sim σ → Sim σ
  ref : Sim σ → PtePtr → Except Halt (Sim σ)
  evict : Sim σ → Except Halt (ℕ × Sim σ)

/-- An entry as `init_second_level` sets it. -/
def freshEntry : PgtblEntry := ⟨0#32, invalidSwap⟩

variable {σ : Type}

namespace Sim

def table (s : Sim σ) (idx : ℕ) : ℕ → PgtblEntry := (s.pgdir idx).getD fun _ => freshEntry

def pte (s : Sim σ) (p : PtePtr) : PgtblEntry := s.table p.idx p.entry

def setPte (s : Sim σ) (p : PtePtr) (e : PgtblEntry) : Sim σ :=
  { s with
    pgdir := Function.update s.pgdir p.idx
      (some (Function.update (s.table p.idx) p.entry e)) }

def setPteFrame (s : Sim σ) (p : PtePtr) (word : BitVec 32) : Sim σ :=
  s.setPte p { s.pte p with frame := word }

def setPteSwapOff (s : Sim σ) (p : PtePtr) (off : ℤ) : Sim σ :=
  s.setPte p { s.pte p with swapOff := off }

def setFrame (s : Sim σ) (i : ℕ) (f : Frame) : Sim σ :=
  { s with coremap := Function.update s.coremap i f }

def setPage (s : Sim σ) (i : ℕ) (page : SimPage) : Sim σ :=
  { s with physmem := Function.update s.physmem i page }

end Sim

/-! ## swap.c -/

def intOfUnsigned (n : ℕ) : ℤ := (BitVec.ofNat 32 n).toInt

/-- Copies the page at `swapOffset` of the swap file into a frame.  `lseek`
refuses a negative offset, and reading at an offset that was never written
yields no bytes; in both cases the frame is left alone. -/
def swapPagein (s : Sim σ) (frame : ℕ) (swapOffset : ℤ) : Except Halt (ℤ × Sim σ) :=
  if swapOffset = invalidSwap then .error .assertion
  else if swapOffset < 0 then .ok (-22, s)
  else if frame < s.memsize then
    match s.swapfile swapOffset.toNat with
    | some page => .ok (0, s.setPage frame page)
    | none => .ok (0, s)
  else .error .wild

/-- The offset that a page is written to, allocated now if it has none. -/
def swapSlot (s : Sim σ) (swapOffset : ℤ) : Except Halt (Option (ℤ × Sim σ)) :=
  if swapOffset = invalidSwap then
    match bitmapAlloc s.swapmap with
    | .error e => .error e
    | .ok none => .ok none
    | .ok (some (idx, swapmap)) =>
        .ok (some (intOfUnsigned (idx * simpagesize), { s with swapmap := swapmap }))
  else .ok (some (swapOffset, s))

def swapPageout (s : Sim σ) (frame : ℕ) (swapOffset : ℤ) : Except Halt (ℤ × Sim σ) := do
  match ← swapSlot s swapOffset with
  | none => .ok (invalidSwap, s)
  | some (swapOffset, s) =>
      if swapOffset = invalidSwap then .error .assertion
      else if swapOffset < 0 then .ok (invalidSwap, s)
      else if frame < s.memsize then
        .ok (swapOffset, { s with
          swapfile := Function.update s.swapfile swapOffset.toNat (some (s.physmem frame)) })
      else .error .wild

/-! ## pagetable.c -/

/-- The part of `allocate_frame` that puts the victim page out of `frame`. -/
def evictVictim (s : Sim σ) (frame : ℕ) : Except Halt (Sim σ) :=
  if frame < s.memsize then
    match (s.coremap frame).pte with
    | none => .error .wild
    | some victim =>
        if hasFlag (s.pte victim).frame pgOnswap ∧ ¬ hasFlag (s.pte victim).frame pgDirty then
          let s := { s with evictCleanCount := s.evictCleanCount + 1 }
          .ok (s.setPteFrame victim (clearFlag (s.pte victim).frame pgValid))
        else do
          let s := if hasFlag (s.pte victim).frame pgDirty then
              s.setPteFrame victim (clearFlag (s.pte victim).frame pgDirty)
            else s
          let (success, s) ← swapPageout s frame (s.pte victim).swapOff
          let s := { s with evictDirtyCount := s.evictDirtyCount + 1 }
          if success = invalidSwap then .error .exit
          else
            let s := s.setPteSwapOff victim success
            .ok (s.setPteFrame victim (clearFlag (s.pte victim).frame pgValid))
  else .error .wild

/-- Records that the page of entry `p` now lives in `frame`. -/
def occupy (s : Sim σ) (frame : ℕ) (p : PtePtr) : Sim σ :=
  s.setFrame frame { s.coremap frame with inUse := true, pte := some p }

def freeFrame (s : Sim σ) : Option ℕ :=
  (List.range s.memsize).find? fun i => !(s.coremap i).inUse

def allocateFrame (F : Functions σ) (s : Sim σ) (p : PtePtr) : Except Halt (ℕ × Sim σ) :=
  match freeFrame s with
  | some frame => .ok (frame, occupy s frame p)
  | none => do
      let (frame, s) ← F.evict s
      let s ← evictVictim s frame
      .ok (frame, occupy s frame p)

def initSecondLevel (s : Sim σ) (idx : ℕ) : Sim σ :=
  { s with pgdir := Function.update s.pgdir idx (some fun _ => freshEntry) }

/-- `memset` of the frame, followed by the store of the address word. -/
def initFrame (s : Sim σ) (frame vaddr : ℕ) : Sim σ :=
  s.setPage frame ⟨0#32, vaddr, 0#32⟩

/-- The walk of `find_physpage` through the page directory: a missing
second-level table is created. -/
def walkPgdir (s : Sim σ) (vaddr : ℕ) : Except Halt (Sim σ) :=
  if pgdirIndex vaddr < ptrsPerPgdir then
    match s.pgdir (pgdirIndex vaddr) with
    | none => .ok (initSecondLevel s (pgdirIndex vaddr))
    | some _ => .ok s
  else .error .wild

/-- The branch of `find_physpage` for an entry that is invalid and not on swap. -/
def firstTouch (F : Functions σ) (s : Sim σ) (p : PtePtr) (vaddr : ℕ) : Except Halt (Sim σ) := do
  let (frameNumber, s) ← allocateFrame F s p
  let s := initFrame s frameNumber vaddr
  let s := s.setPteFrame p (pack 32 pageShift frameNumber)
  let s := s.setPteFrame p (setFlag (s.pte p).frame pgDirty)
  .ok { s with missCount := s.missCount + 1, refCount := s.refCount + 1 }

/-- The branch of `find_physpage` for an entry that is invalid and on swap.
The page is read into the frame named by the old contents of the entry. -/
def swapIn (F : Functions σ) (s : Sim σ) (p : PtePtr) : Except Halt (Sim σ) := do
  let (frameNumber, s) ← allocateFrame F s p
  let (success, s) ← swapPagein s (number pageShift (s.pte p).frame) (s.pte p).swapOff
  if success = -1 then .error .exit
  else
    let s := s.setPteSwapOff p success
    let s := s.setPteFrame p (pack 32 pageShift frameNumber)
    let s := s.setPteFrame p (setFlag (s.pte p).frame pgOnswap)
    .ok { s with missCount := s.missCount + 1, refCount := s.refCount + 1 }

def isWrite (type : Char) : Bool := type == 'S' || type == 'M'

def markAccessed (s : Sim σ) (p : PtePtr) (type : Char) : Sim σ :=
  let s := s.setPteFrame p (setFlag (s.pte p).frame pgValid)
  let s := s.setPteFrame p (setFlag (s.pte p).frame pgRef)
  if isWrite type then s.setPteFrame p (setFlag (s.pte p).frame pgDirty) else s

/-- `find_physpage` up to the call of `ref_fcn`. -/
def translate (F : Functions σ) (s : Sim σ) (vaddr : ℕ) (type : Char) : Except Halt (Sim σ) := do
  let s ← walkPgdir s vaddr
  let p := ptePtr vaddr
  let s ←
    if ¬ hasFlag (s.pte p).frame pgValid ∧ ¬ hasFlag (s.pte p).frame pgOnswap then
      firstTouch F s p vaddr
    else if ¬ hasFlag (s.pte p).frame pgValid ∧ hasFlag (s.pte p).frame pgOnswap then
      swapIn F s p
    else .ok { s with hitCount := s.hitCount + 1, refCount := s.refCount + 1 }
  .ok (markAccessed s p type)

/-- Returns the number of the frame whose first byte `find_physpage` points at. -/
def findPhyspage (F : Functions σ) (s : Sim σ) (vaddr : ℕ) (type : Char) :
    Except Halt (ℕ × Sim σ) := do
  let s ← translate F s vaddr type
  let s ← F.ref s (ptePtr vaddr)
  .ok (number pageShift (s.pte (ptePtr vaddr)).frame, s)

/-! ## sim.c -/

structure Access where
  type : Char
  vaddr : ℕ
  deriving DecidableEq, Repr

/-- What `access_mem` does with the frame that `find_physpage` returned. -/
def useFrame (s : Sim σ) (frame : ℕ) (a : Access) : Except Halt (Sim σ) :=
  if frame < s.memsize then
    let page := s.physmem frame
    let s := if page.vaddr ≠ a.vaddr then { s with checkFailures := s.checkFailures + 1 } else s
    if isWrite a.type then .ok (s.setPage frame { page with version := page.version + 1 })
    else .ok s
  else .error .wild

def accessMem (F : Functions σ) (s : Sim σ) (a : Access) : Except Halt (Sim σ) := do
  let (frame, s) ← findPhyspage F s a.vaddr a.type
  useFrame s frame a

def replay (F : Functions σ) (s : Sim σ) (trace : List Access) : Except Halt (Sim σ) :=
  trace.foldlM (accessMem F) s

/-- The state in which `main` calls `init_fcn`.  `malloc` leaves the contents
of `physmem` unspecified, `calloc` clears `coremap`. -/
def bootSim (memsize : ℕ) (garbage : ℕ → SimPage) (swapmap : Bitmap) (alg : σ) : Sim σ where
  memsize := memsize
  coremap := fun _ => ⟨false, none, none, none⟩
  physmem := garbage
  pgdir := fun _ => none
  swapmap := swapmap
  swapfile := fun _ => none
  hitCount := 0
  missCount := 0
  refCount := 0
  evictCleanCount := 0
  evictDirtyCount := 0
  checkFailures := 0
  alg := alg

/-- `main` up to the call of `replay_trace`. -/
def startSim (F : Functions σ) (memsize swapsize : ℕ) (garbage : ℕ → SimPage) (alg : σ) :
    Except Halt (Sim σ) := do
  let swapmap ← bitmapCreate swapsize
  .ok (F.init (bootSim memsize garbage swapmap alg))

def simulate (F : Functions σ) (memsize swapsize : ℕ) (garbage : ℕ → SimPage) (alg : σ)
    (trace : List Access) : Except Halt (Sim σ) := do
  let s ← startSim F memsize swapsize garbage alg
  replay F s trace

end KernelProgramming.Paging
