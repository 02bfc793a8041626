import KernelProgramming.Ext2.BlockEstimate
import KernelProgramming.Ext2.Consistency

/-!
# The blocks that the copy loops take

Each call of `find_free_block` in the copy loops, with the image on which it is
made.  After the check of `have_enough_blocks` none of them fails.
-/

namespace KernelProgramming.Ext2

open ByteMemory BlockMap

/-! ## The calls of find_free_block -/

def writeDirectCalls (inode : ℕ) : ℕ → ℕ → Copying → List Disk
  | 0, _, _ => []
  | n + 1, blockIndex, s =>
      if s.buffer = [] then []
      else s.disk ::
        match newSlot s.disk inode blockIndex >>= fun r => copyDataToBlock s r.2 r.1 with
        | .ok s => writeDirectCalls inode n (blockIndex + 1) s.fread
        | .error _ => []

def fillPtrBlockCalls (inode ptrBlock : ℕ) : ℕ → ℕ → Copying → List Disk
  | 0, _, _ => []
  | n + 1, offset, s =>
      if s.buffer = [] then []
      else s.disk ::
        match newPointer s.disk inode (ptrBlock + 4 * offset) >>= fun r =>
            copyDataToBlock s r.2 r.1 with
        | .ok s => fillPtrBlockCalls inode ptrBlock n (offset + 1) s.fread
        | .error _ => []

/-- The calls of a loop that takes a pointer block at every turn and fills it. -/
def fillRowsCalls (inode block : ℕ) (fill : ℕ → Copying → Except Fault Copying)
    (calls : ℕ → Copying → List Disk) : ℕ → ℕ → Copying → List Disk
  | 0, _, _ => []
  | n + 1, offset, s =>
      if s.buffer = [] then []
      else s.disk ::
        match newPointer s.disk inode (block + 4 * offset) with
        | .ok (blockNum, d) =>
            match blockPtr d blockNum with
            | .ok row =>
                calls row { s with disk := d } ++
                  match fill row { s with disk := d } with
                  | .ok s => fillRowsCalls inode block fill calls n (offset + 1) s.fread
                  | .error _ => []
            | .error _ => []
        | .error _ => []

def fillPtrPtrBlockCalls (inode ptrPtrBlock n offset : ℕ) (s : Copying) : List Disk :=
  fillRowsCalls inode ptrPtrBlock
    (fun ptrBlock => fillPtrBlock inode ptrBlock numOfPtrsInBlock 0)
    (fun ptrBlock => fillPtrBlockCalls inode ptrBlock numOfPtrsInBlock 0) n offset s

def fillPtrPtrPtrBlockCalls (inode ptrPtrPtrBlock n offset : ℕ) (s : Copying) : List Disk :=
  fillRowsCalls inode ptrPtrPtrBlock
    (fun ptrPtrBlock => fillPtrPtrBlock inode ptrPtrBlock numOfPtrsInBlock 0)
    (fun ptrPtrBlock => fillPtrPtrBlockCalls inode ptrPtrBlock numOfPtrsInBlock 0) n offset s

def writeLevelCalls (inode i : ℕ) (calls : ℕ → Copying → List Disk) (s : Copying) : List Disk :=
  if s.buffer = [] then []
  else s.disk ::
    match newSlot s.disk inode i with
    | .ok (blockNum, d) =>
        match blockPtr d blockNum with
        | .ok block => calls block { s with disk := d }
        | .error _ => []
    | .error _ => []

/-- The images on which the copy loops call `find_free_block`, in order. -/
def copyFileCalls (d : Disk) (inode : ℕ) (content : List Byte) : List Disk :=
  let s : Copying := Copying.fread ⟨d, [], content⟩
  writeDirectCalls inode directBlockCount 0 s ++
    match writeDirect inode directBlockCount 0 s with
    | .error _ => []
    | .ok s =>
        writeLevelCalls inode indirectBlock
            (fun ptrBlock => fillPtrBlockCalls inode ptrBlock numOfPtrsInBlock 0) s ++
          match writeLevel inode indirectBlock
              (fun ptrBlock => fillPtrBlock inode ptrBlock numOfPtrsInBlock 0) s with
          | .error _ => []
          | .ok s =>
              writeLevelCalls inode dbleIndirectBlock
                  (fun ptrPtrBlock => fillPtrPtrBlockCalls inode ptrPtrBlock numOfPtrsInBlock 0) s ++
                match writeLevel inode dbleIndirectBlock
                    (fun ptrPtrBlock => fillPtrPtrBlock inode ptrPtrBlock numOfPtrsInBlock 0) s with
                | .error _ => []
                | .ok s =>
                    writeLevelCalls inode tpleIndirectBlock (fun ptrPtrPtrBlock =>
                      fillPtrPtrPtrBlockCalls inode ptrPtrPtrBlock numOfPtrsInBlock 0) s

/-! ## What is still to be written -/

/-- The number of blocks of the file that are read ahead or still to be read. -/
def Copying.left (s : Copying) : ℕ := if s.buffer = [] then 0 else 1 + fill s.rest.length 1024

/-- The image shows `v`, and the rest of the file is read block by block. -/
structure Ready (L : Layout) (v : View) (s : Copying) : Prop where
  shows : L.Shows s.disk v
  plain : ∀ b ∈ v.clear L .block, L.IsPlain b
  buffer_le : s.buffer.length ≤ 1024
  rest_eq : s.buffer = [] → s.rest = []

/-- The calls have taken the first `n` of the free blocks, and have left block 0 alone. -/
structure Took (L : Layout) (v v' : View) (calls : List Disk) (n : ℕ) : Prop where
  clear_eq : v'.clear L .block = (v.clear L .block).drop n
  boot : ∀ a < 1024, v'.byte a = v.byte a
  calls_eq : calls.map findFreeBlock = (v.clear L .block).take n
  found : ∀ c ∈ calls, findFreeBlock c ≠ 0 ∧
    bitSet c .block (findFreeBlock c - 1) = false ∧ ∀ a < 1024, c.byte a = v.byte a

/-- The volume after block `b` has been taken for inode `k` and stored as a pointer at `a`. -/
def View.point (v : View) (k b a : ℕ) : View :=
  { (v.mark .block b).setInode k { v.inode k with
      blocks := (((v.mark .block b).inode k).blocks + 1) % 2 ^ 32 } with
    byte := putBytes v.byte a (bytes32 b) }

section Taking

variable {L : Layout} {v v' v'' : View} {s : Copying} {d : Disk} {calls calls' : List Disk}
  {n n' k b : ℕ} {bs : List ℕ}

theorem took_none (L : Layout) (v : View) : Took L v v [] 0 :=
  ⟨rfl, fun _ _ => rfl, rfl, fun _ h => absurd h List.not_mem_nil⟩

theorem Took.trans (h : Took L v v' calls n) (h' : Took L v' v'' calls' n') :
    Took L v v'' (calls ++ calls') (n + n') := by
  constructor
  · rw [h'.clear_eq, h.clear_eq, List.drop_drop]
  · exact fun a ha => (h'.boot a ha).trans (h.boot a ha)
  · rw [List.map_append, h.calls_eq, h'.calls_eq, h.clear_eq, List.take_add]
  · intro c hc
    rcases List.mem_append.mp hc with hc | hc
    · exact h.found c hc
    · obtain ⟨hne, hclear, hboot⟩ := h'.found c hc
      exact ⟨hne, hclear, fun a ha => (hboot a ha).trans (h.boot a ha)⟩

theorem Took.plain (h : Took L v v' calls n) (hplain : ∀ b ∈ v.clear L .block, L.IsPlain b) :
    ∀ b ∈ v'.clear L .block, L.IsPlain b := by
  rw [h.clear_eq]
  exact fun b hb => hplain b (List.mem_of_mem_drop hb)

theorem byte_boot (h : L.Shows d v) {a : ℕ} (ha : a < 1024) : d.byte a = v.byte a := by
  have hzero : a / 1024 = 0 := Nat.div_eq_of_lt ha
  have h₁ := L.blockBitmap_ge
  have h₂ := L.inodeBitmap_ge
  have h₃ := L.inodeTable_ge
  have h₄ := L.blockBitmap_lt
  apply h.byte_eq
  rw [hzero]
  exact ⟨by omega, by decide, by decide, by omega, by omega, by omega⟩

/-- A call on an image with a free block. -/
theorem took_one (h : L.Shows d v) (hclear : v.clear L .block = b :: bs)
    (hbit : v'.bit .block = (v.mark .block b).bit .block)
    (hboot : ∀ a < 1024, v'.byte a = v.byte a) :
    findFreeBlock d = b ∧ Took L v v' [d] 1 := by
  have hfind : findFreeBlock d = b := by
    rw [h.findFreeBlock_eq, hclear]
    rfl
  have hmem : b ∈ v.clear L .block := hclear ▸ List.mem_cons_self
  obtain ⟨hne, hle, hbitb⟩ := View.mem_clear.mp hmem
  have hcount := L.count_le .block
  refine ⟨hfind, ?_, hboot, ?_, fun c hc => ?_⟩
  · rw [View.clear_congr hbit, View.clear_mark_head hclear, hclear]
    rfl
  · rw [hclear, List.map_singleton, hfind]
    rfl
  · obtain rfl := List.mem_singleton.mp hc
    rw [hfind, h.bitSet_eq .block (by omega)]
    exact ⟨hne, hbitb, fun a ha => byte_boot h ha⟩

/-! ## One block -/

theorem newSlot_takes (h : Ready L v s) (hk : L.IsInode k) {i : ℕ} (hi : i < totalBlockCount)
    (hclear : v.clear L .block = b :: bs) :
    ∃ d', newSlot s.disk (L.inodeAddress k) i = .ok (b, d') ∧ L.IsPlain b ∧ b ≠ 0 ∧
      Ready L (v.attach k i b) { s with disk := d' } ∧ Took L v (v.attach k i b) [s.disk] 1 := by
  have hmem : b ∈ v.clear L .block := hclear ▸ List.mem_cons_self
  have htaken : (v.attach k i b).bit .block = (v.mark .block b).bit .block := rfl
  obtain ⟨hfind, htook⟩ := took_one h.shows hclear htaken fun _ _ => rfl
  obtain ⟨d₁, hmark, -, hshows⟩ := h.shows.attach hk hi hmem
  refine ⟨_, ?_, h.plain b hmem, (View.mem_clear.mp hmem).1,
    ⟨hshows, htook.plain h.plain, h.buffer_le, h.rest_eq⟩, htook⟩
  rw [newSlot, hfind, hmark]
  rfl

/-- The number of the block goes to pointer number `offset` of the block `ptrs`. -/
theorem newPointer_takes (h : Ready L v s) (hk : L.IsInode k) {ptrs offset : ℕ}
    (hptrs : L.IsPlain ptrs) (hpos : ptrs ≠ 0) (hoffset : offset < 256)
    (hclear : v.clear L .block = b :: bs) :
    ∃ d', newPointer s.disk (L.inodeAddress k) (1024 * ptrs + 4 * offset) = .ok (b, d') ∧
      L.IsPlain b ∧ b ≠ 0 ∧ Ready L (v.point k b (1024 * ptrs + 4 * offset)) { s with disk := d' } ∧
      Took L v (v.point k b (1024 * ptrs + 4 * offset)) [s.disk] 1 := by
  have hmem : b ∈ v.clear L .block := hclear ▸ List.mem_cons_self
  obtain ⟨hne, hle, -⟩ := View.mem_clear.mp hmem
  have hcount := L.count_le .block
  have htaken : (v.point k b (1024 * ptrs + 4 * offset)).bit .block =
      (v.mark .block b).bit .block := rfl
  obtain ⟨hfind, htook⟩ := took_one h.shows hclear htaken fun a ha =>
    putBytes_of_disjoint (Or.inl (by omega)) v.byte
  obtain ⟨d₁, hmark, h₁⟩ := h.shows.updateBitmap_true .block hne (by omega)
  have h₂ := h₁.setBlocks hk (d₁.u32 (iBlocks (L.inodeAddress k)) + 1)
  have h₃ := h₂.copy (a := 1024 * ptrs + 4 * offset) (s := bytes32 b) fun x hx => by
    unfold Within at hx
    rw [length_bytes32] at hx
    rw [show x / 1024 = ptrs by omega]
    exact hptrs
  rw [h₁.iBlocks_eq hk] at h₂ h₃
  refine ⟨_, ?_, h.plain b hmem, hne, ⟨h₃, htook.plain h.plain, h.buffer_le, h.rest_eq⟩, htook⟩
  rw [newPointer, hfind, hmark, ← h₁.iBlocks_eq hk]
  rfl

theorem left_fread (s : Copying) : s.fread.left = fill s.rest.length 1024 := by
  rcases eq_or_ne s.rest [] with hrest | hrest
  · rw [Copying.left, Copying.fread, hrest, List.take_nil, if_pos rfl]
    rfl
  · have hpos := List.length_pos_of_ne_nil hrest
    have htake : s.rest.take 1024 ≠ [] := by simpa using hrest
    rw [Copying.left, Copying.fread, if_neg htake, List.length_drop]
    simp only [fill]
    omega

theorem ready_fread (h : L.Shows s.disk v) (hplain : ∀ b ∈ v.clear L .block, L.IsPlain b) :
    Ready L v s.fread := by
  refine ⟨h, hplain, ?_, fun hnil => ?_⟩
  · rw [Copying.fread, List.length_take]
    exact Nat.min_le_left ..
  · have hrest : s.rest = [] := (List.take_eq_nil_iff.mp hnil).resolve_left (by decide)
    rw [Copying.fread, hrest, List.drop_nil]

theorem Ready.fread (h : Ready L v s) : Ready L v s.fread ∧ s.fread.left = s.left - 1 := by
  refine ⟨ready_fread h.shows h.plain, ?_⟩
  rw [left_fread, Copying.left]
  split_ifs with hbuffer
  · rw [h.rest_eq hbuffer]
    rfl
  · omega

/-- The block read ahead is written to `b`, and the next one is read. -/
theorem copyDataToBlock_ready (h : Ready L v s) (hb : L.IsPlain b) (hpos : b ≠ 0) :
    ∃ s' v', (∀ t : Copying, t.buffer = s.buffer → t.rest = s.rest →
        copyDataToBlock t s.disk b = .ok s') ∧
      Ready L v' s'.fread ∧ s'.fread.left = s.left - 1 ∧ Took L v v' [] 0 := by
  have hptr : blockPtr s.disk b = .ok (1024 * b) := h.shows.blockPtr_eq hb.lt
  have hcopy := h.shows.copy (a := 1024 * b) (s := s.buffer) fun x hx => by
    have hle := h.buffer_le
    unfold Within at hx
    rw [show x / 1024 = b by omega]
    exact hb
  have hready : Ready L { v with byte := putBytes v.byte (1024 * b) s.buffer }
      { s with disk := s.disk.copy (1024 * b) s.buffer } :=
    ⟨hcopy, h.plain, h.buffer_le, h.rest_eq⟩
  obtain ⟨hfread, hleft⟩ := hready.fread
  refine ⟨_, _, fun t hbuffer hrest => ?_, hfread, hleft, ?_⟩
  · rw [copyDataToBlock, hptr, hbuffer, hrest]
    rfl
  · exact ⟨rfl, fun a ha => putBytes_of_disjoint (Or.inl (by omega)) v.byte, rfl,
      fun _ hc => absurd hc List.not_mem_nil⟩

/-! ## The loops -/

/-- The loop with outcome `x` takes `cost` blocks and leaves `rest` blocks of the file. -/
def Fills (L : Layout) (v : View) (x : Except Fault Copying) (calls : List Disk)
    (cost rest : ℕ) : Prop :=
  ∃ s' v', x = .ok s' ∧ Ready L v' s' ∧ s'.left = rest ∧ Took L v v' calls cost

theorem left_eq_zero (h : s.buffer = []) : s.left = 0 := if_pos h

theorem left_ne_zero (h : s.buffer ≠ []) : s.left ≠ 0 := by
  rw [Copying.left, if_neg h]
  omega

theorem fills_nothing (h : Ready L v s) : Fills L v (.ok s) [] 0 s.left :=
  ⟨s, v, rfl, h, rfl, took_none L v⟩

theorem Fills.after {x : Except Fault Copying} {cost rest : ℕ} (htook : Took L v v' calls n)
    (h : Fills L v' x calls' cost rest) : Fills L v x (calls ++ calls') (n + cost) rest := by
  obtain ⟨s', v'', hx, hready, hleft, htook'⟩ := h
  exact ⟨s', v'', hx, hready, hleft, htook.trans htook'⟩

theorem exists_clear (hroom : 1 ≤ (v.clear L .block).length) :
    ∃ b bs, v.clear L .block = b :: bs := by
  cases hclear : v.clear L .block with
  | nil => simp [hclear] at hroom
  | cons b bs => exact ⟨b, bs, rfl⟩

theorem Took.room (h : Took L v v' calls n) :
    (v'.clear L .block).length = (v.clear L .block).length - n := by
  rw [h.clear_eq, List.length_drop]

theorem fills_done (h : Ready L v s) (hbuffer : s.buffer = []) : Fills L v (.ok s) [] 0 0 :=
  left_eq_zero hbuffer ▸ fills_nothing h

/-- One turn of a loop that writes blocks of the file: a block is taken and written, and the
loop goes on with the next one. -/
theorem fills_turn {next : Copying → Except Fault Copying} {calls : Copying → List Disk}
    {x : Except Fault (ℕ × Disk)} {cost rest : ℕ} (hx : x = .ok (b, d)) (hb : L.IsPlain b)
    (hpos : b ≠ 0) (hready : Ready L v' { s with disk := d }) (htook : Took L v v' [s.disk] 1)
    (hnext : ∀ s' v'', Ready L v'' s' → s'.left = s.left - 1 →
      (v''.clear L .block).length = (v.clear L .block).length - 1 →
      Fills L v'' (next s') (calls s') cost rest) :
    Fills L v (x >>= fun r => copyDataToBlock s r.2 r.1 >>= fun s => next s.fread)
      (s.disk ::
        match x >>= fun r => copyDataToBlock s r.2 r.1 with
        | .ok s => calls s.fread
        | .error _ => [])
      (1 + cost) rest := by
  obtain ⟨s', v'', hcopy, hready', hleft, htook'⟩ := copyDataToBlock_ready hready hb hpos
  have hcopy' : copyDataToBlock s d b = .ok s' := hcopy s rfl rfl
  have hstep := htook.trans htook'
  have hfills := hnext s'.fread v'' hready' hleft hstep.room
  rw [hx]
  simp only [bind, Except.bind, hcopy']
  exact Fills.after hstep hfills

theorem writeDirect_fills (hk : L.IsInode k) (n : ℕ) : ∀ {v : View} {s : Copying} {i : ℕ},
    Ready L v s → i + n ≤ totalBlockCount → min n s.left ≤ (v.clear L .block).length →
    Fills L v (writeDirect (L.inodeAddress k) n i s)
      (writeDirectCalls (L.inodeAddress k) n i s) (min n s.left) (s.left - n) := by
  induction n with
  | zero =>
      intro v s i h _ _
      rw [Nat.zero_min]
      exact fills_nothing h
  | succ n ih =>
      intro v s i h hi hroom
      rw [writeDirect, writeDirectCalls]
      by_cases hbuffer : s.buffer = []
      · rw [if_pos hbuffer, if_pos hbuffer, left_eq_zero hbuffer, Nat.min_zero, Nat.zero_sub]
        exact fills_done h hbuffer
      · have hleft := left_ne_zero hbuffer
        obtain ⟨b, bs, hclear⟩ := exists_clear (by omega : 1 ≤ (v.clear L .block).length)
        obtain ⟨d, hnew, hb, hpos, hready, htook⟩ :=
          newSlot_takes h hk (i := i) (by omega) hclear
        rw [if_neg hbuffer, if_neg hbuffer,
          show min (n + 1) s.left = 1 + min n (s.left - 1) by omega,
          show s.left - (n + 1) = s.left - 1 - n by omega]
        apply fills_turn hnew hb hpos hready htook
        intro s' v' hready' hleft' hroom'
        rw [← hleft']
        exact ih hready' (by omega) (by omega)

theorem fillPtrBlock_fills (hk : L.IsInode k) {ptrs : ℕ} (hptrs : L.IsPlain ptrs)
    (hpos : ptrs ≠ 0) (n : ℕ) : ∀ {v : View} {s : Copying} {offset : ℕ},
    Ready L v s → offset + n ≤ 256 → min n s.left ≤ (v.clear L .block).length →
    Fills L v (fillPtrBlock (L.inodeAddress k) (1024 * ptrs) n offset s)
      (fillPtrBlockCalls (L.inodeAddress k) (1024 * ptrs) n offset s)
      (min n s.left) (s.left - n) := by
  induction n with
  | zero =>
      intro v s offset h _ _
      rw [Nat.zero_min]
      exact fills_nothing h
  | succ n ih =>
      intro v s offset h hoffset hroom
      rw [fillPtrBlock, fillPtrBlockCalls]
      by_cases hbuffer : s.buffer = []
      · rw [if_pos hbuffer, if_pos hbuffer, left_eq_zero hbuffer, Nat.min_zero, Nat.zero_sub]
        exact fills_done h hbuffer
      · have hleft := left_ne_zero hbuffer
        obtain ⟨b, bs, hclear⟩ := exists_clear (by omega : 1 ≤ (v.clear L .block).length)
        have hlt : offset < 256 := by omega
        obtain ⟨d, hnew, hb, hpos', hready, htook⟩ :=
          newPointer_takes h hk hptrs hpos hlt hclear
        rw [if_neg hbuffer, if_neg hbuffer,
          show min (n + 1) s.left = 1 + min n (s.left - 1) by omega,
          show s.left - (n + 1) = s.left - 1 - n by omega]
        apply fills_turn hnew hb hpos' hready htook
        intro s' v' hready' hleft' hroom'
        rw [← hleft']
        exact ih hready' (by omega) (by omega)

/-- The blocks that `n` pointer blocks take for `r` blocks of the file, with what they point
at, and the blocks of the file that are left.  One block is lost after each pointer block. -/
def ptrRows : ℕ → ℕ → ℕ × ℕ
  | 0, r => (0, r)
  | n + 1, r =>
      if r = 0 then (0, 0)
      else (1 + (min 256 r + (ptrRows n (r - 256 - 1)).1), (ptrRows n (r - 256 - 1)).2)

theorem ptrRows_zero (n : ℕ) : ptrRows n 0 = (0, 0) := by
  cases n with
  | zero => rfl
  | succ n => rfl

theorem ptrRows_bounds (n r : ℕ) : (ptrRows n r).1 ≤ r + 1 ∧
    (r ≤ 257 * n → (ptrRows n r).2 = 0) := by
  induction n generalizing r with
  | zero => exact ⟨Nat.zero_le _, fun h => Nat.le_zero.mp h⟩
  | succ n ih =>
      rw [ptrRows]
      split_ifs with hr
      · exact ⟨Nat.zero_le _, fun _ => rfl⟩
      · obtain ⟨hcost, hleft⟩ := ih (r - 256 - 1)
        refine ⟨?_, fun hle => hleft (by omega)⟩
        rcases Nat.lt_or_ge 257 r with hlt | hge
        · change 1 + (min 256 r + (ptrRows n (r - 256 - 1)).1) ≤ r + 1
          omega
        · rw [show r - 256 - 1 = 0 by omega, ptrRows_zero]
          change 1 + (min 256 r + 0) ≤ r + 1
          omega

/-- A pointer block is taken and filled, and the loop goes on behind it. -/
theorem fills_row {fill : ℕ → Copying → Except Fault Copying} {calls : ℕ → Copying → List Disk}
    {next : Copying → Except Fault Copying} {nextCalls : Copying → List Disk}
    {x : Except Fault (ℕ × Disk)} {cost cost' rest rest' : ℕ} (hx : x = .ok (b, d))
    (hb : L.IsPlain b) (hready : Ready L v' { s with disk := d }) (htook : Took L v v' [s.disk] 1)
    (hfill : Fills L v' (fill (1024 * b) { s with disk := d })
      (calls (1024 * b) { s with disk := d }) cost rest)
    (hnext : ∀ s' v'', Ready L v'' s' → s'.left = rest →
      (v''.clear L .block).length = (v.clear L .block).length - (1 + cost) →
      Fills L v'' (next s') (nextCalls s') cost' rest') :
    Fills L v
      (x >>= fun r => blockPtr r.2 r.1 >>= fun row => fill row { s with disk := r.2 } >>= next)
      (s.disk ::
        match x with
        | .ok (blockNum, d) =>
            match blockPtr d blockNum with
            | .ok row =>
                calls row { s with disk := d } ++
                  match fill row { s with disk := d } with
                  | .ok s => nextCalls s
                  | .error _ => []
            | .error _ => []
        | .error _ => [])
      (1 + (cost + cost')) rest' := by
  have hptr : blockPtr d b = .ok (1024 * b) := hready.shows.blockPtr_eq hb.lt
  obtain ⟨s', v'', hrow, hready', hleft, htook'⟩ := hfill
  have hfills := hnext s' v'' hready' hleft (htook.trans htook').room
  rw [hx]
  simp only [bind, Except.bind, hptr, hrow]
  exact Fills.after htook (Fills.after htook' hfills)

theorem fillPtrPtrBlock_fills (hk : L.IsInode k) {ptrs : ℕ} (hptrs : L.IsPlain ptrs)
    (hpos : ptrs ≠ 0) (n : ℕ) : ∀ {v : View} {s : Copying} {offset : ℕ},
    Ready L v s → offset + n ≤ 256 → (ptrRows n s.left).1 ≤ (v.clear L .block).length →
    Fills L v (fillPtrPtrBlock (L.inodeAddress k) (1024 * ptrs) n offset s)
      (fillPtrPtrBlockCalls (L.inodeAddress k) (1024 * ptrs) n offset s)
      (ptrRows n s.left).1 (ptrRows n s.left).2 := by
  induction n with
  | zero =>
      intro v s offset h _ _
      exact fills_nothing h
  | succ n ih =>
      intro v s offset h hoffset hroom
      rw [fillPtrPtrBlock, fillPtrPtrBlockCalls, fillRowsCalls]
      by_cases hbuffer : s.buffer = []
      · rw [if_pos hbuffer, if_pos hbuffer, left_eq_zero hbuffer, ptrRows_zero]
        exact fills_done h hbuffer
      · have hleft := left_ne_zero hbuffer
        rw [ptrRows, if_neg hleft] at hroom ⊢
        simp only at hroom ⊢
        obtain ⟨b, bs, hclear⟩ := exists_clear (by omega : 1 ≤ (v.clear L .block).length)
        have hlt : offset < 256 := by omega
        obtain ⟨d, hnew, hb, hpos', hready, htook⟩ :=
          newPointer_takes h hk hptrs hpos hlt hclear
        have hlength := htook.room
        have hfirst : 0 + 256 ≤ 256 := le_rfl
        have hrow := fillPtrBlock_fills hk hb hpos' 256 hready hfirst (by
          change min 256 s.left ≤ _
          omega)
        rw [if_neg hbuffer, if_neg hbuffer]
        apply fills_row hnew hb hready htook hrow
        intro s' v' hready' hleft' hroom'
        have hcost : ({ s with disk := d } : Copying).left = s.left := rfl
        obtain ⟨hfread, hread⟩ := hready'.fread
        have hread' : s'.fread.left = s.left - 256 - 1 := by omega
        rw [← hread']
        exact ih hfread (by omega) (by rw [hread']; omega)

/-- A level of the block map, whose own block comes first. -/
theorem writeLevel_fills (h : Ready L v s) (hk : L.IsInode k) {i : ℕ} (hi : i < totalBlockCount)
    {fill : ℕ → Copying → Except Fault Copying} {calls : ℕ → Copying → List Disk} {cost rest : ℕ}
    (hroom : s.left ≠ 0 → 1 + cost ≤ (v.clear L .block).length)
    (hfill : ∀ b d v', L.IsPlain b → b ≠ 0 → Ready L v' { s with disk := d } →
      cost ≤ (v'.clear L .block).length →
      Fills L v' (fill (1024 * b) { s with disk := d }) (calls (1024 * b) { s with disk := d })
        cost rest)
    (hrest : s.left = 0 → rest = 0) :
    Fills L v (writeLevel (L.inodeAddress k) i fill s)
      (writeLevelCalls (L.inodeAddress k) i calls s) (if s.left = 0 then 0 else 1 + cost) rest := by
  rw [writeLevel, writeLevelCalls]
  by_cases hbuffer : s.buffer = []
  · have hzero := left_eq_zero hbuffer
    rw [if_pos hbuffer, if_pos hbuffer, if_pos hzero, hrest hzero]
    exact fills_done h hbuffer
  · have hroom' := hroom (left_ne_zero hbuffer)
    obtain ⟨b, bs, hclear⟩ := exists_clear (by omega : 1 ≤ (v.clear L .block).length)
    obtain ⟨d, hnew, hb, hpos, hready, htook⟩ := newSlot_takes h hk hi hclear
    have hlength := htook.room
    have hptr : blockPtr d b = .ok (1024 * b) := hready.shows.blockPtr_eq hb.lt
    rw [if_neg hbuffer, if_neg hbuffer, if_neg (left_ne_zero hbuffer), hnew]
    simp only [bind, Except.bind, hptr]
    exact Fills.after htook (hfill b d _ hb hpos hready (by omega))

theorem indirect_fills (h : Ready L v s) (hk : L.IsInode k)
    (hroom : s.left ≠ 0 → 1 + min 256 s.left ≤ (v.clear L .block).length) :
    Fills L v
      (writeLevel (L.inodeAddress k) indirectBlock
        (fun ptrBlock => fillPtrBlock (L.inodeAddress k) ptrBlock numOfPtrsInBlock 0) s)
      (writeLevelCalls (L.inodeAddress k) indirectBlock
        (fun ptrBlock => fillPtrBlockCalls (L.inodeAddress k) ptrBlock numOfPtrsInBlock 0) s)
      (if s.left = 0 then 0 else 1 + min 256 s.left) (s.left - 256) := by
  apply writeLevel_fills h hk (by decide) hroom
  · exact fun b d v' hb hpos hready hroom' =>
      fillPtrBlock_fills hk hb hpos 256 hready le_rfl hroom'
  · intro hzero
    omega

theorem dbleIndirect_fills (h : Ready L v s) (hk : L.IsInode k)
    (hroom : s.left ≠ 0 → 1 + (ptrRows 256 s.left).1 ≤ (v.clear L .block).length) :
    Fills L v
      (writeLevel (L.inodeAddress k) dbleIndirectBlock
        (fun ptrPtrBlock => fillPtrPtrBlock (L.inodeAddress k) ptrPtrBlock numOfPtrsInBlock 0) s)
      (writeLevelCalls (L.inodeAddress k) dbleIndirectBlock
        (fun ptrPtrBlock =>
          fillPtrPtrBlockCalls (L.inodeAddress k) ptrPtrBlock numOfPtrsInBlock 0) s)
      (if s.left = 0 then 0 else 1 + (ptrRows 256 s.left).1) (ptrRows 256 s.left).2 := by
  apply writeLevel_fills h hk (by decide) hroom
  · exact fun b d v' hb hpos hready hroom' =>
      fillPtrPtrBlock_fills hk hb hpos 256 hready le_rfl hroom'
  · intro hzero
    rw [hzero, ptrRows_zero]

/-- The blocks that the copy loops take for `r` blocks of the file, if these are at most so
many that the triple indirect block is not needed. -/
def copyCost (r : ℕ) : ℕ :=
  min 12 r + ((if r - 12 = 0 then 0 else 1 + min 256 (r - 12)) +
    if r - 12 - 256 = 0 then 0 else 1 + (ptrRows 256 (r - 12 - 256)).1)

theorem copyFileData_takes (h : L.Shows d v) (hplain : ∀ b ∈ v.clear L .block, L.IsPlain b)
    (hk : L.IsInode k) {content : List Byte} (hsize : fill content.length 1024 ≤ 65536)
    (hroom : copyCost (fill content.length 1024) ≤ (v.clear L .block).length) :
    ∃ d' v', copyFileData d (L.inodeAddress k) content = .ok d' ∧ L.Shows d' v' ∧
      Took L v v' (copyFileCalls d (L.inodeAddress k) content)
        (copyCost (fill content.length 1024)) := by
  obtain ⟨s, hs⟩ : ∃ s, Copying.fread ⟨d, [], content⟩ = s := ⟨_, rfl⟩
  have hread : Ready L v s := hs ▸ ready_fread h hplain
  have hleft : s.left = fill content.length 1024 := hs ▸ left_fread _
  obtain ⟨r, hr⟩ : ∃ r, fill content.length 1024 = r := ⟨_, rfl⟩
  rw [hr] at hsize hroom hleft ⊢
  obtain ⟨-, hlast⟩ := ptrRows_bounds 256 (r - 12 - 256)
  have hcost : copyCost r = min 12 r + ((if r - 12 = 0 then 0 else 1 + min 256 (r - 12)) +
    if r - 12 - 256 = 0 then 0 else 1 + (ptrRows 256 (r - 12 - 256)).1) := rfl
  rw [hcost] at hroom
  -- the direct blocks
  have hfirst : 0 + 12 ≤ totalBlockCount := by decide
  obtain ⟨s₁, v₁, hdirect, hready₁, hleft₁, htook₁⟩ :=
    writeDirect_fills hk 12 hread hfirst (by
      rw [hleft]
      exact (Nat.le_add_right ..).trans hroom)
  rw [hleft] at hleft₁ htook₁
  have hroom₁ := htook₁.room
  -- the indirect block
  obtain ⟨s₂, v₂, hindirect, hready₂, hleft₂, htook₂⟩ := indirect_fills hready₁ hk fun hne => by
    rw [hleft₁] at hne ⊢
    rw [if_neg hne] at hroom
    omega
  rw [hleft₁] at hleft₂ htook₂
  have hroom₂ := htook₂.room
  -- the double indirect block
  obtain ⟨s₃, v₃, hdouble, hready₃, hleft₃, htook₃⟩ :=
    dbleIndirect_fills hready₂ hk fun hne => by
      rw [hleft₂] at hne ⊢
      rw [if_neg hne] at hroom
      omega
  rw [hleft₂] at hleft₃ htook₃
  -- nothing is left for the triple indirect block
  have hbuffer : s₃.buffer = [] := by
    by_contra hne
    exact left_ne_zero hne (hleft₃.trans (hlast (by omega)))
  have hdone : writeLevel (L.inodeAddress k) tpleIndirectBlock (fun ptrPtrPtrBlock =>
      fillPtrPtrPtrBlock (L.inodeAddress k) ptrPtrPtrBlock numOfPtrsInBlock 0) s₃ = .ok s₃ :=
    if_pos hbuffer
  have hdoneCalls : writeLevelCalls (L.inodeAddress k) tpleIndirectBlock (fun ptrPtrPtrBlock =>
      fillPtrPtrPtrBlockCalls (L.inodeAddress k) ptrPtrPtrBlock numOfPtrsInBlock 0) s₃ = [] :=
    if_pos hbuffer
  refine ⟨s₃.disk, v₃, ?_, hready₃.shows, ?_⟩
  · rw [copyFileData]
    simp only [bind, Except.bind, hs, hdirect, hindirect, hdouble, hdone, directBlockCount]
  · rw [hcost, copyFileCalls]
    simp only [hs, hdirect, hindirect, hdouble, hdoneCalls, directBlockCount, List.append_nil]
    exact htook₁.trans (htook₂.trans htook₃)

/-- A block lost is one that need not be paid for. -/
theorem copyCost_le_fileBlocks (size : ℕ) : copyCost (fill size 1024) ≤ fileBlocks size := by
  have hrows := (ptrRows_bounds 256 (fill size 1024 - 12 - 256)).1
  rw [copyCost, fileBlocks_eq]
  rw [fill] at hrows ⊢
  split_ifs <;> omega

theorem needed_ge {size needed : ℕ} (hneeded : numBlocksNeeded size = some needed) :
    fileBlocks size ≤ needed := by
  rcases Nat.lt_or_ge size (65804 * 1024) with hlt | hge
  · obtain ⟨needed', hneeded', heq⟩ := estimate_below hlt
    obtain rfl := Option.some.inj (hneeded.symm.trans hneeded')
    rw [heq]
    exact Nat.le_add_right ..
  · rcases Nat.lt_or_ge size ext2Limit with hlt | hlimit
    · obtain ⟨needed', hneeded', hgt⟩ := estimate_above hge hlt
      obtain rfl := Option.some.inj (hneeded.symm.trans hneeded')
      exact hgt.le
    · unfold ext2Limit at hlimit
      unfold numBlocksNeeded at hneeded
      rw [if_neg (by omega), if_neg (by omega), if_neg (by omega), if_neg (by omega)] at hneeded
      cases hneeded

/-- The check of `have_enough_blocks` is enough for the copy loops. -/
theorem fileBlocks_le {size : ℕ} (henough : haveEnoughBlocks d size = true) :
    fileBlocks size ≤ d.u16 bgFreeBlocksCount := by
  rw [haveEnoughBlocks] at henough
  cases hneeded : numBlocksNeeded size with
  | none => simp [hneeded] at henough
  | some needed =>
      rw [hneeded] at henough
      exact (needed_ge hneeded).trans (of_decide_eq_true henough)

/-- The count of free blocks is right, and no block of the metadata and no padding is among
them. -/
structure Allocatable (L : Layout) (d : Disk) : Prop where
  describes : L.Describes d
  counted : d.u16 bgFreeBlocksCount = ((L.view d).clear L .block).length
  plain : ∀ b ∈ (L.view d).clear L .block, L.IsPlain b

/-- The calls of `find_free_block` on the images `calls` have found blocks that were free in
the image `d`, each one once, and block 0 is as it was in all of these images. -/
structure TakesFree (d : Disk) (calls : List Disk) : Prop where
  found : ∀ c ∈ calls, findFreeBlock c ≠ 0 ∧ bitSet c .block (findFreeBlock c - 1) = false
  distinct : (calls.map findFreeBlock).Nodup
  free : ∀ b ∈ calls.map findFreeBlock, bitSet d .block (b - 1) = false
  boot : ∀ c ∈ calls, ∀ a < 1024, c.byte a = d.byte a

/-- `ext2_cp` of a file that has passed the check of `have_enough_blocks`, to a new file. -/
theorem copyTo_takesFree (h : Allocatable L d) {content : List Byte}
    (henough : haveEnoughBlocks d content.length = true) (hinode : findFreeInode d ≠ 0)
    (now : ℕ) : ∃ d₁ inode d₂ d',
      updateBitmap d .inode (findFreeInode d) true = .ok d₁ ∧
      inodePtr d₁ (findFreeInode d) = .ok inode ∧
      d₂ = initInode d₁ inode ext2SIfreg content.length now ∧
      copyFileData d₂ inode content = .ok d' ∧
      (∀ dest : Destination, dest.entry = none →
        copyTo d content now dest = linkNewFile d' dest (findFreeInode d) inode) ∧
      TakesFree d (copyFileCalls d₂ inode content) ∧ ∀ a < 1024, d'.byte a = d.byte a := by
  obtain ⟨hdescribes, hcounted, hplain⟩ := h
  obtain ⟨v, hv⟩ : ∃ v, L.view d = v := ⟨_, rfl⟩
  rw [hv] at hcounted hplain
  have h : L.Shows d v := ⟨hdescribes, hv⟩
  obtain ⟨hmem, -⟩ := h.findFreeInode_mem hinode
  obtain ⟨hne, hle, -⟩ := View.mem_clear.mp hmem
  have hk : L.IsInode (findFreeInode d) := ⟨Nat.pos_of_ne_zero hne, hle⟩
  have hbits := L.count_le .inode
  obtain ⟨d₁, hmark, h₁⟩ := h.updateBitmap_true .inode hne (by omega)
  have h₂ := h₁.initInode hk ext2SIfreg content.length now
  -- the inode takes nothing from the free blocks
  have hother : BitmapType.block ≠ BitmapType.inode := by decide
  have hclear : ∀ x, ((v.mark .inode (findFreeInode d)).setInode (findFreeInode d) x).clear L
      .block = v.clear L .block := fun x =>
    (View.clear_setInode ..).trans (View.clear_mark_of_ne hother)
  have hneeded := fileBlocks_le henough
  have hcost := copyCost_le_fileBlocks content.length
  have hfill : fill content.length 1024 ≤ fileBlocks content.length := by
    rw [fileBlocks, blocksOf]
    exact Nat.le_add_right ..
  have hcount := View.length_clear_le L v .block
  have hblocks := L.count_le .block
  have hsize : fill content.length 1024 ≤ 65536 := by omega
  obtain ⟨d', v', hcopy, h', htook⟩ := copyFileData_takes h₂
    (by rw [hclear]; exact hplain) hk hsize (by rw [hclear]; omega)
  refine ⟨d₁, _, _, d', hmark, h₁.inodePtr_eq hk, rfl, hcopy, fun dest hdest => ?_, ?_,
    fun a ha => ?_⟩
  · rw [copyTo, hdest]
    simp only [if_neg hinode, bind, Except.bind, hmark, h₁.inodePtr_eq hk, hcopy]
  · have hcalls := htook.calls_eq
    rw [hclear] at hcalls
    refine ⟨fun c hc => ?_, ?_, ?_, fun c hc a ha => ?_⟩
    · exact ⟨(htook.found c hc).1, (htook.found c hc).2.1⟩
    · rw [hcalls]
      exact (View.nodup_clear L v .block).sublist (List.take_sublist ..)
    · rw [hcalls]
      intro b hb
      obtain ⟨hpos, hble, hbit⟩ := View.mem_clear.mp (List.mem_of_mem_take hb)
      rw [h.bitSet_eq .block (by omega)]
      exact hbit
    · rw [(htook.found c hc).2.2 a ha]
      exact (byte_boot h ha).symm
  · rw [byte_boot h' ha, htook.boot a ha]
    exact (byte_boot h ha).symm

theorem allocatable_wide : Allocatable wideLayout wideDisk where
  describes := wide_shows.1
  counted := (wide_consistent.counted .block).2
  plain b hb := by
    obtain ⟨hne, hle, hbit⟩ := View.mem_clear.mp hb
    by_contra hplain
    have hset := wide_consistent.reserved b (Nat.pos_of_ne_zero hne) hle hplain
    exact Bool.noConfusion (hbit.symm.trans hset)

theorem wide_enough : haveEnoughBlocks wideDisk thirteenBlocks.length = true := by
  rw [length_thirteenBlocks]
  decide

theorem copyTo_takesFree_wide : ∃ d₁ inode d₂ d',
    updateBitmap wideDisk .inode (findFreeInode wideDisk) true = .ok d₁ ∧
    inodePtr d₁ (findFreeInode wideDisk) = .ok inode ∧
    d₂ = initInode d₁ inode ext2SIfreg thirteenBlocks.length 7 ∧
    copyFileData d₂ inode thirteenBlocks = .ok d' ∧
    (∀ dest : Destination, dest.entry = none →
      copyTo wideDisk thirteenBlocks 7 dest =
        linkNewFile d' dest (findFreeInode wideDisk) inode) ∧
    TakesFree wideDisk (copyFileCalls d₂ inode thirteenBlocks) ∧
      ∀ a < 1024, d'.byte a = wideDisk.byte a :=
  copyTo_takesFree allocatable_wide wide_enough (by decide) 7

end Taking

end KernelProgramming.Ext2
