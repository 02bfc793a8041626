import KernelProgramming.Library.Runs
import KernelProgramming.Ext2.Writing
import KernelProgramming.Ext2.Creation

/-!
# What the copy loops store

The blocks that the copy loops take for a file, block by block: which of them
become pointers of the inode or words of a pointer block, which block of the
file each of them holds, and what stays as it was.
-/

namespace KernelProgramming.Ext2

open ByteMemory BlockMap

variable {L : Layout} {d : Disk} {u v w : View} {s s' : Copying} {content : List Byte}
  {b c c' i j k m n : ℕ} {bs bs' ts ts' : List ℕ}

/-! ## The file that is read -/

/-- Block `j` of a file with this content. -/
def chunk (content : List Byte) (j : ℕ) : List Byte := (content.drop (1024 * j)).take 1024

/-- The number of blocks of the file. -/
def numChunks (content : List Byte) : ℕ := fill content.length 1024

theorem length_chunk_le (content : List Byte) (j : ℕ) : (chunk content j).length ≤ 1024 := by
  rw [chunk, List.length_take]
  exact Nat.min_le_left ..

theorem chunk_eq_nil_iff : chunk content c = [] ↔ numChunks content ≤ c := by
  rw [chunk, List.take_eq_nil_iff, List.drop_eq_nil_iff, numChunks, fill]
  omega

/-- Block `c` of the file is the one that has been read ahead. -/
structure At (content : List Byte) (c : ℕ) (s : Copying) : Prop where
  buffer_eq : s.buffer = chunk content c
  rest_eq : s.rest = content.drop (1024 * (c + 1))

theorem At.fread (h : At content c s) : At content (c + 1) s.fread where
  buffer_eq := by rw [Copying.fread, h.rest_eq, chunk]
  rest_eq := by
    rw [Copying.fread, h.rest_eq, List.drop_drop]
    congr 1

theorem At.buffer_eq_nil_iff (h : At content c s) :
    s.buffer = [] ↔ numChunks content ≤ c := by
  rw [h.buffer_eq, chunk_eq_nil_iff]

/-- Behind the end of the file all positions are one. -/
theorem At.move (h : At content c s) (hc : numChunks content ≤ c)
    (hc' : numChunks content ≤ c') : At content c' s := by
  have hrest : s.rest = [] := by
    rw [h.rest_eq, List.drop_eq_nil_iff]
    rw [numChunks, fill] at hc
    omega
  refine ⟨(h.buffer_eq_nil_iff.mpr hc).trans (chunk_eq_nil_iff.mpr hc').symm, hrest.trans ?_⟩
  rw [eq_comm, List.drop_eq_nil_iff]
  rw [numChunks, fill] at hc'
  omega

/-- Block `b` holds block `j` of the file. -/
def View.Holds (v : View) (content : List Byte) (b j : ℕ) : Prop :=
  getBytes v.byte (1024 * b) (chunk content j).length = chunk content j

theorem View.Holds.congr (h : v.Holds content b j) (hsame : v.SameBlock w b) :
    w.Holds content b j := by
  refine (getBytes_congr fun i hi => ?_).trans h
  exact hsame i (hi.trans_le (length_chunk_le content j))

/-! ## The blocks that are taken -/

/-- The free blocks `bs` have been taken for inode `k`.  Besides them at most the blocks `ts`
have changed. -/
structure Lays (L : Layout) (k : ℕ) (ts : List ℕ) (v w : View) (bs : List ℕ) : Prop where
  clear_eq : v.clear L .block = bs ++ w.clear L .block
  inodeBit : w.bit .inode = v.bit .inode
  blockBit : ∀ c, w.bit .block c = true ↔ v.bit .block c = true ∨ c + 1 ∈ bs
  counted : v.Counted L → w.Counted L
  others : ∀ q, q ≠ k → w.inode q = v.inode q
  self : w.inode k =
    { v.inode k with blocks := (w.inode k).blocks, block := (w.inode k).block }
  same : ∀ c, c ∉ ts → c ∉ bs → v.SameBlock w c

theorem View.SameBlock.trans (h : u.SameBlock v b) (h' : v.SameBlock w b) : u.SameBlock w b :=
  fun i hi => (h' i hi).trans (h i hi)

theorem lays_refl (L : Layout) (k : ℕ) (ts : List ℕ) (v : View) : Lays L k ts v v [] where
  clear_eq := rfl
  inodeBit := rfl
  blockBit c := by simp
  counted h := h
  others _ _ := rfl
  self := rfl
  same _ _ _ _ _ := rfl

theorem Lays.trans (h : Lays L k ts u v bs) (h' : Lays L k ts' v w bs')
    (hts : ∀ c ∈ ts', c ∈ ts ∨ c ∈ bs) : Lays L k ts u w (bs ++ bs') where
  clear_eq := by rw [h.clear_eq, h'.clear_eq, List.append_assoc]
  inodeBit := h'.inodeBit.trans h.inodeBit
  blockBit c := by
    rw [h'.blockBit, h.blockBit, List.mem_append, or_assoc]
  counted hu := h'.counted (h.counted hu)
  others q hq := (h'.others q hq).trans (h.others q hq)
  self := by
    have hself := h'.self
    rw [h.self] at hself
    exact hself
  same c hc hbs := by
    rw [List.mem_append, not_or] at hbs
    refine (h.same c hc hbs.1).trans (h'.same c (fun hin => ?_) hbs.2)
    exact (hts c hin).elim hc hbs.1

theorem Lays.subset_clear (h : Lays L k ts v w bs) : ∀ b ∈ bs, b ∈ v.clear L .block := by
  rw [h.clear_eq]
  exact fun b hb => List.mem_append_left _ hb

theorem Lays.clear_subset (h : Lays L k ts v w bs) :
    ∀ b ∈ w.clear L .block, b ∈ v.clear L .block ∧ b ∉ bs := by
  have hnodup := h.clear_eq ▸ View.nodup_clear L v .block
  obtain ⟨-, -, hdisjoint⟩ := List.nodup_append.mp hnodup
  rw [h.clear_eq]
  exact fun b hb => ⟨List.mem_append_right _ hb, fun hin => hdisjoint b hin b hb rfl⟩

theorem Lays.length_clear (h : Lays L k ts v w bs) :
    (v.clear L .block).length = bs.length + (w.clear L .block).length := by
  rw [h.clear_eq, List.length_append]

/-- What is neither free nor among `ts` keeps its bytes. -/
theorem Lays.sameBlock (h : Lays L k ts v w bs) (hb : b ∉ v.clear L .block) (hts : b ∉ ts) :
    v.SameBlock w b :=
  h.same b hts fun hin => hb (h.subset_clear b hin)

theorem lays_mark (hclear : v.clear L .block = b :: bs) {x : Inode}
    (hself : x = { v.inode k with blocks := x.blocks, block := x.block })
    (hinode : w.inode = Function.update v.inode k x)
    (hmark : w = { v.mark .block b with inode := w.inode, byte := w.byte })
    (hsame : ∀ c, c ∉ ts → c ≠ b → v.SameBlock w c) : Lays L k ts v w [b] := by
  have hmem : b ∈ v.clear L .block := hclear ▸ List.mem_cons_self
  obtain ⟨hne, hle, -⟩ := View.mem_clear.mp hmem
  have hbit : w.bit = (v.mark .block b).bit := by rw [hmark]
  refine ⟨?_, ?_, fun c => ?_, fun h => ?_, fun q hq => ?_, ?_, fun c hts hc => ?_⟩
  · rw [View.clear_congr (congrFun hbit .block), View.clear_mark_head hclear, hclear]
    rfl
  · rw [hbit, View.bit_mark, Function.update_of_ne (by decide)]
  · rw [hbit, View.bit_mark, Function.update_self, Function.update_apply, List.mem_singleton]
    have hiff : c = b - 1 ↔ c + 1 = b := by omega
    split_ifs with hc
    · simp [hiff.mp hc]
    · simp [mt hiff.mpr hc]
  · rw [hmark]
    exact h.mark hne hle
  · rw [hinode, Function.update_of_ne hq]
  · rw [hinode, Function.update_self]
    exact hself
  · exact hsame c hts fun hcb => hc (List.mem_singleton.mpr hcb)

theorem lays_attach (hclear : v.clear L .block = b :: bs) :
    Lays L k ts v (v.attach k i b) [b] :=
  lays_mark hclear rfl rfl rfl fun _ _ _ _ _ => rfl

/-- A store inside of one block. -/
theorem sameBlock_putBytes {a : ℕ} {t : List Byte} (hw : w.byte = putBytes v.byte a t)
    (hin : 1024 * b ≤ a ∧ a + t.length ≤ 1024 * b + 1024) (hc : c ≠ b) : v.SameBlock w c := by
  intro i hi
  rw [hw]
  exact putBytes_of_disjoint (by omega) v.byte

theorem lays_point (hclear : v.clear L .block = b :: bs) {ptrs : ℕ} (hi : i < 256) :
    Lays L k [ptrs] v (v.point k b (1024 * ptrs + 4 * i)) [b] :=
  lays_mark hclear rfl rfl rfl fun _ hc _ =>
    sameBlock_putBytes rfl (by rw [length_bytes32]; omega) fun h => hc (List.mem_singleton.mpr h)

theorem word_point {ptrs : ℕ} (hb : b < 2 ^ 32) :
    (v.point k b (1024 * ptrs + 4 * i)).word ptrs i = b :=
  (get32_putBytes_same ..).trans (Nat.mod_eq_of_lt hb)

theorem word_point_of_ne {ptrs : ℕ} (hj : j ≠ i) :
    (v.point k b (1024 * ptrs + 4 * i)).word ptrs j = v.word ptrs j :=
  get32_putBytes_of_disjoint (by rw [length_bytes32]; omega) v.byte

/-- Block `b` of the volume gets these bytes. -/
def View.write (v : View) (b : ℕ) (t : List Byte) : View :=
  { v with byte := putBytes v.byte (1024 * b) t }

theorem lays_write {t : List Byte} (ht : t.length ≤ 1024) :
    Lays L k [b] v (v.write b t) [] := by
  refine ⟨rfl, rfl, fun c => by simp [View.write], id, fun _ _ => rfl, rfl, fun c hc _ => ?_⟩
  exact sameBlock_putBytes rfl (by omega) fun h => hc (List.mem_singleton.mpr h)

/-- The block read ahead is written to `b`. -/
theorem copyDataToBlock_stores (h : Ready L v { s with disk := d }) (hat : At content c s)
    (hb : L.IsPlain b) :
    ∃ s', copyDataToBlock s d b = .ok s' ∧ Ready L (v.write b s.buffer) s' ∧ At content c s' ∧
      (v.write b s.buffer).Holds content b c := by
  have hptr : blockPtr d b = .ok (1024 * b) := h.shows.blockPtr_eq hb.lt
  have hcopy := h.shows.copy (a := 1024 * b) (s := s.buffer) fun x hx => by
    have hle : s.buffer.length ≤ 1024 := h.buffer_le
    unfold Within at hx
    rw [show x / 1024 = b by omega]
    exact hb
  refine ⟨{ s with disk := d.copy (1024 * b) s.buffer }, ?_,
    ⟨hcopy, h.plain, h.buffer_le, h.rest_eq⟩, ⟨hat.buffer_eq, hat.rest_eq⟩, ?_⟩
  · rw [copyDataToBlock, hptr]
    rfl
  · rw [View.Holds, ← hat.buffer_eq]
    exact getBytes_putBytes_same v.byte (1024 * b) s.buffer

/-- A loop of `ext2_cp` ends at block `c` of the file with a volume of which `Q` holds. -/
def Reaches (L : Layout) (content : List Byte) (x : Except Fault Copying) (c : ℕ)
    (Q : View → Prop) : Prop :=
  ∃ s w, x = .ok s ∧ Ready L w s ∧ At content c s ∧ Q w

/-! ## The blocks behind a pointer block -/

/-- How many blocks of the file a block `depth` levels of pointers deep uses up, together with
the one that is lost behind a pointer block. -/
def span : ℕ → ℕ
  | 0 => 1
  | depth + 1 => 256 * span depth + 1

theorem span_pos (depth : ℕ) : 0 < span depth := by
  cases depth with
  | zero => exact Nat.one_pos
  | succ depth => exact Nat.succ_pos _

/-- How many of `n` pointers to blocks of this depth are used if `r` blocks of the file are
left. -/
def cells (n depth r : ℕ) : ℕ := min n ((r + (span depth - 1)) / span depth)

theorem cells_zero (n depth : ℕ) : cells n depth 0 = 0 := by
  have hpos := span_pos depth
  rw [cells, Nat.zero_add, Nat.div_eq_of_lt (by omega), Nat.min_zero]

theorem cells_succ {n depth r : ℕ} (hr : r ≠ 0) :
    cells (n + 1) depth r = cells n depth (r - span depth) + 1 := by
  have hpos := span_pos depth
  rw [cells, cells, ← Nat.add_min_add_right]
  congr 1
  rcases Nat.lt_or_ge (span depth) r with hlt | hge
  · rw [← Nat.add_div_right _ hpos]
    congr 1
    omega
  · rw [Nat.sub_eq_zero_of_le hge, Nat.zero_add, Nat.div_eq_of_lt (show span depth - 1 < _ by omega)]
    exact Nat.div_eq_of_lt_le (by omega) (by omega)

theorem lt_cells_iff {n depth r i : ℕ} : i < cells n depth r ↔ i < n ∧ i * span depth < r := by
  have hpos := span_pos depth
  rw [cells, lt_min_iff, Nat.lt_iff_add_one_le (m := i) (n := _ / _), Nat.le_div_iff_mul_le hpos,
    Nat.succ_mul]
  refine and_congr_right fun _ => ?_
  omega

namespace View

/-- The blocks that the copy loops have taken behind block `b`, which starts with block `c` of
the file. -/
def placed (w : View) (content : List Byte) : ℕ → ℕ → ℕ → List ℕ
  | 0, b, _ => [b]
  | depth + 1, b, c =>
      b :: (List.range (cells 256 depth (numChunks content - c))).flatMap fun i =>
        w.placed content depth (w.word b i) (c + i * span depth)

/-- The blocks behind block `b` hold the blocks of the file from `c` on.  Pointers that are
not used are what they were in `v`. -/
def Filled (v w : View) (content : List Byte) : ℕ → ℕ → ℕ → Prop
  | 0, b, c => w.Holds content b c
  | depth + 1, b, c =>
      (∀ i < 256, cells 256 depth (numChunks content - c) ≤ i → w.word b i = v.word b i) ∧
        ∀ i < cells 256 depth (numChunks content - c),
          v.Filled w content depth (w.word b i) (c + i * span depth)

theorem cells_le (n depth r : ℕ) : cells n depth r ≤ n := Nat.min_le_left ..

theorem mem_placed_self (w : View) (content : List Byte) (depth b c : ℕ) :
    b ∈ w.placed content depth b c := by
  cases depth with
  | zero => exact List.mem_singleton_self b
  | succ depth => exact List.mem_cons_self

theorem placed_congr {depth : ℕ} (h : ∀ x ∈ w.placed content depth b c, w.SameBlock u x) :
    u.placed content depth b c = w.placed content depth b c := by
  induction depth generalizing b c with
  | zero => rfl
  | succ depth ih =>
      simp only [placed]
      refine congrArg (b :: ·) (List.flatMap_congr fun i hi => ?_)
      have hlt := List.mem_range.mp hi
      rw [word_congr (h b (mem_placed_self ..)) (hlt.trans_le (cells_le ..))]
      exact ih fun x hx => h x (List.mem_cons_of_mem b (List.mem_flatMap.mpr ⟨i, hi, hx⟩))

/-- The state of the blocks before and after may be taken from other volumes, as far as these
have the same blocks. -/
theorem Filled.congr {v' w' : View} {depth : ℕ} (h : v.Filled w content depth b c)
    (hw : ∀ x ∈ w.placed content depth b c, w.SameBlock w' x)
    (hv : ∀ x ∈ w.placed content depth b c, v'.SameBlock v x) :
    v'.Filled w' content depth b c := by
  induction depth generalizing b c with
  | zero => exact View.Holds.congr h (hw b (mem_placed_self ..))
  | succ depth ih =>
      have hself := mem_placed_self w content (depth + 1) b c
      refine ⟨fun i hi hout => ?_, fun i hi => ?_⟩
      · rw [word_congr (hw b hself) hi, h.1 i hi hout]
        exact word_congr (hv b hself) hi
      · have hlt := hi.trans_le (cells_le ..)
        have hin : ∀ x ∈ w.placed content depth (w.word b i) (c + i * span depth),
            x ∈ w.placed content (depth + 1) b c := fun x hx =>
          List.mem_cons_of_mem b (List.mem_flatMap.mpr ⟨i, List.mem_range.mpr hi, hx⟩)
        rw [word_congr (hw b hself) hlt]
        exact ih (h.2 i hi) (fun x hx => hw x (hin x hx)) fun x hx => hv x (hin x hx)

end View

/-! ## The loops in one form -/

/-- The loop that fills a block of pointers, where `fill` fills the block behind each. -/
def fillCells (inode : ℕ) (fill : ℕ → Copying → Except Fault Copying) (block : ℕ) :
    ℕ → ℕ → Copying → Except Fault Copying
  | 0, _, s => .ok s
  | n + 1, offset, s =>
      if s.buffer = [] then .ok s
      else do
        let (blockNum, d) ← newPointer s.disk inode (block + 4 * offset)
        let s ← fill blockNum { s with disk := d }
        fillCells inode fill block n (offset + 1) s.fread

/-- Fills block `blockNum` with the file, through `depth` levels of pointers. -/
def fillBlock (inode : ℕ) : ℕ → ℕ → Copying → Except Fault Copying
  | 0, blockNum, s => copyDataToBlock s s.disk blockNum
  | depth + 1, blockNum, s => do
      let block ← blockPtr s.disk blockNum
      fillCells inode (fillBlock inode depth) block numOfPtrsInBlock 0 s

theorem fillPtrBlock_eq (inode block n offset : ℕ) (s : Copying) :
    fillPtrBlock inode block n offset s =
      fillCells inode (fillBlock inode 0) block n offset s := by
  induction n generalizing offset s with
  | zero => rfl
  | succ n ih =>
      rw [fillPtrBlock, fillCells]
      simp only [ih]
      rfl

theorem fillPtrPtrBlock_eq (inode block n offset : ℕ) (s : Copying) :
    fillPtrPtrBlock inode block n offset s =
      fillCells inode (fillBlock inode 1) block n offset s := by
  induction n generalizing offset s with
  | zero => rfl
  | succ n ih =>
      rw [fillPtrPtrBlock, fillCells]
      simp only [ih, fillPtrBlock_eq, fillBlock, bind_assoc]

theorem fillPtrPtrPtrBlock_eq (inode block n offset : ℕ) (s : Copying) :
    fillPtrPtrPtrBlock inode block n offset s =
      fillCells inode (fillBlock inode 2) block n offset s := by
  induction n generalizing offset s with
  | zero => rfl
  | succ n ih =>
      rw [fillPtrPtrPtrBlock, fillCells]
      simp only [ih, fillPtrPtrBlock_eq, fillBlock, bind_assoc]

/-! ## What a level of the block map takes -/

/-- What `n` pointers cost for `r` blocks of the file, if one of them costs `one` and uses up
`step` blocks of the file. -/
def rowCost (one : ℕ → ℕ) (step : ℕ) : ℕ → ℕ → ℕ
  | 0, _ => 0
  | n + 1, r => if r = 0 then 0 else one r + rowCost one step n (r - step)

/-- The blocks that a block `depth` levels of pointers deep takes for `r` blocks of the file,
itself among them. -/
def cost : ℕ → ℕ → ℕ
  | 0, _ => 1
  | depth + 1, r => 1 + rowCost (cost depth) (span depth) numOfPtrsInBlock r

/-- The pointers from `start` on of the block `b` have got new blocks, which hold the file from
block `c` on. -/
structure Cells (L : Layout) (k : ℕ) (content : List Byte) (v w : View) (depth b start c m : ℕ)
    (bs : List ℕ) : Prop where
  lays : Lays L k [b] v w bs
  slots : (w.inode k).block = (v.inode k).block
  blocks_eq : ((List.range m).flatMap fun i =>
    w.placed content depth (w.word b (start + i)) (c + i * span depth)) = bs
  kept : ∀ j < 256, j < start ∨ start + m ≤ j → w.word b j = v.word b j
  filled : ∀ i < m, v.Filled w content depth (w.word b (start + i)) (c + i * span depth)

/-- Block `b`, which has been taken already, holds the file from block `c` on. -/
structure FilledBlock (L : Layout) (k : ℕ) (content : List Byte) (v w : View) (depth b c : ℕ)
    (bs : List ℕ) : Prop where
  lays : Lays L k [b] v w bs
  slots : (w.inode k).block = (v.inode k).block
  placed_eq : w.placed content depth b c = b :: bs
  filled : v.Filled w content depth b c

theorem Cells.cons {v₁ v₂ : View} {depth start : ℕ}
    (hlays : Lays L k [b] u v₁ [c']) (hslots : (v₁.inode k).block = (u.inode k).block)
    (hb : b ∉ u.clear L .block) (hword : v₁.word b start = c')
    (hkept : ∀ j < 256, j ≠ start → v₁.word b j = u.word b j)
    (hsame : ∀ x, x ≠ b → u.SameBlock v₁ x) (hstart : start < 256)
    (hfill : FilledBlock L k content v₁ v₂ depth c' c bs)
    (h : Cells L k content v₂ w depth b (start + 1) (c + span depth) m bs') :
    Cells L k content u w depth b start c (m + 1) (c' :: bs ++ bs') := by
  have hbc : b ≠ c' := fun heq => hb (hlays.subset_clear b (heq ▸ List.mem_singleton_self c'))
  have hb₁ : b ∉ v₁.clear L .block := fun hin => hb (hlays.clear_subset b hin).1
  have hb₂ : b ∉ v₂.clear L .block := fun hin => hb₁ (hfill.lays.clear_subset b hin).1
  have hword₂ : ∀ j < 256, v₂.word b j = v₁.word b j := fun j hj =>
    View.word_congr (hfill.lays.sameBlock hb₁ (by simpa using hbc)) hj
  have hfirst : w.word b start = c' := by
    rw [h.kept start hstart (.inl start.lt_succ_self), hword₂ start hstart, hword]
  have htaken : ∀ x ∈ c' :: bs, x ∈ u.clear L .block ∧ x ∉ v₂.clear L .block := by
    intro x hx
    rcases List.mem_cons.mp hx with rfl | hx
    · refine ⟨hlays.subset_clear x (List.mem_singleton_self x), fun hin => ?_⟩
      exact (hlays.clear_subset x (hfill.lays.clear_subset x hin).1).2 (List.mem_singleton_self x)
    · exact ⟨(hlays.clear_subset x (hfill.lays.subset_clear x hx)).1, fun hin =>
        (hfill.lays.clear_subset x hin).2 hx⟩
  have hold : ∀ x ∈ v₂.placed content depth c' c, v₂.SameBlock w x := by
    rw [hfill.placed_eq]
    intro x hx
    obtain ⟨hin, hout⟩ := htaken x hx
    exact h.lays.sameBlock hout (by simpa using ne_of_mem_of_not_mem hin hb)
  have hplaced : w.placed content depth c' c = c' :: bs :=
    (View.placed_congr hold).trans hfill.placed_eq
  have hshift : ∀ i, start + 1 + i = start + (i + 1) ∧
      c + span depth + i * span depth = c + (i + 1) * span depth := fun i =>
    ⟨by omega, by rw [Nat.succ_mul]; omega⟩
  refine ⟨(hlays.trans hfill.lays fun x hx => .inr hx).trans h.lays fun x hx => .inl hx, ?_, ?_,
    fun j hj hout => ?_, fun i hi => ?_⟩
  · rw [h.slots, hfill.slots, hslots]
  · rw [List.range_succ_eq_map, List.flatMap_cons, List.flatMap_map, ← h.blocks_eq, Nat.add_zero,
      Nat.zero_mul, Nat.add_zero, hfirst, hplaced]
    refine congrArg (c' :: bs ++ ·) (List.flatMap_congr fun i _ => ?_)
    rw [Nat.succ_eq_add_one, (hshift i).1, (hshift i).2]
  · rw [h.kept j hj (by omega), hword₂ j hj, hkept j hj (by omega)]
  · cases i with
    | zero =>
        rw [Nat.add_zero, Nat.zero_mul, Nat.add_zero, hfirst]
        refine hfill.filled.congr hold fun x hx => ?_
        rw [hfill.placed_eq] at hx
        exact hsame x (ne_of_mem_of_not_mem (htaken x hx).1 hb)
    | succ i =>
        have hi' := Nat.lt_of_succ_lt_succ hi
        have hnext := h.filled i hi'
        rw [(hshift i).1, (hshift i).2] at hnext
        refine hnext.congr (fun _ _ _ _ => rfl) fun x hx => ?_
        have hin : x ∈ bs' := by
          rw [← h.blocks_eq]
          refine List.mem_flatMap.mpr ⟨i, List.mem_range.mpr hi', ?_⟩
          rwa [(hshift i).1, (hshift i).2]
        have hclear := h.lays.subset_clear x hin
        obtain ⟨hx₁, hxbs⟩ := hfill.lays.clear_subset x hclear
        obtain ⟨hx, hxc⟩ := hlays.clear_subset x hx₁
        exact (hsame x (ne_of_mem_of_not_mem hx hb)).trans (hfill.lays.same x hxc hxbs)

/-- `fillBlock` does its work at this depth, if the blocks that it takes are there. -/
def FillsBlocks (L : Layout) (k : ℕ) (content : List Byte) (depth : ℕ) : Prop :=
  ∀ {v : View} {s : Copying} {b c : ℕ}, Ready L v s → At content c s → c < numChunks content →
    L.IsPlain b → b ≠ 0 → b ∉ v.clear L .block →
    cost depth (numChunks content - c) ≤ 1 + (v.clear L .block).length →
    Reaches L content (fillBlock (L.inodeAddress k) depth b s) (c + (span depth - 1)) fun w =>
      ∃ bs, FilledBlock L k content v w depth b c bs ∧
        bs.length + 1 = cost depth (numChunks content - c)

theorem fillCells_cells (hk : L.IsInode k) {depth : ℕ} (hfill : FillsBlocks L k content depth)
    (hb : L.IsPlain b) (hpos : b ≠ 0) (n : ℕ) : ∀ {v : View} {s : Copying} (start : ℕ) {c : ℕ},
    Ready L v s → At content c s → start + n ≤ 256 → b ∉ v.clear L .block →
    rowCost (cost depth) (span depth) n (numChunks content - c) ≤ (v.clear L .block).length →
    Reaches L content (fillCells (L.inodeAddress k) (fillBlock (L.inodeAddress k) depth)
      (1024 * b) n start s) (c + n * span depth) fun w =>
      ∃ bs, Cells L k content v w depth b start c (cells n depth (numChunks content - c)) bs ∧
        bs.length = rowCost (cost depth) (span depth) n (numChunks content - c) := by
  have hspan := span_pos depth
  have hnil : ∀ {v : View} {start c : ℕ}, Cells L k content v v depth b start c 0 [] :=
    fun {v start c} => ⟨lays_refl L k [b] v, rfl, rfl, fun _ _ _ => rfl, fun i hi =>
      absurd hi i.not_lt_zero⟩
  induction n with
  | zero =>
      intro v s start c h hat _ _ _
      rw [Nat.zero_mul, cells, Nat.zero_min]
      exact ⟨s, v, rfl, h, hat, [], hnil, rfl⟩
  | succ n ih =>
      intro v s start c h hat hstart hfree hroom
      rw [fillCells]
      by_cases hbuffer : s.buffer = []
      · have hend := hat.buffer_eq_nil_iff.mp hbuffer
        rw [if_pos hbuffer, Nat.sub_eq_zero_of_le hend, cells_zero]
        exact ⟨s, v, rfl, h, hat.move hend (by omega), [], hnil, by rw [rowCost, if_pos rfl]; rfl⟩
      · have hmore := Nat.lt_of_not_le (mt hat.buffer_eq_nil_iff.mpr hbuffer)
        have hleft : numChunks content - c ≠ 0 := by omega
        rw [if_neg hbuffer, cells_succ hleft, rowCost, if_neg hleft, Nat.sub_sub,
          show c + (n + 1) * span depth = c + span depth + n * span depth by rw [Nat.succ_mul]; omega]
        rw [rowCost, if_neg hleft, Nat.sub_sub] at hroom
        have hcost : 1 ≤ cost depth (numChunks content - c) := by
          cases depth with
          | zero => exact le_rfl
          | succ depth => exact Nat.le_add_right ..
        obtain ⟨b', bs, hclear⟩ := exists_clear (by omega : 1 ≤ (v.clear L .block).length)
        have hlt : start < 256 := by omega
        obtain ⟨d, hnew, hb', hpos', hready, -⟩ := newPointer_takes h hk hb hpos hlt hclear
        have hlays : Lays L k [b] v (v.point k b' (1024 * b + 4 * start)) [b'] :=
          lays_point hclear hlt
        have hlength := hlays.length_clear
        rw [List.length_singleton] at hlength
        have hat' : At content c { s with disk := d } := ⟨hat.buffer_eq, hat.rest_eq⟩
        obtain ⟨s₁, v₂, hs₁, hready₁, hat₁, bs₁, hfilled, hlength₁⟩ :=
          hfill hready hat' hmore hb' hpos'
            (fun hin => (hlays.clear_subset b' hin).2 (List.mem_singleton_self b')) (by omega)
        have hlength₂ := hfilled.lays.length_clear
        have hfread : At content (c + span depth) s₁.fread := by
          have hnext := hat₁.fread
          rwa [show c + (span depth - 1) + 1 = c + span depth by omega] at hnext
        have hb₂ : b ∉ v₂.clear L .block := fun hin =>
          hfree (hlays.clear_subset b (hfilled.lays.clear_subset b hin).1).1
        obtain ⟨t, w, ht, htw, hatt, bs₂, hcells, hlength₃⟩ :=
          ih (start + 1) hready₁.fread.1 hfread (by omega) hb₂ (by omega)
        refine ⟨t, w, ?_, htw, hatt, b' :: bs₁ ++ bs₂, ?_, ?_⟩
        · rw [hnew]
          simp only [bind, Except.bind, hs₁]
          exact ht
        · have hle := L.blocksCount_le
          have hblt := hb'.lt
          refine hcells.cons hlays ?_ hfree (word_point (by omega))
            (fun j _ hj => word_point_of_ne hj) (fun x hx => ?_) hlt hfilled
          · simp only [View.point, View.inode_setInode]
          · exact sameBlock_putBytes (b := b) rfl (by rw [length_bytes32]; omega) hx
        · rw [List.length_append, List.length_cons, hlength₁, hlength₃]

/-- The copy loops fill the block map at any depth. -/
theorem fillBlock_fills (hk : L.IsInode k) (content : List Byte) (depth : ℕ) :
    FillsBlocks L k content depth := by
  induction depth with
  | zero =>
      intro v s b c h hat _ hb _ _ _
      obtain ⟨s', hcopy, hready, hat', hholds⟩ := copyDataToBlock_stores h hat hb
      exact ⟨s', _, hcopy, hready, hat', [], ⟨lays_write h.buffer_le, rfl, rfl, hholds⟩, rfl⟩
  | succ depth ih =>
      intro v s b c h hat _ hb hpos hfree hroom
      have hptr : blockPtr s.disk b = .ok (1024 * b) := h.shows.blockPtr_eq hb.lt
      rw [cost] at hroom ⊢
      obtain ⟨t, w, ht, htw, hatt, bs, hcells, hlength⟩ :=
        fillCells_cells hk ih hb hpos 256 0 h hat le_rfl hfree
          (Nat.le_of_add_le_add_left hroom)
      refine ⟨t, w, ?_, htw, ?_, bs, ⟨hcells.lays, hcells.slots, ?_, ?_, ?_⟩, ?_⟩
      · rw [fillBlock, hptr]
        exact ht
      · exact hatt
      · rw [View.placed, ← hcells.blocks_eq]
        simp only [Nat.zero_add]
      · intro j hj hout
        exact hcells.kept j hj (.inr (by omega))
      · intro i hi
        have hfill := hcells.filled i hi
        rwa [Nat.zero_add] at hfill
      · rw [hlength, Nat.add_comm]
        rfl

/-! ## The whole file -/

/-- The block of the file with which slot `i` of the inode starts. -/
def first (i : ℕ) : ℕ :=
  if i ≤ indirectBlock then i
  else if i = dbleIndirectBlock then directBlockCount + 256
  else directBlockCount + 256 + 256 * span 1

/-- The first `m` slots of the inode have got their part of the file. -/
structure Stored (L : Layout) (k : ℕ) (content : List Byte) (m : ℕ) (v w : View) (bs : List ℕ) :
    Prop where
  lays : Lays L k [] v w bs
  blocks_eq : ((List.range m).flatMap fun i =>
    if first i < numChunks content then
      w.placed content (slotLevel i) ((w.inode k).block i) (first i)
    else []) = bs
  kept : ∀ i, (i < m → numChunks content ≤ first i) →
    (w.inode k).block i = (v.inode k).block i
  filled : ∀ i < m, first i < numChunks content →
    v.Filled w content (slotLevel i) ((w.inode k).block i) (first i)

theorem stored_none : Stored L k content 0 v v [] :=
  ⟨lays_refl L k [] v, rfl, fun _ _ => rfl, fun i hi => absurd hi i.not_lt_zero⟩

/-- Behind the end of the file the slots are left alone. -/
theorem Stored.skip (h : Stored L k content m v w bs) (hend : numChunks content ≤ first m) :
    Stored L k content (m + 1) v w bs := by
  refine ⟨h.lays, ?_, fun i hi => h.kept i fun hlt => hi (hlt.trans m.lt_succ_self),
    fun i hi hmore => ?_⟩
  · rw [List.range_succ, List.flatMap_append, h.blocks_eq, List.flatMap_singleton,
      if_neg (Nat.not_lt_of_le hend), List.append_nil]
  · rcases Nat.eq_or_lt_of_le (Nat.le_of_lt_succ hi) with rfl | hi
    · exact absurd hmore (Nat.not_lt_of_le hend)
    · exact h.filled i hi hmore

/-- A slot gets a block, which is filled. -/
theorem Stored.snoc (h : Stored L k content m u v bs) (hmore : first m < numChunks content)
    {v₁ : View} (hlays : Lays L k [] v v₁ [b])
    (hslots : (v₁.inode k).block = Function.update (v.inode k).block m b)
    (hsame : ∀ x, v.SameBlock v₁ x)
    (hfill : FilledBlock L k content v₁ w (slotLevel m) b (first m) bs') :
    Stored L k content (m + 1) u w (bs ++ b :: bs') := by
  have hslot : (w.inode k).block m = b := by rw [hfill.slots, hslots, Function.update_self]
  have hother : ∀ i, i ≠ m → (w.inode k).block i = (v.inode k).block i := fun i hi => by
    rw [hfill.slots, hslots, Function.update_of_ne hi]
  have hnew : Lays L k [] v w (b :: bs') := hlays.trans hfill.lays fun x hx => .inr hx
  -- the blocks taken before are neither free nor `b`
  have hold : ∀ x ∈ bs, v.SameBlock w x := fun x hx =>
    hnew.sameBlock (fun hin => (h.lays.clear_subset x hin).2 hx) List.not_mem_nil
  have hin : ∀ i < m, first i < numChunks content →
      ∀ x ∈ v.placed content (slotLevel i) ((v.inode k).block i) (first i), x ∈ bs := by
    intro i hi hlt x hx
    rw [← h.blocks_eq]
    refine List.mem_flatMap.mpr ⟨i, List.mem_range.mpr hi, ?_⟩
    rwa [if_pos hlt]
  refine ⟨h.lays.trans hnew fun x hx => .inl hx, ?_, fun i hi => ?_, fun i hi hlt => ?_⟩
  · rw [List.range_succ, List.flatMap_append, List.flatMap_singleton, if_pos hmore, hslot,
      hfill.placed_eq, ← h.blocks_eq]
    refine congrArg (· ++ b :: bs') (List.flatMap_congr fun i hi => ?_)
    have hi := List.mem_range.mp hi
    rw [hother i hi.ne]
    split_ifs with hlt
    · exact View.placed_congr fun x hx => hold x (hin i hi hlt x hx)
    · rfl
  · have hne : i ≠ m := by
      rintro rfl
      exact absurd hmore (Nat.not_lt_of_le (hi i.lt_succ_self))
    rw [hother i hne]
    exact h.kept i fun hlt => hi (hlt.trans m.lt_succ_self)
  · rcases Nat.eq_or_lt_of_le (Nat.le_of_lt_succ hi) with rfl | hi
    · rw [hslot]
      refine hfill.filled.congr (fun _ _ _ _ => rfl) fun x hx => ?_
      rw [hfill.placed_eq] at hx
      have hclear := hnew.subset_clear x hx
      have hout : x ∉ bs := (h.lays.clear_subset x hclear).2
      exact (h.lays.same x List.not_mem_nil hout).trans (hsame x)
    · rw [hother i hi.ne]
      exact (h.filled i hi hlt).congr (fun x hx => hold x (hin i hi hlt x hx)) fun _ _ _ _ => rfl

/-- A new block for a slot, with its part of the file. -/
theorem newSlot_fills (hk : L.IsInode k) (h : Ready L v s) (hm : m < totalBlockCount)
    (hstored : Stored L k content m u v bs) (hat : At content (first m) s)
    (hmore : first m < numChunks content)
    (hroom : cost (slotLevel m) (numChunks content - first m) ≤ (v.clear L .block).length) :
    Reaches L content
      (newSlot s.disk (L.inodeAddress k) m >>= fun r =>
        fillBlock (L.inodeAddress k) (slotLevel m) r.1 { s with disk := r.2 })
      (first m + (span (slotLevel m) - 1)) fun w =>
      ∃ bs', Stored L k content (m + 1) u w (bs ++ bs') ∧
        bs'.length = cost (slotLevel m) (numChunks content - first m) := by
  have hcost : 1 ≤ cost (slotLevel m) (numChunks content - first m) := by
    cases slotLevel m with
    | zero => exact le_rfl
    | succ depth => exact Nat.le_add_right ..
  obtain ⟨b, free, hclear⟩ := exists_clear (by omega : 1 ≤ (v.clear L .block).length)
  obtain ⟨d, hnew, hb, hpos, hready, -⟩ := newSlot_takes h hk hm hclear
  have hlays : Lays L k [] v (v.attach k m b) [b] := lays_attach hclear
  have hlength := hlays.length_clear
  rw [List.length_singleton] at hlength
  obtain ⟨t, w, ht, htw, hatt, bs', hfilled, hlength'⟩ :=
    fillBlock_fills hk content (slotLevel m) hready ⟨hat.buffer_eq, hat.rest_eq⟩ hmore hb hpos
      (fun hin => (hlays.clear_subset b hin).2 (List.mem_singleton_self b)) (by omega)
  refine ⟨t, w, ?_, htw, hatt, b :: bs', ?_, hlength'⟩
  · rw [hnew]
    exact ht
  · refine hstored.snoc hmore hlays ?_ (fun _ _ _ => rfl) hfilled
    simp only [View.attach, View.inode_setInode]

theorem Stored.skips (h : Stored L k content m v w bs)
    (hend : ∀ i, m ≤ i → i < m + n → numChunks content ≤ first i) :
    Stored L k content (m + n) v w bs := by
  induction n with
  | zero => exact h
  | succ n ih =>
      refine (ih fun i hi hlt => hend i hi (by omega)).skip (hend _ (Nat.le_add_right m n) ?_)
      omega

theorem first_of_le (hm : m ≤ directBlockCount) : first m = m := if_pos hm

theorem writeDirect_stored (hk : L.IsInode k) (n : ℕ) :
    ∀ {v : View} {s : Copying} {m : ℕ} {bs : List ℕ}, Ready L v s →
    Stored L k content m u v bs → At content m s → m + n ≤ directBlockCount →
    min n (numChunks content - m) ≤ (v.clear L .block).length →
    Reaches L content (writeDirect (L.inodeAddress k) n m s) (m + n) fun w =>
      ∃ bs', Stored L k content (m + n) u w (bs ++ bs') ∧
        bs'.length = min n (numChunks content - m) := by
  induction n with
  | zero =>
      intro v s m bs h hstored hat _ _
      rw [Nat.zero_min]
      exact ⟨s, v, rfl, h, hat, [], by rwa [List.append_nil], rfl⟩
  | succ n ih =>
      intro v s m bs h hstored hat hm hroom
      rw [writeDirect]
      by_cases hbuffer : s.buffer = []
      · have hend := hat.buffer_eq_nil_iff.mp hbuffer
        rw [if_pos hbuffer, Nat.sub_eq_zero_of_le hend, Nat.min_zero]
        refine ⟨s, v, rfl, h, hat.move hend (by omega), [], ?_, rfl⟩
        rw [List.append_nil]
        refine hstored.skips fun i hi hlt => ?_
        rw [first_of_le (by omega)]
        omega
      · have hmore := Nat.lt_of_not_le (mt hat.buffer_eq_nil_iff.mpr hbuffer)
        have hfirst : first m = m := first_of_le (by omega)
        have hlevel : slotLevel m = 0 := by
          rw [slotLevel]
          omega
        have htotal : directBlockCount ≤ totalBlockCount := by decide
        have hturn := newSlot_fills hk h (by omega) hstored (by rwa [hfirst]) (by rwa [hfirst]) (by
          rw [hlevel]
          change 1 ≤ _
          omega)
        rw [hfirst, hlevel] at hturn
        obtain ⟨t, v₁, ht, htv, hatt, bs₁, hstored₁, hlength₁⟩ := hturn
        have hlength := hstored₁.lays.length_clear
        rw [hstored.lays.length_clear, List.length_append, hlength₁] at hlength
        change bs.length + _ = bs.length + 1 + _ at hlength
        rw [if_neg hbuffer, show min (n + 1) (numChunks content - m) =
          1 + min n (numChunks content - (m + 1)) by omega,
          show m + (n + 1) = m + 1 + n by omega]
        obtain ⟨t', w, ht', htw, hatt', bs₂, hstored₂, hlength₂⟩ :=
          ih htv.fread.1 hstored₁ hatt.fread (by omega) (by omega)
        refine ⟨t', w, ?_, htw, hatt', bs₁ ++ bs₂, ?_, ?_⟩
        · obtain ⟨r, hnew, hcopy⟩ := Runs.bind_eq_ok_iff.mp ht
          rw [hnew]
          change copyDataToBlock s r.2 r.1 = .ok t at hcopy
          simp only [bind, Except.bind, hcopy]
          exact ht'
        · rwa [← List.append_assoc]
        · rw [List.length_append, hlength₁, hlength₂]
          rfl

/-- What a slot and the blocks behind it take. -/
def slotCost (content : List Byte) (m : ℕ) : ℕ :=
  if first m < numChunks content then cost (slotLevel m) (numChunks content - first m) else 0

theorem writeLevel_stored (hk : L.IsInode k) (h : Ready L v s) (hm : m < totalBlockCount)
    (depth : ℕ) (hdepth : slotLevel m = depth + 1)
    {fill : ℕ → Copying → Except Fault Copying}
    (hfill : ∀ block s, fill block s = fillCells (L.inodeAddress k)
      (fillBlock (L.inodeAddress k) depth) block numOfPtrsInBlock 0 s)
    (hstored : Stored L k content m u v bs) (hat : At content (first m) s)
    (hroom : slotCost content m ≤ (v.clear L .block).length) :
    Reaches L content (writeLevel (L.inodeAddress k) m fill s)
      (first m + (span (slotLevel m) - 1)) fun w =>
      ∃ bs', Stored L k content (m + 1) u w (bs ++ bs') ∧ bs'.length = slotCost content m := by
  rw [writeLevel]
  by_cases hbuffer : s.buffer = []
  · have hend := hat.buffer_eq_nil_iff.mp hbuffer
    rw [if_pos hbuffer, slotCost, if_neg (Nat.not_lt_of_le hend)]
    refine ⟨s, v, rfl, h, hat.move hend (by omega), [], ?_, rfl⟩
    rw [List.append_nil]
    exact hstored.skip hend
  · have hmore := Nat.lt_of_not_le (mt hat.buffer_eq_nil_iff.mpr hbuffer)
    rw [slotCost, if_pos hmore] at hroom ⊢
    obtain ⟨t, w, ht, hw⟩ := newSlot_fills hk h hm hstored hat hmore hroom
    refine ⟨t, w, ?_, hw⟩
    rw [if_neg hbuffer]
    simp only [hfill]
    rw [hdepth] at ht
    exact ht

/-- The blocks that the copy loops take for the file. -/
def fileCost (content : List Byte) : ℕ :=
  min directBlockCount (numChunks content) +
    (slotCost content indirectBlock +
      (slotCost content dbleIndirectBlock + slotCost content tpleIndirectBlock))

/-- The copy loops store the file behind the slots of the inode. -/
theorem copyFileData_stored (h : L.Shows d u) (hplain : ∀ b ∈ u.clear L .block, L.IsPlain b)
    (hk : L.IsInode k) (hroom : fileCost content ≤ (u.clear L .block).length) :
    ∃ d' w bs, copyFileData d (L.inodeAddress k) content = .ok d' ∧ L.Shows d' w ∧
      Stored L k content totalBlockCount u w bs ∧ bs.length = fileCost content := by
  obtain ⟨s, hs⟩ : ∃ s, Copying.fread ⟨d, [], content⟩ = s := ⟨_, rfl⟩
  have hready : Ready L u s := hs ▸ ready_fread h hplain
  have hat : At content 0 s := by
    subst hs
    exact ⟨rfl, rfl⟩
  rw [fileCost] at hroom ⊢
  have hroom₀ : ∀ {m v bs}, Stored L k content m u v bs →
      (u.clear L .block).length = bs.length + (v.clear L .block).length :=
    fun hstored => hstored.lays.length_clear
  obtain ⟨s₁, v₁, hs₁, hready₁, hat₁, bs₁, hstored₁, hlength₁⟩ :=
    writeDirect_stored hk directBlockCount hready stored_none hat (by decide)
      ((Nat.le_add_right ..).trans hroom)
  have hroom₁ := hroom₀ hstored₁
  rw [List.nil_append] at hroom₁
  obtain ⟨s₂, v₂, hs₂, hready₂, hat₂, bs₂, hstored₂, hlength₂⟩ :=
    writeLevel_stored hk hready₁ (show indirectBlock < totalBlockCount by decide) 0 rfl
      (fun block s => fillPtrBlock_eq _ block _ 0 s) hstored₁ hat₁ (by omega)
  have hroom₂ := hroom₀ hstored₂
  rw [List.nil_append, List.length_append] at hroom₂
  obtain ⟨s₃, v₃, hs₃, hready₃, hat₃, bs₃, hstored₃, hlength₃⟩ :=
    writeLevel_stored hk hready₂ (show dbleIndirectBlock < totalBlockCount by decide) 1
      rfl (fun block s => fillPtrPtrBlock_eq _ block _ 0 s) hstored₂ hat₂ (by omega)
  have hroom₃ := hroom₀ hstored₃
  rw [List.nil_append, List.length_append, List.length_append] at hroom₃
  obtain ⟨s₄, w, hs₄, hready₄, -, bs₄, hstored₄, hlength₄⟩ :=
    writeLevel_stored hk hready₃ (show tpleIndirectBlock < totalBlockCount by decide) 2
      rfl (fun block s => fillPtrPtrPtrBlock_eq _ block _ 0 s) hstored₃ hat₃ (by omega)
  refine ⟨s₄.disk, w, _, ?_, hready₄.shows, hstored₄, ?_⟩
  · rw [copyFileData]
    simp only [bind, Except.bind, hs, hs₁, hs₂, hs₃, hs₄]
  · simp only [List.length_append, List.length_nil, hlength₁, hlength₂, hlength₃, hlength₄]
    omega

end KernelProgramming.Ext2
