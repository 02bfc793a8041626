import KernelProgramming.Library.Loops
import Mathlib.Algebra.Order.Ring.Nat

/-!
# The matrix programs that the traces are taken from

`matmul.c` and `blocked.c` multiply square matrices, the second one block by
block.  Arrays are maps from indices, with whatever `malloc` leaves in them.
Addition and multiplication of the values are not assumed to obey any law, as
those of the type `double` do not.
-/

namespace KernelProgramming.TraceProgs

open Loops

variable {α : Type}

section Programs

variable [Zero α] [Add α] [Mul α]

/-- `Mat_mult`, which is given the array `C` as it was allocated. -/
def matMult (n : ℕ) (A B C : ℕ → α) : ℕ → α :=
  forLoop n (fun i C => forLoop n (fun j C =>
    forLoop n (fun k C =>
      Function.update C (i * n + j) (C (i * n + j) + A (i * n + k) * B (k * n + j)))
      (Function.update C (i * n + j) 0)) C) C

omit [Add α] [Mul α] in
/-- `Zero_C`, which also sets `C_p`. -/
def zeroC (nBar bSqr iBar jBar : ℕ) (C : ℕ → α) : (ℕ → α) × ℕ :=
  let cP := (iBar * nBar + jBar) * bSqr
  (fun x => if cP ≤ x ∧ x < cP + bSqr then 0 else C x, cP)

omit [Zero α] in
/-- `Mult_add`. -/
def multAdd (nBar b bSqr : ℕ) (A B : ℕ → α) (cP iBar jBar kBar : ℕ) (C : ℕ → α) : ℕ → α :=
  let aP := (iBar * nBar + kBar) * bSqr
  let bP := (kBar * nBar + jBar) * bSqr
  forLoop b (fun i C => forLoop b (fun j C => forLoop b (fun k C =>
    Function.update C (cP + i * b + j)
      (C (cP + i * b + j) + A (aP + i * b + k) * B (bP + k * b + j))) C) C) C

/-- `Blocked_mat_mult`. -/
def blockedMatMult (nBar b bSqr : ℕ) (A B C : ℕ → α) : ℕ → α :=
  forLoop nBar (fun iBar C => forLoop nBar (fun jBar C =>
    let zeroed := zeroC nBar bSqr iBar jBar C
    forLoop nBar (multAdd nBar b bSqr A B zeroed.2 iBar jBar) zeroed.1) C) C

end Programs

/-- The temporary array `T` of a conversion, the position that is read and the one that is
written. -/
structure Copying (α : Type) where
  T : ℕ → α
  src : ℕ
  dst : ℕ

/-- The innermost statements of `To_blocked` and of `From_blocked`. -/
def copyCell (A : ℕ → α) (s : Copying α) : Copying α :=
  ⟨Function.update s.T s.dst (A s.src), s.src + 1, s.dst + 1⟩

/-- The loops of `To_blocked` and of `From_blocked`: `setP` moves the pointer into the matrix in
row-major storage to the start of a block, `addP` moves it on at the end of a row of the block. -/
def forBlocks (n b : ℕ) (A : ℕ → α) (setP addP : ℕ → Copying α → Copying α) (s : Copying α) :
    Copying α :=
  let nBar := n / b
  forLoop nBar (fun iBar s => forLoop nBar (fun jBar s =>
    forLoop b (fun _ s => addP (n - b) (forLoop b (fun _ s => copyCell A s) s))
      (setP (iBar * b * n + jBar * b) s)) s) s

/-- `To_blocked`, with the contents of the allocated array `T`. -/
def toBlocked (n b : ℕ) (T A : ℕ → α) : ℕ → α :=
  let s := forBlocks n b A (fun p s => { s with src := p })
    (fun d s => { s with src := s.src + d }) ⟨T, 0, 0⟩
  fun x => if x < n * n then s.T x else A x

/-- `From_blocked`. -/
def fromBlocked (n b : ℕ) (T C : ℕ → α) : ℕ → α :=
  let s := forBlocks n b C (fun p s => { s with dst := p })
    (fun d s => { s with dst := s.dst + d }) ⟨T, 0, 0⟩
  fun x => if x < n * n then s.T x else C x

/-- The values that `Print_matrix` prints, row by row. -/
def printMatrix (n : ℕ) (C : ℕ → α) : List (List α) :=
  (List.range n).map fun i => (List.range n).map fun j => C (i * n + j)

/-! ## The two programs -/

/-- How a program ends without a product: with its usage, or after arithmetic that has
no result in the type `int`. -/
inductive Stop
  | usage
  | arithmetic
  deriving DecidableEq

/-- The number of entries of a square matrix.  No index into it is greater. -/
def square (n : ℕ) : Except Stop ℕ :=
  if n * n < 2 ^ 31 then .ok (n * n) else .error .arithmetic

/-- `n_bar` and `b_sqr`, which `main` of `blocked` computes once it has checked the orders. -/
def blockSizes (n b : ℕ) : Except Stop (ℕ × ℕ) :=
  if b = 0 then .error .arithmetic
  else if n % b ≠ 0 then .error .usage
  else do
    let _ ← square n
    let bSqr ← square b
    .ok (n / b, bSqr)

section Mains

variable [Zero α] [Add α] [Mul α]

/-- What `matmul` prints when it is compiled with the flag DEBUG. -/
def matmulMain (n : ℕ) (A B C : ℕ → α) : Except Stop (List (List α)) := do
  let _ ← square n
  .ok (printMatrix n (matMult n A B C))

/-- What `blocked` prints when it is compiled with the flag DEBUG.  `TA`, `TB` and `TC` are
the contents of the temporary arrays. -/
def blockedMain (n b : ℕ) (TA TB TC A B C : ℕ → α) : Except Stop (List (List α)) := do
  let (nBar, bSqr) ← blockSizes n b
  let A := toBlocked n b TA A
  let B := toBlocked n b TB B
  let C := blockedMatMult nBar b bSqr A B C
  .ok (printMatrix n (fromBlocked n b TC C))

/-- The array `C` of `blocked` when it is compiled without the flag: `A` and `B` are
not converted. -/
def blockedStored (n b : ℕ) (A B C : ℕ → α) : Except Stop (ℕ → α) := do
  let (nBar, bSqr) ← blockSizes n b
  .ok (blockedMatMult nBar b bSqr A B C)

end Mains

/-! ## Blocked storage -/

/-- Where the entry at position `x` of a blocked matrix stands in row-major storage. -/
def rowMajor (n b x : ℕ) : ℕ :=
  (x / (b * b) / (n / b) * b + x % (b * b) / b) * n +
    (x / (b * b) % (n / b) * b + x % (b * b) % b)

section Storage

variable {n b nBar : ℕ} {A C T : ℕ → α}

/-- The position of an entry of block row `iBar` and block column `jBar`. -/
theorem rowMajor_cell (hn : n = nBar * b) {iBar jBar i j : ℕ} (hjBar : jBar < nBar) (hi : i < b)
    (hj : j < b) :
    rowMajor n b ((iBar * nBar + jBar) * (b * b) + (i * b + j)) =
      (iBar * b + i) * n + (jBar * b + j) := by
  have hcell := cell_lt hi hj
  have hdiv : n / b = nBar := by rw [hn, Nat.mul_div_cancel _ (Nat.zero_lt_of_lt hi)]
  rw [rowMajor, hdiv, row_of hcell, col_of hcell, row_of hjBar, col_of hjBar, row_of hj, col_of hj]

/-- Each position belongs to a row and a column of a block. -/
theorem exists_cell (hn : n = nBar * b) {x : ℕ} (hx : x < n * n) :
    ∃ iBar jBar i j, iBar < nBar ∧ jBar < nBar ∧ i < b ∧ j < b ∧
      x = (iBar * nBar + jBar) * (b * b) + (i * b + j) := by
  have hsize : n * n = nBar * nBar * (b * b) := by rw [hn, Nat.mul_mul_mul_comm]
  have hnpos : 0 < n := Nat.pos_of_ne_zero fun h => by simp [h] at hx
  have hb : 0 < b := Nat.pos_of_ne_zero fun h => by simp [h] at hn; omega
  have hbar : 0 < nBar := Nat.pos_of_ne_zero fun h => by simp [h] at hn; omega
  refine ⟨x / (b * b) / nBar, x / (b * b) % nBar, x % (b * b) / b, x % (b * b) % b,
    ?_, Nat.mod_lt _ hbar, ?_, Nat.mod_lt _ hb, ?_⟩
  · exact Nat.div_lt_of_lt_mul (Nat.div_lt_of_lt_mul (by rwa [Nat.mul_comm, ← hsize]))
  · exact Nat.div_lt_of_lt_mul (Nat.mod_lt _ (Nat.mul_pos hb hb))
  · rw [Nat.div_add_mod', Nat.div_add_mod', Nat.div_add_mod']

theorem rowMajor_inj (hn : n = nBar * b) {x y : ℕ} (hx : x < n * n) (hy : y < n * n)
    (h : rowMajor n b x = rowMajor n b y) : x = y := by
  obtain ⟨iBar, jBar, i, j, -, hjBar, hi, hj, rfl⟩ := exists_cell hn hx
  obtain ⟨iBar', jBar', i', j', -, hjBar', hi', hj', rfl⟩ := exists_cell hn hy
  rw [rowMajor_cell hn hjBar hi hj, rowMajor_cell hn hjBar' hi' hj'] at h
  obtain ⟨hrow, hcol⟩ := cell_inj (hn ▸ cell_lt hjBar hj) (hn ▸ cell_lt hjBar' hj') h
  obtain ⟨rfl, rfl⟩ := cell_inj hi hi' hrow
  obtain ⟨rfl, rfl⟩ := cell_inj hj hj' hcol
  rfl

theorem exists_rowMajor (hn : n = nBar * b) {y : ℕ} (hy : y < n * n) :
    ∃ x < n * n, rowMajor n b x = y := by
  have hnpos : 0 < n := Nat.pos_of_ne_zero fun h => by simp [h] at hy
  have hb : 0 < b := Nat.pos_of_ne_zero fun h => by simp [h] at hn; omega
  have hrow : y / n < nBar * b := hn ▸ Nat.div_lt_of_lt_mul hy
  have hcol : y % n < nBar * b := hn ▸ Nat.mod_lt y hnpos
  have hiBar : y / n / b < nBar := Nat.div_lt_of_lt_mul (by rwa [Nat.mul_comm])
  have hjBar : y % n / b < nBar := Nat.div_lt_of_lt_mul (by rwa [Nat.mul_comm])
  refine ⟨(y / n / b * nBar + y % n / b) * (b * b) + (y / n % b * b + y % n % b), ?_, ?_⟩
  · have hlt := cell_lt (cell_lt hiBar hjBar) (cell_lt (Nat.mod_lt (y / n) hb) (Nat.mod_lt (y % n) hb))
    rwa [← Nat.mul_mul_mul_comm, ← hn] at hlt
  · rw [rowMajor_cell hn hjBar (Nat.mod_lt _ hb) (Nat.mod_lt _ hb), Nat.div_add_mod',
      Nat.div_add_mod', Nat.div_add_mod']

/-- What the loops of a conversion keep, with `x` entries copied and the pointer `ptr` into the
matrix in row-major storage. -/
theorem forBlocks_keeps (hn : n = nBar * b) (hb : 0 < b) (setP addP : ℕ → Copying α → Copying α)
    (ptr : Copying α → ℕ) (Inv : ℕ → Copying α → Prop)
    (hset : ∀ x p s, Inv x s → Inv x (setP p s) ∧ ptr (setP p s) = p)
    (hadd : ∀ x d s, Inv x s → Inv x (addP d s) ∧ ptr (addP d s) = ptr s + d)
    (hcell : ∀ x s, x < n * n → Inv x s → ptr s = rowMajor n b x →
      Inv (x + 1) (copyCell A s) ∧ ptr (copyCell A s) = ptr s + 1)
    {s : Copying α} (hs : Inv 0 s) : Inv (n * n) (forBlocks n b A setP addP s) := by
  have hdiv : n / b = nBar := by rw [hn, Nat.mul_div_cancel _ hb]
  have hsize : n * n = nBar * nBar * (b * b) := by rw [hn, Nat.mul_mul_mul_comm]
  rw [forBlocks, hdiv, hsize]
  refine forLoop_keeps (fun iBar s => Inv (iBar * nBar * (b * b)) s) (by simpa using hs) ?_
  intro iBar s hiBar hs
  rw [Nat.succ_mul]
  refine forLoop_keeps (fun jBar s => Inv ((iBar * nBar + jBar) * (b * b)) s) hs ?_
  intro jBar s hjBar hs
  obtain ⟨hstart, hptr⟩ := hset _ (iBar * b * n + jBar * b) s hs
  have hrows := forLoop_keeps (n := b)
    (f := fun _ s => addP (n - b) (forLoop b (fun _ s => copyCell A s) s))
    (fun i s => Inv ((iBar * nBar + jBar) * (b * b) + i * b) s ∧
      ptr s = (iBar * b + i) * n + jBar * b) ⟨by simpa using hstart, by simpa using hptr⟩ ?_
  · have hblock := hrows.1
    rwa [← Nat.succ_mul] at hblock
  · rintro i s hi ⟨hs, hptr⟩
    have hcols := forLoop_keeps (n := b) (f := fun _ s => copyCell A s)
      (fun j s => Inv ((iBar * nBar + jBar) * (b * b) + (i * b + j)) s ∧
        ptr s = (iBar * b + i) * n + (jBar * b + j)) ⟨hs, hptr⟩ ?_
    · obtain ⟨hend, hptr'⟩ := hcols
      obtain ⟨hnext, hptr''⟩ := hadd _ (n - b) _ hend
      refine ⟨by rwa [Nat.succ_mul], ?_⟩
      have hle : b ≤ n := hn ▸ Nat.le_mul_of_pos_left b (Nat.zero_lt_of_lt hjBar)
      rw [hptr'', hptr', ← Nat.add_assoc (iBar * b) i 1, Nat.succ_mul]
      omega
    · rintro j s hj ⟨hs, hptr⟩
      have hx : (iBar * nBar + jBar) * (b * b) + (i * b + j) < n * n :=
        hsize ▸ cell_lt (cell_lt hiBar hjBar) (cell_lt hi hj)
      obtain ⟨hnext, hptr'⟩ := hcell _ s hx hs (hptr.trans (rowMajor_cell hn hjBar hi hj).symm)
      exact ⟨hnext, by rw [hptr', hptr, Nat.add_assoc, Nat.add_assoc]⟩

/-- `To_blocked` puts the blocks one after the other. -/
theorem toBlocked_eq (hn : n = nBar * b) (hb : 0 < b) {x : ℕ} (hx : x < n * n) :
    toBlocked n b T A x = A (rowMajor n b x) := by
  simp only [toBlocked, if_pos hx]
  have hinv := forBlocks_keeps (A := A) (s := ⟨T, 0, 0⟩) hn hb
    (fun p s => { s with src := p }) (fun d s => { s with src := s.src + d }) Copying.src
    (fun y s => s.dst = y ∧ ∀ z < y, s.T z = A (rowMajor n b z))
    (fun _ _ _ h => ⟨h, rfl⟩) (fun _ _ _ h => ⟨h, rfl⟩) ?_ ⟨rfl, fun z hz => absurd hz z.not_lt_zero⟩
  · exact hinv.2 x hx
  · rintro y s hy ⟨rfl, hT⟩ hptr
    refine ⟨⟨rfl, fun z hz => ?_⟩, rfl⟩
    rcases Nat.eq_or_lt_of_le (Nat.le_of_lt_succ hz) with rfl | hz
    · simp only [copyCell, Function.update_self, hptr]
    · simp only [copyCell, Function.update_of_ne hz.ne, hT z hz]

/-- `From_blocked` puts each entry back to its row and its column. -/
theorem fromBlocked_eq (hn : n = nBar * b) (hb : 0 < b) {x : ℕ} (hx : x < n * n) :
    fromBlocked n b T C (rowMajor n b x) = C x := by
  have hinv := forBlocks_keeps (A := C) (s := ⟨T, 0, 0⟩) hn hb
    (fun p s => { s with dst := p }) (fun d s => { s with dst := s.dst + d }) Copying.dst
    (fun y s => s.src = y ∧ ∀ z < n * n, z < y → s.T (rowMajor n b z) = C z)
    (fun _ _ _ h => ⟨h, rfl⟩) (fun _ _ _ h => ⟨h, rfl⟩) ?_
    ⟨rfl, fun z _ hz => absurd hz z.not_lt_zero⟩
  · have hlt : rowMajor n b x < n * n := by
      obtain ⟨iBar, jBar, i, j, hiBar, hjBar, hi, hj, rfl⟩ := exists_cell hn hx
      rw [rowMajor_cell hn hjBar hi hj]
      exact cell_lt (hn ▸ cell_lt hiBar hi) (hn ▸ cell_lt hjBar hj)
    simp only [fromBlocked, if_pos hlt]
    exact hinv.2 x hx hx
  · rintro y s hy ⟨rfl, hT⟩ hptr
    refine ⟨⟨rfl, fun z hzn hz => ?_⟩, rfl⟩
    rcases Nat.eq_or_lt_of_le (Nat.le_of_lt_succ hz) with rfl | hz
    · simp only [copyCell, hptr, Function.update_self]
    · have hne : rowMajor n b z ≠ s.dst := fun h => hz.ne (rowMajor_inj hn hzn hy (h.trans hptr))
      simp only [copyCell, Function.update_of_ne hne, hT z hzn hz]

end Storage

/-! ## The products -/

section Products

variable [Zero α] [Add α] [Mul α] {n b nBar : ℕ} {A B C : ℕ → α}

/-- The entry of the product in row `i` and column `j`, summed up from left to right. -/
def entry (n : ℕ) (A B : ℕ → α) (i j : ℕ) : α :=
  forLoop n (fun k sum => sum + A (i * n + k) * B (k * n + j)) 0

theorem matMult_eq {x : ℕ} (hx : x < n * n) :
    matMult n A B C x = entry n A B (x / n) (x % n) := by
  have hcell : matMult n A B C =
      forLoop n (fun i C => forLoop n (fun j C =>
        Function.update C (i * n + j) (entry n A B i j)) C) C := by
    refine forLoop_congr fun i C _ => forLoop_congr fun j C _ => ?_
    rw [forLoop_update (g := fun k sum => sum + A (i * n + k) * B (k * n + j)),
      Function.update_idem, Function.update_self]
    rfl
  have hrows : matMult n A B C = forLoop (n * n) (fun y C =>
      Function.update C (0 + y) (entry n A B (y / n) (y % n))) C := by
    rw [hcell, forLoop_mul]
    refine forLoop_congr fun i C _ => forLoop_congr fun j C hj => ?_
    rw [row_of hj, col_of hj, Nat.zero_add]
  rw [hrows, forLoop_cells (g := fun y _ => entry n A B (y / n) (y % n)), if_pos (by omega),
    Nat.sub_zero]

omit [Zero α] in
/-- What `Mult_add` adds to the entry in row `i` and column `j` of the block. -/
def addRow (nBar b : ℕ) (A B : ℕ → α) (iBar jBar kBar i j : ℕ) (sum : α) : α :=
  forLoop b (fun k sum => sum + A ((iBar * nBar + kBar) * (b * b) + i * b + k) *
    B ((kBar * nBar + jBar) * (b * b) + k * b + j)) sum

omit [Zero α] in
theorem multAdd_eq (cP iBar jBar kBar x : ℕ) :
    multAdd nBar b (b * b) A B cP iBar jBar kBar C x =
      if cP ≤ x ∧ x < cP + b * b then
        addRow nBar b A B iBar jBar kBar ((x - cP) / b) ((x - cP) % b) (C x) else C x := by
  have hcells : multAdd nBar b (b * b) A B cP iBar jBar kBar C =
      forLoop (b * b) (fun y C => Function.update C (cP + y)
        (addRow nBar b A B iBar jBar kBar (y / b) (y % b) (C (cP + y)))) C := by
    rw [forLoop_mul]
    refine forLoop_congr fun i C _ => forLoop_congr fun j C hj => ?_
    rw [forLoop_update (g := fun k sum => sum + A ((iBar * nBar + kBar) * (b * b) + i * b + k) *
      B ((kBar * nBar + jBar) * (b * b) + k * b + j)), row_of hj, col_of hj, Nat.add_assoc]
    rfl
  rw [hcells, forLoop_cells]

/-- The entry in row `i` and column `j` of a block of the product. -/
def blockEntry (nBar b : ℕ) (A B : ℕ → α) (iBar jBar i j : ℕ) : α :=
  forLoop nBar (fun kBar => addRow nBar b A B iBar jBar kBar i j) 0

/-- `Zero_C` and all calls of `Mult_add` for one block. -/
theorem block_eq (iBar jBar x : ℕ) :
    forLoop nBar (multAdd nBar b (b * b) A B (zeroC nBar (b * b) iBar jBar C).2 iBar jBar)
        (zeroC nBar (b * b) iBar jBar C).1 x =
      if (iBar * nBar + jBar) * (b * b) ≤ x ∧ x < (iBar * nBar + jBar) * (b * b) + b * b then
        blockEntry nBar b A B iBar jBar ((x - (iBar * nBar + jBar) * (b * b)) / b)
          ((x - (iBar * nBar + jBar) * (b * b)) % b)
      else C x := by
  have hsum : ∀ m, forLoop m (multAdd nBar b (b * b) A B (zeroC nBar (b * b) iBar jBar C).2 iBar jBar)
        (zeroC nBar (b * b) iBar jBar C).1 x =
      if (iBar * nBar + jBar) * (b * b) ≤ x ∧ x < (iBar * nBar + jBar) * (b * b) + b * b then
        forLoop m (fun kBar => addRow nBar b A B iBar jBar kBar
          ((x - (iBar * nBar + jBar) * (b * b)) / b)
          ((x - (iBar * nBar + jBar) * (b * b)) % b)) 0
      else C x := by
    intro m
    induction m with
    | zero => rfl
    | succ m ih =>
        rw [forLoop, multAdd_eq, ih]
        simp only [zeroC]
        split_ifs
        · rfl
        · rfl
  exact hsum nBar

/-- The blocks are filled one after the other. -/
theorem blockedMatMult_eq {q y : ℕ} (hq : q < nBar * nBar) (hy : y < b * b) :
    blockedMatMult nBar b (b * b) A B C (q * (b * b) + y) =
      blockEntry nBar b A B (q / nBar) (q % nBar) (y / b) (y % b) := by
  rw [blockedMatMult, forLoop_rows]
  have hinv := forLoop_keeps (n := nBar * nBar) (s := C)
    (f := fun q C => forLoop nBar (multAdd nBar b (b * b) A B
      (zeroC nBar (b * b) (q / nBar) (q % nBar) C).2 (q / nBar) (q % nBar))
      (zeroC nBar (b * b) (q / nBar) (q % nBar) C).1)
    (fun m C => ∀ q < m, ∀ y < b * b, C (q * (b * b) + y) =
      blockEntry nBar b A B (q / nBar) (q % nBar) (y / b) (y % b))
    (fun q hq => absurd hq q.not_lt_zero) ?_
  · exact hinv q hq y hy
  · intro m C hm hC q hq y hy
    rw [block_eq, Nat.div_add_mod']
    rcases Nat.eq_or_lt_of_le (Nat.le_of_lt_succ hq) with rfl | hq
    · rw [if_pos (by omega), Nat.add_sub_cancel_left]
    · have hlt := cell_lt hq hy
      rw [if_neg (by omega), hC q hq y hy]

/-- Block by block, the same products are added in the same order. -/
theorem blockEntry_eq (hn : n = nBar * b) {A' B' : ℕ → α}
    (hA : ∀ x < n * n, A' x = A (rowMajor n b x)) (hB : ∀ x < n * n, B' x = B (rowMajor n b x))
    {iBar jBar i j : ℕ} (hiBar : iBar < nBar) (hjBar : jBar < nBar) (hi : i < b) (hj : j < b) :
    blockEntry nBar b A' B' iBar jBar i j = entry n A B (iBar * b + i) (jBar * b + j) := by
  have hsize : n * n = nBar * nBar * (b * b) := by rw [hn, Nat.mul_mul_mul_comm]
  have hentry : entry n A B (iBar * b + i) (jBar * b + j) =
      forLoop nBar (fun kBar sum => forLoop b (fun k sum => sum +
        A ((iBar * b + i) * n + (kBar * b + k)) * B ((kBar * b + k) * n + (jBar * b + j))) sum) 0 := by
    rw [← forLoop_mul (f := fun k sum => sum +
      A ((iBar * b + i) * n + k) * B (k * n + (jBar * b + j))), ← hn]
    rfl
  rw [hentry]
  refine forLoop_congr fun kBar sum hkBar => forLoop_congr fun k sum hk => ?_
  have hxA := hsize ▸ cell_lt (cell_lt hiBar hkBar) (cell_lt hi hk)
  have hxB := hsize ▸ cell_lt (cell_lt hkBar hjBar) (cell_lt hk hj)
  rw [Nat.add_assoc, Nat.add_assoc, hA _ hxA, hB _ hxB, rowMajor_cell hn hkBar hi hk,
    rowMajor_cell hn hjBar hk hj]

/-- `Blocked_mat_mult` computes the product of the matrices that `A'` and `B'` store. -/
theorem blockedMatMult_rowMajor (hn : n = nBar * b) {A' B' C' : ℕ → α}
    (hA : ∀ x < n * n, A' x = A (rowMajor n b x)) (hB : ∀ x < n * n, B' x = B (rowMajor n b x))
    {x : ℕ} (hx : x < n * n) :
    blockedMatMult nBar b (b * b) A' B' C' x = matMult n A B C (rowMajor n b x) := by
  obtain ⟨iBar, jBar, i, j, hiBar, hjBar, hi, hj, rfl⟩ := exists_cell hn hx
  have hrow : iBar * b + i < n := hn ▸ cell_lt hiBar hi
  have hcol : jBar * b + j < n := hn ▸ cell_lt hjBar hj
  rw [rowMajor_cell hn hjBar hi hj, matMult_eq (cell_lt hrow hcol), row_of hcol, col_of hcol,
    blockedMatMult_eq (cell_lt hiBar hjBar) (cell_lt hi hj), row_of hjBar, col_of hjBar,
    row_of hj, col_of hj, blockEntry_eq hn hA hB hiBar hjBar hi hj]

omit [Zero α] [Add α] [Mul α] in
theorem blockSizes_eq (hb : 0 < b) (hsize : n * n < 2 ^ 31) (hsqr : b * b < 2 ^ 31) :
    blockSizes n b = if b ∣ n then .ok (n / b, b * b) else .error .usage := by
  rw [blockSizes, if_neg hb.ne', ite_not, square, square, if_pos hsize, if_pos hsqr]
  exact if_congr Nat.dvd_iff_mod_eq_zero.symm rfl rfl

/-- Whatever addition and multiplication are, and whatever the allocated memory holds, the two
programs print the same product. -/
theorem blocked_prints_product (hb : 0 < b) (hsize : n * n < 2 ^ 31) (hsqr : b * b < 2 ^ 31)
    (TA TB TC A B C C' : ℕ → α) :
    blockedMain n b TA TB TC A B C =
      if b ∣ n then matmulMain n A B C' else .error .usage := by
  rw [blockedMain, blockSizes_eq hb hsize hsqr]
  split_ifs with hdvd
  swap
  · rfl
  rw [matmulMain, square, if_pos hsize]
  have hn : n = n / b * b := (Nat.div_mul_cancel hdvd).symm
  refine congrArg Except.ok (List.map_congr_left fun i hi => List.map_congr_left fun j hj => ?_)
  obtain ⟨x, hx, hxy⟩ := exists_rowMajor hn
    (cell_lt (List.mem_range.mp hi) (List.mem_range.mp hj))
  rw [← hxy, fromBlocked_eq hn hb hx]
  exact blockedMatMult_rowMajor hn (fun y hy => toBlocked_eq hn hb hy)
    (fun y hy => toBlocked_eq hn hb hy) hx

theorem blocked_prints_product_two :
    blockedMain 4 2 (fun _ => 7) (fun _ => 7) (fun _ => 7) (fun x => x) (fun x => x + 1)
      (fun _ => 7) =
      if 2 ∣ 4 then matmulMain 4 (fun x => x) (fun x => x + 1) fun _ => 5 else .error .usage :=
  blocked_prints_product (by decide) (by decide) (by decide) _ _ _ _ _ _ _

/-- Without the flag, `A` and `B` are taken as they are for matrices in blocked storage, and so
is their product; the conversions undo each other. -/
theorem blocked_asStored (hb : 0 < b) (hdvd : b ∣ n) (hsize : n * n < 2 ^ 31)
    (hsqr : b * b < 2 ^ 31) (T TA TB A B C C' : ℕ → α) :
    ∃ P, blockedStored n b A B C = .ok P ∧ ∀ x < n * n,
      P x = toBlocked n b T (matMult n (fromBlocked n b TA A) (fromBlocked n b TB B) C') x ∧
        toBlocked n b T (fromBlocked n b TA A) x = A x ∧
        fromBlocked n b T (toBlocked n b TA A) x = A x := by
  have hn : n = n / b * b := (Nat.div_mul_cancel hdvd).symm
  refine ⟨blockedMatMult (n / b) b (b * b) A B C, ?_, fun x hx => ⟨?_, ?_, ?_⟩⟩
  · rw [blockedStored, blockSizes_eq hb hsize hsqr, if_pos hdvd]
    rfl
  · rw [toBlocked_eq hn hb hx]
    exact blockedMatMult_rowMajor hn (fun y hy => (fromBlocked_eq hn hb hy).symm)
      (fun y hy => (fromBlocked_eq hn hb hy).symm) hx
  · rw [toBlocked_eq hn hb hx, fromBlocked_eq hn hb hx]
  · obtain ⟨y, hy, rfl⟩ := exists_rowMajor hn hx
    rw [fromBlocked_eq hn hb hy, toBlocked_eq hn hb hy]

theorem blocked_asStored_two :
    ∃ P, blockedStored 4 2 (fun x => x) (fun x => x + 1) (fun _ => 7) = .ok P ∧ ∀ x < 4 * 4,
      P x = toBlocked 4 2 (fun _ => 7) (matMult 4 (fromBlocked 4 2 (fun _ => 7) fun x => x)
          (fromBlocked 4 2 (fun _ => 7) fun x => x + 1) fun _ => 5) x ∧
        toBlocked 4 2 (fun _ => 7) (fromBlocked 4 2 (fun _ => 7) fun x => x) x = x ∧
        fromBlocked 4 2 (fun _ => 7) (toBlocked 4 2 (fun _ => 7) fun x => x) x = x :=
  blocked_asStored (by decide) (by decide) (by decide) (by decide) _ _ _ _ _ _ _

end Products

end KernelProgramming.TraceProgs
