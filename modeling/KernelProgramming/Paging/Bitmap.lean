import Mathlib.Algebra.Group.Nat.Defs
import Mathlib.Data.List.Basic
import Mathlib.Tactic.Common

/-!
# The bitmap of the swap file

`swap.c` keeps one bit for each page slot of the swap file, packed into
32-bit words; the padding bits of a partial last word are marked in use once
and for all.  The module embeds the bitmap functions and shows that over a
well-formed bitmap they act as the obvious operations on a set of indices.
-/

namespace KernelProgramming.Paging

/-- The ways in which the simulator stops before its trace is replayed:
`exit(1)`, a failing `assert`, and an access outside the objects of the
program (a null pointer, an index past an array). -/
inductive Halt where
  | exit
  | assertion
  | wild
  deriving DecidableEq, Repr

def bitsPerWord : ℕ := 32

def wordAllbits : BitVec 32 := 0xffffffff#32

/-- `DIVROUNDUP` on `unsigned` operands; the sum wraps at `2 ^ 32`. -/
def divRoundUp (a b : ℕ) : ℕ := (a + b - 1) % 2 ^ 32 / b

structure Bitmap where
  nbits : ℕ
  v : List (BitVec 32)
  deriving DecidableEq, Repr

namespace Bitmap

/-- `b->v[ix]`. -/
def word (b : Bitmap) (ix : ℕ) : BitVec 32 := b.v.getD ix 0#32

def setWord (b : Bitmap) (ix : ℕ) (x : BitVec 32) : Bitmap := { b with v := b.v.set ix x }

end Bitmap

def bitmapCreate (nbits : ℕ) : Except Halt Bitmap :=
  let words := divRoundUp nbits bitsPerWord
  let b : Bitmap := ⟨nbits, List.replicate words 0#32⟩
  if words > nbits / bitsPerWord then
    let ix := words - 1
    let overbits := nbits - ix * bitsPerWord
    if nbits / bitsPerWord = words - 1 ∧ overbits > 0 ∧ overbits < bitsPerWord then
      -- the bits `overbits .. 31` of the last word stand for no slot
      .ok (b.setWord ix ((List.range' overbits (bitsPerWord - overbits)).foldl
        (fun x j => x ||| 1#32 <<< j) (b.word ix)))
    else .error .assertion
  else .ok b

/-- `none` is the return value 1 (no free bit). -/
def bitmapAlloc (b : Bitmap) : Except Halt (Option (ℕ × Bitmap)) :=
  let maxix := divRoundUp b.nbits bitsPerWord
  match (List.range maxix).find? (fun ix => b.word ix ≠ wordAllbits) with
  | none => .ok none
  | some ix =>
      match (List.range bitsPerWord).find? (fun offset => b.word ix &&& 1#32 <<< offset = 0#32) with
      | none => .error .assertion
      | some offset =>
          let index := ix * bitsPerWord + offset
          if index < b.nbits then
            .ok (some (index, b.setWord ix (b.word ix ||| 1#32 <<< offset)))
          else .error .assertion

/-- The word index and the mask of a bit number. -/
def bitmapTranslate (bitno : ℕ) : ℕ × BitVec 32 :=
  (bitno / bitsPerWord, 1#32 <<< (bitno % bitsPerWord))

def bitmapMark (b : Bitmap) (index : ℕ) : Except Halt Bitmap :=
  if index < b.nbits then
    let (ix, mask) := bitmapTranslate index
    if b.word ix &&& mask = 0#32 then .ok (b.setWord ix (b.word ix ||| mask))
    else .error .assertion
  else .error .assertion

def bitmapUnmark (b : Bitmap) (index : ℕ) : Except Halt Bitmap :=
  if index < b.nbits then
    let (ix, mask) := bitmapTranslate index
    if b.word ix &&& mask ≠ 0#32 then .ok (b.setWord ix (b.word ix &&& ~~~mask))
    else .error .assertion
  else .error .assertion

def bitmapIsset (b : Bitmap) (index : ℕ) : BitVec 32 :=
  let (ix, mask) := bitmapTranslate index
  b.word ix &&& mask

namespace Bitmap

/-- Bit `i` of the packed words. -/
def bit (b : Bitmap) (i : ℕ) : Bool := (b.word (i / bitsPerWord)).getLsbD (i % bitsPerWord)

/-- As many words as the bits need, and every padding bit set. -/
structure WellFormed (b : Bitmap) : Prop where
  small : b.nbits + 31 < 2 ^ 32
  length_eq : b.v.length = (b.nbits + 31) / 32
  padding : ∀ i, b.nbits ≤ i → i < b.v.length * 32 → b.bit i = true

theorem WellFormed.divRoundUp_eq {b : Bitmap} (hb : b.WellFormed) :
    divRoundUp b.nbits bitsPerWord = b.v.length := by
  have hs := hb.small
  rw [hb.length_eq, divRoundUp, bitsPerWord, Nat.mod_eq_of_lt (by omega)]
  congr 1

theorem word_setWord (b : Bitmap) {ix : ℕ} (hix : ix < b.v.length) (x : BitVec 32) (j : ℕ) :
    (b.setWord ix x).word j = if j = ix then x else b.word j := by
  simp only [word, setWord, List.getD_eq_getElem?_getD, List.getElem?_set]
  by_cases hj : ix = j
  · subst hj
    simp [hix]
  · simp [hj, Ne.symm hj]

theorem getLsbD_mask {i : ℕ} (hi : i < 32) (j : ℕ) :
    (1#32 <<< i).getLsbD j = decide (j = i) := by
  rw [← BitVec.twoPow_eq, BitVec.getLsbD_twoPow]
  simp [hi, eq_comm]

theorem and_mask_eq_zero_iff (x : BitVec 32) {i : ℕ} (hi : i < 32) :
    x &&& 1#32 <<< i = 0#32 ↔ x.getLsbD i = false := by
  constructor
  · intro h
    simpa [getLsbD_mask hi] using congrArg (fun y => y.getLsbD i) h
  · intro h
    apply BitVec.eq_of_getLsbD_eq
    intro j _
    rw [BitVec.getLsbD_and, getLsbD_mask hi, BitVec.getLsbD_zero]
    by_cases hji : j = i
    · simp [hji, h]
    · simp [hji]

theorem getLsbD_or_mask (x : BitVec 32) {i : ℕ} (hi : i < 32) (j : ℕ) :
    (x ||| 1#32 <<< i).getLsbD j = (x.getLsbD j || decide (j = i)) := by
  rw [BitVec.getLsbD_or, getLsbD_mask hi]

/-- A word with a clear bit is not all ones, and conversely. -/
theorem ne_wordAllbits_iff (x : BitVec 32) :
    x ≠ wordAllbits ↔ ∃ i < 32, x.getLsbD i = false := by
  constructor
  · intro h
    by_contra hall
    push Not at hall
    apply h
    apply BitVec.eq_of_getLsbD_eq
    intro i hi
    have hx : x.getLsbD i = true := by simpa using hall i hi
    have hones : wordAllbits = BitVec.allOnes 32 := rfl
    rw [hx, hones, BitVec.getLsbD_allOnes]
    simp [hi]
  · rintro ⟨i, hi, hx⟩ rfl
    have hones : wordAllbits = BitVec.allOnes 32 := rfl
    rw [hones, BitVec.getLsbD_allOnes] at hx
    simp [hi] at hx

theorem bit_setWord_or (b : Bitmap) {ix offset : ℕ} (hix : ix < b.v.length)
    (hoff : offset < 32) (i : ℕ) :
    (b.setWord ix (b.word ix ||| 1#32 <<< offset)).bit i =
      (b.bit i || decide (i = ix * 32 + offset)) := by
  rw [bit, word_setWord b hix, bit, bitsPerWord]
  by_cases hw : i / 32 = ix
  · rw [if_pos hw, getLsbD_or_mask _ hoff, hw]
    congr 2
    rw [eq_iff_iff]
    omega
  · rw [if_neg hw]
    have hne : i ≠ ix * 32 + offset := by omega
    simp [hne]

theorem WellFormed.setBit {b : Bitmap} (hb : b.WellFormed) {ix offset : ℕ}
    (hix : ix < b.v.length) (hoff : offset < 32) :
    (b.setWord ix (b.word ix ||| 1#32 <<< offset)).WellFormed where
  small := hb.small
  length_eq := by simpa [setWord] using hb.length_eq
  padding := by
    intro i hlo hhi
    rw [bit_setWord_or b hix hoff]
    have hold := hb.padding i hlo (by simpa [setWord] using hhi)
    simp [hold]

/-! ## Allocation takes the least free index -/

/-- With a free slot, the word search and the bit search both succeed, and
together they find the least free index. -/
theorem WellFormed.exists_first_clear {b : Bitmap} (hb : b.WellFormed)
    (hfree : ∃ i < b.nbits, b.bit i = false) :
    ∃ ix offset, (List.range b.v.length).find? (fun ix => b.word ix ≠ wordAllbits) = some ix ∧
      (List.range bitsPerWord).find?
        (fun offset => b.word ix &&& 1#32 <<< offset = 0#32) = some offset ∧
      ix < b.v.length ∧ offset < 32 ∧ ix * 32 + offset < b.nbits ∧
      b.bit (ix * 32 + offset) = false ∧ ∀ j < ix * 32 + offset, b.bit j = true := by
  have hlen := hb.length_eq
  obtain ⟨i, hi, hbit⟩ := hfree
  have hword : ((List.range b.v.length).find? (fun ix => b.word ix ≠ wordAllbits)).isSome := by
    rw [List.find?_isSome]
    refine ⟨i / 32, by simp only [List.mem_range]; omega, ?_⟩
    have hclear : (b.word (i / 32)).getLsbD (i % 32) = false := hbit
    simpa using (ne_wordAllbits_iff _).mpr ⟨i % 32, Nat.mod_lt _ (by omega), hclear⟩
  obtain ⟨ix, hix⟩ := Option.isSome_iff_exists.mp hword
  obtain ⟨hne, hlt, hfirst⟩ := List.find?_range_eq_some.mp hix
  have hix' : ix < b.v.length := List.mem_range.mp hlt
  obtain ⟨o, ho, hclear⟩ := (ne_wordAllbits_iff _).mp (by simpa using hne)
  have hoff : ((List.range bitsPerWord).find?
      (fun offset => b.word ix &&& 1#32 <<< offset = 0#32)).isSome := by
    rw [List.find?_isSome]
    exact ⟨o, List.mem_range.mpr ho, by simpa using (and_mask_eq_zero_iff _ ho).mpr hclear⟩
  obtain ⟨offset, hoffset⟩ := Option.isSome_iff_exists.mp hoff
  obtain ⟨hzero, hlt', hfirst'⟩ := List.find?_range_eq_some.mp hoffset
  have hoffset' : offset < 32 := List.mem_range.mp hlt'
  have hbitEq : b.bit (ix * 32 + offset) = (b.word ix).getLsbD offset := by
    have hdiv : (ix * 32 + offset) / 32 = ix := by omega
    have hmod : (ix * 32 + offset) % 32 = offset := by omega
    rw [bit, bitsPerWord, hdiv, hmod]
  have hclear' : b.bit (ix * 32 + offset) = false := by
    rw [hbitEq]
    exact (and_mask_eq_zero_iff _ hoffset').mp (by simpa using hzero)
  refine ⟨ix, offset, hix, hoffset, hix', hoffset', ?_, hclear', ?_⟩
  · by_contra hge
    -- a clear bit past `nbits` would be a padding bit
    have hpad := hb.padding _ (Nat.le_of_not_lt hge) (by omega)
    simp [hpad] at hclear'
  · intro j hj
    by_cases hsame : j / 32 = ix
    · have hjo : j % 32 < offset := by omega
      have hset := hfirst' _ hjo
      have hnz : ¬ (b.word ix &&& 1#32 <<< (j % 32) = 0#32) := by simpa using hset
      rw [and_mask_eq_zero_iff _ (Nat.mod_lt _ (by omega))] at hnz
      rw [bit, bitsPerWord, hsame]
      simpa using hnz
    · have hall : b.word (j / 32) = wordAllbits := by
        simpa using hfirst (j / 32) (by omega)
      by_contra hj0
      have hex := (ne_wordAllbits_iff (b.word (j / 32))).mpr
        ⟨j % 32, Nat.mod_lt _ (by omega), by simpa [bit, bitsPerWord] using hj0⟩
      exact hex hall

theorem WellFormed.bitmapAlloc_of_free {b : Bitmap} (hb : b.WellFormed)
    (hfree : ∃ i < b.nbits, b.bit i = false) :
    ∃ index b', bitmapAlloc b = .ok (some (index, b')) ∧ index < b.nbits ∧
      b.bit index = false ∧ (∀ j < index, b.bit j = true) ∧ b'.WellFormed ∧
      b'.nbits = b.nbits ∧ ∀ i, b'.bit i = (b.bit i || decide (i = index)) := by
  obtain ⟨ix, offset, hix, hoffset, hixlt, hofflt, hlt, hclear, hleast⟩ :=
    hb.exists_first_clear hfree
  refine ⟨ix * 32 + offset, b.setWord ix (b.word ix ||| 1#32 <<< offset), ?_, hlt, hclear,
    hleast, hb.setBit hixlt hofflt, rfl, bit_setWord_or b hixlt hofflt⟩
  simp only [bitmapAlloc, hb.divRoundUp_eq, hix, hoffset]
  rw [bitsPerWord, if_pos hlt]

theorem WellFormed.bitmapAlloc_of_full {b : Bitmap} (hb : b.WellFormed)
    (hfull : ∀ i < b.nbits, b.bit i = true) : bitmapAlloc b = .ok none := by
  have hnone : (List.range b.v.length).find? (fun ix => b.word ix ≠ wordAllbits) = none := by
    rw [List.find?_eq_none]
    intro ix hix hne
    obtain ⟨o, ho, hclear⟩ := (ne_wordAllbits_iff _).mp (by simpa using hne)
    have hlt : ix < b.v.length := List.mem_range.mp hix
    have hbit : b.bit (ix * 32 + o) = false := by
      have hdiv : (ix * 32 + o) / 32 = ix := by omega
      have hmod : (ix * 32 + o) % 32 = o := by omega
      rw [bit, bitsPerWord, hdiv, hmod, hclear]
    by_cases hin : ix * 32 + o < b.nbits
    · simp [hfull _ hin] at hbit
    · have hpad := hb.padding _ (Nat.le_of_not_lt hin) (by omega)
      simp [hpad] at hbit
  simp only [bitmapAlloc, hb.divRoundUp_eq, hnone]

/-! ## Single bits -/

theorem WellFormed.lt_length {b : Bitmap} (hb : b.WellFormed) {i : ℕ} (hi : i < b.nbits) :
    i / 32 < b.v.length := by
  rw [hb.length_eq]
  omega

theorem and_mask_ne_zero_iff (b : Bitmap) (i : ℕ) :
    b.word (i / 32) &&& 1#32 <<< (i % 32) ≠ 0#32 ↔ b.bit i = true := by
  rw [Ne, and_mask_eq_zero_iff _ (Nat.mod_lt i (by decide)), Bool.not_eq_false]
  rfl

/-- `bitmap_isset` reads the bit. -/
theorem bitmapIsset_ne_zero_iff (b : Bitmap) (i : ℕ) :
    bitmapIsset b i ≠ 0#32 ↔ b.bit i = true :=
  and_mask_ne_zero_iff b i

theorem WellFormed.bitmapMark_of_clear {b : Bitmap} (hb : b.WellFormed) {i : ℕ} (hi : i < b.nbits)
    (hclear : b.bit i = false) :
    ∃ b', bitmapMark b i = .ok b' ∧ b'.WellFormed ∧ b'.nbits = b.nbits ∧
      ∀ j, b'.bit j = (b.bit j || decide (j = i)) := by
  have hix := hb.lt_length hi
  have hoff : i % 32 < 32 := Nat.mod_lt i (by decide)
  have hzero : b.word (i / 32) &&& 1#32 <<< (i % 32) = 0#32 :=
    (and_mask_eq_zero_iff _ hoff).mpr hclear
  refine ⟨_, ?_, hb.setBit hix hoff, rfl, fun j => ?_⟩
  · rw [bitmapMark, if_pos hi]
    exact if_pos hzero
  · rw [bit_setWord_or b hix hoff, Nat.div_add_mod' i 32]

theorem getLsbD_and_not_mask (x : BitVec 32) {i j : ℕ} (hi : i < 32) (hj : j < 32) :
    (x &&& ~~~(1#32 <<< i)).getLsbD j = (x.getLsbD j && !decide (j = i)) := by
  rw [BitVec.getLsbD_and, BitVec.getLsbD_not, getLsbD_mask hi]
  simp [hj]

theorem bit_setWord_and_not (b : Bitmap) {i : ℕ} (hix : i / 32 < b.v.length) (j : ℕ) :
    (b.setWord (i / 32) (b.word (i / 32) &&& ~~~(1#32 <<< (i % 32)))).bit j =
      (b.bit j && !decide (j = i)) := by
  rw [bit, word_setWord b hix, bit, bitsPerWord]
  by_cases hw : j / 32 = i / 32
  · have hsame : j % 32 = i % 32 ↔ j = i := by omega
    rw [if_pos hw, getLsbD_and_not_mask _ (Nat.mod_lt i (by decide)) (Nat.mod_lt j (by decide)), hw]
    simp only [hsame]
  · have hne : j ≠ i := fun heq => hw (heq ▸ rfl)
    rw [if_neg hw]
    simp [hne]

theorem WellFormed.bitmapUnmark_of_set {b : Bitmap} (hb : b.WellFormed) {i : ℕ} (hi : i < b.nbits)
    (hset : b.bit i = true) :
    ∃ b', bitmapUnmark b i = .ok b' ∧ b'.WellFormed ∧ b'.nbits = b.nbits ∧
      ∀ j, b'.bit j = (b.bit j && !decide (j = i)) := by
  have hix := hb.lt_length hi
  have hbits := bit_setWord_and_not b hix
  refine ⟨b.setWord (i / 32) (b.word (i / 32) &&& ~~~(1#32 <<< (i % 32))), ?_,
    ⟨hb.small, ?_, fun j hlo hhi => ?_⟩, rfl, hbits⟩
  · rw [bitmapUnmark, if_pos hi]
    exact if_pos ((and_mask_ne_zero_iff b i).mpr hset)
  · simpa [setWord] using hb.length_eq
  · rw [setWord, List.length_set] at hhi
    have hne : j ≠ i := Nat.ne_of_gt (Nat.lt_of_lt_of_le hi hlo)
    rw [hbits, hb.padding j hlo hhi]
    simp [hne]

/-! ## Creation -/

theorem getLsbD_foldl_mask (js : List ℕ) (hjs : ∀ j ∈ js, j < 32) (x : BitVec 32) (i : ℕ) :
    (js.foldl (fun x j => x ||| 1#32 <<< j) x).getLsbD i =
      (x.getLsbD i || decide (i ∈ js)) := by
  induction js generalizing x with
  | nil => simp
  | cons j js ih =>
      rw [List.foldl_cons, ih fun k hk => hjs k (List.mem_cons_of_mem j hk),
        getLsbD_or_mask _ (hjs j List.mem_cons_self)]
      simp [Bool.or_assoc]

theorem bit_replicate (nbits words i : ℕ) :
    (⟨nbits, List.replicate words 0#32⟩ : Bitmap).bit i = false := by
  simp only [bit, word, List.getD_eq_getElem?_getD, List.getElem?_replicate]
  split <;> simp

/-- Marking the bits from `lo` on of the last word, where `lo` is the number of
its bits that stand for slots. -/
theorem bit_setWord_foldl (nbits words lo : ℕ) (hwords : 0 < words) (i : ℕ) :
    ((⟨nbits, List.replicate words 0#32⟩ : Bitmap).setWord (words - 1)
      ((List.range' lo (32 - lo)).foldl (fun x j => x ||| 1#32 <<< j) 0#32)).bit i =
      decide (i / 32 = words - 1 ∧ lo ≤ i % 32) := by
  have hlt : words - 1 < (⟨nbits, List.replicate words 0#32⟩ : Bitmap).v.length := by
    simp only [List.length_replicate]
    omega
  have hjs : ∀ j ∈ List.range' lo (32 - lo), j < 32 := by
    intro j hj
    have := List.mem_range'_1.mp hj
    omega
  rw [bit, word_setWord _ hlt, bitsPerWord]
  by_cases hw : i / 32 = words - 1
  · rw [if_pos hw, getLsbD_foldl_mask _ hjs, BitVec.getLsbD_zero, Bool.false_or]
    simp only [List.mem_range'_1, hw, true_and, decide_eq_decide]
    omega
  · have hzero := bit_replicate nbits words i
    rw [bit, bitsPerWord] at hzero
    simp [hw, hzero]

/-- A created bitmap is well formed and has every slot free. -/
theorem bitmapCreate_spec {nbits : ℕ} (hn : nbits + 31 < 2 ^ 32) :
    ∃ b, bitmapCreate nbits = .ok b ∧ b.WellFormed ∧ b.nbits = nbits ∧
      ∀ i < nbits, b.bit i = false := by
  have hbw : bitsPerWord = 32 := rfl
  have hwords : divRoundUp nbits bitsPerWord = (nbits + 31) / 32 := by
    rw [divRoundUp, bitsPerWord, Nat.mod_eq_of_lt (by omega)]
    congr 1
  simp only [bitmapCreate, hwords]
  by_cases hover : (nbits + 31) / 32 > nbits / bitsPerWord
  · have hcond : nbits / bitsPerWord = (nbits + 31) / 32 - 1 ∧
        nbits - ((nbits + 31) / 32 - 1) * bitsPerWord > 0 ∧
        nbits - ((nbits + 31) / 32 - 1) * bitsPerWord < bitsPerWord := by
      rw [hbw] at hover ⊢
      omega
    have hzero : (⟨nbits, List.replicate ((nbits + 31) / 32) 0#32⟩ : Bitmap).word
        ((nbits + 31) / 32 - 1) = 0#32 := by
      simp only [word, List.getD_eq_getElem?_getD, List.getElem?_replicate]
      split <;> rfl
    rw [if_pos hover, if_pos hcond, hzero]
    refine ⟨_, rfl, ⟨hn, by simp [setWord], ?_⟩, rfl, ?_⟩
    · intro i hlo hhi
      rw [hbw, bit_setWord_foldl _ _ _ (by omega)]
      simp only [setWord, List.length_set, List.length_replicate] at hlo hhi
      simp only [decide_eq_true_eq]
      omega
    · intro i hi
      rw [hbw, bit_setWord_foldl _ _ _ (by omega)]
      simp only [decide_eq_false_iff_not]
      omega
  · rw [if_neg hover]
    refine ⟨_, rfl, ⟨hn, by simp, ?_⟩, rfl, fun i _ => bit_replicate _ _ i⟩
    intro i hlo hhi
    rw [hbw] at hover
    simp only [List.length_replicate] at hlo hhi
    omega

end Bitmap

end KernelProgramming.Paging
