import Mathlib.Data.Finset.Basic
import Mathlib.Order.Interval.Finset.Nat
import KernelProgramming.Library.DataRefinement
import KernelProgramming.Paging.Bitmap

/-!
# The bitmap as a set of slots

What the callers of the bitmap functions rely on: a set of indices from which
the least free one is taken, and to which single ones are added and removed.
The packed words follow that set through every sequence of calls.
-/

namespace KernelProgramming.Paging

open DataRefinement

/-- The slots in use, out of `nbits`. -/
structure Slots (nbits : ℕ) where
  taken : Finset ℕ
  below : taken ⊆ Finset.range nbits

inductive SlotCall where
  | alloc
  | mark (index : ℕ)
  | unmark (index : ℕ)

/-- `bitmap_alloc` returns 0 and an index, or 1; the other two return nothing. -/
inductive SlotReply where
  | allocated (index : ℕ)
  | full
  | done

namespace Slots

variable {nbits : ℕ}

def empty (nbits : ℕ) : Slots nbits := ⟨∅, Finset.empty_subset _⟩

def take (s : Slots nbits) (index : ℕ) (h : index < nbits) : Slots nbits :=
  ⟨insert index s.taken, Finset.insert_subset (Finset.mem_range.mpr h) s.below⟩

def release (s : Slots nbits) (index : ℕ) : Slots nbits :=
  ⟨s.taken.erase index, (Finset.erase_subset index s.taken).trans s.below⟩

/-- Only a free slot may be marked, and only a slot in use unmarked. -/
def serve (s : Slots nbits) : SlotCall → Option (SlotReply × Slots nbits)
  | .alloc =>
      if h : ∃ i, i < nbits ∧ i ∉ s.taken then
        some (.allocated (Nat.find h), s.take (Nat.find h) (Nat.find_spec h).1)
      else some (.full, s)
  | .mark index =>
      if h : index < nbits ∧ index ∉ s.taken then some (.done, s.take index h.1) else none
  | .unmark index =>
      if index ∈ s.taken then some (.done, s.release index) else none

end Slots

/-- The calls of the bitmap functions. -/
def bitmapServe (b : Bitmap) : SlotCall → Except Halt (SlotReply × Bitmap)
  | .alloc => do
      match ← bitmapAlloc b with
      | none => .ok (.full, b)
      | some r => .ok (.allocated r.1, r.2)
  | .mark index => do
      let b ← bitmapMark b index
      .ok (.done, b)
  | .unmark index => do
      let b ← bitmapUnmark b index
      .ok (.done, b)

/-- The clear bits below `nbits` are the free slots. -/
structure Represents {nbits : ℕ} (b : Bitmap) (s : Slots nbits) : Prop where
  wellFormed : b.WellFormed
  nbits_eq : b.nbits = nbits
  bit_iff : ∀ i < nbits, b.bit i = true ↔ i ∈ s.taken

section Calls

variable {nbits i : ℕ} {b b' : Bitmap} {s : Slots nbits}

theorem Represents.bit_eq_false_iff (h : Represents b s) (hi : i < nbits) :
    b.bit i = false ↔ i ∉ s.taken := by
  rw [← h.bit_iff i hi, Bool.not_eq_true]

theorem Represents.take (h : Represents b s) (hi : i < nbits) (hwf : b'.WellFormed)
    (hnbits : b'.nbits = b.nbits) (hbits : ∀ j, b'.bit j = (b.bit j || decide (j = i))) :
    Represents b' (s.take i hi) where
  wellFormed := hwf
  nbits_eq := hnbits.trans h.nbits_eq
  bit_iff j hj := by
    rw [hbits, Bool.or_eq_true, decide_eq_true_eq, h.bit_iff j hj, Slots.take, Finset.mem_insert,
      or_comm]

theorem Represents.release (h : Represents b s) (hwf : b'.WellFormed)
    (hnbits : b'.nbits = b.nbits) (hbits : ∀ j, b'.bit j = (b.bit j && !decide (j = i))) :
    Represents b' (s.release i) where
  wellFormed := hwf
  nbits_eq := hnbits.trans h.nbits_eq
  bit_iff j hj := by
    rw [hbits, Bool.and_eq_true, Bool.not_eq_true', decide_eq_false_iff_not, h.bit_iff j hj,
      Slots.release, Finset.mem_erase, and_comm]

theorem Represents.alloc (h : Represents b s) {reply : SlotReply × Slots nbits}
    (hserve : s.serve .alloc = some reply) :
    ∃ b', bitmapServe b .alloc = .ok (reply.1, b') ∧ Represents b' reply.2 := by
  rw [Slots.serve] at hserve
  split_ifs at hserve with hfree
  · obtain rfl := Option.some.inj hserve
    have hclear : ∃ i < b.nbits, b.bit i = false := by
      obtain ⟨i, hi, hnot⟩ := hfree
      exact ⟨i, h.nbits_eq.symm ▸ hi, (h.bit_eq_false_iff hi).mpr hnot⟩
    obtain ⟨index, b', halloc, hlt, hbit, hleast, hwf, hnbits, hbits⟩ :=
      h.wellFormed.bitmapAlloc_of_free hclear
    rw [h.nbits_eq] at hlt
    have hfind : Nat.find hfree = index := by
      refine (Nat.find_eq_iff hfree).mpr ⟨⟨hlt, (h.bit_eq_false_iff hlt).mp hbit⟩, ?_⟩
      rintro j hj ⟨hjn, hnot⟩
      exact hnot ((h.bit_iff j hjn).mp (hleast j hj))
    subst hfind
    refine ⟨b', ?_, h.take hlt hwf hnbits hbits⟩
    rw [bitmapServe, halloc]
    rfl
  · obtain rfl := Option.some.inj hserve
    have hfull : ∀ i < b.nbits, b.bit i = true := by
      intro i hi
      rw [h.nbits_eq] at hi
      by_contra hnot
      exact hfree ⟨i, hi, (h.bit_eq_false_iff hi).mp (Bool.not_eq_true _ ▸ hnot)⟩
    refine ⟨b, ?_, h⟩
    rw [bitmapServe, h.wellFormed.bitmapAlloc_of_full hfull]
    rfl

theorem Represents.mark (h : Represents b s) {reply : SlotReply × Slots nbits}
    (hserve : s.serve (.mark i) = some reply) :
    ∃ b', bitmapServe b (.mark i) = .ok (reply.1, b') ∧ Represents b' reply.2 := by
  rw [Slots.serve] at hserve
  split_ifs at hserve with hfree
  obtain rfl := Option.some.inj hserve
  obtain ⟨b', hmark, hwf, hnbits, hbits⟩ := h.wellFormed.bitmapMark_of_clear
    (h.nbits_eq.symm ▸ hfree.1) ((h.bit_eq_false_iff hfree.1).mpr hfree.2)
  refine ⟨b', ?_, h.take hfree.1 hwf hnbits hbits⟩
  rw [bitmapServe, hmark]
  rfl

theorem Represents.unmark (h : Represents b s) {reply : SlotReply × Slots nbits}
    (hserve : s.serve (.unmark i) = some reply) :
    ∃ b', bitmapServe b (.unmark i) = .ok (reply.1, b') ∧ Represents b' reply.2 := by
  rw [Slots.serve] at hserve
  split_ifs at hserve with htaken
  obtain rfl := Option.some.inj hserve
  have hi := Finset.mem_range.mp (s.below htaken)
  obtain ⟨b', hunmark, hwf, hnbits, hbits⟩ := h.wellFormed.bitmapUnmark_of_set
    (h.nbits_eq.symm ▸ hi) ((h.bit_iff i hi).mpr htaken)
  refine ⟨b', ?_, h.release hwf hnbits hbits⟩
  rw [bitmapServe, hunmark]
  rfl

theorem represents_refines (nbits : ℕ) :
    Refines (@Represents nbits) bitmapServe Slots.serve := by
  intro b s c reply h hserve
  cases c with
  | alloc => exact h.alloc hserve
  | mark index => exact h.mark hserve
  | unmark index => exact h.unmark hserve

end Calls

/-- From creation on, the bitmap serves every sequence of permitted calls as a set of slots does,
no assertion fails, and `bitmap_isset` tells which slots are in use. -/
theorem bitmap_refines {nbits : ℕ} (hn : nbits + 31 < 2 ^ 32) :
    ∃ start, bitmapCreate nbits = .ok start ∧ ∀ calls reply,
      runCalls Slots.serve (Slots.empty nbits) calls = some reply →
      ∃ b, runCalls bitmapServe start calls = .ok (reply.1, b) ∧
        ∀ i < nbits, bitmapIsset b i ≠ 0#32 ↔ i ∈ reply.2.taken := by
  obtain ⟨start, hcreate, hwf, hnbits, hclear⟩ := Bitmap.bitmapCreate_spec hn
  refine ⟨start, hcreate, fun calls reply hrun => ?_⟩
  have hstart : Represents start (Slots.empty nbits) := by
    refine ⟨hwf, hnbits, fun i hi => iff_of_false ?_ (Finset.notMem_empty i)⟩
    rw [hclear i hi]
    exact Bool.false_ne_true
  obtain ⟨b, hcalls, hb⟩ := (represents_refines nbits).run calls hstart hrun
  refine ⟨b, hcalls, fun i hi => ?_⟩
  rw [Bitmap.bitmapIsset_ne_zero_iff]
  exact hb.bit_iff i hi

theorem bitmap_refines_partial_word : 33 + 31 < 2 ^ 32 ∧
    ∃ start, bitmapCreate 33 = .ok start ∧ ∀ calls reply,
      runCalls Slots.serve (Slots.empty 33) calls = some reply →
      ∃ b, runCalls bitmapServe start calls = .ok (reply.1, b) ∧
        ∀ i < 33, bitmapIsset b i ≠ 0#32 ↔ i ∈ reply.2.taken :=
  ⟨by decide, bitmap_refines (by decide)⟩

end KernelProgramming.Paging
