import Mathlib.Data.Set.Basic
import KernelProgramming.Library.Runs
import KernelProgramming.Paging.PageTable

/-!
# The pager behind the page table code

A `View` is what remains of the simulator's state when the reference bits,
the list links in `coremap` and the private state of the replacement
algorithm are dropped.  Every algorithm leaves it alone; `access_mem` acts on
it in one of three ways, which the main theorem of the module lists.
-/

namespace KernelProgramming.Paging

open FlagWord Runs

/-- A page table entry without its reference bit. -/
@[ext] structure PageView where
  valid : Bool
  dirty : Bool
  onswap : Bool
  number : ℕ
  swapOff : ℤ

def PgtblEntry.view (e : PgtblEntry) : PageView where
  valid := hasFlag e.frame pgValid
  dirty := hasFlag e.frame pgDirty
  onswap := hasFlag e.frame pgOnswap
  number := number pageShift e.frame
  swapOff := e.swapOff

@[ext] structure View where
  memsize : ℕ
  inUse : ℕ → Bool
  owner : ℕ → Option PtePtr
  page : PtePtr → PageView
  physmem : ℕ → SimPage
  swapmap : Bitmap
  swapfile : ℕ → Option SimPage
  hitCount : ℕ
  missCount : ℕ
  refCount : ℕ
  evictCleanCount : ℕ
  evictDirtyCount : ℕ
  checkFailures : ℕ

variable {σ : Type}

def Sim.view (s : Sim σ) : View where
  memsize := s.memsize
  inUse i := (s.coremap i).inUse
  owner i := (s.coremap i).pte
  page p := (s.pte p).view
  physmem := s.physmem
  swapmap := s.swapmap
  swapfile := s.swapfile
  hitCount := s.hitCount
  missCount := s.missCount
  refCount := s.refCount
  evictCleanCount := s.evictCleanCount
  evictDirtyCount := s.evictDirtyCount
  checkFailures := s.checkFailures

/-- The algorithm confines itself to its own state, the list links and the
reference bits. -/
structure Functions.Polite (F : Functions σ) : Prop where
  init_view : ∀ s, (F.init s).view = s.view
  ref_view : ∀ s p s', F.ref s p = .ok s' → s'.view = s.view
  evict_view : ∀ s f s', F.evict s = .ok (f, s') → s'.view = s.view

/-- On every call made during the replay of `trace`, the algorithm's evict
function returns a frame of the simulated memory and its ref function returns. -/
structure Functions.Serves (F : Functions σ) (start : Sim σ) (trace : List Access) : Prop where
  evict_below : ∀ past a rest s walked, trace = past ++ a :: rest →
    replay F start past = .ok s → walkPgdir s a.vaddr = .ok walked →
    hasFlag (s.pte (ptePtr a.vaddr)).frame pgValid = false → freeFrame s = none →
    ∃ frame s₂, F.evict walked = .ok (frame, s₂) ∧ frame < s.memsize
  ref_returns : ∀ past a rest s t, trace = past ++ a :: rest →
    replay F start past = .ok s → translate F s a.vaddr a.type = .ok t →
    ∃ u, F.ref t (ptePtr a.vaddr) = .ok u

/-! ## Reading the state after an update -/

namespace Sim

theorem pte_setPte (s : Sim σ) (p : PtePtr) (e : PgtblEntry) (q : PtePtr) :
    (s.setPte p e).pte q = if q = p then e else s.pte q := by
  obtain ⟨pi, pe⟩ := p
  obtain ⟨qi, qe⟩ := q
  simp only [pte, table, setPte, PtePtr.mk.injEq]
  by_cases hi : qi = pi
  · subst hi
    by_cases he : qe = pe
    · simp [he]
    · simp [he]
  · simp [hi]

@[simp] theorem pte_setPte_same (s : Sim σ) (p : PtePtr) (e : PgtblEntry) :
    (s.setPte p e).pte p = e := by
  rw [pte_setPte, if_pos rfl]

theorem view_setPte (s : Sim σ) (p : PtePtr) (e : PgtblEntry) :
    (s.setPte p e).view =
      { s.view with page := Function.update s.view.page p e.view } := by
  ext q <;> try rfl
  all_goals
    simp only [view, pte_setPte, Function.update_apply]
    split <;> rfl

/-- A fresh second-level table reads as the missing one did. -/
theorem pte_initSecondLevel (s : Sim σ) {idx : ℕ} (h : s.pgdir idx = none) (q : PtePtr) :
    (initSecondLevel s idx).pte q = s.pte q := by
  simp only [pte, table, initSecondLevel, Function.update_apply]
  by_cases hq : q.idx = idx
  · rw [if_pos hq, hq, h]
    rfl
  · rw [if_neg hq]

theorem view_initSecondLevel (s : Sim σ) {idx : ℕ} (h : s.pgdir idx = none) :
    (initSecondLevel s idx).view = s.view := by
  simp only [view, pte_initSecondLevel s h]
  rfl

end Sim

/-! ## The flags of a page table word -/

namespace PageView

def markValid (v : PageView) : PageView := { v with valid := true }

def markDirty (v : PageView) : PageView := { v with dirty := true }

def dropValid (v : PageView) : PageView := { v with valid := false }

def dropDirty (v : PageView) : PageView := { v with dirty := false }

end PageView

theorem view_setFlag_valid (x : BitVec 32) (off : ℤ) :
    (⟨setFlag x pgValid, off⟩ : PgtblEntry).view = (⟨x, off⟩ : PgtblEntry).view.markValid := by
  have h₁ : hasFlag pgValid pgValid = true := rfl
  have h₂ : hasFlag pgValid pgDirty = false := rfl
  have h₃ : hasFlag pgValid pgOnswap = false := rfl
  simp [PgtblEntry.view, PageView.markValid, number_setFlag x (f := pgValid) (k := pageShift) rfl,
    h₁, h₂, h₃]

theorem view_setFlag_dirty (x : BitVec 32) (off : ℤ) :
    (⟨setFlag x pgDirty, off⟩ : PgtblEntry).view = (⟨x, off⟩ : PgtblEntry).view.markDirty := by
  have h₁ : hasFlag pgDirty pgValid = false := rfl
  have h₂ : hasFlag pgDirty pgDirty = true := rfl
  have h₃ : hasFlag pgDirty pgOnswap = false := rfl
  simp [PgtblEntry.view, PageView.markDirty, number_setFlag x (f := pgDirty) (k := pageShift) rfl,
    h₁, h₂, h₃]

theorem view_setFlag_ref (x : BitVec 32) (off : ℤ) :
    (⟨setFlag x pgRef, off⟩ : PgtblEntry).view = (⟨x, off⟩ : PgtblEntry).view := by
  have h₁ : hasFlag pgRef pgValid = false := rfl
  have h₂ : hasFlag pgRef pgDirty = false := rfl
  have h₃ : hasFlag pgRef pgOnswap = false := rfl
  simp [PgtblEntry.view, number_setFlag x (f := pgRef) (k := pageShift) rfl, h₁, h₂, h₃]

theorem view_clearFlag_valid (x : BitVec 32) (off : ℤ) :
    (⟨clearFlag x pgValid, off⟩ : PgtblEntry).view = (⟨x, off⟩ : PgtblEntry).view.dropValid := by
  simp [PgtblEntry.view, PageView.dropValid,
    number_clearFlag x (f := pgValid) (k := pageShift) rfl,
    hasFlag_clearFlag_of_disjoint x (f := pgValid) (g := pgDirty) rfl,
    hasFlag_clearFlag_of_disjoint x (f := pgValid) (g := pgOnswap) rfl]

theorem view_clearFlag_dirty (x : BitVec 32) (off : ℤ) :
    (⟨clearFlag x pgDirty, off⟩ : PgtblEntry).view = (⟨x, off⟩ : PgtblEntry).view.dropDirty := by
  simp [PgtblEntry.view, PageView.dropDirty,
    number_clearFlag x (f := pgDirty) (k := pageShift) rfl,
    hasFlag_clearFlag_of_disjoint x (f := pgDirty) (g := pgValid) rfl,
    hasFlag_clearFlag_of_disjoint x (f := pgDirty) (g := pgOnswap) rfl]

theorem view_clearFlag_ref (x : BitVec 32) (off : ℤ) :
    (⟨clearFlag x pgRef, off⟩ : PgtblEntry).view = (⟨x, off⟩ : PgtblEntry).view := by
  simp [PgtblEntry.view, number_clearFlag x (f := pgRef) (k := pageShift) rfl,
    hasFlag_clearFlag_of_disjoint x (f := pgRef) (g := pgValid) rfl,
    hasFlag_clearFlag_of_disjoint x (f := pgRef) (g := pgDirty) rfl,
    hasFlag_clearFlag_of_disjoint x (f := pgRef) (g := pgOnswap) rfl]

theorem view_pack {n : ℕ} (hn : n < 2 ^ 20) (off : ℤ) :
    (⟨pack 32 pageShift n, off⟩ : PgtblEntry).view = ⟨false, false, false, n, off⟩ := by
  simp [PgtblEntry.view, hasFlag_pack n (f := pgValid) (k := pageShift) rfl,
    hasFlag_pack n (f := pgDirty) (k := pageShift) rfl,
    hasFlag_pack n (f := pgOnswap) (k := pageShift) rfl,
    number_pack (w := 32) (k := pageShift) (by decide) hn]

/-! ## The moves of the pager -/

namespace View

def setPageView (v : View) (p : PtePtr) (e : PageView) : View :=
  { v with page := Function.update v.page p e }

/-- The page is put into `frame`, zero-filled and stamped with its address. -/
def load (v : View) (p : PtePtr) (frame vaddr : ℕ) : View :=
  { v with
    inUse := Function.update v.inUse frame true
    owner := Function.update v.owner frame (some p)
    physmem := Function.update v.physmem frame ⟨0#32, vaddr, 0#32⟩
    page := Function.update v.page p ⟨false, true, false, frame, (v.page p).swapOff⟩
    missCount := v.missCount + 1
    refCount := v.refCount + 1 }

def hit (v : View) : View :=
  { v with hitCount := v.hitCount + 1, refCount := v.refCount + 1 }

/-- The page in `frame` is written to offset `off` of the swap file. -/
def writeOut (v : View) (frame : ℕ) (off : ℤ) (swapmap : Bitmap) : View :=
  { v with
    swapmap := swapmap
    swapfile := Function.update v.swapfile off.toNat (some (v.physmem frame))
    evictDirtyCount := v.evictDirtyCount + 1 }

/-- The victim is written out and invalidated. -/
def unload (v : View) (frame : ℕ) (victim : PtePtr) (off : ℤ) (swapmap : Bitmap) : View :=
  (v.writeOut frame off swapmap).setPageView victim
    { v.page victim with valid := false, dirty := false, swapOff := off }

def touch (v : View) (p : PtePtr) (type : Char) : View :=
  v.setPageView p { v.page p with valid := true, dirty := (v.page p).dirty || isWrite type }

/-- The check of the address word and, on a write, the new version. -/
def store (v : View) (frame : ℕ) (a : Access) : View :=
  { v with
    checkFailures := v.checkFailures + if (v.physmem frame).vaddr ≠ a.vaddr then 1 else 0
    physmem := if isWrite a.type then
        Function.update v.physmem frame
          { v.physmem frame with version := (v.physmem frame).version + 1 }
      else v.physmem }

/-- The offset that a page goes to is its own, or that of a newly allocated slot. -/
def SlotFor (v : View) (p : PtePtr) (off : ℤ) (swapmap : Bitmap) : Prop :=
  ((v.page p).swapOff ≠ invalidSwap ∧ off = (v.page p).swapOff ∧ swapmap = v.swapmap) ∨
    ((v.page p).swapOff = invalidSwap ∧
      ∃ idx, bitmapAlloc v.swapmap = .ok (some (idx, swapmap)) ∧
        off = intOfUnsigned (idx * simpagesize))

/-- No page is marked as being on swap. -/
def NoOnswap (v : View) : Prop := ∀ p, (v.page p).onswap = false

/-- The ways in which putting a page out to swap stops the simulator. -/
def SwapHalts (v : View) (p : PtePtr) (e : Halt) : Prop :=
  ((v.page p).swapOff = invalidSwap ∧ bitmapAlloc v.swapmap = .error e) ∨
    ((v.page p).swapOff = invalidSwap ∧ bitmapAlloc v.swapmap = .ok none ∧ e = .exit) ∨
    ∃ off swapmap, v.SlotFor p off swapmap ∧
      (off = invalidSwap ∧ e = .assertion ∨ off < 0 ∧ e = .exit)

end View

namespace Sim

theorem view_setPteFrame (s : Sim σ) (p : PtePtr) (x : BitVec 32) :
    (s.setPteFrame p x).view =
      s.view.setPageView p (⟨x, (s.pte p).swapOff⟩ : PgtblEntry).view :=
  s.view_setPte p _

theorem view_setPteSwapOff (s : Sim σ) (p : PtePtr) (off : ℤ) :
    (s.setPteSwapOff p off).view =
      s.view.setPageView p { s.view.page p with swapOff := off } :=
  s.view_setPte p _

theorem view_setValid (s : Sim σ) (p : PtePtr) :
    (s.setPteFrame p (setFlag (s.pte p).frame pgValid)).view =
      s.view.setPageView p (s.view.page p).markValid := by
  rw [view_setPteFrame, view_setFlag_valid]
  rfl

theorem view_setDirty (s : Sim σ) (p : PtePtr) :
    (s.setPteFrame p (setFlag (s.pte p).frame pgDirty)).view =
      s.view.setPageView p (s.view.page p).markDirty := by
  rw [view_setPteFrame, view_setFlag_dirty]
  rfl

theorem view_setRef (s : Sim σ) (p : PtePtr) :
    (s.setPteFrame p (setFlag (s.pte p).frame pgRef)).view = s.view := by
  rw [view_setPteFrame, view_setFlag_ref]
  simp [View.setPageView, Sim.view]

theorem view_clearValid (s : Sim σ) (p : PtePtr) :
    (s.setPteFrame p (clearFlag (s.pte p).frame pgValid)).view =
      s.view.setPageView p (s.view.page p).dropValid := by
  rw [view_setPteFrame, view_clearFlag_valid]
  rfl

theorem view_clearDirty (s : Sim σ) (p : PtePtr) :
    (s.setPteFrame p (clearFlag (s.pte p).frame pgDirty)).view =
      s.view.setPageView p (s.view.page p).dropDirty := by
  rw [view_setPteFrame, view_clearFlag_dirty]
  rfl

theorem view_clearRef (s : Sim σ) (p : PtePtr) :
    (s.setPteFrame p (clearFlag (s.pte p).frame pgRef)).view = s.view := by
  rw [view_setPteFrame, view_clearFlag_ref]
  simp [View.setPageView, Sim.view]

end Sim

/-! ## The part of the state that belongs to the algorithm -/

/-- What a `View` forgets, apart from the page directory itself. -/
@[ext] structure Priv (σ : Type) where
  alg : σ
  next : ℕ → Option ℕ
  previous : ℕ → Option ℕ
  ref : PtePtr → Bool

def Sim.priv (s : Sim σ) : Priv σ where
  alg := s.alg
  next i := (s.coremap i).next
  previous i := (s.coremap i).previous
  ref p := hasFlag (s.pte p).frame pgRef

def Priv.setRef (v : Priv σ) (p : PtePtr) : Priv σ :=
  { v with ref := Function.update v.ref p true }

namespace Sim

theorem priv_setPte (s : Sim σ) (p : PtePtr) (e : PgtblEntry) :
    (s.setPte p e).priv =
      { s.priv with ref := Function.update s.priv.ref p (hasFlag e.frame pgRef) } := by
  ext q <;> try rfl
  simp only [priv, pte_setPte, Function.update_apply]
  by_cases hq : q = p <;> simp [hq]

/-- An assignment to an entry that keeps its reference bit. -/
theorem priv_setPte_of_ref (s : Sim σ) (p : PtePtr) (e : PgtblEntry)
    (h : hasFlag e.frame pgRef = hasFlag (s.pte p).frame pgRef) :
    (s.setPte p e).priv = s.priv := by
  rw [priv_setPte, h]
  simp [priv]

theorem priv_setPteSwapOff (s : Sim σ) (p : PtePtr) (off : ℤ) :
    (s.setPteSwapOff p off).priv = s.priv :=
  s.priv_setPte_of_ref p _ rfl

theorem priv_clearValid (s : Sim σ) (p : PtePtr) :
    (s.setPteFrame p (clearFlag (s.pte p).frame pgValid)).priv = s.priv :=
  s.priv_setPte_of_ref p _ (hasFlag_clearFlag_of_disjoint _ rfl)

theorem priv_clearDirty (s : Sim σ) (p : PtePtr) :
    (s.setPteFrame p (clearFlag (s.pte p).frame pgDirty)).priv = s.priv :=
  s.priv_setPte_of_ref p _ (hasFlag_clearFlag_of_disjoint _ rfl)

theorem priv_setValid (s : Sim σ) (p : PtePtr) :
    (s.setPteFrame p (setFlag (s.pte p).frame pgValid)).priv = s.priv := by
  have h : hasFlag pgValid pgRef = false := rfl
  exact s.priv_setPte_of_ref p _ (by rw [hasFlag_setFlag, h, Bool.or_false])

theorem priv_setDirty (s : Sim σ) (p : PtePtr) :
    (s.setPteFrame p (setFlag (s.pte p).frame pgDirty)).priv = s.priv := by
  have h : hasFlag pgDirty pgRef = false := rfl
  exact s.priv_setPte_of_ref p _ (by rw [hasFlag_setFlag, h, Bool.or_false])

theorem priv_setRef (s : Sim σ) (p : PtePtr) :
    (s.setPteFrame p (setFlag (s.pte p).frame pgRef)).priv = s.priv.setRef p := by
  have h : hasFlag pgRef pgRef = true := rfl
  rw [setPteFrame, priv_setPte, hasFlag_setFlag, h, Bool.or_true]
  rfl

end Sim

/-! ## Spec lemmas -/

theorem walkPgdir_yields (s : Sim σ) (vaddr : ℕ) :
    Yields (walkPgdir s vaddr) (fun t => t.view = s.view ∧ t.priv = s.priv)
      (fun e => e = .wild ∧ ptrsPerPgdir ≤ pgdirIndex vaddr) := by
  unfold walkPgdir
  split
  · cases h : s.pgdir (pgdirIndex vaddr) with
    | none =>
        refine ⟨s.view_initSecondLevel h, ?_⟩
        simp only [Sim.priv, s.pte_initSecondLevel h]
        rfl
    | some t => exact ⟨rfl, rfl⟩
  · exact ⟨rfl, Nat.le_of_not_lt ‹_›⟩

theorem swapSlot_yields (s : Sim σ) (p : PtePtr) :
    Yields (swapSlot s (s.view.page p).swapOff)
      (fun r => (∃ off t, r = some (off, t) ∧ s.view.SlotFor p off t.swapmap ∧
          t = { s with swapmap := t.swapmap }) ∨
        r = none ∧ (s.view.page p).swapOff = invalidSwap ∧
          bitmapAlloc s.view.swapmap = .ok none)
      (fun e => (s.view.page p).swapOff = invalidSwap ∧ bitmapAlloc s.view.swapmap = .error e) := by
  have hmap : s.view.swapmap = s.swapmap := rfl
  unfold swapSlot
  by_cases hoff : (s.view.page p).swapOff = invalidSwap
  · rw [if_pos hoff]
    cases h : bitmapAlloc s.swapmap with
    | error e => exact ⟨hoff, h⟩
    | ok r =>
        cases r with
        | none => exact Or.inr ⟨rfl, hoff, h⟩
        | some r =>
            obtain ⟨idx, swapmap⟩ := r
            exact Or.inl ⟨_, _, rfl, Or.inr ⟨hoff, idx, h, rfl⟩, rfl⟩
  · rw [if_neg hoff]
    exact Or.inl ⟨_, _, rfl, Or.inl ⟨hoff, rfl, rfl⟩, rfl⟩

theorem swapPageout_yields (s : Sim σ) {frame : ℕ} (hframe : frame < s.memsize) (p : PtePtr) :
    Yields (swapPageout s frame (s.view.page p).swapOff)
      (fun r => (r.1 = invalidSwap ∧ s.view.SwapHalts p .exit) ∨
        ∃ swapmap, s.view.SlotFor p r.1 swapmap ∧ 0 ≤ r.1 ∧
          r.2 = { s with
            swapmap := swapmap
            swapfile := Function.update s.swapfile r.1.toNat (some (s.physmem frame)) })
      (fun e => s.view.SwapHalts p e) := by
  unfold swapPageout
  refine ((swapSlot_yields s p).mono (fun _ h => h) fun e he => Or.inl he).bind ?_
  rintro r (⟨off, t, rfl, hslot, ht⟩ | ⟨rfl, hoff, hnone⟩)
  · have hmem : frame < t.memsize := by rw [ht]; exact hframe
    have hphys : t.physmem = s.physmem := by rw [ht]
    simp only
    by_cases hinv : off = invalidSwap
    · rw [if_pos hinv]
      exact Or.inr (Or.inr ⟨off, _, hslot, Or.inl ⟨hinv, rfl⟩⟩)
    · rw [if_neg hinv]
      by_cases hneg : off < 0
      · rw [if_pos hneg]
        exact Or.inl ⟨rfl, Or.inr (Or.inr ⟨off, _, hslot, Or.inr ⟨hneg, rfl⟩⟩)⟩
      · rw [if_neg hneg, if_pos hmem]
        refine Or.inr ⟨t.swapmap, hslot, not_lt.mp hneg, ?_⟩
        rw [ht]
  · exact Or.inl ⟨rfl, Or.inr (Or.inl ⟨hoff, hnone, rfl⟩)⟩

theorem view_cleanVictim (s : Sim σ) (victim : PtePtr) :
    (if hasFlag (s.pte victim).frame pgDirty then
        s.setPteFrame victim (clearFlag (s.pte victim).frame pgDirty) else s).view =
      s.view.setPageView victim (s.view.page victim).dropDirty := by
  by_cases hdirty : hasFlag (s.pte victim).frame pgDirty
  · rw [if_pos hdirty, Sim.view_clearDirty]
  · have hclean : (s.view.page victim).dropDirty = s.view.page victim := by
      have hfalse : (s.view.page victim).dirty = false := Bool.eq_false_iff.mpr hdirty
      rw [PageView.dropDirty, ← hfalse]
    rw [if_neg hdirty, hclean, View.setPageView, Function.update_eq_self]

theorem view_release (s : Sim σ) (victim : PtePtr) (off : ℤ) :
    ((s.setPteSwapOff victim off).setPteFrame victim
      (clearFlag ((s.setPteSwapOff victim off).pte victim).frame pgValid)).view =
      s.view.setPageView victim { s.view.page victim with valid := false, swapOff := off } := by
  rw [Sim.view_clearValid, Sim.view_setPteSwapOff]
  simp [View.setPageView, PageView.dropValid]

/-- What `evictVictim` does to the victim's page when no page is marked as on
swap: it is written out even if it is clean. -/
theorem evictVictim_yields (s : Sim σ) (frame : ℕ) (hno : s.view.NoOnswap) :
    Yields (evictVictim s frame)
      (fun t => frame < s.memsize ∧ ∃ victim off swapmap, s.view.owner frame = some victim ∧
        s.view.SlotFor victim off swapmap ∧ 0 ≤ off ∧
        t.view = s.view.unload frame victim off swapmap ∧ t.priv = s.priv)
      (fun e => (e = .wild ∧ (s.memsize ≤ frame ∨ s.view.owner frame = none)) ∨
        ∃ victim, s.view.owner frame = some victim ∧ s.view.SwapHalts victim e) := by
  unfold evictVictim
  by_cases hframe : frame < s.memsize
  · rw [if_pos hframe]
    cases howner : (s.coremap frame).pte with
    | none => exact Or.inl ⟨rfl, Or.inr howner⟩
    | some victim =>
        have hon : hasFlag (s.pte victim).frame pgOnswap = false := hno victim
        simp only [hon, Bool.false_eq_true, false_and, if_false]
        generalize hs₁ : (if hasFlag (s.pte victim).frame pgDirty then
          s.setPteFrame victim (clearFlag (s.pte victim).frame pgDirty) else s) = s₁
        have hview : s₁.view = s.view.setPageView victim (s.view.page victim).dropDirty := by
          rw [← hs₁, view_cleanVictim]
        have hpriv : s₁.priv = s.priv := by
          rw [← hs₁]
          split
          · exact s.priv_clearDirty victim
          · rfl
        have hmem : s₁.memsize = s.memsize := congrArg View.memsize hview
        have hpage : s₁.view.page victim = (s.view.page victim).dropDirty := by
          rw [hview]
          exact Function.update_self ..
        have hslot : ∀ off swapmap, s₁.view.SlotFor victim off swapmap ↔
            s.view.SlotFor victim off swapmap := by
          intro off swapmap
          have hmap : s₁.view.swapmap = s.view.swapmap := by rw [hview]; rfl
          rw [View.SlotFor, hpage, hmap]
          rfl
        have hhalts : ∀ e, s₁.view.SwapHalts victim e ↔ s.view.SwapHalts victim e := by
          intro e
          have hmap : s₁.view.swapmap = s.view.swapmap := by rw [hview]; rfl
          simp only [View.SwapHalts, hslot]
          rw [hpage, hmap]
          rfl
        refine ((swapPageout_yields s₁ (hmem.symm ▸ hframe) victim).mono (fun _ h => h)
          fun e he => Or.inr ⟨victim, howner, (hhalts e).mp he⟩).bind ?_
        rintro ⟨success, t⟩ (⟨hinv, hexit⟩ | ⟨swapmap, hok, hpos, ht⟩)
        · simp only at hinv
          simp only [hinv, if_true]
          exact Or.inr ⟨victim, howner, (hhalts _).mp hexit⟩
        · have hne : success ≠ invalidSwap := by
            simp only at hpos
            rw [invalidSwap]
            omega
          simp only [hne, if_false]
          refine ⟨hframe, victim, success, swapmap, howner, (hslot _ _).mp hok, hpos, ?_, ?_⟩
          all_goals
            simp only at ht
            subst ht
          swap
          · exact (Sim.priv_clearValid _ victim).trans
              ((Sim.priv_setPteSwapOff _ victim success).trans hpriv)
          apply (view_release _ victim success).trans
          change (s₁.view.writeOut frame success swapmap).setPageView victim
            { s₁.view.page victim with valid := false, swapOff := success } = _
          rw [hview]
          simp [View.writeOut, View.unload, View.setPageView, PageView.dropDirty]
  · rw [if_neg hframe]
    exact Or.inl ⟨rfl, Or.inl (Nat.le_of_not_lt hframe)⟩

theorem view_occupy (s : Sim σ) (frame : ℕ) (p : PtePtr) :
    (occupy s frame p).view = { s.view with
      inUse := Function.update s.view.inUse frame true
      owner := Function.update s.view.owner frame (some p) } := by
  ext i <;> try rfl
  all_goals
    simp only [Sim.view, occupy, Sim.setFrame, Function.update_apply]
    split <;> simp_all

theorem priv_occupy (s : Sim σ) (frame : ℕ) (p : PtePtr) : (occupy s frame p).priv = s.priv := by
  ext i <;> try rfl
  all_goals
    simp only [Sim.priv, occupy, Sim.setFrame, Function.update_apply]
    split <;> simp_all

def View.freeFrame (v : View) : Option ℕ := (List.range v.memsize).find? fun i => !v.inUse i

/-- How `allocate_frame` came by the frame it returns. -/
inductive Allocated (F : Functions σ) (s : Sim σ) (frame : ℕ) (v : View) (priv : Priv σ) : Prop
  | free (hfree : s.view.freeFrame = some frame) (hview : v = s.view) (hpriv : priv = s.priv)
  | evicted (s₂ : Sim σ) (victim : PtePtr) (off : ℤ) (swapmap : Bitmap)
      (hfull : s.view.freeFrame = none) (hevict : F.evict s = .ok (frame, s₂))
      (hframe : frame < s.memsize) (howner : s.view.owner frame = some victim)
      (hslot : s.view.SlotFor victim off swapmap) (hoff : 0 ≤ off)
      (hview : v = s.view.unload frame victim off swapmap) (hpriv : priv = s₂.priv)

/-- The ways in which `allocate_frame` stops the simulator. -/
def AllocationHalts (F : Functions σ) (s : Sim σ) (e : Halt) : Prop :=
  s.view.freeFrame = none ∧ (F.evict s = .error e ∨
    ∃ frame s₂, F.evict s = .ok (frame, s₂) ∧
      ((e = .wild ∧ (s.memsize ≤ frame ∨ s.view.owner frame = none)) ∨
        ∃ victim, s.view.owner frame = some victim ∧ s.view.SwapHalts victim e))

theorem allocateFrame_yields {F : Functions σ} (hF : F.Polite) (s : Sim σ) (p : PtePtr)
    (hno : s.view.NoOnswap) :
    Yields (allocateFrame F s p)
      (fun r => ∃ v priv, Allocated F s r.1 v priv ∧ r.2.priv = priv ∧
        r.2.view = { v with
          inUse := Function.update v.inUse r.1 true
          owner := Function.update v.owner r.1 (some p) })
      (AllocationHalts F s) := by
  unfold allocateFrame
  cases hfree : freeFrame s with
  | some frame =>
      exact ⟨s.view, s.priv, .free hfree rfl rfl, priv_occupy s frame p, view_occupy s frame p⟩
  | none =>
      cases hevict : F.evict s with
      | error e => exact ⟨hfree, Or.inl hevict⟩
      | ok r =>
          obtain ⟨frame, s₂⟩ := r
          have hview := hF.evict_view s frame s₂ hevict
          have hmem : s₂.memsize = s.memsize := congrArg View.memsize hview
          have hno₂ : s₂.view.NoOnswap := hview ▸ hno
          have hvictim := evictVictim_yields s₂ frame hno₂
          rw [hview, hmem] at hvictim
          refine (hvictim.mono (fun _ h => h) fun e he =>
            ⟨hfree, Or.inr ⟨frame, s₂, hevict, he⟩⟩).bind ?_
          rintro t ⟨hframe, victim, off, swapmap, howner, hslot, hoff, ht, hpriv⟩
          refine ⟨_, _, .evicted s₂ victim off swapmap hfree hevict hframe howner hslot hoff
            rfl rfl, ?_, ?_⟩
          · rw [priv_occupy, hpriv]
          · rw [view_occupy, ht]

theorem View.freeFrame_eq_some_iff {v : View} {i : ℕ} :
    v.freeFrame = some i ↔ i < v.memsize ∧ v.inUse i = false ∧ ∀ j < i, v.inUse j = true := by
  simp only [View.freeFrame, List.find?_range_eq_some, List.mem_range, Bool.not_eq_true',
    Bool.not_not]
  tauto

theorem View.freeFrame_eq_none_iff {v : View} :
    v.freeFrame = none ↔ ∀ i < v.memsize, v.inUse i = true := by
  simp [View.freeFrame]

theorem Allocated.lt_memsize {F : Functions σ} {s : Sim σ} {frame : ℕ} {v : View} {priv : Priv σ}
    (h : Allocated F s frame v priv) : frame < s.memsize := by
  cases h with
  | free hfree => exact (View.freeFrame_eq_some_iff.mp hfree).1
  | evicted _ _ _ _ _ _ hframe => exact hframe

theorem view_enter (s : Sim σ) (p : PtePtr) {n : ℕ} (hn : n < 2 ^ 20) :
    ((s.setPteFrame p (pack 32 pageShift n)).setPteFrame p
      (setFlag ((s.setPteFrame p (pack 32 pageShift n)).pte p).frame pgDirty)).view =
      s.view.setPageView p ⟨false, true, false, n, (s.view.page p).swapOff⟩ := by
  rw [Sim.view_setDirty, Sim.view_setPteFrame, view_pack hn]
  simp [View.setPageView, PageView.markDirty, Sim.view, PgtblEntry.view]

theorem priv_enter (s : Sim σ) (p : PtePtr) (x : BitVec 32) :
    ((s.setPteFrame p x).setPteFrame p
      (setFlag ((s.setPteFrame p x).pte p).frame pgDirty)).priv.setRef p = s.priv.setRef p := by
  rw [Sim.priv_setDirty, Sim.setPteFrame, Sim.priv_setPte]
  simp [Priv.setRef]

theorem firstTouch_yields {F : Functions σ} (hF : F.Polite) (s : Sim σ) (p : PtePtr) (vaddr : ℕ)
    (hno : s.view.NoOnswap) (hm : s.memsize ≤ 2 ^ 20) :
    Yields (firstTouch F s p vaddr)
      (fun t => ∃ frame v priv, Allocated F s frame v priv ∧ t.view = v.load p frame vaddr ∧
        t.priv.setRef p = priv.setRef p)
      (AllocationHalts F s) := by
  unfold firstTouch
  apply (allocateFrame_yields hF s p hno).bind
  rintro ⟨frame, t⟩ ⟨v, priv, halloc, hpriv, hview⟩
  refine ⟨frame, v, priv, halloc, ?_, ?_⟩
  · have hlt : frame < 2 ^ 20 := Nat.lt_of_lt_of_le halloc.lt_memsize hm
    have hload : ∀ u : View, u = t.view → { (({ u with
        physmem := Function.update u.physmem frame ⟨0#32, vaddr, 0#32⟩ } : View).setPageView p
          ⟨false, true, false, frame, (u.page p).swapOff⟩) with
        missCount := u.missCount + 1
        refCount := u.refCount + 1 } = v.load p frame vaddr := by
      rintro u rfl
      rw [hview]
      rfl
    rw [← hload t.view rfl]
    have henter := view_enter (initFrame t frame vaddr) p hlt
    exact congrArg (fun u : View => { u with
      missCount := t.view.missCount + 1
      refCount := t.view.refCount + 1 }) henter
  · rw [← hpriv]
    exact priv_enter (initFrame t frame vaddr) p (pack 32 pageShift frame)

/-- `find_physpage` up to the call of `ref_fcn`, seen from outside: the page
was resident, or it is loaded into a free frame or into a frame taken from a
victim.  Reading a page back from swap does not occur. -/
inductive Arrives (F : Functions σ) (s : Sim σ) (vaddr : ℕ) (type : Char) (t : Sim σ) : Prop
  | hit (hvalid : (s.view.page (ptePtr vaddr)).valid = true)
      (hview : t.view = s.view.hit.touch (ptePtr vaddr) type)
      (hpriv : t.priv = s.priv.setRef (ptePtr vaddr))
  | fill (frame : ℕ) (hvalid : (s.view.page (ptePtr vaddr)).valid = false)
      (hfree : s.view.freeFrame = some frame)
      (hview : t.view = (s.view.load (ptePtr vaddr) frame vaddr).touch (ptePtr vaddr) type)
      (hpriv : t.priv = s.priv.setRef (ptePtr vaddr))
  | replace (walked s₂ : Sim σ) (frame : ℕ) (victim : PtePtr) (off : ℤ) (swapmap : Bitmap)
      (hvalid : (s.view.page (ptePtr vaddr)).valid = false)
      (hfull : s.view.freeFrame = none) (hwalk : walkPgdir s vaddr = .ok walked)
      (hevict : F.evict walked = .ok (frame, s₂)) (hframe : frame < s.memsize)
      (howner : s.view.owner frame = some victim)
      (hslot : s.view.SlotFor victim off swapmap) (hoff : 0 ≤ off)
      (hview : t.view = ((s.view.unload frame victim off swapmap).load (ptePtr vaddr) frame
        vaddr).touch (ptePtr vaddr) type)
      (hpriv : t.priv = s₂.priv.setRef (ptePtr vaddr))

/-- The ways in which `find_physpage` stops the simulator. -/
def TranslationHalts (F : Functions σ) (s : Sim σ) (vaddr : ℕ) (e : Halt) : Prop :=
  (e = .wild ∧ ptrsPerPgdir ≤ pgdirIndex vaddr) ∨
    (s.view.page (ptePtr vaddr)).valid = false ∧
      ∃ walked, walkPgdir s vaddr = .ok walked ∧ walked.view = s.view ∧ AllocationHalts F walked e

theorem view_markAccessed (s : Sim σ) (p : PtePtr) (type : Char) :
    (markAccessed s p type).view = s.view.touch p type := by
  unfold markAccessed
  by_cases htype : isWrite type = true
  · simp only [htype, if_true]
    rw [Sim.view_setDirty, Sim.view_setRef, Sim.view_setValid]
    simp [View.setPageView, View.touch, PageView.markDirty, PageView.markValid, htype]
  · simp only [htype, Bool.false_eq_true, if_false]
    rw [Sim.view_setRef, Sim.view_setValid]
    simp [View.setPageView, View.touch, PageView.markValid, htype]

theorem priv_markAccessed (s : Sim σ) (p : PtePtr) (type : Char) :
    (markAccessed s p type).priv = s.priv.setRef p := by
  unfold markAccessed
  by_cases htype : isWrite type = true
  · simp only [htype, if_true]
    rw [Sim.priv_setDirty, Sim.priv_setRef, Sim.priv_setValid]
  · simp only [htype, Bool.false_eq_true, if_false]
    rw [Sim.priv_setRef, Sim.priv_setValid]

theorem translate_yields {F : Functions σ} (hF : F.Polite) (s : Sim σ) (vaddr : ℕ) (type : Char)
    (hno : s.view.NoOnswap) (hm : s.memsize ≤ 2 ^ 20) :
    Yields (translate F s vaddr type) (Arrives F s vaddr type) (TranslationHalts F s vaddr) := by
  unfold translate
  have hwalks : Yields (walkPgdir s vaddr)
      (fun t => walkPgdir s vaddr = .ok t ∧ t.view = s.view ∧ t.priv = s.priv)
      (TranslationHalts F s vaddr) :=
    (walkPgdir_yields s vaddr).and_eq.mono (fun _ h => h) fun _ he => Or.inl he
  apply hwalks.bind
  rintro walked ⟨hwalk, hview, hpriv⟩
  have hpage : walked.view.page (ptePtr vaddr) = s.view.page (ptePtr vaddr) := by rw [hview]
  have hvalid : hasFlag (walked.pte (ptePtr vaddr)).frame pgValid =
      (s.view.page (ptePtr vaddr)).valid := congrArg PageView.valid hpage
  have hon : hasFlag (walked.pte (ptePtr vaddr)).frame pgOnswap = false :=
    (congrArg PageView.onswap hpage).trans (hno _)
  have hmem : walked.memsize = s.memsize := congrArg View.memsize hview
  simp only [hvalid, hon]
  cases hv : (s.view.page (ptePtr vaddr)).valid with
  | true =>
      simp only [Bool.false_eq_true, not_true_eq_false, not_false_eq_true,
        false_and, if_false]
      refine .hit hv ?_ ?_
      · rw [view_markAccessed, ← hview]
        rfl
      · rw [priv_markAccessed, ← hpriv]
        rfl
  | false =>
      simp only [Bool.false_eq_true, not_false_eq_true, and_self, if_true]
      have hfirst := firstTouch_yields hF walked (ptePtr vaddr) vaddr (hview ▸ hno) (hmem ▸ hm)
      refine (hfirst.mono (fun _ h => h) fun e he =>
        Or.inr ⟨hv, walked, hwalk, hview, he⟩).bind ?_
      rintro t ⟨frame, v, priv, halloc, htview, htpriv⟩
      cases halloc with
      | free hfree hv' hpriv' =>
          refine .fill frame hv (hview ▸ hfree) ?_ ?_
          · rw [view_markAccessed, htview, hv', hview]
          · rw [priv_markAccessed, htpriv, hpriv', hpriv]
      | evicted s₂ victim off swapmap hfull hevict hframe howner hslot hoff hv' hpriv' =>
          rw [hview] at hfull howner hslot hv'
          refine .replace walked s₂ frame victim off swapmap hv hfull hwalk hevict
            (hmem ▸ hframe) howner hslot hoff ?_ ?_
          · rw [view_markAccessed, htview, hv']
          · rw [priv_markAccessed, htpriv, hpriv']

theorem findPhyspage_yields {F : Functions σ} (hF : F.Polite) (s : Sim σ) (vaddr : ℕ)
    (type : Char) (hno : s.view.NoOnswap) (hm : s.memsize ≤ 2 ^ 20) :
    Yields (findPhyspage F s vaddr type)
      (fun r => ∃ t, translate F s vaddr type = .ok t ∧ Arrives F s vaddr type t ∧
        F.ref t (ptePtr vaddr) = .ok r.2 ∧ r.2.view = t.view ∧
        r.1 = (t.view.page (ptePtr vaddr)).number)
      (fun e => TranslationHalts F s vaddr e ∨
        ∃ t, translate F s vaddr type = .ok t ∧ F.ref t (ptePtr vaddr) = .error e) := by
  unfold findPhyspage
  refine ((translate_yields hF s vaddr type hno hm).and_eq.mono (fun _ h => h)
    fun e he => Or.inl he).bind ?_
  rintro t ⟨htrans, harr⟩
  cases href : F.ref t (ptePtr vaddr) with
  | error e => exact Or.inr ⟨t, htrans, href⟩
  | ok u =>
      have hview := hF.ref_view t _ u href
      refine ⟨t, htrans, harr, href, hview, ?_⟩
      rw [← hview]
      rfl

theorem useFrame_yields (s : Sim σ) (frame : ℕ) (a : Access) :
    Yields (useFrame s frame a)
      (fun t => frame < s.memsize ∧ t.view = s.view.store frame a ∧ t.priv = s.priv)
      (fun e => e = .wild ∧ s.memsize ≤ frame) := by
  unfold useFrame
  by_cases hframe : frame < s.memsize
  · rw [if_pos hframe]
    by_cases hcheck : (s.physmem frame).vaddr = a.vaddr
    · cases hw : isWrite a.type <;>
        simp [hcheck, hframe, View.store, Sim.view, Sim.priv, hw, Sim.setPage, Sim.pte, Sim.table]
    · cases hw : isWrite a.type <;>
        simp [hcheck, hframe, View.store, Sim.view, Sim.priv, hw, Sim.setPage, Sim.pte, Sim.table]
  · rw [if_neg hframe]
    exact ⟨rfl, Nat.le_of_not_lt hframe⟩

end KernelProgramming.Paging
