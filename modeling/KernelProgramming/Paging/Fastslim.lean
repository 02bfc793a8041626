import Mathlib.Data.List.Sort
import KernelProgramming.Library.Recency

/-!
# fastslim.py

Reduces a trace through a buffer of items for different pages.  The last
reference to a page in the buffer is meant to be printed like the first one,
but the item that is marked for this is the new one, which nothing keeps.
-/

namespace KernelProgramming.Paging

open Recency

/-- A reference that the loop over the lines accepts. -/
structure Reference where
  reftype : String
  pg : ℤ
  deriving DecidableEq, Repr

structure TraceItem where
  reftype : String
  pg : ℤ
  tstamp : ℕ
  marked : Bool
  deriving DecidableEq, Repr

/-- The global variables and what has been printed.  Two items are equal for
the set `tracebuffer` if their pages are. -/
structure Slim where
  ts : ℕ
  tracebuffer : List TraceItem
  toprint : List TraceItem
  printed : List TraceItem

def pages (items : List TraceItem) : List ℤ := items.map TraceItem.pg

def emitMarkedInTsOrder (s : Slim) : Slim :=
  let toprint := s.toprint ++ s.tracebuffer.filter TraceItem.marked
  { s with
    printed := s.printed ++ toprint.insertionSort fun a b => a.tstamp ≤ b.tstamp
    tracebuffer := []
    toprint := [] }

/-- `ti in tracebuffer`. -/
def Slim.holds (s : Slim) (pg : ℤ) : Bool := s.tracebuffer.any fun ti => ti.pg == pg

/-- The body of the loop. -/
def Slim.read (buffersize : ℕ) (s : Slim) (r : Reference) : Slim :=
  let ti : TraceItem := ⟨r.reftype, r.pg, s.ts, false⟩
  if s.holds ti.pg then
    -- `marked` and `tstamp` are set in `ti`, not in the item that the buffer holds
    { s with ts := s.ts + 1 }
  else
    let s := if s.tracebuffer.length = buffersize then emitMarkedInTsOrder s else s
    { s with
      toprint := s.toprint ++ [ti]
      tracebuffer := s.tracebuffer ++ [ti]
      ts := s.ts + 1 }

def slim (buffersize : ℕ) (input : List Reference) : Slim :=
  input.foldl (Slim.read buffersize) ⟨0, [], [], []⟩

/-- The reference makes the program empty the buffer. -/
def Slim.Flushes (buffersize : ℕ) (s : Slim) (r : Reference) : Prop :=
  s.holds r.pg = false ∧ s.tracebuffer.length = buffersize

/-- Whenever the buffer is emptied, the references printed make as many faults
as those read before. -/
def KeepsFaults (buffersize m : ℕ) (input : List Reference) : Prop :=
  ∀ before r after, input = before ++ r :: after → (slim buffersize before).Flushes buffersize r →
    faults m (pages (emitMarkedInTsOrder (slim buffersize before)).printed) =
      faults m (before.map Reference.pg)

/-! ## Windows of the input -/

/-- The pages in the order of their first references. -/
def firsts (w : List ℤ) : List ℤ := w.reverse.dedup.reverse

/-- The last references to the pages come in the order of the first ones. -/
def InOrder (w : List ℤ) : Prop := w.dedup = firsts w

instance : DecidablePred InOrder := fun _ => inferInstanceAs (Decidable (_ = _))

/-- The parts of the input that are followed by a page too many for the buffer. -/
def windowsFrom (buffersize : ℕ) : List ℤ → List ℤ → List (List ℤ)
  | _, [] => []
  | w, pg :: rest =>
      if pg ∉ w ∧ w.dedup.length = buffersize then w :: windowsFrom buffersize [pg] rest
      else windowsFrom buffersize (w ++ [pg]) rest

def windows (buffersize : ℕ) (input : List Reference) : List (List ℤ) :=
  windowsFrom buffersize [] (input.map Reference.pg)

section Windows

variable {w : List ℤ} {pg : ℤ}

theorem firsts_concat_of_mem (h : pg ∈ w) : firsts (w ++ [pg]) = firsts w := by
  simp [firsts, h]

theorem firsts_concat_of_notMem (h : pg ∉ w) : firsts (w ++ [pg]) = firsts w ++ [pg] := by
  simp [firsts, h]

theorem mem_firsts : pg ∈ firsts w ↔ pg ∈ w := by
  simp [firsts]

theorem firsts_perm (w : List ℤ) : (firsts w).Perm w.dedup := by
  apply (List.reverse_perm _).trans
  exact (List.perm_ext_iff_of_nodup (List.nodup_dedup _) (List.nodup_dedup _)).mpr fun pg => by simp

theorem nodup_firsts (w : List ℤ) : (firsts w).Nodup := List.nodup_reverse.mpr (List.nodup_dedup _)

theorem recency_firsts (w : List ℤ) : recency (firsts w) = (firsts w).reverse := by
  rw [recency_eq_dedup, (nodup_firsts w).dedup]

end Windows

/-! ## The state of the program -/

/-- What waits to be printed after the references of the window `w`: the first one to each page,
without a mark. -/
structure Waits (s : Slim) (w : List ℤ) : Prop where
  firsts_eq : pages s.toprint = firsts w
  buffer : s.tracebuffer = s.toprint
  unmarked : ∀ ti ∈ s.toprint, ti.marked = false
  sorted : s.toprint.Pairwise fun a b => a.tstamp ≤ b.tstamp
  earlier : ∀ ti ∈ s.toprint, ti.tstamp ≤ s.ts

/-- After the references `seen` and then those of the window `w`, where what is
printed stands for `seen` and what waits to be printed for `w`. -/
structure InStep (buffersize m : ℕ) (s : Slim) (seen w : List ℤ) : Prop where
  order : recency (pages s.printed) = recency seen
  faults_eq : faults m (pages s.printed ++ pages s.toprint) = faults m (seen ++ w)
  firsts_eq : pages s.toprint = firsts w
  buffer : s.tracebuffer = s.toprint
  unmarked : ∀ ti ∈ s.toprint, ti.marked = false
  sorted : s.toprint.Pairwise fun a b => a.tstamp ≤ b.tstamp
  earlier : ∀ ti ∈ s.toprint, ti.tstamp ≤ s.ts
  short : w.dedup.length ≤ buffersize

/-- The state after a reference to a page that the buffer does not hold. -/
def Slim.keep (s : Slim) (r : Reference) : Slim :=
  { s with
    toprint := s.toprint ++ [⟨r.reftype, r.pg, s.ts, false⟩]
    tracebuffer := s.tracebuffer ++ [⟨r.reftype, r.pg, s.ts, false⟩]
    ts := s.ts + 1 }

section Run

variable {k m : ℕ} {s : Slim} {seen w : List ℤ} {r : Reference} {input : List Reference}

theorem waits_start : Waits ⟨0, [], [], []⟩ [] :=
  ⟨rfl, rfl, fun _ h => absurd h List.not_mem_nil, List.Pairwise.nil,
    fun _ h => absurd h List.not_mem_nil⟩

theorem Waits.holds_iff (h : Waits s w) (pg : ℤ) : s.holds pg = true ↔ pg ∈ w := by
  rw [Slim.holds, h.buffer, ← mem_firsts, ← h.firsts_eq, List.any_eq_true, pages, List.mem_map]
  simp only [beq_iff_eq]

theorem Waits.length_eq (h : Waits s w) : s.tracebuffer.length = w.dedup.length := by
  rw [h.buffer, ← (firsts_perm w).length_eq, ← h.firsts_eq, pages, List.length_map]

/-- The buffer is printed in the order in which it was filled. -/
theorem Waits.emit_eq (h : Waits s w) :
    emitMarkedInTsOrder s = { s with
      printed := s.printed ++ s.toprint, tracebuffer := [], toprint := [] } := by
  have hnone : s.tracebuffer.filter TraceItem.marked = [] :=
    List.filter_eq_nil_iff.mpr fun ti hti => by
      rw [h.unmarked ti (h.buffer ▸ hti)]
      exact Bool.false_ne_true
  simp only [emitMarkedInTsOrder, hnone, List.append_nil, h.sorted.insertionSort_eq]

theorem Waits.emit (h : Waits s w) : Waits (emitMarkedInTsOrder s) [] := by
  rw [h.emit_eq]
  exact ⟨rfl, rfl, fun _ hti => absurd hti List.not_mem_nil, List.Pairwise.nil,
    fun _ hti => absurd hti List.not_mem_nil⟩

theorem Waits.again (h : Waits s w) (hpg : r.pg ∈ w) :
    Waits { s with ts := s.ts + 1 } (w ++ [r.pg]) := by
  refine ⟨?_, h.buffer, h.unmarked, h.sorted, fun ti hti => ?_⟩
  · rw [firsts_concat_of_mem hpg]
    exact h.firsts_eq
  · exact le_trans (h.earlier ti hti) (Nat.le_succ s.ts)

theorem pages_keep (s : Slim) (r : Reference) :
    pages (s.keep r).toprint = pages s.toprint ++ [r.pg] := by
  simp [Slim.keep, pages]

theorem Waits.keep (h : Waits s w) (hpg : r.pg ∉ w) : Waits (s.keep r) (w ++ [r.pg]) := by
  refine ⟨?_, congrArg (· ++ _) h.buffer, ?_, ?_, ?_⟩
  · rw [pages_keep, h.firsts_eq, firsts_concat_of_notMem hpg]
  · intro ti hti
    rcases List.mem_append.mp hti with hti | hti
    · exact h.unmarked ti hti
    · rw [List.mem_singleton.mp hti]
  · refine List.pairwise_append.mpr ⟨h.sorted, List.pairwise_singleton _ _, fun ti hti tj htj => ?_⟩
    rw [List.mem_singleton.mp htj]
    exact h.earlier ti hti
  · intro ti hti
    rcases List.mem_append.mp hti with hti | hti
    · exact le_trans (h.earlier ti hti) (Nat.le_succ s.ts)
    · rw [List.mem_singleton.mp hti]
      exact Nat.le_succ s.ts

/-- The three ways in which the loop treats a reference. -/
theorem Waits.read_eq (h : Waits s w) :
    s.read k r = if r.pg ∈ w then { s with ts := s.ts + 1 }
      else if w.dedup.length = k then (emitMarkedInTsOrder s).keep r else s.keep r := by
  unfold Slim.read
  simp only [h.length_eq, h.holds_iff]
  by_cases hpg : r.pg ∈ w
  · rw [if_pos hpg, if_pos hpg]
  · rw [if_neg hpg, if_neg hpg]
    by_cases hfull : w.dedup.length = k
    · rw [if_pos hfull, if_pos hfull]
      rfl
    · rw [if_neg hfull, if_neg hfull]
      rfl

theorem InStep.waits (h : InStep k m s seen w) : Waits s w :=
  ⟨h.firsts_eq, h.buffer, h.unmarked, h.sorted, h.earlier⟩

theorem Waits.inStep (h : Waits s w) (horder : recency (pages s.printed) = recency seen)
    (hfaults : faults m (pages s.printed ++ pages s.toprint) = faults m (seen ++ w))
    (hshort : w.dedup.length ≤ k) : InStep k m s seen w :=
  ⟨horder, hfaults, h.firsts_eq, h.buffer, h.unmarked, h.sorted, h.earlier, hshort⟩

/-- Both lists of pages by last use begin with the pages of the window. -/
theorem InStep.recency_eq (h : InStep k m s seen w) :
    recency (seen ++ w) = w.dedup.reverse ++ (recency seen).filter (· ∉ w) ∧
      recency (pages s.printed ++ pages s.toprint) =
        (firsts w).reverse ++ (recency seen).filter (· ∉ w) := by
  rw [recency_append, recency_append, recency_eq_dedup w, h.order, h.firsts_eq, recency_firsts]
  simp only [mem_firsts, and_self]

/-- A reference to a page of the window is not a fault. -/
theorem InStep.again (h : InStep k m s seen w) (hm : k ≤ m) (hpg : r.pg ∈ w) :
    InStep k m { s with ts := s.ts + 1 } seen (w ++ [r.pg]) := by
  have hhit : r.pg ∈ (recency (seen ++ w)).take m := by
    have hlen : w.dedup.reverse.length ≤ m := by
      rw [List.length_reverse]
      exact le_trans h.short hm
    rw [h.recency_eq.1, List.take_append, List.take_of_length_le hlen]
    exact List.mem_append_left _ (by simpa using hpg)
  have hsame : (w ++ [r.pg]).dedup.length = w.dedup.length := by
    rw [← (firsts_perm _).length_eq, firsts_concat_of_mem hpg, (firsts_perm w).length_eq]
  refine (h.waits.again hpg).inStep h.order ?_ (hsame ▸ h.short)
  rw [← List.append_assoc, faults_concat, if_pos hhit]
  exact h.faults_eq

/-- A page that is new to the window is a fault in both traces or in none. -/
theorem InStep.keep (h : InStep k m s seen w) (hm : k ≤ m) (hpg : r.pg ∉ w)
    (hroom : w.dedup.length < k) : InStep k m (s.keep r) seen (w ++ [r.pg]) := by
  obtain ⟨hseen, hprinted⟩ := h.recency_eq
  have hle : w.dedup.length ≤ m := le_trans h.short hm
  have hlen : (firsts w).length = w.dedup.length := (firsts_perm w).length_eq
  have hfault : r.pg ∈ (recency (pages s.printed ++ pages s.toprint)).take m ↔
      r.pg ∈ (recency (seen ++ w)).take m := by
    have hold : (firsts w).reverse.take m = (firsts w).reverse :=
      List.take_of_length_le (by rwa [List.length_reverse, hlen])
    have hnow : w.dedup.reverse.take m = w.dedup.reverse :=
      List.take_of_length_le (by rwa [List.length_reverse])
    rw [hseen, hprinted, List.take_append, List.take_append, hold, hnow, List.length_reverse,
      List.length_reverse, hlen]
    simp only [List.mem_append, List.mem_reverse, mem_firsts, List.mem_dedup]
  have hmore : (w ++ [r.pg]).dedup.length = w.dedup.length + 1 := by
    rw [← (firsts_perm _).length_eq, firsts_concat_of_notMem hpg, List.length_append, hlen]
    rfl
  refine (h.waits.keep hpg).inStep h.order ?_ (hmore ▸ hroom)
  have hkept : (s.keep r).printed = s.printed := rfl
  rw [pages_keep, hkept, ← List.append_assoc, ← List.append_assoc, faults_concat, faults_concat,
    h.faults_eq]
  exact congrArg _ (if_congr hfault rfl rfl)

/-- After a window in order, what has been printed stands for the input. -/
theorem InStep.emit (h : InStep k m s seen w) (horder : InOrder w) :
    InStep k m (emitMarkedInTsOrder s) (seen ++ w) [] := by
  have hprinted : pages (s.printed ++ s.toprint) = pages s.printed ++ pages s.toprint :=
    List.map_append
  refine h.waits.emit.inStep ?_ ?_ (Nat.zero_le k)
  · rw [h.waits.emit_eq, hprinted, h.recency_eq.1, h.recency_eq.2, horder]
  · rw [h.waits.emit_eq, hprinted, List.append_nil, ← h.faults_eq]
    exact congrArg (faults m) (List.append_nil _)

theorem inStep_start (k m : ℕ) : InStep k m ⟨0, [], [], []⟩ [] [] :=
  waits_start.inStep rfl rfl (Nat.zero_le k)

/-- What one reference does to the window. -/
theorem InStep.read (h : InStep k m s seen w) (hk : 1 ≤ k) (hm : k ≤ m)
    (horder : r.pg ∉ w → w.dedup.length = k → InOrder w) :
    if r.pg ∉ w ∧ w.dedup.length = k then InStep k m (s.read k r) (seen ++ w) [r.pg]
    else InStep k m (s.read k r) seen (w ++ [r.pg]) := by
  rw [h.waits.read_eq]
  by_cases hpg : r.pg ∈ w
  · rw [if_neg fun hfull => hfull.1 hpg, if_pos hpg]
    exact h.again hm hpg
  · rw [if_neg hpg]
    by_cases hfull : w.dedup.length = k
    · rw [if_pos ⟨hpg, hfull⟩, if_pos hfull]
      exact (h.emit (horder hpg hfull)).keep hm List.not_mem_nil hk
    · rw [if_neg fun hboth => hfull hboth.2, if_neg hfull]
      exact h.keep hm hpg (lt_of_le_of_ne h.short hfull)

theorem InStep.keepsFaults (h : InStep k m s seen w) (hk : 1 ≤ k) (hm : k ≤ m)
    (horder : ∀ w' ∈ windowsFrom k w (input.map Reference.pg), InOrder w')
    {before after : List Reference} (hsplit : input = before ++ r :: after)
    (hflush : (before.foldl (Slim.read k) s).Flushes k r) :
    faults m (pages (emitMarkedInTsOrder (before.foldl (Slim.read k) s)).printed) =
      faults m (seen ++ w ++ before.map Reference.pg) := by
  induction before generalizing s seen w input with
  | nil =>
      have hprinted : pages (s.printed ++ s.toprint) = pages s.printed ++ pages s.toprint :=
        List.map_append
      rw [List.foldl_nil, h.waits.emit_eq, List.map_nil, List.append_nil, ← h.faults_eq, ← hprinted]
  | cons x before ih =>
      subst hsplit
      rw [List.cons_append, List.map_cons, windowsFrom] at horder
      have hstep := h.read (r := x) hk hm fun hpg hfull =>
        horder w (by rw [if_pos ⟨hpg, hfull⟩]; exact List.mem_cons_self)
      rw [List.map_cons]
      split_ifs at hstep horder with hnew
      · rw [List.foldl_cons,
          ih hstep (fun w' hw' => horder w' (List.mem_cons_of_mem w hw')) rfl hflush]
        simp
      · rw [List.foldl_cons, ih hstep horder rfl hflush]
        simp

/-- In each window that fills the buffer the pages must be referenced last in
the order in which they are referenced first. -/
theorem slim_keepsFaults (hk : 1 ≤ k) (hm : k ≤ m) (horder : ∀ w ∈ windows k input, InOrder w) :
    KeepsFaults k m input := by
  intro before r after hsplit hflush
  have hfaults := (inStep_start k m).keepsFaults hk hm horder hsplit hflush
  rwa [List.nil_append, List.nil_append] at hfaults

end Run

/-- Pages 1 2 1, then 3 1, with a buffer of two items. -/
def lastLost : List Reference :=
  [⟨"L", 1⟩, ⟨"L", 2⟩, ⟨"L", 1⟩, ⟨"L", 3⟩, ⟨"L", 1⟩, ⟨"L", 2⟩]

theorem slim_keepsFaults_two : KeepsFaults 2 2 [⟨"L", 1⟩, ⟨"S", 1⟩, ⟨"L", 2⟩, ⟨"L", 3⟩] :=
  slim_keepsFaults (by decide) le_rfl (by decide)

/-- Without the second reference to page 1 the page is given up too soon. -/
theorem slim_not_keepsFaults : ¬ ∀ (k m : ℕ) (input : List Reference), 1 ≤ k → k ≤ m →
    KeepsFaults k m input := by
  intro h
  have hfaults := h 2 2 lastLost (by decide) le_rfl
    [⟨"L", 1⟩, ⟨"L", 2⟩, ⟨"L", 1⟩, ⟨"L", 3⟩, ⟨"L", 1⟩] ⟨"L", 2⟩ [] rfl ⟨by decide, by decide⟩
  exact absurd hfaults (by decide)

end KernelProgramming.Paging
