import KernelProgramming.Paging.Fastslim
import KernelProgramming.Paging.TraceFile

/-!
# What fastslim.py prints

The lines of the valgrind output that count, and what has become of their
references when the loop ends.  Nothing empties the buffer after the last line,
so the references that still wait are not printed.
-/

namespace KernelProgramming.Paging

def strip (s : List Char) : List Char := ((s.dropWhile isSpace).reverse.dropWhile isSpace).reverse

/-- The part of the loop body that decides on a line.  `int16` stands for `int(·, 16)`, without a
value where that raises `ValueError`. -/
def acceptLine (int16 : List Char → Option ℤ) (keepcode : Bool) (line : List Char) :
    Option Reference :=
  if line.head? = some '=' then none
  else
    let reftype := strip (line.take 2)
    if reftype = ['I'] ∧ keepcode = false then none
    else
      let addrstr := strip ((line.takeWhile (· ≠ ',')).drop 3)
      match int16 addrstr with
      | none => none
      | some addr => some ⟨String.ofList reftype, addr / 4096⟩

/-- The references of the lines that are not skipped. -/
def accepted (int16 : List Char → Option ℤ) (keepcode : Bool) (lines : List (List Char)) :
    List Reference :=
  lines.filterMap (acceptLine int16 keepcode)

/-- The program, from its first line of input to its last. -/
def fastslim (int16 : List Char → Option ℤ) (keepcode : Bool) (buffersize : ℕ)
    (lines : List (List Char)) : Slim :=
  slim buffersize (accepted int16 keepcode lines)

def TraceItem.reference (ti : TraceItem) : Reference := ⟨ti.reftype, ti.pg⟩

/-- The references printed are some of the input, in its order, and no page is missing. -/
structure LosesNoPage (input : List Reference) (printed : List TraceItem) : Prop where
  inOrder : (printed.map TraceItem.reference).Sublist input
  complete : ∀ r ∈ input, r.pg ∈ pages printed

/-- The pages referenced before the buffer was emptied last, and those referenced since. -/
def lastWindowFrom (buffersize : ℕ) : List ℤ → List ℤ → List ℤ → List ℤ × List ℤ
  | seen, w, [] => (seen, w)
  | seen, w, pg :: rest =>
      if pg ∉ w ∧ w.dedup.length = buffersize then lastWindowFrom buffersize (seen ++ w) [pg] rest
      else lastWindowFrom buffersize seen (w ++ [pg]) rest

def lastWindow (buffersize : ℕ) (input : List Reference) : List ℤ × List ℤ :=
  lastWindowFrom buffersize [] [] (input.map Reference.pg)

/-- After `input`, what is printed stands for the pages `seen` and what waits for those of `w`. -/
structure Printed (s : Slim) (input : List Reference) (seen w : List ℤ) : Prop where
  waits : Waits s w
  pages_iff : ∀ pg, pg ∈ pages s.printed ↔ pg ∈ seen
  inOrder : ((s.printed ++ s.toprint).map TraceItem.reference).Sublist input
  input_eq : input.map Reference.pg = seen ++ w

section Run

variable {k : ℕ} {s : Slim} {input : List Reference} {seen w : List ℤ} {r : Reference}

theorem Printed.again (h : Printed s input seen w) (hpg : r.pg ∈ w) :
    Printed { s with ts := s.ts + 1 } (input ++ [r]) seen (w ++ [r.pg]) where
  waits := h.waits.again hpg
  pages_iff := h.pages_iff
  inOrder := h.inOrder.trans (List.sublist_append_left input [r])
  input_eq := by
    rw [List.map_append, h.input_eq, List.append_assoc]
    rfl

theorem Printed.keep (h : Printed s input seen w) (hpg : r.pg ∉ w) :
    Printed (s.keep r) (input ++ [r]) seen (w ++ [r.pg]) where
  waits := h.waits.keep hpg
  pages_iff := h.pages_iff
  inOrder := by
    have hadded : (s.keep r).printed ++ (s.keep r).toprint =
        s.printed ++ s.toprint ++ [⟨r.reftype, r.pg, s.ts, false⟩] :=
      (List.append_assoc ..).symm
    rw [hadded, List.map_append]
    exact h.inOrder.append (List.Sublist.refl [r])
  input_eq := by
    rw [List.map_append, h.input_eq, List.append_assoc]
    rfl

/-- Emptying the buffer prints every page of the window. -/
theorem Printed.emit (h : Printed s input seen w) :
    Printed (emitMarkedInTsOrder s) input (seen ++ w) [] where
  waits := h.waits.emit
  pages_iff pg := by
    rw [h.waits.emit_eq, pages, List.map_append, List.mem_append, List.mem_append]
    have hwaits : pg ∈ pages s.toprint ↔ pg ∈ w := by
      rw [h.waits.firsts_eq, mem_firsts]
    exact or_congr (h.pages_iff pg) hwaits
  inOrder := by
    rw [h.waits.emit_eq, List.append_nil]
    exact h.inOrder
  input_eq := h.input_eq.trans (List.append_nil _).symm

theorem Printed.read (h : Printed s input seen w) (k : ℕ) (r : Reference) :
    if r.pg ∉ w ∧ w.dedup.length = k then Printed (s.read k r) (input ++ [r]) (seen ++ w) [r.pg]
    else Printed (s.read k r) (input ++ [r]) seen (w ++ [r.pg]) := by
  rw [h.waits.read_eq]
  by_cases hpg : r.pg ∈ w
  · rw [if_neg fun hfull => hfull.1 hpg, if_pos hpg]
    exact h.again hpg
  · rw [if_neg hpg]
    by_cases hfull : w.dedup.length = k
    · rw [if_pos ⟨hpg, hfull⟩, if_pos hfull]
      exact h.emit.keep List.not_mem_nil
    · rw [if_neg fun hboth => hfull hboth.2, if_neg hfull]
      exact h.keep hpg

theorem Printed.foldl (h : Printed s input seen w) (rest : List Reference) :
    Printed (rest.foldl (Slim.read k) s) (input ++ rest)
      (lastWindowFrom k seen w (rest.map Reference.pg)).1
      (lastWindowFrom k seen w (rest.map Reference.pg)).2 := by
  induction rest generalizing s input seen w with
  | nil =>
      rw [List.append_nil]
      exact h
  | cons r rest ih =>
      have hstep := h.read k r
      rw [List.map_cons, lastWindowFrom, List.foldl_cons, List.append_cons]
      split_ifs at hstep ⊢ with hnew
      · exact ih hstep
      · exact ih hstep

theorem printed_slim (k : ℕ) (input : List Reference) :
    Printed (slim k input) input (lastWindow k input).1 (lastWindow k input).2 := by
  have hstart : Printed ⟨0, [], [], []⟩ [] [] [] :=
    ⟨waits_start, fun _ => Iff.rfl, List.Sublist.refl [], rfl⟩
  exact hstart.foldl input

theorem Printed.losesNoPage_iff (h : Printed s input seen w) :
    LosesNoPage input s.printed ↔ ∀ pg ∈ w, pg ∈ seen := by
  have hmem : ∀ pg, pg ∈ seen ++ w ↔ ∃ r ∈ input, r.pg = pg := by
    intro pg
    rw [← h.input_eq, List.mem_map]
  constructor
  · intro hcomplete pg hpg
    obtain ⟨r, hr, rfl⟩ := (hmem pg).mp (List.mem_append_right seen hpg)
    exact (h.pages_iff r.pg).mp (hcomplete.complete r hr)
  · intro hseen
    refine ⟨?_, fun r hr => ?_⟩
    · have hinput := h.inOrder
      rw [List.map_append] at hinput
      exact (List.sublist_append_left _ _).trans hinput
    · rw [h.pages_iff]
      rcases List.mem_append.mp ((hmem r.pg).mpr ⟨r, hr, rfl⟩) with hpg | hpg
      · exact hpg
      · exact hseen r.pg hpg

end Run

/-- No page is lost if and only if every page referenced after the buffer was emptied for the last
time had been referenced before. -/
theorem fastslim_losesNoPage_iff (int16 : List Char → Option ℤ) (keepcode : Bool) (k : ℕ)
    (lines : List (List Char)) :
    LosesNoPage (accepted int16 keepcode lines) (fastslim int16 keepcode k lines).printed ↔
      ∀ pg ∈ (lastWindow k (accepted int16 keepcode lines)).2,
        pg ∈ (lastWindow k (accepted int16 keepcode lines)).1 :=
  (printed_slim k (accepted int16 keepcode lines)).losesNoPage_iff

/-- The value of a number without sign or prefix, in lower-case hexadecimal digits. -/
def hexValue (digits : List Char) : Option ℤ :=
  if digits ≠ [] ∧ digits.all "0123456789abcdef".toList.contains then
    some (digits.foldl (fun n c => n * 16 + "0123456789abcdef".toList.idxOf c) 0)
  else none

/-- A single access, by the default buffer of four entries: nothing is printed. -/
theorem fastslim_losesPage :
    ¬ ∀ (int16 : List Char → Option ℤ) (keepcode : Bool) (k : ℕ) (lines : List (List Char)), 1 ≤ k →
      LosesNoPage (accepted int16 keepcode lines) (fastslim int16 keepcode k lines).printed := by
  intro h
  have hline : accepted hexValue false [" L 1ffeff0,8\n".toList] =
      [⟨String.ofList ['L'], 0x1ffe⟩] := by
    decide +kernel
  have hcomplete := (h hexValue false 4 [" L 1ffeff0,8\n".toList] (by decide)).complete
  rw [fastslim, hline] at hcomplete
  exact absurd (hcomplete _ List.mem_cons_self) List.not_mem_nil

end KernelProgramming.Paging
