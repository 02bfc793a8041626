import Mathlib.Data.List.TakeWhile
import KernelProgramming.Paging.Opt

/-!
# The trace as `opt_init` sees it

`replay_trace` reads the lines of the trace into a buffer of 256 characters and
passes over those that start with `=`.  `opt_init` reads the same file into a
buffer of 20 characters and takes every piece for an access.
-/

namespace KernelProgramming.Paging

/-- The lines of a file, each with its newline. -/
def lines : List Char → List (List Char)
  | [] => []
  | c :: file =>
      if c = '\n' then [c] :: lines file
      else
        match lines file with
        | [] => [[c]]
        | line :: rest => (c :: line) :: rest

/-- A line `<type> <hex address>`; the last line of a file may lack its newline. -/
def IsAccessLine (line : List Char) : Prop :=
  ∃ type base digits ending, line = type :: ' ' :: (base ++ digits ++ ending) ∧
    type ≠ '=' ∧ type ≠ '\x00' ∧ base ∈ [[], ['0', 'x'], ['0', 'X']] ∧ digits ≠ [] ∧
    (∀ c ∈ digits, (hexDigit c).isSome = true) ∧ ending ∈ [[], ['\n']]

/-- A trace of comments and accesses whose lines fit into the buffer of `replay_trace`. -/
def WellFormedTrace (file : List Char) : Prop :=
  ∀ line ∈ lines file, line.length < maxline ∧ (line.head? = some '=' ∨ IsAccessLine line)

/-- Entry number `k` of `reference_string` has the address of access number `k`, and there
are as many entries as accesses. -/
structure LooksAhead (o : OptState) (accesses : List Access) : Prop where
  length_eq : o.referenceString.length = accesses.length
  addr_eq : ∀ (k : ℕ) (a : Access), accesses[k]? = some a →
    ∃ q, o.referenceString[k]? = some q ∧ o.addr q = a.vaddr

variable {size n : ℕ} {file text rest : List Char}

/-! ## Lines and pieces of lines -/

theorem lines_newline (h : '\n' ∉ text) (rest : List Char) :
    lines (text ++ '\n' :: rest) = (text ++ ['\n']) :: lines rest := by
  induction text with
  | nil => simp [lines]
  | cons c text ih =>
      rw [List.mem_cons, not_or] at h
      simp [lines, ih h.2, Ne.symm h.1]

theorem lines_last (h : '\n' ∉ text) (hne : text ≠ []) : lines text = [text] := by
  induction text with
  | nil => exact absurd rfl hne
  | cons c text ih =>
      rw [List.mem_cons, not_or] at h
      cases text with
      | nil => simp [lines, Ne.symm h.1]
      | cons d text =>
          rw [lines, if_neg (Ne.symm h.1), ih h.2 (List.cons_ne_nil d text)]

/-- A file is empty, or it has a last line without a newline, or it starts with a line. -/
theorem lines_cases (file : List Char) :
    '\n' ∉ file ∨ ∃ text rest, '\n' ∉ text ∧ file = text ++ '\n' :: rest := by
  induction file with
  | nil => exact Or.inl List.not_mem_nil
  | cons c file ih =>
      by_cases hc : c = '\n'
      · exact Or.inr ⟨[], file, List.not_mem_nil, by rw [hc]; rfl⟩
      · rcases ih with hnot | ⟨text, rest, hnot, rfl⟩
        · exact Or.inl (by simp [hnot, Ne.symm hc])
        · exact Or.inr ⟨c :: text, rest, by simp [hnot, Ne.symm hc], rfl⟩

theorem fgets_newline (h : '\n' ∉ text) (hlt : text.length < size) (rest : List Char) :
    fgets size (text ++ '\n' :: rest) = (text ++ ['\n'], rest) := by
  induction text generalizing size with
  | nil =>
      obtain ⟨size, rfl⟩ := Nat.exists_eq_add_of_lt hlt
      simp [fgets]
  | cons c text ih =>
      rw [List.mem_cons, not_or] at h
      cases size with
      | zero => exact absurd hlt (Nat.not_lt_zero _)
      | succ size =>
          have hrest := ih h.2 (Nat.lt_of_succ_lt_succ hlt)
          simp [fgets, hrest, Ne.symm h.1]

theorem fgets_full (h : '\n' ∉ text) (hle : size ≤ text.length) (rest : List Char) :
    fgets size (text ++ rest) = (text.take size, text.drop size ++ rest) := by
  induction text generalizing size with
  | nil =>
      obtain rfl := Nat.le_zero.mp hle
      rfl
  | cons c text ih =>
      rw [List.mem_cons, not_or] at h
      cases size with
      | zero => rfl
      | succ size =>
          have hrest := ih h.2 (Nat.le_of_succ_le_succ hle)
          simp [fgets, hrest, Ne.symm h.1]

theorem fgets_last (h : '\n' ∉ text) (hle : text.length ≤ size) : fgets size text = (text, []) := by
  induction text generalizing size with
  | nil => cases size <;> rfl
  | cons c text ih =>
      rw [List.mem_cons, not_or] at h
      cases size with
      | zero => exact absurd hle (Nat.not_succ_le_zero _)
      | succ size =>
          have hrest := ih h.2 (Nat.le_of_succ_le_succ hle)
          simp [fgets, hrest, Ne.symm h.1]

theorem length_fgets_lt (hsize : 0 < size) (c : Char) (file : List Char) :
    (fgets size (c :: file)).2.length ≤ file.length := by
  have hle : ∀ size file, (fgets size file).2.length ≤ file.length := by
    intro size file
    induction file generalizing size with
    | nil => cases size <;> simp [fgets]
    | cons c file ih =>
        cases size with
        | zero => simp [fgets]
        | succ size =>
            rw [fgets]
            split_ifs
            · exact Nat.le_succ _
            · exact (ih size).trans (Nat.le_succ _)
  obtain ⟨size, rfl⟩ := Nat.exists_eq_add_of_lt hsize
  rw [Nat.zero_add, fgets]
  split_ifs
  · exact le_rfl
  · exact hle size file

/-- Fuel beyond the length of the file is not used. -/
theorem readLines_eq (hsize : 0 < size) {fuel : ℕ} (hfuel : file.length ≤ fuel) :
    readLines size fuel file = linesOf size file := by
  have hany : ∀ (fuel k : ℕ) (file : List Char), file.length ≤ fuel → file.length ≤ k →
      readLines size fuel file = readLines size k file := by
    intro fuel
    induction fuel with
    | zero =>
        intro k file hfuel _
        obtain rfl := List.eq_nil_of_length_eq_zero (Nat.le_zero.mp hfuel)
        cases k <;> rfl
    | succ fuel ih =>
        intro k file hfuel hk
        cases file with
        | nil => cases k <;> rfl
        | cons c file =>
            cases k with
            | zero => exact absurd hk (Nat.not_succ_le_zero _)
            | succ k =>
                have hlt := length_fgets_lt hsize c file
                rw [readLines, readLines]
                rw [ih k _ (hlt.trans (Nat.le_of_succ_le_succ hfuel))
                  (hlt.trans (Nat.le_of_succ_le_succ hk))]
  exact hany fuel file.length file hfuel le_rfl

theorem linesOf_cons (hsize : 0 < size) (hne : file ≠ []) :
    linesOf size file = (fgets size file).1 :: linesOf size (fgets size file).2 := by
  cases file with
  | nil => exact absurd rfl hne
  | cons c file =>
      rw [linesOf, List.length_cons, readLines, readLines_eq hsize (length_fgets_lt hsize c file)]

/-- A buffer cuts every line into one or more pieces, and into one piece only if it fits. -/
theorem length_linesOf (hn : 0 < n) (file : List Char) :
    (lines file).length ≤ (linesOf n file).length ∧
      ((∀ line ∈ lines file, line.length ≤ n) → linesOf n file = lines file) ∧
      ((linesOf n file).length = (lines file).length → ∀ line ∈ lines file, line.length ≤ n) := by
  induction hlen : file.length using Nat.strong_induction_on generalizing file with
  | _ len ih =>
      rcases lines_cases file with hnot | ⟨text, rest, hnot, rfl⟩
      · rcases eq_or_ne file [] with rfl | hne
        · exact ⟨le_rfl, fun _ => rfl, by simp [lines]⟩
        rw [lines_last hnot hne, linesOf_cons hn hne]
        rcases Nat.lt_or_ge n file.length with hlong | hfits
        · have hfull := fgets_full hnot hlong.le []
          rw [List.append_nil, List.append_nil] at hfull
          have hdrop : file.drop n ≠ [] := List.drop_eq_nil_iff.not.mpr (Nat.not_le_of_lt hlong)
          rw [hfull, linesOf_cons hn hdrop]
          simp only [List.length_cons, List.length_nil, List.mem_singleton, forall_eq]
          exact ⟨by omega, fun h => by omega, fun h => by omega⟩
        · rw [fgets_last hnot hfits]
          exact ⟨le_rfl, fun _ => rfl, fun _ => by simpa using hfits⟩
      · rw [lines_newline hnot, linesOf_cons hn (by simp)]
        rw [List.length_append, List.length_cons] at hlen
        rcases Nat.lt_or_ge text.length n with hfits | hlong
        · obtain ⟨hle, hsame, hshort⟩ := ih rest.length (by omega) rest rfl
          rw [fgets_newline hnot hfits]
          simp only [List.length_cons, List.forall_mem_cons]
          refine ⟨Nat.succ_le_succ hle, fun h => by rw [hsame h.2], fun h => ⟨?_, ?_⟩⟩
          · rw [List.length_append, List.length_singleton]
            exact hfits
          · exact hshort (Nat.succ.inj h)
        · have hdrop : '\n' ∉ text.drop n := fun hin => hnot (List.mem_of_mem_drop hin)
          obtain ⟨hle, -, -⟩ := ih (text.drop n ++ '\n' :: rest).length
            (by simp only [List.length_append, List.length_drop, List.length_cons]; omega) _ rfl
          rw [lines_newline hdrop, List.length_cons] at hle
          rw [fgets_full hnot hlong]
          simp only [List.length_cons, List.forall_mem_cons, List.length_append, List.length_nil]
          exact ⟨by omega, fun h => by omega, fun h => by omega⟩

/-! ## The two readings of a trace -/

theorem WellFormedTrace.traceLines_eq (h : WellFormedTrace file) : traceLines file = lines file :=
  (length_linesOf (by decide) file).2.1 fun line hline => Nat.le_of_lt_succ (h line hline).1

theorem hexDigit_ge {c : Char} (h : (hexDigit c).isSome = true) : 48 ≤ c.toNat := by
  have hle : ∀ d : Char, d ≤ c → d.toNat ≤ c.toNat := fun d hd => hd
  unfold hexDigit at h
  split_ifs at h with h₁ h₂ h₃
  · exact hle _ h₁.1
  · exact (show 48 ≤ 'a'.toNat by decide).trans (hle _ h₂.1)
  · exact (show 48 ≤ 'A'.toNat by decide).trans (hle _ h₃.1)
  · cases h

theorem hexDigit_ne {c : Char} (h : (hexDigit c).isSome = true) :
    c ≠ '\x00' ∧ isSpace c = false ∧ c ≠ '-' ∧ c ≠ '+' ∧ c ≠ 'x' ∧ c ≠ 'X' := by
  have hge := hexDigit_ge h
  refine ⟨?_, ?_, ?_, ?_, ?_, ?_⟩
  · rintro rfl
    exact absurd hge (by decide)
  · have hne : c ≠ ' ' := by
      rintro rfl
      exact absurd hge (by decide)
    simp [isSpace, hne]
    omega
  all_goals
    rintro rfl
    exact absurd h (by decide)

theorem scanDigits_digits {digits : List Char} (hne : digits ≠ [])
    (hdigits : ∀ c ∈ digits, (hexDigit c).isSome = true) :
    (scanDigits digits).isSome = true := by
  have hall : digits.takeWhile (fun c => (hexDigit c).isSome) = digits :=
    List.takeWhile_eq_self_iff.mpr hdigits
  unfold scanDigits
  rw [hall]
  cases digits with
  | nil => exact absurd rfl hne
  | cons c digits => rfl

theorem IsAccessLine.scanVaddr_isSome {line : List Char} (h : IsAccessLine line) :
    (scanVaddr line).isSome = true := by
  obtain ⟨type, base, digits, ending, rfl, -, htype, hbase, hne, hdigits, hending⟩ := h
  -- the newline at the end makes no difference
  have hcut : scanVaddr (type :: ' ' :: (base ++ digits ++ ending)) =
      scanVaddr (type :: ' ' :: (base ++ digits)) := by
    rcases List.mem_pair.mp hending with rfl | rfl
    · rw [List.append_nil]
    · exact scanVaddr_newline (type :: ' ' :: (base ++ digits))
  have hbase' : ∀ c ∈ base, c ≠ '\x00' := by
    intro c hc
    simp only [List.mem_cons, List.not_mem_nil, or_false] at hbase
    rcases hbase with rfl | rfl | rfl <;> simp at hc <;> grind
  have hstring : cString (type :: ' ' :: (base ++ digits)) = type :: ' ' :: (base ++ digits) := by
    refine List.takeWhile_eq_self_iff.mpr fun c hc => decide_eq_true ?_
    simp only [List.mem_cons, List.mem_append] at hc
    rcases hc with rfl | rfl | hc | hc
    · exact htype
    · decide
    · exact hbase' c hc
    · exact (hexDigit_ne (hdigits c hc)).1
  obtain ⟨c, digits', rfl⟩ := List.exists_cons_of_ne_nil hne
  obtain ⟨-, hspace, hminus, hplus, -⟩ := hexDigit_ne (hdigits c List.mem_cons_self)
  have hscan := scanDigits_digits hne hdigits
  have hscan' : (scanDigits ('0' :: c :: digits')).isSome = true :=
    scanDigits_digits (List.cons_ne_nil _ _) (List.forall_mem_cons.mpr ⟨by decide, hdigits⟩)
  rw [hcut, scanVaddr, hstring]
  simp only [List.mem_cons, List.not_mem_nil, or_false] at hbase
  rcases hbase with rfl | rfl | rfl
  · have hdrop : dropBase (c :: digits') = c :: digits' := by
      cases digits' with
      | nil => rfl
      | cons e digits' =>
          obtain ⟨-, -, -, -, hx, hX⟩ := hexDigit_ne (hdigits e (by simp))
          simp [dropBase, hx, hX]
    have hblank : isSpace ' ' = true := rfl
    simp [scanUlong, dropSign, hblank, hspace, hminus, hplus, hdrop, hscan]
  · simp [scanUlong, dropSign, dropBase, isSpace, hscan']
  · simp [scanUlong, dropSign, dropBase, isSpace, hscan']

theorem length_accessesFrom (type : Char) (vaddr : ℕ) (lines : List (List Char)) :
    (accessesFrom type vaddr lines).length ≤ lines.length ∧
      ((accessesFrom type vaddr lines).length = lines.length →
        ∀ line ∈ lines, line.head? ≠ some '=') := by
  induction lines generalizing type vaddr with
  | nil => simp [accessesFrom]
  | cons line rest ih =>
      rw [accessesFrom]
      split_ifs with hcomment
      · have hle := (ih type vaddr).1
        rw [List.length_cons]
        exact ⟨hle.trans (Nat.le_succ _), fun h => by omega⟩
      · obtain ⟨hle, hplain⟩ := ih ((scanType line).getD type) ((scanVaddr line).getD vaddr)
        simp only [List.length_cons, List.forall_mem_cons]
        exact ⟨Nat.succ_le_succ hle, fun h => ⟨hcomment, hplain (Nat.succ.inj h)⟩⟩

theorem length_addrsFrom (virtualAddr : ℕ) (lines : List (List Char)) :
    (addrsFrom virtualAddr lines).length = lines.length := by
  induction lines generalizing virtualAddr with
  | nil => rfl
  | cons line rest ih => simp [addrsFrom, ih]

/-- `opt_init` foresees the accesses if and only if no line of the trace is a comment or
longer than its buffer. -/
theorem looksAhead_iff (hfile : WellFormedTrace file) {s : Sim OptState}
    (hs : s.alg.tracefile = file) (virtualAddr : ℕ) (type : Char) :
    LooksAhead (optInit virtualAddr s).alg (accessesOf type file) ↔
      ∀ line ∈ lines file, line.head? ≠ some '=' ∧ line.length < 20 := by
  have hlines := hfile.traceLines_eq
  constructor
  · intro h
    have hrecorded := (recording_optInit virtualAddr s).1
    have hlength : (linesOf 19 file).length = (accessesOf type file).length := by
      rw [← h.length_eq, ← List.length_map (f := (optInit virtualAddr s).alg.addr),
        hrecorded.addrs_eq, length_addrsFrom, hs]
    obtain ⟨hpieces, -, hshort⟩ := length_linesOf (n := 19) (by decide) file
    obtain ⟨hle, hplain⟩ := length_accessesFrom type 0 (traceLines file)
    rw [hlines] at hle hplain
    have haccesses : (accessesOf type file).length = (accessesFrom type 0 (lines file)).length := by
      rw [accessesOf, hlines]
    intro line hline
    exact ⟨hplain (by omega) line hline, Nat.lt_succ_of_le (hshort (by omega) line hline)⟩
  · intro h
    have hplain : PlainTrace file := by
      refine ⟨?_, ?_, ?_⟩
      all_goals rw [hlines]
      · exact fun line hline => (h line hline).2
      · exact fun line hline => (h line hline).1
      · intro line hline
        have hmem := List.mem_of_mem_head? hline
        exact ((hfile line hmem).2.resolve_left (h line hmem).1).scanVaddr_isSome
    have hrecorded := hplain.recorded hs virtualAddr type
    constructor
    · rw [← List.length_map (f := (optInit virtualAddr s).alg.addr), hrecorded.addrs_eq,
        List.length_map]
    · intro k a ha
      have hk := congrArg (·[k]?) hrecorded.addrs_eq
      simp only [List.getElem?_map, ha, Option.map_some] at hk
      exact Option.map_eq_some_iff.mp hk

def fileSim (file : List Char) : Sim OptState :=
  bootSim 1 (fun _ => ⟨0#32, 0, 0#32⟩) ⟨0, []⟩
    ⟨file, 0, fun _ => [], fun _ => ⟨0, none, [], false⟩, 0, [], [], 0⟩

theorem isAccessLine_load : IsAccessLine ['L', ' ', '1', '0', '\n'] := by
  refine ⟨'L', [], ['1', '0'], ['\n'], rfl, by decide, by decide, by decide, by decide, ?_,
    by decide⟩
  intro c hc
  rcases List.mem_pair.mp hc with rfl | rfl
  · rfl
  · rfl

theorem looksAhead_iff_load :
    LooksAhead (optInit 7 (fileSim ['L', ' ', '1', '0', '\n'])).alg
      (accessesOf '?' ['L', ' ', '1', '0', '\n']) ↔
    ∀ line ∈ lines ['L', ' ', '1', '0', '\n'], line.head? ≠ some '=' ∧ line.length < 20 := by
  refine looksAhead_iff (s := fileSim ['L', ' ', '1', '0', '\n']) (fun line hline => ?_) rfl 7 '?'
  obtain rfl := List.mem_singleton.mp hline
  exact ⟨by decide, Or.inr isAccessLine_load⟩

/-- A comment in front of the first access. -/
theorem not_looksAhead : ¬ ∀ (file : List Char) (s : Sim OptState) (virtualAddr : ℕ) (type : Char),
    WellFormedTrace file → s.alg.tracefile = file →
    LooksAhead (optInit virtualAddr s).alg (accessesOf type file) := by
  intro h
  have hfile : WellFormedTrace ['=', '\n', 'L', ' ', '1', '0', '\n'] := by
    intro line hline
    rcases List.mem_pair.mp hline with rfl | rfl
    · exact ⟨by decide, Or.inl rfl⟩
    · exact ⟨by decide, Or.inr isAccessLine_load⟩
  have hlength := (h _ (fileSim ['=', '\n', 'L', ' ', '1', '0', '\n']) 0 '?' hfile rfl).length_eq
  exact absurd hlength (by decide)

end KernelProgramming.Paging
