import KernelProgramming.Paging.PageTable

/-!
# Reading the trace file

The lines of the trace as `fgets` delivers them, and the two conversions that
`sscanf` applies to each.  `replay_trace` and `opt_init` read the same file
with different buffers.
-/

namespace KernelProgramming.Paging

/-- `fgets` with a buffer of `size + 1` characters: the line, and what is left
of the file. -/
def fgets : ℕ → List Char → List Char × List Char
  | 0, file => ([], file)
  | _ + 1, [] => ([], [])
  | size + 1, c :: file =>
      if c = '\n' then ([c], file) else (c :: (fgets size file).1, (fgets size file).2)

/-- The lines that `fgets` returns until the end of the file, at most `fuel` of
them. -/
def readLines (size : ℕ) : ℕ → List Char → List (List Char)
  | 0, _ => []
  | _ + 1, [] => []
  | fuel + 1, c :: file =>
      (fgets size (c :: file)).1 :: readLines size fuel (fgets size (c :: file)).2

/-- Each call of `fgets` takes a character, so there are no more lines than
characters. -/
def linesOf (size : ℕ) (file : List Char) : List (List Char) := readLines size file.length file

def isSpace (c : Char) : Bool := c == ' ' || (0x9 ≤ c.toNat && c.toNat ≤ 0xd)

def hexDigit (c : Char) : Option ℕ :=
  if '0' ≤ c ∧ c ≤ '9' then some (c.toNat - '0'.toNat)
  else if 'a' ≤ c ∧ c ≤ 'f' then some (c.toNat - 'a'.toNat + 10)
  else if 'A' ≤ c ∧ c ≤ 'F' then some (c.toNat - 'A'.toNat + 10)
  else none

def ulongMax : ℕ := 2 ^ 64 - 1

/-- The number that the digits of `%lx` make. -/
def scanDigits (text : List Char) : Option ℕ :=
  match text.takeWhile fun c => (hexDigit c).isSome with
  | [] => none
  | digits => some (digits.foldl (fun n c => 16 * n + (hexDigit c).getD 0) 0)

def dropSign : List Char → List Char
  | [] => []
  | c :: text => if c = '-' ∨ c = '+' then text else c :: text

/-- The `0` of a leading `0x` stays: without digits behind it, it is the number. -/
def dropBase : List Char → List Char
  | c :: d :: text => if c = '0' ∧ (d = 'x' ∨ d = 'X') then c :: text else c :: d :: text
  | text => text

/-- `%lx` behind leading white space; a number too large for `unsigned long` is
read as `ULONG_MAX`, with a minus sign too, and a negative number wraps around. -/
def scanUlong (text : List Char) : Option ℕ :=
  (scanDigits (dropBase (dropSign text))).map fun n =>
    if ulongMax < n then ulongMax
    else if text.head? = some '-' then (2 ^ 64 - n) % 2 ^ 64 else n

/-- The part of a buffer before its terminating `'\0'`. -/
def cString (buffer : List Char) : List Char := buffer.takeWhile (· ≠ '\x00')

/-- What `sscanf(buf, "%c %lx", &type, &vaddr)` stores in `type`. -/
def scanType (buf : List Char) : Option Char := (cString buf).head?

/-- What `sscanf(buf, "%c %lx", &type, &vaddr)` stores in `vaddr`. -/
def scanVaddr (buf : List Char) : Option ℕ :=
  scanUlong ((cString buf).tail.dropWhile isSpace)

def maxline : ℕ := 256

/-- The accesses that `replay_trace` makes for the lines of the trace, where
`type` and `vaddr` hold what an earlier line has left in them. -/
def accessesFrom (type : Char) (vaddr : ℕ) : List (List Char) → List Access
  | [] => []
  | buf :: rest =>
      if buf.head? = some '=' then accessesFrom type vaddr rest
      else
        let type := (scanType buf).getD type
        let vaddr := (scanVaddr buf).getD vaddr
        ⟨type, vaddr⟩ :: accessesFrom type vaddr rest

def traceLines (file : List Char) : List (List Char) := linesOf (maxline - 1) file

/-- The accesses of a trace file.  `type` is uninitialised before the first line. -/
def accessesOf (type : Char) (file : List Char) : List Access :=
  accessesFrom type 0 (traceLines file)

/-- A trace of accesses whose lines fit into the buffer of `opt_init`. -/
structure PlainTrace (file : List Char) : Prop where
  fits : ∀ line ∈ traceLines file, line.length < 20
  plain : ∀ line ∈ traceLines file, line.head? ≠ some '='
  /-- a later line without an address repeats the address before it -/
  first_address : ∀ line ∈ (traceLines file).head?, (scanVaddr line).isSome = true

/-- The accesses S 1000, L 2000, L 3000, L 1000. -/
def threePages : List Char :=
  ['S', ' ', '1', '0', '0', '0', '\n', 'L', ' ', '2', '0', '0', '0', '\n',
    'L', ' ', '3', '0', '0', '0', '\n', 'L', ' ', '1', '0', '0', '0', '\n']

/-! ## A smaller buffer -/

theorem fgets_of_fits {size n : ℕ} {file : List Char} (hn : n ≤ size)
    (hfits : (fgets size file).1.length ≤ n) : fgets n file = fgets size file := by
  induction n generalizing size file with
  | zero =>
      cases size with
      | zero => rfl
      | succ size =>
          cases file with
          | nil => rfl
          | cons c file =>
              simp only [fgets] at hfits
              split at hfits <;> simp at hfits
  | succ n ih =>
      obtain ⟨size, rfl⟩ : ∃ k, size = k + 1 := ⟨size - 1, by omega⟩
      cases file with
      | nil => rfl
      | cons c file =>
          simp only [fgets] at hfits ⊢
          split_ifs at hfits ⊢
          · rfl
          · rw [ih (Nat.le_of_succ_le_succ hn) (Nat.le_of_succ_le_succ hfits)]

theorem readLines_of_fits {size n : ℕ} (hn : n ≤ size) (fuel : ℕ) {file : List Char}
    (hfits : ∀ line ∈ readLines size fuel file, line.length ≤ n) :
    readLines n fuel file = readLines size fuel file := by
  induction fuel generalizing file with
  | zero => rfl
  | succ fuel ih =>
      cases file with
      | nil => rfl
      | cons c file =>
          rw [readLines, List.forall_mem_cons] at hfits
          rw [readLines, readLines, fgets_of_fits hn hfits.1, ih hfits.2]

theorem linesOf_of_fits {size n : ℕ} (hn : n ≤ size) {file : List Char}
    (hfits : ∀ line ∈ linesOf size file, line.length ≤ n) : linesOf n file = linesOf size file :=
  readLines_of_fits hn file.length hfits

/-! ## The newline at the end of a line -/

/-- A newline is the last character of its line. -/
theorem fgets_line (size : ℕ) (file : List Char) :
    ∃ text, '\n' ∉ text ∧ ((fgets size file).1 = text ∨ (fgets size file).1 = text ++ ['\n']) := by
  induction size generalizing file with
  | zero => exact ⟨[], by simp, Or.inl rfl⟩
  | succ size ih =>
      cases file with
      | nil => exact ⟨[], by simp, Or.inl rfl⟩
      | cons c file =>
          rw [fgets]
          split
          · next hc => exact ⟨[], by simp, Or.inr (by simp [hc])⟩
          · next hc =>
              obtain ⟨text, hnot, hline⟩ := ih file
              refine ⟨c :: text, by simp [hnot, Ne.symm hc], ?_⟩
              rcases hline with hline | hline <;> simp [hline]

theorem linesOf_line {size : ℕ} {file line : List Char} (hline : line ∈ linesOf size file) :
    ∃ text, '\n' ∉ text ∧ (line = text ∨ line = text ++ ['\n']) := by
  have hread : ∀ fuel rest, line ∈ readLines size fuel rest →
      ∃ text, '\n' ∉ text ∧ (line = text ∨ line = text ++ ['\n']) := by
    intro fuel
    induction fuel with
    | zero => simp [readLines]
    | succ fuel ih =>
        rintro (_ | ⟨c, rest⟩) hmem
        · simp [readLines] at hmem
        · rcases List.mem_cons.mp hmem with rfl | hmem
          · exact fgets_line size (c :: rest)
          · exact ih _ hmem
  exact hread _ _ hline

theorem takeWhile_concat {α : Type*} {p : α → Bool} {x : α} (hx : p x = false) (xs : List α) :
    (xs ++ [x]).takeWhile p = xs.takeWhile p := by
  induction xs with
  | nil => simp [hx]
  | cons y xs ih => cases hy : p y <;> simp [hy, ih]

theorem scanDigits_newline (text : List Char) : scanDigits (text ++ ['\n']) = scanDigits text := by
  unfold scanDigits
  rw [takeWhile_concat (by decide)]

theorem dropBase_newline (text : List Char) :
    dropBase (text ++ ['\n']) = dropBase text ++ ['\n'] := by
  match text with
  | [] => rfl
  | [c] => simp [dropBase]
  | c :: d :: text =>
      simp only [List.cons_append, dropBase]
      split_ifs <;> rfl

theorem dropSign_newline (text : List Char) :
    dropSign (text ++ ['\n']) = dropSign text ++ ['\n'] := by
  cases text with
  | nil => rfl
  | cons c text =>
      simp only [List.cons_append, dropSign]
      split_ifs <;> rfl

theorem scanUlong_newline (text : List Char) : scanUlong (text ++ ['\n']) = scanUlong text := by
  have hminus : (text ++ ['\n']).head? = some '-' ↔ text.head? = some '-' := by
    cases text <;> simp
  simp only [scanUlong, dropSign_newline, dropBase_newline, scanDigits_newline, hminus]

theorem scanUlong_dropWhile_newline (text : List Char) :
    scanUlong ((text ++ ['\n']).dropWhile isSpace) = scanUlong (text.dropWhile isSpace) := by
  induction text with
  | nil => decide
  | cons c text ih =>
      cases hc : isSpace c with
      | true => simpa [hc] using ih
      | false =>
          simp only [List.cons_append, List.dropWhile_cons, hc]
          exact scanUlong_newline (c :: text)

theorem cString_newline (buffer : List Char) :
    cString (buffer ++ ['\n']) = cString buffer ++ ['\n'] ∨
      cString (buffer ++ ['\n']) = cString buffer := by
  unfold cString
  rw [List.takeWhile_append]
  split
  · next hlen =>
      left
      rw [(List.takeWhile_sublist _).eq_of_length hlen]
      rfl
  · exact Or.inr rfl

/-- Whether a buffer still ends in its newline makes no difference to the
address. -/
theorem scanVaddr_newline (buffer : List Char) :
    scanVaddr (buffer ++ ['\n']) = scanVaddr buffer := by
  unfold scanVaddr
  rcases cString_newline buffer with heq | heq
  · rw [heq]
    cases cString buffer with
    | nil => rfl
    | cons c text => exact scanUlong_dropWhile_newline text
  · rw [heq]

end KernelProgramming.Paging
