import KernelProgramming.Paging.Residents
import KernelProgramming.Paging.TraceFile

/-!
# The optimal algorithm

`opt.c` reads the trace in advance and keeps, for every page, the positions at
which it is still to be referenced.  The resident pages are on a list with the
page that is referenced latest, or not again, at the head.

A `struct vaddr` is known by its number in the order of allocation; the two
lists that run through the structures are lists of these numbers.

`opt_ref` frees the first `struct occurance_sequence` of a page and then reads
its `next`.  What `free` leaves of that word is up to the allocator and a
parameter here.
-/

namespace KernelProgramming.Paging

open FlagWord Runs DemandPaging

/-- `struct vaddr`, without the two links. -/
structure Vaddr where
  virtualAddr : ℕ
  /-- `none` for a page that is not in a frame -/
  frameNumber : Option ℕ
  /-- the positions from `occurance_head` to `occurance_tail` -/
  occurances : List ℕ
  /-- `occurance_head` was read from freed memory and leads nowhere -/
  lost : Bool

/-- The globals of `opt.c`, and the trace file that `opt_init` opens. -/
structure OptState where
  tracefile : List Char
  hashmapSize : ℕ
  /-- the chains of the hash map -/
  hashmap : ℕ → List ℕ
  vaddrs : ℕ → Vaddr
  /-- the number that the next `struct vaddr` gets -/
  fresh : ℕ
  /-- the list from `coremap_head` along `next_in_frame` -/
  coremap : List ℕ
  referenceString : List ℕ
  /-- an `int` of the source, so a trace has fewer than 2^31 lines -/
  position : ℕ

namespace OptState

def setVaddr (o : OptState) (q : ℕ) (v : Vaddr) : OptState :=
  { o with vaddrs := Function.update o.vaddrs q v }

def addr (o : OptState) (q : ℕ) : ℕ := (o.vaddrs q).virtualAddr

/-- The first position on record, `none` if there is none. -/
def nextUse (o : OptState) (q : ℕ) : Option ℕ := (o.vaddrs q).occurances.head?

/-- `q->occurance_head == NULL` -/
def headIsNull (o : OptState) (q : ℕ) : Bool := !(o.vaddrs q).lost && (o.nextUse q).isNone

/-- `q->occurance_head->occurance` -/
def headOccurance (o : OptState) (q : ℕ) : Except Halt ℕ :=
  if (o.vaddrs q).lost then .error .wild
  else match o.nextUse q with
    | none => .error .wild
    | some occurance => .ok occurance

def laterThan (o : OptState) (q r : ℕ) : Except Halt Bool := do
  let occurance ← o.headOccurance q
  let other ← o.headOccurance r
  .ok (decide (occurance > other))

end OptState

/-- The division by a `hashmap_size` of 0, which stops the simulator, leaves the
address here; `main` is to get a `memsize` of at least 1. -/
def hash (o : OptState) (virtualAddress : ℕ) : ℕ := virtualAddress % o.hashmapSize

/-- The frame number -1 of a page that is not in a frame leads outside of
`coremap`. -/
def optEvict (s : Sim OptState) : Except Halt (ℕ × Sim OptState) :=
  match s.alg.coremap with
  | [] => .error .wild
  | head :: rest =>
      match (s.alg.vaddrs head).frameNumber with
      | none => .error .wild
      | some result =>
          let o := s.alg.setVaddr head { s.alg.vaddrs head with frameNumber := none }
          .ok (result, { s with alg := { o with coremap := rest } })

/-- The loop of `add_to_coremap`: `q` goes before the first page that is
referenced again, and no later than `q` is. -/
def insertVaddr (o : OptState) (q : ℕ) : List ℕ → Except Halt (List ℕ)
  | [] => .ok [q]
  | x :: xs =>
      if o.headIsNull x then (x :: ·) <$> insertVaddr o q xs
      else do
        let later ← o.laterThan x q
        if later then (x :: ·) <$> insertVaddr o q xs else .ok (q :: x :: xs)

def addToCoremap (o : OptState) (q : ℕ) : Except Halt OptState :=
  match o.coremap with
  | [] => .ok { o with coremap := [q] }
  | head :: rest =>
      if o.headIsNull q then .ok { o with coremap := q :: head :: rest }
      else do
        let first ← (if o.headIsNull head then .ok false else o.laterThan q head)
        if first then .ok { o with coremap := q :: head :: rest }
        else do
          let rest ← insertVaddr o q rest
          .ok { o with coremap := head :: rest }

def dropVaddr (o : OptState) (virtualAddr : ℕ) : List ℕ → Except Halt (List ℕ)
  | [] => .error .wild
  | x :: xs => if o.addr x = virtualAddr then .ok xs else (x :: ·) <$> dropVaddr o virtualAddr xs

def removeFromCoremap (o : OptState) (q : ℕ) : Except Halt OptState := do
  let coremap ← dropVaddr o (o.addr q) o.coremap
  .ok { o with coremap := coremap }

/-- `intact` says if `free` leaves the `next` of what it frees, which is read
just after that; an allocator that writes there makes a pointer of it that
leads nowhere.  Such a pointer is not `NULL`, and freed in its turn. -/
def popOccurance (intact : Bool) (o : OptState) (q : ℕ) : Except Halt OptState :=
  if (o.vaddrs q).lost then .error .wild
  else match (o.vaddrs q).occurances with
    | [] => .ok o
    | _ :: rest =>
        .ok (o.setVaddr q { o.vaddrs q with occurances := rest, lost := !intact })

def optRef (intact : ℕ → Bool) (s : Sim OptState) (p : PtePtr) : Except Halt (Sim OptState) :=
  match s.alg.referenceString[s.alg.position]? with
  | none => .error .wild
  | some q => do
      let o ← popOccurance (intact s.alg.position)
        { s.alg with position := s.alg.position + 1 } q
      match (o.vaddrs q).frameNumber with
      | none =>
          let frame := number pageShift (s.pte p).frame
          let o := o.setVaddr q { o.vaddrs q with frameNumber := some frame }
          let o ← addToCoremap o q
          .ok { s with alg := o }
      | some _ =>
          let o ← removeFromCoremap o q
          let o ← addToCoremap o q
          .ok { s with alg := o }

def addOccuranceSequence (o : OptState) (addTo position : ℕ) : OptState :=
  o.setVaddr addTo { o.vaddrs addTo with occurances := (o.vaddrs addTo).occurances ++ [position] }

def vaddrRecord (o : OptState) (position vaddrNumber index : ℕ) : ℕ × OptState :=
  match (o.hashmap index).find? fun q => o.addr q == vaddrNumber with
  | some current => (current, addOccuranceSequence o current position)
  | none =>
      let newVaddr := o.fresh
      let o := { o.setVaddr newVaddr ⟨vaddrNumber, none, [], false⟩ with fresh := newVaddr + 1 }
      let o := addOccuranceSequence o newVaddr position
      (newVaddr, { o with
        hashmap := Function.update o.hashmap index (o.hashmap index ++ [newVaddr]) })

def replaceNewlineChar : List Char → List Char
  | [] => []
  | c :: buffer => if c = '\n' then '\x00' :: buffer else c :: replaceNewlineChar buffer

/-- What `opt_init` does with an address of the trace. -/
def recordReference (o : OptState) (virtualAddr : ℕ) : OptState :=
  let r := vaddrRecord o o.position virtualAddr (hash o virtualAddr)
  { r.2 with referenceString := o.referenceString ++ [r.1], position := o.position + 1 }

/-- The second loop of `opt_init` over the lines of the trace; `virtualAddr`
holds what an earlier line has left in it. -/
def recordLines (virtualAddr : ℕ) (o : OptState) : List (List Char) → OptState
  | [] => o
  | buffer :: rest =>
      let virtualAddr := (scanVaddr (replaceNewlineChar buffer)).getD virtualAddr
      recordLines virtualAddr (recordReference o virtualAddr) rest

/-- `virtualAddr` is uninitialised before the first line.  `memsize` is at least
1 and the trace has fewer than 2^31 lines, see `hash` and `position`. -/
def optInit (virtualAddr : ℕ) (s : Sim OptState) : Sim OptState :=
  let o := { s.alg with
    coremap := []
    hashmapSize := s.memsize
    position := 0
    hashmap := fun _ => []
    referenceString := [] }
  { s with alg := { recordLines virtualAddr o (linesOf 19 o.tracefile) with position := 0 } }

/-- `intact k` is what becomes of the word freed at reference number `k`. -/
def opt (virtualAddr : ℕ) (intact : ℕ → Bool) : Functions OptState :=
  ⟨optInit virtualAddr, optRef intact, optEvict⟩

/-! ## What the algorithm leaves alone -/

theorem optRef_view (intact : ℕ → Bool) (s : Sim OptState) (p : PtePtr) :
    Yields (optRef intact s p) (fun t => t.view = s.view ∧ ∃ o, t = { s with alg := o })
      fun _ => True := by
  unfold optRef
  split
  · trivial
  · refine Yields.bind (yields_true _) fun o _ => ?_
    split
    · exact Yields.bind (yields_true _) fun o _ => ⟨rfl, _, rfl⟩
    · refine Yields.bind (yields_true _) fun o _ => ?_
      exact Yields.bind (yields_true _) fun o _ => ⟨rfl, _, rfl⟩

theorem opt_polite (virtualAddr : ℕ) (intact : ℕ → Bool) : (opt virtualAddr intact).Polite where
  init_view _ := rfl
  ref_view s p s' h := ((optRef_view intact s p).of_eq_ok h).1
  evict_view := by
    intro s f s' h
    simp only [opt, optEvict] at h
    split at h
    · cases h
    · split at h
      · cases h
      · rw [← (Prod.mk.inj (Except.ok.inj h)).2]
        rfl

/-! ## The record of the references -/

/-- The positions from `k` on at which `q` is referenced, in order. -/
structure Uses (refs : List ℕ) (q k : ℕ) (positions : List ℕ) : Prop where
  sorted : positions.Pairwise (· < ·)
  mem_iff : ∀ i, i ∈ positions ↔ k ≤ i ∧ refs[i]? = some q

/-- Every address of `addrs` has its own `struct vaddr`, which lists the
positions at which the address is referenced. -/
structure Recorded (addrs : List ℕ) (o : OptState) : Prop where
  addrs_eq : o.referenceString.map o.addr = addrs
  addr_inj : ∀ q ∈ o.referenceString, ∀ r ∈ o.referenceString, o.addr q = o.addr r → q = r
  uses : ∀ q ∈ o.referenceString, Uses o.referenceString q 0 (o.vaddrs q).occurances
  unframed : ∀ q ∈ o.referenceString, (o.vaddrs q).frameNumber = none
  kept : ∀ q ∈ o.referenceString, (o.vaddrs q).lost = false

/-- While the trace is read, the hash map leads to every `struct vaddr`. -/
structure Recording (addrs : List ℕ) (o : OptState) : Prop extends Recorded addrs o where
  position_eq : o.position = addrs.length
  chained : ∀ q ∈ o.referenceString, q ∈ o.hashmap (hash o (o.addr q))
  chain_mem : ∀ i, ∀ q ∈ o.hashmap i, q ∈ o.referenceString
  lt_fresh : ∀ q ∈ o.referenceString, q < o.fresh
  coremap_eq : o.coremap = []

theorem Uses.append_same {refs positions : List ℕ} {q k : ℕ} (h : Uses refs q k positions)
    (hk : k ≤ refs.length) : Uses (refs ++ [q]) q k (positions ++ [refs.length]) where
  sorted := by
    refine List.pairwise_append.mpr ⟨h.sorted, List.pairwise_singleton _ _, fun i hi j hj => ?_⟩
    obtain ⟨hlt, -⟩ := List.getElem?_eq_some_iff.mp ((h.mem_iff i).mp hi).2
    exact (List.mem_singleton.mp hj).symm ▸ hlt
  mem_iff i := by
    rw [List.mem_append, h.mem_iff, List.mem_singleton, List.getElem?_append]
    rcases Nat.lt_trichotomy i refs.length with hlt | rfl | hgt
    · simp [hlt, Nat.ne_of_lt hlt]
    · simp [hk]
    · have hnone : [q][i - refs.length]? = none := List.getElem?_eq_none (by simp; omega)
      simp [Nat.not_lt_of_gt hgt, Nat.ne_of_gt hgt, hnone]

theorem Uses.append_other {refs positions : List ℕ} {q r k : ℕ} (h : Uses refs q k positions)
    (hne : q ≠ r) : Uses (refs ++ [r]) q k positions where
  sorted := h.sorted
  mem_iff i := by
    rw [h.mem_iff, List.getElem?_append]
    split
    · rfl
    · next hge =>
        have hnone : refs[i]? = none := List.getElem?_eq_none (Nat.le_of_not_lt hge)
        have hother : [r][i - refs.length]? ≠ some q := by
          intro heq
          obtain ⟨hlt, heq⟩ := List.getElem?_eq_some_iff.mp heq
          simp_all
        simp [hnone, hother]

/-- What `vaddr_record` does when `opt_init` calls it: `q` is the one
`struct vaddr` with the address, found or new. -/
structure Filed (o : OptState) (virtualAddr q : ℕ) (o' : OptState) : Prop where
  same_iff : ∀ r ∈ o.referenceString, o.addr r = virtualAddr ↔ r = q
  vaddrs_eq : ∃ positions, Uses o.referenceString q 0 positions ∧
    o'.vaddrs = Function.update o.vaddrs q ⟨virtualAddr, none, positions ++ [o.position], false⟩
  chained : q ∈ o'.hashmap (hash o virtualAddr)
  chain_mono : ∀ i, ∀ r ∈ o.hashmap i, r ∈ o'.hashmap i
  chain_mem : ∀ i, ∀ r ∈ o'.hashmap i, r ∈ o.hashmap i ∨ r = q
  fresh_mono : o.fresh ≤ o'.fresh
  lt_fresh : q < o'.fresh
  size_eq : o'.hashmapSize = o.hashmapSize
  coremap_eq : o'.coremap = o.coremap

theorem Recording.filed {addrs : List ℕ} {o : OptState} (h : Recording addrs o)
    (virtualAddr : ℕ) :
    Filed o virtualAddr (vaddrRecord o o.position virtualAddr (hash o virtualAddr)).1
      (vaddrRecord o o.position virtualAddr (hash o virtualAddr)).2 := by
  unfold vaddrRecord
  split
  · next q hfind =>
      have hq := h.chain_mem _ q (List.mem_of_find?_eq_some hfind)
      have haddr : o.addr q = virtualAddr := by simpa using List.find?_some hfind
      refine ⟨fun r hr => ⟨fun hr' => h.addr_inj r hr q hq (hr'.trans haddr.symm), ?_⟩,
        ⟨_, h.uses q hq, ?_⟩, List.mem_of_find?_eq_some hfind, fun _ _ hr => hr,
        fun _ _ hr => Or.inl hr, le_rfl, h.lt_fresh q hq, rfl, rfl⟩
      · rintro rfl
        exact haddr
      · simp only [addOccuranceSequence, OptState.setVaddr, ← haddr, ← h.unframed q hq, ← h.kept q hq]
        rfl
  · next hfind =>
      have hnew : o.fresh ∉ o.referenceString := fun hin => Nat.lt_irrefl _ (h.lt_fresh _ hin)
      simp only [addOccuranceSequence, OptState.setVaddr]
      refine ⟨fun r hr => ⟨fun hr' => ?_, ?_⟩, ⟨[], ⟨.nil, fun i => ?_⟩, by simp⟩, by simp,
        fun i r hr => ?_, fun i r hr => ?_, Nat.le_succ _, Nat.lt_succ_self _, rfl, rfl⟩
      · simpa [hr'] using List.find?_eq_none.mp hfind r (hr' ▸ h.chained r hr)
      · rintro rfl
        exact absurd hr hnew
      · have hi : o.referenceString[i]? ≠ some o.fresh := fun hi =>
          hnew (List.mem_of_getElem? hi)
        simp [hi]
      · simp only [Function.update_apply]
        split
        · next hi => simp [← hi, hr]
        · exact hr
      · simp only [Function.update_apply] at hr
        split at hr
        · next hi =>
            subst hi
            simpa using hr
        · exact Or.inl hr

theorem Recording.recordReference {addrs : List ℕ} {o : OptState} (h : Recording addrs o)
    (virtualAddr : ℕ) : Recording (addrs ++ [virtualAddr]) (recordReference o virtualAddr) := by
  have hfiled := h.filed virtualAddr
  unfold Paging.recordReference
  generalize vaddrRecord o o.position virtualAddr (hash o virtualAddr) = r at hfiled ⊢
  obtain ⟨q, o'⟩ := r
  simp only at hfiled ⊢
  obtain ⟨positions, huses, hvaddrs⟩ := hfiled.vaddrs_eq
  have hlength : o.referenceString.length = o.position := by
    rw [h.position_eq, ← h.addrs_eq, List.length_map]
  have hself : o'.addr q = virtualAddr := by simp [OptState.addr, hvaddrs]
  have haddr : ∀ s ∈ o.referenceString, o'.addr s = o.addr s := by
    intro s hs
    by_cases hsq : s = q
    · rw [hsq, hself]
      exact ((hfiled.same_iff q (hsq ▸ hs)).mpr rfl).symm
    · simp [OptState.addr, hvaddrs, hsq]
  have hinj : ∀ s ∈ o.referenceString, o'.addr s = virtualAddr → s = q := fun s hs heq =>
    (hfiled.same_iff s hs).mp ((haddr s hs).symm.trans heq)
  have hmem : ∀ {P : ℕ → Prop}, (∀ s ∈ o.referenceString, s ≠ q → P s) → P q →
      ∀ s ∈ o.referenceString ++ [q], P s := by
    intro P hold hnew s hs
    by_cases hsq : s = q
    · exact hsq ▸ hnew
    · exact hold s (by simpa [hsq] using hs) hsq
  have hother : ∀ s ≠ q, o'.vaddrs s = o.vaddrs s := fun s hs => by simp [hvaddrs, hs]
  refine ⟨⟨?_, ?_, ?_, ?_, ?_⟩, ?_, ?_, ?_, ?_, hfiled.coremap_eq.trans h.coremap_eq⟩
  · change (o.referenceString ++ [q]).map o'.addr = _
    rw [List.map_append, List.map_congr_left haddr, h.addrs_eq, List.map_singleton, hself]
  · refine hmem (fun s hs hsq => hmem (fun r hr hrq heq => ?_) fun heq => ?_)
      (hmem (fun r hr hrq heq => ?_) fun _ => rfl)
    · exact h.addr_inj s hs r hr ((haddr s hs).symm.trans (heq.trans (haddr r hr)))
    · exact hinj s hs (heq.trans hself)
    · exact (hinj r hr (heq.symm.trans hself)).symm
  · refine hmem (fun s hs hsq => ?_) ?_
    · change Uses (o.referenceString ++ [q]) s 0 (o'.vaddrs s).occurances
      rw [hother s hsq]
      exact (h.uses s hs).append_other hsq
    · change Uses (o.referenceString ++ [q]) q 0 (o'.vaddrs q).occurances
      rw [hvaddrs, Function.update_self, ← hlength]
      exact huses.append_same (Nat.zero_le _)
  · refine hmem (fun s hs hsq => ?_) ?_
    · change (o'.vaddrs s).frameNumber = none
      rw [hother s hsq]
      exact h.unframed s hs
    · change (o'.vaddrs q).frameNumber = none
      rw [hvaddrs, Function.update_self]
  · refine hmem (fun s hs hsq => ?_) ?_
    · change (o'.vaddrs s).lost = false
      rw [hother s hsq]
      exact h.kept s hs
    · change (o'.vaddrs q).lost = false
      rw [hvaddrs, Function.update_self]
  · change o.position + 1 = _
    rw [h.position_eq, List.length_append, List.length_singleton]
  · refine hmem (fun s hs hsq => ?_) ?_
    · change s ∈ o'.hashmap (o'.addr s % o'.hashmapSize)
      rw [haddr s hs, hfiled.size_eq]
      exact hfiled.chain_mono _ s (h.chained s hs)
    · change q ∈ o'.hashmap (o'.addr q % o'.hashmapSize)
      rw [hself, hfiled.size_eq]
      exact hfiled.chained
  · intro i s hs
    rcases hfiled.chain_mem i s hs with hs | rfl
    · exact List.mem_append_left _ (h.chain_mem i s hs)
    · simp
  · exact hmem (fun s hs _ => Nat.lt_of_lt_of_le (h.lt_fresh s hs) hfiled.fresh_mono)
      hfiled.lt_fresh

/-! ## Reading the trace in advance -/

def addrsFrom (virtualAddr : ℕ) : List (List Char) → List ℕ
  | [] => []
  | buffer :: rest =>
      let virtualAddr := (scanVaddr (replaceNewlineChar buffer)).getD virtualAddr
      virtualAddr :: addrsFrom virtualAddr rest

theorem Recording.recordLines {addrs : List ℕ} {o : OptState} (h : Recording addrs o)
    (virtualAddr : ℕ) (lines : List (List Char)) :
    Recording (addrs ++ addrsFrom virtualAddr lines) (recordLines virtualAddr o lines) := by
  induction lines generalizing addrs o virtualAddr with
  | nil => simpa [addrsFrom, Paging.recordLines] using h
  | cons buffer rest ih =>
      have hfirst := h.recordReference ((scanVaddr (replaceNewlineChar buffer)).getD virtualAddr)
      have hrest := ih hfirst ((scanVaddr (replaceNewlineChar buffer)).getD virtualAddr)
      rw [List.append_assoc] at hrest
      exact hrest

theorem recording_optInit (virtualAddr : ℕ) (s : Sim OptState) :
    Recorded (addrsFrom virtualAddr (linesOf 19 s.alg.tracefile)) (optInit virtualAddr s).alg ∧
      (optInit virtualAddr s).alg.position = 0 ∧ (optInit virtualAddr s).alg.coremap = [] := by
  have hempty : Recording [] { s.alg with
      coremap := []
      hashmapSize := s.memsize
      position := 0
      hashmap := fun _ => []
      referenceString := [] } := by
    constructor <;> try constructor
    all_goals simp
  have hall := hempty.recordLines virtualAddr (linesOf 19 s.alg.tracefile)
  exact ⟨⟨hall.addrs_eq, hall.addr_inj, hall.uses, hall.unframed, hall.kept⟩, rfl, hall.coremap_eq⟩

theorem replaceNewlineChar_of_notMem {text : List Char} (h : '\n' ∉ text) (rest : List Char) :
    replaceNewlineChar (text ++ rest) = text ++ replaceNewlineChar rest := by
  induction text with
  | nil => rfl
  | cons c text ih =>
      rw [List.mem_cons, not_or] at h
      rw [List.cons_append, replaceNewlineChar, if_neg (Ne.symm h.1), ih h.2]
      rfl

/-- The newline that `opt_init` takes away makes no difference to the address. -/
theorem scanVaddr_replaceNewlineChar {size : ℕ} {file line : List Char}
    (hline : line ∈ linesOf size file) : scanVaddr (replaceNewlineChar line) = scanVaddr line := by
  obtain ⟨text, hnot, rfl | rfl⟩ := linesOf_line hline
  · have hsame := replaceNewlineChar_of_notMem hnot []
    rw [List.append_nil] at hsame
    rw [hsame]
    simp [replaceNewlineChar]
  · have hcut : cString (text ++ replaceNewlineChar ['\n']) = cString text :=
      takeWhile_concat (by decide) text
    rw [replaceNewlineChar_of_notMem hnot, scanVaddr_newline, scanVaddr, hcut]
    rfl

theorem addrsFrom_eq_accessesFrom (type : Char) (vaddr : ℕ) {lines : List (List Char)}
    (hsame : ∀ line ∈ lines, scanVaddr (replaceNewlineChar line) = scanVaddr line)
    (hplain : ∀ line ∈ lines, line.head? ≠ some '=') :
    addrsFrom vaddr lines = (accessesFrom type vaddr lines).map Access.vaddr := by
  induction lines generalizing type vaddr with
  | nil => rfl
  | cons line rest ih =>
      rw [List.forall_mem_cons] at hsame hplain
      simp only [addrsFrom, accessesFrom, if_neg hplain.1, hsame.1, List.map_cons]
      rw [ih _ _ hsame.2 hplain.2]

/-- The initial value of `virtual_addr` is of no account when the first line
has an address. -/
theorem addrsFrom_congr {lines : List (List Char)}
    (hfirst : ∀ line ∈ lines.head?, (scanVaddr (replaceNewlineChar line)).isSome = true)
    (v w : ℕ) : addrsFrom v lines = addrsFrom w lines := by
  cases lines with
  | nil => rfl
  | cons line rest =>
      obtain ⟨x, hx⟩ := Option.isSome_iff_exists.mp (hfirst line rfl)
      simp only [addrsFrom, hx, Option.getD_some]

/-- `opt_init` records the addresses that `replay_trace` will access. -/
theorem PlainTrace.recorded {file : List Char} (hfile : PlainTrace file) {s : Sim OptState}
    (htracefile : s.alg.tracefile = file) (virtualAddr : ℕ) (type : Char) :
    Recorded ((accessesOf type file).map Access.vaddr) (optInit virtualAddr s).alg := by
  have hlines : linesOf 19 file = traceLines file :=
    linesOf_of_fits (by decide) fun line hline => Nat.le_of_lt_succ (hfile.fits line hline)
  have hsame : ∀ line ∈ traceLines file, scanVaddr (replaceNewlineChar line) = scanVaddr line :=
    fun _ hline => scanVaddr_replaceNewlineChar hline
  have hrecorded := (recording_optInit virtualAddr s).1
  rw [htracefile, hlines, addrsFrom_congr (w := 0)] at hrecorded
  · rwa [addrsFrom_eq_accessesFrom type 0 hsame hfile.plain] at hrecorded
  · intro line hline
    rw [hsame line (List.mem_of_mem_head? hline)]
    exact hfile.first_address line hline

end KernelProgramming.Paging
