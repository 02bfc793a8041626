import KernelProgramming.Paging.Furthest

/-!
# The word that is read after it was freed

`opt_ref` takes the next `struct occurance_sequence` of a page from the one it
has just freed.  OPT does what it is for as long as `free` leaves that word, and
no longer: a page whose word is lost stops the simulator when it is referenced
again.
-/

namespace KernelProgramming.Paging

open FlagWord Runs DemandPaging

/-! ## What a call leaves of the record -/

/-- The references to come, and what of them is lost, are as before. -/
structure SameRecord (o o' : OptState) : Prop where
  referenceString_eq : o'.referenceString = o.referenceString
  position_eq : o'.position = o.position
  lost_eq : ∀ q, (o'.vaddrs q).lost = (o.vaddrs q).lost

theorem addToCoremap_ok {o o' : OptState} {q : ℕ} (h : addToCoremap o q = .ok o') :
    ∃ coremap, o' = { o with coremap := coremap } := by
  have hyields : Yields (addToCoremap o q) (fun o' => ∃ coremap, o' = { o with coremap := coremap })
      fun _ => True := by
    unfold addToCoremap
    split
    · exact ⟨_, rfl⟩
    · split
      · exact ⟨_, rfl⟩
      · refine (yields_true _).bind fun first _ => ?_
        split
        · exact ⟨_, rfl⟩
        · exact (yields_true _).bind fun rest _ => ⟨_, rfl⟩
  exact hyields.of_eq_ok h

theorem removeFromCoremap_ok {o o' : OptState} {q : ℕ} (h : removeFromCoremap o q = .ok o') :
    ∃ coremap, o' = { o with coremap := coremap } := by
  obtain ⟨coremap, -, heq⟩ := bind_eq_ok_iff.mp h
  exact ⟨coremap, (Except.ok.inj heq).symm⟩

theorem optEvict_sameRecord {s t : Sim OptState} {frame : ℕ} (h : optEvict s = .ok (frame, t)) :
    SameRecord s.alg t.alg := by
  unfold optEvict at h
  split at h
  · cases h
  · next head rest _ =>
      split at h
      · cases h
      · obtain rfl := (Prod.mk.inj (Except.ok.inj h)).2
        refine ⟨rfl, rfl, fun q => ?_⟩
        by_cases hq : q = head <;> simp [OptState.setVaddr, hq]

theorem popOccurance_ok {intact : Bool} {o o' : OptState} {q : ℕ}
    (h : popOccurance intact o q = .ok o') :
    (o.vaddrs q).lost = false ∧ o'.referenceString = o.referenceString ∧
      o'.position = o.position ∧
      ((o.vaddrs q).occurances ≠ [] → (o'.vaddrs q).lost = !intact) := by
  unfold popOccurance at h
  split at h
  · cases h
  · next hlost =>
      refine ⟨by simpa using hlost, ?_⟩
      split at h
      · next hnil =>
          obtain rfl := Except.ok.inj h
          exact ⟨rfl, rfl, fun hne => absurd hnil hne⟩
      · obtain rfl := Except.ok.inj h
        exact ⟨rfl, rfl, fun _ => by simp [OptState.setVaddr]⟩

/-- `opt_ref` returns only for a page that is not lost, and then the word it has
freed decides if the page is. -/
theorem optRef_ok {intact : ℕ → Bool} {s t : Sim OptState} {p : PtePtr}
    (h : optRef intact s p = .ok t) :
    ∃ q, s.alg.referenceString[s.alg.position]? = some q ∧ (s.alg.vaddrs q).lost = false ∧
      t.alg.referenceString = s.alg.referenceString ∧ t.alg.position = s.alg.position + 1 ∧
      ((s.alg.vaddrs q).occurances ≠ [] →
        (t.alg.vaddrs q).lost = !intact s.alg.position) := by
  unfold optRef at h
  split at h
  · cases h
  · next q hq =>
      obtain ⟨o, hpop, h⟩ := bind_eq_ok_iff.mp h
      obtain ⟨hlost, hrefs, hposition, hword⟩ := popOccurance_ok hpop
      refine ⟨q, hq, hlost, ?_⟩
      split at h
      · obtain ⟨o', hadd, h⟩ := bind_eq_ok_iff.mp h
        obtain ⟨coremap, rfl⟩ := addToCoremap_ok hadd
        obtain rfl := Except.ok.inj h
        exact ⟨hrefs, hposition, fun hne => by simpa [OptState.setVaddr] using hword hne⟩
      · obtain ⟨o₁, hremove, h⟩ := bind_eq_ok_iff.mp h
        obtain ⟨coremap₁, rfl⟩ := removeFromCoremap_ok hremove
        obtain ⟨o₂, hadd, h⟩ := bind_eq_ok_iff.mp h
        obtain ⟨coremap₂, rfl⟩ := addToCoremap_ok hadd
        obtain rfl := Except.ok.inj h
        exact ⟨hrefs, hposition, hword⟩

section Lost

variable {virtualAddr k : ℕ} {intact : ℕ → Bool} {s t : Sim OptState}

theorem sameRecord_of_arrives {vaddr : ℕ} {type : Char}
    (h : Arrives (opt virtualAddr intact) s vaddr type t) : SameRecord s.alg t.alg := by
  have halg : ∀ {u w : Sim OptState} {p : PtePtr}, u.priv = w.priv.setRef p → u.alg = w.alg :=
    fun hpriv => congrArg Priv.alg hpriv
  cases h with
  | hit hvalid hview hpriv => exact halg hpriv ▸ ⟨rfl, rfl, fun _ => rfl⟩
  | fill frame hvalid hfree hview hpriv => exact halg hpriv ▸ ⟨rfl, rfl, fun _ => rfl⟩
  | replace walked s₂ frame victim off swapmap hvalid hfull hwalk hevict hframe howner hslot hoff
      hview hpriv =>
      have hwalked : walked.alg = s.alg :=
        congrArg Priv.alg ((walkPgdir_yields s vaddr).of_eq_ok hwalk).2
      rw [halg hpriv, ← hwalked]
      exact optEvict_sameRecord hevict

/-- The page referenced at position `k` is lost when its word is. -/
theorem Foresight.loses {addrs : List ℕ} (h : Foresight addrs s.view.frameOf k s.alg)
    (hs : s.view.Coherent) (hintact : intact k = false) {a : Access} {u v : Sim OptState}
    (hacc : Accessed (opt virtualAddr intact) s a u v t) :
    ∃ q, s.alg.referenceString[k]? = some q ∧ (t.alg.vaddrs q).lost = true ∧
      t.alg.referenceString = s.alg.referenceString ∧ t.alg.position = k + 1 := by
  obtain ⟨frameOf, hu, -, -⟩ := h.arrives hs hacc.arrives
  obtain ⟨q, hq, -, hrefs, hposition, hword⟩ := optRef_ok hacc.ref_eq
  have hsame := sameRecord_of_arrives hacc.arrives
  have halg : t.alg = v.alg := congrArg Priv.alg hacc.priv_eq
  rw [hu.position_eq] at hq hposition hword
  -- position `k` is on record
  have hne : (u.alg.vaddrs q).occurances ≠ [] := by
    apply List.ne_nil_of_mem (a := k)
    exact ((hu.uses q (List.mem_of_getElem? hq)).mem_iff k).mpr ⟨le_rfl, hq⟩
  rw [hsame.referenceString_eq] at hq hrefs
  refine ⟨q, hq, ?_, halg ▸ hrefs, halg ▸ hposition⟩
  rw [halg, hword hne, hintact]
  rfl

theorem not_accessed_of_lost {q : ℕ} (hq : s.alg.referenceString[s.alg.position]? = some q)
    (hlost : (s.alg.vaddrs q).lost = true) {a : Access} {u v : Sim OptState} :
    ¬ Accessed (opt virtualAddr intact) s a u v t := by
  intro hacc
  obtain ⟨r, hr, hkept, -⟩ := optRef_ok hacc.ref_eq
  have hsame := sameRecord_of_arrives hacc.arrives
  rw [hsame.referenceString_eq, hsame.position_eq, hq] at hr
  obtain rfl := Option.some.inj hr
  rw [hsame.lost_eq, hlost] at hkept
  exact Bool.noConfusion hkept

end Lost

/-! ## One page over and over -/

/-- `n` times L 1000. -/
def samePage (n : ℕ) : List Char :=
  (List.replicate n ['L', ' ', '1', '0', '0', '0', '\n']).flatten

theorem traceLines_samePage (n : ℕ) :
    traceLines (samePage n) = List.replicate n ['L', ' ', '1', '0', '0', '0', '\n'] := by
  have hread : ∀ n fuel, n ≤ fuel → readLines 255 fuel (samePage n) =
      List.replicate n ['L', ' ', '1', '0', '0', '0', '\n'] := by
    intro n
    induction n with
    | zero => intro fuel _; cases fuel <;> rfl
    | succ n ih =>
        rintro (_ | fuel) hle
        · exact absurd hle (Nat.not_succ_le_zero n)
        · rw [List.replicate_succ, ← ih fuel (Nat.le_of_succ_le_succ hle)]
          rfl
  apply hread
  simp [samePage]
  omega

theorem accessesOf_samePage (n : ℕ) :
    accessesOf '?' (samePage n) = List.replicate n ⟨'L', 0x1000⟩ := by
  have hfrom : ∀ n type vaddr,
      accessesFrom type vaddr (List.replicate n ['L', ' ', '1', '0', '0', '0', '\n']) =
        List.replicate n ⟨'L', 0x1000⟩ := by
    intro n
    induction n with
    | zero => intro _ _; rfl
    | succ n ih =>
        intro type vaddr
        rw [List.replicate_succ, List.replicate_succ, ← ih 'L' 0x1000]
        rfl
  rw [accessesOf, traceLines_samePage]
  exact hfrom n '?' 0

theorem plainTrace_samePage (n : ℕ) : PlainTrace (samePage n) := by
  have hline : ∀ line ∈ traceLines (samePage n), line = ['L', ' ', '1', '0', '0', '0', '\n'] :=
    fun line h => List.eq_of_mem_replicate (traceLines_samePage n ▸ h)
  refine ⟨fun line h => ?_, fun line h => ?_, fun line h => ?_⟩
  · rw [hline line h]
    decide
  · rw [hline line h]
    decide
  · rw [hline line (List.mem_of_mem_head? h)]
    decide

/-! ## What OPT is for -/

/-- The traces and memories of the contract of OPT. -/
structure Suited (file : List Char) (type : Char) (m n : ℕ) : Prop where
  memsize : 1 ≤ m ∧ m ≤ 2 ^ 20
  swapsize : n + 31 < 2 ^ 32
  plain : PlainTrace file
  aligned : ∀ a ∈ accessesOf type file, a.vaddr < 2 ^ 36 ∧ 4096 ∣ a.vaddr
  enough : (pagesOf (accessesOf type file)).card ≤ n

/-- The replay under OPT reaches the end of the trace, with no more misses than
under any other algorithm that serves it. -/
def FewestMisses (intact : ℕ → Bool) (file : List Char) (type : Char) (m n : ℕ) : Prop :=
  ∀ (virtualAddr : ℕ) (garbage : ℕ → SimPage) (alg : OptState) (start : Sim OptState),
    alg.tracefile = file → startSim (opt virtualAddr intact) m n garbage alg = .ok start →
    ∀ (σ : Type) (F : Functions σ) (garbage' : ℕ → SimPage) (alg' : σ) (other : Sim σ),
      F.Polite → startSim F m n garbage' alg' = .ok other →
      F.Serves other (accessesOf type file) →
      ∃ s t, replay (opt virtualAddr intact) start (accessesOf type file) = .ok s ∧
        replay F other (accessesOf type file) = .ok t ∧ s.missCount ≤ t.missCount

/-- The replay under OPT reaches the end of the trace, its list is in order
before each access, and `opt_evict` gives up a page that is requested latest. -/
def FurthestFirst (intact : ℕ → Bool) (file : List Char) (type : Char) (m n : ℕ) : Prop :=
  ∀ (virtualAddr : ℕ) (garbage : ℕ → SimPage) (alg : OptState) (start : Sim OptState),
    alg.tracefile = file → startSim (opt virtualAddr intact) m n garbage alg = .ok start →
    (∃ s, replay (opt virtualAddr intact) start (accessesOf type file) = .ok s) ∧
      ∀ past rest s, accessesOf type file = past ++ rest →
        replay (opt virtualAddr intact) start past = .ok s →
        ListsResidents (requests (accessesOf type file)) past.length s ∧
        ∀ a walked, a ∈ rest.head? → EvictCalled s a walked →
          EvictsFurthest (requests (accessesOf type file)) past.length walked

theorem suited_samePage (n : ℕ) : Suited (samePage n) '?' 1 1 where
  memsize := by decide
  swapsize := by decide
  plain := plainTrace_samePage n
  aligned := by
    intro a ha
    rw [accessesOf_samePage] at ha
    rw [List.eq_of_mem_replicate ha]
    decide
  enough := by
    rw [accessesOf_samePage]
    apply Finset.card_le_one.mpr
    intro p hp q hq
    simp only [pagesOf, List.mem_toFinset, List.mem_map] at hp hq
    obtain ⟨a, ha, rfl⟩ := hp
    obtain ⟨b, hb, rfl⟩ := hq
    rw [List.eq_of_mem_replicate ha, List.eq_of_mem_replicate hb]

/-- Two references to the page at position `k` are one too many if its word is lost. -/
theorem intact_of_completes {virtualAddr : ℕ} {intact : ℕ → Bool} {garbage : ℕ → SimPage}
    {alg : ℕ → OptState} (htracefile : ∀ n, (alg n).tracefile = samePage n)
    {start : ℕ → Sim OptState}
    (hstart : ∀ n, startSim (opt virtualAddr intact) 1 1 garbage (alg n) = .ok (start n))
    (hcompletes : ∀ n, ∃ s, replay (opt virtualAddr intact) (start n) (accessesOf '?' (samePage n)) =
      .ok s) (k : ℕ) : intact k = true := by
  induction k using Nat.strongRecOn with
  | ind k ih =>
      by_contra hlost
      have hpolite := opt_polite virtualAddr intact
      have hsuited := suited_samePage (k + 2)
      have hsound := startSim_sound hpolite (by decide) (hstart (k + 2))
      obtain ⟨t, ht⟩ := hcompletes (k + 2)
      have haccesses : accessesOf '?' (samePage (k + 2)) =
          List.replicate k ⟨'L', 0x1000⟩ ++ [⟨'L', 0x1000⟩] ++ [⟨'L', 0x1000⟩] := by
        rw [accessesOf_samePage, List.replicate_succ', List.replicate_succ']
      -- the states before the last two accesses
      rw [haccesses] at ht
      obtain ⟨s₁, hs₁, hlast⟩ := foldlM_concat_ok_iff.mp ht
      obtain ⟨s₀, hs₀, hfirst⟩ := foldlM_concat_ok_iff.mp hs₁
      have hplain : PlainTrace (alg (k + 2)).tracefile := htracefile (k + 2) ▸ hsuited.plain
      have haligned : ∀ a ∈ accessesOf '?' (alg (k + 2)).tracefile, 4096 ∣ a.vaddr :=
        htracefile (k + 2) ▸ fun a ha => (hsuited.aligned a ha).2
      have hstart' := foresight_start (hstart (k + 2)) hplain haligned
      rw [htracefile, haccesses] at hstart'
      have h := foresight_replay (by decide) (by decide) (hstart (k + 2)) hstart'
        (List.append_assoc _ _ _) (fun j hj => ih j (by simpa using hj)) hs₀
      rw [List.length_replicate] at h
      have hsound₀ := hsound.replay hpolite (by decide) hs₀
      obtain ⟨hsound₁, u, v, hacc⟩ := hsound₀.accessMem_ok hpolite (by decide) hfirst
      obtain ⟨-, u', v', hacc'⟩ := hsound₁.accessMem_ok hpolite (by decide) hlast
      obtain ⟨q, hq, hqlost, hrefs, hposition⟩ :=
        h.loses hsound₀.coherent (by simpa using hlost) hacc
      -- the next position has the same page
      obtain ⟨r, hr⟩ : ∃ r, s₀.alg.referenceString[k + 1]? = some r := by
        have hlength := congrArg List.length h.addrs_eq
        simp only [List.length_map, List.length_append, List.length_replicate,
          List.length_singleton] at hlength
        exact ⟨_, List.getElem?_eq_getElem (by omega)⟩
      have haddr : ∀ {i x}, i < k + 2 → s₀.alg.referenceString[i]? = some x →
          s₀.alg.addr x = 0x1000 := by
        intro i x hi hx
        have hat := congrArg (·[i]?) h.addrs_eq
        rw [← List.replicate_succ', ← List.replicate_succ', List.map_replicate] at hat
        simpa [hx, hi] using hat
      have hsame : r = q := h.page_inj r (List.mem_of_getElem? hr) q (List.mem_of_getElem? hq)
        (congrArg ptePtr ((haddr (by omega) hr).trans (haddr (by omega) hq).symm))
      exact not_accessed_of_lost (hrefs ▸ hposition ▸ hsame ▸ hr) hqlost hacc'

def emptyOpt (file : List Char) : OptState :=
  ⟨file, 0, fun _ => [], fun _ => ⟨0, none, [], false⟩, 0, [], [], 0⟩

theorem exists_start (intact : ℕ → Bool) : ∃ start : ℕ → Sim OptState, ∀ n,
    startSim (opt 0 intact) 1 1 (fun _ => ⟨0#32, 0, 0#32⟩) (emptyOpt (samePage n)) =
      .ok (start n) := by
  obtain ⟨b, hb⟩ := exists_of_isOk (x := bitmapCreate 1) (by decide)
  refine ⟨fun n => optInit 0 (bootSim 1 (fun _ => ⟨0#32, 0, 0#32⟩) b (emptyOpt (samePage n))),
    fun n => ?_⟩
  rw [startSim, hb]
  rfl

/-- OPT is optimal on every trace just if `free` leaves the word, and on a trace
if `free` does so for as long as the trace lasts. -/
theorem fewestMisses_iff (intact : ℕ → Bool) :
    ((∀ file type m n, Suited file type m n → FewestMisses intact file type m n) ↔
      ∀ k, intact k = true) ∧
    ∀ file type m n, Suited file type m n →
      (∀ k < (accessesOf type file).length, intact k = true) →
      FewestMisses intact file type m n := by
  have henough : ∀ file type m n, Suited file type m n →
      (∀ k < (accessesOf type file).length, intact k = true) →
      FewestMisses intact file type m n := by
    intro file type m n hsuited hintact virtualAddr garbage alg start halg hstart σ F garbage' alg'
      other hF hother hserves
    exact opt_optimal hsuited.memsize hsuited.swapsize hintact hsuited.plain rfl hsuited.aligned
      hsuited.enough halg hstart hF hother hserves
  refine ⟨⟨fun h => ?_, fun h file type m n hsuited => ?_⟩, henough⟩
  · obtain ⟨start, hstart⟩ := exists_start intact
    obtain ⟨other, hother⟩ := exists_of_isOk
      (x := startSim lru 1 1 (fun _ => ⟨0#32, 0, 0#32⟩) ⟨none, none⟩) (by decide)
    refine intact_of_completes (fun _ => rfl) hstart fun n => ?_
    obtain ⟨s, -, hs, -⟩ := h _ _ _ _ (suited_samePage n) _ _ _ _ rfl (hstart n) _ lru _ _ other
      lru_polite hother (lru_serves (by decide) (by decide) hother _)
    exact ⟨s, hs⟩
  · exact henough file type m n hsuited fun k _ => h k

theorem fewestMisses_rand :
    ∃ start other s t,
      startSim (opt 9 fun _ => true) 2 4 (fun _ => ⟨7#32, 7, 7#32⟩) (emptyOpt threePages) =
        .ok start ∧
      startSim rand 2 4 (fun _ => ⟨7#32, 7, 7#32⟩) (fun i => 3 * i + 1) = .ok other ∧
      replay (opt 9 fun _ => true) start (accessesOf '?' threePages) = .ok s ∧
      replay rand other (accessesOf '?' threePages) = .ok t ∧ s.missCount ≤ t.missCount := by
  obtain ⟨start, hstart⟩ := exists_of_isOk (x := startSim (opt 9 fun _ => true) 2 4
    (fun _ => ⟨7#32, 7, 7#32⟩) (emptyOpt threePages)) (by decide)
  obtain ⟨other, hother⟩ := exists_of_isOk (x := startSim rand 2 4 (fun _ => ⟨7#32, 7, 7#32⟩)
    (fun i => 3 * i + 1)) (by decide)
  have hsuited : Suited threePages '?' 2 4 :=
    ⟨by decide, by decide, ⟨by decide, by decide, by decide⟩, by decide, by decide⟩
  have hserves := rand_serves (by decide) (startSim_sound rand_polite (by decide) hother)
    (accessesOf '?' threePages)
  obtain ⟨s, t, hs, ht, hle⟩ := (fewestMisses_iff fun _ => true).2 _ _ _ _ hsuited
    (fun _ _ => rfl) _ _ _ _ rfl hstart _ _ _ _ _ rand_polite hother hserves
  exact ⟨start, other, s, t, hstart, hother, hs, ht, hle⟩

/-- The accesses L 1000, L 2000. -/
def loadsTwo : List Char :=
  ['L', ' ', '1', '0', '0', '0', '\n', 'L', ' ', '2', '0', '0', '0', '\n']

theorem suited_loadsTwo : Suited loadsTwo '?' 2 2 :=
  ⟨by decide, by decide, ⟨by decide, by decide, by decide⟩, by decide, by decide⟩

/-- With an allocator that writes its own key over the word, `opt_ref` dies on two pages. -/
theorem opt_dies : ∃ start,
    startSim (opt 0 fun _ => false) 2 2 (fun _ => ⟨0#32, 0, 0#32⟩) (emptyOpt loadsTwo) =
      .ok start ∧
    replay (opt 0 fun _ => false) start (accessesOf '?' loadsTwo) = .error .wild := by
  have hwild : (match simulate (opt 0 fun _ => false) 2 2 (fun _ => ⟨0#32, 0, 0#32⟩)
      (emptyOpt loadsTwo) (accessesOf '?' loadsTwo) with
    | .error .wild => true
    | _ => false) = true := by decide +kernel
  obtain ⟨start, hstart⟩ := exists_of_isOk (x := startSim (opt 0 fun _ => false) 2 2
    (fun _ => ⟨0#32, 0, 0#32⟩) (emptyOpt loadsTwo)) (by decide)
  refine ⟨start, hstart, ?_⟩
  rw [simulate, hstart] at hwild
  change (match replay _ start _ with | .error .wild => true | _ => false) = true at hwild
  split at hwild
  · next heq => exact heq
  · cases hwild

theorem not_fewestMisses :
    Suited loadsTwo '?' 2 2 ∧ ¬ FewestMisses (fun _ => false) loadsTwo '?' 2 2 := by
  refine ⟨suited_loadsTwo, fun h => ?_⟩
  obtain ⟨start, hstart, hdies⟩ := opt_dies
  obtain ⟨other, hother⟩ := exists_of_isOk
    (x := startSim lru 2 2 (fun _ => ⟨0#32, 0, 0#32⟩) ⟨none, none⟩) (by decide)
  obtain ⟨s, -, hs, -⟩ := h _ _ _ _ rfl hstart _ lru _ _ other
    lru_polite hother (lru_serves (by decide) (by decide) hother _)
  rw [hdies] at hs
  cases hs

/-- The list of OPT is in order on every trace just if `free` leaves the word,
and on a trace if `free` does so for as long as the trace lasts. -/
theorem furthestFirst_iff (intact : ℕ → Bool) :
    ((∀ file type m n, Suited file type m n → FurthestFirst intact file type m n) ↔
      ∀ k, intact k = true) ∧
    ∀ file type m n, Suited file type m n →
      (∀ k < (accessesOf type file).length, intact k = true) →
      FurthestFirst intact file type m n := by
  have henough : ∀ file type m n, Suited file type m n →
      (∀ k < (accessesOf type file).length, intact k = true) →
      FurthestFirst intact file type m n := by
    intro file type m n hsuited hintact virtualAddr garbage alg start halg hstart
    exact opt_furthest hsuited.memsize hsuited.swapsize hintact hsuited.plain rfl hsuited.aligned
      hsuited.enough halg hstart
  refine ⟨⟨fun h => ?_, fun h file type m n hsuited => ?_⟩, henough⟩
  · obtain ⟨start, hstart⟩ := exists_start intact
    exact intact_of_completes (fun _ => rfl) hstart fun n =>
      (h _ _ _ _ (suited_samePage n) _ _ _ _ rfl (hstart n)).1
  · exact henough file type m n hsuited fun k _ => h k

theorem furthestFirst_three : ∃ start,
    startSim (opt 9 fun _ => true) 2 4 (fun _ => ⟨7#32, 7, 7#32⟩) (emptyOpt threePages) =
      .ok start ∧
    (∃ s, replay (opt 9 fun _ => true) start (accessesOf '?' threePages) = .ok s) ∧
      ∀ past rest s, accessesOf '?' threePages = past ++ rest →
        replay (opt 9 fun _ => true) start past = .ok s →
        ListsResidents (requests (accessesOf '?' threePages)) past.length s ∧
        ∀ a walked, a ∈ rest.head? → EvictCalled s a walked →
          EvictsFurthest (requests (accessesOf '?' threePages)) past.length walked := by
  obtain ⟨start, hstart⟩ := exists_of_isOk (x := startSim (opt 9 fun _ => true) 2 4
    (fun _ => ⟨7#32, 7, 7#32⟩) (emptyOpt threePages)) (by decide)
  have hsuited : Suited threePages '?' 2 4 :=
    ⟨by decide, by decide, ⟨by decide, by decide, by decide⟩, by decide, by decide⟩
  exact ⟨start, hstart, (furthestFirst_iff fun _ => true).2 _ _ _ _ hsuited (fun _ _ => rfl) _ _
    _ _ rfl hstart⟩

theorem not_furthestFirst :
    Suited loadsTwo '?' 2 2 ∧ ¬ FurthestFirst (fun _ => false) loadsTwo '?' 2 2 := by
  refine ⟨suited_loadsTwo, fun h => ?_⟩
  obtain ⟨start, hstart, hdies⟩ := opt_dies
  obtain ⟨⟨s, hs⟩, -⟩ := h _ _ _ _ rfl hstart
  rw [hdies] at hs
  cases hs

end KernelProgramming.Paging
