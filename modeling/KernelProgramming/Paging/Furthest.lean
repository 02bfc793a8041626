import KernelProgramming.Paging.Optimal

/-!
# The page used furthest in the future

What the list of `opt.c` and the choice of `opt_evict` mean for the requests
that are still to come, at every point of the replay.
-/

namespace KernelProgramming.Paging

open FlagWord Runs DemandPaging

/-- The first position from `k` on at which page `p` is requested. -/
def nextRequest (pages : List PtePtr) (k : ℕ) (p : PtePtr) : Option ℕ :=
  (List.range pages.length).find? fun i => decide (k ≤ i) && decide (pages[i]? = some p)

/-- What is never requested again is later than what is, and not earlier than anything. -/
def Later (x y : Option ℕ) : Prop := ∀ i ∈ x, ∃ j ∈ y, j < i

/-- The list from `coremap_head` on, before request number `k`: each resident page once, the
pages without a further request first, then in decreasing order of the next request. -/
structure ListsResidents (pages : List PtePtr) (k : ℕ) (s : Sim OptState) : Prop where
  nodup : (s.alg.coremap.map s.alg.pageOf).Nodup
  mem_iff : ∀ p, p ∈ s.alg.coremap.map s.alg.pageOf ↔ (s.view.page p).valid = true
  sorted : (s.alg.coremap.map s.alg.pageOf).Pairwise fun p q =>
    Later (nextRequest pages k p) (nextRequest pages k q)

/-- `opt_evict` returns the frame of a resident page that is never requested after request
number `k`, or else, where every resident page is, of the one that is requested latest. -/
def EvictsFurthest (pages : List PtePtr) (k : ℕ) (s : Sim OptState) : Prop :=
  ∃ frame s₂ victim, optEvict s = .ok (frame, s₂) ∧ s.view.owner frame = some victim ∧
    (s.view.page victim).valid = true ∧ (s.view.page victim).number = frame ∧
    (nextRequest pages (k + 1) victim = none ∨
      ∀ q, (s.view.page q).valid = true → ∃ i ∈ nextRequest pages (k + 1) q,
        ∃ j ∈ nextRequest pages (k + 1) victim, i ≤ j)

section Requests

variable {pages : List PtePtr} {k i : ℕ} {p : PtePtr}

theorem nextRequest_eq_some_iff : nextRequest pages k p = some i ↔
    k ≤ i ∧ pages[i]? = some p ∧ ∀ j, k ≤ j → j < i → pages[j]? ≠ some p := by
  simp only [nextRequest, List.find?_range_eq_some, List.mem_range, Bool.and_eq_true,
    decide_eq_true_eq, Bool.not_eq_true', Bool.and_eq_false_iff, decide_eq_false_iff_not]
  constructor
  · rintro ⟨⟨hk, hi⟩, -, hbefore⟩
    exact ⟨hk, hi, fun j hj hlt => (hbefore j hlt).resolve_left (not_not_intro hj)⟩
  · rintro ⟨hk, hi, hbefore⟩
    refine ⟨⟨hk, hi⟩, (List.getElem?_eq_some_iff.mp hi).1, fun j hlt => ?_⟩
    exact or_iff_not_imp_left.mpr fun hj => hbefore j (not_not.mp hj) hlt

theorem nextRequest_eq_none_iff :
    nextRequest pages k p = none ↔ ∀ i, k ≤ i → pages[i]? ≠ some p := by
  simp only [nextRequest, List.find?_eq_none, List.mem_range, Bool.and_eq_true,
    decide_eq_true_eq, not_and]
  constructor
  · intro h i hk hi
    exact h i (List.getElem?_eq_some_iff.mp hi).1 hk hi
  · exact fun h i _ hk => h i hk

/-- A page that is not requested now has the same next request one step later. -/
theorem nextRequest_succ (hne : pages[k]? ≠ some p) :
    nextRequest pages (k + 1) p = nextRequest pages k p := by
  cases hnext : nextRequest pages k p with
  | none =>
      rw [nextRequest_eq_none_iff] at hnext ⊢
      exact fun i hi => hnext i (Nat.le_of_succ_le hi)
  | some i =>
      rw [nextRequest_eq_some_iff] at hnext ⊢
      obtain ⟨hk, hi, hbefore⟩ := hnext
      refine ⟨Nat.lt_of_le_of_ne hk ?_, hi, fun j hj => hbefore j (Nat.le_of_succ_le hj)⟩
      rintro rfl
      exact hne hi

end Requests

section Foresight

variable {addrs : List ℕ} {frameOf : PtePtr → Option ℕ} {k q : ℕ} {o : OptState}

theorem Foresight.page_at (h : Foresight addrs frameOf k o) (hq : q ∈ o.referenceString) (i : ℕ) :
    (addrs.map ptePtr)[i]? = some (o.pageOf q) ↔ o.referenceString[i]? = some q := by
  rw [← h.addrs_eq, List.map_map, List.getElem?_map]
  constructor
  · intro hi
    obtain ⟨r, hr, hpage⟩ := Option.map_eq_some_iff.mp hi
    rw [hr, h.page_inj r (List.mem_of_getElem? hr) q hq hpage]
  · intro hi
    rw [hi]
    rfl

/-- The first position that `opt.c` has on record for a page is that of its next request. -/
theorem Foresight.nextUse_eq (h : Foresight addrs frameOf k o) (hq : q ∈ o.referenceString) :
    o.nextUse q = nextRequest (addrs.map ptePtr) k (o.pageOf q) := by
  have huses := h.uses q hq
  rw [OptState.nextUse]
  cases hpositions : (o.vaddrs q).occurances with
  | nil =>
      refine (nextRequest_eq_none_iff.mpr fun i hi hpage => ?_).symm
      have huse := (huses.mem_iff i).mpr ⟨hi, (h.page_at hq i).mp hpage⟩
      rw [hpositions] at huse
      exact List.not_mem_nil huse
  | cons x xs =>
      have hx := (huses.mem_iff x).mp (hpositions ▸ List.mem_cons_self)
      refine (nextRequest_eq_some_iff.mpr ⟨hx.1, (h.page_at hq x).mpr hx.2, ?_⟩).symm
      intro j hj hlt hpage
      have huse := (huses.mem_iff j).mpr ⟨hj, (h.page_at hq j).mp hpage⟩
      have hsorted := huses.sorted
      rw [hpositions] at huse hsorted
      rcases List.mem_cons.mp huse with rfl | hmem
      · exact Nat.lt_irrefl j hlt
      · exact Nat.lt_asymm hlt ((List.pairwise_cons.mp hsorted).1 j hmem)

theorem Foresight.listsResidents {s : Sim OptState} (h : Foresight addrs s.view.frameOf k s.alg) :
    ListsResidents (addrs.map ptePtr) k s where
  nodup := by
    refine List.Nodup.map_on (fun q hq r hr => ?_) h.nodup
    exact h.page_inj q ((h.mem_iff q).mp hq).1 r ((h.mem_iff r).mp hr).1
  mem_iff p := by
    rw [← View.frameOf_ne_none_iff, List.mem_map]
    constructor
    · rintro ⟨q, hq, rfl⟩
      exact ((h.mem_iff q).mp hq).2
    · intro hp
      obtain ⟨q, hq, rfl⟩ := h.resident p hp
      exact ⟨q, (h.mem_iff q).mpr ⟨hq, hp⟩, rfl⟩
  sorted := by
    refine List.pairwise_map.mpr (h.sorted.imp_of_mem fun {q r} hq hr hlater => ?_)
    rw [← h.nextUse_eq ((h.mem_iff q).mp hq).1, ← h.nextUse_eq ((h.mem_iff r).mp hr).1]
    exact hlater

theorem Foresight.evictsFurthest {s : Sim OptState} (h : Foresight addrs s.view.frameOf k s.alg)
    (hs : s.view.Coherent) {vaddr : ℕ} (hk : addrs[k]? = some vaddr)
    (hmiss : (s.view.page (ptePtr vaddr)).valid = false) (hne : s.alg.coremap ≠ []) :
    EvictsFurthest (addrs.map ptePtr) k s := by
  obtain ⟨q, f, s₂, hq, hf, hevict, -, hlater⟩ := h.evicts hne
  have hvalid := View.frameOf_ne_none_iff.mp (hf ▸ Option.some_ne_none f)
  rw [View.frameOf, if_pos hvalid] at hf
  obtain rfl := Option.some.inj hf
  -- no resident page is the one requested now
  have hnext : ∀ r ∈ s.alg.coremap,
      nextRequest (addrs.map ptePtr) (k + 1) (s.alg.pageOf r) = s.alg.nextUse r := by
    intro r hr
    obtain ⟨href, hframe⟩ := (h.mem_iff r).mp hr
    rw [h.nextUse_eq href]
    apply nextRequest_succ
    rw [List.getElem?_map, hk]
    intro heq
    rw [← Option.some.inj heq, View.frameOf_ne_none_iff, hmiss] at hframe
    exact Bool.false_ne_true hframe
  refine ⟨_, s₂, s.alg.pageOf q, hevict, (hs.resident_owner _ hvalid).2.2, hvalid, rfl, ?_⟩
  cases huse : s.alg.nextUse q with
  | none => exact Or.inl ((hnext q hq).trans huse)
  | some j =>
      apply Or.inr
      intro p hp
      obtain ⟨r, href, rfl⟩ := h.resident p (View.frameOf_ne_none_iff.mpr hp)
      have hr := (h.mem_iff r).mpr ⟨href, View.frameOf_ne_none_iff.mpr hp⟩
      rw [hnext r hr, hnext q hq, huse]
      rcases eq_or_ne r q with rfl | hrq
      · exact ⟨j, huse, j, rfl, le_rfl⟩
      · obtain ⟨i, hi, hlt⟩ := hlater r hr hrq j huse
        exact ⟨i, hi, j, rfl, hlt.le⟩

end Foresight

section Replay

variable {m n virtualAddr : ℕ} {intact : ℕ → Bool} {garbage : ℕ → SimPage} {alg : OptState}
  {start : Sim OptState} {trace : List Access}

/-- The replay under OPT reaches its end, and at every point of it the list is in order and
the call of `opt_evict`, if there is one, gives up a page that is requested latest. -/
theorem opt_furthest (hm : 1 ≤ m ∧ m ≤ 2 ^ 20) (hn : n + 31 < 2 ^ 32)
    (hintact : ∀ k < trace.length, intact k = true) {file : List Char}
    (hfile : PlainTrace file) {type : Char} (htrace : accessesOf type file = trace)
    (haddr : ∀ a ∈ trace, a.vaddr < 2 ^ 36 ∧ 4096 ∣ a.vaddr) (hswap : (pagesOf trace).card ≤ n)
    (halg : alg.tracefile = file)
    (hstart : startSim (opt virtualAddr intact) m n garbage alg = .ok start) :
    (∃ s, replay (opt virtualAddr intact) start trace = .ok s) ∧
      ∀ past rest s, trace = past ++ rest → replay (opt virtualAddr intact) start past = .ok s →
        ListsResidents (requests trace) past.length s ∧
        ∀ a walked, a ∈ rest.head? → EvictCalled s a walked →
          EvictsFurthest (requests trace) past.length walked := by
  subst halg htrace
  have hstart' := foresight_start hstart hfile fun a ha => (haddr a ha).2
  have hpages : requests (accessesOf type alg.tracefile) =
      ((accessesOf type alg.tracefile).map Access.vaddr).map ptePtr := by
    rw [List.map_map]
    rfl
  constructor
  · exact replay_completes (opt_polite virtualAddr intact) hm.2
      (startSim_ready (opt_polite virtualAddr intact) hn hstart) (fun a ha => (haddr a ha).1) hswap
      (opt_serves hm (by omega) hintact hstart hstart') (List.append_nil _).symm
  · intro past rest s htrace hrun
    have hbefore : ∀ k < past.length, intact k = true := by
      intro k hk
      apply hintact
      rw [htrace, List.length_append]
      omega
    have h := foresight_replay hm.2 (by omega) hstart hstart' htrace hbefore hrun
    have hs := (startSim_sound (opt_polite virtualAddr intact) (by omega) hstart).replay
      (opt_polite virtualAddr intact) hm.2 hrun
    rw [hpages]
    refine ⟨h.listsResidents, fun a walked ha hcall => ?_⟩
    obtain ⟨hwalk, hmiss, hfull⟩ := hcall
    have hview := ((walkPgdir_yields s a.vaddr).of_eq_ok hwalk).1
    have hwalked := h.walked hwalk
    rw [← hview] at hwalked
    -- with all frames in use some page is resident
    have hpos : 0 < s.view.memsize := by
      have hmemsize : s.view.memsize = m := hs.memsize_eq
      omega
    have hall : ∀ i < s.view.memsize, s.view.inUse i = true := View.freeFrame_eq_none_iff.mp hfull
    have hinUse := hall 0 hpos
    obtain ⟨p, -, hvalid, -⟩ := hs.coherent.owner_resident 0 hpos hinUse
    have hk : ((accessesOf type alg.tracefile).map Access.vaddr)[past.length]? = some a.vaddr := by
      obtain ⟨rest', rfl⟩ := List.head?_eq_some_iff.mp ha
      simp [htrace]
    apply hwalked.evictsFurthest (hview.symm ▸ hs.coherent) hk
    · rw [hview]
      exact hmiss
    · exact hwalked.coremap_ne_nil (View.frameOf_ne_none_iff.mpr (hview.symm ▸ hvalid))

end Replay

end KernelProgramming.Paging
