import KernelProgramming.Paging.Lru
import KernelProgramming.Paging.Counters

/-!
# More frames never hurt the least recently used algorithm

With any number of frames `lru.c` keeps the pages accessed last.  Two replays
of the same trace therefore have nested sets of resident pages, however
differently they assign the frames.
-/

namespace KernelProgramming.Paging

open FlagWord Runs DemandPaging

/-- The resident pages are those accessed last. -/
def KeepsNewest (m : ℕ) (past : List Access) (s : Sim LruList) : Prop :=
  Newest m (pagesOf past) (lastAccess past) s.view.residents

theorem pagesOf_concat (past : List Access) (a : Access) :
    pagesOf (past ++ [a]) = insert (ptePtr a.vaddr) (pagesOf past) := by
  ext p
  simp only [mem_pagesOf, Finset.mem_insert, List.mem_append, List.mem_singleton]
  constructor
  · rintro ⟨b, hb | rfl, rfl⟩
    · exact Or.inr ⟨b, hb, rfl⟩
    · exact Or.inl rfl
  · rintro (rfl | ⟨b, hb, rfl⟩)
    · exact ⟨a, Or.inr rfl, rfl⟩
    · exact ⟨b, Or.inl hb, rfl⟩

/-- The victim of `lru_evict` is older than all other resident pages. -/
theorem Recency.victim_oldest {past : List Access} {s walked s₂ : Sim LruList} {xs : List ℕ}
    (h : Recency past s xs) (hs : s.view.Coherent) (hm : 1 ≤ s.view.memsize) {vaddr frame : ℕ}
    {victim : PtePtr} (hwalk : walkPgdir s vaddr = .ok walked) (hfull : s.view.freeFrame = none)
    (hevict : lruEvict walked = .ok (frame, s₂)) (howner : s.view.owner frame = some victim) :
    ∀ q ∈ s.view.residents, q ≠ victim → lastAccess past victim < lastAccess past q := by
  have hview : walked.view = s.view := ((walkPgdir_yields s vaddr).of_eq_ok hwalk).1
  have hwalked := h.walked hwalk
  obtain ⟨x, rest, s₃, rfl, hevict', -⟩ :=
    hwalked.evict (hview ▸ hs) (hview ▸ hm) (hview ▸ hfull)
  obtain ⟨rfl, -⟩ := Prod.mk.inj (Except.ok.inj (hevict.symm.trans hevict'))
  obtain ⟨oldest, hpte, -, -, holdest⟩ := hwalked.leastRecent (hview ▸ hs)
  have howner' : (walked.coremap frame).pte = some victim := by
    rw [← howner, ← hview]
    rfl
  obtain rfl := Option.some.inj (hpte.symm.trans howner')
  intro q hq hne
  have hvalid : (walked.view.page q).valid = true := hview ▸ (hs.mem_residents q).mp hq
  exact holdest q hvalid hne

theorem KeepsNewest.accessed {m : ℕ} {past : List Access} {s u v t : Sim LruList} {a : Access}
    {xs : List ℕ} (h : KeepsNewest m past s) (hrec : Recency past s xs) (hs : Sound m s)
    (ht : Sound m t) (hm : 1 ≤ m) (hacc : Accessed lru s a u v t) :
    KeepsNewest m (past ++ [a]) t := by
  have hsize : s.view.memsize = m := hs.memsize_eq
  obtain ⟨c, hserve, -⟩ : ∃ c, Serve m
      (fun w => ∀ q ∈ s.view.residents, q ≠ w → lastAccess past w < lastAccess past q)
      s.view.residents (ptePtr a.vaddr) t.view.residents c ∧ t.missCount = s.missCount + c :=
    hacc.serve hs ht fun walked frame s₂ victim hwalk hfull _ hevict howner =>
      hrec.victim_oldest hs.coherent (hsize ▸ hm) hwalk hfull hevict howner
  rw [KeepsNewest, pagesOf_concat]
  refine Newest.serve h hserve (fun q hq => ?_) fun q hq hqp => ?_
  · rw [lastAccess_append, if_neg (Ne.symm hq)]
  · rw [lastAccess_append, lastAccess_append, if_neg (Ne.symm hqp), if_pos rfl]
    exact Nat.lt_succ_of_le (lastAccess_le past q)

theorem keepsNewest_replay {m swapsize : ℕ} (hm : 1 ≤ m ∧ m ≤ 2 ^ 20) (hswapsize : swapsize < 2 ^ 32)
    {garbage : ℕ → SimPage} {alg : LruList} {start s : Sim LruList}
    (hstart : startSim lru m swapsize garbage alg = .ok start) {past : List Access}
    (hrun : replay lru start past = .ok s) : KeepsNewest m past s := by
  have hsound := startSim_sound lru_polite hswapsize hstart
  refine @run_invariant _ _ _ _ (fun past s => KeepsNewest m past s) _ _ _ ?_ ?_ hrun
  · have hnone : start.view.residents = ∅ := by
      apply Finset.eq_empty_of_forall_notMem
      intro p hp
      have hvalid := (hsound.coherent.mem_residents p).mp hp
      rw [invalid_start lru_polite hstart] at hvalid
      exact Bool.false_ne_true hvalid
    rw [KeepsNewest, hnone]
    exact newest_empty m _
  · intro before a after t w _ hbefore ht hacc
    have hts := hsound.replay lru_polite hm.2 hbefore
    obtain ⟨xs, hxs⟩ := recency_replay hm hswapsize hstart hbefore
    obtain ⟨hw, u, v, hacc'⟩ := hts.accessMem_ok lru_polite hm.2 hacc
    exact ht.accessed hxs hts hw hm.1 hacc'

section TwoRuns

variable {m m' n n' : ℕ} {garbage garbage' : ℕ → SimPage} {alg alg' : LruList}
  {start start' : Sim LruList}

/-- The smaller memory holds no page that the larger one does not hold. -/
theorem residents_subset (hm : 1 ≤ m ∧ m ≤ m' ∧ m' ≤ 2 ^ 20) (hn : n < 2 ^ 32 ∧ n' < 2 ^ 32)
    (hstart : startSim lru m n garbage alg = .ok start)
    (hstart' : startSim lru m' n' garbage' alg' = .ok start') {past : List Access}
    {s s' : Sim LruList} (hrun : replay lru start past = .ok s)
    (hrun' : replay lru start' past = .ok s') : s.view.residents ⊆ s'.view.residents := by
  have hnewest := keepsNewest_replay ⟨hm.1, hm.2.1.trans hm.2.2⟩ hn.1 hstart hrun
  have hnewest' := keepsNewest_replay ⟨hm.1.trans hm.2.1, hm.2.2⟩ hn.2 hstart' hrun'
  exact hnewest.subset_of_le hnewest' hm.2.1

/-- Least recently used replacement has no anomaly: with more frames there are
more resident pages after every prefix of the trace, and at least as many hits.
The counters, `int`s of the source, do not overflow on a trace of fewer than
2^31 accesses. -/
theorem lru_inclusion (hm : 1 ≤ m ∧ m ≤ m' ∧ m' ≤ 2 ^ 20) (hn : n < 2 ^ 32 ∧ n' < 2 ^ 32)
    (hstart : startSim lru m n garbage alg = .ok start)
    (hstart' : startSim lru m' n' garbage' alg' = .ok start') {trace : List Access}
    (haddr : ∀ a ∈ trace, a.vaddr < 2 ^ 36) :
    (∀ past rest s s', trace = past ++ rest → replay lru start past = .ok s →
      replay lru start' past = .ok s' →
      (∀ p, hasFlag (s.pte p).frame pgValid = true → hasFlag (s'.pte p).frame pgValid = true) ∧
        s.hitCount ≤ s'.hitCount ∧
        (trace.length < 2 ^ 31 → s.hitCount < 2 ^ 31 ∧ s'.hitCount < 2 ^ 31)) ∧
    (n + 31 < 2 ^ 32 → (pagesOf trace).card ≤ n → n' + 31 < 2 ^ 32 → (pagesOf trace).card ≤ n' →
      ∀ past rest, trace = past ++ rest →
        ∃ s s', replay lru start past = .ok s ∧ replay lru start' past = .ok s') := by
  have hsmall : 1 ≤ m ∧ m ≤ 2 ^ 20 := ⟨hm.1, hm.2.1.trans hm.2.2⟩
  have hlarge : 1 ≤ m' ∧ m' ≤ 2 ^ 20 := ⟨hm.1.trans hm.2.1, hm.2.2⟩
  have hsound := startSim_sound lru_polite hn.1 hstart
  have hsound' := startSim_sound lru_polite hn.2 hstart'
  have hnested : ∀ past s s', replay lru start past = .ok s → replay lru start' past = .ok s' →
      ∀ p, hasFlag (s.pte p).frame pgValid = true → hasFlag (s'.pte p).frame pgValid = true := by
    intro past s s' hrun hrun' p hp
    have hs := hsound.replay lru_polite hsmall.2 hrun
    have hs' := hsound'.replay lru_polite hlarge.2 hrun'
    have hsub := residents_subset hm hn hstart hstart' hrun hrun'
    exact (hs'.coherent.mem_residents p).mp (hsub ((hs.coherent.mem_residents p).mpr hp))
  refine ⟨fun past rest s s' htrace hrun hrun' => ⟨hnested past s s' hrun hrun', ?_, fun hint => ?_⟩,
    ?_⟩
  · clear htrace
    induction past using List.reverseRecOn generalizing s s' with
    | nil =>
        obtain rfl := Except.ok.inj hrun
        obtain ⟨-, hsplit, -, -⟩ := accounted_start lru_polite hstart
        omega
    | append_singleton past a ih =>
        obtain ⟨r, hr, hacc⟩ := foldlM_concat_ok_iff.mp hrun
        obtain ⟨r', hr', hacc'⟩ := foldlM_concat_ok_iff.mp hrun'
        have hle := ih r r' hr hr'
        have hrs := hsound.replay lru_polite hsmall.2 hr
        have hrs' := hsound'.replay lru_polite hlarge.2 hr'
        obtain ⟨hs, u, v, haccessed⟩ := hrs.accessMem_ok lru_polite hsmall.2 hacc
        obtain ⟨hs', u', v', haccessed'⟩ := hrs'.accessMem_ok lru_polite hlarge.2 hacc'
        have hhit := haccessed.hitCount_eq hrs hs
        have hhit' := haccessed'.hitCount_eq hrs' hs'
        have hpage := hnested past r r' hr hr' (ptePtr a.vaddr)
        rw [hhit, hhit']
        split_ifs with h₁ h₂
        · omega
        · exact absurd (hpage h₁) h₂
        · omega
        · omega
  · have hsplit := (accounted_replay lru_polite hsmall.2 hsound
      (accounted_start lru_polite hstart) hrun).split
    have hsplit' := (accounted_replay lru_polite hlarge.2 hsound'
      (accounted_start lru_polite hstart') hrun').split
    rw [htrace, List.length_append] at hint
    omega
  · intro hwords hcard hwords' hcard' past rest htrace
    obtain ⟨s, hs⟩ := replay_completes lru_polite hsmall.2 (startSim_ready lru_polite hwords hstart)
      haddr hcard (lru_serves hsmall hn.1 hstart trace) htrace
    obtain ⟨s', hs'⟩ := replay_completes lru_polite hlarge.2
      (startSim_ready lru_polite hwords' hstart') haddr hcard'
      (lru_serves hlarge hn.2 hstart' trace) htrace
    exact ⟨s, s', hs, hs'⟩

end TwoRuns

/-- One frame against two, on a trace of three accesses. -/
theorem lru_inclusion_two :
    ∃ start start', startSim lru 1 3 (fun _ => ⟨7#32, 7, 7#32⟩) ⟨some 5, none⟩ = .ok start ∧
      startSim lru 2 3 (fun _ => ⟨7#32, 7, 7#32⟩) ⟨some 5, none⟩ = .ok start' ∧
      (∀ past rest s s', twoPages = past ++ rest → replay lru start past = .ok s →
        replay lru start' past = .ok s' →
        (∀ p, hasFlag (s.pte p).frame pgValid = true →
          hasFlag (s'.pte p).frame pgValid = true) ∧ s.hitCount ≤ s'.hitCount ∧
        (twoPages.length < 2 ^ 31 → s.hitCount < 2 ^ 31 ∧ s'.hitCount < 2 ^ 31)) ∧
      (3 + 31 < 2 ^ 32 → (pagesOf twoPages).card ≤ 3 → 3 + 31 < 2 ^ 32 →
        (pagesOf twoPages).card ≤ 3 → ∀ past rest, twoPages = past ++ rest →
          ∃ s s', replay lru start past = .ok s ∧ replay lru start' past = .ok s') := by
  obtain ⟨start, hstart⟩ :
      ∃ start, startSim lru 1 3 (fun _ => ⟨7#32, 7, 7#32⟩) ⟨some 5, none⟩ = .ok start := ⟨_, rfl⟩
  obtain ⟨start', hstart'⟩ :
      ∃ start, startSim lru 2 3 (fun _ => ⟨7#32, 7, 7#32⟩) ⟨some 5, none⟩ = .ok start := ⟨_, rfl⟩
  exact ⟨start, start', hstart, hstart',
    lru_inclusion (by decide) (by decide) hstart hstart' (by decide)⟩

end KernelProgramming.Paging
