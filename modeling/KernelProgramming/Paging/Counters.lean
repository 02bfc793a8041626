import KernelProgramming.Paging.SelfCheck
import KernelProgramming.Paging.Residents

/-!
# The event counters

Every access is a hit or a miss, and every miss takes a frame that was not in
use or evicts a page.  Since no page is ever marked as on swap, all evictions
are counted as dirty ones.
-/

namespace KernelProgramming.Paging

open FlagWord Runs DemandPaging

variable {σ : Type} {F : Functions σ}

def Sim.framesInUse (s : Sim σ) : ℕ :=
  ((Finset.range s.memsize).filter fun i => (s.coremap i).inUse = true).card

theorem framesInUse_eq {s : Sim σ} (hs : s.view.Coherent) :
    s.framesInUse = s.view.residents.card :=
  hs.card_residents.symm

/-- The counters after `n` accesses. -/
structure Sim.Accounted (s : Sim σ) (n : ℕ) : Prop where
  ref_eq : s.refCount = n
  split : s.hitCount + s.missCount = n
  inUse_eq : s.framesInUse = min s.memsize s.missCount
  evict_eq : s.evictCleanCount + s.evictDirtyCount = s.missCount - min s.memsize s.missCount

/-- What one access does to the counters. -/
inductive Tallied (s t : Sim σ) : Prop
  | hit (href : t.refCount = s.refCount + 1) (hhit : t.hitCount = s.hitCount + 1)
      (hmiss : t.missCount = s.missCount)
      (hevict : t.evictCleanCount + t.evictDirtyCount = s.evictCleanCount + s.evictDirtyCount)
      (huse : t.framesInUse = s.framesInUse)
  | fill (href : t.refCount = s.refCount + 1) (hhit : t.hitCount = s.hitCount)
      (hmiss : t.missCount = s.missCount + 1)
      (hevict : t.evictCleanCount + t.evictDirtyCount = s.evictCleanCount + s.evictDirtyCount)
      (huse : t.framesInUse = s.framesInUse + 1) (hroom : s.framesInUse < s.memsize)
  | replace (href : t.refCount = s.refCount + 1) (hhit : t.hitCount = s.hitCount)
      (hmiss : t.missCount = s.missCount + 1)
      (hevict : t.evictCleanCount + t.evictDirtyCount =
        s.evictCleanCount + s.evictDirtyCount + 1)
      (huse : t.framesInUse = s.framesInUse) (hfull : s.framesInUse = s.memsize)

theorem Tallied.accounted {s t : Sim σ} {n : ℕ} (h : Tallied s t) (hs : s.Accounted n)
    (hmem : t.memsize = s.memsize) : t.Accounted (n + 1) := by
  obtain ⟨href, hsplit, huse, hevict⟩ := hs
  cases h with
  | hit => constructor <;> omega
  | fill => constructor <;> omega
  | replace => constructor <;> omega

/-- The counters that the rest of an access leaves alone. -/
theorem Accessed.counters {s u v t : Sim σ} {a : Access} (h : Accessed F s a u v t) :
    t.refCount = u.view.refCount ∧ t.hitCount = u.view.hitCount ∧
      t.missCount = u.view.missCount ∧ t.evictCleanCount = u.view.evictCleanCount ∧
      t.evictDirtyCount = u.view.evictDirtyCount := by
  have hview := h.view_eq
  exact ⟨congrArg View.refCount hview, congrArg View.hitCount hview,
    congrArg View.missCount hview, congrArg View.evictCleanCount hview,
    congrArg View.evictDirtyCount hview⟩

theorem Accessed.tallied {m : ℕ} {s u v t : Sim σ} {a : Access} (hs : Sound m s) (ht : Sound m t)
    (hacc : Accessed F s a u v t) :
    Tallied s t ∧ (t.hitCount = s.hitCount + 1 ↔
      hasFlag (s.pte (ptePtr a.vaddr)).frame pgValid = true) := by
  obtain ⟨href, hhit, hmiss, hclean, hdirty⟩ := hacc.counters
  obtain ⟨c, hserve, -⟩ : ∃ c, Serve m (fun _ => True) s.view.residents (ptePtr a.vaddr)
      t.view.residents c ∧ t.missCount = s.missCount + c :=
    hacc.serve hs ht fun _ _ _ _ _ _ _ _ _ => trivial
  have huse := framesInUse_eq hs.coherent
  have huse' := framesInUse_eq ht.coherent
  have hmem := hs.coherent.mem_residents (ptePtr a.vaddr)
  have hsize : s.view.memsize = s.memsize := rfl
  cases hacc.arrives with
  | hit hvalid hview =>
      rw [hview] at href hhit hmiss hclean hdirty
      have hsame : t.view.residents = s.view.residents := by
        generalize t.view.residents = R' at hserve
        cases hserve with
        | hit => rfl
        | fill hp => exact absurd (hmem.mpr hvalid) hp
        | replace _ hp => exact absurd (hmem.mpr hvalid) hp
      refine ⟨.hit href hhit hmiss ?_ ?_, iff_of_true hhit hvalid⟩
      · exact congrArg₂ (· + ·) hclean hdirty
      · rw [huse, huse', hsame]
  | fill frame hvalid hfree hview =>
      rw [hview] at href hhit hmiss hclean hdirty
      have hroom := hs.coherent.card_residents_free hfree
      have hcard : t.view.residents.card = s.view.residents.card + 1 := by
        generalize t.view.residents = R' at hserve
        cases hserve with
        | hit hp => exact absurd (hmem.mp hp) (by simp [hvalid])
        | fill hp => exact Finset.card_insert_of_notMem hp
        | replace w hp hw hfull =>
            have hfull' : s.view.residents.card = s.memsize := hfull.trans hs.memsize_eq.symm
            omega
      refine ⟨.fill href hhit hmiss ?_ (by omega) (by omega), iff_of_false ?_ ?_⟩
      · exact congrArg₂ (· + ·) hclean hdirty
      · have hhit' : t.hitCount = s.hitCount := hhit
        omega
      · exact Bool.eq_false_iff.mp hvalid
  | replace walked s₂ frame victim off swapmap hvalid hfull hwalk hevict hframe howner hslot hoff
      hview =>
      rw [hview] at href hhit hmiss hclean hdirty
      have hall := hs.coherent.card_residents_full hfull
      have hcard : t.view.residents.card = s.view.residents.card := by
        generalize t.view.residents = R' at hserve
        cases hserve with
        | hit hp => exact absurd (hmem.mp hp) (by simp [hvalid])
        | fill hp hroom =>
            have hsize' : s.memsize = m := hs.memsize_eq
            omega
        | replace w hp hw =>
            have hp' : ptePtr a.vaddr ∉ s.view.residents.erase w := fun hin =>
              hp (Finset.mem_of_mem_erase hin)
            rw [Finset.card_insert_of_notMem hp', Finset.card_erase_add_one hw]
      refine ⟨.replace href hhit hmiss ?_ (by omega) (by omega), iff_of_false ?_ ?_⟩
      · have hclean' : t.evictCleanCount = s.evictCleanCount := hclean
        have hdirty' : t.evictDirtyCount = s.evictDirtyCount + 1 := hdirty
        omega
      · have hhit' : t.hitCount = s.hitCount := hhit
        omega
      · exact Bool.eq_false_iff.mp hvalid

/-- An access counts as a hit exactly if its page was resident. -/
theorem Accessed.hitCount_eq {m : ℕ} {s u v t : Sim σ} {a : Access} (hs : Sound m s)
    (ht : Sound m t) (hacc : Accessed F s a u v t) :
    t.hitCount = s.hitCount +
      if hasFlag (s.pte (ptePtr a.vaddr)).frame pgValid = true then 1 else 0 := by
  obtain ⟨htally, hiff⟩ := hacc.tallied hs ht
  split_ifs with hvalid
  · exact hiff.mpr hvalid
  · cases htally with
    | hit _ hhit => exact absurd (hiff.mp hhit) hvalid
    | fill _ hhit => exact hhit
    | replace _ hhit => exact hhit

theorem accounted_start (hF : F.Polite) {m n : ℕ} {garbage : ℕ → SimPage} {alg : σ}
    {start : Sim σ} (hstart : startSim F m n garbage alg = .ok start) : start.Accounted 0 := by
  obtain ⟨b, -, heq⟩ := bind_eq_ok_iff.mp hstart
  have hview : start.view = (bootSim m garbage b alg).view := by
    rw [(Except.ok.inj heq).symm]
    exact hF.init_view _
  have hmiss : start.missCount = 0 := congrArg View.missCount hview
  have hhit : start.hitCount = 0 := congrArg View.hitCount hview
  have hclean : start.evictCleanCount = 0 := congrArg View.evictCleanCount hview
  have hdirty : start.evictDirtyCount = 0 := congrArg View.evictDirtyCount hview
  have hunused : ∀ i, (start.coremap i).inUse = false := fun i =>
    congrFun (congrArg View.inUse hview) i
  refine ⟨congrArg View.refCount hview, by omega, ?_, by omega⟩
  rw [hmiss, Nat.min_zero]
  simp [Sim.framesInUse, hunused]

theorem accounted_replay (hF : F.Polite) {m : ℕ} (hm : m ≤ 2 ^ 20) {start s : Sim σ}
    (hstart : Sound m start) (hzero : start.Accounted 0) {past : List Access}
    (hrun : replay F start past = .ok s) : s.Accounted past.length := by
  refine @run_invariant _ _ _ _ (fun past (s : Sim σ) => s.Accounted past.length) _ _ _ hzero ?_
    hrun
  intro before a after t w _ hbefore ht hacc
  have hsound := hstart.replay hF hm hbefore
  obtain ⟨hw, u, v, hacc'⟩ := hsound.accessMem_ok hF hm hacc
  rw [List.length_append]
  exact (hacc'.tallied hsound hw).1.accounted ht (hw.memsize_eq.trans hsound.memsize_eq.symm)

/-- After every prefix of the trace the counters account for its accesses, and
an access counts as a hit exactly if its page was resident. -/
theorem counters_account (hF : F.Polite) {m swapsize : ℕ} (hm : 1 ≤ m ∧ m ≤ 2 ^ 20)
    (hswapsize : swapsize < 2 ^ 32) {garbage : ℕ → SimPage} {alg : σ} {start : Sim σ}
    (hstart : startSim F m swapsize garbage alg = .ok start) {trace : List Access}
    (haddr : ∀ a ∈ trace, a.vaddr < 2 ^ 36) (hserves : F.Serves start trace) :
    (∀ past rest s, trace = past ++ rest → replay F start past = .ok s →
      s.memsize = m ∧ s.Accounted past.length) ∧
    (∀ past a rest s t, trace = past ++ a :: rest → replay F start past = .ok s →
      accessMem F s a = .ok t → t.hitCount = s.hitCount +
        if hasFlag (s.pte (ptePtr a.vaddr)).frame pgValid = true then 1 else 0) ∧
    (swapsize + 31 < 2 ^ 32 → (pagesOf trace).card ≤ swapsize → ∀ past rest,
      trace = past ++ rest → ∃ s, replay F start past = .ok s) := by
  have hsound := startSim_sound hF hswapsize hstart
  refine ⟨?_, ?_, ?_⟩
  · intro past rest s _ hrun
    exact ⟨(hsound.replay hF hm.2 hrun).memsize_eq,
      accounted_replay hF hm.2 hsound (accounted_start hF hstart) hrun⟩
  · intro past a rest s t _ hrun hacc
    have hs := hsound.replay hF hm.2 hrun
    obtain ⟨ht, u, v, hacc'⟩ := hs.accessMem_ok hF hm.2 hacc
    exact hacc'.hitCount_eq hs ht
  · intro hwords hcard past rest htrace
    exact replay_completes hF hm.2 (startSim_ready hF hwords hstart) haddr hcard hserves htrace

/-- Three misses and an eviction in each of the last two of them. -/
theorem counters_account_fifo :
    ∃ start, startSim fifo 1 2 (fun _ => ⟨7#32, 7, 7#32⟩) 5 = .ok start ∧
      (∀ past rest s, writeEvictRead = past ++ rest → replay fifo start past = .ok s →
        s.memsize = 1 ∧ s.Accounted past.length) ∧
      (∀ past a rest s t, writeEvictRead = past ++ a :: rest → replay fifo start past = .ok s →
        accessMem fifo s a = .ok t → t.hitCount = s.hitCount +
          if hasFlag (s.pte (ptePtr a.vaddr)).frame pgValid = true then 1 else 0) ∧
      (2 + 31 < 2 ^ 32 → (pagesOf writeEvictRead).card ≤ 2 → ∀ past rest,
        writeEvictRead = past ++ rest → ∃ s, replay fifo start past = .ok s) := by
  obtain ⟨start, hstart⟩ : ∃ start, startSim fifo 1 2 (fun _ => ⟨7#32, 7, 7#32⟩) 5 = .ok start :=
    ⟨_, rfl⟩
  have hsound := startSim_sound fifo_polite (by decide) hstart
  exact ⟨start, hstart, counters_account fifo_polite (by decide) (by decide) hstart (by decide)
    (fifo_serves (by decide) hsound _)⟩

end KernelProgramming.Paging
