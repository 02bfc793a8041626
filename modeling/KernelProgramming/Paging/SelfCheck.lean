import KernelProgramming.Paging.Contents

/-!
# The self-check of `access_mem`

The address word of a frame is written when its page is brought in and never
again, so while the page is in memory the frame carries its address.
-/

namespace KernelProgramming.Paging

open FlagWord Runs

variable {σ : Type} {F : Functions σ}

/-- Every page in memory carries the address by which it was accessed. -/
def Stamped (past : List Access) (v : View) : Prop :=
  ∀ a ∈ past, (v.page (ptePtr a.vaddr)).valid = true →
    (v.physmem (v.page (ptePtr a.vaddr)).number).vaddr = a.vaddr

/-- Only pages that were accessed are in memory. -/
def OnlySeen (past : List Access) (v : View) : Prop :=
  ∀ p, (v.page p).valid = true → p ∈ pagesOf past

/-- The addresses of the trace are those of pages. -/
def Aligned (trace : List Access) : Prop := ∀ a ∈ trace, a.vaddr % 4096 = 0

theorem Aligned.eq_of_ptePtr {trace : List Access} (h : Aligned trace) {a b : Access}
    (ha : a ∈ trace) (hb : b ∈ trace) (heq : ptePtr a.vaddr = ptePtr b.vaddr) :
    a.vaddr = b.vaddr := by
  have hdiv := ptePtr_eq_iff.mp heq
  have hamod := h a ha
  have hbmod := h b hb
  omega

theorem stamp_found {past : List Access} {s t : Sim σ} {a : Access}
    (harr : Arrives F s a.vaddr a.type t) (hs : s.view.Coherent) (hstamped : Stamped past s.view)
    (hseen : OnlySeen past s.view) (haligned : Aligned (past ++ [a])) :
    (t.view.physmem (t.view.page (ptePtr a.vaddr)).number).vaddr = a.vaddr := by
  rw [(harr.framesAfter hs).self]
  by_cases hvalid : (s.view.page (ptePtr a.vaddr)).valid = true
  · rw [if_pos hvalid]
    obtain ⟨b, hb, hba⟩ := mem_pagesOf.mp (hseen _ hvalid)
    have heq := haligned.eq_of_ptePtr (List.mem_append_left _ hb) (by simp) hba
    rw [← hba] at hvalid ⊢
    rw [hstamped b hb hvalid, heq]
  · rw [if_neg hvalid]

theorem Stamped.accessed {past : List Access} {s u v t : Sim σ} {a : Access}
    (hstamped : Stamped past s.view) (hseen : OnlySeen past s.view) (hs : s.view.Coherent)
    (hacc : Accessed F s a u v t) (haligned : Aligned (past ++ [a])) :
    Stamped (past ++ [a]) t.view ∧ OnlySeen (past ++ [a]) t.view := by
  have hframes := hacc.arrives.framesAfter hs
  have hfound := stamp_found hacc.arrives hs hstamped hseen haligned
  have hpage : t.view.page = u.view.page := by
    rw [hacc.view_eq]
    rfl
  -- a write changes the version and nothing else
  have hvaddr : ∀ i, (t.view.physmem i).vaddr = (u.view.physmem i).vaddr := by
    intro i
    rw [hacc.view_eq]
    simp only [View.store]
    split
    · by_cases hi : i = (u.view.page (ptePtr a.vaddr)).number
      · simp [hi]
      · simp [hi]
    · rfl
  refine ⟨fun b hb hvalid => ?_, fun p hvalid => ?_⟩
  · rw [hpage] at hvalid ⊢
    rw [hvaddr]
    by_cases hp : ptePtr b.vaddr = ptePtr a.vaddr
    · rw [hp, hfound, haligned.eq_of_ptePtr hb (by simp) hp]
    · obtain ⟨hold, hmem⟩ := hframes.other _ hp hvalid
      have hpast : b ∈ past := by
        rcases List.mem_append.mp hb with hb | hb
        · exact hb
        · rw [List.mem_singleton.mp hb] at hp
          exact absurd rfl hp
      rw [hmem]
      exact hstamped b hpast hold
  · rw [hpage] at hvalid
    rw [pagesOf_append, Finset.mem_union]
    by_cases hp : p = ptePtr a.vaddr
    · exact Or.inr (mem_pagesOf.mpr ⟨a, by simp, hp.symm⟩)
    · exact Or.inl (hseen p (hframes.other p hp hvalid).1)

theorem stamped_replay (hF : F.Polite) {m : ℕ} (hm : m ≤ 2 ^ 20) {start s : Sim σ}
    (hstart : Sound m start) (hempty : ∀ p, (start.view.page p).valid = false)
    {past : List Access} (haligned : Aligned past) (hrun : replay F start past = .ok s) :
    Stamped past s.view ∧ OnlySeen past s.view := by
  refine @run_invariant _ _ _ _
    (fun past (s : Sim σ) => Stamped past s.view ∧ OnlySeen past s.view) _ _ _ ⟨?_, ?_⟩ ?_ hrun
  · intro a ha
    exact absurd ha List.not_mem_nil
  · intro p hp
    rw [hempty] at hp
    exact absurd hp Bool.false_ne_true
  · rintro before a after t w hpast hbefore ⟨hstamped, hseen⟩ hacc
    have ht := hstart.replay hF hm hbefore
    obtain ⟨-, u, v, hacc'⟩ := ht.accessMem_ok hF hm hacc
    refine hstamped.accessed hseen ht.coherent hacc' fun b hb => haligned b ?_
    rw [hpast]
    simp only [List.mem_append, List.mem_cons, List.not_mem_nil, or_false] at hb ⊢
    tauto

theorem invalid_start (hF : F.Polite) {m n : ℕ} {garbage : ℕ → SimPage} {alg : σ}
    {start : Sim σ} (hstart : startSim F m n garbage alg = .ok start) (p : PtePtr) :
    (start.view.page p).valid = false := by
  obtain ⟨b, -, heq⟩ := bind_eq_ok_iff.mp hstart
  have hview : start.view = (bootSim m garbage b alg).view := by
    rw [(Except.ok.inj heq).symm]
    exact hF.init_view _
  rw [hview, page_boot]

theorem Arrives.checkFailures_eq {s t : Sim σ} {vaddr : ℕ} {type : Char}
    (h : Arrives F s vaddr type t) : t.view.checkFailures = s.checkFailures := by
  cases h with
  | hit _ hview => rw [hview]; rfl
  | fill _ _ _ hview => rw [hview]; rfl
  | replace _ _ _ _ _ _ _ _ _ _ _ _ _ _ hview => rw [hview]; rfl

theorem checkFailures_replay (hF : F.Polite) {m : ℕ} (hm : m ≤ 2 ^ 20) {start last : Sim σ}
    (hstart : Sound m start) (hzero : start.checkFailures = 0) {trace : List Access}
    (hfound : ∀ past a rest s frame u, trace = past ++ a :: rest →
      replay F start past = .ok s → findPhyspage F s a.vaddr a.type = .ok (frame, u) →
      (u.physmem frame).vaddr = a.vaddr)
    (hlast : replay F start trace = .ok last) : last.checkFailures = 0 := by
  refine @run_invariant _ _ _ _ (fun _ (s : Sim σ) => s.checkFailures = 0) _ _ _ hzero ?_ hlast
  intro before a after t w htrace hbefore ht hacc
  obtain ⟨⟨frame, u⟩, hfind, huse⟩ := bind_eq_ok_iff.mp hacc
  have hstamp : (u.view.physmem frame).vaddr = a.vaddr :=
    hfound before a after t frame u htrace hbefore hfind
  obtain ⟨-, -, x, harr, -, hview, -⟩ :=
    ((hstart.replay hF hm hbefore).findPhyspage_yields hF hm a.vaddr a.type).of_eq_ok hfind
  obtain ⟨-, hwview, -⟩ := (useFrame_yields u frame a).of_eq_ok huse
  have hcount : w.checkFailures = (u.view.store frame a).checkFailures :=
    congrArg View.checkFailures hwview
  have hux : u.view.checkFailures = t.checkFailures := by
    rw [show u.view = x.view from hview]
    exact harr.checkFailures_eq
  rw [hcount, View.store, hux, ht]
  simp [hstamp]

/-- At every access the frame found carries the address accessed, so that the
check of `access_mem` never fails; with enough swap every access is served. -/
theorem selfCheck_passes (hF : F.Polite) {m swapsize : ℕ} (hm : 1 ≤ m ∧ m ≤ 2 ^ 20)
    (hswapsize : swapsize < 2 ^ 32) {garbage : ℕ → SimPage} {alg : σ} {start : Sim σ}
    (hstart : startSim F m swapsize garbage alg = .ok start) {trace : List Access}
    (haddr : ∀ a ∈ trace, a.vaddr < 2 ^ 36) (haligned : Aligned trace)
    (hserves : F.Serves start trace) :
    (∀ past a rest s frame u, trace = past ++ a :: rest → replay F start past = .ok s →
      findPhyspage F s a.vaddr a.type = .ok (frame, u) → (u.physmem frame).vaddr = a.vaddr) ∧
    (∀ past rest s, trace = past ++ rest → replay F start past = .ok s → s.checkFailures = 0) ∧
    (swapsize + 31 < 2 ^ 32 → (pagesOf trace).card ≤ swapsize → ∀ past a rest,
      trace = past ++ a :: rest → ∃ s frame u, replay F start past = .ok s ∧
        findPhyspage F s a.vaddr a.type = .ok (frame, u)) := by
  have hsound := startSim_sound hF hswapsize hstart
  have hfound : ∀ past a rest s frame u, trace = past ++ a :: rest →
      replay F start past = .ok s → findPhyspage F s a.vaddr a.type = .ok (frame, u) →
      (u.physmem frame).vaddr = a.vaddr := by
    intro past a rest s frame u htrace hrun hfind
    have hs := hsound.replay hF hm.2 hrun
    have hprefix : Aligned (past ++ [a]) := fun b hb => haligned b (by
      rw [htrace]
      simp only [List.mem_append, List.mem_cons, List.not_mem_nil, or_false] at hb ⊢
      tauto)
    obtain ⟨hstamped, hseen⟩ := stamped_replay hF hm.2 hsound (invalid_start hF hstart)
      (fun b hb => hprefix b (List.mem_append_left _ hb)) hrun
    obtain ⟨-, -, t, harr, -, hview, hnum⟩ :=
      (hs.findPhyspage_yields hF hm.2 a.vaddr a.type).of_eq_ok hfind
    have hphys : u.physmem = t.view.physmem := congrArg View.physmem hview
    simp only at hnum
    rw [hphys, hnum]
    exact stamp_found harr hs.coherent hstamped hseen hprefix
  refine ⟨hfound, ?_, ?_⟩
  · intro past rest s htrace hrun
    have hzero : start.checkFailures = 0 := by
      obtain ⟨b, -, heq⟩ := bind_eq_ok_iff.mp hstart
      have hview : start.view = (bootSim m garbage b alg).view := by
        rw [(Except.ok.inj heq).symm]
        exact hF.init_view _
      exact congrArg View.checkFailures hview
    refine checkFailures_replay hF hm.2 hsound hzero ?_ hrun
    intro before a after t frame u hpast
    exact hfound before a (after ++ rest) t frame u (by simp [htrace, hpast])
  · intro hwords hcard past a rest htrace
    have hready := startSim_ready hF hwords hstart
    obtain ⟨t, ht⟩ := replay_completes hF hm.2 hready haddr hcard hserves
      (show trace = (past ++ [a]) ++ rest by simp [htrace])
    obtain ⟨s, hs, hacc⟩ := foldlM_concat_ok_iff.mp ht
    obtain ⟨⟨frame, u⟩, hfind, -⟩ := bind_eq_ok_iff.mp hacc
    exact ⟨s, frame, u, hs, hfind⟩

/-- The page of the first access is evicted and comes back. -/
theorem selfCheck_passes_fifo :
    ∃ start, startSim fifo 1 2 (fun _ => ⟨7#32, 7, 7#32⟩) 5 = .ok start ∧
      (∀ past a rest s frame u, writeEvictRead = past ++ a :: rest →
        replay fifo start past = .ok s → findPhyspage fifo s a.vaddr a.type = .ok (frame, u) →
        (u.physmem frame).vaddr = a.vaddr) ∧
      (∀ past rest s, writeEvictRead = past ++ rest → replay fifo start past = .ok s →
        s.checkFailures = 0) ∧
      (2 + 31 < 2 ^ 32 → (pagesOf writeEvictRead).card ≤ 2 → ∀ past a rest,
        writeEvictRead = past ++ a :: rest → ∃ s frame u, replay fifo start past = .ok s ∧
          findPhyspage fifo s a.vaddr a.type = .ok (frame, u)) := by
  obtain ⟨start, hstart⟩ : ∃ start, startSim fifo 1 2 (fun _ => ⟨7#32, 7, 7#32⟩) 5 = .ok start :=
    ⟨_, rfl⟩
  have hsound := startSim_sound fifo_polite (by decide) hstart
  exact ⟨start, hstart, selfCheck_passes fifo_polite (by decide) (by decide) hstart (by decide)
    (by unfold Aligned; decide) (fifo_serves (by decide) hsound _)⟩

end KernelProgramming.Paging
