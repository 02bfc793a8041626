import KernelProgramming.Paging.LoadOrder

/-!
# Clean and dirty evictions

`allocate_frame` counts an eviction as clean if the entry of the victim says
that the page is on swap and not dirty.  The eviction itself never sets
`PG_ONSWAP`, so that no entry ever says so: every victim is written out and
counted as dirty, also one whose copy on swap is still good.
-/

namespace KernelProgramming.Paging

open FlagWord Runs

variable {σ : Type} {F : Functions σ}

/-- The swap file has a copy of page `p`, at the offset that its entry names. -/
def Sim.HasCopy (s : Sim σ) (p : PtePtr) : Prop :=
  0 ≤ (s.pte p).swapOff ∧ (s.swapfile (s.pte p).swapOff.toNat).isSome = true

instance (s : Sim σ) (p : PtePtr) : Decidable (s.HasCopy p) := inferInstanceAs (Decidable (_ ∧ _))

/-- Page `p` has not been written to since it was last loaded. -/
def Unwritten (F : Functions σ) (start : Sim σ) (past : List Access) (p : PtePtr) : Prop :=
  ∀ k, LastLoad F start past k p → ∀ j a, k ≤ j → past[j]? = some a → ptePtr a.vaddr = p →
    isWrite a.type = false

/-- The access `a` evicts page `victim` from `frame`. -/
def Evicts (F : Functions σ) (s : Sim σ) (a : Access) (frame : ℕ) (victim : PtePtr) : Prop :=
  ∃ walked s₂, EvictCalled s a walked ∧ F.evict walked = .ok (frame, s₂) ∧
    (s.coremap frame).pte = some victim

/-- The access from `s` to `t` has written the contents of `frame` to the slot of page `p`. -/
def WrittenOut (s t : Sim σ) (frame : ℕ) (p : PtePtr) : Prop :=
  0 ≤ (t.pte p).swapOff ∧ t.swapfile (t.pte p).swapOff.toNat = some (s.physmem frame)

/-- The eviction during the access from `s` to `t` counts as clean exactly if the page has a copy
and has not been written to since it was loaded, and else as dirty, with the page written out. -/
structure ToldApart (F : Functions σ) (start : Sim σ) (past : List Access) (s t : Sim σ)
    (frame : ℕ) (victim : PtePtr) : Prop where
  clean : t.evictCleanCount = s.evictCleanCount + 1 ↔
    s.HasCopy victim ∧ Unwritten F start past victim
  dirty : t.evictDirtyCount = s.evictDirtyCount + 1 ∧ WrittenOut s t frame victim ↔
    ¬ (s.HasCopy victim ∧ Unwritten F start past victim)

/-- Every eviction counts as dirty and writes the page out. -/
theorem Evicts.dirty {m : ℕ} {s t : Sim σ} {a : Access} {frame : ℕ} {victim : PtePtr}
    (h : Evicts F s a frame victim) (hs : Sound m s) (hF : F.Polite) (hm : m ≤ 2 ^ 20)
    (hacc : accessMem F s a = .ok t) :
    t.evictCleanCount = s.evictCleanCount ∧ t.evictDirtyCount = s.evictDirtyCount + 1 ∧
      WrittenOut s t frame victim := by
  obtain ⟨-, u, v, harr, -, hview, -⟩ := hs.accessMem_ok hF hm hacc
  obtain ⟨walked, s₂, ⟨hwalk, hmiss, hnone⟩, hevict, howner⟩ := h
  have hfull : s.view.freeFrame = none := hnone
  cases harr with
  | hit hvalid => exact absurd (hmiss.symm.trans hvalid) Bool.false_ne_true
  | fill frame' _ hfree => exact absurd (hfree.symm.trans hfull) (Option.some_ne_none frame')
  | replace walked' s₂' frame' victim' off swapmap hvalid _ hwalk' hevict' hframe howner' hslot
      hoff hview' =>
      obtain rfl := Except.ok.inj (hwalk.symm.trans hwalk')
      obtain ⟨rfl, rfl⟩ := Prod.mk.inj (Except.ok.inj (hevict.symm.trans hevict'))
      obtain rfl := Option.some.inj (howner.symm.trans howner')
      have huse := View.freeFrame_eq_none_iff.mp hfull frame hframe
      obtain ⟨p, hp, hpvalid, -⟩ := hs.coherent.owner_resident frame hframe huse
      obtain rfl := Option.some.inj (hp.symm.trans howner')
      -- the page loaded is another one, so the entry of the victim stays as it was left
      have hne : p ≠ ptePtr a.vaddr := by
        rintro rfl
        exact Bool.false_ne_true (hvalid.symm.trans hpvalid)
      have hswapOff : (t.pte p).swapOff = off := by
        change (t.view.page p).swapOff = off
        rw [hview, hview']
        simp [View.store, View.load, View.page_unload, hne]
      have hswapfile : t.view.swapfile = u.view.swapfile := by rw [hview]; rfl
      refine ⟨?_, ?_, hswapOff.symm ▸ hoff, ?_⟩
      · change t.view.evictCleanCount = _
        rw [hview, hview']
        rfl
      · change t.view.evictDirtyCount = _
        rw [hview, hview']
        rfl
      · change t.view.swapfile _ = _
        rw [hswapOff, hswapfile, hview']
        exact Function.update_self ..

theorem Evicts.toldApart_iff {m : ℕ} {start s t : Sim σ} {past : List Access} {a : Access}
    {frame : ℕ} {victim : PtePtr} (h : Evicts F s a frame victim) (hs : Sound m s)
    (hF : F.Polite) (hm : m ≤ 2 ^ 20) (hacc : accessMem F s a = .ok t) :
    ToldApart F start past s t frame victim ↔
      ¬ (s.HasCopy victim ∧ Unwritten F start past victim) := by
  obtain ⟨hclean, hdirty, hwritten⟩ := h.dirty hs hF hm hacc
  constructor
  · intro htold
    exact htold.dirty.mp ⟨hdirty, hwritten⟩
  · intro hnot
    refine ⟨iff_of_false ?_ hnot, iff_of_true ⟨hdirty, hwritten⟩ hnot⟩
    rw [hclean]
    exact Nat.ne_of_lt (Nat.lt_succ_self _)

/-- An eviction is counted as the history of the page demands if and only if the page has no copy
on swap yet or was written to after it was loaded. -/
theorem evictions_toldApart_iff (hF : F.Polite) {m swapsize : ℕ} (hm : 1 ≤ m ∧ m ≤ 2 ^ 20)
    (hswapsize : swapsize < 2 ^ 32) {garbage : ℕ → SimPage} {alg : σ} {start : Sim σ}
    (hstart : startSim F m swapsize garbage alg = .ok start) {trace : List Access}
    (haddr : ∀ a ∈ trace, a.vaddr < 2 ^ 36) (hserves : F.Serves start trace) :
    (∀ past a rest s t frame victim, trace = past ++ a :: rest → replay F start past = .ok s →
      accessMem F s a = .ok t → Evicts F s a frame victim →
      (ToldApart F start past s t frame victim ↔
        ¬ (s.HasCopy victim ∧ Unwritten F start past victim))) ∧
    (swapsize + 31 < 2 ^ 32 → (pagesOf trace).card ≤ swapsize →
      ∃ s, replay F start trace = .ok s) := by
  constructor
  · intro past a rest s t frame victim _ hrun hacc hevicts
    have hs := (startSim_sound hF hswapsize hstart).replay hF hm.2 hrun
    exact hevicts.toldApart_iff hs hF hm.2 hacc
  · intro hwords hswap
    exact replay_completes hF hm.2 (startSim_ready hF hwords hstart) haddr hswap hserves
      (List.append_nil _).symm

/-- Two pages take turns in one frame and are only read. -/
def readInTurn : List Access := [⟨'L', 0x1000⟩, ⟨'L', 0x2000⟩, ⟨'L', 0x1000⟩, ⟨'L', 0x2000⟩]

theorem evictions_toldApart_iff_fifo :
    ∃ start, startSim fifo 1 2 (fun _ => ⟨7#32, 7, 7#32⟩) 5 = .ok start ∧
      (∀ past a rest s t frame victim, readInTurn = past ++ a :: rest →
        replay fifo start past = .ok s → accessMem fifo s a = .ok t →
        Evicts fifo s a frame victim →
        (ToldApart fifo start past s t frame victim ↔
          ¬ (s.HasCopy victim ∧ Unwritten fifo start past victim))) ∧
      (2 + 31 < 2 ^ 32 → (pagesOf readInTurn).card ≤ 2 →
        ∃ s, replay fifo start readInTurn = .ok s) := by
  obtain ⟨start, hstart⟩ : ∃ start, startSim fifo 1 2 (fun _ => ⟨7#32, 7, 7#32⟩) 5 = .ok start :=
    ⟨_, rfl⟩
  have hsound := startSim_sound fifo_polite (by decide) hstart
  exact ⟨start, hstart, evictions_toldApart_iff fifo_polite (by decide) (by decide) hstart
    (by decide) (fifo_serves (by decide) hsound _)⟩

/-- The last access evicts a page that was read back unchanged and still has its copy. -/
theorem evictions_not_toldApart :
    ∃ start past a s t frame victim, startSim fifo 1 2 (fun _ => ⟨7#32, 7, 7#32⟩) 5 = .ok start ∧
      fifo.Serves start readInTurn ∧ (pagesOf readInTurn).card ≤ 2 ∧ readInTurn = past ++ [a] ∧
      replay fifo start past = .ok s ∧ accessMem fifo s a = .ok t ∧
      Evicts fifo s a frame victim ∧ ¬ ToldApart fifo start past s t frame victim := by
  obtain ⟨start, hstart⟩ : ∃ start, startSim fifo 1 2 (fun _ => ⟨7#32, 7, 7#32⟩) 5 = .ok start :=
    ⟨_, rfl⟩
  have hsound := startSim_sound fifo_polite (by decide) hstart
  have hrun : (startSim fifo 1 2 (fun _ => ⟨7#32, 7, 7#32⟩) 5 >>= fun start =>
      replay fifo start (readInTurn.take 3) >>= fun s => accessMem fifo s ⟨'L', 0x2000⟩ >>= fun t =>
        walkPgdir s 0x2000 >>= fun walked => fifoEvict walked >>= fun r =>
          .ok (r.1, (s.coremap 0).pte, decide (hasFlag (s.pte ⟨0, 2⟩).frame pgValid = false ∧
            freeFrame s = none ∧ s.HasCopy ⟨0, 1⟩))) = .ok (0, some ⟨0, 1⟩, true) := by
    decide +kernel
  rw [hstart] at hrun
  obtain ⟨start', hstart', hrun⟩ := bind_eq_ok_iff.mp hrun
  obtain rfl := Except.ok.inj hstart'
  obtain ⟨s, hs, hrun⟩ := bind_eq_ok_iff.mp hrun
  obtain ⟨t, ht, hrun⟩ := bind_eq_ok_iff.mp hrun
  obtain ⟨walked, hwalk, hrun⟩ := bind_eq_ok_iff.mp hrun
  obtain ⟨⟨frame, s₂⟩, hevict, hrun⟩ := bind_eq_ok_iff.mp hrun
  simp only [Except.ok.injEq, Prod.mk.injEq, decide_eq_true_eq] at hrun
  obtain ⟨rfl, howner, hmiss, hfull, hcopy⟩ := hrun
  have hevicts : Evicts fifo s ⟨'L', 0x2000⟩ 0 ⟨0, 1⟩ :=
    ⟨walked, s₂, ⟨hwalk, hmiss, hfull⟩, hevict, howner⟩
  refine ⟨start, readInTurn.take 3, _, s, t, 0, _, hstart, fifo_serves (by decide) hsound _,
    by decide, rfl, hs, ht, hevicts, ?_⟩
  have hsound' := hsound.replay fifo_polite (by decide) hs
  rw [hevicts.toldApart_iff hsound' fifo_polite (by decide) ht]
  have hreads : ∀ b ∈ readInTurn, isWrite b.type = false := by decide
  refine not_not_intro ⟨hcopy, fun k _ j b _ hj _ => ?_⟩
  exact hreads b (List.mem_of_mem_take (List.mem_of_getElem? hj))

end KernelProgramming.Paging
