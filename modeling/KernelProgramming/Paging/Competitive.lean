import KernelProgramming.Library.Phases
import KernelProgramming.Paging.Clock
import KernelProgramming.Paging.Inclusion
import KernelProgramming.Paging.LoadOrder

/-!
# How far the algorithms are from the best one

`lru.c`, `fifo.c` and `clock.c` differ in what they record, but each of them
gives up a page only after all other resident pages have been accessed since it
was loaded.  This alone bounds their misses, on every trace and against every
algorithm, even against one that knows the trace.
-/

namespace KernelProgramming.Paging

open FlagWord Runs DemandPaging SecondChance

variable {σ τ : Type} {F : Functions σ} {G : Functions τ} {m n : ℕ} {garbage : ℕ → SimPage}

/-- Page `q` has been accessed since the last load of page `p`, or by it. -/
def AccessedSince (F : Functions σ) (start : Sim σ) (past : List Access) (p q : PtePtr) : Prop :=
  ∀ k, LoadsAt F start past k p → k < lastAccess past q

/-- Whenever a page is evicted, all resident pages have been accessed since it was loaded. -/
def Functions.Conservative (F : Functions σ) (start : Sim σ) : Prop :=
  ∀ past a s walked frame s₂ victim, replay F start past = .ok s → EvictCalled s a walked →
    F.evict walked = .ok (frame, s₂) → s.view.owner frame = some victim →
    ∀ q ∈ s.view.residents, AccessedSince F start past victim q

/-! ## The last access to a page -/

theorem lastAccess_mono (past : List Access) (a : Access) (p : PtePtr) :
    lastAccess past p ≤ lastAccess (past ++ [a]) p := by
  rw [lastAccess_append]
  split_ifs
  · exact (lastAccess_le past p).trans (Nat.le_succ _)
  · exact le_rfl

theorem LoadsAt.lt_lastAccess {start : Sim σ} {past : List Access} {k : ℕ} {p : PtePtr}
    (h : LoadsAt F start past k p) : k < lastAccess past p := by
  obtain ⟨a, s, hk, hp, -⟩ := h
  induction past using List.reverseRecOn with
  | nil => cases hk
  | append_singleton past b ih =>
      rw [lastAccess_append]
      have hlt := (List.getElem?_eq_some_iff.mp hk).1
      rw [List.length_append, List.length_singleton] at hlt
      split_ifs with hb
      · exact hlt
      · rcases Nat.eq_or_lt_of_le (Nat.le_of_lt_succ hlt) with rfl | hlt
        · rw [List.getElem?_concat_length] at hk
          exact absurd (Option.some.inj hk ▸ hp) hb
        · rw [List.getElem?_append_left hlt] at hk
          exact ih hk

theorem mem_pagesOf_of_lastAccess {past w : List Access} {p : PtePtr}
    (h : past.length < lastAccess (past ++ w) p) : p ∈ pagesOf w := by
  induction w using List.reverseRecOn with
  | nil =>
      rw [List.append_nil] at h
      exact absurd (lastAccess_le past p) (Nat.not_le_of_lt h)
  | append_singleton w a ih =>
      rw [← List.append_assoc, lastAccess_append] at h
      rw [pagesOf_concat, Finset.mem_insert]
      split_ifs at h with ha
      · exact .inl ha.symm
      · exact .inr (ih h)

/-! ## The misses of a window -/

section Window

variable {start s t : Sim σ} {alg : σ} {past w : List Access}

theorem Sound.exists_serve (hs : Sound m s) (hF : F.Polite) (hm : m ≤ 2 ^ 20) {a : Access}
    (hacc : accessMem F s a = .ok t) (may : PtePtr → Prop)
    (hmay : ∀ walked frame s₂ victim, EvictCalled s a walked →
      F.evict walked = .ok (frame, s₂) → s.view.owner frame = some victim → may victim) :
    ∃ c, Serve m may s.view.residents (ptePtr a.vaddr) t.view.residents c ∧
      t.missCount = s.missCount + c := by
  obtain ⟨ht, u, v, hacc'⟩ := hs.accessMem_ok hF hm hacc
  exact hacc'.serve hs ht fun walked frame s₂ victim hwalk hfull hvalid hevict howner =>
    hmay walked frame s₂ victim ⟨hwalk, hvalid, hfull⟩ hevict howner

/-- Every algorithm loads the pages of a window that were not resident before. -/
theorem since_window (hF : F.Polite) (hm : m ≤ 2 ^ 20) (hsound : Sound m s)
    (hrun : replay F s w = .ok t) : ∃ loaded k, t.missCount = s.missCount + k ∧
      Since s.view.residents (pagesOf w) loaded t.view.residents k := by
  induction w using List.reverseRecOn generalizing t with
  | nil =>
      obtain rfl := Except.ok.inj hrun
      exact ⟨∅, 0, rfl, (since_refl _).toSince⟩
  | append_singleton w a ih =>
      obtain ⟨r, hr, hacc⟩ := foldlM_concat_ok_iff.mp hrun
      obtain ⟨loaded, k, hmiss, hsince⟩ := ih hr
      obtain ⟨c, hserve, hcost⟩ := (hsound.replay hF hm hr).exists_serve hF hm hacc
        (fun _ => True) fun _ _ _ _ _ _ _ => trivial
      rw [pagesOf_concat]
      exact ⟨_, k + c, by rw [hcost, hmiss, Nat.add_assoc], hsince.serve hserve⟩

/-- A conservative algorithm keeps the pages that it loads in a window, if all pages of the
window have room. -/
theorem Functions.Conservative.retains_window (hcons : F.Conservative start) (hF : F.Polite)
    (hm : m ≤ 2 ^ 20) (hsound : Sound m start) (hs : replay F start past = .ok s)
    (hroom : (pagesOf w).card ≤ m) (hrun : replay F s w = .ok t) :
    ∃ loaded k, t.missCount = s.missCount + k ∧
      Retains s.view.residents (pagesOf w) loaded t.view.residents k ∧
      ∀ p ∈ loaded, ∃ i, past.length ≤ i ∧ LoadsAt F start (past ++ w) i p := by
  induction w using List.reverseRecOn generalizing t with
  | nil =>
      obtain rfl := Except.ok.inj hrun
      exact ⟨∅, 0, rfl, since_refl _, fun p hp => absurd hp (Finset.notMem_empty p)⟩
  | append_singleton w a ih =>
      obtain ⟨r, hr, hacc⟩ := foldlM_concat_ok_iff.mp hrun
      rw [pagesOf_concat] at hroom ⊢
      obtain ⟨loaded, k, hmiss, hretains, hloads⟩ :=
        ih ((Finset.card_le_card (Finset.subset_insert _ _)).trans hroom) hr
      have hpast : replay F start (past ++ w) = .ok r := foldlM_append_ok_iff.mpr ⟨s, hs, hr⟩
      have hr' := hsound.replay hF hm hpast
      obtain ⟨c, hserve, hcost⟩ := hr'.exists_serve hF hm hacc
        (fun victim => victim ∈ loaded → r.view.residents ⊆ pagesOf w) (by
          intro walked frame s₂ victim hcall hevict howner hin q hq
          obtain ⟨i, hi, hload⟩ := hloads victim hin
          have hlt := hcons _ a r walked frame s₂ victim hpast hcall hevict howner q hq i hload
          exact mem_pagesOf_of_lastAccess (hi.trans_lt hlt))
      refine ⟨_, k + c, by rw [hcost, hmiss, Nat.add_assoc], hretains.serve hserve hroom,
        fun p hp => ?_⟩
      have hold : ∀ q ∈ loaded, ∃ i, past.length ≤ i ∧ LoadsAt F start (past ++ (w ++ [a])) i q := by
        intro q hq
        obtain ⟨i, hi, hload⟩ := hloads q hq
        rw [← List.append_assoc]
        exact ⟨i, hi, (loadsAt_concat hpast).mpr (.inl hload)⟩
      split_ifs at hp with hres
      · exact hold p hp
      · rcases Finset.mem_insert.mp hp with rfl | hp
        · refine ⟨(past ++ w).length, by simp, ?_⟩
          rw [← List.append_assoc]
          refine (loadsAt_concat hpast).mpr (.inr ⟨rfl, rfl, ?_⟩)
          rw [hr'.coherent.mem_residents] at hres
          exact Bool.eq_false_of_not_eq_true hres
        · exact hold p hp

end Window

/-! ## The three algorithms are conservative -/

theorem lru_conservative {alg : LruList} {start : Sim LruList} (hm : 1 ≤ m ∧ m ≤ 2 ^ 20)
    (hn : n < 2 ^ 32) (hstart : startSim lru m n garbage alg = .ok start) :
    lru.Conservative start := by
  rintro past a s walked frame s₂ victim hrun ⟨hwalk, -, hfull⟩ hevict howner q hq k hload
  have hs := (startSim_sound lru_polite hn hstart).replay lru_polite hm.2 hrun
  obtain ⟨xs, hrec⟩ := recency_replay hm hn hstart hrun
  have hlt := hload.lt_lastAccess
  by_cases hqv : q = victim
  · exact hqv ▸ hlt
  · have hsize : 1 ≤ s.view.memsize := hm.1.trans_eq hs.memsize_eq.symm
    exact hlt.trans (hrec.victim_oldest hs.coherent hsize hwalk hfull hevict howner q hq hqv)

theorem fifo_conservative {alg : ℤ} {start : Sim ℤ} (hm : 1 ≤ m ∧ m ≤ 2 ^ 20) (hn : n < 2 ^ 32)
    (hstart : startSim fifo m n garbage alg = .ok start) : fifo.Conservative start := by
  rintro past a s walked frame s₂ victim hrun ⟨hwalk, -, hfull⟩ hevict howner q hq k hload
  have hs := (startSim_sound fifo_polite hn hstart).replay fifo_polite hm.2 hrun
  obtain ⟨log, hlog⟩ := rotates_replay hm hn hstart hrun
  obtain ⟨hview, hpriv⟩ := (walkPgdir_yields s a.vaddr).of_eq_ok hwalk
  have hle := hlog.full hs.memsize_eq hfull
  have hsize : walked.memsize = m := (congrArg View.memsize hview).trans hs.memsize_eq
  obtain ⟨rfl, -⟩ := hlog.evict_eq hle hsize (congrArg Priv.alg hpriv) hevict
  obtain ⟨first, j, howner', -, -, hlast, hothers⟩ := hlog.loadedFirst hm.1 hs hle
  obtain rfl : victim = first := Option.some.inj (howner.symm.trans howner')
  by_cases hqv : q = victim
  · exact hqv ▸ hload.lt_lastAccess
  · have hvalid := (hs.coherent.mem_residents q).mp hq
    obtain ⟨l, hl, hjl⟩ := hothers q hvalid hqv
    have hkj : k ≤ j := Nat.le_of_not_lt fun hjk => hlast.2 k hjk hload
    exact (hkj.trans_lt hjl).trans hl.1.lt_lastAccess

section Clock

variable {alg : ℤ} {start s t : Sim ℤ} {past : List Access}

/-- The queue of the clock algorithm, with its reference bits right. -/
def ClockInv (start : Sim ℤ) (past : List Access) (s : Sim ℤ) : Prop :=
  ∃ hand queue, Rotation s hand queue ∧
    queue.Pairwise (Fresh (AccessedSince clock start past))

theorem ClockInv.accessed (h : ClockInv start past s) (hm : 1 ≤ m ∧ m ≤ 2 ^ 20)
    (hs : Sound m s) (hrun : replay clock start past = .ok s) {a : Access}
    (hacc : accessMem clock s a = .ok t) : ClockInv start (past ++ [a]) t := by
  obtain ⟨hand, queue, hrot, hfresh⟩ := h
  obtain ⟨-, u, v, hacc'⟩ := hs.accessMem_ok clock_polite hm.2 hacc
  obtain ⟨⟨hand', hrot'⟩, -⟩ := hrot.accessed hm.1 hs.memsize_eq hacc'
  -- pages in the queue are resident, so the access does not load them
  have hkeep : ∀ e ∈ queue, ∀ y, AccessedSince clock start past e.1 y →
      AccessedSince clock start (past ++ [a]) e.1 y := by
    intro e he y hsince k hload
    refine lt_of_lt_of_le ?_ (lastAccess_mono past a y)
    rcases (loadsAt_concat hrun).mp hload with hload | ⟨-, -, hinvalid⟩
    · exact hsince k hload
    · have hvalid := (hrot.mem_iff e.1).mp (List.mem_map_of_mem he)
      exact absurd (hinvalid.symm.trans hvalid) Bool.false_ne_true
  have hnow : ∀ z, AccessedSince clock start (past ++ [a]) z (ptePtr a.vaddr) := by
    intro z k hload
    have hlt := hload.lt
    rw [lastAccess_append, if_pos rfl]
    rwa [List.length_append, List.length_singleton] at hlt
  have hmono := hfresh.imp_of_mem fun hx hy hxy => hxy.mono (hkeep _ hx) (hkeep _ hy)
  exact ⟨hand', _, hrot', request_fresh hmono hnow⟩

theorem clockInv_replay (hm : 1 ≤ m ∧ m ≤ 2 ^ 20) (hn : n < 2 ^ 32)
    (hstart : startSim clock m n garbage alg = .ok start)
    (hrun : replay clock start past = .ok s) : ClockInv start past s := by
  have hsound := startSim_sound clock_polite hn hstart
  refine @run_invariant _ _ _ _ (ClockInv start) _ _ _ ?_ ?_ hrun
  · exact ⟨0, [], rotation_start hstart, List.Pairwise.nil⟩
  · rintro before a after r t - hbefore hr hacc
    exact hr.accessed hm (hsound.replay clock_polite hm.2 hbefore) hbefore hacc

theorem clock_conservative (hm : 1 ≤ m ∧ m ≤ 2 ^ 20) (hn : n < 2 ^ 32)
    (hstart : startSim clock m n garbage alg = .ok start) : clock.Conservative start := by
  rintro past a s walked frame s₂ victim hrun ⟨hwalk, -, hfull⟩ hevict howner q hq k hload
  have hs := (startSim_sound clock_polite hn hstart).replay clock_polite hm.2 hrun
  obtain ⟨hand, queue, hrot, hfresh⟩ := clockInv_replay hm hn hstart hrun
  obtain ⟨hview, hpriv⟩ := (walkPgdir_yields s a.vaddr).of_eq_ok hwalk
  have hsize : walked.view.memsize = m := (congrArg View.memsize hview).trans hs.memsize_eq
  obtain ⟨probes, t, rest, frame', victim', hstops, -, hgives⟩ :=
    (hrot.of_eq hview hpriv).evicts (hsize ▸ hm.1) (hview ▸ hfull)
  have hevict' : clockEvict walked = .ok (frame, s₂) := hevict
  obtain ⟨hframe, -⟩ := Prod.mk.inj (Except.ok.inj (hevict'.symm.trans hstops.clockEvict_eq))
  rw [hgives.alg_eq, Int.toNat_natCast] at hframe
  obtain rfl := hframe
  have howner' := hgives.owner
  rw [hview] at howner'
  obtain rfl : victim = victim' := Option.some.inj (howner.symm.trans howner')
  obtain ⟨hrest, -⟩ := evict_fresh hfresh hgives.evict_eq
  have hin := (hrot.mem_iff q).mpr ((hs.coherent.mem_residents q).mp hq)
  rcases List.mem_cons.mp (hgives.perm.mem_iff.mpr hin) with rfl | hin
  · exact hload.lt_lastAccess
  · obtain ⟨e, he, rfl⟩ := List.mem_map.mp hin
    exact hrest e he k hload

end Clock

/-- Whenever LRU, FIFO or CLOCK evicts a page, all resident pages have been accessed since the
last time it was loaded. -/
theorem all_conservative (hm : 1 ≤ m ∧ m ≤ 2 ^ 20) (hn : n < 2 ^ 32) {list : LruList}
    {toEvict hand : ℤ} {startLru : Sim LruList} {startFifo startClock : Sim ℤ}
    (hlru : startSim lru m n garbage list = .ok startLru)
    (hfifo : startSim fifo m n garbage toEvict = .ok startFifo)
    (hclock : startSim clock m n garbage hand = .ok startClock) :
    lru.Conservative startLru ∧ fifo.Conservative startFifo ∧ clock.Conservative startClock :=
  ⟨lru_conservative hm hn hlru, fifo_conservative hm hn hfifo, clock_conservative hm hn hclock⟩

theorem all_conservative_two :
    ∃ a b c, startSim lru 2 3 (fun _ => ⟨7#32, 7, 7#32⟩) ⟨some 5, none⟩ = .ok a ∧
      startSim fifo 2 3 (fun _ => ⟨7#32, 7, 7#32⟩) 5 = .ok b ∧
      startSim clock 2 3 (fun _ => ⟨7#32, 7, 7#32⟩) 5 = .ok c ∧
      lru.Conservative a ∧ fifo.Conservative b ∧ clock.Conservative c := by
  obtain ⟨a, ha⟩ := exists_of_isOk
    (x := startSim lru 2 3 (fun _ => ⟨7#32, 7, 7#32⟩) ⟨some 5, none⟩) (by decide)
  obtain ⟨b, hb⟩ := exists_of_isOk
    (x := startSim fifo 2 3 (fun _ => ⟨7#32, 7, 7#32⟩) 5) (by decide)
  obtain ⟨c, hc⟩ := exists_of_isOk
    (x := startSim clock 2 3 (fun _ => ⟨7#32, 7, 7#32⟩) 5) (by decide)
  exact ⟨a, b, c, ha, hb, hc, all_conservative (by decide) (by decide) ha hb hc⟩

/-! ## The ratio -/

/-- The misses of a replay of the trace. -/
def missesOf (F : Functions σ) (start : Sim σ) (trace : List Access) : ℕ :=
  match replay F start trace with
  | .ok s => s.missCount
  | .error _ => 0

theorem missesOf_eq {start s : Sim σ} {trace : List Access} (h : replay F start trace = .ok s) :
    missesOf F start trace = s.missCount := by
  rw [missesOf, h]

/-- The misses of the part of the trace with these requests. -/
def missesAfter (F : Functions σ) (start : Sim σ) (trace : List Access) (ps : List PtePtr) : ℕ :=
  missesOf F start (trace.take ps.length)

theorem missesAfter_requests (start : Sim σ) {trace past rest : List Access}
    (h : trace = past ++ rest) :
    missesAfter F start trace (requests past) = missesOf F start past := by
  simp [missesAfter, requests, h]

theorem requests_eq_append_iff {trace : List Access} {ps qs : List PtePtr} :
    requests trace = ps ++ qs ↔
      ∃ past rest, trace = past ++ rest ∧ requests past = ps ∧ requests rest = qs :=
  List.map_eq_append_iff

/-- A part of a replay that can be completed. -/
theorem replay_part {start s : Sim σ} {past rest : List Access}
    (h : replay F start (past ++ rest) = .ok s) :
    ∃ t, replay F start past = .ok t ∧ replay F t rest = .ok s :=
  foldlM_append_ok_iff.mp h

/-- With `m` frames as against `k` frames, the misses of `s` are at most `m / (m + 1 - k)` times
those of `t`, up to one more memory full. -/
def WithinRatio (m k : ℕ) (s : Sim σ) (t : Sim τ) : Prop :=
  (m + 1 - k) * s.missCount ≤ m * t.missCount + m * (m + 1 - k)

section Ratio

variable {k n' : ℕ} {garbage' : ℕ → SimPage} {alg : σ} {alg' : τ} {start s : Sim σ}
  {other t : Sim τ} {trace past w rest : List Access}

/-- A conservative algorithm pays at most once for each page of a window that has room. -/
theorem Functions.Conservative.window_le (hcons : F.Conservative start) (hF : F.Polite)
    (hm : m ≤ 2 ^ 20) (hsound : Sound m start) (hs : replay F start (past ++ w) = .ok s)
    (hroom : (pagesOf w).card ≤ m) :
    missesOf F start (past ++ w) ≤ missesOf F start past + m := by
  obtain ⟨r, hr, hw⟩ := replay_part hs
  obtain ⟨loaded, c, hmiss, hretains, -⟩ := hcons.retains_window hF hm hsound hr hroom hw
  rw [missesOf_eq hs, missesOf_eq hr, hmiss]
  exact Nat.add_le_add_left (hretains.le_card.trans hroom) _

/-- Every algorithm pays for the pages of a window that do not fit besides the page accessed
right before it. -/
theorem window_ge (hG : G.Polite) (hk : k ≤ 2 ^ 20) (hsound : Sound k other) {a : Access}
    (ht : replay G other (past ++ a :: w) = .ok t) :
    missesOf G other (past ++ [a]) + (((pagesOf w).erase (ptePtr a.vaddr)).card + 1 - k) ≤
      missesOf G other (past ++ a :: w) := by
  have hcons : past ++ a :: w = past ++ [a] ++ w := by simp
  rw [hcons] at ht ⊢
  obtain ⟨r, hr, hw⟩ := replay_part ht
  have hr' := hsound.replay hG hk hr
  obtain ⟨loaded, c, hmiss, hsince⟩ := since_window hG hk hr' hw
  obtain ⟨q, hq, hqa⟩ := foldlM_concat_ok_iff.mp hr
  obtain ⟨d, hserve, -⟩ := (hsound.replay hG hk hq).exists_serve hG hk hqa
    (fun _ => True) fun _ _ _ _ _ _ _ => trivial
  have hcard := hr'.coherent.card_residents_le.trans hr'.memsize_eq.le
  rw [missesOf_eq ht, missesOf_eq hr, hmiss]
  exact Nat.add_le_add_left (hsince.card_le_add hserve.mem hcard) _

/-- Against a conservative algorithm no other algorithm gains more on a trace than the ratio of
the two memories allows. -/
theorem Functions.Conservative.ratio (hcons : F.Conservative start) (hF : F.Polite)
    (hG : G.Polite) (hk : k ≤ m) (hm : 1 ≤ m ∧ m ≤ 2 ^ 20) (hn : n < 2 ^ 32)
    (hn' : n' < 2 ^ 32) (hstart : startSim F m n garbage alg = .ok start)
    (hother : startSim G k n' garbage' alg' = .ok other)
    (hs : replay F start trace = .ok s) (ht : replay G other trace = .ok t) :
    WithinRatio m k s t := by
  have hsound := startSim_sound hF hn hstart
  have hsound' := startSim_sound hG hn' hother
  have hratio := misses_ratio_le (k := k) (requests trace)
    (A := missesAfter F start trace) (B := missesAfter G other trace)
    (Nat.lt_of_lt_of_le Nat.zero_lt_one hm.1) ?_ ?_
  · have hwhole : trace = trace ++ [] := (List.append_nil trace).symm
    have hzero : missesAfter F start trace [] = start.missCount :=
      missesOf_eq (s := start) rfl
    rw [hzero, (residents_start hF hstart).2, missesAfter_requests start hwhole,
      missesAfter_requests other hwhole, missesOf_eq hs, missesOf_eq ht, Nat.mul_zero,
      Nat.zero_add] at hratio
    exact hratio
  · intro ps qs rs hsplit hroom
    obtain ⟨front, rest, rfl, hfront, rfl⟩ := requests_eq_append_iff.mp hsplit
    obtain ⟨past, w, rfl, rfl, rfl⟩ := requests_eq_append_iff.mp hfront
    obtain ⟨r, hr, -⟩ := replay_part hs
    rw [← hfront, missesAfter_requests start rfl,
      missesAfter_requests start (List.append_assoc past w rest)]
    exact hcons.window_le hF hm.2 hsound hr hroom
  · intro ps p qs rs hsplit
    obtain ⟨front, rest, rfl, hfront, rfl⟩ := requests_eq_append_iff.mp hsplit
    obtain ⟨past, front', rfl, rfl, hfront'⟩ := requests_eq_append_iff.mp hfront
    obtain ⟨a, w, rfl, rfl, rfl⟩ := List.map_eq_cons_iff.mp hfront'
    obtain ⟨r, hr, -⟩ := replay_part ht
    have hone : requests past ++ [ptePtr a.vaddr] = requests (past ++ [a]) := by simp [requests]
    have hpast : past ++ a :: w ++ rest = past ++ [a] ++ (w ++ rest) := by simp
    rw [← hfront, hone, missesAfter_requests other rfl, missesAfter_requests other hpast]
    exact window_ge hG (hk.trans hm.2) hsound' hr

/-- LRU, FIFO and CLOCK are competitive: whatever algorithm replays the same trace with at most as
many frames, it does not make their misses exceed its own by more than the ratio. -/
theorem misses_competitive (hm : 1 ≤ m ∧ m ≤ 2 ^ 20) (hn : n + 31 < 2 ^ 32)
    (haddr : ∀ a ∈ trace, a.vaddr < 2 ^ 36) (hswap : (pagesOf trace).card ≤ n)
    {list : LruList} {toEvict hand : ℤ} {startLru : Sim LruList} {startFifo startClock : Sim ℤ}
    (hlru : startSim lru m n garbage list = .ok startLru)
    (hfifo : startSim fifo m n garbage toEvict = .ok startFifo)
    (hclock : startSim clock m n garbage hand = .ok startClock)
    (hG : G.Polite) (hk : k ≤ m) (hn' : n' < 2 ^ 32)
    (hother : startSim G k n' garbage' alg' = .ok other) (ht : replay G other trace = .ok t) :
    (∃ s, replay lru startLru trace = .ok s ∧ WithinRatio m k s t) ∧
      (∃ s, replay fifo startFifo trace = .ok s ∧ WithinRatio m k s t) ∧
      ∃ s, replay clock startClock trace = .ok s ∧ WithinRatio m k s t := by
  have hwords : n < 2 ^ 32 := by omega
  refine ⟨?_, ?_, ?_⟩
  · obtain ⟨s, hs⟩ := replay_completes lru_polite hm.2 (startSim_ready lru_polite hn hlru) haddr
      hswap (lru_serves hm hwords hlru trace) (List.append_nil trace).symm
    exact ⟨s, hs, (lru_conservative hm hwords hlru).ratio lru_polite hG hk hm hwords hn' hlru
      hother hs ht⟩
  · obtain ⟨s, hs⟩ := replay_completes fifo_polite hm.2 (startSim_ready fifo_polite hn hfifo) haddr
      hswap (fifo_serves hm (startSim_sound fifo_polite hwords hfifo) trace)
      (List.append_nil trace).symm
    exact ⟨s, hs, (fifo_conservative hm hwords hfifo).ratio fifo_polite hG hk hm hwords hn' hfifo
      hother hs ht⟩
  · obtain ⟨s, hs⟩ := replay_completes clock_polite hm.2 (startSim_ready clock_polite hn hclock)
      haddr hswap (clock_serves hm hwords hclock trace) (List.append_nil trace).symm
    exact ⟨s, hs, (clock_conservative hm hwords hclock).ratio clock_polite hG hk hm hwords hn'
      hclock hother hs ht⟩

/-- Two frames against FIFO with one frame. -/
theorem misses_competitive_fifo :
    ∃ a b c other t,
      startSim lru 2 4 (fun _ => ⟨7#32, 7, 7#32⟩) ⟨some 5, none⟩ = .ok a ∧
      startSim fifo 2 4 (fun _ => ⟨7#32, 7, 7#32⟩) 5 = .ok b ∧
      startSim clock 2 4 (fun _ => ⟨7#32, 7, 7#32⟩) 5 = .ok c ∧
      startSim fifo 1 4 (fun _ => ⟨7#32, 7, 7#32⟩) 5 = .ok other ∧
      replay fifo other (accessesOf '?' threePages) = .ok t ∧
      (∃ s, replay lru a (accessesOf '?' threePages) = .ok s ∧ WithinRatio 2 1 s t) ∧
      (∃ s, replay fifo b (accessesOf '?' threePages) = .ok s ∧ WithinRatio 2 1 s t) ∧
      ∃ s, replay clock c (accessesOf '?' threePages) = .ok s ∧ WithinRatio 2 1 s t := by
  obtain ⟨a, ha⟩ := exists_of_isOk
    (x := startSim lru 2 4 (fun _ => ⟨7#32, 7, 7#32⟩) ⟨some 5, none⟩) (by decide)
  obtain ⟨b, hb⟩ := exists_of_isOk
    (x := startSim fifo 2 4 (fun _ => ⟨7#32, 7, 7#32⟩) 5) (by decide)
  obtain ⟨c, hc⟩ := exists_of_isOk
    (x := startSim clock 2 4 (fun _ => ⟨7#32, 7, 7#32⟩) 5) (by decide)
  obtain ⟨t, hsim⟩ := exists_of_isOk (x := simulate fifo 1 4 (fun _ => ⟨7#32, 7, 7#32⟩) 5
    (accessesOf '?' threePages)) (by decide +kernel)
  obtain ⟨other, hother, ht⟩ := bind_eq_ok_iff.mp hsim
  exact ⟨a, b, c, other, t, ha, hb, hc, hother, ht, misses_competitive (by decide) (by decide)
    (by decide) (by decide) ha hb hc fifo_polite (by decide) (by decide) hother ht⟩

end Ratio

end KernelProgramming.Paging
