import KernelProgramming.Paging.SwapSpace

/-!
# The contents of a page across evictions

A page that is brought back after an eviction is not read from the swap file:
no entry is ever marked as being on swap, so `find_physpage` takes the page for
a new one and clears its frame.  The contents survive exactly as long as no
page with a version to lose is accessed while it is out of memory.
-/

namespace KernelProgramming.Paging

open FlagWord Runs

variable {σ : Type} {F : Functions σ}

/-- What an arrival does to the frames: the page itself is found as it was, or
cleared; all other resident pages are left alone. -/
structure FramesAfter (s t : View) (p : PtePtr) (vaddr : ℕ) : Prop where
  self : t.physmem (t.page p).number =
    if (s.page p).valid = true then s.physmem (s.page p).number else ⟨0#32, vaddr, 0#32⟩
  other : ∀ q ≠ p, (t.page q).valid = true → (s.page q).valid = true ∧
    t.physmem (t.page q).number = s.physmem (s.page q).number

theorem View.Vacant.framesAfter {v : View} {frame : ℕ} (h : v.Vacant frame) (p : PtePtr)
    (vaddr : ℕ) (type : Char) :
    (((v.load p frame vaddr).touch p type).physmem
        (((v.load p frame vaddr).touch p type).page p).number = ⟨0#32, vaddr, 0#32⟩) ∧
      ∀ q ≠ p, (((v.load p frame vaddr).touch p type).page q).valid = true →
        (v.page q).valid = true ∧
        ((v.load p frame vaddr).touch p type).physmem
          (((v.load p frame vaddr).touch p type).page q).number = v.physmem (v.page q).number := by
  refine ⟨by simp [View.touch, View.setPageView, View.load], fun q hqp hq => ?_⟩
  have hq' : (v.page q).valid = true := by simpa [View.load, hqp] using hq
  have hne := (h.resident_owner q hq').2.1
  exact ⟨hq', by simp [View.touch, View.setPageView, View.load, hqp, hne]⟩

theorem Arrives.framesAfter {s t : Sim σ} {vaddr : ℕ} {type : Char}
    (h : Arrives F s vaddr type t) (hs : s.view.Coherent) :
    FramesAfter s.view t.view (ptePtr vaddr) vaddr := by
  cases h with
  | hit hvalid hview =>
      rw [hview]
      refine ⟨by rw [if_pos hvalid]; simp [View.touch, View.setPageView, View.hit], ?_⟩
      intro q hqp hq
      have hq' : (s.view.page q).valid = true := by simpa [View.hit, hqp] using hq
      exact ⟨hq', by simp [View.touch, View.setPageView, View.hit, hqp]⟩
  | fill frame hvalid hfree hview =>
      rw [hview]
      obtain ⟨hself, hother⟩ := (hs.vacant_of_free hfree).framesAfter (ptePtr vaddr) vaddr type
      exact ⟨by rw [hself, hvalid]; rfl, hother⟩
  | replace walked s₂ frame victim off swapmap hvalid hfull hwalk hevict hframe howner hslot hoff
      hview =>
      rw [hview]
      have hvacant := hs.unload hframe howner hfull off swapmap
      obtain ⟨hself, hother⟩ := hvacant.framesAfter (ptePtr vaddr) vaddr type
      refine ⟨by rw [hself, hvalid]; rfl, fun q hqp hq => ?_⟩
      obtain ⟨hqvalid, hqmem⟩ := hother q hqp hq
      have hqv : q ≠ victim := by
        rintro rfl
        simp [View.page_unload] at hqvalid
      rw [View.page_unload, if_neg hqv] at hqvalid hqmem
      exact ⟨hqvalid, hqmem⟩

/-- The number of writes to the page of `vaddr`. -/
def writesTo (past : List Access) (vaddr : ℕ) : ℕ :=
  past.countP fun b => isWrite b.type && b.vaddr / 4096 == vaddr / 4096

theorem writesTo_append (past : List Access) (a : Access) (vaddr : ℕ) :
    writesTo (past ++ [a]) vaddr =
      writesTo past vaddr + if isWrite a.type ∧ ptePtr a.vaddr = ptePtr vaddr then 1 else 0 := by
  simp only [writesTo, List.countP_append, List.countP_singleton, ptePtr_eq_iff, Bool.and_eq_true,
    beq_iff_eq]

/-- At every access that the replay serves, the page found has the version
that counts the earlier writes to it. -/
def VersionsKept (F : Functions σ) (start : Sim σ) (trace : List Access) : Prop :=
  ∀ past a rest s frame u, trace = past ++ a :: rest → replay F start past = .ok s →
    findPhyspage F s a.vaddr a.type = .ok (frame, u) →
    (u.physmem frame).version = BitVec.ofNat 32 (writesTo past a.vaddr)

/-- Every access is to a page that is in memory just before it, or to a page
with no version to lose. -/
def NothingToReload (F : Functions σ) (start : Sim σ) (trace : List Access) : Prop :=
  ∀ past a rest s, trace = past ++ a :: rest → replay F start past = .ok s →
    hasFlag (s.pte (ptePtr a.vaddr)).frame pgValid = true ∨ 2 ^ 32 ∣ writesTo past a.vaddr

/-- The pages in memory hold the versions of a memory that never evicts. -/
def UpToDate (past : List Access) (v : View) : Prop :=
  ∀ vaddr, (v.page (ptePtr vaddr)).valid = true →
    (v.physmem (v.page (ptePtr vaddr)).number).version = BitVec.ofNat 32 (writesTo past vaddr)

theorem ofNat_eq_zero_iff (n : ℕ) : BitVec.ofNat 32 n = 0#32 ↔ 2 ^ 32 ∣ n := by
  rw [← BitVec.toNat_inj, BitVec.toNat_ofNat, BitVec.toNat_ofNat, Nat.dvd_iff_mod_eq_zero]

theorem version_found {past : List Access} {s t : Sim σ} {vaddr : ℕ} {type : Char}
    (h : Arrives F s vaddr type t) (hs : s.view.Coherent) (hup : UpToDate past s.view) :
    (t.view.physmem (t.view.page (ptePtr vaddr)).number).version =
        BitVec.ofNat 32 (writesTo past vaddr) ↔
      (s.view.page (ptePtr vaddr)).valid = true ∨ 2 ^ 32 ∣ writesTo past vaddr := by
  rw [(h.framesAfter hs).self]
  by_cases hvalid : (s.view.page (ptePtr vaddr)).valid = true
  · rw [if_pos hvalid]
    exact ⟨fun _ => Or.inl hvalid, fun _ => hup vaddr hvalid⟩
  · rw [if_neg hvalid, eq_comm, ofNat_eq_zero_iff]
    simp [hvalid]

theorem UpToDate.accessed {past : List Access} {s u v t : Sim σ} {a : Access}
    (hup : UpToDate past s.view) (hs : s.view.Coherent) (hacc : Accessed F s a u v t)
    (hkeep : (s.view.page (ptePtr a.vaddr)).valid = true ∨ 2 ^ 32 ∣ writesTo past a.vaddr) :
    UpToDate (past ++ [a]) t.view := by
  have hframes := hacc.arrives.framesAfter hs
  have hfound := (version_found hacc.arrives hs hup).mpr hkeep
  have hu := hacc.arrives.coherent hs
  intro vaddr hvalid
  have hpageEq : t.view.page = u.view.page := by
    rw [hacc.view_eq]
    rfl
  have hphys : t.view.physmem = if isWrite a.type then
      Function.update u.view.physmem (u.view.page (ptePtr a.vaddr)).number
        { u.view.physmem (u.view.page (ptePtr a.vaddr)).number with
          version := (u.view.physmem (u.view.page (ptePtr a.vaddr)).number).version + 1 }
      else u.view.physmem := by
    rw [hacc.view_eq]
    rfl
  rw [hpageEq] at hvalid ⊢
  rw [hphys, writesTo_append]
  by_cases hp : ptePtr a.vaddr = ptePtr vaddr
  · have hcount : writesTo past vaddr = writesTo past a.vaddr := by
      simp only [writesTo, ptePtr_eq_iff.mp hp]
    rw [hcount, ← hp]
    cases hw : isWrite a.type with
    | true =>
        simp only [if_true, Function.update_self, hfound, and_self]
        rw [BitVec.ofNat_add]
        rfl
    | false => simp [hfound]
  · have hne : (u.view.page (ptePtr vaddr)).number ≠ (u.view.page (ptePtr a.vaddr)).number :=
      fun heq => hp (hu.1.number_inj hvalid hu.2.2 heq).symm
    obtain ⟨hold, hmem⟩ := hframes.other (ptePtr vaddr) (Ne.symm hp) hvalid
    have hversion := hup vaddr hold
    cases hw : isWrite a.type with
    | true => simp [hne, hmem, hversion, hp]
    | false => simp [hmem, hversion]

/-- While no version is lost, the pages in memory are up to date. -/
theorem upToDate_replay (hF : F.Polite) {m : ℕ} (hm : m ≤ 2 ^ 20) {start s : Sim σ}
    (hstart : Sound m start) (hzero : UpToDate [] start.view) {trace past rest : List Access}
    (htrace : trace = past ++ rest) (hkeep : NothingToReload F start trace)
    (hrun : replay F start past = .ok s) : UpToDate past s.view := by
  refine @run_invariant _ _ _ _ (fun past (s : Sim σ) => UpToDate past s.view) _ _ _ hzero ?_ hrun
  intro before a after t w hpast hbefore hup hacc
  have ht := hstart.replay hF hm hbefore
  obtain ⟨-, u, v, hacc'⟩ := ht.accessMem_ok hF hm hacc
  exact hup.accessed ht.coherent hacc'
    (hkeep before a (after ++ rest) t (by simp [htrace, hpast]) hbefore)

theorem upToDate_start (hF : F.Polite) {m n : ℕ} {garbage : ℕ → SimPage} {alg : σ}
    {start : Sim σ} (hstart : startSim F m n garbage alg = .ok start) :
    UpToDate [] start.view := by
  obtain ⟨b, -, heq⟩ := bind_eq_ok_iff.mp hstart
  have hview : start.view = (bootSim m garbage b alg).view := by
    rw [(Except.ok.inj heq).symm]
    exact hF.init_view _
  intro vaddr hvalid
  simp [hview, page_boot] at hvalid

/-- The version that an access finds, in terms of the state before it. -/
theorem found_iff (hF : F.Polite) {m : ℕ} (hm : m ≤ 2 ^ 20) {past : List Access}
    {s u : Sim σ} {vaddr frame : ℕ} {type : Char} (hs : Sound m s) (hup : UpToDate past s.view)
    (hfind : findPhyspage F s vaddr type = .ok (frame, u)) :
    (u.physmem frame).version = BitVec.ofNat 32 (writesTo past vaddr) ↔
      hasFlag (s.pte (ptePtr vaddr)).frame pgValid = true ∨ 2 ^ 32 ∣ writesTo past vaddr := by
  obtain ⟨-, -, t, harr, -, hview, hnum⟩ :=
    (hs.findPhyspage_yields hF hm vaddr type).of_eq_ok hfind
  have hphys : u.physmem = t.view.physmem := congrArg View.physmem hview
  simp only at hnum
  rw [hphys, hnum]
  exact version_found harr hs.coherent hup

/-- Nothing was ever put out: slots are not to be had, and every page that was
accessed is still in memory. -/
structure NeverEvicted (past : List Access) (v : View) : Prop where
  noWords : divRoundUp v.swapmap.nbits bitsPerWord = 0
  noSlot : ∀ p, (v.page p).swapOff = invalidSwap
  resident : ∀ p ∈ pagesOf past, (v.page p).valid = true

theorem NeverEvicted.arrives {past : List Access} {s t : Sim σ} {vaddr : ℕ} {type : Char}
    (h : NeverEvicted past s.view) (harr : Arrives F s vaddr type t) :
    divRoundUp t.view.swapmap.nbits bitsPerWord = 0 ∧
      (∀ p, (t.view.page p).swapOff = invalidSwap) ∧
      ∀ p, p = ptePtr vaddr ∨ p ∈ pagesOf past → (t.view.page p).valid = true := by
  cases harr with
  | hit hvalid hview =>
      rw [hview]
      refine ⟨h.noWords, fun p => ?_, fun p hp => ?_⟩
      · by_cases hpq : p = ptePtr vaddr <;> simp [View.hit, hpq, h.noSlot]
      · by_cases hpq : p = ptePtr vaddr
        · simp [hpq]
        · simpa [View.hit, hpq] using h.resident p (hp.resolve_left hpq)
  | fill frame hvalid hfree hview =>
      rw [hview]
      refine ⟨h.noWords, fun p => ?_, fun p hp => ?_⟩
      · by_cases hpq : p = ptePtr vaddr <;> simp [View.load, hpq, h.noSlot]
      · by_cases hpq : p = ptePtr vaddr
        · simp [hpq]
        · simpa [View.load, hpq] using h.resident p (hp.resolve_left hpq)
  | replace walked s₂ frame victim off swapmap hvalid hfull hwalk hevict hframe howner hslot =>
      rcases hslot with ⟨hne, -⟩ | ⟨-, idx, halloc, -⟩
      · exact (hne (h.noSlot victim)).elim
      · simp [bitmapAlloc, h.noWords] at halloc

theorem neverEvicted_replay (hF : F.Polite) {m : ℕ} (hm : m ≤ 2 ^ 20) {start s : Sim σ}
    (hstart : Sound m start) (hnever : NeverEvicted [] start.view) {past : List Access}
    (hrun : replay F start past = .ok s) : NeverEvicted past s.view := by
  refine @run_invariant _ _ _ _ (fun past (s : Sim σ) => NeverEvicted past s.view) _ _ _ hnever ?_
    hrun
  intro before a after t w _ hbefore hold hacc
  obtain ⟨-, u, v, hacc'⟩ := (hstart.replay hF hm hbefore).accessMem_ok hF hm hacc
  obtain ⟨hwords, hslot, hres⟩ := hold.arrives hacc'.arrives
  rw [hacc'.view_eq]
  refine ⟨hwords, hslot, fun p hp => hres p ?_⟩
  rw [pagesOf_append, Finset.mem_union] at hp
  rcases hp with hp | hp
  · exact Or.inr hp
  · obtain ⟨b, hb, rfl⟩ := mem_pagesOf.mp hp
    exact Or.inl (by rw [List.mem_singleton.mp hb])

/-- A bitmap too large for its number of words to be counted leaves swap empty. -/
theorem neverEvicted_start (hF : F.Polite) {m n : ℕ} (hn : n < 2 ^ 32) (hwrap : ¬ n + 31 < 2 ^ 32)
    {garbage : ℕ → SimPage} {alg : σ} {start : Sim σ}
    (hstart : startSim F m n garbage alg = .ok start) : NeverEvicted [] start.view := by
  have hzero : divRoundUp n bitsPerWord = 0 := by
    rw [divRoundUp, bitsPerWord]
    omega
  obtain ⟨b, hb, heq⟩ := bind_eq_ok_iff.mp hstart
  have hnbits : b.nbits = n := by
    simp only [bitmapCreate, hzero, List.replicate_zero] at hb
    simp at hb
    rw [← hb]
  have hview : start.view = (bootSim m garbage b alg).view := by
    rw [(Except.ok.inj heq).symm]
    exact hF.init_view _
  rw [hview]
  refine ⟨?_, fun p => by rw [page_boot], fun p hp => ?_⟩
  · change divRoundUp b.nbits bitsPerWord = 0
    rw [hnbits, hzero]
  · simp [pagesOf] at hp

theorem writesTo_eq_zero {past : List Access} {vaddr : ℕ} (h : ptePtr vaddr ∉ pagesOf past) :
    writesTo past vaddr = 0 := by
  rw [writesTo, List.countP_eq_zero]
  intro b hb hcount
  simp only [Bool.and_eq_true, beq_iff_eq] at hcount
  exact h (mem_pagesOf.mpr ⟨b, hb, ptePtr_eq_iff.mpr hcount.2⟩)

/-- The versions found are those of a memory that never evicts if and only if
no access has to reload a page that was written before.  Every access is served,
unless the bitmap of the swap space wraps around. -/
theorem versionsKept_iff (hF : F.Polite) {m swapsize : ℕ} (hm : 1 ≤ m ∧ m ≤ 2 ^ 20)
    (hswapsize : swapsize < 2 ^ 32) {garbage : ℕ → SimPage} {alg : σ} {start : Sim σ}
    (hstart : startSim F m swapsize garbage alg = .ok start) {trace : List Access}
    (haddr : ∀ a ∈ trace, a.vaddr < 2 ^ 36) (hswap : (pagesOf trace).card ≤ swapsize)
    (hserves : F.Serves start trace) :
    (VersionsKept F start trace ↔ NothingToReload F start trace) ∧
      (swapsize + 31 < 2 ^ 32 → ∀ past rest, trace = past ++ rest →
        ∃ s, replay F start past = .ok s) := by
  have hcompletes : swapsize + 31 < 2 ^ 32 → ∀ past rest, trace = past ++ rest →
      ∃ s, replay F start past = .ok s := fun hwords _ _ hsplit =>
    replay_completes hF hm.2 (startSim_ready hF hwords hstart) haddr hswap hserves hsplit
  have hsound := startSim_sound hF hswapsize hstart
  have hzero := upToDate_start hF hstart
  refine ⟨⟨?_, ?_⟩, hcompletes⟩
  · intro hkept past
    induction hn : past.length using Nat.strong_induction_on generalizing past with
    | _ n ih =>
        intro a rest s htrace hrun
        have hs := hsound.replay hF hm.2 hrun
        -- the accesses before this one have lost nothing, by induction
        have hbefore : NothingToReload F start past := by
          intro past' b rest' s' hpast' hrun'
          exact ih past'.length (by rw [← hn, hpast']; simp) past' rfl b (rest' ++ a :: rest) s'
            (by simp [htrace, hpast']) hrun'
        have hup := upToDate_replay hF hm.2 hsound hzero (List.append_nil past).symm hbefore hrun
        by_cases hwords : swapsize + 31 < 2 ^ 32
        · have hsplit : trace = (past ++ [a]) ++ rest := by simp [htrace]
          obtain ⟨t, ht⟩ := hcompletes hwords _ _ hsplit
          obtain ⟨s', hs', hacc⟩ := foldlM_concat_ok_iff.mp ht
          have hss : s' = s := Except.ok.inj (hs'.symm.trans hrun)
          rw [hss] at hacc
          obtain ⟨⟨frame, u⟩, hfind, -⟩ := bind_eq_ok_iff.mp hacc
          exact (found_iff hF hm.2 hs hup hfind).mp (hkept past a rest s frame u htrace hrun hfind)
        · have hnever := neverEvicted_replay hF hm.2 hsound
            (neverEvicted_start hF hswapsize hwords hstart) hrun
          by_cases hseen : ptePtr a.vaddr ∈ pagesOf past
          · exact Or.inl (hnever.resident _ hseen)
          · exact Or.inr (by simp [writesTo_eq_zero hseen])
  · intro hkeep past a rest s frame u htrace hrun hfind
    have hs := hsound.replay hF hm.2 hrun
    have hup := upToDate_replay hF hm.2 hsound hzero htrace hkeep hrun
    exact (found_iff hF hm.2 hs hup hfind).mpr (hkeep past a rest s htrace hrun)

/-- A page is written, evicted and read again. -/
def writeEvictRead : List Access := [⟨'S', 0x1000⟩, ⟨'S', 0x2000⟩, ⟨'L', 0x1000⟩]

theorem versionsKept_iff_fifo :
    ∃ start, startSim fifo 1 2 (fun _ => ⟨7#32, 7, 7#32⟩) 5 = .ok start ∧
      (VersionsKept fifo start writeEvictRead ↔ NothingToReload fifo start writeEvictRead) ∧
      (2 + 31 < 2 ^ 32 → ∀ past rest, writeEvictRead = past ++ rest →
        ∃ s, replay fifo start past = .ok s) := by
  obtain ⟨start, hstart⟩ : ∃ start, startSim fifo 1 2 (fun _ => ⟨7#32, 7, 7#32⟩) 5 = .ok start :=
    ⟨_, rfl⟩
  have hsound := startSim_sound fifo_polite (by decide) hstart
  exact ⟨start, hstart, versionsKept_iff fifo_polite (by decide) (by decide) hstart (by decide)
    (by decide) (fifo_serves (by decide) hsound _)⟩

/-- With one frame and two slots of swap space the version written first is
gone when the page is read again. -/
theorem version_lost :
    ∃ start, startSim fifo 1 2 (fun _ => ⟨7#32, 7, 7#32⟩) 5 = .ok start ∧
      (∀ a ∈ writeEvictRead, a.vaddr % 4096 = 0 ∧ a.vaddr < 2 ^ 36) ∧
      (pagesOf writeEvictRead).card ≤ 2 ∧ fifo.Serves start writeEvictRead ∧
      ¬ VersionsKept fifo start writeEvictRead := by
  obtain ⟨start, hstart⟩ : ∃ start, startSim fifo 1 2 (fun _ => ⟨7#32, 7, 7#32⟩) 5 = .ok start :=
    ⟨_, rfl⟩
  have hsound := startSim_sound fifo_polite (by decide) hstart
  refine ⟨start, hstart, by decide, by decide, fifo_serves (by decide) hsound _, ?_⟩
  intro hkept
  have hfound : (startSim fifo 1 2 (fun _ => ⟨7#32, 7, 7#32⟩) 5 >>= fun start =>
      replay fifo start [⟨'S', 0x1000⟩, ⟨'S', 0x2000⟩] >>= fun s =>
        findPhyspage fifo s 0x1000 'L' >>= fun r => .ok (r.2.physmem r.1).version) = .ok 0#32 := by
    decide +kernel
  rw [hstart] at hfound
  obtain ⟨start', hstart', hfound⟩ := bind_eq_ok_iff.mp hfound
  obtain rfl := Except.ok.inj hstart'
  obtain ⟨s, hrun, hrest⟩ := bind_eq_ok_iff.mp hfound
  obtain ⟨⟨frame, u⟩, hfind, hversion⟩ := bind_eq_ok_iff.mp hrest
  have hright := hkept [⟨'S', 0x1000⟩, ⟨'S', 0x2000⟩] ⟨'L', 0x1000⟩ [] s frame u rfl hrun hfind
  rw [Except.ok.inj hversion] at hright
  exact absurd hright (by decide)

end KernelProgramming.Paging
