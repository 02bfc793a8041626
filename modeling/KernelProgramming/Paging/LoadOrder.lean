import KernelProgramming.Library.RoundRobin
import KernelProgramming.Paging.SelfCheck
import KernelProgramming.Paging.Residents

/-!
# The order in which pages are loaded

An access to a page that is not resident loads it.  `fifo.c` keeps nothing but
the number of the frame evicted last; that the frame behind it holds the page
loaded longest ago is due to `allocate_frame`, which fills the frames in order
and puts every later page into the frame just evicted.
-/

namespace KernelProgramming.Paging

open FlagWord Runs RoundRobin

variable {σ : Type} {F : Functions σ}

/-- Access number `k` of `past` finds page `p` out of memory and loads it. -/
def LoadsAt (F : Functions σ) (start : Sim σ) (past : List Access) (k : ℕ) (p : PtePtr) : Prop :=
  ∃ a s, past[k]? = some a ∧ ptePtr a.vaddr = p ∧ replay F start (past.take k) = .ok s ∧
    hasFlag (s.pte p).frame pgValid = false

/-- Access number `k` is the most recent one that loads page `p`. -/
def LastLoad (F : Functions σ) (start : Sim σ) (past : List Access) (k : ℕ) (p : PtePtr) : Prop :=
  LoadsAt F start past k p ∧ ∀ j, k < j → ¬ LoadsAt F start past j p

/-- `frame` holds the resident page whose most recent load is the earliest. -/
def LoadedFirst (F : Functions σ) (start : Sim σ) (past : List Access) (s : Sim σ)
    (frame : ℕ) : Prop :=
  ∃ victim k, (s.coremap frame).pte = some victim ∧
    hasFlag (s.pte victim).frame pgValid = true ∧ number pageShift (s.pte victim).frame = frame ∧
    LastLoad F start past k victim ∧
    ∀ p, hasFlag (s.pte p).frame pgValid = true → p ≠ victim →
      ∃ l, LastLoad F start past l p ∧ k < l

theorem LoadsAt.lt {start : Sim σ} {past : List Access} {k : ℕ} {p : PtePtr}
    (h : LoadsAt F start past k p) : k < past.length := by
  obtain ⟨a, s, hk, -⟩ := h
  exact (List.getElem?_eq_some_iff.mp hk).1

theorem loadsAt_nil (start : Sim σ) (k : ℕ) (p : PtePtr) : ¬ LoadsAt F start [] k p :=
  fun h => Nat.not_lt_zero k h.lt

/-- One more access adds at most one load. -/
theorem loadsAt_concat {start s : Sim σ} {past : List Access} {a : Access} {k : ℕ} {p : PtePtr}
    (hrun : replay F start past = .ok s) :
    LoadsAt F start (past ++ [a]) k p ↔ LoadsAt F start past k p ∨
      (k = past.length ∧ p = ptePtr a.vaddr ∧ hasFlag (s.pte p).frame pgValid = false) := by
  constructor
  · rintro ⟨b, t, hk, hp, ht, hvalid⟩
    have hlt := (List.getElem?_eq_some_iff.mp hk).1
    rw [List.length_append, List.length_singleton] at hlt
    rcases Nat.eq_or_lt_of_le (Nat.le_of_lt_succ hlt) with rfl | hlt
    · rw [List.getElem?_concat_length] at hk
      rw [List.take_left] at ht
      obtain rfl := Option.some.inj hk
      obtain rfl := Except.ok.inj (hrun.symm.trans ht)
      exact Or.inr ⟨rfl, hp.symm, hvalid⟩
    · rw [List.getElem?_append_left hlt] at hk
      rw [List.take_append_of_le_length hlt.le] at ht
      exact Or.inl ⟨b, t, hk, hp, ht, hvalid⟩
  · rintro (⟨b, t, hk, hp, ht, hvalid⟩ | ⟨rfl, rfl, hvalid⟩)
    · have hlt := (List.getElem?_eq_some_iff.mp hk).1
      refine ⟨b, t, ?_, hp, ?_, hvalid⟩
      · rw [List.getElem?_append_left hlt, hk]
      · rw [List.take_append_of_le_length hlt.le, ht]
    · exact ⟨a, s, List.getElem?_concat_length, rfl, by rw [List.take_left, hrun], hvalid⟩

theorem LoadedFirst.congr {start s t : Sim σ} {past : List Access} {frame : ℕ}
    (h : LoadedFirst F start past s frame) (hview : t.view = s.view) :
    LoadedFirst F start past t frame := by
  obtain ⟨victim, k, howner, hvalid, hnum, hlast, hothers⟩ := h
  have hpage : t.view.page = s.view.page := congrArg View.page hview
  refine ⟨victim, k, (congrFun (congrArg View.owner hview) frame).trans howner, ?_, ?_, hlast, ?_⟩
  · exact (congrArg PageView.valid (congrFun hpage victim)).trans hvalid
  · exact (congrArg PageView.number (congrFun hpage victim)).trans hnum
  · intro p hp
    exact hothers p ((congrArg PageView.valid (congrFun hpage p)).symm.trans hp)

/-! ## The frames in rotation -/

/-- What `fifo.c` makes of the loads so far: the pages are in the frames in rotation, and
the frame behind `evict` is next. -/
structure Rotates (m : ℕ) (start : Sim ℤ) (past : List Access) (s : Sim ℤ)
    (log : List (ℕ × PtePtr)) : Prop where
  mem_iff : ∀ k p, (k, p) ∈ log ↔ LoadsAt fifo start past k p
  sorted : log.Pairwise fun x y => x.1 < y.1
  filled : Filled m (log.map Prod.snd) s.view.owner
  inUse : ∀ i < m, s.view.inUse i = true ↔ i < log.length
  turn : (log.length < m → s.alg = -1) ∧
    (m ≤ log.length → (s.alg + 1) % (m : ℤ) = (log.length : ℤ) % m)

section Step

variable {m : ℕ} {start s : Sim ℤ} {past : List Access} {log : List (ℕ × PtePtr)}

theorem rotates_start {n : ℕ} {garbage : ℕ → SimPage} {alg : ℤ} (hm : 1 ≤ m)
    (hstart : startSim fifo m n garbage alg = .ok start) : Rotates m start [] start [] := by
  obtain ⟨b, -, heq⟩ := bind_eq_ok_iff.mp hstart
  obtain rfl := Except.ok.inj heq
  refine ⟨fun k p => ?_, List.Pairwise.nil, filled_nil m _, fun i _ => ?_, ?_⟩
  · exact iff_of_false List.not_mem_nil (loadsAt_nil _ k p)
  · exact iff_of_false Bool.false_ne_true (Nat.not_lt_zero i)
  · exact ⟨fun _ => rfl, fun hle => absurd (hm.trans hle) (Nat.not_succ_le_zero 0)⟩

/-- An access that loads its page puts it into the frame whose turn it is. -/
theorem Rotates.load {t : Sim ℤ} (h : Rotates m start past s log)
    (hrun : replay fifo start past = .ok s) {a : Access}
    (hmiss : (s.view.page (ptePtr a.vaddr)).valid = false)
    (howner : t.view.owner = Function.update s.view.owner (log.length % m) (some (ptePtr a.vaddr)))
    (hinUse : t.view.inUse = Function.update s.view.inUse (log.length % m) true)
    (halg : (log.length < m ∧ t.alg = s.alg) ∨
      (m ≤ log.length ∧ t.alg = (s.alg + 1) % (m : ℤ))) :
    Rotates m start (past ++ [a]) t (log ++ [(past.length, ptePtr a.vaddr)]) where
  mem_iff k p := by
    rw [List.mem_append, List.mem_singleton, h.mem_iff, loadsAt_concat hrun, Prod.mk.injEq]
    refine or_congr_right (and_congr_right fun _ => ⟨fun hp => ⟨hp, ?_⟩, And.left⟩)
    rw [hp]
    exact hmiss
  sorted := by
    rw [List.pairwise_append]
    refine ⟨h.sorted, List.pairwise_singleton _ _, ?_⟩
    rintro ⟨k, p⟩ hx y hy
    rw [List.mem_singleton.mp hy]
    exact ((h.mem_iff k p).mp hx).lt
  filled := by
    have hpush := h.filled.push (ptePtr a.vaddr)
    rw [List.length_map] at hpush
    rw [howner, List.map_append]
    exact hpush
  inUse i hi := by
    rw [hinUse, List.length_append, List.length_singleton]
    rcases eq_or_ne i (log.length % m) with rfl | hne
    · rw [Function.update_self]
      exact iff_of_true rfl (Nat.lt_succ_of_le (Nat.mod_le _ _))
    · rw [Function.update_of_ne hne, h.inUse i hi]
      have hmod : log.length < m → log.length % m = log.length := Nat.mod_eq_of_lt
      omega
  turn := by
    rw [List.length_append, List.length_singleton]
    obtain ⟨hbefore, hafter⟩ := h.turn
    rcases halg with ⟨hlt, halg⟩ | ⟨hle, halg⟩
    · have hs := hbefore hlt
      refine ⟨fun _ => halg.trans hs, fun hfull => ?_⟩
      have hlen : log.length + 1 = m := le_antisymm hlt hfull
      rw [halg, hs, hlen, Int.emod_self]
      rfl
    · refine ⟨fun hlt => absurd hlt (by omega), fun _ => ?_⟩
      rw [halg, hafter hle, Int.emod_add_emod]
      push_cast
      rfl

/-- A free frame is the one whose turn it is. -/
theorem Rotates.free_eq (h : Rotates m start past s log) (hsize : s.memsize = m) {frame : ℕ}
    (hfree : s.view.freeFrame = some frame) : frame = log.length ∧ log.length < m := by
  obtain ⟨hlt, hunused, hused⟩ := View.freeFrame_eq_some_iff.mp hfree
  have hframe : frame < m := hsize ▸ hlt
  have hle : log.length ≤ frame := by
    by_contra hnot
    rw [(h.inUse frame hframe).mpr (Nat.lt_of_not_le hnot)] at hunused
    exact Bool.false_ne_true hunused.symm
  have hge : frame ≤ log.length := by
    by_contra hnot
    have hlen := Nat.lt_of_not_le hnot
    exact Nat.lt_irrefl _ ((h.inUse _ (hlen.trans hframe)).mp (hused _ hlen))
  have heq := le_antisymm hge hle
  exact ⟨heq, heq ▸ hframe⟩

theorem Rotates.full (h : Rotates m start past s log) (hsize : s.memsize = m)
    (hfull : s.view.freeFrame = none) : m ≤ log.length := by
  by_contra hnot
  have hlt := Nat.lt_of_not_le hnot
  have huse := View.freeFrame_eq_none_iff.mp hfull log.length (hlt.trans_eq hsize.symm)
  exact Nat.lt_irrefl _ ((h.inUse _ hlt).mp huse)

/-- With all frames in use `fifo_evict` names the frame whose turn it is. -/
theorem Rotates.evict_eq (h : Rotates m start past s log) (hle : m ≤ log.length)
    {walked s₂ : Sim ℤ} (hsize : walked.memsize = m) (halg : walked.alg = s.alg) {frame : ℕ}
    (hevict : fifoEvict walked = .ok (frame, s₂)) :
    frame = log.length % m ∧ s₂.alg = (s.alg + 1) % (m : ℤ) := by
  obtain ⟨rfl, rfl⟩ := Prod.mk.inj (Except.ok.inj hevict)
  change ((walked.alg + 1) % (walked.memsize : ℤ)).toNat = _ ∧
    (walked.alg + 1) % (walked.memsize : ℤ) = _
  rw [hsize, halg]
  refine ⟨?_, rfl⟩
  rw [h.turn.2 hle, ← Int.natCast_emod, Int.toNat_natCast]

theorem Rotates.accessed {u v t : Sim ℤ} {a : Access} (h : Rotates m start past s log)
    (hs : Sound m s) (hrun : replay fifo start past = .ok s) (hacc : Accessed fifo s a u v t) :
    ∃ log', Rotates m start (past ++ [a]) t log' := by
  obtain ⟨harr, href, hview', hpriv'⟩ := hacc
  have hsize : s.memsize = m := hs.memsize_eq
  obtain rfl : u = v := Except.ok.inj href
  have halg' : t.alg = u.alg := congrArg Priv.alg hpriv'
  have howner' : t.view.owner = u.view.owner := by rw [hview']; rfl
  have hinUse' : t.view.inUse = u.view.inUse := by rw [hview']; rfl
  cases harr with
  | hit hvalid hview hpriv =>
      refine ⟨log, fun k p => ?_, h.sorted, ?_, fun i hi => ?_, ?_⟩
      · rw [h.mem_iff, loadsAt_concat hrun]
        refine ⟨Or.inl, fun hload => hload.resolve_right ?_⟩
        rintro ⟨-, rfl, hinvalid⟩
        exact Bool.false_ne_true (hinvalid.symm.trans hvalid)
      · rw [howner', hview]
        exact h.filled
      · rw [hinUse', hview]
        exact h.inUse i hi
      · rw [halg', show u.alg = s.alg from congrArg Priv.alg hpriv]
        exact h.turn
  | fill frame hvalid hfree hview hpriv =>
      obtain ⟨rfl, hlt⟩ := h.free_eq hsize hfree
      refine ⟨_, h.load hrun hvalid ?_ ?_ (Or.inl ⟨hlt, ?_⟩)⟩
      · rw [howner', hview, Nat.mod_eq_of_lt hlt]
        rfl
      · rw [hinUse', hview, Nat.mod_eq_of_lt hlt]
        rfl
      · exact halg'.trans (congrArg Priv.alg hpriv)
  | replace walked s₂ frame victim off swapmap hvalid hfull hwalk hevict hframe hvictim hslot hoff
      hview hpriv =>
      obtain ⟨hwview, hwpriv⟩ := (walkPgdir_yields s a.vaddr).of_eq_ok hwalk
      have hle := h.full hsize hfull
      have hwsize : walked.memsize = m := (congrArg View.memsize hwview).trans hsize
      obtain ⟨rfl, halg⟩ := h.evict_eq hle hwsize (congrArg Priv.alg hwpriv) hevict
      refine ⟨_, h.load hrun hvalid ?_ ?_ (Or.inr ⟨hle, ?_⟩)⟩
      · rw [howner', hview]
        rfl
      · rw [hinUse', hview]
        rfl
      · exact (halg'.trans (congrArg Priv.alg hpriv)).trans halg

/-- An entry of the log that is still in its frame is the last load of its page. -/
theorem Rotates.lastLoad (h : Rotates m start past s log) (hm : 0 < m) (hs : Sound m s) {j k : ℕ}
    {p : PtePtr} (hj : log[j]? = some (k, p)) (hwindow : log.length ≤ j + m)
    (hp : (s.view.page p).valid = true) (hnum : (s.view.page p).number = j % m) :
    LastLoad fifo start past k p := by
  refine ⟨(h.mem_iff k p).mp (List.mem_of_getElem? hj), fun l hkl hload => ?_⟩
  obtain ⟨i, hi⟩ := List.mem_iff_getElem?.mp ((h.mem_iff l p).mpr hload)
  -- the later load would be in a later position, while only one frame holds the page
  have hji : j < i := by
    obtain ⟨hjlt, hj'⟩ := List.getElem?_eq_some_iff.mp hj
    obtain ⟨hilt, hi'⟩ := List.getElem?_eq_some_iff.mp hi
    by_contra hnot
    rcases Nat.eq_or_lt_of_le (Nat.le_of_not_lt hnot) with rfl | hlt
    · have heq := Option.some.inj (hj.symm.trans hi)
      exact Nat.lt_irrefl l ((Prod.mk.inj heq).1 ▸ hkl)
    · have hlk := List.pairwise_iff_getElem.mp h.sorted i j hilt hjlt hlt
      rw [hi', hj'] at hlk
      exact Nat.lt_asymm hkl hlk
  refine h.filled.last (x := p) ?_ (fun n hn howner => ?_) hji ?_
  · rwa [List.length_map]
  · rw [List.length_map] at hn
    have hlt : n % m < m := Nat.mod_lt n hm
    have huse := (h.inUse _ hlt).mpr ((Nat.mod_le n m).trans_lt hn)
    obtain ⟨q, hq, -, hqnum⟩ := hs.coherent.owner_resident (n % m) (hs.memsize_eq.symm ▸ hlt) huse
    obtain rfl := Option.some.inj (hq.symm.trans howner)
    exact hqnum.symm.trans hnum
  · rw [List.getElem?_map, hi]
    rfl

/-- Each resident page has an entry in the log for its frame. -/
theorem Rotates.exists_entry (h : Rotates m start past s log) (hs : Sound m s) {p : PtePtr}
    (hp : (s.view.page p).valid = true) :
    ∃ j k, log[j]? = some (k, p) ∧ log.length ≤ j + m ∧ (s.view.page p).number = j % m := by
  obtain ⟨hlt, huse, howner⟩ := hs.coherent.resident_owner p hp
  have hlt' : (s.view.page p).number < m := hs.memsize_eq ▸ hlt
  obtain ⟨j, hj, hwindow, hmod⟩ := exists_turn hlt' ((h.inUse _ hlt').mp huse)
  have hslot := h.filled j (by rwa [List.length_map]) (by rwa [List.length_map])
  rw [hmod, howner, List.getElem?_map] at hslot
  obtain ⟨⟨k, q⟩, hkq, rfl⟩ := Option.map_eq_some_iff.mp hslot.symm
  exact ⟨j, k, hkq, hwindow, hmod.symm⟩

theorem Rotates.loadedFirst (h : Rotates m start past s log) (hm : 0 < m) (hs : Sound m s)
    (hle : m ≤ log.length) : LoadedFirst fifo start past s (log.length % m) := by
  have hlt : log.length % m < m := Nat.mod_lt _ hm
  have huse := (h.inUse _ hlt).mpr (hlt.trans_le hle)
  obtain ⟨victim, howner, hvalid, hnum⟩ :=
    hs.coherent.owner_resident _ (hs.memsize_eq.symm ▸ hlt) huse
  have holdest := h.filled.oldest hm (by rwa [List.length_map])
  rw [List.length_map, howner, List.getElem?_map] at holdest
  obtain ⟨⟨k, q⟩, hkq, rfl⟩ := Option.map_eq_some_iff.mp holdest.symm
  have hfirst := h.lastLoad hm hs hkq (by omega) hvalid
    (hnum.trans (Nat.mod_eq_sub_mod hle))
  refine ⟨q, k, howner, hvalid, hnum, hfirst, fun p hp hne => ?_⟩
  obtain ⟨j, l, hj, hwindow, hpnum⟩ := h.exists_entry hs hp
  refine ⟨l, h.lastLoad hm hs hj hwindow hp hpnum, ?_⟩
  have hjne : j ≠ log.length - m := by
    rintro rfl
    exact hne (Prod.mk.inj (Option.some.inj (hj.symm.trans hkq))).2
  obtain ⟨hjlt, hj'⟩ := List.getElem?_eq_some_iff.mp hj
  obtain ⟨hklt, hk'⟩ := List.getElem?_eq_some_iff.mp hkq
  have hlog := List.pairwise_iff_getElem.mp h.sorted _ _ hklt hjlt (by omega)
  rwa [hj', hk'] at hlog

end Step

theorem rotates_replay {m swapsize : ℕ} (hm : 1 ≤ m ∧ m ≤ 2 ^ 20) (hswapsize : swapsize < 2 ^ 32)
    {garbage : ℕ → SimPage} {alg : ℤ} {start s : Sim ℤ}
    (hstart : startSim fifo m swapsize garbage alg = .ok start) {past : List Access}
    (hrun : replay fifo start past = .ok s) : ∃ log, Rotates m start past s log := by
  have hsound := startSim_sound fifo_polite hswapsize hstart
  refine @run_invariant _ _ _ _ (fun past s => ∃ log, Rotates m start past s log) _ _ _
    ⟨[], rotates_start hm.1 hstart⟩ ?_ hrun
  rintro before a after t w - hbefore ⟨log, hlog⟩ hacc
  have ht := hsound.replay fifo_polite hm.2 hbefore
  obtain ⟨-, u, v, hacc'⟩ := ht.accessMem_ok fifo_polite hm.2 hacc
  exact hlog.accessed ht hbefore hacc'

/-- Whenever `fifo_evict` is called during the replay, it returns the frame of the resident page
whose most recent load is the earliest; with enough swap the replay reaches its end. -/
theorem fifo_oldest_load {m swapsize : ℕ} (hm : 1 ≤ m ∧ m ≤ 2 ^ 20) (hswapsize : swapsize < 2 ^ 32)
    {garbage : ℕ → SimPage} {alg : ℤ} {start : Sim ℤ}
    (hstart : startSim fifo m swapsize garbage alg = .ok start) {trace : List Access}
    (haddr : ∀ a ∈ trace, a.vaddr < 2 ^ 36) :
    (∀ past a rest s walked, trace = past ++ a :: rest → replay fifo start past = .ok s →
      EvictCalled s a walked →
      ∃ frame s₂, fifoEvict walked = .ok (frame, s₂) ∧
        LoadedFirst fifo start past walked frame) ∧
    (swapsize + 31 < 2 ^ 32 → (pagesOf trace).card ≤ swapsize →
      ∃ s, replay fifo start trace = .ok s) := by
  have hsound := startSim_sound fifo_polite hswapsize hstart
  constructor
  · rintro past a rest s walked - hrun ⟨hwalk, -, hfull⟩
    have hs := hsound.replay fifo_polite hm.2 hrun
    obtain ⟨log, hlog⟩ := rotates_replay hm hswapsize hstart hrun
    obtain ⟨hview, hpriv⟩ := (walkPgdir_yields s a.vaddr).of_eq_ok hwalk
    have hle := hlog.full hs.memsize_eq hfull
    have hsize : walked.memsize = m := (congrArg View.memsize hview).trans hs.memsize_eq
    obtain ⟨frame, s₂, hevict, -⟩ := fifoEvict_lt walked (hsize.symm ▸ hm.1)
    obtain ⟨rfl, -⟩ := hlog.evict_eq hle hsize (congrArg Priv.alg hpriv) hevict
    exact ⟨_, s₂, hevict, (hlog.loadedFirst hm.1 hs hle).congr hview⟩
  · intro hwords hswap
    exact replay_completes fifo_polite hm.2 (startSim_ready fifo_polite hwords hstart) haddr hswap
      (fifo_serves hm hsound trace) (List.append_nil _).symm

/-- Two frames; the page loaded first is read again before it is evicted. -/
def rereadFirst : List Access :=
  [⟨'S', 0x1000⟩, ⟨'L', 0x2000⟩, ⟨'L', 0x1000⟩, ⟨'L', 0x3000⟩, ⟨'L', 0x1000⟩]

theorem fifo_oldest_load_two :
    ∃ start, startSim fifo 2 3 (fun _ => ⟨7#32, 7, 7#32⟩) 5 = .ok start ∧
      (∀ past a rest s walked, rereadFirst = past ++ a :: rest →
        replay fifo start past = .ok s → EvictCalled s a walked →
        ∃ frame s₂, fifoEvict walked = .ok (frame, s₂) ∧
          LoadedFirst fifo start past walked frame) ∧
      (3 + 31 < 2 ^ 32 → (pagesOf rereadFirst).card ≤ 3 →
        ∃ s, replay fifo start rereadFirst = .ok s) := by
  obtain ⟨start, hstart⟩ : ∃ start, startSim fifo 2 3 (fun _ => ⟨7#32, 7, 7#32⟩) 5 = .ok start :=
    ⟨_, rfl⟩
  exact ⟨start, hstart, fifo_oldest_load (by decide) (by decide) hstart (by decide)⟩

end KernelProgramming.Paging
