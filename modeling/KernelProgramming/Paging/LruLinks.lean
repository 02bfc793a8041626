import KernelProgramming.Paging.Inclusion

/-!
# The links of the list

`lru.c` relies on the frames being linked both ways, and on `NULL` at the two
ends.  What spoils the ends is its test for a new frame, which a frame alone on
the list passes as well: a reference puts that frame behind the tail, that is,
behind itself.
-/

namespace KernelProgramming.Paging

open FlagWord Runs LinkedChain DemandPaging

/-- `next` leads from the head to the frame. -/
def Sim.OnList (s : Sim LruList) (f : ℕ) : Prop :=
  ∃ head, s.alg.head = some head ∧
    Relation.ReflTransGen (fun i j => (s.coremap i).next = some j) head f

/-- The frames on the list are linked both ways, the other frames not at all. -/
structure Sim.ProperlyLinked (s : Sim LruList) : Prop where
  ends : (s.alg.head = none ∧ s.alg.tail = none) ∨ ∃ head tail, s.alg.head = some head ∧
    s.alg.tail = some tail ∧ (s.coremap head).previous = none ∧ (s.coremap tail).next = none
  back : ∀ f, s.OnList f → s.alg.tail ≠ some f →
    ∃ g, (s.coremap f).next = some g ∧ (s.coremap g).previous = some f
  off : ∀ f < s.memsize, ¬ s.OnList f →
    (s.coremap f).next = none ∧ (s.coremap f).previous = none
  loopless : ∀ f < s.memsize, (s.coremap f).next ≠ some f ∧ (s.coremap f).previous ≠ some f

/-- After every call of `lru_evict` and of `lru_ref` in a replay of the trace the frames are
properly linked. -/
def StaysLinked (start : Sim LruList) (trace : List Access) : Prop :=
  ∀ past a rest s, trace = past ++ a :: rest → replay lru start past = .ok s →
    (∀ walked frame s₂, EvictCalled s a walked → lruEvict walked = .ok (frame, s₂) →
      s₂.ProperlyLinked) ∧
    ∀ u v, translate lru s a.vaddr a.type = .ok u → lruRef u (ptePtr a.vaddr) = .ok v →
      v.ProperlyLinked

/-- The first two accesses are not to one page; with a single frame, no two in a row are. -/
def NeverLone (m : ℕ) (trace : List Access) : Prop :=
  ∀ past b a rest, trace = past ++ b :: a :: rest → past = [] ∨ m = 1 →
    ptePtr b.vaddr ≠ ptePtr a.vaddr

/-! ## The links and the list of frames -/

theorem Threaded.onList_iff {s : Sim LruList} {xs : List ℕ} (h : Threaded s.priv xs) {f : ℕ} :
    s.OnList f ↔ f ∈ xs := by
  have hhead : s.alg.head = xs.head? := h.head
  unfold Sim.OnList
  rw [hhead]
  cases xs with
  | nil => simp
  | cons x xs =>
      rw [← h.linked.reaches_iff]
      simp only [List.head?_cons, Option.some.injEq, exists_eq_left']
      rfl

theorem Threaded.properlyLinked {s : Sim LruList} {xs : List ℕ} (h : Threaded s.priv xs)
    (hfree : HeadFree s.priv) : s.ProperlyLinked where
  ends := by
    have hhead : s.alg.head = xs.head? := h.head
    have htail : s.alg.tail = xs.getLast? := h.tail
    cases hlast : xs.getLast? with
    | none =>
        obtain rfl := List.getLast?_eq_none_iff.mp hlast
        exact Or.inl ⟨hhead, htail⟩
    | some tail =>
        obtain ⟨head, hfirst⟩ : ∃ head, xs.head? = some head :=
          ⟨_, List.head?_eq_some_head (List.ne_nil_of_mem (List.mem_of_getLast? hlast))⟩
        exact Or.inr ⟨head, tail, hhead.trans hfirst, htail.trans hlast,
          hfree head (hhead.trans hfirst), h.linked.last tail hlast⟩
  back := by
    intro f hf htail
    obtain ⟨hlast, -⟩ | ⟨g, -, -, hnext, hprevious⟩ := h.linked.next_of_mem (h.onList_iff.mp hf)
    · exact absurd (h.tail.trans hlast) htail
    · exact ⟨g, hnext, hprevious⟩
  off := fun f _ hf => h.off_eq fun hmem => hf (h.onList_iff.mpr hmem)
  loopless := by
    intro f _
    by_cases hf : f ∈ xs
    · constructor
      · intro hloop
        obtain ⟨-, hnone⟩ | ⟨g, -, hne, hnext, -⟩ := h.linked.next_of_mem hf
        · cases hnone.symm.trans hloop
        · exact hne (Option.some.inj (hnext.symm.trans hloop))
      · intro hloop
        obtain hfirst | ⟨g, hne, hprevious⟩ := h.linked.previous_of_mem hf
        · cases (hfree f (h.head.trans hfirst)).symm.trans hloop
        · exact hne (Option.some.inj (hprevious.symm.trans hloop))
    · obtain ⟨hnext, hprevious⟩ := h.off_eq hf
      constructor
      · exact fun hloop => nomatch hnext.symm.trans hloop
      · exact fun hloop => nomatch hprevious.symm.trans hloop

theorem Sim.ProperlyLinked.headFree {s : Sim LruList} (h : s.ProperlyLinked) : HeadFree s.priv := by
  intro y hy
  obtain ⟨hnone, -⟩ | ⟨head, tail, hhead, -, hprevious, -⟩ := h.ends
  · cases hnone.symm.trans hy
  · obtain rfl := Option.some.inj (hhead.symm.trans hy)
    exact hprevious

/-! ## When a frame is alone -/

/-- The page accessed last is resident. -/
theorem KeepsNewest.last_mem {m : ℕ} {past : List Access} {b : Access} {s : Sim LruList}
    (h : KeepsNewest m (past ++ [b]) s) (hm : 1 ≤ m) : ptePtr b.vaddr ∈ s.view.residents := by
  have hseen : ptePtr b.vaddr ∈ pagesOf (past ++ [b]) := mem_pagesOf.mpr ⟨b, by simp, rfl⟩
  obtain ⟨p, hp⟩ : s.view.residents.Nonempty := by
    rw [← Finset.card_pos, h.card_eq]
    exact lt_min hm (Finset.card_pos.mpr ⟨_, hseen⟩)
  by_contra hnot
  have hlt := h.newer p hp _ hseen hnot
  have hle := lastAccess_le (past ++ [b]) p
  rw [lastAccess_append past b (ptePtr b.vaddr), if_pos rfl] at hlt
  rw [List.length_append, List.length_singleton] at hle
  omega

theorem Recency.length_eq {past : List Access} {s : Sim LruList} {xs : List ℕ}
    (h : Recency past s xs) (hs : s.view.Coherent) : xs.length = s.view.residents.card := by
  rw [hs.card_residents, ← List.toFinset_card_of_nodup h.threaded.linked.nodup]
  congr 1
  ext i
  rw [List.mem_toFinset, Finset.mem_filter, Finset.mem_range]
  exact h.mem_iff i

/-- After a lone repeat in the trace there is one page only. -/
theorem card_lone {m : ℕ} {past : List Access} {b : Access} {s : Sim LruList}
    (h : KeepsNewest m (past ++ [b]) s) (hm : 1 ≤ m) (hlone : past = [] ∨ m = 1) :
    s.view.residents.card = 1 := by
  have hpos : 0 < (pagesOf (past ++ [b])).card :=
    Finset.card_pos.mpr ⟨_, mem_pagesOf.mpr ⟨b, by simp, rfl⟩⟩
  rw [h.card_eq]
  rcases hlone with rfl | rfl
  · exact min_eq_right hm
  · exact min_eq_left hpos

/-- Such a trace does not access the only page that is resident. -/
theorem NeverLone.card_ne {m : ℕ} {trace past rest : List Access} {a : Access} {s : Sim LruList}
    (hlone : NeverLone m trace) (h : KeepsNewest m past s) (hm : 1 ≤ m)
    (htrace : trace = past ++ a :: rest) (hres : ptePtr a.vaddr ∈ s.view.residents) :
    s.view.residents.card ≠ 1 := by
  intro hcard
  rcases List.eq_nil_or_concat' past with rfl | ⟨init, b, rfl⟩
  · obtain ⟨c, hc, -⟩ := mem_pagesOf.mp (h.subset hres)
    exact absurd hc List.not_mem_nil
  have hba : ptePtr b.vaddr = ptePtr a.vaddr :=
    Finset.card_le_one.mp hcard.le _ (h.last_mem hm) _ hres
  have hrepeat : ¬ (init = [] ∨ m = 1) := fun hone =>
    hlone init b a rest (by simpa using htrace) hone hba
  obtain ⟨hinit, hm1⟩ := not_or.mp hrepeat
  -- with two frames or more all accesses so far were to this page
  have hseen : (pagesOf (init ++ [b])).card = 1 := by
    have hmin := h.card_eq
    rw [hcard] at hmin
    omega
  obtain ⟨c, l, rfl⟩ := List.exists_cons_of_ne_nil hinit
  obtain ⟨d, l', hl⟩ := List.exists_cons_of_ne_nil (List.concat_ne_nil b l)
  have hcd : ptePtr c.vaddr = ptePtr d.vaddr := by
    refine Finset.card_le_one.mp hseen.le _ (mem_pagesOf.mpr ⟨c, by simp, rfl⟩) _
      (mem_pagesOf.mpr ⟨d, ?_, rfl⟩)
    rw [List.cons_append, hl]
    simp
  refine hlone [] c d (l' ++ a :: rest) ?_ (Or.inl rfl) hcd
  rw [htrace, List.cons_append, hl]
  rfl

/-! ## Calls -/

/-- An access calls the algorithm once to refer to its page. -/
theorem accessMem_ref {σ : Type} {F : Functions σ} {s t : Sim σ} {a : Access}
    (h : accessMem F s a = .ok t) :
    ∃ u v, translate F s a.vaddr a.type = .ok u ∧ F.ref u (ptePtr a.vaddr) = .ok v ∧
      t.priv = v.priv := by
  obtain ⟨⟨frame, w⟩, hfind, huse⟩ := bind_eq_ok_iff.mp h
  obtain ⟨u, htrans, hrest⟩ := bind_eq_ok_iff.mp hfind
  obtain ⟨v, href, heq⟩ := bind_eq_ok_iff.mp hrest
  obtain ⟨-, rfl⟩ := Prod.mk.inj (Except.ok.inj heq)
  exact ⟨u, v, htrans, href, ((useFrame_yields v frame a).of_eq_ok huse).2.2⟩

section Calls

variable {m : ℕ} {past : List Access} {s u v : Sim LruList} {a : Access} {xs : List ℕ}

theorem Recency.properlyLinked_evict (h : Recency past s xs) (hs : Sound m s) (hm : 1 ≤ m)
    {walked s₂ : Sim LruList} {frame : ℕ} (hcall : EvictCalled s a walked)
    (hevict : lruEvict walked = .ok (frame, s₂)) : s₂.ProperlyLinked := by
  obtain ⟨hwalk, -, hfull⟩ := hcall
  have hsize : s.view.memsize = m := hs.memsize_eq
  have hview : walked.view = s.view := ((walkPgdir_yields s a.vaddr).of_eq_ok hwalk).1
  have hfull' : s.view.freeFrame = none := hfull
  obtain ⟨x, rest, s₃, rfl, hevict', hrest, hfree⟩ := (h.walked hwalk).evict
    (hview ▸ hs.coherent) (by rw [hview, hsize]; exact hm) (hview ▸ hfull')
  obtain ⟨-, rfl⟩ := Prod.mk.inj (Except.ok.inj (hevict.symm.trans hevict'))
  exact hrest.properlyLinked hfree

theorem Recency.properlyLinked_ref (h : Recency past s xs) (hs : Sound m s) (hm : 1 ≤ m)
    (hfree : HeadFree s.priv)
    (hlone : ptePtr a.vaddr ∈ s.view.residents → s.view.residents.card ≠ 1)
    (harr : Arrives lru s a.vaddr a.type u) (href : lruRef u (ptePtr a.vaddr) = .ok v) :
    v.ProperlyLinked := by
  have hsize : s.view.memsize = m := hs.memsize_eq
  obtain ⟨ys, hys⟩ := h.arrives hs.coherent (hsize ▸ hm) harr rfl
  obtain ⟨hthreaded, hkeeps⟩ := (hys.threaded.lruRef rfl).of_eq_ok href
  refine hthreaded.properlyLinked (hkeeps (fun hsingle => ?_) (hys.headFree hfree))
  obtain ⟨rfl, hvalid⟩ := hys.stayed (by rw [hsingle]; exact List.mem_singleton_self _)
  apply hlone ((hs.coherent.mem_residents _).mpr hvalid)
  rw [← h.length_eq hs.coherent, hsingle]
  rfl

/-- A reference to a frame alone on the list links it back to itself. -/
theorem Recency.not_properlyLinked_ref (h : Recency past s xs) (hs : Sound m s)
    (hfree : HeadFree s.priv) (hres : ptePtr a.vaddr ∈ s.view.residents)
    (hcard : s.view.residents.card = 1) (harr : Arrives lru s a.vaddr a.type u)
    (href : lruRef u (ptePtr a.vaddr) = .ok v) : ¬ v.ProperlyLinked := by
  have hvalid := (hs.coherent.mem_residents _).mp hres
  obtain ⟨x, rfl⟩ := List.length_eq_one_iff.mp ((h.length_eq hs.coherent).trans hcard)
  cases harr with
  | hit _ hview hpriv =>
      obtain ⟨hlt, huse, -⟩ := hs.coherent.resident_owner _ hvalid
      have hx : (s.view.page (ptePtr a.vaddr)).number = x :=
        List.mem_singleton.mp ((h.mem_iff _).mpr ⟨hlt, huse⟩)
      have hnum : (u.view.page (ptePtr a.vaddr)).number = x := by
        rw [hview]
        simpa [View.hit] using hx
      have hthreaded : Threaded u.priv [x] := hpriv ▸ h.threaded.setRef _
      have hself := ((hthreaded.lruRef_lone hnum).of_eq_ok href).2 (hpriv ▸ hfree)
      have hsize : v.view.memsize = s.view.memsize := by
        rw [(lruRef_view u _).of_eq_ok href, hview]
        rfl
      have hltv : x < v.view.memsize := by
        rw [hsize, ← hx]
        exact hlt
      exact fun hproper => (hproper.loopless x hltv).2 hself
  | fill _ hnot => exact absurd hvalid (by simp [hnot])
  | replace _ _ _ _ _ _ hnot => exact absurd hvalid (by simp [hnot])

end Calls

/-! ## Replays -/

section Replays

variable {m swapsize : ℕ} {garbage : ℕ → SimPage} {alg : LruList} {start : Sim LruList}
  {trace : List Access}

theorem NeverLone.headFree (hlone : NeverLone m trace) (hm : 1 ≤ m ∧ m ≤ 2 ^ 20)
    (hswapsize : swapsize < 2 ^ 32) (hstart : startSim lru m swapsize garbage alg = .ok start)
    {past rest : List Access} (htrace : trace = past ++ rest) {s : Sim LruList}
    (hrun : replay lru start past = .ok s) : HeadFree s.priv := by
  have hsound := startSim_sound lru_polite hswapsize hstart
  refine @run_invariant _ _ _ _ (fun _ s => HeadFree s.priv) _ _ _ ?_ ?_ hrun
  · intro y hy
    have hnone : start.alg.head = none := (recency_start hstart).threaded.head
    cases hnone.symm.trans hy
  · intro before a after t w hpast hbefore hfree hacc
    have ht := hsound.replay lru_polite hm.2 hbefore
    obtain ⟨xs, hxs⟩ := recency_replay hm hswapsize hstart hbefore
    have hnewest := keepsNewest_replay hm hswapsize hstart hbefore
    obtain ⟨-, u, v, hacc'⟩ := ht.accessMem_ok lru_polite hm.2 hacc
    have hsplit : trace = before ++ a :: (after ++ rest) := by simp [htrace, hpast]
    have hproper := hxs.properlyLinked_ref ht hm.1 hfree
      (hlone.card_ne hnewest hm.1 hsplit) hacc'.arrives hacc'.ref_eq
    rw [hacc'.priv_eq]
    exact hproper.headFree

theorem NeverLone.staysLinked (hlone : NeverLone m trace) (hm : 1 ≤ m ∧ m ≤ 2 ^ 20)
    (hswapsize : swapsize < 2 ^ 32) (hstart : startSim lru m swapsize garbage alg = .ok start) :
    StaysLinked start trace := by
  intro past a rest s htrace hrun
  have hs := (startSim_sound lru_polite hswapsize hstart).replay lru_polite hm.2 hrun
  have hsize : s.memsize = m := hs.memsize_eq
  obtain ⟨xs, hxs⟩ := recency_replay hm hswapsize hstart hrun
  have hnewest := keepsNewest_replay hm hswapsize hstart hrun
  refine ⟨fun walked frame s₂ hcall hevict => hxs.properlyLinked_evict hs hm.1 hcall hevict,
    fun u v htrans href => ?_⟩
  have harr := (translate_yields lru_polite s a.vaddr a.type hs.coherent.noOnswap
    (hsize ▸ hm.2)).of_eq_ok htrans
  exact hxs.properlyLinked_ref hs hm.1 (hlone.headFree hm hswapsize hstart htrace hrun)
    (hlone.card_ne hnewest hm.1 htrace) harr href

theorem lru_completes (hm : 1 ≤ m ∧ m ≤ 2 ^ 20) (hwords : swapsize + 31 < 2 ^ 32)
    (hstart : startSim lru m swapsize garbage alg = .ok start)
    (haddr : ∀ a ∈ trace, a.vaddr < 2 ^ 36) (hswap : (pagesOf trace).card ≤ swapsize)
    {past rest : List Access} (htrace : trace = past ++ rest) :
    ∃ s, replay lru start past = .ok s :=
  replay_completes lru_polite hm.2 (startSim_ready lru_polite hwords hstart) haddr hswap
    (lru_serves hm (by omega) hstart trace) htrace

theorem StaysLinked.neverLone (h : StaysLinked start trace) (hm : 1 ≤ m ∧ m ≤ 2 ^ 20)
    (hwords : swapsize + 31 < 2 ^ 32) (hstart : startSim lru m swapsize garbage alg = .ok start)
    (haddr : ∀ a ∈ trace, a.vaddr < 2 ^ 36) (hswap : (pagesOf trace).card ≤ swapsize) :
    NeverLone m trace := by
  intro past b a rest htrace hone hba
  have hswapsize : swapsize < 2 ^ 32 := by omega
  have hsplit : trace = (past ++ [b]) ++ a :: rest := by simp [htrace]
  have htwice : trace = (past ++ [b] ++ [a]) ++ rest := by simp [htrace]
  obtain ⟨w, hw⟩ := lru_completes hm hwords hstart haddr hswap htwice
  obtain ⟨s, hrun, hacc⟩ := foldlM_concat_ok_iff.mp hw
  obtain ⟨r, hbefore, hfirst⟩ := foldlM_concat_ok_iff.mp hrun
  have hs := (startSim_sound lru_polite hswapsize hstart).replay lru_polite hm.2 hrun
  have hsize : s.memsize = m := hs.memsize_eq
  obtain ⟨xs, hxs⟩ := recency_replay hm hswapsize hstart hrun
  have hnewest := keepsNewest_replay hm hswapsize hstart hrun
  -- the first of the two references leaves both links of the frame `NULL`
  have hfree : HeadFree s.priv := by
    obtain ⟨u, v, htrans, href, hpriv⟩ := accessMem_ref hfirst
    rw [hpriv]
    exact ((h past b (a :: rest) r htrace hbefore).2 u v htrans href).headFree
  obtain ⟨u, v, htrans, href, -⟩ := accessMem_ref hacc
  have harr := (translate_yields lru_polite s a.vaddr a.type hs.coherent.noOnswap
    (hsize ▸ hm.2)).of_eq_ok htrans
  have hproper := (h (past ++ [b]) a rest s hsplit hrun).2 u v htrans href
  exact hxs.not_properlyLinked_ref hs hfree (hba ▸ hnewest.last_mem hm.1)
    (card_lone hnewest hm.1 hone) harr href hproper

/-- With enough swap the replay reaches its end, and the list stays a proper doubly linked list if
and only if no page is accessed twice in a row while its frame is the only one on the list. -/
theorem lru_staysLinked_iff (hm : 1 ≤ m ∧ m ≤ 2 ^ 20) (hwords : swapsize + 31 < 2 ^ 32)
    (hstart : startSim lru m swapsize garbage alg = .ok start)
    (haddr : ∀ a ∈ trace, a.vaddr < 2 ^ 36) (hswap : (pagesOf trace).card ≤ swapsize) :
    (StaysLinked start trace ↔ NeverLone m trace) ∧ ∃ s, replay lru start trace = .ok s := by
  refine ⟨⟨fun hstays => ?_, fun hlone => ?_⟩, ?_⟩
  · exact hstays.neverLone hm hwords hstart haddr hswap
  · exact hlone.staysLinked hm (by omega) hstart
  · exact lru_completes hm hwords hstart haddr hswap (List.append_nil _).symm

end Replays

theorem lru_staysLinked_iff_two :
    ∃ start, startSim lru 2 3 (fun _ => ⟨7#32, 7, 7#32⟩) ⟨some 5, none⟩ = .ok start ∧
      (StaysLinked start twoPages ↔ NeverLone 2 twoPages) ∧
      ∃ s, replay lru start twoPages = .ok s := by
  obtain ⟨start, hstart⟩ :
      ∃ start, startSim lru 2 3 (fun _ => ⟨7#32, 7, 7#32⟩) ⟨some 5, none⟩ = .ok start := ⟨_, rfl⟩
  exact ⟨start, hstart, lru_staysLinked_iff (by decide) (by decide) hstart (by decide) (by decide)⟩

/-- Two frames; the first page is accessed twice before there is another. -/
theorem lru_not_staysLinked :
    ¬ ∀ start, startSim lru 2 3 (fun _ => ⟨7#32, 7, 7#32⟩) ⟨some 5, none⟩ = .ok start →
      StaysLinked start [⟨'L', 0x1000⟩, ⟨'L', 0x1008⟩] := by
  intro hall
  obtain ⟨start, hstart⟩ :
      ∃ start, startSim lru 2 3 (fun _ => ⟨7#32, 7, 7#32⟩) ⟨some 5, none⟩ = .ok start := ⟨_, rfl⟩
  have hlone := (hall start hstart).neverLone (by decide) (by decide) hstart (by decide) (by decide)
  exact hlone [] ⟨'L', 0x1000⟩ ⟨'L', 0x1008⟩ [] rfl (Or.inl rfl) (by decide)

end KernelProgramming.Paging
