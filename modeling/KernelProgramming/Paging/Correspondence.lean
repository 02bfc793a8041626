import KernelProgramming.Paging.Fifo

/-!
# The core map and the page tables are inverse to each other

Every frame in use is named by exactly one valid page table entry, the one it
points back to.  The invariant is proved for the three moves of the pager and
then carried through a whole replay under an arbitrary replacement algorithm.
-/

namespace KernelProgramming.Paging

open FlagWord Runs

namespace View

/-- Frames in use and valid entries correspond, and nothing is marked as on
swap. -/
structure Coherent (v : View) : Prop where
  noOnswap : v.NoOnswap
  owner_resident : ∀ i < v.memsize, v.inUse i = true →
    ∃ p, v.owner i = some p ∧ (v.page p).valid = true ∧ (v.page p).number = i
  resident_owner : ∀ p, (v.page p).valid = true → (v.page p).number < v.memsize ∧
    v.inUse (v.page p).number = true ∧ v.owner (v.page p).number = some p

/-- A bitmap on which `bitmap_alloc` never fails an assertion: it is well
formed, or so large that the number of its words wrapped to zero. -/
def SaneBitmap (b : Bitmap) : Prop := b.WellFormed ∨ divRoundUp b.nbits bitsPerWord = 0

/-- Offsets handed out so far can be passed to `lseek`. -/
structure SaneSwap (v : View) : Prop where
  bitmap : SaneBitmap v.swapmap
  offset : ∀ p, (v.page p).swapOff = invalidSwap ∨ 0 ≤ (v.page p).swapOff

theorem Coherent.number_inj {v : View} (h : v.Coherent) {p q : PtePtr}
    (hp : (v.page p).valid = true) (hq : (v.page q).valid = true)
    (heq : (v.page p).number = (v.page q).number) : p = q := by
  have hp' := (h.resident_owner p hp).2.2
  have hq' := (h.resident_owner q hq).2.2
  rw [heq, hq'] at hp'
  exact (Option.some.inj hp').symm

/-! ## The moves keep the correspondence -/

theorem Coherent.hit {v : View} (h : v.Coherent) : v.hit.Coherent :=
  ⟨h.noOnswap, h.owner_resident, h.resident_owner⟩

theorem Coherent.store {v : View} (h : v.Coherent) (frame : ℕ) (a : Access) :
    (v.store frame a).Coherent :=
  ⟨h.noOnswap, h.owner_resident, h.resident_owner⟩

@[simp] theorem page_touch (v : View) (p q : PtePtr) (type : Char) :
    (v.touch p type).page q =
      if q = p then { v.page p with valid := true, dirty := (v.page p).dirty || isWrite type }
      else v.page q := by
  simp only [touch, setPageView, Function.update_apply]

@[simp] theorem memsize_touch (v : View) (p : PtePtr) (type : Char) :
    (v.touch p type).memsize = v.memsize := rfl

@[simp] theorem inUse_touch (v : View) (p : PtePtr) (type : Char) :
    (v.touch p type).inUse = v.inUse := rfl

@[simp] theorem owner_touch (v : View) (p : PtePtr) (type : Char) :
    (v.touch p type).owner = v.owner := rfl

theorem Coherent.touch_resident {v : View} (h : v.Coherent) {p : PtePtr}
    (hp : (v.page p).valid = true) (type : Char) : (v.touch p type).Coherent where
  noOnswap := by
    intro q
    have hq := h.noOnswap q
    by_cases hqp : q = p
    · subst hqp
      simpa using hq
    · simpa [hqp] using hq
  owner_resident := by
    intro i hi huse
    obtain ⟨q, hq, hvalid, hnum⟩ := h.owner_resident i hi huse
    refine ⟨q, hq, ?_, ?_⟩
    · by_cases hqp : q = p <;> simp [hqp, hvalid]
    · by_cases hqp : q = p
      · subst hqp
        simpa using hnum
      · simpa [hqp] using hnum
  resident_owner := by
    intro q hq
    by_cases hqp : q = p
    · subst hqp
      simpa using h.resident_owner q hp
    · simpa [hqp] using h.resident_owner q (by simpa [hqp] using hq)

/-- The state in which no page is left in `frame`: coherent but for the
bookkeeping of that one frame. -/
structure Vacant (v : View) (frame : ℕ) : Prop where
  noOnswap : v.NoOnswap
  lt : frame < v.memsize
  owner_resident : ∀ i < v.memsize, i ≠ frame → v.inUse i = true →
    ∃ p, v.owner i = some p ∧ (v.page p).valid = true ∧ (v.page p).number = i
  resident_owner : ∀ p, (v.page p).valid = true → (v.page p).number < v.memsize ∧
    (v.page p).number ≠ frame ∧
    v.inUse (v.page p).number = true ∧ v.owner (v.page p).number = some p

theorem Coherent.vacant_of_free {v : View} (h : v.Coherent) {frame : ℕ}
    (hfree : v.freeFrame = some frame) : v.Vacant frame := by
  obtain ⟨hlt, hunused, -⟩ := freeFrame_eq_some_iff.mp hfree
  refine ⟨h.noOnswap, hlt, fun i hi _ => h.owner_resident i hi, fun p hp => ?_⟩
  obtain ⟨hnum, huse, howner⟩ := h.resident_owner p hp
  refine ⟨hnum, ?_, huse, howner⟩
  rintro rfl
  rw [hunused] at huse
  exact Bool.false_ne_true huse

theorem page_unload (v : View) (frame : ℕ) (victim : PtePtr) (off : ℤ) (swapmap : Bitmap)
    (q : PtePtr) : (v.unload frame victim off swapmap).page q =
      if q = victim then { v.page victim with valid := false, dirty := false, swapOff := off }
      else v.page q := by
  simp only [unload, setPageView, writeOut, Function.update_apply]

theorem Coherent.unload {v : View} (h : v.Coherent) {frame : ℕ} {victim : PtePtr}
    (hframe : frame < v.memsize) (howner : v.owner frame = some victim)
    (hfull : v.freeFrame = none) (off : ℤ) (swapmap : Bitmap) :
    (v.unload frame victim off swapmap).Vacant frame := by
  have huse := freeFrame_eq_none_iff.mp hfull frame hframe
  obtain ⟨p, hp, -, hpnum⟩ := h.owner_resident frame hframe huse
  have hpv : p = victim := Option.some.inj (hp.symm.trans howner)
  subst hpv
  refine ⟨?_, hframe, ?_, ?_⟩
  · intro q
    have hq := h.noOnswap q
    by_cases hqv : q = p
    · subst hqv
      simpa [page_unload] using hq
    · simpa [page_unload, hqv] using hq
  · intro i hi hne hiuse
    obtain ⟨q, hq, hqvalid, hqnum⟩ := h.owner_resident i hi hiuse
    have hqp : q ≠ p := by
      rintro rfl
      exact hne (hqnum.symm.trans hpnum)
    exact ⟨q, hq, by simpa [page_unload, hqp] using hqvalid,
      by simpa [page_unload, hqp] using hqnum⟩
  · intro q hq
    have hqp : q ≠ p := by
      rintro rfl
      simp [page_unload] at hq
    have hqvalid : (v.page q).valid = true := by simpa [page_unload, hqp] using hq
    obtain ⟨hlt, hquse, hqowner⟩ := h.resident_owner q hqvalid
    simp only [page_unload, if_neg hqp]
    refine ⟨hlt, ?_, hquse, hqowner⟩
    intro hnum
    rw [hnum, howner] at hqowner
    exact hqp (Option.some.inj hqowner).symm

/-- Loading a page into the vacant frame and touching it restores the
correspondence. -/
theorem Vacant.load_touch {v : View} {frame : ℕ} (h : v.Vacant frame) {p : PtePtr}
    (hp : (v.page p).valid = false) (vaddr : ℕ) (type : Char) :
    ((v.load p frame vaddr).touch p type).Coherent where
  noOnswap := by
    intro q
    by_cases hqp : q = p
    · subst hqp
      simp [load]
    · simpa [load, hqp] using h.noOnswap q
  owner_resident := by
    intro i hi huse
    by_cases hif : i = frame
    · subst hif
      exact ⟨p, by simp [touch, setPageView, load], by simp, by simp [load]⟩
    · have huse' : v.inUse i = true := by
        simpa [touch, setPageView, load, hif] using huse
      obtain ⟨q, hq, hqvalid, hqnum⟩ := h.owner_resident i hi hif huse'
      have hqp : q ≠ p := by
        rintro rfl
        rw [hp] at hqvalid
        exact Bool.false_ne_true hqvalid
      exact ⟨q, by simpa [touch, setPageView, load, hif] using hq,
        by simpa [load, hqp] using hqvalid, by simpa [load, hqp] using hqnum⟩
  resident_owner := by
    intro q hq
    by_cases hqp : q = p
    · subst hqp
      simpa [touch, setPageView, load] using h.lt
    · have hqvalid : (v.page q).valid = true := by simpa [load, hqp] using hq
      obtain ⟨hlt, hne, hquse, hqowner⟩ := h.resident_owner q hqvalid
      simp only [page_touch, if_neg hqp]
      simpa [touch, setPageView, load, hqp, hne] using ⟨hlt, hquse, hqowner⟩

end View

/-! ## Runs of the simulator -/

variable {σ : Type} {F : Functions σ}

theorem view_init_boot (hF : F.Polite) (m : ℕ) (garbage : ℕ → SimPage) (swapmap : Bitmap) (alg : σ) :
    (F.init (bootSim m garbage swapmap alg)).view = (bootSim m garbage swapmap alg).view :=
  hF.init_view _

theorem page_boot (m : ℕ) (garbage : ℕ → SimPage) (swapmap : Bitmap) (alg : σ) (p : PtePtr) :
    (bootSim m garbage swapmap alg).view.page p = ⟨false, false, false, 0, invalidSwap⟩ := by
  change freshEntry.view = _
  simp [freshEntry, PgtblEntry.view, hasFlag, number]

theorem coherent_boot (m : ℕ) (garbage : ℕ → SimPage) (swapmap : Bitmap) (alg : σ) :
    (bootSim m garbage swapmap alg).view.Coherent where
  noOnswap := fun p => by rw [page_boot]
  owner_resident := fun _ _ h => (Bool.false_ne_true h).elim
  resident_owner := fun p h => by simp [page_boot] at h

/-- An arrival leads from a coherent state to a coherent one in which the
page is resident. -/
theorem Arrives.coherent {s t : Sim σ} {vaddr : ℕ} {type : Char}
    (h : Arrives F s vaddr type t) (hs : s.view.Coherent) :
    t.view.Coherent ∧ t.view.memsize = s.view.memsize ∧
      (t.view.page (ptePtr vaddr)).valid = true := by
  cases h with
  | hit hvalid hview =>
      rw [hview]
      exact ⟨hs.hit.touch_resident hvalid type, rfl, by simp⟩
  | fill frame hvalid hfree hview =>
      rw [hview]
      exact ⟨(hs.vacant_of_free hfree).load_touch hvalid vaddr type, rfl, by simp⟩
  | replace walked s₂ frame victim off swapmap hvalid hfull hwalk hevict hframe howner hslot hoff
      hview =>
      rw [hview]
      have hvacant := hs.unload hframe howner hfull off swapmap
      have hvalid' : ((s.view.unload frame victim off swapmap).page (ptePtr vaddr)).valid =
          false := by
        rw [View.page_unload]
        split
        · rfl
        · exact hvalid
      exact ⟨hvacant.load_touch hvalid' vaddr type, rfl, by simp⟩

/-! ### Swap never fails an assertion -/

theorem bitmapAlloc_sane {b : Bitmap} (hb : View.SaneBitmap b) :
    bitmapAlloc b = .ok none ∨
      ∃ index b', bitmapAlloc b = .ok (some (index, b')) ∧ View.SaneBitmap b' := by
  rcases hb with hb | hzero
  · by_cases hfree : ∃ i < b.nbits, b.bit i = false
    · obtain ⟨index, b', halloc, -, -, -, hb', -⟩ := hb.bitmapAlloc_of_free hfree
      exact Or.inr ⟨index, b', halloc, Or.inl hb'⟩
    · refine Or.inl (hb.bitmapAlloc_of_full fun i hi => ?_)
      by_contra hbit
      exact hfree ⟨i, hi, by simpa using hbit⟩
  · left
    simp [bitmapAlloc, hzero]

theorem bitmapCreate_sane {nbits : ℕ} (hn : nbits < 2 ^ 32) :
    ∃ b, bitmapCreate nbits = .ok b ∧ View.SaneBitmap b := by
  by_cases hsmall : nbits + 31 < 2 ^ 32
  · obtain ⟨b, hb, hwf, -⟩ := Bitmap.bitmapCreate_spec hsmall
    exact ⟨b, hb, Or.inl hwf⟩
  · have hzero : divRoundUp nbits bitsPerWord = 0 := by
      rw [divRoundUp, bitsPerWord]
      omega
    refine ⟨⟨nbits, []⟩, ?_, Or.inr hzero⟩
    simp [bitmapCreate, hzero]

/-- A multiple of the page size is never taken for `INVALID_SWAP`. -/
theorem intOfUnsigned_ne_invalidSwap (idx : ℕ) :
    intOfUnsigned (idx * simpagesize) ≠ invalidSwap := by
  intro h
  rw [intOfUnsigned, invalidSwap, BitVec.toInt_eq_toNat_cond, simpagesize,
    BitVec.toNat_ofNat] at h
  split at h <;> omega

theorem View.SaneSwap.slotFor {v : View} (h : v.SaneSwap) {p : PtePtr} {off : ℤ} {swapmap : Bitmap}
    (hslot : v.SlotFor p off swapmap) : off ≠ invalidSwap ∧ View.SaneBitmap swapmap := by
  rcases hslot with ⟨hne, rfl, rfl⟩ | ⟨-, idx, halloc, rfl⟩
  · exact ⟨hne, h.bitmap⟩
  · refine ⟨intOfUnsigned_ne_invalidSwap idx, ?_⟩
    rcases bitmapAlloc_sane h.bitmap with hnone | ⟨index, b', hsome, hb'⟩
    · simp [hnone] at halloc
    · rw [hsome] at halloc
      simp only [Except.ok.injEq, Option.some.injEq, Prod.mk.injEq] at halloc
      exact halloc.2 ▸ hb'

theorem View.SaneSwap.halts_exit {v : View} (h : v.SaneSwap) {p : PtePtr} {e : Halt}
    (hhalts : v.SwapHalts p e) : e = .exit := by
  rcases hhalts with ⟨-, herr⟩ | ⟨-, -, rfl⟩ | ⟨off, swapmap, hslot, ⟨rfl, -⟩ | ⟨-, rfl⟩⟩
  · rcases bitmapAlloc_sane h.bitmap with hnone | ⟨index, b', hsome, -⟩
    · simp [hnone] at herr
    · simp [hsome] at herr
  · rfl
  · exact ((h.slotFor hslot).1 rfl).elim
  · rfl

theorem Arrives.saneSwap {s t : Sim σ} {vaddr : ℕ} {type : Char}
    (h : Arrives F s vaddr type t) (hs : s.view.SaneSwap) : t.view.SaneSwap := by
  cases h with
  | hit hvalid hview =>
      rw [hview]
      refine ⟨hs.bitmap, fun p => ?_⟩
      have hp := hs.offset p
      by_cases hpq : p = ptePtr vaddr
      · subst hpq
        simpa [View.hit] using hp
      · simpa [View.hit, hpq] using hp
  | fill frame hvalid hfree hview =>
      rw [hview]
      refine ⟨hs.bitmap, fun p => ?_⟩
      have hp := hs.offset p
      by_cases hpq : p = ptePtr vaddr
      · subst hpq
        simpa [View.load] using hp
      · simpa [View.load, hpq] using hp
  | replace walked s₂ frame victim off swapmap hvalid hfull hwalk hevict hframe howner hslot hoff
      hview =>
      rw [hview]
      refine ⟨(hs.slotFor hslot).2, fun p => ?_⟩
      have hp := hs.offset p
      have hunload : ((s.view.unload frame victim off swapmap).page p).swapOff = invalidSwap ∨
          0 ≤ ((s.view.unload frame victim off swapmap).page p).swapOff := by
        rw [View.page_unload]
        split
        · exact Or.inr hoff
        · exact hp
      by_cases hpq : p = ptePtr vaddr
      · subst hpq
        simpa [View.load] using hunload
      · simpa [View.load, hpq] using hunload

/-! ### Algorithms that serve a trace -/

/-- What holds between two accesses of a replay. -/
structure Sound (m : ℕ) (s : Sim σ) : Prop where
  coherent : s.view.Coherent
  saneSwap : s.view.SaneSwap
  memsize_eq : s.memsize = m

theorem pgdirIndex_lt {vaddr : ℕ} (h : vaddr < 2 ^ 36) : pgdirIndex vaddr < ptrsPerPgdir := by
  rw [pgdirIndex, pgdirShift, ptrsPerPgdir, Nat.shiftRight_eq_div_pow]
  omega

/-- `find_physpage` leads from a sound state to a sound one, if it returns. -/
theorem Sound.findPhyspage_yields {m : ℕ} {s : Sim σ} (hs : Sound m s) (hF : F.Polite)
    (hm : m ≤ 2 ^ 20) (vaddr : ℕ) (type : Char) :
    Yields (findPhyspage F s vaddr type)
      (fun r => Sound m r.2 ∧ r.1 < m ∧ ∃ t, Arrives F s vaddr type t ∧
        F.ref t (ptePtr vaddr) = .ok r.2 ∧ r.2.view = t.view ∧
        r.1 = (t.view.page (ptePtr vaddr)).number)
      (fun e => TranslationHalts F s vaddr e ∨
        ∃ t, translate F s vaddr type = .ok t ∧ F.ref t (ptePtr vaddr) = .error e) := by
  have hm' : s.memsize ≤ 2 ^ 20 := hs.memsize_eq ▸ hm
  refine (Paging.findPhyspage_yields hF s vaddr type hs.coherent.noOnswap hm').mono ?_
    fun _ h => h
  rintro ⟨frame, u⟩ ⟨t, -, harr, hrefEq, hview, hnum⟩
  obtain ⟨hcoh, hmem, hvalid⟩ := harr.coherent hs.coherent
  have hsane := harr.saneSwap hs.saneSwap
  simp only at hrefEq hview hnum
  have hmem' : t.view.memsize = m := hmem.trans hs.memsize_eq
  refine ⟨⟨hview ▸ hcoh, hview ▸ hsane, ?_⟩, ?_, t, harr, hrefEq, hview, hnum⟩
  · exact (congrArg View.memsize hview).trans hmem'
  · rw [hnum, ← hmem']
    exact (hcoh.resident_owner _ hvalid).1

theorem View.SaneSwap.store {v : View} (h : v.SaneSwap) (frame : ℕ) (a : Access) :
    (v.store frame a).SaneSwap :=
  ⟨h.bitmap, h.offset⟩

theorem Sound.useFrame {m frame : ℕ} {s : Sim σ} (hs : Sound m s) (hframe : frame < m)
    (a : Access) :
    Yields (useFrame s frame a)
      (fun t => Sound m t ∧ t.view = s.view.store frame a ∧ t.priv = s.priv) fun _ => False := by
  apply (useFrame_yields s frame a).mono
  · rintro t ⟨-, hview, hpriv⟩
    refine ⟨⟨?_, ?_, ?_⟩, hview, hpriv⟩
    · rw [hview]
      exact hs.coherent.store frame a
    · rw [hview]
      exact hs.saneSwap.store frame a
    · exact (congrArg View.memsize hview).trans hs.memsize_eq
  · rintro e ⟨-, hge⟩
    rw [hs.memsize_eq] at hge
    exact absurd hframe (Nat.not_lt.mpr hge)

/-- One access, in terms of the arrival of its page. -/
structure Accessed (F : Functions σ) (s : Sim σ) (a : Access) (u v t : Sim σ) : Prop where
  arrives : Arrives F s a.vaddr a.type u
  ref_eq : F.ref u (ptePtr a.vaddr) = .ok v
  view_eq : t.view = u.view.store (u.view.page (ptePtr a.vaddr)).number a
  priv_eq : t.priv = v.priv

theorem Sound.accessMem_yields {m : ℕ} {s : Sim σ} (hs : Sound m s) (hF : F.Polite)
    (hm : m ≤ 2 ^ 20) (a : Access) :
    Yields (accessMem F s a) (fun t => Sound m t ∧ ∃ u v, Accessed F s a u v t)
      (fun e => TranslationHalts F s a.vaddr e ∨
        ∃ t, translate F s a.vaddr a.type = .ok t ∧ F.ref t (ptePtr a.vaddr) = .error e) := by
  unfold accessMem
  apply (hs.findPhyspage_yields hF hm a.vaddr a.type).bind
  rintro ⟨frame, v⟩ ⟨hv, hframe, u, harr, href, hview, hnum⟩
  refine (hv.useFrame hframe a).mono ?_ fun _ h => h.elim
  rintro t ⟨ht, htview, htpriv⟩
  exact ⟨ht, u, v, harr, href, by rw [htview, ← hnum, ← hview], htpriv⟩

theorem Sound.accessMem_ok {m : ℕ} {s t : Sim σ} (hs : Sound m s) (hF : F.Polite)
    (hm : m ≤ 2 ^ 20) {a : Access} (h : accessMem F s a = .ok t) :
    Sound m t ∧ ∃ u v, Accessed F s a u v t :=
  (hs.accessMem_yields hF hm a).of_eq_ok h

/-- A frame offered by the algorithm is put to use, unless swap is exhausted. -/
theorem Sound.halts_exit {m : ℕ} {s : Sim σ} (hs : Sound m s) {vaddr : ℕ}
    (haddr : vaddr < 2 ^ 36)
    (hevict : ∀ walked, walkPgdir s vaddr = .ok walked →
      hasFlag (s.pte (ptePtr vaddr)).frame pgValid = false → freeFrame s = none →
      ∃ frame s₂, F.evict walked = .ok (frame, s₂) ∧ frame < s.memsize)
    {e : Halt} (hhalts : TranslationHalts F s vaddr e) :
    e = .exit ∧ ∃ victim, (s.view.page victim).valid = true ∧ s.view.SwapHalts victim e := by
  rcases hhalts with ⟨-, hidx⟩ | ⟨hinvalid, walked, hwalk, hwview, hfull, hcases⟩
  · exact absurd (pgdirIndex_lt haddr) (Nat.not_lt.mpr hidx)
  · rw [hwview] at hfull
    obtain ⟨frame, s₂, hok, hlt⟩ := hevict walked hwalk hinvalid hfull
    have hwmem : walked.memsize = s.memsize := congrArg View.memsize hwview
    rcases hcases with herr | ⟨frame', s₂', hok', hcases⟩
    · rw [hok] at herr
      cases herr
    · rw [hok] at hok'
      obtain ⟨rfl, rfl⟩ := Prod.mk.inj (Except.ok.inj hok')
      have huse := View.freeFrame_eq_none_iff.mp hfull frame hlt
      obtain ⟨p, howner, hpvalid, -⟩ := hs.coherent.owner_resident frame hlt huse
      rw [hwview] at hcases
      rcases hcases with ⟨-, hge | hnone⟩ | ⟨victim, hvictim, hhalts⟩
      · rw [hwmem] at hge
        exact absurd hlt (Nat.not_lt.mpr hge)
      · rw [hnone] at howner
        cases howner
      · rw [howner] at hvictim
        obtain rfl := Option.some.inj hvictim
        exact ⟨hs.saneSwap.halts_exit hhalts, p, hpvalid, hhalts⟩

theorem startSim_sound (hF : F.Polite) {m swapsize : ℕ} (hswap : swapsize < 2 ^ 32)
    {garbage : ℕ → SimPage} {alg : σ} {start : Sim σ}
    (hstart : startSim F m swapsize garbage alg = .ok start) : Sound m start := by
  obtain ⟨b, hb, hbitmap⟩ := bitmapCreate_sane hswap
  simp only [startSim, hb] at hstart
  have heq : start = F.init (bootSim m garbage b alg) := (Except.ok.inj hstart).symm
  have hview : start.view = (bootSim m garbage b alg).view := by
    rw [heq]
    exact hF.init_view _
  refine ⟨?_, ⟨?_, ?_⟩, congrArg View.memsize hview⟩
  · rw [hview]
    exact coherent_boot m garbage b alg
  · rw [hview]
    exact hbitmap
  · intro p
    left
    rw [hview, page_boot]

theorem Sound.replay {m : ℕ} {start s : Sim σ} (hstart : Sound m start) (hF : F.Polite)
    (hm : m ≤ 2 ^ 20) {past : List Access} (hrun : replay F start past = .ok s) : Sound m s := by
  have hall : Yields (Paging.replay F start past) (Sound m) fun _ => True := by
    apply run_keeps past hstart
    intro before a after t _ _ ht
    exact (ht.accessMem_yields hF hm a).mono (fun _ h => h.1) fun _ _ => trivial
  exact hall.of_eq_ok hrun

/-- Under an algorithm that serves the trace, a replay ends by `exit(1)` or
not at all before the end of the trace. -/
theorem replay_yields (hF : F.Polite) {m : ℕ} (hm : m ≤ 2 ^ 20) {start : Sim σ}
    (hstart : Sound m start) {trace : List Access} (haddr : ∀ a ∈ trace, a.vaddr < 2 ^ 36)
    (hserves : F.Serves start trace) {past rest : List Access} (htrace : trace = past ++ rest) :
    Yields (replay F start past) (Sound m) (fun e => e = .exit) := by
  apply run_keeps past hstart
  intro before a after s hpast hrun hs
  have hsplit : trace = before ++ a :: (after ++ rest) := by simp [htrace, hpast]
  have ha : a.vaddr < 2 ^ 36 := haddr a (by simp [hsplit])
  apply (hs.accessMem_yields hF hm a).mono (fun _ h => h.1)
  rintro e (hhalts | ⟨t, htrans, herr⟩)
  · exact (hs.halts_exit ha (fun walked => hserves.evict_below before a _ s walked hsplit hrun)
      hhalts).1
  · obtain ⟨u, hu⟩ := hserves.ref_returns before a _ s t hsplit hrun htrans
    rw [hu] at herr
    cases herr

/-- The core map and the page tables are inverse to each other. -/
def Sim.Inverse (s : Sim σ) : Prop :=
  (∀ i < s.memsize, (s.coremap i).inUse = true →
    ∃ p, (s.coremap i).pte = some p ∧ hasFlag (s.pte p).frame pgValid = true ∧
      number pageShift (s.pte p).frame = i) ∧
  ∀ p, hasFlag (s.pte p).frame pgValid = true →
    number pageShift (s.pte p).frame < s.memsize ∧
      (s.coremap (number pageShift (s.pte p).frame)).inUse = true ∧
      (s.coremap (number pageShift (s.pte p).frame)).pte = some p

/-- Two entries are the same exactly when their addresses lie in the same page. -/
theorem ptePtr_eq_iff {x y : ℕ} : ptePtr x = ptePtr y ↔ x / 4096 = y / 4096 := by
  simp only [ptePtr, PtePtr.mk.injEq, pgdirIndex, pgtblIndex, pgdirShift, pageShift, ptrsPerPgtbl,
    Nat.shiftRight_eq_div_pow]
  omega

/-- After every call of `find_physpage` the core map and the page tables are
inverse to each other, so that two distinct pages never share a frame. -/
theorem findPhyspage_inverse (hF : F.Polite) {m swapsize : ℕ} (hm : 1 ≤ m ∧ m ≤ 2 ^ 20)
    (hswap : swapsize < 2 ^ 32) {garbage : ℕ → SimPage} {alg : σ} {start : Sim σ}
    (hstart : startSim F m swapsize garbage alg = .ok start) {trace : List Access}
    (haddr : ∀ a ∈ trace, a.vaddr < 2 ^ 36) (hserves : F.Serves start trace) :
    ∀ past a rest, trace = past ++ a :: rest →
      Yields (replay F start past >>= fun s => findPhyspage F s a.vaddr a.type)
        (fun r => r.2.memsize = m ∧ r.2.Inverse ∧
          ∀ x y, hasFlag (r.2.pte (ptePtr x)).frame pgValid = true →
            hasFlag (r.2.pte (ptePtr y)).frame pgValid = true →
            number pageShift (r.2.pte (ptePtr x)).frame =
              number pageShift (r.2.pte (ptePtr y)).frame → x / 4096 = y / 4096)
        (fun e => e = .exit) := by
  intro past a rest htrace
  have hstart' := startSim_sound hF hswap hstart
  apply (replay_yields hF hm.2 hstart' haddr hserves htrace).and_eq.bind
  rintro s ⟨hrun, hs⟩
  apply (hs.findPhyspage_yields hF hm.2 a.vaddr a.type).mono
  swap
  · rintro e (hhalts | ⟨t, htrans, herr⟩)
    · exact (hs.halts_exit (haddr a (by simp [htrace]))
        (fun walked => hserves.evict_below past a rest s walked htrace hrun) hhalts).1
    · obtain ⟨u, hu⟩ := hserves.ref_returns past a rest s t htrace hrun htrans
      rw [hu] at herr
      cases herr
  rintro ⟨frame, u⟩ ⟨hu, -⟩
  refine ⟨hu.memsize_eq, ⟨hu.coherent.owner_resident, hu.coherent.resident_owner⟩, ?_⟩
  intro x y hx hy heq
  exact ptePtr_eq_iff.mp (hu.coherent.number_inj hx hy heq)

theorem fifo_serves {m : ℕ} (hm : 1 ≤ m ∧ m ≤ 2 ^ 20) {start : Sim ℤ} (hstart : Sound m start)
    (trace : List Access) : fifo.Serves start trace where
  evict_below := by
    intro past a rest s walked _ hrun hwalk _ _
    have hs := hstart.replay fifo_polite hm.2 hrun
    have hmem : walked.memsize = s.memsize :=
      congrArg View.memsize ((walkPgdir_yields s a.vaddr).of_eq_ok hwalk).1
    rw [← hmem]
    exact fifoEvict_lt walked (by rw [hmem, hs.memsize_eq]; exact hm.1)
  ref_returns := fun _ _ _ _ t _ _ _ => ⟨t, rfl⟩

theorem rand_serves {m : ℕ} (hm : 1 ≤ m ∧ m ≤ 2 ^ 20) {start : Sim (ℕ → ℕ)} (hstart : Sound m start)
    (trace : List Access) : rand.Serves start trace where
  evict_below := by
    intro past a rest s walked _ hrun hwalk _ _
    have hs := hstart.replay rand_polite hm.2 hrun
    have hmem : walked.memsize = s.memsize :=
      congrArg View.memsize ((walkPgdir_yields s a.vaddr).of_eq_ok hwalk).1
    refine ⟨_, _, rfl, ?_⟩
    rw [← hmem]
    exact Nat.mod_lt _ (by rw [hmem, hs.memsize_eq]; exact hm.1)
  ref_returns := fun _ _ _ _ t _ _ _ => ⟨t, rfl⟩

/-- One frame, two pages: the second access evicts the first page. -/
theorem findPhyspage_inverse_fifo :
    ∃ start, startSim fifo 1 2 (fun _ => ⟨7#32, 7, 7#32⟩) 5 = .ok start ∧
      Yields (replay fifo start [⟨'S', 0x1000⟩] >>= fun s => findPhyspage fifo s 0x2000 'L')
        (fun r => r.2.memsize = 1 ∧ r.2.Inverse ∧
          ∀ x y, hasFlag (r.2.pte (ptePtr x)).frame pgValid = true →
            hasFlag (r.2.pte (ptePtr y)).frame pgValid = true →
            number pageShift (r.2.pte (ptePtr x)).frame =
              number pageShift (r.2.pte (ptePtr y)).frame → x / 4096 = y / 4096)
        (fun e => e = .exit) := by
  obtain ⟨start, hstart⟩ : ∃ start, startSim fifo 1 2 (fun _ => ⟨7#32, 7, 7#32⟩) 5 = .ok start :=
    ⟨_, rfl⟩
  have haddr : ∀ a ∈ [(⟨'S', 0x1000⟩ : Access), ⟨'L', 0x2000⟩], a.vaddr < 2 ^ 36 := by decide
  have hsound := startSim_sound fifo_polite (by decide) hstart
  exact ⟨start, hstart, findPhyspage_inverse fifo_polite (by decide) (by decide) hstart haddr
    (fifo_serves (by decide) hsound _) [⟨'S', 0x1000⟩] ⟨'L', 0x2000⟩ [] rfl⟩

end KernelProgramming.Paging
