import Mathlib.Data.Fintype.Card
import Mathlib.Data.Finset.Prod
import KernelProgramming.Paging.Correspondence

/-!
# Slots of the swap file

A page gets a slot of the swap file when it is first evicted and keeps it.
The pages that own a slot and the set bits of the bitmap stay in one-to-one
correspondence, so a swap file with a slot for every page of the trace is
never exhausted.
-/

namespace KernelProgramming.Paging

open Runs

/-- The page table entries that the accesses of a trace go through. -/
def pagesOf (trace : List Access) : Finset PtePtr :=
  (trace.map fun a => ptePtr a.vaddr).toFinset

theorem mem_pagesOf {trace : List Access} {p : PtePtr} :
    p ∈ pagesOf trace ↔ ∃ a ∈ trace, ptePtr a.vaddr = p := by
  simp [pagesOf]

theorem pagesOf_append (xs ys : List Access) : pagesOf (xs ++ ys) = pagesOf xs ∪ pagesOf ys := by
  simp [pagesOf]

theorem card_le_mul {pages : Finset PtePtr} {m n : ℕ}
    (h : ∀ p ∈ pages, p.idx < m ∧ p.entry < n) : pages.card ≤ m * n := by
  have hsub : pages.image (fun p => (p.idx, p.entry)) ⊆ Finset.range m ×ˢ Finset.range n := by
    apply Finset.image_subset_iff.mpr
    intro p hp
    exact Finset.mem_product.mpr
      ⟨Finset.mem_range.mpr (h p hp).1, Finset.mem_range.mpr (h p hp).2⟩
  have hinj : Function.Injective fun p : PtePtr => (p.idx, p.entry) := by
    rintro ⟨i, e⟩ ⟨i', e'⟩ heq
    simpa using heq
  have hcard := Finset.card_le_card hsub
  rwa [Finset.card_image_of_injective _ hinj, Finset.card_product, Finset.card_range,
    Finset.card_range] at hcard

/-- There are at most `2 ^ 24` pages of addresses below `2 ^ 36`. -/
theorem card_pagesOf_le {trace : List Access} (haddr : ∀ a ∈ trace, a.vaddr < 2 ^ 36) :
    (pagesOf trace).card ≤ 2 ^ 24 := by
  have h : (pagesOf trace).card ≤ ptrsPerPgdir * ptrsPerPgtbl := by
    apply card_le_mul
    intro p hp
    obtain ⟨a, ha, rfl⟩ := mem_pagesOf.mp hp
    exact ⟨pgdirIndex_lt (haddr a ha), Nat.mod_lt _ (Nat.zero_lt_succ 4095)⟩
  exact h

namespace View

/-- The pages with a slot, all of them in `seen`, correspond to the set bits. -/
structure SwapSpace (v : View) (n : ℕ) (seen : Finset PtePtr) : Prop where
  wellFormed : v.swapmap.WellFormed
  nbits_eq : v.swapmap.nbits = n
  resident_seen : ∀ p, (v.page p).valid = true → p ∈ seen
  slot : ∀ p, (v.page p).swapOff ≠ invalidSwap →
    p ∈ seen ∧ ∃ i < n, (v.page p).swapOff = (i : ℤ) * 16 ∧ v.swapmap.bit i = true
  inj : ∀ p q, (v.page p).swapOff ≠ invalidSwap → (v.page p).swapOff = (v.page q).swapOff → p = q
  taken : ∀ i < n, v.swapmap.bit i = true → ∃ p, (v.page p).swapOff = (i : ℤ) * 16

theorem SwapSpace.mono {v : View} {n : ℕ} {seen seen' : Finset PtePtr} (h : v.SwapSpace n seen)
    (hsub : seen ⊆ seen') : v.SwapSpace n seen' where
  wellFormed := h.wellFormed
  nbits_eq := h.nbits_eq
  resident_seen p hp := hsub (h.resident_seen p hp)
  slot p hp := ⟨hsub (h.slot p hp).1, (h.slot p hp).2⟩
  inj := h.inj
  taken := h.taken

/-- A run of taken slots is not longer than the number of pages that own one. -/
theorem SwapSpace.le_card {v : View} {n k : ℕ} {seen owners : Finset PtePtr}
    (h : v.SwapSpace n seen) (hk : k ≤ n) (hbits : ∀ i < k, v.swapmap.bit i = true)
    (howners : ∀ p, (v.page p).swapOff ≠ invalidSwap → p ∈ owners) : k ≤ owners.card := by
  classical
  have hex : ∀ i : Fin k, ∃ p, (v.page p).swapOff = (i.1 : ℤ) * 16 := fun i =>
    h.taken i.1 (lt_of_lt_of_le i.2 hk) (hbits i.1 i.2)
  choose page hpage using hex
  have hinj : Function.Injective page := by
    intro i j hij
    have heq : (i.1 : ℤ) * 16 = (j.1 : ℤ) * 16 := by rw [← hpage i, ← hpage j, hij]
    exact Fin.ext (by omega)
  have hmem : ∀ i, page i ∈ owners := by
    intro i
    apply howners
    rw [hpage i, invalidSwap]
    omega
  have hcard := Finset.card_le_card (Finset.image_subset_iff.mpr fun i _ => hmem i :
    Finset.univ.image page ⊆ owners)
  rwa [Finset.card_image_of_injective _ hinj, Finset.card_univ, Fintype.card_fin] at hcard

/-- Not every slot is taken while some page in `seen` has none. -/
theorem SwapSpace.exists_free {v : View} {n : ℕ} {seen : Finset PtePtr} (h : v.SwapSpace n seen)
    (hcard : seen.card ≤ n) {p : PtePtr} (hp : p ∈ seen) (hoff : (v.page p).swapOff = invalidSwap) :
    ∃ i < v.swapmap.nbits, v.swapmap.bit i = false := by
  classical
  rw [h.nbits_eq]
  by_contra hall
  push Not at hall
  have howners : ∀ q, (v.page q).swapOff ≠ invalidSwap → q ∈ seen.erase p := fun q hq =>
    Finset.mem_erase.mpr ⟨fun heq => hq (heq ▸ hoff), (h.slot q hq).1⟩
  have hle := h.le_card (le_refl n) (fun i hi => by simpa using hall i hi) howners
  rw [Finset.card_erase_of_mem hp] at hle
  have hpos := Finset.card_pos.mpr ⟨p, hp⟩
  omega

theorem SwapSpace.congr {v w : View} {n : ℕ} {seen : Finset PtePtr} (h : v.SwapSpace n seen)
    (hmap : w.swapmap = v.swapmap) (hoff : ∀ p, (w.page p).swapOff = (v.page p).swapOff)
    (hvalid : ∀ p, (w.page p).valid = true → p ∈ seen) : w.SwapSpace n seen where
  wellFormed := hmap ▸ h.wellFormed
  nbits_eq := hmap ▸ h.nbits_eq
  resident_seen := hvalid
  slot p hp := by
    rw [hoff p] at hp ⊢
    rw [hmap]
    exact h.slot p hp
  inj p q hp heq := h.inj p q (hoff p ▸ hp) (by rw [← hoff p, ← hoff q, heq])
  taken i hi hbit := by
    obtain ⟨p, hp⟩ := h.taken i hi (hmap ▸ hbit)
    exact ⟨p, (hoff p).trans hp⟩

theorem intOfUnsigned_slot {i : ℕ} (hi : i ≤ 2 ^ 24) :
    intOfUnsigned (i * simpagesize) = (i : ℤ) * 16 := by
  rw [intOfUnsigned, simpagesize, BitVec.toInt_eq_toNat_cond, BitVec.toNat_ofNat]
  split <;> omega

theorem SwapSpace.slotFor {v : View} {n : ℕ} {seen : Finset PtePtr} (h : v.SwapSpace n seen)
    (hseen : seen.card ≤ 2 ^ 24) {p : PtePtr} {off : ℤ} {swapmap : Bitmap}
    (hslot : v.SlotFor p off swapmap) (hnew : (v.page p).swapOff = invalidSwap) :
    ∃ i < n, off = (i : ℤ) * 16 ∧ v.swapmap.bit i = false ∧ swapmap.WellFormed ∧
      swapmap.nbits = n ∧ ∀ j, swapmap.bit j = (v.swapmap.bit j || decide (j = i)) := by
  rcases hslot with ⟨hne, -, -⟩ | ⟨-, idx, halloc, rfl⟩
  · exact (hne hnew).elim
  · have hfree : ∃ i < v.swapmap.nbits, v.swapmap.bit i = false := by
      by_contra hnone
      push Not at hnone
      rw [h.wellFormed.bitmapAlloc_of_full fun i hi => by simpa using hnone i hi] at halloc
      simp at halloc
    obtain ⟨index, b', halloc', hlt, hclear, hleast, hwf, hnbits, hbits⟩ :=
      h.wellFormed.bitmapAlloc_of_free hfree
    rw [halloc'] at halloc
    simp only [Except.ok.injEq, Option.some.injEq, Prod.mk.injEq] at halloc
    obtain ⟨rfl, rfl⟩ := halloc
    rw [h.nbits_eq] at hlt hnbits
    have hle := h.le_card hlt.le hleast fun q hq => (h.slot q hq).1
    exact ⟨index, hlt, intOfUnsigned_slot (hle.trans hseen), hclear, hwf, hnbits, hbits⟩

theorem SwapSpace.unload {v : View} {n frame : ℕ} {seen : Finset PtePtr} (h : v.SwapSpace n seen)
    (hseen : seen.card ≤ 2 ^ 24) {victim : PtePtr} (hvictim : victim ∈ seen) {off : ℤ}
    {swapmap : Bitmap} (hslot : v.SlotFor victim off swapmap) :
    (v.unload frame victim off swapmap).SwapSpace n seen := by
  have hvalid : ∀ p, ((v.unload frame victim off swapmap).page p).valid = true → p ∈ seen := by
    intro p hp
    by_cases hpv : p = victim
    · exact hpv ▸ hvictim
    · exact h.resident_seen p (by simpa [page_unload, hpv] using hp)
  by_cases hnew : (v.page victim).swapOff = invalidSwap
  · obtain ⟨i, hi, rfl, hclear, hwf, hnbits, hbits⟩ := h.slotFor hseen hslot hnew
    have hoff : ∀ p, ((v.unload frame victim ((i : ℤ) * 16) swapmap).page p).swapOff =
        if p = victim then (i : ℤ) * 16 else (v.page p).swapOff := by
      intro p
      rw [page_unload]
      split <;> rfl
    -- no page owned slot `i` so far
    have hfresh : ∀ p, (v.page p).swapOff ≠ (i : ℤ) * 16 := by
      intro p hp
      obtain ⟨-, j, -, hj, hbit⟩ := h.slot p (by rw [hp, invalidSwap]; omega)
      have hij : j = i := by omega
      rw [hij, hclear] at hbit
      exact Bool.false_ne_true hbit
    refine ⟨hwf, hnbits, hvalid, ?_, ?_, ?_⟩
    · intro p hp
      rw [hoff p] at hp ⊢
      by_cases hpv : p = victim
      · simp only [hpv, if_true]
        exact ⟨hvictim, i, hi, rfl, by rw [View.unload, setPageView, writeOut, hbits]; simp⟩
      · rw [if_neg hpv] at hp ⊢
        obtain ⟨hps, j, hj, hjoff, hjbit⟩ := h.slot p hp
        exact ⟨hps, j, hj, hjoff, by rw [View.unload, setPageView, writeOut, hbits, hjbit]; rfl⟩
    · intro p q hp heq
      rw [hoff p] at hp heq
      rw [hoff q] at heq
      by_cases hpv : p = victim
      · by_cases hqv : q = victim
        · rw [hpv, hqv]
        · rw [if_pos hpv, if_neg hqv] at heq
          exact (hfresh q heq.symm).elim
      · by_cases hqv : q = victim
        · rw [if_neg hpv, if_pos hqv] at heq
          exact (hfresh p heq).elim
        · rw [if_neg hpv] at hp heq
          rw [if_neg hqv] at heq
          exact h.inj p q hp heq
    · intro j hj hbit
      rw [View.unload, setPageView, writeOut, hbits] at hbit
      by_cases hji : j = i
      · exact ⟨victim, by rw [hoff, if_pos rfl, hji]⟩
      · obtain ⟨p, hp⟩ := h.taken j hj (by simpa [hji] using hbit)
        have hpv : p ≠ victim := by
          rintro rfl
          rw [hnew, invalidSwap] at hp
          omega
        exact ⟨p, by rw [hoff, if_neg hpv, hp]⟩
  · rcases hslot with ⟨-, rfl, rfl⟩ | ⟨hnew', -⟩
    · refine h.congr rfl (fun p => ?_) hvalid
      rw [page_unload]
      split
      · next heq => rw [heq]
      · rfl
    · exact (hnew hnew').elim

theorem SwapSpace.load_touch {v : View} {n frame vaddr : ℕ} {seen : Finset PtePtr}
    (h : v.SwapSpace n seen) {p : PtePtr} (hp : p ∈ seen) (type : Char) :
    ((v.load p frame vaddr).touch p type).SwapSpace n seen := by
  refine h.congr rfl (fun q => ?_) (fun q hq => ?_)
  · by_cases hqp : q = p <;> simp [load, hqp]
  · by_cases hqp : q = p
    · exact hqp ▸ hp
    · exact h.resident_seen q (by simpa [load, hqp] using hq)

theorem SwapSpace.hit_touch {v : View} {n : ℕ} {seen : Finset PtePtr}
    (h : v.SwapSpace n seen) {p : PtePtr} (hp : p ∈ seen) (type : Char) :
    (v.hit.touch p type).SwapSpace n seen := by
  refine h.congr rfl (fun q => ?_) (fun q hq => ?_)
  · by_cases hqp : q = p <;> simp [hit, hqp]
  · by_cases hqp : q = p
    · exact hqp ▸ hp
    · exact h.resident_seen q (by simpa [hit, hqp] using hq)

end View

variable {σ : Type} {F : Functions σ}

theorem Arrives.swapSpace {s t : Sim σ} {vaddr n : ℕ} {type : Char} {seen : Finset PtePtr}
    (h : Arrives F s vaddr type t) (hs : s.view.Coherent) (hspace : s.view.SwapSpace n seen)
    (hseen : seen.card ≤ 2 ^ 24) (hp : ptePtr vaddr ∈ seen) : t.view.SwapSpace n seen := by
  cases h with
  | hit hvalid hview =>
      rw [hview]
      exact hspace.hit_touch hp type
  | fill frame hvalid hfree hview =>
      rw [hview]
      exact hspace.load_touch hp type
  | replace walked s₂ frame victim off swapmap hvalid hfull hwalk hevict hframe howner hslot hoff
      hview =>
      rw [hview]
      have huse := View.freeFrame_eq_none_iff.mp hfull frame hframe
      obtain ⟨q, hq, hqvalid, -⟩ := hs.owner_resident frame hframe huse
      rw [howner] at hq
      obtain rfl := Option.some.inj hq
      exact (hspace.unload hseen (hspace.resident_seen _ hqvalid) hslot).load_touch hp type

/-- With a slot for every page seen so far, putting a page out succeeds. -/
theorem View.SwapSpace.not_halts {v : View} {n : ℕ} {seen : Finset PtePtr}
    (h : v.SwapSpace n seen) (hseen : seen.card ≤ 2 ^ 24) (hcard : seen.card ≤ n) {p : PtePtr}
    (hp : p ∈ seen) (e : Halt) : ¬ v.SwapHalts p e := by
  rintro (⟨hnew, herr⟩ | ⟨hnew, hnone, -⟩ | ⟨off, swapmap, hslot, hneg⟩)
  · obtain ⟨index, b', halloc, -⟩ :=
      h.wellFormed.bitmapAlloc_of_free (h.exists_free hcard hp hnew)
    rw [herr] at halloc
    cases halloc
  · obtain ⟨index, b', halloc, -⟩ :=
      h.wellFormed.bitmapAlloc_of_free (h.exists_free hcard hp hnew)
    rw [hnone] at halloc
    cases halloc
  · have hoff : 0 ≤ off := by
      by_cases hnew : (v.page p).swapOff = invalidSwap
      · obtain ⟨i, -, rfl, -⟩ := h.slotFor hseen hslot hnew
        omega
      · rcases hslot with ⟨-, rfl, -⟩ | ⟨hnew', -⟩
        · obtain ⟨-, i, -, hi, -⟩ := h.slot p hnew
          omega
        · exact (hnew hnew').elim
    rcases hneg with ⟨rfl, -⟩ | ⟨hneg, -⟩
    · simp [invalidSwap] at hoff
    · omega

/-- What holds between two accesses of a replay with a well-formed bitmap. -/
structure Ready (m n : ℕ) (past : List Access) (s : Sim σ) : Prop where
  sound : Sound m s
  space : s.view.SwapSpace n (pagesOf past)

theorem startSim_ready (hF : F.Polite) {m n : ℕ} (hswap : n + 31 < 2 ^ 32)
    {garbage : ℕ → SimPage} {alg : σ} {start : Sim σ}
    (hstart : startSim F m n garbage alg = .ok start) : Ready m n [] start := by
  refine ⟨startSim_sound hF (by omega) hstart, ?_⟩
  obtain ⟨b, hb, hwf, hnbits, hclear⟩ := Bitmap.bitmapCreate_spec hswap
  simp only [startSim, hb] at hstart
  have hview : start.view = (bootSim m garbage b alg).view := by
    rw [(Except.ok.inj hstart).symm]
    exact hF.init_view _
  rw [hview]
  refine ⟨hwf, hnbits, fun p hp => ?_, fun p hp => ?_, fun p q hp => ?_, fun i hi hbit => ?_⟩
  · simp [page_boot] at hp
  · simp [page_boot] at hp
  · simp [page_boot] at hp
  · exact (Bool.false_ne_true ((hclear i hi).symm.trans hbit)).elim

theorem Ready.accessMem_ok {m n : ℕ} {past : List Access} {s t : Sim σ} (hs : Ready m n past s)
    (hF : F.Polite) (hm : m ≤ 2 ^ 20) (haddr : ∀ b ∈ past, b.vaddr < 2 ^ 36) {a : Access}
    (ha : a.vaddr < 2 ^ 36) (h : accessMem F s a = .ok t) : Ready m n (past ++ [a]) t := by
  obtain ⟨ht, u, v, hacc⟩ := hs.sound.accessMem_ok hF hm h
  refine ⟨ht, ?_⟩
  have hsub : pagesOf past ⊆ pagesOf (past ++ [a]) := by
    rw [pagesOf_append]
    exact Finset.subset_union_left
  have hmem : ptePtr a.vaddr ∈ pagesOf (past ++ [a]) := mem_pagesOf.mpr ⟨a, by simp, rfl⟩
  have hcard : (pagesOf (past ++ [a])).card ≤ 2 ^ 24 := by
    apply card_pagesOf_le
    intro b hb
    rcases List.mem_append.mp hb with hb | hb
    · exact haddr b hb
    · rw [List.mem_singleton.mp hb]
      exact ha
  have hu := hacc.arrives.swapSpace hs.sound.coherent (hs.space.mono hsub) hcard hmem
  apply hu.congr
  · rw [hacc.view_eq]
    rfl
  · intro p
    rw [hacc.view_eq]
    rfl
  · intro p hp
    rw [hacc.view_eq] at hp
    exact hu.resident_seen p hp

theorem Ready.replay {m n : ℕ} {start s : Sim σ} (hstart : Ready m n [] start) (hF : F.Polite)
    (hm : m ≤ 2 ^ 20) {past : List Access} (haddr : ∀ b ∈ past, b.vaddr < 2 ^ 36)
    (hrun : replay F start past = .ok s) : Ready m n past s := by
  refine run_invariant hstart ?_ hrun
  intro before a after t u hpast _ ht hacc
  have hsub : ∀ b ∈ before ++ [a], b.vaddr < 2 ^ 36 := by
    intro b hb
    apply haddr
    rw [hpast]
    rcases List.mem_append.mp hb with hb | hb
    · exact List.mem_append_left _ hb
    · exact List.mem_append_right _ (by simp_all)
  exact ht.accessMem_ok hF hm (fun b hb => hsub b (List.mem_append_left _ hb)) (hsub a (by simp))
    hacc

theorem replay_completes (hF : F.Polite) {m n : ℕ} (hm : m ≤ 2 ^ 20) {start : Sim σ}
    (hstart : Ready m n [] start) {trace : List Access} (haddr : ∀ a ∈ trace, a.vaddr < 2 ^ 36)
    (hswap : (pagesOf trace).card ≤ n) (hserves : F.Serves start trace) {past rest : List Access}
    (htrace : trace = past ++ rest) : ∃ s, replay F start past = .ok s := by
  have hrun : Yields (Paging.replay F start past) (fun _ => True) (fun _ => False) := by
    apply run_keeps past trivial
    intro before a after s hpast hrun _
    have hsplit : trace = before ++ a :: (after ++ rest) := by simp [htrace, hpast]
    have ha : a.vaddr < 2 ^ 36 := haddr a (by simp [hsplit])
    have hbefore : ∀ b ∈ before, b.vaddr < 2 ^ 36 := fun b hb => haddr b (by simp [hsplit, hb])
    have hs := hstart.replay hF hm hbefore hrun
    have hcard : (pagesOf before).card ≤ n := by
      refine (Finset.card_le_card ?_).trans hswap
      rw [hsplit, pagesOf_append]
      exact Finset.subset_union_left
    apply (hs.sound.accessMem_yields hF hm a).mono (fun _ _ => trivial)
    rintro e (hhalts | ⟨t, htrans, herr⟩)
    · obtain ⟨-, victim, hvalid, hhalts⟩ := hs.sound.halts_exit ha
        (fun walked => hserves.evict_below before a _ s walked hsplit hrun) hhalts
      exact hs.space.not_halts (card_pagesOf_le hbefore) hcard (hs.space.resident_seen _ hvalid) e
        hhalts
    · obtain ⟨u, hu⟩ := hserves.ref_returns before a _ s t hsplit hrun htrans
      rw [hu] at herr
      cases herr
  obtain ⟨s, hs, -⟩ := hrun.exists_ok
  exact ⟨s, hs⟩

/-! ## Slots stay with their pages -/

theorem Arrives.swapOff_eq {s t : Sim σ} {vaddr : ℕ} {type : Char} (h : Arrives F s vaddr type t)
    {p : PtePtr} (hp : (s.view.page p).swapOff ≠ invalidSwap) :
    (t.view.page p).swapOff = (s.view.page p).swapOff := by
  cases h with
  | hit hvalid hview =>
      rw [hview]
      by_cases hpq : p = ptePtr vaddr <;> simp [View.hit, hpq]
  | fill frame hvalid hfree hview =>
      rw [hview]
      by_cases hpq : p = ptePtr vaddr <;> simp [View.load, hpq]
  | replace walked s₂ frame victim off swapmap hvalid hfull hwalk hevict hframe howner hslot hoff
      hview =>
      have hunload : ((s.view.unload frame victim off swapmap).page p).swapOff =
          (s.view.page p).swapOff := by
        rw [View.page_unload]
        split
        · next hpv =>
            subst hpv
            rcases hslot with ⟨-, hoff', -⟩ | ⟨hnew, -⟩
            · exact hoff'
            · exact absurd hnew hp
        · rfl
      rw [hview, ← hunload]
      by_cases hpq : p = ptePtr vaddr <;> simp [View.load, hpq]

theorem swapOff_replay (hF : F.Polite) {m : ℕ} (hm : m ≤ 2 ^ 20) {s t : Sim σ} (hs : Sound m s)
    {more : List Access} (hrun : replay F s more = .ok t) {p : PtePtr}
    (hp : (s.view.page p).swapOff ≠ invalidSwap) :
    (t.view.page p).swapOff = (s.view.page p).swapOff := by
  refine @run_invariant _ _ _ _
    (fun _ (u : Sim σ) => (u.view.page p).swapOff = (s.view.page p).swapOff) _ _ _ rfl ?_ hrun
  intro before a after u w _ hbefore hu hacc
  obtain ⟨-, x, y, hacc'⟩ := (hs.replay hF hm hbefore).accessMem_ok hF hm hacc
  have hkeep := hacc'.arrives.swapOff_eq (hu ▸ hp)
  rw [hacc'.view_eq]
  exact hkeep.trans hu

/-- The entries with a slot and the set bits of the bitmap correspond. -/
structure Sim.SlotsExclusive (s : Sim σ) (swapsize : ℕ) : Prop where
  distinct : ∀ p q, (s.pte p).swapOff ≠ invalidSwap → (s.pte q).swapOff ≠ invalidSwap →
    (s.pte p).swapOff = (s.pte q).swapOff → p = q
  slot : ∀ p, (s.pte p).swapOff ≠ invalidSwap →
    ∃ i < swapsize, (s.pte p).swapOff = (i : ℤ) * simpagesize ∧ s.swapmap.bit i = true
  owned : ∀ i < swapsize, s.swapmap.bit i = true →
    ∃! p, (s.pte p).swapOff = (i : ℤ) * simpagesize

theorem View.SwapSpace.slotsExclusive {s : Sim σ} {n : ℕ} {seen : Finset PtePtr}
    (h : s.view.SwapSpace n seen) : s.SlotsExclusive n where
  distinct p q hp _ heq := h.inj p q hp heq
  slot p hp := (h.slot p hp).2
  owned i hi hbit := by
    obtain ⟨p, hp⟩ := h.taken i hi hbit
    refine ⟨p, hp, fun q hq => (h.inj p q ?_ (hp.trans hq.symm)).symm⟩
    rw [hp, invalidSwap]
    omega

/-- Slots of the swap file are never shared, leaked, reassigned or exhausted
while there is one for every page of the trace. -/
theorem swapSlots_exclusive (hF : F.Polite) {m swapsize : ℕ} (hm : 1 ≤ m ∧ m ≤ 2 ^ 20)
    (hswapsize : swapsize ≤ 2 ^ 27) {garbage : ℕ → SimPage} {alg : σ} {start : Sim σ}
    (hstart : startSim F m swapsize garbage alg = .ok start) {trace : List Access}
    (haddr : ∀ a ∈ trace, a.vaddr < 2 ^ 36) (hserves : F.Serves start trace) :
    (∀ past rest s, trace = past ++ rest → replay F start past = .ok s →
      s.SlotsExclusive swapsize) ∧
    (∀ past more rest s t p, trace = past ++ more ++ rest → replay F start past = .ok s →
      replay F start (past ++ more) = .ok t → (s.pte p).swapOff ≠ invalidSwap →
        (t.pte p).swapOff = (s.pte p).swapOff) ∧
    ((pagesOf trace).card ≤ swapsize → ∀ past rest, trace = past ++ rest →
      ∃ s, replay F start past = .ok s) := by
  have hready := startSim_ready hF (show swapsize + 31 < 2 ^ 32 by omega) hstart
  refine ⟨?_, ?_, ?_⟩
  · intro past rest s htrace hrun
    have hpast : ∀ b ∈ past, b.vaddr < 2 ^ 36 := fun b hb => haddr b (by simp [htrace, hb])
    exact (hready.replay hF hm.2 hpast hrun).space.slotsExclusive
  · intro past more rest s t p _ hrun hrun' hp
    obtain ⟨u, hu, hmore⟩ := foldlM_append_ok_iff.mp hrun'
    obtain rfl : u = s := Except.ok.inj (hu.symm.trans hrun)
    exact swapOff_replay hF hm.2 (hready.sound.replay hF hm.2 hrun) hmore hp
  · intro hcard past rest htrace
    exact replay_completes hF hm.2 hready haddr hcard hserves htrace

/-- Two pages take turns in the only frame, with a slot for each of them. -/
theorem swapSlots_exclusive_fifo :
    ∃ start, startSim fifo 1 2 (fun _ => ⟨7#32, 7, 7#32⟩) 5 = .ok start ∧
      (∀ past rest s, [⟨'S', 0x1000⟩, ⟨'L', 0x2000⟩, ⟨'L', 0x1000⟩] = past ++ rest →
        replay fifo start past = .ok s → s.SlotsExclusive 2) ∧
      (∀ past more rest s t p,
        [⟨'S', 0x1000⟩, ⟨'L', 0x2000⟩, ⟨'L', 0x1000⟩] = past ++ more ++ rest →
        replay fifo start past = .ok s → replay fifo start (past ++ more) = .ok t →
        (s.pte p).swapOff ≠ invalidSwap → (t.pte p).swapOff = (s.pte p).swapOff) ∧
      ((pagesOf [⟨'S', 0x1000⟩, ⟨'L', 0x2000⟩, ⟨'L', 0x1000⟩]).card ≤ 2 → ∀ past rest,
        [⟨'S', 0x1000⟩, ⟨'L', 0x2000⟩, ⟨'L', 0x1000⟩] = past ++ rest →
        ∃ s, replay fifo start past = .ok s) := by
  obtain ⟨start, hstart⟩ : ∃ start, startSim fifo 1 2 (fun _ => ⟨7#32, 7, 7#32⟩) 5 = .ok start :=
    ⟨_, rfl⟩
  have hsound := startSim_sound fifo_polite (by decide) hstart
  exact ⟨start, hstart, swapSlots_exclusive fifo_polite (by decide) (by decide) hstart (by decide)
    (fifo_serves (by decide) hsound _)⟩

end KernelProgramming.Paging
