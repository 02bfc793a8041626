import KernelProgramming.Library.DemandPaging
import KernelProgramming.Paging.SwapSpace

/-!
# The resident pages

Seen as the set of its resident pages, the simulator is a demand pager under
every replacement algorithm, and `miss_count` counts its misses.
-/

namespace KernelProgramming.Paging

open FlagWord Runs DemandPaging

/-- The pages that the frames in use hold. -/
def View.residents (v : View) : Finset PtePtr :=
  ((List.range v.memsize).filterMap fun i => if v.inUse i then v.owner i else none).toFinset

theorem View.Coherent.mem_residents {v : View} (h : v.Coherent) (p : PtePtr) :
    p ∈ v.residents ↔ (v.page p).valid = true := by
  simp only [View.residents, List.mem_toFinset, List.mem_filterMap, List.mem_range]
  constructor
  · rintro ⟨i, hi, hp⟩
    split at hp
    · next huse =>
        obtain ⟨q, hq, hvalid, -⟩ := h.owner_resident i hi huse
        rw [hq] at hp
        exact Option.some.inj hp ▸ hvalid
    · cases hp
  · intro hp
    obtain ⟨hlt, huse, howner⟩ := h.resident_owner p hp
    exact ⟨_, hlt, by rw [if_pos huse, howner]⟩

theorem View.Coherent.card_residents {v : View} (h : v.Coherent) :
    v.residents.card = ((Finset.range v.memsize).filter fun i => v.inUse i = true).card := by
  apply Finset.card_bij (fun p _ => (v.page p).number)
  · intro p hp
    obtain ⟨hlt, huse, -⟩ := h.resident_owner p ((h.mem_residents _).mp hp)
    exact Finset.mem_filter.mpr ⟨Finset.mem_range.mpr hlt, huse⟩
  · intro p hp q hq heq
    exact h.number_inj ((h.mem_residents _).mp hp) ((h.mem_residents _).mp hq) heq
  · intro i hi
    obtain ⟨hlt, huse⟩ := Finset.mem_filter.mp hi
    obtain ⟨p, -, hvalid, hnum⟩ := h.owner_resident i (Finset.mem_range.mp hlt) huse
    exact ⟨p, (h.mem_residents _).mpr hvalid, hnum⟩

theorem View.Coherent.card_residents_le {v : View} (h : v.Coherent) :
    v.residents.card ≤ v.memsize := by
  rw [h.card_residents]
  exact (Finset.card_filter_le _ _).trans (Finset.card_range _).le

theorem View.Coherent.card_residents_full {v : View} (h : v.Coherent)
    (hfull : v.freeFrame = none) : v.residents.card = v.memsize := by
  rw [h.card_residents, Finset.filter_true_of_mem, Finset.card_range]
  exact fun i hi => View.freeFrame_eq_none_iff.mp hfull i (Finset.mem_range.mp hi)

theorem View.Coherent.card_residents_free {v : View} (h : v.Coherent) {frame : ℕ}
    (hfree : v.freeFrame = some frame) : v.residents.card < v.memsize := by
  obtain ⟨hlt, hunused, -⟩ := View.freeFrame_eq_some_iff.mp hfree
  have hsub : ((Finset.range v.memsize).filter fun i => v.inUse i = true) ⊂
      Finset.range v.memsize :=
    Finset.filter_ssubset.mpr ⟨frame, Finset.mem_range.mpr hlt, by simp [hunused]⟩
  calc
    v.residents.card < (Finset.range v.memsize).card := by
      rw [h.card_residents]
      exact Finset.card_lt_card hsub
    _ = v.memsize := Finset.card_range _

theorem residents_load {v w : View} (hv : ∀ q, q ∈ v.residents ↔ (v.page q).valid = true)
    (hw : ∀ q, q ∈ w.residents ↔ (w.page q).valid = true) {p : PtePtr}
    (hp : (w.page p).valid = true)
    (hother : ∀ q ≠ p, (w.page q).valid = (v.page q).valid) :
    w.residents = insert p v.residents := by
  ext q
  rw [Finset.mem_insert, hw, hv]
  by_cases hq : q = p
  · simp [hq, hp]
  · simp [hq, hother q hq]

variable {σ : Type} {F : Functions σ}

/-- An access calls the algorithm's evict function, in the state `walked`, if its page is not
resident and no frame is free. -/
def EvictCalled (s : Sim σ) (a : Access) (walked : Sim σ) : Prop :=
  walkPgdir s a.vaddr = .ok walked ∧ hasFlag (s.pte (ptePtr a.vaddr)).frame pgValid = false ∧
    freeFrame s = none

/-- An access serves its page as a demand pager does; the victim is the page
in the frame that the algorithm chose. -/
theorem Accessed.serve {m : ℕ} {s u v t : Sim σ} {a : Access} (hs : Sound m s) (ht : Sound m t)
    (hacc : Accessed F s a u v t) {may : PtePtr → Prop}
    (hmay : ∀ walked frame s₂ victim, walkPgdir s a.vaddr = .ok walked →
      s.view.freeFrame = none → (s.view.page (ptePtr a.vaddr)).valid = false →
      F.evict walked = .ok (frame, s₂) → s.view.owner frame = some victim → may victim) :
    ∃ c, Serve m may s.view.residents (ptePtr a.vaddr) t.view.residents c ∧
      t.missCount = s.missCount + c := by
  have hmem := hs.coherent.mem_residents
  have hmem' := ht.coherent.mem_residents
  have hpage : ∀ q, (t.view.page q).valid = (u.view.page q).valid := fun q => by
    rw [hacc.view_eq]
    rfl
  have hcount : t.missCount = u.view.missCount := by
    change t.view.missCount = _
    rw [hacc.view_eq]
    rfl
  have hsize : s.view.memsize = m := hs.memsize_eq
  cases hacc.arrives with
  | hit hvalid hview =>
      have heq : t.view.residents = s.view.residents := by
        ext q
        rw [hmem', hmem, hpage, hview]
        by_cases hq : q = ptePtr a.vaddr <;> simp [View.hit, hq, hvalid]
      refine ⟨0, by rw [heq]; exact .hit ((hmem _).mpr hvalid), ?_⟩
      rw [hcount, hview]
      rfl
  | fill frame hvalid hfree hview =>
      have heq : t.view.residents = insert (ptePtr a.vaddr) s.view.residents := by
        refine residents_load hmem hmem' ?_ fun q hq => ?_
        · rw [hpage, hview]
          simp
        · rw [hpage, hview]
          simp [View.load, hq]
      refine ⟨1, heq ▸ .fill (fun hin => ?_) ?_, ?_⟩
      · rw [hmem, hvalid] at hin
        exact Bool.false_ne_true hin
      · exact hsize ▸ hs.coherent.card_residents_free hfree
      · rw [hcount, hview]
        rfl
  | replace walked s₂ frame victim off swapmap hvalid hfull hwalk hevict hframe howner hslot hoff
      hview =>
      have huse := View.freeFrame_eq_none_iff.mp hfull frame hframe
      obtain ⟨q, hq, hvictim, -⟩ := hs.coherent.owner_resident frame hframe huse
      obtain rfl := Option.some.inj (hq.symm.trans howner)
      have heq : t.view.residents = insert (ptePtr a.vaddr) (s.view.residents.erase q) := by
        ext r
        rw [Finset.mem_insert, Finset.mem_erase, hmem', hmem, hpage, hview]
        by_cases hr : r = ptePtr a.vaddr
        · simp [hr]
        · by_cases hrq : r = q
          · subst hrq
            simp [View.load, View.page_unload, hr]
          · simp [View.load, View.page_unload, hr, hrq]
      refine ⟨1, heq ▸ .replace q (fun hin => ?_) ((hmem _).mpr hvictim) ?_
        (hmay walked frame s₂ q hwalk hfull hvalid hevict howner), ?_⟩
      · rw [hmem, hvalid] at hin
        exact Bool.false_ne_true hin
      · exact (hs.coherent.card_residents_full hfull).trans hsize
      · rw [hcount, hview]
        rfl

end KernelProgramming.Paging
