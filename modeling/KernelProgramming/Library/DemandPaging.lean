import Mathlib.Data.Finset.Card
import Mathlib.Tactic.Common

/-!
# Demand paging with a fixed number of frames

A pager keeps a set of at most `m` resident pages and brings in a page only
when it is requested.  The pager that always gives up a page requested latest
again makes no more misses than any other one on the same requests.  The pager
that gives up the page requested longest ago keeps more pages with more frames.
-/

namespace KernelProgramming.DemandPaging

variable {α : Type*} [DecidableEq α] {m : ℕ} {may : α → Prop} {R R' S S' : Finset α} {p w : α}
  {c d : ℕ} {rest : List α}

/-- Serving the request `p` from the resident set `R` with cost `c`, the
number of misses.  With all frames in use a page that `may` go is given up. -/
inductive Serve (m : ℕ) (may : α → Prop) (R : Finset α) (p : α) : Finset α → ℕ → Prop
  | hit (h : p ∈ R) : Serve m may R p R 0
  | fill (h : p ∉ R) (hroom : R.card < m) : Serve m may R p (insert p R) 1
  | replace (w : α) (h : p ∉ R) (hw : w ∈ R) (hfull : R.card = m) (hmay : may w) :
      Serve m may R p (insert p (R.erase w)) 1

/-- `w` is requested no sooner than any other resident page. -/
def Farthest (R : Finset α) (rest : List α) (w : α) : Prop :=
  ∀ n, w ∈ rest.take n → ∀ q ∈ R, q ∈ rest.take n

theorem Serve.mem (h : Serve m may R p R' c) : p ∈ R' := by
  cases h with
  | hit h => exact h
  | fill h _ => exact Finset.mem_insert_self p R
  | replace w h => exact Finset.mem_insert_self p _

theorem Serve.card_le (h : Serve m may R p R' c) (hR : R.card ≤ m) : R'.card ≤ m := by
  cases h with
  | hit h => exact hR
  | fill h hroom =>
      rw [Finset.card_insert_of_notMem h]
      exact hroom
  | replace w h hw hfull _ =>
      have hp : p ∉ R.erase w := fun hin => h (Finset.mem_of_mem_erase hin)
      rw [Finset.card_insert_of_notMem hp, Finset.card_erase_of_mem hw]
      have hpos := Finset.card_pos.mpr ⟨w, hw⟩
      omega

/-- Apart from the requested page nothing comes in. -/
theorem Serve.erase_subset (h : Serve m may R p R' c) : R'.erase p ⊆ R.erase p := by
  cases h with
  | hit h => exact subset_rfl
  | fill h _ => rw [Finset.erase_insert_eq_erase]
  | replace w h =>
      rw [Finset.erase_insert_eq_erase]
      exact Finset.erase_subset_erase p (Finset.erase_subset w R)

theorem Serve.cost_eq (h : Serve m may R p R' c) : c = if p ∈ R then 0 else 1 := by
  cases h with
  | hit h => rw [if_pos h]
  | fill h _ => rw [if_neg h]
  | replace w h => rw [if_neg h]

/-- The number of resident pages among the next `n` requests. -/
def near (R : Finset α) (rest : List α) (n : ℕ) : ℕ := (R.filter fun q => q ∈ rest.take n).card

theorem near_zero (R : Finset α) (rest : List α) : near R rest 0 = 0 := by
  simp [near]

theorem near_le_card (R : Finset α) (rest : List α) (n : ℕ) : near R rest n ≤ R.card :=
  Finset.card_filter_le ..

theorem near_mono (h : R ⊆ S) (rest : List α) (n : ℕ) : near R rest n ≤ near S rest n :=
  Finset.card_le_card (Finset.filter_subset_filter _ h)

/-- The first of the requests, apart from the others. -/
theorem near_cons (R : Finset α) (p : α) (rest : List α) (n : ℕ) :
    near R (p :: rest) (n + 1) = near (R.erase p) rest n + if p ∈ R then 1 else 0 := by
  have hsplit : (R.filter fun q => q ∈ (p :: rest).take (n + 1)).erase p =
      (R.erase p).filter fun q => q ∈ rest.take n := by
    ext q
    simp only [Finset.mem_erase, Finset.mem_filter, List.take_succ_cons, List.mem_cons]
    tauto
  rw [near, near, ← hsplit]
  split_ifs with hp
  · have hmem : p ∈ R.filter fun q => q ∈ (p :: rest).take (n + 1) := by simp [hp]
    rw [Finset.card_erase_of_mem hmem, Nat.sub_add_cancel (Finset.card_pos.mpr ⟨p, hmem⟩)]
  · have hmem : p ∉ R.filter fun q => q ∈ (p :: rest).take (n + 1) := by simp [hp]
    rw [Finset.erase_eq_of_notMem hmem]
    rfl

theorem near_erase (hp : p ∈ R) (rest : List α) (n : ℕ) :
    near R rest n = near (R.erase p) rest n + if p ∈ rest.take n then 1 else 0 := by
  have hsplit : (R.erase p).filter (fun q => q ∈ rest.take n) =
      (R.filter fun q => q ∈ rest.take n).erase p := by
    ext q
    simp only [Finset.mem_erase, Finset.mem_filter]
    tauto
  rw [near, near, hsplit]
  split_ifs with hin
  · have hmem : p ∈ R.filter fun q => q ∈ rest.take n := by simp [hp, hin]
    rw [Finset.card_erase_of_mem hmem, Nat.sub_add_cancel (Finset.card_pos.mpr ⟨p, hmem⟩)]
  · have hmem : p ∉ R.filter fun q => q ∈ rest.take n := by simp [hin]
    rw [Finset.erase_eq_of_notMem hmem]
    rfl

/-- The comparison that both pagers keep up: `a` misses with resident set `R`
are no worse than `b` misses with resident set `S`, whatever comes next. -/
def Ahead (a : ℕ) (R : Finset α) (b : ℕ) (S : Finset α) (rest : List α) : Prop :=
  ∀ n, a + near S rest n ≤ b + near R rest n

theorem Ahead.le {a b : ℕ} (h : Ahead a R b S rest) : a ≤ b := by
  have hzero := h 0
  rwa [near_zero, near_zero] at hzero

theorem ahead_empty (rest : List α) : Ahead 0 (∅ : Finset α) 0 ∅ rest := fun _ => le_rfl

/-- Giving up a page that is requested latest keeps a pager ahead. -/
theorem Ahead.serve {a b : ℕ} (h : Ahead a R b S (p :: rest))
    (hfar : Serve m (Farthest R rest) R p R' c) (hserve : Serve m may S p S' d) (hS : S.card ≤ m) :
    Ahead (a + c) R' (b + d) S' rest := by
  intro n
  have hbefore := h (n + 1)
  rw [near_cons, near_cons] at hbefore
  have hother := near_mono hserve.erase_subset rest n
  have hS' := near_erase hserve.mem rest n
  rw [hS', hserve.cost_eq]
  cases hfar with
  | hit hp =>
      rw [near_erase hp rest n]
      rw [if_pos hp] at hbefore
      split_ifs at hbefore ⊢ <;> omega
  | fill hp hroom =>
      have hR := near_erase (Finset.mem_insert_self p R) rest n
      rw [Finset.erase_insert_eq_erase] at hR
      rw [hR]
      rw [if_neg hp] at hbefore
      split_ifs at hbefore ⊢ <;> omega
  | replace w hp hw hfull hfarthest =>
      have hR := near_erase (Finset.mem_insert_self p (R.erase w)) rest n
      rw [Finset.erase_insert_eq_erase, Finset.erase_eq_of_notMem
        (fun hin => hp (Finset.mem_of_mem_erase hin))] at hR
      rw [hR]
      have hRw := near_erase hw rest n
      rw [if_neg hp, Finset.erase_eq_of_notMem hp] at hbefore
      by_cases hsoon : w ∈ rest.take n
      · -- all pages of `R` are requested soon, so `S` holds no more of them
        have hall : near R rest n = m := by
          rw [near, Finset.filter_true_of_mem (hfarthest n hsoon), hfull]
        have hcard : (S'.erase p).card + 1 ≤ m := by
          rw [Finset.card_erase_of_mem hserve.mem]
          have hpos := Finset.card_pos.mpr ⟨p, hserve.mem⟩
          have hle := hserve.card_le hS
          omega
        have hnear := near_le_card (S'.erase p) rest n
        have hle := h.le
        have hone := h 1
        rw [near_cons, near_cons, near_zero, near_zero, if_neg hp] at hone
        rw [if_pos hsoon] at hRw
        split_ifs at hone ⊢ <;> omega
      · rw [if_neg hsoon] at hRw
        split_ifs at hbefore ⊢ <;> omega

/-! ## Giving up the page requested longest ago -/

/-- Of the pages `seen` so far, `R` holds those requested last, as many as
there is room for. -/
structure Newest (m : ℕ) (seen : Finset α) (last : α → ℕ) (R : Finset α) : Prop where
  subset : R ⊆ seen
  card_eq : R.card = min m seen.card
  newer : ∀ p ∈ R, ∀ q ∈ seen, q ∉ R → last q < last p

omit [DecidableEq α] in
theorem newest_empty (m : ℕ) (last : α → ℕ) : Newest m ∅ last ∅ :=
  ⟨subset_rfl, (Nat.min_zero m).symm, fun _ hp => absurd hp (Finset.notMem_empty _)⟩

/-- With more frames the resident set is larger. -/
theorem Newest.subset_of_le {m' : ℕ} {seen : Finset α} {last : α → ℕ} (h : Newest m seen last R)
    (h' : Newest m' seen last R') (hle : m ≤ m') : R ⊆ R' := by
  intro p hp
  by_contra hp'
  have hsub : R' ⊆ R := by
    intro r hr
    by_contra hr'
    have hpr := h'.newer r hr p (h.subset hp) hp'
    have hrp := h.newer p hp r (h'.subset hr) hr'
    exact absurd hpr (lt_asymm hrp)
  have hlt : R'.card < R.card := Finset.card_lt_card ⟨hsub, fun hback => hp' (hback hp)⟩
  rw [h.card_eq, h'.card_eq] at hlt
  omega

omit [DecidableEq α] in
/-- While there is room, every page seen is resident. -/
theorem Newest.eq_seen {seen : Finset α} {last : α → ℕ} (h : Newest m seen last R)
    (hroom : R.card < m) : R = seen := by
  apply Finset.eq_of_subset_of_card_le h.subset
  have hcard := h.card_eq
  omega

theorem Newest.serve {seen : Finset α} {last last' : α → ℕ} (h : Newest m seen last R)
    (hserve : Serve m (fun w => ∀ q ∈ R, q ≠ w → last w < last q) R p R' c)
    (hold : ∀ q ≠ p, last' q = last q) (hnew : ∀ q ∈ seen, q ≠ p → last' q < last' p) :
    Newest m (insert p seen) last' R' := by
  -- the requested page is newer than all others, whose order has not changed
  have hlift : ∀ r ∈ insert p R, ∀ q ∈ seen, q ≠ p → (r ∈ R → last q < last r) →
      last' q < last' r := by
    intro r hr q hq hqp hlt
    by_cases hrp : r = p
    · exact hrp ▸ hnew q hq hqp
    · rw [hold q hqp, hold r hrp]
      exact hlt ((Finset.mem_insert.mp hr).resolve_left hrp)
  cases hserve with
  | hit hp =>
      have hseen : insert p seen = seen := Finset.insert_eq_self.mpr (h.subset hp)
      rw [hseen]
      refine ⟨h.subset, h.card_eq, fun r hr q hq hqR => ?_⟩
      have hqp : q ≠ p := fun heq => hqR (heq ▸ hp)
      exact hlift r (Finset.mem_insert_of_mem hr) q hq hqp fun hr => h.newer r hr q hq hqR
  | fill hp hroom =>
      obtain rfl := h.eq_seen hroom
      refine ⟨subset_rfl, ?_, fun r _ q hq hqR => absurd hq hqR⟩
      rw [Finset.card_insert_of_notMem hp]
      omega
  | replace w hp hw hfull hmay =>
      have hpw : p ∉ R.erase w := fun hin => hp (Finset.mem_of_mem_erase hin)
      refine ⟨?_, ?_, fun r hr q hq hqR => ?_⟩
      · exact Finset.insert_subset_insert p ((Finset.erase_subset w R).trans h.subset)
      · have hle : (R.card : ℕ) ≤ (insert p seen).card :=
          Finset.card_le_card (h.subset.trans (Finset.subset_insert p seen))
        rw [Finset.card_insert_of_notMem hpw, Finset.card_erase_add_one hw]
        omega
      · simp only [Finset.mem_insert, Finset.mem_erase, not_or, not_and] at hr hq hqR
        have hq' := hq.resolve_left hqR.1
        refine hlift r ?_ q hq' hqR.1 fun hrR => ?_
        · rcases hr with rfl | ⟨-, hrR⟩
          · exact Finset.mem_insert_self r R
          · exact Finset.mem_insert_of_mem hrR
        · have hrw : r ≠ w := (hr.resolve_left fun heq => hp (heq ▸ hrR)).1
          by_cases hqw : q = w
          · exact hqw ▸ hmay r hrR hrw
          · exact h.newer r hrR q hq' (hqR.2 hqw)

end KernelProgramming.DemandPaging
