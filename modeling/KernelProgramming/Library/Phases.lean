import Mathlib.Algebra.Order.Group.Nat
import Mathlib.Tactic.Ring
import KernelProgramming.Library.DemandPaging

/-!
# Phases of a sequence of requests

A window of requests costs every pager at least the pages in it that it did not
hold before.  A pager that gives up a page only after all other pages it holds
have been requested again pays no more than that for the pages of a window, if
they all have room.  Cut into phases that just fit the memory, any sequence of
requests therefore costs such a pager little more than any other one.
-/

namespace KernelProgramming.DemandPaging

variable {α : Type*} [DecidableEq α] {m c n : ℕ} {may : α → Prop}
  {R₀ R R' asked loaded : Finset α} {p : α}

/-- Since a pager held `R₀`, the pages `asked` have been requested and the pages
`loaded` have come in, at a cost of `n` misses. -/
structure Since (R₀ asked loaded R : Finset α) (n : ℕ) : Prop where
  loaded_subset : loaded ⊆ asked
  resident : R ⊆ R₀ ∪ asked
  missed : asked \ R₀ ⊆ loaded
  card_le : loaded.card ≤ n

/-- No page that has come in has been given up. -/
structure Retains (R₀ asked loaded R : Finset α) (n : ℕ) : Prop
    extends Since R₀ asked loaded R n where
  kept : loaded ⊆ R
  card_eq : n = loaded.card

theorem since_refl (R : Finset α) : Retains R ∅ ∅ R 0 where
  loaded_subset := subset_rfl
  resident := Finset.subset_union_left
  missed := by simp
  card_le := le_rfl
  kept := Finset.empty_subset R
  card_eq := rfl

theorem Serve.subset_insert (h : Serve m may R p R' c) : R' ⊆ insert p R := by
  cases h with
  | hit h => exact Finset.subset_insert p R
  | fill h _ => exact subset_rfl
  | replace w h => exact Finset.insert_subset_insert p (Finset.erase_subset w R)

theorem Since.serve (h : Since R₀ asked loaded R n) (hserve : Serve m may R p R' c) :
    Since R₀ (insert p asked) (if p ∈ R then loaded else insert p loaded) R' (n + c) := by
  have hR' : R' ⊆ R₀ ∪ insert p asked := by
    rw [Finset.union_insert]
    exact hserve.subset_insert.trans (Finset.insert_subset_insert p h.resident)
  rw [hserve.cost_eq]
  split_ifs with hp
  · refine ⟨h.loaded_subset.trans (Finset.subset_insert p asked), hR', fun q hq => ?_, h.card_le⟩
    obtain ⟨hin, hout⟩ := Finset.mem_sdiff.mp hq
    rcases Finset.mem_insert.mp hin with rfl | hin
    · -- a resident page that was not there at first has been requested before
      have hasked := (Finset.mem_union.mp (h.resident hp)).resolve_left hout
      exact h.missed (Finset.mem_sdiff.mpr ⟨hasked, hout⟩)
    · exact h.missed (Finset.mem_sdiff.mpr ⟨hin, hout⟩)
  · refine ⟨Finset.insert_subset_insert p h.loaded_subset, hR', fun q hq => ?_, ?_⟩
    · obtain ⟨hin, hout⟩ := Finset.mem_sdiff.mp hq
      rcases Finset.mem_insert.mp hin with rfl | hin
      · exact Finset.mem_insert_self q loaded
      · exact Finset.mem_insert_of_mem (h.missed (Finset.mem_sdiff.mpr ⟨hin, hout⟩))
    · exact (Finset.card_insert_le p loaded).trans (Nat.succ_le_succ h.card_le)

/-- A page that has come in is given up only if all resident pages have been requested since,
which are then more than there is room for. -/
theorem Retains.serve (h : Retains R₀ asked loaded R n)
    (hserve : Serve m (fun w => w ∈ loaded → R ⊆ asked) R p R' c)
    (hroom : (insert p asked).card ≤ m) :
    Retains R₀ (insert p asked) (if p ∈ R then loaded else insert p loaded) R' (n + c) := by
  have hsince := h.toSince.serve hserve
  cases hserve with
  | hit hp =>
      rw [if_pos hp] at hsince ⊢
      exact ⟨hsince, h.kept, h.card_eq⟩
  | fill hp _ =>
      rw [if_neg hp] at hsince ⊢
      refine ⟨hsince, Finset.insert_subset_insert p h.kept, ?_⟩
      rw [Finset.card_insert_of_notMem fun hin => hp (h.kept hin), h.card_eq]
  | replace w hp hw hfull hmay =>
      rw [if_neg hp] at hsince ⊢
      have hwloaded : w ∉ loaded := by
        intro hin
        have hsub : insert p R ⊆ insert p asked := Finset.insert_subset_insert p (hmay hin)
        have hcard := Finset.card_le_card hsub
        rw [Finset.card_insert_of_notMem hp, hfull] at hcard
        omega
      refine ⟨hsince, Finset.insert_subset_insert p fun q hq => ?_, ?_⟩
      · exact Finset.mem_erase.mpr ⟨ne_of_mem_of_not_mem hq hwloaded, h.kept hq⟩
      · rw [Finset.card_insert_of_notMem fun hin => hp (h.kept hin), h.card_eq]

theorem Retains.le_card (h : Retains R₀ asked loaded R n) : n ≤ asked.card :=
  h.card_eq.trans_le (Finset.card_le_card h.loaded_subset)

/-- Pages other than the resident page `p` have to be brought in, but for those that are
resident besides it. -/
theorem Since.card_le_add (h : Since R₀ asked loaded R n) (hp : p ∈ R₀) {k : ℕ}
    (hk : R₀.card ≤ k) : (asked.erase p).card + 1 - k ≤ n := by
  have hsub : asked.erase p ⊆ loaded ∪ R₀.erase p := by
    intro q hq
    obtain ⟨hne, hin⟩ := Finset.mem_erase.mp hq
    by_cases hq₀ : q ∈ R₀
    · exact Finset.mem_union_right _ (Finset.mem_erase.mpr ⟨hne, hq₀⟩)
    · exact Finset.mem_union_left _ (h.missed (Finset.mem_sdiff.mpr ⟨hin, hq₀⟩))
  have hcard := (Finset.card_le_card hsub).trans (Finset.card_union_le _ _)
  have herase := Finset.card_erase_add_one hp
  have hle := h.card_le
  omega

/-! ## Cutting a sequence into phases -/

/-- The first phase of a sequence that does not fit into `m` frames, and the request that
ends it. -/
theorem exists_phase (xs : List α) (h : m < xs.toFinset.card) :
    ∃ w q rest, xs = w ++ q :: rest ∧ w.toFinset.card = m ∧ q ∉ w := by
  induction xs using List.reverseRecOn with
  | nil => simp at h
  | append_singleton xs x ih =>
      by_cases hxs : m < xs.toFinset.card
      · obtain ⟨w, q, rest, rfl, hw, hq⟩ := ih hxs
        exact ⟨w, q, rest ++ [x], by simp, hw, hq⟩
      · have hset : (xs ++ [x]).toFinset = insert x xs.toFinset := by
          ext q
          simp
        rw [hset] at h
        have hle := Finset.card_insert_le x xs.toFinset
        refine ⟨xs, x, [], rfl, by omega, fun hx => ?_⟩
        rw [Finset.insert_eq_of_mem (List.mem_toFinset.mpr hx)] at h
        exact hxs h

/-- With the request that ends it, a phase has as many pages besides the first one as there
are frames. -/
theorem card_erase_phase {q : α} {w : List α} (hw : (p :: w).toFinset.card = m)
    (hq : q ∉ p :: w) : ((w ++ [q]).toFinset.erase p).card = m := by
  have hset : (w ++ [q]).toFinset.erase p = insert q ((p :: w).toFinset.erase p) := by
    ext x
    simp only [Finset.mem_erase, List.mem_toFinset, List.mem_append, Finset.mem_insert,
      List.mem_cons] at hq ⊢
    grind
  have hqout : q ∉ (p :: w).toFinset.erase p := fun hin =>
    hq (List.mem_toFinset.mp (Finset.mem_of_mem_erase hin))
  have herase := Finset.card_erase_add_one
    (List.mem_toFinset.mpr (List.mem_cons_self (a := p) (l := w)))
  rw [hset, Finset.card_insert_of_notMem hqout, herase, hw]

section Comparison

variable {k : ℕ} (trace : List α) {A B : List α → ℕ}

/-- `A` counts the misses of a pager with `m` frames after each part of the trace, `B` those
of a pager with `k` frames.  Each phase costs `A` at most `m` misses, and `B` at least
`m + 1 - k` from its second request to the first one of the next phase. -/
theorem misses_ratio_le (hm : 0 < m)
    (hA : ∀ past w rest, trace = past ++ w ++ rest → w.toFinset.card ≤ m →
      A (past ++ w) ≤ A past + m)
    (hB : ∀ past p w rest, trace = past ++ p :: w ++ rest →
      B (past ++ [p]) + ((w.toFinset.erase p).card + 1 - k) ≤ B (past ++ p :: w)) :
    (m + 1 - k) * A trace ≤ (m + 1 - k) * A [] + m * B trace + m * (m + 1 - k) := by
  have hphases : ∀ len, ∀ past p rest, rest.length = len → trace = past ++ p :: rest →
      (m + 1 - k) * A trace + m * B (past ++ [p]) ≤
        (m + 1 - k) * A past + m * B trace + m * (m + 1 - k) := by
    intro len
    induction len using Nat.strong_induction_on with
    | h len ih =>
        intro past p rest hlen htrace
        by_cases hfits : (p :: rest).toFinset.card ≤ m
        · -- the last phase
          have hcost := hA past (p :: rest) [] (by simpa using htrace) hfits
          have hmono := hB past p rest [] (by simpa using htrace)
          rw [← htrace] at hcost hmono
          have hmul := Nat.mul_le_mul_left (m + 1 - k) hcost
          have hmul' := Nat.mul_le_mul_left m ((Nat.le_add_right _ _).trans hmono)
          rw [Nat.mul_add, Nat.mul_comm (m + 1 - k) m] at hmul
          omega
        · obtain ⟨w, q, rest', hsplit, hw, hq⟩ := exists_phase _ (Nat.lt_of_not_le hfits)
          cases w with
          | nil => exact absurd hw (Nat.ne_of_lt hm)
          | cons p' w =>
              obtain ⟨rfl, rfl⟩ : p = p' ∧ rest = w ++ q :: rest' := by simpa using hsplit
              have hlt : rest'.length < len := by
                rw [← hlen, List.length_append, List.length_cons]
                omega
              have hcost := hA past (p :: w) (q :: rest') (by simp [htrace]) hw.le
              have hother := hB past p (w ++ [q]) rest' (by simp [htrace])
              have hnext := ih _ hlt (past ++ p :: w) q rest' rfl (by simp [htrace])
              have hassoc : past ++ p :: (w ++ [q]) = past ++ p :: w ++ [q] := by simp
              rw [card_erase_phase hw hq, hassoc] at hother
              have hmul := Nat.mul_le_mul_left (m + 1 - k) hcost
              have hmul' := Nat.mul_le_mul_left m hother
              rw [Nat.mul_add, Nat.mul_comm (m + 1 - k) m] at hmul
              rw [Nat.mul_add] at hmul'
              omega
  cases htrace : trace with
  | nil => omega
  | cons p rest =>
      have hle := hphases rest.length [] p rest rfl htrace
      rw [htrace] at hle
      exact (Nat.le_add_right _ _).trans hle

end Comparison

end KernelProgramming.DemandPaging
