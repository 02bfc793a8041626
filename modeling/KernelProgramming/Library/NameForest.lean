import Mathlib.Order.Basic
import Mathlib.Tactic.Common

/-!
# Forests with named edges

Labelled edges lead from inner nodes to inner nodes and to leaves.  There is at
most one edge to an inner node, and inner nodes are above what their edges lead
to; a leaf may be at the end of several edges.
-/

namespace KernelProgramming.NameForest

variable {N E : Type*}

/-- The inner nodes form a forest under the edges. -/
structure Forest (edge : N → E → N → Prop) (inner : N → Prop) : Prop where
  parent : ∀ k q e f n, edge k e n → edge q f n → inner n → k = q ∧ e = f
  descends : ∃ height : N → ℕ, ∀ k e n, edge k e n → inner n → height n < height k

variable {edge edge' : N → E → N → Prop} {inner inner' : N → Prop} {p n : N} {e : E}

/-- Taking edges and inner nodes away, and changing edges to leaves. -/
theorem Forest.mono (h : Forest edge inner)
    (hedge : ∀ k e n, edge' k e n → inner' n → edge k e n ∧ inner n) : Forest edge' inner' where
  parent k q e f n hk hq hn :=
    have ⟨hk', hn'⟩ := hedge k e n hk hn
    h.parent k q e f n hk' (hedge q f n hq hn).1 hn'
  descends := by
    obtain ⟨height, hheight⟩ := h.descends
    exact ⟨height, fun k e n hk hn => hheight k e n (hedge k e n hk hn).1 (hedge k e n hk hn).2⟩

/-- A new inner node `n`, which has no edges yet, is put below `p`. -/
theorem Forest.graft (h : Forest edge inner) (hnp : n ≠ p) (hin : ∀ k f, ¬ edge k f n)
    (hout : ∀ f m, ¬ edge n f m)
    (hedge : ∀ k f m, edge' k f m → inner' m → edge k f m ∧ inner m ∨ k = p ∧ f = e ∧ m = n) :
    Forest edge' inner' where
  parent k q f g m hk hq hm := by
    rcases hedge k f m hk hm with ⟨hk, hm'⟩ | ⟨rfl, rfl, rfl⟩ <;>
      rcases hedge q g m hq hm with ⟨hq, -⟩ | ⟨rfl, rfl, heq⟩
    · exact h.parent k q f g m hk hq hm'
    · exact absurd (heq ▸ hk) (hin k f)
    · exact absurd hq (hin q g)
    · exact ⟨rfl, rfl⟩
  descends := by
    classical
    obtain ⟨height, hheight⟩ := h.descends
    -- the new node gets the bottom, the others move up
    refine ⟨fun m => if m = n then 0 else height m + 1, fun k f m hk hm => ?_⟩
    rcases hedge k f m hk hm with ⟨hk, hm⟩ | ⟨rfl, rfl, rfl⟩
    · have hkn : k ≠ n := by
        rintro rfl
        exact hout f m hk
      have hmn : m ≠ n := by
        rintro rfl
        exact hin k f hk
      have hlt := hheight k f m hk hm
      simp only [if_neg hkn, if_neg hmn]
      omega
    · simp only [if_pos, if_neg hnp.symm]
      omega

end KernelProgramming.NameForest
