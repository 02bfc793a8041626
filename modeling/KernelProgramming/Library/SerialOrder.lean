import Mathlib.Data.List.Nodup
import Mathlib.Logic.Function.Basic

/-!
# Serial orders

Calls on a shared state, each with an answer and a next state.  A serial order
explains the answers of concurrent calls if running the calls one after another
in that order gives each the same answer.
-/

namespace SerialOrder

variable {σ ρ ι : Type}

/-- What a call answers and does when it runs alone. -/
abbrev Service (σ ρ ι : Type) := ι → σ → ρ × σ

/-- The state after the calls in `order`, one after another. -/
def serve (service : Service σ ρ ι) (state : σ) (order : List ι) : σ :=
  order.foldl (fun state i => (service i state).2) state

@[simp] theorem serve_nil (service : Service σ ρ ι) (state : σ) :
    serve service state [] = state := rfl

theorem serve_concat (service : Service σ ρ ι) (state : σ) (order : List ι) (i : ι) :
    serve service state (order ++ [i]) = (service i (serve service state order)).2 := by
  simp [serve]

/-- The calls in `order` are those that have answered, and with these answers. -/
structure Explains (service : Service σ ρ ι) (state : σ) (order : List ι)
    (answer : ι → Option ρ) : Prop where
  nodup : order.Nodup
  mem_iff : ∀ i, i ∈ order ↔ (answer i).isSome = true
  answer_eq : ∀ past i rest, order = past ++ i :: rest →
    answer i = some (service i (serve service state past)).1

theorem explains_nil (service : Service σ ρ ι) (state : σ) :
    Explains service state [] fun _ => none where
  nodup := List.nodup_nil
  mem_iff i := by simp
  answer_eq past i rest h := by simp at h

variable [DecidableEq ι]

/-- One more call answers as it does after all the others. -/
theorem Explains.concat {service : Service σ ρ ι} {state : σ} {order : List ι}
    {answer : ι → Option ρ} (h : Explains service state order answer) {i : ι}
    (hpending : answer i = none) :
    Explains service state (order ++ [i])
      (Function.update answer i (some (service i (serve service state order)).1)) where
  nodup := by
    refine List.nodup_append.mpr ⟨h.nodup, List.nodup_singleton i, fun j hj k hk => ?_⟩
    rintro rfl
    have hsome := (h.mem_iff j).mp hj
    rw [List.mem_singleton.mp hk, hpending] at hsome
    simp at hsome
  mem_iff j := by
    by_cases hji : j = i
    · simp [hji]
    · simp [hji, h.mem_iff]
  answer_eq past j rest hsplit := by
    rcases List.eq_nil_or_concat rest with rfl | ⟨rest, last, rfl⟩
    · obtain ⟨rfl, hij⟩ := List.append_inj' hsplit rfl
      obtain rfl : i = j := List.head_eq_of_cons_eq hij
      simp
    · have hsplit' : order ++ [i] = (past ++ j :: rest) ++ [last] := by
        simpa [List.concat_eq_append] using hsplit
      obtain ⟨horder, -⟩ := List.append_inj' hsplit' rfl
      have hji : j ≠ i := by
        rintro rfl
        have hsome := (h.mem_iff j).mp (by simp [horder])
        rw [hpending] at hsome
        simp at hsome
      rw [Function.update_of_ne hji]
      exact h.answer_eq past j rest horder

end SerialOrder
