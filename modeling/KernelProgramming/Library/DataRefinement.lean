import Mathlib.Tactic.Common

/-!
# Refinement of a component by its calls

A component serves calls one after another, each with a reply and a new state.
The specification may leave a call without an outcome, which means that the
call must not be made; an implementation that follows the specification call
by call never fails on the sequences of calls that may be made, and replies as
the specification does.
-/

namespace KernelProgramming.DataRefinement

universe u

variable {ε ι : Type*} {σ τ ρ : Type u}

/-- The replies to a sequence of calls, and the state after them. -/
def runCalls {m : Type u → Type*} [Monad m] (serve : σ → ι → m (ρ × σ)) :
    σ → List ι → m (List ρ × σ)
  | s, [] => pure ([], s)
  | s, c :: calls => do
      let reply ← serve s c
      let rest ← runCalls serve reply.2 calls
      pure (reply.1 :: rest.1, rest.2)

/-- `R` relates states in which the implementation serves every permitted call as specified. -/
def Refines (R : σ → τ → Prop) (serve : σ → ι → Except ε (ρ × σ))
    (spec : τ → ι → Option (ρ × τ)) : Prop :=
  ∀ s t c reply, R s t → spec t c = some reply →
    ∃ s', serve s c = .ok (reply.1, s') ∧ R s' reply.2

theorem Refines.run {R : σ → τ → Prop} {serve : σ → ι → Except ε (ρ × σ)}
    {spec : τ → ι → Option (ρ × τ)} (h : Refines R serve spec) (calls : List ι) {s : σ} {t : τ}
    {reply : List ρ × τ} (hR : R s t) (hrun : runCalls spec t calls = some reply) :
    ∃ s', runCalls serve s calls = .ok (reply.1, s') ∧ R s' reply.2 := by
  induction calls generalizing s t reply with
  | nil =>
      obtain rfl := Option.some.inj hrun
      exact ⟨s, rfl, hR⟩
  | cons c calls ih =>
      obtain ⟨first, hfirst, hrun⟩ := Option.bind_eq_some_iff.mp hrun
      obtain ⟨rest, hrest, hrun⟩ := Option.bind_eq_some_iff.mp hrun
      obtain rfl := Option.some.inj hrun
      obtain ⟨s₁, hserve, hR₁⟩ := h s t c first hR hfirst
      obtain ⟨s₂, hcalls, hR₂⟩ := ih hR₁ hrest
      refine ⟨s₂, ?_, hR₂⟩
      rw [runCalls, hserve]
      change (runCalls serve s₁ calls >>= _) = _
      rw [hcalls]
      rfl

end KernelProgramming.DataRefinement
