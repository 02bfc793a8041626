import Mathlib.Data.Fintype.Card
import Mathlib.Data.Set.Finite.Basic
import Mathlib.Logic.Relation
import Mathlib.Tactic.Common

/-!
# Loops whose rounds stop or go on

A round at `a` returns a result, or the place of the next round, or it fails.
If the rounds go on to finitely many places only, the loop from `a` returns
exactly when no round on its way fails and none is at a place for the second time.
-/

namespace KernelProgramming.Rounds

open Relation

variable {ε α β : Type*} {e : ε} {round : α → Except ε (β ⊕ α)} {a b c : α} {n : ℕ} {r : β}

/-- At most `n` rounds, `e` if these are not enough. -/
def loop (e : ε) (round : α → Except ε (β ⊕ α)) : ℕ → α → Except ε β
  | 0, _ => .error e
  | n + 1, a =>
      match round a with
      | .error f => .error f
      | .ok (.inl r) => .ok r
      | .ok (.inr b) => loop e round n b

def GoesOn (round : α → Except ε (β ⊕ α)) (a b : α) : Prop := round a = .ok (.inr b)

theorem GoesOn.unique (h : GoesOn round a b) (h' : GoesOn round a c) : b = c :=
  Sum.inr.inj (Except.ok.inj (h.symm.trans h'))

theorem GoesOn.loop_eq (h : GoesOn round a b) (n : ℕ) :
    loop e round (n + 1) a = loop e round n b := by
  rw [loop, h]

/-- The rounds that are left at a place on the way. -/
theorem exists_loop_of_goesOn (h : GoesOn round a b) (hloop : loop e round n a = .ok r) :
    ∃ m < n, loop e round m b = .ok r := by
  cases n with
  | zero => cases hloop
  | succ n =>
      rw [h.loop_eq] at hloop
      exact ⟨n, Nat.lt_succ_self n, hloop⟩

theorem exists_loop_of_transGen (h : TransGen (GoesOn round) a b)
    (hloop : loop e round n a = .ok r) : ∃ m < n, loop e round m b = .ok r := by
  induction h with
  | single h => exact exists_loop_of_goesOn h hloop
  | tail _ h ih =>
      obtain ⟨m, hm, hloop'⟩ := ih
      obtain ⟨k, hk, hloop''⟩ := exists_loop_of_goesOn h hloop'
      exact ⟨k, hk.trans hm, hloop''⟩

theorem exists_loop_of_reflTransGen (h : ReflTransGen (GoesOn round) a b)
    (hloop : loop e round n a = .ok r) : ∃ m ≤ n, loop e round m b = .ok r := by
  rcases reflTransGen_iff_eq_or_transGen.mp h with rfl | h
  · exact ⟨n, le_rfl, hloop⟩
  · obtain ⟨m, hm, hloop'⟩ := exists_loop_of_transGen h hloop
    exact ⟨m, hm.le, hloop'⟩

theorem not_transGen_self (hloop : loop e round n a = .ok r) :
    ¬ TransGen (GoesOn round) a a := by
  intro h
  induction n using Nat.strong_induction_on with
  | _ n ih =>
      obtain ⟨m, hm, hloop'⟩ := exists_loop_of_transGen h hloop
      exact ih m hm hloop'

theorem exists_round_of_loop (hloop : loop e round n a = .ok r) : ∃ x, round a = .ok x := by
  cases n with
  | zero => cases hloop
  | succ n =>
      rw [loop] at hloop
      cases hround : round a with
      | error f =>
          rw [hround] at hloop
          cases hloop
      | ok x => exact ⟨x, rfl⟩

/-- The result is that of the last round. -/
theorem exists_last_of_loop (hloop : loop e round n a = .ok r) :
    ∃ b, ReflTransGen (GoesOn round) a b ∧ round b = .ok (.inl r) := by
  induction n generalizing a with
  | zero => cases hloop
  | succ n ih =>
      rw [loop] at hloop
      split at hloop
      · cases hloop
      · next s hround =>
          obtain rfl := Except.ok.inj hloop
          exact ⟨a, .refl, hround⟩
      · next b hround =>
          obtain ⟨c, hc, hlast⟩ := ih hloop
          exact ⟨c, .head hround hc, hlast⟩

theorem finite_reached (hfin : {b | ∃ a, GoesOn round a b}.Finite) (a : α) :
    {b | ReflTransGen (GoesOn round) a b}.Finite := by
  apply (hfin.insert a).subset
  intro b hb
  rcases ReflTransGen.cases_tail hb with rfl | ⟨c, -, hc⟩
  · exact Set.mem_insert _ _
  · exact Set.mem_insert_of_mem _ ⟨c, hc⟩

/-- Without a way back the places on the way are well-founded, being finitely
many. -/
theorem exists_loop_of_no_return (hfin : {b | ∃ a, GoesOn round a b}.Finite)
    (hway : ∀ b, ReflTransGen (GoesOn round) a b →
      (∃ x, round b = .ok x) ∧ ¬ TransGen (GoesOn round) b b) :
    ∃ n r, loop e round n a = .ok r := by
  let Place := {b // ReflTransGen (GoesOn round) a b}
  have : Finite Place := finite_reached hfin a
  let later : Place → Place → Prop := fun x y => TransGen (GoesOn round) y.1 x.1
  have : IsTrans Place later := ⟨fun _ _ _ hxy hyz => hyz.trans hxy⟩
  have : Std.Irrefl later := ⟨fun x => (hway x.1 x.2).2⟩
  have hwf : WellFounded later := Finite.wellFounded_of_trans_of_irrefl later
  have hall : ∀ x : Place, ∃ n r, loop e round n x.1 = .ok r := by
    intro x
    induction x using hwf.induction with
    | _ x ih =>
        obtain ⟨⟨y, hround⟩, -⟩ := hway x.1 x.2
        cases y with
        | inl r => exact ⟨1, r, by rw [loop, hround]⟩
        | inr b =>
            obtain ⟨n, r, hloop⟩ := ih ⟨b, x.2.tail hround⟩ (.single hround)
            exact ⟨n + 1, r, by rw [GoesOn.loop_eq hround, hloop]⟩
  exact hall ⟨a, .refl⟩

theorem exists_loop_iff (hfin : {b | ∃ a, GoesOn round a b}.Finite) :
    (∃ n r, loop e round n a = .ok r) ↔ ∀ b, ReflTransGen (GoesOn round) a b →
      (∃ x, round b = .ok x) ∧ ¬ TransGen (GoesOn round) b b := by
  constructor
  · rintro ⟨n, r, hloop⟩ b hb
    obtain ⟨m, -, hloop'⟩ := exists_loop_of_reflTransGen hb hloop
    exact ⟨exists_round_of_loop hloop', not_transGen_self hloop'⟩
  · exact exists_loop_of_no_return hfin

end KernelProgramming.Rounds
