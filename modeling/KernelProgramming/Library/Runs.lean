import Mathlib.Data.List.Induction
import Mathlib.Tactic.Common

/-!
# Outcomes of computations that may stop

`Yields x Q E` says that the computation `x` either returns a value with `Q`
or stops with an error in `E`.  Taking `E` empty makes it a total correctness
statement, taking it everything a partial one.  The rules below compose such
statements along binds and along runs over a list of inputs, where the
invariant may speak about the inputs consumed so far.
-/

namespace KernelProgramming.Runs

universe u

variable {ε ι : Type*} {α β : Type u}

def Yields (x : Except ε α) (Q : α → Prop) (E : ε → Prop) : Prop :=
  match x with
  | .ok a => Q a
  | .error e => E e

@[simp] theorem yields_ok {a : α} {Q : α → Prop} {E : ε → Prop} :
    Yields (.ok a) Q E ↔ Q a := Iff.rfl

@[simp] theorem yields_error {e : ε} {Q : α → Prop} {E : ε → Prop} :
    Yields (.error e : Except ε α) Q E ↔ E e := Iff.rfl

theorem Yields.of_eq_ok {x : Except ε α} {Q : α → Prop} {E : ε → Prop} (h : Yields x Q E)
    {a : α} (hx : x = .ok a) : Q a := by
  rw [hx] at h
  exact h

theorem yields_of_eq_ok {x : Except ε α} {Q : α → Prop} {E : ε → Prop} {a : α} (hx : x = .ok a)
    (h : Q a) : Yields x Q E := by
  rw [hx]
  exact h

theorem Yields.mono {x : Except ε α} {Q Q' : α → Prop} {E E' : ε → Prop} (h : Yields x Q E)
    (hQ : ∀ a, Q a → Q' a) (hE : ∀ e, E e → E' e) : Yields x Q' E' := by
  cases x with
  | ok a => exact hQ a h
  | error e => exact hE e h

/-- The value reached may be remembered as a value of the computation. -/
theorem Yields.and_eq {x : Except ε α} {Q : α → Prop} {E : ε → Prop} (h : Yields x Q E) :
    Yields x (fun a => x = .ok a ∧ Q a) E := by
  cases x with
  | ok a => exact ⟨rfl, h⟩
  | error e => exact h

theorem Yields.bind {x : Except ε α} {f : α → Except ε β} {Q : β → Prop} {R : α → Prop}
    {E : ε → Prop} (hx : Yields x R E) (hf : ∀ a, R a → Yields (f a) Q E) :
    Yields (x >>= f) Q E := by
  cases x with
  | ok a => exact hf a hx
  | error e => exact hx

theorem yields_true (x : Except ε α) : Yields x (fun _ => True) fun _ => True := by
  cases x <;> trivial

theorem Yields.exists_ok {x : Except ε α} {Q : α → Prop} (h : Yields x Q fun _ => False) :
    ∃ a, x = .ok a ∧ Q a := by
  cases x with
  | ok a => exact ⟨a, rfl, h⟩
  | error e => exact h.elim

theorem bind_eq_ok_iff {x : Except ε α} {f : α → Except ε β} {b : β} :
    (x >>= f) = .ok b ↔ ∃ a, x = .ok a ∧ f a = .ok b := by
  constructor
  · intro h
    cases x with
    | ok a => exact ⟨a, rfl, h⟩
    | error e => cases h
  · rintro ⟨a, rfl, h⟩
    exact h

theorem exists_of_isOk {x : Except ε α} (h : x.isOk = true) : ∃ a, x = .ok a := by
  cases x with
  | ok a => exact ⟨a, rfl⟩
  | error e => cases h

/-! ## Runs over a list of inputs -/

variable {step : α → ι → Except ε α}

theorem foldlM_append_ok_iff {a b : α} {xs ys : List ι} :
    (xs ++ ys).foldlM step a = .ok b ↔
      ∃ c, xs.foldlM step a = .ok c ∧ ys.foldlM step c = .ok b := by
  rw [List.foldlM_append]
  exact bind_eq_ok_iff

theorem foldlM_concat_ok_iff {a b : α} {xs : List ι} {x : ι} :
    (xs ++ [x]).foldlM step a = .ok b ↔
      ∃ c, xs.foldlM step a = .ok c ∧ step c x = .ok b := by
  rw [foldlM_append_ok_iff]
  constructor
  · rintro ⟨c, hc, hstep⟩
    obtain ⟨d, hd, hnil⟩ := bind_eq_ok_iff.mp hstep
    exact ⟨c, hc, by rw [hd, ← hnil]; rfl⟩
  · rintro ⟨c, hc, hstep⟩
    exact ⟨c, hc, bind_eq_ok_iff.mpr ⟨b, hstep, rfl⟩⟩

/-- An invariant that speaks about the inputs consumed so far holds at the end
of a run if every step of the run keeps it. -/
theorem run_yields {Inv : List ι → α → Prop} {E : ε → Prop} {start : α} (xs : List ι)
    (hstart : Inv [] start)
    (hstep : ∀ past x rest a, xs = past ++ x :: rest → past.foldlM step start = .ok a →
      Inv past a → Yields (step a x) (Inv (past ++ [x])) E) :
    Yields (xs.foldlM step start) (Inv xs) E := by
  induction xs using List.reverseRecOn with
  | nil => exact hstart
  | append_singleton xs x ih =>
      have hpast := ih (by
        intro past y rest a hxs hrun hinv
        exact hstep past y (rest ++ [x]) a (by simp [hxs]) hrun hinv)
      rw [List.foldlM_append]
      apply hpast.and_eq.bind
      rintro a ⟨hrun, hinv⟩
      have hlast := hstep xs x [] a rfl hrun hinv
      change Yields (step a x >>= pure) _ E
      rw [bind_pure]
      exact hlast

theorem run_keeps {Inv : α → Prop} {E : ε → Prop} {start : α} (xs : List ι) (hstart : Inv start)
    (hstep : ∀ past x rest a, xs = past ++ x :: rest → past.foldlM step start = .ok a →
      Inv a → Yields (step a x) Inv E) :
    Yields (xs.foldlM step start) Inv E := by
  have hrun : Yields (xs.foldlM step start) ((fun _ : List ι => Inv) xs) E := by
    apply run_yields xs
    · exact hstart
    · exact hstep
  exact hrun

theorem run_invariant {Inv : List ι → α → Prop} {start last : α} {xs : List ι}
    (hstart : Inv [] start)
    (hstep : ∀ past x rest a b, xs = past ++ x :: rest → past.foldlM step start = .ok a →
      Inv past a → step a x = .ok b → Inv (past ++ [x]) b)
    (hrun : xs.foldlM step start = .ok last) : Inv xs last := by
  have h : Yields (xs.foldlM step start) (Inv xs) (fun _ : ε => True) := by
    apply run_yields xs hstart
    intro past x rest a hxs hpast hinv
    cases hx : step a x with
    | ok b => exact hstep past x rest a b hxs hpast hinv hx
    | error e => trivial
  exact h.of_eq_ok hrun

end KernelProgramming.Runs
