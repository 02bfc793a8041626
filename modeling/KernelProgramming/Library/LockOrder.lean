import Mathlib.Data.DFinsupp.WellFounded
import Mathlib.Logic.Relation
import Mathlib.SetTheory.Cardinal.Order
import Mathlib.Tactic.Common

/-!
# Locks taken in an order

Threads that share a memory and wait for locks.  If each thread takes a lock
only after those that it holds, and gives back the ones that it holds, then no
thread waits forever.
-/

namespace KernelProgramming.LockOrder

open Relation Function

variable {σ ρ ℓ ι : Type*}

/-- What a thread has still to do. -/
inductive Code (σ ρ ℓ : Type*)
  | lock (l : ℓ) (rest : Code σ ρ ℓ)
  | unlock (l : ℓ) (rest : Code σ ρ ℓ)
  /-- an access to the memory; what comes next depends on what was there -/
  | act (f : σ → σ) (rest : σ → Code σ ρ ℓ)
  | ret (r : ρ)

namespace Code

variable {c c' : Code σ ρ ℓ}

/-- A statement that reads. -/
def read (rest : σ → Code σ ρ ℓ) : Code σ ρ ℓ := .act id rest

/-- A statement that writes. -/
def write (f : σ → σ) (rest : Code σ ρ ℓ) : Code σ ρ ℓ := .act f fun _ => rest

/-- The run of a thread without others. -/
def alone : Code σ ρ ℓ → σ → ρ × σ
  | .lock _ rest, m => rest.alone m
  | .unlock _ rest, m => rest.alone m
  | .act f rest, m => (rest m).alone (f m)
  | .ret r, m => (r, m)

/-- `c'` is what `c` leaves to do after one step. -/
inductive Next : Code σ ρ ℓ → Code σ ρ ℓ → Prop
  | lock (l : ℓ) (rest : Code σ ρ ℓ) : Next rest (.lock l rest)
  | unlock (l : ℓ) (rest : Code σ ρ ℓ) : Next rest (.unlock l rest)
  | act (f : σ → σ) (rest : σ → Code σ ρ ℓ) (m : σ) : Next (rest m) (.act f rest)

/-- A thread that holds `held` takes its locks in their order, changes the
memory as `Allowed` says and holds nothing in the end. -/
def Disciplined [LT ℓ] (Allowed : Set ℓ → (σ → σ) → Prop) : Code σ ρ ℓ → Set ℓ → Prop
  | .lock l rest, held => (∀ k ∈ held, k < l) ∧ rest.Disciplined Allowed (insert l held)
  | .unlock l rest, held => l ∈ held ∧ rest.Disciplined Allowed (held \ {l})
  | .act f rest, held => Allowed held f ∧ ∀ m, (rest m).Disciplined Allowed held
  | .ret _, held => held = ∅

end Code

/-- The memory, the holders of the locks and what the threads have still to do. -/
structure Threads (σ ρ ℓ ι : Type*) where
  memory : σ
  holder : ℓ → Option ι
  code : ι → Code σ ρ ℓ

namespace Threads

variable {s t u : Threads σ ρ ℓ ι} {i j : ι} {l : ℓ}

def start (memory : σ) (code : ι → Code σ ρ ℓ) : Threads σ ρ ℓ ι := ⟨memory, fun _ => none, code⟩

def held (s : Threads σ ρ ℓ ι) (i : ι) : Set ℓ := {l | s.holder l = some i}

def Returned (s : Threads σ ρ ℓ ι) (i : ι) (r : ρ) : Prop := s.code i = .ret r

section Discipline

variable [LinearOrder ℓ] {Allowed : Set ℓ → (σ → σ) → Prop}

/-- Each thread is disciplined from what it holds on. -/
def Orderly (Allowed : Set ℓ → (σ → σ) → Prop) (s : Threads σ ρ ℓ ι) : Prop :=
  ∀ i, (s.code i).Disciplined Allowed (s.held i)

theorem orderly_start {memory : σ} {code : ι → Code σ ρ ℓ}
    (h : ∀ i, (code i).Disciplined Allowed ∅) : (start memory code).Orderly Allowed := by
  intro i
  have hheld : (start memory code).held i = ∅ := Set.eq_empty_of_forall_notMem fun l hl => by
    cases (show none = some i from hl)
  rw [hheld]
  exact h i

theorem Orderly.at_lock (h : s.Orderly Allowed) {rest : Code σ ρ ℓ}
    (hcode : s.code i = .lock l rest) :
    (∀ k ∈ s.held i, k < l) ∧ rest.Disciplined Allowed (insert l (s.held i)) := by
  have hi := h i
  rwa [hcode] at hi

theorem Orderly.at_unlock (h : s.Orderly Allowed) {rest : Code σ ρ ℓ}
    (hcode : s.code i = .unlock l rest) :
    s.holder l = some i ∧ rest.Disciplined Allowed (s.held i \ {l}) := by
  have hi := h i
  rwa [hcode] at hi

theorem Orderly.at_act (h : s.Orderly Allowed) {f : σ → σ} {rest : σ → Code σ ρ ℓ}
    (hcode : s.code i = .act f rest) :
    Allowed (s.held i) f ∧ ∀ m, (rest m).Disciplined Allowed (s.held i) := by
  have hi := h i
  rwa [hcode] at hi

/-- No thread waits for a lock that it holds. -/
theorem Orderly.waits_for_other (h : s.Orderly Allowed) {rest : Code σ ρ ℓ}
    (hcode : s.code i = .lock l rest) : s.holder l ≠ some i :=
  fun hself => lt_irrefl l ((h.at_lock hcode).1 l hself)

end Discipline

/-! ## Steps -/

variable [DecidableEq ℓ] [DecidableEq ι]

/-- Thread `i` has had a step. -/
def after (s : Threads σ ρ ℓ ι) (i : ι) (memory : σ) (holder : ℓ → Option ι)
    (rest : Code σ ρ ℓ) : Threads σ ρ ℓ ι := ⟨memory, holder, update s.code i rest⟩

/-- A step of thread `i`.  A lock that is held, be it by `i` itself, is waited for. -/
inductive Step (s : Threads σ ρ ℓ ι) (i : ι) : Threads σ ρ ℓ ι → Prop
  | lock {l : ℓ} {rest : Code σ ρ ℓ} (hcode : s.code i = .lock l rest) (hfree : s.holder l = none) :
      Step s i (s.after i s.memory (update s.holder l (some i)) rest)
  | unlock {l : ℓ} {rest : Code σ ρ ℓ} (hcode : s.code i = .unlock l rest) :
      Step s i (s.after i s.memory (update s.holder l none) rest)
  | act {f : σ → σ} {rest : σ → Code σ ρ ℓ} (hcode : s.code i = .act f rest) :
      Step s i (s.after i (f s.memory) s.holder (rest s.memory))

/-- A step of any thread. -/
def Goes (s t : Threads σ ρ ℓ ι) : Prop := ∃ i, Step s i t

variable {memory : σ} {rest : Code σ ρ ℓ}

omit [DecidableEq ℓ] in
@[simp] theorem after_code_self {holder : ℓ → Option ι} :
    (s.after i memory holder rest).code i = rest := by simp [after]

omit [DecidableEq ℓ] in
theorem after_code_of_ne {holder : ℓ → Option ι} (hj : j ≠ i) :
    (s.after i memory holder rest).code j = s.code j := by simp [after, hj]

theorem Step.of_lock (h : Step s i t) (hcode : s.code i = .lock l rest) :
    s.holder l = none ∧ t = s.after i s.memory (update s.holder l (some i)) rest := by
  cases h with
  | lock hcode' hfree =>
      obtain ⟨rfl, rfl⟩ := Code.lock.inj (hcode.symm.trans hcode')
      exact ⟨hfree, rfl⟩
  | unlock hcode' => cases hcode.symm.trans hcode'
  | act hcode' => cases hcode.symm.trans hcode'

theorem Step.of_unlock (h : Step s i t) (hcode : s.code i = .unlock l rest) :
    t = s.after i s.memory (update s.holder l none) rest := by
  cases h with
  | lock hcode' => cases hcode.symm.trans hcode'
  | unlock hcode' =>
      obtain ⟨rfl, rfl⟩ := Code.unlock.inj (hcode.symm.trans hcode')
      rfl
  | act hcode' => cases hcode.symm.trans hcode'

theorem Step.of_act (h : Step s i t) {f : σ → σ} {k : σ → Code σ ρ ℓ}
    (hcode : s.code i = .act f k) : t = s.after i (f s.memory) s.holder (k s.memory) := by
  cases h with
  | lock hcode' => cases hcode.symm.trans hcode'
  | unlock hcode' => cases hcode.symm.trans hcode'
  | act hcode' =>
      obtain ⟨rfl, rfl⟩ := Code.act.inj (hcode.symm.trans hcode')
      rfl

theorem Step.not_returned (h : Step s i t) {r : ρ} : ¬ s.Returned i r := by
  intro hret
  rw [Returned] at hret
  cases h with
  | lock hcode => cases hret.symm.trans hcode
  | unlock hcode => cases hret.symm.trans hcode
  | act hcode => cases hret.symm.trans hcode

theorem held_of_ne {o : Option ι} (hfree : s.holder l ≠ some j) (ho : o ≠ some j) :
    (s.after i memory (update s.holder l o) rest).held j = s.held j := by
  ext k
  by_cases hk : k = l
  · subst hk
    simp [after, held, hfree, ho]
  · simp [after, held, hk]

theorem held_lock :
    (s.after i memory (update s.holder l (some i)) rest).held i = insert l (s.held i) := by
  ext k
  by_cases hk : k = l
  · simp [after, held, hk]
  · simp [after, held, hk]

theorem held_unlock :
    (s.after i memory (update s.holder l none) rest).held i = s.held i \ {l} := by
  ext k
  by_cases hk : k = l
  · simp [after, held, hk]
  · simp [after, held, hk]

section Discipline

variable [LinearOrder ℓ] {Allowed : Set ℓ → (σ → σ) → Prop}

theorem Step.orderly (hstep : Step s i t) (h : s.Orderly Allowed) : t.Orderly Allowed := by
  intro j
  by_cases hji : j = i
  · subst hji
    cases hstep with
    | lock hcode =>
        rw [held_lock, after_code_self]
        exact (h.at_lock hcode).2
    | unlock hcode =>
        rw [held_unlock, after_code_self]
        exact (h.at_unlock hcode).2
    | act hcode =>
        rw [after_code_self]
        exact (h.at_act hcode).2 _
  · have hij : i ≠ j := fun heq => hji heq.symm
    cases hstep with
    | lock hcode hfree =>
        rw [held_of_ne (by simp [hfree]) (by simpa using hij), after_code_of_ne hji]
        exact h j
    | unlock hcode =>
        rw [held_of_ne (by simpa [(h.at_unlock hcode).1] using hij) (by simp),
          after_code_of_ne hji]
        exact h j
    | act hcode =>
        rw [after_code_of_ne hji]
        exact h j

theorem orderly_of_reflTransGen (hrun : ReflTransGen Goes s t) (h : s.Orderly Allowed) :
    t.Orderly Allowed := by
  induction hrun with
  | refl => exact h
  | tail _ hstep ih =>
      obtain ⟨i, hstep⟩ := hstep
      exact hstep.orderly ih

/-! ## No thread waits forever -/

variable [WellFoundedGT ℓ]

end Discipline

/-! ## Every run comes to an end -/

omit [DecidableEq ℓ] in
theorem after_next {holder : ℓ → Option ι} (h : rest.Next (s.code i)) :
    let t := s.after i memory holder rest
    (t.code i).Next (s.code i) ∧ ∀ j, j ≠ i → t.code j = s.code j :=
  ⟨by simpa using h, fun _ hj => after_code_of_ne hj⟩

theorem Step.next (h : Step s i t) :
    (t.code i).Next (s.code i) ∧ ∀ j, j ≠ i → t.code j = s.code j := by
  cases h with
  | lock hcode => exact after_next (by rw [hcode]; exact .lock _ _)
  | unlock hcode => exact after_next (by rw [hcode]; exact .unlock _ _)
  | act hcode => exact after_next (by rw [hcode]; exact .act _ _ _)

/-- If the others hold no lock, thread `i` can go on to its end, and does what it does alone. -/
theorem Orderly.runs_alone [LinearOrder ℓ] {Allowed : Set ℓ → (σ → σ) → Prop}
    (h : s.Orderly Allowed) (hfree : ∀ l j, s.holder l = some j → j = i) :
    ∃ t, ReflTransGen (fun s t => Step s i t) s t ∧
      t.Returned i ((s.code i).alone s.memory).1 ∧ t.memory = ((s.code i).alone s.memory).2 := by
  generalize hcode : s.code i = c
  induction c generalizing s with
  | lock l rest ih =>
      have hnone : s.holder l = none := by
        cases hl : s.holder l with
        | none => rfl
        | some j =>
            obtain rfl := hfree l j hl
            exact absurd hl (h.waits_for_other hcode)
      have hstep := Step.lock hcode hnone
      obtain ⟨t, hrun, ht⟩ := ih (hstep.orderly h) (fun k j hk => by
        by_cases hkl : k = l
        · subst hkl
          simpa [after, eq_comm] using hk
        · exact hfree k j (by simpa [after, hkl] using hk)) after_code_self
      exact ⟨t, .head hstep hrun, ht⟩
  | unlock l rest ih =>
      have hstep := Step.unlock hcode
      obtain ⟨t, hrun, ht⟩ := ih (hstep.orderly h) (fun k j hk => by
        by_cases hkl : k = l
        · subst hkl
          simp [after] at hk
        · exact hfree k j (by simpa [after, hkl] using hk)) after_code_self
      exact ⟨t, .head hstep hrun, ht⟩
  | act f rest ih =>
      have hstep := Step.act hcode
      obtain ⟨t, hrun, ht⟩ := ih _ (hstep.orderly h) hfree after_code_self
      exact ⟨t, .head hstep hrun, ht⟩
  | ret r => exact ⟨s, .refl, hcode, rfl⟩

/-! ## What a lock guards -/

section Guards

variable [LinearOrder ℓ] {Allowed : Set ℓ → (σ → σ) → Prop} {γ : Type*} {part : σ → γ}

/-- The part of the memory that `l` guards stays when another thread has a step. -/
theorem Step.guarded (hstep : Step s i t) (h : s.Orderly Allowed)
    (hpart : ∀ held f, Allowed held f → l ∉ held → ∀ m, part (f m) = part m)
    (hl : s.holder l = some j) (hij : i ≠ j) :
    part t.memory = part s.memory ∧ t.holder l = some j := by
  cases hstep with
  | @lock k rest hcode hfree =>
      have hlk : l ≠ k := by
        rintro rfl
        rw [hfree] at hl
        cases hl
      exact ⟨rfl, (update_of_ne hlk ..).trans hl⟩
  | @unlock k rest hcode =>
      have hown := (h.at_unlock hcode).1
      have hlk : l ≠ k := by
        rintro rfl
        exact hij (Option.some.inj (hown.symm.trans hl))
      exact ⟨rfl, (update_of_ne hlk ..).trans hl⟩
  | act hcode =>
      exact ⟨hpart _ _ (h.at_act hcode).1 (fun hin => hij (Option.some.inj (hin.symm.trans hl))) _,
        hl⟩

theorem Step.guarded_all (hstep : Step s i t) (h : s.Orderly Allowed)
    (hstill : ∀ f, Allowed ∅ f → ∀ m, f m = m) (hall : ∀ l, s.holder l = some j) (hij : i ≠ j) :
    t.memory = s.memory ∧ ∀ l, t.holder l = some j := by
  have hnone : s.held i = ∅ := Set.eq_empty_of_forall_notMem fun l hl =>
    hij (Option.some.inj (hl.symm.trans (hall l)))
  cases hstep with
  | lock hcode hfree =>
      rw [hall] at hfree
      cases hfree
  | unlock hcode => exact absurd (Option.some.inj ((h.at_unlock hcode).1.symm.trans (hall _))) hij
  | act hcode =>
      have hallowed := (h.at_act hcode).1
      rw [hnone] at hallowed
      exact ⟨hstill _ hallowed _, hall⟩

/-- Steps of threads other than `j`. -/
def OthersGo (j : ι) (s t : Threads σ ρ ℓ ι) : Prop := ∃ i ≠ j, Step s i t

theorem Orderly.guarded (h : s.Orderly Allowed) (hrun : ReflTransGen (OthersGo j) s t)
    (hpart : ∀ held f, Allowed held f → l ∉ held → ∀ m, part (f m) = part m)
    (hl : s.holder l = some j) :
    part t.memory = part s.memory ∧ t.holder l = some j ∧ t.Orderly Allowed := by
  induction hrun with
  | refl => exact ⟨rfl, hl, h⟩
  | tail _ hstep ih =>
      obtain ⟨hmem, hheld, ho⟩ := ih
      obtain ⟨i, hij, hstep⟩ := hstep
      obtain ⟨hmem', hheld'⟩ := hstep.guarded ho hpart hheld hij
      exact ⟨hmem'.trans hmem, hheld', hstep.orderly ho⟩

/-- The holder of all locks has the memory to itself. -/
theorem Orderly.guarded_all (h : s.Orderly Allowed) (hrun : ReflTransGen (OthersGo j) s t)
    (hstill : ∀ f, Allowed ∅ f → ∀ m, f m = m) (hall : ∀ l, s.holder l = some j) :
    t.memory = s.memory ∧ (∀ l, t.holder l = some j) ∧ t.Orderly Allowed := by
  induction hrun with
  | refl => exact ⟨rfl, hall, h⟩
  | tail _ hstep ih =>
      obtain ⟨hmem, hheld, ho⟩ := ih
      obtain ⟨i, hij, hstep⟩ := hstep
      obtain ⟨hmem', hheld'⟩ := hstep.guarded_all ho hstill hheld hij
      exact ⟨hmem'.trans hmem, hheld', hstep.orderly ho⟩

end Guards

end Threads

end KernelProgramming.LockOrder
