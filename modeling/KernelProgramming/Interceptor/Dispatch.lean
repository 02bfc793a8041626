import KernelProgramming.Interceptor.Unload

/-!
# Dispatching a system call

The kernel calls the handler in the slot given by the register `ax`.  If that
is `interceptor`, the call is logged where it is monitored and passed on to the
saved handler.
-/

namespace KernelProgramming.Interceptor

variable {α : Type} {K : Kernel α}

structure PtRegs where
  ax : ℤ
  bx : ℤ
  cx : ℤ
  dx : ℤ
  si : ℤ
  di : ℤ
  bp : ℤ
  deriving DecidableEq, Repr

structure LogMessage where
  pid : ℤ
  reg : PtRegs
  deriving DecidableEq, Repr

/-- `interceptor`: what it logs, and the handler that it calls with `reg`. -/
def interceptorCall (m : Module α) (pid : ℤ) (reg : PtRegs) : List LogMessage × α :=
  let e := m.table reg.ax.toNat
  (if e.logged pid then [⟨pid, reg⟩] else [], e.f)

/-- The calls that a call of `handler` leads to, at most `depth` deep. -/
def handlerCalls [DecidableEq α] (K : Kernel α) (m : Module α) (pid : ℤ) :
    ℕ → α → PtRegs → Option (List (α × PtRegs))
  | 0, _, _ => none
  | depth + 1, handler, reg =>
      if handler = K.interceptor then
        (handlerCalls K m pid depth (interceptorCall m pid reg).2 reg).map ((handler, reg) :: ·)
      else some [(handler, reg)]

/-- The kernel's dispatch of a system call by process `pid`. -/
def dispatch [DecidableEq α] (K : Kernel α) (m : Module α) (pid : ℤ) (depth : ℕ) (reg : PtRegs) :
    Option (List (α × PtRegs)) :=
  handlerCalls K m pid depth (m.sysCallTable reg.ax.toNat) reg

/-- Intercepted slots hold `interceptor`. -/
def Hooks.Marked (K : Kernel α) (h : Hooks α) : Prop :=
  ∀ i, h.intercepted i = true → h.sysCallTable i = K.interceptor

theorem HooksStep.marked {m : Module α} {e : Event} {h : Hooks α} (hstep : HooksStep K m e h)
    (hm : m.hooks.Marked K) : h.Marked K := by
  cases hstep with
  | idle heq => rwa [heq]
  | intercept s hs hevent hfree heq =>
      intro i hi
      rw [heq] at hi ⊢
      by_cases his : i = s
      · simp [his]
      · simpa [his, Module.hooks] using hm i (by simpa [his] using hi)
  | release s hs hevent htaken heq =>
      intro i hi
      rw [heq] at hi ⊢
      have his : i ≠ s := by
        rintro rfl
        simp at hi
      simpa [his, Module.hooks] using hm i (by simpa [his] using hi)

theorem run_marked (K : Kernel α) (initial : ℕ → α) (events : List Event) :
    (run K (initFunction K initial) events).hooks.Marked K := by
  induction events using List.reverseRecOn with
  | nil => exact fun i hi => absurd hi Bool.false_ne_true
  | append_singleton events e ih =>
      rw [run_concat]
      exact (step_hooks K _ e).marked ih

/-- A slot holds its original handler or is hooked with that handler saved. -/
theorem slot_cases (K : Kernel α) (initial : ℕ → α) (events : List Event) {s : ℕ} (hs : 1 ≤ s)
    (hexit : s ≠ K.nrExitGroup) :
    let m := run K (initFunction K initial) events
    m.sysCallTable s = initial s ∧ (m.table s).intercepted = false ∨
      m.sysCallTable s = K.interceptor ∧ (m.table s).intercepted = true ∧
        (m.table s).f = initial s := by
  intro m
  obtain ⟨hm, -⟩ := run_hooked K initial events
  have hbehind : K.behind initial s = initial s := if_neg hexit
  have hcustom : s ≠ myCustomSyscall := Nat.ne_of_gt hs
  cases hint : (m.table s).intercepted with
  | true =>
      refine Or.inr ⟨run_marked K initial events s hint, rfl, ?_⟩
      rw [← hbehind]
      exact hm.saved s hcustom hint
  | false =>
      refine Or.inl ⟨?_, rfl⟩
      rw [← hbehind]
      exact hm.untouched s hcustom hint

/-- In every reachable state a slot holds its original handler or is hooked
with that handler saved; either way a dispatched call comes to the original
handler once, with the registers of the caller, after at most one call of
`interceptor`. -/
theorem interception_transparent [DecidableEq α] (K : Kernel α) (initial : ℕ → α)
    (events : List Event) {s : ℕ} (hs : 1 ≤ s ∧ s < K.nrSyscalls) (hexit : s ≠ K.nrExitGroup)
    (hinitial : initial s ≠ K.interceptor) :
    let m := run K (initFunction K initial) events
    (m.sysCallTable s = initial s ∧ (m.table s).intercepted = false ∨
      m.sysCallTable s = K.interceptor ∧ (m.table s).intercepted = true ∧
        (m.table s).f = initial s) ∧
    ∀ (pid : ℤ) (reg : PtRegs) (depth : ℕ), reg.ax = s → 2 ≤ depth →
      dispatch K m pid depth reg = some ((if (m.table s).intercepted = true then
        [(K.interceptor, reg)] else []) ++ [(initial s, reg)]) := by
  intro m
  have hslot := slot_cases K initial events hs.1 hexit
  refine ⟨hslot, fun pid reg depth hax hdepth => ?_⟩
  obtain ⟨k, rfl⟩ : ∃ k, depth = k + 2 := ⟨depth - 2, by omega⟩
  have hindex : reg.ax.toNat = s := by rw [hax, Int.toNat_natCast]
  rw [dispatch, hindex]
  rcases hslot with ⟨hslot, hint⟩ | ⟨hslot, hint, hf⟩
  · rw [hslot, hint, handlerCalls, if_neg hinitial]
    rfl
  · have hnext : (interceptorCall m pid reg).2 = initial s := by
      rw [interceptorCall, hindex]
      exact hf
    rw [hslot, hint, handlerCalls, if_pos rfl, hnext, handlerCalls, if_neg hinitial]
    rfl

/-- An intercepted call, seen by a process that is not monitored. -/
theorem interception_transparent_read :
    let m := run i386 (initFunction i386 fun i => 1000 + i)
      [.command ⟨1, 0, fun _ => some 0, rfl, true⟩ requestSyscallIntercept 3 0]
    (m.sysCallTable 3 = 1000 + 3 ∧ (m.table 3).intercepted = false ∨
      m.sysCallTable 3 = i386.interceptor ∧ (m.table 3).intercepted = true ∧
        (m.table 3).f = 1000 + 3) ∧
    ∀ (pid : ℤ) (reg : PtRegs) (depth : ℕ), reg.ax = (3 : ℕ) → 2 ≤ depth →
      dispatch i386 m pid depth reg = some ((if (m.table 3).intercepted = true then
        [(i386.interceptor, reg)] else []) ++ [(1000 + 3, reg)]) :=
  interception_transparent i386 (fun i => 1000 + i) _ (by decide) (by decide) (by decide)

end KernelProgramming.Interceptor
