import Mathlib.Data.List.Induction
import KernelProgramming.Interceptor.Module

/-!
# Unloading the module

`init_function` and `REQUEST_SYSCALL_INTERCEPT` save handlers independently of
each other, and both may do so for `exit_group`.  The invariant says what lies
behind every slot; from it the table after `exit_function` is read off.
-/

namespace KernelProgramming.Interceptor

variable {α : Type}

/-- The part of the state that commands on pids leave alone. -/
@[ext] structure Hooks (α : Type) where
  sysCallTable : ℕ → α
  f : ℕ → α
  intercepted : ℕ → Bool
  origCustomSyscall : α
  origExitGroup : α

def Module.hooks (m : Module α) : Hooks α where
  sysCallTable := m.sysCallTable
  f i := (m.table i).f
  intercepted i := (m.table i).intercepted
  origCustomSyscall := m.origCustomSyscall
  origExitGroup := m.origExitGroup

/-- An operation on entries that only concerns pids. -/
def KeepsHooks (g : MyTable α → MyTable α) : Prop :=
  ∀ e, (g e).f = e.f ∧ (g e).intercepted = e.intercepted

theorem hooks_setEntry {g : MyTable α → MyTable α} (hg : KeepsHooks g) (m : Module α) (s : ℕ) :
    (m.setEntry s g).hooks = m.hooks := by
  ext i <;> try rfl
  · by_cases hi : i = s
    · simp [Module.hooks, Module.setEntry, hi, (hg _).1]
    · simp [Module.hooks, Module.setEntry, hi]
  · by_cases hi : i = s
    · simp [Module.hooks, Module.setEntry, hi, (hg _).2]
    · simp [Module.hooks, Module.setEntry, hi]

theorem keepsHooks_addPid (pid : ℤ) : KeepsHooks fun e : MyTable α => e.addPid pid :=
  fun _ => ⟨rfl, rfl⟩

theorem keepsHooks_unlink (pid : ℤ) : KeepsHooks fun e : MyTable α => e.unlink pid :=
  fun _ => ⟨rfl, rfl⟩

theorem keepsHooks_addCount (n : BitVec 32) : KeepsHooks fun e : MyTable α => e.addCount n :=
  fun _ => ⟨rfl, rfl⟩

theorem keepsHooks_setMonitored (monitored : Monitored) :
    KeepsHooks fun e : MyTable α => e.setMonitored monitored :=
  fun _ => ⟨rfl, rfl⟩

theorem keepsHooks_destroy : KeepsHooks (MyTable.destroy : MyTable α → MyTable α) :=
  fun _ => ⟨rfl, rfl⟩

theorem keepsHooks_purge (pid : ℤ) : KeepsHooks fun e : MyTable α => e.purge pid := by
  intro e
  have hfold : ∀ (nodes : List ℤ) (e : MyTable α),
      (nodes.foldl (fun e node => if node = pid then e.unlink pid else e) e).f = e.f ∧
        (nodes.foldl (fun e node => if node = pid then e.unlink pid else e) e).intercepted =
          e.intercepted := by
    intro nodes
    induction nodes with
    | nil => exact fun e => ⟨rfl, rfl⟩
    | cons node nodes ih =>
        intro e
        rw [List.foldl_cons, (ih _).1, (ih _).2]
        split
        · exact keepsHooks_unlink pid e
        · exact ⟨rfl, rfl⟩
  exact hfold e.myList e

theorem hooks_listPid (c : Current) (m : Module α) (pid : ℤ) (s : ℕ)
    {finish : MyTable α → MyTable α} (hfinish : KeepsHooks finish) :
    (listPid c m pid s finish).2.hooks = m.hooks := by
  unfold listPid addPidSysc
  cases c.memory with
  | false => rfl
  | true =>
      have hcount : KeepsHooks fun e : MyTable α => finish (e.addCount 1) :=
        fun e => hfinish (e.addCount 1)
      exact (hooks_setEntry hcount (m.setEntry s fun e => e.addPid pid) s).trans
        (hooks_setEntry (keepsHooks_addPid pid) m s)

theorem hooks_unlistPid (m : Module α) (pid : ℤ) (s : ℕ) :
    (unlistPid m pid s).2.hooks = m.hooks := by
  apply (hooks_setEntry (keepsHooks_addCount (-1)) _ s).trans
  change (delPidSysc m pid s).2.hooks = m.hooks
  unfold delPidSysc
  by_cases hpid : pid ∈ (m.table s).myList
  · rw [if_pos hpid]
    exact hooks_setEntry (keepsHooks_unlink pid) m s
  · rw [if_neg hpid]

theorem hooks_startMonitoring (c : Current) (m : Module α) (s : ℕ) (pid : ℤ) :
    (startMonitoring c m s pid).2.hooks = m.hooks := by
  unfold startMonitoring
  repeat' split
  all_goals first
    | rfl
    | exact hooks_unlistPid m pid s
    | exact hooks_listPid c m pid s fun _ => ⟨rfl, rfl⟩
    | exact (hooks_setEntry (keepsHooks_setMonitored .allPids) _ s).trans
        (hooks_setEntry keepsHooks_destroy m s)

theorem hooks_stopMonitoring (c : Current) (m : Module α) (s : ℕ) (pid : ℤ) :
    (stopMonitoring c m s pid).2.hooks = m.hooks := by
  unfold stopMonitoring
  repeat' split
  all_goals first
    | rfl
    | exact hooks_unlistPid m pid s
    | exact hooks_listPid c m pid s fun _ => ⟨rfl, rfl⟩
    | exact hooks_setEntry keepsHooks_destroy m s

theorem hooks_delPid (K : Kernel α) (m : Module α) (pid : ℤ) :
    (delPid K m pid).2.hooks = m.hooks := by
  ext s <;> try rfl
  all_goals
    simp only [Module.hooks, delPid]
    split
  · exact (keepsHooks_purge pid _).1
  · rfl
  · exact (keepsHooks_purge pid _).2
  · rfl

/-! ## What lies behind the slots -/

/-- The handler that was in slot `i` when commands started to arrive. -/
def Kernel.behind (K : Kernel α) (initial : ℕ → α) (i : ℕ) : α :=
  if i = K.nrExitGroup then K.myExitGroup else initial i

/-- The invariant of the table between two commands. -/
structure Hooked (K : Kernel α) (initial : ℕ → α) (h : Hooks α) : Prop where
  custom : h.origCustomSyscall = initial myCustomSyscall
  exitGroup : h.origExitGroup = initial myCustomSyscall
  saved : ∀ i ≠ myCustomSyscall, h.intercepted i = true → h.f i = K.behind initial i
  untouched : ∀ i ≠ myCustomSyscall, h.intercepted i = false →
    h.sysCallTable i = K.behind initial i

theorem hooked_init (K : Kernel α) (initial : ℕ → α) :
    Hooked K initial (initFunction K initial).hooks := by
  refine ⟨rfl, rfl, fun i _ h => (Bool.false_ne_true h).elim, fun i hi _ => ?_⟩
  by_cases hexit : i = K.nrExitGroup
  · simp [Module.hooks, initFunction, Module.setHandler, Kernel.behind, hexit]
  · simp [Module.hooks, initFunction, Module.setHandler, Kernel.behind, hexit, hi]

/-- The event is a request by root to intercept, respectively release, `s`. -/
def Event.roots (cmd : ℤ) (s : ℕ) : Event → Bool
  | .command c cmd' syscall _ => cmd' = cmd && syscall = s && c.uid = 0
  | .exit _ => false

/-- Whether the events leave `s` intercepted. -/
def leftIntercepted (s : ℕ) (events : List Event) : Bool :=
  events.foldl (fun b e =>
    if e.roots requestSyscallIntercept s then true
    else if e.roots requestSyscallRelease s then false
    else b) false

/-- What one event does to the slots: nothing, or a root request takes effect. -/
inductive HooksStep (K : Kernel α) (m : Module α) (e : Event) (h : Hooks α) : Prop
  | idle (heq : h = m.hooks)
      (hroots : ∀ s, 1 ≤ s → s ≤ K.nrSyscalls →
        (e.roots requestSyscallIntercept s = true → m.hooks.intercepted s = true) ∧
          (e.roots requestSyscallRelease s = true → m.hooks.intercepted s = false))
  | intercept (s : ℕ) (hs : 1 ≤ s ∧ s ≤ K.nrSyscalls)
      (hevent : ∀ t, e.roots requestSyscallIntercept t = decide (t = s) ∧
        e.roots requestSyscallRelease t = false)
      (hfree : m.hooks.intercepted s = false)
      (heq : h = { m.hooks with
        sysCallTable := Function.update m.sysCallTable s K.interceptor
        f := Function.update m.hooks.f s (m.sysCallTable s)
        intercepted := Function.update m.hooks.intercepted s true })
  | release (s : ℕ) (hs : 1 ≤ s ∧ s ≤ K.nrSyscalls)
      (hevent : ∀ t, e.roots requestSyscallIntercept t = false ∧
        e.roots requestSyscallRelease t = decide (t = s))
      (htaken : m.hooks.intercepted s = true)
      (heq : h = { m.hooks with
        sysCallTable := Function.update m.sysCallTable s (m.table s).f
        intercepted := Function.update m.hooks.intercepted s false })

theorem hooks_requestIntercept (K : Kernel α) (m : Module α) (s : ℕ) :
    (((m.setEntry s fun e => { e with f := m.sysCallTable s }).setHandler s K.interceptor).setEntry
      s fun e => { e with intercepted := true }).hooks = { m.hooks with
        sysCallTable := Function.update m.sysCallTable s K.interceptor
        f := Function.update m.hooks.f s (m.sysCallTable s)
        intercepted := Function.update m.hooks.intercepted s true } := by
  ext i <;> try rfl
  all_goals
    by_cases hi : i = s <;> simp [Module.hooks, Module.setEntry, Module.setHandler, hi]

theorem hooks_requestRelease (m : Module α) (s : ℕ) :
    ((destroyList ((m.setHandler s (m.table s).f).setEntry s fun e =>
      e.setMonitored .notMonitored) s).setEntry s fun e => { e with intercepted := false }).hooks =
      { m.hooks with
        sysCallTable := Function.update m.sysCallTable s (m.table s).f
        intercepted := Function.update m.hooks.intercepted s false } := by
  ext i <;> try rfl
  all_goals
    by_cases hi : i = s <;>
      simp [Module.hooks, Module.setEntry, Module.setHandler, destroyList, MyTable.destroy,
        MyTable.setMonitored, hi]

theorem hooksStep_requestIntercept (K : Kernel α) (c : Current) (m : Module α) {s : ℕ} (pid : ℤ)
    (hs : 1 ≤ s ∧ s ≤ K.nrSyscalls) :
    HooksStep K m (.command c requestSyscallIntercept s pid) (requestIntercept K c m s).2.hooks := by
  have hcmd : requestSyscallIntercept ≠ requestSyscallRelease := by decide
  unfold requestIntercept
  split_ifs with huid htaken
  · exact .idle rfl fun t _ _ => by simp [Event.roots, huid]
  · refine .idle rfl fun t _ _ => ⟨fun hroots => ?_, fun hroots => ?_⟩
    · have hst : s = t := by
        simp only [Event.roots, Bool.and_eq_true, decide_eq_true_eq] at hroots
        omega
      exact hst ▸ htaken
    · simp [Event.roots, hcmd] at hroots
  · refine .intercept s hs (fun t => ⟨?_, by simp [Event.roots, hcmd]⟩)
      (Bool.not_eq_true _ ▸ htaken) (hooks_requestIntercept K m s)
    simp only [Event.roots, decide_true, Bool.true_and, Int.natCast_inj, not_not.mp huid,
      Bool.and_true, eq_comm]

theorem hooksStep_requestRelease (K : Kernel α) (c : Current) (m : Module α) {s : ℕ} (pid : ℤ)
    (hs : 1 ≤ s ∧ s ≤ K.nrSyscalls) :
    HooksStep K m (.command c requestSyscallRelease s pid) (requestRelease c m s).2.hooks := by
  have hcmd : requestSyscallRelease ≠ requestSyscallIntercept := by decide
  unfold requestRelease
  split_ifs with huid hfree
  · exact .idle rfl fun t _ _ => by simp [Event.roots, huid]
  · refine .idle rfl fun t _ _ => ⟨fun hroots => ?_, fun hroots => ?_⟩
    · simp [Event.roots, hcmd] at hroots
    · have hst : s = t := by
        simp only [Event.roots, Bool.and_eq_true, decide_eq_true_eq] at hroots
        omega
      exact hst ▸ hfree
  · refine .release s hs (fun t => ⟨by simp [Event.roots, hcmd], ?_⟩)
      (Bool.not_eq_false _ ▸ hfree) (hooks_requestRelease m s)
    simp only [Event.roots, decide_true, Bool.true_and, Int.natCast_inj, not_not.mp huid,
      Bool.and_true, eq_comm]

theorem step_hooks (K : Kernel α) (m : Module α) (e : Event) :
    HooksStep K m e (step K m e).hooks := by
  cases e with
  | exit pid => exact .idle (hooks_delPid K m pid) fun s _ _ => by simp [Event.roots]
  | command c cmd syscall pid =>
      simp only [step, mySyscall]
      split_ifs with hrange hint hrel hstart hstop
      · refine .idle rfl fun s hs hs' => ?_
        have hne : syscall ≠ s := by
          rintro rfl
          simp only [myCustomSyscall] at hrange
          omega
        simp [Event.roots, hne]
      · obtain ⟨s, rfl, hs⟩ : ∃ s : ℕ, syscall = s ∧ 1 ≤ s ∧ s ≤ K.nrSyscalls :=
          ⟨syscall.toNat, by simp only [myCustomSyscall] at hrange; omega⟩
        subst hint
        exact hooksStep_requestIntercept K c m pid hs
      · obtain ⟨s, rfl, hs⟩ : ∃ s : ℕ, syscall = s ∧ 1 ≤ s ∧ s ≤ K.nrSyscalls :=
          ⟨syscall.toNat, by simp only [myCustomSyscall] at hrange; omega⟩
        subst hrel
        exact hooksStep_requestRelease K c m pid hs
      · refine .idle (hooks_startMonitoring c m _ pid) fun s _ _ => ?_
        simp [Event.roots, hint, hrel]
      · refine .idle (hooks_stopMonitoring c m _ pid) fun s _ _ => ?_
        simp [Event.roots, hint, hrel]
      · refine .idle rfl fun s _ _ => ?_
        simp [Event.roots, hint, hrel]

theorem HooksStep.hooked {K : Kernel α} {initial : ℕ → α} {m : Module α} {e : Event} {h : Hooks α}
    (hstep : HooksStep K m e h) (hm : Hooked K initial m.hooks) : Hooked K initial h := by
  cases hstep with
  | idle heq => rwa [heq]
  | intercept s hs hevent hfree heq =>
      rw [heq]
      refine ⟨hm.custom, hm.exitGroup, fun i hi hint => ?_, fun i hi hint => ?_⟩
      · by_cases his : i = s
        · subst his
          simpa [Module.hooks] using hm.untouched i hi hfree
        · simpa [his] using hm.saved i hi (by simpa [his] using hint)
      · have his : i ≠ s := by
          rintro rfl
          simp at hint
        simpa [his, Module.hooks] using hm.untouched i hi (by simpa [his] using hint)
  | release s hs hevent htaken heq =>
      rw [heq]
      refine ⟨hm.custom, hm.exitGroup, fun i hi hint => ?_, fun i hi hint => ?_⟩
      · have his : i ≠ s := by
          rintro rfl
          simp at hint
        exact hm.saved i hi (by simpa [his] using hint)
      · by_cases his : i = s
        · subst his
          simpa [Module.hooks] using hm.saved i hi htaken
        · simpa [his, Module.hooks] using hm.untouched i hi (by simpa [his] using hint)

/-- How one event changes which syscalls are intercepted. -/
theorem HooksStep.intercepted_eq {K : Kernel α} {m : Module α} {e : Event} {h : Hooks α}
    (hstep : HooksStep K m e h) {s : ℕ} (hs : 1 ≤ s ∧ s ≤ K.nrSyscalls) :
    h.intercepted s =
      if e.roots requestSyscallIntercept s then true
      else if e.roots requestSyscallRelease s then false
      else m.hooks.intercepted s := by
  cases hstep with
  | idle heq hroots =>
      obtain ⟨hint, hrel⟩ := hroots s hs.1 hs.2
      rw [heq]
      split_ifs with h₁ h₂
      · exact hint h₁
      · exact hrel h₂
      · rfl
  | intercept t ht hevent hfree heq =>
      rw [heq, (hevent s).1, (hevent s).2]
      by_cases hst : s = t <;> simp [hst]
  | release t ht hevent htaken heq =>
      rw [heq, (hevent s).1, (hevent s).2]
      by_cases hst : s = t <;> simp [hst]

theorem run_concat (K : Kernel α) (m : Module α) (events : List Event) (e : Event) :
    run K m (events ++ [e]) = step K (run K m events) e := by
  simp [run]

/-- What holds after a run: what lies behind the slots, and which are hooked. -/
theorem run_hooked (K : Kernel α) (initial : ℕ → α) (events : List Event) :
    Hooked K initial (run K (initFunction K initial) events).hooks ∧
      ∀ s, 1 ≤ s ∧ s ≤ K.nrSyscalls →
        (run K (initFunction K initial) events).hooks.intercepted s =
          leftIntercepted s events := by
  induction events using List.reverseRecOn with
  | nil => exact ⟨hooked_init K initial, fun _ _ => rfl⟩
  | append_singleton events e ih =>
      have hstep := step_hooks K (run K (initFunction K initial) events) e
      rw [run_concat]
      refine ⟨hstep.hooked ih.1, fun s hs => ?_⟩
      rw [hstep.intercepted_eq hs, ih.2 s hs]
      simp [leftIntercepted]

/-! ## The table after unloading -/

/-- Loading the module, some events, and unloading it. -/
def unload (K : Kernel α) (initial : ℕ → α) (events : List Event) : Module α :=
  exitFunction K (run K (initFunction K initial) events)

theorem exitFunction_slot (K : Kernel α) (m : Module α) (i : ℕ) :
    (exitFunction K m).sysCallTable i =
      if 1 ≤ i ∧ i ≤ K.nrSyscalls ∧ m.hooks.intercepted i = true then m.hooks.f i
      else if i = K.nrExitGroup then m.origExitGroup
      else if i = myCustomSyscall then m.origCustomSyscall
      else m.sysCallTable i := by
  simp only [exitFunction, Module.setHandler, Function.update_apply]
  rfl

theorem unload_of_ne (K : Kernel α) (initial : ℕ → α) (events : List Event) {i : ℕ}
    (hi : i ≠ K.nrExitGroup) (hle : i ≤ K.nrSyscalls) :
    (unload K initial events).sysCallTable i = initial i := by
  obtain ⟨hm, -⟩ := run_hooked K initial events
  have hbehind : K.behind initial i = initial i := if_neg hi
  rw [unload, exitFunction_slot, if_neg hi]
  split_ifs with htaken hzero
  · exact (hm.saved i (Nat.ne_of_gt htaken.1) htaken.2.2).trans hbehind
  · rw [hzero]
    exact hm.custom
  · have hfree : (run K (initFunction K initial) events).hooks.intercepted i = false := by
      simpa [show 1 ≤ i from Nat.pos_of_ne_zero hzero, hle] using htaken
    exact (hm.untouched i hzero hfree).trans hbehind

/-- The slot of `exit_group` ends up with the handler saved from the wrong
slot, or with the module's own if it is still intercepted. -/
theorem unload_exitGroup (K : Kernel α) (initial : ℕ → α) (events : List Event) :
    (unload K initial events).sysCallTable K.nrExitGroup =
      if leftIntercepted K.nrExitGroup events then K.myExitGroup
      else initial myCustomSyscall := by
  have hrange : 1 ≤ K.nrExitGroup ∧ K.nrExitGroup ≤ K.nrSyscalls :=
    ⟨K.exitGroup_pos, Nat.le_of_lt K.exitGroup_lt⟩
  obtain ⟨hm, hint⟩ := run_hooked K initial events
  rw [unload, exitFunction_slot, hint K.nrExitGroup hrange]
  by_cases hleft : leftIntercepted K.nrExitGroup events = true
  · rw [if_pos ⟨hrange.1, hrange.2, hleft⟩, if_pos hleft]
    have hsaved := hm.saved K.nrExitGroup (Nat.ne_of_gt hrange.1)
      ((hint K.nrExitGroup hrange).trans hleft)
    exact hsaved.trans (if_pos rfl)
  · rw [if_neg fun h => hleft h.2.2, if_pos rfl, if_neg hleft]
    exact hm.exitGroup

/-- Unloading restores the whole table exactly when `exit_group` is not left
intercepted and its handler was that of the custom system call, or is left
intercepted and the module's own handler was there before. -/
theorem unload_restores_iff (K : Kernel α) (initial : ℕ → α) (events : List Event) :
    (∀ i < K.nrSyscalls, (unload K initial events).sysCallTable i = initial i) ↔
      initial K.nrExitGroup =
        if leftIntercepted K.nrExitGroup events then K.myExitGroup
        else initial myCustomSyscall := by
  constructor
  · intro h
    rw [← h K.nrExitGroup K.exitGroup_lt]
    exact unload_exitGroup K initial events
  · intro h i hi
    by_cases hexit : i = K.nrExitGroup
    · rw [hexit, unload_exitGroup, h]
    · exact unload_of_ne K initial events hexit (Nat.le_of_lt hi)

/-- The table of an i386 kernel with distinct handlers. -/
def i386 : Kernel ℕ where
  nrSyscalls := 337
  nrExitGroup := 252
  exitGroup_pos := by decide
  exitGroup_lt := by decide
  null := 0
  mySyscall := 1
  myExitGroup := 2
  interceptor := 3

/-- Loading and unloading alone leaves the handler of slot 0 in the slot of
`exit_group`. -/
theorem unload_not_restores :
    ¬ ∀ i < i386.nrSyscalls, (unload i386 (fun i => 1000 + i) []).sysCallTable i = 1000 + i := by
  intro h
  have hexit := h 252 (by decide)
  rw [show (252 : ℕ) = i386.nrExitGroup from rfl, unload_exitGroup] at hexit
  exact absurd hexit (by decide)

end KernelProgramming.Interceptor
