import Mathlib.Logic.Function.Iterate
import KernelProgramming.Interceptor.Dispatch
import KernelProgramming.Interceptor.Monitoring

/-!
# Concurrent calls

Several calls are under way at the same time.  A step of a call is one section
between a `spin_lock` and its `spin_unlock`, together with what the call does
with its own variables up to the next one.
-/

namespace KernelProgramming.Interceptor

variable {α : Type} {K : Kernel α}

/-- The section that a call has before it. -/
inductive Pc
  /-- the check of `intercepted`, or the whole of an exit -/
  | start
  /-- the assignments to `f` and to the slot -/
  | hook
  | setFlag
  /-- the assignments to the slot and to `monitored` -/
  | restore
  | clear
  /-- the check of `monitored` -/
  | mode
  | destroy
  /-- the work on the list, after `monitored` was read -/
  | act (monitored : Monitored)
  /-- the assignment to `monitored` -/
  | finish
  | returned (ret : ℤ)
  deriving DecidableEq, Repr

/-- Where the check of `intercepted` and the checks of the arguments lead. -/
def opening (K : Kernel α) (c : Current) (cmd syscall pid : ℤ) (intercepted : Bool) : Pc :=
  if syscall < 0 ∨ syscall > K.nrSyscalls ∨ syscall = myCustomSyscall then .returned (-einval)
  else if cmd = requestSyscallIntercept then
    if c.uid ≠ 0 then .returned (-eperm)
    else if intercepted = true then .returned (-ebusy)
    else .hook
  else if cmd = requestSyscallRelease then
    if c.uid ≠ 0 then .returned (-eperm)
    else if intercepted = false then .returned (-einval)
    else .restore
  else if cmd = requestStartMonitoring ∨ cmd = requestStopMonitoring then
    if intercepted = false then .returned (-einval)
    else if pid = 0 then
      if c.uid ≠ 0 then .returned (-eperm) else .mode
    else if pid < 0 ∨ c.owner pid = none then .returned (-einval)
    else if c.uid ≠ 0 ∧ checkPidFromList c pid c.pid ≠ 0 then .returned (-eperm)
    else .mode
  else .returned (-einval)

/-- Where the check of `monitored` leads. -/
def reading (cmd pid : ℤ) (monitored : Monitored) : Pc :=
  if cmd = requestStartMonitoring then
    if pid = 0 then
      if monitored = .allPids then .returned (-ebusy) else .destroy
    else .act monitored
  else if monitored = .notMonitored then .returned (-einval)
  else if pid = 0 then .destroy
  else .act monitored

def startSection (c : Current) (m : Module α) (s : ℕ) (pid : ℤ) : Monitored → Module α × Pc
  | .allPids =>
      if (m.table s).checkPidMonitored pid = false then (m, .returned (-ebusy))
      else ((unlistPid m pid s).2, .returned 0)
  | .somePids =>
      if (m.table s).checkPidMonitored pid = true then (m, .returned (-ebusy))
      else ((listPid c m pid s id).2, .returned (listPid c m pid s id).1)
  | .notMonitored =>
      if (listPid c m pid s id).1 ≠ 0 then (m, .returned (-enomem))
      else ((listPid c m pid s id).2, .finish)

def stopSection (c : Current) (m : Module α) (s : ℕ) (pid : ℤ) : Monitored → Module α × Pc
  | .notMonitored => (m, .returned (-einval))
  | .somePids =>
      if (m.table s).checkPidMonitored pid = false then (m, .returned (-einval))
      else ((unlistPid m pid s).2, .returned 0)
  | .allPids =>
      if (m.table s).checkPidMonitored pid = true then (m, .returned (-einval))
      else ((listPid c m pid s id).2, .returned (listPid c m pid s id).1)

def commandSection (K : Kernel α) (c : Current) (cmd syscall pid : ℤ) (m : Module α) :
    Pc → Module α × Pc
  | .start => (m, opening K c cmd syscall pid (m.table syscall.toNat).intercepted)
  | .hook =>
      let m := m.setEntry syscall.toNat fun e => { e with f := m.sysCallTable syscall.toNat }
      (m.setHandler syscall.toNat K.interceptor, .setFlag)
  | .setFlag =>
      (m.setEntry syscall.toNat fun e => { e with intercepted := true }, .returned 0)
  | .restore =>
      let m := m.setHandler syscall.toNat (m.table syscall.toNat).f
      (m.setEntry syscall.toNat fun e => e.setMonitored .notMonitored, .clear)
  | .clear =>
      ((destroyList m syscall.toNat).setEntry syscall.toNat fun e => { e with intercepted := false },
        .returned 0)
  | .mode => (m, reading cmd pid (m.table syscall.toNat).monitored)
  | .destroy =>
      (destroyList m syscall.toNat, if cmd = requestStartMonitoring then .finish else .returned 0)
  | .act monitored =>
      if cmd = requestStartMonitoring then startSection c m syscall.toNat pid monitored
      else stopSection c m syscall.toNat pid monitored
  | .finish =>
      (m.setEntry syscall.toNat fun e => e.setMonitored (if pid = 0 then .allPids else .somePids),
        .returned 0)
  | .returned ret => (m, .returned ret)

/-- `del_pid` is one section of its own. -/
def exitSection (K : Kernel α) (pid : ℤ) (m : Module α) : Pc → Module α × Pc
  | .returned ret => (m, .returned ret)
  | _ => ((delPid K m pid).2, .returned 0)

def Event.advance (K : Kernel α) : Event → Module α × Pc → Module α × Pc
  | .command c cmd syscall pid, (m, pc) => commandSection K c cmd syscall pid m pc
  | .exit pid, (m, pc) => exitSection K pid m pc

/-- The return code of a call that runs without others; that of an exit is 0. -/
def Event.answer (K : Kernel α) (m : Module α) : Event → ℤ
  | .command c cmd syscall pid => (mySyscall K c m cmd syscall pid).1
  | .exit _ => 0

/-! ## A call by itself -/

theorem Module.setEntry_setEntry (m : Module α) (s : ℕ) (g h : MyTable α → MyTable α) :
    (m.setEntry s g).setEntry s h = m.setEntry s fun e => h (g e) := by
  simp [Module.setEntry]

/-- Listing a pid and setting the flag is done in one section or in two. -/
theorem listPid_finish (c : Current) (m : Module α) (pid : ℤ) (s : ℕ)
    (finish : MyTable α → MyTable α) :
    listPid c m pid s finish =
      if (listPid c m pid s id).1 ≠ 0 then (-enomem, m)
      else (0, (listPid c m pid s id).2.setEntry s finish) := by
  cases hmem : c.memory with
  | false => simp [listPid, addPidSysc, hmem, enomem]
  | true => simp [listPid, addPidSysc, hmem, Module.setEntry_setEntry]

theorem valid_range (K : Kernel α) {s : ℕ} (hs : 1 ≤ s ∧ s ≤ K.nrSyscalls) :
    ¬ ((s : ℤ) < 0 ∨ (s : ℤ) > K.nrSyscalls ∨ (s : ℤ) = myCustomSyscall) := by
  simp only [myCustomSyscall]
  omega

@[simp] theorem advance_returned (e : Event) (m : Module α) (ret : ℤ) :
    e.advance K (m, .returned ret) = (m, .returned ret) := by
  cases e <;> rfl

@[simp] theorem iterate_returned (e : Event) (m : Module α) (ret : ℤ) (n : ℕ) :
    (e.advance K)^[n] (m, .returned ret) = (m, .returned ret) :=
  Function.iterate_fixed (advance_returned e m ret) n

/-- The check of `intercepted` changes nothing. -/
theorem advance_start (c : Current) (cmd pid : ℤ) (s : ℕ) (m : Module α) (n : ℕ) :
    ((Event.command c cmd s pid).advance K)^[n + 1] (m, .start) =
      ((Event.command c cmd s pid).advance K)^[n]
        (m, opening K c cmd s pid (m.table s).intercepted) := rfl

theorem advance_mode (c : Current) (cmd pid : ℤ) (s : ℕ) (m : Module α) (n : ℕ) :
    ((Event.command c cmd s pid).advance K)^[n + 1] (m, .mode) =
      ((Event.command c cmd s pid).advance K)^[n]
        (m, reading cmd pid (m.table s).monitored) := rfl

theorem opening_intercept (c : Current) {s : ℕ} (pid : ℤ) (intercepted : Bool)
    (hs : 1 ≤ s ∧ s ≤ K.nrSyscalls) :
    opening K c requestSyscallIntercept s pid intercepted =
      if c.uid ≠ 0 then .returned (-eperm)
      else if intercepted = true then .returned (-ebusy)
      else .hook := by
  rw [opening, if_neg (valid_range K hs), if_pos rfl]

theorem opening_release (c : Current) {s : ℕ} (pid : ℤ) (intercepted : Bool)
    (hs : 1 ≤ s ∧ s ≤ K.nrSyscalls) :
    opening K c requestSyscallRelease s pid intercepted =
      if c.uid ≠ 0 then .returned (-eperm)
      else if intercepted = false then .returned (-einval)
      else .restore := by
  rw [opening, if_neg (valid_range K hs), if_neg (by decide), if_pos rfl]

theorem opening_monitor (c : Current) {cmd : ℤ} {s : ℕ} (pid : ℤ) (intercepted : Bool)
    (hs : 1 ≤ s ∧ s ≤ K.nrSyscalls)
    (hcmd : cmd = requestStartMonitoring ∨ cmd = requestStopMonitoring) :
    opening K c cmd s pid intercepted =
      if intercepted = false then .returned (-einval)
      else if pid = 0 then
        if c.uid ≠ 0 then .returned (-eperm) else .mode
      else if pid < 0 ∨ c.owner pid = none then .returned (-einval)
      else if c.uid ≠ 0 ∧ checkPidFromList c pid c.pid ≠ 0 then .returned (-eperm)
      else .mode := by
  have hintercept : cmd ≠ requestSyscallIntercept := by
    rcases hcmd with rfl | rfl <;> decide
  have hrelease : cmd ≠ requestSyscallRelease := by
    rcases hcmd with rfl | rfl <;> decide
  rw [opening, if_neg (valid_range K hs), if_neg hintercept, if_neg hrelease, if_pos hcmd]

theorem alone_intercept (c : Current) (m : Module α) {s : ℕ} (pid : ℤ)
    (hs : 1 ≤ s ∧ s ≤ K.nrSyscalls) :
    ((Event.command c requestSyscallIntercept s pid).advance K)^[4] (m, .start) =
      ((requestIntercept K c m s).2, .returned (requestIntercept K c m s).1) := by
  rw [advance_start, opening_intercept c pid _ hs, requestIntercept]
  split_ifs
  · exact iterate_returned _ m _ 3
  · exact iterate_returned _ m _ 3
  · rfl

theorem alone_release (c : Current) (m : Module α) {s : ℕ} (pid : ℤ)
    (hs : 1 ≤ s ∧ s ≤ K.nrSyscalls) :
    ((Event.command c requestSyscallRelease s pid).advance K)^[4] (m, .start) =
      ((requestRelease c m s).2, .returned (requestRelease c m s).1) := by
  rw [advance_start, opening_release c pid _ hs, requestRelease]
  split_ifs
  · exact iterate_returned _ m _ 3
  · exact iterate_returned _ m _ 3
  · rfl

/-- A request for one pid, from the work on the list on. -/
theorem alone_act (c : Current) (m : Module α) {s : ℕ} {pid : ℤ} (hpid : pid ≠ 0)
    (monitored : Monitored) :
    ((Event.command c requestStartMonitoring s pid).advance K)^[2] (m, .act monitored) =
      match monitored with
      | .allPids =>
          if (m.table s).checkPidMonitored pid = false then (m, .returned (-ebusy))
          else ((unlistPid m pid s).2, .returned (unlistPid m pid s).1)
      | .somePids =>
          if (m.table s).checkPidMonitored pid = true then (m, .returned (-ebusy))
          else ((listPid c m pid s id).2, .returned (listPid c m pid s id).1)
      | .notMonitored =>
          ((listPid c m pid s fun e => e.setMonitored .somePids).2,
            .returned (listPid c m pid s fun e => e.setMonitored .somePids).1) := by
  have hfirst : ((Event.command c requestStartMonitoring s pid).advance K)^[2] (m, .act monitored) =
      (Event.command c requestStartMonitoring s pid).advance K
        (startSection c m s pid monitored) := rfl
  rw [hfirst]
  cases monitored with
  | allPids =>
      simp only [startSection]
      split_ifs
      · exact advance_returned _ m _
      · exact advance_returned _ _ 0
  | somePids =>
      simp only [startSection]
      split_ifs
      · exact advance_returned _ m _
      · exact advance_returned _ _ _
  | notMonitored =>
      rw [listPid_finish c m pid s fun e => e.setMonitored .somePids, startSection]
      by_cases herr : (listPid c m pid s id).1 ≠ 0
      · rw [if_pos herr, if_pos herr]
        exact advance_returned _ m _
      · rw [if_neg herr, if_neg herr]
        simp [Event.advance, commandSection, hpid]

theorem alone_startMonitoring (c : Current) (m : Module α) {s : ℕ} (pid : ℤ)
    (hs : 1 ≤ s ∧ s ≤ K.nrSyscalls) :
    ((Event.command c requestStartMonitoring s pid).advance K)^[4] (m, .start) =
      ((startMonitoring c m s pid).2, .returned (startMonitoring c m s pid).1) := by
  rw [advance_start, opening_monitor c pid _ hs (Or.inl rfl), startMonitoring]
  by_cases hint : (m.table s).intercepted = false
  · rw [if_pos hint, if_pos hint]
    exact iterate_returned _ m _ 3
  rw [if_neg hint, if_neg hint]
  by_cases hzero : pid = 0
  · rw [if_pos hzero, if_pos hzero]
    by_cases huid : c.uid ≠ 0
    · rw [if_pos huid, if_pos huid]
      exact iterate_returned _ m _ 3
    rw [if_neg huid, if_neg huid, advance_mode, reading, if_pos rfl, if_pos hzero]
    by_cases hall : (m.table s).monitored = .allPids
    · rw [if_pos hall, if_pos hall]
      exact iterate_returned _ m _ 2
    · rw [if_neg hall, if_neg hall]
      simp [Event.advance, commandSection, hzero]
  rw [if_neg hzero, if_neg hzero]
  by_cases hexists : pid < 0 ∨ c.owner pid = none
  · rw [if_pos hexists, if_pos hexists]
    exact iterate_returned _ m _ 3
  rw [if_neg hexists, if_neg hexists]
  by_cases hperm : c.uid ≠ 0 ∧ checkPidFromList c pid c.pid ≠ 0
  · rw [if_pos hperm, if_pos hperm]
    exact iterate_returned _ m _ 3
  rw [if_neg hperm, if_neg hperm, advance_mode, reading, if_pos rfl, if_neg hzero,
    alone_act c m hzero]
  cases (m.table s).monitored with
  | allPids =>
      simp only
      split_ifs <;> rfl
  | somePids =>
      simp only
      split_ifs <;> rfl
  | notMonitored => rfl

theorem alone_stopMonitoring (c : Current) (m : Module α) {s : ℕ} (pid : ℤ)
    (hs : 1 ≤ s ∧ s ≤ K.nrSyscalls) :
    ((Event.command c requestStopMonitoring s pid).advance K)^[4] (m, .start) =
      ((stopMonitoring c m s pid).2, .returned (stopMonitoring c m s pid).1) := by
  have hstart : requestStopMonitoring ≠ requestStartMonitoring := by decide
  rw [advance_start, opening_monitor c pid _ hs (Or.inr rfl), stopMonitoring]
  by_cases hint : (m.table s).intercepted = false
  · rw [if_pos hint, if_pos hint]
    exact iterate_returned _ m _ 3
  rw [if_neg hint, if_neg hint]
  by_cases hzero : pid = 0
  · rw [if_pos hzero, if_pos hzero]
    by_cases huid : c.uid ≠ 0
    · rw [if_pos huid, if_pos huid]
      exact iterate_returned _ m _ 3
    rw [if_neg huid, if_neg huid, advance_mode, reading, if_neg hstart]
    by_cases hnone : (m.table s).monitored = .notMonitored
    · rw [if_pos hnone, if_pos hnone]
      exact iterate_returned _ m _ 2
    · rw [if_neg hnone, if_neg hnone, if_pos hzero]
      rfl
  rw [if_neg hzero, if_neg hzero]
  by_cases hexists : pid < 0 ∨ c.owner pid = none
  · rw [if_pos hexists, if_pos hexists]
    exact iterate_returned _ m _ 3
  rw [if_neg hexists, if_neg hexists]
  by_cases hperm : c.uid ≠ 0 ∧ checkPidFromList c pid c.pid ≠ 0
  · rw [if_pos hperm, if_pos hperm]
    exact iterate_returned _ m _ 3
  rw [if_neg hperm, if_neg hperm, advance_mode, reading, if_neg hstart]
  cases (m.table s).monitored with
  | notMonitored => rfl
  | allPids =>
      rw [if_neg (by decide), if_neg hzero]
      simp only [Function.iterate_succ_apply, Event.advance, commandSection, hstart, if_false,
        stopSection, Int.toNat_natCast]
      split_ifs <;> rfl
  | somePids =>
      rw [if_neg (by decide), if_neg hzero]
      simp only [Function.iterate_succ_apply, Event.advance, commandSection, hstart, if_false,
        stopSection, Int.toNat_natCast]
      split_ifs <;> rfl

/-- The sections of a call, one right after another, are the call. -/
theorem advance_alone (K : Kernel α) (e : Event) (m : Module α) :
    (e.advance K)^[4] (m, .start) = (step K m e, .returned (e.answer K m)) := by
  cases e with
  | exit pid => rfl
  | command c cmd syscall pid =>
      simp only [step, Event.answer]
      by_cases hrange : syscall < 0 ∨ syscall > K.nrSyscalls ∨ syscall = myCustomSyscall
      · simp [Function.iterate_succ_apply, Event.advance, commandSection, opening, mySyscall, hrange]
      obtain ⟨s, rfl, hs⟩ : ∃ s : ℕ, syscall = s ∧ 1 ≤ s ∧ s ≤ K.nrSyscalls :=
        ⟨syscall.toNat, by simp only [myCustomSyscall] at hrange; omega⟩
      rw [mySyscall_of_le K c m cmd pid hs]
      split_ifs with hint hrel hstart hstop
      · rw [hint, alone_intercept c m pid hs]
      · rw [hrel, alone_release c m pid hs]
      · rw [hstart, alone_startMonitoring c m pid hs]
      · rw [hstop, alone_stopMonitoring c m pid hs]
      · simp [Function.iterate_succ_apply, Event.advance, commandSection, opening, hint, hrel, hstart,
          hstop]

/-! ## Interleaved calls -/

variable {ι : Type} [DecidableEq ι]

/-- The module and how far each call has come. -/
structure System (α ι : Type) where
  module : Module α
  pc : ι → Pc

def begin (m : Module α) : System α ι := ⟨m, fun _ => .start⟩

/-- The next section of call `i`. -/
def System.advance (K : Kernel α) (calls : ι → Event) (σ : System α ι) (i : ι) : System α ι :=
  let (m, pc) := (calls i).advance K (σ.module, σ.pc i)
  ⟨m, Function.update σ.pc i pc⟩

/-- The sections that `schedule` names, in its order. -/
def interleave (K : Kernel α) (calls : ι → Event) (m : Module α) (schedule : List ι) :
    System α ι := schedule.foldl (System.advance K calls) (begin m)

theorem interleave_concat (calls : ι → Event) (m : Module α) (schedule : List ι) (i : ι) :
    interleave K calls m (schedule ++ [i]) =
      (interleave K calls m schedule).advance K calls i := by
  simp [interleave]

theorem System.advance_eq (calls : ι → Event) (σ : System α ι) (i : ι) :
    σ.advance K calls i = ⟨((calls i).advance K (σ.module, σ.pc i)).1,
      Function.update σ.pc i ((calls i).advance K (σ.module, σ.pc i)).2⟩ := rfl

/-! ## The saved handler under concurrent calls -/

/-- Between two commands the saved handler is the right one or still missing. -/
theorem run_saved (K : Kernel α) (initial : ℕ → α) (events : List Event) {s : ℕ}
    (hs : s ≠ myCustomSyscall) :
    let m := run K (initFunction K initial) events
    (m.table s).f = K.null ∨ (m.table s).f = K.behind initial s := by
  induction events using List.reverseRecOn with
  | nil => exact Or.inl rfl
  | append_singleton events e ih =>
      obtain ⟨hm, -⟩ := run_hooked K initial events
      rw [run_concat]
      change (step K _ e).hooks.f s = K.null ∨ (step K _ e).hooks.f s = K.behind initial s
      cases step_hooks K (run K (initFunction K initial) events) e with
      | idle heq =>
          rw [heq]
          exact ih
      | intercept t ht hevent hfree heq =>
          have hf : (step K (run K (initFunction K initial) events) e).hooks.f s =
              Function.update (run K (initFunction K initial) events).hooks.f t
                ((run K (initFunction K initial) events).sysCallTable t) s := by
            rw [heq]
          rw [hf]
          by_cases hst : s = t
          · subst hst
            rw [Function.update_self]
            exact Or.inr (hm.untouched s hs hfree)
          · rw [Function.update_of_ne hst]
            exact ih
      | release t ht hevent htaken heq =>
          rw [heq]
          exact ih

def Event.Rehooks (s : ℕ) (e : Event) : Prop :=
  ∃ (c : Current) (cmd pid : ℤ), e = .command c cmd s pid ∧ c.uid = 0 ∧
    (cmd = requestSyscallIntercept ∨ cmd = requestSyscallRelease)

/-- The call is before its first assignment, or has returned. -/
def Pc.Idle : Pc → Prop
  | .start | .hook | .returned _ => True
  | _ => False

/-- The sections of `REQUEST_SYSCALL_INTERCEPT` and `REQUEST_SYSCALL_RELEASE`. -/
def Pc.Rehooking : Pc → Prop
  | .start | .hook | .setFlag | .restore | .clear | .returned _ => True
  | _ => False

/-- The handler of `s` is in the slot or saved behind the interceptor. -/
structure Guarded (K : Kernel α) (handler : α) (s : ℕ) (σ : System α ι) : Prop where
  slot : σ.module.sysCallTable s = handler ∨ σ.module.sysCallTable s = K.interceptor
  saved : (σ.module.table s).f = handler ∨
    (σ.module.table s).f = K.null ∧ σ.module.sysCallTable s = handler ∧
      (σ.module.table s).intercepted = false ∧ ∀ i, (σ.pc i).Idle
  rehooking : ∀ i, (σ.pc i).Rehooking

theorem opening_rehooking (c : Current) {cmd : ℤ} (pid : ℤ) {s : ℕ} (intercepted : Bool)
    (hs : 1 ≤ s ∧ s ≤ K.nrSyscalls)
    (hcmd : cmd = requestSyscallIntercept ∨ cmd = requestSyscallRelease) :
    (opening K c cmd s pid intercepted).Rehooking ∧
      (intercepted = false → (opening K c cmd s pid intercepted).Idle) := by
  rcases hcmd with rfl | rfl
  · rw [opening_intercept c pid intercepted hs]
    split_ifs <;> exact ⟨trivial, fun _ => trivial⟩
  · rw [opening_release c pid intercepted hs]
    split_ifs with huid hint
    · exact ⟨trivial, fun _ => trivial⟩
    · exact ⟨trivial, fun _ => trivial⟩
    · exact ⟨trivial, fun hfalse => absurd hfalse hint⟩

theorem forall_update {p : Pc → Prop} {pc : ι → Pc} (h : ∀ i, p (pc i)) {i : ι} {next : Pc}
    (hnext : p next) : ∀ j, p (Function.update pc i next j) := by
  intro j
  by_cases hji : j = i
  · subst hji
    simpa using hnext
  · simpa [hji] using h j

theorem Guarded.advance {handler : α} {s : ℕ} {σ : System α ι} {calls : ι → Event} {i : ι}
    (h : Guarded K handler s σ) (hs : 1 ≤ s ∧ s ≤ K.nrSyscalls) (hcall : (calls i).Rehooks s)
    (hfree : σ.pc i = .hook → σ.module.sysCallTable s ≠ K.interceptor) :
    Guarded K handler s (σ.advance K calls i) := by
  obtain ⟨c, cmd, pid, hevent, -, hcmd⟩ := hcall
  have hre := h.rehooking i
  -- past the first assignment of any call the right handler is saved
  have hsaved : ¬ (σ.pc i).Idle → (σ.module.table s).f = handler := fun hbusy =>
    h.saved.resolve_right fun ⟨_, _, _, hidle⟩ => hbusy (hidle i)
  have hstep : σ.advance K calls i =
      ⟨(commandSection K c cmd s pid σ.module (σ.pc i)).1,
        Function.update σ.pc i (commandSection K c cmd s pid σ.module (σ.pc i)).2⟩ := by
    rw [System.advance_eq, hevent]
    rfl
  rw [hstep]
  cases hpc : σ.pc i with
  | start =>
      obtain ⟨hopen, hidle⟩ := opening_rehooking (K := K) c pid
        (σ.module.table s).intercepted hs hcmd
      refine ⟨h.slot, ?_, forall_update h.rehooking hopen⟩
      refine h.saved.imp_right fun ⟨hnull, hslot, hint, hall⟩ => ?_
      exact ⟨hnull, hslot, hint, forall_update hall (hidle hint)⟩
  | hook =>
      refine ⟨Or.inr ?_, Or.inl ?_, forall_update h.rehooking trivial⟩
      · simp [commandSection, Module.setHandler]
      · simpa [commandSection, Module.setEntry, Module.setHandler] using
          h.slot.resolve_right (hfree hpc)
  | setFlag =>
      have hf := hsaved (by rw [hpc]; exact id)
      refine ⟨h.slot, Or.inl ?_, forall_update h.rehooking trivial⟩
      simpa [commandSection, Module.setEntry] using hf
  | restore =>
      have hf := hsaved (by rw [hpc]; exact id)
      refine ⟨Or.inl ?_, Or.inl ?_, forall_update h.rehooking trivial⟩
      · simpa [commandSection, Module.setEntry, Module.setHandler] using hf
      · simpa [commandSection, Module.setEntry, Module.setHandler, MyTable.setMonitored] using hf
  | clear =>
      have hf := hsaved (by rw [hpc]; exact id)
      refine ⟨h.slot, Or.inl ?_, forall_update h.rehooking trivial⟩
      simpa [commandSection, destroyList, Module.setEntry, MyTable.destroy] using hf
  | returned ret =>
      refine ⟨h.slot, ?_, forall_update h.rehooking trivial⟩
      refine h.saved.imp_right fun ⟨hnull, hslot, hint, hall⟩ => ?_
      exact ⟨hnull, hslot, hint, forall_update hall trivial⟩
  | mode => simp [hpc, Pc.Rehooking] at hre
  | destroy => simp [hpc, Pc.Rehooking] at hre
  | act monitored => simp [hpc, Pc.Rehooking] at hre
  | finish => simp [hpc, Pc.Rehooking] at hre

/-- A call that hooks a hooked slot saves the interceptor. -/
theorem advance_hook {σ : System α ι} {calls : ι → Event} {i : ι} {s : ℕ}
    (hcall : (calls i).Rehooks s) (hpc : σ.pc i = .hook)
    (hhooked : σ.module.sysCallTable s = K.interceptor) :
    ((σ.advance K calls i).module.table s).f = K.interceptor := by
  obtain ⟨c, cmd, pid, hevent, -⟩ := hcall
  rw [System.advance_eq, hevent, hpc]
  simpa [Event.advance, commandSection, Module.setEntry, Module.setHandler] using hhooked

omit [DecidableEq ι] in
theorem guarded_begin (K : Kernel α) (initial : ℕ → α) (events : List Event) {s : ℕ}
    (hs : 1 ≤ s) :
    Guarded K (K.behind initial s) s
      (begin (run K (initFunction K initial) events) : System α ι) := by
  obtain ⟨hm, -⟩ := run_hooked K initial events
  have hcustom : s ≠ myCustomSyscall := Nat.ne_of_gt hs
  have hmarked := run_marked K initial events s
  have hsaved := run_saved K initial events hcustom
  cases hint : ((run K (initFunction K initial) events).table s).intercepted with
  | true =>
      exact ⟨Or.inr (hmarked hint), Or.inl (hm.saved s hcustom hint), fun _ => trivial⟩
  | false =>
      have hslot := hm.untouched s hcustom hint
      refine ⟨Or.inl hslot, ?_, fun _ => trivial⟩
      rcases hsaved with hnull | hf
      · exact Or.inr ⟨hnull, hslot, hint, fun _ => trivial⟩
      · exact Or.inl hf

theorem interleave_guarded (K : Kernel α) (initial : ℕ → α) (events : List Event)
    {calls : ι → Event} {s : ℕ} (hs : 1 ≤ s ∧ s ≤ K.nrSyscalls)
    (hcalls : ∀ i, (calls i).Rehooks s) (past : List ι)
    (hfree : ∀ before i after, past = before ++ i :: after →
      (interleave K calls (run K (initFunction K initial) events) before).pc i = .hook →
        (interleave K calls (run K (initFunction K initial) events) before).module.sysCallTable s ≠
          K.interceptor) :
    Guarded K (K.behind initial s) s
      (interleave K calls (run K (initFunction K initial) events) past) := by
  induction past using List.reverseRecOn with
  | nil => exact guarded_begin K initial events hs.1
  | append_singleton past i ih =>
      rw [interleave_concat]
      refine (ih fun before j after hsplit => ?_).advance hs (hcalls i) (hfree past i [] rfl)
      exact hfree before j (after ++ [i]) (by simp [hsplit])

/-- Concurrent requests by root to intercept and to release a syscall keep its
handler, in every state that they reach, exactly if none of them hooks a slot
that another one has hooked. -/
theorem handler_survives_iff (K : Kernel α) (initial : ℕ → α) (events : List Event)
    (calls : ι → Event) {s : ℕ} (hs : 1 ≤ s ∧ s ≤ K.nrSyscalls)
    (hcalls : ∀ i, (calls i).Rehooks s) (hnull : K.null ≠ K.interceptor)
    (hhandler : K.behind initial s ≠ K.interceptor) (schedule : List ι) :
    let state := interleave K calls (run K (initFunction K initial) events)
    (∀ past rest, schedule = past ++ rest →
        ((state past).module.table s).f ≠ K.interceptor ∧
          ((state past).module.sysCallTable s = K.interceptor →
            ((state past).module.table s).f = K.behind initial s)) ↔
      ∀ past i rest, schedule = past ++ i :: rest → (state past).pc i = .hook →
        (state past).module.sysCallTable s ≠ K.interceptor := by
  intro state
  constructor
  · intro hall past i rest hsplit hpc hhooked
    have hafter := hall (past ++ [i]) rest (by simp [hsplit])
    simp only [state, interleave_concat] at hafter
    exact hafter.1 (advance_hook (hcalls i) hpc hhooked)
  · intro hfree past rest hsplit
    have hguarded : Guarded K (K.behind initial s) s (state past) :=
      interleave_guarded K initial events hs hcalls past fun before i after hpast =>
        hfree before i (after ++ rest) (by simp [hsplit, hpast])
    constructor
    · rcases hguarded.saved with hf | ⟨hf, -⟩
      · rwa [hf]
      · rwa [hf]
    · intro hhooked
      refine hguarded.saved.resolve_right fun ⟨_, hslot, _⟩ => hhandler ?_
      rw [← hslot, hhooked]

/-- Two requests by root to intercept syscall 5. -/
def twoIntercepts (_ : Fin 2) : Event := .command root requestSyscallIntercept 5 0

/-- One request after the other. -/
theorem handler_survives_iff_serial :
    let state := interleave i386 twoIntercepts
      (run i386 (initFunction i386 fun i => 1000 + i) [])
    (∀ past rest, [0, 0, 0, 1, 1, 1] = past ++ rest →
        ((state past).module.table 5).f ≠ i386.interceptor ∧
          ((state past).module.sysCallTable 5 = i386.interceptor →
            ((state past).module.table 5).f = i386.behind (fun i => 1000 + i) 5)) ↔
      ∀ past i rest, [0, 0, 0, 1, 1, 1] = past ++ i :: rest → (state past).pc i = .hook →
        (state past).module.sysCallTable 5 ≠ i386.interceptor :=
  handler_survives_iff i386 (fun i => 1000 + i) [] twoIntercepts (by decide)
    (fun _ => ⟨root, requestSyscallIntercept, 0, rfl, rfl, Or.inl rfl⟩) (by decide) (by decide) _

/-- Both requests find the syscall free; the second one saves the interceptor
in place of the handler. -/
theorem handler_lost :
    ¬ ∀ (calls : Fin 2 → Event), (∀ i, (calls i).Rehooks 5) → ∀ schedule : List (Fin 2),
      ((interleave i386 calls (initFunction i386 fun i => 1000 + i) schedule).module.table 5).f ≠
        i386.interceptor := by
  intro hall
  exact hall twoIntercepts (fun _ => ⟨root, requestSyscallIntercept, 0, rfl, rfl, Or.inl rfl⟩)
    [0, 1, 0, 1] rfl

end KernelProgramming.Interceptor
