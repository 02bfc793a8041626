import KernelProgramming.Interceptor.SpinLocks

/-!
# What the spin locks are good for

Every call takes `calltable_lock` before `pidlist_lock` and gives back what it
took, so the calls never wait for each other forever.  The lists belong to the
holder of one lock and the handlers to the holder of the other; `monitored` is
written under either of them.
-/

namespace KernelProgramming.Interceptor

open LockOrder Relation

variable {α : Type} {K : Kernel α} {c : Current} {s : ℕ} {pid : ℤ} {rest : Program α}
  {held : Set SpinLock} {g : MyTable α → MyTable α}

/-- What `pidlist_lock` guards. -/
structure Lists where
  intercepted : ℕ → Bool
  listcount : ℕ → BitVec 32
  myList : ℕ → List ℤ

/-- What `calltable_lock` guards. -/
structure Handlers (α : Type) where
  sysCallTable : ℕ → α
  f : ℕ → α

def Module.lists (m : Module α) : Lists where
  intercepted s := (m.table s).intercepted
  listcount s := (m.table s).listcount
  myList s := (m.table s).myList

def Module.handlers (m : Module α) : Handlers α where
  sysCallTable := m.sysCallTable
  f s := (m.table s).f

/-- With the locks `held` a call may do `f` to the module. -/
structure UnderLocks (held : Set SpinLock) (f : Module α → Module α) : Prop where
  lists : .pidlist ∉ held → ∀ m, (f m).lists = m.lists
  handlers : .calltable ∉ held → ∀ m, (f m).handlers = m.handlers
  still : held = ∅ → ∀ m, f m = m

theorem underLocks_id : UnderLocks held (id : Module α → Module α) :=
  ⟨fun _ _ => rfl, fun _ _ => rfl, fun _ _ => rfl⟩

theorem setEntry_lists (m : Module α) (hg : ∀ e : MyTable α, (g e).intercepted = e.intercepted ∧
    (g e).listcount = e.listcount ∧ (g e).myList = e.myList) : (m.setEntry s g).lists = m.lists := by
  have htable : ∀ t, ((m.setEntry s g).table t).intercepted = (m.table t).intercepted ∧
      ((m.setEntry s g).table t).listcount = (m.table t).listcount ∧
      ((m.setEntry s g).table t).myList = (m.table t).myList := by
    intro t
    by_cases hts : t = s
    · subst hts
      simpa [Module.setEntry] using hg (m.table t)
    · simp [Module.setEntry, hts]
  simp [Module.lists, htable]

theorem setEntry_handlers (m : Module α) (hg : ∀ e : MyTable α, (g e).f = e.f) :
    (m.setEntry s g).handlers = m.handlers := by
  have htable : ∀ t, ((m.setEntry s g).table t).f = (m.table t).f := by
    intro t
    by_cases hts : t = s
    · subst hts
      simpa [Module.setEntry] using hg (m.table t)
    · simp [Module.setEntry, hts]
  exact congrArg (Handlers.mk m.sysCallTable) (funext htable)

theorem underLocks_pidlist (hg : ∀ e : MyTable α, (g e).f = e.f) :
    UnderLocks {.pidlist} fun m : Module α => m.setEntry s g :=
  ⟨fun hout => absurd rfl hout, fun _ m => setEntry_handlers m hg,
    fun hnone => absurd hnone (Set.singleton_ne_empty _)⟩

theorem underLocks_calltable {f : Module α → Module α} (hf : ∀ m, (f m).lists = m.lists) :
    UnderLocks {.calltable} f :=
  ⟨fun _ => hf, fun hout => absurd rfl hout, fun hnone => absurd hnone (Set.singleton_ne_empty _)⟩

/-! ## The functions, one by one -/

/-- With the locks `held`, the program keeps to the order of the locks and to what they guard. -/
def LockSafe (p : Program α) (held : Set SpinLock) : Prop := p.Disciplined UnderLocks held

@[simp] theorem lockSafe_read {k : Module α → Program α} :
    LockSafe (.read k) held ↔ ∀ m, LockSafe (k m) held := and_iff_right underLocks_id

theorem lockSafe_write {f : Module α → Module α} (hf : UnderLocks held f)
    (h : LockSafe rest held) : LockSafe (.write f rest) held := ⟨hf, fun _ => h⟩

@[simp] theorem lockSafe_returning {ret : ℤ} : LockSafe (returning (α := α) ret) ∅ := rfl

@[simp] theorem lockSafe_lock {l : SpinLock} : LockSafe (.lock l rest) ∅ ↔ LockSafe rest {l} := by
  simp [LockSafe, Code.Disciplined]

@[simp] theorem lockSafe_unlock {l : SpinLock} : LockSafe (.unlock l rest) {l} ↔ LockSafe rest ∅ := by
  simp [LockSafe, Code.Disciplined]

theorem lockSafe_setEntryCode (hg : ∀ e : MyTable α, (g e).f = e.f)
    (h : LockSafe rest {.pidlist}) : LockSafe (setEntryCode s g rest) {.pidlist} :=
  lockSafe_write (underLocks_pidlist hg) h

theorem lockSafe_addCount {n : BitVec 32} (h : LockSafe rest {.pidlist}) :
    LockSafe (setEntryCode s (fun e => e.addCount n) rest) {.pidlist} :=
  lockSafe_setEntryCode (fun _ => by rfl) h

theorem lockSafe_setMonitored {monitored : Monitored} (h : LockSafe rest {.calltable}) :
    LockSafe (setEntryCode s (fun e => e.setMonitored monitored) rest) {.calltable} :=
  lockSafe_write (underLocks_calltable fun m => setEntry_lists m fun _ => ⟨rfl, rfl, rfl⟩) h

theorem lockSafe_addPidSyscCode {k : ℤ → Program α} (h : ∀ err, LockSafe (k err) {.pidlist}) :
    LockSafe (addPidSyscCode c pid s k) {.pidlist} := by
  unfold addPidSyscCode
  split_ifs
  · exact h _
  · exact lockSafe_setEntryCode (fun _ => by rfl) (lockSafe_addCount (h _))

theorem lockSafe_dropNodeCode (h : LockSafe rest {.pidlist}) :
    LockSafe (dropNodeCode pid s rest) {.pidlist} := by
  refine lockSafe_setEntryCode (fun _ => by rfl)
    (lockSafe_addCount (lockSafe_read.mpr fun m => ?_))
  split_ifs
  · refine lockSafe_read.mpr fun m => ?_
    split_ifs
    · exact lockSafe_setEntryCode (fun _ => by rfl) h
    · exact h
  · exact h

theorem lockSafe_delPidSyscCode {k : ℤ → Program α} (h : ∀ ret, LockSafe (k ret) {.pidlist}) :
    LockSafe (delPidSyscCode pid s k) {.pidlist} := by
  refine lockSafe_read.mpr fun m => ?_
  split_ifs
  · exact lockSafe_dropNodeCode (h _)
  · exact h _

theorem lockSafe_delNodesCode {k : Bool → Program α} (h : ∀ ispid, LockSafe (k ispid) {.pidlist})
    (nodes : List ℤ) (ispid : Bool) : LockSafe (delNodesCode pid s k nodes ispid) {.pidlist} := by
  induction nodes generalizing ispid with
  | nil => exact h ispid
  | cons node nodes ih =>
      rw [delNodesCode]
      split_ifs
      · exact lockSafe_dropNodeCode (ih true)
      · exact ih ispid

theorem lockSafe_delListsCode {k : Bool → Program α} (h : ∀ ispid, LockSafe (k ispid) {.pidlist})
    (ss : List ℕ) (ispid : Bool) : LockSafe (delListsCode pid k ss ispid) {.pidlist} := by
  induction ss generalizing ispid with
  | nil => exact h ispid
  | cons s ss ih => exact lockSafe_read.mpr fun m => lockSafe_delNodesCode ih _ _

theorem lockSafe_destroyNodesCode (h : LockSafe rest {.pidlist}) (nodes : List ℤ) :
    LockSafe (destroyNodesCode s rest nodes) {.pidlist} := by
  induction nodes with
  | nil => exact h
  | cons node nodes ih => exact lockSafe_setEntryCode (fun _ => by rfl) ih

theorem lockSafe_destroyListCode (h : LockSafe rest {.pidlist}) :
    LockSafe (destroyListCode s rest) {.pidlist} := by
  refine lockSafe_read.mpr fun m => lockSafe_destroyNodesCode ?_ _
  exact lockSafe_setEntryCode (fun _ => by rfl) (lockSafe_setEntryCode (fun _ => by rfl) h)

theorem lockSafe_listPidCode (h : LockSafe rest ∅) :
    LockSafe (listPidCode c pid s rest) {.pidlist} := by
  refine lockSafe_addPidSyscCode fun err => ?_
  split_ifs
  · simp
  · exact lockSafe_addCount (lockSafe_unlock.mpr h)

theorem lockSafe_unlistPidCode : LockSafe (unlistPidCode (α := α) pid s) {.pidlist} :=
  lockSafe_delPidSyscCode fun _ => lockSafe_addCount (by simp)

/-! ## The calls -/

theorem lockSafe_myExitGroupCode : LockSafe (myExitGroupCode K pid) ∅ := by
  refine lockSafe_lock.mpr (lockSafe_delListsCode (fun _ => ?_) _ _)
  exact lockSafe_unlock.mpr rfl

theorem lockSafe_requestInterceptCode : LockSafe (requestInterceptCode K c s) ∅ := by
  unfold requestInterceptCode
  split_ifs
  · exact lockSafe_returning
  · simp only [lockSafe_lock, lockSafe_read]
    intro m
    split_ifs
    · exact lockSafe_unlock.mpr lockSafe_returning
    · simp only [lockSafe_unlock, lockSafe_lock]
      refine lockSafe_write (underLocks_calltable fun m => setEntry_lists m fun _ => ⟨rfl, rfl, rfl⟩)
        (lockSafe_write (underLocks_calltable fun m => rfl) ?_)
      simp only [lockSafe_unlock, lockSafe_lock]
      refine lockSafe_setEntryCode (fun _ => by rfl) ?_
      exact lockSafe_unlock.mpr lockSafe_returning

theorem lockSafe_requestReleaseCode : LockSafe (requestReleaseCode (α := α) c s) ∅ := by
  unfold requestReleaseCode
  split_ifs
  · exact lockSafe_returning
  · simp only [lockSafe_lock, lockSafe_read]
    intro m
    split_ifs
    · exact lockSafe_unlock.mpr lockSafe_returning
    · simp only [lockSafe_unlock, lockSafe_lock]
      refine lockSafe_write (underLocks_calltable fun m => rfl) (lockSafe_setMonitored ?_)
      simp only [lockSafe_unlock, lockSafe_lock]
      refine lockSafe_destroyListCode (lockSafe_setEntryCode (fun _ => by rfl) ?_)
      exact lockSafe_unlock.mpr lockSafe_returning

theorem lockSafe_startMonitoringCode : LockSafe (startMonitoringCode (α := α) c s pid) ∅ := by
  unfold startMonitoringCode
  simp only [lockSafe_lock, lockSafe_read]
  intro m
  split_ifs
  · exact lockSafe_unlock.mpr lockSafe_returning
  · exact lockSafe_unlock.mpr lockSafe_returning
  · simp only [lockSafe_unlock, lockSafe_lock, lockSafe_read]
    intro m
    split_ifs
    · exact lockSafe_unlock.mpr lockSafe_returning
    · simp only [lockSafe_unlock, lockSafe_lock]
      refine lockSafe_destroyListCode ?_
      simp only [lockSafe_unlock, lockSafe_lock]
      exact lockSafe_setMonitored (lockSafe_unlock.mpr lockSafe_returning)
  · exact lockSafe_unlock.mpr lockSafe_returning
  · exact lockSafe_unlock.mpr lockSafe_returning
  · simp only [lockSafe_unlock, lockSafe_lock, lockSafe_read]
    intro m
    split_ifs
    · simp only [lockSafe_unlock, lockSafe_lock, lockSafe_read]
      intro m
      split_ifs
      · exact lockSafe_unlock.mpr lockSafe_returning
      · exact lockSafe_unlistPidCode
    · simp only [lockSafe_read]
      intro m
      split_ifs
      · simp only [lockSafe_unlock, lockSafe_lock, lockSafe_read]
        intro m
        split_ifs
        · exact lockSafe_unlock.mpr lockSafe_returning
        · exact lockSafe_listPidCode lockSafe_returning
      · simp only [lockSafe_unlock, lockSafe_lock]
        refine lockSafe_listPidCode (lockSafe_lock.mpr ?_)
        exact lockSafe_setMonitored (lockSafe_unlock.mpr lockSafe_returning)

theorem lockSafe_stopMonitoringCode : LockSafe (stopMonitoringCode (α := α) c s pid) ∅ := by
  unfold stopMonitoringCode
  simp only [lockSafe_lock, lockSafe_read]
  intro m
  split_ifs
  · exact lockSafe_unlock.mpr lockSafe_returning
  · exact lockSafe_unlock.mpr lockSafe_returning
  · simp only [lockSafe_unlock, lockSafe_lock, lockSafe_read]
    intro m
    split_ifs
    · exact lockSafe_unlock.mpr lockSafe_returning
    · simp only [lockSafe_unlock, lockSafe_lock]
      exact lockSafe_destroyListCode (lockSafe_unlock.mpr lockSafe_returning)
  · exact lockSafe_unlock.mpr lockSafe_returning
  · exact lockSafe_unlock.mpr lockSafe_returning
  · simp only [lockSafe_unlock, lockSafe_lock, lockSafe_read]
    intro m
    split_ifs
    · exact lockSafe_unlock.mpr lockSafe_returning
    · simp only [lockSafe_read]
      intro m
      split_ifs
      · simp only [lockSafe_unlock, lockSafe_lock, lockSafe_read]
        intro m
        split_ifs
        · exact lockSafe_unlock.mpr lockSafe_returning
        · exact lockSafe_unlistPidCode
      · simp only [lockSafe_unlock, lockSafe_lock, lockSafe_read]
        intro m
        split_ifs
        · exact lockSafe_unlock.mpr lockSafe_returning
        · exact lockSafe_listPidCode lockSafe_returning

theorem lockSafe_passOnCode (reg : PtRegs) (log : List LogMessage) :
    LockSafe (passOnCode (α := α) reg log) (insert .pidlist {.calltable}) := by
  have hboth : insert SpinLock.pidlist {SpinLock.calltable} \ {SpinLock.pidlist} =
      ({SpinLock.calltable} : Set SpinLock) := Set.insert_sdiff_self_of_notMem (by simp)
  refine ⟨Set.mem_insert _ _, ?_⟩
  rw [hboth]
  exact lockSafe_unlock.mpr (lockSafe_read.mpr fun m => rfl)

theorem lockSafe_checkSomePidsCode (reg : PtRegs) :
    LockSafe (checkSomePidsCode (α := α) pid reg) (insert .pidlist {.calltable}) := by
  refine lockSafe_read.mpr fun m => ?_
  split_ifs
  · refine lockSafe_read.mpr fun m => ?_
    split_ifs
    · exact lockSafe_passOnCode reg _
    · exact lockSafe_passOnCode reg _
  · exact lockSafe_passOnCode reg _

theorem lockSafe_interceptorCode (reg : PtRegs) :
    LockSafe (interceptorCode (α := α) pid reg) ∅ := by
  refine lockSafe_lock.mpr ⟨?_, ?_⟩
  · rintro _ rfl
    exact SpinLock.calltable_lt_pidlist
  · refine lockSafe_read.mpr fun m => ?_
    split_ifs
    · refine lockSafe_read.mpr fun m => ?_
      split_ifs
      · exact lockSafe_passOnCode reg _
      · exact lockSafe_checkSomePidsCode reg
    · exact lockSafe_checkSomePidsCode reg

theorem lockSafe_mySyscallCode (cmd syscall pid : ℤ) :
    LockSafe (mySyscallCode K c cmd syscall pid) ∅ := by
  unfold mySyscallCode
  split_ifs
  · exact lockSafe_returning
  · exact lockSafe_requestInterceptCode
  · exact lockSafe_requestReleaseCode
  · exact lockSafe_startMonitoringCode
  · exact lockSafe_stopMonitoringCode
  · exact lockSafe_returning

theorem Call.lockSafe (K : Kernel α) (call : Call) : LockSafe (call.code K) ∅ := by
  cases call with
  | command c cmd syscall pid => exact lockSafe_mySyscallCode cmd syscall pid
  | exit pid => exact lockSafe_myExitGroupCode
  | intercepted pid reg => exact lockSafe_interceptorCode reg

/-! ## Runs -/

variable {ι : Type} [DecidableEq ι] {m : Module α} {calls : ι → Call}
  {t u : Threads (Module α) (Reply α) SpinLock ι} {j : ι}

theorem orderly_of_run (hrun : ReflTransGen Threads.Goes (loaded K m calls) t) :
    t.Orderly UnderLocks :=
  Threads.orderly_of_reflTransGen hrun (Threads.orderly_start fun i => (calls i).lockSafe K)

/-- A call that is not interrupted does what the model without locks says. -/
theorem Call.runs_alone (K : Kernel α) (m : Module α) (calls : ι → Call) (i : ι) :
    ∃ t, ReflTransGen (fun s t => Threads.Step s i t) (loaded K m calls) t ∧
      t.Returned i ((calls i).serve K m).1 ∧ t.memory = ((calls i).serve K m).2 := by
  have ho : (loaded K m calls).Orderly UnderLocks := orderly_of_run .refl
  obtain ⟨t, hrun, hret, hmem⟩ := ho.runs_alone (i := i) fun l j hl => by cases hl
  rw [show (loaded K m calls).code i = (calls i).code K from rfl,
    show (loaded K m calls).memory = m from rfl, Call.alone_code] at hret hmem
  exact ⟨t, hrun, hret, hmem⟩

/-- A module with one intercepted system call. -/
def intercepting5 : Module ℕ :=
  run i386 (initFunction i386 (fun i => 1000 + i)) [.command root requestSyscallIntercept 5 0]

/-- Process 7 makes system call 5 and exits. -/
def callAndExit (i : Fin 2) : Call :=
  if i.val = 0 then .intercepted 7 ⟨5, 0, 0, 0, 0, 0, 0⟩ else .exit 7

/-- While call `j` holds a lock, the others leave alone what the lock guards; with both locks it
has the module to itself. -/
theorem locks_guard (hrun : ReflTransGen Threads.Goes (loaded K m calls) t)
    (hothers : ReflTransGen (Threads.OthersGo j) t u) :
    (t.holder .pidlist = some j → u.holder .pidlist = some j ∧ u.memory.lists = t.memory.lists) ∧
    (t.holder .calltable = some j →
      u.holder .calltable = some j ∧ u.memory.handlers = t.memory.handlers) ∧
    (t.holder .pidlist = some j → t.holder .calltable = some j → u.memory = t.memory) := by
  have ho := orderly_of_run hrun
  refine ⟨fun hpid => ?_, fun hcall => ?_, fun hpid hcall => ?_⟩
  · obtain ⟨hlists, hheld, -⟩ := ho.guarded hothers (fun _ _ hf => hf.lists) hpid
    exact ⟨hheld, hlists⟩
  · obtain ⟨hhandlers, hheld, -⟩ := ho.guarded hothers (fun _ _ hf => hf.handlers) hcall
    exact ⟨hheld, hhandlers⟩
  · refine (ho.guarded_all hothers (fun f hf => hf.still rfl) fun l => ?_).1
    cases l with
    | calltable => exact hcall
    | pidlist => exact hpid

/-- The exit has its lock when the other call takes `calltable_lock`. -/
theorem locks_guard_exit : ∃ t u : Threads (Module ℕ) (Reply ℕ) SpinLock (Fin 2),
    t.holder .pidlist = some 1 ∧ u.holder .calltable = some 0 ∧
      u.memory.lists = t.memory.lists := by
  obtain ⟨t, hexit, hheld, hfree, rest, hcode⟩ :
      ∃ t, (loaded i386 intercepting5 callAndExit).Step 1 t ∧ t.holder .pidlist = some 1 ∧
        t.holder .calltable = none ∧ ∃ rest, t.code 0 = .lock .calltable rest :=
    ⟨_, .lock rfl rfl, rfl, rfl, _, rfl⟩
  have hcall : t.Step 0 _ := .lock hcode hfree
  exact ⟨t, _, hheld, rfl, ((locks_guard (.single ⟨1, hexit⟩)
    (.single ⟨0, by decide, hcall⟩)).1 hheld).2⟩

/-! ## The logging decision -/

/-- Reads, and then the end of `interceptor`. -/
inductive Checks (reg : PtRegs) : Program α → Prop
  | passOn (log : List LogMessage) : Checks reg (passOnCode reg log)
  | read {k : Module α → Program α} (h : ∀ m, Checks reg (k m)) : Checks reg (.read k)

theorem checks_checkSomePidsCode (pid : ℤ) (reg : PtRegs) :
    Checks reg (checkSomePidsCode (α := α) pid reg) := by
  refine .read fun m => ?_
  split_ifs
  · refine .read fun m => ?_
    split_ifs
    · exact .passOn _
    · exact .passOn _
  · exact .passOn _

theorem checks_checkAllPidsCode (pid : ℤ) (reg : PtRegs) :
    Checks reg (checkAllPidsCode (α := α) pid reg) := by
  refine .read fun m => ?_
  split_ifs
  · refine .read fun m => ?_
    split_ifs
    · exact .passOn _
    · exact checks_checkSomePidsCode pid reg
  · exact checks_checkSomePidsCode pid reg

/-- `log` is what `interceptor` logs in a state between `s` and `t` in which the call `j` has
both locks. -/
def LoggedBetween (s t : Threads (Module α) (Reply α) SpinLock ι) (j : ι) (pid : ℤ) (reg : PtRegs)
    (log : List LogMessage) : Prop :=
  ∃ u, ReflTransGen Threads.Goes s u ∧ ReflTransGen Threads.Goes u t ∧
    (∀ l, u.holder l = some j) ∧ log = (interceptorCall u.memory pid reg).1

/-- How far the call `j` of `interceptor` has come. -/
inductive Intercepting (s t : Threads (Module α) (Reply α) SpinLock ι) (j : ι) (pid : ℤ)
    (reg : PtRegs) : Prop
  | entering (hcode : t.code j = interceptorCode pid reg)
  | waiting (hcode : t.code j = .lock .pidlist (checkAllPidsCode pid reg))
      (hheld : t.holder .calltable = some j)
  /-- what it has still to do leads to what is to be logged now -/
  | inside (hchecks : Checks reg (t.code j)) (hboth : ∀ l, t.holder l = some j)
      (hlog : ((t.code j).alone t.memory).1 =
        .passed (interceptorCall t.memory pid reg).1 (interceptorCall t.memory pid reg).2)
  | leaving (log : List LogMessage) (hlog : LoggedBetween s t j pid reg log)
      (hcode : t.code j = .unlock .calltable
        (.read fun m => .ret (.passed log (m.table reg.ax.toNat).f)))
  | passing (log : List LogMessage) (hlog : LoggedBetween s t j pid reg log)
      (hcode : t.code j = .read fun m => .ret (.passed log (m.table reg.ax.toNat).f))
  | passed (log : List LogMessage) (handler : α)
      (hlog : ∃ u, ReflTransGen Threads.Goes u t ∧ LoggedBetween s u j pid reg log ∧
        (∀ l, u.holder l ≠ some j) ∧ (∀ r, ¬ u.Returned j r) ∧
        handler = (interceptorCall u.memory pid reg).2)
      (hcode : t.code j = .ret (.passed log handler))

section LogDecision

variable {s t u : Threads (Module α) (Reply α) SpinLock ι} {reg : PtRegs} {log : List LogMessage}

theorem LoggedBetween.tail (h : LoggedBetween s t j pid reg log) (hstep : t.Goes u) :
    LoggedBetween s u j pid reg log := by
  obtain ⟨w, hsw, hwt, hlog⟩ := h
  exact ⟨w, hsw, hwt.tail hstep, hlog⟩

/-- A step of another call. -/
theorem Intercepting.others (h : Intercepting s t j pid reg) (ho : t.Orderly UnderLocks)
    {i : ι} (hstep : t.Step i u) (hij : i ≠ j) : Intercepting s u j pid reg := by
  have hcode' : u.code j = t.code j := (hstep.next).2 j hij.symm
  cases h with
  | entering hcode => exact .entering (hcode'.trans hcode)
  | waiting hcode hheld =>
      exact .waiting (hcode'.trans hcode)
        (hstep.guarded ho (fun _ _ hf => hf.handlers) hheld hij).2
  | inside hchecks hboth hlog =>
      obtain ⟨hmem, hboth'⟩ := hstep.guarded_all ho (fun f hf => hf.still rfl) hboth hij
      refine .inside ?_ hboth' ?_
      · rwa [hcode']
      · rwa [hcode', hmem]
  | leaving log hlog hcode => exact .leaving log (hlog.tail ⟨i, hstep⟩) (hcode'.trans hcode)
  | passing log hlog hcode => exact .passing log (hlog.tail ⟨i, hstep⟩) (hcode'.trans hcode)
  | passed log handler hlog hcode =>
      obtain ⟨w, hwt, hlog, hhandler⟩ := hlog
      exact .passed log handler ⟨w, hwt.tail ⟨i, hstep⟩, hlog, hhandler⟩ (hcode'.trans hcode)

/-- A step of the call. -/
theorem Intercepting.own (h : Intercepting s t j pid reg) (ho : t.Orderly UnderLocks)
    (hrun : ReflTransGen Threads.Goes s t) (hstep : t.Step j u) :
    Intercepting s u j pid reg := by
  cases h with
  | entering hcode =>
      obtain ⟨-, rfl⟩ := hstep.of_lock hcode
      exact .waiting (by simp) (by simp [Threads.after])
  | waiting hcode hheld =>
      obtain ⟨-, rfl⟩ := hstep.of_lock hcode
      refine .inside ?_ (fun l => ?_) ?_
      · rw [Threads.after_code_self]
        exact checks_checkAllPidsCode pid reg
      · cases l with
        | calltable => simpa [Threads.after] using hheld
        | pidlist => simp [Threads.after]
      · rw [Threads.after_code_self]
        exact congrArg Prod.fst (alone_interceptorCode reg)
  | inside hchecks hboth hlog =>
      generalize hcode : t.code j = p at hchecks hlog
      cases hchecks with
      | passOn log =>
          obtain rfl := hstep.of_unlock hcode
          have hlogged : log = (interceptorCall t.memory pid reg).1 :=
            (Reply.passed.inj (hlog : Reply.passed log _ = _)).1
          exact .leaving log ⟨t, hrun, .single ⟨j, hstep⟩, hboth, hlogged⟩ (by simp)
      | read hk =>
          obtain rfl := hstep.of_act hcode
          refine .inside ?_ hboth ?_
          · rw [Threads.after_code_self]
            exact hk _
          · rw [Threads.after_code_self]
            exact hlog
  | leaving log hlog hcode =>
      have hlog' := hlog.tail ⟨j, hstep⟩
      obtain rfl := hstep.of_unlock hcode
      exact .passing log hlog' (by simp)
  | passing log hlog hcode =>
      have hgoes : t.Goes u := ⟨j, hstep⟩
      -- what it has still to do needs no lock
      have hheld : t.held j = ∅ := (ho.at_act hcode).2 t.memory
      have hfree : ∀ l, t.holder l ≠ some j := Set.eq_empty_iff_forall_notMem.mp hheld
      have hgoing : ∀ r, ¬ t.Returned j r := fun _ => hstep.not_returned
      obtain rfl := hstep.of_act hcode
      exact .passed log (t.memory.table reg.ax.toNat).f
        ⟨t, .single hgoes, hlog, hfree, hgoing, rfl⟩ (by simp)
  | passed log handler hlog hcode => exact absurd hcode hstep.not_returned

/-- What a call of `interceptor` logs is right for the state at one moment of the call, at which it
has both locks, and the handler that it calls is the one saved at a later moment of the call, at
which it has none. -/
theorem interceptor_decides {handler : α} (hcall : calls j = .intercepted pid reg)
    (hrun : ReflTransGen Threads.Goes (loaded K m calls) t)
    (hret : t.Returned j (.passed log handler)) :
    ∃ u w, ReflTransGen Threads.Goes (loaded K m calls) u ∧ ReflTransGen Threads.Goes u w ∧
      ReflTransGen Threads.Goes w t ∧ (∀ l, u.holder l = some j) ∧ (∀ l, w.holder l ≠ some j) ∧
      (∀ r, ¬ w.Returned j r) ∧ log = (interceptorCall u.memory pid reg).1 ∧
      handler = (interceptorCall w.memory pid reg).2 := by
  have hphase : Intercepting (loaded K m calls) t j pid reg := by
    clear hret
    induction hrun with
    | refl => exact .entering (by simp [loaded, Threads.start, hcall, Call.code])
    | tail hrun hstep ih =>
        obtain ⟨i, hstep⟩ := hstep
        by_cases hij : i = j
        · subst hij
          exact ih.own (orderly_of_run hrun) hrun hstep
        · exact ih.others (orderly_of_run hrun) hstep hij
  cases hphase with
  | entering hcode => cases hret.symm.trans hcode
  | waiting hcode => cases hret.symm.trans hcode
  | inside hchecks =>
      rw [show t.code j = _ from hret] at hchecks
      cases hchecks
  | leaving _ _ hcode => cases hret.symm.trans hcode
  | passing _ _ hcode => cases hret.symm.trans hcode
  | passed log' handler' hlog hcode =>
      obtain ⟨rfl, rfl⟩ := Reply.passed.inj (Code.ret.inj (hret.symm.trans hcode))
      obtain ⟨w, hwt, ⟨u, hu, huw, hboth, hlog⟩, hfree, hgoing, hhandler⟩ := hlog
      exact ⟨u, w, hu, huw, hwt, hboth, hfree, hgoing, hlog, hhandler⟩

end LogDecision

theorem interceptor_decides_alone :
    ∃ t u w : Threads (Module ℕ) (Reply ℕ) SpinLock (Fin 2), t.Returned 0 (.passed [] 1005) ∧
      (∀ l, u.holder l = some 0) ∧ (∀ l, w.holder l ≠ some 0) ∧ (∀ r, ¬ w.Returned 0 r) ∧
      [] = (interceptorCall u.memory 7 ⟨5, 0, 0, 0, 0, 0, 0⟩).1 ∧
      1005 = (interceptorCall w.memory 7 ⟨5, 0, 0, 0, 0, 0, 0⟩).2 := by
  obtain ⟨t, hrun, hret, -⟩ := Call.runs_alone i386 intercepting5 callAndExit 0
  have hgoes : ReflTransGen Threads.Goes (loaded i386 intercepting5 callAndExit) t :=
    hrun.lift id fun _ _ hstep => ⟨0, hstep⟩
  have hret' : t.Returned 0 (.passed [] 1005) := hret
  have hcall : callAndExit 0 = .intercepted 7 ⟨5, 0, 0, 0, 0, 0, 0⟩ := rfl
  obtain ⟨u, w, -, -, -, hboth, hfree, hgoing, hlog, hhandler⟩ :=
    interceptor_decides hcall hgoes hret'
  exact ⟨t, u, w, hret', hboth, hfree, hgoing, hlog, hhandler⟩

end KernelProgramming.Interceptor
