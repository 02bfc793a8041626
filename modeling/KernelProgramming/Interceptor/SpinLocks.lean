import Mathlib.Order.Fin.Basic
import KernelProgramming.Interceptor.Sections
import KernelProgramming.Library.LockOrder

/-!
# The spin locks

The functions of the module statement by statement, with `calltable_lock` and
`pidlist_lock`.  Any number of calls run at the same time; a call that finds a
lock taken waits for it.
-/

namespace KernelProgramming.Interceptor

open LockOrder Relation

variable {α : Type}

/-- The locks, in the order in which `interceptor` takes both. -/
inductive SpinLock
  | calltable
  | pidlist
  deriving DecidableEq, Repr

namespace SpinLock

def rank : SpinLock → Fin 2
  | .calltable => 0
  | .pidlist => 1

theorem rank_injective : Function.Injective rank := by
  intro k l h
  cases k <;> cases l <;> first | rfl | cases h

instance : LinearOrder SpinLock := LinearOrder.lift' rank rank_injective

instance : Finite SpinLock := .of_injective rank rank_injective

theorem calltable_lt_pidlist : calltable < pidlist := show (0 : Fin 2) < 1 by decide

end SpinLock

/-- What a call gives back; `interceptor` logs and calls the saved handler. -/
inductive Reply (α : Type)
  | returned (ret : ℤ)
  | exited
  | passed (log : List LogMessage) (handler : α)

abbrev Program (α : Type) := Code (Module α) (Reply α) SpinLock

/-! ## List operations -/

def setEntryCode (sysc : ℕ) (g : MyTable α → MyTable α) (rest : Program α) : Program α :=
  .write (fun m => m.setEntry sysc g) rest

def addPidSyscCode (c : Current) (pid : ℤ) (sysc : ℕ) (rest : ℤ → Program α) : Program α :=
  if c.memory = false then rest (-enomem)
  else
    setEntryCode sysc (fun e => { e with myList := pid :: e.myList }) <|
    setEntryCode sysc (fun e => e.addCount 1) <|
    rest 0

/-- A node with `pid` is deleted and counted off; `monitored` is only read if
none is left by the count. -/
def dropNodeCode (pid : ℤ) (sysc : ℕ) (rest : Program α) : Program α :=
  setEntryCode sysc (fun e => { e with myList := e.myList.erase pid }) <|
  setEntryCode sysc (fun e => e.addCount (-1)) <|
  .read fun m =>
    if (m.table sysc).listcount = 0 then
      .read fun m =>
        if (m.table sysc).monitored = .somePids then
          setEntryCode sysc (fun e => e.setMonitored .notMonitored) rest
        else rest
    else rest

def delPidSyscCode (pid : ℤ) (sysc : ℕ) (rest : ℤ → Program α) : Program α :=
  .read fun m =>
    if pid ∈ (m.table sysc).myList then dropNodeCode pid sysc (rest 0) else rest (-einval)

/-- The inner loop of `del_pid`, over the nodes of one list. -/
def delNodesCode (pid : ℤ) (sysc : ℕ) (rest : Bool → Program α) : List ℤ → Bool → Program α
  | [], ispid => rest ispid
  | node :: nodes, ispid =>
      if node = pid then dropNodeCode pid sysc (delNodesCode pid sysc rest nodes true)
      else delNodesCode pid sysc rest nodes ispid

def delListsCode (pid : ℤ) (rest : Bool → Program α) : List ℕ → Bool → Program α
  | [], ispid => rest ispid
  | s :: ss, ispid =>
      .read fun m => delNodesCode pid s (delListsCode pid rest ss) (m.table s).myList ispid

def delPidCode (K : Kernel α) (pid : ℤ) (rest : ℤ → Program α) : Program α :=
  delListsCode pid (fun ispid => rest (if ispid then 0 else -1))
    (List.range' 1 (K.nrSyscalls - 1)) false

def destroyNodesCode (sysc : ℕ) (rest : Program α) : List ℤ → Program α
  | [] => rest
  | _ :: nodes =>
      setEntryCode sysc (fun e => { e with myList := e.myList.tail })
        (destroyNodesCode sysc rest nodes)

def destroyListCode (sysc : ℕ) (rest : Program α) : Program α :=
  .read fun m =>
    (m.table sysc).myList |> destroyNodesCode sysc
      (setEntryCode sysc (fun e => { e with listcount := 0 }) <|
      setEntryCode sysc (fun e => e.setMonitored .notMonitored) rest)

/-! ## The calls -/

def returning (ret : ℤ) : Program α := .ret (.returned ret)

def myExitGroupCode (K : Kernel α) (pid : ℤ) : Program α :=
  .lock .pidlist <| delPidCode K pid fun _ => .unlock .pidlist (.ret .exited)

/-- The end of `interceptor`; the saved handler is read without a lock. -/
def passOnCode (reg : PtRegs) (log : List LogMessage) : Program α :=
  .unlock .pidlist <| .unlock .calltable <|
  .read fun m => .ret (.passed log (m.table reg.ax.toNat).f)

/-- The second half of the condition in `interceptor`. -/
def checkSomePidsCode (pid : ℤ) (reg : PtRegs) : Program α :=
  .read fun m =>
    if (m.table reg.ax.toNat).monitored = .somePids then
      .read fun m =>
        if (m.table reg.ax.toNat).checkPidMonitored pid = true then passOnCode reg [⟨pid, reg⟩]
        else passOnCode reg []
    else passOnCode reg []

def checkAllPidsCode (pid : ℤ) (reg : PtRegs) : Program α :=
  .read fun m =>
    if (m.table reg.ax.toNat).monitored = .allPids then
      .read fun m =>
        if (m.table reg.ax.toNat).checkPidMonitored pid = false then passOnCode reg [⟨pid, reg⟩]
        else checkSomePidsCode pid reg
    else checkSomePidsCode pid reg

def interceptorCode (pid : ℤ) (reg : PtRegs) : Program α :=
  .lock .calltable <| .lock .pidlist <| checkAllPidsCode pid reg

def requestInterceptCode (K : Kernel α) (c : Current) (s : ℕ) : Program α :=
  if c.uid ≠ 0 then returning (-eperm)
  else
    .lock .pidlist <| .read fun m =>
      if (m.table s).intercepted = true then .unlock .pidlist <| returning (-ebusy)
      else
        .unlock .pidlist <| .lock .calltable <|
        .write (fun m => m.setEntry s fun e => { e with f := m.sysCallTable s }) <|
        .write (fun m => m.setHandler s K.interceptor) <|
        .unlock .calltable <| .lock .pidlist <|
        setEntryCode s (fun e => { e with intercepted := true }) <|
        .unlock .pidlist <| returning 0

def requestReleaseCode (c : Current) (s : ℕ) : Program α :=
  if c.uid ≠ 0 then returning (-eperm)
  else
    .lock .pidlist <| .read fun m =>
      if (m.table s).intercepted = false then .unlock .pidlist <| returning (-einval)
      else
        .unlock .pidlist <| .lock .calltable <|
        .write (fun m => m.setHandler s (m.table s).f) <|
        setEntryCode s (fun e => e.setMonitored .notMonitored) <|
        .unlock .calltable <| .lock .pidlist <|
        destroyListCode s <|
        setEntryCode s (fun e => { e with intercepted := false }) <|
        .unlock .pidlist <| returning 0

/-- The end of the branches that list `pid`. -/
def listPidCode (c : Current) (pid : ℤ) (s : ℕ) (rest : Program α) : Program α :=
  addPidSyscCode c pid s fun err =>
    if err ≠ 0 then .unlock .pidlist <| returning (-enomem)
    else setEntryCode s (fun e => e.addCount 1) <| .unlock .pidlist rest

/-- The end of the branches that take `pid` off the list. -/
def unlistPidCode (pid : ℤ) (s : ℕ) : Program α :=
  delPidSyscCode pid s fun _ =>
    setEntryCode s (fun e => e.addCount (-1)) <| .unlock .pidlist <| returning 0

def startMonitoringCode (c : Current) (s : ℕ) (pid : ℤ) : Program α :=
  .lock .pidlist <| .read fun m =>
    if (m.table s).intercepted = false then .unlock .pidlist <| returning (-einval)
    else .unlock .pidlist <|
      if pid = 0 then
        if c.uid ≠ 0 then returning (-eperm)
        else
          .lock .calltable <| .read fun m =>
            if (m.table s).monitored = .allPids then .unlock .calltable <| returning (-ebusy)
            else
              .unlock .calltable <| .lock .pidlist <|
              destroyListCode s <|
              .unlock .pidlist <| .lock .calltable <|
              setEntryCode s (fun e => e.setMonitored .allPids) <|
              .unlock .calltable <| returning 0
      else if pid < 0 ∨ c.owner pid = none then returning (-einval)
      else if c.uid ≠ 0 ∧ checkPidFromList c pid c.pid ≠ 0 then returning (-eperm)
      else
        .lock .calltable <| .read fun m =>
          if (m.table s).monitored = .allPids then
            .unlock .calltable <| .lock .pidlist <| .read fun m =>
              if (m.table s).checkPidMonitored pid = false then
                .unlock .pidlist <| returning (-ebusy)
              else unlistPidCode pid s
          else .read fun m =>
            if (m.table s).monitored = .somePids then
              .unlock .calltable <| .lock .pidlist <| .read fun m =>
                if (m.table s).checkPidMonitored pid = true then
                  .unlock .pidlist <| returning (-ebusy)
                else listPidCode c pid s <| returning 0
            else
              .unlock .calltable <| .lock .pidlist <|
              listPidCode c pid s <|
              .lock .calltable <|
              setEntryCode s (fun e => e.setMonitored .somePids) <|
              .unlock .calltable <| returning 0

def stopMonitoringCode (c : Current) (s : ℕ) (pid : ℤ) : Program α :=
  .lock .pidlist <| .read fun m =>
    if (m.table s).intercepted = false then .unlock .pidlist <| returning (-einval)
    else .unlock .pidlist <|
      if pid = 0 then
        if c.uid ≠ 0 then returning (-eperm)
        else
          .lock .calltable <| .read fun m =>
            if (m.table s).monitored = .notMonitored then .unlock .calltable <| returning (-einval)
            else
              .unlock .calltable <| .lock .pidlist <|
              destroyListCode s <| .unlock .pidlist <| returning 0
      else if pid < 0 ∨ c.owner pid = none then returning (-einval)
      else if c.uid ≠ 0 ∧ checkPidFromList c pid c.pid ≠ 0 then returning (-eperm)
      else
        .lock .calltable <| .read fun m =>
          if (m.table s).monitored = .notMonitored then .unlock .calltable <| returning (-einval)
          else .read fun m =>
            if (m.table s).monitored = .somePids then
              .unlock .calltable <| .lock .pidlist <| .read fun m =>
                if (m.table s).checkPidMonitored pid = false then
                  .unlock .pidlist <| returning (-einval)
                else unlistPidCode pid s
            else
              .unlock .calltable <| .lock .pidlist <| .read fun m =>
                if (m.table s).checkPidMonitored pid = true then
                  .unlock .pidlist <| returning (-einval)
                else listPidCode c pid s <| returning 0

def mySyscallCode (K : Kernel α) (c : Current) (cmd syscall pid : ℤ) : Program α :=
  if syscall < 0 ∨ syscall > K.nrSyscalls ∨ syscall = myCustomSyscall then returning (-einval)
  else if cmd = requestSyscallIntercept then requestInterceptCode K c syscall.toNat
  else if cmd = requestSyscallRelease then requestReleaseCode c syscall.toNat
  else if cmd = requestStartMonitoring then startMonitoringCode c syscall.toNat pid
  else if cmd = requestStopMonitoring then stopMonitoringCode c syscall.toNat pid
  else returning (-einval)

/-- A call of `my_syscall`, of `my_exit_group` or of an intercepted handler. -/
inductive Call
  | command (c : Current) (cmd syscall pid : ℤ)
  | exit (pid : ℤ)
  | intercepted (pid : ℤ) (reg : PtRegs)

def Call.code (K : Kernel α) : Call → Program α
  | .command c cmd syscall pid => mySyscallCode K c cmd syscall pid
  | .exit pid => myExitGroupCode K pid
  | .intercepted pid reg => interceptorCode pid reg

/-- What a call without others gives back and leaves behind. -/
def Call.serve (K : Kernel α) (m : Module α) : Call → Reply α × Module α
  | .command c cmd syscall pid =>
      (.returned (mySyscall K c m cmd syscall pid).1, (mySyscall K c m cmd syscall pid).2)
  | .exit pid => (.exited, (delPid K m pid).2)
  | .intercepted pid reg =>
      (.passed (interceptorCall m pid reg).1 (interceptorCall m pid reg).2, m)

/-- The calls `calls`, none of which has begun. -/
def loaded {ι : Type} (K : Kernel α) (m : Module α) (calls : ι → Call) :
    Threads (Module α) (Reply α) SpinLock ι := .start m fun i => (calls i).code K

/-! ## A call by itself -/

section Alone

variable {K : Kernel α} {m : Module α} {s : ℕ} {pid : ℤ} {rest : Program α}

@[simp] theorem alone_read (k : Module α → Program α) : (Code.read k).alone m = (k m).alone m := rfl

@[simp] theorem alone_write (f : Module α → Module α) :
    (Code.write f rest).alone m = rest.alone (f m) := rfl

@[simp] theorem alone_returning (ret : ℤ) : (returning ret).alone m = (.returned ret, m) := rfl

@[simp] theorem alone_lock (l : SpinLock) : (Code.lock l rest).alone m = rest.alone m := rfl

@[simp] theorem alone_unlock (l : SpinLock) : (Code.unlock l rest).alone m = rest.alone m := rfl

@[simp] theorem alone_setEntryCode (g : MyTable α → MyTable α) :
    (setEntryCode s g rest).alone m = rest.alone (m.setEntry s g) := rfl

theorem alone_addPidSyscCode (c : Current) (k : ℤ → Program α) :
    (addPidSyscCode c pid s k).alone m =
      (k (addPidSysc c m pid s).1).alone (addPidSysc c m pid s).2 := by
  cases hmem : c.memory with
  | false => simp [addPidSyscCode, addPidSysc, hmem]
  | true => simp [addPidSyscCode, addPidSysc, hmem, Module.setEntry_setEntry, MyTable.addPid,
      MyTable.addCount]

theorem setEntry_self (m : Module α) (s : ℕ) : (m.setEntry s fun e => e) = m := by
  simp [Module.setEntry]

theorem setEntry_congr {g h : MyTable α → MyTable α} (heq : g (m.table s) = h (m.table s)) :
    m.setEntry s g = m.setEntry s h := by
  rw [Module.setEntry, heq, Module.setEntry]

theorem alone_dropNodeCode :
    (dropNodeCode pid s rest).alone m = rest.alone (m.setEntry s fun e => e.unlink pid) := by
  set m₁ := m.setEntry s fun e => { e with
    myList := e.myList.erase pid
    listcount := e.listcount - 1 } with hm₁
  have htable : m₁.table s = { m.table s with
      myList := (m.table s).myList.erase pid
      listcount := (m.table s).listcount - 1 } := Function.update_self ..
  have hdrop : (dropNodeCode pid s rest).alone m =
      (if (m₁.table s).listcount = 0 then
        .read fun m => if (m.table s).monitored = .somePids then
          setEntryCode s (fun e => e.setMonitored .notMonitored) rest else rest
      else rest : Program α).alone m₁ := by
    have hcount : ∀ e : MyTable α, e.listcount + -1 = e.listcount - 1 := fun e =>
      (BitVec.sub_eq_add_neg _ _).symm
    simp only [dropNodeCode, alone_setEntryCode, alone_read, Module.setEntry_setEntry,
      MyTable.addCount, hcount, ← hm₁]
  rw [hdrop, htable]
  by_cases hzero : (m.table s).listcount - 1 = 0
  · rw [if_pos hzero, alone_read, htable]
    by_cases hsome : (m.table s).monitored = .somePids
    · rw [if_pos hsome, alone_setEntryCode, hm₁, Module.setEntry_setEntry]
      exact congrArg rest.alone (setEntry_congr (by
        rw [MyTable.unlink, if_pos ⟨hzero, hsome⟩, MyTable.setMonitored]))
    · rw [if_neg hsome]
      exact congrArg rest.alone (setEntry_congr (by
        rw [MyTable.unlink, if_neg fun h => hsome h.2]))
  · rw [if_neg hzero]
    exact congrArg rest.alone (setEntry_congr (by
      rw [MyTable.unlink, if_neg fun h => hzero h.1]))

theorem alone_delPidSyscCode (k : ℤ → Program α) :
    (delPidSyscCode pid s k).alone m =
      (k (delPidSysc m pid s).1).alone (delPidSysc m pid s).2 := by
  by_cases hin : pid ∈ (m.table s).myList
  · simp [delPidSyscCode, delPidSysc, hin, alone_dropNodeCode]
  · simp [delPidSyscCode, delPidSysc, hin]

theorem alone_delNodesCode (k : Bool → Program α) (nodes : List ℤ) (ispid : Bool) :
    (delNodesCode pid s k nodes ispid).alone m =
      (k (ispid || decide (pid ∈ nodes))).alone (m.setEntry s fun e =>
        nodes.foldl (fun e node => if node = pid then e.unlink pid else e) e) := by
  induction nodes generalizing m ispid with
  | nil => simp [delNodesCode, setEntry_self]
  | cons node nodes ih =>
      by_cases hnode : node = pid
      · simp [delNodesCode, hnode, alone_dropNodeCode, ih, Module.setEntry_setEntry]
      · simp [delNodesCode, hnode, ih, Ne.symm hnode]

theorem alone_delListsCode (k : Bool → Program α) {ss : List ℕ} (hss : ss.Nodup) (ispid : Bool) :
    (delListsCode pid k ss ispid).alone m =
      (k (ispid || ss.any fun s => decide (pid ∈ (m.table s).myList))).alone
        { m with table := fun s => if s ∈ ss then (m.table s).purge pid else m.table s } := by
  induction ss generalizing m ispid with
  | nil => simp [delListsCode]
  | cons s ss ih =>
      obtain ⟨hs, hss⟩ := List.nodup_cons.mp hss
      have hother : ∀ t ∈ ss, t ≠ s := fun t ht => ne_of_mem_of_not_mem ht hs
      rw [delListsCode, alone_read, alone_delNodesCode, ih hss]
      set m₁ := m.setEntry s fun e =>
        (m.table s).myList.foldl (fun e node => if node = pid then e.unlink pid else e) e with hm₁
      have hself : m₁.table s = (m.table s).purge pid := Function.update_self ..
      have htable : ∀ t, t ≠ s → m₁.table t = m.table t := fun t ht => Function.update_of_ne ht ..
      have hany : (ss.any fun t => decide (pid ∈ (m₁.table t).myList)) =
          ss.any fun t => decide (pid ∈ (m.table t).myList) := by
        rw [Bool.eq_iff_iff, List.any_eq_true, List.any_eq_true]
        exact exists_congr fun t => and_congr_right fun ht => by rw [htable t (hother t ht)]
      have hm : ({ m₁ with table := fun t => if t ∈ ss then (m₁.table t).purge pid else m₁.table t } :
          Module α) = { m with
            table := fun t => if t ∈ s :: ss then (m.table t).purge pid else m.table t } := by
        refine congrArg (fun table => ({ m with table := table } : Module α)) (funext fun t => ?_)
        by_cases hts : t = s
        · subst hts
          rw [if_neg hs, if_pos List.mem_cons_self, hself]
        · rw [htable t hts]
          simp [hts]
      rw [hany, hm, List.any_cons, Bool.or_assoc]

theorem alone_delPidCode (k : ℤ → Program α) :
    (delPidCode K pid k).alone m = (k (delPid K m pid).1).alone (delPid K m pid).2 := by
  have hmem : ∀ s, s ∈ List.range' 1 (K.nrSyscalls - 1) ↔ 1 ≤ s ∧ s < K.nrSyscalls := fun s => by
    have hlt := K.exitGroup_lt
    rw [List.mem_range'_1]
    omega
  have hany : ((List.range' 1 (K.nrSyscalls - 1)).any fun s => decide (pid ∈ (m.table s).myList)) =
      (List.range K.nrSyscalls).any fun s => decide (1 ≤ s) && decide (pid ∈ (m.table s).myList) := by
    rw [Bool.eq_iff_iff]
    simp only [List.any_eq_true, hmem, List.mem_range, Bool.and_eq_true, decide_eq_true_eq]
    tauto
  rw [delPidCode, alone_delListsCode _ List.nodup_range', hany, Bool.false_or, delPid]
  simp only [hmem]

theorem alone_destroyNodesCode (nodes : List ℤ) :
    (destroyNodesCode s rest nodes).alone m =
      rest.alone (m.setEntry s fun e => { e with myList := e.myList.drop nodes.length }) := by
  induction nodes generalizing m with
  | nil => simp [destroyNodesCode, setEntry_self]
  | cons node nodes ih =>
      simp [destroyNodesCode, ih, Module.setEntry_setEntry, List.drop_tail]

theorem alone_destroyListCode :
    (destroyListCode s rest).alone m = rest.alone (destroyList m s) := by
  simp [destroyListCode, alone_destroyNodesCode, destroyList, Module.setEntry, MyTable.setMonitored,
    MyTable.destroy]

theorem alone_listPidCode (c : Current) :
    (listPidCode c pid s rest).alone m =
      if (listPid c m pid s id).1 ≠ 0 then (.returned (-enomem), m)
      else rest.alone (listPid c m pid s id).2 := by
  cases hmem : c.memory with
  | false => simp [listPidCode, alone_addPidSyscCode, addPidSysc, listPid, hmem, enomem]
  | true => simp [listPidCode, alone_addPidSyscCode, addPidSysc, listPid, hmem]

theorem alone_listPidCode_returning (c : Current) :
    (listPidCode c pid s (returning 0)).alone m =
      (.returned (listPid c m pid s id).1, (listPid c m pid s id).2) := by
  cases hmem : c.memory with
  | false => simp [alone_listPidCode, addPidSysc, listPid, hmem, enomem]
  | true => simp [alone_listPidCode, addPidSysc, listPid, hmem]

theorem alone_unlistPidCode :
    (unlistPidCode pid s).alone m = (.returned (unlistPid m pid s).1, (unlistPid m pid s).2) := by
  simp [unlistPidCode, alone_delPidSyscCode, unlistPid]

theorem alone_requestInterceptCode (c : Current) :
    (requestInterceptCode K c s).alone m =
      (.returned (requestIntercept K c m s).1, (requestIntercept K c m s).2) := by
  unfold requestInterceptCode requestIntercept
  by_cases huid : c.uid ≠ 0
  · rw [if_pos huid, if_pos huid]
    rfl
  · rw [if_neg huid, if_neg huid, alone_lock, alone_read]
    by_cases hint : (m.table s).intercepted = true
    · rw [if_pos hint, if_pos hint]
      rfl
    · rw [if_neg hint, if_neg hint]
      rfl

theorem alone_requestReleaseCode (c : Current) :
    (requestReleaseCode c s).alone m =
      (.returned (requestRelease c m s).1, (requestRelease c m s).2) := by
  unfold requestReleaseCode requestRelease
  by_cases huid : c.uid ≠ 0
  · rw [if_pos huid, if_pos huid]
    rfl
  · rw [if_neg huid, if_neg huid, alone_lock, alone_read]
    by_cases hint : (m.table s).intercepted = false
    · rw [if_pos hint, if_pos hint]
      rfl
    · rw [if_neg hint, if_neg hint]
      simp only [alone_unlock, alone_lock, alone_write, alone_setEntryCode, alone_destroyListCode,
        alone_returning]

theorem alone_startMonitoringCode (c : Current) :
    (startMonitoringCode c s pid).alone m =
      (.returned (startMonitoring c m s pid).1, (startMonitoring c m s pid).2) := by
  unfold startMonitoringCode startMonitoring
  rw [alone_lock, alone_read]
  by_cases hint : (m.table s).intercepted = false
  · rw [if_pos hint, if_pos hint]
    rfl
  rw [if_neg hint, if_neg hint, alone_unlock]
  by_cases hzero : pid = 0
  · rw [if_pos hzero, if_pos hzero]
    by_cases huid : c.uid ≠ 0
    · rw [if_pos huid, if_pos huid]
      rfl
    rw [if_neg huid, if_neg huid, alone_lock, alone_read]
    by_cases hall : (m.table s).monitored = .allPids
    · rw [if_pos hall, if_pos hall]
      rfl
    · rw [if_neg hall, if_neg hall]
      simp only [alone_unlock, alone_lock, alone_setEntryCode, alone_destroyListCode,
        alone_returning]
  rw [if_neg hzero, if_neg hzero]
  by_cases hpid : pid < 0 ∨ c.owner pid = none
  · rw [if_pos hpid, if_pos hpid]
    rfl
  rw [if_neg hpid, if_neg hpid]
  by_cases howner : c.uid ≠ 0 ∧ checkPidFromList c pid c.pid ≠ 0
  · rw [if_pos howner, if_pos howner]
    rfl
  rw [if_neg howner, if_neg howner, alone_lock, alone_read]
  cases hmon : (m.table s).monitored with
  | allPids =>
      rw [if_pos rfl, alone_unlock, alone_lock, alone_read]
      by_cases hlisted : (m.table s).checkPidMonitored pid = false
      · simp [hlisted]
      · rw [if_neg hlisted, alone_unlistPidCode]
        simp [hlisted]
  | somePids =>
      rw [if_neg (by decide), alone_read, hmon, if_pos rfl, alone_unlock, alone_lock, alone_read]
      by_cases hlisted : (m.table s).checkPidMonitored pid = true
      · simp [hlisted]
      · rw [if_neg hlisted, alone_listPidCode_returning]
        simp [hlisted]
  | notMonitored =>
      rw [if_neg (by decide), alone_read, hmon, if_neg (by decide), alone_unlock, alone_lock,
        alone_listPidCode]
      dsimp only
      rw [listPid_finish c m pid s fun e => e.setMonitored .somePids]
      by_cases herr : (listPid c m pid s id).1 ≠ 0
      · rw [if_pos herr, if_pos herr]
      · rw [if_neg herr, if_neg herr]
        rfl

theorem alone_stopMonitoringCode (c : Current) :
    (stopMonitoringCode c s pid).alone m =
      (.returned (stopMonitoring c m s pid).1, (stopMonitoring c m s pid).2) := by
  unfold stopMonitoringCode stopMonitoring
  rw [alone_lock, alone_read]
  by_cases hint : (m.table s).intercepted = false
  · rw [if_pos hint, if_pos hint]
    rfl
  rw [if_neg hint, if_neg hint, alone_unlock]
  by_cases hzero : pid = 0
  · rw [if_pos hzero, if_pos hzero]
    by_cases huid : c.uid ≠ 0
    · rw [if_pos huid, if_pos huid]
      rfl
    rw [if_neg huid, if_neg huid, alone_lock, alone_read]
    by_cases hnone : (m.table s).monitored = .notMonitored
    · rw [if_pos hnone, if_pos hnone]
      rfl
    · rw [if_neg hnone, if_neg hnone]
      simp only [alone_unlock, alone_lock, alone_destroyListCode, alone_returning]
  rw [if_neg hzero, if_neg hzero]
  by_cases hpid : pid < 0 ∨ c.owner pid = none
  · rw [if_pos hpid, if_pos hpid]
    rfl
  rw [if_neg hpid, if_neg hpid]
  by_cases howner : c.uid ≠ 0 ∧ checkPidFromList c pid c.pid ≠ 0
  · rw [if_pos howner, if_pos howner]
    rfl
  rw [if_neg howner, if_neg howner, alone_lock, alone_read]
  cases hmon : (m.table s).monitored with
  | notMonitored => rw [if_pos rfl, alone_unlock, alone_returning]
  | somePids =>
      rw [if_neg (by decide), alone_read, hmon, if_pos rfl, alone_unlock, alone_lock, alone_read]
      by_cases hlisted : (m.table s).checkPidMonitored pid = false
      · simp [hlisted]
      · rw [if_neg hlisted, alone_unlistPidCode]
        simp [hlisted]
  | allPids =>
      rw [if_neg (by decide), alone_read, hmon, if_neg (by decide), alone_unlock, alone_lock,
        alone_read]
      by_cases hlisted : (m.table s).checkPidMonitored pid = true
      · simp [hlisted]
      · rw [if_neg hlisted, alone_listPidCode_returning]
        simp [hlisted]

theorem alone_mySyscallCode (c : Current) (cmd syscall pid : ℤ) :
    (mySyscallCode K c cmd syscall pid).alone m =
      (.returned (mySyscall K c m cmd syscall pid).1, (mySyscall K c m cmd syscall pid).2) := by
  unfold mySyscallCode mySyscall
  split_ifs
  · rfl
  · exact alone_requestInterceptCode c
  · exact alone_requestReleaseCode c
  · exact alone_startMonitoringCode c
  · exact alone_stopMonitoringCode c
  · rfl

theorem alone_myExitGroupCode :
    (myExitGroupCode K pid).alone m = (.exited, (delPid K m pid).2) := by
  simp [myExitGroupCode, Code.alone, alone_delPidCode]

theorem alone_interceptorCode (reg : PtRegs) :
    (interceptorCode pid reg).alone m =
      (.passed (interceptorCall m pid reg).1 (interceptorCall m pid reg).2, m) := by
  simp only [interceptorCode, alone_lock, checkAllPidsCode, alone_read]
  cases hmon : (m.table reg.ax.toNat).monitored with
  | notMonitored =>
      simp [checkSomePidsCode, passOnCode, interceptorCall, MyTable.logged, hmon, Code.alone]
  | somePids =>
      cases hlisted : (m.table reg.ax.toNat).checkPidMonitored pid <;>
        simp [checkSomePidsCode, passOnCode, interceptorCall, MyTable.logged, hmon, hlisted,
          Code.alone]
  | allPids =>
      cases hlisted : (m.table reg.ax.toNat).checkPidMonitored pid <;>
        simp [checkSomePidsCode, passOnCode, interceptorCall, MyTable.logged, hmon, hlisted,
          Code.alone]

/-- The calls one after another are those of the model without locks. -/
theorem Call.alone_code (call : Call) : (call.code K).alone m = call.serve K m := by
  cases call with
  | command c cmd syscall pid => exact alone_mySyscallCode c cmd syscall pid
  | exit pid => exact alone_myExitGroupCode
  | intercepted pid reg => exact alone_interceptorCode reg

end Alone

end KernelProgramming.Interceptor
