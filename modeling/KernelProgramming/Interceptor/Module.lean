import Mathlib.Data.Int.Notation
import Mathlib.Logic.Function.Basic
import Mathlib.Tactic.Common

/-!
# The system call interceptor

The tables of the kernel module `interceptor.c` and its functions, run one
after another.  Addresses of functions are elements of a type `α`; the spin
locks only mark the sections between them and are left out.
-/

namespace KernelProgramming.Interceptor

def eperm : ℤ := 1

def enomem : ℤ := 12

def ebusy : ℤ := 16

def einval : ℤ := 22

def requestSyscallIntercept : ℤ := 1

def requestSyscallRelease : ℤ := 2

def requestStartMonitoring : ℤ := 3

def requestStopMonitoring : ℤ := 4

def myCustomSyscall : ℕ := 0

/-- What the kernel headers and the loader fix: the size of the system call
table, the number of `exit_group` and the addresses of the module's functions. -/
structure Kernel (α : Type) where
  nrSyscalls : ℕ
  nrExitGroup : ℕ
  exitGroup_pos : 0 < nrExitGroup
  exitGroup_lt : nrExitGroup < nrSyscalls
  null : α
  mySyscall : α
  myExitGroup : α
  interceptor : α

/-- The values 0, 1 and 2 of the flag `monitored`. -/
inductive Monitored
  | notMonitored
  | somePids
  | allPids
  deriving DecidableEq, Repr

structure MyTable (α : Type) where
  f : α
  intercepted : Bool
  monitored : Monitored
  listcount : BitVec 32
  myList : List ℤ

structure Module (α : Type) where
  sysCallTable : ℕ → α
  table : ℕ → MyTable α
  origCustomSyscall : α
  origExitGroup : α

/-- The process that makes a call and what the kernel tells the module about
the others.  The caller exists, so `check_pid_from_list` finds its task. -/
structure Current where
  pid : ℤ
  uid : ℕ
  /-- the owner of the process that `pid_task` finds -/
  owner : ℤ → Option ℕ
  exists_self : (owner pid).isSome = true
  /-- whether `kmalloc` succeeds -/
  memory : Bool

variable {α : Type}

def Module.setEntry (m : Module α) (sysc : ℕ) (g : MyTable α → MyTable α) : Module α :=
  { m with table := Function.update m.table sysc (g (m.table sysc)) }

def Module.setHandler (m : Module α) (i : ℕ) (h : α) : Module α :=
  { m with sysCallTable := Function.update m.sysCallTable i h }

/-! ## List operations -/

def MyTable.addPid (e : MyTable α) (pid : ℤ) : MyTable α :=
  { e with
    myList := pid :: e.myList
    listcount := e.listcount + 1 }

/-- Takes the first node with `pid` off the list. -/
def MyTable.unlink (e : MyTable α) (pid : ℤ) : MyTable α :=
  { e with
    myList := e.myList.erase pid
    listcount := e.listcount - 1
    monitored :=
      if e.listcount - 1 = 0 ∧ e.monitored = .somePids then .notMonitored else e.monitored }

def MyTable.addCount (e : MyTable α) (n : BitVec 32) : MyTable α :=
  { e with listcount := e.listcount + n }

def MyTable.setMonitored (e : MyTable α) (monitored : Monitored) : MyTable α :=
  { e with monitored := monitored }

/-- Removes every node with `pid`, in the order of the list. -/
def MyTable.purge (e : MyTable α) (pid : ℤ) : MyTable α :=
  e.myList.foldl (fun e node => if node = pid then e.unlink pid else e) e

def MyTable.destroy (e : MyTable α) : MyTable α :=
  { e with
    myList := []
    listcount := 0
    monitored := .notMonitored }

def addPidSysc (c : Current) (m : Module α) (pid : ℤ) (sysc : ℕ) : ℤ × Module α :=
  if c.memory = false then (-enomem, m) else (0, m.setEntry sysc fun e => e.addPid pid)

def delPidSysc (m : Module α) (pid : ℤ) (sysc : ℕ) : ℤ × Module α :=
  if pid ∈ (m.table sysc).myList then (0, m.setEntry sysc fun e => e.unlink pid)
  else (-einval, m)

/-- Each round of the loop over `s = 1 .. NR_syscalls - 1` works on its own entry. -/
def delPid (K : Kernel α) (m : Module α) (pid : ℤ) : ℤ × Module α :=
  let ispid := (List.range K.nrSyscalls).any fun s =>
    decide (1 ≤ s) && decide (pid ∈ (m.table s).myList)
  let m := { m with
    table := fun s => if 1 ≤ s ∧ s < K.nrSyscalls then (m.table s).purge pid else m.table s }
  (if ispid then 0 else -1, m)

def destroyList (m : Module α) (sysc : ℕ) : Module α := m.setEntry sysc MyTable.destroy

def checkPidFromList (c : Current) (pid₁ pid₂ : ℤ) : ℤ :=
  if c.owner pid₁ ≠ c.owner pid₂ then -eperm else 0

def MyTable.checkPidMonitored (e : MyTable α) (pid : ℤ) : Bool := decide (pid ∈ e.myList)

/-! ## The interceptor and the custom system call -/

/-- The condition under which `interceptor` logs a call by `pid`. -/
def MyTable.logged (e : MyTable α) (pid : ℤ) : Bool :=
  (e.monitored = .allPids && !e.checkPidMonitored pid) ||
    (e.monitored = .somePids && e.checkPidMonitored pid)

def requestIntercept (K : Kernel α) (c : Current) (m : Module α) (s : ℕ) : ℤ × Module α :=
  if c.uid ≠ 0 then (-eperm, m)
  else if (m.table s).intercepted = true then (-ebusy, m)
  else
    let m := m.setEntry s fun e => { e with f := m.sysCallTable s }
    let m := m.setHandler s K.interceptor
    (0, m.setEntry s fun e => { e with intercepted := true })

def requestRelease (c : Current) (m : Module α) (s : ℕ) : ℤ × Module α :=
  if c.uid ≠ 0 then (-eperm, m)
  else if (m.table s).intercepted = false then (-einval, m)
  else
    let m := m.setHandler s (m.table s).f
    let m := m.setEntry s fun e => e.setMonitored .notMonitored
    let m := destroyList m s
    (0, m.setEntry s fun e => { e with intercepted := false })

/-- Puts `pid` on the list and, as the callers of `add_pid_sysc` do, counts it
a second time; `finish` is what the caller does to the entry after that. -/
def listPid (c : Current) (m : Module α) (pid : ℤ) (s : ℕ) (finish : MyTable α → MyTable α) :
    ℤ × Module α :=
  let (err, m) := addPidSysc c m pid s
  if err ≠ 0 then (-enomem, m)
  else (0, m.setEntry s fun e => finish (e.addCount 1))

/-- Takes `pid` off the list and, as the callers of `del_pid_sysc` do, counts
it off a second time. -/
def unlistPid (m : Module α) (pid : ℤ) (s : ℕ) : ℤ × Module α :=
  let (_, m) := delPidSysc m pid s
  (0, m.setEntry s fun e => e.addCount (-1))

def startMonitoring (c : Current) (m : Module α) (s : ℕ) (pid : ℤ) : ℤ × Module α :=
  if (m.table s).intercepted = false then (-einval, m)
  else if pid = 0 then
    if c.uid ≠ 0 then (-eperm, m)
    else if (m.table s).monitored = .allPids then (-ebusy, m)
    else (0, (destroyList m s).setEntry s fun e => e.setMonitored .allPids)
  else if pid < 0 ∨ c.owner pid = none then (-einval, m)
  else if c.uid ≠ 0 ∧ checkPidFromList c pid c.pid ≠ 0 then (-eperm, m)
  else
    match (m.table s).monitored with
    | .allPids =>
        if (m.table s).checkPidMonitored pid = false then (-ebusy, m) else unlistPid m pid s
    | .somePids =>
        if (m.table s).checkPidMonitored pid = true then (-ebusy, m) else listPid c m pid s id
    | .notMonitored => listPid c m pid s fun e => e.setMonitored .somePids

def stopMonitoring (c : Current) (m : Module α) (s : ℕ) (pid : ℤ) : ℤ × Module α :=
  if (m.table s).intercepted = false then (-einval, m)
  else if pid = 0 then
    if c.uid ≠ 0 then (-eperm, m)
    else if (m.table s).monitored = .notMonitored then (-einval, m)
    else (0, destroyList m s)
  else if pid < 0 ∨ c.owner pid = none then (-einval, m)
  else if c.uid ≠ 0 ∧ checkPidFromList c pid c.pid ≠ 0 then (-eperm, m)
  else
    match (m.table s).monitored with
    | .notMonitored => (-einval, m)
    | .somePids =>
        if (m.table s).checkPidMonitored pid = false then (-einval, m) else unlistPid m pid s
    | .allPids =>
        if (m.table s).checkPidMonitored pid = true then (-einval, m) else listPid c m pid s id

def mySyscall (K : Kernel α) (c : Current) (m : Module α) (cmd syscall pid : ℤ) : ℤ × Module α :=
  if syscall < 0 ∨ syscall > K.nrSyscalls ∨ syscall = myCustomSyscall then (-einval, m)
  else if cmd = requestSyscallIntercept then requestIntercept K c m syscall.toNat
  else if cmd = requestSyscallRelease then requestRelease c m syscall.toNat
  else if cmd = requestStartMonitoring then startMonitoring c m syscall.toNat pid
  else if cmd = requestStopMonitoring then stopMonitoring c m syscall.toNat pid
  else (-einval, m)

/-! ## Loading and unloading the module -/

/-- The entry that the loop of `init_function` leaves, which is also the
content of the static table before it. -/
def freshEntry (K : Kernel α) : MyTable α := ⟨K.null, false, .notMonitored, 0, []⟩

/-- Both saved handlers are read from the slot of the custom system call. -/
def initFunction (K : Kernel α) (sysCallTable : ℕ → α) : Module α :=
  let m : Module α := ⟨sysCallTable, fun _ => freshEntry K, sysCallTable myCustomSyscall,
    sysCallTable myCustomSyscall⟩
  (m.setHandler myCustomSyscall K.mySyscall).setHandler K.nrExitGroup K.myExitGroup

/-- Each round of the loop over `i = 1 .. NR_syscalls` works on its own slot. -/
def exitFunction (K : Kernel α) (m : Module α) : Module α :=
  let m := (m.setHandler myCustomSyscall m.origCustomSyscall).setHandler K.nrExitGroup
    m.origExitGroup
  { m with
    sysCallTable := fun i =>
      if 1 ≤ i ∧ i ≤ K.nrSyscalls ∧ (m.table i).intercepted = true then (m.table i).f
      else m.sysCallTable i
    table := fun i => if 1 ≤ i ∧ i ≤ K.nrSyscalls then (m.table i).destroy else m.table i }

/-! ## Runs -/

/-- What happens to the module while it is loaded.  The exit of a process is
the part of `my_exit_group` before the call of `orig_exit_group`. -/
inductive Event
  | command (c : Current) (cmd syscall pid : ℤ)
  | exit (pid : ℤ)

def step (K : Kernel α) (m : Module α) : Event → Module α
  | .command c cmd syscall pid => (mySyscall K c m cmd syscall pid).2
  | .exit pid => (delPid K m pid).2

def run (K : Kernel α) (m : Module α) (events : List Event) : Module α := events.foldl (step K) m

end KernelProgramming.Interceptor
