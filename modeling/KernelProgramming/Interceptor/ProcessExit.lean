import KernelProgramming.Interceptor.Monitoring

/-!
# The exit of a process

`my_exit_group` takes the pid of the process off the lists of the entries
`1 .. NR_syscalls - 1`.  `my_syscall` also accepts the number `NR_syscalls`,
and the list of that entry is left out.
-/

namespace KernelProgramming.Interceptor

variable {α : Type}

/-- The pid is on no list, and every other pid is on the lists on which it was, in the same
order. -/
structure LeavesNoTrace (K : Kernel α) (m m' : Module α) (pid : ℤ) : Prop where
  gone : ∀ s, 1 ≤ s → s ≤ K.nrSyscalls → pid ∉ (m'.table s).myList
  others : ∀ s, ((m'.table s).myList.filter fun q => q ≠ pid) =
    (m.table s).myList.filter fun q => q ≠ pid

/-- Taking off one node after the other takes off all nodes with the pid. -/
theorem foldl_unlink (pid : ℤ) (nodes : List ℤ) (e : MyTable α)
    (hcount : nodes.count pid = e.myList.count pid) :
    (nodes.foldl (fun e node => if node = pid then e.unlink pid else e) e).myList =
      e.myList.filter fun q => q ≠ pid := by
  induction nodes generalizing e with
  | nil =>
      refine (List.filter_eq_self.mpr fun q hq => ?_).symm
      have hnot : pid ∉ e.myList := List.count_eq_zero.mp hcount.symm
      simpa using fun heq : q = pid => hnot (heq ▸ hq)
  | cons node nodes ih =>
      rw [List.foldl_cons]
      by_cases hnode : node = pid
      · subst hnode
        have hunlink : (e.unlink node).myList = e.myList.erase node := rfl
        rw [List.count_cons_self] at hcount
        have hrest : nodes.count node = (e.unlink node).myList.count node := by
          rw [hunlink, List.count_erase_self, ← hcount, Nat.add_sub_cancel]
        rw [if_pos rfl, ih _ hrest, hunlink, ← List.erase_filter]
        exact List.erase_of_not_mem (by simp)
      · rw [if_neg hnode, ih]
        rwa [List.count_cons_of_ne hnode] at hcount

theorem MyTable.purge_myList (e : MyTable α) (pid : ℤ) :
    (e.purge pid).myList = e.myList.filter fun q => q ≠ pid :=
  foldl_unlink pid e.myList e rfl

/-- The lists after the exit of a process. -/
theorem exit_myList (K : Kernel α) (m : Module α) (pid : ℤ) (s : ℕ) :
    ((step K m (.exit pid)).table s).myList = if 1 ≤ s ∧ s < K.nrSyscalls then
      (m.table s).myList.filter fun q => q ≠ pid else (m.table s).myList := by
  simp only [step, delPid]
  split
  · exact MyTable.purge_myList _ pid
  · rfl

theorem leavesNoTrace_iff (K : Kernel α) (m : Module α) (pid : ℤ) :
    LeavesNoTrace K m (step K m (.exit pid)) pid ↔ pid ∉ (m.table K.nrSyscalls).myList := by
  have hlast : ((step K m (.exit pid)).table K.nrSyscalls).myList =
      (m.table K.nrSyscalls).myList := by
    rw [exit_myList, if_neg fun hs => Nat.lt_irrefl _ hs.2]
  constructor
  · intro h
    rw [← hlast]
    exact h.gone K.nrSyscalls (Nat.zero_lt_of_lt K.exitGroup_lt) le_rfl
  · intro hnot
    refine ⟨fun s hs hle => ?_, fun s => ?_⟩
    · rcases Nat.eq_or_lt_of_le hle with rfl | hlt
      · rwa [hlast]
      · rw [exit_myList, if_pos ⟨hs, hlt⟩]
        simp
    · rw [exit_myList]
      split
      · rw [List.filter_filter]
        simp
      · rfl

/-- The exit of a process takes its pid off all lists if and only if it is not on that of the
entry `NR_syscalls`. -/
theorem exit_leavesNoTrace_iff (K : Kernel α) (initial : ℕ → α) (events : List Event) (pid : ℤ) :
    LeavesNoTrace K (run K (initFunction K initial) events)
        (run K (initFunction K initial) (events ++ [.exit pid])) pid ↔
      pid ∉ ((run K (initFunction K initial) events).table K.nrSyscalls).myList := by
  rw [run_concat]
  exact leavesNoTrace_iff K _ pid

/-- Process 7 is monitored for the last syscall number that is accepted, and exits. -/
theorem exit_leavesTrace :
    ¬ ∀ (events : List Event) (pid : ℤ),
      LeavesNoTrace i386 (run i386 (initFunction i386 fun i => 1000 + i) events)
        (run i386 (initFunction i386 fun i => 1000 + i) (events ++ [.exit pid])) pid := by
  intro h
  have hgone := (h [.command root requestSyscallIntercept 337 0,
    .command root requestStartMonitoring 337 7] 7).gone 337 (by decide) le_rfl
  exact hgone (by decide)

end KernelProgramming.Interceptor
