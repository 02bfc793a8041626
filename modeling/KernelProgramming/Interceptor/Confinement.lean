import KernelProgramming.Interceptor.ProcessExit

/-!
# Callers other than root

A command of a caller with another uid than 0 reaches an entry only after the
owners of the pid and of the caller have been compared, and there it changes
the list by that pid.  That no other pid is affected hangs on the counter of
the list, which `del_pid_sysc` takes for the number of its nodes.
-/

namespace KernelProgramming.Interceptor

variable {α : Type} {K : Kernel α}

/-- The command leaves all handlers alone, and the logging of no other pid than `pid`, at no other
syscall than `syscall`, and only if the process is one of the caller's owner. -/
structure Confined (c : Current) (m m' : Module α) (syscall pid : ℤ) : Prop where
  sysCallTable : m'.sysCallTable = m.sysCallTable
  intercepted : ∀ s, (m'.table s).intercepted = (m.table s).intercepted
  handler : ∀ s, (m'.table s).f = (m.table s).f
  logged : ∀ (s : ℕ) (q : ℤ), 0 < q → (m'.table s).logged q ≠ (m.table s).logged q →
    q = pid ∧ syscall = s ∧ c.owner q = c.owner c.pid

theorem Confined.refl (c : Current) (m : Module α) (syscall pid : ℤ) :
    Confined c m m syscall pid :=
  ⟨rfl, fun _ => rfl, fun _ => rfl, fun _ _ _ hne => absurd rfl hne⟩

/-! ## What a command may have passed -/

section Checks

variable {c : Current} {m : Module α} {s : ℕ} {pid : ℤ}

/-- The checks of the two monitoring commands: a command fails, is root's for all pids, or gets to
its part for a single pid. -/
theorem checks_cases {P : ℤ × Module α → Prop} {all single : ℤ × Module α}
    (hfails : ∀ ret, P (ret, m)) (hall : c.uid = 0 → P all)
    (hsingle : (m.table s).intercepted = true → 0 < pid → c.Permits pid → P single) :
    P (if (m.table s).intercepted = false then (-einval, m)
      else if pid = 0 then if c.uid ≠ 0 then (-eperm, m) else all
      else if pid < 0 ∨ c.owner pid = none then (-einval, m)
      else if c.uid ≠ 0 ∧ checkPidFromList c pid c.pid ≠ 0 then (-eperm, m)
      else single) := by
  split_ifs with hint hzero huid hexists hperm
  · exact hfails _
  · exact hfails _
  · exact hall (not_not.mp huid)
  · exact hfails _
  · exact hfails _
  · obtain ⟨hneg, hsome⟩ := not_or.mp hexists
    exact hsingle (Bool.eq_true_of_not_eq_false hint) (by omega)
      ((permits_iff c pid).mpr ⟨hsome, hperm⟩)

/-- A caller other than root changes something only for a process of its own. -/
theorem mySyscall_changes {cmd syscall : ℤ} (huid : c.uid ≠ 0)
    (hne : (mySyscall K c m cmd syscall pid).2 ≠ m) :
    ∃ s : ℕ, syscall = s ∧ 1 ≤ s ∧ s ≤ K.nrSyscalls ∧
      (cmd = requestStartMonitoring ∨ cmd = requestStopMonitoring) ∧ 0 < pid ∧
      c.Permits pid := by
  by_cases hrange : syscall < 0 ∨ syscall > K.nrSyscalls ∨ syscall = myCustomSyscall
  · rw [mySyscall, if_pos hrange] at hne
    exact absurd rfl hne
  obtain ⟨s, rfl, hs⟩ : ∃ s : ℕ, syscall = s ∧ 1 ≤ s ∧ s ≤ K.nrSyscalls :=
    ⟨syscall.toNat, by simp only [myCustomSyscall] at hrange; omega⟩
  refine ⟨s, rfl, hs.1, hs.2, ?_⟩
  revert hne
  rw [mySyscall_of_le K c m cmd pid hs]
  split_ifs with hint hrel hstart hstop
  · rw [requestIntercept, if_pos huid]
    exact fun hne => absurd rfl hne
  · rw [requestRelease, if_pos huid]
    exact fun hne => absurd rfl hne
  · refine checks_cases (P := fun r => r.2 ≠ m → _) ?_ ?_ ?_
    · exact fun _ hne => absurd rfl hne
    · exact fun hroot => absurd hroot huid
    · exact fun _ hpid hperm _ => ⟨Or.inl hstart, hpid, hperm⟩
  · refine checks_cases (P := fun r => r.2 ≠ m → _) ?_ ?_ ?_
    · exact fun _ hne => absurd rfl hne
    · exact fun hroot => absurd hroot huid
    · exact fun _ hpid hperm _ => ⟨Or.inr hstop, hpid, hperm⟩
  · exact fun hne => absurd rfl hne

theorem mySyscall_hooks (K : Kernel α) (m : Module α) (cmd syscall pid : ℤ) (huid : c.uid ≠ 0) :
    (mySyscall K c m cmd syscall pid).2.hooks = m.hooks := by
  unfold mySyscall
  split_ifs
  · rfl
  · rw [requestIntercept, if_pos huid]
  · rw [requestRelease, if_pos huid]
  · exact hooks_startMonitoring c m _ pid
  · exact hooks_stopMonitoring c m _ pid
  · rfl

theorem mySyscall_confined {cmd syscall : ℤ} (huid : c.uid ≠ 0) (h : m.Tidy)
    (hok : ¬ (Event.command c cmd syscall pid).Miscounts K m) :
    Confined c m (mySyscall K c m cmd syscall pid).2 syscall pid := by
  by_cases hsame : (mySyscall K c m cmd syscall pid).2 = m
  · rw [hsame]
    exact .refl c m syscall pid
  obtain ⟨s, rfl, hs, hle, hcmd, hpid, hperm⟩ := mySyscall_changes huid hsame
  have hhooks := mySyscall_hooks K m cmd s pid huid
  obtain ⟨hrefines, -⟩ := mySyscall_refines K c m cmd pid ⟨hs, hle⟩ h
    fun hstop hint _ _ => not_not.mp fun hcount =>
      hok ⟨hstop, s, rfl, hs, hle, hint, hpid, hperm, hcount⟩
  refine ⟨congrArg Hooks.sysCallTable hhooks, congrFun (congrArg Hooks.intercepted hhooks),
    congrFun (congrArg Hooks.f hhooks), fun t q _ hne => ?_⟩
  rcases eq_or_ne t s with rfl | hts
  · rcases eq_or_ne q pid with rfl | hq
    · exact ⟨rfl, rfl, hperm.2.resolve_left huid⟩
    · exact absurd (Bool.eq_iff_iff.mpr (hrefines.others hcmd hpid q hq)) hne
  · have hframe := Set.ext_iff.mp (hrefines.frame t hts) q
    exact absurd (Bool.eq_iff_iff.mpr hframe) hne

/-! ## The pids on the lists -/

def MyTable.Positive (e : MyTable α) : Prop := ∀ q ∈ e.myList, 0 < q

/-- Only pids of processes are on the lists. -/
def Module.Positive (m : Module α) : Prop := ∀ s, (m.table s).Positive

theorem Module.Positive.setEntry (h : m.Positive) {g : MyTable α → MyTable α}
    (hg : ∀ e : MyTable α, e.Positive → (g e).Positive) : (m.setEntry s g).Positive := by
  intro t
  rcases eq_or_ne t s with rfl | hts
  · simpa [Module.setEntry] using hg _ (h t)
  · simpa [Module.setEntry, hts] using h t

theorem Module.Positive.setHandler (h : m.Positive) (i : ℕ) (handler : α) :
    (m.setHandler i handler).Positive := h

theorem MyTable.Positive.congr {e e' : MyTable α} (h : e.Positive) (heq : e'.myList = e.myList) :
    e'.Positive := by
  intro q hq
  rw [heq] at hq
  exact h q hq

theorem MyTable.Positive.addPid {e : MyTable α} (h : e.Positive) (hpid : 0 < pid) :
    (e.addPid pid).Positive := by
  intro q hq
  rcases List.mem_cons.mp hq with rfl | hq
  · exact hpid
  · exact h q hq

theorem MyTable.Positive.unlink {e : MyTable α} (h : e.Positive) : (e.unlink pid).Positive :=
  fun q hq => h q (List.mem_of_mem_erase hq)

theorem MyTable.Positive.addCount {e : MyTable α} (h : e.Positive) (n : BitVec 32) :
    (e.addCount n).Positive := h

theorem MyTable.positive_destroy (e : MyTable α) : e.destroy.Positive :=
  fun _ hq => absurd hq List.not_mem_nil

theorem Module.Positive.listPid (h : m.Positive) (hpid : 0 < pid)
    {finish : MyTable α → MyTable α} (hfinish : ∀ e, (finish e).myList = e.myList) :
    (listPid c m pid s finish).2.Positive := by
  unfold Interceptor.listPid addPidSysc
  cases hmem : c.memory with
  | false => exact h
  | true =>
      change ((m.setEntry s fun e => e.addPid pid).setEntry s fun e =>
        finish (e.addCount 1)).Positive
      apply Module.Positive.setEntry
      · apply h.setEntry
        exact fun _ he => he.addPid hpid
      · exact fun e he => he.congr (hfinish (e.addCount 1))

theorem Module.Positive.unlistPid (h : m.Positive) : (unlistPid m pid s).2.Positive := by
  have hdel : (delPidSysc m pid s).2.Positive := by
    unfold delPidSysc
    split_ifs
    · exact h.setEntry fun e he => he.unlink
    · exact h
  change ((delPidSysc m pid s).2.setEntry s fun e => e.addCount (-1)).Positive
  apply hdel.setEntry
  exact fun _ he => he.addCount (-1)

theorem Module.Positive.destroyList (h : m.Positive) : (destroyList m s).Positive :=
  h.setEntry fun e _ => e.positive_destroy

theorem Module.Positive.startMonitoring (h : m.Positive) :
    (startMonitoring c m s pid).2.Positive := by
  refine checks_cases (P := fun r => r.2.Positive) (fun _ => h) (fun _ => ?_) fun _ hpid _ => ?_
  · split_ifs
    · exact h
    · dsimp only
      apply h.destroyList.setEntry
      exact fun _ he => he.congr rfl
  · cases (m.table s).monitored with
    | allPids =>
        simp only
        split_ifs
        · exact h
        · exact h.unlistPid
    | somePids =>
        simp only
        split_ifs
        · exact h
        · exact h.listPid hpid fun _ => rfl
    | notMonitored => exact h.listPid hpid fun _ => rfl

theorem Module.Positive.stopMonitoring (h : m.Positive) :
    (stopMonitoring c m s pid).2.Positive := by
  refine checks_cases (P := fun r => r.2.Positive) (fun _ => h) (fun _ => ?_) fun _ hpid _ => ?_
  · split_ifs
    · exact h
    · exact h.destroyList
  · cases (m.table s).monitored with
    | notMonitored => exact h
    | somePids =>
        simp only
        split_ifs
        · exact h
        · exact h.unlistPid
    | allPids =>
        simp only
        split_ifs
        · exact h
        · exact h.listPid hpid fun _ => rfl

theorem Module.Positive.step (h : m.Positive) (e : Event) : (step K m e).Positive := by
  cases e with
  | command c cmd syscall pid =>
      simp only [Interceptor.step, mySyscall]
      split_ifs
      · exact h
      · unfold requestIntercept
        split_ifs
        · exact h
        · exact h
        · dsimp only
          apply Module.Positive.setEntry
          · apply Module.Positive.setHandler
            apply h.setEntry
            exact fun _ he => he.congr rfl
          · exact fun _ he => he.congr rfl
      · unfold requestRelease
        split_ifs
        · exact h
        · exact h
        · dsimp only
          apply Module.Positive.setEntry
          · apply Module.Positive.destroyList
            apply (h.setHandler _ _).setEntry
            exact fun _ he => he.congr rfl
          · exact fun _ he => he.congr rfl
      · exact h.startMonitoring
      · exact h.stopMonitoring
      · exact h
  | exit pid =>
      intro s q hq
      rw [exit_myList] at hq
      split_ifs at hq
      · exact h s q (List.mem_of_mem_filter hq)
      · exact h s q hq

end Checks

/-! ## Runs -/

/-- The invariant of runs without a miscount. -/
structure Module.Orderly (m : Module α) : Prop where
  tidy : m.Tidy
  positive : m.Positive

theorem Module.Orderly.step {m : Module α} (h : m.Orderly) {e : Event} (hok : ¬ e.Miscounts K m) :
    (step K m e).Orderly := by
  exact ⟨step_tidy K h.tidy hok, h.positive.step e⟩

theorem run_orderly (K : Kernel α) (initial : ℕ → α) (events : List Event)
    (hok : ∀ past e rest, events = past ++ e :: rest →
      ¬ e.Miscounts K (run K (initFunction K initial) past)) :
    (run K (initFunction K initial) events).Orderly := by
  induction events using List.reverseRecOn with
  | nil => exact ⟨tidy_init K initial, fun _ _ hq => absurd hq List.not_mem_nil⟩
  | append_singleton events e ih =>
      rw [run_concat]
      refine (ih fun past e' rest hsplit => ?_).step (hok events e [] rfl)
      exact hok past e' (rest ++ [e]) (by simp [hsplit])

/-- The counter ends the monitoring of all pids on the list. -/
theorem Module.Orderly.not_confined {m : Module α} (h : m.Orderly) {c : Current}
    {cmd syscall pid : ℤ} (hmis : (Event.command c cmd syscall pid).Miscounts K m) :
    ¬ Confined c m (mySyscall K c m cmd syscall pid).2 syscall pid := by
  obtain ⟨rfl, s, rfl, hs, hle, hint, hpid, hperm, hcount⟩ := hmis
  simp only [MyTable.CountOk, Classical.not_imp] at hcount
  obtain ⟨hm, hlist, hone, hothers⟩ := hcount
  obtain ⟨q, hq, hne⟩ := (((h.tidy s).nodup.ne_singleton_iff pid).mp hothers).resolve_left
    (List.ne_nil_of_mem hlist)
  have hnone := stop_lastCounted ⟨hs, hle⟩ hint hpid hperm hm hlist hone
  have hafter : q ∉ (mySyscall K c m requestStopMonitoring s pid).2.watched s := by
    rw [hnone]
    exact Set.notMem_empty q
  have hbefore : (m.table s).logged q = true := by
    simp [MyTable.logged, hm, MyTable.checkPidMonitored, hq]
  intro hconfined
  refine hne (hconfined.logged s q (h.positive s q hq) fun hsame => ?_).1
  exact hafter (hsame.trans hbefore)

/-- After a run without a miscount, a command of a caller other than root is confined to the pid
that it names if and only if it does not miscount itself. -/
theorem unprivileged_confined_iff (K : Kernel α) (initial : ℕ → α) (events : List Event)
    (hok : ∀ past e rest, events = past ++ e :: rest →
      ¬ e.Miscounts K (run K (initFunction K initial) past))
    (c : Current) (huid : c.uid ≠ 0) (cmd syscall pid : ℤ) :
    Confined c (run K (initFunction K initial) events)
        (mySyscall K c (run K (initFunction K initial) events) cmd syscall pid).2 syscall pid ↔
      ¬ (Event.command c cmd syscall pid).Miscounts K (run K (initFunction K initial) events) := by
  have h := run_orderly K initial events hok
  constructor
  · intro hconfined hmis
    exact h.not_confined hmis hconfined
  · intro hmis
    exact mySyscall_confined huid h.tidy hmis

/-- The caller is process 7 of user 1; process 8 is that of user 2. -/
def user : Current where
  pid := 7
  uid := 1
  owner pid := some (if pid = 8 then 2 else 1)
  exists_self := rfl
  memory := true

/-- A user ends the monitoring of a process of its own. -/
theorem unprivileged_confined_iff_stop :
    let events := [.command root requestSyscallIntercept 5 0,
      .command root requestStartMonitoring 5 7]
    let m := run i386 (initFunction i386 fun i => 1000 + i) events
    Confined user m (mySyscall i386 user m requestStopMonitoring 5 7).2 5 7 ↔
      ¬ (Event.command user requestStopMonitoring 5 7).Miscounts i386 m := by
  refine unprivileged_confined_iff i386 _ _ (fun past e rest hsplit hmis => ?_) user (by decide) _ _ _
  have he : e ∈ past ++ e :: rest := by simp
  rw [← hsplit, List.mem_pair] at he
  rcases he with rfl | rfl <;> exact absurd hmis.1 (by decide)

/-- After `wrappingRun`, the user's request to stop monitoring its own process 7 ends the
monitoring of process 8. -/
theorem unprivileged_not_confined :
    ¬ ∀ (events : List Event) (c : Current) (cmd syscall pid : ℤ), c.uid ≠ 0 →
      Confined c (run i386 (initFunction i386 fun i => 1000 + i) events)
        (mySyscall i386 c (run i386 (initFunction i386 fun i => 1000 + i) events) cmd syscall
          pid).2 syscall pid := by
  intro hall
  obtain ⟨n, hn⟩ : ∃ n, n + 4 = 2 ^ 32 := ⟨2 ^ 32 - 4, by decide⟩
  obtain ⟨f, hentry⟩ := wrappingRun_entry (fun i => 1000 + i) hn
  have hconfined := hall (wrappingRun n) user requestStopMonitoring (5 : ℕ) 7 (by decide)
  have hpermits : user.Permits 7 := ⟨by decide, Or.inr rfl⟩
  have hnone := stop_lastCounted (K := i386) (s := 5) (by decide) (by rw [hentry]; rfl) (by decide)
    hpermits (by rw [hentry]; rfl) (by rw [hentry]; simp [whitelist]) (by rw [hentry]; rfl)
  refine absurd (hconfined.logged 5 8 (by decide) fun hsame => ?_).1 (by decide)
  rw [hentry] at hsame
  apply Set.notMem_empty (8 : ℤ)
  rw [← hnone]
  exact hsame

end KernelProgramming.Interceptor
