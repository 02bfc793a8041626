import KernelProgramming.Interceptor.Sections

/-!
# The entry that a call works on

A section of a command reads and changes one slot and one entry of the table.
The exit of a process leaves alone the entries whose list does not have its pid.
-/

namespace KernelProgramming.Interceptor

variable {α : Type} {K : Kernel α}

/-- The syscall whose slot and entry the call works on. -/
def Event.entry : Event → Option ℕ
  | .command _ _ syscall _ => some syscall.toNat
  | .exit _ => none

/-- The two states differ in other slots and entries than those of `t` only. -/
structure Module.SameAt (m m' : Module α) (t : ℕ) : Prop where
  table : m.table t = m'.table t
  slot : m.sysCallTable t = m'.sysCallTable t
  customSyscall : m.origCustomSyscall = m'.origCustomSyscall
  exitGroup : m.origExitGroup = m'.origExitGroup

namespace Module.SameAt

variable {m m' m'' : Module α} {s t : ℕ}

theorem refl (m : Module α) (t : ℕ) : m.SameAt m t := ⟨rfl, rfl, rfl, rfl⟩

theorem symm (h : m.SameAt m' t) : m'.SameAt m t :=
  ⟨h.table.symm, h.slot.symm, h.customSyscall.symm, h.exitGroup.symm⟩

theorem trans (h : m.SameAt m' t) (h' : m'.SameAt m'' t) : m.SameAt m'' t :=
  ⟨h.table.trans h'.table, h.slot.trans h'.slot, h.customSyscall.trans h'.customSyscall,
    h.exitGroup.trans h'.exitGroup⟩

/-- States that agree on all slots and entries are the same. -/
theorem module_eq (h : ∀ t, m.SameAt m' t) : m = m' := by
  obtain ⟨slots, table, custom, exitGroup⟩ := m
  obtain ⟨slots', table', custom', exitGroup'⟩ := m'
  obtain rfl : slots = slots' := funext fun t => (h t).slot
  obtain rfl : table = table' := funext fun t => (h t).table
  obtain rfl : custom = custom' := (h 0).customSyscall
  obtain rfl : exitGroup = exitGroup' := (h 0).exitGroup
  rfl

theorem setEntry (h : m.SameAt m' s) (g : MyTable α → MyTable α) :
    (m.setEntry s g).SameAt (m'.setEntry s g) s :=
  ⟨by simp [Module.setEntry, h.table], h.slot, h.customSyscall, h.exitGroup⟩

theorem setHandler (h : m.SameAt m' s) (handler : α) :
    (m.setHandler s handler).SameAt (m'.setHandler s handler) s :=
  ⟨h.table, by simp [Module.setHandler], h.customSyscall, h.exitGroup⟩

theorem of_setEntry (h : m.SameAt m' t) (hts : t ≠ s) (g : MyTable α → MyTable α) :
    (m.setEntry s g).SameAt m' t :=
  ⟨by simp [Module.setEntry, hts, h.table], h.slot, h.customSyscall, h.exitGroup⟩

theorem of_setHandler (h : m.SameAt m' t) (hts : t ≠ s) (handler : α) :
    (m.setHandler s handler).SameAt m' t :=
  ⟨h.table, by simp [Module.setHandler, hts, h.slot], h.customSyscall, h.exitGroup⟩

end Module.SameAt

/-! ## Sections of commands -/

theorem sameAt_listPid (c : Current) (m : Module α) (pid : ℤ) {s t : ℕ} (hts : t ≠ s) :
    (listPid c m pid s id).2.SameAt m t := by
  cases hmem : c.memory with
  | false => simpa [listPid, addPidSysc, hmem, enomem] using Module.SameAt.refl m t
  | true =>
      simpa [listPid, addPidSysc, hmem] using
        ((Module.SameAt.refl m t).of_setEntry hts _).of_setEntry hts _

theorem sameAt_unlistPid (m : Module α) (pid : ℤ) {s t : ℕ} (hts : t ≠ s) :
    (unlistPid m pid s).2.SameAt m t := by
  have hdel : (delPidSysc m pid s).2.SameAt m t := by
    unfold delPidSysc
    split_ifs
    · exact (Module.SameAt.refl m t).of_setEntry hts fun e => e.unlink pid
    · exact Module.SameAt.refl m t
  exact hdel.of_setEntry hts fun e => e.addCount (-1)

theorem Module.SameAt.listPid {m m' : Module α} {s : ℕ} (h : m.SameAt m' s) (c : Current)
    (pid : ℤ) :
    (Interceptor.listPid c m pid s id).1 = (Interceptor.listPid c m' pid s id).1 ∧
      (Interceptor.listPid c m pid s id).2.SameAt (Interceptor.listPid c m' pid s id).2 s := by
  cases hmem : c.memory with
  | false => simpa [Interceptor.listPid, addPidSysc, hmem, enomem] using h
  | true =>
      simpa [Interceptor.listPid, addPidSysc, hmem] using (h.setEntry _).setEntry _

theorem Module.SameAt.unlistPid {m m' : Module α} {s : ℕ} (h : m.SameAt m' s) (pid : ℤ) :
    (Interceptor.unlistPid m pid s).2.SameAt (Interceptor.unlistPid m' pid s).2 s := by
  have hdel : (delPidSysc m pid s).2.SameAt (delPidSysc m' pid s).2 s := by
    simp only [delPidSysc, h.table]
    split_ifs
    · exact h.setEntry fun e => e.unlink pid
    · exact h
  exact hdel.setEntry fun e => e.addCount (-1)

/-- A section changes nothing but its slot and its entry. -/
theorem sameAt_advance {e : Event} {s t : ℕ} (hentry : e.entry = some s) (hts : t ≠ s)
    (m : Module α) (pc : Pc) : (e.advance K (m, pc)).1.SameAt m t := by
  have hrefl := Module.SameAt.refl m t
  cases e with
  | exit pid => simp [Event.entry] at hentry
  | command c cmd syscall pid =>
      obtain rfl : syscall.toNat = s := Option.some.inj hentry
      cases pc <;> simp only [Event.advance, commandSection, destroyList]
      case hook => exact (hrefl.of_setEntry hts _).of_setHandler hts _
      case setFlag => exact hrefl.of_setEntry hts _
      case restore => exact (hrefl.of_setHandler hts _).of_setEntry hts _
      case clear => exact (hrefl.of_setEntry hts _).of_setEntry hts _
      case destroy => exact hrefl.of_setEntry hts _
      case finish => exact hrefl.of_setEntry hts _
      case act monitored =>
          split_ifs
          · cases monitored <;> simp only [startSection] <;> split_ifs <;>
              first
              | exact hrefl
              | exact sameAt_unlistPid m pid hts
              | exact sameAt_listPid c m pid hts
          · cases monitored <;> simp only [stopSection] <;> (try split_ifs) <;>
              first
              | exact hrefl
              | exact sameAt_unlistPid m pid hts
              | exact sameAt_listPid c m pid hts
      all_goals exact hrefl

/-- A section does the same in states that agree on its slot and its entry. -/
theorem Module.SameAt.advance {e : Event} {m m' : Module α} {s : ℕ} (h : m.SameAt m' s)
    (hentry : e.entry = some s) (pc : Pc) :
    (e.advance K (m, pc)).2 = (e.advance K (m', pc)).2 ∧
      (e.advance K (m, pc)).1.SameAt (e.advance K (m', pc)).1 s := by
  cases e with
  | exit pid => simp [Event.entry] at hentry
  | command c cmd syscall pid =>
      obtain rfl : syscall.toNat = s := Option.some.inj hentry
      have hlist := h.listPid c pid
      have hunlist := h.unlistPid pid
      cases pc <;>
        simp only [Event.advance, commandSection, destroyList, h.table, h.slot, true_and]
      case hook => exact (h.setEntry _).setHandler _
      case setFlag => exact h.setEntry _
      case restore => exact (h.setHandler _).setEntry _
      case clear => exact (h.setEntry _).setEntry _
      case destroy => exact h.setEntry _
      case finish => exact h.setEntry _
      case act monitored =>
          split_ifs
          · cases monitored <;> simp only [startSection, h.table, hlist.1] <;> split_ifs <;>
              first
              | exact ⟨rfl, h⟩
              | exact ⟨rfl, hunlist⟩
              | exact ⟨rfl, hlist.2⟩
          · cases monitored <;> simp only [stopSection, h.table, hlist.1, true_and] <;>
              (try split_ifs) <;> first
              | exact h
              | exact ⟨rfl, h⟩
              | exact ⟨rfl, hunlist⟩
              | exact ⟨rfl, hlist.2⟩
      all_goals exact h

theorem sameAt_iterate {e : Event} {s t : ℕ} (hentry : e.entry = some s) (hts : t ≠ s)
    (m : Module α) (pc : Pc) (n : ℕ) : ((e.advance K)^[n] (m, pc)).1.SameAt m t := by
  induction n with
  | zero => exact Module.SameAt.refl m t
  | succ n ih =>
      rw [Function.iterate_succ_apply']
      exact (sameAt_advance hentry hts _ _).trans ih

theorem Module.SameAt.iterate {e : Event} {m m' : Module α} {s : ℕ} (h : m.SameAt m' s)
    (hentry : e.entry = some s) (pc : Pc) (n : ℕ) :
    ((e.advance K)^[n] (m, pc)).2 = ((e.advance K)^[n] (m', pc)).2 ∧
      ((e.advance K)^[n] (m, pc)).1.SameAt ((e.advance K)^[n] (m', pc)).1 s := by
  induction n with
  | zero => exact ⟨rfl, h⟩
  | succ n ih =>
      simp only [Function.iterate_succ_apply']
      generalize (e.advance K)^[n] (m, pc) = x at ih
      generalize (e.advance K)^[n] (m', pc) = y at ih
      obtain ⟨mx, pcx⟩ := x
      obtain ⟨my, pcy⟩ := y
      obtain ⟨hpc, hm⟩ := ih
      obtain rfl : pcx = pcy := hpc
      exact hm.advance hentry pcx

/-! ## Exits of processes -/

theorem delPid_table (K : Kernel α) (m : Module α) (pid : ℤ) (t : ℕ) :
    (delPid K m pid).2.table t = m.table t ∨
      (delPid K m pid).2.table t = (m.table t).purge pid := by
  simp only [delPid]
  split_ifs
  · exact Or.inr rfl
  · exact Or.inl rfl

theorem Module.SameAt.delPid {m m' : Module α} {t : ℕ} (h : m.SameAt m' t) (K : Kernel α)
    (pid : ℤ) : (Interceptor.delPid K m pid).2.SameAt (Interceptor.delPid K m' pid).2 t :=
  ⟨by simp only [Interceptor.delPid, h.table], h.slot, h.customSyscall, h.exitGroup⟩

theorem MyTable.purge_of_not_mem {e : MyTable α} {pid : ℤ} (hpid : pid ∉ e.myList) :
    e.purge pid = e := by
  have hfold : ∀ (nodes : List ℤ), pid ∉ nodes →
      nodes.foldl (fun e node => if node = pid then e.unlink pid else e) e = e := by
    intro nodes
    induction nodes with
    | nil => exact fun _ => rfl
    | cons node nodes ih =>
        intro hnot
        obtain ⟨hne, hrest⟩ := List.ne_and_not_mem_of_not_mem_cons hnot
        rw [List.foldl_cons, if_neg (Ne.symm hne), ih hrest]
  exact hfold e.myList hpid

/-- An exit does nothing to the entries that do not have the pid on their list. -/
theorem sameAt_delPid (K : Kernel α) {m : Module α} {pid : ℤ} {t : ℕ}
    (hpid : pid ∉ (m.table t).myList) : (delPid K m pid).2.SameAt m t := by
  refine ⟨?_, rfl, rfl, rfl⟩
  rcases delPid_table K m pid t with htable | htable
  · exact htable
  · rw [htable, MyTable.purge_of_not_mem hpid]

theorem intercepted_delPid (K : Kernel α) (m : Module α) (pid : ℤ) (t : ℕ) :
    ((delPid K m pid).2.table t).intercepted = (m.table t).intercepted :=
  congrArg (fun h : Hooks α => h.intercepted t) (hooks_delPid K m pid)

/-- The exit of a monitored process never puts an entry into the mode in which
all processes are monitored. -/
theorem MyTable.purge_allPids {e : MyTable α} {pid : ℤ}
    (h : (e.purge pid).monitored = .allPids) : e.monitored = .allPids := by
  have hfold : ∀ (nodes : List ℤ) (e : MyTable α),
      (nodes.foldl (fun e node => if node = pid then e.unlink pid else e) e).monitored =
        .allPids → e.monitored = .allPids := by
    intro nodes
    induction nodes with
    | nil => exact fun _ => id
    | cons node nodes ih =>
        intro e hall
        have hstep : (if node = pid then e.unlink pid else e).monitored = .allPids := ih _ hall
        by_cases hnode : node = pid
        · rw [if_pos hnode, MyTable.unlink] at hstep
          by_cases hlast : e.listcount - 1 = 0 ∧ e.monitored = .somePids
          · exact absurd (hstep.symm.trans (if_pos hlast)) (by decide)
          · exact (if_neg hlast).symm.trans hstep
        · rwa [if_neg hnode] at hstep
  exact hfold e.myList e h

/-- A list that is thrown away need not be searched before. -/
theorem destroyList_delPid (K : Kernel α) (m : Module α) (pid : ℤ) (s : ℕ) :
    (destroyList (delPid K m pid).2 s).SameAt (destroyList m s) s := by
  have hdestroy : ((delPid K m pid).2.table s).destroy = (m.table s).destroy := by
    rcases delPid_table K m pid s with htable | htable
    · rw [htable]
    · obtain ⟨hf, hint⟩ := keepsHooks_purge pid (m.table s)
      rw [htable, MyTable.destroy, MyTable.destroy, hf, hint]
  exact ⟨by simp [destroyList, Module.setEntry, hdestroy], rfl, rfl, rfl⟩

end KernelProgramming.Interceptor
