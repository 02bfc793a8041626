import KernelProgramming.Interceptor.Monitoring

/-!
# The counter of the lists

`add_pid_sysc` counts the pid that it lists, and its callers count it again, so
the bookkeeping is right exactly as long as no pid has ever been listed.
-/

namespace KernelProgramming.Interceptor

variable {α : Type} {K : Kernel α}

/-- The counter, the flag and the list of an entry agree. -/
structure MyTable.Bookkept (e : MyTable α) : Prop where
  count : e.listcount.toInt = e.myList.length
  some_ne_nil : e.monitored = .somePids → e.myList ≠ []
  not_nil : e.monitored = .notMonitored → e.myList = []

/-- The bookkeeping of all entries is right, and a request by root to stop all
monitoring is refused where there is none. -/
structure Module.Bookkept (K : Kernel α) (m : Module α) : Prop where
  entry : ∀ s, 1 ≤ s → s ≤ K.nrSyscalls → (m.table s).Bookkept
  stop : ∀ s, 1 ≤ s → s ≤ K.nrSyscalls → m.watched s = ∅ → ∀ c : Current, c.uid = 0 →
    (mySyscall K c m requestStopMonitoring s 0).1 = -einval

/-- The event is a command that puts a pid on the list of an entry. -/
def Event.Lists (K : Kernel α) (m : Module α) : Event → Prop
  | .exit _ => False
  | .command c cmd syscall pid =>
      ∃ s : ℕ, syscall = s ∧ 1 ≤ s ∧ s ≤ K.nrSyscalls ∧ (m.table s).intercepted = true ∧ 0 < pid ∧
        c.Permits pid ∧ c.memory = true ∧
        (cmd = requestStartMonitoring ∧ ((m.table s).monitored = .notMonitored ∨
            (m.table s).monitored = .somePids ∧ pid ∉ (m.table s).myList) ∨
          cmd = requestStopMonitoring ∧ (m.table s).monitored = .allPids ∧
            pid ∉ (m.table s).myList)

/-- An entry on whose list no pid has been since it was last emptied. -/
structure MyTable.Unlisted (e : MyTable α) : Prop where
  nil : e.myList = []
  zero : e.listcount = 0
  flag : e.monitored ≠ .somePids

def Module.Unlisted (K : Kernel α) (m : Module α) : Prop :=
  ∀ s, 1 ≤ s → s ≤ K.nrSyscalls → (m.table s).Unlisted

theorem MyTable.unlisted_destroy (e : MyTable α) : e.destroy.Unlisted := ⟨rfl, rfl, nofun⟩

theorem MyTable.Unlisted.bookkept {e : MyTable α} (h : e.Unlisted) : e.Bookkept where
  count := by
    rw [h.nil, h.zero]
    rfl
  some_ne_nil hm := absurd hm h.flag
  not_nil _ := h.nil

theorem Module.Unlisted.bookkept {m : Module α} (h : m.Unlisted K) : m.Bookkept K where
  entry s hs hs' := (h s hs hs').bookkept
  stop s hs hs' hempty c hc := by
    have hent := h s hs hs'
    have hnot : (m.table s).monitored = .notMonitored := by
      cases hm : (m.table s).monitored with
      | notMonitored => rfl
      | somePids => exact absurd hm hent.flag
      | allPids =>
          have hin : (7 : ℤ) ∈ m.watched s := by
            simp [Module.watched, MyTable.watched, MyTable.logged, hm, MyTable.checkPidMonitored,
              hent.nil]
          rw [hempty] at hin
          exact absurd hin (Set.notMem_empty _)
    rw [mySyscall_stop K c m 0 ⟨hs, hs'⟩, stopMonitoring]
    simp [hc, hnot]

theorem Module.Unlisted.setEntry {m : Module α} (h : m.Unlisted K) {s : ℕ}
    {g : MyTable α → MyTable α} (hg : (m.table s).Unlisted → (g (m.table s)).Unlisted) :
    (m.setEntry s g).Unlisted K := by
  intro t ht ht'
  by_cases hts : t = s
  · subst hts
    simpa [Module.setEntry] using hg (h t ht ht')
  · simpa [Module.setEntry, hts] using h t ht ht'

theorem Module.Unlisted.setHandler {m : Module α} (h : m.Unlisted K) (i : ℕ) (handler : α) :
    (m.setHandler i handler).Unlisted K := h

/-! ## Listing a pid spoils the counter -/

/-- The request goes as far as `add_pid_sysc`. -/
theorem lists_counts {m : Module α} {c : Current} {s : ℕ} {cmd pid : ℤ} (hent : (m.table s).Unlisted)
    (hs : 1 ≤ s ∧ s ≤ K.nrSyscalls) (hint : (m.table s).intercepted = true) (hpid : 0 < pid)
    (hperm : c.Permits pid) (hmem : c.memory = true)
    (hcmd : cmd = requestStartMonitoring ∧ (m.table s).monitored = .notMonitored ∨
      cmd = requestStopMonitoring ∧ (m.table s).monitored = .allPids) :
    (((mySyscall K c m cmd s pid).2.table s).listcount = 2) ∧
      ((mySyscall K c m cmd s pid).2.table s).myList = [pid] := by
  obtain ⟨howner, hallowed⟩ := (permits_iff c pid).mp hperm
  have hzero : ¬ pid = 0 := by omega
  have hexists : ¬ (pid < 0 ∨ c.owner pid = none) := by
    rintro (hneg | hnone)
    · omega
    · exact howner hnone
  have htwo : (0 : BitVec 32) + 1 + 1 = 2 := by decide
  rcases hcmd with ⟨rfl, hm⟩ | ⟨rfl, hm⟩
  · rw [mySyscall_start K c m pid hs]
    simp [startMonitoring, hint, hzero, hexists, hallowed, hm, listPid, addPidSysc, hmem,
      Module.setEntry, MyTable.addPid, MyTable.addCount, MyTable.setMonitored, hent.nil, hent.zero]
  · rw [mySyscall_stop K c m pid hs]
    simp [stopMonitoring, hint, hzero, hexists, hallowed, hm, listPid, addPidSysc, hmem,
      Module.setEntry, MyTable.addPid, MyTable.addCount, MyTable.checkPidMonitored, hent.nil,
      hent.zero]

theorem Module.Unlisted.not_bookkept {m : Module α} (h : m.Unlisted K) {e : Event}
    (hlists : e.Lists K m) : ¬ (step K m e).Bookkept K := by
  cases e with
  | exit pid => exact hlists.elim
  | command c cmd syscall pid =>
      obtain ⟨s, rfl, hs, hs', hint, hpid, hperm, hmem, hcmd⟩ := hlists
      have hent := h s hs hs'
      have hcmd' : cmd = requestStartMonitoring ∧ (m.table s).monitored = .notMonitored ∨
          cmd = requestStopMonitoring ∧ (m.table s).monitored = .allPids := by
        rcases hcmd with ⟨hc, hm | ⟨hm, -⟩⟩ | ⟨hc, hm, -⟩
        · exact Or.inl ⟨hc, hm⟩
        · exact absurd hm hent.flag
        · exact Or.inr ⟨hc, hm⟩
      obtain ⟨hcount, hlist⟩ := lists_counts hent ⟨hs, hs'⟩ hint hpid hperm hmem hcmd'
      intro hbook
      have hwrong := (hbook.entry s hs hs').count
      simp only [step] at hwrong
      rw [hcount, hlist, List.length_singleton] at hwrong
      exact absurd hwrong (by decide)

/-! ## All other events keep the lists empty -/

theorem MyTable.Unlisted.setMonitored {e : MyTable α} (h : e.Unlisted) {monitored : Monitored}
    (hm : monitored ≠ .somePids) : (e.setMonitored monitored).Unlisted := ⟨h.nil, h.zero, hm⟩

theorem MyTable.Unlisted.setIntercepted {e : MyTable α} (h : e.Unlisted) (intercepted : Bool) :
    ({ e with intercepted := intercepted } : MyTable α).Unlisted := ⟨h.nil, h.zero, h.flag⟩

theorem MyTable.Unlisted.save {e : MyTable α} (h : e.Unlisted) (f : α) :
    ({ e with f := f } : MyTable α).Unlisted := ⟨h.nil, h.zero, h.flag⟩

theorem Module.Unlisted.startMonitoring {m : Module α} (h : m.Unlisted K) {c : Current} {s : ℕ}
    {pid : ℤ} (hs : 1 ≤ s ∧ s ≤ K.nrSyscalls)
    (hlists : ¬ (Event.command c requestStartMonitoring s pid).Lists K m) :
    (startMonitoring c m s pid).2.Unlisted K := by
  have hent := h s hs.1 hs.2
  unfold Interceptor.startMonitoring
  by_cases hint : (m.table s).intercepted = false
  · rwa [if_pos hint]
  rw [if_neg hint]
  by_cases hzero : pid = 0
  · rw [if_pos hzero]
    split_ifs
    · exact h
    · exact h
    · exact (h.setEntry fun _ => MyTable.unlisted_destroy _).setEntry
        (g := fun e => e.setMonitored .allPids) fun hd => hd.setMonitored (by decide)
  rw [if_neg hzero]
  by_cases hexists : pid < 0 ∨ c.owner pid = none
  · rwa [if_pos hexists]
  rw [if_neg hexists]
  by_cases hperm : c.uid ≠ 0 ∧ checkPidFromList c pid c.pid ≠ 0
  · rwa [if_pos hperm]
  rw [if_neg hperm]
  have hpid : 0 < pid := by omega
  have hpermits : c.Permits pid :=
    (permits_iff c pid).mpr ⟨fun hnone => hexists (Or.inr hnone), hperm⟩
  cases hm : (m.table s).monitored with
  | allPids => simpa [MyTable.checkPidMonitored, hent.nil] using h
  | somePids => exact absurd hm hent.flag
  | notMonitored =>
      have hmem : c.memory = false := by
        by_contra hmem
        exact hlists ⟨s, rfl, hs.1, hs.2, by simpa using hint, hpid, hpermits, by simpa using hmem,
          Or.inl ⟨rfl, Or.inl hm⟩⟩
      simpa [listPid, addPidSysc, hmem, enomem] using h

theorem Module.Unlisted.stopMonitoring {m : Module α} (h : m.Unlisted K) {c : Current} {s : ℕ}
    {pid : ℤ} (hs : 1 ≤ s ∧ s ≤ K.nrSyscalls)
    (hlists : ¬ (Event.command c requestStopMonitoring s pid).Lists K m) :
    (stopMonitoring c m s pid).2.Unlisted K := by
  have hent := h s hs.1 hs.2
  unfold Interceptor.stopMonitoring
  by_cases hint : (m.table s).intercepted = false
  · rwa [if_pos hint]
  rw [if_neg hint]
  by_cases hzero : pid = 0
  · rw [if_pos hzero]
    split_ifs
    · exact h
    · exact h
    · exact h.setEntry fun _ => MyTable.unlisted_destroy _
  rw [if_neg hzero]
  by_cases hexists : pid < 0 ∨ c.owner pid = none
  · rwa [if_pos hexists]
  rw [if_neg hexists]
  by_cases hperm : c.uid ≠ 0 ∧ checkPidFromList c pid c.pid ≠ 0
  · rwa [if_pos hperm]
  rw [if_neg hperm]
  have hpid : 0 < pid := by omega
  have hpermits : c.Permits pid :=
    (permits_iff c pid).mpr ⟨fun hnone => hexists (Or.inr hnone), hperm⟩
  cases hm : (m.table s).monitored with
  | notMonitored => exact h
  | somePids => exact absurd hm hent.flag
  | allPids =>
      have hmem : c.memory = false := by
        by_contra hmem
        exact hlists ⟨s, rfl, hs.1, hs.2, by simpa using hint, hpid, hpermits, by simpa using hmem,
          Or.inr ⟨rfl, hm, by simp [hent.nil]⟩⟩
      simpa [listPid, addPidSysc, hmem, enomem, MyTable.checkPidMonitored, hent.nil] using h

theorem Module.Unlisted.step {m : Module α} (h : m.Unlisted K) {e : Event}
    (hlists : ¬ e.Lists K m) : (step K m e).Unlisted K := by
  cases e with
  | exit pid =>
      intro s hs hs'
      have hent := h s hs hs'
      simp only [Interceptor.step, delPid]
      split
      · rw [MyTable.purge, hent.nil]
        exact hent
      · exact hent
  | command c cmd syscall pid =>
      by_cases hrange : syscall < 0 ∨ syscall > K.nrSyscalls ∨ syscall = myCustomSyscall
      · simpa [Interceptor.step, mySyscall, hrange] using h
      obtain ⟨s, rfl, hs⟩ : ∃ s : ℕ, syscall = s ∧ 1 ≤ s ∧ s ≤ K.nrSyscalls :=
        ⟨syscall.toNat, by simp only [myCustomSyscall] at hrange; omega⟩
      simp only [Interceptor.step]
      rw [mySyscall_of_le K c m cmd pid hs]
      split_ifs with hint hrel hstart hstop
      · unfold requestIntercept
        split_ifs
        · exact h
        · exact h
        · exact ((h.setEntry (g := fun e => { e with f := m.sysCallTable s })
            fun hd => hd.save _).setHandler s _).setEntry
            (g := fun e => { e with intercepted := true }) fun hd => hd.setIntercepted true
      · unfold requestRelease
        split_ifs
        · exact h
        · exact h
        · exact (((h.setHandler s _).setEntry (g := fun e => e.setMonitored .notMonitored)
            fun hd => hd.setMonitored (by decide)).setEntry
            fun _ => MyTable.unlisted_destroy _).setEntry
            (g := fun e => { e with intercepted := false }) fun hd => hd.setIntercepted false
      · exact h.startMonitoring hs (hstart ▸ hlists)
      · exact h.stopMonitoring hs (hstop ▸ hlists)
      · exact h

/-! ## Runs -/

theorem unlisted_init (K : Kernel α) (initial : ℕ → α) : (initFunction K initial).Unlisted K :=
  fun _ _ _ => ⟨rfl, rfl, nofun⟩

/-- The bookkeeping is right in every state of a run exactly if no command of
the run puts a pid on a list. -/
theorem bookkeeping_iff (K : Kernel α) (initial : ℕ → α) (events : List Event) :
    (∀ past rest, events = past ++ rest → (run K (initFunction K initial) past).Bookkept K) ↔
      ∀ past e rest, events = past ++ e :: rest →
        ¬ e.Lists K (run K (initFunction K initial) past) := by
  have hunlisted : ∀ past : List Event, (∀ before e after, past = before ++ e :: after →
      ¬ e.Lists K (run K (initFunction K initial) before)) →
      (run K (initFunction K initial) past).Unlisted K := by
    intro past
    induction past using List.reverseRecOn with
    | nil => exact fun _ => unlisted_init K initial
    | append_singleton past e ih =>
        intro hnone
        rw [run_concat]
        refine (ih fun before e' after hsplit => ?_).step (hnone past e [] rfl)
        exact hnone before e' (after ++ [e]) (by simp [hsplit])
  constructor
  · intro hbook past
    induction hn : past.length using Nat.strong_induction_on generalizing past with
    | _ n ih =>
        intro e rest hsplit hlists
        have hquiet := hunlisted past fun before e' after hpast =>
          ih before.length (by rw [← hn, hpast]; simp) before rfl e' (after ++ e :: rest)
            (by simp [hsplit, hpast])
        have hafter := hbook (past ++ [e]) rest (by simp [hsplit])
        rw [run_concat] at hafter
        exact hquiet.not_bookkept hlists hafter
  · intro hnone past rest hsplit
    refine (hunlisted past fun before e after hpast => ?_).bookkept
    exact hnone before e (after ++ rest) (by simp [hsplit, hpast])

/-- One pid is listed and exits: `monitored` stays 1 with an empty list, and
the request to stop all monitoring is granted although no pid is monitored. -/
theorem bookkeeping_broken :
    ¬ ∀ events : List Event,
      (run i386 (initFunction i386 fun i => 1000 + i) events).Bookkept i386 := by
  intro hall
  have hbook := hall [.command root requestSyscallIntercept 5 0,
    .command root requestStartMonitoring 5 7, .exit 7]
  exact absurd rfl ((hbook.entry 5 (by decide) (by decide)).some_ne_nil rfl)

end KernelProgramming.Interceptor
