import KernelProgramming.Interceptor.Entries

/-!
# Calls in the middle of their changes

A call changes its entry in one section or in two.  After the first of two
changes its entry is as the call alone leaves it there, whatever other calls
have done to other entries.
-/

namespace KernelProgramming.Interceptor

variable {α : Type} {K : Kernel α}

def Pc.result : Pc → Option ℤ
  | .returned ret => some ret
  | _ => none

/-- The call has made one of its two changes. -/
def Pc.Halfway : Pc → Prop
  | .setFlag | .clear | .finish => True
  | _ => False

instance : DecidablePred Pc.Halfway
  | .setFlag | .clear | .finish => isTrue trivial
  | .start | .hook | .restore | .mode | .destroy | .act _ | .returned _ => isFalse id

/-- The section is the first one of the call that changes something, or it
answers because of what it finds in `monitored`. -/
def Event.Decides (m : Module α) : Event → Pc → Prop
  | _, .returned _ => False
  | .exit _, _ => True
  | .command _ cmd syscall pid, .mode =>
      (reading cmd pid (m.table syscall.toNat).monitored).result ≠ none
  | .command .., .hook | .command .., .restore | .command .., .destroy | .command .., .act _ => True
  | .command .., _ => False

/-- The flags that the call has read still send it to the same section. -/
def Event.UpToDate (K : Kernel α) (m : Module α) : Event → Pc → Prop
  | .exit _, _ => True
  | .command c cmd syscall pid, .destroy =>
      opening K c cmd syscall pid (m.table syscall.toNat).intercepted = .mode ∧
        reading cmd pid (m.table syscall.toNat).monitored = .destroy
  | .command c cmd syscall pid, .act monitored =>
      opening K c cmd syscall pid (m.table syscall.toNat).intercepted = .mode ∧
        reading cmd pid (m.table syscall.toNat).monitored = .act monitored
  | .command c cmd syscall pid, pc =>
      opening K c cmd syscall pid (m.table syscall.toNat).intercepted = pc

/-! ## Sections -/

/-- If a call alone gets to its end, that is its answer. -/
theorem step_of_iterate {e : Event} {a m : Module α} {n : ℕ} {ret : ℤ} (hn : n ≤ 4)
    (hend : (e.advance K)^[n] (a, .start) = (m, .returned ret)) :
    e.answer K a = ret ∧ step K a e = m := by
  obtain ⟨k, hk⟩ : ∃ k, 4 = k + n := ⟨4 - n, by omega⟩
  have hfour : (e.advance K)^[4] (a, .start) = (m, .returned ret) := by
    rw [hk, Function.iterate_add_apply, hend, iterate_returned]
  rw [advance_alone] at hfour
  obtain ⟨hm, hanswer⟩ := Prod.mk.inj hfour
  exact ⟨Pc.returned.inj hanswer, hm⟩

theorem sameAt_step {e : Event} {s t : ℕ} (hentry : e.entry = some s) (hts : t ≠ s)
    (a : Module α) : (step K a e).SameAt a t := by
  have hfour := sameAt_iterate (K := K) hentry hts a .start 4
  rwa [advance_alone] at hfour

theorem opening_cases (K : Kernel α) (c : Current) (cmd syscall pid : ℤ) (intercepted : Bool) :
    (∃ ret, opening K c cmd syscall pid intercepted = .returned ret) ∨
      opening K c cmd syscall pid intercepted = .hook ∨
      opening K c cmd syscall pid intercepted = .restore ∨
      opening K c cmd syscall pid intercepted = .mode := by
  unfold opening
  split_ifs <;> simp

theorem reading_cases (cmd pid : ℤ) (monitored : Monitored) :
    (∃ ret, reading cmd pid monitored = .returned ret) ∨
      reading cmd pid monitored = .destroy ∧
        (cmd = requestStartMonitoring → pid = 0 ∧ monitored ≠ .allPids) ∨
      reading cmd pid monitored = .act monitored := by
  unfold reading
  split_ifs <;> simp_all

theorem reading_not_halfway (cmd pid : ℤ) (monitored : Monitored) :
    ¬ (reading cmd pid monitored).Halfway := by
  unfold reading
  split_ifs <;> simp [Pc.Halfway]

/-- The second change ends the call. -/
theorem advance_halfway (e : Event) (m : Module α) {pc : Pc} (hpc : pc.Halfway) :
    ∃ ret, (e.advance K (m, pc)).2 = .returned ret := by
  cases pc <;> first | exact hpc.elim | skip
  all_goals cases e <;> exact ⟨0, rfl⟩

/-- Flags that have been read and still hold lead to the same section. -/
theorem Event.UpToDate.reach {m : Module α} {e : Event} {pc : Pc} (h : e.UpToDate K m pc)
    (hdecides : e.Decides m pc) (hpc : ¬ pc.Halfway) :
    ∃ n ≤ 2, ∃ pc', (e.advance K)^[n] (m, .start) = (m, pc') ∧
      e.advance K (m, pc') = e.advance K (m, pc) := by
  cases e with
  | exit pid =>
      refine ⟨0, by decide, .start, rfl, ?_⟩
      cases pc <;> first | rfl | exact hdecides.elim
  | command c cmd syscall pid =>
      have hone : opening K c cmd syscall pid (m.table syscall.toNat).intercepted = pc →
          ((Event.command c cmd syscall pid).advance K)^[1] (m, .start) = (m, pc) :=
        fun hopen => congrArg (m, ·) hopen
      have htwo : opening K c cmd syscall pid (m.table syscall.toNat).intercepted = .mode →
          reading cmd pid (m.table syscall.toNat).monitored = pc →
          ((Event.command c cmd syscall pid).advance K)^[2] (m, .start) = (m, pc) := by
        intro hopen hread
        have hfirst : (Event.command c cmd syscall pid).advance K (m, .start) = (m, .mode) :=
          congrArg (m, ·) hopen
        rw [Function.iterate_succ_apply', Function.iterate_one, hfirst]
        exact congrArg (m, ·) hread
      cases pc with
      | start => exact hdecides.elim
      | hook => exact ⟨1, by decide, .hook, hone h, rfl⟩
      | restore => exact ⟨1, by decide, .restore, hone h, rfl⟩
      | mode => exact ⟨1, by decide, .mode, hone h, rfl⟩
      | destroy => exact ⟨2, le_rfl, .destroy, htwo h.1 h.2, rfl⟩
      | act monitored => exact ⟨2, le_rfl, .act monitored, htwo h.1 h.2, rfl⟩
      | setFlag => exact absurd trivial hpc
      | clear => exact absurd trivial hpc
      | finish => exact absurd trivial hpc
      | returned ret => exact hdecides.elim

theorem intercepted_setEntry {m : Module α} {s : ℕ} {g : MyTable α → MyTable α}
    (hg : (g (m.table s)).intercepted = (m.table s).intercepted) (t : ℕ) :
    ((m.setEntry s g).table t).intercepted = (m.table t).intercepted := by
  by_cases hts : t = s
  · subst hts
    simpa [Module.setEntry] using hg
  · simp [Module.setEntry, hts]

theorem intercepted_listPid (c : Current) (m : Module α) (pid : ℤ) (s t : ℕ) :
    ((listPid c m pid s id).2.table t).intercepted = (m.table t).intercepted :=
  congrArg (fun h : Hooks α => h.intercepted t) (hooks_listPid c m pid s fun _ => ⟨rfl, rfl⟩)

theorem startSection_cases (c : Current) (m : Module α) (s : ℕ) (pid : ℤ) (monitored : Monitored) :
    (∃ ret, (startSection c m s pid monitored).2 = .returned ret) ∨
      (startSection c m s pid monitored).2 = .finish ∧
        (startSection c m s pid monitored).1 = (listPid c m pid s id).2 := by
  cases monitored with
  | allPids =>
      simp only [startSection]
      split_ifs <;> exact Or.inl ⟨_, rfl⟩
  | somePids =>
      simp only [startSection]
      split_ifs <;> exact Or.inl ⟨_, rfl⟩
  | notMonitored =>
      simp only [startSection]
      split_ifs
      · exact Or.inl ⟨_, rfl⟩
      · exact Or.inr ⟨rfl, rfl⟩

theorem stopSection_returned (c : Current) (m : Module α) (s : ℕ) (pid : ℤ)
    (monitored : Monitored) : ∃ ret, (stopSection c m s pid monitored).2 = .returned ret := by
  cases monitored with
  | allPids =>
      simp only [stopSection]
      split_ifs <;> exact ⟨_, rfl⟩
  | somePids =>
      simp only [stopSection]
      split_ifs <;> exact ⟨_, rfl⟩
  | notMonitored => exact ⟨_, rfl⟩

/-- A deciding section ends the call, or is the first of two changes and leaves
the flags `intercepted` alone. -/
theorem advance_decides {e : Event} {m : Module α} {pc : Pc} (h : e.Decides m pc) :
    (∃ ret, (e.advance K (m, pc)).2 = .returned ret) ∨
      (e.advance K (m, pc)).2.Halfway ∧
        ∀ t, ((e.advance K (m, pc)).1.table t).intercepted = (m.table t).intercepted := by
  cases e with
  | exit pid =>
      refine Or.inl ⟨0, ?_⟩
      cases pc <;> first | rfl | exact h.elim
  | command c cmd syscall pid =>
      cases pc with
      | start => exact h.elim
      | hook =>
          exact Or.inr ⟨trivial, intercepted_setEntry (m := m)
            (g := fun e => { e with f := m.sysCallTable syscall.toNat }) rfl⟩
      | setFlag => exact h.elim
      | restore =>
          exact Or.inr ⟨trivial, intercepted_setEntry
            (m := m.setHandler syscall.toNat (m.table syscall.toNat).f)
            (g := fun e => e.setMonitored .notMonitored) rfl⟩
      | clear => exact h.elim
      | mode =>
          apply Or.inl
          obtain ⟨ret, hret⟩ := Option.ne_none_iff_exists'.mp h
          refine ⟨ret, ?_⟩
          change reading cmd pid (m.table syscall.toNat).monitored = .returned ret
          cases hread : reading cmd pid (m.table syscall.toNat).monitored <;>
            simp_all [Pc.result]
      | destroy =>
          by_cases hcmd : cmd = requestStartMonitoring
          · refine Or.inr ⟨?_, intercepted_setEntry rfl⟩
            simp [Event.advance, commandSection, hcmd, Pc.Halfway]
          · refine Or.inl ⟨0, ?_⟩
            simp [Event.advance, commandSection, hcmd]
      | act monitored =>
          simp only [Event.advance, commandSection]
          by_cases hcmd : cmd = requestStartMonitoring
          · simp only [hcmd, if_true]
            apply (startSection_cases c m syscall.toNat pid monitored).imp_right
            rintro ⟨hpc, hm⟩
            rw [hpc, hm]
            exact ⟨trivial, intercepted_listPid c m pid syscall.toNat⟩
          · simp only [hcmd, if_false]
            exact Or.inl (stopSection_returned c m syscall.toNat pid monitored)
      | finish => exact h.elim
      | returned ret => exact h.elim

/-! ## Half of a call -/

/-- Alone from `a` on, the call gets to `pc` in `n` sections, and then the slot
and the entry of `t` are as in `m`. -/
def Event.Reaches (K : Kernel α) (e : Event) (t n : ℕ) (a m : Module α) (pc : Pc) : Prop :=
  ∃ b, (e.advance K)^[n] (a, .start) = (b, pc) ∧ b.SameAt m t

namespace Event.Reaches

variable {e : Event} {t n : ℕ} {a a' m m' : Module α} {pc : Pc}

theorem of_sameAt (h : e.Reaches K t n a m pc) (hm : m.SameAt m' t) :
    e.Reaches K t n a m' pc := by
  obtain ⟨b, hreach, hb⟩ := h
  exact ⟨b, hreach, hb.trans hm⟩

/-- What other calls did to other entries before makes no difference. -/
theorem after (h : e.Reaches K t n a m pc) (hentry : e.entry = some t) (ha : a.SameAt a' t) :
    e.Reaches K t n a' m pc := by
  obtain ⟨b, hreach, hb⟩ := h
  obtain ⟨hpc, hsame⟩ := ha.iterate (K := K) hentry .start n
  rw [hreach] at hpc hsame
  exact ⟨_, Prod.ext rfl hpc.symm, hsame.symm.trans hb⟩

theorem next (h : e.Reaches K t n a m pc) (hentry : e.entry = some t) :
    e.Reaches K t (n + 1) a (e.advance K (m, pc)).1 (e.advance K (m, pc)).2 := by
  obtain ⟨b, hreach, hb⟩ := h
  obtain ⟨hpc, hsame⟩ := hb.advance (K := K) hentry pc
  refine ⟨(e.advance K (b, pc)).1, ?_, hsame⟩
  rw [Function.iterate_succ_apply', hreach, ← hpc]

/-- The last section of the call is where it takes effect alone. -/
theorem step (h : e.Reaches K t n a m pc) (hentry : e.entry = some t) (hn : n ≤ 3) {ret : ℤ}
    (hret : (e.advance K (m, pc)).2 = .returned ret) :
    e.answer K a = ret ∧ (Interceptor.step K a e).SameAt (e.advance K (m, pc)).1 t := by
  obtain ⟨b, hreach, hb⟩ := h.next hentry
  rw [hret] at hreach
  obtain ⟨hanswer, hstep⟩ := step_of_iterate (Nat.succ_le_succ hn) hreach
  exact ⟨hanswer, hstep ▸ hb⟩

end Event.Reaches

/-- A call that has returned is not in the middle of its changes. -/
theorem not_halfway_of_returned {e : Event} {n : ℕ} {m b : Module α} {pc : Pc} {ret : ℤ}
    (hreach : (e.advance K)^[n] (m, .returned ret) = (b, pc)) : ¬ pc.Halfway := by
  rw [iterate_returned] at hreach
  obtain ⟨-, rfl⟩ := Prod.mk.inj hreach
  exact id

/-- There is one section before the half of a call. -/
theorem halfway_section {e : Event} {n : ℕ} {a b : Module α} {pc pc' : Pc}
    (hreach : (e.advance K)^[n] (a, pc') = (b, pc)) (hpc : pc.Halfway)
    (hdecides : e.Decides a pc') (hpc' : ¬ pc'.Halfway) :
    n = 1 ∧ e.advance K (a, pc') = (b, pc) := by
  cases n with
  | zero =>
      obtain ⟨-, rfl⟩ := Prod.mk.inj hreach
      exact absurd hpc hpc'
  | succ n =>
      rw [Function.iterate_succ_apply] at hreach
      generalize hfirst : e.advance K (a, pc') = first at hreach ⊢
      obtain ⟨m, pc₁⟩ := first
      have hcases := advance_decides (K := K) hdecides
      rw [hfirst] at hcases
      obtain ⟨ret, rfl⟩ | ⟨hhalf, -⟩ := hcases
      · exact absurd hpc (not_halfway_of_returned hreach)
      cases n with
      | zero => exact ⟨rfl, hreach⟩
      | succ n =>
          obtain ⟨ret, hret⟩ := advance_halfway (K := K) e m hhalf
          have hsecond : e.advance K (m, pc₁) = ((e.advance K (m, pc₁)).1, .returned ret) :=
            Prod.ext rfl hret
          rw [Function.iterate_succ_apply, hsecond] at hreach
          exact absurd hpc (not_halfway_of_returned hreach)

theorem subset_listPid (c : Current) (m : Module α) (pid : ℤ) (s : ℕ) :
    (m.table s).myList ⊆ ((listPid c m pid s id).2.table s).myList := by
  intro q hq
  cases hmem : c.memory with
  | false => simpa [listPid, addPidSysc, hmem, enomem] using hq
  | true =>
      simp [listPid, addPidSysc, hmem, Module.setEntry, MyTable.addPid, MyTable.addCount, hq]

/-- The work on the list is the first of two changes only if it puts a pid on it. -/
theorem subset_of_act {c : Current} {cmd syscall pid : ℤ} {a b : Module α} {pc : Pc}
    {monitored : Monitored}
    (hsection : (Event.command c cmd syscall pid).advance K (a, .act monitored) = (b, pc))
    (hpc : pc.Halfway) : (a.table syscall.toNat).myList ⊆ (b.table syscall.toNat).myList := by
  have hend {ret : ℤ} (hret : pc = .returned ret) : False := by
    rw [hret] at hpc
    exact hpc
  simp only [Event.advance, commandSection] at hsection
  split_ifs at hsection
  · rcases startSection_cases c a syscall.toNat pid monitored with ⟨ret, hret⟩ | ⟨-, hlist⟩
    · rw [hsection] at hret
      exact (hend hret).elim
    · rw [hsection] at hlist
      obtain rfl : b = (listPid c a pid syscall.toNat id).2 := hlist
      exact subset_listPid c a pid syscall.toNat
  · obtain ⟨ret, hret⟩ := stopSection_returned c a syscall.toNat pid monitored
    rw [hsection] at hret
    exact (hend hret).elim

/-- The half of a call that has read `monitored`. -/
theorem halfway_of_mode {c : Current} {cmd syscall pid : ℤ} {n : ℕ} {a b : Module α} {pc : Pc}
    (hreach : ((Event.command c cmd syscall pid).advance K)^[n] (a, .mode) = (b, pc))
    (hpc : pc.Halfway) :
    (a.table syscall.toNat).myList ⊆ (b.table syscall.toNat).myList ∨
      n = 2 ∧ cmd = requestStartMonitoring ∧ pid = 0 ∧
        (a.table syscall.toNat).monitored ≠ .allPids ∧
        (destroyList a syscall.toNat, .finish) = (b, pc) := by
  cases n with
  | zero =>
      obtain ⟨-, rfl⟩ := Prod.mk.inj hreach
      exact hpc.elim
  | succ n =>
      rw [Function.iterate_succ_apply] at hreach
      change ((Event.command c cmd syscall pid).advance K)^[n]
        (a, reading cmd pid (a.table syscall.toNat).monitored) = (b, pc) at hreach
      rcases reading_cases cmd pid (a.table syscall.toNat).monitored with
        ⟨ret, hread⟩ | ⟨hread, hmode⟩ | hread <;> rw [hread] at hreach
      · exact absurd hpc (not_halfway_of_returned hreach)
      · obtain ⟨rfl, hsection⟩ := halfway_section hreach hpc trivial id
        have hstart : cmd = requestStartMonitoring := by
          by_contra hcmd
          simp only [Event.advance, commandSection, if_neg hcmd] at hsection
          obtain ⟨-, rfl⟩ := Prod.mk.inj hsection
          exact hpc
        obtain ⟨hpid, hmonitored⟩ := hmode hstart
        simp only [Event.advance, commandSection, if_pos hstart] at hsection
        exact Or.inr ⟨rfl, hstart, hpid, hmonitored, hsection⟩
      · exact Or.inl (subset_of_act (halfway_section hreach hpc trivial id).2 hpc)

/-- A call that has made one change has not taken a pid off the list, unless it
throws the whole list away. -/
theorem halfway_cases {c : Current} {cmd syscall pid : ℤ} {n : ℕ} {a b : Module α} {pc : Pc}
    (hreach : ((Event.command c cmd syscall pid).advance K)^[n] (a, .start) = (b, pc))
    (hpc : pc.Halfway) :
    (a.table syscall.toNat).myList ⊆ (b.table syscall.toNat).myList ∨
      n = 3 ∧ cmd = requestStartMonitoring ∧ pid = 0 ∧
        opening K c cmd syscall pid (a.table syscall.toNat).intercepted = .mode ∧
        (a.table syscall.toNat).monitored ≠ .allPids ∧
        (destroyList a syscall.toNat, .finish) = (b, pc) := by
  cases n with
  | zero =>
      obtain ⟨-, rfl⟩ := Prod.mk.inj hreach
      exact hpc.elim
  | succ n =>
      rw [Function.iterate_succ_apply] at hreach
      change ((Event.command c cmd syscall pid).advance K)^[n]
        (a, opening K c cmd syscall pid (a.table syscall.toNat).intercepted) = (b, pc) at hreach
      rcases opening_cases K c cmd syscall pid (a.table syscall.toNat).intercepted with
        ⟨ret, hopen⟩ | hopen | hopen | hopen <;> rw [hopen] at hreach
      · exact absurd hpc (not_halfway_of_returned hreach)
      · obtain ⟨-, hsection⟩ := halfway_section hreach hpc trivial id
        obtain ⟨rfl, -⟩ := Prod.mk.inj hsection
        exact Or.inl fun q hq => by simpa [Module.setEntry, Module.setHandler] using hq
      · obtain ⟨-, hsection⟩ := halfway_section hreach hpc trivial id
        obtain ⟨rfl, -⟩ := Prod.mk.inj hsection
        exact Or.inl fun q hq => by
          simpa [Module.setEntry, Module.setHandler, MyTable.setMonitored] using hq
      · rcases halfway_of_mode hreach hpc with hkept | ⟨rfl, hstart, hzero, hmonitored, hend⟩
        · exact Or.inl hkept
        · exact Or.inr ⟨rfl, hstart, hzero, hopen, hmonitored, hend⟩

/-- An exit before the call makes no difference to what it has done so far to an
entry that does not have the pid on its list. -/
theorem Event.Reaches.delPid {e : Event} {t n : ℕ} {a m : Module α} {pc : Pc}
    (h : e.Reaches K t n a m pc) (hentry : e.entry = some t) (hpc : pc.Halfway) {pid : ℤ}
    (hpid : pid ∉ (m.table t).myList) :
    e.Reaches K t n (Interceptor.delPid K a pid).2 (Interceptor.delPid K m pid).2 pc := by
  refine Event.Reaches.of_sameAt ?_ (sameAt_delPid K hpid).symm
  obtain ⟨b, hreach, hb⟩ := h
  cases e with
  | exit _ => simp [Event.entry] at hentry
  | command c cmd syscall q =>
      obtain rfl : syscall.toNat = t := Option.some.inj hentry
      rcases halfway_cases hreach hpc with hkept | ⟨rfl, hstart, hzero, hopen, hmonitored, hend⟩
      · have hnot : pid ∉ (a.table syscall.toNat).myList := fun hin =>
          hpid (hb.table ▸ hkept hin)
        exact Event.Reaches.after ⟨b, hreach, hb⟩ rfl (sameAt_delPid K hnot).symm
      · -- the list is thrown away, with the pid or without it
        obtain ⟨rfl, rfl⟩ := Prod.mk.inj hend
        refine ⟨destroyList (Interceptor.delPid K a pid).2 syscall.toNat, ?_,
          (destroyList_delPid K a pid _).trans hb⟩
        have hmonitored' : ((Interceptor.delPid K a pid).2.table syscall.toNat).monitored ≠
            .allPids := fun hall => by
          rcases delPid_table K a pid syscall.toNat with htable | htable
          · exact hmonitored (htable ▸ hall)
          · exact hmonitored (MyTable.purge_allPids (htable ▸ hall))
        have hread : reading cmd q ((Interceptor.delPid K a pid).2.table syscall.toNat).monitored =
            .destroy := by
          rw [reading, if_pos hstart, if_pos hzero, if_neg hmonitored']
        rw [← intercepted_delPid K a pid] at hopen
        simp only [Function.iterate_succ_apply, Function.iterate_zero, id, Event.advance,
          commandSection, hopen, hread, if_pos hstart]

end KernelProgramming.Interceptor
