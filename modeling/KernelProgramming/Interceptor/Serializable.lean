import KernelProgramming.Library.SerialOrder
import KernelProgramming.Interceptor.HalfCalls

/-!
# Serial orders of concurrent commands

A call that finds things as it left them, and no other call in the middle of
its changes to the same entry, takes effect at one section.  The calls of a run
in which this holds of all sections are explained by the order of these sections.
-/

namespace KernelProgramming.Interceptor

open SerialOrder

variable {α ι : Type} {K : Kernel α}

/-- A pid that is listed first is not on the list yet. -/
def Event.Fresh (m : Module α) : Event → Pc → Prop
  | .command _ _ syscall pid, .act .notMonitored => pid ∉ (m.table syscall.toNat).myList
  | _, _ => True

/-- The call works on the entry of `t`; an exit does if its pid is on the list. -/
def Event.Touches (m : Module α) (t : ℕ) : Event → Prop
  | .command _ _ syscall _ => syscall.toNat = t
  | .exit pid => pid ∈ (m.table t).myList

instance (m : Module α) (t : ℕ) : DecidablePred (Event.Touches m t)
  | .command _ _ syscall _ => inferInstanceAs (Decidable (syscall.toNat = t))
  | .exit pid => inferInstanceAs (Decidable (pid ∈ (m.table t).myList))

/-- No other call has come between the checks of call `i` and the section that
it has before it, and none has made only one of its two changes to an entry
that `i` works on. -/
structure Undisturbed (K : Kernel α) (calls : ι → Event) (σ : System α ι) (i : ι) : Prop where
  current : (calls i).Decides σ.module (σ.pc i) → (calls i).UpToDate K σ.module (σ.pc i)
  single : (calls i).Decides σ.module (σ.pc i) →
    ∀ j, (σ.pc j).Halfway → ∀ t ∈ (calls j).entry, ¬ (calls i).Touches σ.module t
  fresh : (calls i).Fresh σ.module (σ.pc i)

/-- The calls, each run alone. -/
def service (K : Kernel α) (calls : ι → Event) : Service (Module α) ℤ ι :=
  fun i m => ((calls i).answer K m, step K m (calls i))

/-! ## Simulation -/

/-- The module is as the calls that led to `a` leave it, but for the entries to
which a call has made one of its changes. -/
structure Tracks (K : Kernel α) (calls : ι → Event) (a : Module α) (σ : System α ι) : Prop where
  flags : ∀ t, (σ.module.table t).intercepted = (a.table t).intercepted
  quiet : ∀ t, (∀ j, (σ.pc j).Halfway → (calls j).entry ≠ some t) → σ.module.SameAt a t
  busy : ∀ j, (σ.pc j).Halfway → ∃ t, (calls j).entry = some t ∧
    (∀ k, (σ.pc k).Halfway → (calls k).entry = some t → k = j) ∧
    ∃ n ≤ 3, (calls j).Reaches K t n a σ.module (σ.pc j)

/-- The calls that have answered are explained by `order`; what the others have
done so far is what one of them does at most to an entry, alone after those. -/
structure Simulates (K : Kernel α) (calls : ι → Event) (m : Module α) (order : List ι)
    (σ : System α ι) : Prop where
  explains : Explains (service K calls) m order fun i => (σ.pc i).result
  tracks : Tracks K calls (serve (service K calls) m order) σ

theorem simulates_begin (K : Kernel α) (calls : ι → Event) (m : Module α) :
    Simulates K calls m [] (begin m) :=
  ⟨explains_nil _ m, fun _ => rfl, fun t _ => Module.SameAt.refl m t, fun _ => False.elim⟩

variable [DecidableEq ι]

theorem result_update (pc : ι → Pc) (i : ι) (next : Pc) :
    (fun j => (Function.update pc i next j).result) =
      Function.update (fun j => (pc j).result) i next.result := by
  ext1 j
  by_cases hji : j = i
  · simp [hji]
  · simp [hji]

theorem halfway_of_update {pc : ι → Pc} {i j : ι} {next : Pc} (hnext : ¬ next.Halfway)
    (hj : (Function.update pc i next j).Halfway) : j ≠ i ∧ (pc j).Halfway := by
  by_cases hji : j = i
  · rw [hji, Function.update_self] at hj
    exact absurd hj hnext
  · rw [Function.update_of_ne hji] at hj
    exact ⟨hji, hj⟩

namespace Tracks

variable {calls : ι → Event} {a a' m' : Module α} {σ : System α ι} {i : ι} {t : ℕ}

/-- A section that changes nothing and is not in the middle of two changes. -/
theorem look (h : Tracks K calls a σ) {next : Pc} (hhalf : ¬ (σ.pc i).Halfway)
    (hnext : ¬ next.Halfway) : Tracks K calls a ⟨σ.module, Function.update σ.pc i next⟩ where
  flags := h.flags
  quiet t hquiet := h.quiet t fun j hj => hquiet j <| by
    have hji : j ≠ i := fun hji => hhalf (hji ▸ hj)
    simpa [hji] using hj
  busy j hj := by
    obtain ⟨hji, hj⟩ := halfway_of_update hnext hj
    obtain ⟨t, hentry, honly, n, hn, hreach⟩ := h.busy j hj
    refine ⟨t, hentry, fun k hk => honly k (halfway_of_update hnext hk).2, n, hn, ?_⟩
    simpa [hji] using hreach

/-- The last section of a command. -/
theorem answer (h : Tracks K calls a σ) {ret : ℤ} (hentry : (calls i).entry = some t)
    (hothers : ∀ j, (σ.pc j).Halfway → (calls j).entry = some t → j = i)
    (ha : a'.SameAt m' t) (haway : ∀ u, u ≠ t → a'.SameAt a u)
    (haway' : ∀ u, u ≠ t → m'.SameAt σ.module u) :
    Tracks K calls a' ⟨m', Function.update σ.pc i (.returned ret)⟩ where
  flags u := by
    by_cases hut : u = t
    · rw [hut, ha.table]
    · rw [(haway u hut).table, (haway' u hut).table, h.flags]
  quiet u hquiet := by
    by_cases hut : u = t
    · exact hut ▸ ha.symm
    · refine ((haway' u hut).trans (h.quiet u fun j hj hju => ?_)).trans (haway u hut).symm
      have hji : j ≠ i := by
        rintro rfl
        exact hut (Option.some.inj (hju.symm.trans hentry))
      exact hquiet j (by simpa [hji] using hj) hju
  busy j hj := by
    obtain ⟨hji, hj⟩ := halfway_of_update id hj
    obtain ⟨u, hju, honly, n, hn, hreach⟩ := h.busy j hj
    have hut : u ≠ t := by
      rintro rfl
      exact hji (hothers j hj hju)
    refine ⟨u, hju, fun k hk => honly k (halfway_of_update id hk).2, n, hn, ?_⟩
    have hafter := (hreach.after hju (haway u hut).symm).of_sameAt (haway' u hut).symm
    simpa [hji] using hafter

/-- The first change of two. -/
theorem split (h : Tracks K calls a σ) {next : Pc} {n : ℕ} (hentry : (calls i).entry = some t)
    (hnone : ∀ j, (σ.pc j).Halfway → (calls j).entry ≠ some t) (hnext : next.Halfway)
    (hn : n ≤ 3) (hreach : (calls i).Reaches K t n a m' next)
    (hflags : ∀ u, (m'.table u).intercepted = (σ.module.table u).intercepted)
    (haway : ∀ u, u ≠ t → m'.SameAt σ.module u) :
    Tracks K calls a ⟨m', Function.update σ.pc i next⟩ where
  flags u := (hflags u).trans (h.flags u)
  quiet u hquiet := by
    have hut : u ≠ t := by
      rintro rfl
      exact hquiet i (by simpa using hnext) hentry
    refine (haway u hut).trans (h.quiet u fun j hj hju => ?_)
    have hji : j ≠ i := by
      rintro rfl
      exact hut (Option.some.inj (hju.symm.trans hentry))
    exact hquiet j (by simpa [hji] using hj) hju
  busy j hj := by
    by_cases hji : j = i
    · subst hji
      refine ⟨t, hentry, fun k hk hkt => ?_, n, hn, by simpa using hreach⟩
      by_contra hkj
      exact hnone k (by simpa [hkj] using hk) hkt
    · have hj' : (σ.pc j).Halfway := by simpa [hji] using hj
      obtain ⟨u, hju, honly, k, hk, hreach'⟩ := h.busy j hj'
      have hut : u ≠ t := fun hut => hnone j hj' (hut ▸ hju)
      refine ⟨u, hju, fun l hl hlu => ?_, k, hk, ?_⟩
      · have hli : l ≠ i := by
          rintro rfl
          exact hut (Option.some.inj (hlu.symm.trans hentry))
        exact honly l (by simpa [hli] using hl) hlu
      · have hsame := hreach'.of_sameAt (haway u hut).symm
        simpa [hji] using hsame

/-- An exit takes its pid off lists that no call is in the middle of changing. -/
theorem exit (h : Tracks K calls a σ) {ret : ℤ} {pid : ℤ} (hhalf : ¬ (σ.pc i).Halfway)
    (hfree : ∀ j, (σ.pc j).Halfway → ∀ t ∈ (calls j).entry, pid ∉ (σ.module.table t).myList) :
    Tracks K calls (delPid K a pid).2
      ⟨(delPid K σ.module pid).2, Function.update σ.pc i (.returned ret)⟩ where
  flags t := by rw [intercepted_delPid, intercepted_delPid, h.flags]
  quiet t hquiet := by
    refine (h.quiet t fun j hj => hquiet j ?_).delPid K pid
    have hji : j ≠ i := fun hji => hhalf (hji ▸ hj)
    simpa [hji] using hj
  busy j hj := by
    obtain ⟨hji, hj⟩ := halfway_of_update id hj
    obtain ⟨t, hentry, honly, n, hn, hreach⟩ := h.busy j hj
    refine ⟨t, hentry, fun k hk => honly k (halfway_of_update id hk).2, n, hn, ?_⟩
    have hexit := hreach.delPid hentry hj (hfree j hj t hentry)
    simpa [hji] using hexit

end Tracks

/-- Sections that come to no answer. -/
theorem Simulates.pending {calls : ι → Event} {m m' : Module α} {order : List ι} {σ : System α ι}
    (h : Simulates K calls m order σ) {i : ι} {next : Pc} (hpc : (σ.pc i).result = none)
    (hnext : next.result = none)
    (htracks : Tracks K calls (serve (service K calls) m order)
      ⟨m', Function.update σ.pc i next⟩) :
    Simulates K calls m order ⟨m', Function.update σ.pc i next⟩ := by
  refine ⟨?_, htracks⟩
  have hsame : Function.update (fun j => (σ.pc j).result) i next.result =
      fun j => (σ.pc j).result := by
    rw [hnext, ← hpc, Function.update_eq_self]
  rw [result_update, hsame]
  exact h.explains

/-- A section that ends a call that answers as it does after the others. -/
theorem Simulates.answer {calls : ι → Event} {m m' : Module α} {order : List ι} {σ : System α ι}
    (h : Simulates K calls m order σ) {i : ι} {ret : ℤ} (hpc : (σ.pc i).result = none)
    (hanswer : (calls i).answer K (serve (service K calls) m order) = ret)
    (htracks : Tracks K calls (step K (serve (service K calls) m order) (calls i))
      ⟨m', Function.update σ.pc i (.returned ret)⟩) :
    Simulates K calls m (order ++ [i]) ⟨m', Function.update σ.pc i (.returned ret)⟩ := by
  refine ⟨?_, by rwa [serve_concat]⟩
  rw [result_update, ← hanswer]
  exact h.explains.concat hpc

theorem result_of_decides {e : Event} {m : Module α} {pc : Pc} (h : e.Decides m pc) :
    pc.result = none := by
  cases pc with
  | returned ret => cases e <;> exact h.elim
  | _ => rfl

theorem result_of_halfway {pc : Pc} (h : pc.Halfway) : pc.result = none := by
  cases pc <;> first | rfl | exact h.elim

theorem Simulates.decide {calls : ι → Event} {m : Module α} {order : List ι} {σ : System α ι}
    (h : Simulates K calls m order σ) {i : ι} (hok : Undisturbed K calls σ i)
    (hdecides : (calls i).Decides σ.module (σ.pc i)) (hhalf : ¬ (σ.pc i).Halfway) :
    ∃ order, Simulates K calls m order (σ.advance K calls i) := by
  have hpc := result_of_decides hdecides
  have hsingle := hok.single hdecides
  have hcurrent := hok.current hdecides
  rw [System.advance_eq]
  cases hevent : calls i with
  | exit pid =>
      rw [hevent] at hdecides hsingle
      have hexit : (Event.exit pid).advance K (σ.module, σ.pc i) =
          ((delPid K σ.module pid).2, .returned 0) := by
        cases hpc' : σ.pc i with
        | returned ret => simp [hpc', Event.Decides] at hdecides
        | _ => rfl
      rw [hexit]
      refine ⟨order ++ [i], h.answer hpc (by rw [hevent]; rfl) ?_⟩
      rw [hevent]
      exact h.tracks.exit hhalf hsingle
  | command c cmd syscall pid =>
      have hentry : (calls i).entry = some syscall.toNat := by rw [hevent]; rfl
      have hnone : ∀ j, (σ.pc j).Halfway → (calls j).entry ≠ some syscall.toNat := fun j hj hjt =>
        hsingle j hj syscall.toNat hjt (by rw [hevent]; rfl)
      have hquiet := h.tracks.quiet syscall.toNat hnone
      obtain ⟨n, hn, pc, hreach, hsame⟩ := hcurrent.reach hdecides hhalf
      have hreaches := Event.Reaches.after (K := K)
        ⟨_, hreach, Module.SameAt.refl σ.module syscall.toNat⟩ hentry hquiet
      rw [← hevent]
      have haway : ∀ u, u ≠ syscall.toNat →
          ((calls i).advance K (σ.module, σ.pc i)).1.SameAt σ.module u := fun u hu =>
        sameAt_advance hentry hu σ.module (σ.pc i)
      rcases advance_decides (K := K) hdecides with ⟨ret, hret⟩ | ⟨hnext, hflags⟩
      · obtain ⟨hanswer, hstep⟩ := hreaches.step hentry (Nat.le_succ_of_le hn)
          ((congrArg Prod.snd hsame).trans hret)
        rw [hsame] at hstep
        rw [hret]
        refine ⟨order ++ [i], h.answer hpc hanswer (h.tracks.answer hentry ?_ hstep ?_ haway)⟩
        · exact fun j hj hjt => absurd hjt (hnone j hj)
        · exact fun u hu => sameAt_step hentry hu _
      · have hnext' := hreaches.next hentry
        rw [hsame] at hnext'
        exact ⟨order, h.pending hpc (result_of_halfway hnext) <| h.tracks.split hentry hnone hnext
          (Nat.succ_le_succ hn) hnext' hflags haway⟩

/-- The check of `intercepted`, which other calls may do at the same time. -/
theorem Simulates.open {calls : ι → Event} {m : Module α} {order : List ι} {σ : System α ι}
    (h : Simulates K calls m order σ) {i : ι} {c : Current} {cmd syscall pid : ℤ}
    (hevent : calls i = .command c cmd syscall pid) (hpc : σ.pc i = .start) :
    ∃ order, Simulates K calls m order ⟨σ.module, Function.update σ.pc i
      (opening K c cmd syscall pid (σ.module.table syscall.toNat).intercepted)⟩ := by
  have hnone : (σ.pc i).result = none := by rw [hpc]; rfl
  have hhalf : ¬ (σ.pc i).Halfway := by rw [hpc]; exact id
  rcases opening_cases K c cmd syscall pid (σ.module.table syscall.toNat).intercepted with
    ⟨ret, hopen⟩ | hopen | hopen | hopen <;> rw [hopen]
  · have hend : ((calls i).advance K)^[1] (serve (service K calls) m order, .start) =
        (serve (service K calls) m order, .returned ret) := by
      rw [hevent]
      apply congrArg (serve (service K calls) m order, ·)
      rw [← h.tracks.flags, hopen]
    obtain ⟨hanswer, hstep⟩ := step_of_iterate (by decide) hend
    refine ⟨order ++ [i], h.answer hnone hanswer ?_⟩
    rw [hstep]
    exact h.tracks.look hhalf id
  · exact ⟨order, h.pending hnone rfl (h.tracks.look hhalf id)⟩
  · exact ⟨order, h.pending hnone rfl (h.tracks.look hhalf id)⟩
  · exact ⟨order, h.pending hnone rfl (h.tracks.look hhalf id)⟩

/-- The second change of a call. -/
theorem Simulates.close {calls : ι → Event} {m : Module α} {order : List ι} {σ : System α ι}
    (h : Simulates K calls m order σ) {i : ι} (hhalf : (σ.pc i).Halfway) :
    Simulates K calls m (order ++ [i]) (σ.advance K calls i) := by
  obtain ⟨t, hentry, honly, n, hn, hreach⟩ := h.tracks.busy i hhalf
  obtain ⟨ret, hret⟩ := advance_halfway (K := K) (calls i) σ.module hhalf
  obtain ⟨hanswer, hstep⟩ := hreach.step hentry hn hret
  rw [System.advance_eq, hret]
  exact h.answer (result_of_halfway hhalf) hanswer <| h.tracks.answer hentry honly hstep
    (fun u hu => sameAt_step hentry hu _) fun u hu => sameAt_advance hentry hu σ.module (σ.pc i)

theorem Simulates.advance {calls : ι → Event} {m : Module α} {order : List ι} {σ : System α ι}
    (h : Simulates K calls m order σ) {i : ι} (hok : Undisturbed K calls σ i) :
    ∃ order, Simulates K calls m order (σ.advance K calls i) := by
  by_cases hhalf : (σ.pc i).Halfway
  · exact ⟨order ++ [i], h.close hhalf⟩
  by_cases hdecides : (calls i).Decides σ.module (σ.pc i)
  · exact h.decide hok hdecides hhalf
  rw [System.advance_eq]
  cases hpc : σ.pc i with
  | returned ret =>
      refine ⟨order, ?_⟩
      rw [advance_returned, ← hpc, Function.update_eq_self]
      exact h
  | start =>
      cases hevent : calls i with
      | exit pid => simp [hevent, hpc, Event.Decides] at hdecides
      | command c cmd syscall pid => exact h.open hevent hpc
  | mode =>
      cases hevent : calls i with
      | exit pid => simp [hevent, hpc, Event.Decides] at hdecides
      | command c cmd syscall pid =>
          have hread : (reading cmd pid (σ.module.table syscall.toNat).monitored).result =
              none := by
            simpa [hevent, hpc, Event.Decides] using hdecides
          exact ⟨order, h.pending (by rw [hpc]; rfl) hread
            (h.tracks.look hhalf (reading_not_halfway cmd pid _))⟩
  | setFlag => exact absurd (hpc ▸ trivial) hhalf
  | clear => exact absurd (hpc ▸ trivial) hhalf
  | finish => exact absurd (hpc ▸ trivial) hhalf
  | _ => cases hevent : calls i <;> simp [hevent, hpc, Event.Decides] at hdecides

/-! ## No pid is listed twice -/

theorem nodup_setEntry {m : Module α} {s t : ℕ} {g : MyTable α → MyTable α}
    (h : (m.table t).myList.Nodup)
    (hg : s = t → (g (m.table t)).myList.Nodup) : ((m.setEntry s g).table t).myList.Nodup := by
  by_cases hts : t = s
  · subst hts
    simpa [Module.setEntry] using hg rfl
  · simpa [Module.setEntry, hts] using h

theorem nodup_listPid {m : Module α} {s t : ℕ} {c : Current} {pid : ℤ}
    (h : (m.table t).myList.Nodup) (hpid : pid ∉ (m.table s).myList) :
    ((listPid c m pid s id).2.table t).myList.Nodup := by
  cases hmem : c.memory with
  | false => simpa [listPid, addPidSysc, hmem, enomem] using h
  | true =>
      have hlist : (listPid c m pid s id).2 = m.setEntry s fun e => (e.addPid pid).addCount 1 := by
        simp [listPid, addPidSysc, hmem, Module.setEntry_setEntry]
      rw [hlist]
      apply nodup_setEntry h
      intro hst
      subst hst
      exact List.nodup_cons.mpr ⟨hpid, h⟩

theorem nodup_addCount {m : Module α} {s t : ℕ} (h : (m.table t).myList.Nodup) (n : BitVec 32) :
    ((m.setEntry s fun e => e.addCount n).table t).myList.Nodup :=
  nodup_setEntry (g := fun e => e.addCount n) h fun _ => h

theorem nodup_unlistPid {m : Module α} {s t : ℕ} {pid : ℤ} (h : (m.table t).myList.Nodup) :
    ((unlistPid m pid s).2.table t).myList.Nodup := by
  have hdel : ((delPidSysc m pid s).2.table t).myList.Nodup := by
    unfold delPidSysc
    split_ifs
    · exact nodup_setEntry (g := fun e => e.unlink pid) h fun _ => h.erase pid
    · exact h
  exact nodup_addCount hdel (-1)

theorem nodup_startSection {m : Module α} {s t : ℕ} {c : Current} {pid : ℤ} {monitored : Monitored}
    (h : (m.table t).myList.Nodup)
    (hfresh : monitored = .notMonitored → pid ∉ (m.table s).myList) :
    ((startSection c m s pid monitored).1.table t).myList.Nodup := by
  cases monitored with
  | allPids =>
      simp only [startSection]
      split_ifs
      · exact h
      · exact nodup_unlistPid h
  | somePids =>
      simp only [startSection]
      split_ifs with hlisted
      · exact h
      · exact nodup_listPid h fun hin => hlisted ((checkPidMonitored_iff _ pid).mpr hin)
  | notMonitored =>
      simp only [startSection]
      split_ifs
      · exact h
      · exact nodup_listPid h (hfresh rfl)

theorem nodup_stopSection {m : Module α} {s t : ℕ} {c : Current} {pid : ℤ} {monitored : Monitored}
    (h : (m.table t).myList.Nodup) :
    ((stopSection c m s pid monitored).1.table t).myList.Nodup := by
  cases monitored with
  | notMonitored => exact h
  | somePids =>
      simp only [stopSection]
      split_ifs
      · exact h
      · exact nodup_unlistPid h
  | allPids =>
      simp only [stopSection]
      split_ifs with hlisted
      · exact h
      · exact nodup_listPid h fun hin => hlisted ((checkPidMonitored_iff _ pid).mpr hin)

theorem advance_nodup {e : Event} {m : Module α} {pc : Pc} {t : ℕ} (h : (m.table t).myList.Nodup)
    (hfresh : e.Fresh m pc) : ((e.advance K (m, pc)).1.table t).myList.Nodup := by
  cases e with
  | exit pid =>
      have hdel : ((delPid K m pid).2.table t).myList.Nodup := by
        simp only [delPid]
        split_ifs
        · rw [MyTable.purge_eq h]
          split_ifs
          · exact h.erase pid
          · exact h
        · exact h
      cases pc <;> first | exact h | exact hdel
  | command c cmd syscall pid =>
      cases pc with
      | start => exact h
      | hook =>
          exact nodup_setEntry (g := fun e => { e with f := m.sysCallTable syscall.toNat }) h
            fun _ => h
      | setFlag => exact nodup_setEntry (g := fun e => { e with intercepted := true }) h fun _ => h
      | restore => exact nodup_setEntry (g := fun e => e.setMonitored .notMonitored) h fun _ => h
      | clear =>
          have hdestroy := nodup_setEntry (s := syscall.toNat) (g := MyTable.destroy) h
            fun _ => List.nodup_nil
          exact nodup_setEntry (g := fun e => { e with intercepted := false }) hdestroy
            fun _ => hdestroy
      | mode => exact h
      | destroy => exact nodup_setEntry (g := MyTable.destroy) h fun _ => List.nodup_nil
      | act monitored =>
          simp only [Event.advance, commandSection]
          split_ifs
          · apply nodup_startSection h
            intro hm
            subst hm
            exact hfresh
          · exact nodup_stopSection h
      | finish =>
          exact nodup_setEntry
            (g := fun e => e.setMonitored (if pid = 0 then .allPids else .somePids)) h fun _ => h
      | returned ret => exact h

/-! ## Runs -/

theorem interleave_simulates {calls : ι → Event} {m : Module α} {schedule : List ι}
    (hok : ∀ past i rest, schedule = past ++ i :: rest →
      Undisturbed K calls (interleave K calls m past) i) :
    ∃ order, Simulates K calls m order (interleave K calls m schedule) := by
  induction schedule using List.reverseRecOn with
  | nil => exact ⟨[], simulates_begin K calls m⟩
  | append_singleton schedule i ih =>
      obtain ⟨order, horder⟩ := ih fun past j rest hsplit =>
        hok past j (rest ++ [i]) (by simp [hsplit])
      rw [interleave_concat]
      exact horder.advance (hok schedule i [] rfl)

theorem interleave_nodup {calls : ι → Event} {m : Module α} {schedule : List ι} {s : ℕ}
    (h : (m.table s).myList.Nodup)
    (hok : ∀ past i rest, schedule = past ++ i :: rest →
      Undisturbed K calls (interleave K calls m past) i) :
    ((interleave K calls m schedule).module.table s).myList.Nodup := by
  induction schedule using List.reverseRecOn with
  | nil => exact h
  | append_singleton schedule i ih =>
      have hbefore := ih fun past j rest hsplit => hok past j (rest ++ [i]) (by simp [hsplit])
      rw [interleave_concat, System.advance_eq]
      exact advance_nodup hbefore (hok schedule i [] rfl).fresh

/-- Concurrent calls whose sections are all undisturbed have, when they have
all returned, answered and worked like the same calls one after another in some
order, and no pid is listed twice. -/
theorem serializable (K : Kernel α) (calls : ι → Event) (m : Module α) {s : ℕ}
    (hnodup : (m.table s).myList.Nodup) (schedule : List ι)
    (hok : ∀ past i rest, schedule = past ++ i :: rest →
      Undisturbed K calls (interleave K calls m past) i)
    (hreturned : ∀ i, ∃ ret, (interleave K calls m schedule).pc i = .returned ret) :
    let σ := interleave K calls m schedule
    ∃ order, (∀ i, i ∈ order) ∧ Explains (service K calls) m order (fun i => (σ.pc i).result) ∧
      σ.module = serve (service K calls) m order ∧ (σ.module.table s).myList.Nodup := by
  intro σ
  obtain ⟨order, horder⟩ := interleave_simulates hok
  have hdone : ∀ i, (σ.pc i).result.isSome = true := fun i => by
    obtain ⟨ret, hret⟩ := hreturned i
    rw [hret]
    rfl
  have hhalf : ∀ i, ¬ (σ.pc i).Halfway := fun i => by
    obtain ⟨ret, hret⟩ := hreturned i
    rw [hret]
    exact id
  refine ⟨order, fun i => (horder.explains.mem_iff i).mpr (hdone i), horder.explains, ?_,
    interleave_nodup hnodup hok⟩
  exact Module.SameAt.module_eq fun t => horder.tracks.quiet t fun j hj => absurd hj (hhalf j)

/-- The module with syscall 5 intercepted. -/
def intercepted5 : Module ℕ :=
  run i386 (initFunction i386 fun i => 1000 + i) [.command root requestSyscallIntercept 5 0]

/-- Requests by root for the pids 7 and 8 on syscall 5 and for syscall 6, and the
exit of process 9. -/
def fourCalls : Fin 4 → Event
  | 0 => .command root requestStartMonitoring 5 7
  | 1 => .command root requestStartMonitoring 5 8
  | 2 => .command root requestSyscallIntercept 6 0
  | 3 => .exit 9

omit [DecidableEq ι] in
theorem forall_split_cons {P : List ι → ι → Prop} {a : ι} {xs : List ι} (hhead : P [] a)
    (htail : ∀ past i rest, xs = past ++ i :: rest → P (a :: past) i) :
    ∀ past i rest, a :: xs = past ++ i :: rest → P past i := by
  intro past i rest hsplit
  cases past with
  | nil =>
      obtain ⟨rfl, -⟩ := List.cons.inj hsplit
      exact hhead
  | cons b past =>
      obtain ⟨rfl, htl⟩ := List.cons.inj hsplit
      exact htail past i rest htl

/-- The second request is checked while the first one is under way; syscall 6 is
intercepted and process 9 exits in the middle of the first one's changes. -/
theorem serializable_fourCalls :
    let σ := interleave i386 fourCalls intercepted5 [0, 1, 0, 0, 2, 2, 3, 2, 0, 1, 1]
    ∃ order, (∀ i, i ∈ order) ∧
      Explains (service i386 fourCalls) intercepted5 order (fun i => (σ.pc i).result) ∧
      σ.module = serve (service i386 fourCalls) intercepted5 order ∧
      (σ.module.table 5).myList.Nodup := by
  apply serializable i386 fourCalls intercepted5 (by decide) _
  · refine forall_split_cons ⟨fun h => h.elim, fun h => h.elim, trivial⟩ ?_
    refine forall_split_cons ⟨fun h => h.elim, fun h => h.elim, trivial⟩ ?_
    refine forall_split_cons ⟨fun _ => rfl, fun _ => by decide, trivial⟩ ?_
    refine forall_split_cons ⟨fun _ => ⟨rfl, rfl⟩, fun _ => by decide, List.not_mem_nil⟩ ?_
    refine forall_split_cons ⟨fun h => h.elim, fun h => h.elim, trivial⟩ ?_
    refine forall_split_cons ⟨fun _ => rfl, fun _ => by decide, trivial⟩ ?_
    refine forall_split_cons ⟨fun _ => trivial, fun _ => by decide, trivial⟩ ?_
    refine forall_split_cons ⟨fun h => h.elim, fun h => h.elim, trivial⟩ ?_
    refine forall_split_cons ⟨fun h => h.elim, fun h => h.elim, trivial⟩ ?_
    refine forall_split_cons ⟨fun _ => rfl, fun _ => by decide, trivial⟩ ?_
    refine forall_split_cons ⟨fun _ => ⟨rfl, rfl⟩, fun _ => by decide, trivial⟩ ?_
    exact fun past i rest hsplit => by simp at hsplit
  · exact fun
      | 0 => ⟨0, rfl⟩
      | 1 => ⟨0, rfl⟩
      | 2 => ⟨0, rfl⟩
      | 3 => ⟨0, rfl⟩

/-- Two requests by root for pid 7 both find nobody monitored and list it. -/
theorem not_serializable :
    ¬ ∀ (calls : Fin 2 → Event) (schedule : List (Fin 2)),
      let σ := interleave i386 calls intercepted5 schedule
      (∀ i, ∃ ret, σ.pc i = .returned ret) →
        ∃ order,
          let m := serve (service i386 calls) intercepted5 order
          (∀ i, i ∈ order) ∧
            Explains (service i386 calls) intercepted5 order (fun i => (σ.pc i).result) ∧
            (σ.module.table 5).intercepted = (m.table 5).intercepted ∧
            (σ.module.table 5).monitored = (m.table 5).monitored ∧
            (∀ pid, pid ∈ (σ.module.table 5).myList ↔ pid ∈ (m.table 5).myList) ∧
            (σ.module.table 5).myList.Nodup := by
  intro hall
  obtain ⟨-, -, -, -, -, -, hnodup⟩ := hall (fun _ => .command root requestStartMonitoring 5 7)
    [0, 1, 0, 1, 0, 1, 0, 1] (Fin.forall_fin_two.mpr ⟨⟨0, rfl⟩, ⟨0, rfl⟩⟩)
  exact absurd hnodup (by decide)

end KernelProgramming.Interceptor
