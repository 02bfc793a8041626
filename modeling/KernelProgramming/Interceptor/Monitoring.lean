import Mathlib.Algebra.Group.Nat.Defs
import Mathlib.Data.Int.Cast.Basic
import KernelProgramming.Library.ListedSet
import KernelProgramming.Interceptor.Unload

/-!
# The monitored pids as a set

The list of an entry names the logged pids or, when all pids are monitored,
those that are not.  Commands on pids are the insertion into and the removal
from this set as long as the counter of the list never reads one too early.
-/

namespace KernelProgramming.Interceptor

open ListedSet

variable {α : Type}

def MyTable.watched (e : MyTable α) : Set ℤ := {pid | e.logged pid = true}

def Module.watched (m : Module α) (s : ℕ) : Set ℤ := (m.table s).watched

/-- The hidden invariant of an entry. -/
structure MyTable.Tidy (e : MyTable α) : Prop where
  nodup : e.myList.Nodup
  empty : e.monitored = .notMonitored → e.myList = []

/-- Taking `pid` off the list does not stop the monitoring of another pid. -/
def MyTable.CountOk (e : MyTable α) (pid : ℤ) : Prop :=
  e.monitored = .somePids → pid ∈ e.myList → e.listcount = 1 → e.myList = [pid]

instance (e : MyTable α) (pid : ℤ) : Decidable (e.CountOk pid) :=
  inferInstanceAs (Decidable (_ → _ → _ → _))

theorem MyTable.Tidy.watched_eq {e : MyTable α} (h : e.Tidy) :
    e.watched = listed (e.monitored = .allPids) e.myList := by
  ext pid
  cases hm : e.monitored with
  | notMonitored => simp [watched, logged, hm, h.empty hm]
  | somePids => simp [watched, logged, hm, checkPidMonitored]
  | allPids => simp [watched, logged, hm, checkPidMonitored]

theorem tidy_fresh (K : Kernel α) : (freshEntry K).Tidy := ⟨List.nodup_nil, fun _ => rfl⟩

theorem MyTable.tidy_destroy (e : MyTable α) : e.destroy.Tidy := ⟨List.nodup_nil, fun _ => rfl⟩

theorem MyTable.watched_destroy (e : MyTable α) : e.destroy.watched = ∅ := by
  rw [e.tidy_destroy.watched_eq]
  exact listed_false_nil

theorem MyTable.Tidy.addCount {e : MyTable α} (h : e.Tidy) (n : BitVec 32) : (e.addCount n).Tidy :=
  ⟨h.nodup, h.empty⟩

theorem MyTable.watched_addCount (e : MyTable α) (n : BitVec 32) :
    (e.addCount n).watched = e.watched := rfl

theorem MyTable.Tidy.addPid {e : MyTable α} (h : e.Tidy) {pid : ℤ} (hpid : pid ∉ e.myList)
    (hm : e.monitored ≠ .notMonitored) :
    (e.addPid pid).Tidy ∧ (e.addPid pid).watched =
      if e.monitored = .allPids then e.watched \ {pid} else insert pid e.watched := by
  have htidy : (e.addPid pid).Tidy :=
    ⟨List.nodup_cons.mpr ⟨hpid, h.nodup⟩, fun hm' => (hm hm').elim⟩
  refine ⟨htidy, ?_⟩
  rw [htidy.watched_eq, h.watched_eq]
  by_cases hall : e.monitored = .allPids
  · simp only [MyTable.addPid, hall, if_true, decide_true]
    exact listed_true_cons e.myList pid
  · simp only [MyTable.addPid, hall, if_false, decide_false]
    exact listed_false_cons e.myList pid

theorem MyTable.Tidy.addFirst {e : MyTable α} (h : e.Tidy) (pid : ℤ)
    (hm : e.monitored = .notMonitored) :
    ((e.addPid pid).setMonitored .somePids).Tidy ∧
      ((e.addPid pid).setMonitored .somePids).watched = insert pid e.watched := by
  have hempty := h.empty hm
  have htidy : ((e.addPid pid).setMonitored .somePids).Tidy :=
    ⟨by simp [MyTable.addPid, MyTable.setMonitored, hempty], fun hm' => nomatch hm'⟩
  refine ⟨htidy, ?_⟩
  rw [htidy.watched_eq, h.watched_eq, hm]
  exact listed_false_cons e.myList pid

theorem MyTable.Tidy.unlink {e : MyTable α} (h : e.Tidy) {pid : ℤ} (hpid : pid ∈ e.myList)
    (hok : e.CountOk pid) :
    (e.unlink pid).Tidy ∧ (e.unlink pid).watched =
      if e.monitored = .allPids then insert pid e.watched else e.watched \ {pid} := by
  have htidy : (e.unlink pid).Tidy := by
    refine ⟨h.nodup.erase pid, fun hm => ?_⟩
    simp only [MyTable.unlink] at hm ⊢
    split at hm
    · next hzero =>
        have hone : e.listcount = 1 := by
          have hsub := hzero.1
          bv_omega
        simp [hok hzero.2 hpid hone]
    · rw [h.empty hm]
      rfl
  refine ⟨htidy, ?_⟩
  rw [htidy.watched_eq, h.watched_eq]
  have hall : (e.unlink pid).monitored = .allPids ↔ e.monitored = .allPids := by
    simp only [MyTable.unlink]
    split
    · next hzero => simp [hzero.2]
    · rfl
  by_cases hm : e.monitored = .allPids
  · simp only [hall, hm, if_true, decide_true]
    exact listed_true_erase h.nodup pid
  · simp only [hall, hm, if_false, decide_false]
    exact listed_false_erase h.nodup pid

/-! ## Commands -/

/-- The caller may ask for the existing process `pid`. -/
def Current.Permits (c : Current) (pid : ℤ) : Prop :=
  c.owner pid ≠ none ∧ (c.uid = 0 ∨ c.owner pid = c.owner c.pid)

/-- What a command on syscall `s` answers and does, in terms of the sets of
monitored pids. -/
structure Refines (m : Module α) (c : Current) (cmd : ℤ) (s : ℕ) (pid : ℤ) (r : ℤ × Module α) :
    Prop where
  start : cmd = requestStartMonitoring → 0 < pid → (m.table s).intercepted = true →
    c.Permits pid → (r.1 = -ebusy ↔ pid ∈ m.watched s) ∧
      (pid ∉ m.watched s →
        r.1 = 0 ∧ r.2.watched s = insert pid (m.watched s) ∨ r.1 = -enomem ∧ c.memory = false)
  stop : cmd = requestStopMonitoring → 0 < pid → (m.table s).intercepted = true →
    c.Permits pid → (r.1 = -einval ↔ pid ∉ m.watched s) ∧
      (pid ∈ m.watched s →
        r.1 = 0 ∧ r.2.watched s = m.watched s \ {pid} ∨ r.1 = -enomem ∧ c.memory = false)
  others : cmd = requestStartMonitoring ∨ cmd = requestStopMonitoring → 0 < pid →
    ∀ q ≠ pid, q ∈ r.2.watched s ↔ q ∈ m.watched s
  frame : ∀ t ≠ s, r.2.watched t = m.watched t
  startAll : cmd = requestStartMonitoring → pid = 0 → r.1 = 0 → r.2.watched s = Set.univ
  stopAll : cmd = requestStopMonitoring ∧ pid = 0 ∨ cmd = requestSyscallRelease → r.1 = 0 →
    r.2.watched s = ∅
  refused : r.1 < 0 → r.2 = m

theorem watched_setEntry (m : Module α) (s t : ℕ) (g : MyTable α → MyTable α) :
    (m.setEntry s g).watched t = if t = s then (g (m.table s)).watched else m.watched t := by
  unfold Module.watched Module.setEntry
  by_cases ht : t = s
  · simp [ht]
  · simp [ht]

/-- A command that fails before it looks at the list. -/
theorem Refines.of_denied {m : Module α} {c : Current} {cmd pid ret : ℤ} {s : ℕ} (hret : ret < 0)
    (hdenied : cmd = requestStartMonitoring ∨ cmd = requestStopMonitoring → 0 < pid →
      (m.table s).intercepted = true → ¬ c.Permits pid) : Refines m c cmd s pid (ret, m) where
  start hcmd hpid hint hperm := (hdenied (Or.inl hcmd) hpid hint hperm).elim
  stop hcmd hpid hint hperm := (hdenied (Or.inr hcmd) hpid hint hperm).elim
  others _ _ _ _ := Iff.rfl
  frame _ _ := rfl
  startAll _ _ hzero := by omega
  stopAll _ hzero := by omega
  refused _ := rfl

/-- An answer to the wish that `pid` be logged, respectively not logged. -/
inductive Sets (c : Current) (m : Module α) (s : ℕ) (pid : ℤ) (wish : Bool) (already : ℤ) :
    ℤ × Module α → Prop
  | already (h : pid ∈ m.watched s ↔ wish = true) : Sets c m s pid wish already (already, m)
  | noMemory (h : ¬ (pid ∈ m.watched s ↔ wish = true)) (hmem : c.memory = false) :
      Sets c m s pid wish already (-enomem, m)
  | done (h : ¬ (pid ∈ m.watched s ↔ wish = true)) (g : MyTable α → MyTable α)
      (htidy : (g (m.table s)).Tidy)
      (hg : (g (m.table s)).watched =
        if wish then insert pid (m.watched s) else m.watched s \ {pid}) :
      Sets c m s pid wish already (0, m.setEntry s g)

theorem Refines.of_start {m : Module α} {c : Current} {pid : ℤ} {s : ℕ} {r : ℤ × Module α}
    (hpid : 0 < pid) (hsets : Sets c m s pid true (-ebusy) r) :
    Refines m c requestStartMonitoring s pid r := by
  have hstop : ¬ (requestStartMonitoring = requestStopMonitoring ∧ pid = 0 ∨
      requestStartMonitoring = requestSyscallRelease) := by
    rintro (⟨hcmd, -⟩ | hcmd) <;> revert hcmd <;> decide
  have hnomem : -enomem ≠ -ebusy := by decide
  have hdone : 0 ≠ -ebusy := by decide
  cases hsets with
  | already h =>
      refine ⟨fun _ _ _ _ => ⟨iff_of_true rfl (h.mpr rfl), fun hnot => (hnot (h.mpr rfl)).elim⟩,
        fun hcmd => absurd hcmd (by decide), fun _ _ _ _ => Iff.rfl, fun _ _ => rfl,
        fun _ hzero => absurd hzero (ne_of_gt hpid), fun hcmd => absurd hcmd hstop, fun _ => rfl⟩
  | noMemory h hmem =>
      have hlogged : pid ∉ m.watched s := fun hin => h (iff_of_true hin rfl)
      refine ⟨fun _ _ _ _ => ⟨iff_of_false hnomem hlogged, fun _ => Or.inr ⟨rfl, hmem⟩⟩,
        fun hcmd => absurd hcmd (by decide), fun _ _ _ _ => Iff.rfl, fun _ _ => rfl,
        fun _ hzero => absurd hzero (ne_of_gt hpid), fun hcmd => absurd hcmd hstop, fun _ => rfl⟩
  | done h g _ hg =>
      have hlogged : pid ∉ m.watched s := fun hin => h (iff_of_true hin rfl)
      have hset : (m.setEntry s g).watched s = insert pid (m.watched s) := by
        rw [watched_setEntry, if_pos rfl, hg, if_pos rfl]
      refine ⟨fun _ _ _ _ => ⟨iff_of_false hdone hlogged, fun _ => Or.inl ⟨rfl, hset⟩⟩,
        fun hcmd => absurd hcmd (by decide), fun _ _ q hq => ?_, fun t ht => ?_,
        fun _ hzero => absurd hzero (ne_of_gt hpid), fun hcmd => absurd hcmd hstop,
        fun hret => absurd hret (lt_irrefl 0)⟩
      · rw [hset, Set.mem_insert_iff, or_iff_right hq]
      · rw [watched_setEntry, if_neg ht]

theorem Refines.of_stop {m : Module α} {c : Current} {pid : ℤ} {s : ℕ} {r : ℤ × Module α}
    (hpid : 0 < pid) (hsets : Sets c m s pid false (-einval) r) :
    Refines m c requestStopMonitoring s pid r := by
  have hstop : ¬ (requestStopMonitoring = requestStopMonitoring ∧ pid = 0 ∨
      requestStopMonitoring = requestSyscallRelease) := by
    rintro (⟨-, hzero⟩ | hcmd)
    · omega
    · exact absurd hcmd (by decide)
  have hnomem : -enomem ≠ -einval := by decide
  have hdone : 0 ≠ -einval := by decide
  cases hsets with
  | already h =>
      have hlogged : pid ∉ m.watched s := fun hin => absurd (h.mp hin) (by decide)
      refine ⟨fun hcmd => absurd hcmd (by decide), fun _ _ _ _ => ⟨iff_of_true rfl hlogged,
        fun hin => (hlogged hin).elim⟩, fun _ _ _ _ => Iff.rfl, fun _ _ => rfl,
        fun _ hzero => absurd hzero (ne_of_gt hpid), fun hcmd => absurd hcmd hstop, fun _ => rfl⟩
  | noMemory h hmem =>
      have hlogged : pid ∈ m.watched s := by
        by_contra hnot
        exact h (iff_of_false hnot (by decide))
      refine ⟨fun hcmd => absurd hcmd (by decide), fun _ _ _ _ => ⟨iff_of_false hnomem
        (not_not.mpr hlogged), fun _ => Or.inr ⟨rfl, hmem⟩⟩, fun _ _ _ _ => Iff.rfl,
        fun _ _ => rfl, fun _ hzero => absurd hzero (ne_of_gt hpid),
        fun hcmd => absurd hcmd hstop, fun _ => rfl⟩
  | done h g _ hg =>
      have hlogged : pid ∈ m.watched s := by
        by_contra hnot
        exact h (iff_of_false hnot (by decide))
      have hset : (m.setEntry s g).watched s = m.watched s \ {pid} := by
        rw [watched_setEntry, if_pos rfl, hg, if_neg (by decide)]
      refine ⟨fun hcmd => absurd hcmd (by decide), fun _ _ _ _ => ⟨iff_of_false hdone
        (not_not.mpr hlogged), fun _ => Or.inl ⟨rfl, hset⟩⟩, fun _ _ q hq => ?_, fun t ht => ?_,
        fun _ hzero => absurd hzero (ne_of_gt hpid), fun hcmd => absurd hcmd hstop,
        fun hret => absurd hret (lt_irrefl 0)⟩
      · rw [hset, Set.mem_sdiff, Set.mem_singleton_iff, and_iff_left hq]
      · rw [watched_setEntry, if_neg ht]

theorem checkPidMonitored_iff (e : MyTable α) (pid : ℤ) :
    e.checkPidMonitored pid = true ↔ pid ∈ e.myList := by
  simp [MyTable.checkPidMonitored]

/-- While the flag is on, the list decides. -/
theorem MyTable.Tidy.mem_watched_iff {e : MyTable α} (h : e.Tidy) (pid : ℤ) :
    pid ∈ e.watched ↔ (pid ∈ e.myList ↔ e.monitored ≠ .allPids) := by
  rw [h.watched_eq]
  by_cases hm : e.monitored = .allPids <;> simp [hm]

/-- Putting a pid on the list, under either reading of the list. -/
theorem listPid_sets {c : Current} {m : Module α} {s : ℕ} {pid : ℤ} (htidy : (m.table s).Tidy)
    {finish : MyTable α → MyTable α} {wish : Bool} (hpid : pid ∉ (m.table s).myList)
    (hfinish : (finish (((m.table s).addPid pid).addCount 1)).Tidy ∧
      (finish (((m.table s).addPid pid).addCount 1)).watched =
        if wish then insert pid (m.watched s) else m.watched s \ {pid})
    (hwish : wish = true ↔ (m.table s).monitored ≠ .allPids) (already : ℤ) :
    Sets c m s pid wish already (listPid c m pid s finish) := by
  have hnot : ¬ (pid ∈ m.watched s ↔ wish = true) := by
    rw [Module.watched, htidy.mem_watched_iff, hwish]
    tauto
  unfold listPid addPidSysc
  cases hmem : c.memory with
  | false => exact .noMemory hnot hmem
  | true =>
      have heq : (m.setEntry s fun e => e.addPid pid).setEntry s
          (fun e => finish (e.addCount 1)) =
          m.setEntry s fun e => finish ((e.addPid pid).addCount 1) := by
        simp [Module.setEntry]
      simp only [Bool.true_eq_false, if_false, ne_eq, not_true_eq_false, heq]
      exact .done hnot _ hfinish.1 hfinish.2

/-- Taking a pid off the list, under either reading of the list. -/
theorem unlistPid_sets {c : Current} {m : Module α} {s : ℕ} {pid : ℤ} (htidy : (m.table s).Tidy)
    {wish : Bool} (hpid : pid ∈ (m.table s).myList) (hok : (m.table s).CountOk pid)
    (hwish : wish = true ↔ (m.table s).monitored = .allPids) (already : ℤ) :
    Sets c m s pid wish already (unlistPid m pid s) := by
  have hnot : ¬ (pid ∈ m.watched s ↔ wish = true) := by
    rw [Module.watched, htidy.mem_watched_iff, hwish]
    tauto
  have heq : unlistPid m pid s = (0, m.setEntry s fun e => (e.unlink pid).addCount (-1)) := by
    unfold unlistPid delPidSysc
    simp [hpid, Module.setEntry]
  obtain ⟨hunlink, hwatched⟩ := htidy.unlink hpid hok
  rw [heq]
  refine .done hnot _ (hunlink.addCount (-1)) ?_
  rw [MyTable.watched_addCount, hwatched]
  by_cases hm : (m.table s).monitored = .allPids
  · rw [if_pos hm, if_pos (hwish.mpr hm)]
    rfl
  · rw [if_neg hm, if_neg fun h => hm (hwish.mp h)]
    rfl

/-- What a caller without permission gets to see, if the process exists. -/
theorem permits_iff (c : Current) (pid : ℤ) :
    c.Permits pid ↔ c.owner pid ≠ none ∧ ¬ (c.uid ≠ 0 ∧ checkPidFromList c pid c.pid ≠ 0) := by
  unfold Current.Permits checkPidFromList
  by_cases howner : c.owner pid = c.owner c.pid
  · simp [howner]
  · have heperm : -eperm ≠ 0 := by decide
    simp [howner, heperm]

/-- The part of `START_MONITORING` behind the checks of its arguments. -/
theorem start_sets (c : Current) (m : Module α) (s : ℕ) (pid : ℤ) (htidy : (m.table s).Tidy) :
    Sets c m s pid true (-ebusy) (match (m.table s).monitored with
      | .allPids =>
          if (m.table s).checkPidMonitored pid = false then (-ebusy, m) else unlistPid m pid s
      | .somePids =>
          if (m.table s).checkPidMonitored pid = true then (-ebusy, m) else listPid c m pid s id
      | .notMonitored => listPid c m pid s fun e => e.setMonitored .somePids) := by
  have hmem := htidy.mem_watched_iff pid
  cases hm : (m.table s).monitored with
  | allPids =>
      simp only
      by_cases hlist : pid ∈ (m.table s).myList
      · rw [if_neg (by simpa [MyTable.checkPidMonitored] using hlist)]
        exact unlistPid_sets htidy hlist (fun hm' => absurd (hm.symm.trans hm') (by decide))
          (iff_of_true rfl hm) _
      · rw [if_pos (by simpa [MyTable.checkPidMonitored] using hlist)]
        exact .already (iff_of_true (hmem.mpr (by simp [hlist, hm])) rfl)
  | somePids =>
      simp only
      by_cases hlist : pid ∈ (m.table s).myList
      · rw [if_pos (by simpa [MyTable.checkPidMonitored] using hlist)]
        exact .already (iff_of_true (hmem.mpr (by simp [hlist, hm])) rfl)
      · rw [if_neg (by simpa [MyTable.checkPidMonitored] using hlist)]
        obtain ⟨hadd, hwatched⟩ := htidy.addPid hlist (by simp [hm])
        refine listPid_sets htidy hlist ⟨hadd.addCount 1, ?_⟩ (by simp [hm]) _
        rw [id, MyTable.watched_addCount, hwatched, hm]
        rfl
  | notMonitored =>
      have hlist : pid ∉ (m.table s).myList := by simp [htidy.empty hm]
      obtain ⟨hadd, hwatched⟩ := htidy.addFirst pid hm
      exact listPid_sets htidy hlist ⟨hadd.addCount 1, hwatched⟩ (by simp [hm]) _

/-- The part of `STOP_MONITORING` behind the checks of its arguments. -/
theorem stop_sets (c : Current) (m : Module α) (s : ℕ) (pid : ℤ) (htidy : (m.table s).Tidy)
    (hok : (m.table s).CountOk pid) :
    Sets c m s pid false (-einval) (match (m.table s).monitored with
      | .notMonitored => (-einval, m)
      | .somePids =>
          if (m.table s).checkPidMonitored pid = false then (-einval, m) else unlistPid m pid s
      | .allPids =>
          if (m.table s).checkPidMonitored pid = true then (-einval, m)
          else listPid c m pid s id) := by
  have hmem := htidy.mem_watched_iff pid
  have hnot : pid ∉ (m.table s).watched → (pid ∈ m.watched s ↔ false = true) := fun h =>
    iff_of_false h (by decide)
  cases hm : (m.table s).monitored with
  | notMonitored =>
      refine .already (hnot fun hin => ?_)
      simpa [hm, htidy.empty hm] using hmem.mp hin
  | somePids =>
      simp only
      by_cases hlist : pid ∈ (m.table s).myList
      · rw [if_neg (by simpa [MyTable.checkPidMonitored] using hlist)]
        exact unlistPid_sets htidy hlist hok (by simp [hm]) _
      · rw [if_pos (by simpa [MyTable.checkPidMonitored] using hlist)]
        exact .already (hnot fun hin => by simpa [hm, hlist] using hmem.mp hin)
  | allPids =>
      simp only
      by_cases hlist : pid ∈ (m.table s).myList
      · rw [if_pos (by simpa [MyTable.checkPidMonitored] using hlist)]
        exact .already (hnot fun hin => by simpa [hm, hlist] using hmem.mp hin)
      · rw [if_neg (by simpa [MyTable.checkPidMonitored] using hlist)]
        obtain ⟨hadd, hwatched⟩ := htidy.addPid hlist (by simp [hm])
        refine listPid_sets htidy hlist ⟨hadd.addCount 1, ?_⟩ (by simp [hm]) _
        rw [id, MyTable.watched_addCount, hwatched, hm]
        rfl

def Module.Tidy (m : Module α) : Prop := ∀ s, (m.table s).Tidy

theorem Module.Tidy.setEntry {m : Module α} (h : m.Tidy) {s : ℕ} {g : MyTable α → MyTable α}
    (hg : (g (m.table s)).Tidy) : (m.setEntry s g).Tidy := by
  intro t
  by_cases ht : t = s
  · simpa [Module.setEntry, ht] using hg
  · simpa [Module.setEntry, ht] using h t

theorem Module.Tidy.setHandler {m : Module α} (h : m.Tidy) (i : ℕ) (handler : α) :
    (m.setHandler i handler).Tidy := h

theorem Sets.tidy {c : Current} {m : Module α} {s : ℕ} {pid : ℤ} {wish : Bool} {already : ℤ}
    {r : ℤ × Module α} (hsets : Sets c m s pid wish already r) (h : m.Tidy) : r.2.Tidy := by
  cases hsets with
  | already => exact h
  | noMemory => exact h
  | done _ g htidy _ => exact h.setEntry htidy

theorem startMonitoring_refines (c : Current) (m : Module α) (s : ℕ) (pid : ℤ) (h : m.Tidy) :
    Refines m c requestStartMonitoring s pid (startMonitoring c m s pid) ∧
      (startMonitoring c m s pid).2.Tidy := by
  unfold startMonitoring
  by_cases hint : (m.table s).intercepted = false
  · rw [if_pos hint]
    exact ⟨.of_denied (by decide) fun _ _ hint' => absurd (hint.symm.trans hint') (by decide), h⟩
  rw [if_neg hint]
  by_cases hzero : pid = 0
  · rw [if_pos hzero]
    have hdenied : ∀ ret < 0, Refines m c requestStartMonitoring s pid (ret, m) :=
      fun ret hret => .of_denied hret fun _ hpid => absurd hzero (ne_of_gt hpid)
    split_ifs
    · exact ⟨hdenied _ (by decide), h⟩
    · exact ⟨hdenied _ (by decide), h⟩
    have hall : ((m.table s).destroy.setMonitored .allPids).Tidy :=
      ⟨List.nodup_nil, fun hm => nomatch hm⟩
    have heq : (destroyList m s).setEntry s (fun e => e.setMonitored .allPids) =
        m.setEntry s fun e => e.destroy.setMonitored .allPids := by
      simp [destroyList, Module.setEntry]
    rw [heq]
    have hset : (m.setEntry s fun e => e.destroy.setMonitored .allPids).watched s = Set.univ := by
      rw [watched_setEntry, if_pos rfl, hall.watched_eq]
      exact listed_true_nil
    have hsetTidy : (m.setEntry s fun e => e.destroy.setMonitored .allPids).Tidy :=
      h.setEntry hall
    exact ⟨⟨fun _ hpid => absurd hzero (ne_of_gt hpid), fun hcmd => absurd hcmd (by decide),
      fun _ hpid => absurd hzero (ne_of_gt hpid), fun t ht => by rw [watched_setEntry, if_neg ht],
      fun _ _ _ => hset, fun hcmd => absurd hcmd (by simp [requestStartMonitoring,
        requestStopMonitoring, requestSyscallRelease]), fun hret => absurd hret (lt_irrefl 0)⟩,
      hsetTidy⟩
  rw [if_neg hzero]
  by_cases hexists : pid < 0 ∨ c.owner pid = none
  · rw [if_pos hexists]
    refine ⟨.of_denied (by decide) fun _ hpid _ hperm => ?_, h⟩
    exact hperm.1 (hexists.resolve_left (not_lt_of_gt hpid))
  rw [if_neg hexists]
  by_cases hperm : c.uid ≠ 0 ∧ checkPidFromList c pid c.pid ≠ 0
  · rw [if_pos hperm]
    exact ⟨.of_denied (by decide) fun _ _ _ hpermits => ((permits_iff c pid).mp hpermits).2 hperm, h⟩
  rw [if_neg hperm]
  have hsets := start_sets c m s pid (h s)
  exact ⟨.of_start (by omega) hsets, hsets.tidy h⟩

theorem stopMonitoring_refines (c : Current) (m : Module α) (s : ℕ) (pid : ℤ) (h : m.Tidy)
    (hok : (m.table s).intercepted = true → 0 < pid → c.Permits pid → (m.table s).CountOk pid) :
    Refines m c requestStopMonitoring s pid (stopMonitoring c m s pid) ∧
      (stopMonitoring c m s pid).2.Tidy := by
  unfold stopMonitoring
  by_cases hint : (m.table s).intercepted = false
  · rw [if_pos hint]
    exact ⟨.of_denied (by decide) fun _ _ hint' => absurd (hint.symm.trans hint') (by decide), h⟩
  rw [if_neg hint]
  by_cases hzero : pid = 0
  · rw [if_pos hzero]
    have hdenied : ∀ ret < 0, Refines m c requestStopMonitoring s pid (ret, m) :=
      fun ret hret => .of_denied hret fun _ hpid => absurd hzero (ne_of_gt hpid)
    split_ifs
    · exact ⟨hdenied _ (by decide), h⟩
    · exact ⟨hdenied _ (by decide), h⟩
    have hset : (destroyList m s).watched s = ∅ := by
      rw [destroyList, watched_setEntry, if_pos rfl, MyTable.watched_destroy]
    exact ⟨⟨fun hcmd => absurd hcmd (by decide), fun _ hpid => absurd hzero (ne_of_gt hpid),
      fun _ hpid => absurd hzero (ne_of_gt hpid),
      fun t ht => by rw [destroyList, watched_setEntry, if_neg ht],
      fun hcmd => absurd hcmd (by decide), fun _ _ => hset,
      fun hret => absurd hret (lt_irrefl 0)⟩, h.setEntry (MyTable.tidy_destroy _)⟩
  rw [if_neg hzero]
  by_cases hexists : pid < 0 ∨ c.owner pid = none
  · rw [if_pos hexists]
    refine ⟨.of_denied (by decide) fun _ hpid _ hperm => ?_, h⟩
    exact hperm.1 (hexists.resolve_left (not_lt_of_gt hpid))
  rw [if_neg hexists]
  by_cases hperm : c.uid ≠ 0 ∧ checkPidFromList c pid c.pid ≠ 0
  · rw [if_pos hperm]
    exact ⟨.of_denied (by decide) fun _ _ _ hpermits => ((permits_iff c pid).mp hpermits).2 hperm, h⟩
  rw [if_neg hperm]
  obtain ⟨hneg, hsome⟩ := not_or.mp hexists
  have hpid : 0 < pid := lt_of_le_of_ne (not_lt.mp hneg) (Ne.symm hzero)
  have hcount := hok (Bool.eq_true_of_not_eq_false hint) hpid
    ((permits_iff c pid).mpr ⟨hsome, hperm⟩)
  have hsets := stop_sets c m s pid (h s) hcount
  exact ⟨.of_stop hpid hsets, hsets.tidy h⟩

theorem Refines.of_other {m m' : Module α} {c : Current} {cmd pid : ℤ} {s : ℕ}
    (hstart : cmd ≠ requestStartMonitoring) (hstop : cmd ≠ requestStopMonitoring)
    (hframe : ∀ t ≠ s, m'.watched t = m.watched t)
    (hrelease : cmd = requestSyscallRelease → m'.watched s = ∅) :
    Refines m c cmd s pid (0, m') where
  start hcmd := absurd hcmd hstart
  stop hcmd := absurd hcmd hstop
  others hcmd := (hcmd.elim hstart hstop).elim
  frame := hframe
  startAll hcmd := absurd hcmd hstart
  stopAll hcmd _ := hrelease (hcmd.resolve_left fun h => hstop h.1)
  refused hret := absurd hret (lt_irrefl 0)

theorem requestIntercept_refines (K : Kernel α) (c : Current) (m : Module α) (s : ℕ) (pid : ℤ)
    (h : m.Tidy) :
    Refines m c requestSyscallIntercept s pid (requestIntercept K c m s) ∧
      (requestIntercept K c m s).2.Tidy := by
  have hcmd : ¬ (requestSyscallIntercept = requestStartMonitoring ∨
      requestSyscallIntercept = requestStopMonitoring) := by decide
  unfold requestIntercept
  split_ifs
  · exact ⟨.of_denied (by decide) fun hcmd' => absurd hcmd' hcmd, h⟩
  · exact ⟨.of_denied (by decide) fun hcmd' => absurd hcmd' hcmd, h⟩
  have heq : ((m.setEntry s fun e => { e with f := m.sysCallTable s }).setHandler s
      K.interceptor).setEntry s (fun e => { e with intercepted := true }) =
      (m.setHandler s K.interceptor).setEntry s fun e =>
        { e with
          f := m.sysCallTable s
          intercepted := true } := by
    simp [Module.setEntry, Module.setHandler]
  simp only [heq]
  refine ⟨.of_other (by decide) (by decide) (fun t ht => ?_) (fun hcmd => absurd hcmd (by decide)),
    ?_⟩
  · rw [watched_setEntry, if_neg ht]
    rfl
  · exact (h.setHandler s K.interceptor).setEntry ⟨(h s).nodup, (h s).empty⟩

theorem requestRelease_refines (c : Current) (m : Module α) (s : ℕ) (pid : ℤ) (h : m.Tidy) :
    Refines m c requestSyscallRelease s pid (requestRelease c m s) ∧
      (requestRelease c m s).2.Tidy := by
  have hcmd : ¬ (requestSyscallRelease = requestStartMonitoring ∨
      requestSyscallRelease = requestStopMonitoring) := by decide
  unfold requestRelease
  split_ifs
  · exact ⟨.of_denied (by decide) fun hcmd' => absurd hcmd' hcmd, h⟩
  · exact ⟨.of_denied (by decide) fun hcmd' => absurd hcmd' hcmd, h⟩
  have heq : ((destroyList ((m.setHandler s (m.table s).f).setEntry s fun e =>
      e.setMonitored .notMonitored) s).setEntry s fun e => { e with intercepted := false }) =
      (m.setHandler s (m.table s).f).setEntry s fun e =>
        { e.destroy with intercepted := false } := by
    simp [Module.setEntry, destroyList, MyTable.destroy, MyTable.setMonitored]
  simp only [heq]
  refine ⟨.of_other (by decide) (by decide) (fun t ht => ?_) (fun _ => ?_), ?_⟩
  · rw [watched_setEntry, if_neg ht]
    rfl
  · rw [watched_setEntry, if_pos rfl]
    exact (m.table s).watched_destroy
  · exact (h.setHandler s (m.table s).f).setEntry ⟨List.nodup_nil, fun _ => rfl⟩

theorem mySyscall_of_le (K : Kernel α) (c : Current) (m : Module α) (cmd : ℤ) {s : ℕ} (pid : ℤ)
    (hs : 1 ≤ s ∧ s ≤ K.nrSyscalls) :
    mySyscall K c m cmd s pid =
      if cmd = requestSyscallIntercept then requestIntercept K c m s
      else if cmd = requestSyscallRelease then requestRelease c m s
      else if cmd = requestStartMonitoring then startMonitoring c m s pid
      else if cmd = requestStopMonitoring then stopMonitoring c m s pid
      else (-einval, m) := by
  have hrange : ¬ ((s : ℤ) < 0 ∨ (s : ℤ) > K.nrSyscalls ∨ (s : ℤ) = myCustomSyscall) := by
    rw [myCustomSyscall]
    omega
  rw [mySyscall, if_neg hrange, Int.toNat_natCast]

theorem mySyscall_start (K : Kernel α) (c : Current) (m : Module α) {s : ℕ} (pid : ℤ)
    (hs : 1 ≤ s ∧ s ≤ K.nrSyscalls) :
    mySyscall K c m requestStartMonitoring s pid = startMonitoring c m s pid := by
  rw [mySyscall_of_le K c m _ pid hs, if_neg (by decide), if_neg (by decide), if_pos rfl]

theorem mySyscall_stop (K : Kernel α) (c : Current) (m : Module α) {s : ℕ} (pid : ℤ)
    (hs : 1 ≤ s ∧ s ≤ K.nrSyscalls) :
    mySyscall K c m requestStopMonitoring s pid = stopMonitoring c m s pid := by
  rw [mySyscall_of_le K c m _ pid hs, if_neg (by decide), if_neg (by decide),
    if_neg (by decide), if_pos rfl]

theorem mySyscall_refines (K : Kernel α) (c : Current) (m : Module α) (cmd : ℤ) {s : ℕ}
    (pid : ℤ) (hs : 1 ≤ s ∧ s ≤ K.nrSyscalls) (h : m.Tidy)
    (hok : cmd = requestStopMonitoring → (m.table s).intercepted = true → 0 < pid →
      c.Permits pid → (m.table s).CountOk pid) :
    Refines m c cmd s pid (mySyscall K c m cmd s pid) ∧ (mySyscall K c m cmd s pid).2.Tidy := by
  rw [mySyscall_of_le K c m cmd pid hs]
  split_ifs with hint hrel hstart hstop
  · exact hint ▸ requestIntercept_refines K c m s pid h
  · exact hrel ▸ requestRelease_refines c m s pid h
  · exact hstart ▸ startMonitoring_refines c m s pid h
  · exact hstop ▸ stopMonitoring_refines c m s pid h (hok hstop)
  · exact ⟨.of_denied (by decide) fun hcmd => (hcmd.elim hstart hstop).elim, h⟩

/-! ## Runs -/

theorem MyTable.purge_eq {e : MyTable α} (h : e.myList.Nodup) (pid : ℤ) :
    e.purge pid = if pid ∈ e.myList then e.unlink pid else e := by
  have hfold : ∀ (nodes : List ℤ) (e : MyTable α), nodes.Nodup →
      nodes.foldl (fun e node => if node = pid then e.unlink pid else e) e =
        if pid ∈ nodes then e.unlink pid else e := by
    intro nodes
    induction nodes with
    | nil => exact fun e _ => rfl
    | cons node nodes ih =>
        intro e hnodes
        obtain ⟨hnode, hnodes⟩ := List.nodup_cons.mp hnodes
        rw [List.foldl_cons, ih _ hnodes]
        by_cases heq : node = pid
        · subst heq
          simp [hnode]
        · simp [heq, Ne.symm heq]
  exact hfold e.myList e h

theorem MyTable.Tidy.purge {e : MyTable α} (h : e.Tidy) {pid : ℤ} (hok : e.CountOk pid) :
    (e.purge pid).Tidy := by
  rw [MyTable.purge_eq h.nodup]
  split
  · exact (h.unlink ‹_› hok).1
  · exact h

/-- The event takes a pid off a list whose counter reads one although others are on it. -/
def Event.Miscounts (K : Kernel α) (m : Module α) : Event → Prop
  | .command c cmd syscall pid =>
      cmd = requestStopMonitoring ∧ ∃ s : ℕ, syscall = s ∧ 1 ≤ s ∧ s ≤ K.nrSyscalls ∧
        (m.table s).intercepted = true ∧ 0 < pid ∧ c.Permits pid ∧ ¬ (m.table s).CountOk pid
  | .exit pid => ∃ s, 1 ≤ s ∧ s < K.nrSyscalls ∧ ¬ (m.table s).CountOk pid

def CountedRun (K : Kernel α) (m : Module α) : List Event → Prop
  | [] => True
  | e :: events => ¬ e.Miscounts K m ∧ CountedRun K (step K m e) events

theorem step_tidy (K : Kernel α) {m : Module α} (h : m.Tidy) {e : Event}
    (hok : ¬ e.Miscounts K m) : (step K m e).Tidy := by
  cases e with
  | command c cmd syscall pid =>
      by_cases hrange : syscall < 0 ∨ syscall > K.nrSyscalls ∨ syscall = myCustomSyscall
      · simpa [step, mySyscall, hrange] using h
      · obtain ⟨s, rfl, hs⟩ : ∃ s : ℕ, syscall = s ∧ 1 ≤ s ∧ s ≤ K.nrSyscalls :=
          ⟨syscall.toNat, by simp only [myCustomSyscall] at hrange; omega⟩
        exact (mySyscall_refines K c m cmd pid hs h
          fun hstop hint hpid hperm => not_not.mp fun hcount =>
            hok ⟨hstop, s, rfl, hs.1, hs.2, hint, hpid, hperm, hcount⟩).2
  | exit pid =>
      intro s
      simp only [step, delPid]
      split
      · next hs =>
          exact (h s).purge (not_not.mp fun hcount => hok ⟨s, hs.1, hs.2, hcount⟩)
      · exact h s

theorem run_tidy (K : Kernel α) (events : List Event) {m : Module α} (h : m.Tidy)
    (hok : CountedRun K m events) : (run K m events).Tidy := by
  induction events generalizing m with
  | nil => exact h
  | cons e events ih => exact ih (step_tidy K h hok.1) hok.2

theorem countedRun_append (K : Kernel α) (xs ys : List Event) (m : Module α) :
    CountedRun K m (xs ++ ys) ↔ CountedRun K m xs ∧ CountedRun K (run K m xs) ys := by
  induction xs generalizing m with
  | nil => simp [CountedRun, run]
  | cons e xs ih =>
      simp only [List.cons_append, CountedRun, ih, and_assoc]
      rfl

theorem tidy_init (K : Kernel α) (initial : ℕ → α) : (initFunction K initial).Tidy :=
  fun _ => tidy_fresh K

/-- In a run that never miscounts, every command acts on the sets of monitored
pids as its name says, and a refused command changes nothing. -/
theorem monitoring_refines (K : Kernel α) (initial : ℕ → α) (events : List Event) (c : Current)
    (cmd : ℤ) {s : ℕ} (pid : ℤ) (hs : 1 ≤ s ∧ s < K.nrSyscalls)
    (hok : CountedRun K (initFunction K initial) (events ++ [.command c cmd s pid])) :
    Refines (run K (initFunction K initial) events) c cmd s pid
      (mySyscall K c (run K (initFunction K initial) events) cmd s pid) := by
  obtain ⟨hevents, hlast, -⟩ := (countedRun_append K _ _ _).mp hok
  have htidy := run_tidy K events (tidy_init K initial) hevents
  have hle : s ≤ K.nrSyscalls := Nat.le_of_lt hs.2
  exact (mySyscall_refines K c _ cmd pid ⟨hs.1, hle⟩ htidy
    fun hstop hint hpid hperm => not_not.mp fun hcount =>
      hlast ⟨hstop, s, rfl, hs.1, hle, hint, hpid, hperm, hcount⟩).1

def root : Current where
  pid := 1
  uid := 0
  owner _ := some 0
  exists_self := rfl
  memory := true

/-- Monitoring of one pid is started and then stopped. -/
theorem monitoring_refines_stop :
    Refines (run i386 (initFunction i386 (fun i => 1000 + i))
        [.command root requestSyscallIntercept 5 0, .command root requestStartMonitoring 5 7])
      root requestStopMonitoring 5 7
      (mySyscall i386 root (run i386 (initFunction i386 (fun i => 1000 + i))
        [.command root requestSyscallIntercept 5 0, .command root requestStartMonitoring 5 7])
        requestStopMonitoring 5 7) := by
  refine monitoring_refines i386 _ _ root requestStopMonitoring 7 (by decide) ⟨?_, ?_, ?_, trivial⟩
  · exact fun hmis => absurd hmis.1 (by decide)
  · exact fun hmis => absurd hmis.1 (by decide)
  · rintro ⟨-, s, hs, -, -, -, -, -, hcount⟩
    obtain rfl : s = 5 := (Int.ofNat.inj hs).symm
    exact hcount (by decide)

/-! ## The counter -/

/-- A pid is listed and exits: the counter goes up by two and down by one. -/
def startAndExit (s : ℕ) (pid : ℤ) : List Event :=
  [.command root requestStartMonitoring s pid, .exit pid]

/-- An intercepted entry with these pids on a list of pids to log. -/
def whitelist (f : α) (count : ℕ) (pids : List ℤ) : MyTable α :=
  ⟨f, true, .somePids, BitVec.ofNat 32 count, pids⟩

/-- A request by root for one more pid. -/
theorem start_whitelist {K : Kernel α} {m : Module α} {s count : ℕ} {f : α} {pids : List ℤ}
    {pid : ℤ} (hs : 1 ≤ s ∧ s ≤ K.nrSyscalls) (hentry : m.table s = whitelist f count pids)
    (hpid : 0 < pid) (hnew : pid ∉ pids) :
    (step K m (.command root requestStartMonitoring s pid)).table s =
      whitelist f (count + 2) (pid :: pids) := by
  have hneg : ¬ pid < 0 := not_lt_of_gt hpid
  have hcount : BitVec.ofNat 32 count + 1#32 + 1#32 = BitVec.ofNat 32 (count + 2) := by
    rw [BitVec.ofNat_add, BitVec.add_assoc]
    rfl
  rw [step, mySyscall_start K root m pid hs]
  simp [startMonitoring, hentry, whitelist, hpid.ne', hneg, root, MyTable.checkPidMonitored, hnew,
    listPid, addPidSysc, Module.setEntry, MyTable.addPid, MyTable.addCount, hcount]

/-- The first request for a pid on an entry that was just intercepted. -/
theorem start_fresh {K : Kernel α} {m : Module α} {s : ℕ} {f : α} {pid : ℤ}
    (hs : 1 ≤ s ∧ s ≤ K.nrSyscalls) (hentry : m.table s = ⟨f, true, .notMonitored, 0, []⟩)
    (hpid : 0 < pid) :
    (step K m (.command root requestStartMonitoring s pid)).table s = whitelist f 2 [pid] := by
  have hneg : ¬ pid < 0 := not_lt_of_gt hpid
  rw [step, mySyscall_start K root m pid hs]
  simp [startMonitoring, hentry, whitelist, hpid.ne', hneg, root, listPid, addPidSysc,
    Module.setEntry, MyTable.addPid, MyTable.addCount, MyTable.setMonitored]

theorem exit_whitelist {K : Kernel α} {m : Module α} {s count : ℕ} {f : α} {pid : ℤ}
    (hs : 1 ≤ s ∧ s < K.nrSyscalls) (hentry : m.table s = whitelist f (count + 2) [pid])
    (hcount : count + 1 < 2 ^ 32) :
    (step K m (.exit pid)).table s = whitelist f (count + 1) [] := by
  have hminus : BitVec.ofNat 32 (count + 2) - 1#32 = BitVec.ofNat 32 (count + 1) := by
    bv_omega
  have hzero : BitVec.ofNat 32 (count + 1) ≠ 0#32 := by
    bv_omega
  simp only [step, delPid, hs, and_self, if_true, hentry]
  simp [whitelist, MyTable.purge, MyTable.unlink, hminus, hzero]

/-- Every pass of a pid through the list leaves one behind on the counter. -/
theorem run_startAndExit {K : Kernel α} {m : Module α} {s : ℕ} {f : α} {pid : ℤ}
    (hs : 1 ≤ s ∧ s < K.nrSyscalls) (hentry : m.table s = whitelist f 1 []) (hpid : 0 < pid)
    {n : ℕ} (hn : n + 1 < 2 ^ 32) :
    (run K m (List.replicate n (startAndExit s pid)).flatten).table s = whitelist f (n + 1) [] := by
  induction n with
  | zero => simpa [run] using hentry
  | succ n ih =>
      rw [List.replicate_succ', List.flatten_concat, run, List.foldl_append]
      have hstart := start_whitelist ⟨hs.1, Nat.le_of_lt hs.2⟩ (ih (by omega)) hpid (by simp)
      exact exit_whitelist hs hstart hn

/-- Removing a pid when the counter reads one takes all others with it. -/
theorem stop_lastCounted {K : Kernel α} {m : Module α} {c : Current} {s : ℕ} {pid : ℤ}
    (hs : 1 ≤ s ∧ s ≤ K.nrSyscalls) (hint : (m.table s).intercepted = true) (hpid : 0 < pid)
    (hperm : c.Permits pid) (hm : (m.table s).monitored = .somePids)
    (hmem : pid ∈ (m.table s).myList) (hone : (m.table s).listcount = 1) :
    (mySyscall K c m requestStopMonitoring s pid).2.watched s = ∅ := by
  have hneg : ¬ pid < 0 := not_lt_of_gt hpid
  obtain ⟨hsome, hdenied⟩ := (permits_iff c pid).mp hperm
  rw [mySyscall_stop K c m pid hs, stopMonitoring, hint, if_neg (by decide), if_neg hpid.ne',
    if_neg (not_or.mpr ⟨hneg, hsome⟩), if_neg hdenied, hm]
  ext q
  simp [MyTable.checkPidMonitored, hmem, unlistPid, delPidSysc, Module.setEntry, MyTable.unlink,
    MyTable.addCount, Module.watched, MyTable.watched, MyTable.logged, hone, hm]

/-- Pid 7 is listed and exits `n + 1` times; then pids 7 and 8 are listed. -/
def wrappingRun (n : ℕ) : List Event :=
  [.command root requestSyscallIntercept (5 : ℕ) 0] ++ startAndExit 5 7 ++
    (List.replicate n (startAndExit 5 7)).flatten ++
    [.command root requestStartMonitoring (5 : ℕ) 7, .command root requestStartMonitoring (5 : ℕ) 8]

/-- The counter wraps around to one while two pids are listed. -/
theorem wrappingRun_entry (initial : ℕ → ℕ) {n : ℕ} (hn : n + 4 = 2 ^ 32) :
    ∃ f, (run i386 (initFunction i386 initial) (wrappingRun n)).table 5 =
      whitelist f 1 [8, 7] := by
  have hs : 1 ≤ 5 ∧ 5 < i386.nrSyscalls := by decide
  have hs' : 1 ≤ 5 ∧ 5 ≤ i386.nrSyscalls := by decide
  have hseven : (0 : ℤ) < 7 := by decide
  have hintercept : (step i386 (initFunction i386 initial)
      (Event.command root requestSyscallIntercept (5 : ℕ) 0)).table 5 =
        ⟨initial 5, true, .notMonitored, 0, []⟩ := rfl
  have hfirst := exit_whitelist hs (start_fresh hs' hintercept hseven) (by decide)
  have hloop := run_startAndExit hs hfirst hseven (show n + 1 < 2 ^ 32 by omega)
  have hlast := start_whitelist hs' (start_whitelist hs' hloop hseven (by simp))
    (show (0 : ℤ) < 8 by decide) (by simp)
  have hwrap : BitVec.ofNat 32 (n + 1 + 2 + 2) = BitVec.ofNat 32 1 := by
    bv_omega
  refine ⟨initial 5, ?_⟩
  rw [whitelist, hwrap] at hlast
  rw [wrappingRun, run, List.foldl_append, List.foldl_append]
  exact hlast

/-- After `wrappingRun`, the request to stop monitoring pid 7 ends that of pid
8 as well. -/
theorem monitoring_not_refines :
    ¬ ∀ (events : List Event) (c : Current) (cmd : ℤ) (s : ℕ) (pid : ℤ),
      1 ≤ s ∧ s < i386.nrSyscalls →
        Refines (run i386 (initFunction i386 fun i => 1000 + i) events) c cmd s pid
          (mySyscall i386 c (run i386 (initFunction i386 fun i => 1000 + i) events) cmd s pid) := by
  intro hall
  obtain ⟨n, hn⟩ : ∃ n, n + 4 = 2 ^ 32 := ⟨2 ^ 32 - 4, by decide⟩
  obtain ⟨f, hentry⟩ := wrappingRun_entry (fun i => 1000 + i) hn
  have hrefines := hall (wrappingRun n) root requestStopMonitoring 5 7 (by decide)
  have hother := hrefines.others (Or.inr rfl) (by decide) 8 (by decide)
  have hpermits : root.Permits 7 := ⟨by decide, Or.inl rfl⟩
  rw [stop_lastCounted (by decide) (by rw [hentry]; rfl) (by decide) hpermits
    (by rw [hentry]; rfl) (by rw [hentry]; simp [whitelist]) (by rw [hentry]; rfl)] at hother
  apply hother.mpr
  change ((run i386 (initFunction i386 fun i => 1000 + i) (wrappingRun n)).table 5).logged 8 = true
  rw [hentry]
  rfl

end KernelProgramming.Interceptor
