import KernelProgramming.Ext2.Removal

/-!
# Removal of a subtree

The recursion of `ext2_rm -r`.  Each call removes the names below one entry and
nothing else; the paths made from the names on the disk lead to the directories
that contain them.
-/

namespace KernelProgramming.Ext2

open ByteMemory

variable {L : Layout} {d d' : Disk} {v w w' : View} {a b c i k n p q r x y : ℕ} {A as : List ℕ}
  {X : ℕ → Prop} {path name : CString} {names : List CString} {height : ℕ → ℕ}

namespace View

/-- Entry `x` is in a directory below `c`. -/
def Inside (L : Layout) (v : View) (c x : ℕ) : Prop := ∃ q, v.Below L c q ∧ v.Child L q x

/-- Entry `x` goes with the entry at `a`. -/
def Goes (L : Layout) (v : View) (a x : ℕ) : Prop :=
  x = a ∨ (v.inode (v.target a)).IsDirectory ∧ v.Inside L (v.target a) x

/-- Directories are above what they contain. -/
def Descends (L : Layout) (v : View) (height : ℕ → ℕ) : Prop :=
  ∀ k a, v.Child L k a → (v.inode (v.target a)).IsDirectory → height (v.target a) < height k

theorem inside_iff : v.Inside L c x ↔ ∃ a, v.Child L c a ∧ v.Goes L a x := by
  constructor
  · rintro ⟨q, hbelow, hchild⟩
    rcases below_iff.mp hbelow with rfl | ⟨a, ha, hdir, hq⟩
    · exact ⟨x, hchild, .inl rfl⟩
    · exact ⟨a, ha, .inr ⟨hdir, q, hq, hchild⟩⟩
  · rintro ⟨a, ha, rfl | ⟨hdir, q, hq, hchild⟩⟩
    · exact ⟨c, .refl, ha⟩
    · exact ⟨q, below_iff.mpr (.inr ⟨a, ha, hdir, hq⟩), hchild⟩

theorem Goes.child (h : v.Goes L a x) (ha : v.Child L c a) : ∃ q, v.Child L q x := by
  rcases h with rfl | ⟨-, q, -, hchild⟩
  · exact ⟨c, ha⟩
  · exact ⟨q, hchild⟩

theorem Inside.height_lt (hheight : v.Descends L height) (h : v.Inside L c x)
    (hdir : (v.inode (v.target x)).IsDirectory) : height (v.target x) < height c := by
  obtain ⟨q, hbelow, hchild⟩ := h
  exact (hheight q x hchild hdir).trans_le (hbelow.height_le hheight)

/-- What goes with one entry of a directory does not go with another one. -/
theorem Goes.unique (hc : v.Consistent L) (hh : v.Hierarchy L) (ha : v.Child L c a)
    (hb : v.Child L c b) (hx : v.Goes L a x) (hy : v.Goes L b x) : a = b := by
  obtain ⟨height, hheight⟩ := hh.descends
  have hnot : ∀ a b, v.Child L c a → v.Child L c b → (v.inode (v.target b)).IsDirectory →
      ¬ v.Inside L (v.target b) a := by
    rintro a b ha hb hdir ⟨q, hbelow, hchild⟩
    obtain rfl := hc.slot_unique hchild.isDir ha.isDir hchild.slot ha.slot
    have := hbelow.height_le hheight
    have := hheight q b hb hdir
    omega
  rcases hx with rfl | ⟨hadir, hx⟩ <;> rcases hy with rfl | ⟨hbdir, hy⟩
  · rfl
  · exact absurd hy (hnot x b ha hb hbdir)
  · exact absurd hx (hnot x a hb ha hadir)
  · obtain ⟨q, hbelow, hchild⟩ := hx
    obtain ⟨k, hbelow', hchild'⟩ := hy
    obtain rfl := hc.slot_unique hchild.isDir hchild'.isDir hchild.slot hchild'.slot
    exact Below.disjoint hc hh ha hb hadir hbdir hbelow hbelow'

theorem Route.height_le (hheight : v.Descends L height) (h : v.Route L names k as) (hr : r ∈ as) :
    (v.inode (v.target r)).IsDirectory ∧ height k ≤ height (v.target r) := by
  induction h with
  | root => exact absurd hr List.not_mem_nil
  | step h hchild hdir ih =>
      rcases List.mem_append.mp hr with hr | hr
      · obtain ⟨hrdir, hle⟩ := ih hr
        exact ⟨hrdir, (hheight _ _ hchild hdir).le.trans hle⟩
      · obtain rfl := List.mem_singleton.mp hr
        exact ⟨hdir, le_rfl⟩

/-- What is below a directory is not on the way to it. -/
theorem Route.not_inside (hh : v.Hierarchy L) (h : v.Route L names k as) (hr : r ∈ as) :
    ¬ v.Inside L k r := fun hinside => by
  obtain ⟨height, hheight⟩ := hh.descends
  obtain ⟨hdir, hle⟩ := h.height_le hheight hr
  have := hinside.height_lt hheight hdir
  omega

/-- The link count of a directory that goes may be anything. -/
theorem Pruned.setLinks (hw : v.Pruned L X A w) (hX : X k) (hdir : (v.inode k).IsDirectory)
    (l : ℕ) : v.Pruned L X A (w.setInode k { w.inode k with linksCount := l }) := by
  have hkeeps := keeps_setLinks w k l
  have hlinks : ∀ n, (w.setInode k { w.inode k with linksCount := l }).inode n = { w.inode n with
      linksCount := ((w.setInode k { w.inode k with linksCount := l }).inode n).linksCount } := by
    intro n
    by_cases hn : n = k
    · rw [hn, inode_setInode]
    · rw [inode_setInode_of_ne hn]
  have hother : ∀ n, n ≠ k → (w.setInode k { w.inode k with linksCount := l }).inode n = w.inode n :=
    fun n hn => inode_setInode_of_ne hn ..
  refine ⟨hw.toThinned.frame (fun n => (hkeeps n).mode) (fun n => (hkeeps n).block) rfl,
    hw.nodup, hw.counted, hw.inodes, hw.blocks, fun n hn => ?_, fun n hn hfile => ?_,
    fun n hn hndir hall => ?_⟩
  · rw [hlinks n, hw.kept n hn]
  · have hne : n ≠ k := fun heq => hfile (heq ▸ hdir)
    rw [hother n hne]
    exact hw.links n hn hfile
  · have hne : n ≠ k := fun heq => hn (heq ▸ hX)
    rw [hother n hne]
    exact hw.dirs n hn hndir hall

end View

/-! ## Names on the disk -/

/-- Directory `q` is below `c`, and the path to it is `n` characters longer. -/
inductive View.Deeper (L : Layout) (v : View) (c : ℕ) : ℕ → ℕ → Prop
  | refl : View.Deeper L v c c 0
  | step {q n x : ℕ} (h : View.Deeper L v c q n) (hchild : v.Child L q x)
      (hdir : (v.inode (v.target x)).IsDirectory) :
      View.Deeper L v c (v.target x) (n + 1 + nameLen v.byte x)

theorem View.Deeper.isBelow (h : v.Deeper L c q n) : v.Below L c q := by
  induction h with
  | refl => exact .refl
  | step _ hchild hdir ih => exact .step ih hchild hdir

theorem View.Deeper.head (hchild : v.Child L c x) (hdir : (v.inode (v.target x)).IsDirectory)
    (h : v.Deeper L (v.target x) q n) : v.Deeper L c q (1 + nameLen v.byte x + n) := by
  induction h with
  | refl =>
      have hstep := View.Deeper.step .refl hchild hdir
      rwa [Nat.zero_add] at hstep
  | step _ hchild' hdir' ih =>
      have hstep := ih.step hchild' hdir'
      rwa [Nat.add_assoc _ _ 1, Nat.add_assoc _ (_ + 1)] at hstep

/-- The first directory on the way, if it is not `c` itself. -/
theorem View.Deeper.exists_child (h : v.Deeper L c q n) (hx : v.Child L q x) :
    ∃ y, v.Child L c y ∧ (v.inode c).IsDirectory := by
  induction h generalizing x with
  | refl => exact ⟨x, hx, hx.isDir.2⟩
  | step _ hchild _ ih => exact ih hchild

/-- The local arrays for a path have room for `n` characters. -/
def PathFits (n : ℕ) : Prop := n ≤ pathMax ∧ n % 16 ≠ 0

theorem cStringAt_eq {m : ℕ → Byte} {fuel : ℕ} (hzero : m (a + n) = 0) (hn : n < fuel) :
    ∃ j ≤ n, cStringAt m a fuel = getBytes m a j ∧ m (a + j) = 0 ∧ ∀ i < j, m (a + i) ≠ 0 := by
  induction fuel generalizing a n with
  | zero => exact absurd hn (Nat.not_lt_zero n)
  | succ fuel ih =>
      by_cases hm : m a = 0
      · refine ⟨0, Nat.zero_le n, ?_, hm, fun i hi => absurd hi (Nat.not_lt_zero i)⟩
        rw [cStringAt, if_pos hm]
        rfl
      obtain ⟨k, rfl⟩ : ∃ k, n = k + 1 := by
        cases n with
        | zero => exact absurd hzero hm
        | succ k => exact ⟨k, rfl⟩
      obtain ⟨j, hj, hstring, hend, hbefore⟩ :=
        ih (a := a + 1) (n := k) (by rwa [Nat.add_assoc, Nat.add_comm 1]) (by omega)
      refine ⟨j + 1, by omega, ?_, by rwa [Nat.add_comm j, ← Nat.add_assoc], fun i hi => ?_⟩
      · rw [cStringAt, if_neg hm, hstring, getBytes, getBytes, List.range_succ_eq_map,
          List.map_cons, List.map_map]
        refine congrArg (m a :: ·) (List.map_congr_left fun i _ => ?_)
        change m (a + 1 + i) = m (a + (i + 1))
        rw [Nat.add_assoc, Nat.add_comm 1]
      · cases i with
        | zero => exact hm
        | succ i =>
            rw [Nat.add_comm i, ← Nat.add_assoc]
            exact hbefore i (by omega)

/-- At most `n` bytes of the volume, and no slash, are between the name at `x`
and the next `'\0'`. -/
structure View.EndsWithin (L : Layout) (v : View) (x n : ℕ) : Prop where
  zero : v.byte (x + (8 + nameLen v.byte x + n)) = 0
  plain : ∀ i ≤ n, L.IsPlain ((x + (8 + nameLen v.byte x + i)) / 1024)
  noSlash : ∀ i < n, v.byte (x + (8 + nameLen v.byte x + i)) ≠ slash

theorem Layout.Shows.cStringAt_name (h : L.Shows d w) (hw : v.Thinned L A w) (hc : v.Consistent L)
    (hh : v.Hierarchy L) (hentry : v.Entry L k x) (hends : v.EndsWithin L x n) :
    ∃ name, cStringAt d.byte (x + 8) (1024 * d.numBlocks) = name ∧ slash ∉ name ∧ name ≠ [] ∧
      (n = 0 → name = v.name x) ∧ ∃ j ≤ n, name.length = nameLen v.byte x + j := by
  obtain ⟨hne, hnoslash, hnozero⟩ := hh.legal k x hentry
  obtain ⟨-, hlen, hname, -⟩ := hw.slot_eq hc hentry.isDir hentry.slot
  obtain ⟨b, -, hplain, hge, hle, hwf, -⟩ := hc.slot_bounds hentry.isDir hentry.slot
  have hroom := hwf.le
  set l := nameLen v.byte x with hl
  have hposl : 0 < l := Nat.pos_of_ne_zero fun hzero => hne (by
    rw [View.name, entryName, ← hl, hzero]
    rfl)
  -- the bytes of the name and those up to the zero
  have hread : ∀ i < l, d.byte (x + 8 + i) = v.byte (x + 8 + i) := fun i hi => by
    rw [Nat.add_assoc, h.slot_byte hc hentry.isDir hentry.slot (by omega)]
    exact hw.slot_byte hc hentry.isDir hentry.slot (by omega) (by omega) fun _ => by omega
  have hafter : ∀ i ≤ n, d.byte (x + 8 + (l + i)) = w.byte (x + (8 + l + i)) := fun i hi => by
    rw [show x + 8 + (l + i) = x + (8 + l + i) by omega]
    exact h.byte_eq (hends.plain i hi)
  have hthin : ∀ y, w.byte y = 0 ∨ w.byte y = v.byte y := fun y => by
    rw [hw.byte, without]
    split
    · exact .inl rfl
    · exact .inr rfl
  have hend : d.byte (x + 8 + (l + n)) = 0 := by
    rw [hafter n le_rfl]
    exact (hthin _).elim id fun heq => heq.trans hends.zero
  have hlt := (hends.plain n le_rfl).lt
  have hfuel : l + n < 1024 * d.numBlocks := by
    rw [h.1.numBlocks_eq]
    omega
  obtain ⟨j, hj, hstring, hstop, hbefore⟩ := cStringAt_eq hend hfuel
  have hmem : ∀ i < l, v.byte (x + 8 + i) ∈ v.name x := fun i hi =>
    List.mem_map.mpr ⟨i, List.mem_range.mpr hi, rfl⟩
  have hlj : l ≤ j := by
    by_contra hlt
    rw [hread j (by omega)] at hstop
    exact hnozero (hstop ▸ hmem j (by omega))
  refine ⟨_, hstring, fun hslash => ?_, fun hnil => ?_, fun hzero => ?_, j - l, by omega, ?_⟩
  · obtain ⟨i, hi, hbyte⟩ := List.mem_map.mp hslash
    have hi := List.mem_range.mp hi
    by_cases hil : i < l
    · rw [hread i hil] at hbyte
      exact hnoslash (hbyte ▸ hmem i hil)
    · obtain ⟨r, rfl⟩ := Nat.exists_eq_add_of_le (not_lt.mp hil)
      have hne := hbefore _ hi
      rw [hafter r (by omega)] at hbyte hne
      rw [(hthin _).resolve_left hne] at hbyte
      exact hends.noSlash r (by omega) hbyte
  · have hlen := congrArg List.length hnil
    rw [length_getBytes, List.length_nil] at hlen
    omega
  · obtain rfl : j = l := by omega
    exact getBytes_congr hread
  · rw [length_getBytes]
    omega

end KernelProgramming.Ext2
