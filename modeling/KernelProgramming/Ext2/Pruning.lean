import KernelProgramming.Ext2.Hierarchy
import KernelProgramming.Ext2.Release

/-!
# Volumes with names taken out

What a volume looks like after some of the names on it have been removed, and
what one more removal changes.  Everything is stated in terms of the volume as it
was at first.
-/

namespace KernelProgramming.Ext2

open ByteMemory

variable {L : Layout} {d d' : Disk} {v w w' : View} {a b c i k n p q x y : ℕ} {A : List ℕ}
  {X : ℕ → Prop} {m : ℕ → Byte}

/-- The memory with the inode numbers of the entries `A` set to zero. -/
def without (m : ℕ → Byte) (A : List ℕ) : ℕ → Byte := fun x =>
  if ∃ a ∈ A, a ≤ x ∧ x < a + 4 then 0 else m x

theorem without_of_not (h : ∀ a ∈ A, x < a ∨ a + 4 ≤ x) : without m A x = m x := by
  apply if_neg
  rintro ⟨a, ha, hge, hlt⟩
  have := h a ha
  omega

theorem without_nil (m : ℕ → Byte) : without m [] = m := by
  funext x
  exact without_of_not fun a ha => absurd ha List.not_mem_nil

theorem putBytes_without (m : ℕ → Byte) (a : ℕ) (A : List ℕ) :
    putBytes (without m A) a (bytes32 0) = without m (a :: A) := by
  have hzero : ∀ i (hi : i < (bytes32 0).length), (bytes32 0)[i] = 0 := by decide
  funext x
  by_cases hx : x < a ∨ a + 4 ≤ x
  · rw [putBytes_of_disjoint (by simpa using hx)]
    refine if_congr ?_ rfl rfl
    simp only [List.mem_cons, exists_eq_or_imp]
    constructor
    · exact .inr
    · rintro (h | h)
      · omega
      · exact h
  · obtain ⟨i, rfl⟩ := Nat.exists_eq_add_of_le (show a ≤ x by omega)
    have hnew : without m (a :: A) (a + i) = 0 :=
      if_pos ⟨a, List.mem_cons_self, by omega, by omega⟩
    rw [hnew]
    have hi : i < (bytes32 0).length := by
      rw [length_bytes32]
      omega
    exact (putBytes_apply hi _ a).trans (hzero i hi)

theorem Tiled.of_lengths {m' : ℕ → Byte} {z : ℕ} {es : List ℕ} (h : Tiled m z a es)
    (hlen : ∀ e ∈ es, recLen m' e = recLen m e ∧ nameLen m' e = nameLen m e) :
    Tiled m' z a es := by
  induction h with
  | nil => exact .nil
  | cons hwf hle htail ih =>
      obtain ⟨hrec, hname⟩ := hlen _ List.mem_cons_self
      refine .cons ⟨?_, ?_⟩ ?_ ?_
      · rw [hrec]
        exact hwf.aligned
      · rw [hrec, hname]
        exact hwf.room_le
      · rwa [hrec]
      · rw [hrec]
        exact ih fun e he => hlen e (List.mem_cons_of_mem _ he)

namespace View

/-- All names of inode `k` have `P`, and there are some. -/
def NamedOnly (L : Layout) (v : View) (P : ℕ → Prop) (k : ℕ) : Prop :=
  (∃ a, P a ∧ v.target a = k) ∧ ∀ q a, v.Child L q a → v.target a = k → P a

/-- All entries that name inode `k` are removed. -/
def Freed (L : Layout) (v : View) (A : List ℕ) (k : ℕ) : Prop := v.NamedOnly L (· ∈ A) k

/-- The inode numbers at `A` are zero; blocks and modes are as they were. -/
structure Thinned (L : Layout) (v : View) (A : List ℕ) (w : View) : Prop where
  children : ∀ a ∈ A, ∃ k, v.Child L k a
  mode : ∀ k, (w.inode k).mode = (v.inode k).mode
  block : ∀ k, (w.inode k).block = (v.inode k).block
  byte : w.byte = without v.byte A

theorem Thinned.frame (hw : v.Thinned L A w) (hmode : ∀ k, (w'.inode k).mode = (w.inode k).mode)
    (hblock : ∀ k, (w'.inode k).block = (w.inode k).block) (hbyte : w'.byte = w.byte) :
    v.Thinned L A w' :=
  ⟨hw.children, fun k => (hmode k).trans (hw.mode k), fun k => (hblock k).trans (hw.block k),
    hbyte.trans hw.byte⟩

/-- The volume `w` is `v` without the names at `A`.  The link counts of the
directories `X` may be anything. -/
structure Pruned (L : Layout) (v : View) (X : ℕ → Prop) (A : List ℕ) (w : View) : Prop
    extends v.Thinned L A w where
  nodup : A.Nodup
  counted : w.Counted L
  inodes : ∀ k, L.IsInode k →
    (w.bit .inode (k - 1) = true ↔ v.bit .inode (k - 1) = true ∧ ¬ v.Freed L A k)
  blocks : ∀ b, b ≠ 0 → b ≤ L.blocksCount →
    (w.bit .block (b - 1) = true ↔
      v.bit .block (b - 1) = true ∧ ∀ k, v.Freed L A k → b ∉ v.owned k)
  kept : ∀ k, ¬ v.Freed L A k → w.inode k = { v.inode k with linksCount := (w.inode k).linksCount }
  links : ∀ k, v.Live L k → ¬ (v.inode k).IsDirectory →
    (w.inode k).linksCount + A.countP (fun a => v.target a == k) = (v.inode k).linksCount
  dirs : ∀ k, ¬ X k → (v.inode k).IsDirectory → (∀ a ∈ A, v.target a ≠ k) → w.inode k = v.inode k

theorem Pruned.refl (hc : v.Consistent L) : v.Pruned L X [] v where
  children a ha := absurd ha List.not_mem_nil
  mode k := rfl
  block k := rfl
  byte := (without_nil _).symm
  nodup := .nil
  counted := hc.counted
  inodes k hk := by simp [Freed, NamedOnly]
  blocks b hb hle := by simp [Freed, NamedOnly]
  kept k hk := rfl
  links k hk hfile := rfl
  dirs k hk hdir _ := rfl

theorem Pruned.mono {X' : ℕ → Prop} (hw : v.Pruned L X A w) (hX : ∀ k, X k → X' k) :
    v.Pruned L X' A w :=
  { hw with dirs := fun k hk => hw.dirs k fun h => hk (hX k h) }

/-! ## One more name -/

theorem not_freed (hchild : v.Child L p a) (hnot : a ∉ A) : ¬ v.Freed L A (v.target a) :=
  fun h => hnot (h.2 p a hchild rfl)

theorem freed_cons_of_ne (hne : v.target a ≠ k) : v.Freed L (a :: A) k ↔ v.Freed L A k := by
  unfold Freed NamedOnly
  constructor
  · rintro ⟨⟨x, hx, hxk⟩, hall⟩
    refine ⟨⟨x, ?_, hxk⟩, fun q y hy hyk => ?_⟩
    · exact (List.mem_cons.mp hx).resolve_left fun heq => hne (heq ▸ hxk)
    · exact (List.mem_cons.mp (hall q y hy hyk)).resolve_left fun heq => hne (heq ▸ hyk)
  · rintro ⟨⟨x, hx, hxk⟩, hall⟩
    exact ⟨⟨x, List.mem_cons_of_mem a hx, hxk⟩, fun q y hy hyk =>
      List.mem_cons_of_mem a (hall q y hy hyk)⟩

/-- The removal of a name, and of the inode with it if it was the last name. -/
theorem Pruned.step {X' : ℕ → Prop} (hw : v.Pruned L X A w) (hchild : v.Child L p a)
    (hnot : a ∉ A) (hX : ∀ k, X k → X' k) (hcounted : w'.Counted L)
    (hinodes : ∀ k, L.IsInode k → (w'.bit .inode (k - 1) = true ↔
      w.bit .inode (k - 1) = true ∧ (v.target a = k → ¬ v.Freed L (a :: A) k)))
    (hblocks : ∀ b, b ≠ 0 → b ≤ L.blocksCount → (w'.bit .block (b - 1) = true ↔
      w.bit .block (b - 1) = true ∧ (v.Freed L (a :: A) (v.target a) → b ∉ v.owned (v.target a))))
    (hmode : ∀ k, (w'.inode k).mode = (w.inode k).mode)
    (hblock : ∀ k, (w'.inode k).block = (w.inode k).block)
    (hkept : ∀ k, ¬ v.Freed L (a :: A) k →
      w'.inode k = { w.inode k with linksCount := (w'.inode k).linksCount })
    (hlinks : ∀ k, v.Live L k → ¬ (v.inode k).IsDirectory →
      (w'.inode k).linksCount + (if v.target a = k then 1 else 0) = (w.inode k).linksCount)
    (hdirs : ∀ k, ¬ X' k → (v.inode k).IsDirectory → v.target a ≠ k → w'.inode k = w.inode k)
    (hbyte : w'.byte = without v.byte (a :: A)) : v.Pruned L X' (a :: A) w' where
  children x hx := by
    rcases List.mem_cons.mp hx with rfl | hx
    · exact ⟨p, hchild⟩
    · exact hw.children x hx
  mode k := (hmode k).trans (hw.mode k)
  block k := (hblock k).trans (hw.block k)
  byte := hbyte
  nodup := List.nodup_cons.mpr ⟨hnot, hw.nodup⟩
  counted := hcounted
  inodes k hk := by
    rw [hinodes k hk, hw.inodes k hk, and_assoc]
    apply and_congr_right
    intro _
    by_cases hne : v.target a = k
    · subst hne
      have := not_freed hchild hnot
      tauto
    · rw [freed_cons_of_ne hne]
      tauto
  blocks b hb hle := by
    rw [hblocks b hb hle, hw.blocks b hb hle, and_assoc]
    refine and_congr_right fun _ => ⟨?_, ?_⟩
    · rintro ⟨hold, hnew⟩ k hk
      by_cases hne : v.target a = k
      · subst hne
        exact hnew hk
      · exact hold k ((freed_cons_of_ne hne).mp hk)
    · refine fun hall => ⟨fun k hk => hall k ?_, hall _⟩
      have hne : v.target a ≠ k := by
        rintro rfl
        exact not_freed hchild hnot hk
      exact (freed_cons_of_ne hne).mpr hk
  kept k hk := by
    have hold : ¬ v.Freed L A k := fun h => by
      have hne : v.target a ≠ k := by
        rintro rfl
        exact not_freed hchild hnot h
      exact hk ((freed_cons_of_ne hne).mpr h)
    rw [hkept k hk, hw.kept k hold]
  links k hk hfile := by
    rw [List.countP_cons, ← hw.links k hk hfile, ← hlinks k hk hfile]
    simp only [beq_iff_eq]
    omega
  dirs k hk hdir hall := by
    rw [hdirs k hk hdir (hall a List.mem_cons_self)]
    exact hw.dirs k (fun h => hk (hX k h)) hdir fun x hx => hall x (List.mem_cons_of_mem a hx)

/-- The inode goes with its last name. -/
theorem Pruned.step_freed {X' : ℕ → Prop} {bs : List ℕ} (hw : v.Pruned L X A w)
    (hchild : v.Child L p a) (hnot : a ∉ A) (hX : ∀ k, X k → X' k)
    (hfreed : v.Freed L (a :: A) (v.target a)) (hcounted : w'.Counted L)
    (hinode : ∀ i, w'.bit .inode i = (w.bit .inode i && decide (i + 1 ≠ v.target a)))
    (hblock : ∀ i, w'.bit .block i = (w.bit .block i && decide (i + 1 ∉ bs)))
    (hbs : ∀ b, b ≠ 0 → (b ∈ bs ↔ b ∈ v.owned (v.target a)))
    (hself : (w'.inode (v.target a)).mode = (w.inode (v.target a)).mode ∧
      (w'.inode (v.target a)).block = (w.inode (v.target a)).block)
    (hother : ∀ k, k ≠ v.target a →
      w'.inode k = { w.inode k with linksCount := (w'.inode k).linksCount } ∧
        ((v.inode k).IsDirectory → X' k ∨ w'.inode k = w.inode k) ∧
        (¬ (v.inode k).IsDirectory → w'.inode k = w.inode k))
    (hlinks : ¬ (v.inode (v.target a)).IsDirectory →
      (w'.inode (v.target a)).linksCount + 1 = (w.inode (v.target a)).linksCount)
    (hbyte : w'.byte = without v.byte (a :: A)) : v.Pruned L X' (a :: A) w' := by
  refine hw.step hchild hnot hX hcounted (fun k hk => ?_) (fun b hb _ => ?_) (fun k => ?_)
    (fun k => ?_) (fun k hk => ?_) (fun k hk hfile => ?_) (fun k hk hdir hne => ?_) hbyte
  · have hpos := hk.1
    rw [hinode, Bool.and_eq_true, decide_eq_true_eq, Nat.sub_add_cancel hpos]
    refine and_congr_right fun _ => ⟨fun hne heq => absurd heq.symm hne, fun hall heq => ?_⟩
    exact hall heq.symm (heq ▸ hfreed)
  · rw [hblock, Bool.and_eq_true, decide_eq_true_eq,
      Nat.sub_add_cancel (Nat.pos_of_ne_zero hb), hbs b hb]
    exact and_congr_right fun _ => ⟨fun h _ => h, fun h => h hfreed⟩
  · by_cases hka : k = v.target a
    · rw [hka]
      exact hself.1
    · rw [(hother k hka).1]
  · by_cases hka : k = v.target a
    · rw [hka]
      exact hself.2
    · rw [(hother k hka).1]
  · exact (hother k fun heq => hk (heq ▸ hfreed)).1
  · by_cases hka : k = v.target a
    · subst hka
      rw [if_pos rfl]
      exact hlinks hfile
    · rw [if_neg (Ne.symm hka), (hother k hka).2.2 hfile, Nat.add_zero]
  · exact ((hother k (Ne.symm hne)).2.1 hdir).resolve_left hk

/-- The name of a file that has other names. -/
theorem Pruned.step_kept (hw : v.Pruned L X A w) (hchild : v.Child L p a) (hnot : a ∉ A)
    (hkept : ¬ v.Freed L (a :: A) (v.target a)) (hcounted : w'.Counted L) (hbit : w'.bit = w.bit)
    (hself : w'.inode (v.target a) = { w.inode (v.target a) with
      linksCount := (w'.inode (v.target a)).linksCount })
    (hother : ∀ k, k ≠ v.target a → w'.inode k = w.inode k)
    (hlinks : (w'.inode (v.target a)).linksCount + 1 = (w.inode (v.target a)).linksCount)
    (hbyte : w'.byte = without v.byte (a :: A)) : v.Pruned L X (a :: A) w' := by
  have heq : ∀ k, w'.inode k = { w.inode k with linksCount := (w'.inode k).linksCount } := by
    intro k
    by_cases hka : k = v.target a
    · rw [hka]
      exact hself
    · rw [hother k hka]
  refine hw.step hchild hnot (fun _ => id) hcounted (fun k hk => ?_) (fun b hb _ => ?_)
    (fun k => ?_) (fun k => ?_) (fun k _ => heq k) (fun k hk hfile => ?_)
    (fun k hk hdir hne => hother k (Ne.symm hne)) hbyte
  · rw [hbit]
    refine (and_iff_left ?_).symm
    rintro rfl
    exact hkept
  · rw [hbit]
    exact (and_iff_left fun h => absurd h hkept).symm
  · rw [heq k]
  · rw [heq k]
  · by_cases hka : k = v.target a
    · subst hka
      rw [if_pos rfl]
      exact hlinks
    · rw [if_neg (Ne.symm hka), hother k hka, Nat.add_zero]

/-- The link count tells whether a name of a file is the last one. -/
theorem Pruned.freed_iff (hw : v.Pruned L X A w) (hc : v.Consistent L) (hh : v.Hierarchy L)
    (hchild : v.Child L p a) (hnot : a ∉ A) (hfile : ¬ (v.inode (v.target a)).IsDirectory) :
    1 ≤ (w.inode (v.target a)).linksCount ∧
      (v.Freed L (a :: A) (v.target a) ↔ (w.inode (v.target a)).linksCount = 1) := by
  have hlive := hc.live_target hchild.toEntry
  have hlinks := hw.links _ hlive hfile
  rw [hh.links _ hlive] at hlinks
  set f := v.target a with hf
  set removed := (a :: A).filter fun x => v.target x == f with hremoved
  have hlen : removed.length = A.countP (fun x => v.target x == f) + 1 := by
    rw [hremoved, ← List.countP_eq_length_filter, List.countP_cons, if_pos (by simp [hf])]
  have hnodup : removed.Nodup := (List.nodup_cons.mpr ⟨hnot, hw.nodup⟩).filter _
  have hsub : removed ⊆ v.namers L f := by
    intro x hx
    obtain ⟨hx, hxf⟩ := List.mem_filter.mp hx
    obtain ⟨q, hxchild⟩ : ∃ q, v.Child L q x := by
      rcases List.mem_cons.mp hx with rfl | hx
      · exact ⟨p, hchild⟩
      · exact hw.children x hx
    exact mem_namers.mpr ⟨q, hxchild.toEntry, beq_iff_eq.mp hxf⟩
  have hsubperm := hnodup.subperm hsub
  have hle := hsubperm.length_le
  refine ⟨by omega, ?_⟩
  constructor
  · intro hfreed
    have hsup : v.namers L f ⊆ removed := by
      intro x hx
      obtain ⟨q, hentry, hxf⟩ := mem_namers.mp hx
      have hxchild := hh.child_of_entry hentry (by rwa [hxf])
      exact List.mem_filter.mpr ⟨hfreed.2 q x hxchild hxf, beq_iff_eq.mpr hxf⟩
    have := ((hh.namers_nodup hc f).subperm hsup).length_le
    omega
  · intro hone
    have hperm := hsubperm.perm_of_length_le (by omega)
    refine ⟨⟨a, List.mem_cons_self, rfl⟩, fun q x hxchild hxf => ?_⟩
    have hx := hperm.mem_iff.mpr (mem_namers.mpr ⟨q, hxchild.toEntry, hxf⟩)
    exact (List.mem_filter.mp hx).1

/-! ## What is left of the entries -/

theorem Thinned.byte_eq (hw : v.Thinned L A w) (h : ∀ a ∈ A, x < a ∨ a + 4 ≤ x) :
    w.byte x = v.byte x := by
  rw [hw.byte]
  exact without_of_not h

theorem Thinned.target_zero (hw : v.Thinned L A w) (ha : a ∈ A) : w.target a = 0 := by
  have hzero : ∀ i < 4, w.byte (a + i) = 0 := fun i hi => by
    rw [hw.byte]
    exact if_pos ⟨a, ha, by omega, by omega⟩
  have hget : w.target a = get32 (fun _ => 0) 0 := get32_congr hzero
  rw [hget]
  rfl

section

variable (hc : v.Consistent L) (hw : v.Thinned L A w)

include hc hw

theorem Thinned.slot_byte (hk : v.IsDir L k) (ha : a ∈ v.slots k) (hx : a ≤ x)
    (hlt : x < a + recLen v.byte a) (hnot : a ∈ A → a + 4 ≤ x) : w.byte x = v.byte x := by
  apply hw.byte_eq
  intro y hy
  obtain ⟨q, hchild⟩ := hw.children y hy
  by_cases hya : y = a
  · subst hya
    exact .inr (hnot hy)
  · obtain ⟨-, -, -, -, -, hwf, -⟩ := hc.slot_bounds hchild.isDir hchild.slot
    have hlen := hwf.le
    have := hc.slots_apart hk hchild.isDir ha hchild.slot (Ne.symm hya)
    omega

theorem Thinned.slot_eq (hk : v.IsDir L k) (ha : a ∈ v.slots k) :
    recLen w.byte a = recLen v.byte a ∧ nameLen w.byte a = nameLen v.byte a ∧
      w.name a = v.name a ∧ fileType w.byte a = fileType v.byte a := by
  obtain ⟨-, -, -, -, -, hwf, -⟩ := hc.slot_bounds hk ha
  have hle := hwf.le
  have hbyte : ∀ i, 4 ≤ i → i < recLen v.byte a → w.byte (a + i) = v.byte (a + i) :=
    fun i hi hi' => hw.slot_byte hc hk ha (by omega) (by omega) fun _ => by omega
  have hlen := nameLen_congr (hbyte 6 (by omega) (by omega))
  refine ⟨recLen_congr fun i hi hi' => hbyte i hi (by omega), hlen, ?_, ?_⟩
  · exact entryName_congr hlen fun i hi => hbyte (8 + i) (by omega) (by omega)
  · exact congrArg BitVec.toNat (hbyte 7 (by omega) (by omega))

theorem Thinned.target_eq (hk : v.IsDir L k) (ha : a ∈ v.slots k) (hnot : a ∉ A) :
    w.target a = v.target a := by
  obtain ⟨-, -, -, -, -, hwf, -⟩ := hc.slot_bounds hk ha
  have hle := hwf.le
  exact entryInode_congr fun i hi =>
    hw.slot_byte hc hk ha (by omega) (by omega) fun hin => absurd hin hnot

theorem Thinned.live_iff (hk : v.IsDir L k) (ha : a ∈ v.slots k) :
    live w.byte a = true ↔ live v.byte a = true ∧ a ∉ A := by
  by_cases hin : a ∈ A
  · have hzero : entryInode w.byte a = 0 := hw.target_zero hin
    simp [live, hzero, hin]
  · have heq : entryInode w.byte a = entryInode v.byte a := hw.target_eq hc hk ha hin
    simp [live, heq, hin]

theorem Thinned.dirEntry_eq (hk : v.IsDir L k) (ha : a ∈ v.slots k) (hnot : a ∉ A) :
    dirEntry w.byte a = dirEntry v.byte a := by
  obtain ⟨-, -, hname, htype⟩ := hw.slot_eq hc hk ha
  have htarget := hw.target_eq hc hk ha hnot
  exact DirEntry.mk.injEq .. ▸ ⟨hname, htarget, htype⟩

theorem Thinned.tiled (hk : v.IsDir L k) (hb : b ∈ v.data k) :
    w.TiledBlock b ∧ w.entriesOf b = v.entriesOf b := by
  have htiled : Tiled w.byte (1024 * b + 1024) (1024 * b) (v.entriesOf b) :=
    (hc.tiled k hk.1 hk.2 b hb).of_lengths fun e he =>
      have heq := hw.slot_eq hc hk (List.mem_flatMap.mpr ⟨b, hb, he⟩)
      ⟨heq.1, heq.2.1⟩
  have hes : w.entriesOf b = v.entriesOf b := by rw [entriesOf, htiled.entries_eq]
  refine ⟨?_, hes⟩
  rw [TiledBlock, hes]
  exact htiled

theorem Thinned.sameBlock (hk : v.Live L k) (hfile : ¬ (v.inode k).IsDirectory)
    (hb : b ∈ v.owned k) : v.SameBlock w b := fun i hi => by
  apply hw.byte_eq
  intro a ha
  obtain ⟨q, hchild⟩ := hw.children a ha
  obtain ⟨c, hcq, -, hge, hle, hwf, -⟩ := hc.slot_bounds hchild.isDir hchild.slot
  have hne : q ≠ k := fun heq => hfile (heq ▸ hchild.isDir.2)
  have hcb : c ≠ b := by
    rintro rfl
    exact hc.apart q k hchild.isDir.1 hk hne c (data_subset_owned v q hcq) hb
  have hlen := hwf.le
  omega

omit hc in
theorem Thinned.directOnly (hk : (v.inode k).DirectOnly) : (w.inode k).DirectOnly := by
  intro i hi hi'
  rw [hw.block]
  exact hk i hi hi'

omit hc in
theorem Thinned.isDirectory_iff : (w.inode k).IsDirectory ↔ (v.inode k).IsDirectory := by
  rw [Inode.IsDirectory, hw.mode, Inode.IsDirectory]

omit hc in
theorem Thinned.data_eq (hk : (v.inode k).DirectOnly) : w.data k = v.data k := by
  rw [data_of_directOnly hk, data_of_directOnly (hw.directOnly hk), hw.block]

theorem Thinned.sameBlock_zero : v.SameBlock w 0 := fun i hi => by
  apply hw.byte_eq
  intro a ha
  obtain ⟨q, hchild⟩ := hw.children a ha
  obtain ⟨c, hcq, -, hge, hle, hwf, -⟩ := hc.slot_bounds hchild.isDir hchild.slot
  have hne := (hc.used q hchild.isDir.1 c (data_subset_owned v q hcq)).1
  omega

theorem Thinned.releasable (hk : v.Live L k) (hfile : ¬ (v.inode k).IsDirectory)
    (h : v.Releasable k) : w.Releasable k := by
  obtain ⟨htriple, hdouble⟩ := h
  rw [Releasable, hw.block]
  refine ⟨htriple, ?_⟩
  by_cases hzero : (v.inode k).block dbleIndirectBlock = 0
  · exact .inl hzero
  refine .inr ((hdouble.resolve_left hzero).imp (fun hall i hi => ?_) fun hall i hi => ?_)
  · have howned : (v.inode k).block dbleIndirectBlock ∈ v.owned k := by
      refine List.mem_flatMap.mpr ⟨dbleIndirectBlock, by decide, ?_⟩
      rw [show slotLevel dbleIndirectBlock = 1 + 1 from rfl, tree, if_neg hzero]
      exact List.mem_cons_self
    rw [word_congr (hw.sameBlock hc hk hfile howned) hi]
    exact hall i hi
  · rw [word_congr (hw.sameBlock_zero hc) hi]
    exact hall i hi

theorem Thinned.owned_eq (hh : v.Hierarchy L) (hk : v.Live L k) : w.owned k = v.owned k := by
  by_cases hdir : (v.inode k).IsDirectory
  · have hdirect := hh.direct k ⟨hk, hdir⟩
    rw [owned_of_directOnly hdirect, owned_of_directOnly (hw.directOnly hdirect),
      hw.data_eq hdirect]
  · exact (owned_congr (hw.block k) fun b hb => hw.sameBlock hc hk hdir hb).1

variable (hh : v.Hierarchy L)

include hh

theorem Thinned.slots_eq (hk : v.IsDir L k) : w.slots k = v.slots k := by
  rw [slots, slots, hw.data_eq (hh.direct k hk)]
  exact List.flatMap_congr fun b hb => (hw.tiled hc hk hb).2

theorem Thinned.mem_files (hk : v.IsDir L k) {e : DirEntry} :
    e ∈ w.files k ↔ ∃ a, v.Entry L k a ∧ a ∉ A ∧ dirEntry v.byte a = e := by
  change e ∈ filesIn w.byte (w.slots k) ↔ _
  rw [hw.slots_eq hc hh hk, mem_filesIn]
  constructor
  · rintro ⟨a, ha, hlive, rfl⟩
    obtain ⟨hlive', hnot⟩ := (hw.live_iff hc hk ha).mp hlive
    exact ⟨a, ⟨hk, ha, hlive'⟩, hnot, (hw.dirEntry_eq hc hk ha hnot).symm⟩
  · rintro ⟨a, ha, hnot, rfl⟩
    exact ⟨a, ha.slot, (hw.live_iff hc hk ha.slot).mpr ⟨ha.live, hnot⟩,
      hw.dirEntry_eq hc hk ha.slot hnot⟩

theorem Thinned.lookup_eq (ha : v.Entry L k a) :
    w.lookup k (v.name a) = if a ∈ A then none else some (dirEntry v.byte a) := by
  have hsame : ∀ e ∈ w.files k, e.name = v.name a → a ∉ A ∧ e = dirEntry v.byte a := by
    intro e he hname
    obtain ⟨x, hx, hnot, rfl⟩ := (hw.mem_files hc hh ha.isDir).mp he
    obtain rfl := hh.names k x a hx ha hname
    exact ⟨hnot, rfl⟩
  rw [lookup]
  split_ifs with hin
  · refine List.find?_eq_none.mpr fun e he => ?_
    have hne : e.name ≠ v.name a := fun hname => (hsame e he hname).1 hin
    simpa using hne
  · cases hfind : (w.files k).find? fun e => e.name == v.name a with
    | none =>
        have hmem := (hw.mem_files hc hh ha.isDir).mpr ⟨a, ha, hin, rfl⟩
        have hne := List.find?_eq_none.mp hfind _ hmem
        simp [dirEntry, View.name] at hne
    | some e =>
        have hname : e.name = v.name a := by simpa using List.find?_some hfind
        rw [(hsame e (List.mem_of_find?_eq_some hfind) hname).2]

/-- The directories of the volume can still be searched. -/
theorem Thinned.openAt (hk : v.IsDir L k) (name : CString) : w.OpenAt L k name where
  isInode := hk.1.1
  isDirectory := hw.isDirectory_iff.mpr hk.2
  blocks b hb := by
    rw [hw.data_eq (hh.direct k hk)] at hb
    exact ⟨(hc.used k hk.1 b (data_subset_owned v k hb)).2.1, (hw.tiled hc hk hb).1⟩
  searchable := .inl (hw.directOnly (hh.direct k hk))

end

/-! ## Paths -/

/-- The names lead from the root to `k`, over the entries `as`. -/
inductive Route (L : Layout) (v : View) : List CString → ℕ → List ℕ → Prop
  | root : Route L v [] rootInodeNumber []
  | step {names : List CString} {k a : ℕ} {as : List ℕ} (h : Route L v names k as)
      (hchild : v.Child L k a) (hdir : (v.inode (v.target a)).IsDirectory) :
      Route L v (names ++ [v.name a]) (v.target a) (as ++ [a])

variable {names : List CString} {as : List ℕ}

theorem Route.isDir (h : v.Route L names k as) (hc : v.Consistent L) : v.IsDir L k := by
  cases h with
  | root => exact hc.root
  | step h hchild hdir => exact ⟨hc.live_target hchild.toEntry, hdir⟩

/-- A path ends with a search in the directory that it leads to. -/
theorem OpenPath.concat {name : CString} (h : w.OpenPath L n names)
    (hreach : w.reach n names = some k) (hopen : w.OpenAt L k name) :
    w.OpenPath L n (names ++ [name]) := by
  induction names generalizing n with
  | nil =>
      obtain rfl : n = k := by simpa [reach] using hreach
      exact ⟨hopen, fun _ _ => trivial⟩
  | cons first names ih =>
      obtain ⟨hfirst, hnext⟩ := h
      rw [reach, if_pos hfirst.isDirectory] at hreach
      obtain ⟨e, he, hrest⟩ := Option.bind_eq_some_iff.mp hreach
      refine ⟨hfirst, fun e' he' => ?_⟩
      obtain rfl := Option.some.inj (he.symm.trans he')
      exact ih (hnext e he) hrest

theorem reach_concat {name : CString} {e : DirEntry} (hreach : w.reach n names = some k)
    (hdir : (w.inode k).IsDirectory) (he : w.lookup k name = some e) :
    w.reach n (names ++ [name]) = some e.inode := by
  rw [← w.walk_eq_reach n (by simp), walk_concat, hreach]
  change (if _ then _ else _ : Option DirEntry).map _ = _
  rw [if_pos hdir, he]
  rfl

/-- Entries that are not removed lead where they did before. -/
theorem Thinned.route (hw : v.Thinned L A w) (hc : v.Consistent L) (hh : v.Hierarchy L)
    (h : v.Route L names k as) (has : ∀ a ∈ as, a ∉ A) :
    w.OpenPath L rootInodeNumber names ∧ w.reach rootInodeNumber names = some k := by
  induction h with
  | root => exact ⟨trivial, rfl⟩
  | @step names k a as h hchild hdir ih =>
      obtain ⟨hopen, hreach⟩ := ih fun x hx => has x (List.mem_append_left _ hx)
      have hat := hw.openAt hc hh hchild.isDir (v.name a)
      have hnot := has a (List.mem_append_right _ (List.mem_singleton_self a))
      have hlookup : w.lookup k (v.name a) = some (dirEntry v.byte a) := by
        rw [hw.lookup_eq hc hh hchild.toEntry, if_neg hnot]
      have hnext := reach_concat hreach hat.isDirectory hlookup
      exact ⟨hopen.concat hreach hat, hnext⟩

end View

end KernelProgramming.Ext2
