import KernelProgramming.Ext2.Subtree
import Mathlib.Data.List.TakeWhile

/-!
# The recursion of ext2_rm

By induction on the depth of the tree, each call removes the entries that go with
its own entry.  The loops over the blocks and entries of a directory keep a
record of the entries that they have passed.  A run either gets there or ends with one
of the faults in `E`, which `overrun` is among unless all the paths fit.
-/

namespace KernelProgramming.Ext2

open ByteMemory Runs

variable {L : Layout} {d d' : Disk} {v w w' : View} {a b c e i k n p q r x y : ℕ}
  {A A₀ as S es : List ℕ} {X N : ℕ → Prop} {path name : CString} {height : ℕ → ℕ}
  {remove : Disk → ℕ → CString → Except Fault Disk} {E : Fault → Prop}

/-- What `ext2_rm -r` relies on in an entry that it removes: the type is known,
and the name ends where it should, unless nothing is below it. -/
structure View.Readable (L : Layout) (v : View) (x : ℕ) : Prop where
  ends : ∃ n, v.EndsWithin L x n ∧ (n = 0 ∨ ∀ y, ¬ v.Child L (v.target x) y)
  type : ¬ (v.inode (v.target x)).IsDirectory →
    fileType v.byte x = ext2FtRegFile ∨ fileType v.byte x = ext2FtSymlink

/-- The paths that are made for what is inside directory `c`, whose own path has `l`
characters, fit into the local arrays wherever the names are taken to end. -/
def View.PathsFit (L : Layout) (v : View) (l c : ℕ) : Prop :=
  ∀ q n x, v.Deeper L c q n → v.Child L q x →
    ∃ m, v.EndsWithin L x m ∧ ∀ j ≤ m, PathFits (l + n + 1 + nameLen v.byte x + j)

/-- The path belongs to the entry at `a` in directory `p`, which is behind the
entries `as`.  It is followed further only if something is below the entry. -/
structure Addressed (L : Layout) (v : View) (E : Fault → Prop) (path : CString) (p a : ℕ)
    (as : List ℕ) : Prop where
  route : ∃ names, v.Route L names p as
  parent : ∀ d w A, L.Shows d w → v.Thinned L A w → (∀ x ∈ as, x ∉ A) →
    Yields (findParentInode d path) (· = p) E
  inside : ∀ x, v.Child L (v.target a) x → LeadsTo L v path (v.target a) (as ++ [a])
  fits : E .overrun ∨ v.PathsFit L path.length (v.target a)

/-- The entry at `a` can be removed together with what is below it. -/
def Removes (L : Layout) (v : View) (X N : ℕ → Prop) (E : Fault → Prop)
    (remove : Disk → ℕ → CString → Except Fault Disk) (a : ℕ) (path : CString)
    (as : List ℕ) : Prop :=
  ∀ d w A, L.Shows d w → v.Pruned L X A w → (∀ x, v.Goes L a x → x ∉ A) → (∀ x ∈ as, x ∉ A) →
    (∀ x ∈ A, N x) → Yields (remove d a path) (fun d' => ∃ w' A', L.Shows d' w' ∧
      v.Pruned L X A' w' ∧ ∀ x, x ∈ A' ↔ x ∈ A ∨ v.Goes L a x) E

/-- The loops have passed the entries `S` of directory `c`. -/
structure Passed (L : Layout) (v : View) (X : ℕ → Prop) (c : ℕ) (A₀ S : List ℕ) (d : Disk)
    (w : View) (A : List ℕ) : Prop where
  shows : L.Shows d w
  pruned : v.Pruned L X A w
  mem : ∀ x, x ∈ A ↔ x ∈ A₀ ∨ ∃ e ∈ S, v.Child L c e ∧ v.Goes L e x

/-- The entries that are followed are those of the files in the directory. -/
theorem Layout.Shows.live_external_iff (h : L.Shows d w) (hw : v.Thinned L A w)
    (hc : v.Consistent L) (hh : v.Hierarchy L) (hk : v.IsDir L k) (hx : x ∈ v.slots k)
    (hnot : x ∉ A) :
    (live d.byte x && checkIfExternalEntry d.byte x) = true ↔ v.Child L k x := by
  obtain ⟨-, -, -, -, -, hwf, -⟩ := hc.slot_bounds hk hx
  have hroom := hwf.le
  have hbyte : ∀ i < recLen v.byte x, d.byte (x + i) = v.byte (x + i) := fun i hi => by
    rw [h.slot_byte hc hk hx hi]
    exact hw.slot_byte hc hk hx (by omega) (by omega) fun hin => absurd hin hnot
  have hlive : live d.byte x = live v.byte x := by
    rw [live, live, entryInode_congr fun i hi => hbyte i (by omega)]
  have hname : entryName d.byte x = v.name x :=
    entryName_congr (nameLen_congr (hbyte 6 (by omega))) fun i hi => hbyte (8 + i) (by omega)
  have hexternal : v.Entry L k x →
      (checkIfExternalEntry d.byte x = true ↔ v.name x ≠ [dot] ∧ v.name x ≠ [dot, dot]) := by
    intro hentry
    have hwhole : (v.name x).takeWhile (· ≠ 0) = v.name x :=
      List.takeWhile_eq_self_iff.mpr fun b hb =>
        decide_eq_true fun heq => (hh.legal k x hentry).2.2 (heq ▸ hb)
    rw [checkIfExternalEntry, hname, hwhole]
    simp
  rw [Bool.and_eq_true, hlive]
  constructor
  · rintro ⟨hlive, hx'⟩
    have hentry : v.Entry L k x := ⟨hk, hx, hlive⟩
    obtain ⟨hdot, hdots⟩ := (hexternal hentry).mp hx'
    exact ⟨hentry, hdot, hdots⟩
  · intro hchild
    exact ⟨hchild.live, (hexternal hchild.toEntry).mpr ⟨hchild.not_dot, hchild.not_dot_dot⟩⟩

section

variable (hc : v.Consistent L) (hh : v.Hierarchy L)

include hc hh

/-- The path that is made for an entry of a directory. -/
theorem LeadsTo.addressed (hleads : LeadsTo L v path c as) (hchild : v.Child L c e)
    (hslash : slash ∉ name) (hne : name ≠ [])
    (hroom : E .overrun ∨ PathFits (path ++ slash :: name).length)
    (hname : (∃ x, v.Child L (v.target e) x) → name = v.name e)
    (hfits : E .overrun ∨ v.PathsFit L path.length c) :
    Addressed L v E (path ++ slash :: name) c e as where
  route := ⟨_, hleads.route⟩
  parent d w A hshows hw has := by
    by_cases hlen : (path ++ slash :: name).length % 16 = 0
    · rw [findParentInode_overrun d hlen]
      exact hroom.resolve_right fun hfit => hfit.2 hlen
    · exact yields_of_eq_ok (hshows.findParentInode_child hw hc hh hleads has hslash hne hlen) rfl
  inside x hx := by
    obtain rfl := hname ⟨x, hx⟩
    have htokens : tokens (path ++ slash :: v.name e) = tokens path ++ [v.name e] :=
      tokens_split hslash hne
    refine ⟨?_, ?_, ?_⟩
    · rw [List.head?_append, hleads.absolute]
      rfl
    · rw [htokens]
      simp
    · rw [htokens]
      exact hleads.route.step hchild hx.isDir.2
  fits := hfits.imp_right fun hfits q n x hdeeper hx => by
    obtain ⟨y, hy, hdir⟩ := hdeeper.exists_child hx
    obtain rfl := hname ⟨y, hy⟩
    have hfit := hfits q _ x (hdeeper.head hchild hdir) hx
    rwa [List.length_append, List.length_cons, View.name, entryName, length_getBytes,
      show path.length + (nameLen v.byte e + 1) + n =
        path.length + (1 + nameLen v.byte e + n) by omega]

section

variable (hdir : v.IsDir L c) (hA₀ : ∀ x, v.Inside L c x → x ∉ A₀) (has : ∀ x ∈ as, x ∉ A₀)
  (hN₀ : ∀ x ∈ A₀, N x) (hN : ∀ x, v.Inside L c x → N x)
  (hreadable : ∀ x, v.Inside L c x → v.Readable L x)
  (hfits : E .overrun ∨ v.PathsFit L path.length c)
  (hleads : ∀ x, v.Child L c x → LeadsTo L v path c as)
  (hremove : ∀ e path, v.Child L c e → Addressed L v E path c e as →
    Removes L v X N E remove e path as)

include hdir hA₀ has hN₀ hN hreadable hfits hleads hremove

theorem Passed.step (hpassed : Passed L v X c A₀ S d w A) (he : e ∈ v.slots c) (hnot : e ∉ S) :
    Yields (removeEntry remove path d e)
      (fun d' => ∃ w' A', Passed L v X c A₀ (S ++ [e]) d' w' A') E := by
  unfold removeEntry
  have hfresh : v.Child L c e → ∀ x, v.Goes L e x → x ∉ A := fun hchild x hx hin => by
    rcases (hpassed.mem x).mp hin with hin | ⟨e', he', hchild', hx'⟩
    · exact hA₀ x (View.inside_iff.mpr ⟨e, hchild, hx⟩) hin
    · exact hnot (View.Goes.unique hc hh hchild hchild' hx hx' ▸ he')
  have hfree : e ∉ A := fun hin => by
    obtain ⟨k, hchild⟩ := hpassed.pruned.children e hin
    obtain rfl := hc.slot_unique hchild.isDir hdir hchild.slot he
    exact hfresh hchild e (.inl rfl) hin
  have hiff := hpassed.shows.live_external_iff hpassed.pruned.toThinned hc hh hdir he hfree
  by_cases hchild : v.Child L c e
  · rw [if_pos (hiff.mpr hchild)]
    have hin : v.Inside L c e := View.inside_iff.mpr ⟨e, hchild, .inl rfl⟩
    obtain ⟨n, hends, hplain⟩ := (hreadable e hin).ends
    obtain ⟨name, hstring, hslash, hne, hname, -⟩ := hpassed.shows.cStringAt_name
      hpassed.pruned.toThinned hc hh hchild.toEntry hends
    have hroom : E .overrun ∨ PathFits (path ++ slash :: name).length :=
      hfits.imp_right fun hfits => by
        obtain ⟨m, hends, hfit⟩ := hfits c 0 e .refl hchild
        obtain ⟨-, rfl, -, -, -, j, hj, hlen⟩ := hpassed.shows.cStringAt_name
          hpassed.pruned.toThinned hc hh hchild.toEntry hends
        rw [← hstring, List.length_append, List.length_cons, hlen,
          show path.length + (nameLen v.byte e + j + 1) =
            path.length + 0 + 1 + nameLen v.byte e + j by omega]
        exact hfit j hj
    have haddr := (hleads e hchild).addressed hc hh hchild hslash hne hroom (fun ⟨x, hx⟩ =>
      hname (hplain.resolve_right fun hnone => hnone x hx)) hfits
    rw [hstring]
    dsimp only
    split
    · exact hroom.resolve_right fun hfit => absurd hfit.1 (Nat.not_le_of_gt ‹_›)
    have has' : ∀ x ∈ as, x ∉ A := fun x hx hin => by
      rcases (hpassed.mem x).mp hin with hin | ⟨e', -, hchild', hx'⟩
      · exact has x hx hin
      · exact (hleads e hchild).route.not_inside hh hx (View.inside_iff.mpr ⟨e', hchild', hx'⟩)
    have hNA : ∀ x ∈ A, N x := fun x hin => by
      rcases (hpassed.mem x).mp hin with hin | ⟨e', -, hchild', hx'⟩
      · exact hN₀ x hin
      · exact hN x (View.inside_iff.mpr ⟨e', hchild', hx'⟩)
    refine (hremove e _ hchild haddr d w A hpassed.shows hpassed.pruned (hfresh hchild) has'
      hNA).mono ?_ fun _ => id
    rintro d' ⟨w', A', hshows, hpruned, hmem⟩
    refine ⟨w', A', hshows, hpruned, fun x => ?_⟩
    rw [hmem, hpassed.mem, or_assoc]
    simp only [List.mem_append, List.mem_singleton, or_and_right, exists_or, exists_eq_left,
      hchild, true_and]
  · rw [if_neg fun hlive => hchild (hiff.mp hlive)]
    refine ⟨w, A, hpassed.shows, hpassed.pruned, fun x => ?_⟩
    rw [hpassed.mem]
    simp only [List.mem_append, List.mem_singleton, or_and_right, exists_or, exists_eq_left,
      hchild, false_and, or_false]

/-- The loop over one block. -/
theorem Passed.removeEntries {start position fuel : ℕ} (hpassed : Passed L v X c A₀ S d w A)
    (htiled : Tiled v.byte (start + 1024) (start + position) es) (hes : es ⊆ v.slots c)
    (hnodup : (S ++ es).Nodup) (hfuel : 1024 ≤ position + fuel) :
    Yields (Ext2.removeEntries remove path start fuel position d)
      (fun d' => ∃ w' A', Passed L v X c A₀ (S ++ es) d' w' A') E := by
  induction es generalizing position fuel S d w A with
  | nil =>
      refine yields_of_eq_ok (a := d) ?_ ⟨w, A, by rwa [List.append_nil]⟩
      have hend : position = 1024 := by
        generalize hp : start + position = z at htiled
        cases htiled
        omega
      cases fuel with
      | zero => rfl
      | succ fuel => rw [Ext2.removeEntries, if_neg (by omega)]
  | cons e es ih =>
      generalize hp : start + position = z at htiled
      cases htiled with
      | cons hwf hle htail =>
          subst hp
          have hroom := hwf.le
          obtain ⟨fuel, rfl⟩ : ∃ n, fuel = n + 1 := ⟨fuel - 1, by omega⟩
          rw [List.append_cons] at hnodup ⊢
          have he := hes List.mem_cons_self
          have hnot : start + position ∉ S := fun hin =>
            List.disjoint_of_nodup_append (List.Nodup.of_append_left hnodup) hin
              (List.mem_singleton_self _)
          rw [Ext2.removeEntries, if_pos (by omega)]
          refine (hpassed.step hc hh hdir hA₀ has hN₀ hN hreadable hfits hleads hremove he
            hnot).bind ?_
          rintro d₁ ⟨w₁, A₁, h₁⟩
          have hlen : recLen d₁.byte (start + position) = recLen v.byte (start + position) := by
            rw [← (h₁.pruned.slot_eq hc hdir he).1]
            exact recLen_congr fun i _ hi => h₁.shows.slot_byte hc hdir he (by omega)
          rw [Nat.add_assoc] at htail
          have hfuel' : 1024 ≤ position + recLen v.byte (start + position) + fuel := by omega
          rw [hlen, if_neg (by omega)]
          exact ih h₁ htail (fun x hx => hes (List.mem_cons_of_mem _ hx)) hnodup hfuel'

/-- The loop over the blocks of the directory. -/
theorem Passed.blocks {slots : List ℕ} (hpassed : Passed L v X c A₀ S d w A)
    (hslots : ∀ i ∈ slots, i < totalBlockCount)
    (hnodup : (S ++ ((slots.map (v.inode c).block).filter (· ≠ 0)).flatMap v.entriesOf).Nodup) :
    Yields (slots.foldlM (fun d i =>
        if d.u32 (iBlock (L.inodeAddress c) i) = 0 then .ok d
        else do
          let start ← blockPtr d (d.u32 (iBlock (L.inodeAddress c) i))
          Ext2.removeEntries remove path start 1025 0 d) d) (fun d' => ∃ w' A', Passed L v X c A₀
        (S ++ ((slots.map (v.inode c).block).filter (· ≠ 0)).flatMap v.entriesOf) d' w' A') E := by
  induction slots generalizing S d w A with
  | nil => exact ⟨w, A, by simpa using hpassed⟩
  | cons i slots ih =>
      have hi := hslots i List.mem_cons_self
      have hrest : ∀ j ∈ slots, j < totalBlockCount := fun j hj =>
        hslots j (List.mem_cons_of_mem i hj)
      have hblock : d.u32 (iBlock (L.inodeAddress c) i) = (v.inode c).block i := by
        rw [hpassed.shows.iBlock_eq hdir.1.1 hi, hpassed.pruned.block]
      rw [List.foldlM_cons, hblock]
      by_cases hzero : (v.inode c).block i = 0
      · rw [List.map_cons, List.filter_cons_of_neg (by simpa using hzero)] at hnodup ⊢
        rw [if_pos hzero]
        exact ih hpassed hrest hnodup
      · rw [List.map_cons, List.filter_cons_of_pos (by simpa using hzero), List.flatMap_cons,
          ← List.append_assoc] at hnodup ⊢
        have hb : (v.inode c).block i ∈ v.data c := by
          rw [View.data_of_directOnly (hh.direct c hdir)]
          exact List.mem_filter.mpr
            ⟨List.mem_map_of_mem (List.mem_range.mpr hi), by simpa using hzero⟩
        have hplain := (hc.used c hdir.1 _ (View.data_subset_owned v c hb)).2.1
        have htiled : Tiled v.byte (1024 * (v.inode c).block i + 1024)
            (1024 * (v.inode c).block i + 0) (v.entriesOf ((v.inode c).block i)) :=
          hc.tiled c hdir.1 hdir.2 _ hb
        rw [if_neg hzero, hpassed.shows.blockPtr_eq hplain.lt]
        refine (hpassed.removeEntries hc hh hdir hA₀ has hN₀ hN hreadable hfits hleads hremove
          htiled (fun x hx => List.mem_flatMap.mpr ⟨_, hb, hx⟩)
          (List.Nodup.of_append_left hnodup) (show 1024 ≤ 0 + 1025 by omega)).bind ?_
        rintro d₁ ⟨w₁, A₁, h₁⟩
        exact ih h₁ hrest hnodup

end

/-- What is below a directory is removed by the loops over its blocks. -/
theorem Layout.Shows.emptied (h : L.Shows d w) (hw : v.Pruned L X A₀ w) (hdir : v.IsDir L c)
    (hX : X c) (hA₀ : ∀ x, v.Inside L c x → x ∉ A₀) (has : ∀ x ∈ as, x ∉ A₀)
    (hN₀ : ∀ x ∈ A₀, N x) (hN : ∀ x, v.Inside L c x → N x)
    (hreadable : ∀ x, v.Inside L c x → v.Readable L x)
    (hfits : E .overrun ∨ v.PathsFit L path.length c)
    (hleads : ∀ x, v.Child L c x → LeadsTo L v path c as)
    (hremove : ∀ e path, v.Child L c e → Addressed L v E path c e as →
      Removes L v X N E remove e path as) :
    Yields ((List.range totalBlockCount).foldlM (fun d i =>
        if d.u32 (iBlock (L.inodeAddress c) i) = 0 then .ok d
        else do
          let start ← blockPtr d (d.u32 (iBlock (L.inodeAddress c) i))
          Ext2.removeEntries remove path start 1025 0 d)
        (d.setU16 (iLinksCount (L.inodeAddress c))
          (d.u16 (iLinksCount (L.inodeAddress c)) + (2 ^ 16 - 2)))) (fun d' => ∃ w' A',
      L.Shows d' w' ∧ v.Pruned L X A' w' ∧ ∀ x, x ∈ A' ↔ x ∈ A₀ ∨ v.Inside L c x) E := by
  have h₁ := h.setLinksCount hdir.1.1 (d.u16 (iLinksCount (L.inodeAddress c)) + (2 ^ 16 - 2))
  have hpassed : Passed L v X c A₀ [] _ _ A₀ :=
    ⟨h₁, hw.setLinks hX hdir.2 _, fun x => by simp⟩
  have hslots : v.slots c = (((List.range totalBlockCount).map (v.inode c).block).filter
      (· ≠ 0)).flatMap v.entriesOf := by
    rw [View.slots, View.data_of_directOnly (hh.direct c hdir)]
  refine (hpassed.blocks hc hh hdir hA₀ has hN₀ hN hreadable hfits hleads hremove
    (fun i hi => List.mem_range.mp hi) (by
      rw [← hslots]
      exact hh.slots_nodup hc hdir)).mono ?_ fun _ => id
  rintro d' ⟨w', A', h'⟩
  rw [← hslots] at h'
  refine ⟨w', A', h'.shows, h'.pruned, fun x => ?_⟩
  rw [h'.mem, View.inside_iff]
  constructor
  · rintro (hx | ⟨e, -, hchild, hgoes⟩)
    · exact .inl hx
    · exact .inr ⟨e, hchild, hgoes⟩
  · rintro (hx | ⟨e, hchild, hgoes⟩)
    · exact .inl hx
    · exact .inr ⟨e, hchild.slot, hchild, hgoes⟩

omit hc hh in
theorem removeDirectoryOrFileOrLink_eq {now : ℕ} (htype : ¬ (fileType d.byte e = ext2FtRegFile ∨
    fileType d.byte e = ext2FtSymlink)) (hinode : inodePtr d (entryInode d.byte e) = .ok i) :
    removeDirectoryOrFileOrLink now (n + 1) d e path =
      ((List.range totalBlockCount).foldlM (fun (d : Disk) j =>
        if d.u32 (iBlock i j) = 0 then Except.ok d
        else do
          let start ← blockPtr d (d.u32 (iBlock i j))
          Ext2.removeEntries (removeDirectoryOrFileOrLink now n) path start 1025 0 d)
        (d.setU16 (iLinksCount i) (d.u16 (iLinksCount i) + (2 ^ 16 - 2)))).bind fun d =>
          Ext2.removeEmptyDirectory d e path now := by
  rw [removeDirectoryOrFileOrLink, if_neg htype, hinode]
  rfl

/-- A directory goes after all that is in it. -/
theorem removes_directory {now : ℕ} (h : L.Shows d w) (hw : v.Pruned L X A w)
    (hchild : v.Child L p a) (hdir : (v.inode (v.target a)).IsDirectory) (hX : X (v.target a))
    (hA : ∀ x, v.Goes L a x → x ∉ A) (has : ∀ x ∈ as, x ∉ A) (hNA : ∀ x ∈ A, N x)
    (hN : ∀ x, v.Inside L (v.target a) x → N x)
    (hreadable : ∀ x, v.Inside L (v.target a) x → v.Readable L x)
    (haddr : Addressed L v E path p a as)
    (hremove : ∀ e path, v.Child L (v.target a) e →
      Addressed L v E path (v.target a) e (as ++ [a]) →
        Removes L v X N E (removeDirectoryOrFileOrLink now n) e path (as ++ [a])) :
    Yields (removeDirectoryOrFileOrLink now (n + 1) d a path) (fun d₂ => ∃ w₁ w₂ A₁,
      L.Shows d₂ w₂ ∧ v.Pruned L X A₁ w₁ ∧ v.Pruned L (fun k => X k ∨ k = p) (a :: A₁) w₂ ∧
      (∀ x, x ∈ A₁ ↔ x ∈ A ∨ v.Inside L (v.target a) x) ∧
      w₂.inode p = { w₁.inode p with
        linksCount := ((w₁.inode p).linksCount + (2 ^ 16 - 1)) % 2 ^ 16 }) E := by
  have hnot := hA a (.inl rfl)
  have hlive := hc.live_target hchild.toEntry
  obtain ⟨names, hroute⟩ := haddr.route
  have hroute' := hroute.step hchild hdir
  have has' : ∀ x ∈ as ++ [a], x ∉ A := fun x hx => by
    rcases List.mem_append.mp hx with hx | hx
    · exact has x hx
    · rwa [List.mem_singleton.mp hx]
  have htype : fileType d.byte a = ext2FtDir := by
    rw [h.fileType_eq hw.toThinned hc hchild.toEntry]
    exact (hh.types p a hchild.toEntry).mpr hdir
  have hinode : inodePtr d (entryInode d.byte a) = .ok (L.inodeAddress (v.target a)) := by
    rw [h.entryInode_eq hw.toThinned hc hchild.isDir hchild.slot hnot, h.inodePtr_eq hlive.1]
  rw [removeDirectoryOrFileOrLink_eq (by rw [htype]; decide) hinode]
  refine (h.emptied hc hh hw ⟨hlive, hdir⟩ hX (fun x hx => hA x (.inr ⟨hdir, hx⟩)) has' hNA hN
    hreadable haddr.fits haddr.inside hremove).bind ?_
  rintro d₁ ⟨w₁, A₁, h₁, hw₁, hmem⟩
  have hstill : ∀ x ∈ as ++ [a], x ∉ A₁ := fun x hx hin =>
    ((hmem x).mp hin).elim (has' x hx) (hroute'.not_inside hh hx)
  refine (h₁.removeEmptyDirectory hw₁ hc hh hchild
    (hstill a (List.mem_append_right _ (List.mem_singleton_self a))) hdir now
    (haddr.parent d₁ w₁ A₁ h₁ hw₁.toThinned fun x hx =>
      hstill x (List.mem_append_left _ hx))).mono ?_ fun _ => id
  rintro d₂ ⟨w₂, h₂, hw₂, hparent⟩
  exact ⟨w₁, w₂, A₁, h₂, hw₁, hw₂, hmem, hparent⟩

theorem removes_entry {now : ℕ} (hheight : v.Descends L height)
    (hrel : ∀ f, ¬ (v.inode f).IsDirectory → v.NamedOnly L N f → v.Releasable f)
    (hchild : v.Child L p a) (hXp : X p)
    (hX : ∀ q, (v.inode (v.target a)).IsDirectory → v.Below L (v.target a) q → X q)
    (hpos : 1 ≤ n) (hdeep : (v.inode (v.target a)).IsDirectory → height (v.target a) + 2 ≤ n)
    (haddr : Addressed L v E path p a as) (hN : ∀ x, v.Goes L a x → N x)
    (hreadable : ∀ x, v.Goes L a x → v.Readable L x) :
    Removes L v X N E (removeDirectoryOrFileOrLink now n) a path as := by
  induction n generalizing p a path as with
  | zero => exact absurd hpos (by omega)
  | succ n ih =>
      intro d w A h hw hA has hNA
      have hnot := hA a (.inl rfl)
      by_cases hdir : (v.inode (v.target a)).IsDirectory
      · have hremove : ∀ e path, v.Child L (v.target a) e →
            Addressed L v E path (v.target a) e (as ++ [a]) →
              Removes L v X N E (removeDirectoryOrFileOrLink now n) e path (as ++ [a]) := by
          intro e path he haddr'
          have hgoes : ∀ x, v.Goes L e x → v.Goes L a x := fun x hx =>
            .inr ⟨hdir, View.inside_iff.mpr ⟨e, he, hx⟩⟩
          have hle := hdeep hdir
          refine ih he (hX _ hdir .refl)
            (fun q hedir hq => hX q hdir (View.below_iff.mpr (.inr ⟨e, he, hedir, hq⟩)))
            (by omega) (fun hedir => ?_) haddr' (fun x hx => hN x (hgoes x hx))
            fun x hx => hreadable x (hgoes x hx)
          have := hheight _ _ he hedir
          omega
        refine (removes_directory hc hh h hw hchild hdir (hX _ hdir .refl) hA has hNA
          (fun x hx => hN x (.inr ⟨hdir, hx⟩)) (fun x hx => hreadable x (.inr ⟨hdir, hx⟩)) haddr
          hremove).mono ?_ fun _ => id
        rintro d₂ ⟨w₁, w₂, A₁, h₂, -, hw₂, hmem, -⟩
        refine ⟨w₂, a :: A₁, h₂, hw₂.mono fun k hk => hk.elim id fun heq => heq ▸ hXp,
          fun x => ?_⟩
        rw [List.mem_cons, hmem]
        constructor
        · rintro (rfl | hx | hx)
          · exact .inr (.inl rfl)
          · exact .inl hx
          · exact .inr (.inr ⟨hdir, hx⟩)
        · rintro (hx | rfl | ⟨-, hx⟩)
          · exact .inr (.inl hx)
          · exact .inl rfl
          · exact .inr (.inr hx)
      · rw [removeDirectoryOrFileOrLink, h.fileType_eq hw.toThinned hc hchild.toEntry,
          if_pos ((hreadable a (.inl rfl)).type hdir)]
        refine (h.removeFile hw hc hh hchild hnot hdir (fun hfreed =>
          hrel _ hdir ⟨⟨a, hN a (.inl rfl), rfl⟩, fun q x hx hxf =>
            (List.mem_cons.mp (hfreed.2 q x hx hxf)).elim (fun heq => heq ▸ hN a (.inl rfl))
              (hNA x)⟩) now
          fun d w hshows hthin => haddr.parent d w A hshows hthin has).mono ?_ fun _ => id
        rintro d' ⟨w', h', hw', -⟩
        refine ⟨w', a :: A, h', hw', fun x => ?_⟩
        rw [List.mem_cons, or_comm]
        exact or_congr_right ⟨.inl, fun hx => hx.resolve_right fun hboth => hdir hboth.1⟩

end

/-! ## The depth -/

/-- The result `r'` is `r` unless `r` is that of an endless loop. -/
def Outlasts {α : Type} (r r' : Except Fault α) : Prop := r ≠ .error .hang → r' = r

theorem Outlasts.refl {α : Type} (r : Except Fault α) : Outlasts r r := fun _ => rfl

theorem Outlasts.bind {α β : Type} {r r' : Except Fault α} {f f' : α → Except Fault β}
    (h : Outlasts r r') (hf : ∀ x, Outlasts (f x) (f' x)) : Outlasts (r.bind f) (r'.bind f') := by
  intro hne
  cases r with
  | error fault =>
      have hr := h fun heq => hne (heq ▸ rfl)
      rw [hr]
      rfl
  | ok x =>
      have hr := h (by simp)
      rw [hr]
      exact hf x hne

theorem Outlasts.foldlM {f f' : Disk → ℕ → Except Fault Disk}
    (h : ∀ d i, Outlasts (f d i) (f' d i)) (is : List ℕ) (d : Disk) :
    Outlasts (is.foldlM f d) (is.foldlM f' d) := by
  induction is generalizing d with
  | nil => exact .refl _
  | cons i is ih => exact (h d i).bind ih

theorem outlasts_removeEntries {remove' : Disk → ℕ → CString → Except Fault Disk} {start n : ℕ}
    (h : ∀ d e path, Outlasts (remove d e path) (remove' d e path)) (position : ℕ) (d : Disk) :
    Outlasts (removeEntries remove path start n position d)
      (removeEntries remove' path start n position d) := by
  induction n generalizing position d with
  | zero => exact .refl _
  | succ n ih =>
      rw [removeEntries, removeEntries]
      by_cases hposition : position < 1024
      · rw [if_pos hposition, if_pos hposition]
        refine Outlasts.bind ?_ fun d => ?_
        · unfold removeEntry
          split
          · dsimp only
            split
            · exact .refl _
            · exact h d _ _
          · exact .refl _
        · split
          · exact .refl _
          · exact ih _ d
      · rw [if_neg hposition, if_neg hposition]
        exact .refl _

/-- A greater depth changes nothing once the depth is enough. -/
theorem outlasts_removeDirectoryOrFileOrLink (now n : ℕ) (d : Disk) (e : ℕ) (path : CString) :
    Outlasts (removeDirectoryOrFileOrLink now n d e path)
      (removeDirectoryOrFileOrLink now (n + 1) d e path) := by
  induction n generalizing d e path with
  | zero => exact fun hne => absurd rfl hne
  | succ n ih =>
      rw [removeDirectoryOrFileOrLink, removeDirectoryOrFileOrLink]
      split
      · exact .refl _
      · refine (Outlasts.refl _).bind fun inode => (Outlasts.foldlM (fun d i => ?_) _ _).bind
          fun d => .refl _
        split
        · exact .refl _
        · exact (Outlasts.refl _).bind fun start => outlasts_removeEntries ih _ _

theorem removeDirectoryOrFileOrLink_of_le {now k : ℕ} {r : Except Fault Disk}
    (h : removeDirectoryOrFileOrLink now n d e path = r) (hr : r ≠ .error .hang) (hle : n ≤ k) :
    removeDirectoryOrFileOrLink now k d e path = r := by
  induction k, hle using Nat.le_induction with
  | base => exact h
  | succ k hle ih =>
      rw [outlasts_removeDirectoryOrFileOrLink now k d e path (ih ▸ hr), ih]

end KernelProgramming.Ext2
