import KernelProgramming.Ext2.Lookup

/-!
# The tree of directories

The entries of a volume by their addresses, and the conditions under which the
directories form a tree: the entries `.` and `..` aside, each directory is named
once.
-/

namespace KernelProgramming.Ext2

open ByteMemory

variable {L : Layout} {d : Disk} {v w : View} {a b c k n q x y : ℕ}

theorem Tiled.pairwise {m : ℕ → Byte} {z : ℕ} {es : List ℕ} (h : Tiled m z a es) :
    es.Pairwise fun e f => e + recLen m e ≤ f := by
  induction h with
  | nil => exact .nil
  | cons hwf hle htail ih => exact .cons (fun f hf => (htail.bounds hf).1) ih

namespace View

/-- The addresses of the entries of a directory. -/
def slots (v : View) (k : ℕ) : List ℕ := (v.data k).flatMap v.entriesOf

def IsDir (L : Layout) (v : View) (k : ℕ) : Prop := v.Live L k ∧ (v.inode k).IsDirectory

instance : DecidablePred (v.IsDir L) := fun _ => inferInstanceAs (Decidable (_ ∧ _))

def name (v : View) (a : ℕ) : CString := entryName v.byte a

/-- The number of the inode that an entry names. -/
def target (v : View) (a : ℕ) : ℕ := entryInode v.byte a

/-- Directory `k` has a live entry at `a`. -/
structure Entry (L : Layout) (v : View) (k a : ℕ) : Prop where
  isDir : v.IsDir L k
  slot : a ∈ v.slots k
  live : live v.byte a = true

/-- An entry other than `.` and `..`. -/
structure Child (L : Layout) (v : View) (k a : ℕ) : Prop extends v.Entry L k a where
  not_dot : v.name a ≠ [dot]
  not_dot_dot : v.name a ≠ [dot, dot]

/-- The live entries that name inode `n`. -/
def namers (L : Layout) (v : View) (n : ℕ) : List ℕ :=
  ((List.range (L.inodesCount + 1)).filter fun k => decide (v.IsDir L k)).flatMap fun k =>
    (v.slots k).filter fun a => live v.byte a && v.target a == n

/-- The directories without pointer blocks form a tree, and the links of an
inode are its names. -/
structure Hierarchy (L : Layout) (v : View) : Prop where
  direct : ∀ k, v.IsDir L k → (v.inode k).DirectOnly
  dots : ∀ k, v.IsDir L k → ∃ b bs q es, v.data k = b :: bs ∧
    filesIn v.byte (v.entriesOf b) = ⟨[dot], k, ext2FtDir⟩ :: ⟨[dot, dot], q, ext2FtDir⟩ :: es
  names : ∀ k a x, v.Entry L k a → v.Entry L k x → v.name a = v.name x → a = x
  legal : ∀ k a, v.Entry L k a → v.name a ≠ [] ∧ slash ∉ v.name a ∧ 0 ∉ v.name a
  types : ∀ k a, v.Entry L k a →
    (fileType v.byte a = ext2FtDir ↔ (v.inode (v.target a)).IsDirectory)
  parent : ∀ k q a x, v.Child L k a → v.Child L q x → v.target a = v.target x →
    (v.inode (v.target a)).IsDirectory → a = x
  descends : ∃ height : ℕ → ℕ, ∀ k a, v.Child L k a → (v.inode (v.target a)).IsDirectory →
    height (v.target a) < height k
  links : ∀ n, v.Live L n → (v.inode n).linksCount = (v.namers L n).length

/-- Directory `q` is `c` or below it. -/
inductive Below (L : Layout) (v : View) (c : ℕ) : ℕ → Prop
  | refl : Below L v c c
  | step {k a : ℕ} (h : Below L v c k) (hchild : v.Child L k a)
      (hdir : (v.inode (v.target a)).IsDirectory) : Below L v c (v.target a)

/-! ## Addresses of entries -/

theorem Consistent.slot_bounds (hc : v.Consistent L) (hk : v.IsDir L k) (ha : a ∈ v.slots k) :
    ∃ b ∈ v.data k, L.IsPlain b ∧ 1024 * b ≤ a ∧ a + recLen v.byte a ≤ 1024 * b + 1024 ∧
      WellFormed v.byte a ∧ a ∈ v.entriesOf b := by
  obtain ⟨b, hb, hab⟩ := List.mem_flatMap.mp ha
  obtain ⟨hge, hle, hwf⟩ := (hc.tiled k hk.1 hk.2 b hb).bounds hab
  exact ⟨b, hb, (hc.used k hk.1 b (data_subset_owned v k hb)).2.1, hge, hle, hwf, hab⟩

theorem Consistent.slot_unique (hc : v.Consistent L) (hk : v.IsDir L k) (hq : v.IsDir L q)
    (ha : a ∈ v.slots k) (ha' : a ∈ v.slots q) : k = q := by
  obtain ⟨b, hb, -, hge, hle, hwf, -⟩ := hc.slot_bounds hk ha
  obtain ⟨c, hc', -, hge', hle', -, -⟩ := hc.slot_bounds hq ha'
  have hlen := hwf.le
  obtain rfl : b = c := by omega
  by_contra hne
  exact hc.apart k q hk.1 hq.1 hne b (data_subset_owned v k hb) (data_subset_owned v q hc')

theorem Consistent.slots_apart (hc : v.Consistent L) (hk : v.IsDir L k) (hq : v.IsDir L q)
    (ha : a ∈ v.slots k) (hx : x ∈ v.slots q) (hne : a ≠ x) :
    a + recLen v.byte a ≤ x ∨ x + recLen v.byte x ≤ a := by
  obtain ⟨b, hb, -, hge, hle, hwf, hab⟩ := hc.slot_bounds hk ha
  obtain ⟨c, hc', -, hge', hle', hwf', hxc⟩ := hc.slot_bounds hq hx
  by_cases hbc : b = c
  · subst hbc
    have hpair := (hc.tiled k hk.1 hk.2 b hb).pairwise
    rcases List.pairwise_iff_getElem.mp hpair with hpair
    obtain ⟨i, hi, rfl⟩ := List.getElem_of_mem hab
    obtain ⟨j, hj, rfl⟩ := List.getElem_of_mem hxc
    rcases lt_trichotomy i j with hij | rfl | hij
    · exact .inl (hpair i j hi hj hij)
    · exact absurd rfl hne
    · exact .inr (hpair j i hj hi hij)
  · have hlen := hwf.le
    have hlen' := hwf'.le
    omega

section

variable (hc : v.Consistent L) (hh : v.Hierarchy L)

include hc hh

theorem Hierarchy.data_nodup (hk : v.IsDir L k) : (v.data k).Nodup := by
  rw [← owned_of_directOnly (hh.direct k hk)]
  exact hc.once k hk.1

theorem Hierarchy.slots_nodup (hk : v.IsDir L k) : (v.slots k).Nodup := by
  refine List.nodup_flatMap.mpr ⟨fun b hb => ?_, ?_⟩
  · have htiled := hc.tiled k hk.1 hk.2 b hb
    refine htiled.pairwise.imp_of_mem fun {a x} ha _ hax => ?_
    have hlen := (htiled.bounds ha).2.2.le
    omega
  · refine (hh.data_nodup hc hk).imp_of_mem fun {b c} hb hc' hne => ?_
    intro a hab hac
    have htiled := hc.tiled k hk.1 hk.2
    obtain ⟨hge, hle, hwf⟩ := (htiled b hb).bounds hab
    obtain ⟨hge', hle', -⟩ := (htiled c hc').bounds hac
    have hlen := hwf.le
    omega

theorem Hierarchy.namers_nodup (n : ℕ) : (v.namers L n).Nodup := by
  refine List.nodup_flatMap.mpr ⟨fun k hk => ?_, ?_⟩
  · have hdir := of_decide_eq_true (List.mem_filter.mp hk).2
    exact (hh.slots_nodup hc hdir).filter _
  · refine (List.nodup_range.filter _).imp_of_mem fun {k q} hk hq hne => ?_
    intro a ha ha'
    exact hne (hc.slot_unique (of_decide_eq_true (List.mem_filter.mp hk).2)
      (of_decide_eq_true (List.mem_filter.mp hq).2) (List.mem_filter.mp ha).1
      (List.mem_filter.mp ha').1)

end

theorem mem_namers : a ∈ v.namers L n ↔ ∃ k, v.Entry L k a ∧ v.target a = n := by
  simp only [namers, List.mem_flatMap, List.mem_filter, List.mem_range, Bool.and_eq_true,
    decide_eq_true_eq, beq_iff_eq]
  constructor
  · rintro ⟨k, ⟨-, hk⟩, ha, hlive, htarget⟩
    exact ⟨k, ⟨hk, ha, hlive⟩, htarget⟩
  · rintro ⟨k, ⟨hk, ha, hlive⟩, htarget⟩
    exact ⟨k, ⟨Nat.lt_succ_of_le hk.1.1.2, hk⟩, ha, hlive, htarget⟩

theorem mem_filesIn {m : ℕ → Byte} {es : List ℕ} {e : DirEntry} :
    e ∈ filesIn m es ↔ ∃ a ∈ es, Ext2.live m a = true ∧ dirEntry m a = e := by
  simp only [filesIn, List.mem_map, List.mem_filter]
  constructor
  · rintro ⟨a, ⟨ha, hlive⟩, rfl⟩
    exact ⟨a, ha, hlive, rfl⟩
  · rintro ⟨a, ha, hlive, rfl⟩
    exact ⟨a, ⟨ha, hlive⟩, rfl⟩

theorem Entry.mem_files (h : v.Entry L k a) : dirEntry v.byte a ∈ v.files k :=
  mem_filesIn.mpr ⟨a, h.slot, h.live, rfl⟩

/-- An entry stays where it is in a directory that keeps its blocks. -/
theorem Entry.keeps (h : v.Entry L k a) (hc : v.Consistent L) (hkeeps : v.Keeps w k)
    (hlive : w.Live L k) : w.Entry L k a ∧ dirEntry w.byte a = dirEntry v.byte a := by
  obtain ⟨b, hb, -, hge, hle, hwf, hab⟩ := hc.slot_bounds h.isDir h.slot
  have hlen := hwf.le
  have hsame := hkeeps.same b (data_subset_owned v k hb)
  have hbytes : ∀ i < 8 + nameLen v.byte a, i ≠ 4 → i ≠ 5 → w.byte (a + i) = v.byte (a + i) := by
    intro i hi _ _
    obtain ⟨j, hj⟩ := Nat.exists_eq_add_of_le (show 1024 * b ≤ a + i by omega)
    rw [hj]
    exact hsame j (by omega)
  obtain ⟨-, hlive', hentry⟩ := entry_congr hbytes
  refine ⟨⟨⟨hlive, hkeeps.isDirectory_iff.mpr h.isDir.2⟩, ?_, hlive'.trans h.live⟩, hentry⟩
  refine List.mem_flatMap.mpr ⟨b, by rwa [hkeeps.data_eq], ?_⟩
  rw [(entriesOf_congr hsame (hc.tiled k h.isDir.1 h.isDir.2 b hb)).2.1]
  exact hab

theorem Consistent.live_target (hc : v.Consistent L) (h : v.Entry L k a) :
    v.Live L (v.target a) :=
  hc.named k h.isDir.1 h.isDir.2 _ h.mem_files

theorem Hierarchy.exists_dots (hh : v.Hierarchy L) (hk : v.IsDir L k) :
    ∃ b bs x y, v.data k = b :: bs ∧ x ∈ v.entriesOf b ∧ y ∈ v.entriesOf b ∧
      v.Entry L k x ∧ v.Entry L k y ∧ v.name x = [dot] ∧ v.name y = [dot, dot] ∧
      v.target x = k := by
  obtain ⟨b, bs, q, es, hdata, hfiles⟩ := hh.dots k hk
  have hmem : ∀ a ∈ v.entriesOf b, a ∈ v.slots k := fun a ha =>
    List.mem_flatMap.mpr ⟨b, hdata ▸ List.mem_cons_self, ha⟩
  obtain ⟨x, hx, hxlive, hxe⟩ := mem_filesIn.mp (hfiles ▸ List.mem_cons_self)
  obtain ⟨y, hy, hylive, hye⟩ :=
    mem_filesIn.mp (hfiles ▸ List.mem_cons_of_mem _ List.mem_cons_self)
  exact ⟨b, bs, x, y, hdata, hx, hy, ⟨hk, hmem x hx, hxlive⟩, ⟨hk, hmem y hy, hylive⟩,
    congrArg DirEntry.name hxe, congrArg DirEntry.name hye, congrArg DirEntry.inode hxe⟩

theorem Hierarchy.child_of_entry (hh : v.Hierarchy L) (h : v.Entry L k a)
    (hfile : ¬ (v.inode (v.target a)).IsDirectory) : v.Child L k a := by
  obtain ⟨b, bs, q, es, hdata, hfiles⟩ := hh.dots k h.isDir
  have hnot : ∀ e ∈ filesIn v.byte (v.entriesOf b), e.fileType = ext2FtDir → v.name a ≠ e.name := by
    intro e he htype hname
    obtain ⟨x, hx, hlive, rfl⟩ := mem_filesIn.mp he
    have hentry : v.Entry L k x :=
      ⟨h.isDir, List.mem_flatMap.mpr ⟨b, hdata ▸ List.mem_cons_self, hx⟩, hlive⟩
    obtain rfl := hh.names k a x h hentry hname
    exact hfile ((hh.types k a h).mp htype)
  rw [hfiles] at hnot
  exact ⟨h, hnot _ List.mem_cons_self rfl, hnot _ (List.mem_cons_of_mem _ List.mem_cons_self) rfl⟩

/-! ## What lies below a directory -/

theorem Below.isDir (hc : v.Consistent L) (h : v.Below L c q) (hdir : v.IsDir L c) :
    v.IsDir L q := by
  induction h with
  | refl => exact hdir
  | step h hchild htarget ih => exact ⟨hc.live_target hchild.toEntry, htarget⟩

theorem Below.trans (h : v.Below L c k) (h' : v.Below L k q) : v.Below L c q := by
  induction h' with
  | refl => exact h
  | step _ hchild hdir ih => exact ih.step hchild hdir

theorem Below.height_le {height : ℕ → ℕ} (hheight : ∀ k a, v.Child L k a →
    (v.inode (v.target a)).IsDirectory → height (v.target a) < height k) (h : v.Below L c q) :
    height q ≤ height c := by
  induction h with
  | refl => exact le_rfl
  | step h hchild hdir ih =>
      have := hheight _ _ hchild hdir
      omega

/-- Below a directory is what is below its children. -/
theorem below_iff : v.Below L c q ↔ q = c ∨
    ∃ a, v.Child L c a ∧ (v.inode (v.target a)).IsDirectory ∧ v.Below L (v.target a) q := by
  constructor
  · intro h
    induction h with
    | refl => exact .inl rfl
    | step h hchild hdir ih =>
        rcases ih with rfl | ⟨a, ha, hadir, hbelow⟩
        · exact .inr ⟨_, hchild, hdir, .refl⟩
        · exact .inr ⟨a, ha, hadir, hbelow.step hchild hdir⟩
  · rintro (rfl | ⟨a, ha, hadir, hbelow⟩)
    · exact .refl
    · exact (Below.refl.step ha hadir).trans hbelow

theorem below_iff_last : v.Below L c q ↔ q = c ∨
    ∃ k a, v.Below L c k ∧ v.Child L k a ∧ (v.inode (v.target a)).IsDirectory ∧
      v.target a = q := by
  constructor
  · rintro (_ | ⟨h, hchild, hdir⟩)
    · exact .inl rfl
    · exact .inr ⟨_, _, h, hchild, hdir, rfl⟩
  · rintro (rfl | ⟨k, a, h, hchild, hdir, rfl⟩)
    · exact .refl
    · exact h.step hchild hdir

/-- The subtrees of two children are disjoint. -/
theorem Below.disjoint (hc : v.Consistent L) (hh : v.Hierarchy L) (hx : v.Child L c x)
    (hy : v.Child L c y) (hdir : (v.inode (v.target x)).IsDirectory)
    (hdir' : (v.inode (v.target y)).IsDirectory) (h : v.Below L (v.target x) q)
    (h' : v.Below L (v.target y) q) : x = y := by
  obtain ⟨height, hheight⟩ := hh.descends
  have hnot : ∀ z, v.Child L c z → (v.inode (v.target z)).IsDirectory →
      ¬ v.Below L (v.target z) c := fun z hz hzdir hbelow => by
    have := hbelow.height_le hheight
    have := hheight c z hz hzdir
    omega
  generalize htop : v.target x = s at h
  induction h with
  | refl =>
      rcases below_iff_last.mp h' with hq | ⟨k, a, hbelow, hchild, hadir, hq⟩
      · exact hh.parent c c x y hx hy (htop.trans hq) hdir
      · obtain rfl := hh.parent c k x a hx hchild (htop.trans hq.symm) hdir
        obtain rfl := hc.slot_unique hx.isDir hchild.isDir hx.slot hchild.slot
        exact absurd hbelow (hnot y hy hdir')
  | step hbelow hchild hadir ih =>
      rcases below_iff_last.mp h' with hq | ⟨k', a', hbelow', hchild', hadir', hq⟩
      · obtain rfl := hh.parent _ _ _ _ hchild hy hq hadir
        obtain rfl := hc.slot_unique hchild.isDir hy.isDir hchild.slot hy.slot
        exact absurd (htop ▸ hbelow) (hnot x hx hdir)
      · obtain rfl := hh.parent _ _ _ _ hchild hchild' hq.symm hadir
        obtain rfl := hc.slot_unique hchild.isDir hchild'.isDir hchild.slot hchild'.slot
        exact ih hbelow'

end View

/-! ## Found entries -/

namespace Layout

variable {path name token : CString} {rest : List CString}

theorem Shows.dirEntry_slot (h : L.Shows d w) (hbyte : w.byte = v.byte) (hc : v.Consistent L)
    (hk : v.IsDir L k) (ha : a ∈ v.slots k) :
    dirEntry d.byte a = dirEntry v.byte a ∧ live d.byte a = live v.byte a := by
  obtain ⟨b, -, hplain, hge, hle, hwf, -⟩ := hc.slot_bounds hk ha
  have hlen := hwf.le
  rw [← hbyte] at hle hlen ⊢
  have hsame : ∀ i < 8 + nameLen w.byte a, i ≠ 4 → i ≠ 5 → d.byte (a + i) = w.byte (a + i) :=
    fun i hi _ _ => h.byte_eq (by rwa [show (a + i) / 1024 = b by omega])
  obtain ⟨-, hlive, hentry⟩ := entry_congr hsame
  exact ⟨hentry, hlive⟩

/-- What is found is an entry of the directory. -/
theorem Shows.entry_of_locate (h : L.Shows d v) (hc : v.Consistent L) (hk : v.IsDir L k)
    (hsearch : v.Searchable k name)
    (hfound : locateFileByName d (L.inodeAddress k) name = .ok (some a)) : v.Entry L k a := by
  obtain ⟨bs, rest, r, hdata, hlocate, hr, -⟩ :=
    h.locateFileByName_find hk.1.1 (hc.openAt hk.1 hk.2 hsearch).blocks hsearch
  obtain rfl : r = some a := Except.ok.inj (hlocate.symm.trans hfound)
  have hslot : a ∈ v.slots k := by
    rw [View.slots, hdata, List.flatMap_append]
    exact List.mem_append_left _ (List.mem_of_find?_eq_some hr.symm)
  have hmatches := List.find?_some hr.symm
  rw [matchesName, Bool.and_eq_true, Bool.and_eq_true] at hmatches
  refine ⟨hk, hslot, ?_⟩
  rw [← (h.dirEntry_slot rfl hc hk hslot).2]
  exact hmatches.1.2

theorem Shows.entry_of_walkPath (h : L.Shows d v) (hc : v.Consistent L) (hn : v.Live L n)
    (hsearch : v.SearchPath n (token :: rest))
    (hwalk : walkPath d (L.inodeAddress n) token rest = .ok (some a)) : ∃ k, v.Entry L k a := by
  induction rest generalizing n token with
  | nil => exact ⟨n, h.entry_of_locate hc ⟨hn, hsearch.1⟩ hsearch.2.1 hwalk⟩
  | cons next rest ih =>
      obtain ⟨hdir, hsearchable, hnext⟩ := hsearch
      have hopen : v.OpenAt L n token := hc.openAt hn hdir hsearchable
      obtain ⟨r, hlocate, hr⟩ := h.locateFileByName_eq hn.1 hopen.blocks hsearchable
      rw [walkPath, hlocate] at hwalk
      cases r with
      | none => exact absurd hwalk (by simp [bind, Except.bind])
      | some entry =>
          have hlive : v.Live L (entryInode d.byte entry) := hc.live_of_lookup hn hdir hr.symm
          simp only [bind, Except.bind] at hwalk
          rw [h.inodePtr_eq hlive.1] at hwalk
          exact ih hlive (hnext _ hr.symm) hwalk

theorem Shows.entry_of_findDirEntry (h : L.Shows d v) (hc : v.Consistent L)
    (hsearch : v.SearchPath rootInodeNumber (tokens path.tail))
    (hfind : findDirEntry d path = .ok (some a)) : ∃ k, v.Entry L k a := by
  rw [findDirEntry, h.getRootInode_eq] at hfind
  cases htokens : tokens path.tail with
  | nil => exact absurd hfind (by simp [htokens, bind, Except.bind])
  | cons token rest =>
      rw [htokens] at hsearch hfind
      exact h.entry_of_walkPath hc hc.root.1 hsearch hfind

end Layout

end KernelProgramming.Ext2
