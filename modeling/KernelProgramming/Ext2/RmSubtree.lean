import KernelProgramming.Ext2.Recursion

/-!
# What `ext2_rm -r` removes

A run on a directory other than the root removes the directory with everything
below it, and nothing else, as long as the names below it are read as they are.
-/

namespace KernelProgramming.Ext2

open ByteMemory Runs

variable {L : Layout} {d d' : Disk} {v w : View} {a e k n p x : ℕ} {A as : List ℕ}
  {E : Fault → Prop} {path dir name : CString} {names rest : List CString}

/-- An absolute path with single slashes, without the components `.` and `..`. -/
structure PlainPath (path : CString) : Prop where
  absolute : path.head? = some slash
  single : ¬ [slash, slash] <:+: path
  no_dot : [dot] ∉ tokens path
  no_dot_dot : [dot, dot] ∉ tokens path

/-- The subtree of directory `k` is one that the recursion gets through: every
entry is read as it is, and the blocks of each file that goes can be released. -/
structure View.Removable (L : Layout) (v : View) (k : ℕ) : Prop where
  readable : ∀ x, v.Inside L k x → v.Readable L x
  releasable : ∀ n, ¬ (v.inode n).IsDirectory → v.NamedOnly L (v.Inside L k) n → v.Releasable n

/-- The entries `A`, which are the one at `a` in directory `p` and those below it,
are gone with all that they were the only names of. -/
structure SubtreeRemoved (L : Layout) (v w : View) (p a : ℕ) (A : List ℕ) : Prop where
  nodup : A.Nodup
  mem : ∀ x, x ∈ A ↔ v.Goes L a x
  counted : w.Counted L
  live : ∀ n, w.Live L n ↔ v.Live L n ∧ ¬ v.NamedOnly L (v.Goes L a) n
  blocks : ∀ b, b ≠ 0 → b ≤ L.blocksCount → (w.bit .block (b - 1) = true ↔
    v.bit .block (b - 1) = true ∧ ∀ n, v.NamedOnly L (v.Goes L a) n → b ∉ v.owned n)
  owned : ∀ n, v.Live L n → w.owned n = v.owned n
  kept : ∀ n, ¬ v.NamedOnly L (v.Goes L a) n →
    w.inode n = { v.inode n with linksCount := (w.inode n).linksCount }
  /-- a file has as many links less as names of it are gone -/
  files : ∀ n, v.Live L n → ¬ (v.inode n).IsDirectory →
    (w.inode n).linksCount + A.countP (fun x => v.target x == n) = (v.inode n).linksCount
  dirs : ∀ n, (v.inode n).IsDirectory → ¬ v.NamedOnly L (v.Goes L a) n → n ≠ p →
    w.inode n = v.inode n
  parent : w.IsDir L p ∧ (w.inode p).linksCount + 1 = (v.inode p).linksCount
  entries : ∀ q x, v.Entry L q x → ¬ v.Goes L a x → dirEntry w.byte x = dirEntry v.byte x
  byte : w.byte = without v.byte A

namespace View

theorem IsDir.exists_entry {f : DirEntry} (hp : v.IsDir L p) (h : v.lookup p name = some f) :
    ∃ a, v.Entry L p a ∧ v.name a = name ∧ v.target a = f.inode := by
  obtain ⟨hmem, rfl⟩ := mem_of_lookup h
  obtain ⟨a, ha, hlive, rfl⟩ := mem_filesIn.mp hmem
  exact ⟨a, ⟨hp, ha, hlive⟩, rfl, rfl⟩

/-- Where a path without `.` and `..` leads to a directory, it goes from one
directory down to the next. -/
theorem Route.of_reach (hc : v.Consistent L) (h : v.Route L names n as)
    (hreach : v.reach n rest = some k) (hdir : (v.inode k).IsDirectory) (hdot : [dot] ∉ rest)
    (hdots : [dot, dot] ∉ rest) : ∃ as', v.Route L (names ++ rest) k as' := by
  induction rest generalizing n names as with
  | nil =>
      obtain rfl : n = k := by simpa [reach] using hreach
      exact ⟨as, by rwa [List.append_nil]⟩
  | cons name rest ih =>
      obtain ⟨hne, hnot⟩ := List.ne_and_not_mem_of_not_mem_cons hdot
      obtain ⟨hne', hnot'⟩ := List.ne_and_not_mem_of_not_mem_cons hdots
      rw [reach] at hreach
      split_ifs at hreach with hn
      obtain ⟨f, hf, hrest⟩ := Option.bind_eq_some_iff.mp hreach
      obtain ⟨a, hentry, rfl, htarget⟩ := (h.isDir hc).exists_entry hf
      rw [← htarget] at hrest
      have hchild : v.Child L n a := ⟨hentry, Ne.symm hne, Ne.symm hne'⟩
      have hadir : (v.inode (v.target a)).IsDirectory := by
        cases rest with
        | nil =>
            obtain rfl : v.target a = k := by simpa [reach] using hrest
            exact hdir
        | cons next rest =>
            rw [reach] at hrest
            split_ifs at hrest with hadir
            exact hadir
      rw [List.append_cons]
      exact ih (h.step hchild hadir) hrest hnot hnot'

end View

/-! ## The entry that the path leads to -/

namespace Layout

/-- The last name of a path is looked for in the directory before it. -/
theorem Shows.findDirEntry_concat (h : L.Shows d v) (hp : L.IsInode p)
    (habsolute : path.head? = some slash) (htokens : tokens path = tokens dir ++ [name])
    (hroot : tokens dir = [] → p = rootInodeNumber)
    (hdir : tokens dir ≠ [] → dir.head? = some slash ∧
      ∃ entry, findDirEntry d dir = .ok (some entry) ∧ entryInode d.byte entry = p) :
    findDirEntry d path = locateFileByName d (L.inodeAddress p) name := by
  rw [findDirEntry, tokens_tail habsolute, htokens, h.getRootInode_eq]
  simp only [bind, Except.bind]
  cases hnames : tokens dir with
  | nil => rw [hroot hnames, List.nil_append]; rfl
  | cons token rest =>
      obtain ⟨hhead, entry, hfind, hentry⟩ := hdir (by rw [hnames]; simp)
      rw [findDirEntry, tokens_tail hhead, hnames, h.getRootInode_eq] at hfind
      simp only [bind, Except.bind] at hfind
      rw [List.cons_append]
      simp only [walkPath_concat, hfind, Except.bind, hentry, h.inodePtr_eq hp]

/-- The entries that are left are found by their names. -/
theorem Shows.locateFileByName_entry (h : L.Shows d w) (hw : v.Thinned L A w)
    (hc : v.Consistent L) (hh : v.Hierarchy L) (ha : v.Entry L p a) :
    locateFileByName d (L.inodeAddress p) (v.name a) = .ok (if a ∈ A then none else some a) := by
  have hdirect := hh.direct p ha.isDir
  have hblocks : ∀ b ∈ ((List.range totalBlockCount).map (w.inode p).block).filter (· ≠ 0),
      L.IsPlain b ∧ w.TiledBlock b := fun b hb => by
    rw [hw.block, ← View.data_of_directOnly hdirect] at hb
    exact ⟨(hc.used p ha.isDir.1 b (View.data_subset_owned v p hb)).2.1,
      (hw.tiled hc ha.isDir hb).1⟩
  have hslots : v.slots p = (((List.range totalBlockCount).map (w.inode p).block).filter
      (· ≠ 0)).flatMap w.entriesOf := by
    rw [← hw.slots_eq hc hh ha.isDir, View.slots, View.data_of_directOnly (hw.directOnly hdirect)]
  rw [locateFileByName, h.locateFrom_find ha.isDir.1.1 _ (fun i hi => List.mem_range.mp hi) hblocks,
    ← hslots]
  -- an entry with the name matches, and no other one
  have hmatch : ∀ x ∈ v.slots p, matchesName d.byte (v.name a) x = true ↔ x = a ∧ a ∉ A := by
    intro x hx
    obtain ⟨-, -, -, -, -, hwf, -⟩ := hc.slot_bounds ha.isDir hx
    have hroom := hwf.le
    have hbyte : ∀ i < recLen v.byte x, d.byte (x + i) = w.byte (x + i) := fun i hi =>
      h.slot_byte hc ha.isDir hx hi
    obtain ⟨-, hlenw, hnamew, -⟩ := hw.slot_eq hc ha.isDir hx
    have hlive : live d.byte x = live w.byte x := by
      rw [live, live, entryInode_congr fun i hi => hbyte i (by omega)]
    have hlen := nameLen_congr (hbyte 6 (by omega))
    have hname : entryName d.byte x = v.name x := by
      rw [← hnamew]
      exact entryName_congr hlen fun i hi => hbyte (8 + i) (by omega)
    have hlength : (v.name x).length = nameLen d.byte x := by
      rw [hlen, hlenw]
      exact length_getBytes ..
    have hiff : matchesName d.byte (v.name a) x = true ↔
        live w.byte x = true ∧ v.name x = v.name a := by
      rw [← hlive, matchesName, hname, live]
      simp only [Bool.and_eq_true, beq_iff_eq, bne_iff_ne]
      constructor
      · rintro ⟨⟨-, hlive⟩, hname⟩
        exact ⟨hlive, hname⟩
      · rintro ⟨hlive, hname⟩
        exact ⟨⟨by rw [← hlength, hname], hlive⟩, hname⟩
    rw [hiff, hw.live_iff hc ha.isDir hx]
    constructor
    · rintro ⟨⟨hlive, hnot⟩, hname⟩
      obtain rfl := hh.names p x a ⟨ha.isDir, hx, hlive⟩ ha hname
      exact ⟨rfl, hnot⟩
    · rintro ⟨rfl, hnot⟩
      exact ⟨⟨ha.live, hnot⟩, rfl⟩
  apply congrArg Except.ok
  by_cases hin : a ∈ A
  · rw [if_pos hin, List.find?_eq_none]
    exact fun x hx hm => ((hmatch x hx).mp hm).2 hin
  · rw [if_neg hin]
    cases hfind : (v.slots p).find? (matchesName d.byte (v.name a)) with
    | none =>
        exact absurd ((hmatch a ha.slot).mpr ⟨rfl, hin⟩) (List.find?_eq_none.mp hfind a ha.slot)
    | some x =>
        rw [((hmatch x (List.mem_of_find?_eq_some hfind)).mp (List.find?_some hfind)).1]

end Layout

/-! ## The run -/

section

variable (hc : v.Consistent L) (hh : v.Hierarchy L)

include hc hh

/-- The entry in its directory that a path to a subdirectory leads to. -/
theorem PlainPath.exists_child (hpath : PlainPath path)
    (hfits : E .overrun ∨ path.length % 16 ≠ 0 ∧ v.PathsFit L path.length k)
    (hreach : v.reach rootInodeNumber (tokens path) = some k) (hroot : k ≠ rootInodeNumber) :
    ∃ p a as names, v.Child L p a ∧ v.target a = k ∧ v.Route L names p as ∧
      tokens path = names ++ [v.name a] ∧ Addressed L v E path p a as ∧
        ∀ d, L.Shows d v → findDirEntry d path = .ok (some a) := by
  have hne : tokens path ≠ [] := fun hnil => by
    rw [hnil] at hreach
    exact hroot (Option.some.inj hreach).symm
  obtain ⟨dir, name, rest, hsplit, hlast, htokens, habove⟩ :=
    exists_parent hpath.absolute hpath.single hne
  have hdot := htokens ▸ hpath.no_dot
  have hdots := htokens ▸ hpath.no_dot_dot
  rw [List.mem_append, not_or] at hdot hdots
  rw [← v.walk_eq_reach _ hne, htokens, View.walk_concat] at hreach
  obtain ⟨f, hwalk, hf⟩ := Option.map_eq_some_iff.mp hreach
  obtain ⟨p, hp, hlookup⟩ := Option.bind_eq_some_iff.mp hwalk
  split_ifs at hlookup with hpdir
  obtain ⟨as, hroute⟩ := View.Route.root.of_reach hc hp hpdir hdot.1 hdots.1
  rw [List.nil_append] at hroute
  have hp' := hroute.isDir hc
  obtain ⟨a, hentry, rfl, htarget⟩ := hp'.exists_entry hlookup
  rw [hf] at htarget
  have hchild : v.Child L p a := ⟨hentry, fun heq => hdot.2 (by simp [heq]),
    fun heq => hdots.2 (by simp [heq])⟩
  have hleads : tokens dir ≠ [] → LeadsTo L v dir p as := fun hdir => by
    have hhead : dir ≠ [] := by
      rintro rfl
      exact hdir rfl
    exact ⟨(habove.resolve_left hhead).1, hdir, hroute⟩
  have hfirst : tokens dir = [] → dir = [] ∧ p = rootInodeNumber := fun hnil => by
    refine ⟨habove.resolve_right fun hboth => hboth.2 hnil, ?_⟩
    rw [hnil] at hp
    exact (Option.some.inj hp).symm
  refine ⟨p, a, as, _, hchild, htarget, hroute, htokens,
    ⟨⟨_, hroute⟩, fun d w A h hw has => ?_, fun x hx => ?_,
      htarget ▸ hfits.imp_right And.right⟩, fun d h => ?_⟩
  · by_cases hlen : path.length % 16 = 0
    · rw [findParentInode_overrun d hlen]
      exact hfits.resolve_right fun hfits => hfits.1 hlen
    refine yields_of_eq_ok ?_ rfl
    rw [hsplit, findParentInode_eq d (hsplit ▸ hlast) (hsplit ▸ hlen)]
    by_cases hnil : tokens dir = []
    · obtain ⟨rfl, rfl⟩ := hfirst hnil
      exact if_pos rfl
    · obtain ⟨entry, hfind, hentry⟩ := h.findDirEntry_leadsTo hw hc hh (hleads hnil) has
      rw [if_neg (show dir ≠ [] from fun heq => hnil (heq ▸ rfl)), hfind]
      exact congrArg Except.ok hentry
  · refine ⟨hpath.absolute, hne, ?_⟩
    rw [htokens]
    exact hroute.step hchild hx.isDir.2
  · rw [h.findDirEntry_concat hp'.1.1 hpath.absolute htokens (fun hnil => (hfirst hnil).2)
      fun hnil => ⟨(hleads hnil).absolute, ?_⟩]
    · exact (h.locateFileByName_entry (View.Pruned.refl (X := fun _ => False) hc).toThinned hc hh
        hentry).trans (by simp)
    · exact h.findDirEntry_leadsTo (A := []) (View.Pruned.refl (X := fun _ => False) hc).toThinned
        hc hh (hleads hnil) fun _ _ => List.not_mem_nil

end

namespace View

/-- A directory that goes has no other name. -/
theorem Goes.namedOnly (hh : v.Hierarchy L) (ha : v.Child L p a) (hx : v.Goes L a x)
    (hdir : (v.inode (v.target x)).IsDirectory) : v.NamedOnly L (v.Goes L a) (v.target x) := by
  obtain ⟨q, hchild⟩ := hx.child ha
  exact ⟨⟨x, hx, rfl⟩, fun q' y hy heq => hh.parent q' q y x hy hchild heq (heq ▸ hdir) ▸ hx⟩

theorem Below.exists_goes (hdir : (v.inode (v.target a)).IsDirectory)
    (h : v.Below L (v.target a) n) : ∃ x, v.Goes L a x ∧ v.target x = n := by
  rcases below_iff_last.mp h with rfl | ⟨q, x, hbelow, hchild, -, rfl⟩
  · exact ⟨a, .inl rfl, rfl⟩
  · exact ⟨x, .inr ⟨hdir, q, hbelow, hchild⟩, rfl⟩

theorem NamedOnly.congr {P Q : ℕ → Prop} (h : ∀ x, P x ↔ Q x) :
    v.NamedOnly L P n ↔ v.NamedOnly L Q n := by
  rw [funext fun x => propext (h x)]

theorem Goes.target_ne (hh : v.Hierarchy L) (ha : v.Child L p a)
    (hdir : (v.inode (v.target a)).IsDirectory) (hx : v.Goes L a x) : v.target x ≠ p := by
  obtain ⟨height, hheight⟩ := hh.descends
  have hlt := hheight p a ha hdir
  rintro rfl
  rcases hx with rfl | ⟨-, hinside⟩
  · exact lt_irrefl _ hlt
  · have := View.Inside.height_lt hheight hinside ha.isDir.2
    omega

end View

namespace Layout

theorem Shows.linksCount_pos (hh : v.Hierarchy L) (hp : v.IsDir L p) :
    1 ≤ (v.inode p).linksCount := by
  obtain ⟨b, bs, x, y, -, -, -, hx, -, -, -, htarget⟩ := hh.exists_dots hp
  rw [hh.links p hp.1]
  exact List.length_pos_of_mem (View.mem_namers.mpr ⟨p, hx, htarget⟩)

/-- What a removal of the directory and of all inside leaves is what the subtree leaves. -/
theorem subtreeRemoved_of_pruned {w₁ w₂ : View} {A : List ℕ} (hc : v.Consistent L)
    (hh : v.Hierarchy L) (hchild : v.Child L p a) (hdir : (v.inode (v.target a)).IsDirectory)
    (hmem : ∀ x, x ∈ A ↔ v.Inside L (v.target a) x)
    (hw₁ : v.Pruned L (v.Below L (v.target a)) A w₁)
    (hw₂ : v.Pruned L (fun k => v.Below L (v.target a) k ∨ k = p) (a :: A) w₂)
    (hparent : w₂.inode p = { w₁.inode p with
      linksCount := ((w₁.inode p).linksCount + (2 ^ 16 - 1)) % 2 ^ 16 })
    (hlt : (v.inode p).linksCount < 2 ^ 16) : SubtreeRemoved L v w₂ p a (a :: A) := by
  have hp := hchild.isDir
  have hgoes : ∀ x, x ∈ a :: A ↔ v.Goes L a x := fun x => by
    rw [List.mem_cons, hmem]
    exact or_congr_right (and_iff_right hdir).symm
  have hfreed : ∀ n, v.Freed L (a :: A) n ↔ v.NamedOnly L (v.Goes L a) n := fun n =>
    View.NamedOnly.congr hgoes
  have hpgoes : ∀ x, v.Goes L a x → v.target x ≠ p := fun x hx => hx.target_ne hh hchild hdir
  have hpnot : ¬ v.NamedOnly L (v.Goes L a) p := fun ⟨⟨x, hx, hxp⟩, _⟩ => hpgoes x hx hxp
  have hpbelow : ¬ v.Below L (v.target a) p := fun hbelow =>
    have ⟨x, hx, hxp⟩ := hbelow.exists_goes hdir
    hpgoes x hx hxp
  have hlinks : (w₁.inode p).linksCount = (v.inode p).linksCount := by
    rw [hw₁.dirs p hpbelow hp.2 fun x hx => hpgoes x (.inr ⟨hdir, (hmem x).mp hx⟩)]
  have hpos := Shows.linksCount_pos hh hp
  refine
    { nodup := hw₂.nodup
      mem := hgoes
      counted := hw₂.counted
      live := fun n => ?_
      blocks := fun b hb hle => ?_
      owned := fun n hn => hw₂.owned_eq hc hh hn
      kept := fun n hn => hw₂.kept n fun hn' => hn ((hfreed n).mp hn')
      files := hw₂.links
      dirs := fun n hndir hn hne => ?_
      parent := ?_
      entries := fun q x hx hnot =>
        hw₂.dirEntry_eq hc hx.isDir hx.slot fun hin => hnot ((hgoes x).mp hin)
      byte := hw₂.byte }
  · rw [View.Live, View.Live, and_assoc]
    apply and_congr_right
    intro hn
    rw [hw₂.inodes n hn, hfreed]
  · rw [hw₂.blocks b hb hle]
    exact and_congr_right fun _ => forall_congr' fun n => imp_congr_left (hfreed n)
  · refine hw₂.dirs n ?_ hndir fun x hx hxn => ?_
    · rintro (hbelow | rfl)
      · obtain ⟨x, hx, rfl⟩ := hbelow.exists_goes hdir
        exact hn (hx.namedOnly hh hchild hndir)
      · exact hne rfl
    · subst hxn
      exact hn (((hgoes x).mp hx).namedOnly hh hchild hndir)
  · refine ⟨⟨⟨hp.1.1, ?_⟩, hw₂.isDirectory_iff.mpr hp.2⟩, ?_⟩
    · exact (hw₂.inodes p hp.1.1).mpr ⟨hp.1.2, fun hin => hpnot ((hfreed p).mp hin)⟩
    · have hnow : (w₂.inode p).linksCount =
          ((w₁.inode p).linksCount + (2 ^ 16 - 1)) % 2 ^ 16 := by rw [hparent]
      omega

/-- The recursion from the entry of a directory on. -/
theorem Shows.removeSubtree (h : L.Shows d v) (now : ℕ) (hc : v.Consistent L) (hh : v.Hierarchy L)
    (hchild : v.Child L p a) (hdir : (v.inode (v.target a)).IsDirectory)
    (haddr : Addressed L v E path p a as) (hrem : v.Removable L (v.target a)) :
    ∃ depth, ∀ n ≥ depth, Yields (removeDirectoryOrFileOrLink now n d a path) (fun d' => ∃ w A,
      L.Shows d' w ∧ v.Thinned L A w ∧ SubtreeRemoved L v w p a A) E := by
  obtain ⟨height, hheight⟩ := hh.descends
  refine ⟨height (v.target a) + 2, fun n hn => ?_⟩
  obtain ⟨m, rfl⟩ : ∃ m, n = m + 1 := ⟨n - 1, by omega⟩
  have hremove : ∀ e path, v.Child L (v.target a) e →
      Addressed L v E path (v.target a) e (as ++ [a]) →
        Removes L v (v.Below L (v.target a)) (v.Inside L (v.target a)) E
          (removeDirectoryOrFileOrLink now m) e path (as ++ [a]) := by
    intro e path he haddr'
    have hgoes : ∀ x, v.Goes L e x → v.Inside L (v.target a) x := fun x hx =>
      View.inside_iff.mpr ⟨e, he, hx⟩
    refine removes_entry hc hh hheight hrem.releasable he .refl
      (fun q hedir hq => View.below_iff.mpr (.inr ⟨e, he, hedir, hq⟩)) (by omega)
      (fun hedir => ?_) haddr' hgoes fun x hx => hrem.readable x (hgoes x hx)
    have := hheight _ _ he hedir
    omega
  refine (removes_directory hc hh h (View.Pruned.refl hc) hchild hdir .refl
    (fun _ _ => List.not_mem_nil) (fun _ _ => List.not_mem_nil)
    (fun _ hx => absurd hx List.not_mem_nil) (fun _ hx => hx) hrem.readable haddr
    hremove).mono ?_ fun _ => id
  rintro d₂ ⟨w₁, w₂, A₁, h₂, hw₁, hw₂, hmem, hparent⟩
  exact ⟨w₂, a :: A₁, h₂, hw₂.toThinned,
    subtreeRemoved_of_pruned hc hh hchild hdir (fun x => by simpa using hmem x) hw₁ hw₂ hparent
      (h.linksCount_lt hchild.isDir.1.1)⟩

theorem Shows.not_found (h : L.Shows d w) (hc : v.Consistent L) (hh : v.Hierarchy L)
    (hw : v.Thinned L A w) (hchild : v.Child L p a) (ha : a ∈ A) (hroute : v.Route L names p as)
    (has : ∀ x ∈ as, x ∉ A) (habsolute : path.head? = some slash)
    (htokens : tokens path = names ++ [v.name a]) :
    w.reach rootInodeNumber (tokens path) = none ∧ findDirEntry d path = .ok none := by
  obtain ⟨hopen, hreach⟩ := hw.route hc hh hroute has
  have hat := hw.openAt hc hh hchild.isDir (v.name a)
  have hne : names ++ [v.name a] ≠ [] := by simp
  have hwalk : w.walk rootInodeNumber (names ++ [v.name a]) = none := by
    rw [View.walk_concat, hreach]
    change (if _ then _ else _ : Option DirEntry) = none
    rw [hw.lookup_eq hc hh hchild.toEntry, if_pos ha, ite_self]
  have htail := (tokens_tail habsolute).trans htokens
  obtain ⟨r, hfind, hr⟩ := h.findDirEntry_of_openPath path
    (by rw [htail]; exact hopen.concat hreach hat) (by rw [htail]; exact hne)
  rw [htail, hwalk, Option.map_eq_none_iff] at hr
  refine ⟨?_, hr ▸ hfind⟩
  rw [htokens, ← w.walk_eq_reach _ hne, hwalk]
  rfl

end Layout

/-- `ext2_rm -r` removes directory `k`, which the path leads to, with everything
below it; a recursion that is deep enough comes to its end. -/
def RemovesSubtree (L : Layout) (d : Disk) (v : View) (path : CString) (now k : ℕ) : Prop :=
  ∃ d' w p a A, (∃ depth, ∀ n ≥ depth, ext2Rm d true path now n = .ok (0, d')) ∧ L.Shows d' w ∧
    v.Child L p a ∧ v.target a = k ∧ SubtreeRemoved L v w p a A ∧
      w.reach rootInodeNumber (tokens path) = none ∧ findDirEntry d' path = .ok none

theorem rm_subtree {now : ℕ} (h : L.Shows d v) (hc : v.Consistent L) (hh : v.Hierarchy L)
    (hpath : PlainPath path) (hreach : v.reach rootInodeNumber (tokens path) = some k)
    (hdir : (v.inode k).IsDirectory) (hroot : k ≠ rootInodeNumber) (hrem : v.Removable L k)
    (hlen : path.length % 16 ≠ 0) (hfits : v.PathsFit L path.length k) :
    RemovesSubtree L d v path now k := by
  obtain ⟨p, a, as, names, hchild, rfl, hroute, htokens, haddr, hfind⟩ :=
    hpath.exists_child (E := fun _ => False) hc hh (.inr ⟨hlen, hfits⟩) hreach hroot
  obtain ⟨depth, hyields⟩ := h.removeSubtree now hc hh hchild hdir haddr hrem
  obtain ⟨d', hret, w, A, hshows, hthinned, hremoved⟩ := (hyields depth le_rfl).exists_ok
  have hnot : ∀ x ∈ as, x ∉ A := fun x hx hin =>
    hroute.not_inside hh hx (View.inside_iff.mpr ⟨a, hchild, (hremoved.mem x).mp hin⟩)
  refine ⟨d', w, p, a, A, ⟨depth, fun n hn => ?_⟩, hshows, hchild, rfl, hremoved, ?_⟩
  · have hlength : path.length ≠ 1 := fun hlength => by
      obtain ⟨b, rfl⟩ := List.length_eq_one_iff.mp hlength
      obtain rfl : b = slash := by simpa using hpath.absolute
      rw [show tokens [slash] = [] by decide] at htokens
      exact absurd htokens.symm (by simp)
    unfold ext2Rm
    simp only [hpath.absolute, ne_eq, not_true_eq_false, if_false, if_neg hlength, bind,
      Except.bind, hfind d h, removeDirectoryOrFileOrLink_of_le hret (by simp) hn]
    simp
  · exact hshows.not_found hc hh hthinned hchild ((hremoved.mem a).mpr (.inl rfl)) hroute hnot
      hpath.absolute htokens

/-! ## A volume with a subtree -/

/-- The directory `/a/bcde` with the file `z`, which is also `/a/y`. -/
def treeDisk : Disk where
  numBlocks := 16
  byte x :=
    match x / 1024 with
    | 1 => putBytes (fun _ => 0) sInodesCount
        (bytes32 16 ++ bytes32 16 ++ bytes32 0 ++ bytes32 6 ++ bytes32 2) x
    | 2 => putBytes (fun _ => 0) bgBlockBitmap
        (bytes32 3 ++ bytes32 4 ++ bytes32 5 ++ bytes16 6 ++ bytes16 2) x
    | 3 => putBytes (fun _ => 0) (1024 * 3) [0xFF#8, 0x81#8] x
    | 4 => putBytes (fun _ => 0) (1024 * 4) [0xFF#8, 0x3F#8] x
    | 5 => putInodes (fun _ => 0) (smallLayout.inodeAddress 2) [(ext2SIfdir, 3, 7)] x
    | 6 => putInodes (fun _ => 0) (smallLayout.inodeAddress 12)
        [(ext2SIfdir, 3, 8), (ext2SIfdir, 2, 9), (ext2SIfreg, 2, 0)] x
    | 7 => putBytes (fun _ => 0) (1024 * 7) (entryBytes 2 12 ext2FtDir [dot] ++ [0#8, 0#8, 0#8] ++
        entryBytes 2 12 ext2FtDir [dot, dot] ++ [0#8, 0#8] ++
        entryBytes 12 1000 ext2FtDir [0x61#8]) x
    | 8 => putBytes (fun _ => 0) (1024 * 8) (entryBytes 12 12 ext2FtDir [dot] ++ [0#8, 0#8, 0#8] ++
        entryBytes 2 12 ext2FtDir [dot, dot] ++ [0#8, 0#8] ++
        entryBytes 13 12 ext2FtDir [0x62#8, 0x63#8, 0x64#8, 0x65#8] ++
        entryBytes 14 988 ext2FtRegFile [0x79#8]) x
    | 9 => putBytes (fun _ => 0) (1024 * 9) (entryBytes 13 12 ext2FtDir [dot] ++ [0#8, 0#8, 0#8] ++
        entryBytes 12 12 ext2FtDir [dot, dot] ++ [0#8, 0#8] ++
        entryBytes 14 1000 ext2FtRegFile [0x7A#8]) x
    | _ => 0

def treeView : View := smallLayout.view treeDisk

theorem tree_shows : smallLayout.Shows treeDisk treeView :=
  ⟨⟨rfl, by decide, by decide, by decide, by decide,
    by decide⟩, rfl⟩

def treeOwned (n : ℕ) : List ℕ :=
  if n = 2 then [7] else if n = 12 then [8] else if n = 13 then [9] else []

theorem tree_owned : ∀ n < 17, treeView.owned n = treeOwned n := by decide

theorem tree_consistent : treeView.Consistent smallLayout :=
  View.consistent_of_table treeOwned tree_owned (fun t => by cases t <;> decide)
    (by decide) (by decide) (by decide) (by decide)
    (by decide) (by decide) (by decide)

/-- The directories and their entries. -/
def treeEntries : List (ℕ × ℕ) :=
  [(2, 7168), (2, 7180), (2, 7192), (12, 8192), (12, 8204), (12, 8216), (12, 8228), (13, 9216),
    (13, 9228), (13, 9240)]

theorem tree_entry (h : treeView.Entry smallLayout k a) : (k, a) ∈ treeEntries := by
  have hall : ∀ k < 17, treeView.IsDir smallLayout k → ∀ a ∈ treeView.slots k,
      (k, a) ∈ treeEntries := by decide
  exact hall k (Nat.lt_succ_of_le h.isDir.1.1.2) h.isDir a h.slot

theorem tree_child (h : treeView.Child smallLayout k a) :
    (k, a) ∈ [(2, 7192), (12, 8216), (12, 8228), (13, 9240)] := by
  have hall : ∀ e ∈ treeEntries, treeView.name e.2 ≠ [dot] → treeView.name e.2 ≠ [dot, dot] →
      e ∈ [(2, 7192), (12, 8216), (12, 8228), (13, 9240)] := by decide
  exact hall _ (tree_entry h.toEntry) h.not_dot h.not_dot_dot

theorem tree_targets : treeView.target 7192 = 12 ∧ treeView.target 8216 = 13 ∧
    treeView.target 8228 = 14 ∧ treeView.target 9240 = 14 ∧
      ¬ (treeView.inode 14).IsDirectory := by decide

theorem tree_hierarchy : treeView.Hierarchy smallLayout where
  direct k hk := by
    have hall : ∀ k < 17, treeView.IsDir smallLayout k → ∀ i < totalBlockCount,
      directBlockCount ≤ i → (treeView.inode k).block i = 0 := by decide
    exact fun i hi hi' => hall k (Nat.lt_succ_of_le hk.1.1.2) hk i hi' hi
  dots k hk := by
    have hall : ∀ k < 17, treeView.IsDir smallLayout k → k = 2 ∨ k = 12 ∨ k = 13 := by
      decide
    rcases hall k (Nat.lt_succ_of_le hk.1.1.2) hk with rfl | rfl | rfl
    · exact ⟨7, [], 2, [⟨[0x61#8], 12, ext2FtDir⟩], by decide +kernel⟩
    · exact ⟨8, [], 2, [⟨[0x62#8, 0x63#8, 0x64#8, 0x65#8], 13, ext2FtDir⟩,
        ⟨[0x79#8], 14, ext2FtRegFile⟩], by decide +kernel⟩
    · exact ⟨9, [], 12, [⟨[0x7A#8], 14, ext2FtRegFile⟩], by decide +kernel⟩
  names k a x ha hx hname := by
    have hall : ∀ e ∈ treeEntries, ∀ f ∈ treeEntries, e.1 = f.1 →
      treeView.name e.2 = treeView.name f.2 → e.2 = f.2 := by decide
    exact hall _ (tree_entry ha) _ (tree_entry hx) rfl hname
  legal k a ha := by
    have hall : ∀ e ∈ treeEntries, treeView.name e.2 ≠ [] ∧ slash ∉ treeView.name e.2 ∧
      0 ∉ treeView.name e.2 := by decide
    exact hall _ (tree_entry ha)
  types k a ha := by
    have hall : ∀ e ∈ treeEntries, (fileType treeView.byte e.2 = ext2FtDir ↔
      (treeView.inode (treeView.target e.2)).IsDirectory) := by decide
    exact hall _ (tree_entry ha)
  parent k q a x ha hx heq hdir := by
    obtain ⟨h₁, h₂, h₃, h₄, hfile⟩ := tree_targets
    have ha' := tree_child ha
    have hx' := tree_child hx
    simp only [List.mem_cons, Prod.mk.injEq, List.not_mem_nil, or_false] at ha' hx'
    rcases ha' with ⟨-, rfl⟩ | ⟨-, rfl⟩ | ⟨-, rfl⟩ | ⟨-, rfl⟩ <;>
      rcases hx' with ⟨-, rfl⟩ | ⟨-, rfl⟩ | ⟨-, rfl⟩ | ⟨-, rfl⟩ <;> simp_all
  descends := by
    refine ⟨fun k => if k = 2 then 2 else if k = 12 then 1 else 0, fun k a ha hdir => ?_⟩
    obtain ⟨h₁, h₂, h₃, h₄, hfile⟩ := tree_targets
    have ha' := tree_child ha
    simp only [List.mem_cons, Prod.mk.injEq, List.not_mem_nil, or_false] at ha'
    rcases ha' with ⟨rfl, rfl⟩ | ⟨rfl, rfl⟩ | ⟨rfl, rfl⟩ | ⟨rfl, rfl⟩
    · rw [h₁]
      decide
    · rw [h₂]
      decide
    · exact absurd (h₃ ▸ hdir) hfile
    · exact absurd (h₄ ▸ hdir) hfile
  links n hn := by
    have hall : ∀ n < 17, treeView.Live smallLayout n →
      (treeView.inode n).linksCount = (treeView.namers smallLayout n).length := by decide
    exact hall n (Nat.lt_succ_of_le hn.1.2) hn

/-- `/a/bcde`. -/
def treePath : CString := [slash, 0x61#8, slash, 0x62#8, 0x63#8, 0x64#8, 0x65#8]

theorem tree_inside (hx : treeView.Inside smallLayout 13 x) : x = 9240 := by
  obtain ⟨h₁, h₂, h₃, h₄, hfile⟩ := tree_targets
  obtain ⟨q, hbelow, hchild⟩ := hx
  obtain rfl : q = 13 := by
    rcases View.below_iff.mp hbelow with hq | ⟨a, ha, hdir, -⟩
    · exact hq
    · have ha' := tree_child ha
      simp only [List.mem_cons, Prod.mk.injEq, List.not_mem_nil, or_false] at ha'
      obtain rfl : a = 9240 := by omega
      exact absurd (h₄ ▸ hdir) hfile
  have hx := tree_child hchild
  simp only [List.mem_cons, Prod.mk.injEq, List.not_mem_nil, or_false] at hx
  omega

theorem tree_ends : treeView.EndsWithin smallLayout 9240 0 := ⟨by decide, by decide, by decide⟩

theorem tree_removable : treeView.Removable smallLayout 13 := by
  constructor
  · intro x hx
    obtain rfl := tree_inside hx
    refine ⟨⟨0, tree_ends, .inl rfl⟩, fun _ => .inl ?_⟩
    decide
  · rintro n - ⟨⟨x, hx, rfl⟩, -⟩
    obtain rfl := tree_inside hx
    rw [tree_targets.2.2.2.1]
    exact ⟨by decide, .inl (by decide)⟩

theorem tree_pathsFit : treeView.PathsFit smallLayout treePath.length 13 := by
  intro q n x hdeeper hx
  obtain rfl : n = 0 := by
    cases hdeeper with
    | refl => rfl
    | step h hchild hdir =>
        rw [tree_inside ⟨_, h.isBelow, hchild⟩, tree_targets.2.2.2.1] at hdir
        exact absurd hdir tree_targets.2.2.2.2
  obtain rfl := tree_inside ⟨q, hdeeper.isBelow, hx⟩
  refine ⟨0, tree_ends, fun j hj => ?_⟩
  obtain rfl := Nat.le_zero.mp hj
  exact ⟨by decide, by decide⟩

theorem tree_path : PlainPath treePath := ⟨rfl, by decide, by decide, by decide⟩

theorem rm_subtree_tree : RemovesSubtree smallLayout treeDisk treeView treePath 0 13 :=
  rm_subtree tree_shows tree_consistent tree_hierarchy tree_path (by decide)
    (by decide) (by decide) tree_removable (by decide) tree_pathsFit

/-- The name `bcde` is read together with the number in the entry behind it, and
`z` is not found by the path that results. -/
theorem rm_not_subtree : ¬ ∀ (L : Layout) (d : Disk) (v : View) (path : CString) (now k : ℕ),
    L.Shows d v → v.Consistent L → v.Hierarchy L → PlainPath path →
      v.reach rootInodeNumber (tokens path) = some k → (v.inode k).IsDirectory →
        k ≠ rootInodeNumber → RemovesSubtree L d v path now k := by
  intro h
  obtain ⟨d', w, p, a, A, ⟨depth, hret⟩, -⟩ := h _ _ _ [slash, 0x61#8] 0 12 tree_shows
    tree_consistent tree_hierarchy ⟨rfl, by decide, by decide, by decide⟩ (by decide)
    (by decide) (by decide)
  have hfault : (removeDirectoryOrFileOrLink 0 4 treeDisk 7192 [slash, 0x61#8]).map
      (fun _ => ()) = .error .wild := by decide +kernel
  have hfind : findDirEntry treeDisk [slash, 0x61#8] = .ok (some 7192) := by decide
  have hwild : removeDirectoryOrFileOrLink 0 4 treeDisk 7192 [slash, 0x61#8] = .error .wild := by
    cases hremove : removeDirectoryOrFileOrLink 0 4 treeDisk 7192 [slash, 0x61#8] with
    | error f =>
        rw [hremove] at hfault
        exact congrArg Except.error (Except.error.inj hfault)
    | ok d =>
        rw [hremove] at hfault
        exact absurd hfault (by simp [Except.map])
  have hdeep := removeDirectoryOrFileOrLink_of_le hwild (by simp) (le_max_right depth 4)
  have hret := hret (max depth 4) (le_max_left depth 4)
  unfold ext2Rm at hret
  simp [hfind, hdeep, bind, Except.bind] at hret

end KernelProgramming.Ext2
