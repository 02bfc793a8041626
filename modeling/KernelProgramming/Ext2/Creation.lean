import KernelProgramming.Ext2.Placement
import KernelProgramming.Ext2.Paths

/-!
# New names and new directories on a volume

A directory that gets an entry, and an inode that becomes a directory.  A
consistent volume stays consistent, and what was found before is found again.
-/

namespace KernelProgramming.Ext2

open ByteMemory

variable {L : Layout} {u v w : View} {b i k n p : ℕ} {new : DirEntry} {name : CString}

namespace View

/-! ## The blocks of an inode without pointer blocks -/

theorem data_single (hb : b ≠ 0)
    (h : (v.inode n).block = Function.update (fun _ => 0) 0 b) :
    (v.inode n).DirectOnly ∧ v.data n = [b] := by
  have hdirect : (v.inode n).DirectOnly := fun i hi _ => by
    rw [h, Function.update_of_ne]
    rintro rfl
    exact absurd hi (by decide)
  refine ⟨hdirect, ?_⟩
  rw [data_of_directOnly hdirect, h]
  simp [totalBlockCount, List.range_succ, hb]

theorem filter_map_update {f : ℕ → ℕ} {slots : List ℕ} (hi : i ∈ slots) (hslots : slots.Nodup)
    (hzero : f i = 0) (hb : b ≠ 0) :
    ∃ xs ys, (slots.map f).filter (· ≠ 0) = xs ++ ys ∧
      (slots.map (Function.update f i b)).filter (· ≠ 0) = xs ++ b :: ys := by
  obtain ⟨before, after, rfl⟩ := List.append_of_mem hi
  obtain ⟨-, hafter, hdisjoint⟩ := List.nodup_append.mp hslots
  have hother : ∀ l : List ℕ, i ∉ l → l.map (Function.update f i b) = l.map f := fun l hl =>
    List.map_congr_left fun j hj => Function.update_of_ne (ne_of_mem_of_not_mem hj hl) ..
  refine ⟨(before.map f).filter (· ≠ 0), (after.map f).filter (· ≠ 0), ?_, ?_⟩
  · simp [hzero]
  · rw [List.map_append, List.map_cons, Function.update_self,
      hother before fun hin => hdisjoint i hin i List.mem_cons_self rfl,
      hother after (List.nodup_cons.mp hafter).1, List.filter_append,
      List.filter_cons_of_pos (by simpa using hb)]

theorem data_update (h : (v.inode n).DirectOnly) (hi : i < directBlockCount)
    (hzero : (v.inode n).block i = 0) (hb : b ≠ 0)
    (hw : (w.inode n).block = Function.update (v.inode n).block i b) :
    (w.inode n).DirectOnly ∧ ∃ xs ys, v.data n = xs ++ ys ∧ w.data n = xs ++ b :: ys := by
  have hdirect : (w.inode n).DirectOnly := fun j hj hj' => by
    rw [hw, Function.update_of_ne (by omega)]
    exact h j hj hj'
  refine ⟨hdirect, ?_⟩
  rw [data_of_directOnly h, data_of_directOnly hdirect, hw]
  have htotal : directBlockCount ≤ totalBlockCount := by decide
  exact filter_map_update (List.mem_range.mpr (lt_of_lt_of_le hi htotal)) List.nodup_range hzero hb

/-! ## What was found before -/

/-- The directories of `v` are directories of `w`, and what is found in `v` is
found in `w`. -/
structure Extends (L : Layout) (v w : View) : Prop where
  dir : ∀ k, v.Live L k → (v.inode k).IsDirectory → (w.inode k).IsDirectory
  lookup : ∀ k name e, v.Live L k → (v.inode k).IsDirectory → v.lookup k name = some e →
    w.lookup k name = some e
  search : ∀ k name, v.Live L k → (v.inode k).IsDirectory → v.Searchable k name →
    w.Searchable k name

theorem Extends.reach (h : v.Extends L w) (hc : v.Consistent L) (hn : v.Live L n)
    {names : List CString} (hreach : v.reach n names = some k) : w.reach n names = some k := by
  induction names generalizing n with
  | nil => exact hreach
  | cons name rest ih =>
      rw [View.reach] at hreach ⊢
      split_ifs at hreach with hdir
      obtain ⟨e, he, hrest⟩ := Option.bind_eq_some_iff.mp hreach
      rw [if_pos (h.dir n hn hdir), h.lookup n name e hn hdir he]
      exact ih (hc.live_of_lookup hn hdir he) hrest

theorem Extends.searchPath (h : v.Extends L w) (hc : v.Consistent L) (hn : v.Live L n)
    {names : List CString} (hreach : v.reach n names = some k) (hpath : v.SearchPath n names) :
    w.SearchPath n names := by
  induction names generalizing n with
  | nil => trivial
  | cons name rest ih =>
      obtain ⟨hdir, hsearch, hnext⟩ := hpath
      rw [View.reach, if_pos hdir] at hreach
      obtain ⟨e, he, hrest⟩ := Option.bind_eq_some_iff.mp hreach
      refine ⟨h.dir n hn hdir, h.search n name hn hdir hsearch, fun e' he' => ?_⟩
      rw [h.lookup n name e hn hdir he] at he'
      obtain rfl := Option.some.inj he'
      exact ih (hc.live_of_lookup hn hdir he) hrest (hnext e he)

theorem Extends.trans (h : u.Extends L v) (h' : v.Extends L w)
    (hlive : ∀ k, u.Live L k → v.Live L k) : u.Extends L w where
  dir k hk hdir := h'.dir k (hlive k hk) (h.dir k hk hdir)
  lookup k name e hk hdir he :=
    h'.lookup k name e (hlive k hk) (h.dir k hk hdir) (h.lookup k name e hk hdir he)
  search k name hk hdir hs :=
    h'.search k name (hlive k hk) (h.dir k hk hdir) (h.search k name hk hdir hs)

theorem direct_subset_data (v : View) (n : ℕ) : v.direct n ⊆ v.data n := by
  obtain ⟨rest, hdata⟩ := v.data_eq_append n
  rw [hdata]
  exact List.subset_append_left _ _

theorem Keeps.searchable (h : v.Keeps w k) (hc : v.Consistent L) (hk : v.Live L k)
    (hdir : (v.inode k).IsDirectory) (hsearch : v.Searchable k name) : w.Searchable k name := by
  rcases hsearch with hdirect | ⟨e, he, hname⟩
  · left
    intro i hi hi'
    rw [h.block]
    exact hdirect i hi hi'
  · right
    refine ⟨e, ?_, hname⟩
    have heq : w.direct k = v.direct k := by rw [direct, direct, h.block]
    have hblock : ∀ c ∈ v.direct k,
        filesIn w.byte (w.entriesOf c) = filesIn v.byte (v.entriesOf c) := fun c hc' => by
      have hdata := direct_subset_data v k hc'
      exact (entriesOf_congr (h.same c (data_subset_owned v k hdata))
        (hc.tiled k hk hdir c hdata)).2.2
    rw [heq]
    generalize v.direct k = cs at he hblock
    induction cs with
    | nil => exact he
    | cons c cs ih =>
        rw [List.flatMap_cons, filesIn_append] at he ⊢
        rw [hblock c List.mem_cons_self]
        rw [List.mem_append] at he ⊢
        exact he.imp_right fun he => ih he fun c' hc' => hblock c' (List.mem_cons_of_mem c hc')

/-- Directories that keep their blocks, next to at most one that gets a name
that was not in it. -/
theorem Consistent.extends_of_keeps (hc : v.Consistent L) (new : DirEntry)
    (hkeeps : ∀ k, k ≠ p → v.Live L k → v.Keeps w k)
    (hp : v.Live L p → (v.inode p).IsDirectory → (w.inode p).IsDirectory ∧
      (w.inode p).DirectOnly ∧ v.lookup p new.name = none ∧ Adds new (v.files p) (w.files p)) :
    v.Extends L w where
  dir k hk hdir := by
    by_cases hkp : k = p
    · subst hkp
      exact (hp hk hdir).1
    · exact (hkeeps k hkp hk).isDirectory_iff.mpr hdir
  lookup k name e hk hdir he := by
    by_cases hkp : k = p
    · subst hkp
      obtain ⟨-, -, hnone, hadds⟩ := hp hk hdir
      have hname : name ≠ new.name := by
        rintro rfl
        exact absurd (hnone.symm.trans he) (Option.some_ne_none e).symm
      rw [View.lookup, hadds.find?_eq fun heq => absurd heq hname, if_neg hname]
      exact he
    · rw [View.lookup, ((hkeeps k hkp hk).files_eq hc hk hdir).2]
      exact he
  search k name hk hdir hs := by
    by_cases hkp : k = p
    · subst hkp
      exact .inl (hp hk hdir).2.1
    · exact (hkeeps k hkp hk).searchable hc hk hdir hs

/-! ## Links -/

theorem not_live_zero : ¬ v.Live L 0 := fun h => absurd h.1.1 (by decide)

theorem Consistent.setLinks (hc : v.Consistent L) (p x : ℕ) :
    (v.setInode p { v.inode p with linksCount := x }).Consistent L :=
  hc.replace (p := 0)
    { counted := hc.counted
      marked := fun _ _ h _ => h
      live := fun _ _ => Iff.rfl
      keeps := fun k _ _ => keeps_setLinks v p x k
      used := fun h => absurd h not_live_zero
      once := fun h => absurd h not_live_zero
      apart := fun h => absurd h not_live_zero
      tiled := fun h => absurd h not_live_zero
      named := fun h => absurd h not_live_zero
      still := fun h => absurd h not_live_zero
      root := fun h => absurd h (by decide) }

theorem Consistent.extends_of_keeps_all (hc : v.Consistent L)
    (hkeeps : ∀ k, v.Live L k → v.Keeps w k) : v.Extends L w :=
  hc.extends_of_keeps (p := 0) ⟨[], 0, 0⟩ (fun k _ hk => hkeeps k hk)
    fun h => absurd h not_live_zero

/-! ## A directory gets an entry -/

/-- Directory `p` gets the entry `new`; the other inodes stay as they are. -/
structure Enters (L : Layout) (v w : View) (p : ℕ) (new : DirEntry) : Prop where
  consistent : w.Consistent L
  live : ∀ k, w.Live L k ↔ v.Live L k
  inode : ∀ k, k ≠ p → w.inode k = v.inode k
  keeps : ∀ k, k ≠ p → v.Live L k → v.Keeps w k
  isDirectory : (w.inode p).IsDirectory
  directOnly : (w.inode p).DirectOnly
  adds : Adds new (v.files p) (w.files p)

theorem Enters.extends (h : Enters L v w p new) (hc : v.Consistent L)
    (hnone : v.lookup p new.name = none) : v.Extends L w :=
  hc.extends_of_keeps _ h.keeps fun _ _ => ⟨h.isDirectory, h.directOnly, hnone, h.adds⟩

theorem Enters.lookup_eq (h : Enters L v w p new) (hnone : v.lookup p new.name = none) :
    w.lookup p new.name = some new := by
  rw [lookup, h.adds.find?_eq fun _ => hnone, if_pos rfl]

/-- What has to be known of the change: only inode `p` and block `b` differ,
which is the directory's own. -/
theorem Consistent.enters_of (hc : v.Consistent L) (hp : v.Live L p)
    (hdir : (v.inode p).IsDirectory) (hcounted : w.Counted L) (hbit : w.bit .inode = v.bit .inode)
    (hmarked : ∀ c, v.bit .block c = true → w.bit .block c = true)
    (hinode : ∀ k, k ≠ p → w.inode k = v.inode k) (hdir' : (w.inode p).IsDirectory)
    (hdirect : (w.inode p).DirectOnly) (hsame : ∀ c, c ≠ b → v.SameBlock w c)
    (hb : b ≠ 0 ∧ L.IsPlain b ∧ w.bit .block (b - 1) = true) (htiled : w.TiledBlock b)
    (hfree : ∀ k, k ≠ p → v.Live L k → b ∉ v.owned k)
    (hdata : ∀ c ∈ w.data p, c ≠ b → c ∈ v.data p) (hnodup : (w.data p).Nodup)
    (hadds : Adds new (v.files p) (w.files p)) (hnew : v.Live L new.inode) :
    Enters L v w p new := by
  have hlive : ∀ k, w.Live L k ↔ v.Live L k := fun k => by rw [Live, Live, hbit]
  have hkeeps : ∀ k, k ≠ p → v.Live L k → v.Keeps w k := fun k hk hk' =>
    ⟨by rw [hinode k hk], by rw [hinode k hk], fun c hc' =>
      hsame c (ne_of_mem_of_not_mem hc' (hfree k hk hk'))⟩
  have howned : w.owned p = w.data p := owned_of_directOnly hdirect
  have hreplaces : Replaces L v w p :=
    { counted := hcounted
      marked := fun c _ hc' _ => hmarked _ hc'
      live := fun k _ => hlive k
      keeps := hkeeps
      used := fun _ c hc' => by
        rw [howned] at hc'
        by_cases hcb : c = b
        · rwa [hcb]
        · obtain ⟨hne, hplain, hbit'⟩ :=
            hc.used p hp c (data_subset_owned v p (hdata c hc' hcb))
          exact ⟨hne, hplain, hmarked _ hbit'⟩
      once := fun _ => by rwa [howned]
      apart := fun _ k hk hk' c hc' => by
        rw [howned] at hc'
        by_cases hcb : c = b
        · rw [hcb]
          exact hfree k hk hk'
        · exact hc.apart p k hp hk' hk.symm c (data_subset_owned v p (hdata c hc' hcb))
      tiled := fun _ _ c hc' => by
        by_cases hcb : c = b
        · rwa [hcb]
        · exact (entriesOf_congr (hsame c hcb) (hc.tiled p hp hdir c (hdata c hc' hcb))).1
      named := fun _ _ e he => by
        rw [hlive]
        rcases hadds.mem_iff.mp he with rfl | he
        · exact hnew
        · exact hc.named p hp hdir e he
      still := fun hp => .inl ((hlive p).mpr hp)
      root := fun _ => ⟨(hlive p).mpr hp, hdir'⟩ }
  exact ⟨hc.replace hreplaces, hlive, hinode, hkeeps, hdir', hdirect, hadds⟩

theorem Consistent.enters {entries : List DirEntry} (hc : v.Consistent L) (hp : v.Live L p)
    (hdir : (v.inode p).IsDirectory) (hdirect : (v.inode p).DirectOnly) (hb : b ∈ v.data p)
    (hrw : v.Rewrites w b entries) (hadds : Adds new (filesIn v.byte (v.entriesOf b)) entries)
    (hnew : v.Live L new.inode) : Enters L v w p new := by
  have hbit : w.bit = v.bit := by rw [hrw.eq]
  have hinode : w.inode = v.inode := by rw [hrw.eq]
  have hdata : w.data p = v.data p := by
    rw [data_of_directOnly hdirect, data_of_directOnly (by rwa [hinode]), hinode]
  have hnodup : (v.data p).Nodup := owned_of_directOnly hdirect ▸ hc.once p hp
  have howned := data_subset_owned v p hb
  have hcounted : w.Counted L := by
    rw [hrw.eq]
    exact hc.counted
  refine hc.enters_of hp hdir hcounted (by rw [hbit]) (fun c hc' => by rwa [hbit])
    (fun k _ => by rw [hinode]) (by rwa [hinode]) (by rwa [hinode]) hrw.same ?_ hrw.tiled ?_ ?_ ?_
    (hrw.adds hadds hnodup hb hdata (hc.tiled p hp hdir)) hnew
  · rw [hbit]
    exact hc.used p hp b howned
  · exact fun k hk hk' => hc.apart p k hp hk' hk.symm b howned
  · exact fun c hc' _ => hdata ▸ hc'
  · rwa [hdata]

theorem Consistent.free_block (hc : v.Consistent L) (hb : b ∈ v.clear L .block) :
    b ≠ 0 ∧ L.IsPlain b ∧ ∀ k, v.Live L k → b ∉ v.owned k := by
  obtain ⟨hne, hle, hbit⟩ := mem_clear.mp hb
  refine ⟨hne, ?_, fun k hk hin => ?_⟩
  · by_contra hplain
    have hmarked := hc.reserved b (Nat.pos_of_ne_zero hne) hle hplain
    rw [hbit] at hmarked
    exact Bool.false_ne_true hmarked
  · have hmarked := (hc.used k hk b hin).2.2
    rw [hbit] at hmarked
    exact Bool.false_ne_true hmarked

theorem bit_mark (v : View) (t : BitmapType) (n : ℕ) :
    (v.mark t n).bit = Function.update v.bit t (Function.update (v.bit t) (n - 1) true) := rfl

theorem bit_mark_self (v : View) (t : BitmapType) (n : ℕ) : (v.mark t n).bit t (n - 1) = true := by
  rw [bit_mark, Function.update_self, Function.update_self]

theorem bit_mark_of_bit {t s : BitmapType} {c : ℕ} (h : v.bit t c = true) (n : ℕ) :
    (v.mark s n).bit t c = true := by
  rw [bit_mark]
  by_cases ht : t = s
  · subst ht
    rw [Function.update_self, Function.update_apply]
    split
    · rfl
    · exact h
  · rwa [Function.update_of_ne ht]

/-- The directory gets a block of its own for the entry. -/
theorem Consistent.enters_block (hc : v.Consistent L) (hp : v.Live L p)
    (hdir : (v.inode p).IsDirectory) (hdirect : (v.inode p).DirectOnly)
    (hi : i < directBlockCount) (hzero : (v.inode p).block i = 0) (hb : b ∈ v.clear L .block)
    (hrw : (v.attach p i b).Rewrites w b [new]) (hnew : v.Live L new.inode) :
    Enters L v w p new := by
  obtain ⟨hne, hplain, hfree⟩ := hc.free_block hb
  have hbit : w.bit = (v.mark .block b).bit := by
    rw [hrw.eq]
    rfl
  have hother : ∀ k, k ≠ p → w.inode k = v.inode k := fun k hk => by
    rw [hrw.eq]
    exact Function.update_of_ne hk ..
  have hself : w.inode p = (v.attach p i b).inode p := by rw [hrw.eq]
  rw [attach, inode_setInode] at hself
  obtain ⟨hdirect', xs, ys, hold, hnow⟩ :=
    data_update (w := w) hdirect hi hzero hne (by rw [hself])
  have hin : ∀ c ∈ xs ++ ys, c ∈ v.owned p := fun c hc' =>
    data_subset_owned v p (by rwa [hold])
  have hnotin : b ∉ xs ++ ys := fun hb' => hfree p hp (hin b hb')
  have hnodup : (xs ++ ys).Nodup := by
    rw [← hold, ← owned_of_directOnly hdirect]
    exact hc.once p hp
  have hcounted : w.Counted L := by
    rw [hrw.eq]
    exact hc.counted.mark hne (mem_clear.mp hb).2.1
  refine hc.enters_of hp hdir hcounted ?_ ?_ hother ?_ hdirect' hrw.same ?_ hrw.tiled ?_ ?_ ?_ ?_
    hnew
  · rw [hbit, bit_mark, Function.update_of_ne (by decide)]
  · intro c hmarked
    rw [hbit]
    exact bit_mark_of_bit hmarked b
  · rw [hself]
    exact hdir
  · rw [hbit]
    exact ⟨hne, hplain, bit_mark_self v .block b⟩
  · exact fun k _ hk => hfree k hk
  · intro c hc' hcb
    rw [hold]
    rw [hnow] at hc'
    simpa [hcb] using hc'
  · rw [hnow]
    exact List.nodup_middle.mpr (List.nodup_cons.mpr ⟨hnotin, hnodup⟩)
  · rw [List.mem_append, not_or] at hnotin
    have htiled : ∀ c ∈ xs ++ ys, v.TiledBlock c := fun c hc' =>
      hc.tiled p hp hdir c (by rwa [hold])
    have hxs := hrw.others hnotin.1 fun c hc' => htiled c (List.mem_append_left ys hc')
    have hys := hrw.others hnotin.2 fun c hc' => htiled c (List.mem_append_right xs hc')
    refine ⟨filesIn v.byte (xs.flatMap v.entriesOf), filesIn v.byte (ys.flatMap v.entriesOf), ?_,
      ?_⟩
    · rw [files, hold, List.flatMap_append, filesIn_append]
    · rw [files, hnow, List.flatMap_append, List.flatMap_cons, filesIn_append, filesIn_append,
        hxs, hys, hrw.entries_eq]
      rfl

/-! ## A new directory -/

/-- Inode `n`, which was free, becomes a directory with these entries in block `b`. -/
structure Creates (L : Layout) (v w : View) (n b : ℕ) (entries : List DirEntry) : Prop where
  consistent : w.Consistent L
  fresh : ¬ v.Live L n
  live : ∀ k, w.Live L k ↔ k = n ∨ v.Live L k
  inode : ∀ k, k ≠ n → w.inode k = v.inode k
  keeps : ∀ k, v.Live L k → v.Keeps w k
  isDirectory : (w.inode n).IsDirectory
  data_eq : w.data n = [b]
  files_eq : w.files n = entries
  clear : w.clear L .block = (v.clear L .block).filter (· ≠ b)

theorem live_mark_inode (hn : L.IsInode n) (hbit : w.bit .inode = (v.mark .inode n).bit .inode) :
    w.Live L k ↔ k = n ∨ v.Live L k := by
  unfold Live
  rw [hbit, bit_mark, Function.update_self, Function.update_apply]
  split
  · next hk =>
      constructor
      · rintro ⟨hk', -⟩
        exact .inl (by have := hk'.1; have := hn.1; omega)
      · rintro (rfl | h)
        · exact ⟨hn, rfl⟩
        · exact ⟨h.1, rfl⟩
  · next hk =>
      constructor
      · exact .inr
      · rintro (rfl | h)
        · exact absurd rfl hk
        · exact h

/-- Inode `n` and block `b`, which were free, are taken. -/
structure Takes (v w : View) (n b : ℕ) : Prop where
  eq : w = { (v.mark .inode n).mark .block b with inode := w.inode, byte := w.byte }
  inode : ∀ k, k ≠ n → w.inode k = v.inode k
  same : ∀ c, c ≠ b → v.SameBlock w c

theorem Takes.bit_eq (h : v.Takes w n b) : w.bit = ((v.mark .inode n).mark .block b).bit := by
  rw [h.eq]

theorem Takes.clear (h : v.Takes w n b) (hb : b ∈ v.clear L .block) :
    w.clear L .block = (v.clear L .block).filter (· ≠ b) := by
  rw [clear_congr (congrFun h.bit_eq .block), clear_mark (mem_clear.mp hb).1,
    clear_mark_of_ne (by decide)]

theorem Takes.live_iff (h : v.Takes w n b) (hn : n ∈ v.clear L .inode) :
    w.Live L k ↔ k = n ∨ v.Live L k := by
  obtain ⟨hpos, hle, -⟩ := mem_clear.mp hn
  apply live_mark_inode ⟨Nat.pos_of_ne_zero hpos, hle⟩
  rw [h.bit_eq, bit_mark, Function.update_of_ne (by decide)]

theorem Takes.keeps (h : v.Takes w n b) (hc : v.Consistent L) (hn : n ∈ v.clear L .inode)
    (hb : b ∈ v.clear L .block) (hk : v.Live L k) : v.Keeps w k := by
  have hkn : k ≠ n := by
    rintro rfl
    exact Bool.false_ne_true ((mem_clear.mp hn).2.2.symm.trans hk.2)
  exact ⟨by rw [h.inode k hkn], by rw [h.inode k hkn], fun c hc' =>
    h.same c (ne_of_mem_of_not_mem hc' ((hc.free_block hb).2.2 k hk))⟩

/-- The block becomes the only one of the inode. -/
theorem Consistent.takes (hc : v.Consistent L) (h : v.Takes w n b) (hn : n ∈ v.clear L .inode)
    (hgood : ext2GoodOldFirstIno < n) (hb : b ∈ v.clear L .block)
    (hblock : (w.inode n).block = Function.update (fun _ => 0) 0 b)
    (htiled : (w.inode n).IsDirectory → w.TiledBlock b)
    (hnamed : (w.inode n).IsDirectory → ∀ e ∈ filesIn w.byte (w.entriesOf b),
      e.inode = n ∨ v.Live L e.inode) : w.Consistent L := by
  obtain ⟨hnpos, hnle, hnbit⟩ := mem_clear.mp hn
  obtain ⟨hne, hplain, hfree⟩ := hc.free_block hb
  have hfresh : ¬ v.Live L n := fun h => Bool.false_ne_true (hnbit.symm.trans h.2)
  have hlive : ∀ k, w.Live L k ↔ k = n ∨ v.Live L k := fun k => h.live_iff hn
  obtain ⟨hdirect, hdata⟩ := data_single (v := w) (n := n) hne hblock
  have howned : w.owned n = [b] := (owned_of_directOnly hdirect).trans hdata
  have hbit := h.bit_eq
  have hcounted : w.Counted L := by
    rw [h.eq]
    exact (hc.counted.mark hnpos hnle).mark hne (mem_clear.mp hb).2.1
  have hmarked : ∀ c, v.bit .block c = true → w.bit .block c = true := fun c hc' => by
    rw [hbit]
    exact bit_mark_of_bit (bit_mark_of_bit hc' n) b
  have hreplaces : Replaces L v w n :=
    { counted := hcounted
      marked := fun c _ hc' _ => hmarked _ hc'
      live := fun k hk => (hlive k).trans (or_iff_right hk)
      keeps := fun k _ hk => h.keeps hc hn hb hk
      used := fun _ c hc' => by
        obtain rfl := List.mem_singleton.mp (howned ▸ hc')
        rw [hbit]
        exact ⟨hne, hplain, bit_mark_self _ .block _⟩
      once := fun _ => by
        rw [howned]
        exact List.nodup_singleton b
      apart := fun _ k _ hk c hc' => by
        obtain rfl := List.mem_singleton.mp (howned ▸ hc')
        exact hfree k hk
      tiled := fun _ hdir c hc' => by
        obtain rfl := List.mem_singleton.mp (hdata ▸ hc')
        exact htiled hdir
      named := fun _ hdir e he => by
        rw [files, hdata, List.flatMap_singleton] at he
        exact (hlive _).mpr (hnamed hdir e he)
      still := fun h => absurd h hfresh
      root := fun h => absurd hgood (by rw [h]; decide) }
  exact hc.replace hreplaces

theorem Consistent.creates {inode : Inode} {entries : List DirEntry} (hc : v.Consistent L)
    (hn : n ∈ v.clear L .inode) (hgood : ext2GoodOldFirstIno < n) (hb : b ∈ v.clear L .block)
    (hdir : inode.IsDirectory) (hblock : inode.block = Function.update (fun _ => 0) 0 b)
    (hrw : (((v.mark .inode n).mark .block b).setInode n inode).Rewrites w b entries)
    (hentries : ∀ e ∈ entries, e.inode = n ∨ v.Live L e.inode) :
    Creates L v w n b entries := by
  have hinode : w.inode = Function.update v.inode n inode := by
    rw [hrw.eq]
    rfl
  have hself : w.inode n = inode := by rw [hinode, Function.update_self]
  have htakes : v.Takes w n b := by
    refine ⟨?_, fun k hk => by rw [hinode, Function.update_of_ne hk], hrw.same⟩
    rw [hrw.eq]
    generalize (v.mark .inode n).mark .block b = u
    rfl
  have hcw : w.Consistent L :=
    hc.takes htakes hn hgood hb (by rw [hself, hblock]) (fun _ => hrw.tiled)
      fun _ => by rwa [hrw.entries_eq]
  have hfresh : ¬ v.Live L n := fun h =>
    Bool.false_ne_true ((mem_clear.mp hn).2.2.symm.trans h.2)
  obtain ⟨-, hdata⟩ := data_single (v := w) (n := n) (hc.free_block hb).1 (by rw [hself, hblock])
  have hfiles : w.files n = entries := by
    rw [files, hdata, List.flatMap_singleton, hrw.entries_eq]
  exact ⟨hcw, hfresh, fun k => htakes.live_iff hn, htakes.inode, fun k => htakes.keeps hc hn hb,
    by rwa [hself], hdata, hfiles, htakes.clear hb⟩

theorem Creates.extends {entries : List DirEntry} (h : Creates L v w n b entries)
    (hc : v.Consistent L) : v.Extends L w :=
  hc.extends_of_keeps_all h.keeps

end View

end KernelProgramming.Ext2
