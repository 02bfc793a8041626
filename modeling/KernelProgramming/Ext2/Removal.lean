import KernelProgramming.Ext2.Paths
import KernelProgramming.Ext2.Pruning
import KernelProgramming.Ext2.Rm
import KernelProgramming.Library.Runs

/-!
# Recursive removal

What the functions of `ext2_rm` do on a volume from which some names have been
removed already: each removes one more name, with what it was the last name of.
Where the lookup of the parent can end with a fault, they can do so too.
-/

namespace KernelProgramming.Ext2

open ByteMemory Runs

variable {L : Layout} {d d' : Disk} {v w w' : View} {a b c f i k n p q x y : ℕ} {A as : List ℕ}
  {X : ℕ → Prop} {path name : CString} {E : Fault → Prop}

/-- The path leads to directory `k`, which is not the root. -/
structure LeadsTo (L : Layout) (v : View) (path : CString) (k : ℕ) (as : List ℕ) : Prop where
  absolute : path.head? = some slash
  tokens_ne : tokens path ≠ []
  route : v.Route L (tokens path) k as

theorem find?_slot {f : ℕ → ℕ} {bs slots : List ℕ}
    (h : (slots.map f).filter (· ≠ 0) = b :: bs) :
    ∃ i ∈ slots, slots.find? (fun i => f i != 0) = some i ∧ f i = b := by
  induction slots with
  | nil => exact absurd h (by simp)
  | cons j slots ih =>
      by_cases hj : f j = 0
      · rw [List.map_cons, List.filter_cons_of_neg (by simpa using hj)] at h
        obtain ⟨i, hi, hfind, hfi⟩ := ih h
        refine ⟨i, List.mem_cons_of_mem j hi, ?_, hfi⟩
        rw [List.find?_cons_of_neg (by simpa using hj), hfind]
      · rw [List.map_cons, List.filter_cons_of_pos (by simpa using hj)] at h
        refine ⟨j, List.mem_cons_self, ?_, (List.cons.inj h).1⟩
        rw [List.find?_cons_of_pos (by simpa using hj)]

theorem two_le_countP {P : ℕ → Bool} {l : List ℕ} (hx : x ∈ l) (hy : y ∈ l) (hne : x ≠ y)
    (hPx : P x = true) (hPy : P y = true) : 2 ≤ l.countP P := by
  rw [List.countP_eq_length_filter]
  have hx' := List.mem_filter.mpr ⟨hx, hPx⟩
  have hy' := List.mem_filter.mpr ⟨hy, hPy⟩
  match l.filter P, hx', hy' with
  | [z], hx', hy' =>
      exact absurd ((List.mem_singleton.mp hx').trans (List.mem_singleton.mp hy').symm) hne
  | _ :: _ :: _, _, _ => simp

namespace Layout

section

variable (h : L.Shows d w) (hw : v.Thinned L A w) (hc : v.Consistent L) (hh : v.Hierarchy L)

include h hw hc hh

theorem Shows.findDirEntry_leadsTo (hpath : LeadsTo L v path k as) (has : ∀ a ∈ as, a ∉ A) :
    ∃ entry, findDirEntry d path = .ok (some entry) ∧ entryInode d.byte entry = k := by
  obtain ⟨hopen, hreach⟩ := hw.route hc hh hpath.route has
  have htail := tokens_tail hpath.absolute
  obtain ⟨r, hfind, hr⟩ := h.findDirEntry_of_openPath path (by rwa [htail])
    (by rw [htail]; exact hpath.tokens_ne)
  rw [htail] at hr
  rw [← w.walk_eq_reach _ hpath.tokens_ne, ← hr] at hreach
  cases r with
  | none => exact absurd hreach (by simp)
  | some entry => exact ⟨entry, hfind, Option.some.inj hreach⟩

theorem Shows.findParentInode_child (hpath : LeadsTo L v path k as) (has : ∀ a ∈ as, a ∉ A)
    (hname : slash ∉ name) (hne : name ≠ [])
    (hlen : (path ++ slash :: name).length % 16 ≠ 0) :
    findParentInode d (path ++ slash :: name) = .ok k := by
  obtain ⟨entry, hfind, hentry⟩ := h.findDirEntry_leadsTo hw hc hh hpath has
  have hpath_ne : path ≠ [] := by
    rintro rfl
    exact absurd hpath.absolute (by simp)
  rw [findParentInode_eq d (lastSlashInPath_eq hname hne) hlen, if_neg hpath_ne, hfind]
  exact congrArg Except.ok hentry

/-- The parent keeps its blocks: the first one has `.` and `..` in it. -/
theorem Shows.fixParent (hp : v.IsDir L p) (hparent : Yields (findParentInode d path) (· = p) E) :
    Yields (fixParent d a path) (· = (L.inodeAddress p, d)) E := by
  obtain ⟨b, bs, x, y, hdata, hx, hy, hxe, hye, hxname, hyname, -⟩ := hh.exists_dots hp
  have hbp : b ∈ v.data p := hdata ▸ List.mem_cons_self
  have hplain := (hc.used p hp.1 b (View.data_subset_owned v p hbp)).2.1
  obtain ⟨htiled, hes⟩ := hw.tiled hc hp hbp
  obtain ⟨htiled', -⟩ := h.tiled hplain htiled
  rw [hes] at htiled'
  -- the slot of the first block
  rw [View.data_of_directOnly (hh.direct p hp)] at hdata
  obtain ⟨i, hi, hfind, hib⟩ := find?_slot hdata
  have hslot : ∀ j ∈ List.range totalBlockCount,
      d.u32 (iBlock (L.inodeAddress p) j) = (v.inode p).block j := fun j hj => by
    rw [h.iBlock_eq hp.1.1 (List.mem_range.mp hj), hw.block]
  have hfirst : (List.range totalBlockCount).find?
      (fun i => d.u32 (iBlock (L.inodeAddress p) i) != 0) = some i := by
    rw [← hfind]
    exact find?_congr fun j hj => by rw [hslot j hj]
  have hb : d.u32 (iBlock (L.inodeAddress p) i) = b := (hslot i hi).trans hib
  have hlive : ∀ z ∈ v.entriesOf b, v.Entry L p z → v.name z = [dot] ∨ v.name z = [dot, dot] →
      live d.byte z = true := by
    intro z hz hze hname
    have hnot : z ∉ A := fun hin => by
      obtain ⟨q, hchild⟩ := hw.children z hin
      exact hname.elim hchild.not_dot hchild.not_dot_dot
    have hlive := (hw.live_iff hc hp hze.slot).mpr ⟨hze.live, hnot⟩
    obtain ⟨hge, hle, hwf⟩ := htiled'.bounds hz
    have hlen := hwf.le
    rw [live, entryInode_congr (m := w.byte) fun j hj => ?_]
    · exact hlive
    · obtain ⟨s, hs⟩ := Nat.exists_eq_add_of_le (show 1024 * b ≤ z + j by omega)
      rw [hs]
      exact h.byte_block hplain (by omega)
  have hcount : (v.entriesOf b).countP (live d.byte) ≠ 1 := by
    have hne : x ≠ y := by
      rintro rfl
      rw [hxname] at hyname
      exact absurd hyname (by decide)
    have := two_le_countP hx hy hne (hlive x hx hxe (.inl hxname)) (hlive y hy hye (.inr hyname))
    omega
  unfold Ext2.fixParent
  refine hparent.bind fun q hq => ?_
  rw [show q = p from hq]
  simp only [bind, Except.bind, h.inodePtr_eq hp.1.1, locateDirEntryInBlock, hfirst, hb,
    h.blockPtr_eq hplain.lt, htiled'.searchBlock_eq, updateParentInodeBlock, slotAddress,
    htiled'.entries_eq, if_neg hcount]
  simp

end

/-! ## A file -/

theorem Shows.slot_byte (h : L.Shows d w) (hc : v.Consistent L) (hk : v.IsDir L k)
    (ha : a ∈ v.slots k) (hi : i < recLen v.byte a) : d.byte (a + i) = w.byte (a + i) := by
  obtain ⟨b, -, hplain, hge, hle, -, -⟩ := hc.slot_bounds hk ha
  exact h.byte_eq (by rwa [show (a + i) / 1024 = b by omega])

theorem Shows.entryInode_eq (h : L.Shows d w) (hw : v.Thinned L A w) (hc : v.Consistent L)
    (hk : v.IsDir L k) (ha : a ∈ v.slots k) (hnot : a ∉ A) : entryInode d.byte a = v.target a := by
  obtain ⟨-, -, -, -, -, hwf, -⟩ := hc.slot_bounds hk ha
  have hlen := hwf.le
  rw [entryInode_congr (m := w.byte) fun i hi => h.slot_byte hc hk ha (by omega)]
  exact hw.target_eq hc hk ha hnot

theorem Shows.fileType_eq (h : L.Shows d w) (hw : v.Thinned L A w) (hc : v.Consistent L)
    (ha : v.Entry L p a) : fileType d.byte a = fileType v.byte a := by
  obtain ⟨-, -, -, -, -, hwf, -⟩ := hc.slot_bounds ha.isDir ha.slot
  have hroom := hwf.le
  rw [← (hw.slot_eq hc ha.isDir ha.slot).2.2.2]
  exact congrArg BitVec.toNat (h.slot_byte hc ha.isDir ha.slot (by omega))

theorem Shows.clearEntry (h : L.Shows d w) (hc : v.Consistent L) (hk : v.IsDir L k)
    (ha : a ∈ v.slots k) (hbyte : w.byte = without v.byte A) :
    L.Shows (d.setU32 a 0) { w with byte := without v.byte (a :: A) } := by
  obtain ⟨b, -, hplain, hge, hle, hwf, -⟩ := hc.slot_bounds hk ha
  have hlen := hwf.le
  rw [← putBytes_without, ← hbyte]
  apply h.copy
  intro x hx
  unfold Within at hx
  rw [length_bytes32] at hx
  rwa [show x / 1024 = b by omega]

end Layout

namespace View

def dropLink (v : View) (f : ℕ) : View :=
  v.setInode f { v.inode f with linksCount := (v.inode f).linksCount - 1 }

/-- The inode and its blocks after the last name is gone. -/
def dissolve (v : View) (f now : ℕ) : View :=
  ((v.releaseAll .block (v.passed f)).releaseOne .inode f).setInode f
    { v.inode f with dtime := now % 2 ^ 32, size := 0 }

def removeName (v : View) (f now : ℕ) : View :=
  if (v.inode f).linksCount = 1 then (v.dropLink f).dissolve f now else v.dropLink f

theorem inode_dropLink (v : View) (f : ℕ) :
    (v.dropLink f).inode f = { v.inode f with linksCount := (v.inode f).linksCount - 1 } :=
  inode_setInode ..

theorem linksCount_dropLink (v : View) (f : ℕ) :
    ((v.dropLink f).inode f).linksCount = (v.inode f).linksCount - 1 := by
  rw [inode_dropLink]

theorem inode_dropLink_of_ne (h : k ≠ f) (v : View) : (v.dropLink f).inode k = v.inode k :=
  inode_setInode_of_ne h ..

theorem inode_dissolve (v : View) (f now : ℕ) :
    (v.dissolve f now).inode f = { v.inode f with dtime := now % 2 ^ 32, size := 0 } :=
  inode_setInode ..

theorem inode_dissolve_of_ne (h : k ≠ f) (v : View) (now : ℕ) :
    (v.dissolve f now).inode k = v.inode k := by
  rw [dissolve, inode_setInode_of_ne h, (releaseOne_frame ..).1, (releaseAll_frame ..).1]

theorem byte_dissolve (v : View) (f now : ℕ) : (v.dissolve f now).byte = v.byte :=
  (releaseOne_frame ..).2.trans (releaseAll_frame ..).2

theorem bit_dissolve (v : View) (f now : ℕ) :
    (∀ i, (v.dissolve f now).bit .inode i = (v.bit .inode i && decide (i + 1 ≠ f))) ∧
      ∀ i, (v.dissolve f now).bit .block i = (v.bit .block i && decide (i + 1 ∉ v.passed f)) := by
  constructor <;> intro i
  · apply (bit_releaseOne ..).trans
    rw [bit_releaseAll_of_ne (by decide)]
  · apply (congrFun (bit_releaseOne_of_ne (show BitmapType.block ≠ .inode by decide) ..) i).trans
    exact bit_releaseAll ..

theorem Thinned.dropLink (hw : v.Thinned L A w) (f : ℕ) : v.Thinned L A (w.dropLink f) :=
  hw.frame (fun k => (keeps_setLinks w f _ k).mode) (fun k => (keeps_setLinks w f _ k).block) rfl

theorem Thinned.dissolve (hw : v.Thinned L A w) (f now : ℕ) :
    v.Thinned L A (w.dissolve f now) := by
  have hframe : ∀ k, ((w.dissolve f now).inode k).mode = (w.inode k).mode ∧
      ((w.dissolve f now).inode k).block = (w.inode k).block := by
    intro k
    by_cases hk : k = f
    · rw [hk, inode_dissolve]
      exact ⟨rfl, rfl⟩
    · rw [inode_dissolve_of_ne hk]
      exact ⟨rfl, rfl⟩
  exact hw.frame (fun k => (hframe k).1) (fun k => (hframe k).2) (byte_dissolve ..)

theorem Thinned.removeName (hw : v.Thinned L A w) (f now : ℕ) :
    v.Thinned L A (w.removeName f now) := by
  rw [View.removeName]
  split
  · exact (hw.dropLink f).dissolve f now
  · exact hw.dropLink f

theorem inode_removeName_of_ne (h : k ≠ f) (v : View) (now : ℕ) :
    (v.removeName f now).inode k = v.inode k := by
  rw [removeName]
  split
  · rw [inode_dissolve_of_ne h, inode_dropLink_of_ne h]
  · exact inode_dropLink_of_ne h v

end View

namespace Layout

/-- The bit of the inode goes, and its times and size are set. -/
theorem Shows.retireInode {n : ℕ} (h : L.Shows d w) (hn : L.IsInode n) (now : ℕ) :
    ∃ d₁, updateBitmap d .inode n false = .ok d₁ ∧ L.Shows d₁ (w.releaseOne .inode n) ∧
      L.Shows ((d₁.setU32 (iDtime (L.inodeAddress n)) now).setU32 (iSize (L.inodeAddress n)) 0)
        ((w.releaseOne .inode n).setInode n
          { w.inode n with dtime := now % 2 ^ 32, size := 0 }) := by
  have hcount := L.inodesCount_le
  have hle := hn.2
  obtain ⟨d₁, hbit, h₁⟩ := h.updateBitmap_release .inode (b := n) (by omega)
  have h₂ := (h₁.setDtime hn now).setSize hn 0
  rw [View.setInode_setInode, View.inode_setInode, (w.releaseOne_frame .inode n).1] at h₂
  exact ⟨d₁, hbit, h₁, h₂⟩

theorem Shows.dissolve (h : L.Shows d w) (hw : v.Thinned L A w) (hc : v.Consistent L)
    (hchild : v.Child L p a) (hnot : a ∉ A) (hwalk : w.Walkable L (v.target a)) (now : ℕ) :
    ∃ d₁ d₂, Ext2.freeAllBlocksOfInode d (L.inodeAddress (v.target a)) = .ok d₁ ∧
      updateBitmap d₁ .inode (entryInode d₁.byte a) false = .ok d₂ ∧
      L.Shows ((d₂.setU32 (iDtime (L.inodeAddress (v.target a))) now).setU32
        (iSize (L.inodeAddress (v.target a))) 0) (w.dissolve (v.target a) now) := by
  have hlive := hc.live_target hchild.toEntry
  set f := v.target a with hf
  obtain ⟨d₁, hfree, h₁⟩ := h.freeAllBlocks_passed hlive.1 hwalk
  obtain ⟨hinode₁, hbyte₁⟩ := w.releaseAll_frame .block (w.passed f)
  rw [View.dissolve]
  set w₁ := w.releaseAll .block (w.passed f) with hw₁
  have hw₁' : v.Thinned L A w₁ := hw.frame (fun k => by rw [hinode₁])
    (fun k => by rw [hinode₁]) hbyte₁
  have hnum := h₁.entryInode_eq hw₁' hc hchild.isDir hchild.slot hnot
  obtain ⟨d₂, hbit, -, h₃⟩ := h₁.retireInode hlive.1 now
  rw [hinode₁] at h₃
  exact ⟨d₁, d₂, hfree, by rwa [hnum], h₃⟩

/-- The name goes, and the file with its last name. -/
theorem Shows.removeFile_eq (h : L.Shows d w) (hw : v.Thinned L A w) (hc : v.Consistent L)
    (hh : v.Hierarchy L) (hchild : v.Child L p a) (hnot : a ∉ A)
    (hpos : 1 ≤ (w.inode (v.target a)).linksCount)
    (hwalk : (w.inode (v.target a)).linksCount = 1 →
      (w.dropLink (v.target a)).Walkable L (v.target a)) (now : ℕ)
    (hparent : ∀ d w, L.Shows d w → v.Thinned L A w → Yields (findParentInode d path) (· = p) E) :
    Yields (removeFile d a path now) (fun d' =>
      L.Shows d' { w.removeName (v.target a) now with byte := without v.byte (a :: A) }) E := by
  have hlive := hc.live_target hchild.toEntry
  have hnum := h.entryInode_eq hw hc hchild.isDir hchild.slot hnot
  have hlt := h.linksCount_lt hlive.1
  set f := v.target a with hf
  have h₁ := h.setLinksCount hlive.1 ((w.inode f).linksCount + (2 ^ 16 - 1))
  rw [show ((w.inode f).linksCount + (2 ^ 16 - 1)) % 2 ^ 16 = (w.inode f).linksCount - 1 by omega]
    at h₁
  change L.Shows _ (w.dropLink f) at h₁
  have htest := h₁.iLinksCount_eq hlive.1
  rw [View.linksCount_dropLink] at htest
  unfold Ext2.removeFile
  simp only [bind, Except.bind]
  rw [hnum, h.inodePtr_eq hlive.1]
  simp only [h.iLinksCount_eq hlive.1]
  generalize d.setU16 (iLinksCount (L.inodeAddress f)) ((w.inode f).linksCount + (2 ^ 16 - 1)) = d₁
    at h₁ htest ⊢
  have hw₂ := hw.removeName f now
  rw [htest]
  rw [View.removeName] at hw₂ ⊢
  by_cases hlast : (w.inode f).linksCount = 1
  · rw [if_pos (by omega)]
    rw [if_pos hlast] at hw₂ ⊢
    obtain ⟨d₂, d₃, hfree, hbit, h₃⟩ :=
      h₁.dissolve (hw.dropLink f) hc hchild hnot (hwalk hlast) now
    simp only [← hf] at hfree h₃
    simp only [hfree, hbit]
    refine (h₃.fixParent hw₂ hc hh hchild.isDir (hparent _ _ h₃ hw₂)).bind fun r hr => ?_
    rw [show r = _ from hr]
    exact h₃.clearEntry hc hchild.isDir hchild.slot hw₂.byte
  · rw [if_neg (by omega)]
    rw [if_neg hlast] at hw₂ ⊢
    refine (h₁.fixParent hw₂ hc hh hchild.isDir (hparent _ _ h₁ hw₂)).bind fun r hr => ?_
    rw [show r = _ from hr]
    exact h₁.clearEntry hc hchild.isDir hchild.slot hw₂.byte

theorem Shows.removeFile (h : L.Shows d w) (hw : v.Pruned L X A w) (hc : v.Consistent L)
    (hh : v.Hierarchy L) (hchild : v.Child L p a) (hnot : a ∉ A)
    (hfile : ¬ (v.inode (v.target a)).IsDirectory)
    (hrel : v.Freed L (a :: A) (v.target a) → v.Releasable (v.target a)) (now : ℕ)
    (hparent : ∀ d w, L.Shows d w → v.Thinned L A w → Yields (findParentInode d path) (· = p) E) :
    Yields (removeFile d a path now) (fun d' => ∃ w', L.Shows d' w' ∧ v.Pruned L X (a :: A) w' ∧
      ∀ t i, L.count t ≤ i → w'.bit t i = w.bit t i) E := by
  have hlive := hc.live_target hchild.toEntry
  obtain ⟨hpos, hlast⟩ := hw.freed_iff hc hh hchild hnot hfile
  have hw₁ := hw.toThinned.dropLink (v.target a)
  have howned : ∀ b ∈ (w.dropLink (v.target a)).owned (v.target a), L.IsPlain b := fun b hb =>
    (hc.used _ hlive b (hw₁.owned_eq hc hh hlive ▸ hb)).2.1
  refine (h.removeFile_eq hw.toThinned hc hh hchild hnot hpos (fun hone =>
    (hw₁.releasable hc hlive hfile (hrel (hlast.mpr hone))).straysFit.walkable howned) now
      hparent).mono (fun d' h' => ⟨_, h', ?_⟩) fun _ => id
  set f := v.target a with hf
  rw [View.removeName]
  by_cases hone : (w.inode f).linksCount = 1
  · rw [if_pos hone]
    have hfreed := hlast.mpr hone
    have hrel' := hw₁.releasable hc hlive hfile (hrel hfreed)
    obtain ⟨hinodes, hblocks⟩ := (w.dropLink f).bit_dissolve f now
    rw [hrel'.passed_eq] at hblocks
    have hother : ∀ k, k ≠ f → ((w.dropLink f).dissolve f now).inode k = w.inode k := fun k hk => by
      rw [View.inode_dissolve_of_ne hk, View.inode_dropLink_of_ne hk]
    have hself : ((w.dropLink f).dissolve f now).inode f =
        { w.inode f with linksCount := 0, dtime := now % 2 ^ 32, size := 0 } := by
      rw [View.inode_dissolve, View.inode_dropLink, hone]
    have hreleased : ∀ b, b ≠ 0 → (b ∈ (w.dropLink f).released f ↔ b ∈ v.owned f) := fun b hb => by
      rw [View.mem_released hrel' hb, hw₁.owned_eq hc hh hlive]
    have hle : ∀ b ∈ (w.dropLink f).released f, b ≤ L.count .block := fun b hb => by
      by_cases hb0 : b = 0
      · rw [hb0]
        exact Nat.zero_le _
      · exact (hc.used f hlive b ((hreleased b hb0).mp hb)).2.1.lt.le
    have hcounted : ((w.dropLink f).releaseAll .block ((w.dropLink f).passed f)).Counted L := by
      apply View.Counted.releaseAll (v := w.dropLink f) hw.counted
      rwa [hrel'.passed_eq]
    refine ⟨hw.step_freed hchild hnot (fun _ => id) hfreed
      (hcounted.releaseOne (t := .inode) hlive.1.2) hinodes hblocks hreleased
      ?_ (fun k hk => ?_) (fun _ => ?_) rfl, fun t i hi => ?_⟩
    · change (((w.dropLink f).dissolve f now).inode f).mode = _ ∧
        (((w.dropLink f).dissolve f now).inode f).block = _
      rw [hself]
      exact ⟨rfl, rfl⟩
    · change ((w.dropLink f).dissolve f now).inode k = { w.inode k with
        linksCount := (((w.dropLink f).dissolve f now).inode k).linksCount } ∧ _
      rw [hother k hk]
      exact ⟨rfl, fun _ => .inr rfl, fun _ => rfl⟩
    · change (((w.dropLink f).dissolve f now).inode f).linksCount + 1 = (w.inode f).linksCount
      rw [hself, hone]
    · cases t with
      | block =>
          have hout : i + 1 ∉ (w.dropLink f).released f := fun hin =>
            absurd (hle _ hin) (by omega)
          apply (hblocks i).trans
          rw [decide_eq_true hout, Bool.and_true]
          rfl
      | inode =>
          have hout : i + 1 ≠ f := by
            have hle : f ≤ L.count .inode := hlive.1.2
            omega
          apply (hinodes i).trans
          rw [decide_eq_true hout, Bool.and_true]
          rfl
  · rw [if_neg hone]
    refine ⟨hw.step_kept hchild hnot ?_ hw.counted rfl ?_ ?_ ?_ rfl, fun _ _ _ => rfl⟩
    · rwa [hlast]
    · change (w.dropLink f).inode f =
        { w.inode f with linksCount := ((w.dropLink f).inode f).linksCount }
      rw [View.inode_dropLink]
    · exact fun k hk => View.inode_dropLink_of_ne hk w
    · change ((w.dropLink f).inode f).linksCount + 1 = (w.inode f).linksCount
      rw [View.linksCount_dropLink]
      exact Nat.sub_add_cancel hpos

/-! ## An empty directory -/

theorem mem_slots_iff {s b : ℕ} (hdirect : (v.inode s).DirectOnly) (hb : b ≠ 0) :
    b ∈ (List.range totalBlockCount).map (v.inode s).block ↔ b ∈ v.owned s := by
  rw [View.owned_of_directOnly hdirect, View.data_of_directOnly hdirect, List.mem_filter]
  simp [hb]

theorem slot_le {s b : ℕ} (hc : v.Consistent L) (hs : v.IsDir L s)
    (hdirect : (v.inode s).DirectOnly)
    (hb : b ∈ (List.range totalBlockCount).map (v.inode s).block) : b ≤ L.count .block := by
  by_cases hb0 : b = 0
  · rw [hb0]
    exact Nat.zero_le _
  · exact (hc.used s hs.1 b ((mem_slots_iff hdirect hb0).mp hb)).2.1.lt.le

end Layout

namespace View

/-- The directory `p` loses a link; the directory `s` in it loses its inode and the blocks `bs`. -/
def retireDirectory (v : View) (p s now : ℕ) (bs : List ℕ) : View :=
  (((v.setInode p { v.inode p with
      linksCount := ((v.inode p).linksCount + (2 ^ 16 - 1)) % 2 ^ 16 }).releaseOne .inode s).setInode
    s { v.inode s with dtime := now % 2 ^ 32, size := 0 }).releaseAll .block bs

variable {s : ℕ}

theorem inode_retireDirectory (v : View) (p s now : ℕ) (bs : List ℕ) :
    (v.retireDirectory p s now bs).inode s =
      { v.inode s with dtime := now % 2 ^ 32, size := 0 } := by
  rw [retireDirectory, (releaseAll_frame ..).1, inode_setInode]

theorem inode_retireDirectory_parent (h : p ≠ s) (v : View) (now : ℕ) (bs : List ℕ) :
    (v.retireDirectory p s now bs).inode p = { v.inode p with
      linksCount := ((v.inode p).linksCount + (2 ^ 16 - 1)) % 2 ^ 16 } := by
  rw [retireDirectory, (releaseAll_frame ..).1, inode_setInode_of_ne h, (releaseOne_frame ..).1,
    inode_setInode]

theorem inode_retireDirectory_of_ne (hs : k ≠ s) (hp : k ≠ p) (v : View) (now : ℕ)
    (bs : List ℕ) : (v.retireDirectory p s now bs).inode k = v.inode k := by
  rw [retireDirectory, (releaseAll_frame ..).1, inode_setInode_of_ne hs, (releaseOne_frame ..).1,
    inode_setInode_of_ne hp]

theorem bit_retireDirectory (v : View) (p s now : ℕ) (bs : List ℕ) :
    (∀ i, (v.retireDirectory p s now bs).bit .inode i =
        (v.bit .inode i && decide (i + 1 ≠ s))) ∧
      ∀ i, (v.retireDirectory p s now bs).bit .block i =
        (v.bit .block i && decide (i + 1 ∉ bs)) := by
  constructor <;> intro i
  · apply (congrFun (bit_releaseAll_of_ne (by decide) ..) i).trans
    exact bit_releaseOne ..
  · apply (bit_releaseAll ..).trans
    have hbit := congrFun (bit_releaseOne_of_ne (show BitmapType.block ≠ .inode by decide)
      (v.setInode p { v.inode p with
        linksCount := ((v.inode p).linksCount + (2 ^ 16 - 1)) % 2 ^ 16 }) s) i
    exact congrArg (· && _) hbit

end View

namespace Layout

/-- The blocks of the directory are those in its slots; its name goes last. -/
theorem Shows.removeEmptyDirectory_eq (h : L.Shows d w) (hw : v.Thinned L A w)
    (hc : v.Consistent L) (hh : v.Hierarchy L) (hchild : v.Child L p a) (hnot : a ∉ A)
    (hdir : (v.inode (v.target a)).IsDirectory) (hnp : v.target a ≠ p) (now : ℕ)
    (hparent : Yields (findParentInode d path) (· = p) E) :
    Yields (removeEmptyDirectory d a path now) (fun d' =>
      L.Shows d' { w.retireDirectory p (v.target a) now
        ((List.range totalBlockCount).map (v.inode (v.target a)).block) with
          byte := without v.byte (a :: A) }) E := by
  have hlive := hc.live_target hchild.toEntry
  have hp := hchild.isDir
  have hnum : ∀ d w, L.Shows d w → v.Thinned L A w → entryInode d.byte a = v.target a :=
    fun d w h hw => h.entryInode_eq hw hc hp hchild.slot hnot
  set s := v.target a with hs
  have hdirect := hh.direct s ⟨hlive, hdir⟩
  -- the parent loses a link
  have h₁ := h.setLinksCount hp.1.1 ((w.inode p).linksCount + (2 ^ 16 - 1))
  set l := ((w.inode p).linksCount + (2 ^ 16 - 1)) % 2 ^ 16 with hl
  have hkeeps := View.keeps_setLinks w p l
  set w₁ := w.setInode p { w.inode p with linksCount := l } with hw₁
  have hw₁' : v.Thinned L A w₁ := hw.frame (fun k => (hkeeps k).mode)
    (fun k => (hkeeps k).block) rfl
  -- the inode is released
  obtain ⟨d₂, hbit, h₂, h₃⟩ := h₁.retireInode hlive.1 now
  obtain ⟨hinode₂, hbyte₂⟩ := w₁.releaseOne_frame .inode s
  have hw₂' : v.Thinned L A (w₁.releaseOne .inode s) := hw₁'.frame
    (fun k => by rw [hinode₂]) (fun k => by rw [hinode₂]) hbyte₂
  rw [View.inode_setInode_of_ne hnp] at h₃
  set w₃ := (w₁.releaseOne .inode s).setInode s
    { w.inode s with dtime := now % 2 ^ 32, size := 0 } with hw₃
  -- its blocks are released
  have hblock₃ : ∀ i < totalBlockCount,
      L.Holds w₃ (iBlock (L.inodeAddress s) 0 + 4 * i) ((v.inode s).block i) := fun i hi => by
    have hholds := holds_block (v := w₃) hlive.1 hi
    rw [hw₃, View.inode_setInode, hw.block, ← hw₃] at hholds
    rwa [show iBlock (L.inodeAddress s) 0 + 4 * i = iBlock (L.inodeAddress s) i by
      simp only [iBlock, Nat.mul_zero, Nat.add_zero]]
  have hblocks := L.blocksCount_le
  obtain ⟨d₄, hfree, h₄⟩ := h₃.freeWords hblock₃ fun i hi =>
    le_trans (slot_le hc ⟨hlive, hdir⟩ hdirect (List.mem_map_of_mem (List.mem_range.mpr hi)))
      hblocks
  have hbyte₄ := (w₃.releaseAll_frame .block
    ((List.range totalBlockCount).map (v.inode s).block)).2
  have h₅ := h₄.clearEntry hc hp hchild.slot (hbyte₄.trans (hbyte₂.trans hw₁'.byte))
  unfold Ext2.removeEmptyDirectory
  refine (h.fixParent hw hc hh hp hparent).bind fun r hr => ?_
  rw [show r = _ from hr]
  simp only [bind, Except.bind, h.iLinksCount_eq hp.1.1, hnum _ _ h₁ hw₁', hbit,
    hnum _ _ h₂ hw₂', h₂.inodePtr_eq hlive.1, hfree]
  exact h₅

theorem Shows.removeEmptyDirectory (h : L.Shows d w) (hw : v.Pruned L X A w)
    (hc : v.Consistent L) (hh : v.Hierarchy L) (hchild : v.Child L p a) (hnot : a ∉ A)
    (hdir : (v.inode (v.target a)).IsDirectory) (now : ℕ)
    (hparent : Yields (findParentInode d path) (· = p) E) :
    Yields (removeEmptyDirectory d a path now) (fun d' => ∃ w', L.Shows d' w' ∧
      v.Pruned L (fun k => X k ∨ k = p) (a :: A) w' ∧
      w'.inode p = { w.inode p with
        linksCount := ((w.inode p).linksCount + (2 ^ 16 - 1)) % 2 ^ 16 }) E := by
  have hlive := hc.live_target hchild.toEntry
  have hnp : v.target a ≠ p := fun heq => by
    obtain ⟨height, hheight⟩ := hh.descends
    have hlt := hheight p a hchild hdir
    rw [heq] at hlt
    exact absurd hlt (lt_irrefl _)
  have hfreed : v.Freed L (a :: A) (v.target a) :=
    ⟨⟨a, List.mem_cons_self, rfl⟩, fun q x hx hxs =>
      hh.parent q p x a hx hchild hxs (hxs ▸ hdir) ▸ List.mem_cons_self⟩
  have hyields := h.removeEmptyDirectory_eq hw.toThinned hc hh hchild hnot hdir hnp now hparent
  set s := v.target a with hs
  have hdirect := hh.direct s ⟨hlive, hdir⟩
  set bs := (List.range totalBlockCount).map (v.inode s).block with hbs
  obtain ⟨hinodes, hblocks⟩ := w.bit_retireDirectory p s now bs
  have hself := w.inode_retireDirectory p s now bs
  have hparent' := View.inode_retireDirectory_parent hnp.symm w now bs
  have hother : ∀ k, k ≠ s → k ≠ p → (w.retireDirectory p s now bs).inode k = w.inode k :=
    fun k hks hkp => View.inode_retireDirectory_of_ne hks hkp w now bs
  have hcounted : (w.retireDirectory p s now bs).Counted L := by
    apply View.Counted.releaseAll (t := .block)
    · exact View.Counted.releaseOne (t := .inode) hw.counted hlive.1.2
    · exact fun b => slot_le hc ⟨hlive, hdir⟩ hdirect
  set w' := w.retireDirectory p s now bs
  refine hyields.mono (fun d' h' => ⟨_, h', hw.step_freed hchild hnot (fun _ => .inl) hfreed
    hcounted hinodes hblocks (fun b => mem_slots_iff hdirect) ?_ (fun k hk => ?_)
      (fun hfile => absurd hdir hfile) rfl, hparent'⟩) fun _ => id
  · change (w'.inode s).mode = _ ∧ (w'.inode s).block = _
    rw [hself]
    exact ⟨rfl, rfl⟩
  · change w'.inode k = { w.inode k with linksCount := (w'.inode k).linksCount } ∧
      (_ → _ ∨ w'.inode k = w.inode k) ∧ (_ → w'.inode k = w.inode k)
    rcases eq_or_ne k p with hkp | hkp
    · rw [hkp, hparent']
      exact ⟨rfl, fun _ => .inl (.inr rfl), fun hfile => absurd hchild.isDir.2 hfile⟩
    · rw [hother k hk hkp]
      exact ⟨rfl, fun _ => .inr rfl, fun _ => rfl⟩

end Layout

end KernelProgramming.Ext2
