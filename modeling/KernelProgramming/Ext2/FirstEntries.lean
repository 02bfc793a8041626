import KernelProgramming.Ext2.Growth

/-!
# The first two entries of a directory

New names go behind the first two entries of a directory, which are `.` and
`..`: a deleted entry that is used again comes later, and when the last entry is
split it keeps its own name.
-/

namespace KernelProgramming.Ext2

open ByteMemory Runs

variable {L : Layout} {d d' : Disk} {u v w : View} {b i k n p q start type x y blockNum : ℕ}
  {es : List ℕ} {name filePath : CString} {site : LinkSite}

/-- Byte `i` is part of what comes before the end of the name of the entry at `y`; `rec_len` of
that entry is left out. -/
def UpToName (m : ℕ → Byte) (y i : ℕ) : Prop := i < y + 8 + nameLen m y ∧ i ≠ y + 4 ∧ i ≠ y + 5

theorem Tiled.second {m : ℕ → Byte} {z : ℕ} (h : Tiled m z start (x :: y :: es)) :
    x = start ∧ y = x + recLen m x ∧ WellFormed m x ∧ WellFormed m y ∧ y + recLen m y ≤ z ∧
      ∀ e ∈ es, y + recLen m y ≤ e := by
  obtain ⟨rfl, hx, -, htail⟩ := tiled_cons_iff.mp h
  obtain ⟨rfl, hy, hle, hrest⟩ := tiled_cons_iff.mp htail
  exact ⟨rfl, rfl, hx, hy, hle, fun e he => (hrest.bounds he).1⟩

theorem Tiled.exists_cons {m : ℕ → Byte} {z : ℕ} (h : Tiled m z start es) (hlt : start < z) :
    ∃ rest, es = start :: rest ∧ Tiled m z (start + recLen m start) rest := by
  cases h with
  | nil => exact absurd hlt (lt_irrefl _)
  | cons hwf hle htail => exact ⟨_, rfl, htail⟩

theorem splitLast_upToName {e : ℕ} (hname : name.length < 256) (hn : n < 2 ^ 32)
    (htype : type < 256) (hy : y = e ∨ y + 8 + nameLen d.byte y ≤ e) (hi : UpToName d.byte y i) :
    (splitLast d e name.length n name type).2.byte i = d.byte i := by
  obtain ⟨hlt, hfour, hfive⟩ := hi
  by_cases htest : (16 + name.length + nameLen d.byte e + 3) / 4 * 4 ≤ recLen d.byte e
  · obtain ⟨d', hsplit, -, hbyte, -⟩ := splitLast_eq (d := d) (e := e) hname hn htype htest
    have hroom := room_bounds (nameLen d.byte e)
    rw [hsplit]
    rcases hy with rfl | hy
    · exact hbyte i hfour hfive (by omega)
    · exact hbyte i (by omega) (by omega) (by omega)
  · rw [splitLast, if_neg htest]

/-- Whatever place is chosen, it is behind the names of the first two entries. -/
theorem allocateSpaceInBlock_first (hptr : blockPtr d blockNum = .ok start)
    (h : Tiled d.byte (start + 1024) start (x :: y :: es)) (hx : live d.byte x = true)
    (hy : live d.byte y = true) (hname : name.length < 256) (hn : n < 2 ^ 32) (htype : type < 256)
    {found : Bool}
    (hret : allocateSpaceInBlock d name.length blockNum n name type = .ok (found, d'))
    (hi : UpToName d.byte y i) : d'.byte i = d.byte i := by
  obtain ⟨rfl, -, hxwf, hywf, -, hlater⟩ := h.second
  have hlen := hywf.le
  have hmod : name.length % 256 = name.length := Nat.mod_eq_of_lt hname
  unfold allocateSpaceInBlock at hret
  simp only [bind, Except.bind, hptr, hmod, h.searchBlock_eq, h.entries_eq] at hret
  cases hfind : (x :: y :: es).find? (reusable d.byte) with
  | some e =>
      have hreusable := List.find?_some hfind
      have hmem := List.mem_of_find?_eq_some hfind
      -- neither of the first two entries is deleted
      have he : e ∈ es := by
        rcases List.mem_cons.mp hmem with rfl | hmem
        · rw [hxwf.reusable_eq, hx] at hreusable
          cases hreusable
        rcases List.mem_cons.mp hmem with rfl | hmem
        · rw [hywf.reusable_eq, hy] at hreusable
          cases hreusable
        · exact hmem
      have hge := hlater e he
      rw [hfind] at hret
      obtain ⟨-, rfl⟩ := Prod.mk.inj (Except.ok.inj hret)
      obtain ⟨hlt, -⟩ := hi
      exact (fillEntry_sameBut d e n type name).byte_eq i (by unfold Filled; omega)
  | none =>
      rw [hfind] at hret
      cases hlast : (x :: y :: es).getLast? with
      | none => exact absurd (List.getLast?_eq_none_iff.mp hlast) (List.cons_ne_nil _ _)
      | some e =>
          rw [hlast] at hret
          rw [List.getLast?_cons_cons] at hlast
          have hsplit := congrArg Prod.snd (Except.ok.inj hret)
          rw [← show (splitLast d e name.length n name type).2 = d' from hsplit]
          refine splitLast_upToName hname hn htype ?_ hi
          rcases List.mem_cons.mp (List.mem_of_getLast? hlast) with rfl | he
          · exact .inl rfl
          · have hge := hlater e he
            exact .inr (by omega)

namespace View

theorem HasRoom.mono {s t : ℕ} (h : v.HasRoom L p n s) (hle : t ≤ s) : v.HasRoom L p n t := by
  unfold HasRoom at h ⊢
  split at h
  · exact h
  · exact ⟨h.1, hle.trans h.2⟩

/-- The first block of directory `p` stays in slot 0, and its first two entries stay in it. -/
structure KeepsFirst (v w : View) (p : ℕ) : Prop where
  slot : (w.inode p).block 0 = (v.inode p).block 0
  same : ∀ x y es, v.entriesOf ((v.inode p).block 0) = x :: y :: es → live v.byte x = true →
    live v.byte y = true → ∀ i, 1024 * (v.inode p).block 0 ≤ i → UpToName v.byte y i →
      w.byte i = v.byte i

theorem KeepsFirst.of_sameBlock (hslot : (w.inode p).block 0 = (v.inode p).block 0)
    (htiled : v.TiledBlock ((v.inode p).block 0))
    (hsame : v.SameBlock w ((v.inode p).block 0)) : v.KeepsFirst w p := by
  refine ⟨hslot, fun x y es hes _ _ i hle hi => ?_⟩
  rw [TiledBlock, hes] at htiled
  obtain ⟨-, -, -, hwf, hend, -⟩ := htiled.second
  have hlen := hwf.le
  obtain ⟨j, rfl⟩ := Nat.exists_eq_add_of_le hle
  exact hsame j (by have := hi.1; omega)

/-- Directory `k` begins with `.` and `..`, in the block in its slot 0. -/
structure Opens (v : View) (k : ℕ) : Prop where
  slot : (v.inode k).block 0 ≠ 0
  entries : ∃ x y es q, v.entriesOf ((v.inode k).block 0) = x :: y :: es ∧ live v.byte x = true ∧
    live v.byte y = true ∧ dirEntry v.byte x = ⟨[dot], k, ext2FtDir⟩ ∧
      dirEntry v.byte y = ⟨[dot, dot], q, ext2FtDir⟩

theorem Opens.keepsFirst (h : v.Opens k) (hkeeps : v.KeepsFirst w k)
    (hv : v.TiledBlock ((v.inode k).block 0)) (hw : w.TiledBlock ((v.inode k).block 0)) :
    w.Opens k := by
  obtain ⟨x, y, es, q, hes, hx, hy, hdot, hdots⟩ := h.entries
  have hsame := hkeeps.same x y es hes hx hy
  set b := (v.inode k).block 0 with hb
  have htiled : Tiled v.byte (1024 * b + 1024) (1024 * b) (x :: y :: es) := hes ▸ hv
  obtain ⟨rfl, hnext, hxwf, hywf, hend, -⟩ := htiled.second
  have hxlen := hxwf.le
  have hylen := hywf.le
  -- what the two entries are made of has not been written to
  have hrec : recLen w.byte (1024 * b) = recLen v.byte (1024 * b) := recLen_congr fun i hi hi' =>
    hsame _ (by omega) ⟨by omega, by omega, by omega⟩
  have hxsame : ∀ i < 8 + nameLen v.byte (1024 * b), i ≠ 4 → i ≠ 5 →
      w.byte (1024 * b + i) = v.byte (1024 * b + i) := fun i hi _ _ =>
    hsame _ (by omega) ⟨by omega, by omega, by omega⟩
  have hysame : ∀ i < 8 + nameLen v.byte y, i ≠ 4 → i ≠ 5 → w.byte (y + i) = v.byte (y + i) :=
    fun i hi h₄ h₅ => hsame _ (by omega) ⟨by omega, by omega, by omega⟩
  obtain ⟨-, hxlive, hxentry⟩ := entry_congr hxsame
  obtain ⟨-, hylive, hyentry⟩ := entry_congr hysame
  refine ⟨by rw [hkeeps.slot]; exact h.slot, ?_⟩
  rw [hkeeps.slot, ← hb]
  obtain ⟨now, hnow, htail⟩ := Tiled.exists_cons hw (by omega)
  rw [hrec, ← hnext] at htail
  obtain ⟨rest, rfl, -⟩ := htail.exists_cons (by omega)
  exact ⟨_, _, _, q, hnow, hxlive.trans hx, hylive.trans hy, hxentry.trans hdot,
    hyentry.trans hdots⟩

theorem data_cons (hdirect : (v.inode p).DirectOnly) (hslot : (v.inode p).block 0 ≠ 0) :
    ∃ bs, v.data p = (v.inode p).block 0 :: bs := by
  rw [data_of_directOnly hdirect, show totalBlockCount = 14 + 1 from rfl, List.range_succ_eq_map,
    List.map_cons, List.filter_cons_of_pos (by simpa using hslot)]
  exact ⟨_, rfl⟩

end View

namespace Layout

/-- The place is one in the first block that has a place. -/
theorem Shows.allocateSpace_inBlock (h : L.Shows d v) (hk : L.IsInode k) (slots : List ℕ)
    (hslots : ∀ i ∈ slots, i < totalBlockCount)
    (hblocks : ∀ b ∈ (slots.map (v.inode k).block).filter (· ≠ 0), L.IsPlain b ∧ v.TiledBlock b)
    (hname : name.length < 256) (hn : n < 2 ^ 32) (hpos : n ≠ 0) (htype : type < 256)
    (hfind : ((slots.map (v.inode k).block).filter (· ≠ 0)).find? (v.takes name.length) = some b)
    (hfits : v.FitsIn name.length b) {found : Bool}
    (hret : allocateSpace d (L.inodeAddress k) name.length n name type slots = .ok (found, d')) :
    allocateSpaceInBlock d name.length b n name type = .ok (true, d') := by
  induction slots with
  | nil => cases hfind
  | cons i slots ih =>
      have hblock := h.iBlock_eq hk (hslots i List.mem_cons_self)
      have hrest := fun j hj => hslots j (List.mem_cons_of_mem i hj)
      by_cases hzero : (v.inode k).block i = 0
      · rw [List.map_cons, List.filter_cons_of_neg (by simpa using hzero)] at hblocks hfind
        rw [allocateSpace, hblock, if_pos hzero] at hret
        exact ih hrest hblocks hfind hret
      rw [List.map_cons, List.filter_cons_of_pos (by simpa using hzero)] at hblocks hfind
      obtain ⟨hplain, htiled⟩ := hblocks _ List.mem_cons_self
      have hhere := h.allocateSpaceInBlock_eq hplain htiled hname hn hpos htype
      rw [allocateSpace, hblock, if_neg hzero] at hret
      rw [List.find?_cons] at hfind
      cases htakes : v.takes name.length ((v.inode k).block i) with
      | true =>
          rw [htakes] at hfind hhere
          obtain rfl := Option.some.inj hfind
          obtain ⟨d₁, hput, -⟩ := hhere hfits
          rw [hput] at hret ⊢
          obtain ⟨-, rfl⟩ := Prod.mk.inj (Except.ok.inj hret)
          rfl
      | false =>
          rw [htakes] at hfind hhere
          rw [if_neg Bool.false_ne_true] at hhere
          rw [hhere] at hret
          exact ih hrest (fun c hc => hblocks c (List.mem_cons_of_mem _ hc)) hfind hret

section Entering

variable (h : L.Shows d v) (hc : v.Consistent L) (hp : v.IsDir L p)
  (hdirect : (v.inode p).DirectOnly) (hslot : (v.inode p).block 0 ≠ 0)

include h hc hp hdirect hslot

theorem Shows.allocateSpace_keepsFirst {s : ℕ} (hroom : v.HasRoom L p name.length s)
    (hname : name.length < 256) (hn : v.Live L n) (htype : type < 256) {found : Bool}
    (hret : allocateSpace d (L.inodeAddress p) name.length n name type
      (List.range totalBlockCount) = .ok (found, d')) :
    if found then ∀ w, L.Shows d' w → v.KeepsFirst w p
    else d' = d ∧ (∃ i < directBlockCount, (v.inode p).block i = 0) ∧
      s ≤ (v.clear L .block).length := by
  have hput := h.enter_place hc hp.1 hp.2 hdirect hname hn htype
  have hdata := View.data_of_directOnly hdirect
  have hblocks : ∀ b ∈ v.data p, L.IsPlain b ∧ v.TiledBlock b := fun b hb =>
    ⟨(hc.used p hp.1 b (View.data_subset_owned v p hb)).2.1, hc.tiled p hp.1 hp.2 b hb⟩
  unfold View.HasRoom at hroom
  cases hfind : (v.data p).find? (v.takes name.length) with
  | none =>
      rw [hfind] at hput hroom
      obtain ⟨rfl, rfl⟩ := Prod.mk.inj (Except.ok.inj (hput.symm.trans hret))
      exact ⟨rfl, hroom⟩
  | some b =>
      rw [hfind] at hput hroom
      obtain ⟨d₁, w, entries, hput, hw, hrw, -⟩ := hput hroom
      obtain ⟨rfl, rfl⟩ := Prod.mk.inj (Except.ok.inj (hput.symm.trans hret))
      have hb := List.mem_of_find?_eq_some hfind
      obtain ⟨hplain, htiled⟩ := hblocks b hb
      rw [if_pos rfl]
      intro w' hw'
      obtain rfl : w = w' := hw.2.symm.trans hw'.2
      have hsame : (w.inode p).block 0 = (v.inode p).block 0 := by rw [hrw.eq]
      by_cases hfirst : (v.inode p).block 0 = b
      swap
      · obtain ⟨bs, hcons⟩ := View.data_cons hdirect hslot
        exact .of_sameBlock hsame (hblocks _ (hcons ▸ List.mem_cons_self)).2 (hrw.same _ hfirst)
      refine ⟨hsame, fun x y es hes hx hy i hle hi => ?_⟩
      rw [hfirst] at hes hle
      have hin := h.allocateSpace_inBlock hp.1.1 (List.range totalBlockCount)
        (fun i hi => List.mem_range.mp hi) (hdata ▸ hblocks) hname hn.1.bounds.2 hn.1.bounds.1 htype
        (hdata ▸ hfind) hroom hret
      have htiled' := (h.tiled hplain htiled).1
      rw [hes] at htiled'
      have hslots : ∀ e ∈ [x, y], e ∈ v.slots p := fun e he =>
        List.mem_flatMap.mpr ⟨b, hb, by rw [hes]; simp at he ⊢; tauto⟩
      have hlive : ∀ e ∈ [x, y], live d.byte e = live v.byte e := fun e he =>
        (h.dirEntry_slot rfl hc hp (hslots e he)).2
      rw [View.TiledBlock, hes] at htiled
      obtain ⟨rfl, hnext, hxwf, hywf, hend, -⟩ := htiled.second
      have hxlen := hxwf.le
      have hylen := hywf.le
      have hplace : ∀ j, 1024 * b ≤ j → j < 1024 * b + 1024 → j / 1024 = b := fun j _ _ => by omega
      have hlen : nameLen d.byte y = nameLen v.byte y :=
        nameLen_congr (h.byte_eq (by rwa [hplace _ (by omega) (by omega)]))
      have hup : UpToName d.byte y i := by rwa [UpToName, hlen]
      have hwhere := hplace i hle (by have := hi.1; omega)
      rw [← hw.byte_eq (by rwa [hwhere]), ← h.byte_eq (by rwa [hwhere])]
      exact allocateSpaceInBlock_first (h.blockPtr_eq hplain.lt) htiled'
        ((hlive _ (by simp)).trans hx) ((hlive _ (by simp)).trans hy) hname hn.1.bounds.2 htype hin
        hup

/-- `rest` is what the tool does when no block has room. -/
theorem Shows.enter_keepsFirst {s : ℕ} (hroom : v.HasRoom L p name.length s)
    (hname : name.length < 256) (hn : v.Live L n) (htype : type < 256) {found : Bool} {d₁ : Disk}
    (hput : allocateSpace d (L.inodeAddress p) name.length n name type
      (List.range totalBlockCount) = .ok (found, d₁))
    {rest : Except Fault (ℕ × Disk)} (hret : (if found then .ok (0, d₁) else rest) = .ok (0, d'))
    (hgrow : d₁ = d → (∃ i < directBlockCount, (v.inode p).block i = 0) →
      s ≤ (v.clear L .block).length → rest = .ok (0, d') →
      ∀ w, L.Shows d' w → v.KeepsFirst w p) : ∀ w, L.Shows d' w → v.KeepsFirst w p := by
  have hentry := h.allocateSpace_keepsFirst hc hp hdirect hslot hroom hname hn htype hput
  cases found with
  | true =>
      obtain ⟨-, rfl⟩ := Prod.mk.inj (Except.ok.inj hret)
      exact hentry
  | false =>
      obtain ⟨hsame, hzero, hspare⟩ := hentry
      exact hgrow hsame hzero hspare hret

omit h in
/-- A new block gets its number into a slot after slot 0. -/
theorem Shows.attach_keepsFirst {d₁ : Disk} (hzero : (v.inode p).block i = 0)
    (hb : b ∈ v.clear L .block) (h₁ : L.Shows d₁ (v.attach p i b))
    (hone : OneEntry (1024 * b) d₁ d') : ∀ w, L.Shows d' w → v.KeepsFirst w p := by
  obtain ⟨-, hplain, hfree⟩ := hc.free_block hb
  obtain ⟨w, hw, hrw⟩ := h₁.rewrites hplain hone.sameBut hone.tiled
  obtain ⟨bs, hcons⟩ := View.data_cons hdirect hslot
  have hmem : (v.inode p).block 0 ∈ v.data p := hcons ▸ List.mem_cons_self
  have hne : (v.inode p).block 0 ≠ b := fun heq =>
    hfree p hp.1 (View.data_subset_owned v p (heq ▸ hmem))
  intro w' hw'
  obtain rfl : w = w' := hw.2.symm.trans hw'.2
  refine .of_sameBlock ?_ (hc.tiled p hp.1 hp.2 _ hmem) (hrw.same _ hne)
  have hi : 0 ≠ i := by
    rintro rfl
    exact hslot hzero
  rw [hrw.eq]
  simp only [View.attach, View.inode_setInode, Function.update_of_ne hi]

/-- What `Shows.grow` says, put together for the tools that make the new block the last thing. -/
theorem Shows.grow_keepsFirst (hzero : ∃ i < directBlockCount, (v.inode p).block i = 0)
    (hfree : findFreeBlock d ≠ 0) :
    ∃ d₁ i, updateBitmap d .block (findFreeBlock d) true = .ok d₁ ∧
      freeSlot d₁ (L.inodeAddress p) = some i ∧
      let d₂ := d₁.setU32 (iBlock (L.inodeAddress p) i) (findFreeBlock d)
      let d₃ := d₂.setU32 (iBlocks (L.inodeAddress p)) (d₂.u32 (iBlocks (L.inodeAddress p)) + 1)
      blockPtr d₃ (findFreeBlock d) = .ok (1024 * findFreeBlock d) ∧
        ∀ d₄, OneEntry (1024 * findFreeBlock d) d₃ d₄ →
          ∀ w, L.Shows d₄ w → v.KeepsFirst w p := by
  obtain ⟨d₁, i, hmark, hfreeSlot, -, hizero, hb, h₃⟩ := h.grow hp.1.1 hzero hfree
  obtain ⟨-, hplain, -⟩ := hc.free_block hb
  exact ⟨d₁, i, hmark, hfreeSlot, h₃.blockPtr_eq hplain.lt, fun d₄ hone =>
    Shows.attach_keepsFirst hc hp hdirect hslot hizero hb h₃ hone⟩

theorem Shows.growParent_keepsFirst (hname : name.length < 256)
    (hzero : ∃ i < directBlockCount, (v.inode p).block i = 0) (hfree : findFreeBlock d ≠ 0)
    (hret : Ext2.growParent d (L.inodeAddress p) n name = .ok (0, d')) :
    ∀ w, L.Shows d' w → v.KeepsFirst w p := by
  obtain ⟨d₁, i, hmark, hfreeSlot, hptr, hone⟩ := h.grow_keepsFirst hc hp hdirect hslot hzero hfree
  simp only [Ext2.growParent, bind, Except.bind, hmark, hfreeSlot, hptr] at hret
  obtain ⟨-, rfl⟩ := Prod.mk.inj (Except.ok.inj hret)
  exact hone _ (fillFirstEntry_oneEntry (by omega) ..)

theorem Shows.growHardLink_keepsFirst {fileInode : ℕ} (hname : site.filename.length < 256)
    (hzero : ∃ i < directBlockCount, (v.inode p).block i = 0)
    (hret : Ext2.growHardLink d site fileInode (L.inodeAddress p) = .ok (0, d')) :
    ∀ w, L.Shows d' w → v.KeepsFirst w p := by
  obtain ⟨d₀, hmark₀, hret⟩ := bind_eq_ok_iff.mp hret
  split_ifs at hret with hfree
  · cases hret
  obtain ⟨d₁, i, hmark, hfreeSlot, hptr, hone⟩ := h.grow_keepsFirst hc hp hdirect hslot hzero hfree
  obtain rfl : d₀ = d₁ := Except.ok.inj (hmark₀.symm.trans hmark)
  simp only [hfreeSlot, bind, Except.bind, hptr] at hret
  obtain ⟨-, rfl⟩ := Prod.mk.inj (Except.ok.inj hret)
  exact hone _ (fillLinkEntry_oneEntry (by omega) ..)

theorem Shows.growSymbolicLink_keepsFirst (hname : site.filename.length < 256)
    (hzero : ∃ i < directBlockCount, (v.inode p).block i = 0)
    (hret : Ext2.growSymbolicLink d site (L.inodeAddress p) n b = .ok (0, d')) :
    ∀ w, L.Shows d' w → v.KeepsFirst w p := by
  rw [Ext2.growSymbolicLink] at hret
  split_ifs at hret with hfree
  · obtain ⟨d₂, -, hret⟩ := bind_eq_ok_iff.mp hret
    obtain ⟨d₃, -, hret⟩ := bind_eq_ok_iff.mp hret
    cases hret
  obtain ⟨d₁, i, hmark, hfreeSlot, hptr, hone⟩ := h.grow_keepsFirst hc hp hdirect hslot hzero hfree
  simp only [bind, Except.bind, hmark, hfreeSlot, hptr] at hret
  obtain ⟨-, rfl⟩ := Prod.mk.inj (Except.ok.inj hret)
  apply hone
  apply (fillLinkEntry_oneEntry (by omega) ..).before
  exact (sameBut_copy _ _ _).mono fun x hx => by
    simp only [Within, List.length_singleton] at hx
    omega

/-- The order of `ext2_cp`: the block is filled before it gets its slot. -/
theorem Shows.addBlock_keepsFirst (hzero : ∃ i < directBlockCount, (v.inode p).block i = 0)
    (hfree : findFreeBlock d ≠ 0) {d₁ d₂ : Disk}
    (hmark : updateBitmap d .block (findFreeBlock d) true = .ok d₁)
    (hone : OneEntry (1024 * findFreeBlock d) d₁ d₂) :
    ∀ w, L.Shows (Ext2.addBlock d₂ (L.inodeAddress p) (findFreeBlock d)) w →
      v.KeepsFirst w p := by
  have hb := h.findFreeBlock_mem hfree
  obtain ⟨hne, hplain, hfresh⟩ := hc.free_block hb
  have hcount := L.count_le .block
  have hle := (View.mem_clear.mp hb).2.1
  obtain ⟨d₁', hmark', h₁⟩ := h.updateBitmap_true .block hne (by omega)
  obtain rfl : d₁ = d₁' := Except.ok.inj (hmark.symm.trans hmark')
  obtain ⟨w₂, h₂, hrw⟩ := h₁.rewrites hplain hone.sameBut hone.tiled
  have hinode : w₂.inode = v.inode := by
    rw [hrw.eq]
    rfl
  obtain ⟨i, hi, hfreeSlot, hizero⟩ := h₂.freeSlot_eq hp.1.1 (by rwa [hinode])
  rw [hinode] at hizero
  obtain ⟨bs, hcons⟩ := View.data_cons hdirect hslot
  have hmem : (v.inode p).block 0 ∈ v.data p := hcons ▸ List.mem_cons_self
  have hother : (v.inode p).block 0 ≠ findFreeBlock d := fun heq =>
    hfresh p hp.1 (View.data_subset_owned v p (heq ▸ hmem))
  rw [Ext2.addBlock, hfreeSlot]
  intro w hw
  obtain rfl : _ = w :=
    ((h₂.setBlock hp.1.1 (hi.trans (by decide)) (findFreeBlock d)).setBlocks hp.1.1 _).2.symm.trans
      hw.2
  refine .of_sameBlock ?_ (hc.tiled p hp.1 hp.2 _ hmem) (hrw.same _ hother)
  have hi : 0 ≠ i := by
    rintro rfl
    exact hslot hizero
  simp only [View.inode_setInode, Function.update_of_ne hi, hinode]

theorem Shows.linkNewFile_keepsFirst {newInode : ℕ} (hname : name.length < 256)
    (hroom : v.HasRoom L p name.length 0) (hn : v.Live L n)
    (hret : Ext2.linkNewFile d ⟨none, L.inodeAddress p, name⟩ n newInode = .ok (0, d')) :
    ∀ w, L.Shows d' w → v.KeepsFirst w p := by
  rw [Ext2.linkNewFile] at hret
  obtain ⟨⟨found, d₁⟩, hput, hret⟩ := bind_eq_ok_iff.mp hret
  apply h.enter_keepsFirst hc hp hdirect hslot hroom hname hn (by decide) hput hret
  rintro rfl hzero - hgrow
  simp only at hgrow
  split_ifs at hgrow with hfree
  · obtain ⟨d₂, -, hgrow⟩ := bind_eq_ok_iff.mp hgrow
    obtain ⟨d₃, -, hgrow⟩ := bind_eq_ok_iff.mp hgrow
    cases hgrow
  obtain ⟨d₂, hmark, hgrow⟩ := bind_eq_ok_iff.mp hgrow
  have hb := h.findFreeBlock_mem hfree
  obtain ⟨hne, hplain, -⟩ := hc.free_block hb
  have hcount := L.count_le .block
  have hle := (View.mem_clear.mp hb).2.1
  obtain ⟨d₂', hmark', h₂⟩ := h.updateBitmap_true .block hne (by omega)
  obtain rfl : d₂ = d₂' := Except.ok.inj (hmark.symm.trans hmark')
  rw [h₂.blockPtr_eq hplain.lt] at hgrow
  obtain ⟨-, rfl⟩ := Prod.mk.inj (Except.ok.inj hgrow)
  exact h.addBlock_keepsFirst hc hp hdirect hslot hzero hfree hmark
    (fillNewBlock_oneEntry (by omega) ..)

end Entering

theorem Shows.hardLink_keepsFirst {m depth : ℕ} (h : L.Shows d v) (hc : v.Consistent L)
    (hp : v.IsDir L p) (hdirect : (v.inode p).DirectOnly) (hslot : (v.inode p).block 0 ≠ 0)
    (hname : site.filename.length < 256) (hroom : v.HasRoom L p site.filename.length 0)
    (hentry : v.Entry L k site.file) (hm : L.IsInode m)
    (htarget : Ext2.hardLinkTarget d site filePath depth = .ok (some (L.inodeAddress m)))
    (hsite : hardLinkDir d site.dir = .ok (L.inodeAddress p))
    (hret : hardLink d site filePath depth = .ok (0, d')) :
    ∀ w, L.Shows d' w → (v.addLink m).KeepsFirst w p := by
  obtain ⟨r, htarget', hlink⟩ := bind_eq_ok_iff.mp hret
  obtain rfl : some (L.inodeAddress m) = r := Except.ok.inj (htarget.symm.trans htarget')
  obtain ⟨dirInode, hsite', hspace⟩ := bind_eq_ok_iff.mp hlink
  obtain rfl : L.inodeAddress p = dirInode := Except.ok.inj (hsite.symm.trans hsite')
  obtain ⟨⟨found, d₂⟩, hput, hret⟩ := bind_eq_ok_iff.mp hspace
  have h₁ := h.setLinksCount hm (d.u16 (iLinksCount (L.inodeAddress m)) + 1)
  rw [h.iLinksCount_eq hm] at h₁ hput
  set d₁ := d.setU16 (iLinksCount (L.inodeAddress m)) ((v.inode m).linksCount + 1) with hd₁
  change L.Shows d₁ (v.addLink m) at h₁
  have hc₁ : (v.addLink m).Consistent L := hc.setLinks m _
  have hkeeps : ∀ k, v.Keeps (v.addLink m) k := View.keeps_setLinks v m _
  have hentry₁ : (v.addLink m).Entry L k site.file :=
    (hentry.keeps hc (hkeeps k) hentry.isDir.1).1
  have hnum : entryInode d₁.byte site.file = v.target site.file :=
    congrArg DirEntry.inode (h₁.dirEntry_slot rfl hc₁ hentry₁.isDir hentry₁.slot).1
  have hroom₁ : (v.addLink m).HasRoom L p site.filename.length 0 :=
    (hkeeps p).hasRoom hc hp.1 hp.2 (fun _ => Nat.zero_le _) hroom
  have hp₁ : (v.addLink m).IsDir L p := ⟨hp.1, (hkeeps p).isDirectory_iff.mpr hp.2⟩
  have hdirect₁ := (hkeeps p).directOnly hdirect
  have hslot₁ : ((v.addLink m).inode p).block 0 ≠ 0 := by rwa [(hkeeps p).block]
  rw [hnum] at hput
  apply h₁.enter_keepsFirst hc₁ hp₁ hdirect₁ hslot₁ hroom₁ hname (hc.live_target hentry) (by decide)
    hput hret
  rintro rfl hzero - hgrow
  exact h₁.growHardLink_keepsFirst hc₁ hp₁ hdirect₁ hslot₁ hname hzero hgrow

end Layout

/-! ## A new directory -/

/-- The entry `.` keeps twelve bytes, and `..` gets the rest of the block. -/
theorem dotEntries_inOrder {a : ℕ} (hptr : blockPtr d b = .ok a) (hn : n < 2 ^ 32) (hnpos : n ≠ 0)
    (hp : p < 2 ^ 32) (hppos : p ≠ 0)
    (hret : allocateSpaceInBlock (fillFirstEntry d a n 1 [dot] ext2FtDir) 2 b p [dot, dot]
      ext2FtDir = .ok (true, d')) :
    Tiled d'.byte (a + 1024) a [a, a + 12] ∧ live d'.byte a = true ∧
      live d'.byte (a + 12) = true ∧ dirEntry d'.byte a = ⟨[dot], n, ext2FtDir⟩ ∧
      dirEntry d'.byte (a + 12) = ⟨[dot, dot], p, ext2FtDir⟩ := by
  have hfirst := fillFirstEntry_tiled (a := a) d (show [dot].length < 256 by decide) hn hnpos
    (show ext2FtDir < 256 by decide)
  rw [List.length_singleton] at hfirst
  set d₁ := fillFirstEntry d a n 1 [dot] ext2FtDir with hd₁
  obtain ⟨hsame, htiled, hfiles, hlive, hrec, hlen⟩ := hfirst
  have hentry : dirEntry d₁.byte a = ⟨[dot], n, ext2FtDir⟩ := by
    rw [filesIn_cons, hlive, if_pos rfl] at hfiles
    exact List.singleton_inj.mp hfiles
  have hroom : room (nameLen d₁.byte a) = 12 := by rw [hlen]; decide
  have hreusable : [a].find? (reusable d₁.byte) = none := by
    rw [List.find?_singleton, ((htiled.bounds List.mem_cons_self).2.2).reusable_eq, hlive]
    rfl
  -- no entry is deleted, so the only one is split
  simp only [allocateSpaceInBlock, bind, Except.bind, (hsame.blockPtr_eq b).trans hptr,
    htiled.searchBlock_eq, htiled.entries_eq, hreusable, List.getLast?_singleton] at hret
  obtain ⟨d₂, hsplit, -, hbyte, hrec₁, hrec₂, hlen₂, hentry₂⟩ :=
    splitLast_eq (d := d₁) (e := a) (show [dot, dot].length < 256 by decide) hp
      (show ext2FtDir < 256 by decide) (by rw [hlen, hrec]; decide)
  obtain rfl : d₂ = d' :=
    congrArg Prod.snd (hsplit.symm.trans (Except.ok.inj hret))
  rw [hroom] at hbyte hrec₁ hrec₂ hlen₂ hentry₂
  rw [hrec] at hrec₂
  have hfirst : ∀ i < 8 + nameLen d₁.byte a, i ≠ 4 → i ≠ 5 → d₂.byte (a + i) = d₁.byte (a + i) :=
    fun i hi h₄ h₅ => hbyte _ (by omega) (by omega) (.inl (by omega))
  obtain ⟨hlen₁, hlive₁, hentry₁⟩ := entry_congr hfirst
  have hnum : entryInode d₂.byte (a + 12) = p := congrArg DirEntry.inode hentry₂
  refine ⟨.cons ⟨?_, ?_⟩ ?_ ?_, hlive₁.trans hlive, ?_, hentry₁.trans hentry, hentry₂⟩
  · rw [hrec₁]
  · rw [hrec₁, hlen₁, hroom]
  · rw [hrec₁]
    omega
  · rw [hrec₁]
    refine .cons ⟨?_, ?_⟩ ?_ ?_
    · rw [hrec₂]
    · rw [hrec₂, hlen₂]
      decide
    · rw [hrec₂]
    · rw [hrec₂]
      exact .nil
  · simp [live, hnum, hppos]

namespace Layout

theorem Shows.makeDirectoryBlock_opens (h : L.Shows d v) (hn : L.IsInode n) (hp : L.IsInode p)
    (hb : b ∈ v.clear L .block) (hplain : L.IsPlain b) :
    ∃ d' w, Ext2.makeDirectoryBlock d n (L.inodeAddress n) p b = .ok d' ∧ L.Shows d' w ∧
      (v.attach n 0 b).Rewrites w b (dotEntries n p) ∧ w.Opens n := by
  obtain ⟨d', w, entries, hmake, hw, hrw, -⟩ := h.makeDirectoryBlock hn hp hb hplain
  -- the two entries on the disk
  obtain ⟨d₁, hmark, -, h₂⟩ := h.attach hn (show 0 < totalBlockCount by decide) hb
  have hptr := h₂.blockPtr_eq hplain.lt
  have hret := hmake
  simp only [Ext2.makeDirectoryBlock, bind, Except.bind, hmark, hptr] at hret
  obtain ⟨d₃, -, hput, -⟩ := dotEntries_tiled (n := n) (p := p) hptr hn.bounds.2 hn.bounds.1
    hp.bounds.2 hp.bounds.1
  rw [hput] at hret
  obtain rfl : d₃ = d' := Except.ok.inj hret
  obtain ⟨htiled, hx, hy, hdot, hdots⟩ :=
    dotEntries_inOrder hptr hn.bounds.2 hn.bounds.1 hp.bounds.2 hp.bounds.1 hput
  -- and on the volume
  have hbyte : ∀ i, 1024 * b ≤ i → i < 1024 * b + 1024 → w.byte i = d₃.byte i := fun i hi hi' =>
    (hw.byte_eq (by rwa [show i / 1024 = b by omega])).symm
  have hentries : ∀ e ∈ [1024 * b, 1024 * b + 12],
      live w.byte e = live d₃.byte e ∧ dirEntry w.byte e = dirEntry d₃.byte e := fun e he => by
    obtain ⟨hge, hle, hwf⟩ := htiled.bounds he
    exact (hwf.congr fun i hi hi' => hbyte i (by omega) (by omega)).2.2
  have hes : w.entriesOf b = [1024 * b, 1024 * b + 12] := by
    rw [View.entriesOf, (htiled.congr hbyte).1.entries_eq]
  obtain ⟨hxlive, hxentry⟩ := hentries _ List.mem_cons_self
  obtain ⟨hylive, hyentry⟩ := hentries _ (List.mem_cons_of_mem _ List.mem_cons_self)
  have hslot : (w.inode n).block 0 = b := by
    rw [hrw.eq]
    simp only [View.attach, View.inode_setInode, Function.update_self]
  have hfiles : filesIn w.byte (w.entriesOf b) = dotEntries n p := by
    rw [hes, filesIn_cons, filesIn_cons, hxlive.trans hx, hylive.trans hy, hxentry, hyentry, hdot,
      hdots]
    rfl
  refine ⟨d₃, w, hmake, hw, ⟨hrw.eq, hrw.same, hrw.tiled, hfiles⟩, ?_, ?_⟩
  · rw [hslot]
    exact (View.mem_clear.mp hb).1
  · rw [hslot]
    exact ⟨_, _, _, p, hes, hxlive.trans hx, hylive.trans hy, hxentry.trans hdot,
      hyentry.trans hdots⟩

/-- What `Shows.beginDirectory` says, with the order of the first two entries. -/
theorem Shows.beginDirectory_opens (h : L.Shows d v) (hc : v.Consistent L) (hp : v.Live L p)
    (hzero : findFreeInode d ≠ 0) (hblock : v.clear L .block ≠ []) (name : CString) (now : ℕ) :
    ∃ d₁ v₁ n b, View.Creates L v v₁ n b (dotEntries n p) ∧ v₁.Opens n ∧
      (v₁.inode n).DirectOnly ∧ b ∈ v.clear L .block ∧ (v₁.inode n).linksCount = 2 ∧
      L.Shows d₁ (v₁.setInode p
        { v₁.inode p with linksCount := ((v.inode p).linksCount + 1) % 2 ^ 16 }) ∧
      Ext2.makeDirectory d p name now = (do
        let (found, d) ← allocateSpace d₁ (L.inodeAddress p) name.length n name ext2FtDir
          (List.range totalBlockCount)
        if found then .ok (0, d) else Ext2.growParent d (L.inodeAddress p) n name) := by
  obtain ⟨hn, hgood⟩ := h.findFreeInode_mem hzero
  set n := findFreeInode d with hfresh
  obtain ⟨d₁, hmark, h₁, hptr⟩ := h.takeInode hn
  have h₂ := h₁.newInode (isInode_of_clear hn) now
  set d₂ := (Ext2.initInode d₁ (L.inodeAddress n) ext2SIfdir 1024 now).setU16
    (iLinksCount (L.inodeAddress n)) 2 with hd₂
  have hclear : ((v.mark .inode n).setInode n ⟨ext2SIfdir, 1024, 0, 2, 0, fun _ => 0⟩).clear L
      .block = v.clear L .block := by
    rw [View.clear_setInode, View.clear_mark_of_ne (by decide)]
  have hfull : findFreeBlock d₂ ≠ 0 := fun hnone =>
    hblock (hclear ▸ h₂.findFreeBlock_eq_zero_iff.mp hnone)
  have hb := h₂.findFreeBlock_mem hfull
  set b := findFreeBlock d₂ with hfreeBlock
  have hb' : b ∈ v.clear L .block := hclear ▸ hb
  obtain ⟨d₃, v₁, hmake, h₃, hrw, hopens⟩ :=
    h₂.makeDirectoryBlock_opens (isInode_of_clear hn) hp.1 hb (hc.free_block hb').2.1
  rw [View.attach, View.inode_setInode, View.mark_setInode, View.setInode_setInode] at hrw
  have hcreates : View.Creates L v v₁ n b (dotEntries n p) := by
    refine hc.creates hn hgood hb' ?_ ?_ hrw fun e he => ?_
    · exact show ext2SIfdir / 4096 = 4 by decide
    · rfl
    rw [dotEntries, List.mem_cons, List.mem_singleton] at he
    rcases he with rfl | rfl
    · exact .inl rfl
    · exact .inr hp
  have hinode : v₁.inode p = v.inode p := hcreates.inode p fun heq => hcreates.fresh (heq ▸ hp)
  have hlinks : (v₁.inode n).linksCount = 2 := by
    rw [hrw.eq]
    simp only [View.inode_setInode]
  have hdirect : (v₁.inode n).DirectOnly := by
    refine (View.data_single (hc.free_block hb').1 ?_).1
    rw [hrw.eq]
    simp only [View.inode_setInode]
  refine ⟨_, v₁, n, b, hcreates, hopens, hdirect, hb', hlinks,
    h₃.setLinksCount hp.1 ((v.inode p).linksCount + 1), ?_⟩
  unfold Ext2.makeDirectory
  simp only [bind, Except.bind, ← hfresh, if_neg hzero, hmark, hptr, ← hd₂, ← hfreeBlock,
    if_neg hfull, hmake, h₃.inodePtr_eq hp.1, h₃.iLinksCount_eq hp.1, hinode]

end Layout

end KernelProgramming.Ext2
