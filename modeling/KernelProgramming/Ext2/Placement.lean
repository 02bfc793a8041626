import KernelProgramming.Ext2.Insertion
import KernelProgramming.Ext2.Lookup

/-!
# New entries on a volume

The loop over the blocks of a directory that puts an entry into the first block
with a place, and what this does to the volume.
-/

namespace KernelProgramming.Ext2

open ByteMemory

variable {L : Layout} {d d' : Disk} {v w : View} {b k n inodeNum type : ℕ} {name : CString}
  {new : DirEntry}

namespace View

/-- Whether block `b` has a place for a name of this length. -/
def takes (v : View) (nameLength b : ℕ) : Bool := Ext2.takes v.byte nameLength (v.entriesOf b)

/-- The place in block `b` has room for a name of this length. -/
def FitsIn (v : View) (nameLength b : ℕ) : Prop := Ext2.FitsIn v.byte nameLength (v.entriesOf b)

instance (v : View) (nameLength b : ℕ) : Decidable (v.FitsIn nameLength b) :=
  inferInstanceAs (Decidable (Ext2.FitsIn _ _ _))

/-- Block `b` is a directory block with the entries `entries`, and no other
block changes. -/
structure Rewrites (v w : View) (b : ℕ) (entries : List DirEntry) : Prop where
  eq : w = { v with byte := w.byte }
  same : ∀ c, c ≠ b → v.SameBlock w c
  tiled : w.TiledBlock b
  entries_eq : filesIn w.byte (w.entriesOf b) = entries

end View

namespace Layout

theorem Shows.allocateSpaceInBlock_eq (h : L.Shows d v) (hb : L.IsPlain b)
    (htiled : v.TiledBlock b) (hname : name.length < 256) (hinode : inodeNum < 2 ^ 32)
    (hpos : inodeNum ≠ 0) (htype : type < 256) :
    if v.takes name.length b = true then
      v.FitsIn name.length b →
        ∃ d', allocateSpaceInBlock d name.length b inodeNum name type = .ok (true, d') ∧
          Inserted d d' (1024 * b) (1024 * b + 1024) (v.entriesOf b) ⟨name, inodeNum, type⟩
    else allocateSpaceInBlock d name.length b inodeNum name type = .ok (false, d) := by
  obtain ⟨htiled', -⟩ := h.tiled hb htiled
  have hbyte : ∀ x, 1024 * b ≤ x → x < 1024 * b + 1024 → d.byte x = v.byte x := by
    intro x hx hx'
    obtain ⟨i, rfl⟩ := Nat.exists_eq_add_of_le hx
    exact h.byte_block hb (by omega)
  obtain ⟨htakes, hfits⟩ := Tiled.choice_congr htiled hbyte name.length
  have hblock := Ext2.allocateSpaceInBlock_eq (h.blockPtr_eq hb.lt) htiled' hname hinode hpos htype
  rw [htakes, hfits] at hblock
  exact hblock

/-- The first block with a place gets the entry. -/
theorem Shows.allocateSpace_eq (h : L.Shows d v) (hk : L.IsInode k) (slots : List ℕ)
    (hslots : ∀ i ∈ slots, i < totalBlockCount)
    (hblocks : ∀ b ∈ (slots.map (v.inode k).block).filter (· ≠ 0), L.IsPlain b ∧ v.TiledBlock b)
    (hname : name.length < 256) (hinode : inodeNum < 2 ^ 32) (hpos : inodeNum ≠ 0)
    (htype : type < 256) :
    match ((slots.map (v.inode k).block).filter (· ≠ 0)).find? (v.takes name.length) with
    | some b => v.FitsIn name.length b →
        ∃ d', allocateSpace d (L.inodeAddress k) name.length inodeNum name type slots =
            .ok (true, d') ∧
          Inserted d d' (1024 * b) (1024 * b + 1024) (v.entriesOf b) ⟨name, inodeNum, type⟩
    | none => allocateSpace d (L.inodeAddress k) name.length inodeNum name type slots =
        .ok (false, d) := by
  induction slots with
  | nil => rfl
  | cons i slots ih =>
      have hblock := h.iBlock_eq hk (hslots i List.mem_cons_self)
      have hrest := fun j hj => hslots j (List.mem_cons_of_mem i hj)
      by_cases hzero : (v.inode k).block i = 0
      · rw [List.map_cons, List.filter_cons_of_neg (by simpa using hzero)] at hblocks ⊢
        rw [allocateSpace, hblock, if_pos hzero]
        exact ih hrest hblocks
      · rw [List.map_cons, List.filter_cons_of_pos (by simpa using hzero)] at hblocks ⊢
        obtain ⟨hplain, htiled⟩ := hblocks _ List.mem_cons_self
        have hhere := h.allocateSpaceInBlock_eq hplain htiled hname hinode hpos htype
        rw [allocateSpace, hblock, if_neg hzero, List.find?_cons]
        cases htakes : v.takes name.length ((v.inode k).block i) with
        | true =>
            rw [htakes, if_pos rfl] at hhere
            intro hfits
            obtain ⟨d', hput, hins⟩ := hhere hfits
            refine ⟨d', ?_, hins⟩
            rw [hput]
            rfl
        | false =>
            rw [htakes, if_neg Bool.false_ne_true] at hhere
            rw [hhere]
            exact ih hrest fun b hb => hblocks b (List.mem_cons_of_mem _ hb)

theorem Shows.sameBlock_of_sameBut {P : ℕ → Prop} (h : L.Shows d v) (h' : L.Shows d' w)
    (hsame : SameBut P d d') {c : ℕ} (hc : ∀ i < 1024, ¬ P (1024 * c + i)) : v.SameBlock w c := by
  intro i hi
  obtain ⟨-, rfl⟩ := h
  obtain ⟨-, rfl⟩ := h'
  simp only [view, hsame.byte_eq _ (hc i hi)]

/-- Stores to a block that leave it tiled, seen on the volume. -/
theorem Shows.rewrites (h : L.Shows d v) (hb : L.IsPlain b) {es : List ℕ}
    (hsame : SameBut (fun x => 1024 * b ≤ x ∧ x < 1024 * b + 1024) d d')
    (htiled : Tiled d'.byte (1024 * b + 1024) (1024 * b) es) :
    ∃ w, L.Shows d' w ∧ v.Rewrites w b (filesIn d'.byte es) := by
  have hshows := h.of_sameBut_plain hsame fun x hx => by
    rwa [show x / 1024 = b by omega]
  set w : View := { v with byte := (L.view d').byte } with hw
  have hbyte : ∀ x, 1024 * b ≤ x → x < 1024 * b + 1024 → w.byte x = d'.byte x := by
    intro x hx hx'
    obtain ⟨i, rfl⟩ := Nat.exists_eq_add_of_le hx
    exact (hshows.byte_block hb (by omega)).symm
  obtain ⟨htw, hfiles⟩ := htiled.congr hbyte
  have hes : w.entriesOf b = es := by rw [View.entriesOf, htw.entries_eq]
  refine ⟨w, hshows, rfl, fun c hcb => ?_, ?_, ?_⟩
  · exact h.sameBlock_of_sameBut hshows hsame fun i hi => by omega
  · rw [View.TiledBlock, hes]
    exact htw
  · rw [hes, hfiles]

theorem Shows.inserted (h : L.Shows d v) (hb : L.IsPlain b) (htiled : v.TiledBlock b)
    (hins : Inserted d d' (1024 * b) (1024 * b + 1024) (v.entriesOf b) new) :
    ∃ w entries, L.Shows d' w ∧ v.Rewrites w b entries ∧
      Adds new (filesIn v.byte (v.entriesOf b)) entries := by
  obtain ⟨hsame, es, htiled', hadds⟩ := hins
  obtain ⟨w, hshows, hw⟩ := h.rewrites hb hsame htiled'
  rw [(h.tiled hb htiled).2] at hadds
  exact ⟨w, _, hshows, hw, hadds⟩

end Layout

namespace View

theorem Rewrites.others {entries : List DirEntry} (h : v.Rewrites w b entries) {cs : List ℕ}
    (hb : b ∉ cs) (htiled : ∀ c ∈ cs, v.TiledBlock c) :
    filesIn w.byte (cs.flatMap w.entriesOf) = filesIn v.byte (cs.flatMap v.entriesOf) := by
  induction cs with
  | nil => rfl
  | cons c cs ih =>
      rw [List.mem_cons, not_or] at hb
      rw [List.flatMap_cons, List.flatMap_cons, filesIn_append, filesIn_append,
        (entriesOf_congr (h.same c (Ne.symm hb.1)) (htiled c List.mem_cons_self)).2.2,
        ih hb.2 fun c' hc' => htiled c' (List.mem_cons_of_mem c hc')]

/-- A directory one of whose blocks gets an entry. -/
theorem Rewrites.adds {entries : List DirEntry} (h : v.Rewrites w b entries)
    (hadds : Adds new (filesIn v.byte (v.entriesOf b)) entries) (hnodup : (v.data k).Nodup)
    (hb : b ∈ v.data k) (hdata : w.data k = v.data k) (htiled : ∀ c ∈ v.data k, v.TiledBlock c) :
    Adds new (v.files k) (w.files k) := by
  obtain ⟨xs, ys, hsplit⟩ := List.append_of_mem hb
  rw [View.files, View.files, hdata, hsplit]
  rw [hsplit] at hnodup htiled
  obtain ⟨-, hys, hdisjoint⟩ := List.nodup_append.mp hnodup
  have hxs := h.others (fun hin => hdisjoint b hin b List.mem_cons_self rfl)
    fun c hc => htiled c (List.mem_append_left _ hc)
  have hys' := h.others (List.nodup_cons.mp hys).1
    fun c hc => htiled c (List.mem_append_right _ (List.mem_cons_of_mem b hc))
  rw [List.flatMap_append, List.flatMap_append, List.flatMap_cons, List.flatMap_cons,
    filesIn_append, filesIn_append, filesIn_append, filesIn_append, hxs, hys', h.entries_eq]
  exact hadds.append_right.append_left

end View

end KernelProgramming.Ext2
