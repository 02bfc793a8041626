import KernelProgramming.Ext2.Directory

/-!
# New directory entries

What `allocate_space_in_block` does to a tiled block: a deleted entry gets the
new name, or else the last entry is split.  The block stays tiled as long as
the new name fits the place that it gets.
-/

namespace KernelProgramming.Ext2

open ByteMemory

variable {d : Disk} {a e n z inodeNum type : ℕ} {name : CString} {es xs ys : List ℕ}

/-- The bytes of an entry other than its length, with a name of `n` bytes. -/
def Filled (e n x : ℕ) : Prop := e ≤ x ∧ x < e + 8 + n ∧ x ≠ e + 4 ∧ x ≠ e + 5

theorem fillEntry_sameBut (d : Disk) (e inodeNum type : ℕ) (name : CString) :
    SameBut (Filled e name.length) d (fillEntry d e name.length inodeNum name type) := by
  refine ((((sameBut_copy d (e + 6) _).mono ?_).trans ((sameBut_copy _ e _).mono ?_)).trans
    ((sameBut_copy _ (e + 8) _).mono ?_)).trans ((sameBut_copy _ (e + 7) _).mono ?_)
  all_goals
    intro x hx
    simp only [Within, Filled, List.length_singleton, length_bytes32, List.take_length] at hx ⊢
    omega

theorem fillEntry_entry (hname : name.length < 256) (hinode : inodeNum < 2 ^ 32)
    (htype : type < 256) :
    let m := (fillEntry d e name.length inodeNum name type).byte
    nameLen m e = name.length ∧ dirEntry m e = ⟨name, inodeNum, type⟩ ∧
      recLen m e = recLen d.byte e := by
  intro m
  have hrec : recLen m e = recLen d.byte e := recLen_congr fun i hi hi' =>
    (fillEntry_sameBut d e inodeNum type name).byte_eq _ (by unfold Filled; omega)
  -- the four stores, from the last one back to the one that counts
  have hlen : nameLen m e = name.length := by
    have hbyte : m (e + 6) = BitVec.ofNat 8 name.length := by
      refine (putBytes_of_disjoint (by simp) _).trans ((putBytes_of_disjoint (by simp) _).trans
        ((putBytes_of_disjoint (by simp) _).trans ?_))
      exact putBytes_apply (s := [BitVec.ofNat 8 name.length]) (i := 0) (by simp) d.byte (e + 6)
    rw [nameLen, hbyte, BitVec.toNat_ofNat, Nat.mod_eq_of_lt hname]
  have hnum : entryInode m e = inodeNum := by
    refine (get32_putBytes_of_disjoint (by omega) _).trans
      ((get32_putBytes_of_disjoint (by omega) _).trans ?_)
    exact (get32_putBytes_same _ e inodeNum).trans (Nat.mod_eq_of_lt hinode)
  have htype' : fileType m e = type := by
    have hbyte : m (e + 7) = BitVec.ofNat 8 type :=
      putBytes_apply (s := [BitVec.ofNat 8 type]) (i := 0) (by simp) _ (e + 7)
    rw [fileType, hbyte, BitVec.toNat_ofNat, Nat.mod_eq_of_lt htype]
  have hname' : entryName m e = name := by
    rw [entryName, hlen]
    have htake : name.take name.length = name := List.take_length
    have hstore : ∀ i < name.length, m (e + 8 + i) =
        putBytes ((d.setU8 (e + 6) name.length).setU32 e inodeNum).byte (e + 8)
          (name.take name.length) (e + 8 + i) := fun i _ => putBytes_of_disjoint (by simp) _
    rw [getBytes_congr hstore, htake]
    exact getBytes_putBytes_same _ (e + 8) name
  exact ⟨hlen, by rw [dirEntry, hname', hnum, htype'], hrec⟩

/-- The block from `a` to `z` gets the entry `new` in addition to its old ones. -/
def Inserted (d d' : Disk) (a z : ℕ) (es : List ℕ) (new : DirEntry) : Prop :=
  SameBut (fun x => a ≤ x ∧ x < z) d d' ∧ ∃ es', Tiled d'.byte z a es' ∧
    Adds new (filesIn d.byte es) (filesIn d'.byte es')

/-- A deleted entry gets a new name. -/
theorem Tiled.reuse (h : Tiled d.byte z a (xs ++ e :: ys)) (hdeleted : live d.byte e = false)
    (hname : name.length < 256) (hinode : inodeNum < 2 ^ 32) (hpos : inodeNum ≠ 0)
    (htype : type < 256) (hroom : room name.length ≤ recLen d.byte e) :
    Inserted d (fillEntry d e name.length inodeNum name type) a z (xs ++ e :: ys)
      ⟨name, inodeNum, type⟩ := by
  set d' := fillEntry d e name.length inodeNum name type with hd'
  obtain ⟨hxs, hwf, hle, hys⟩ := h.around
  have hsame : SameBut (Filled e name.length) d d' := fillEntry_sameBut d e inodeNum type name
  obtain ⟨hlen, hentry, hrec⟩ := fillEntry_entry (d := d) (e := e) hname hinode htype
  have hn := room_bounds name.length
  have hge := hxs.le
  obtain ⟨hxs', hfiles⟩ := hxs.congr fun x hx hx' => hsame.byte_eq x (by unfold Filled; omega)
  obtain ⟨hys', hfiles'⟩ := hys.congr fun x hx hx' => hsame.byte_eq x (by unfold Filled; omega)
  have hlive : live d'.byte e = true := by
    have hnum : entryInode d'.byte e = inodeNum := congrArg DirEntry.inode hentry
    simp [live, hnum, hpos]
  refine ⟨hsame.mono fun x hx => ?_, xs ++ e :: ys, hxs'.append (.cons ⟨?_, ?_⟩ ?_ ?_),
    filesIn d.byte xs, filesIn d.byte ys, ?_, ?_⟩
  · unfold Filled at hx
    omega
  · rw [hd', hrec]
    exact hwf.aligned
  · rwa [hd', hlen, hrec]
  · rwa [hd', hrec]
  · rwa [hd', hrec] at *
  · rw [filesIn_append, filesIn_cons, hdeleted]
    rfl
  · rw [filesIn_append, filesIn_cons, hlive, if_pos rfl, hd', hentry, ← hd', hfiles, hfiles']
    rfl

/-- The two entries that the last one is split into. -/
theorem splitLast_eq (hname : name.length < 256) (hinode : inodeNum < 2 ^ 32)
    (htype : type < 256)
    (htest : (16 + name.length + nameLen d.byte e + 3) / 4 * 4 ≤ recLen d.byte e) :
    ∃ d', splitLast d e name.length inodeNum name type = (true, d') ∧
      let dir := e + room (nameLen d.byte e)
      d'.numBlocks = d.numBlocks ∧
      (∀ x, x ≠ e + 4 → x ≠ e + 5 → x < dir ∨ dir + 8 + name.length ≤ x → d'.byte x = d.byte x) ∧
      recLen d'.byte e = room (nameLen d.byte e) ∧
      recLen d'.byte dir = recLen d.byte e - room (nameLen d.byte e) ∧
      nameLen d'.byte dir = name.length ∧ dirEntry d'.byte dir = ⟨name, inodeNum, type⟩ := by
  have hp := room_bounds (nameLen d.byte e)
  have hlt : recLen d.byte e < 65536 := get16_lt _ _
  set dir := e + room (nameLen d.byte e) with hdir
  set remainder := recLen d.byte e - room (nameLen d.byte e) with hremainder
  set d₁ := d.setU16 (e + 4) (room (nameLen d.byte e)) with hd₁
  set d₂ := d₁.setU16 (dir + 4) remainder with hd₂
  set d' := fillEntry d₂ dir name.length inodeNum name type with hd'
  have hsame : SameBut (Filled dir name.length) d₂ d' := fillEntry_sameBut d₂ dir inodeNum type name
  obtain ⟨hlen, hentry, hrec'⟩ := fillEntry_entry (d := d₂) (e := dir) hname hinode htype
  refine ⟨d', ?_, rfl, ?_, ?_, ?_, hlen, hentry⟩
  · rw [splitLast, if_pos htest]
    rfl
  · intro x h₄ h₅ hx
    rw [hsame.byte_eq x (by unfold Filled; omega)]
    apply (putBytes_of_disjoint (by simp; omega) _).trans
    exact putBytes_of_disjoint (by simp; omega) _
  · have hrec₂ : recLen d₂.byte e = room (nameLen d.byte e) := by
      apply (get16_putBytes_of_disjoint (by omega) _).trans
      exact (get16_putBytes_same _ _ _).trans (Nat.mod_eq_of_lt (by omega))
    rw [← hrec₂]
    exact recLen_congr fun i _ _ => hsame.byte_eq _ (by unfold Filled; omega)
  · apply hrec'.trans
    exact (get16_putBytes_same _ _ _).trans (Nat.mod_eq_of_lt (by omega))

/-- The last entry gives up what it does not need. -/
theorem Tiled.splitLast (h : Tiled d.byte z a (xs ++ [e]))
    (hname : name.length < 256) (hinode : inodeNum < 2 ^ 32) (hpos : inodeNum ≠ 0)
    (htype : type < 256) (hroom : room (nameLen d.byte e) + room name.length ≤ recLen d.byte e) :
    ∃ d', splitLast d e name.length inodeNum name type = (true, d') ∧
      Inserted d d' a z (xs ++ [e]) ⟨name, inodeNum, type⟩ := by
  obtain ⟨hxs, hwf, hle, hend⟩ := h.around
  have hz : e + recLen d.byte e = z := by
    cases hend
    rfl
  have hn := room_bounds name.length
  have hp := room_bounds (nameLen d.byte e)
  have hge := hxs.le
  obtain ⟨d', hsplit, hblocks, hbyte, hrec, hrem, hlen, hentry⟩ :=
    splitLast_eq (d := d) (e := e) hname hinode htype (by omega)
  set dir := e + room (nameLen d.byte e) with hdir
  refine ⟨d', hsplit, ?_⟩
  have hkeep : ∀ i < 8 + nameLen d.byte e, i ≠ 4 → i ≠ 5 → d'.byte (e + i) = d.byte (e + i) :=
    fun i hi h₄ h₅ => hbyte (e + i) (by omega) (by omega) (by omega)
  obtain ⟨hlen₁, hlive₁, hentry₁⟩ := entry_congr hkeep
  obtain ⟨hxs', hfiles⟩ := hxs.congr fun x hx hx' => hbyte x (by omega) (by omega) (by omega)
  have hlive : live d'.byte dir = true := by
    have hnum : entryInode d'.byte dir = inodeNum := congrArg DirEntry.inode hentry
    simp [live, hnum, hpos]
  refine ⟨⟨hblocks, fun x hx => hbyte x (by omega) (by omega) (by omega)⟩, xs ++ [e, dir],
    hxs'.append (.cons ⟨?_, ?_⟩ ?_ ?_), filesIn d.byte (xs ++ [e]), [], by simp, ?_⟩
  · rw [hrec]
    exact hp.2.2
  · rw [hrec, hlen₁]
  · rw [hrec]
    omega
  · rw [hrec, ← hdir]
    refine .cons ⟨?_, ?_⟩ ?_ ?_
    · rw [hrem]
      have := hwf.aligned
      omega
    · rw [hrem, hlen]
      omega
    · omega
    · have hdone : dir + recLen d'.byte dir = z := by omega
      rw [hdone]
      exact .nil
  · have hlast : filesIn d'.byte [dir] = [⟨name, inodeNum, type⟩] := by
      rw [filesIn_cons, hlive, if_pos rfl, hentry]
      rfl
    have hsplit : xs ++ [e, dir] = xs ++ [e] ++ [dir] := by simp
    rw [hsplit, filesIn_append, hlast, filesIn_append, filesIn_append, hfiles, filesIn_cons,
      filesIn_cons, hlive₁, hentry₁]
    rfl

/-! ## The choice of a place -/

/-- Whether the block has a place, by the tests of `allocate_space_in_block`. -/
def takes (m : ℕ → Byte) (nameLength : ℕ) (es : List ℕ) : Bool :=
  match es.find? (reusable m), es.getLast? with
  | some _, _ => true
  | none, some e => decide ((16 + nameLength + nameLen m e + 3) / 4 * 4 ≤ recLen m e)
  | none, none => false

/-- The place that is chosen has room for the name. -/
def FitsIn (m : ℕ → Byte) (nameLength : ℕ) (es : List ℕ) : Prop :=
  match es.find? (reusable m), es.getLast? with
  | some e, _ => room nameLength ≤ recLen m e
  | none, some e => room (nameLen m e) + room nameLength ≤ recLen m e
  | none, none => False

instance (m : ℕ → Byte) (nameLength : ℕ) (es : List ℕ) : Decidable (FitsIn m nameLength es) := by
  unfold FitsIn
  split <;> infer_instance

/-- In a tiled block every deleted entry is as long as its old name needs. -/
theorem WellFormed.reusable_eq {m : ℕ → Byte} (h : WellFormed m e) : reusable m e = !live m e := by
  have hroom := h.room_le
  rw [room] at hroom
  rw [reusable, decide_eq_true hroom, Bool.and_true, live]
  cases hinode : entryInode m e == 0 <;> simp_all

theorem Tiled.choice_congr {m m' : ℕ → Byte} (h : Tiled m z a es)
    (hm : ∀ x, a ≤ x → x < z → m' x = m x) (n : ℕ) :
    takes m' n es = takes m n es ∧ (FitsIn m' n es ↔ FitsIn m n es) := by
  have hentry : ∀ e ∈ es, reusable m' e = reusable m e ∧ recLen m' e = recLen m e ∧
      nameLen m' e = nameLen m e := by
    intro e he
    obtain ⟨hge, hle, hwf⟩ := h.bounds he
    have hlong := hwf.le
    obtain ⟨hwf', hrec, hlive, -⟩ := hwf.congr fun x hx hx' => hm x (by omega) (by omega)
    refine ⟨?_, hrec, nameLen_congr (hm _ (by omega) (by omega))⟩
    rw [hwf'.reusable_eq, hwf.reusable_eq, hlive]
  have hfind : es.find? (reusable m') = es.find? (reusable m) :=
    find?_congr fun e he => (hentry e he).1
  unfold takes FitsIn
  rw [hfind]
  cases hsome : es.find? (reusable m) with
  | some e =>
      refine ⟨rfl, ?_⟩
      simp only [(hentry e (List.mem_of_find?_eq_some hsome)).2.1]
  | none =>
      cases hlast : es.getLast? with
      | none => exact ⟨rfl, Iff.rfl⟩
      | some e =>
          obtain ⟨-, hrec, hlen⟩ := hentry e (List.mem_of_getLast? hlast)
          simp only [hrec, hlen, and_self]

theorem allocateSpaceInBlock_eq {start blockNum : ℕ} (hptr : blockPtr d blockNum = .ok start)
    (h : Tiled d.byte (start + 1024) start es) (hname : name.length < 256)
    (hinode : inodeNum < 2 ^ 32) (hpos : inodeNum ≠ 0) (htype : type < 256) :
    if takes d.byte name.length es = true then
      FitsIn d.byte name.length es →
        ∃ d', allocateSpaceInBlock d name.length blockNum inodeNum name type = .ok (true, d') ∧
          Inserted d d' start (start + 1024) es ⟨name, inodeNum, type⟩
    else allocateSpaceInBlock d name.length blockNum inodeNum name type = .ok (false, d) := by
  have hmod : name.length % 256 = name.length := Nat.mod_eq_of_lt hname
  unfold allocateSpaceInBlock takes FitsIn
  simp only [bind, Except.bind, hptr, hmod, h.searchBlock_eq, h.entries_eq]
  cases hfind : es.find? (reusable d.byte) with
  | some e =>
      intro hfits
      obtain ⟨xs, ys, rfl⟩ := List.append_of_mem (List.mem_of_find?_eq_some hfind)
      obtain ⟨-, hwf, -⟩ := h.around
      have hdeleted : live d.byte e = false := by
        have hreusable := List.find?_some hfind
        rw [hwf.reusable_eq] at hreusable
        simpa using hreusable
      exact ⟨_, rfl, h.reuse hdeleted hname hinode hpos htype hfits⟩
  | none =>
      cases hlast : es.getLast? with
      | none =>
          obtain rfl := List.getLast?_eq_none_iff.mp hlast
          have := h.le
          generalize hz : start + 1024 = z at h
          cases h
          omega
      | some e =>
          simp only
          split_ifs with htest
          · intro hfits
            obtain ⟨xs, rfl⟩ := List.getLast?_eq_some_iff.mp hlast
            obtain ⟨d', hsplit, hins⟩ := h.splitLast hname hinode hpos htype hfits
            exact ⟨d', congrArg Except.ok hsplit, hins⟩
          · rw [splitLast, if_neg (by simpa using htest)]

end KernelProgramming.Ext2
