import KernelProgramming.Ext2.Access

/-!
# Directory blocks

The entries of a well-formed directory block tile it.  The loops over such a
block end, and they depend on nothing but the bytes of the block.
-/

namespace KernelProgramming.Ext2

open ByteMemory

variable {m m' : ℕ → Byte} {a b e z : ℕ} {es xs ys : List ℕ}

/-- What an entry says. -/
structure DirEntry where
  name : CString
  inode : ℕ
  fileType : ℕ
  deriving DecidableEq, Repr

def dirEntry (m : ℕ → Byte) (e : ℕ) : DirEntry := ⟨entryName m e, entryInode m e, fileType m e⟩

/-- The entries that are not deleted. -/
def filesIn (m : ℕ → Byte) (es : List ℕ) : List DirEntry := (es.filter (live m)).map (dirEntry m)

@[simp] theorem filesIn_nil (m : ℕ → Byte) : filesIn m [] = [] := rfl

@[simp] theorem filesIn_append (m : ℕ → Byte) (xs ys : List ℕ) :
    filesIn m (xs ++ ys) = filesIn m xs ++ filesIn m ys := by
  simp [filesIn]

theorem filesIn_cons (m : ℕ → Byte) (e : ℕ) (es : List ℕ) :
    filesIn m (e :: es) = (if live m e = true then [dirEntry m e] else []) ++ filesIn m es := by
  unfold filesIn
  by_cases h : live m e = true
  · simp [h]
  · simp [h]

/-- The list `now` is `old` with `e` put somewhere into it. -/
def Adds (e : DirEntry) (old now : List DirEntry) : Prop :=
  ∃ before after, old = before ++ after ∧ now = before ++ e :: after

section Adds

variable {old now others : List DirEntry} {new e : DirEntry}

theorem Adds.append_left (h : Adds new old now) : Adds new (others ++ old) (others ++ now) := by
  obtain ⟨before, after, rfl, rfl⟩ := h
  exact ⟨others ++ before, after, by simp, by simp⟩

theorem Adds.append_right (h : Adds new old now) : Adds new (old ++ others) (now ++ others) := by
  obtain ⟨before, after, rfl, rfl⟩ := h
  exact ⟨before, after ++ others, by simp, by simp⟩

theorem Adds.mem_iff (h : Adds new old now) : e ∈ now ↔ e = new ∨ e ∈ old := by
  obtain ⟨before, after, rfl, rfl⟩ := h
  simp only [List.mem_append, List.mem_cons]
  tauto

theorem Adds.perm (h : Adds new old now) : now.Perm (new :: old) := by
  obtain ⟨before, after, rfl, rfl⟩ := h
  exact List.perm_middle

/-- Looking up another name, or the new one where it was not there before. -/
theorem Adds.find?_eq (h : Adds new old now) {name : CString}
    (hnew : name = new.name → old.find? (fun e => e.name == name) = none) :
    now.find? (fun e => e.name == name) =
      if name = new.name then some new else old.find? fun e => e.name == name := by
  obtain ⟨before, after, rfl, rfl⟩ := h
  by_cases hname : name = new.name
  · have hnone := hnew hname
    rw [List.find?_append, Option.or_eq_none_iff] at hnone
    rw [if_pos hname, List.find?_append, hnone.1, List.find?_cons, hname]
    simp
  · have hother : (new.name == name) = false := beq_eq_false_iff_ne.mpr (Ne.symm hname)
    rw [if_neg hname, List.find?_append, List.find?_append, List.find?_cons, hother]

end Adds

/-- The number of bytes that an entry needs for a name of this length. -/
def room (nameLength : ℕ) : ℕ := recLenPerFourBytes nameLength * 4

theorem room_bounds (n : ℕ) : 8 + n ≤ room n ∧ room n < 12 + n ∧ room n % 4 = 0 := by
  unfold room recLenPerFourBytes
  omega

/-- The length of the entry is a multiple of four and has room for the name. -/
structure WellFormed (m : ℕ → Byte) (e : ℕ) : Prop where
  aligned : recLen m e % 4 = 0
  room_le : room (nameLen m e) ≤ recLen m e

/-- The entries `es` follow one another from `a` to `z`. -/
inductive Tiled (m : ℕ → Byte) (z : ℕ) : ℕ → List ℕ → Prop
  | nil : Tiled m z z []
  | cons {entry : ℕ} {rest : List ℕ} (h : WellFormed m entry) (hle : entry + recLen m entry ≤ z)
      (htail : Tiled m z (entry + recLen m entry) rest) : Tiled m z entry (entry :: rest)

instance : DecidablePred (WellFormed m) := fun e =>
  decidable_of_iff (recLen m e % 4 = 0 ∧ room (nameLen m e) ≤ recLen m e)
    ⟨fun h => ⟨h.1, h.2⟩, fun h => ⟨h.aligned, h.room_le⟩⟩

theorem tiled_nil_iff : Tiled m z a [] ↔ a = z :=
  ⟨fun h => by cases h; rfl, fun h => h ▸ .nil⟩

theorem tiled_cons_iff : Tiled m z a (e :: es) ↔
    e = a ∧ WellFormed m e ∧ e + recLen m e ≤ z ∧ Tiled m z (e + recLen m e) es := by
  constructor
  · rintro (_ | ⟨hwf, hle, htail⟩)
    exact ⟨rfl, hwf, hle, htail⟩
  · rintro ⟨rfl, hwf, hle, htail⟩
    exact .cons hwf hle htail

instance Tiled.decidable : ∀ (es : List ℕ) (a : ℕ), Decidable (Tiled m z a es)
  | [], _ => decidable_of_iff _ tiled_nil_iff.symm
  | e :: es, _ =>
      have := Tiled.decidable es (e + recLen m e)
      decidable_of_iff _ tiled_cons_iff.symm

theorem WellFormed.le (h : WellFormed m e) : 8 + nameLen m e ≤ recLen m e :=
  le_trans (room_bounds _).1 h.room_le

theorem nameLen_lt (m : ℕ → Byte) (e : ℕ) : nameLen m e < 256 := (m (e + 6)).isLt

theorem find?_congr {p q : ℕ → Bool} (h : ∀ e ∈ es, p e = q e) : es.find? p = es.find? q := by
  induction es with
  | nil => rfl
  | cons e es ih =>
      rw [List.find?_cons, List.find?_cons, h e List.mem_cons_self,
        ih fun x hx => h x (List.mem_cons_of_mem e hx)]

/-! ## What an entry depends on -/

theorem entryInode_congr (h : ∀ i < 4, m' (e + i) = m (e + i)) : entryInode m' e = entryInode m e :=
  get32_congr h

theorem recLen_congr (h : ∀ i, 4 ≤ i → i < 6 → m' (e + i) = m (e + i)) :
    recLen m' e = recLen m e :=
  get16_congr fun i hi => by
    rw [Nat.add_assoc]
    exact h (4 + i) (by omega) (by omega)

theorem nameLen_congr (h : m' (e + 6) = m (e + 6)) : nameLen m' e = nameLen m e :=
  congrArg BitVec.toNat h

theorem entryName_congr (hlen : nameLen m' e = nameLen m e)
    (h : ∀ i < nameLen m e, m' (e + (8 + i)) = m (e + (8 + i))) :
    entryName m' e = entryName m e := by
  rw [entryName, hlen]
  exact getBytes_congr fun i hi => by
    rw [Nat.add_assoc]
    exact h i hi

/-- Apart from its length, an entry depends on its own bytes other than those
of the length. -/
theorem entry_congr (h : ∀ i < 8 + nameLen m e, i ≠ 4 → i ≠ 5 → m' (e + i) = m (e + i)) :
    nameLen m' e = nameLen m e ∧ live m' e = live m e ∧ dirEntry m' e = dirEntry m e := by
  have hinode : entryInode m' e = entryInode m e :=
    entryInode_congr fun i hi => h i (by omega) (by omega) (by omega)
  have hlen : nameLen m' e = nameLen m e :=
    nameLen_congr (h 6 (by omega) (by decide) (by decide))
  have hname : entryName m' e = entryName m e :=
    entryName_congr hlen fun i hi => h (8 + i) (by omega) (by omega) (by omega)
  have htype : fileType m' e = fileType m e :=
    congrArg BitVec.toNat (h 7 (by omega) (by decide) (by decide))
  refine ⟨hlen, ?_, ?_⟩
  · rw [live, live, hinode]
  · rw [dirEntry, dirEntry, hinode, hname, htype]

theorem WellFormed.congr (h : WellFormed m e)
    (hm : ∀ x, e ≤ x → x < e + recLen m e → m' x = m x) :
    WellFormed m' e ∧ recLen m' e = recLen m e ∧ live m' e = live m e ∧
      dirEntry m' e = dirEntry m e := by
  have hle := h.le
  have hrec : recLen m' e = recLen m e :=
    recLen_congr fun i hi hi' => hm (e + i) (by omega) (by omega)
  obtain ⟨hlen, hlive, hentry⟩ := entry_congr fun i hi _ _ => hm (e + i) (by omega) (by omega)
  refine ⟨⟨?_, ?_⟩, hrec, hlive, hentry⟩
  · rw [hrec]
    exact h.aligned
  · rw [hrec, hlen]
    exact h.room_le

/-! ## Tilings -/

theorem Tiled.le (h : Tiled m z a es) : a ≤ z := by
  induction h with
  | nil => exact le_rfl
  | cons _ hle _ _ => omega

theorem Tiled.bounds (h : Tiled m z a es) (he : e ∈ es) :
    a ≤ e ∧ e + recLen m e ≤ z ∧ WellFormed m e := by
  induction h with
  | nil => exact absurd he (List.not_mem_nil)
  | cons hwf hle _ ih =>
      rcases List.mem_cons.mp he with rfl | he
      · exact ⟨le_rfl, hle, hwf⟩
      · obtain ⟨hge, hend, hwf'⟩ := ih he
        exact ⟨by omega, hend, hwf'⟩

theorem Tiled.congr (h : Tiled m z a es) (hm : ∀ x, a ≤ x → x < z → m' x = m x) :
    Tiled m' z a es ∧ filesIn m' es = filesIn m es := by
  induction h with
  | nil => exact ⟨.nil, rfl⟩
  | @cons e es hwf hle rest ih =>
      obtain ⟨hwf', hrec, hlive, hentry⟩ := hwf.congr fun x hx hx' => hm x hx (by omega)
      obtain ⟨htiled, hfiles⟩ := ih fun x hx hx' => hm x (by omega) hx'
      refine ⟨.cons hwf' (by omega) (by rwa [hrec]), ?_⟩
      rw [filesIn_cons, filesIn_cons, hlive, hentry, hfiles]

theorem Tiled.append (h : Tiled m b a xs) (h' : Tiled m z b ys) : Tiled m z a (xs ++ ys) := by
  induction h with
  | nil => exact h'
  | cons hwf hle htail ih => exact .cons hwf (le_trans hle h'.le) ih

theorem Tiled.split (h : Tiled m z a (xs ++ ys)) : ∃ b, Tiled m b a xs ∧ Tiled m z b ys := by
  induction xs generalizing a with
  | nil => exact ⟨a, .nil, h⟩
  | cons x xs ih =>
      cases h with
      | cons hwf hle htail =>
          obtain ⟨b, hxs, hys⟩ := ih htail
          exact ⟨b, .cons hwf hxs.le hxs, hys⟩

theorem Tiled.around (h : Tiled m z a (xs ++ e :: ys)) :
    Tiled m e a xs ∧ WellFormed m e ∧ e + recLen m e ≤ z ∧ Tiled m z (e + recLen m e) ys := by
  obtain ⟨b, hxs, hys⟩ := h.split
  cases hys with
  | cons hwf hle htail => exact ⟨hxs, hwf, hle, htail⟩

/-! ## Walks over a block -/

/-- The entries `es` follow one another from `a` to `z`, each long enough for its name. -/
inductive Chained (m : ℕ → Byte) (z : ℕ) : ℕ → List ℕ → Prop
  | nil : Chained m z z []
  | cons {entry : ℕ} {rest : List ℕ} (hlen : 8 + nameLen m entry ≤ recLen m entry)
      (hle : entry + recLen m entry ≤ z) (htail : Chained m z (entry + recLen m entry) rest) :
      Chained m z entry (entry :: rest)

theorem Tiled.chained (h : Tiled m z a es) : Chained m z a es := by
  induction h with
  | nil => exact .nil
  | cons hwf hle htail ih => exact .cons hwf.le hle ih

theorem Chained.length_le (h : Chained m z a es) : a + 8 * es.length ≤ z := by
  induction h with
  | nil => simp
  | cons hlen hle htail ih =>
      rw [List.length_cons]
      omega

/-- The loops over the entries of a block meet all of them and end. -/
theorem Chained.entriesFrom_eq {start position fuel : ℕ}
    (h : Chained m (start + 1024) (start + position) es) (hfuel : es.length < fuel) :
    entriesFrom m start fuel position = (es, true) := by
  induction es generalizing position fuel with
  | nil =>
      obtain ⟨fuel, rfl⟩ : ∃ k, fuel = k + 1 := ⟨fuel - 1, by simp at hfuel; omega⟩
      have hend : position = 1024 := by
        generalize hp : start + position = p at h
        cases h
        omega
      rw [entriesFrom, if_neg (by omega)]
  | cons e es ih =>
      obtain ⟨fuel, rfl⟩ : ∃ k, fuel = k + 1 := ⟨fuel - 1, by simp at hfuel; omega⟩
      generalize hp : start + position = p at h
      cases h with
      | cons hlen hle htail =>
          subst hp
          rw [entriesFrom, if_pos (by omega)]
          rw [Nat.add_assoc] at htail
          simp only [ih htail (by simpa using hfuel),
            if_neg (show recLen m (start + position) ≠ 0 by omega)]

theorem Chained.entries_eq {start : ℕ} (h : Chained m (start + 1024) start es) :
    entries m start = (es, true) :=
  Chained.entriesFrom_eq h (by have := h.length_le; omega)

theorem Chained.searchBlock_eq {start : ℕ} (h : Chained m (start + 1024) start es)
    (stop : ℕ → Bool) : searchBlock m start stop = .ok (es.find? stop) := by
  rw [searchBlock, h.entries_eq]
  cases es.find? stop with
  | none => rfl
  | some e => rfl

theorem Tiled.length_le (h : Tiled m z a es) : a + 8 * es.length ≤ z := h.chained.length_le

theorem Tiled.entries_eq {start : ℕ} (h : Tiled m (start + 1024) start es) :
    entries m start = (es, true) := h.chained.entries_eq

theorem Tiled.searchBlock_eq {start : ℕ} (h : Tiled m (start + 1024) start es) (stop : ℕ → Bool) :
    searchBlock m start stop = .ok (es.find? stop) := h.chained.searchBlock_eq stop

end KernelProgramming.Ext2
