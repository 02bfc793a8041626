import KernelProgramming.Ext2.SoundRemoval
import Mathlib.Logic.Relation

/-!
# Runs on a sound volume

The tools on one image, one after the other.  A volume that is sound stays sound,
its file tree changes as the commands are to change it, and a file is read back
until its last name is gone.
-/

namespace KernelProgramming.Ext2

open ByteMemory FileTree Relation

variable {L : Layout} {d d' : Disk} {v w : View} {n p now : ℕ} {c : Command}
  {content : List Byte} {name leftover nativePath destPath path : CString}

/-- What each tool takes for granted about its arguments and the volume. -/
def Command.Proper (L : Layout) (d : Disk) (v : View) : Command → Prop
  | .mkdir path _ => Creatable L v path ∧ 0 ∉ path
  | .cp leftover nativePath native destPath _ => ∃ content p name,
      native = some ⟨true, true, content⟩ ∧
        Copyable L v leftover nativePath destPath content p name ∧ 0 ∉ name
  | .ln false filePath destPath _ depth => Linkable L d v filePath destPath depth ∧ 0 ∉ destPath ∧
      ∀ file names name p, findDirEntry d filePath = .ok (some file) →
        tokens destPath = names ++ [name] → v.reach rootInodeNumber names = some p →
          LinkMatches d v p file name
  | .ln true filePath destPath _ _ => SymLinkable L v filePath destPath ∧ 0 ∉ destPath ∧
      (∃ name, tokens destPath = [name]) ∧
        ∀ file name, findDirEntry d filePath = .ok (some file) → tokens destPath = [name] →
          TypesLink v rootInodeNumber file name
  | .rm recursive path _ _ => (∃ p a, RemovableName L v path p a) ∨
      recursive = true ∧ ∃ k, RemovableDir L v path k

/-- A run of a tool that is used properly and reports no error, or one that
leaves the image as it was. -/
inductive Steps (L : Layout) (d : Disk) : Disk → Prop
  | done {d' : Disk} (c : Command) (proper : c.Proper L d (L.view d))
      (ret : c.run d = .ok (0, d')) : Steps L d d'
  | idle (c : Command) (code : ℕ) (ret : c.run d = .ok (code, d)) : Steps L d d

/-! ## One command -/

/-- The tool has found the blocks and the inode that it needs, and room for the path. -/
theorem Copyable.checks (hcopy : Copyable L v leftover nativePath destPath content p name)
    (h : L.Shows d v) (hc : v.Consistent L)
    (hret : ext2Cp d leftover nativePath (some ⟨true, true, content⟩) destPath now = .ok (0, d')) :
    haveEnoughBlocks d content.length = true ∧ findFreeInode d ≠ 0 ∧
      destPath.length + 1 + name.length ≤ pathMax := by
  have henough : haveEnoughBlocks d content.length = true := by
    by_contra hlack
    simp [ext2Cp, hlack, enospc] at hret
  have hfits : destPath.length + 1 + name.length ≤ pathMax := by
    by_contra hlong
    simp [ext2Cp, henough, hcopy.absolute, hcopy.findDestination_eq h hc,
      if_pos (Nat.lt_of_not_ge hlong), bind, Except.bind] at hret
  refine ⟨henough, fun hnone => ?_, hfits⟩
  simp [ext2Cp, henough, hcopy.absolute, hcopy.findDestination h hc hfits, bind, Except.bind,
    copyTo, hnone, enospc] at hret

theorem Copyable.sound (hcopy : Copyable L v leftover nativePath destPath content p name)
    (h : L.Shows d v) (hs : v.Sound L) (hzero : 0 ∉ name)
    (hret : ext2Cp d leftover nativePath (some ⟨true, true, content⟩) destPath now =
      .ok (0, d')) :
    ∃ w, L.Shows d' w ∧ w.Sound L ∧ v.KeepsFiles L w ∧
      (Command.cp leftover nativePath (some ⟨true, true, content⟩) destPath now).Effect
        (v.fileTree L) (w.fileTree L) := by
  have hc := hs.consistent
  obtain ⟨henough, hinode, hfits⟩ := hcopy.checks h hc hret
  obtain ⟨d₁, u, w, k, bs, hret', hw, htakes, -, -, hsound, hfiles, htree⟩ :=
    hcopy.run_sound h hs hzero hfits henough hinode now
  obtain rfl : d₁ = d' := congrArg Prod.snd (Except.ok.inj (hret'.symm.trans hret))
  have hdir := (hcopy.search.directory hcopy.reach).1
  have hp : v.IsDir L p := ⟨hc.live_of_reach hc.root.1 hcopy.reach, hdir⟩
  obtain rfl := hcopy.fileName
  refine ⟨w, hw, hsound, hfiles, _, u.contents k, p, k, rfl,
    (View.fileTree_reach hc hc.root.1).trans hcopy.reach, View.fileTree_isDir.mpr hp, ?_,
    View.fileTree_eq_none htakes.fresh, fun hchunks => ?_, htree⟩
  · rw [View.fileTree_lookup hp, hcopy.missing, Option.map_none]
  · have hsame : ∀ c ∈ u.owned k, u.SameBlock u c := fun _ _ _ _ => rfl
    have hchunks : numChunks content ≤ 524 := hchunks
    exact (htakes.readsBack (by omega) rfl hsame (htakes.owned_eq hcopy.blank)).2 hchunks

theorem ext2Rm_of_le {recursive : Bool} {m : ℕ} {r : ℕ × Disk}
    (h : ext2Rm d recursive path now n = .ok r) (hle : n ≤ m) :
    ext2Rm d recursive path now m = .ok r := by
  unfold ext2Rm at h ⊢
  split_ifs at h ⊢ with habsolute hlength
  · exact h
  · exact h
  obtain ⟨found, hfind, h⟩ := Runs.bind_eq_ok_iff.mp h
  refine Runs.bind_eq_ok_iff.mpr ⟨found, hfind, ?_⟩
  cases found with
  | none => exact h
  | some entry =>
      simp only at h ⊢
      split_ifs at h ⊢ with hdir
      · exact h
      · obtain ⟨d', hremove, h⟩ := Runs.bind_eq_ok_iff.mp h
        exact Runs.bind_eq_ok_iff.mpr
          ⟨d', removeDirectoryOrFileOrLink_of_le hremove (by simp) hle, h⟩

/-- A recursion that comes to its end does so with one result. -/
theorem ext2Rm_unique {recursive : Bool} {m : ℕ} {r r' : ℕ × Disk}
    (h : ext2Rm d recursive path now n = .ok r) (h' : ext2Rm d recursive path now m = .ok r') :
    r = r' :=
  Except.ok.inj ((ext2Rm_of_le h (le_max_left n m)).symm.trans (ext2Rm_of_le h' (le_max_right n m)))

theorem Command.Proper.sound (hproper : c.Proper L d v) (h : L.Shows d v) (hs : v.Sound L)
    (hret : c.run d = .ok (0, d')) :
    ∃ w, L.Shows d' w ∧ w.Sound L ∧ v.KeepsFiles L w ∧
      c.Effect (v.fileTree L) (w.fileTree L) := by
  cases c with
  | mkdir path now => exact mkdir_sound h hs hproper.1 hproper.2 hret
  | cp leftover nativePath native destPath now =>
      obtain ⟨content, p, name, rfl, hcopy, hzero⟩ := hproper
      exact hcopy.sound h hs hzero hret
  | ln symbolic filePath destPath now depth =>
      cases symbolic with
      | false => exact ln_sound h hs hproper.1 hproper.2.1 hproper.2.2 hret
      | true =>
          exact symlink_sound h hs hproper.1 hproper.2.1 hproper.2.2.1 hproper.2.2.2 hret
  | rm recursive path now depth =>
      rcases hproper with ⟨p, a, hrem⟩ | ⟨rfl, k, hrem⟩
      · obtain ⟨d₁, w, hret', hw, hsound, hfiles, heffect⟩ :=
          hrem.ext2Rm (length_of_ext2Rm hret) h hs recursive now 0
        obtain rfl : d₁ = d' := congrArg Prod.snd (ext2Rm_unique hret' hret)
        exact ⟨w, hw, hsound, hfiles, heffect⟩
      · obtain ⟨m, hrem⟩ := hrem.ext2Rm h hs now
        obtain ⟨w, hw, hsound, hfiles, heffect⟩ := hrem (max depth m) (le_max_right depth m) d'
          (ext2Rm_of_le hret (le_max_left depth m))
        exact ⟨w, hw, hsound, hfiles, heffect depth⟩

theorem Steps.sound (hstep : Steps L d d') (h : L.Shows d v) (hs : v.Sound L) :
    ∃ w, L.Shows d' w ∧ w.Sound L ∧ v.KeepsFiles L w := by
  cases hstep with
  | done c proper ret =>
      obtain ⟨w, hw, hsound, hfiles, -⟩ := (h.2 ▸ proper).sound h hs ret
      exact ⟨w, hw, hsound, hfiles⟩
  | idle c code ret => exact ⟨v, h, hs, .refl L v⟩

/-! ## Any number of commands -/

theorem runs_sound (h : L.Shows d v) (hs : v.Sound L) (hruns : ReflTransGen (Steps L) d d') :
    ∃ w, L.Shows d' w ∧ w.Sound L := by
  induction hruns with
  | refl => exact ⟨v, h, hs⟩
  | tail _ hstep ih =>
      obtain ⟨u, hu, hsound⟩ := ih
      obtain ⟨w, hw, hsound', -⟩ := hstep.sound hu hsound
      exact ⟨w, hw, hsound'⟩

/-- A run of the tools with the codes they return: each is used properly and
reports no error, or leaves the image as it was. -/
inductive Serves (L : Layout) : Disk → List (Command × ℕ) → Disk → Prop
  | nil (d : Disk) : Serves L d [] d
  | done {d d₁ d₂ : Disk} {c : Command} {cmds : List (Command × ℕ)}
      (proper : c.Proper L d (L.view d)) (ret : c.run d = .ok (0, d₁))
      (rest : Serves L d₁ cmds d₂) : Serves L d ((c, 0) :: cmds) d₂
  | idle {d d' : Disk} {c : Command} {code : ℕ} {cmds : List (Command × ℕ)} (failed : code ≠ 0)
      (ret : c.run d = .ok (code, d)) (rest : Serves L d cmds d') :
      Serves L d ((c, code) :: cmds) d'

theorem Serves.effects {cmds : List (Command × ℕ)} (hserves : Serves L d cmds d')
    (h : L.Shows d v) (hs : v.Sound L) :
    ∃ w, L.Shows d' w ∧ w.Sound L ∧ Effects (v.fileTree L) cmds (w.fileTree L) := by
  induction hserves generalizing v with
  | nil d => exact ⟨v, h, hs, .nil _⟩
  | done proper ret _ ih =>
      obtain ⟨u, hu, hsound, -, heffect⟩ := (h.2 ▸ proper).sound h hs ret
      obtain ⟨w, hw, hsound', heffects⟩ := ih hu hsound
      exact ⟨w, hw, hsound', .done heffect heffects⟩
  | idle failed _ _ ih =>
      obtain ⟨w, hw, hsound, heffects⟩ := ih h hs
      exact ⟨w, hw, hsound, .idle failed heffects⟩

/-- The tools do to the file tree what they are to do, one after the other. -/
theorem serves_effects {cmds : List (Command × ℕ)} (hserves : Serves L d cmds d')
    (h : L.Shows d v) (hs : v.Sound L) :
    ∃ w, L.Shows d' w ∧ w.Sound L ∧ Effects (v.fileTree L) cmds (w.fileTree L) :=
  hserves.effects h hs

/-- As long as nothing is removed, every path leads where it led and every file is what it was. -/
theorem serves_keeps {cmds : List (Command × ℕ)} (hserves : Serves L d cmds d') (h : L.Shows d v)
    (hs : v.Sound L) (hcmds : ∀ x ∈ cmds, ¬ x.1.Removes) :
    ∀ path n, v.reach rootInodeNumber (tokens path) = some n →
      (L.view d').reach rootInodeNumber (tokens path) = some n ∧
        (¬ (v.inode n).IsDirectory → (L.view d').contents n = v.contents n) := by
  obtain ⟨w, hw, hsound, heffects⟩ := hserves.effects h hs
  have hextends := heffects.extends hcmds
  intro path n hreach
  have hc := hs.consistent
  rw [hw.2]
  refine ⟨?_, fun hfile => ?_⟩
  · rw [← View.fileTree_reach hsound.consistent hsound.consistent.root.1]
    exact hextends.reach ((View.fileTree_reach hc hc.root.1).trans hreach)
  · have hn := View.fileTree_file (hc.live_of_reach hc.root.1 hreach) hfile
    exact View.eq_of_fileTree (hextends.file n _ hn)

/-- Inode `n` is in use. -/
def InUse (L : Layout) (n : ℕ) (d : Disk) : Prop := (L.view d).Live L n

/-- A file is what it was as long as it keeps its inode. -/
theorem KeepsFiles.of_runs (h : L.Shows d v) (hs : v.Sound L) (hn : v.Live L n)
    (hfile : ¬ (v.inode n).IsDirectory)
    (hruns : ReflTransGen (fun d d' => Steps L d d' ∧ InUse L n d') d d') :
    ∃ w, L.Shows d' w ∧ w.Sound L ∧ w.Live L n ∧ v.KeepsFile w n := by
  induction hruns with
  | refl => exact ⟨v, h, hs, hn, View.KeepsFiles.refl L v n hn hn hfile⟩
  | tail _ hstep ih =>
      obtain ⟨u, hu, hsound, hlive, hkeeps⟩ := ih
      obtain ⟨w, hw, hsound', hfiles⟩ := hstep.1.sound hu hsound
      have hlive' : w.Live L n := hw.2 ▸ hstep.2
      exact ⟨w, hw, hsound', hlive', hkeeps.trans
        (hfiles n hlive hlive' (hkeeps.isDirectory_iff.not.mpr hfile))⟩

/-- What has been copied into a sound volume is there after any number of commands. -/
theorem cp_survives (h : L.Shows d v) (hs : v.Sound L)
    (hcopy : Copyable L v leftover nativePath destPath content p name) (hzero : 0 ∉ name)
    (hchunks : numChunks content ≤ 524)
    (hret : ext2Cp d leftover nativePath (some ⟨true, true, content⟩) destPath now = .ok (0, d')) :
    ∃ n, ¬ v.Live L n ∧ InUse L n d' ∧ ⟨name, n, ext2FtRegFile⟩ ∈ (L.view d').files p ∧
      ∀ d'', ReflTransGen (fun d d' => Steps L d d' ∧ InUse L n d') d' d'' →
        (L.view d'').contents n = content := by
  have hc := hs.consistent
  obtain ⟨henough, hinode, hfits⟩ := hcopy.checks h hc hret
  obtain ⟨d₁, u, w, n, bs, hret', hw, htakes, henters, hspares, hsound, -⟩ :=
    hcopy.run_sound h hs hzero hfits henough hinode now
  obtain rfl : d₁ = d' := congrArg Prod.snd (Except.ok.inj (hret'.symm.trans hret))
  have hp := hc.live_of_reach hc.root.1 hcopy.reach
  obtain ⟨hinode, hsame⟩ := htakes.keeps_file hc hspares hp hcopy.blank
  have hcontents :=
    (htakes.readsBack (by omega) hinode hsame (htakes.owned_eq hcopy.blank)).2 hchunks
  have hlive : w.Live L n := (henters.live n).mpr (htakes.live_iff.mpr (.inl rfl))
  have hfile : ¬ (w.inode n).IsDirectory := hinode ▸ htakes.not_directory
  have huse : InUse L n d₁ := by rwa [InUse, hw.2]
  refine ⟨n, htakes.fresh, huse, hw.2 ▸ henters.adds.mem_iff.mpr (.inl rfl), fun d'' hruns => ?_⟩
  obtain ⟨w', hw', -, -, hkeeps⟩ := KeepsFiles.of_runs hw hsound hlive hfile hruns
  rw [hw'.2, hkeeps.contents_eq (hw.size_lt hlive.1), hcontents]

/-! ## An empty volume -/

section Empty

variable (hdirs : ∀ k, v.IsDir L k → k = rootInodeNumber)
  (hfiles : v.files rootInodeNumber =
    [⟨[dot], rootInodeNumber, ext2FtDir⟩, ⟨[dot, dot], rootInodeNumber, ext2FtDir⟩])

include hdirs hfiles

theorem View.mem_of_empty {e : DirEntry} (h : v.IsDir L n) (he : e ∈ v.files n) :
    e = ⟨[dot], rootInodeNumber, ext2FtDir⟩ ∨ e = ⟨[dot, dot], rootInodeNumber, ext2FtDir⟩ := by
  obtain rfl := hdirs n h
  rwa [hfiles, List.mem_cons, List.mem_singleton] at he

theorem View.not_contains_of_empty {e : DirEntry} : ¬ v.Contains L n e := fun h => by
  rcases View.mem_of_empty hdirs hfiles h.isDir h.mem with rfl | rfl
  · exact h.not_dot rfl
  · exact h.not_dot_dot rfl

/-- A volume with nothing but an empty root directory. -/
theorem View.sound_of_empty (hc : v.Consistent L) (hdirect : (v.inode rootInodeNumber).DirectOnly)
    (hopens : v.Opens rootInodeNumber)
    (hlinks : ∀ n, v.Live L n → (v.inode n).linksCount = (v.namers L n).length) : v.Sound L where
  consistent := hc
  arranged :=
    { direct := fun k hk => hdirs k hk ▸ hdirect
      opens := fun k hk => hdirs k hk ▸ hopens
      names := fun k hk => by
        rw [hdirs k hk, hfiles]
        decide
      legal := fun k hk e he => by
        rcases View.mem_of_empty hdirs hfiles hk he with rfl | rfl <;> decide
      types := fun k hk e he => by
        rcases View.mem_of_empty hdirs hfiles hk he with rfl | rfl
        all_goals exact iff_of_true rfl hc.root.2
      forest := ⟨fun k q e f n hk => absurd hk.1 (View.not_contains_of_empty hdirs hfiles),
        fun _ => 0, fun k e n hk => absurd hk.1 (View.not_contains_of_empty hdirs hfiles)⟩
      above := fun k e he => absurd he (View.not_contains_of_empty hdirs hfiles) }
  rooted :=
    { top := by
        rw [hfiles]
        exact List.mem_cons_of_mem _ List.mem_cons_self
      unnamed := fun k e he => absurd he (View.not_contains_of_empty hdirs hfiles)
      inside := fun n _ hn hne => absurd (hdirs n hn) hne }
  linked n hn := (hlinks n hn).trans (View.length_namers ..)

end Empty

theorem wide_sound : wideView.Sound wideLayout := by
  have hdirs : ∀ k < 17, wideView.IsDir wideLayout k → k = rootInodeNumber := by decide
  have hslots : ∀ i < totalBlockCount, directBlockCount ≤ i →
      (wideView.inode rootInodeNumber).block i = 0 := by decide
  have hlinks : ∀ n < 17, wideView.Live wideLayout n →
      (wideView.inode n).linksCount = (wideView.namers wideLayout n).length := by decide
  exact View.sound_of_empty (fun k hk => hdirs k (Nat.lt_succ_of_le hk.1.1.2) hk)
    (by decide +kernel) wide_consistent (fun i hi hi' => hslots i hi' hi)
    ⟨by decide, 7168, 7180, [], 2, by decide⟩ fun n hn => hlinks n (Nat.lt_succ_of_le hn.1.2) hn

theorem wide_cp : ∃ d', ext2Cp wideDisk [] [slash, 0x62#8] (some ⟨true, true, thirteenBlocks⟩)
    [slash] 7 = .ok (0, d') := by
  obtain ⟨d', -, -, -, -, hret, -⟩ := wide_copyable.run_sound wide_shows wide_sound (by decide)
    (by decide) wide_enough (by decide) 7
  exact ⟨d', hret⟩

theorem cp_survives_wide : ∃ d', ext2Cp wideDisk [] [slash, 0x62#8]
    (some ⟨true, true, thirteenBlocks⟩) [slash] 7 = .ok (0, d') ∧
      ∃ n, ¬ wideView.Live wideLayout n ∧ InUse wideLayout n d' ∧
        ⟨[0x62#8], n, ext2FtRegFile⟩ ∈ (wideLayout.view d').files rootInodeNumber ∧
          ∀ d'', ReflTransGen (fun d d' => Steps wideLayout d d' ∧ InUse wideLayout n d') d' d'' →
            (wideLayout.view d'').contents n = thirteenBlocks := by
  have hchunks : numChunks thirteenBlocks ≤ 524 := by
    rw [numChunks, length_thirteenBlocks]
    decide
  obtain ⟨d', hret⟩ := wide_cp
  exact ⟨d', hret, cp_survives wide_shows wide_sound wide_copyable (by decide) hchunks hret⟩

/-! ## A run of all four tools -/

section Root

variable {x y : Byte}

theorem tokens_single (hx : x ≠ slash) : tokens [slash, x] = [[x]] := by
  rw [← List.nil_append [slash, x], tokens_append_slash, tokens_name (by simpa using hx.symm)
    (List.cons_ne_nil x [])]
  rfl

theorem single_split {names : List CString} (hx : x ≠ slash)
    (h : tokens [slash, x] = names ++ [name]) : names = [] ∧ name = [x] := by
  obtain ⟨hnames, hname⟩ := List.append_inj'
    (show [] ++ [[x]] = names ++ [name] from (tokens_single hx).symm.trans h) rfl
  exact ⟨hnames.symm, (List.singleton_inj.mp hname).symm⟩

theorem single_name (hx : x ≠ slash) (h : tokens [slash, x] = [name]) : name = [x] :=
  (List.singleton_inj.mp ((tokens_single hx).symm.trans h)).symm

theorem View.Sound.searchPath (hs : v.Sound L) (name : CString) :
    v.SearchPath rootInodeNumber [name] :=
  ⟨hs.consistent.root.2, .inl (hs.arranged.direct _ hs.consistent.root), fun _ _ => trivial⟩

theorem View.Sound.creatable (hs : v.Sound L) (hplace : v.HasPlace rootInodeNumber 1) (hx : x ≠ slash)
    (hlinks : (v.inode rootInodeNumber).linksCount < 65535) : Creatable L v [slash, x] where
  short := by simp
  noSlash := by simpa using hx
  search := tokens_single hx ▸ hs.searchPath [x]
  room names name p hsplit hreach := by
    obtain ⟨rfl, rfl⟩ := single_split hx hsplit
    obtain rfl := Option.some.inj hreach
    exact ⟨by simp, hlinks, hplace.hasRoom 2⟩

theorem View.Sound.linkPaths (hs : v.Sound L) (hx : x ≠ slash) (hy : y ≠ slash) :
    LinkPaths v [slash, x] [slash, y] where
  fits := by simp [stackRoom]
  short := by simp
  noSlash := by simpa using hy
  source := by
    rw [tokens_tail rfl, tokens_single hx]
    exact hs.searchPath [x]
  search := tokens_single hy ▸ hs.searchPath [y]

/-- The source is a file and no link. -/
theorem View.Sound.linkable (hs : v.Sound L) (hplace : v.HasPlace rootInodeNumber 1) (hx : x ≠ slash)
    (hy : y ≠ slash) : Linkable L d v [slash, x] [slash, y] 0 where
  toLinkPaths := hs.linkPaths hx hy
  target inode h := absurd h (by simp [readSymbolicLink])
  room names name p hsplit hreach := by
    obtain ⟨rfl, rfl⟩ := single_split hy hsplit
    obtain rfl := Option.some.inj hreach
    exact ⟨by simp, hplace.hasRoom 0⟩

theorem View.Sound.symLinkable (hs : v.Sound L) (hplace : v.HasPlace rootInodeNumber 1) (hx : x ≠ slash)
    (hy : y ≠ slash) : SymLinkable L v [slash, x] [slash, y] where
  toLinkPaths := hs.linkPaths hx hy
  room name hname := by
    obtain rfl := single_name hy hname
    exact ⟨by simp, hplace.hasRoom 0⟩
  notReserved names name p hne hsplit := absurd (single_split hy hsplit).1 hne

/-- What the path leads to is the entry with that name. -/
theorem Layout.Shows.entry_single (h : L.Shows d v) (hs : v.Sound L) (hx : x ≠ slash) {a : ℕ}
    (hfind : findDirEntry d [slash, x] = .ok (some a)) :
    v.lookup rootInodeNumber [x] = some (dirEntry v.byte a) := by
  have hc := hs.consistent
  have hnot : slash ∉ [x] := by simpa using hx.symm
  have hsearch : v.SearchPath rootInodeNumber (tokens [] ++ [[x]]) := hs.searchPath [x]
  obtain ⟨r, hr, hlookup⟩ := h.findDirEntry_lookup hc hnot (List.cons_ne_nil x []) rfl hsearch rfl
  obtain rfl : some a = r := Except.ok.inj (hfind.symm.trans hr)
  have hentry : v.Entry L rootInodeNumber a := by
    rw [findDirEntry, h.getRootInode_eq] at hfind
    have htokens : tokens [x] = [[x]] := tokens_name hnot (List.cons_ne_nil x [])
    simp only [bind, Except.bind, List.tail_cons, htokens] at hfind
    exact h.entry_of_locate hc hc.root (hs.searchPath [x]).2.1 hfind
  rw [← hlookup, Option.map_some, (h.dirEntry_slot rfl hc hc.root hentry.slot).1]

theorem View.Sound.linkMatches (hs : v.Sound L) (h : L.Shows d v) (hplace : v.HasPlace rootInodeNumber 1)
    (hx : x ≠ slash) (hlookup : v.lookup rootInodeNumber [x] = some ⟨[x], n, ext2FtRegFile⟩)
    (hmode : (v.inode n).mode ≠ ext2SIflnk) (hcount : (v.inode n).linksCount < 65535) {file : ℕ}
    (hfind : findDirEntry d [slash, x] = .ok (some file)) :
    LinkMatches d v rootInodeNumber file [y] := by
  have hentry := Option.some.inj ((h.entry_single hs hx hfind).symm.trans hlookup)
  have htarget : v.target file = n := congrArg DirEntry.inode hentry
  refine ⟨htarget ▸ hmode, htarget ▸ hcount, ?_⟩
  obtain ⟨b, hfound, -⟩ := hplace.exists_find
  rw [StoresLink, List.length_singleton, hfound]
  exact congrArg DirEntry.fileType hentry

theorem View.HasPlace.typesLink {file : ℕ} (h : v.HasPlace rootInodeNumber 1) :
    TypesLink v rootInodeNumber file [y] := fun hnone => by
  obtain ⟨b, hfound, -⟩ := h.exists_find
  exact absurd (hnone.symm.trans hfound) (by simp)

/-- The file has another name. -/
theorem View.Sound.removableName (hs : v.Sound L) (hx : x ≠ slash)
    (hlookup : v.lookup rootInodeNumber [x] = some ⟨[x], n, ext2FtRegFile⟩)
    (hcount : (v.inode n).linksCount ≠ 1) :
    ∃ a, RemovableName L v [slash, x] rootInodeNumber a := by
  obtain ⟨a, hslot, hlive, hentry⟩ := mem_filesIn.mp (View.mem_of_lookup hlookup).1
  have htarget : v.target a = n := congrArg DirEntry.inode hentry
  refine ⟨a, ⟨rfl, ?_, ⟨hs.consistent.root, hslot, hlive⟩, [], ?_, rfl⟩, .inl ?_, fun hone => ?_⟩
  · intro hinfix
    have heq := hinfix.eq_of_length rfl
    exact hx (List.cons.inj (List.cons.inj heq).2).1.symm
  · rw [tokens_single hx, show v.name a = [x] from congrArg DirEntry.name hentry]
    rfl
  · exact congrArg DirEntry.fileType hentry
  · exact absurd hone (htarget ▸ hcount)

end Root

/-- What `f` shows before each command, with the codes that they return. -/
def trail {α : Type} (f : Disk → α) (d : Disk) : List Command → Except Fault (List (α × ℕ))
  | [] => .ok []
  | c :: cmds => do
      let (code, d') ← c.run d
      let rest ← trail f d' cmds
      .ok ((f d, code) :: rest)

theorem trail_cons {α : Type} {f : Disk → α} {cmds : List Command} {x : α × ℕ}
    {xs : List (α × ℕ)} (h : trail f d (c :: cmds) = .ok (x :: xs)) :
    f d = x.1 ∧ ∃ d', c.run d = .ok (x.2, d') ∧ trail f d' cmds = .ok xs := by
  obtain ⟨⟨code, d'⟩, hret, h⟩ := Runs.bind_eq_ok_iff.mp h
  obtain ⟨rest, hrest, h⟩ := Runs.bind_eq_ok_iff.mp h
  obtain ⟨rfl, rfl⟩ := List.cons.inj (Except.ok.inj h)
  exact ⟨rfl, d', hret, hrest⟩

theorem Serves.append {xs ys : List (Command × ℕ)} {d'' : Disk} (h : Serves L d xs d')
    (h' : Serves L d' ys d'') : Serves L d (xs ++ ys) d'' := by
  induction h with
  | nil d => exact h'
  | done proper ret _ ih => exact .done proper ret (ih h')
  | idle failed ret _ ih => exact .idle failed ret (ih h')

theorem Serves.steps {cmds : List (Command × ℕ)} (h : Serves L d cmds d') :
    ReflTransGen (Steps L) d d' := by
  induction h with
  | nil d => exact .refl
  | done proper ret _ ih => exact .head (.done _ proper ret) ih
  | idle _ ret _ ih => exact .head (.idle _ _ ret) ih

theorem Command.Proper.sound_view (hproper : c.Proper L d (L.view d))
    (h : L.Shows d (L.view d) ∧ (L.view d).Sound L) (hret : c.run d = .ok (0, d')) :
    L.Shows d' (L.view d') ∧ (L.view d').Sound L := by
  obtain ⟨w, hw, hsound, -⟩ := hproper.sound h.1 h.2 hret
  obtain rfl := hw.2
  exact ⟨hw, hsound⟩

/-- What the commands below need to know of the root directory and of the file. -/
structure WideFacts where
  hasPlace : Bool
  file : Option DirEntry
  link : Option DirEntry
  rootLinks : ℕ
  mode : ℕ
  links : ℕ
  deriving DecidableEq

def wideFacts (d : Disk) : WideFacts :=
  let v := wideLayout.view d
  { hasPlace := v.HasPlace rootInodeNumber 1
    file := v.lookup rootInodeNumber [0x62#8]
    link := v.lookup rootInodeNumber [0x68#8]
    rootLinks := (v.inode rootInodeNumber).linksCount
    mode := (v.inode 12).mode
    links := (v.inode 12).linksCount }

/-- A file of 13 blocks, a directory, and two links to the file. -/
def wideCp : Command := .cp [] [slash, 0x62#8] (some ⟨true, true, thirteenBlocks⟩) [slash] 7

def wideMkdir : Command := .mkdir [slash, 0x61#8] 8

def wideLn : Command := .ln false [slash, 0x62#8] [slash, 0x68#8] 9 0

def wideSymLn : Command := .ln true [slash, 0x62#8] [slash, 0x73#8] 10 0

def wideRm : Command := .rm false [slash, 0x68#8] 11 1

theorem wide_trail : trail wideFacts wideDisk [wideCp, wideMkdir, wideLn, wideSymLn, wideRm] = .ok
    [(⟨true, none, none, 2, 0, 0⟩, 0),
      (⟨true, some ⟨[0x62#8], 12, ext2FtRegFile⟩, none, 2, ext2SIfreg, 1⟩, 0),
      (⟨true, some ⟨[0x62#8], 12, ext2FtRegFile⟩, none, 3, ext2SIfreg, 1⟩, 0),
      (⟨true, some ⟨[0x62#8], 12, ext2FtRegFile⟩, some ⟨[0x68#8], 12, ext2FtRegFile⟩, 3,
        ext2SIfreg, 2⟩, 0),
      (⟨true, some ⟨[0x62#8], 12, ext2FtRegFile⟩, some ⟨[0x68#8], 12, ext2FtRegFile⟩, 3,
        ext2SIfreg, 2⟩, 0)] := by
  decide +kernel

theorem wide_serves : ∃ d₂ d₄ d₅, Serves wideLayout wideDisk [(wideCp, 0), (wideMkdir, 0)] d₂ ∧
    Serves wideLayout d₂ [(wideLn, 0), (wideSymLn, 0)] d₄ ∧
    Serves wideLayout d₄ [(wideRm, 0)] d₅ ∧
      (wideLayout.view d₂).lookup rootInodeNumber [0x62#8] =
        some ⟨[0x62#8], 12, ext2FtRegFile⟩ ∧
      ((wideLayout.view d₂).inode 12).mode = ext2SIfreg := by
  have hb : (0x62#8 : Byte) ≠ slash := by decide
  have hh : (0x68#8 : Byte) ≠ slash := by decide
  have hsound₀ : wideLayout.Shows wideDisk (wideLayout.view wideDisk) ∧
      (wideLayout.view wideDisk).Sound wideLayout := ⟨wide_shows, wide_sound⟩
  obtain ⟨-, d₁, hret₁, h⟩ := trail_cons wide_trail
  have hproper₁ : wideCp.Proper wideLayout wideDisk (wideLayout.view wideDisk) :=
    ⟨_, _, _, rfl, wide_copyable, by decide⟩
  have hsound₁ := hproper₁.sound_view hsound₀ hret₁
  obtain ⟨hfacts, d₂, hret₂, h⟩ := trail_cons h
  simp only [wideFacts, WideFacts.mk.injEq, decide_eq_true_eq] at hfacts
  obtain ⟨hplace, -, -, hlinks, -⟩ := hfacts
  have hproper₂ : wideMkdir.Proper wideLayout d₁ (wideLayout.view d₁) :=
    ⟨hsound₁.2.creatable hplace (by decide) (by omega), by decide⟩
  have hsound₂ := hproper₂.sound_view hsound₁ hret₂
  obtain ⟨hfacts, d₃, hret₃, h⟩ := trail_cons h
  simp only [wideFacts, WideFacts.mk.injEq, decide_eq_true_eq] at hfacts
  obtain ⟨hplace, hlookup, -, -, hmode, hcount⟩ := hfacts
  have hproper₃ : wideLn.Proper wideLayout d₂ (wideLayout.view d₂) :=
    ⟨hsound₂.2.linkable hplace hb hh, by decide, fun file names name p hfind hsplit hreach => by
      obtain ⟨rfl, rfl⟩ := single_split hh hsplit
      obtain rfl := Option.some.inj hreach
      exact hsound₂.2.linkMatches hsound₂.1 hplace hb hlookup (by rw [hmode]; decide) (by omega)
        hfind⟩
  have hsound₃ := hproper₃.sound_view hsound₂ hret₃
  obtain ⟨hfacts, d₄, hret₄, h⟩ := trail_cons h
  simp only [wideFacts, WideFacts.mk.injEq, decide_eq_true_eq] at hfacts
  have hproper₄ : wideSymLn.Proper wideLayout d₃ (wideLayout.view d₃) :=
    ⟨hsound₃.2.symLinkable hfacts.1 hb (by decide), by decide, ⟨[0x73#8], by decide⟩,
      fun file name _ hname => by
        obtain rfl := single_name (by decide) hname
        exact hfacts.1.typesLink⟩
  have hsound₄ := hproper₄.sound_view hsound₃ hret₄
  obtain ⟨hfacts, d₅, hret₅, -⟩ := trail_cons h
  simp only [wideFacts, WideFacts.mk.injEq] at hfacts
  obtain ⟨a, hrem⟩ := hsound₄.2.removableName hh hfacts.2.2.1 (by omega)
  exact ⟨d₂, d₄, d₅, .done hproper₁ hret₁ (.done hproper₂ hret₂ (.nil d₂)),
    .done hproper₃ hret₃ (.done hproper₄ hret₄ (.nil d₄)),
    .done (.inl ⟨_, a, hrem⟩) hret₅ (.nil d₅), hlookup, hmode⟩

theorem runs_sound_wide : ∃ d', ReflTransGen (Steps wideLayout) wideDisk d' ∧
    ∃ w, wideLayout.Shows d' w ∧ w.Sound wideLayout := by
  obtain ⟨d₂, d₄, d₅, h₂, h₄, h₅, -⟩ := wide_serves
  have hsteps := (h₂.append (h₄.append h₅)).steps
  exact ⟨d₅, hsteps, runs_sound wide_shows wide_sound hsteps⟩

theorem serves_effects_wide : ∃ d' w, wideLayout.Shows d' w ∧ w.Sound wideLayout ∧
    Effects (wideView.fileTree wideLayout)
      [(wideCp, 0), (wideMkdir, 0), (wideLn, 0), (wideSymLn, 0), (wideRm, 0)]
      (w.fileTree wideLayout) := by
  obtain ⟨d₂, d₄, d₅, h₂, h₄, h₅, -⟩ := wide_serves
  exact ⟨d₅, serves_effects (h₂.append (h₄.append h₅)) wide_shows wide_sound⟩

/-- The file is what it was when it has got its links. -/
theorem serves_keeps_wide : ∃ d₂ d₄, Serves wideLayout wideDisk [(wideCp, 0), (wideMkdir, 0)] d₂ ∧
    Serves wideLayout d₂ [(wideLn, 0), (wideSymLn, 0)] d₄ ∧
      (wideLayout.view d₄).reach rootInodeNumber (tokens [slash, 0x62#8]) = some 12 ∧
      (wideLayout.view d₄).contents 12 = (wideLayout.view d₂).contents 12 := by
  obtain ⟨d₂, d₄, -, h₂, h₄, -, hlookup, hmode⟩ := wide_serves
  obtain ⟨v, hv, hsound, -⟩ := h₂.effects wide_shows wide_sound
  have hreach : v.reach rootInodeNumber (tokens [slash, 0x62#8]) = some 12 := by
    rw [tokens_single (by decide), View.reach, if_pos hsound.consistent.root.2, ← hv.2, hlookup]
    rfl
  have hcmds : ∀ x ∈ [(wideLn, 0), (wideSymLn, 0)], ¬ x.1.Removes := by
    intro x hx
    rcases List.mem_pair.mp hx with rfl | rfl
    all_goals exact not_false
  obtain ⟨hreach', hcontents⟩ := serves_keeps h₄ hv hsound hcmds _ _ hreach
  have hfile : ¬ (v.inode 12).IsDirectory := by
    rw [← hv.2, Inode.IsDirectory, hmode]
    decide
  exact ⟨d₂, d₄, h₂, h₄, hreach', hv.2 ▸ hcontents hfile⟩

end KernelProgramming.Ext2
