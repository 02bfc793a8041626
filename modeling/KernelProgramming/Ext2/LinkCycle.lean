import KernelProgramming.Ext2.Commands
import KernelProgramming.Ext2.LnLookup
import KernelProgramming.Library.Rounds

/-!
# Symbolic links that lead back

`read_symbolic_link` calls itself with the text of each link that it meets, and
keeps no count of them.  A name that is removed and made again can lead back to
the link that was made for it.
-/

namespace KernelProgramming.Ext2

open ByteMemory Relation

variable {d : Disk} {path next : CString} {depth : ℕ}

/-- `path` leads to a symbolic link with the text `next`. -/
def LinksTo (d : Disk) (path next : CString) : Prop :=
  ∃ entry inode, findDirEntry d path = .ok (some entry) ∧
    inodePtr d (entryInode d.byte entry) = .ok inode ∧ d.u16 (iMode inode) = ext2SIflnk ∧
      linkPath d inode = .ok next

/-- `find_dir_entry` comes to an end, and a link that it finds has its text in
the image, with no more of it than there is room for. -/
def Readable (d : Disk) (path : CString) : Prop :=
  findDirEntry d path = .ok none ∨ ∃ entry inode, findDirEntry d path = .ok (some entry) ∧
    inodePtr d (entryInode d.byte entry) = .ok inode ∧
      (d.u16 (iMode inode) = ext2SIflnk → ∃ next, linkPath d inode = .ok next)

/-- None of the links met from `path` on leads back to itself. -/
structure Unlooped (d : Disk) (path : CString) : Prop where
  readable : ∀ p, ReflTransGen (LinksTo d) path p → Readable d p
  no_return : ∀ p, ReflTransGen (LinksTo d) path p → ¬ TransGen (LinksTo d) p p

/-- `read_symbolic_link` returns, with `NULL` or an inode that is no link. -/
def LinksEnd (d : Disk) (path : CString) : Prop :=
  ∃ depth r, readSymbolicLink d depth path = .ok r ∧
    ∀ inode ∈ r, d.u16 (iMode inode) ≠ ext2SIflnk

/-! ## One call -/

/-- A call of `read_symbolic_link`: its result, or the path for the next call. -/
def followOnce (d : Disk) (path : CString) : Except Fault (Option ℕ ⊕ CString) := do
  match ← findDirEntry d path with
  | none => .ok (.inl none)
  | some target =>
      let targetInode ← inodePtr d (entryInode d.byte target)
      if d.u16 (iMode targetInode) = ext2SIflnk then do
        let newPath ← linkPath d targetInode
        .ok (.inr newPath)
      else .ok (.inl (some targetInode))

theorem readSymbolicLink_eq_loop (d : Disk) (depth : ℕ) (path : CString) :
    readSymbolicLink d depth path = Rounds.loop .hang (followOnce d) depth path := by
  induction depth generalizing path with
  | zero => rfl
  | succ depth ih =>
      rw [readSymbolicLink, Rounds.loop, followOnce]
      simp only [bind, Except.bind]
      cases findDirEntry d path with
      | error f => rfl
      | ok r =>
          cases r with
          | none => rfl
          | some target =>
              simp only
              cases inodePtr d (entryInode d.byte target) with
              | error f => rfl
              | ok inode =>
                  simp only
                  split
                  · cases linkPath d inode with
                    | error f => rfl
                    | ok newPath => exact ih newPath
                  · rfl

theorem goesOn_iff : Rounds.GoesOn (followOnce d) path next ↔ LinksTo d path next := by
  rw [Rounds.GoesOn, followOnce, Runs.bind_eq_ok_iff]
  constructor
  · rintro ⟨r, hfind, h⟩
    cases r with
    | none => cases h
    | some entry =>
        obtain ⟨inode, hptr, h⟩ := Runs.bind_eq_ok_iff.mp h
        split_ifs at h with hlink
        · obtain ⟨newPath, hread, h⟩ := Runs.bind_eq_ok_iff.mp h
          obtain rfl := Sum.inr.inj (Except.ok.inj h)
          exact ⟨entry, inode, hfind, hptr, hlink, hread⟩
        · cases h
  · rintro ⟨entry, inode, hfind, hptr, hlink, hread⟩
    refine ⟨some entry, hfind, ?_⟩
    simp only [bind, Except.bind, hptr, if_pos hlink, hread]

theorem exists_followOnce_iff : (∃ x, followOnce d path = .ok x) ↔ Readable d path := by
  constructor
  · rintro ⟨x, h⟩
    obtain ⟨r, hfind, h⟩ := Runs.bind_eq_ok_iff.mp h
    cases r with
    | none => exact .inl hfind
    | some entry =>
        obtain ⟨inode, hptr, h⟩ := Runs.bind_eq_ok_iff.mp h
        refine .inr ⟨entry, inode, hfind, hptr, fun hlink => ?_⟩
        rw [if_pos hlink] at h
        obtain ⟨newPath, hread, -⟩ := Runs.bind_eq_ok_iff.mp h
        exact ⟨newPath, hread⟩
  · rintro (hfind | ⟨entry, inode, hfind, hptr, hread⟩)
    · exact ⟨.inl none, by simp only [followOnce, bind, Except.bind, hfind]⟩
    · by_cases hlink : d.u16 (iMode inode) = ext2SIflnk
      · obtain ⟨newPath, hread⟩ := hread hlink
        exact ⟨.inr newPath, goesOn_iff.mpr ⟨entry, inode, hfind, hptr, hlink, hread⟩⟩
      · refine ⟨.inl (some inode), ?_⟩
        simp only [followOnce, bind, Except.bind, hfind, hptr, if_neg hlink]

theorem not_link_of_followOnce {inode : ℕ} (h : followOnce d path = .ok (.inl (some inode))) :
    d.u16 (iMode inode) ≠ ext2SIflnk := by
  obtain ⟨r, hfind, h⟩ := Runs.bind_eq_ok_iff.mp h
  cases r with
  | none => cases h
  | some entry =>
      obtain ⟨target, hptr, h⟩ := Runs.bind_eq_ok_iff.mp h
      split_ifs at h with hlink
      · obtain ⟨newPath, hread, h⟩ := Runs.bind_eq_ok_iff.mp h
        cases h
      · obtain rfl := Option.some.inj (Sum.inl.inj (Except.ok.inj h))
        exact hlink

/-- The text of a link depends on its inode, which is in the image. -/
theorem finite_linked (d : Disk) :
    {next | ∃ path, Rounds.GoesOn (followOnce d) path next}.Finite := by
  have htexts : ((fun inode => (linkPath d inode).toOption) ''
      {inode | inode < 1024 * d.numBlocks}).Finite := (Set.finite_lt_nat _).image _
  apply (htexts.preimage (Option.some_injective CString).injOn).subset
  rintro next ⟨path, hnext⟩
  obtain ⟨entry, inode, -, hptr, -, hread⟩ := goesOn_iff.mp hnext
  refine ⟨inode, ?_, by simp only [hread]; rfl⟩
  rw [inodePtr] at hptr
  split_ifs at hptr
  rw [follow] at hptr
  split_ifs at hptr with hin
  obtain rfl := Except.ok.inj hptr
  exact hin

theorem linksEnd_iff : LinksEnd d path ↔ Unlooped d path := by
  have hgoes : Rounds.GoesOn (followOnce d) = LinksTo d := by
    funext path next
    exact propext goesOn_iff
  have hloop := Rounds.exists_loop_iff (e := Fault.hang) (a := path) (finite_linked d)
  simp only [exists_followOnce_iff] at hloop
  rw [hgoes] at hloop
  constructor
  · rintro ⟨depth, r, hret, -⟩
    rw [readSymbolicLink_eq_loop] at hret
    have hway := hloop.mp ⟨depth, r, hret⟩
    exact ⟨fun p hp => (hway p hp).1, fun p hp => (hway p hp).2⟩
  · intro hun
    obtain ⟨depth, r, hret⟩ := hloop.mpr fun p hp => ⟨hun.readable p hp, hun.no_return p hp⟩
    obtain ⟨p, -, hlast⟩ := Rounds.exists_last_of_loop hret
    refine ⟨depth, r, (readSymbolicLink_eq_loop ..).trans hret, fun inode hinode => ?_⟩
    rw [Option.mem_def.mp hinode] at hlast
    exact not_link_of_followOnce hlast

/-! ## Runs -/

/-- In every state of a run the paths that `read_symbolic_link` returns for are
those that no links lead back from. -/
theorem linksEnd_iff_of_run (d₀ : Disk) (cmds : List Command) (path : CString) :
    ∀ d, runAll d₀ cmds = .ok d → (LinksEnd d path ↔ Unlooped d path) :=
  fun _ _ => linksEnd_iff

/-- After `ext2_ln -s /f /h` the path `/h` leads to `/f`, and no further. -/
theorem linksEnd_iff_of_run_link : ∃ d,
    runAll linkDisk [.ln true [slash, 0x66#8] [slash, 0x68#8] 0 0] = .ok d ∧
      LinksEnd d [slash, 0x68#8] := by
  have hrun : (do
      let d ← runAll linkDisk [.ln true [slash, 0x66#8] [slash, 0x68#8] 0 0]
      let first ← followOnce d [slash, 0x68#8]
      let second ← followOnce d [slash, 0x66#8]
      return (first, second)) =
        .ok (.inr [slash, 0x66#8], .inl (some (smallLayout.inodeAddress 12))) := by
    decide +kernel
  obtain ⟨d, hd, hrun⟩ := Runs.bind_eq_ok_iff.mp hrun
  obtain ⟨first, hfirst, hrun⟩ := Runs.bind_eq_ok_iff.mp hrun
  obtain ⟨second, hsecond, hrun⟩ := Runs.bind_eq_ok_iff.mp hrun
  obtain ⟨rfl, rfl⟩ := Prod.mk.inj (Except.ok.inj hrun)
  have hnext : ∀ p, LinksTo d [slash, 0x68#8] p → p = [slash, 0x66#8] := fun p hp =>
    Sum.inr.inj (Except.ok.inj ((goesOn_iff.mpr hp).symm.trans hfirst))
  have hlast : ∀ p, ¬ LinksTo d [slash, 0x66#8] p := fun p hp =>
    absurd (Except.ok.inj ((goesOn_iff.mpr hp).symm.trans hsecond)) (by simp)
  have hreach : ∀ p, ReflTransGen (LinksTo d) [slash, 0x68#8] p →
      p = [slash, 0x68#8] ∨ p = [slash, 0x66#8] := by
    intro p hp
    rcases hp.cases_head with rfl | ⟨q, hq, hrest⟩
    · exact .inl rfl
    obtain rfl := hnext q hq
    rcases hrest.cases_head with rfl | ⟨q, hq, -⟩
    · exact .inr rfl
    · exact absurd hq (hlast q)
  refine ⟨d, hd, (linksEnd_iff_of_run linkDisk _ _ d hd).mpr ⟨fun p hp => ?_, fun p hp hback => ?_⟩⟩
  · rcases hreach p hp with rfl | rfl
    · exact exists_followOnce_iff.mp ⟨_, hfirst⟩
    · exact exists_followOnce_iff.mp ⟨_, hsecond⟩
  · obtain ⟨q, hq, hrest⟩ := TransGen.head'_iff.mp hback
    rcases hreach p hp with rfl | rfl
    · obtain rfl := hnext q hq
      rcases hrest.cases_head with heq | ⟨q, hq, -⟩
      · exact absurd heq (by decide)
      · exact hlast q hq
    · exact hlast q hq

/-! ## A name made again -/

/-- `ext2_rm /f` and `ext2_ln -s /s /f`, where `/s` is a link to `/f`. -/
def loopCommands : List Command :=
  [.rm false [slash, 0x66#8] 0 1, .ln true [slash, 0x73#8] [slash, 0x66#8] 0 0]

theorem loop_run : ∃ d, runAll linkDisk loopCommands = .ok d ∧
    LinksTo d [slash, 0x66#8] [slash, 0x73#8] ∧ LinksTo d [slash, 0x73#8] [slash, 0x66#8] := by
  have hrun : (do
      let d ← runAll linkDisk loopCommands
      let first ← followOnce d [slash, 0x66#8]
      let second ← followOnce d [slash, 0x73#8]
      return (first, second)) =
        .ok (.inr [slash, 0x73#8], .inr [slash, 0x66#8]) := by
    decide +kernel
  obtain ⟨d, hd, hrun⟩ := Runs.bind_eq_ok_iff.mp hrun
  obtain ⟨first, hfirst, hrun⟩ := Runs.bind_eq_ok_iff.mp hrun
  obtain ⟨second, hsecond, hrun⟩ := Runs.bind_eq_ok_iff.mp hrun
  obtain ⟨rfl, rfl⟩ := Prod.mk.inj (Except.ok.inj hrun)
  exact ⟨d, hd, goesOn_iff.mp hfirst, goesOn_iff.mp hsecond⟩

theorem not_linksEnd : ¬ ∀ (L : Layout) (d₀ d : Disk) (v : View) (cmds : List Command)
    (path : CString), L.Shows d₀ v → v.Consistent L → runAll d₀ cmds = .ok d →
    path.head? = some slash → tokens path ≠ [] → LinksEnd d path := by
  intro h
  obtain ⟨d, hd, hfirst, hsecond⟩ := loop_run
  have hend := h smallLayout linkDisk d linkView loopCommands [slash, 0x66#8] link_shows
    link_consistent hd rfl (by decide)
  have hun := linksEnd_iff.mp hend
  exact hun.no_return _ .refl ((TransGen.single hfirst).tail hsecond)

end KernelProgramming.Ext2
