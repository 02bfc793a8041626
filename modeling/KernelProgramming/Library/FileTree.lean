import Mathlib.Logic.Function.Basic
import Mathlib.Tactic.Common

/-!
# File trees

Directories and files, and the names for them in the directories.  A tree says
what can be found and read; how it is stored is left open.
-/

namespace KernelProgramming.FileTree

variable {N S C : Type*}

inductive Node (N S C : Type*)
  | dir (entries : S → Option N)
  | file (content : C)

/-- The nodes in use by their numbers. -/
abbrev Tree (N S C : Type*) := N → Option (Node N S C)

namespace Tree

section

variable (t : Tree N S C)

def IsDir (k : N) : Prop := ∃ es, t k = some (.dir es)

/-- The node that a name in directory `k` stands for. -/
def lookup (k : N) (s : S) : Option N :=
  match t k with
  | some (.dir es) => es s
  | _ => none

/-- The node that a path leads to. -/
def reach : N → List S → Option N
  | k, [] => some k
  | k, s :: rest => (t.lookup k s).bind fun n => reach n rest

/-- Node `n` is `c`, or a directory below it; names that are `loose` do not count. -/
inductive Below (loose : S → Prop) (c : N) : N → Prop
  | refl : Below loose c c
  | step {k n : N} {s : S} (h : Below loose c k) (hname : t.lookup k s = some n)
      (hs : ¬ loose s) (hdir : t.IsDir n) : Below loose c n

/-- Name `s` in `k` goes with name `s₀` in `k₀`: it is this name, or one below it. -/
def Goes (loose : S → Prop) (k₀ : N) (s₀ : S) (k : N) (s : S) : Prop :=
  (k = k₀ ∧ s = s₀) ∨ ¬ loose s ∧ ∃ n, t.lookup k₀ s₀ = some n ∧ t.IsDir n ∧ t.Below loose n k

/-- All names of node `n` go, and there are some. -/
def Lost (loose : S → Prop) (k₀ : N) (s₀ : S) (n : N) : Prop :=
  (∃ k s, t.Goes loose k₀ s₀ k s ∧ t.lookup k s = some n) ∧
    ∀ k s, ¬ loose s → t.lookup k s = some n → t.Goes loose k₀ s₀ k s

open Classical in
/-- A name is taken away, with everything below it and what has no other name. -/
noncomputable def remove (loose : S → Prop) (k₀ : N) (s₀ : S) : Tree N S C := fun n =>
  if t.Lost loose k₀ s₀ n then none
  else match t n with
    | some (.dir es) => some (.dir fun s => if t.Goes loose k₀ s₀ n s then none else es s)
    | node => node

/-- Whatever is found or read in the first tree is so in the second one. -/
structure Extends (t t' : Tree N S C) : Prop where
  file : ∀ n c, t n = some (.file c) → t' n = some (.file c)
  lookup : ∀ k s n, t.lookup k s = some n → t'.lookup k s = some n

variable [DecidableEq N]

def create (n : N) (node : Node N S C) : Tree N S C := Function.update t n (some node)

/-- The name `s` in directory `k` for node `n`. -/
def link [DecidableEq S] (k : N) (s : S) (n : N) : Tree N S C :=
  match t k with
  | some (.dir es) => Function.update t k (some (.dir (Function.update es s (some n))))
  | _ => t

end

variable {t t₁ t₂ : Tree N S C} {k n : N} {s : S} {es : S → Option N} {c : C}

theorem lookup_of_dir (h : t k = some (.dir es)) (s : S) : t.lookup k s = es s := by
  rw [lookup, h]

theorem link_of_dir [DecidableEq N] [DecidableEq S] (h : t k = some (.dir es)) (s : S) (n : N) :
    t.link k s n = Function.update t k (some (.dir (Function.update es s (some n)))) := by
  simp only [link, h]

theorem isDir_of_lookup (h : t.lookup k s = some n) : t.IsDir k := by
  unfold lookup at h
  split at h
  · next es hk => exact ⟨es, hk⟩
  · cases h

/-! ## What is added -/

theorem Extends.refl (t : Tree N S C) : t.Extends t := ⟨fun _ _ h => h, fun _ _ _ h => h⟩

theorem Extends.trans (h : t.Extends t₁) (h' : t₁.Extends t₂) : t.Extends t₂ :=
  ⟨fun n c hn => h'.file n c (h.file n c hn), fun k s n hn => h'.lookup k s n (h.lookup k s n hn)⟩

theorem Extends.reach {path : List S} (h : t.Extends t₁) (hreach : t.reach k path = some n) :
    t₁.reach k path = some n := by
  induction path generalizing k with
  | nil => exact hreach
  | cons s rest ih =>
      obtain ⟨m, hm, hrest⟩ := Option.bind_eq_some_iff.mp hreach
      exact Option.bind_eq_some_iff.mpr ⟨m, h.lookup k s m hm, ih hrest⟩

theorem extends_create [DecidableEq N] (node : Node N S C) (hn : t n = none) :
    t.Extends (t.create n node) := by
  have hsame : ∀ q, t q ≠ none → t.create n node q = t q := fun q hq =>
    Function.update_of_ne (fun heq : q = n => hq (heq ▸ hn)) _ _
  refine ⟨fun q c hq => ?_, fun k s m hm => ?_⟩
  · rw [hsame q (by simp [hq]), hq]
  · obtain ⟨es, hes⟩ := isDir_of_lookup hm
    rwa [lookup, hsame k (by simp [hes])]

theorem extends_link [DecidableEq N] [DecidableEq S] (n : N) (hfree : t.lookup k s = none) :
    t.Extends (t.link k s n) := by
  by_cases hdir : t.IsDir k
  swap
  · have hsame : t.link k s n = t := by
      unfold link
      split
      · next es hk => exact absurd ⟨es, hk⟩ hdir
      · rfl
    rw [hsame]
    exact .refl t
  obtain ⟨es, hes⟩ := hdir
  rw [link_of_dir hes]
  refine ⟨fun q c hq => ?_, fun q s' m hm => ?_⟩
  · have hne : q ≠ k := by
      rintro rfl
      simp [hes] at hq
    rw [Function.update_of_ne hne, hq]
  · by_cases hqk : q = k
    · subst hqk
      rw [lookup_of_dir hes] at hm hfree
      have hne : s' ≠ s := by
        rintro rfl
        simp [hfree] at hm
      rw [lookup_of_dir (Function.update_self ..), Function.update_of_ne hne, hm]
    · rwa [lookup, Function.update_of_ne hqk]

/-- What goes is not loose, as the first name is not. -/
theorem Goes.not_loose {loose : S → Prop} {k₀ : N} {s₀ : S} (h : t.Goes loose k₀ s₀ k s)
    (hs : ¬ loose s₀) : ¬ loose s := by
  rcases h with ⟨-, rfl⟩ | ⟨hs, -⟩
  · exact hs
  · exact hs

/-! ## Removal by its parts -/

section

variable {loose : S → Prop} {k₀ : N} {s₀ : S}

theorem remove_of_lost (h : t.Lost loose k₀ s₀ n) : t.remove loose k₀ s₀ n = none := if_pos h

theorem remove_of_none (h : t n = none) : t.remove loose k₀ s₀ n = none := by
  unfold remove
  split_ifs
  · rfl
  · rw [h]

open Classical in
theorem remove_of_dir (h : t n = some (.dir es)) (hn : ¬ t.Lost loose k₀ s₀ n) :
    t.remove loose k₀ s₀ n =
      some (.dir fun s => if t.Goes loose k₀ s₀ n s then none else es s) := by
  unfold remove
  rw [if_neg hn, h]

theorem remove_of_file (h : t n = some (.file c)) (hn : ¬ t.Lost loose k₀ s₀ n) :
    t.remove loose k₀ s₀ n = some (.file c) := by
  unfold remove
  rw [if_neg hn, h]

end

end Tree

end KernelProgramming.FileTree
