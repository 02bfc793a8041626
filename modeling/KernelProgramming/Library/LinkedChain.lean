import Mathlib.Data.List.Chain
import Mathlib.Data.List.Nodup
import Mathlib.Logic.Function.Basic
import Mathlib.Logic.Relation

/-!
# Lists threaded through link fields

`Linked next previous xs` says that following `next` from the first element of
`xs` visits the elements in order and ends behind the last, and that `previous`
leads back.  Nothing is said about the `previous` field of the first element.
The rules say what the usual assignments do to the list.
-/

namespace KernelProgramming.LinkedChain

variable {α : Type*} {next previous next' previous' : α → Option α} {xs ys : List α} {x t : α}

structure Linked (next previous : α → Option α) (xs : List α) : Prop where
  nodup : xs.Nodup
  links : xs.IsChain fun a b => next a = some b ∧ previous b = some a
  last : ∀ a, xs.getLast? = some a → next a = none

theorem linked_nil : Linked next previous [] where
  nodup := List.nodup_nil
  links := .nil
  last := fun _ h => nomatch h

theorem linked_singleton (h : next x = none) : Linked next previous [x] where
  nodup := List.nodup_singleton x
  links := .singleton x
  last := by
    intro a ha
    obtain rfl := Option.some.inj ha
    exact h

/-- Only the links of the elements matter, and not the first `previous`. -/
theorem Linked.congr (h : Linked next previous xs) (hnext : ∀ a ∈ xs, next' a = next a)
    (hprevious : ∀ a ∈ xs.tail, previous' a = previous a) : Linked next' previous' xs where
  nodup := h.nodup
  links := by
    refine List.IsChain.imp_of_mem_tail_imp ?_ h.links
    rintro a b ha hb ⟨hab, hba⟩
    exact ⟨(hnext a ha).trans hab, (hprevious b hb).trans hba⟩
  last := fun a ha => (hnext a (List.mem_of_getLast? ha)).trans (h.last a ha)

theorem Linked.tail (h : Linked next previous (x :: xs)) : Linked next previous xs where
  nodup := (List.nodup_cons.mp h.nodup).2
  links := h.links.tail
  last := by
    intro a ha
    apply h.last a
    rw [List.getLast?_cons, ha]
    rfl

theorem Linked.next_eq (h : Linked next previous (xs ++ x :: t :: ys)) : next x = some t :=
  (List.isChain_append_cons_cons.mp h.links).2.1.1

theorem Linked.previous_eq (h : Linked next previous (xs ++ x :: t :: ys)) :
    previous t = some x :=
  (List.isChain_append_cons_cons.mp h.links).2.1.2

/-- An element is the last one, or it and its successor are linked to each other. -/
theorem Linked.next_of_mem (h : Linked next previous xs) (hx : x ∈ xs) :
    (xs.getLast? = some x ∧ next x = none) ∨
      ∃ y ∈ xs, y ≠ x ∧ next x = some y ∧ previous y = some x := by
  obtain ⟨l, r, rfl⟩ := List.append_of_mem hx
  cases r with
  | nil =>
      have hlast : (l ++ [x]).getLast? = some x := List.getLast?_concat
      exact Or.inl ⟨hlast, h.last x hlast⟩
  | cons y r =>
      have hnodup := (List.nodup_append.mp h.nodup).2.1
      have hyx : y ≠ x := fun heq => (List.nodup_cons.mp hnodup).1 (heq ▸ List.mem_cons_self)
      exact Or.inr ⟨y, by simp, hyx, h.next_eq, h.previous_eq⟩

/-- An element is the first one, or linked back to another. -/
theorem Linked.previous_of_mem (h : Linked next previous xs) (hx : x ∈ xs) :
    xs.head? = some x ∨ ∃ y, y ≠ x ∧ previous x = some y := by
  obtain ⟨l, r, rfl⟩ := List.append_of_mem hx
  rcases List.eq_nil_or_concat' l with rfl | ⟨l, y, rfl⟩
  · exact Or.inl rfl
  · have hyx : y ≠ x :=
      (List.nodup_append.mp h.nodup).2.2 y (by simp) x List.mem_cons_self
    rw [List.append_assoc] at h
    exact Or.inr ⟨y, hyx, h.previous_eq⟩

/-- Following `next` from the first element visits the elements and nothing else. -/
theorem Linked.reaches_iff (h : Linked next previous (x :: xs)) {y : α} :
    Relation.ReflTransGen (fun a b => next a = some b) x y ↔ y ∈ x :: xs := by
  constructor
  · intro hreach
    induction hreach with
    | refl => exact List.mem_cons_self
    | tail _ hstep ih =>
        obtain ⟨-, hnone⟩ | ⟨z, hz, -, hnext, -⟩ := h.next_of_mem ih
        · cases hnone.symm.trans hstep
        · obtain rfl := Option.some.inj (hnext.symm.trans hstep)
          exact hz
  · intro hy
    induction xs generalizing x with
    | nil =>
        rw [List.mem_singleton] at hy
        rw [hy]
    | cons z xs ih =>
        rcases List.mem_cons.mp hy with rfl | hy
        · exact .refl
        · exact .head h.links.rel.1 (ih h.tail hy)

variable [DecidableEq α]

theorem Linked.push (h : Linked next previous xs) (hx : x ∉ xs) (ht : xs.getLast? = some t) :
    Linked (Function.update (Function.update next t (some x)) x none)
      (Function.update previous x (some t)) (xs ++ [x]) where
  nodup := by
    rw [List.nodup_append]
    refine ⟨h.nodup, List.nodup_singleton x, ?_⟩
    rintro a ha b hb rfl
    exact hx (List.mem_singleton.mp hb ▸ ha)
  links := by
    have hlast := h.last t ht
    have htx : t ≠ x := fun heq => hx (heq ▸ List.mem_of_getLast? ht)
    refine List.IsChain.append (h.links.imp_of_mem_imp ?_) (.singleton x) ?_
    · rintro a b ha hb ⟨hab, hba⟩
      -- the last element has no successor so far
      have hat : a ≠ t := by
        rintro rfl
        rw [hlast] at hab
        cases hab
      have hax : a ≠ x := fun heq => hx (heq ▸ ha)
      have hbx : b ≠ x := fun heq => hx (heq ▸ hb)
      simp [hat, hax, hbx, hab, hba]
    · intro a ha b hb
      obtain rfl := Option.some.inj (ht.symm.trans ha)
      obtain rfl := Option.some.inj hb
      simp [htx]
  last := by
    intro a ha
    rw [List.getLast?_concat] at ha
    obtain rfl := Option.some.inj ha
    simp

theorem Linked.unlink {a b : α} {l r : List α} (h : Linked next previous (l ++ a :: x :: b :: r)) :
    Linked (Function.update next a (some b)) (Function.update previous b (some a))
      (l ++ a :: b :: r) where
  nodup := by
    refine h.nodup.sublist ?_
    exact List.Sublist.append_left (List.Sublist.cons_cons a (List.sublist_cons_self x _)) l
  links := by
    have hnodup := h.nodup
    simp only [List.nodup_append, List.nodup_cons, List.mem_cons, not_or] at hnodup
    obtain ⟨hl, ⟨⟨hax, hab, har⟩, ⟨hxb, hxr⟩, hbr, hr⟩, hdisj⟩ := hnodup
    obtain ⟨hleft, ⟨hnext, -⟩, hright⟩ := List.isChain_append_cons_cons.mp h.links
    obtain ⟨-, hright⟩ := List.isChain_cons_cons.mp hright
    refine List.isChain_append_cons_cons.mpr ⟨hleft.imp_of_mem_imp ?_, by simp, ?_⟩
    · rintro u v hu hv ⟨huv, hvu⟩
      have hua : u ≠ a := by
        rintro rfl
        obtain rfl := Option.some.inj (hnext.symm.trans huv)
        rcases List.mem_append.mp hv with hv | hv
        · exact hdisj x hv x (by simp) rfl
        · exact hax (List.mem_singleton.mp hv).symm
      have hvb : v ≠ b := by
        rintro rfl
        rcases List.mem_append.mp hv with hv | hv
        · exact hdisj v hv v (by simp) rfl
        · exact hab (List.mem_singleton.mp hv).symm
      simp [hua, hvb, huv, hvu]
    · apply hright.imp_of_mem_tail_imp
      rintro u v hu hv ⟨huv, hvu⟩
      have hua : u ≠ a := by
        rintro rfl
        rcases List.mem_cons.mp hu with rfl | hu
        · exact hab rfl
        · exact har hu
      have hvb : v ≠ b := fun heq => hbr (heq ▸ hv)
      simp [hua, hvb, huv, hvu]
  last := by
    intro z hz
    have hz' : (l ++ a :: x :: b :: r).getLast? = some z := by
      simpa [List.getLast?_append, List.getLast?_cons] using hz
    have hza : z ≠ a := by
      rintro rfl
      have hmem : z ∈ b :: r := by
        have hlast : (b :: r).getLast? = some z := by
          simpa [List.getLast?_append, List.getLast?_cons] using hz
        exact List.mem_of_getLast? hlast
      have hnodup := (List.nodup_append.mp h.nodup).2.1
      exact (List.nodup_cons.mp hnodup).1 (List.mem_cons_of_mem _ hmem)
    rw [Function.update_of_ne hza]
    exact h.last z hz'

end KernelProgramming.LinkedChain
