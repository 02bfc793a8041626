import Mathlib.Data.List.Basic
import Mathlib.Tactic.Common

/-!
# The second chance policy

A memory of `m` pages is a queue, the page loaded first at its head.  Each page
has a reference bit, which an access sets.  To make room the head moves to the
tail with its bit cleared, until there is a head whose bit is clear; that page
is given up.
-/

namespace KernelProgramming.SecondChance

variable {α : Type*} {m : ℕ} {p : α} {queue : List (α × Bool)}

/-- The page given up, and the queue without it. -/
def evict : List (α × Bool) → Option (α × List (α × Bool))
  | [] => none
  | (p, false) :: queue => some (p, queue)
  | (p, true) :: queue => evict (queue ++ [(p, false)])
termination_by queue => queue.countP Prod.snd
decreasing_by simp

variable [DecidableEq α]

/-- An access to `p` sets its reference bit. -/
def markReferenced (queue : List (α × Bool)) (p : α) : List (α × Bool) :=
  queue.map fun e => if e.1 = p then (p, true) else e

/-- The queue after an access to `p`, and the page given up for it. -/
def request (m : ℕ) (queue : List (α × Bool)) (p : α) : List (α × Bool) × Option α :=
  if p ∈ queue.map Prod.fst then (markReferenced queue p, none)
  else if queue.length < m then (queue ++ [(p, true)], none)
  else
    match evict queue with
    | none => ([(p, true)], none)
    | some (victim, rest) => (rest ++ [(p, true)], some victim)

/-- The pages given up for the requests from `queue` on. -/
def evictions (m : ℕ) : List (α × Bool) → List α → List α
  | _, [] => []
  | queue, p :: pages =>
      (request m queue p).2.toList ++ evictions m (request m queue p).1 pages

@[simp] theorem map_fst_markReferenced (queue : List (α × Bool)) (p : α) :
    (markReferenced queue p).map Prod.fst = queue.map Prod.fst := by
  rw [markReferenced, List.map_map]
  apply List.map_congr_left
  intro e _
  by_cases he : e.1 = p
  · simp [he]
  · simp [he]

@[simp] theorem length_markReferenced (queue : List (α × Bool)) (p : α) :
    (markReferenced queue p).length = queue.length := List.length_map ..

theorem request_of_mem (h : p ∈ queue.map Prod.fst) :
    request m queue p = (markReferenced queue p, none) := if_pos h

theorem request_of_lt (h : p ∉ queue.map Prod.fst) (hlt : queue.length < m) :
    request m queue p = (queue ++ [(p, true)], none) := by
  rw [request, if_neg h, if_pos hlt]

theorem request_of_evict {victim : α} {rest : List (α × Bool)} (h : p ∉ queue.map Prod.fst)
    (hfull : m ≤ queue.length) (hevict : evict queue = some (victim, rest)) :
    request m queue p = (rest ++ [(p, true)], some victim) := by
  rw [request, if_neg h, if_neg (Nat.not_lt.mpr hfull), hevict]

/-! ## Pages requested since another one was loaded -/

section Fresh

variable {since since' : α → α → Prop} {victim : α} {rest : List (α × Bool)} {x y : α × Bool}

/-- What the bits of two pages say if `x` is ahead of `y` in the queue and `since x y` means
that `y` has been requested since `x` was loaded. -/
structure Fresh (since : α → α → Prop) (x y : α × Bool) : Prop where
  ahead : x.2 = false → since x.1 y.1
  behind : x.2 = true → y.2 = false → since y.1 x.1
  marked : y.2 = true → since x.1 y.1

omit [DecidableEq α] in
/-- All pages that stay have been requested since the one given up was loaded. -/
theorem evict_fresh (h : queue.Pairwise (Fresh since)) (hevict : evict queue = some (victim, rest)) :
    (∀ e ∈ rest, since victim e.1) ∧ rest.Pairwise (Fresh since) := by
  induction queue using evict.induct with
  | case1 =>
      rw [evict] at hevict
      cases hevict
  | case2 p queue =>
      rw [evict] at hevict
      obtain ⟨rfl, rfl⟩ := Prod.mk.inj (Option.some.inj hevict)
      obtain ⟨hhead, htail⟩ := List.pairwise_cons.mp h
      exact ⟨fun e he => (hhead e he).ahead rfl, htail⟩
  | case3 p queue ih =>
      rw [evict] at hevict
      obtain ⟨hhead, htail⟩ := List.pairwise_cons.mp h
      refine ih (List.pairwise_append.mpr ⟨htail, List.pairwise_singleton .., ?_⟩) hevict
      -- the head goes behind the others with its bit cleared
      intro e he f hf
      obtain rfl := List.mem_singleton.mp hf
      have hfresh := hhead e he
      exact ⟨fun hbit => hfresh.behind rfl hbit, fun hbit _ => hfresh.marked hbit,
        fun hbit => Bool.noConfusion hbit⟩

omit [DecidableEq α] in
theorem Fresh.mono (h : Fresh since x y) (hx : ∀ z, since x.1 z → since' x.1 z)
    (hy : ∀ z, since y.1 z → since' y.1 z) : Fresh since' x y :=
  ⟨fun hbit => hx _ (h.ahead hbit), fun hbit hbit' => hy _ (h.behind hbit hbit'),
    fun hbit => hx _ (h.marked hbit)⟩

omit [DecidableEq α] in
theorem fresh_requested (hp : ∀ z, since z p) (x : α × Bool) : Fresh since x (p, true) :=
  ⟨fun _ => hp x.1, fun _ hbit => Bool.noConfusion hbit, fun _ => hp x.1⟩

theorem markReferenced_fresh (h : queue.Pairwise (Fresh since)) (hp : ∀ z, since z p) :
    (markReferenced queue p).Pairwise (Fresh since) := by
  rw [markReferenced, List.pairwise_map]
  refine h.imp fun {x y} hxy => ?_
  by_cases hyp : y.1 = p
  · rw [if_pos hyp]
    exact fresh_requested hp _
  · rw [if_neg hyp]
    by_cases hxp : x.1 = p
    · rw [if_pos hxp]
      exact ⟨fun hbit => Bool.noConfusion hbit, fun _ _ => hp y.1, fun hbit =>
        hxp ▸ hxy.marked hbit⟩
    · rw [if_neg hxp]
      exact hxy

omit [DecidableEq α] in
theorem push_fresh (h : queue.Pairwise (Fresh since)) (hp : ∀ z, since z p) :
    (queue ++ [(p, true)]).Pairwise (Fresh since) := by
  refine List.pairwise_append.mpr ⟨h, List.pairwise_singleton .., fun x _ y hy => ?_⟩
  obtain rfl := List.mem_singleton.mp hy
  exact fresh_requested hp x

/-- An access to `p`, which has now been requested since all loads. -/
theorem request_fresh (h : queue.Pairwise (Fresh since)) (hp : ∀ z, since z p) :
    (request m queue p).1.Pairwise (Fresh since) := by
  by_cases hmem : p ∈ queue.map Prod.fst
  · rw [request_of_mem hmem]
    exact markReferenced_fresh h hp
  · by_cases hlt : queue.length < m
    · rw [request_of_lt hmem hlt]
      exact push_fresh h hp
    · rw [request, if_neg hmem, if_neg hlt]
      cases hevict : evict queue with
      | none => exact List.pairwise_singleton ..
      | some r => exact push_fresh (evict_fresh h hevict).2 hp

end Fresh

end KernelProgramming.SecondChance
