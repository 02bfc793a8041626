import KernelProgramming.Library.SecondChance
import KernelProgramming.Paging.Residents
import KernelProgramming.Paging.Optimal

/-!
# The clock algorithm

`clock.c` keeps the number of the frame it looked at last.  Counted from the
frame behind it, the core map is the queue of the second chance policy.
-/

namespace KernelProgramming.Paging

open FlagWord Runs SecondChance

/-! ## clock.c -/

/-- The body of the loop of `clock_evict`: the frame behind `oldest_page` becomes the oldest
one, and is found if the reference bit of its page is clear. -/
def probe (s : Sim ℤ) : Except Halt (Bool × Sim ℤ) :=
  let oldestPage := (s.alg + 1) % s.memsize
  let s := { s with alg := oldestPage }
  if s.memsize = 0 then .error .wild
  else
    match (s.coremap oldestPage.toNat).pte with
    | none => .error .wild
    | some victim =>
        if hasFlag (s.pte victim).frame pgRef = false then .ok (true, s)
        else .ok (false, s.setPteFrame victim (clearFlag (s.pte victim).frame pgRef))

/-- The frames whose page has its reference bit set. -/
def referencedFrames (s : Sim ℤ) : Finset ℕ :=
  (Finset.range s.memsize).filter fun i => ∃ p ∈ (s.coremap i).pte, s.priv.ref p = true

theorem probe_eq_next {s t : Sim ℤ} (h : probe s = .ok (false, t)) :
    s.memsize ≠ 0 ∧ ∃ victim, (s.coremap ((s.alg + 1) % s.memsize).toNat).pte = some victim ∧
      s.priv.ref victim = true ∧ t.view = s.view ∧
      t.priv = { s.priv with
        alg := (s.alg + 1) % s.memsize, ref := Function.update s.priv.ref victim false } := by
  unfold probe at h
  simp only at h
  split_ifs at h with hzero
  split at h
  · cases h
  · next victim hvictim =>
      split_ifs at h with href
      · simp at h
      · obtain ⟨-, rfl⟩ := Prod.mk.inj (Except.ok.inj h)
        refine ⟨hzero, victim, hvictim, Bool.eq_true_of_not_eq_false href, ?_, ?_⟩
        · exact Sim.view_clearRef { s with alg := (s.alg + 1) % s.memsize } victim
        · rw [Sim.setPteFrame, Sim.priv_setPte, hasFlag_clearFlag_self]
          rfl

/-- Every probe that does not end the loop clears a reference bit. -/
theorem card_referencedFrames_lt {s t : Sim ℤ} (h : probe s = .ok (false, t)) :
    (referencedFrames t).card < (referencedFrames s).card := by
  obtain ⟨hzero, victim, hvictim, href, hview, hpriv⟩ := probe_eq_next h
  have hmemsize : t.memsize = s.memsize := congrArg View.memsize hview
  have howner : ∀ i, (t.coremap i).pte = (s.coremap i).pte := congrFun (congrArg View.owner hview)
  have hbit : ∀ p, t.priv.ref p = true → s.priv.ref p = true ∧ p ≠ victim := by
    intro p hp
    rw [hpriv] at hp
    by_cases hpv : p = victim
    · simp [hpv] at hp
    · simpa [hpv] using hp
  have hoff : ((s.alg + 1) % s.memsize).toNat < s.memsize := by
    have hlt := Int.emod_lt_of_pos (s.alg + 1) (Int.natCast_pos.mpr (Nat.pos_of_ne_zero hzero))
    omega
  refine Finset.card_lt_card (Finset.ssubset_iff_of_subset ?_ |>.mpr
    ⟨((s.alg + 1) % s.memsize).toNat, ?_, ?_⟩)
  · intro i hi
    simp only [referencedFrames, Finset.mem_filter, Finset.mem_range, hmemsize, howner] at hi ⊢
    obtain ⟨hlt, p, hp, hset⟩ := hi
    exact ⟨hlt, p, hp, (hbit p hset).1⟩
  · simp only [referencedFrames, Finset.mem_filter, Finset.mem_range]
    exact ⟨hoff, victim, hvictim, href⟩
  · simp only [referencedFrames, Finset.mem_filter, howner, not_and]
    rintro - ⟨p, hp, hset⟩
    rw [hvictim] at hp
    exact (hbit p hset).2 (Option.some.inj hp).symm

def clockEvict (s : Sim ℤ) : Except Halt (ℕ × Sim ℤ) :=
  match _h : probe s with
  | .error e => .error e
  | .ok (true, t) => .ok (t.alg.toNat, t)
  | .ok (false, t) => clockEvict t
termination_by (referencedFrames s).card
decreasing_by exact card_referencedFrames_lt _h

def clockRef (s : Sim ℤ) (p : PtePtr) : Except Halt (Sim ℤ) :=
  .ok (s.setPteFrame p (setFlag (s.pte p).frame pgRef))

def clockInit (s : Sim ℤ) : Sim ℤ := { s with alg := -1 }

def clock : Functions ℤ := ⟨clockInit, clockRef, clockEvict⟩

/-- The loop ends after `n` probes in the state `t`. -/
inductive StopsAfter : Sim ℤ → ℕ → Sim ℤ → Prop
  | found {s t : Sim ℤ} (h : probe s = .ok (true, t)) : StopsAfter s 1 t
  | next {s t u : Sim ℤ} {n : ℕ} (h : probe s = .ok (false, t)) (hrest : StopsAfter t n u) :
      StopsAfter s (n + 1) u

theorem clockEvict_of_error {s : Sim ℤ} {e : Halt} (h : probe s = .error e) :
    clockEvict s = .error e := by
  rw [clockEvict]
  split <;> simp_all

theorem clockEvict_of_found {s t : Sim ℤ} (h : probe s = .ok (true, t)) :
    clockEvict s = .ok (t.alg.toNat, t) := by
  rw [clockEvict]
  split <;> simp_all

theorem clockEvict_of_next {s t : Sim ℤ} (h : probe s = .ok (false, t)) :
    clockEvict s = clockEvict t := by
  rw [clockEvict]
  split <;> simp_all

theorem StopsAfter.clockEvict_eq {s t : Sim ℤ} {n : ℕ} (h : StopsAfter s n t) :
    clockEvict s = .ok (t.alg.toNat, t) := by
  induction h with
  | found h => exact clockEvict_of_found h
  | next h hrest ih => exact (clockEvict_of_next h).trans ih

theorem probe_view {s t : Sim ℤ} {found : Bool} (h : probe s = .ok (found, t)) :
    t.view = s.view := by
  cases found with
  | false =>
      obtain ⟨-, victim, -, -, hview, -⟩ := probe_eq_next h
      exact hview
  | true =>
      unfold probe at h
      simp only at h
      split_ifs at h
      split at h
      · cases h
      · split_ifs at h
        · exact (Prod.mk.inj (Except.ok.inj h)).2 ▸ rfl
        · simp at h

theorem clockEvict_view {s t : Sim ℤ} {frame : ℕ} (h : clockEvict s = .ok (frame, t)) :
    t.view = s.view := by
  induction s using clockEvict.induct with
  | case1 s e he =>
      rw [clockEvict_of_error he] at h
      cases h
  | case2 s u hu =>
      rw [clockEvict_of_found hu] at h
      exact (Prod.mk.inj (Except.ok.inj h)).2 ▸ probe_view hu
  | case3 s u hu ih =>
      rw [clockEvict_of_next hu] at h
      exact (ih h).trans (probe_view hu)

theorem clock_polite : clock.Polite where
  init_view _ := rfl
  ref_view := by
    intro s p s' h
    rw [← Except.ok.inj h]
    exact s.view_setRef p
  evict_view _ _ _ h := clockEvict_view h

/-! ## The core map as a queue -/

/-- From frame `hand` on, around the core map, the frames hold the pages of the queue. -/
def Around (v : View) (ref : PtePtr → Bool) (hand : ℕ) (queue : List (PtePtr × Bool)) : Prop :=
  ∀ i e, queue[i]? = some e → v.owner ((hand + i) % v.memsize) = some e.1 ∧ ref e.1 = e.2

section Around

variable {v w : View} {ref ref' : PtePtr → Bool} {hand : ℕ} {queue : List (PtePtr × Bool)}
  {e : PtePtr × Bool} {p : PtePtr} {b : Bool}

theorem Around.head (h : Around v ref hand (e :: queue)) :
    v.owner (hand % v.memsize) = some e.1 ∧ ref e.1 = e.2 :=
  h 0 e rfl

theorem Around.tail (h : Around v ref hand (e :: queue)) :
    Around v ref (hand % v.memsize + 1) queue := by
  intro i e' hi
  have hnext := h (i + 1) e' hi
  rwa [← Nat.mod_add_mod, ← Nat.add_assoc, Nat.add_right_comm] at hnext

theorem Around.push (h : Around v ref hand queue)
    (howner : v.owner ((hand + queue.length) % v.memsize) = some p) (href : ref p = b) :
    Around v ref hand (queue ++ [(p, b)]) := by
  intro i e hi
  rw [List.getElem?_append] at hi
  split_ifs at hi with hlt
  · exact h i e hi
  · rw [List.getElem?_singleton] at hi
    split_ifs at hi with hzero
    obtain rfl := Option.some.inj hi
    obtain rfl : i = queue.length := by omega
    exact ⟨howner, href⟩

theorem Around.congr (h : Around v ref hand queue) (hsize : w.memsize = v.memsize)
    (howner : ∀ i < queue.length, w.owner ((hand + i) % v.memsize) =
      v.owner ((hand + i) % v.memsize))
    (href : ∀ e ∈ queue, ref' e.1 = ref e.1) : Around w ref' hand queue := by
  intro i e hi
  obtain ⟨hpage, hbit⟩ := h i e hi
  rw [hsize, howner i (List.getElem?_eq_some_iff.mp hi).1]
  exact ⟨hpage, (href e (List.mem_of_getElem? hi)).trans hbit⟩

theorem Around.markReferenced (h : Around v ref hand queue) (p : PtePtr) :
    Around v (Function.update ref p true) hand (markReferenced queue p) := by
  intro i e hi
  rw [SecondChance.markReferenced, List.getElem?_map] at hi
  obtain ⟨e', he', rfl⟩ := Option.map_eq_some_iff.mp hi
  obtain ⟨hpage, hbit⟩ := h i e' he'
  split_ifs with hp
  · exact ⟨hp ▸ hpage, Function.update_self ..⟩
  · exact ⟨hpage, (Function.update_of_ne hp ..).trans hbit⟩

end Around

/-- What `clock_evict` has done when its loop ends in the state `t`. -/
structure GivesUp (s t : Sim ℤ) (queue rest : List (PtePtr × Bool)) (frame : ℕ)
    (victim : PtePtr) : Prop where
  evict_eq : evict queue = some (victim, rest)
  view_eq : t.view = s.view
  alg_eq : t.alg = frame
  frame_lt : frame < s.view.memsize
  owner : s.view.owner frame = some victim
  around : Around s.view t.priv.ref (frame + 1) rest
  perm : (victim :: rest.map Prod.fst).Perm (queue.map Prod.fst)

theorem GivesUp.of_view {s s' t : Sim ℤ} {queue rest : List (PtePtr × Bool)} {frame : ℕ}
    {victim : PtePtr} (h : GivesUp s t queue rest frame victim) (hview : s.view = s'.view) :
    GivesUp s' t queue rest frame victim := by
  obtain ⟨hevict, hsame, halg, hlt, howner, haround, hperm⟩ := h
  rw [hview] at hsame hlt howner haround
  exact ⟨hevict, hsame, halg, hlt, howner, haround, hperm⟩

theorem probe_of_clear {s : Sim ℤ} {hand : ℕ} {p : PtePtr} (hm : 1 ≤ s.memsize)
    (hhand : s.alg + 1 = hand) (howner : s.view.owner (hand % s.memsize) = some p)
    (href : s.priv.ref p = false) :
    probe s = .ok (true, { s with alg := (hand % s.memsize : ℕ) }) := by
  have hclear : hasFlag (s.pte p).frame pgRef = false := href
  have hpte : (s.coremap (hand % s.memsize)).pte = some p := howner
  rw [probe, hhand, ← Int.natCast_mod]
  simp only [Int.toNat_natCast, hpte]
  rw [if_neg (Nat.ne_of_gt hm)]
  exact if_pos hclear

theorem probe_of_set {s : Sim ℤ} {hand : ℕ} {p : PtePtr} (hm : 1 ≤ s.memsize)
    (hhand : s.alg + 1 = hand) (howner : s.view.owner (hand % s.memsize) = some p)
    (href : s.priv.ref p = true) : ∃ t, probe s = .ok (false, t) := by
  have hset : hasFlag (s.pte p).frame pgRef = true := href
  have hpte : (s.coremap (hand % s.memsize)).pte = some p := howner
  refine ⟨({ s with alg := (hand % s.memsize : ℕ) } : Sim ℤ).setPteFrame p
    (clearFlag (s.pte p).frame pgRef), ?_⟩
  rw [probe, hhand, ← Int.natCast_mod]
  simp only [Int.toNat_natCast, hpte]
  rw [if_neg (Nat.ne_of_gt hm)]
  exact if_neg (Bool.not_eq_false _ ▸ hset)

/-- With all frames in the queue the loop ends, at the latest at the frame where it began, and
gives up the page that the policy gives up. -/
theorem exists_stopsAfter (queue : List (PtePtr × Bool)) : ∀ {s : Sim ℤ} {hand : ℕ},
    1 ≤ s.view.memsize → queue.length = s.view.memsize → s.alg + 1 = hand →
    Around s.view s.priv.ref hand queue → (queue.map Prod.fst).Nodup →
    ∃ n t rest frame victim, StopsAfter s n t ∧ n ≤ queue.countP Prod.snd + 1 ∧
      GivesUp s t queue rest frame victim := by
  induction queue using SecondChance.evict.induct with
  | case1 =>
      intro s hand hm hlength
      exact absurd (hlength ▸ hm) (by simp)
  | case2 p rest =>
      intro s hand hm hlength hhand haround hnodup
      obtain ⟨howner, href⟩ := haround.head
      refine ⟨1, _, rest, hand % s.view.memsize, p,
        StopsAfter.found (probe_of_clear hm hhand howner href), Nat.le_add_left .., ?_⟩
      exact ⟨by rw [SecondChance.evict], rfl, rfl, Nat.mod_lt hand hm, howner, haround.tail,
        List.Perm.refl _⟩
  | case3 p rest ih =>
      intro s hand hm hlength hhand haround hnodup
      obtain ⟨howner, href⟩ := haround.head
      obtain ⟨t, ht⟩ := probe_of_set hm hhand howner href
      obtain ⟨-, victim, hvictim, -, hview, hpriv⟩ := probe_eq_next ht
      rw [hhand, ← Int.natCast_mod, Int.toNat_natCast] at hvictim
      obtain rfl : p = victim := Option.some.inj (howner.symm.trans hvictim)
      have halg : t.alg + 1 = (hand % s.view.memsize + 1 : ℕ) := by
        have halg' : t.alg = (s.alg + 1) % s.memsize := congrArg Priv.alg hpriv
        rw [halg', hhand]
        rfl
      have hnodup' := List.nodup_cons.mp hnodup
      have haround' : Around t.view t.priv.ref (hand % s.view.memsize + 1)
          (rest ++ [(p, false)]) := by
        rw [hview, hpriv]
        refine Around.push (haround.tail.congr rfl (fun _ _ => rfl) fun e he => ?_) ?_ ?_
        · refine Function.update_of_ne (fun heq => hnodup'.1 ?_) ..
          exact List.mem_map.mpr ⟨e, he, heq⟩
        · have hpos : (hand % s.view.memsize + 1 + rest.length) % s.view.memsize =
              hand % s.view.memsize := by
            rw [Nat.add_assoc, Nat.add_comm 1, ← List.length_cons, hlength, Nat.add_mod_right,
              Nat.mod_mod]
          rw [hpos]
          exact howner
        · exact Function.update_self ..
      have hperm : ((rest ++ [(p, false)]).map Prod.fst).Perm (p :: rest.map Prod.fst) := by
        rw [List.map_append]
        exact List.perm_append_singleton p _
      obtain ⟨n, u, rest', frame, victim, hstops, hle, hgives⟩ := ih (hview ▸ hm)
        (by rw [hview, ← hlength]; simp) halg haround' (hperm.nodup_iff.mpr hnodup)
      refine ⟨n + 1, u, rest', frame, victim, StopsAfter.next ht hstops, ?_, ?_⟩
      · simpa using hle
      · exact ⟨by rw [SecondChance.evict]; exact hgives.evict_eq, hgives.view_eq.trans hview,
          hgives.alg_eq, hview ▸ hgives.frame_lt, hview ▸ hgives.owner, hview ▸ hgives.around,
          hgives.perm.trans hperm⟩

/-- The queue of the policy in the core map: all pages are resident, in their frames in the
order of the queue, with their bits. -/
structure Rotation (s : Sim ℤ) (hand : ℕ) (queue : List (PtePtr × Bool)) : Prop where
  hand_eq : s.alg + 1 = hand
  around : Around s.view s.priv.ref hand queue
  nodup : (queue.map Prod.fst).Nodup
  mem_iff : ∀ p, p ∈ queue.map Prod.fst ↔ (s.view.page p).valid = true
  inUse_iff : ∀ i < s.view.memsize, s.view.inUse i = true ↔ i < queue.length
  length_le : queue.length ≤ s.view.memsize
  hand_zero : queue.length < s.view.memsize → hand = 0

section Access

variable {s t u v walked : Sim ℤ} {hand m : ℕ} {queue : List (PtePtr × Bool)} {a : Access}

theorem Rotation.of_eq (h : Rotation s hand queue) (hview : t.view = s.view)
    (hpriv : t.priv = s.priv) : Rotation t hand queue := by
  have halg : t.alg = s.alg := congrArg Priv.alg hpriv
  obtain ⟨hhand, haround, hnodup, hmem, hinUse, hle, hzero⟩ := h
  constructor
  · rw [halg, hhand]
  · rw [hview, hpriv]
    exact haround
  · exact hnodup
  · rw [hview]
    exact hmem
  · rw [hview]
    exact hinUse
  · rw [hview]
    exact hle
  · rw [hview]
    exact hzero

theorem Rotation.length_eq (h : Rotation s hand queue) (hfull : s.view.freeFrame = none) :
    queue.length = s.view.memsize := by
  have hall : ∀ i < s.view.memsize, s.view.inUse i = true := View.freeFrame_eq_none_iff.mp hfull
  refine Nat.le_antisymm h.length_le (Nat.le_of_not_lt fun hlt => ?_)
  exact Nat.lt_irrefl _ ((h.inUse_iff _ hlt).mp (hall _ hlt))

theorem Rotation.free_eq (h : Rotation s hand queue) {frame : ℕ}
    (hfree : s.view.freeFrame = some frame) : frame = queue.length ∧ hand = 0 := by
  obtain ⟨hlt, hunused, hbefore⟩ := View.freeFrame_eq_some_iff.mp hfree
  have hge : queue.length ≤ frame := by
    apply Nat.le_of_not_lt
    intro hless
    rw [(h.inUse_iff frame hlt).mpr hless] at hunused
    exact Bool.noConfusion hunused
  refine ⟨Nat.le_antisymm (Nat.le_of_not_lt fun hless => ?_) hge, h.hand_zero (by omega)⟩
  exact Nat.lt_irrefl _ ((h.inUse_iff _ (hless.trans hlt)).mp (hbefore _ hless))

theorem Rotation.evicts (h : Rotation s hand queue) (hm : 1 ≤ s.view.memsize)
    (hfull : s.view.freeFrame = none) :
    ∃ n t rest frame victim, StopsAfter s n t ∧ n ≤ s.view.memsize + 1 ∧
      GivesUp s t queue rest frame victim := by
  have hlength := h.length_eq hfull
  obtain ⟨n, t, rest, frame, victim, hstops, hle, hgives⟩ :=
    exists_stopsAfter queue hm hlength h.hand_eq h.around h.nodup
  have hcount : queue.countP Prod.snd ≤ queue.length := List.countP_le_length
  exact ⟨n, t, rest, frame, victim, hstops, by omega, hgives⟩

theorem Around.load {v : View} {ref : PtePtr → Bool} {rest : List (PtePtr × Bool)} {p : PtePtr}
    {frame : ℕ} (h : Around v ref hand rest) (hp : p ∉ rest.map Prod.fst)
    (hframe : (hand + rest.length) % v.memsize = frame)
    (hother : ∀ i < rest.length, (hand + i) % v.memsize ≠ frame) (vaddr : ℕ) (type : Char) :
    Around ((v.load p frame vaddr).touch p type) (Function.update ref p true) hand
      (rest ++ [(p, true)]) := by
  refine Around.push (h.congr rfl (fun i hi => ?_) fun e he => ?_) ?_ (Function.update_self ..)
  · exact Function.update_of_ne (hother i hi) ..
  · exact Function.update_of_ne (fun heq => hp (List.mem_map.mpr ⟨e, he, heq⟩)) ..
  · change Function.update v.owner frame (some p) ((hand + rest.length) % v.memsize) = some p
    rw [hframe]
    exact Function.update_self ..

/-- The page that loses its frame to an access, if one does. -/
def evictedPage {σ : Type} (F : Functions σ) (s : Sim σ) (a : Access) : Option PtePtr :=
  if hasFlag (s.pte (ptePtr a.vaddr)).frame pgValid = true ∨ (freeFrame s).isSome then none
  else
    match walkPgdir s a.vaddr >>= F.evict with
    | .ok (frame, _) => (s.coremap frame).pte
    | .error _ => none

theorem evictedPage_of_called {σ : Type} {F : Functions σ} {s walked s₂ : Sim σ} {a : Access}
    {frame : ℕ} (h : EvictCalled s a walked) (hevict : F.evict walked = .ok (frame, s₂)) :
    evictedPage F s a = (s.coremap frame).pte := by
  obtain ⟨hwalk, hinvalid, hfull⟩ := h
  rw [evictedPage, hinvalid, hfull, hwalk, if_neg (by simp)]
  change (match F.evict walked with
    | .ok (frame, _) => (s.coremap frame).pte
    | .error _ => none) = _
  rw [hevict]

/-- A page that comes in is put behind the others. -/
theorem Rotation.load {v : View} {rest : List (PtePtr × Bool)} {p : PtePtr} {frame vaddr : ℕ}
    {type : Char} (hview : u.view = (v.load p frame vaddr).touch p type)
    (hhand : u.alg + 1 = hand)
    (haround : Around u.view u.priv.ref hand (rest ++ [(p, true)]))
    (hnodup : (p :: rest.map Prod.fst).Nodup)
    (hmem : ∀ q ≠ p, q ∈ rest.map Prod.fst ↔ (v.page q).valid = true)
    (hinUse : ∀ i < v.memsize, i = frame ∨ v.inUse i = true ↔ i < rest.length + 1)
    (hle : rest.length < v.memsize) (hzero : rest.length + 1 < v.memsize → hand = 0) :
    Rotation u hand (rest ++ [(p, true)]) := by
  have hmap : (rest ++ [(p, true)]).map Prod.fst = rest.map Prod.fst ++ [p] := List.map_append
  have hlength : (rest ++ [(p, true)]).length = rest.length + 1 := List.length_append
  constructor
  · exact hhand
  · exact haround
  · rw [hmap]
    exact (List.perm_append_singleton p _).nodup_iff.mpr hnodup
  · intro q
    rw [hmap, List.mem_append, List.mem_singleton, hview, View.page_touch]
    split_ifs with hq
    · simp [hq]
    · rw [or_iff_left hq, hmem q hq]
      change _ ↔ (Function.update v.page p _ q).valid = true
      rw [Function.update_of_ne hq]
  · intro i hi
    rw [hview] at hi ⊢
    rw [hlength, ← hinUse i hi]
    change Function.update v.inUse frame true i = true ↔ _
    by_cases hif : i = frame
    · simp [hif]
    · simp [hif]
  · rw [hlength, hview]
    exact hle
  · rw [hlength, hview]
    exact hzero

/-- A page that is there is marked. -/
theorem Rotation.hit {p : PtePtr} {type : Char} (h : Rotation s hand queue)
    (hvalid : (s.view.page p).valid = true) (hview : u.view = s.view.hit.touch p type)
    (hpriv : u.priv = s.priv.setRef p) : Rotation u hand (markReferenced queue p) := by
  have halg : u.alg = s.alg := congrArg Priv.alg hpriv
  constructor
  · exact halg ▸ h.hand_eq
  · rw [hview, hpriv]
    exact (h.around.markReferenced _).congr rfl (fun _ _ => rfl) fun _ _ => rfl
  · exact map_fst_markReferenced queue _ ▸ h.nodup
  · intro q
    rw [map_fst_markReferenced, h.mem_iff q, hview, View.page_touch]
    split_ifs with hq
    · simp [hq, hvalid]
    · rfl
  · rw [hview, length_markReferenced]
    exact h.inUse_iff
  · rw [hview, length_markReferenced]
    exact h.length_le
  · rw [hview, length_markReferenced]
    exact h.hand_zero

theorem Rotation.not_mem {p : PtePtr} (h : Rotation s hand queue)
    (hvalid : (s.view.page p).valid = false) : p ∉ queue.map Prod.fst := by
  intro hmem
  rw [h.mem_iff, hvalid] at hmem
  exact Bool.noConfusion hmem

/-- As long as frames are unused the hand has not moved. -/
theorem Rotation.fill {p : PtePtr} {vaddr : ℕ} {type : Char} (h : Rotation s 0 queue)
    (hp : p ∉ queue.map Prod.fst) (hlt : queue.length < s.view.memsize)
    (hview : u.view = (s.view.load p queue.length vaddr).touch p type)
    (hpriv : u.priv = s.priv.setRef p) : Rotation u 0 (queue ++ [(p, true)]) := by
  have halg : u.alg = s.alg := congrArg Priv.alg hpriv
  apply Rotation.load hview _ _ (List.nodup_cons.mpr ⟨hp, h.nodup⟩) (fun q _ => h.mem_iff q) _ hlt
  · exact fun _ => rfl
  · exact halg ▸ h.hand_eq
  · rw [hview, hpriv]
    apply h.around.load hp
    · rw [Nat.zero_add, Nat.mod_eq_of_lt hlt]
    · intro i hi
      rw [Nat.zero_add, Nat.mod_eq_of_lt (hi.trans hlt)]
      exact hi.ne
  · intro i hi
    rw [h.inUse_iff i hi]
    omega

/-- The page goes into the frame of the victim, from where the hand moves on. -/
theorem Rotation.replace {rest : List (PtePtr × Bool)} {p victim : PtePtr} {frame vaddr : ℕ}
    {off : ℤ} {swapmap : Bitmap} {type : Char} (h : Rotation s hand queue)
    (hfull : s.view.freeFrame = none) (hgives : GivesUp s t queue rest frame victim)
    (hp : p ∉ queue.map Prod.fst)
    (hview : u.view = ((s.view.unload frame victim off swapmap).load p frame vaddr).touch p type)
    (hpriv : u.priv = t.priv.setRef p) : Rotation u (frame + 1) (rest ++ [(p, true)]) := by
  have hlength := h.length_eq hfull
  have hperm := hgives.perm
  have hlength' : rest.length + 1 = queue.length := by
    simpa using hperm.length_eq
  have hnodup := List.nodup_cons.mp (hperm.nodup_iff.mpr h.nodup)
  have hrest : ∀ q, q ∈ rest.map Prod.fst ↔ q ≠ victim ∧ (s.view.page q).valid = true := by
    intro q
    rw [← h.mem_iff, ← hperm.mem_iff, List.mem_cons]
    constructor
    · exact fun hq => ⟨fun heq => hnodup.1 (heq ▸ hq), Or.inr hq⟩
    · rintro ⟨hne, hq⟩
      exact hq.resolve_left hne
  have hp' : p ∉ rest.map Prod.fst := fun hmem =>
    hp (hperm.mem_iff.mp (List.mem_cons_of_mem _ hmem))
  have hhand : u.alg + 1 = (frame + 1 : ℕ) := by
    have halg : u.alg = t.alg := congrArg Priv.alg hpriv
    rw [halg, hgives.alg_eq]
    rfl
  have hunload : Around (s.view.unload frame victim off swapmap) t.priv.ref (frame + 1) rest :=
    hgives.around.congr rfl (fun _ _ => rfl) fun _ _ => rfl
  apply Rotation.load hview hhand _ (List.nodup_cons.mpr ⟨hp', hnodup.2⟩)
  · intro q _
    rw [hrest, View.page_unload]
    split_ifs with hq
    · simp [hq]
    · simp [hq]
  · intro i hi
    have huse : s.view.inUse i = true := View.freeFrame_eq_none_iff.mp hfull i hi
    have hlt : i < s.view.memsize := hi
    exact ⟨fun _ => by omega, fun _ => Or.inr huse⟩
  · change rest.length < s.view.memsize
    omega
  · intro hlt
    have hlt' : rest.length + 1 < s.view.memsize := hlt
    omega
  · rw [hview, hpriv]
    apply hunload.load hp'
    · change (frame + 1 + rest.length) % s.view.memsize = frame
      rw [Nat.add_assoc, Nat.add_comm 1, hlength', hlength, Nat.add_mod_right]
      exact Nat.mod_eq_of_lt hgives.frame_lt
    · -- the frame belongs to the victim, which is not among the others
      intro i hi heq
      obtain ⟨e, he⟩ : ∃ e, rest[i]? = some e := ⟨_, List.getElem?_eq_getElem hi⟩
      have hpage := (hgives.around i e he).1
      rw [show (frame + 1 + i) % s.view.memsize = frame from heq, hgives.owner] at hpage
      have hmem : e.1 ∈ rest.map Prod.fst := List.mem_map_of_mem (List.mem_of_getElem? he)
      rw [← Option.some.inj hpage] at hmem
      exact hnodup.1 hmem

theorem Rotation.arrives (h : Rotation s hand queue) (hm : 1 ≤ m) (hsize : s.view.memsize = m)
    (harr : Arrives clock s a.vaddr a.type u) :
    (∃ hand', Rotation u hand' (request m queue (ptePtr a.vaddr)).1) ∧
      u.priv.ref (ptePtr a.vaddr) = true ∧
      evictedPage clock s a = (request m queue (ptePtr a.vaddr)).2 := by
  cases harr with
  | hit hvalid hview hpriv =>
      rw [request_of_mem ((h.mem_iff _).mpr hvalid)]
      refine ⟨⟨hand, h.hit hvalid hview hpriv⟩, ?_, if_pos (Or.inl hvalid)⟩
      rw [hpriv]
      exact Function.update_self ..
  | fill frame hvalid hfree hview hpriv =>
      have hnot := h.not_mem hvalid
      obtain ⟨rfl, rfl⟩ := h.free_eq hfree
      have hlt : queue.length < s.view.memsize := (View.freeFrame_eq_some_iff.mp hfree).1
      have hsome : (freeFrame s).isSome := by
        rw [show freeFrame s = some queue.length from hfree]
        rfl
      rw [request_of_lt hnot (hsize ▸ hlt)]
      refine ⟨⟨0, h.fill hnot hlt hview hpriv⟩, ?_, if_pos (Or.inr hsome)⟩
      rw [hpriv]
      exact Function.update_self ..
  | replace walked s₂ frame victim off swapmap hvalid hfull hwalk hevict hframe hvictim hslot hoff
      hview hpriv =>
      have hnot := h.not_mem hvalid
      obtain ⟨hview', hpriv'⟩ := (walkPgdir_yields s a.vaddr).of_eq_ok hwalk
      obtain ⟨n, t, rest, frame', victim', hstops, -, hgives⟩ := (h.of_eq hview' hpriv').evicts
        (by rw [hview', hsize]; exact hm) (hview' ▸ hfull)
      have hevict' : clockEvict walked = .ok (frame, s₂) := hevict
      obtain ⟨hframe', rfl⟩ := Prod.mk.inj (Except.ok.inj (hevict'.symm.trans hstops.clockEvict_eq))
      rw [hgives.alg_eq, Int.toNat_natCast] at hframe'
      obtain rfl := hframe'
      replace hgives := hgives.of_view hview'
      obtain rfl : victim = victim' := Option.some.inj (hvictim.symm.trans hgives.owner)
      rw [request_of_evict hnot (by rw [h.length_eq hfull, hsize]) hgives.evict_eq]
      refine ⟨⟨frame + 1, h.replace hfull hgives hnot hview hpriv⟩, ?_, ?_⟩
      · rw [hpriv]
        exact Function.update_self ..
      · have hnone : freeFrame s = none := hfull
        exact (evictedPage_of_called ⟨hwalk, hvalid, hnone⟩ hevict).trans hvictim

theorem Rotation.accessed (h : Rotation s hand queue) (hm : 1 ≤ m) (hsize : s.view.memsize = m)
    (hacc : Accessed clock s a u v t) :
    (∃ hand', Rotation t hand' (request m queue (ptePtr a.vaddr)).1) ∧
      evictedPage clock s a = (request m queue (ptePtr a.vaddr)).2 := by
  obtain ⟨⟨hand', hu⟩, href, hevicted⟩ := h.arrives hm hsize hacc.arrives
  refine ⟨⟨hand', ?_⟩, hevicted⟩
  -- `clock_ref` sets a bit that `find_physpage` has set already
  have hpriv : t.priv = u.priv := by
    rw [hacc.priv_eq, ← Except.ok.inj hacc.ref_eq, Sim.priv_setRef]
    ext q <;> try rfl
    by_cases hq : q = ptePtr a.vaddr
    · simp [Priv.setRef, hq, href]
    · simp [Priv.setRef, hq]
  have halg : t.alg = u.alg := congrArg Priv.alg hpriv
  obtain ⟨hhand, haround, hnodup, hmem, hinUse, hle, hzero⟩ := hu
  rw [← halg] at hhand
  rw [← hpriv] at haround
  refine ⟨hhand, ?_, hnodup, ?_, ?_, ?_, ?_⟩
  all_goals rw [hacc.view_eq]
  · exact haround.congr rfl (fun _ _ => rfl) fun _ _ => rfl
  · exact hmem
  · exact hinUse
  · exact hle
  · exact hzero

end Access

section Replay

variable {m n : ℕ} {garbage : ℕ → SimPage} {alg : ℤ} {start s t : Sim ℤ}
  {trace past : List Access}

theorem rotation_start (hstart : startSim clock m n garbage alg = .ok start) :
    Rotation start 0 [] := by
  obtain ⟨b, -, heq⟩ := bind_eq_ok_iff.mp hstart
  obtain rfl := Except.ok.inj heq
  refine ⟨rfl, fun i e hi => ?_, List.nodup_nil, fun p => ?_, fun i _ => ?_, Nat.zero_le _,
    fun _ => rfl⟩
  · simp at hi
  · change p ∈ [] ↔ ((bootSim m garbage b alg).view.page p).valid = true
    rw [page_boot]
    simp
  · change false = true ↔ i < 0
    simp

/-- Between any two accesses the core map is the queue of the policy. -/
theorem rotation_replay (hm : 1 ≤ m ∧ m ≤ 2 ^ 20) (hn : n < 2 ^ 32)
    (hstart : startSim clock m n garbage alg = .ok start)
    (hrun : replay clock start past = .ok s) : ∃ hand queue, Rotation s hand queue := by
  have hsound := startSim_sound clock_polite hn hstart
  refine @run_invariant _ _ _ _ (fun _ s => ∃ hand queue, Rotation s hand queue) _ _ _
    ⟨0, [], rotation_start hstart⟩ ?_ hrun
  rintro before a after t w - hbefore ⟨hand, queue, h⟩ hacc
  have ht := hsound.replay clock_polite hm.2 hbefore
  obtain ⟨-, u, v, hacc'⟩ := ht.accessMem_ok clock_polite hm.2 hacc
  obtain ⟨⟨hand', hw⟩, -⟩ := h.accessed hm.1 ht.memsize_eq hacc'
  exact ⟨hand', _, hw⟩

theorem clock_serves (hm : 1 ≤ m ∧ m ≤ 2 ^ 20) (hn : n < 2 ^ 32)
    (hstart : startSim clock m n garbage alg = .ok start) (trace : List Access) :
    clock.Serves start trace where
  evict_below := by
    intro past a rest s walked _ hrun hwalk _ hfull
    obtain ⟨hand, queue, h⟩ := rotation_replay hm hn hstart hrun
    have hs := (startSim_sound clock_polite hn hstart).replay clock_polite hm.2 hrun
    obtain ⟨hview, hpriv⟩ := (walkPgdir_yields s a.vaddr).of_eq_ok hwalk
    have hsize : walked.view.memsize = m := (congrArg View.memsize hview).trans hs.memsize_eq
    obtain ⟨k, t, queue', frame, victim, hstops, -, hgives⟩ :=
      (h.of_eq hview hpriv).evicts (hsize ▸ hm.1) (hview ▸ hfull)
    refine ⟨_, t, hstops.clockEvict_eq, ?_⟩
    rw [hgives.alg_eq, Int.toNat_natCast]
    exact hgives.frame_lt.trans_eq (congrArg View.memsize hview)
  ref_returns _ _ _ _ _ _ _ _ := ⟨_, rfl⟩

/-- The pages that lose their frames during the replay, in order. -/
def evictedPages {σ : Type} (F : Functions σ) (s : Sim σ) : List Access → List PtePtr
  | [] => []
  | a :: trace =>
      (evictedPage F s a).toList ++
        match accessMem F s a with
        | .ok t => evictedPages F t trace
        | .error _ => []

theorem evictedPages_eq (hm : 1 ≤ m ∧ m ≤ 2 ^ 20) {hand : ℕ} {queue : List (PtePtr × Bool)}
    (hs : Sound m s) (h : Rotation s hand queue) (hrun : replay clock s trace = .ok t) :
    evictedPages clock s trace = evictions m queue (requests trace) := by
  induction trace generalizing s hand queue with
  | nil => rfl
  | cons a trace ih =>
      rw [replay, List.foldlM_cons] at hrun
      obtain ⟨w, hacc, hrest⟩ := bind_eq_ok_iff.mp hrun
      obtain ⟨hw, u, v, hacc'⟩ := hs.accessMem_ok clock_polite hm.2 hacc
      obtain ⟨⟨hand', hrotation⟩, hevicted⟩ := h.accessed hm.1 hs.memsize_eq hacc'
      rw [evictedPages, hevicted, hacc]
      exact congrArg _ (ih hw hrotation hrest)

/-- The replay under CLOCK reaches its end.  Every call of `clock_evict` stops, after at most
`m + 1` probes, and the pages evicted are those that the second chance policy gives up. -/
theorem clock_secondChance (hm : 1 ≤ m ∧ m ≤ 2 ^ 20) (hn : n + 31 < 2 ^ 32)
    (haddr : ∀ a ∈ trace, a.vaddr < 2 ^ 36) (hswap : (pagesOf trace).card ≤ n)
    (hstart : startSim clock m n garbage alg = .ok start) :
    (∃ s, replay clock start trace = .ok s) ∧
      (∀ past a rest s walked, trace = past ++ a :: rest → replay clock start past = .ok s →
        EvictCalled s a walked → ∃ probes t, probes ≤ m + 1 ∧ StopsAfter walked probes t ∧
          clockEvict walked = .ok (t.alg.toNat, t)) ∧
      evictedPages clock start trace = evictions m [] (requests trace) := by
  have hsound := startSim_sound clock_polite (by omega) hstart
  obtain ⟨last, hlast⟩ := replay_completes clock_polite hm.2
    (startSim_ready clock_polite hn hstart) haddr hswap
    (clock_serves hm (by omega) hstart trace) (List.append_nil trace).symm
  refine ⟨⟨last, hlast⟩, ?_, evictedPages_eq hm hsound (rotation_start hstart) hlast⟩
  rintro past a rest s walked - hrun ⟨hwalk, -, hfull⟩
  obtain ⟨hand, queue, h⟩ := rotation_replay hm (by omega) hstart hrun
  have hs := hsound.replay clock_polite hm.2 hrun
  obtain ⟨hview, hpriv⟩ := (walkPgdir_yields s a.vaddr).of_eq_ok hwalk
  have hsize : walked.view.memsize = m := (congrArg View.memsize hview).trans hs.memsize_eq
  obtain ⟨probes, t, queue', frame, victim, hstops, hle, -⟩ :=
    (h.of_eq hview hpriv).evicts (hsize ▸ hm.1) (hview ▸ hfull)
  exact ⟨probes, t, hsize ▸ hle, hstops, hstops.clockEvict_eq⟩

theorem clock_secondChance_two :
    ∃ start, startSim clock 2 3 (fun _ => ⟨7#32, 7, 7#32⟩) 5 = .ok start ∧
      (∃ s, replay clock start [⟨'S', 0x1000⟩, ⟨'L', 0x2004⟩, ⟨'L', 0x3000⟩] = .ok s) ∧
      (∀ past a rest s walked,
        [⟨'S', 0x1000⟩, ⟨'L', 0x2004⟩, ⟨'L', 0x3000⟩] = past ++ a :: rest →
        replay clock start past = .ok s → EvictCalled s a walked →
          ∃ probes t, probes ≤ 2 + 1 ∧ StopsAfter walked probes t ∧
            clockEvict walked = .ok (t.alg.toNat, t)) ∧
      evictedPages clock start [⟨'S', 0x1000⟩, ⟨'L', 0x2004⟩, ⟨'L', 0x3000⟩] =
        evictions 2 [] (requests [⟨'S', 0x1000⟩, ⟨'L', 0x2004⟩, ⟨'L', 0x3000⟩]) := by
  obtain ⟨start, hstart⟩ := exists_of_isOk
    (x := startSim clock 2 3 (fun _ => ⟨7#32, 7, 7#32⟩) 5) (by decide)
  exact ⟨start, hstart, clock_secondChance (by decide) (by decide) (by decide) (by decide) hstart⟩

end Replay

end KernelProgramming.Paging
