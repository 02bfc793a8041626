import KernelProgramming.Library.LinkedChain
import KernelProgramming.Paging.Correspondence

/-!
# Least recently used

`lru.c` threads the frames in use through the links of the core map, the frame
to evict at the head.  A frame counts as new when both its links are `NULL`,
which is also true of a frame alone on the list; moving that one to the tail
leaves it linked to itself in one direction, without consequences.
-/

namespace KernelProgramming.Paging

open FlagWord Runs LinkedChain

structure LruList where
  head : Option ℕ
  tail : Option ℕ

def deref (pointer : Option ℕ) : Except Halt ℕ :=
  match pointer with
  | none => .error .wild
  | some i => .ok i

def setNext (s : Sim LruList) (i : ℕ) (pointer : Option ℕ) : Sim LruList :=
  s.setFrame i { s.coremap i with next := pointer }

def setPrevious (s : Sim LruList) (i : ℕ) (pointer : Option ℕ) : Sim LruList :=
  s.setFrame i { s.coremap i with previous := pointer }

def lruEvict (s : Sim LruList) : Except Halt (ℕ × Sim LruList) := do
  let head ← deref s.alg.head
  match (s.coremap head).pte with
  | none => .error .wild
  | some pte =>
      let evict := number pageShift (s.pte pte).frame
      if s.alg.head ≠ s.alg.tail then do
        let next ← deref (s.coremap head).next
        let s := { s with alg := ⟨some next, s.alg.tail⟩ }
        let s := setPrevious s next none
        .ok (evict, setPrevious (setNext s evict none) evict none)
      else
        let s := { s with alg := ⟨none, none⟩ }
        .ok (evict, setPrevious (setNext s evict none) evict none)

/-- The four assignments that put a frame behind the tail. -/
def appendTail (s : Sim LruList) (frameNumber : ℕ) : Except Halt (Sim LruList) := do
  let tail ← deref s.alg.tail
  let s := setNext s tail (some frameNumber)
  let s := setPrevious s frameNumber (some tail)
  let s := setNext s frameNumber none
  .ok { s with alg := ⟨s.alg.head, some frameNumber⟩ }

def lruRef (s : Sim LruList) (p : PtePtr) : Except Halt (Sim LruList) :=
  let frameNumber := number pageShift (s.pte p).frame
  if (s.coremap frameNumber).next = none ∧ (s.coremap frameNumber).previous = none then
    match s.alg.head with
    | none => .ok { s with alg := ⟨some frameNumber, some frameNumber⟩ }
    | some _ => appendTail s frameNumber
  else if s.alg.head = s.alg.tail then .ok s
  else if s.alg.head = some frameNumber then do
    let head ← deref (s.coremap frameNumber).next
    let s := { s with alg := ⟨some head, s.alg.tail⟩ }
    appendTail (setPrevious s head none) frameNumber
  else if s.alg.tail = some frameNumber then .ok s
  else do
    let next ← deref (s.coremap frameNumber).next
    let s := setPrevious s next (s.coremap frameNumber).previous
    let previous ← deref (s.coremap frameNumber).previous
    appendTail (setNext s previous (s.coremap frameNumber).next) frameNumber

def lruInit (s : Sim LruList) : Sim LruList :=
  { s with
    alg := ⟨none, none⟩
    coremap := fun i =>
      if i < s.memsize then { s.coremap i with next := none, previous := none } else s.coremap i }

def lru : Functions LruList := ⟨lruInit, lruRef, lruEvict⟩

/-! ## What the algorithm leaves alone -/

theorem view_setFrame_links (s : Sim LruList) (i : ℕ) (next previous : Option ℕ) :
    (s.setFrame i ⟨(s.coremap i).inUse, (s.coremap i).pte, next, previous⟩).view = s.view := by
  ext j <;> try rfl
  all_goals
    simp only [Sim.view, Sim.setFrame, Function.update_apply]
    split <;> simp_all

theorem view_setNext (s : Sim LruList) (i : ℕ) (pointer : Option ℕ) :
    (setNext s i pointer).view = s.view :=
  view_setFrame_links s i pointer (s.coremap i).previous

theorem view_setPrevious (s : Sim LruList) (i : ℕ) (pointer : Option ℕ) :
    (setPrevious s i pointer).view = s.view :=
  view_setFrame_links s i (s.coremap i).next pointer

theorem view_setAlg (s : Sim LruList) (alg : LruList) : ({ s with alg := alg } : Sim LruList).view =
    s.view := rfl

theorem deref_yields (pointer : Option ℕ) :
    Yields (deref pointer) (fun i => pointer = some i) fun _ => True := by
  cases pointer with
  | none => trivial
  | some i => rfl

theorem appendTail_view (s : Sim LruList) (i : ℕ) :
    Yields (appendTail s i) (fun t => t.view = s.view) fun _ => True := by
  apply (deref_yields s.alg.tail).bind
  intro tail _
  simp only [yields_ok, view_setAlg, view_setNext, view_setPrevious]

theorem lruRef_view (s : Sim LruList) (p : PtePtr) :
    Yields (lruRef s p) (fun t => t.view = s.view) fun _ => True := by
  unfold lruRef
  simp only
  split_ifs
  · split
    · rfl
    · exact appendTail_view s _
  · rfl
  · apply (deref_yields _).bind
    intro head _
    exact (appendTail_view _ _).mono (fun t ht => by rw [ht, view_setPrevious, view_setAlg])
      fun _ _ => trivial
  · rfl
  · apply (deref_yields _).bind
    intro next _
    apply (deref_yields _).bind
    intro previous _
    exact (appendTail_view _ _).mono (fun t ht => by rw [ht, view_setNext, view_setPrevious])
      fun _ _ => trivial

theorem lruEvict_view (s : Sim LruList) :
    Yields (lruEvict s) (fun r => r.2.view = s.view) fun _ => True := by
  apply (deref_yields s.alg.head).bind
  intro head _
  split
  · trivial
  · split_ifs
    · apply (deref_yields _).bind
      intro next _
      simp only [yields_ok, view_setAlg, view_setNext, view_setPrevious]
    · simp only [yields_ok, view_setAlg, view_setNext, view_setPrevious]

theorem lru_polite : lru.Polite where
  init_view s := by
    ext i <;> try rfl
    all_goals
      simp only [Sim.view, lru, lruInit]
      split <;> rfl
  ref_view s p s' h := (lruRef_view s p).of_eq_ok h
  evict_view s f s' h := (lruEvict_view s).of_eq_ok h

/-! ## The list of frames -/

theorem priv_setNext (s : Sim LruList) (i : ℕ) (pointer : Option ℕ) :
    (setNext s i pointer).priv =
      { s.priv with next := Function.update s.priv.next i pointer } := by
  ext j <;> try rfl
  all_goals
    by_cases hj : j = i <;> simp [Sim.priv, setNext, Sim.setFrame, hj]

theorem priv_setPrevious (s : Sim LruList) (i : ℕ) (pointer : Option ℕ) :
    (setPrevious s i pointer).priv =
      { s.priv with previous := Function.update s.priv.previous i pointer } := by
  ext j <;> try rfl
  all_goals
    by_cases hj : j = i <;> simp [Sim.priv, setPrevious, Sim.setFrame, hj]

theorem priv_setAlg (s : Sim LruList) (alg : LruList) :
    ({ s with alg := alg } : Sim LruList).priv = { s.priv with alg := alg } := rfl

/-- The links and the two globals hold the list of frames `xs`; nothing is
said about the links of frames outside `xs` for which `loose` holds. -/
structure ThreadedBut (loose : ℕ → Prop) (v : Priv LruList) (xs : List ℕ) : Prop where
  head : v.alg.head = xs.head?
  tail : v.alg.tail = xs.getLast?
  linked : Linked v.next v.previous xs
  off : ∀ i ∉ xs, ¬ loose i → v.next i = none ∧ v.previous i = none

/-- The links and the two globals hold the list of frames `xs`. -/
def Threaded (v : Priv LruList) (xs : List ℕ) : Prop := ThreadedBut (fun _ => False) v xs

theorem Threaded.setRef {v : Priv LruList} {xs : List ℕ} (h : Threaded v xs) (p : PtePtr) :
    Threaded (v.setRef p) xs :=
  ⟨h.head, h.tail, h.linked, h.off⟩

theorem Threaded.off_eq {v : Priv LruList} {xs : List ℕ} (h : Threaded v xs) {i : ℕ}
    (hi : i ∉ xs) : v.next i = none ∧ v.previous i = none :=
  h.off i hi id

theorem Threaded.but {v : Priv LruList} {xs : List ℕ} (h : Threaded v xs) (loose : ℕ → Prop) :
    ThreadedBut loose v xs :=
  ⟨h.head, h.tail, h.linked, fun _ hi _ => h.off_eq hi⟩

/-- Nothing is linked before the frame at the head. -/
def HeadFree (v : Priv LruList) : Prop := ∀ y, v.alg.head = some y → v.previous y = none

theorem ThreadedBut.appendTail {s : Sim LruList} {xs : List ℕ} {x : ℕ}
    (h : ThreadedBut (fun i => i = x) s.priv xs) (hne : xs ≠ []) (hx : x ∉ xs) :
    Yields (appendTail s x)
      (fun t => Threaded t.priv (xs ++ [x]) ∧ (HeadFree s.priv → HeadFree t.priv))
      fun _ => False := by
  obtain ⟨t, ht⟩ : ∃ t, xs.getLast? = some t := ⟨_, List.getLast?_eq_some_getLast hne⟩
  have htail : s.alg.tail = some t := h.tail.trans ht
  unfold Paging.appendTail
  rw [htail]
  change Threaded _ _ ∧ _
  rw [priv_setAlg, priv_setNext, priv_setPrevious, priv_setNext]
  refine ⟨⟨?_, by simp, h.linked.push hx ht, fun i hi _ => ?_⟩, fun hfree y hy => ?_⟩
  · change s.alg.head = _
    rw [List.head?_append_of_ne_nil _ hne]
    exact h.head
  · simp only [List.mem_append, List.mem_singleton, not_or] at hi
    have hit : i ≠ t := fun heq => hi.1 (heq ▸ List.mem_of_getLast? ht)
    simpa [hi.2, hit] using h.off i hi.1 hi.2
  · have hyx : y ≠ x := fun heq => hx (heq ▸ List.mem_of_mem_head? (h.head.symm.trans hy))
    simpa [hyx] using hfree y hy

theorem Threaded.lruRef_new {s : Sim LruList} {xs : List ℕ} (h : Threaded s.priv xs) {p : PtePtr}
    {x : ℕ} (hnum : number pageShift (s.pte p).frame = x) (hx : x ∉ xs) :
    Yields (lruRef s p)
      (fun t => Threaded t.priv (xs ++ [x]) ∧ (HeadFree s.priv → HeadFree t.priv))
      fun _ => False := by
  have hoff : (s.coremap x).next = none ∧ (s.coremap x).previous = none := h.off_eq hx
  have hhead : s.alg.head = xs.head? := h.head
  unfold lruRef
  simp only [hnum]
  rw [if_pos hoff, hhead]
  cases xs with
  | nil =>
      refine ⟨⟨rfl, rfl, linked_singleton hoff.1, fun i _ _ => h.off_eq (by simp)⟩, fun _ y hy => ?_⟩
      obtain rfl := Option.some.inj hy
      exact hoff.2
  | cons y xs => exact (h.but _).appendTail (by simp) hx

theorem Threaded.lruRef_lone {s : Sim LruList} {p : PtePtr} {x : ℕ} (h : Threaded s.priv [x])
    (hnum : number pageShift (s.pte p).frame = x) :
    Yields (lruRef s p)
      (fun t => Threaded t.priv [x] ∧ (HeadFree s.priv → t.priv.previous x = some x))
      fun _ => False := by
  have hhead : s.alg.head = some x := h.head
  have htail : s.alg.tail = some x := h.tail
  unfold lruRef
  simp only [hnum]
  split_ifs with hnew heq
  · rw [hhead]
    simp only
    unfold Paging.appendTail
    rw [htail]
    change Threaded _ _ ∧ _
    rw [priv_setAlg, priv_setNext, priv_setPrevious, priv_setNext]
    refine ⟨⟨hhead, rfl, linked_singleton (by simp), fun i hi _ => ?_⟩, fun _ => by simp⟩
    have hne : i ≠ x := fun heq => hi (List.mem_singleton.mpr heq)
    simpa [hne] using h.off_eq hi
  · exact ⟨h, fun hfree => absurd ⟨h.linked.last x rfl, hfree x hhead⟩ hnew⟩
  all_goals exact absurd (hhead.trans htail.symm) heq

theorem Threaded.head_ne_tail {v : Priv LruList} {xs : List ℕ} (h : Threaded v xs)
    (hlen : 2 ≤ xs.length) : v.alg.head ≠ v.alg.tail := by
  rw [h.head, h.tail]
  have hnodup := h.linked.nodup
  match xs, hlen with
  | x :: y :: r, _ =>
      intro heq
      have hlast : (y :: r).getLast? = some x := heq.symm
      exact (List.nodup_cons.mp hnodup).1 (List.mem_of_getLast? hlast)

theorem Threaded.behead {s : Sim LruList} {x y : ℕ} {r : List ℕ}
    (h : Threaded s.priv (x :: y :: r)) :
    ThreadedBut (fun i => i = x)
      (setPrevious { s with alg := ⟨some y, s.alg.tail⟩ } y none).priv (y :: r) := by
  have hnodup := (List.nodup_cons.mp h.linked.nodup).2
  rw [priv_setPrevious, priv_setAlg]
  refine ⟨rfl, h.tail, h.linked.tail.congr (fun _ _ => rfl) fun a ha => ?_, fun i hi hix => ?_⟩
  · have hay : a ≠ y := fun heq => (List.nodup_cons.mp hnodup).1 (heq ▸ ha)
    simp [hay]
  · have hoff := h.off_eq (i := i) (by simpa [hix] using hi)
    have hiy : i ≠ y := fun heq => hi (heq ▸ List.mem_cons_self)
    simpa [hiy] using hoff

theorem headFree_behead (s : Sim LruList) (y : ℕ) (tail : Option ℕ) :
    HeadFree (setPrevious { s with alg := ⟨some y, tail⟩ } y none).priv := by
  intro z hz
  rw [priv_setPrevious, priv_setAlg] at hz ⊢
  obtain rfl := Option.some.inj hz
  exact Function.update_self ..

theorem Threaded.lruRef_head {s : Sim LruList} {p : PtePtr} {x y : ℕ} {r : List ℕ}
    (h : Threaded s.priv (x :: y :: r)) (hnum : number pageShift (s.pte p).frame = x) :
    Yields (lruRef s p) (fun t => Threaded t.priv (y :: r ++ [x]) ∧ HeadFree t.priv)
      fun _ => False := by
  have hhead : s.alg.head = some x := h.head
  have hne : s.alg.head ≠ s.alg.tail := h.head_ne_tail (by simp)
  have hnext : (s.coremap x).next = some y := h.linked.links.rel.1
  unfold lruRef
  simp only [hnum]
  rw [if_neg (by simp [hnext]), if_neg hne, if_pos hhead, hnext]
  refine (h.behead.appendTail (by simp) (List.nodup_cons.mp h.linked.nodup).1).mono ?_
    fun _ he => he
  exact fun t ht => ⟨ht.1, ht.2 (headFree_behead s y s.alg.tail)⟩

theorem Threaded.lruRef_tail {s : Sim LruList} {p : PtePtr} {a x : ℕ} {l : List ℕ}
    (h : Threaded s.priv (l ++ [a, x])) (hnum : number pageShift (s.pte p).frame = x) :
    Yields (lruRef s p)
      (fun t => Threaded t.priv (l ++ [a, x]) ∧ (HeadFree s.priv → HeadFree t.priv))
      fun _ => False := by
  have hne : s.alg.head ≠ s.alg.tail := h.head_ne_tail (by simp)
  have htail : s.alg.tail = some x := h.tail.trans (by simp)
  have hprevious : (s.coremap x).previous = some a := h.linked.previous_eq
  unfold lruRef
  simp only [hnum]
  rw [if_neg (by simp [hprevious]), if_neg hne, if_neg fun heq => hne (heq.trans htail.symm),
    if_pos htail]
  exact ⟨h, id⟩

theorem coremap_setPrevious_of_ne (s : Sim LruList) {i j : ℕ} (h : j ≠ i) (pointer : Option ℕ) :
    (setPrevious s i pointer).coremap j = s.coremap j :=
  Function.update_of_ne h ..

theorem Threaded.unlink {s : Sim LruList} {x a b : ℕ} {l r : List ℕ}
    (h : Threaded s.priv (l ++ a :: x :: b :: r)) :
    ThreadedBut (fun i => i = x) (setNext (setPrevious s b (some a)) a (some b)).priv
      (l ++ a :: b :: r) := by
  rw [priv_setNext, priv_setPrevious]
  refine ⟨?_, ?_, h.linked.unlink, fun i hi hix => ?_⟩
  · exact h.head.trans (by simp [List.head?_append])
  · exact h.tail.trans (by simp [List.getLast?_append, List.getLast?_cons])
  · have hoff := h.off_eq (show i ∉ l ++ a :: x :: b :: r by simp_all)
    have hia : i ≠ a := fun heq => hi (by simp [heq])
    have hib : i ≠ b := fun heq => hi (by simp [heq])
    simpa [hia, hib] using hoff

theorem Threaded.headFree_unlink {s : Sim LruList} {x a b : ℕ} {l r : List ℕ}
    (h : Threaded s.priv (l ++ a :: x :: b :: r)) (hfree : HeadFree s.priv) :
    HeadFree (setNext (setPrevious s b (some a)) a (some b)).priv := by
  intro y hy
  rw [priv_setNext, priv_setPrevious] at hy ⊢
  have hfirst : y ∈ l ++ [a] := by
    refine List.mem_of_mem_head? (Eq.trans ?_ hy)
    exact Eq.trans (by simp [List.head?_append]) h.head.symm
  have hyb : y ≠ b := by
    rintro rfl
    have hsplit : l ++ a :: x :: y :: r = (l ++ [a]) ++ x :: y :: r := by simp
    have hnodup := List.nodup_append.mp (hsplit ▸ h.linked.nodup)
    exact hnodup.2.2 y hfirst y (by simp) rfl
  simpa [hyb] using hfree y hy

theorem Threaded.lruRef_middle {s : Sim LruList} {p : PtePtr} {x a b : ℕ} {l r : List ℕ}
    (h : Threaded s.priv (l ++ a :: x :: b :: r)) (hnum : number pageShift (s.pte p).frame = x) :
    Yields (lruRef s p)
      (fun t => Threaded t.priv (l ++ a :: b :: r ++ [x]) ∧ (HeadFree s.priv → HeadFree t.priv))
      fun _ => False := by
  have hnodup := h.linked.nodup
  have hx : x ∉ l ++ a :: b :: r := by
    simp only [List.nodup_append, List.nodup_cons, List.mem_append, List.mem_cons] at hnodup ⊢
    grind
  have hxb : x ≠ b := fun heq => hx (by simp [heq])
  have hne : s.alg.head ≠ s.alg.tail := by
    apply h.head_ne_tail
    rw [List.length_append, List.length_cons, List.length_cons]
    omega
  have hnext : (s.coremap x).next = some b := by
    have hsplit : l ++ a :: x :: b :: r = (l ++ [a]) ++ x :: b :: r := by simp
    exact (hsplit ▸ h.linked).next_eq
  have hprevious : (s.coremap x).previous = some a := h.linked.previous_eq
  have hhead : s.alg.head ≠ some x := fun heq =>
    hx (List.mem_of_mem_head? (h.unlink.head.symm.trans heq))
  have htail : s.alg.tail ≠ some x := fun heq =>
    hx (List.mem_of_getLast? (h.unlink.tail.symm.trans heq))
  unfold lruRef
  simp only [hnum]
  rw [if_neg (by simp [hprevious]), if_neg hne, if_neg hhead, if_neg htail, hnext, hprevious]
  change Yields (deref ((setPrevious s b (some a)).coremap x).previous >>= fun previous =>
    Paging.appendTail (setNext (setPrevious s b (some a)) previous
      ((setPrevious s b (some a)).coremap x).next) x) _ _
  rw [coremap_setPrevious_of_ne s hxb, hnext, hprevious]
  refine (h.unlink.appendTail (by simp) hx).mono ?_ fun _ he => he
  exact fun t ht => ⟨ht.1, fun hfree => ht.2 (h.headFree_unlink hfree)⟩

/-- A reference moves the frame to the tail of the list, or puts it there. -/
theorem Threaded.lruRef {s : Sim LruList} {xs : List ℕ} (h : Threaded s.priv xs) {p : PtePtr}
    {x : ℕ} (hnum : number pageShift (s.pte p).frame = x) :
    Yields (lruRef s p)
      (fun t => Threaded t.priv (xs.erase x ++ [x]) ∧
        (xs ≠ [x] → HeadFree s.priv → HeadFree t.priv))
      fun _ => False := by
  by_cases hx : x ∈ xs
  · obtain ⟨l, r, rfl⟩ := List.append_of_mem hx
    have hnodup := h.linked.nodup
    have hl : x ∉ l := fun hmem =>
      (List.nodup_append.mp hnodup).2.2 x hmem x List.mem_cons_self rfl
    rw [List.erase_append_right _ hl, List.erase_cons_head]
    rcases List.eq_nil_or_concat' l with rfl | ⟨l, a, rfl⟩
    · cases r with
      | nil =>
          refine (h.lruRef_lone hnum).mono (fun t ht => ?_) fun _ he => he
          exact ⟨ht.1, fun hlone => absurd rfl hlone⟩
      | cons y r =>
          refine (h.lruRef_head hnum).mono (fun t ht => ?_) fun _ he => he
          exact ⟨ht.1, fun _ _ => ht.2⟩
    · cases r with
      | nil =>
          have htail := Threaded.lruRef_tail (l := l) (a := a) (by simpa using h) hnum
          refine htail.mono (fun t ht => ?_) fun _ he => he
          exact ⟨by simpa using ht.1, fun _ => ht.2⟩
      | cons b r =>
          have hmiddle := Threaded.lruRef_middle (l := l) (a := a) (by simpa using h) hnum
          refine hmiddle.mono (fun t ht => ?_) fun _ he => he
          exact ⟨by simpa using ht.1, fun _ => ht.2⟩
  · rw [List.erase_of_not_mem hx]
    refine (h.lruRef_new hnum hx).mono (fun t ht => ?_) fun _ he => he
    exact ⟨ht.1, fun _ => ht.2⟩

theorem ThreadedBut.clear {s : Sim LruList} {xs : List ℕ} {x : ℕ}
    (h : ThreadedBut (fun i => i = x) s.priv xs) (hx : x ∉ xs) :
    Threaded (setPrevious (setNext s x none) x none).priv xs := by
  rw [priv_setPrevious, priv_setNext]
  have hne : ∀ a ∈ xs, a ≠ x := fun a ha heq => hx (heq ▸ ha)
  refine ⟨h.head, h.tail, h.linked.congr (fun a ha => ?_) (fun a ha => ?_), fun i hi _ => ?_⟩
  · simp [hne a ha]
  · simp [hne a (List.mem_of_mem_tail ha)]
  · by_cases hix : i = x
    · simp [hix]
    · simpa [hix] using h.off i hi hix

theorem HeadFree.clear {s : Sim LruList} (h : HeadFree s.priv) (x : ℕ) :
    HeadFree (setPrevious (setNext s x none) x none).priv := by
  intro y hy
  rw [priv_setPrevious, priv_setNext] at hy ⊢
  rcases eq_or_ne y x with rfl | hyx
  · exact Function.update_self ..
  · simpa [hyx] using h y hy

/-- The frame at the head is evicted. -/
theorem Threaded.lruEvict {s : Sim LruList} {x : ℕ} {xs : List ℕ} (h : Threaded s.priv (x :: xs))
    {p : PtePtr} (howner : (s.coremap x).pte = some p)
    (hnum : number pageShift (s.pte p).frame = x) :
    Yields (lruEvict s) (fun r => r.1 = x ∧ Threaded r.2.priv xs ∧ HeadFree r.2.priv)
      fun _ => False := by
  have hhead : s.alg.head = some x := h.head
  have hnodup := List.nodup_cons.mp h.linked.nodup
  unfold Paging.lruEvict
  rw [hhead]
  change Yields (match (s.coremap x).pte with
    | none => _
    | some pte => _) _ _
  rw [howner]
  simp only [hnum]
  cases xs with
  | nil =>
      have htail : s.alg.tail = some x := h.tail
      rw [htail, if_neg (by simp)]
      refine ⟨rfl, ThreadedBut.clear ?_ hnodup.1, fun _ hy => nomatch hy⟩
      exact ⟨rfl, rfl, linked_nil, fun i _ hix => h.off_eq (by simpa using hix)⟩
  | cons y r =>
      have hne : some x ≠ s.alg.tail := hhead ▸ h.head_ne_tail (by simp)
      have hnext : (s.coremap x).next = some y := h.linked.links.rel.1
      rw [if_pos hne, hnext]
      exact ⟨rfl, h.behead.clear hnodup.1, (headFree_behead s y s.alg.tail).clear x⟩

/-! ## The order of the frames -/

/-- One more than the position of the last access to the page, and zero for a
page that was never accessed. -/
def lastAccess (past : List Access) (p : PtePtr) : ℕ :=
  past.length - past.reverse.findIdx fun a => ptePtr a.vaddr = p

theorem lastAccess_append (past : List Access) (a : Access) (p : PtePtr) :
    lastAccess (past ++ [a]) p =
      if ptePtr a.vaddr = p then past.length + 1 else lastAccess past p := by
  by_cases hp : ptePtr a.vaddr = p
  · simp [lastAccess, List.findIdx_cons, hp]
  · simp [lastAccess, List.findIdx_cons, hp]

theorem lastAccess_le (past : List Access) (p : PtePtr) : lastAccess past p ≤ past.length :=
  Nat.sub_le ..

/-- The page in `frame` was last accessed before the page in `frame'`. -/
def View.Older (v : View) (past : List Access) (frame frame' : ℕ) : Prop :=
  ∀ p q, v.owner frame = some p → v.owner frame' = some q → lastAccess past p < lastAccess past q

/-- The list holds the frames in use, least recently used first. -/
structure Recency (past : List Access) (s : Sim LruList) (xs : List ℕ) : Prop where
  threaded : Threaded s.priv xs
  mem_iff : ∀ i, i ∈ xs ↔ i < s.memsize ∧ (s.coremap i).inUse = true
  sorted : xs.Pairwise (s.view.Older past)

/-- The accessed page is in frame `x`, now the last of the list; the others
are in the frames they were in. -/
theorem recency_of_moved {past : List Access} {a : Access} {s t : Sim LruList} {base : List ℕ}
    {x : ℕ} (ht : t.view.Coherent) (hthreaded : Threaded t.priv (base ++ [x]))
    (hsorted : base.Pairwise (s.view.Older past))
    (hmem : ∀ i, i ∈ base ↔ i ≠ x ∧ i < t.view.memsize ∧ t.view.inUse i = true)
    (hx : x < t.view.memsize ∧ t.view.inUse x = true)
    (howner : ∀ i ≠ x, t.view.owner i = s.view.owner i)
    (hownerx : t.view.owner x = some (ptePtr a.vaddr)) :
    Recency (past ++ [a]) t (base ++ [x]) where
  threaded := hthreaded
  mem_iff := by
    intro i
    change i ∈ base ++ [x] ↔ i < t.view.memsize ∧ t.view.inUse i = true
    rw [List.mem_append, List.mem_singleton, hmem]
    by_cases hix : i = x
    · simp [hix, hx]
    · simp [hix]
  sorted := by
    have hnumx : (t.view.page (ptePtr a.vaddr)).number = x := by
      obtain ⟨p, hp, -, hnum⟩ := ht.owner_resident x hx.1 hx.2
      rw [hownerx] at hp
      rw [Option.some.inj hp, hnum]
    -- the other pages were not accessed now
    have hother : ∀ i ∈ base, ∀ p, t.view.owner i = some p →
        s.view.owner i = some p ∧ lastAccess (past ++ [a]) p = lastAccess past p := by
      intro i hi p hp
      obtain ⟨hix, hlt, huse⟩ := (hmem i).mp hi
      refine ⟨howner i hix ▸ hp, ?_⟩
      obtain ⟨q, hq, -, hnum⟩ := ht.owner_resident i hlt huse
      obtain rfl := Option.some.inj (hq.symm.trans hp)
      rw [lastAccess_append, if_neg]
      rintro rfl
      exact hix (hnum.symm.trans hnumx)
    rw [List.pairwise_append]
    refine ⟨hsorted.imp_of_mem ?_, List.pairwise_singleton _ _, ?_⟩
    · intro i j hi hj hold p q hp hq
      obtain ⟨hp', hlastp⟩ := hother i hi p hp
      obtain ⟨hq', hlastq⟩ := hother j hj q hq
      rw [hlastp, hlastq]
      exact hold p q hp' hq'
    · intro i hi j hj p q hp hq
      rw [List.mem_singleton.mp hj, hownerx] at hq
      obtain rfl := Option.some.inj hq
      rw [(hother i hi p hp).2, lastAccess_append, if_pos rfl]
      exact Nat.lt_succ_of_le (lastAccess_le past p)

theorem Recency.walked {past : List Access} {s walked : Sim LruList} {xs : List ℕ}
    (h : Recency past s xs) {vaddr : ℕ} (hwalk : walkPgdir s vaddr = .ok walked) :
    Recency past walked xs := by
  obtain ⟨hview, hpriv⟩ := (walkPgdir_yields s vaddr).of_eq_ok hwalk
  refine ⟨hpriv ▸ h.threaded, fun i => ?_, hview ▸ h.sorted⟩
  rw [h.mem_iff]
  change i < s.view.memsize ∧ s.view.inUse i = true ↔
    i < walked.view.memsize ∧ walked.view.inUse i = true
  rw [hview]

/-- With all frames in use the list is not empty, and its head is evicted. -/
theorem Recency.evict {past : List Access} {s : Sim LruList} {xs : List ℕ}
    (h : Recency past s xs) (hs : s.view.Coherent) (hm : 1 ≤ s.view.memsize)
    (hfull : s.view.freeFrame = none) :
    ∃ x rest s₂, xs = x :: rest ∧ lruEvict s = .ok (x, s₂) ∧ Threaded s₂.priv rest ∧
      HeadFree s₂.priv := by
  cases xs with
  | nil =>
      have hzero := (h.mem_iff 0).mpr ⟨hm, View.freeFrame_eq_none_iff.mp hfull 0 hm⟩
      exact absurd hzero List.not_mem_nil
  | cons x rest =>
      obtain ⟨hlt, huse⟩ := (h.mem_iff x).mp List.mem_cons_self
      obtain ⟨p, howner, -, hnum⟩ := hs.owner_resident x hlt huse
      obtain ⟨⟨frame, s₂⟩, hevict, hframe, hthreaded⟩ :=
        (h.threaded.lruEvict howner hnum).exists_ok
      exact ⟨x, rest, s₂, rfl, hframe ▸ hevict, hthreaded⟩

/-- The list `ys` with which a reference to the frame `x` finds the frames: `x` is on it if its page
was resident already, and then the list is that of before, `xs`. -/
structure Awaiting (past : List Access) (s u : Sim LruList) (p : PtePtr) (x : ℕ) (xs ys : List ℕ) :
    Prop where
  threaded : Threaded u.priv ys
  headFree : HeadFree s.priv → HeadFree u.priv
  sorted : ys.Pairwise (s.view.Older past)
  mem_iff : ∀ i ≠ x, i ∈ ys ↔ i < u.view.memsize ∧ u.view.inUse i = true
  owner : ∀ i ≠ x, u.view.owner i = s.view.owner i
  stayed : x ∈ ys → ys = xs ∧ (s.view.page p).valid = true

theorem Recency.arrives {past : List Access} {s u : Sim LruList} {xs : List ℕ} {vaddr x : ℕ}
    {type : Char} (h : Recency past s xs) (hs : s.view.Coherent) (hm : 1 ≤ s.view.memsize)
    (harr : Arrives lru s vaddr type u) (hx : (u.view.page (ptePtr vaddr)).number = x) :
    ∃ ys, Awaiting past s u (ptePtr vaddr) x xs ys := by
  have hmem : ∀ i, i ∈ xs ↔ i < s.view.memsize ∧ s.view.inUse i = true := h.mem_iff
  cases harr with
  | hit hvalid hview hpriv =>
      refine ⟨xs, hpriv ▸ h.threaded.setRef _, fun hfree => ?_, h.sorted, fun i _ => ?_,
        fun i _ => ?_, fun _ => ⟨rfl, hvalid⟩⟩
      · rw [hpriv]
        exact hfree
      · rw [hmem, hview]
        rfl
      · rw [hview]
        rfl
  | fill frame hvalid hfree hview hpriv =>
      obtain ⟨hlt, hunused, -⟩ := View.freeFrame_eq_some_iff.mp hfree
      have hnot : frame ∉ xs := fun hin => by
        rw [((hmem frame).mp hin).2] at hunused
        exact Bool.false_ne_true hunused.symm
      obtain rfl : frame = x := by
        rw [hview] at hx
        simpa [View.load] using hx
      refine ⟨xs, hpriv ▸ h.threaded.setRef _, fun hfree => ?_, h.sorted, fun i hi => ?_,
        fun i hi => ?_, fun hin => absurd hin hnot⟩
      · rw [hpriv]
        exact hfree
      · rw [hview]
        simpa [View.touch, View.setPageView, View.load, hi] using hmem i
      · rw [hview]
        simp [View.touch, View.setPageView, View.load, hi]
  | replace walked s₂ frame victim off swapmap hvalid hfull hwalk hevict hframe hvictim hslot hoff
      hview hpriv =>
      have hwview : walked.view = s.view := ((walkPgdir_yields s vaddr).of_eq_ok hwalk).1
      obtain ⟨y, rest, s₃, rfl, hevict', hrest, hfree⟩ := (h.walked hwalk).evict (hwview ▸ hs)
        (hwview ▸ hm) (hwview ▸ hfull)
      obtain ⟨rfl, rfl⟩ := Prod.mk.inj (Except.ok.inj (hevict.symm.trans hevict'))
      obtain rfl : frame = x := by
        rw [hview] at hx
        simpa [View.load] using hx
      have hnodup := List.nodup_cons.mp h.threaded.linked.nodup
      refine ⟨rest, hpriv ▸ hrest.setRef _, fun _ => ?_, (List.pairwise_cons.mp h.sorted).2,
        fun i hi => ?_, fun i hi => ?_, fun hin => absurd hin hnodup.1⟩
      · rw [hpriv]
        exact hfree
      · rw [hview]
        simpa [View.touch, View.setPageView, View.load, View.unload, View.writeOut, hi]
          using hmem i
      · rw [hview]
        simp [View.touch, View.setPageView, View.load, View.unload, View.writeOut, hi]

theorem Recency.accessed {m : ℕ} {past : List Access} {s u v t : Sim LruList} {a : Access}
    {xs : List ℕ} (h : Recency past s xs) (hs : Sound m s) (ht : Sound m t) (hm : 1 ≤ m)
    (hacc : Accessed lru s a u v t) : ∃ ys, Recency (past ++ [a]) t ys := by
  obtain ⟨harr, href, htview, htpriv⟩ := hacc
  have hsize : s.view.memsize = m := hs.memsize_eq
  obtain ⟨hu, -, hvalid⟩ := harr.coherent hs.coherent
  obtain ⟨hlt, huse, howner⟩ := hu.resident_owner _ hvalid
  obtain ⟨ys, hys⟩ := h.arrives hs.coherent (hsize ▸ hm) harr rfl
  have hinUse : t.view.inUse = u.view.inUse := by rw [htview]; rfl
  have howners : t.view.owner = u.view.owner := by rw [htview]; rfl
  have hmemsize : t.view.memsize = u.view.memsize := by rw [htview]; rfl
  refine ⟨_, recency_of_moved ht.coherent
    (htpriv ▸ ((hys.threaded.lruRef rfl).of_eq_ok href).1) (hys.sorted.sublist List.erase_sublist)
    (fun i => ?_) ?_ (fun i hi => ?_) ?_⟩
  · rw [hys.threaded.linked.nodup.mem_erase_iff, hinUse, hmemsize]
    exact and_congr_right (hys.mem_iff i)
  · rw [hinUse, hmemsize]
    exact ⟨hlt, huse⟩
  · rw [howners]
    exact hys.owner i hi
  · rw [howners]
    exact howner

theorem recency_start {m swapsize : ℕ} {garbage : ℕ → SimPage} {alg : LruList}
    {start : Sim LruList} (hstart : startSim lru m swapsize garbage alg = .ok start) :
    Recency [] start [] := by
  obtain ⟨b, -, heq⟩ := bind_eq_ok_iff.mp hstart
  obtain rfl := Except.ok.inj heq
  refine ⟨⟨rfl, rfl, linked_nil, fun i _ _ => ?_⟩, fun i => ?_, List.Pairwise.nil⟩
  · simp [Sim.priv, lru, lruInit, bootSim]
  · by_cases hi : i < m <;> simp [lru, lruInit, bootSim, hi]

/-- Between any two accesses the list is in the order of the last accesses. -/
theorem recency_replay {m swapsize : ℕ} (hm : 1 ≤ m ∧ m ≤ 2 ^ 20) (hswapsize : swapsize < 2 ^ 32)
    {garbage : ℕ → SimPage} {alg : LruList} {start s : Sim LruList}
    (hstart : startSim lru m swapsize garbage alg = .ok start) {past : List Access}
    (hrun : replay lru start past = .ok s) : ∃ xs, Recency past s xs := by
  have hsound := startSim_sound lru_polite hswapsize hstart
  refine @run_invariant _ _ _ _ (fun past s => ∃ xs, Recency past s xs) _ _ _
    ⟨[], recency_start hstart⟩ ?_ hrun
  rintro before a after t w - hbefore ⟨xs, hxs⟩ hacc
  have ht := hsound.replay lru_polite hm.2 hbefore
  obtain ⟨hw, u, v, hacc'⟩ := ht.accessMem_ok lru_polite hm.2 hacc
  exact hxs.accessed ht hw hm.1 hacc'

/-- `next` leads from the head through all frames in use to the tail, in the
order of the last accesses to their pages. -/
structure Sim.InRecencyOrder (past : List Access) (s : Sim LruList) (xs : List ℕ) : Prop where
  nodup : xs.Nodup
  mem_iff : ∀ i, i ∈ xs ↔ i < s.memsize ∧ (s.coremap i).inUse = true
  head : s.alg.head = xs.head?
  next : xs.IsChain fun i j => (s.coremap i).next = some j
  last : ∀ i, xs.getLast? = some i → (s.coremap i).next = none
  tail : s.alg.tail = xs.getLast?
  sorted : xs.Pairwise fun i j => ∀ p q, (s.coremap i).pte = some p → (s.coremap j).pte = some q →
    lastAccess past p < lastAccess past q

theorem Recency.inOrder {past : List Access} {s : Sim LruList} {xs : List ℕ}
    (h : Recency past s xs) : s.InRecencyOrder past xs where
  nodup := h.threaded.linked.nodup
  mem_iff := h.mem_iff
  head := h.threaded.head
  next := h.threaded.linked.links.imp fun _ _ hlink => hlink.1
  last := h.threaded.linked.last
  tail := h.threaded.tail
  sorted := h.sorted

/-- `frame` holds the resident page whose last access is the oldest. -/
def Sim.LeastRecent (past : List Access) (s : Sim LruList) (frame : ℕ) : Prop :=
  ∃ victim, (s.coremap frame).pte = some victim ∧
    hasFlag (s.pte victim).frame pgValid = true ∧ number pageShift (s.pte victim).frame = frame ∧
    ∀ p, hasFlag (s.pte p).frame pgValid = true → p ≠ victim →
      lastAccess past victim < lastAccess past p

theorem Recency.leastRecent {past : List Access} {s : Sim LruList} {x : ℕ} {rest : List ℕ}
    (h : Recency past s (x :: rest)) (hs : s.view.Coherent) : s.LeastRecent past x := by
  obtain ⟨hlt, huse⟩ := (h.mem_iff x).mp List.mem_cons_self
  obtain ⟨victim, howner, hvalid, hnum⟩ := hs.owner_resident x hlt huse
  refine ⟨victim, howner, hvalid, hnum, fun p hp hne => ?_⟩
  obtain ⟨hplt, hpuse, hpowner⟩ := hs.resident_owner p hp
  have hin : (s.view.page p).number ∈ x :: rest := (h.mem_iff _).mpr ⟨hplt, hpuse⟩
  rcases List.mem_cons.mp hin with heq | hin
  · exact absurd (hs.number_inj hp hvalid (heq.trans hnum.symm)) hne
  · exact (List.pairwise_cons.mp h.sorted).1 _ hin victim p howner hpowner

/-- Whenever `lru_evict` is called it returns the frame of the least recently
used page; the list that it works on is in the order of the last accesses. -/
theorem lruEvict_exact {m swapsize : ℕ} (hm : 1 ≤ m ∧ m ≤ 2 ^ 20) (hswapsize : swapsize < 2 ^ 32)
    {garbage : ℕ → SimPage} {alg : LruList} {start s : Sim LruList}
    (hstart : startSim lru m swapsize garbage alg = .ok start) {past : List Access}
    (hrun : replay lru start past = .ok s) :
    (∃ xs, s.InRecencyOrder past xs) ∧
      ∀ vaddr walked, walkPgdir s vaddr = .ok walked → freeFrame s = none →
        ∃ frame s₂, lruEvict walked = .ok (frame, s₂) ∧ frame < m ∧ walked.LeastRecent past frame ∧
          ∃ xs, walked.InRecencyOrder past xs := by
  obtain ⟨xs, hxs⟩ := recency_replay hm hswapsize hstart hrun
  have hs := (startSim_sound lru_polite hswapsize hstart).replay lru_polite hm.2 hrun
  refine ⟨⟨xs, hxs.inOrder⟩, fun vaddr walked hwalk hfull => ?_⟩
  have hview : walked.view = s.view := ((walkPgdir_yields s vaddr).of_eq_ok hwalk).1
  have hsize : walked.view.memsize = m := (congrArg View.memsize hview).trans hs.memsize_eq
  have hwalked := hxs.walked hwalk
  have hcoherent : walked.view.Coherent := hview ▸ hs.coherent
  have hfull' : walked.view.freeFrame = none := hview ▸ hfull
  obtain ⟨x, rest, s₂, rfl, hevict, -⟩ := hwalked.evict hcoherent (hsize ▸ hm.1) hfull'
  refine ⟨x, s₂, hevict, ?_, hwalked.leastRecent hcoherent, _, hwalked.inOrder⟩
  rw [← hsize]
  exact ((hwalked.mem_iff x).mp List.mem_cons_self).1

/-- Two frames, three accesses. -/
def twoPages : List Access := [⟨'S', 0x1000⟩, ⟨'L', 0x2000⟩, ⟨'L', 0x1000⟩]

theorem lruEvict_exact_two :
    ∃ start s, startSim lru 2 3 (fun _ => ⟨7#32, 7, 7#32⟩) ⟨some 5, none⟩ = .ok start ∧
      replay lru start twoPages = .ok s ∧
      ((∃ xs, s.InRecencyOrder twoPages xs) ∧
        ∀ vaddr walked, walkPgdir s vaddr = .ok walked → freeFrame s = none →
          ∃ frame s₂, lruEvict walked = .ok (frame, s₂) ∧ frame < 2 ∧
            walked.LeastRecent twoPages frame ∧ ∃ xs, walked.InRecencyOrder twoPages xs) := by
  have hok : (startSim lru 2 3 (fun _ => ⟨7#32, 7, 7#32⟩) ⟨some 5, none⟩ >>= fun start =>
      replay lru start twoPages).isOk = true := by
    decide +kernel
  obtain ⟨s, hsim⟩ := exists_of_isOk hok
  obtain ⟨start, hstart, hs⟩ := bind_eq_ok_iff.mp hsim
  exact ⟨start, s, hstart, hs, lruEvict_exact (by decide) (by decide) hstart hs⟩

/-! ## The algorithm serves every trace -/

theorem lru_serves {m swapsize : ℕ} (hm : 1 ≤ m ∧ m ≤ 2 ^ 20) (hswapsize : swapsize < 2 ^ 32)
    {garbage : ℕ → SimPage} {alg : LruList} {start : Sim LruList}
    (hstart : startSim lru m swapsize garbage alg = .ok start) (trace : List Access) :
    lru.Serves start trace where
  evict_below := by
    intro past a rest s walked _ hrun hwalk _ hfull
    obtain ⟨xs, hxs⟩ := recency_replay hm hswapsize hstart hrun
    have hs := (startSim_sound lru_polite hswapsize hstart).replay lru_polite hm.2 hrun
    have hview : walked.view = s.view := ((walkPgdir_yields s a.vaddr).of_eq_ok hwalk).1
    have hsize : walked.view.memsize = s.memsize := congrArg View.memsize hview
    have hwalked := hxs.walked hwalk
    obtain ⟨x, rest, s₂, rfl, hevict, -⟩ := hwalked.evict (hview ▸ hs.coherent)
      (by rw [hsize, hs.memsize_eq]; exact hm.1) (hview ▸ hfull)
    refine ⟨x, s₂, hevict, ?_⟩
    rw [← hsize]
    exact ((hwalked.mem_iff x).mp List.mem_cons_self).1
  ref_returns := by
    intro past a rest s t _ hrun htrans
    obtain ⟨xs, hxs⟩ := recency_replay hm hswapsize hstart hrun
    have hs := (startSim_sound lru_polite hswapsize hstart).replay lru_polite hm.2 hrun
    have hsize : s.view.memsize = m := hs.memsize_eq
    have hle : s.memsize ≤ 2 ^ 20 := hs.memsize_eq ▸ hm.2
    have harr := (translate_yields lru_polite s a.vaddr a.type hs.coherent.noOnswap hle).of_eq_ok
      htrans
    obtain ⟨ys, hys⟩ := hxs.arrives hs.coherent (hsize ▸ hm.1) harr rfl
    obtain ⟨u, hu, -⟩ := (hys.threaded.lruRef rfl).exists_ok
    exact ⟨u, hu⟩

end KernelProgramming.Paging
