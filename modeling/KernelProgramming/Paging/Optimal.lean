import KernelProgramming.Paging.Lru
import KernelProgramming.Paging.Opt

/-!
# OPT makes the fewest misses

The list of `opt.c` holds the resident pages, the page that is referenced
latest at the head, so `opt_evict` gives up a farthest page.  Belady's exchange
argument then compares the replay with the replay under any other algorithm.
-/

namespace KernelProgramming.Paging

open FlagWord Runs DemandPaging

/-! ## The order of the list -/

/-- If `q` is referenced again then `r` is so before. -/
def OptState.UsedLater (o : OptState) (q r : ℕ) : Prop :=
  ∀ i ∈ o.nextUse q, ∃ j ∈ o.nextUse r, j < i

theorem OptState.UsedLater.trans {o : OptState} {q r s : ℕ} (h : o.UsedLater q r)
    (h' : o.UsedLater r s) : o.UsedLater q s := by
  intro i hi
  obtain ⟨j, hj, hji⟩ := h i hi
  obtain ⟨k, hk, hkj⟩ := h' j hj
  exact ⟨k, hk, hkj.trans hji⟩

/-- `q` has its place between `pre` and `post`. -/
structure Placed (o : OptState) (q : ℕ) (pre post : List ℕ) : Prop where
  before : ∀ x ∈ pre, o.UsedLater x q
  after : ∀ x ∈ post, o.UsedLater q x

theorem Placed.cons {o : OptState} {q x : ℕ} {pre post : List ℕ} (h : Placed o q pre post)
    (hx : o.UsedLater x q) : Placed o q (x :: pre) post :=
  ⟨List.forall_mem_cons.mpr ⟨hx, h.before⟩, h.after⟩

/-- A page used before the head of a list is used before every page of it. -/
theorem placed_head {o : OptState} {q x : ℕ} {xs : List ℕ}
    (hsorted : (x :: xs).Pairwise o.UsedLater) (hx : o.UsedLater q x) : Placed o q [] (x :: xs) :=
  ⟨by simp, List.forall_mem_cons.mpr
    ⟨hx, fun _ hy => hx.trans ((List.pairwise_cons.mp hsorted).1 _ hy)⟩⟩

theorem OptState.headIsNull_eq {o : OptState} {q : ℕ} (h : (o.vaddrs q).lost = false) :
    o.headIsNull q = (o.nextUse q).isNone := by
  rw [headIsNull, h]
  rfl

theorem OptState.headOccurance_eq {o : OptState} {q i : ℕ} (h : (o.vaddrs q).lost = false)
    (hi : o.nextUse q = some i) : o.headOccurance q = .ok i := by
  rw [headOccurance, if_neg (by simp [h]), hi]

theorem OptState.laterThan_eq {o : OptState} {q r i j : ℕ} (hq : o.headOccurance q = .ok i)
    (hr : o.headOccurance r = .ok j) : o.laterThan q r = .ok (decide (i > j)) := by
  rw [laterThan, hq, hr]
  rfl

theorem insertVaddr_placed {o : OptState} {q occurance : ℕ} {xs : List ℕ}
    (hkept : ∀ x ∈ q :: xs, (o.vaddrs x).lost = false)
    (hq : o.nextUse q = some occurance) (hne : ∀ x ∈ xs, o.nextUse x ≠ some occurance)
    (hsorted : xs.Pairwise o.UsedLater) :
    ∃ pre post, xs = pre ++ post ∧ insertVaddr o q xs = .ok (pre ++ q :: post) ∧
      Placed o q pre post := by
  induction xs with
  | nil => exact ⟨[], [], rfl, rfl, by simp, by simp⟩
  | cons x xs ih =>
      rw [List.forall_mem_cons] at hne
      simp only [List.forall_mem_cons] at hkept ih
      have hself := o.headOccurance_eq hkept.1 hq
      rw [insertVaddr, o.headIsNull_eq hkept.2.1]
      cases huse : o.nextUse x with
      | none =>
          obtain ⟨pre, post, rfl, hinsert, hplaced⟩ :=
            ih ⟨hkept.1, hkept.2.2⟩ hne.2 (List.pairwise_cons.mp hsorted).2
          refine ⟨x :: pre, post, rfl, by rw [hinsert]; rfl, hplaced.cons ?_⟩
          simp [OptState.UsedLater, huse]
      | some i =>
          have hi : i ≠ occurance := fun heq => hne.1 (heq ▸ huse)
          have hother := o.headOccurance_eq hkept.2.1 huse
          rw [o.laterThan_eq hother hself]
          by_cases hlater : i > occurance
          · obtain ⟨pre, post, rfl, hinsert, hplaced⟩ :=
              ih ⟨hkept.1, hkept.2.2⟩ hne.2 (List.pairwise_cons.mp hsorted).2
            refine ⟨x :: pre, post, rfl, ?_, hplaced.cons ?_⟩
            · simp only [hlater, decide_true]
              exact congrArg ((x :: ·) <$> ·) hinsert
            · simp [OptState.UsedLater, huse, hq, hlater]
          · refine ⟨[], x :: xs, rfl, ?_, placed_head hsorted ?_⟩
            · simp only [hlater, decide_false]
              rfl
            · simp only [OptState.UsedLater, huse, hq, Option.mem_some_iff, forall_eq',
                exists_eq_left']
              omega

theorem addToCoremap_placed {o : OptState} {q : ℕ}
    (hkept : ∀ x ∈ q :: o.coremap, (o.vaddrs x).lost = false)
    (hne : ∀ x ∈ o.coremap, ∀ i ∈ o.nextUse q, o.nextUse x ≠ some i)
    (hsorted : o.coremap.Pairwise o.UsedLater) :
    ∃ pre post, o.coremap = pre ++ post ∧
      addToCoremap o q = .ok { o with coremap := pre ++ q :: post } ∧ Placed o q pre post := by
  unfold addToCoremap
  cases hcoremap : o.coremap with
  | nil => exact ⟨[], [], rfl, rfl, by simp, by simp⟩
  | cons head rest =>
      rw [hcoremap] at hkept hne hsorted
      simp only [List.forall_mem_cons] at hkept
      simp only [o.headIsNull_eq hkept.1, o.headIsNull_eq hkept.2.1]
      cases hq : o.nextUse q with
      | none =>
          refine ⟨[], head :: rest, rfl, rfl, placed_head hsorted ?_⟩
          simp [OptState.UsedLater, hq]
      | some occurance =>
          have hne' : ∀ x ∈ head :: rest, o.nextUse x ≠ some occurance := fun x hx =>
            hne x hx occurance hq
          rw [List.forall_mem_cons] at hne'
          have hself := o.headOccurance_eq hkept.1 hq
          -- where `q` goes when it does not become the head
          have hbehind : o.UsedLater head q → ∃ pre post, head :: rest = pre ++ post ∧
              (do
                let rest ← insertVaddr o q rest
                Except.ok { o with coremap := head :: rest }) =
                .ok { o with coremap := pre ++ q :: post } ∧ Placed o q pre post := by
            intro hhead
            obtain ⟨pre, post, rfl, hinsert, hplaced⟩ := insertVaddr_placed
              (List.forall_mem_cons.mpr ⟨hkept.1, hkept.2.2⟩) hq hne'.2
              (List.pairwise_cons.mp hsorted).2
            exact ⟨head :: pre, post, rfl, by rw [hinsert]; rfl, hplaced.cons hhead⟩
          cases huse : o.nextUse head with
          | none => exact hbehind (by simp [OptState.UsedLater, huse])
          | some i =>
              have hi : i ≠ occurance := fun heq => hne'.1 (heq ▸ huse)
              have hother := o.headOccurance_eq hkept.2.1 huse
              rw [o.laterThan_eq hself hother]
              by_cases hlater : occurance > i
              · refine ⟨[], head :: rest, rfl, ?_, placed_head hsorted ?_⟩
                · simp only [hlater, decide_true]
                  rfl
                · simpa [OptState.UsedLater, hq, huse] using hlater
              · simp only [hlater, decide_false]
                apply hbehind
                simp only [OptState.UsedLater, huse, hq, Option.mem_some_iff, forall_eq',
                  exists_eq_left']
                omega

theorem dropVaddr_eq_erase {o : OptState} {q : ℕ} {xs : List ℕ} (hq : q ∈ xs)
    (hinj : ∀ x ∈ xs, o.addr x = o.addr q → x = q) :
    dropVaddr o (o.addr q) xs = .ok (xs.erase q) := by
  induction xs with
  | nil => cases hq
  | cons x xs ih =>
      rw [List.forall_mem_cons] at hinj
      rw [dropVaddr]
      by_cases hx : x = q
      · simp [hx]
      · have haddr : o.addr x ≠ o.addr q := fun heq => hx (hinj.1 heq)
        have hin : q ∈ xs := (List.mem_cons.mp hq).resolve_left (Ne.symm hx)
        rw [if_neg haddr, ih hin hinj.2, List.erase_cons_tail (by simpa using hx)]
        rfl

/-! ## The positions still to come -/

theorem Uses.skip {refs positions : List ℕ} {q r k : ℕ} (h : Uses refs q k positions)
    (hk : refs[k]? = some r) (hne : q ≠ r) : Uses refs q (k + 1) positions where
  sorted := h.sorted
  mem_iff i := by
    rw [h.mem_iff]
    constructor
    · rintro ⟨hle, hi⟩
      refine ⟨Nat.lt_of_le_of_ne hle ?_, hi⟩
      rintro rfl
      exact hne (Option.some.inj (hi.symm.trans hk))
    · exact fun ⟨hle, hi⟩ => ⟨Nat.le_of_succ_le hle, hi⟩

theorem Uses.pop {refs positions : List ℕ} {q k : ℕ} (h : Uses refs q k positions)
    (hk : refs[k]? = some q) : Uses refs q (k + 1) positions.tail := by
  cases positions with
  | nil => exact absurd ((h.mem_iff k).mpr ⟨le_rfl, hk⟩) List.not_mem_nil
  | cons x xs =>
      obtain ⟨hlt, hsorted⟩ := List.pairwise_cons.mp h.sorted
      have hle : k ≤ x := ((h.mem_iff x).mp List.mem_cons_self).1
      -- `k` is a use, and no use comes before the first
      have hx : x = k := by
        rcases List.mem_cons.mp ((h.mem_iff k).mpr ⟨le_rfl, hk⟩) with heq | hin
        · exact heq.symm
        · exact absurd (hlt k hin) (Nat.not_lt_of_le hle)
      refine ⟨hsorted, fun i => ⟨fun hi => ?_, fun ⟨hle', hi⟩ => ?_⟩⟩
      · exact ⟨hx ▸ hlt i hi, ((h.mem_iff i).mp (List.mem_cons_of_mem x hi)).2⟩
      · have hin := (h.mem_iff i).mpr ⟨Nat.le_of_succ_le hle', hi⟩
        apply (List.mem_cons.mp hin).resolve_left
        rw [hx]
        exact Nat.ne_of_gt hle'

/-! ## What the algorithm knows -/

/-- The frame of a page, `none` if the page is not resident. -/
def View.frameOf (v : View) (p : PtePtr) : Option ℕ :=
  if (v.page p).valid then some (v.page p).number else none

def OptState.pageOf (o : OptState) (q : ℕ) : PtePtr := ptePtr (o.addr q)

/-- Before access number `k` to the addresses `addrs`, with the resident pages
in the frames of `frameOf`. -/
structure Foresight (addrs : List ℕ) (frameOf : PtePtr → Option ℕ) (k : ℕ) (o : OptState) :
    Prop where
  position_eq : o.position = k
  addrs_eq : o.referenceString.map o.addr = addrs
  page_inj : ∀ q ∈ o.referenceString, ∀ r ∈ o.referenceString, o.pageOf q = o.pageOf r → q = r
  uses : ∀ q ∈ o.referenceString, Uses o.referenceString q k (o.vaddrs q).occurances
  kept : ∀ q ∈ o.referenceString, (o.vaddrs q).lost = false
  frame_eq : ∀ q ∈ o.referenceString, (o.vaddrs q).frameNumber = frameOf (o.pageOf q)
  mem_iff : ∀ q, q ∈ o.coremap ↔ q ∈ o.referenceString ∧ frameOf (o.pageOf q) ≠ none
  nodup : o.coremap.Nodup
  sorted : o.coremap.Pairwise o.UsedLater
  resident : ∀ p, frameOf p ≠ none → ∃ q ∈ o.referenceString, o.pageOf q = p

section Foresight

variable {addrs : List ℕ} {frameOf : PtePtr → Option ℕ} {k : ℕ} {o : OptState}

/-- Page-aligned addresses of one page are the same address. -/
theorem Recorded.foresight (h : Recorded addrs o) (hposition : o.position = 0)
    (hcoremap : o.coremap = []) (hnone : ∀ p, frameOf p = none)
    (haligned : ∀ vaddr ∈ addrs, 4096 ∣ vaddr) : Foresight addrs frameOf 0 o where
  position_eq := hposition
  addrs_eq := h.addrs_eq
  page_inj q hq r hr heq := by
    have hdvd : ∀ q ∈ o.referenceString, 4096 ∣ o.addr q := fun q hq =>
      haligned _ (h.addrs_eq ▸ List.mem_map_of_mem hq)
    exact h.addr_inj q hq r hr ((Nat.div_left_inj (hdvd q hq) (hdvd r hr)).mp (ptePtr_eq_iff.mp heq))
  uses := h.uses
  kept := h.kept
  frame_eq q hq := (h.unframed q hq).trans (hnone _).symm
  mem_iff q := by simp [hcoremap, hnone]
  nodup := by simp [hcoremap]
  sorted := by simp [hcoremap]
  resident p hp := absurd (hnone p) hp

section Moved

variable {q n : ℕ} {o₂ : OptState} (h : Foresight addrs frameOf k o)
  (hk : o.referenceString[k]? = some q)
  (hvaddrs : o₂.vaddrs = Function.update o.vaddrs q
    ⟨o.addr q, some n, (o.vaddrs q).occurances.tail, false⟩)
  (hcoremap : o₂.coremap = o.coremap.erase q)

include h hvaddrs

/-- The first use of the page is now past. -/
theorem Foresight.uses_next (hk : o.referenceString[k]? = some q) :
    ∀ r ∈ o.referenceString, Uses o.referenceString r (k + 1) (o₂.vaddrs r).occurances := by
  intro r hr
  by_cases hrq : r = q
  · subst hrq
    rw [hvaddrs, Function.update_self]
    exact (h.uses r hr).pop hk
  · rw [hvaddrs, Function.update_of_ne hrq]
    exact (h.uses r hr).skip hk hrq

theorem Foresight.kept_next : ∀ r ∈ o.referenceString, (o₂.vaddrs r).lost = false := by
  intro r hr
  rw [hvaddrs, Function.update_apply]
  split
  · rfl
  · exact h.kept r hr

include hcoremap

theorem Foresight.listed_others {r : ℕ} (hr : r ∈ o₂.coremap) :
    r ∈ o.referenceString ∧ r ≠ q ∧ o₂.vaddrs r = o.vaddrs r := by
  rw [hcoremap, h.nodup.mem_erase_iff] at hr
  refine ⟨((h.mem_iff r).mp hr.2).1, hr.1, ?_⟩
  rw [hvaddrs, Function.update_of_ne hr.1]

theorem Foresight.sorted_others : o₂.coremap.Pairwise o₂.UsedLater := by
  have hbefore : o₂.coremap.Pairwise o.UsedLater := by
    rw [hcoremap]
    exact h.sorted.sublist List.erase_sublist
  apply hbefore.imp_of_mem
  intro r s hr hs hrs
  rw [OptState.UsedLater, OptState.nextUse, OptState.nextUse,
    (h.listed_others hvaddrs hcoremap hr).2.2, (h.listed_others hvaddrs hcoremap hs).2.2]
  exact hrs

include hk

/-- Two pages are not used at the same time. -/
theorem Foresight.nextUse_ne : ∀ x ∈ o₂.coremap, ∀ i ∈ o₂.nextUse q, o₂.nextUse x ≠ some i := by
  intro x hx i hi hi'
  obtain ⟨hmem, hxq, -⟩ := h.listed_others hvaddrs hcoremap hx
  have huses := h.uses_next hvaddrs hk
  have huse := ((huses q (List.mem_of_getElem? hk)).mem_iff i).mp (List.mem_of_mem_head? hi)
  have huse' := ((huses x hmem).mem_iff i).mp (List.mem_of_mem_head? hi')
  exact hxq (Option.some.inj (huse'.2.symm.trans huse.2))

/-- The page referenced now goes to its new place in the list. -/
theorem Foresight.moved (hrefs : o₂.referenceString = o.referenceString)
    (hposition : o₂.position = k + 1) :
    ∃ o₃, addToCoremap o₂ q = .ok o₃ ∧
      Foresight addrs (Function.update frameOf (o.pageOf q) (some n)) (k + 1) o₃ := by
  have hq : q ∈ o.referenceString := List.mem_of_getElem? hk
  have haddr : o₂.addr = o.addr := by
    funext r
    by_cases hr : r = q <;> simp [OptState.addr, hvaddrs, hr]
  have hpage : o₂.pageOf = o.pageOf := by
    funext r
    rw [OptState.pageOf, haddr]
    rfl
  have hsorted := h.sorted_others hvaddrs hcoremap
  have hkept := h.kept_next hvaddrs
  obtain ⟨pre, post, hsplit, heq, hplaced⟩ :=
    addToCoremap_placed (List.forall_mem_cons.mpr ⟨hkept q hq, fun x hx =>
      hkept x (h.listed_others hvaddrs hcoremap hx).1⟩) (h.nextUse_ne hk hvaddrs hcoremap) hsorted
  have hperm : (pre ++ q :: post).Perm (q :: o₂.coremap) := hsplit ▸ List.perm_middle
  have hnot : q ∉ o₂.coremap := fun hin => (h.listed_others hvaddrs hcoremap hin).2.1 rfl
  have hmem : ∀ r, r ∈ pre ++ q :: post ↔ r = q ∨ r ∈ o.coremap := by
    intro r
    rw [hperm.mem_iff, List.mem_cons, hcoremap, h.nodup.mem_erase_iff]
    tauto
  have hframe : ∀ r ∈ o.referenceString, r ≠ q →
      Function.update frameOf (o.pageOf q) (some n) (o.pageOf r) = frameOf (o.pageOf r) :=
    fun r hr hrq => Function.update_of_ne (fun heq => hrq (h.page_inj r hr q hq heq)) ..
  refine ⟨_, heq, hposition, ?_, ?_, ?_, hrefs ▸ hkept, fun r hr => ?_, fun r => ?_, ?_, ?_, fun p hp => ?_⟩
  · change o₂.referenceString.map o₂.addr = addrs
    rw [hrefs, haddr, h.addrs_eq]
  · change ∀ r ∈ o₂.referenceString, ∀ s ∈ o₂.referenceString, o₂.pageOf r = o₂.pageOf s → r = s
    rw [hrefs, hpage]
    exact h.page_inj
  · change ∀ r ∈ o₂.referenceString, Uses o₂.referenceString r (k + 1) (o₂.vaddrs r).occurances
    rw [hrefs]
    exact h.uses_next hvaddrs hk
  · change (o₂.vaddrs r).frameNumber = Function.update frameOf (o.pageOf q) (some n) (o₂.pageOf r)
    rw [hpage]
    by_cases hrq : r = q
    · subst hrq
      simp [hvaddrs]
    · have hr' : r ∈ o.referenceString := hrefs ▸ hr
      rw [hvaddrs, Function.update_of_ne hrq, h.frame_eq r hr', hframe r hr' hrq]
  · change r ∈ pre ++ q :: post ↔ r ∈ o₂.referenceString ∧
      Function.update frameOf (o.pageOf q) (some n) (o₂.pageOf r) ≠ none
    rw [hmem, h.mem_iff, hrefs, hpage]
    by_cases hrq : r = q
    · subst hrq
      simp [hq]
    · by_cases hr : r ∈ o.referenceString
      · simp [hrq, hr, hframe r hr hrq]
      · simp [hrq, hr]
  · exact hperm.nodup_iff.mpr (List.nodup_cons.mpr ⟨hnot, hcoremap ▸ h.nodup.erase q⟩)
  · change (pre ++ q :: post).Pairwise o₂.UsedLater
    rw [hsplit] at hsorted
    obtain ⟨hpre, hpost, hcross⟩ := List.pairwise_append.mp hsorted
    refine List.pairwise_append.mpr ⟨hpre, List.pairwise_cons.mpr ⟨hplaced.after, hpost⟩, ?_⟩
    exact fun x hx => List.forall_mem_cons.mpr ⟨hplaced.before x hx, hcross x hx⟩
  · change ∃ r ∈ o₂.referenceString, o₂.pageOf r = p
    rw [hrefs, hpage]
    by_cases hpq : p = o.pageOf q
    · exact ⟨q, hq, hpq.symm⟩
    · exact h.resident p (by simpa [hpq] using hp)

end Moved

/-- The first occurrence of the page referenced next is there, and its `next` is read well. -/
theorem Foresight.popped (h : Foresight addrs frameOf k o) {q : ℕ}
    (hk : o.referenceString[k]? = some q) :
    popOccurance true { o with position := k + 1 } q =
      .ok { o with
        position := k + 1
        vaddrs := Function.update o.vaddrs q
          { o.vaddrs q with occurances := (o.vaddrs q).occurances.tail, lost := false } } := by
  have hq : q ∈ o.referenceString := List.mem_of_getElem? hk
  have hnow := ((h.uses q hq).mem_iff k).mpr ⟨le_rfl, hk⟩
  simp only [popOccurance, h.kept q hq]
  cases hpositions : (o.vaddrs q).occurances with
  | nil => simp [hpositions] at hnow
  | cons x xs => rfl

/-- `opt_ref` on the page that is accessed next; `n` is the frame that the page
table now gives for it. -/
theorem Foresight.referenced {intact : ℕ → Bool} (hintact : intact k = true) {s : Sim OptState}
    (h : Foresight addrs frameOf k s.alg) {vaddr n : ℕ} (hk : addrs[k]? = some vaddr)
    (hn : number pageShift (s.pte (ptePtr vaddr)).frame = n)
    (hframe : ∀ f ∈ frameOf (ptePtr vaddr), f = n) :
    Yields (optRef intact s (ptePtr vaddr))
      (fun t => Foresight addrs (Function.update frameOf (ptePtr vaddr) (some n)) (k + 1) t.alg)
      (fun _ => False) := by
  obtain ⟨q, hq, haddr⟩ : ∃ q, s.alg.referenceString[k]? = some q ∧ s.alg.addr q = vaddr := by
    rw [← h.addrs_eq, List.getElem?_map] at hk
    exact Option.map_eq_some_iff.mp hk
  have hmem : q ∈ s.alg.referenceString := List.mem_of_getElem? hq
  have hpage : s.alg.pageOf q = ptePtr vaddr := congrArg ptePtr haddr
  have hself := h.frame_eq q hmem
  rw [hpage] at hself
  unfold optRef
  rw [h.position_eq, hq, hintact]
  simp only [h.popped hq, bind, Except.bind, OptState.setVaddr, Function.update_self, hself]
  cases hvalid : frameOf (ptePtr vaddr) with
  | none =>
      have hnot : q ∉ s.alg.coremap := fun hin => ((h.mem_iff q).mp hin).2 (hpage ▸ hvalid)
      let o₂ : OptState := { s.alg with
        position := k + 1
        vaddrs := Function.update s.alg.vaddrs q
          ⟨s.alg.addr q, some n, (s.alg.vaddrs q).occurances.tail, false⟩ }
      obtain ⟨o₃, hadd, hmoved⟩ : ∃ o₃, addToCoremap o₂ q = .ok o₃ ∧
          Foresight addrs (Function.update frameOf (s.alg.pageOf q) (some n)) (k + 1) o₃ :=
        h.moved hq rfl (List.erase_of_not_mem hnot).symm rfl rfl
      rw [hpage] at hmoved
      simp only [Function.update_idem, hn]
      simp only [o₂, OptState.addr] at hadd
      rw [hadd]
      exact hmoved
  | some f =>
      obtain rfl : f = n := hframe f hvalid
      have hin : q ∈ s.alg.coremap := (h.mem_iff q).mpr ⟨hmem, by simp [hpage, hvalid]⟩
      let o₁ : OptState := { s.alg with
        position := k + 1
        vaddrs := Function.update s.alg.vaddrs q
          ⟨s.alg.addr q, some f, (s.alg.vaddrs q).occurances.tail, false⟩ }
      have haddr₁ : o₁.addr = s.alg.addr := by
        funext r
        by_cases hr : r = q <;> simp [o₁, OptState.addr, hr]
      have hdrop : dropVaddr o₁ (o₁.addr q) o₁.coremap = .ok (s.alg.coremap.erase q) := by
        apply dropVaddr_eq_erase hin
        intro x hx heq
        rw [haddr₁] at heq
        exact h.page_inj x ((h.mem_iff x).mp hx).1 q hmem (congrArg ptePtr heq)
      have hremove : removeFromCoremap o₁ q = .ok { o₁ with coremap := s.alg.coremap.erase q } := by
        rw [removeFromCoremap, hdrop]
        rfl
      obtain ⟨o₃, hadd, hmoved⟩ :
          ∃ o₃, addToCoremap { o₁ with coremap := s.alg.coremap.erase q } q = .ok o₃ ∧
            Foresight addrs (Function.update frameOf (s.alg.pageOf q) (some f)) (k + 1) o₃ :=
        h.moved hq rfl rfl rfl rfl
      rw [hpage] at hmoved
      simp only [o₁, OptState.addr] at hremove hadd
      rw [hremove]
      simp only [hadd]
      exact hmoved

theorem Foresight.coremap_ne_nil (h : Foresight addrs frameOf k o) {p : PtePtr}
    (hp : frameOf p ≠ none) : o.coremap ≠ [] := by
  obtain ⟨q, hq, rfl⟩ := h.resident p hp
  exact List.ne_nil_of_mem ((h.mem_iff q).mpr ⟨hq, hp⟩)

/-- `opt_evict` takes the head of the list, and no other page is used later. -/
theorem Foresight.evicts {s : Sim OptState} (h : Foresight addrs frameOf k s.alg)
    (hne : s.alg.coremap ≠ []) :
    ∃ q f s₂, q ∈ s.alg.coremap ∧ frameOf (s.alg.pageOf q) = some f ∧
      optEvict s = .ok (f, s₂) ∧
      Foresight addrs (Function.update frameOf (s.alg.pageOf q) none) k s₂.alg ∧
      ∀ r ∈ s.alg.coremap, r ≠ q → s.alg.UsedLater q r := by
  unfold optEvict
  cases hcoremap : s.alg.coremap with
  | nil => exact absurd hcoremap hne
  | cons q rest =>
      have hmem := fun x => hcoremap ▸ h.mem_iff x
      obtain ⟨hq, hvalid⟩ := (hmem q).mp List.mem_cons_self
      obtain ⟨f, hf⟩ := Option.ne_none_iff_exists'.mp hvalid
      obtain ⟨hnot, hnodup⟩ := List.nodup_cons.mp (hcoremap ▸ h.nodup)
      obtain ⟨hhead, hsorted⟩ := List.pairwise_cons.mp (hcoremap ▸ h.sorted)
      have hframe : (s.alg.vaddrs q).frameNumber = some f := (h.frame_eq q hq).trans hf
      let o₂ : OptState := { s.alg with
        vaddrs := Function.update s.alg.vaddrs q { s.alg.vaddrs q with frameNumber := none }
        coremap := rest }
      have haddr : o₂.addr = s.alg.addr := by
        funext x
        by_cases hx : x = q <;> simp [o₂, OptState.addr, hx]
      have hoccurances : ∀ x, (o₂.vaddrs x).occurances = (s.alg.vaddrs x).occurances := by
        intro x
        by_cases hx : x = q <;> simp [o₂, hx]
      have hlost : ∀ x, (o₂.vaddrs x).lost = (s.alg.vaddrs x).lost := by
        intro x
        by_cases hx : x = q <;> simp [o₂, hx]
      have hpage : o₂.pageOf = s.alg.pageOf := by
        funext x
        rw [OptState.pageOf, haddr]
        rfl
      have hlater : o₂.UsedLater = s.alg.UsedLater := by
        funext x y
        simp only [OptState.UsedLater, OptState.nextUse, hoccurances]
      refine ⟨q, f, { s with alg := o₂ }, List.mem_cons_self, hf, ?_, ⟨h.position_eq, ?_, ?_,
        fun x hx => ?_, fun x hx => (hlost x).trans (h.kept x hx), fun x hx => ?_, fun x => ?_,
        hnodup, ?_, fun p hp => ?_⟩,
        fun x hx hxq => ?_⟩
      · simp only [hframe]
        rfl
      · change s.alg.referenceString.map o₂.addr = addrs
        rw [haddr, h.addrs_eq]
      · change ∀ x ∈ s.alg.referenceString, ∀ y ∈ s.alg.referenceString,
          o₂.pageOf x = o₂.pageOf y → x = y
        rw [hpage]
        exact h.page_inj
      · change Uses s.alg.referenceString x k (o₂.vaddrs x).occurances
        rw [hoccurances]
        exact h.uses x hx
      · change (o₂.vaddrs x).frameNumber =
          Function.update frameOf (s.alg.pageOf q) none (o₂.pageOf x)
        rw [hpage]
        by_cases hxq : x = q
        · simp [o₂, hxq]
        · have hpx : s.alg.pageOf x ≠ s.alg.pageOf q := fun heq => hxq (h.page_inj x hx q hq heq)
          rw [Function.update_of_ne hpx, ← h.frame_eq x hx]
          simp [o₂, hxq]
      · change x ∈ rest ↔ x ∈ s.alg.referenceString ∧
          Function.update frameOf (s.alg.pageOf q) none (o₂.pageOf x) ≠ none
        rw [hpage]
        by_cases hxq : x = q
        · simp [hxq, hnot]
        · have hrest : x ∈ rest ↔ x ∈ q :: rest := by simp [hxq]
          rw [hrest, hmem]
          by_cases hx : x ∈ s.alg.referenceString
          · have hpx : s.alg.pageOf x ≠ s.alg.pageOf q := fun heq =>
              hxq (h.page_inj x hx q hq heq)
            simp [hx, hpx]
          · simp [hx]
      · change rest.Pairwise o₂.UsedLater
        rw [hlater]
        exact hsorted
      · change ∃ x ∈ s.alg.referenceString, o₂.pageOf x = p
        rw [hpage]
        refine h.resident p fun hnone => hp ?_
        by_cases hpq : p = s.alg.pageOf q <;> simp [hpq, hnone]
      · exact hhead x ((List.mem_cons.mp hx).resolve_left hxq)

theorem mem_take_iff {α : Type*} {xs : List α} {n : ℕ} {x : α} :
    x ∈ xs.take n ↔ ∃ i < n, xs[i]? = some x := by
  rw [List.mem_iff_getElem?]
  apply exists_congr
  intro i
  rw [List.getElem?_take]
  split <;> simp_all

theorem Foresight.mem_upcoming (h : Foresight addrs frameOf k o) {n r : ℕ}
    (hr : r ∈ o.referenceString) :
    o.pageOf r ∈ ((addrs.drop (k + 1)).map ptePtr).take n ↔
      ∃ i < n, o.referenceString[k + 1 + i]? = some r := by
  rw [mem_take_iff, ← h.addrs_eq]
  refine exists_congr fun i => and_congr_right fun _ => ?_
  rw [List.getElem?_map, List.getElem?_drop, List.getElem?_map, Option.map_map,
    Option.map_eq_some_iff]
  constructor
  · rintro ⟨q, hq, heq⟩
    exact h.page_inj q (List.mem_of_getElem? hq) r hr heq ▸ hq
  · exact fun hi => ⟨r, hi, rfl⟩

/-- A page used no sooner than any other is a farthest one, if the page of the
current access is not resident. -/
theorem Foresight.farthest (h : Foresight addrs frameOf k o) {q : ℕ} (hq : q ∈ o.coremap)
    (hlater : ∀ r ∈ o.coremap, r ≠ q → o.UsedLater q r) {vaddr : ℕ} (hk : addrs[k]? = some vaddr)
    (hmiss : frameOf (ptePtr vaddr) = none) {residents : Finset PtePtr}
    (hresidents : ∀ p ∈ residents, frameOf p ≠ none) :
    Farthest residents ((addrs.drop (k + 1)).map ptePtr) (o.pageOf q) := by
  intro n hn p hp
  obtain ⟨r, hr, rfl⟩ := h.resident p (hresidents p hp)
  by_cases hrq : r = q
  · exact hrq ▸ hn
  obtain ⟨hqref, -⟩ := (h.mem_iff q).mp hq
  obtain ⟨i, hin, hqi⟩ := (h.mem_upcoming hqref).mp hn
  -- the first use of `q` is at most at position `k + 1 + i`
  obtain ⟨first, hfirst, hle⟩ : ∃ first ∈ o.nextUse q, first ≤ k + 1 + i := by
    have huse := ((h.uses q hqref).mem_iff (k + 1 + i)).mpr ⟨by omega, hqi⟩
    have hsorted := (h.uses q hqref).sorted
    rw [OptState.nextUse]
    cases hpositions : (o.vaddrs q).occurances with
    | nil => simp [hpositions] at huse
    | cons x xs =>
        rw [hpositions] at huse hsorted
        refine ⟨x, rfl, ?_⟩
        rcases List.mem_cons.mp huse with heq | hmem
        · exact heq.ge
        · exact ((List.pairwise_cons.mp hsorted).1 _ hmem).le
  -- and `r` is used before that, after the access number `k`
  obtain ⟨j, hj, hlt⟩ := hlater r ((h.mem_iff r).mpr ⟨hr, hresidents _ hp⟩) hrq first hfirst
  obtain ⟨hkj, hrj⟩ := ((h.uses r hr).mem_iff j).mp (List.mem_of_mem_head? hj)
  have hne : j ≠ k := by
    rintro rfl
    rw [← h.addrs_eq, List.getElem?_map, hrj] at hk
    exact hresidents _ hp ((congrArg (frameOf ∘ ptePtr) (Option.some.inj hk)).trans hmiss)
  refine (h.mem_upcoming hr).mpr ⟨j - (k + 1), by omega, ?_⟩
  rwa [show k + 1 + (j - (k + 1)) = j by omega]

end Foresight

/-! ## The replay -/

theorem View.frameOf_ne_none_iff {v : View} {p : PtePtr} :
    v.frameOf p ≠ none ↔ (v.page p).valid = true := by
  unfold View.frameOf
  split <;> simp_all

section Replay

variable {addrs : List ℕ} {k m : ℕ} {virtualAddr : ℕ} {intact : ℕ → Bool} {s : Sim OptState}

theorem Foresight.walked (h : Foresight addrs s.view.frameOf k s.alg) {walked : Sim OptState}
    {vaddr : ℕ} (hwalk : walkPgdir s vaddr = .ok walked) :
    Foresight addrs s.view.frameOf k walked.alg := by
  have halg : walked.alg = s.alg := congrArg Priv.alg ((walkPgdir_yields s vaddr).of_eq_ok hwalk).2
  rwa [halg]

theorem Foresight.victim (h : Foresight addrs s.view.frameOf k s.alg) (hs : s.view.Coherent)
    {walked s₂ : Sim OptState} {vaddr frame : ℕ} {victim : PtePtr}
    (hwalk : walkPgdir s vaddr = .ok walked) (hevict : optEvict walked = .ok (frame, s₂))
    (howner : s.view.owner frame = some victim) :
    ∃ q ∈ walked.alg.coremap, walked.alg.pageOf q = victim ∧
      Foresight addrs (Function.update s.view.frameOf victim none) k s₂.alg ∧
      ∀ r ∈ walked.alg.coremap, r ≠ q → walked.alg.UsedLater q r := by
  have hne : walked.alg.coremap ≠ [] := by
    intro hnil
    rw [optEvict, hnil] at hevict
    cases hevict
  obtain ⟨q, f, s₃, hq, hf, hevict', hrest, hlater⟩ := (h.walked hwalk).evicts hne
  obtain ⟨rfl, rfl⟩ := Prod.mk.inj (Except.ok.inj (hevict.symm.trans hevict'))
  have hvalid := View.frameOf_ne_none_iff.mp (hf ▸ Option.some_ne_none frame)
  have hnum : (s.view.page (walked.alg.pageOf q)).number = frame := by
    rw [View.frameOf, if_pos hvalid] at hf
    exact Option.some.inj hf
  obtain ⟨-, -, howner'⟩ := hs.resident_owner _ hvalid
  obtain rfl := Option.some.inj (howner'.symm.trans (hnum ▸ howner))
  exact ⟨q, hq, rfl, hrest, hlater⟩

/-- What `opt_ref` finds: the list is still that of the pages before the access,
without the victim. -/
theorem Foresight.arrives (h : Foresight addrs s.view.frameOf k s.alg) (hs : s.view.Coherent)
    {u : Sim OptState} {vaddr : ℕ} {type : Char} (harr : Arrives (opt virtualAddr intact) s vaddr type u) :
    ∃ frameOf, Foresight addrs frameOf k u.alg ∧
      (∀ f ∈ frameOf (ptePtr vaddr), f = (u.view.page (ptePtr vaddr)).number) ∧
      u.view.frameOf = Function.update frameOf (ptePtr vaddr)
        (some (u.view.page (ptePtr vaddr)).number) := by
  have halg : ∀ {w : Sim OptState} {p : PtePtr}, u.priv = w.priv.setRef p → u.alg = w.alg :=
    fun hpriv => congrArg Priv.alg hpriv
  cases harr with
  | hit hvalid hview hpriv =>
      refine ⟨s.view.frameOf, halg hpriv ▸ h, fun f hf => ?_, ?_⟩
      · rw [View.frameOf, if_pos hvalid] at hf
        rw [hview]
        simpa [View.touch, View.setPageView, View.hit] using (Option.some.inj hf).symm
      · funext p
        rw [hview]
        by_cases hp : p = ptePtr vaddr
        · simp [hp, View.frameOf, View.touch, View.setPageView, View.hit]
        · simp [hp, View.frameOf, View.touch, View.setPageView, View.hit]
  | fill frame hvalid hfree hview hpriv =>
      refine ⟨s.view.frameOf, halg hpriv ▸ h, fun f hf => ?_, ?_⟩
      · simp [View.frameOf, hvalid] at hf
      · funext p
        rw [hview]
        by_cases hp : p = ptePtr vaddr
        · simp [hp, View.frameOf, View.touch, View.setPageView, View.load]
        · simp [hp, View.frameOf, View.touch, View.setPageView, View.load]
  | replace walked s₂ frame victim off swapmap hvalid hfull hwalk hevict hframe howner hslot hoff
      hview hpriv =>
      obtain ⟨q, -, -, hrest, -⟩ := h.victim hs hwalk hevict howner
      refine ⟨_, halg hpriv ▸ hrest, fun f hf => ?_, ?_⟩
      · by_cases hp : ptePtr vaddr = victim
        · simp [hp] at hf
        · simp [hp, View.frameOf, hvalid] at hf
      · funext p
        rw [hview]
        by_cases hp : p = ptePtr vaddr
        · simp [hp, View.frameOf, View.touch, View.setPageView, View.load]
        · by_cases hpv : p = victim
          · subst hpv
            simp [hp, View.frameOf, View.touch, View.setPageView, View.load, View.page_unload]
          · simp [hp, hpv, View.frameOf, View.touch, View.setPageView, View.load,
              View.page_unload]

theorem Foresight.accessed (h : Foresight addrs s.view.frameOf k s.alg) (hs : s.view.Coherent)
    (hintact : intact k = true) {a : Access} {u v t : Sim OptState}
    (hk : addrs[k]? = some a.vaddr) (hacc : Accessed (opt virtualAddr intact) s a u v t) :
    Foresight addrs t.view.frameOf (k + 1) t.alg := by
  obtain ⟨frameOf, hu, hnum, heq⟩ := h.arrives hs hacc.arrives
  have hv := (hu.referenced hintact hk rfl hnum).of_eq_ok hacc.ref_eq
  have halg : t.alg = v.alg := congrArg Priv.alg hacc.priv_eq
  have hview : t.view.frameOf = u.view.frameOf := by
    rw [hacc.view_eq]
    rfl
  rw [hview, heq, halg]
  exact hv

/-- The page that `opt_evict` gives up is one that is requested latest. -/
theorem Foresight.victim_farthest (h : Foresight addrs s.view.frameOf k s.alg)
    (hs : s.view.Coherent) {walked s₂ : Sim OptState} {vaddr frame : ℕ} {victim : PtePtr}
    (hk : addrs[k]? = some vaddr) (hmiss : (s.view.page (ptePtr vaddr)).valid = false)
    (hwalk : walkPgdir s vaddr = .ok walked) (hevict : optEvict walked = .ok (frame, s₂))
    (howner : s.view.owner frame = some victim) :
    Farthest s.view.residents ((addrs.drop (k + 1)).map ptePtr) victim := by
  obtain ⟨q, hq, rfl, -, hlater⟩ := h.victim hs hwalk hevict howner
  apply (h.walked hwalk).farthest hq hlater hk (by simp [View.frameOf, hmiss])
  intro p hp
  exact View.frameOf_ne_none_iff.mpr ((hs.mem_residents p).mp hp)

end Replay

section Comparison

variable {m n : ℕ} {garbage : ℕ → SimPage} {alg : OptState} {start : Sim OptState}
  {virtualAddr : ℕ} {intact : ℕ → Bool} {trace : List Access}

theorem foresight_start (hstart : startSim (opt virtualAddr intact) m n garbage alg = .ok start)
    {type : Char} (hfile : PlainTrace alg.tracefile)
    (haligned : ∀ a ∈ accessesOf type alg.tracefile, 4096 ∣ a.vaddr) :
    Foresight ((accessesOf type alg.tracefile).map Access.vaddr) start.view.frameOf 0 start.alg := by
  obtain ⟨b, -, heq⟩ := bind_eq_ok_iff.mp hstart
  obtain rfl := Except.ok.inj heq
  have hrecorded := hfile.recorded (s := bootSim m garbage b alg) rfl virtualAddr type
  obtain ⟨-, hposition, hcoremap⟩ := recording_optInit virtualAddr (bootSim m garbage b alg)
  refine hrecorded.foresight hposition hcoremap (fun p => ?_) fun vaddr hvaddr => ?_
  · have hpage : ((opt virtualAddr intact).init (bootSim m garbage b alg)).view.page p =
        ⟨false, false, false, 0, invalidSwap⟩ := page_boot m garbage b alg p
    simp [View.frameOf, hpage]
  · obtain ⟨a, ha, rfl⟩ := List.mem_map.mp hvaddr
    exact haligned a ha

theorem foresight_replay (hm : m ≤ 2 ^ 20) (hn : n < 2 ^ 32)
    (hstart : startSim (opt virtualAddr intact) m n garbage alg = .ok start)
    (hstart' : Foresight (trace.map Access.vaddr) start.view.frameOf 0 start.alg)
    {past rest : List Access} (htrace : trace = past ++ rest)
    (hintact : ∀ k < past.length, intact k = true) {s : Sim OptState}
    (hrun : replay (opt virtualAddr intact) start past = .ok s) :
    Foresight (trace.map Access.vaddr) s.view.frameOf past.length s.alg := by
  have hsound := startSim_sound (opt_polite virtualAddr intact) hn hstart
  refine @run_invariant _ _ _ _
    (fun past s => Foresight (trace.map Access.vaddr) s.view.frameOf past.length s.alg) _ _ _
    hstart' ?_ hrun
  intro before a after t w hpast hbefore ht hacc
  have hs := hsound.replay (opt_polite virtualAddr intact) hm hbefore
  obtain ⟨-, u, v, hacc'⟩ := hs.accessMem_ok (opt_polite virtualAddr intact) hm hacc
  rw [List.length_append, List.length_singleton]
  have hlt : before.length < past.length := by simp [hpast]
  exact ht.accessed hs.coherent (hintact _ hlt) (by simp [htrace, hpast]) hacc'

theorem opt_serves (hm : 1 ≤ m ∧ m ≤ 2 ^ 20) (hn : n < 2 ^ 32)
    (hintact : ∀ k < trace.length, intact k = true)
    (hstart : startSim (opt virtualAddr intact) m n garbage alg = .ok start)
    (hstart' : Foresight (trace.map Access.vaddr) start.view.frameOf 0 start.alg) :
    (opt virtualAddr intact).Serves start trace where
  evict_below := by
    intro past a rest s walked htrace hrun hwalk _ hfull
    have h := foresight_replay hm.2 hn hstart hstart' htrace (fun k hk => hintact k (by simp [htrace]; omega)) hrun
    have hs := (startSim_sound (opt_polite virtualAddr intact) hn hstart).replay (opt_polite virtualAddr intact)
      hm.2 hrun
    have hpos : 0 < s.view.memsize := by
      rw [show s.view.memsize = m from hs.memsize_eq]
      exact hm.1
    have hall : ∀ i < s.view.memsize, s.view.inUse i = true := View.freeFrame_eq_none_iff.mp hfull
    obtain ⟨p, -, hvalid, -⟩ := hs.coherent.owner_resident 0 hpos (hall 0 hpos)
    have hne := (h.walked hwalk).coremap_ne_nil (View.frameOf_ne_none_iff.mpr hvalid)
    obtain ⟨q, f, s₂, -, hf, hevict, -⟩ := (h.walked hwalk).evicts hne
    refine ⟨f, s₂, hevict, ?_⟩
    have hvalid' := View.frameOf_ne_none_iff.mp (hf ▸ Option.some_ne_none f)
    rw [View.frameOf, if_pos hvalid'] at hf
    exact Option.some.inj hf ▸ (hs.coherent.resident_owner _ hvalid').1
  ref_returns := by
    intro past a rest s t htrace hrun htrans
    have h := foresight_replay hm.2 hn hstart hstart' htrace (fun k hk => hintact k (by simp [htrace]; omega)) hrun
    have hs := (startSim_sound (opt_polite virtualAddr intact) hn hstart).replay (opt_polite virtualAddr intact)
      hm.2 hrun
    have hle : s.memsize ≤ 2 ^ 20 := hs.memsize_eq ▸ hm.2
    have harr := (translate_yields (opt_polite virtualAddr intact) s a.vaddr a.type hs.coherent.noOnswap
      hle).of_eq_ok htrans
    obtain ⟨frameOf, hu, hnum, -⟩ := h.arrives hs.coherent harr
    have hk : (trace.map Access.vaddr)[past.length]? = some a.vaddr := by simp [htrace]
    have hlt : past.length < trace.length := by simp [htrace]
    obtain ⟨v, hv, -⟩ := (hu.referenced (hintact _ hlt) hk rfl hnum).exists_ok
    exact ⟨v, hv⟩

variable {σ : Type} {F : Functions σ}

theorem residents_start (hF : F.Polite) {alg : σ} {start : Sim σ}
    (hstart : startSim F m n garbage alg = .ok start) :
    start.view.residents = ∅ ∧ start.missCount = 0 := by
  obtain ⟨b, -, heq⟩ := bind_eq_ok_iff.mp hstart
  obtain rfl := Except.ok.inj heq
  have hview := view_init_boot hF m garbage b alg
  refine ⟨?_, congrArg View.missCount hview⟩
  rw [hview]
  apply Finset.eq_empty_of_forall_notMem
  intro p hp
  rw [(coherent_boot m garbage b alg).mem_residents, page_boot] at hp
  exact Bool.false_ne_true hp

/-- The pages that a trace requests. -/
def requests (trace : List Access) : List PtePtr := trace.map fun a => ptePtr a.vaddr

/-- At no point of the trace is the replay under OPT behind. -/
theorem ahead_replay (hm : m ≤ 2 ^ 20) (hn : n < 2 ^ 32)
    (hintact : ∀ k < trace.length, intact k = true)
    (hstart : startSim (opt virtualAddr intact) m n garbage alg = .ok start)
    (hstart' : Foresight (trace.map Access.vaddr) start.view.frameOf 0 start.alg)
    (hF : F.Polite) {garbage' : ℕ → SimPage} {alg' : σ} {other : Sim σ}
    (hother : startSim F m n garbage' alg' = .ok other) {past rest : List Access}
    (htrace : trace = past ++ rest) {s : Sim OptState} {t : Sim σ}
    (hs : replay (opt virtualAddr intact) start past = .ok s) (ht : replay F other past = .ok t) :
    Ahead s.missCount s.view.residents t.missCount t.view.residents (requests rest) := by
  have hsound := startSim_sound (opt_polite virtualAddr intact) hn hstart
  have hsound' := startSim_sound hF hn hother
  induction past using List.reverseRecOn generalizing rest s t with
  | nil =>
      obtain rfl := Except.ok.inj hs
      obtain rfl := Except.ok.inj ht
      obtain ⟨hempty, hzero⟩ := residents_start (opt_polite virtualAddr intact) hstart
      obtain ⟨hempty', hzero'⟩ := residents_start hF hother
      rw [hempty, hzero, hempty', hzero']
      exact ahead_empty _
  | append_singleton past a ih =>
      obtain ⟨s₀, hs₀, hsa⟩ := foldlM_concat_ok_iff.mp hs
      obtain ⟨t₀, ht₀, hta⟩ := foldlM_concat_ok_iff.mp ht
      have htrace' : trace = past ++ a :: rest := by simp [htrace]
      have hsound₀ := hsound.replay (opt_polite virtualAddr intact) hm hs₀
      have hsound₀' := hsound'.replay hF hm ht₀
      obtain ⟨hsound₁, u, v, hacc⟩ := hsound₀.accessMem_ok (opt_polite virtualAddr intact) hm hsa
      obtain ⟨hsound₁', u', v', hacc'⟩ := hsound₀'.accessMem_ok hF hm hta
      have h := foresight_replay hm hn hstart hstart' htrace' (fun k hk => hintact k (by simp [htrace']; omega)) hs₀
      have hdrop : ((trace.map Access.vaddr).drop (past.length + 1)).map ptePtr = requests rest := by
        simp [htrace', List.drop_append, requests, List.drop_eq_nil_of_le]
      obtain ⟨c, hserve, hmiss⟩ : ∃ c, Serve m (Farthest s₀.view.residents (requests rest))
          s₀.view.residents (ptePtr a.vaddr) s.view.residents c ∧
          s.missCount = s₀.missCount + c := by
        apply hacc.serve hsound₀ hsound₁
        intro walked frame s₂ victim hwalk _ hvalid hevict howner
        rw [← hdrop]
        exact h.victim_farthest hsound₀.coherent (by simp [htrace']) hvalid hwalk hevict howner
      obtain ⟨d, hserve', hmiss'⟩ : ∃ d, Serve m (fun _ => True) t₀.view.residents
          (ptePtr a.vaddr) t.view.residents d ∧ t.missCount = t₀.missCount + d :=
        hacc'.serve hsound₀' hsound₁' fun _ _ _ _ _ _ _ _ _ => trivial
      rw [hmiss, hmiss']
      apply (ih htrace' hs₀ ht₀).serve hserve hserve'
      exact hsound₀'.coherent.card_residents_le.trans hsound₀'.memsize_eq.le

/-- OPT is optimal: no other choice of victim frames makes fewer misses on the
same trace with the same memory. -/
theorem opt_optimal (hm : 1 ≤ m ∧ m ≤ 2 ^ 20) (hn : n + 31 < 2 ^ 32)
    (hintact : ∀ k < trace.length, intact k = true) {file : List Char}
    (hfile : PlainTrace file) {type : Char} (htrace : accessesOf type file = trace)
    (haddr : ∀ a ∈ trace, a.vaddr < 2 ^ 36 ∧ 4096 ∣ a.vaddr) (hswap : (pagesOf trace).card ≤ n)
    (halg : alg.tracefile = file)
    (hstart : startSim (opt virtualAddr intact) m n garbage alg = .ok start)
    (hF : F.Polite) {garbage' : ℕ → SimPage} {alg' : σ} {other : Sim σ}
    (hother : startSim F m n garbage' alg' = .ok other) (hserves : F.Serves other trace) :
    ∃ s t, replay (opt virtualAddr intact) start trace = .ok s ∧ replay F other trace = .ok t ∧
      s.missCount ≤ t.missCount := by
  subst halg htrace
  have hstart' := foresight_start hstart hfile fun a ha => (haddr a ha).2
  have hbelow := fun a ha => (haddr a ha).1
  obtain ⟨s, hs⟩ := replay_completes (opt_polite virtualAddr intact) hm.2
    (startSim_ready (opt_polite virtualAddr intact) hn hstart) hbelow hswap
    (opt_serves hm (by omega) hintact hstart hstart') (List.append_nil _).symm
  obtain ⟨t, ht⟩ := replay_completes hF hm.2 (startSim_ready hF hn hother) hbelow hswap hserves
    (List.append_nil _).symm
  refine ⟨s, t, hs, ht, ?_⟩
  exact (ahead_replay hm.2 (by omega) hintact hstart hstart' hF hother (List.append_nil _).symm hs ht).le

end Comparison

end KernelProgramming.Paging
