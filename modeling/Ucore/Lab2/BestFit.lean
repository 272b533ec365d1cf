/-
  `lab2/kern/mm/best_fit_pmm.c`: the best-fit page allocator.

  The descriptors, the free list and the lines that link, cut and merge blocks are those of
  `DefaultPmm`.  `nr_free + 1` is computed as an `unsigned int` before it is stored in `min_size`.

  * `best_fit_choice_iff`: the smallest block that is large enough is taken, unless `nr_free + 1`
    is 0;
  * `best_fit_free_iff`: freed pages join the list, in order and merged with what they touch, unless
    they go behind the last block (or `nr_free` overflows): then the walk links the block to itself.
-/
import Ucore.Mm.FirstFit

namespace Ucore

open Intrusive Extents

/-! ## The manager -/

/-- The search loop of `best_fit_alloc_pages`. -/
def bestFitWalk (s : Pmm) (n : ℕ) : ℕ → Le → Option ℕ → ℕ → Option (Option ℕ)
  | 0, _, _, _ => none
  | k + 1, le, page, minSize =>
    match listNext s.links le with
    | .freeList => some page
    | .pageLink p =>
      if pageProperty (s.page p) = true ∧ n ≤ (s.page p).property then
        if (s.page p).property < minSize then
          bestFitWalk s n k (.pageLink p) (some p) (s.page p).property
        else bestFitWalk s n k (.pageLink p) page minSize
      else bestFitWalk s n k (.pageLink p) page minSize

/-- The result is the page returned (`none` is `NULL`) and the new state. -/
def bestFitAllocPages (s : Pmm) (n : ℕ) : Option (Option ℕ × Pmm) :=
  if n = 0 then none
  else if s.nrFree < n then some (none, s)
  else do
    match ← bestFitWalk s n s.fuel .freeList none (u32 (s.nrFree + 1)) with
    | none => some (none, s)
    | some page => some (some page, takeBlock s page n)

def bestFitFreePages (s : Pmm) (base n : ℕ) : Option Pmm :=
  if n = 0 then none
  else do
    let s ← freeLoop base n s
    let s ← linkBase (makeBlock s base n) base
    let (s, base) := mergePrev s base
    some (mergeNext s base)

variable {s : Pmm} {M : Finset ℕ} {bs as cs : List Extent} {e : Extent} {base n : ℕ}

/-! ## The choice -/

/-- The walk finds the first of the smallest blocks that are large enough, and smaller than the one
    that it has. -/
theorem bestFitWalk_spec : ∀ (rest pre : List Extent) {k : ℕ} {o : Option ℕ} {m : ℕ},
    Circ s.links .freeList (nodes (pre ++ rest)) →
    (∀ e ∈ rest, (s.page e.start).property = e.len ∧ pageProperty (s.page e.start) = true) →
    rest.length < k →
      (∃ as e cs, rest = as ++ e :: cs ∧ n ≤ e.len ∧ e.len < m ∧
        (∀ a ∈ as, n ≤ a.len → e.len < a.len) ∧ (∀ c ∈ cs, n ≤ c.len → e.len ≤ c.len) ∧
        bestFitWalk s n k ((.freeList :: nodes pre).getLast (by simp)) o m =
          some (some e.start)) ∨
      (∀ e ∈ rest, n ≤ e.len → m ≤ e.len) ∧
        bestFitWalk s n k ((.freeList :: nodes pre).getLast (by simp)) o m = some o
  | [], pre, k + 1, page, m, hc, _, _ => by
    have hn : listNext s.links ((.freeList :: nodes pre).getLast (by simp)) = .freeList :=
      (Circ.cut (nodes pre) [] (by simpa using hc)).1
    exact .inr ⟨by simp, by simp [bestFitWalk, hn]⟩
  | r :: rest, pre, k + 1, page, m, hc, hp, hk => by
    have hn : listNext s.links ((.freeList :: nodes pre).getLast (by simp)) = .pageLink r.start :=
      (Circ.cut (nodes pre) (nodes (r :: rest)) (by simpa [nodes] using hc)).1
    obtain ⟨hr, hfr⟩ := hp r (by simp)
    have hlast : (Le.freeList :: nodes (pre ++ [r])).getLast (by simp) = .pageLink r.start := by
      simp [nodes]
    have ih := fun page m => bestFitWalk_spec rest (pre ++ [r]) (k := k) (o := page) (m := m)
      (by simpa using hc) (fun e he => hp e (by simp [he])) (by simpa using hk)
    simp only [hlast] at ih
    by_cases hrm : n ≤ r.len ∧ r.len < m
    · -- `r` is the best one so far
      have hw : bestFitWalk s n (k + 1) ((.freeList :: nodes pre).getLast (by simp)) page m =
          bestFitWalk s n k (.pageLink r.start) (some r.start) r.len := by
        simp [bestFitWalk, hn, hr, hfr, hrm.1, hrm.2]
      left
      obtain ⟨as, e, cs, rfl, hle, hlt, has, hcs, h⟩ | ⟨hall, h⟩ := ih (some r.start) r.len
      · refine ⟨r :: as, e, cs, rfl, hle, hlt.trans hrm.2, fun a ha ha' => ?_, hcs, hw.trans h⟩
        rcases List.mem_cons.1 ha with rfl | ha
        exacts [hlt, has a ha ha']
      · exact ⟨[], r, rest, rfl, hrm.1, hrm.2, by simp, hall, hw.trans h⟩
    · have hw : bestFitWalk s n (k + 1) ((.freeList :: nodes pre).getLast (by simp)) page m =
          bestFitWalk s n k (.pageLink r.start) page m := by
        by_cases hle : n ≤ r.len
        · have hge : ¬r.len < m := fun h => hrm ⟨hle, h⟩
          simp [bestFitWalk, hn, hr, hfr, hle, hge]
        · simp [bestFitWalk, hn, hr, hle]
      obtain ⟨as, e, cs, rfl, hle, hlt, has, hcs, h⟩ | ⟨hall, h⟩ := ih page m
      · refine .inl ⟨r :: as, e, cs, rfl, hle, hlt, fun a ha ha' => ?_, hcs, hw.trans h⟩
        rcases List.mem_cons.1 ha with rfl | ha
        exacts [hlt.trans_le (not_lt.1 fun h => hrm ⟨ha', h⟩), has a ha ha']
      · refine .inr ⟨fun x hx hx' => ?_, hw.trans h⟩
        rcases List.mem_cons.1 hx with rfl | hx
        exacts [not_lt.1 fun h => hrm ⟨hx', h⟩, hall x hx hx']

/-- The blocks are marked as free. -/
def MarkedFree (s : Pmm) (bs : List Extent) : Prop := ∀ e ∈ bs, pageProperty (s.page e.start) = true

instance (s : Pmm) (bs : List Extent) : Decidable (MarkedFree s bs) :=
  inferInstanceAs (Decidable (∀ e ∈ bs, pageProperty (s.page e.start) = true))

/-- `best_fit_alloc_pages` takes the pages from the smallest block that is large enough, the first
    one of that size, and changes nothing if there is none. -/
def BestFits (s : Pmm) (M : Finset ℕ) (bs : List Extent) (n : ℕ) : Prop :=
  ∃ page s', bestFitAllocPages s n = some (page, s') ∧ (page = none ↔ ∀ e ∈ bs, e.len < n) ∧
    (page = none → s' = s) ∧ ∀ p, page = some p → ∃ as e cs, bs = as ++ e :: cs ∧ p = e.start ∧
      n ≤ e.len ∧ (∀ a ∈ as, n ≤ a.len → e.len < a.len) ∧ (∀ c ∈ cs, n ≤ c.len → e.len ≤ c.len) ∧
      FreeBlocks s' M (as ++ (remainder e n ++ cs)) ∧ MarkedFree s' (as ++ (remainder e n ++ cs)) ∧
      s'.nrFree + n = s.nrFree

theorem FreeBlocks.len_le (r : FreeBlocks s M bs) (he : e ∈ bs) : e.len ≤ s.nrFree := by
  have := List.single_le_sum (l := bs.map Extent.len) (by simp) e.len (List.mem_map_of_mem he)
  rwa [r.nrFree]

/-- What is left of the block is marked. -/
theorem takeBlock_marked (r : FreeBlocks s M (as ++ e :: cs)) (hm : MarkedFree s (as ++ e :: cs))
    (h0 : 0 < n) : MarkedFree (takeBlock s e.start n) (as ++ (remainder e n ++ cs)) := by
  have hne := r.start_ne
  have hp := r.property e (by simp)
  intro x hx
  have hpage : (takeBlock s e.start n).page = if n < e.len then
      (((s.setProperty (e.start + n) (e.len - n)).modify (e.start + n) setPageProperty).modify
        e.start clearPageProperty).page else (s.modify e.start clearPageProperty).page := by
    simp only [takeBlock, hp]
    split <;> rfl
  have hold : x ∈ as ++ cs → x.start ≠ e.start ∧ pageProperty (s.page x.start) = true := fun hx =>
    ⟨hne x hx, hm x (by simp only [List.mem_append, List.mem_cons] at hx ⊢; tauto)⟩
  rw [hpage]
  unfold remainder at hx
  split at hx
  · rename_i hlt
    rw [if_pos hlt]
    by_cases hxn : x.start = e.start + n
    · simp [hxn, h0.ne']
    · have hx' : x ∈ as ++ cs := by
        simp only [List.mem_append, List.mem_cons, List.not_mem_nil, or_false] at hx ⊢
        rcases hx with hx | rfl | hx
        exacts [.inl hx, absurd rfl hxn, .inr hx]
      obtain ⟨h1, h2⟩ := hold hx'
      simp [h1, hxn, h2]
  · rename_i hlt
    rw [if_neg hlt]
    obtain ⟨h1, h2⟩ := hold (by simpa using hx)
    simp [h1, h2]

/-- **Best fit**: the choice is right if and only if `nr_free + 1` is not 0, or no block is large
    enough. -/
theorem best_fit_choice_iff (r : FreeBlocks s M bs) (hm : MarkedFree s bs) (hn : 0 < n) :
    BestFits s M bs n ↔ s.nrFree + 1 < 2 ^ 32 ∨ ∀ e ∈ bs, e.len < n := by
  have hnone : ∀ {s' : Pmm}, bestFitAllocPages s n = some (none, s') → s' = s →
      (∀ e ∈ bs, e.len < n) → BestFits s M bs n := fun h hs he =>
    ⟨none, _, h, ⟨fun _ => he, fun _ => rfl⟩, fun _ => hs, nofun⟩
  by_cases hfree : s.nrFree < n
  · have hall : ∀ e ∈ bs, e.len < n := fun e he => (r.len_le he).trans_lt hfree
    exact ⟨fun _ => .inr hall, fun _ => hnone (by simp [bestFitAllocPages, hn.ne', hfree]) rfl hall⟩
  · have hspec := bestFitWalk_spec (s := s) (n := n) bs [] (k := s.fuel) (o := none)
      (m := u32 (s.nrFree + 1)) (by simpa using r.ring) (fun e he => ⟨r.property e he, hm e he⟩)
      r.length_lt
    have hstart : (Le.freeList :: nodes []).getLast (by simp) = .freeList := rfl
    rw [hstart] at hspec
    obtain ⟨as, e, cs, rfl, hle, hlt, has, hcs, h⟩ | ⟨hall, h⟩ := hspec
    · have ha : bestFitAllocPages s n = some (some e.start, takeBlock s e.start n) := by
        simp [bestFitAllocPages, hn.ne', hfree, h]
      have hone : s.nrFree + 1 < 2 ^ 32 := by
        by_contra hge
        have := r.word
        rw [show s.nrFree + 1 = 2 ^ 32 by omega, u32, Nat.mod_self] at hlt
        exact absurd hlt (Nat.not_lt_zero _)
      refine ⟨fun _ => .inl hone, fun _ => ⟨_, _, ha, ⟨nofun, fun hs => ?_⟩, nofun, fun p hp => ?_⟩⟩
      · exact absurd (hs e (by simp)) (not_lt.2 hle)
      · cases hp
        exact ⟨as, e, cs, rfl, rfl, hle, has, hcs, takeBlock_spec r hn hle,
          takeBlock_marked r hm hn, takeBlock_nrFree r hn hle⟩
    · have ha : bestFitAllocPages s n = some (none, s) := by
        simp [bestFitAllocPages, hn.ne', hfree, h]
      constructor
      · rintro ⟨page, s', hs, hiff, -⟩
        rw [ha] at hs
        cases hs
        exact .inr (hiff.1 rfl)
      · rintro (hone | hsmall)
        · rw [u32_of_lt hone] at hall
          refine hnone ha rfl fun e he => not_le.1 fun hle => ?_
          have := hall e he hle
          have := r.len_le he
          omega
        · exact hnone ha rfl hsmall

/-- Eight pages; three blocks of them are free. -/
def threeBlocks : Pmm where
  npage := 8
  page p := if p = 0 then ⟨0, 2, 3⟩ else if p = 4 ∨ p = 6 then ⟨0, 2, 1⟩ else ⟨0, 0, 0⟩
  links := listAddBefore (listAddBefore (listAdd (listInit ⟨id, id⟩ .freeList) .freeList
    (.pageLink 0)) .freeList (.pageLink 4)) .freeList (.pageLink 6)
  nrFree := 5

theorem threeBlocks_blocks :
    FreeBlocks threeBlocks (Finset.range 8) [⟨0, 3⟩, ⟨4, 1⟩, ⟨6, 1⟩] where
  ring := ⟨⟨rfl, rfl, rfl, rfl, rfl, rfl, rfl, rfl⟩, by decide⟩
  property := by simp [threeBlocks]
  nrFree := rfl
  flags := by decide
  laid := ⟨by decide, by simp, by simp [threeBlocks, Extent.stop]⟩
  word := by decide

/-- One page: the first of the two blocks of one page is taken, not the first block. -/
theorem best_fit_choice_threeBlocks :
    BestFits threeBlocks (Finset.range 8) [⟨0, 3⟩, ⟨4, 1⟩, ⟨6, 1⟩] 1 ∧
      (bestFitAllocPages threeBlocks 1).map Prod.fst = some (some 4) :=
  ⟨(best_fit_choice_iff threeBlocks_blocks (by decide) (by decide)).2 (.inl (by decide)),
    by decide⟩

/-- A block of `2 ^ 32 - 1` pages. -/
def hugeBlock : Pmm where
  npage := 2 ^ 32
  page p := if p = 0 then ⟨0, 2, 2 ^ 32 - 1⟩ else ⟨0, 0, 0⟩
  links := listAdd (listInit ⟨id, id⟩ .freeList) .freeList (.pageLink 0)
  nrFree := 2 ^ 32 - 1

theorem hugeBlock_blocks : FreeBlocks hugeBlock {0} [⟨0, 2 ^ 32 - 1⟩] where
  ring := ⟨⟨rfl, rfl, rfl, rfl⟩, by decide⟩
  property := by simp [hugeBlock]
  nrFree := rfl
  flags := by decide
  laid := ⟨by decide, by simp, by simp [hugeBlock, Extent.stop]⟩
  word := by decide

/-- `min_size` is 0, and no page is given. -/
theorem best_fit_refuses_page : FreeBlocks hugeBlock {0} [⟨0, 2 ^ 32 - 1⟩] ∧
    MarkedFree hugeBlock [⟨0, 2 ^ 32 - 1⟩] ∧ ¬BestFits hugeBlock {0} [⟨0, 2 ^ 32 - 1⟩] 1 := by
  refine ⟨hugeBlock_blocks, by decide, ?_⟩
  rintro ⟨page, s', hs, hiff, -⟩
  have hwalk : bestFitWalk hugeBlock 1 (2 ^ 32 + 2) .freeList none 0 = some none := by
    rw [show 2 ^ 32 + 2 = 2 ^ 32 + 1 + 1 from rfl, bestFitWalk]
    exact bestFitWalk.eq_def hugeBlock 1 (2 ^ 32 + 1) (.pageLink 0) none 0
  have ha : bestFitAllocPages hugeBlock 1 = some (none, hugeBlock) := by
    have hu : u32 (hugeBlock.nrFree + 1) = 0 := rfl
    have hf : hugeBlock.fuel = 2 ^ 32 + 2 := rfl
    have hn : ¬hugeBlock.nrFree < 1 := by decide
    simp only [bestFitAllocPages, one_ne_zero, if_false, hn, hu, hf, hwalk, Option.bind_eq_bind,
      Option.bind_some]
  rw [ha] at hs
  cases hs
  exact absurd (hiff.1 rfl ⟨0, 2 ^ 32 - 1⟩ (by simp)) (by decide)

/-! ## Freeing -/

/-- The lines are those of `default_free_pages`. -/
theorem bestFitFreePages_eq : bestFitFreePages s base n = defaultFreePages s base n := rfl

/-- `best_fit_free_pages` puts the pages on the list, which is in order and merged as before. -/
def BestFrees (s : Pmm) (M : Finset ℕ) (bs : List Extent) (base n : ℕ) : Prop :=
  ∃ s' bs', bestFitFreePages s base n = some s' ∧ FreeBlocks s' M bs' ∧ Apart bs' ∧
    (∀ p, Covered bs' p ↔ (base ≤ p ∧ p < base + n) ∨ Covered bs p) ∧ s'.nrFree = s.nrFree + n

theorem linkBase_eq_some {s' : Pmm} (h : linkBase s base = some s') :
    ∃ L, s' = { s with links := L } ∧ (listEmpty s.links .freeList = false →
      insertWalk base s.fuel s.links .freeList = some L) := by
  unfold linkBase at h
  split at h
  · rename_i he
    cases h
    exact ⟨_, rfl, fun hf => by rw [hf] at he; cases he⟩
  · obtain ⟨L, hL, h⟩ := Option.bind_eq_some_iff.1 h
    cases h
    exact ⟨L, rfl, fun _ => hL⟩

/-- The steps of a call that returns. -/
theorem bestFitFreePages_eq_some {s' : Pmm} (hn : 0 < n)
    (hfl : ∀ q, base ≤ q → q < base + n →
      pageReserved (s.page q) = false ∧ pageProperty (s.page q) = false)
    (h : bestFitFreePages s base n = some s') :
    ∃ (t : Pmm) (L : Links Le), (t.page base).property = u32 n ∧
      (listEmpty s.links .freeList = false →
        insertWalk base t.fuel s.links .freeList = some L) ∧
      s' = mergeNext (mergePrev { t with links := L } base).1
        (mergePrev { t with links := L } base).2 := by
  simp only [bestFitFreePages, hn.ne', if_false, freeLoop_spec hfl, Option.bind_eq_bind,
    Option.bind_some] at h
  obtain ⟨u, hu, h⟩ := Option.bind_eq_some_iff.1 h
  obtain ⟨L, rfl, hL⟩ := linkBase_eq_some hu
  cases h
  exact ⟨_, L, by simp [makeBlock], hL, rfl⟩

/-- A block that goes behind the last one is linked to itself. -/
theorem insertWalk_tail {L L' : Links Le} : ∀ (rest pre : List Extent) {k : ℕ},
    Circ L .freeList (nodes (pre ++ rest)) → rest ≠ [] → (∀ a ∈ rest, a.start < base) →
    insertWalk base k L ((.freeList :: nodes pre).getLast (by simp)) = some L' →
      L'.prev .freeList = .pageLink base ∧ L'.next (.pageLink base) = .freeList ∧
        L'.prev (.pageLink base) = .pageLink base
  | [], _, _, _, h, _, _ => absurd rfl h
  | _ :: _, _, 0, _, _, _, h => by cases h
  | r :: rest, pre, k + 1, hc, _, hlt, h => by
    have hn : listNext L ((.freeList :: nodes pre).getLast (by simp)) = .pageLink r.start :=
      (Circ.cut (nodes pre) (nodes (r :: rest)) (by simpa [nodes] using hc)).1
    have hr := hlt r (by simp)
    have hn' : listNext L (.pageLink r.start) = (nodes rest ++ [Le.freeList]).head (by simp) :=
      Circ.next_mid (by simpa [nodes] using hc)
    rw [insertWalk, hn] at h
    simp only [if_neg (Nat.lt_asymm hr)] at h
    cases rest with
    | nil =>
      -- the new node is passed as well, and linked once more
      have hne : Le.pageLink r.start ≠ .pageLink base := by simpa using hr.ne
      have hn' : listNext L (.pageLink r.start) = .freeList := hn'
      rw [if_pos hn'] at h
      rcases k with _ | k
      · cases h
      · have h1 : listNext (listAdd L (.pageLink r.start) (.pageLink base)) (.pageLink r.start) =
            .pageLink base := by
          simp [listNext, listAdd, listAddAfter, listAddBetween, hne]
        have h2 : listNext (listAdd L (.pageLink r.start) (.pageLink base)) (.pageLink base) =
            .freeList := by
          simpa [listNext, listAdd, listAddAfter, listAddBetween] using hn'
        rw [insertWalk, h1] at h
        simp only [lt_irrefl, if_false, if_pos h2] at h
        rcases k with _ | k
        · cases h
        · have h3 : listNext (listAdd (listAdd L (.pageLink r.start) (.pageLink base))
              (.pageLink base) (.pageLink base)) (.pageLink base) = .freeList := by
            rw [listNext] at h2
            simp [listNext, listAdd, listAddAfter, listAddBetween] at h2 ⊢
            exact h2
          rw [insertWalk, h3] at h
          cases h
          refine ⟨?_, h3, ?_⟩
          · rw [listNext] at h2
            rw [listAdd, listAddAfter, h2]
            simp [listAddBetween]
          · simp [listAdd, listAddAfter, listAddBetween]
    | cons c cs =>
      rw [if_neg (by rw [hn']; simp [nodes])] at h
      have hlast : (Le.freeList :: nodes (pre ++ [r])).getLast (by simp) = .pageLink r.start := by
        simp [nodes]
      refine insertWalk_tail (c :: cs) (pre ++ [r]) (k := k) (by simpa using hc) (by simp)
        (fun a ha => hlt a (by simp [ha])) ?_
      rw [hlast]
      exact h

/-- The list is not a ring then. -/
theorem not_circ_of_self {L : Links Le} {xs : List Le} (h1 : L.prev .freeList = .pageLink base)
    (h2 : L.next (.pageLink base) = .freeList) (h3 : L.prev (.pageLink base) = .pageLink base) :
    ¬Circ L .freeList xs := fun hc => by
  have hmem : Le.pageLink base ∈ Le.freeList :: xs := h1 ▸ hc.prev_mem List.mem_cons_self
  have := hc.next_prev hmem
  rw [h3, h2] at this
  cases this

/-- A list whose last block is not above `base` has blocks, all of them below `base`. -/
theorem FreeBlocks.below_of_not_tailSafe (r : FreeBlocks s M bs) (ht : ¬TailSafe s base)
    (hd : ¬Covered bs base) : bs ≠ [] ∧ ∀ a ∈ bs, a.start < base := by
  obtain rfl | ⟨as, a, rfl⟩ := List.eq_nil_or_concat' bs
  · have hp : listPrev s.links .freeList = .freeList := r.ring.prev_head
    exact absurd (by rw [TailSafe, hp]; trivial) ht
  · have hp : listPrev s.links .freeList = .pageLink a.start := by
      rw [listPrev, r.ring.prev_head]
      simp [nodes]
    have hle : a.start ≤ base := by
      rw [TailSafe, hp] at ht
      exact not_lt.1 ht
    have hne : a.start ≠ base := fun e => hd ⟨a, by simp, e.le, by
      have := r.laid.pos a (by simp)
      simp only [Extent.stop]; omega⟩
    refine ⟨by simp, fun x hx => ?_⟩
    rcases List.mem_append.1 hx with hx | hx
    · have h1 := r.laid.below x hx
      have h2 := r.laid.pos x (by simp [hx])
      simp only [Extent.stop] at h1; omega
    · rw [List.mem_singleton] at hx
      rw [hx]
      omega

/-- **Freed pages** join the list if and only if they do not go behind its last block, and `nr_free`
    has room for them. -/
theorem best_fit_free_iff (r : FreeBlocks s M bs) (ha : Apart bs) (hn : 0 < n)
    (hb : base + n ≤ s.npage) (hm : ∀ q, base ≤ q → q < base + n → q ∈ M)
    (hd : ∀ q, base ≤ q → q < base + n → ¬Covered bs q) :
    BestFrees s M bs base n ↔ TailSafe s base ∧ s.nrFree + n < 2 ^ 32 := by
  constructor
  · rintro ⟨s', bs', hs', r', -, -, hf⟩
    obtain ⟨t, L, htp, hL, rfl⟩ := bestFitFreePages_eq_some hn (r.in_use hm hd) hs'
    have hw : s.nrFree + n < 2 ^ 32 := by
      have := r'.word
      omega
    refine ⟨by_contra fun ht => ?_, hw⟩
    obtain ⟨hne, hlt⟩ := r.below_of_not_tailSafe ht (hd base le_rfl (by omega))
    have hem : listEmpty s.links .freeList = false := by
      rw [← Bool.not_eq_true, listEmpty_iff r.ring]
      simpa using hne
    obtain ⟨h1, h2, h3⟩ := insertWalk_tail bs [] (by simpa using r.ring) hne hlt (hL hem)
    -- the block does not touch itself, and nothing is behind it
    have hprev : mergePrev { t with links := L } base = ({ t with links := L }, base) := by
      have hp : listPrev L (.pageLink base) = .pageLink base := h3
      have hne : ¬base + (t.page base).property = base := by
        rw [htp, u32_of_lt (by omega)]
        omega
      simp only [mergePrev, hp, if_neg hne]
    have hnext : mergeNext { t with links := L } base = { t with links := L } := by
      have hp : listNext L (.pageLink base) = .freeList := h2
      simp only [mergeNext, hp]
    have hring := r'.ring
    rw [hprev, hnext] at hring
    exact not_circ_of_self h1 h2 h3 hring
  · rintro ⟨ht, hw⟩
    obtain ⟨s', bs', hs', -, r', hf, ha', hc⟩ := r.free hn hb hm hd ht hw
    exact ⟨s', bs', hs', r', ha' ha, hc, hf⟩

/-- The page between two blocks is freed. -/
theorem best_fit_free_between :
    BestFrees threeBlocks (Finset.range 8) [⟨0, 3⟩, ⟨4, 1⟩, ⟨6, 1⟩] 3 1 :=
  (best_fit_free_iff threeBlocks_blocks (by decide) (by decide) (by decide)
    (fun q h1 h2 => by rw [Finset.mem_range]; omega)
    fun q h1 h2 => by
      obtain rfl : q = 3 := by omega
      decide).2 (by decide)

/-- The page behind the last block is freed: its `prev` is itself then. -/
theorem best_fit_free_tail : FreeBlocks threeBlocks (Finset.range 8) [⟨0, 3⟩, ⟨4, 1⟩, ⟨6, 1⟩] ∧
    (∀ q, 7 ≤ q → q < 8 → ¬Covered [⟨0, 3⟩, ⟨4, 1⟩, ⟨6, 1⟩] q) ∧
    ¬BestFrees threeBlocks (Finset.range 8) [⟨0, 3⟩, ⟨4, 1⟩, ⟨6, 1⟩] 7 1 := by
  refine ⟨threeBlocks_blocks, fun q h1 h2 => ?_, ?_⟩
  · obtain rfl : q = 7 := by omega
    decide
  · rintro ⟨s', bs', hs', r', -⟩
    have h : (bestFitFreePages threeBlocks 7 1).map (fun s => (s.links.prev .freeList,
        s.links.next (.pageLink 7), s.links.prev (.pageLink 7))) =
          some (.pageLink 7, .freeList, .pageLink 7) := by decide
    rw [hs'] at h
    simp only [Option.map_some, Option.some.injEq, Prod.mk.injEq] at h
    exact not_circ_of_self h.1 h.2.1 h.2.2 r'.ring

end Ucore
