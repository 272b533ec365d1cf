/-
  Runs of the page allocator.

  `Heap` is the allocator together with what its callers know: the pages handed to
  `default_init_memmap` and the pages in use.  `Heap.Inv.step` says what one call does,
  `Heap.firstFit_sound` what holds on every run.

  The insertion walk does not stop after linking a block behind the last one, and then links the
  block to itself.  `firstFit_sound` is about the runs that never insert behind the last block;
  `free_tail_hands_out_twice` is a run that does.
-/
import Ucore.Mm.FirstFit
import Ucore.Lib.Machine

namespace Ucore

open Intrusive Extents

/-- The allocator, the pages handed to `default_init_memmap` and the pages in use. -/
structure Heap where
  pmm : Pmm
  managed : Finset ℕ
  allocated : Finset ℕ

inductive MmOp where
  | initMemmap (base n : ℕ)
  | allocPages (n : ℕ)
  | freePages (base n : ℕ)

namespace Heap

/-- After `default_init`. -/
def start (s : Pmm) : Heap := ⟨defaultInit s, ∅, ∅⟩

def step (w : Heap) : MmOp → Option Heap
  | .initMemmap base n => do
    let s ← defaultInitMemmap w.pmm base n
    some { w with pmm := s, managed := w.managed ∪ Finset.Ico base (base + n) }
  | .allocPages n => do
    match ← defaultAllocPages w.pmm n with
    | (none, s) => some { w with pmm := s }
    | (some p, s) => some { w with pmm := s, allocated := w.allocated ∪ Finset.Ico p (p + n) }
  | .freePages base n => do
    let s ← defaultFreePages w.pmm base n
    some { w with pmm := s, allocated := w.allocated \ Finset.Ico base (base + n) }

/-- What the callers keep to: fresh reserved pages are added, allocated pages are freed. -/
def Legal (w : Heap) : MmOp → Prop
  | .initMemmap base n => 0 < n ∧ base + n ≤ w.pmm.npage ∧
      ∀ q ∈ Finset.Ico base (base + n), q ∉ w.managed ∧ pageReserved (w.pmm.page q) = true
  | .allocPages n => 0 < n
  | .freePages base n => 0 < n ∧ ∀ q ∈ Finset.Ico base (base + n), q ∈ w.allocated

/-- No new block goes behind the last block of a non-empty free list. -/
def TailSafeAt (w : Heap) : MmOp → Prop
  | .initMemmap base _ | .freePages base _ => TailSafe w.pmm base
  | .allocPages _ => True

instance (w : Heap) : ∀ op, Decidable (w.Legal op)
  | .initMemmap _ _ => inferInstanceAs (Decidable (_ ∧ _ ∧ _))
  | .allocPages _ => inferInstanceAs (Decidable (_ < _))
  | .freePages _ _ => inferInstanceAs (Decidable (_ ∧ _))

instance (w : Heap) : ∀ op, Decidable (w.TailSafeAt op)
  | .initMemmap base _ | .freePages base _ => inferInstanceAs (Decidable (TailSafe w.pmm base))
  | .allocPages _ => inferInstanceAs (Decidable True)

/-- The state of the allocator is sound: a well-formed list of increasing blocks, `nr_free` their
    total size, and every managed page either in use or in exactly one block. -/
def Sound (w : Heap) : Prop :=
  ∃ bs : List Extent,
    Circ w.pmm.links .freeList (nodes bs) ∧
    (∀ x ∈ Le.freeList :: nodes bs, listNext w.pmm.links (listPrev w.pmm.links x) = x ∧
      listPrev w.pmm.links (listNext w.pmm.links x) = x) ∧
    (∀ e ∈ bs, 0 < e.len ∧ (w.pmm.page e.start).property = e.len) ∧
    bs.Pairwise (fun a b => a.stop ≤ b.start) ∧
    w.pmm.nrFree = (bs.map fun e => (w.pmm.page e.start).property).sum ∧
    w.allocated ⊆ w.managed ∧
    ∀ p ∈ w.managed, (p ∈ w.allocated ∧ ¬ Covered bs p) ∨
      (p ∉ w.allocated ∧ ∃! e, e ∈ bs ∧ e.Has p)

/-- What every step keeps: the free list represents the managed pages that are not in use. -/
def Inv (w : Heap) : Prop :=
  ∃ bs, Repr w.pmm w.managed bs ∧ w.allocated ⊆ w.managed ∧
    (∀ p ∈ w.managed, p < w.pmm.npage) ∧
    ∀ p, Covered bs p ↔ p ∈ w.managed ∧ p ∉ w.allocated

variable {w w' : Heap} {op : MmOp}

theorem Inv.sound (h : w.Inv) : w.Sound := by
  obtain ⟨bs, r, hsub, -, hcov⟩ := h
  refine ⟨bs, r.ring, fun x hx => ⟨r.ring.next_prev hx, r.ring.prev_next hx⟩,
    fun e he => ⟨r.laid.pos e he, r.property e he⟩, r.laid.ordered, ?_, hsub, fun p hp => ?_⟩
  · rw [r.nrFree, List.map_congr_left fun e he => (r.property e he)]
  · by_cases ha : p ∈ w.allocated
    · exact Or.inl ⟨ha, fun hc => ((hcov p).1 hc).2 ha⟩
    · obtain ⟨e, he, hpe⟩ := (hcov p).2 ⟨hp, ha⟩
      exact Or.inr ⟨ha, e, ⟨he, hpe⟩, fun x hx => r.laid.unique hx.1 he hx.2 hpe⟩

theorem inv_start {s : Pmm} (hs : s.npage < 2 ^ 32) : (start s).Inv := by
  refine ⟨[], ⟨circ_listInit _ _, by simp, rfl, by simp [start], laid_nil _, hs⟩, by simp [start],
    by simp [start], fun p => by simp [Covered, start]⟩

/-- The pages that `op` hands out in `w`. -/
def handedOut (w : Heap) : MmOp → Finset ℕ
  | .allocPages n =>
    match defaultAllocPages w.pmm n with
    | some (some p, _) => Finset.Ico p (p + n)
    | _ => ∅
  | _ => ∅

/-- **One step.** A legal step that does not insert behind the last block succeeds, keeps the
    invariant and hands out managed pages that were not in use. -/
theorem Inv.step (h : w.Inv) (hl : w.Legal op) (ht : w.TailSafeAt op) :
    ∃ w', w.step op = some w' ∧ w'.Inv ∧ w.handedOut op ⊆ w.managed ∧
      Disjoint (w.handedOut op) w.allocated := by
  obtain ⟨bs, r, hsub, hlt, hcov⟩ := h
  cases op with
  | initMemmap base n =>
    obtain ⟨hn, hb, hfresh⟩ := hl
    simp only [Finset.mem_Ico, and_imp] at hfresh
    obtain ⟨s', bs', hs', hnp, r', hc⟩ := defaultInitMemmap_spec r hn hb
      (fun q h1 h2 => (hfresh q h1 h2).2)
        (fun q h1 h2 hq => (hfresh q h1 h2).1 ((hcov q).1 hq).1) ht
    refine ⟨_, by simp only [Heap.step, hs', Option.bind_eq_bind, Option.bind_some]; rfl, ?_,
      by simp [handedOut], by simp [handedOut]⟩
    refine ⟨bs', r', fun p hp => by simp [hsub hp], fun p hp => ?_, fun p => ?_⟩
    · simp only [Finset.mem_union, Finset.mem_Ico] at hp
      rcases hp with hp | hp
      · simpa [hnp] using hlt p hp
      · simp only [hnp]; omega
    · simp only [hc, hcov, Finset.mem_union, Finset.mem_Ico]
      constructor
      · rintro (⟨h1, h2⟩ | ⟨h1, h2⟩)
        exacts [⟨Or.inr ⟨h1, h2⟩, fun ha => (hfresh p h1 h2).1 (hsub ha)⟩, ⟨Or.inl h1, h2⟩]
      · rintro ⟨h1 | h1, h2⟩
        exacts [Or.inr ⟨h1, h2⟩, Or.inl h1]
  | allocPages n =>
    rcases defaultAllocPages_spec r.blocks hl with ⟨ha, -⟩ | ⟨as, e, cs, rfl, hle, -, ha, r'⟩
    · refine ⟨w, by simp [Heap.step, ha], ⟨bs, r, hsub, hlt, hcov⟩, by simp [handedOut, ha],
        by simp [handedOut, ha]⟩
    · have hin : ∀ q, e.start ≤ q ∧ q < e.start + n → q ∈ w.managed ∧ q ∉ w.allocated :=
        fun q hq => (hcov q).1 ⟨e, by simp, hq.1, by simp only [Extent.stop]; omega⟩
      refine
        ⟨_, by simp only [Heap.step, ha, Option.bind_eq_bind, Option.bind_some]; rfl, ?_, ?_, ?_⟩
      · refine
          ⟨_, r'.repr (by simpa using r.small), fun p hp => ?_, by simpa using hlt, fun p => ?_⟩
        · simp only [Finset.mem_union, Finset.mem_Ico] at hp
          rcases hp with hp | hp
          exacts [hsub hp, (hin p hp).1]
        · rw [covered_remainder r.laid hle, hcov]
          simp only [Finset.mem_union, Finset.mem_Ico]; tauto
      · intro q hq
        simp only [handedOut, ha, Finset.mem_Ico] at hq
        exact (hin q hq).1
      · rw [Finset.disjoint_left]
        intro q hq
        simp only [handedOut, ha, Finset.mem_Ico] at hq
        exact (hin q hq).2
  | freePages base n =>
    obtain ⟨hn, hused⟩ := hl
    simp only [Finset.mem_Ico, and_imp] at hused
    have hb : base + n ≤ w.pmm.npage := by
      have := hlt (base + n - 1) (hsub (hused _ (by omega) (by omega)))
      omega
    obtain ⟨s', bs', hs', hnp, r', hc⟩ := defaultFreePages_spec r hn hb
      (fun q h1 h2 => hsub (hused q h1 h2)) (fun q h1 h2 hq => ((hcov q).1 hq).2 (hused q h1 h2)) ht
    refine ⟨_, by simp only [Heap.step, hs', Option.bind_eq_bind, Option.bind_some]; rfl, ?_,
      by simp [handedOut], by simp [handedOut]⟩
    refine ⟨bs', r', fun p hp => hsub (Finset.mem_sdiff.1 hp).1, fun p hp => by
      simpa [hnp] using hlt p hp, fun p => ?_⟩
    simp only [hc, hcov, Finset.mem_sdiff, Finset.mem_Ico]
    constructor
    · rintro (⟨h1, h2⟩ | ⟨h1, h2⟩)
      exacts [⟨hsub (hused p h1 h2), fun ha => ha.2 ⟨h1, h2⟩⟩, ⟨h1, fun ha => h2 ha.1⟩]
    · rintro ⟨h1, h2⟩
      by_cases hp : base ≤ p ∧ p < base + n
      exacts [Or.inl hp, Or.inr ⟨h1, fun ha => h2 ⟨ha, hp⟩⟩]

/-- The allocator from `default_init` on, taking legal steps that meet `P`. -/
def machine (P : Heap → MmOp → Prop) : Machine Heap MmOp where
  Init w := ∃ s : Pmm, s.npage < 2 ^ 32 ∧ w = start s
  Legal w op := w.Legal op ∧ P w op
  step := step

theorem reach_inv (h : (machine TailSafeAt).Reach w) : w.Inv := by
  refine h.invariant (fun w hw => ?_) fun w op hi hl => ?_
  · obtain ⟨s, hs, rfl⟩ := hw
    exact inv_start hs
  · obtain ⟨w', hw', hi', -⟩ := hi.step hl.1 hl.2
    exact ⟨w', hw', hi'⟩

/-- **The allocator is sound on every run** whose insertions all find the free list empty or a
    block above the new one: every state reached is sound, no further legal step fails, and no page
    is handed out while it is in use. -/
theorem firstFit_sound (h : (machine TailSafeAt).Reach w) :
    w.Sound ∧ ∀ op, w.Legal op → w.TailSafeAt op →
      (∃ w', w.step op = some w') ∧ Disjoint (w.handedOut op) w.allocated := by
  have hi := reach_inv h
  refine ⟨hi.sound, fun op hl ht => ?_⟩
  obtain ⟨w', hw', -, -, hd⟩ := hi.step hl ht
  exact ⟨⟨w', hw'⟩, hd⟩

/-! ## Two runs -/

instance (P : Heap → MmOp → Prop) [∀ w op, Decidable (P w op)] (w : Heap) (op : MmOp) :
    Decidable ((machine P).Legal w op) := inferInstanceAs (Decidable (_ ∧ _))

/-- Four reserved pages, before `default_init`. -/
def fourPages : Pmm := ⟨4, fun _ => ⟨0, 1, 0⟩, ⟨id, id⟩, 0⟩

theorem reach_fourPages (P : Heap → MmOp → Prop) : (machine P).Reach (start fourPages) :=
  .init ⟨fourPages, by decide, rfl⟩

/-- The block freed last goes below the free one and is merged with it. -/
theorem firstFit_sound_fourPages : ∃ w, (machine TailSafeAt).Reach w ∧ w.allocated = {1} ∧
    w.Sound ∧ ∀ op, w.Legal op → w.TailSafeAt op →
      (∃ w', w.step op = some w') ∧ Disjoint (w.handedOut op) w.allocated := by
  have h : ∃ w, (machine TailSafeAt).run (start fourPages)
      [.initMemmap 0 4, .allocPages 1, .allocPages 1, .freePages 0 1] = some w ∧
        w.allocated = {1} := ⟨_, rfl, by decide +kernel⟩
  obtain ⟨w, hw, ha⟩ := h
  have hr := (reach_fourPages TailSafeAt).run hw
  exact ⟨w, hr, ha, firstFit_sound hr⟩

/-- The second call of `default_free_pages` inserts behind the last block. -/
def tailOps : List MmOp :=
  [.initMemmap 0 4, .allocPages 1, .allocPages 3, .freePages 0 1, .freePages 1 3, .allocPages 2]

/-- **A page in use is handed out again** after an insertion behind the last block. -/
theorem free_tail_hands_out_twice :
    ∃ w, (machine fun _ _ => True).Reach w ∧ w.Legal (.allocPages 2) ∧
      ¬ Disjoint (w.handedOut (.allocPages 2)) w.allocated := by
  have h : ∃ w, (machine fun _ _ => True).run (start fourPages) tailOps = some w ∧
      w.handedOut (.allocPages 2) = {1, 2} ∧ w.allocated = {1, 2} :=
    ⟨_, rfl, by decide +kernel, by decide +kernel⟩
  obtain ⟨w, hw, hh, ha⟩ := h
  exact ⟨w, (reach_fourPages _).run hw, Nat.two_pos, by rw [hh, ha]; decide⟩

end Heap

end Ucore
