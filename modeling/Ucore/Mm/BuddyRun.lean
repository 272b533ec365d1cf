/-
  Runs of the buddy allocator.

  `BuddySys` is the allocator, the live blocks with the sizes that were asked for, and the blocks
  that `buddy_init_memmap` has cut its ranges into (`cut`).  `get_buddy_page` indexes `pages` with
  an absolute page number: `Careful` steps are those that do not suffer from it, and `Exact` ones
  split no block.

  * `BuddySys.Inv.step`: a careful step succeeds and keeps the blocks apart;
  * `BuddySys.buddy_safe`: what careful steps lead to;
  * `BuddySys.buddy_coalesces`: once everything is free, the free blocks are those of the start.
-/
import Ucore.Lib.Machine
import Ucore.Mm.BuddyInv

namespace Ucore

open Intrusive Buddy

structure BuddySys where
  pmm : Buddy
  live : ℕ → Option ℕ
  cut : List (ℕ × ℕ)

inductive BuddyOp where
  | initMemmap (base n : ℕ)
  | alloc (n : ℕ)
  | free (base : ℕ)

namespace BuddySys

def step (s : BuddySys) : BuddyOp → Option BuddySys
  | .initMemmap base n => do
    let pmm ← buddyInitMemmap n base n
      { s.pmm with managed := s.pmm.managed ∪ Finset.Ico base (base + n) }
    some { s with pmm := pmm, cut := s.cut ++ initBlocks n base n }
  | .alloc n => do
    let (page, pmm) ← s.pmm.buddyAllocPages n
    match page with
    | some p => some { s with pmm := pmm, live := Function.update s.live p (some n) }
    | none => some { s with pmm := pmm }
  | .free base => do
    let n ← s.live base
    let pmm ← s.pmm.buddyFreePages base n
    some { s with pmm := pmm, live := Function.update s.live base none }

/-- Ranges of descriptors that are not managed yet, requests for pages, and live blocks. -/
def Legal (s : BuddySys) : BuddyOp → Prop
  | .initMemmap base n => 0 < n ∧ base + n ≤ s.pmm.npage - nbase ∧
      Disjoint s.pmm.managed (Finset.Ico base (base + n))
  | .alloc n => 0 < n ∧ n < 2 ^ 64
  | .free base => s.live base ≠ none

/-- A range is cut into orders that there are, fewer than `2 ^ 32` pages are managed, an order is
    found for a request, and a block that is freed does not find a buddy. -/
def Careful (s : BuddySys) : BuddyOp → Prop
  | .initMemmap base n => (∀ b ∈ initBlocks n base n, b.2 < maxOrder) ∧
      s.pmm.managed.card + n < 2 ^ 32
  | .alloc n => n ≤ 2 ^ 63
  | .free base => ∀ n ∈ s.live base, ∀ k ∈ Buddy.orderOf n, s.pmm.NoBuddy base k

/-- A request finds a block of its own order, or nothing. -/
def Exact (s : BuddySys) : BuddyOp → Prop
  | .alloc n => ∀ k ∈ Buddy.orderOf n,
      (k < maxOrder ∧ listEmpty s.pmm.links (.freeList k) = false) ∨
        ∀ j < maxOrder, k ≤ j → listEmpty s.pmm.links (.freeList j) = true
  | _ => True

/-- A live block, and its order. -/
def Live (s : BuddySys) (a k : ℕ) : Prop := ∃ n, s.live a = some n ∧ Buddy.orderOf n = some k

structure Inv (s : BuddySys) (K : ℕ → Option (ℕ × Bool)) : Prop where
  repr : Repr s.pmm K s.pmm.managed
  live : ∀ a k, K a = some (k, false) ↔ s.Live a k
  size : ∀ a n, s.live a = some n → 0 < n ∧ ∃ k, Buddy.orderOf n = some k ∧ n ≤ 2 ^ k

/-- The blocks are those that the ranges were cut into. -/
def Uncut (s : BuddySys) (K : ℕ → Option (ℕ × Bool)) : Prop :=
  ∀ a k, (∃ f, K a = some (k, f)) ↔ (a, k) ∈ s.cut

variable {s s₀ : BuddySys} {K : ℕ → Option (ℕ × Bool)} {a k n base : ℕ} {op : BuddyOp}

/-- What a step comes to. -/
def Steps (s : BuddySys) (K : ℕ → Option (ℕ × Bool)) (op : BuddyOp) : Prop :=
  ∃ s' K', s.step op = some s' ∧ s'.Inv K' ∧ (s.Exact op → s.Uncut K → s'.Uncut K')

theorem Inv.initMemmap (h : s.Inv K) (hl : s.Legal (.initMemmap base n))
    (hc : s.Careful (.initMemmap base n)) : s.Steps K (.initMemmap base n) := by
  obtain ⟨h0, -, hd⟩ := hl
  obtain ⟨ho, hcard⟩ := hc
  have r : Repr { s.pmm with managed := s.pmm.managed ∪ Finset.Ico base (base + n) } K
      s.pmm.managed := by
    refine ⟨h.repr.lists, h.repr.order, h.repr.lt, h.repr.apart, h.repr.covered,
      Finset.subset_union_left, ?_⟩
    have h1 := Finset.card_union_le s.pmm.managed (Finset.Ico base (base + n))
    rw [Nat.card_Ico] at h1
    show (s.pmm.managed ∪ Finset.Ico base (base + n)).card < 2 ^ 32
    omega
  obtain ⟨pmm, K', hs, hsame, r', hlive, hfree⟩ := buddyInitMemmap_spec r h0 le_rfl
    (fun p h1 h2 => ⟨fun hm => Finset.disjoint_left.1 hd hm (Finset.mem_Ico.2 ⟨h1, h2⟩),
      Finset.mem_union_right _ (Finset.mem_Ico.2 ⟨h1, h2⟩)⟩) ho
  refine ⟨{ s with pmm := pmm, cut := s.cut ++ initBlocks n base n }, K', ?_, ⟨?_, fun a k => ?_,
    h.size⟩, fun _ hu a k => ?_⟩
  · simp only [step, hs, Option.bind_eq_bind, Option.bind_some]
  · show Repr pmm K' pmm.managed
    rw [hsame.2]; exact r'
  · exact (hlive a k).trans (h.live a k)
  · show _ ↔ (a, k) ∈ s.cut ++ initBlocks n base n
    rw [List.mem_append, ← hu a k]
    constructor
    · rintro ⟨f, hf⟩
      cases f with
      | false => exact Or.inl ⟨false, (hlive a k).1 hf⟩
      | true => exact ((hfree a k).1 hf).imp_left fun h => ⟨true, h⟩
    · rintro (⟨f, hf⟩ | hm)
      · cases f with
        | false => exact ⟨false, (hlive a k).2 hf⟩
        | true => exact ⟨true, (hfree a k).2 (Or.inl hf)⟩
      · exact ⟨true, (hfree a k).2 (Or.inr hm)⟩

theorem Inv.alloc (h : s.Inv K) (hl : s.Legal (.alloc n)) (hc : s.Careful (.alloc n)) :
    s.Steps K (.alloc n) := by
  obtain ⟨h0, -⟩ := hl
  obtain ⟨k, hk, hle⟩ := orderOf_spec hc
  rcases buddyAllocPages_spec h.repr h0 hk with ⟨-, hs⟩ |
    ⟨c, p, pmm, K', hf, hp, hs, hsame, r', hp', hlive, hexact⟩
  · exact ⟨s, K, by simp only [step, hs, Option.bind_eq_bind, Option.bind_some], h,
      fun _ hu => hu⟩
  · have hnone : s.live p = none := by
      cases hlp : s.live p with
      | none => rfl
      | some m =>
        obtain ⟨-, j, hj, -⟩ := h.size p m hlp
        have := (h.live p j).2 ⟨m, hlp, hj⟩
        rw [hp] at this; cases this
    refine ⟨{ s with pmm := pmm, live := Function.update s.live p (some n) }, K', ?_,
      ⟨?_, fun a j => ?_, fun a m ha => ?_⟩, fun he hu a j => ?_⟩
    · simp only [step, hs, Option.bind_eq_bind, Option.bind_some]
    · show Repr pmm K' pmm.managed
      rw [hsame.2]; exact r'
    · by_cases hap : a = p
      · subst hap
        simp [Live, hp', hk]
      · rw [hlive a j hap, h.live]
        simp [Live, Function.update_of_ne hap]
    · by_cases hap : a = p
      · subst hap
        obtain rfl : n = m := by simpa using ha
        exact ⟨h0, k, hk, hle⟩
      · exact h.size a m (by simpa [Function.update_of_ne hap] using ha)
    · have hck : c = k := by
        obtain ⟨g1, g2, g3⟩ := findFree_some hf
        rcases he k hk with ⟨e1, e2⟩ | e
        · have : s.pmm.findFree maxOrder k = some k := by
            show s.pmm.findFree (19 + 1) k = _
            simp [findFree, e1, e2]
          rw [hf] at this
          exact Option.some.inj this
        · rw [e c g2 g1] at g3; cases g3
      subst hck
      rw [hexact rfl]
      refine Iff.trans ?_ (hu a j)
      by_cases hap : a = p
      · subst hap; simp [hp, eq_comm]
      · simp only [Function.update_of_ne hap]

theorem Inv.free (h : s.Inv K) (hl : s.Legal (.free base)) (hc : s.Careful (.free base)) :
    s.Steps K (.free base) := by
  obtain ⟨n, hn⟩ := Option.ne_none_iff_exists'.1 hl
  obtain ⟨h0, k, hk, -⟩ := h.size base n hn
  have hK := (h.live base k).2 ⟨n, hn, hk⟩
  obtain ⟨pmm, hs, hsame, r'⟩ := buddyFreePages_spec h.repr h0 hk hK (hc n hn k hk)
  refine ⟨{ s with pmm := pmm, live := Function.update s.live base none },
    Function.update K base (some (k, true)), ?_, ⟨?_, fun a j => ?_, fun a m ha => ?_⟩,
    fun _ hu a j => Iff.trans ?_ (hu a j)⟩
  · simp only [step, hn, hs, Option.bind_eq_bind, Option.bind_some]
  · show Repr pmm _ pmm.managed
    rw [hsame.2]; exact r'
  · by_cases hab : a = base
    · subst hab; simp [Live]
    · rw [Function.update_of_ne hab, h.live]
      simp [Live, Function.update_of_ne hab]
  · have hab : a ≠ base := by
      rintro rfl
      simp at ha
    exact h.size a m (by simpa [Function.update_of_ne hab] using ha)
  · by_cases hab : a = base
    · subst hab; simp [hK, eq_comm]
    · simp only [Function.update_of_ne hab]

/-- **One step.** -/
theorem Inv.step (h : s.Inv K) (hl : s.Legal op) (hc : s.Careful op) : s.Steps K op := by
  cases op with
  | initMemmap base n => exact h.initMemmap hl hc
  | alloc n => exact h.alloc hl hc
  | free base => exact h.free hl hc

/-! ## Runs -/

/-- After `buddy_init`. -/
def Init (s : BuddySys) : Prop :=
  (∃ npage page L, s.pmm = buddyInit npage page L) ∧ (∀ a, s.live a = none) ∧ s.cut = []

/-- The allocator and its callers. -/
def machine : Machine BuddySys BuddyOp where
  Init := Init
  Legal := Legal
  step := step

/-- The runs that do not suffer from `get_buddy_page`. -/
def careful : Machine BuddySys BuddyOp :=
  { machine with Legal := fun s op => s.Legal op ∧ s.Careful op }

/-- Those among them in which no block is split. -/
def exactly : Machine BuddySys BuddyOp :=
  { machine with Legal := fun s op => s.Legal op ∧ s.Careful op ∧ s.Exact op }

theorem inv_init (h : s.Init) : s.Inv (fun _ => none) ∧ s.Uncut fun _ => none := by
  obtain ⟨⟨npage, page, L, hs⟩, hlive, hcut⟩ := h
  have hinj : Function.Injective BuddyNode.freeList := fun a b h => by simpa using h
  refine ⟨⟨⟨fun k hk => ⟨[], ?_, ?_, by simp⟩, by simp, by simp, fun a b ha => ?_, fun p => ?_,
    subset_rfl, ?_⟩, fun a k => ?_, fun a n ha => ?_⟩, fun a k => by simp [hcut]⟩
  · rw [hs]
    exact circ_foldl_listInit_mem hinj _ _ (List.mem_range.2 hk)
  · rw [hs]; rfl
  · simp [size] at ha
  · rw [hs]
    simp [Spans.Covered, Spans.Has, size, buddyInit]
  · rw [hs]; simp [buddyInit]
  · simp [Live, hlive]
  · simp [hlive] at ha

theorem reach_inv (h : careful.Reach s) : ∃ K, s.Inv K := by
  refine h.invariant (I := fun s => ∃ K, s.Inv K) (fun _ h => ⟨_, (inv_init h).1⟩) ?_
  rintro s op ⟨K, hi⟩ ⟨hl, hc⟩
  obtain ⟨s', K', hs, hi', -⟩ := hi.step hl hc
  exact ⟨s', hs, K', hi'⟩

theorem reach_uncut (h : exactly.Reach s) : ∃ K, s.Inv K ∧ s.Uncut K := by
  refine h.invariant (I := fun s => ∃ K, s.Inv K ∧ s.Uncut K) (fun _ h => ⟨_, inv_init h⟩) ?_
  rintro s op ⟨K, hi, hu⟩ ⟨hl, hc, he⟩
  obtain ⟨s', K', hs, hi', hu'⟩ := hi.step hl hc
  exact ⟨s', hs, K', hi', hu' he hu⟩

instance (s : BuddySys) : ∀ op, Decidable (s.Legal op)
  | .initMemmap _ _ => inferInstanceAs (Decidable (_ ∧ _ ∧ _))
  | .alloc _ => inferInstanceAs (Decidable (_ ∧ _))
  | .free _ => inferInstanceAs (Decidable (_ ≠ none))

instance (s : Buddy) (base order : ℕ) : Decidable (s.NoBuddy base order) :=
  inferInstanceAs (Decidable (_ ∨ ∀ _ ∈ _, _))

instance (s : BuddySys) : ∀ op, Decidable (s.Careful op)
  | .initMemmap _ _ => inferInstanceAs (Decidable (_ ∧ _))
  | .alloc _ => inferInstanceAs (Decidable (_ ≤ _))
  | .free _ => inferInstanceAs (Decidable (∀ _ ∈ _, ∀ _ ∈ _, _))

instance (s : BuddySys) : ∀ op, Decidable (s.Exact op)
  | .initMemmap _ _ | .free _ => inferInstanceAs (Decidable True)
  | .alloc n => inferInstanceAs (Decidable (∀ k ∈ Buddy.orderOf n, _ ∨ ∀ j < maxOrder, _))

instance (s : BuddySys) (op : BuddyOp) : Decidable (machine.Legal s op) :=
  inferInstanceAs (Decidable (s.Legal op))

instance (s : BuddySys) (op : BuddyOp) : Decidable (careful.Legal s op) :=
  inferInstanceAs (Decidable (s.Legal op ∧ s.Careful op))

instance (s : BuddySys) (op : BuddyOp) : Decidable (exactly.Legal s op) :=
  inferInstanceAs (Decidable (s.Legal op ∧ s.Careful op ∧ s.Exact op))

/-- Memory of this many pages. -/
def boot (npage : ℕ) : BuddySys where
  pmm := buddyInit npage (fun _ => ⟨0, 0, 0⟩) ⟨id, id⟩
  live _ := none
  cut := []

theorem init_boot (npage : ℕ) : (boot npage).Init := ⟨⟨npage, _, _, rfl⟩, fun _ => rfl, rfl⟩

/-! ## Safety -/

/-- A block on the free list of its order. -/
def Free (s : BuddySys) (a k : ℕ) : Prop :=
  k < maxOrder ∧ ∃ xs : List ℕ, Circ s.pmm.links (.freeList k) (xs.map .pageLink) ∧ a ∈ xs

/-- The pages of the live block at `a`. -/
def livePages (s : BuddySys) (a : ℕ) : ℕ :=
  match (s.live a).bind Buddy.orderOf with
  | some k => 2 ^ k
  | none => 0

/-- The free lists have as many blocks as they say, of their order; free and live blocks are
    disjoint and make up the managed pages, and the free pages are counted. -/
structure Sound (s : BuddySys) : Prop where
  lists : ∀ k < maxOrder, ∃ xs : List ℕ, Circ s.pmm.links (.freeList k) (xs.map .pageLink) ∧
    s.pmm.nrFree k = xs.length ∧ ∀ a ∈ xs, (s.pmm.page a).property = k
  room : ∀ a n, s.live a = some n → ∃ k, Buddy.orderOf n = some k ∧ n ≤ 2 ^ k ∧ k < maxOrder
  apart : ∀ a k b j, s.Free a k ∨ s.Live a k → s.Free b j ∨ s.Live b j → a ≠ b →
    a + 2 ^ k ≤ b ∨ b + 2 ^ j ≤ a
  single : ∀ a k j, s.Free a k → ¬ s.Live a j ∧ (s.Free a j → k = j)
  cover : ∀ p, p ∈ s.pmm.managed ↔
    ∃ a k, (s.Free a k ∨ s.Live a k) ∧ a ≤ p ∧ p < a + 2 ^ k
  count : s.pmm.buddyNrFreePages + ∑ a ∈ s.pmm.managed, s.livePages a = s.pmm.managed.card

theorem Inv.free_iff (h : s.Inv K) : s.Free a k ↔ K a = some (k, true) := by
  constructor
  · rintro ⟨hk, xs, hc, ha⟩
    obtain ⟨ys, hc', -, hy⟩ := h.repr.lists k hk
    have hinj : Function.Injective BuddyNode.pageLink := fun a b h => by simpa using h
    obtain rfl := hinj.list_map (hc.unique hc')
    exact (hy a).1 ha
  · intro hK
    have hk := h.repr.lt a k true hK
    obtain ⟨xs, hc, -, hx⟩ := h.repr.lists k hk
    exact ⟨hk, xs, hc, (hx a).2 hK⟩

theorem Inv.block_iff (h : s.Inv K) : s.Free a k ∨ s.Live a k ↔ ∃ f, K a = some (k, f) := by
  rw [h.free_iff, ← h.live]
  constructor
  · rintro (hK | hK)
    exacts [⟨true, hK⟩, ⟨false, hK⟩]
  · rintro ⟨_ | _, hK⟩
    exacts [Or.inr hK, Or.inl hK]

theorem Inv.livePages_eq (h : s.Inv K) (a : ℕ) : s.livePages a = sizeIn K false a := by
  by_cases hK : ∃ k, K a = some (k, false)
  · obtain ⟨k, hK⟩ := hK
    obtain ⟨n, hl, hk⟩ := (h.live a k).1 hK
    simp [livePages, hl, hk, sizeIn, hK]
  · have hn : s.live a = none := by
      cases hl : s.live a with
      | none => rfl
      | some n =>
        obtain ⟨-, k, hk, -⟩ := h.size a n hl
        exact absurd ⟨k, (h.live a k).2 ⟨n, hl, hk⟩⟩ hK
    simp only [livePages, hn, Option.bind_none, sizeIn]
    rcases hKa : K a with _ | ⟨k, _ | _⟩
    · rfl
    · exact absurd ⟨k, hKa⟩ hK
    · rfl

/-- Live blocks start at managed pages. -/
theorem Inv.live_none (h : s.Inv K) (hm : ∀ a ∈ s.pmm.managed, s.live a = none) (a : ℕ) :
    s.live a = none := by
  cases ha : s.live a with
  | none => rfl
  | some n =>
    obtain ⟨-, k, hk, -⟩ := h.size a n ha
    rw [hm a (h.repr.start_mem ((h.live a k).2 ⟨n, ha, hk⟩))] at ha
    cases ha

theorem Inv.sound (h : s.Inv K) : s.Sound := by
  refine ⟨fun k hk => ?_, fun a n ha => ?_, fun a k b j ha hb hab => ?_, fun a k j ha => ?_,
    fun p => ?_, ?_⟩
  · obtain ⟨xs, hc, hn, hx⟩ := h.repr.lists k hk
    exact ⟨xs, hc, hn, fun a ha => h.repr.order a k ((hx a).1 ha)⟩
  · obtain ⟨-, k, hk, hle⟩ := h.size a n ha
    exact ⟨k, hk, hle, h.repr.lt a k false ((h.live a k).2 ⟨n, ha, hk⟩)⟩
  · obtain ⟨f, hf⟩ := h.block_iff.1 ha
    obtain ⟨g, hg⟩ := h.block_iff.1 hb
    have := h.repr.apart a b (size_pos hf) (size_pos hg) hab
    rwa [size_some hf, size_some hg] at this
  · have hK := h.free_iff.1 ha
    refine ⟨fun hl => ?_, fun hf => ?_⟩
    · rw [← h.live, hK] at hl
      simp at hl
    · rw [h.free_iff, hK] at hf
      simpa using hf
  · rw [← h.repr.covered p]
    constructor
    · rintro ⟨a, h1, h2⟩
      rcases hK : K a with _ | ⟨k, f⟩
      · rw [size_none hK] at h2
        omega
      · rw [size_some hK] at h2
        exact ⟨a, k, h.block_iff.2 ⟨f, hK⟩, h1, h2⟩
    · rintro ⟨a, k, hb, h1, h2⟩
      obtain ⟨f, hf⟩ := h.block_iff.1 hb
      exact ⟨a, h1, by rw [size_some hf]; exact h2⟩
  · rw [Finset.sum_congr rfl fun a _ => h.livePages_eq a]
    exact nrFreePages_spec h.repr

/-- **The buddy allocator is safe** as long as no block that is freed finds a buddy: every state
    reached is sound, and a careful step only uses descriptors of managed pages and orders that
    there are. -/
theorem buddy_safe (h : careful.Reach s) :
    s.Sound ∧ ∀ op, s.Legal op → s.Careful op → ∃ s', s.step op = some s' ∧ s'.Sound := by
  obtain ⟨K, hi⟩ := reach_inv h
  refine ⟨hi.sound, fun op hl hc => ?_⟩
  obtain ⟨s', K', hs, hi', -⟩ := hi.step hl hc
  exact ⟨s', hs, hi'.sound⟩

/-- A page of 128 MB is allocated and freed: `pages` is indexed with 0x80001 - 0x80000 + 0x80000. -/
theorem free_leaves_pages : ∃ s, machine.Reach s ∧ s.Legal (.free 0) ∧ s.step (.free 0) = none := by
  have h : ((machine.run (boot 0x88000) [.initMemmap 0 1, .alloc 1]).bind fun s =>
      if s.Legal (.free 0) ∧ (s.step (.free 0)).isNone then some () else none) = some () := by
    decide +kernel
  obtain ⟨s, hs, h⟩ := Option.bind_eq_some_iff.1 h
  split_ifs at h with hc
  have hr : machine.Reach (boot 0x88000) := .init (init_boot _)
  exact ⟨s, hr.run hs, hc.1, Option.isNone_iff_eq_none.1 hc.2⟩

/-- In more than 2 GB, where the wrong descriptor is one of a managed page. -/
theorem buddy_safe_large : ∃ s, careful.Reach s ∧ s.live 0 = some 1 ∧ s.Sound ∧
    ∃ s', s.step (.free 0) = some s' ∧ s'.Sound := by
  have h : ((careful.run (boot 0x100002) [.initMemmap 0x80000 2, .initMemmap 0 2, .alloc 1]).bind
      fun s => if s.live 0 = some 1 ∧ s.Legal (.free 0) ∧ s.Careful (.free 0) then some ()
        else none) = some () := by decide +kernel
  obtain ⟨s, hs, h⟩ := Option.bind_eq_some_iff.1 h
  split_ifs at h with hc
  have hr : careful.Reach (boot 0x100002) := .init (init_boot _)
  obtain ⟨hsound, hstep⟩ := buddy_safe (hr.run hs)
  exact ⟨s, hr.run hs, hc.1, hsound, hstep _ hc.2.1 hc.2.2⟩

/-! ## Coalescing -/

/-- **Everything that is freed comes together again**, if nothing was split: with no live block the
    free lists hold the blocks that the ranges were cut into, and nothing else, and a request is
    served exactly if one of these is large enough. -/
theorem buddy_coalesces (h : exactly.Reach s) (hlive : ∀ a, s.live a = none) :
    (∀ k < maxOrder, ∃ xs : List ℕ, Circ s.pmm.links (.freeList k) (xs.map .pageLink) ∧
      xs.Nodup ∧ ∀ a, a ∈ xs ↔ (a, k) ∈ s.cut) ∧
    ∀ n k, 0 < n → Buddy.orderOf n = some k →
      ((∃ a t, s.pmm.buddyAllocPages n = some (some a, t)) ↔ ∃ b ∈ s.cut, k ≤ b.2) := by
  obtain ⟨K, hi, hu⟩ := reach_uncut h
  have hcut : ∀ a k, K a = some (k, true) ↔ (a, k) ∈ s.cut := fun a k => by
    rw [← hu a k]
    refine ⟨fun hK => ⟨true, hK⟩, ?_⟩
    rintro ⟨_ | _, hK⟩
    · obtain ⟨n, hn, -⟩ := (hi.live a k).1 hK
      rw [hlive a] at hn; cases hn
    · exact hK
  refine ⟨fun k hk => ?_, fun n k hn hk => ?_⟩
  · obtain ⟨xs, hc, -, hx⟩ := hi.repr.lists k hk
    exact ⟨xs, hc, nodup_of_circ hc, fun a => (hx a).trans (hcut a k)⟩
  · rcases buddyAllocPages_spec hi.repr hn hk with ⟨hf, hs⟩ | ⟨c, p, t, K', hf, hp, hs, -⟩
    · constructor
      · rintro ⟨a, t, ht⟩
        rw [hs] at ht; cases ht
      · rintro ⟨⟨a, j⟩, hb, hkj⟩
        have hK := (hcut a j).2 hb
        have hj := hi.repr.lt a j true hK
        obtain ⟨xs, hc, -, hx⟩ := hi.repr.lists j hj
        have he := findFree_none hf (by omega) j hkj hj
        rw [listEmpty_iff hc, List.map_eq_nil_iff] at he
        have := (hx a).2 hK
        rw [he] at this; cases this
    · exact ⟨fun _ => ⟨(p, c), (hcut p c).1 hp, (findFree_some hf).1⟩, fun _ => ⟨p, t, hs⟩⟩

/-- The same page taken out of a block of two: its buddy is not found when it is freed. -/
theorem halves_stay_apart : ∃ s, machine.Reach s ∧ (∀ a, s.live a = none) ∧
    s.cut = [(0x80000, 1), (0, 1)] ∧
    ¬ ∀ k < maxOrder, ∃ xs : List ℕ, Circ s.pmm.links (.freeList k) (xs.map .pageLink) ∧
      ∀ a, a ∈ xs ↔ (a, k) ∈ s.cut := by
  have h : ((careful.run (boot 0x100002) [.initMemmap 0x80000 2, .initMemmap 0 2, .alloc 1,
      .free 0]).bind fun s =>
        if (∀ a ∈ s.pmm.managed, s.live a = none) ∧ s.cut = [(0x80000, 1), (0, 1)] ∧
          listEmpty s.pmm.links (.freeList 0) = false then some () else none) = some () := by
    decide +kernel
  obtain ⟨s, hs, h⟩ := Option.bind_eq_some_iff.1 h
  split_ifs at h with hc
  obtain ⟨h1, h2, h3⟩ := hc
  have hr : careful.Reach (boot 0x100002) := .init (init_boot _)
  have hr := hr.run hs
  obtain ⟨K, hi⟩ := reach_inv hr
  have hm : machine.Reach s :=
    Machine.Reach.mono (M := careful) (N := machine) (fun _ h => h) (fun _ _ h => h.1) rfl hr
  refine ⟨s, hm, hi.live_none h1, h2, fun hall => ?_⟩
  obtain ⟨xs, hc, hx⟩ := hall 0 (by decide)
  cases xs with
  | nil =>
    rw [(listEmpty_iff hc).2 rfl] at h3; cases h3
  | cons a xs =>
    have hm := (hx a).1 (List.mem_cons_self ..)
    rw [h2] at hm
    simp at hm

/-- One page is allocated and freed. -/
theorem buddy_coalesces_page : ∃ s, exactly.Reach s ∧ s.cut = [(0x80000, 1), (0, 0)] ∧
    ∃ xs : List ℕ, Circ s.pmm.links (.freeList 0) (xs.map .pageLink) ∧ 0 ∈ xs := by
  have h : ((exactly.run (boot 0x100002) [.initMemmap 0x80000 2, .initMemmap 0 1, .alloc 1,
      .free 0]).bind fun s =>
        if (∀ a ∈ s.pmm.managed, s.live a = none) ∧ s.cut = [(0x80000, 1), (0, 0)] then some ()
          else none) = some () := by decide +kernel
  obtain ⟨s, hs, h⟩ := Option.bind_eq_some_iff.1 h
  split_ifs at h with hc
  have hr : exactly.Reach (boot 0x100002) := .init (init_boot _)
  have hr := hr.run hs
  obtain ⟨K, hi, -⟩ := reach_uncut hr
  obtain ⟨xs, hl, -, hx⟩ := (buddy_coalesces hr (hi.live_none hc.1)).1 0 (by decide)
  exact ⟨s, hr, hc.2, xs, hl, (hx 0).2 (by rw [hc.2]; simp)⟩

end BuddySys

end Ucore
