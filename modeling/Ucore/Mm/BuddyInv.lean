/-
  The blocks of the buddy allocator.

  `K a` is the order of the block that starts at page `a`, and whether it is free.  `Repr s K M`:
  the free lists hold the free blocks, by order, and the blocks divide the pages `M`.

  * `Repr.release`, `Repr.take`: a block joins, and leaves, its free list;
  * `Repr.halve`, `Repr.create`: a block is cut in two, and a new one made;
  * `splitLoop_spec`, `buddyInitMemmap_spec`: the loops;
  * `nrFreePages_spec`: `buddy_nr_free_pages` counts the pages of the free blocks.
-/
import Ucore.Lib.Spans
import Ucore.Mm.Buddy
import Mathlib.Algebra.BigOperators.Group.Finset.Piecewise
import Mathlib.Algebra.BigOperators.Group.Finset.Sigma
import Mathlib.Algebra.Group.Action.Defs

namespace Ucore.Buddy

open Intrusive Spans

/-- The pages of the block at `a`. -/
def size (K : ℕ → Option (ℕ × Bool)) (a : ℕ) : ℕ :=
  match K a with
  | some (k, _) => 2 ^ k
  | none => 0

structure Repr (s : Buddy) (K : ℕ → Option (ℕ × Bool)) (M : Finset ℕ) : Prop where
  lists : ∀ k < maxOrder, ∃ xs : List ℕ, Circ s.links (.freeList k) (xs.map .pageLink) ∧
    s.nrFree k = xs.length ∧ ∀ a, a ∈ xs ↔ K a = some (k, true)
  order : ∀ a k, K a = some (k, true) → (s.page a).property = k
  lt : ∀ a k b, K a = some (k, b) → k < maxOrder
  apart : Apart (size K)
  covered : ∀ p, Covered (size K) p ↔ p ∈ M
  sub : M ⊆ s.managed
  bound : s.managed.card < 2 ^ 32

variable {s s' : Buddy} {K K' : ℕ → Option (ℕ × Bool)} {M : Finset ℕ} {a b k n p : ℕ} {f : Bool}

theorem size_some (h : K a = some (k, f)) : size K a = 2 ^ k := by simp [size, h]

theorem size_pos (h : K a = some (k, f)) : 0 < size K a := by
  rw [size_some h]; exact Nat.two_pow_pos k

theorem size_none (h : K a = none) : size K a = 0 := by simp [size, h]

theorem size_update_ne {v : Option (ℕ × Bool)} (h : b ≠ a) :
    size (Function.update K a v) b = size K b := by
  simp [size, Function.update_of_ne h]

/-- A block that becomes free, or live, has the pages that it had. -/
theorem size_update (h : K a = some (k, f)) (g : Bool) :
    size (Function.update K a (some (k, g))) = size K := by
  ext b
  by_cases hb : b = a
  · subst hb; simp [size, h]
  · exact size_update_ne hb

namespace Repr

/-- The pages of a block. -/
theorem mem (r : Repr s K M) (h : K a = some (k, f)) (h1 : a ≤ p) (h2 : p < a + 2 ^ k) : p ∈ M :=
  (r.covered p).1 ⟨a, h1, by rwa [size_some h]⟩

theorem start_mem (r : Repr s K M) (h : K a = some (k, f)) : a ∈ M :=
  r.mem h le_rfl (by have := Nat.two_pow_pos k; omega)

theorem managed (r : Repr s K M) (h : K a = some (k, f)) : a ∈ s.managed := r.sub (r.start_mem h)

/-- A free list is short. -/
theorem length_lt (r : Repr s K M) {xs : List ℕ} (hnd : xs.Nodup) (hx : ∀ a ∈ xs, a ∈ M) :
    xs.length < 2 ^ 32 := by
  have h1 : xs.toFinset ⊆ s.managed := fun a ha => r.sub (hx a (List.mem_toFinset.1 ha))
  have h2 := Finset.card_le_card h1
  rw [List.toFinset_card_of_nodup hnd] at h2
  exact h2.trans_lt r.bound

end Repr

theorem nodup_of_circ {L : Links BuddyNode} {h : BuddyNode} {xs : List ℕ}
    (c : Circ L h (xs.map .pageLink)) : xs.Nodup := c.nodup_tail.of_map _

/-- Another free list is not touched by `list_add`. -/
theorem other_listAdd {L : Links BuddyNode} {j : ℕ} {xs ys : List ℕ} (hjk : j ≠ k)
    (c : Circ L (.freeList k) (xs.map .pageLink)) (d : Circ L (.freeList j) (ys.map .pageLink))
    (ha : a ∉ ys) (hd : ∀ b ∈ xs, b ∉ ys) :
    Circ (listAdd L (.freeList k) (.pageLink a)) (.freeList j) (ys.map .pageLink) := by
  refine circ_listAdd_other c d fun x hx => ?_
  simp only [List.mem_cons, List.mem_map] at hx
  rcases hx with rfl | ⟨b, hb, rfl⟩
  · simp [hjk]
  · simp only [List.mem_cons, reduceCtorEq, List.mem_map, BuddyNode.pageLink.injEq,
      exists_eq_right, false_or, ne_eq]
    exact ⟨fun h => hd b h hb, fun h => ha (h ▸ hb)⟩

/-- Another free list is not touched by `list_del`. -/
theorem other_listDel {L : Links BuddyNode} {j : ℕ} {xs ys : List ℕ} (hjk : j ≠ k) (ha : a ∈ xs)
    (c : Circ L (.freeList k) (xs.map .pageLink)) (d : Circ L (.freeList j) (ys.map .pageLink))
    (hd : ∀ b ∈ xs, b ∉ ys) :
    Circ (listDel L (.pageLink a)) (.freeList j) (ys.map .pageLink) := by
  refine circ_listDel_other c (List.mem_map_of_mem ha) d fun x hx => ?_
  simp only [List.mem_cons, List.mem_map] at hx
  rcases hx with rfl | ⟨b, hb, rfl⟩
  · simp [hjk]
  · simp only [List.mem_cons, reduceCtorEq, List.mem_map, BuddyNode.pageLink.injEq,
      exists_eq_right, false_or]
    exact fun h => hd b h hb

/-! ## Single blocks -/

/-- The parts of the state that no operation of the allocator changes. -/
def Same (s s' : Buddy) : Prop := s'.npage = s.npage ∧ s'.managed = s.managed

theorem Same.trans {s₁ s₂ s₃ : Buddy} (h : Same s₁ s₂) (h' : Same s₂ s₃) : Same s₁ s₃ :=
  ⟨h'.1.trans h.1, h'.2.trans h.2⟩

theorem modify_some (ha : a ∈ s.managed) (g : Page → Page) :
    s.modify a g = some { s with page := Function.update s.page a (g (s.page a)) } := if_pos ha

/-- Writes to descriptors that keep the orders of the free blocks. -/
theorem Repr.pages (r : Repr s K M) {page : ℕ → Page}
    (h : ∀ a k, K a = some (k, true) → (page a).property = (s.page a).property) :
    Repr { s with page := page } K M :=
  ⟨r.lists, fun a k ha => (h a k ha).trans (r.order a k ha), r.lt, r.apart, r.covered, r.sub,
    r.bound⟩

theorem Repr.order_lt (r : Repr s K M) (ha : K a = some (k, f)) : u32 k = k := by
  have h1 := r.lt a k f ha
  have h2 : maxOrder = 20 := rfl
  exact Nat.mod_eq_of_lt (by omega)

/-- **A block is put on its free list.** -/
theorem Repr.release (r : Repr s K M) (ha : K a = some (k, false)) :
    ∃ s₁ s₂, s.setBlock a k = some s₁ ∧ s₁.links = s.links ∧ Same s s₁ ∧
      (∀ b, b ≠ a → s₁.page b = s.page b) ∧ s₁.addFree a k = some s₂ ∧ Same s s₂ ∧
      Repr s₂ (Function.update K a (some (k, true))) M := by
  have hk := r.lt a k false ha
  refine ⟨_, _, modify_some (r.managed ha) _, rfl, ⟨rfl, rfl⟩,
    fun b hb => Function.update_of_ne hb .., if_pos hk, ⟨rfl, rfl⟩,
    fun j hj => ?_, fun b j hb => ?_, fun b j f hb => ?_, ?_, fun p => ?_, r.sub, r.bound⟩
  · obtain ⟨xs, hc, hn, hx⟩ := r.lists k hk
    have hax : a ∉ xs := fun hm => by
      have := (hx a).1 hm
      rw [ha] at this; cases this
    have hnode : BuddyNode.pageLink a ∉ BuddyNode.freeList k :: xs.map .pageLink := by
      simpa using hax
    by_cases hjk : j = k
    · subst hjk
      have hc' : Circ (listAdd s.links (.freeList j) (.pageLink a)) (.freeList j)
          ((a :: xs).map .pageLink) := circ_listAdd_front hc hnode
      have hlen : (a :: xs).length < 2 ^ 32 := r.length_lt (nodup_of_circ hc') fun b hb => by
        rcases List.mem_cons.1 hb with rfl | hb
        exacts [r.start_mem ha, r.start_mem ((hx b).1 hb)]
      refine ⟨a :: xs, hc', ?_, fun b => ?_⟩
      · simp only [Function.update_self, hn]
        exact Nat.mod_eq_of_lt hlen
      · by_cases hb : b = a
        · simp [hb]
        · simp [hb, hx]
    · obtain ⟨ys, hd, hm, hy⟩ := r.lists j hj
      refine ⟨ys, other_listAdd hjk hc hd (fun h => ?_) (fun b h h' => ?_), ?_, fun b => ?_⟩
      · rw [hy, ha] at h; cases h
      · rw [hx] at h
        rw [hy, h] at h'
        simp only [Option.some.injEq, Prod.mk.injEq] at h'
        exact hjk h'.1.symm
      · simpa [Function.update_of_ne hjk] using hm
      · by_cases hb : b = a
        · subst hb; simp [hy, ha, Ne.symm hjk]
        · simp [hb, hy]
  · by_cases hba : b = a
    · subst hba
      obtain rfl : k = j := by simpa using hb
      simp [setPageProperty, r.order_lt ha]
    · rw [Function.update_of_ne hba] at hb
      simp only [Function.update_of_ne hba]
      exact r.order b j hb
  · by_cases hba : b = a
    · subst hba
      have e : k = j := by simpa using congrArg (Option.map Prod.fst) hb
      exact e ▸ hk
    · rw [Function.update_of_ne hba] at hb
      exact r.lt b j f hb
  · rw [size_update ha]; exact r.apart
  · rw [size_update ha]; exact r.covered p

/-- **The first block of a free list is taken off it.** -/
theorem Repr.take (r : Repr s K M) (hk : k < maxOrder)
    (hne : listEmpty s.links (.freeList k) = false) :
    ∃ a s', listNext s.links (.freeList k) = .pageLink a ∧ K a = some (k, true) ∧
      s.delFree a k = some s' ∧ Same s s' ∧ Repr s' (Function.update K a (some (k, false))) M := by
  obtain ⟨xs, hc, hn, hx⟩ := r.lists k hk
  cases xs with
  | nil =>
    have := (listEmpty_iff hc).2 rfl
    rw [hne] at this; cases this
  | cons a xs =>
    have hKa := (hx a).1 (List.mem_cons_self ..)
    have hnd := nodup_of_circ hc
    have hlen : (a :: xs).length < 2 ^ 32 := r.length_lt hnd fun b hb => r.start_mem ((hx b).1 hb)
    refine ⟨a, _, hc.next_head, hKa, if_pos hk, ⟨rfl, rfl⟩, fun j hj => ?_, fun b j hb => ?_,
      fun b j f hb => ?_, ?_, fun p => ?_, r.sub, r.bound⟩
    · by_cases hjk : j = k
      · subst hjk
        have hc' : Circ s.links (.freeList j) ([] ++ .pageLink a :: xs.map .pageLink) := hc
        refine ⟨xs, circ_listDel hc', ?_, fun b => ?_⟩
        · rw [List.length_cons] at hn hlen
          simp only [Function.update_self, hn]
          rw [show xs.length + 1 + (2 ^ 32 - 1) = xs.length + 2 ^ 32 by omega]
          simp only [u32, Nat.add_mod_right]
          exact Nat.mod_eq_of_lt (by omega)
        · by_cases hb : b = a
          · subst hb; simp [(List.nodup_cons.1 hnd).1]
          · have := hx b
            simpa [hb] using this
      · obtain ⟨ys, hd, hm, hy⟩ := r.lists j hj
        refine ⟨ys, other_listDel hjk (List.mem_cons_self ..) hc hd fun b h h' => ?_, ?_,
          fun b => ?_⟩
        · rw [hx] at h
          rw [hy, h] at h'
          simp only [Option.some.injEq, Prod.mk.injEq] at h'
          exact hjk h'.1.symm
        · simpa [Function.update_of_ne hjk] using hm
        · by_cases hb : b = a
          · subst hb; simp [hy, hKa, Ne.symm hjk]
          · simp [hb, hy]
    · by_cases hba : b = a
      · subst hba; simp at hb
      · rw [Function.update_of_ne hba] at hb
        exact r.order b j hb
    · by_cases hba : b = a
      · subst hba
        have e : k = j := by simpa using congrArg (Option.map Prod.fst) hb
        exact e ▸ hk
      · rw [Function.update_of_ne hba] at hb
        exact r.lt b j f hb
    · rw [size_update hKa]; exact r.apart
    · rw [size_update hKa]; exact r.covered p

/-- **A block that is not free is cut in two.** -/
theorem Repr.halve (r : Repr s K M) (ha : K a = some (k + 1, false)) :
    K (a + 2 ^ k) = none ∧ Repr s (Function.update (Function.update K a (some (k, false)))
      (a + 2 ^ k) (some (k, false))) M := by
  have hpos := Nat.two_pow_pos k
  have hsa : size K a = 2 ^ k + 2 ^ k := by rw [size_some ha, pow_succ]; omega
  have hb : K (a + 2 ^ k) = none := by
    cases hK : K (a + 2 ^ k) with
    | none => rfl
    | some v =>
      have h1 := size_pos hK
      rw [r.apart.none_inside (a := a) ⟨by omega, by omega⟩ (by omega)] at h1
      omega
  have hne : a + 2 ^ k ≠ a := by omega
  set K' := Function.update (Function.update K a (some (k, false))) (a + 2 ^ k) (some (k, false))
    with hK'
  have hval : ∀ c, K' c = if c = a ∨ c = a + 2 ^ k then some (k, false) else K c := fun c => by
    by_cases h1 : c = a + 2 ^ k
    · simp [hK', h1]
    · by_cases h2 : c = a
      · simp [hK', h2]
      · simp [hK', h1, h2]
  have hfree : ∀ c j, K' c = some (j, true) ↔ K c = some (j, true) := fun c j => by
    rw [hval]
    split_ifs with h
    · rcases h with rfl | rfl
      · simp [ha]
      · simp [hb]
    · rfl
  have hKa : size K' a = 2 ^ k := size_some (f := false) (by rw [hval]; simp)
  have hKb : size K' (a + 2 ^ k) = size K a - 2 ^ k := by
    rw [size_some (k := k) (f := false) (by rw [hval]; simp)]
    omega
  have hKo : ∀ c, c ≠ a → c ≠ a + 2 ^ k → size K' c = size K c := fun c hc hc' => by
    simp [size, hval, hc, hc']
  obtain ⟨h1, h2⟩ := r.apart.cut hpos (by omega) hKa hKb hKo
  refine ⟨hb, fun j hj => ?_, fun c j hc => r.order c j ((hfree c j).1 hc), fun c j f hc => ?_, h1,
    fun p => (h2 p).trans (r.covered p), r.sub, r.bound⟩
  · obtain ⟨xs, hc, hn, hx⟩ := r.lists j hj
    exact ⟨xs, hc, hn, fun c => by rw [hfree, hx]⟩
  · rw [hval] at hc
    split_ifs at hc with h
    · obtain ⟨rfl, -⟩ : k = j ∧ false = f := by simpa using hc
      have := r.lt a (k + 1) false ha
      omega
    · exact r.lt c j f hc

/-- **A block is made of pages that are in none.** -/
theorem Repr.create (r : Repr s K M) (hk : k < maxOrder)
    (hd : ∀ p, a ≤ p → p < a + 2 ^ k → p ∉ M ∧ p ∈ s.managed) :
    K a = none ∧ Repr s (Function.update K a (some (k, false)))
      (M ∪ Finset.Ico a (a + 2 ^ k)) := by
  have hpos := Nat.two_pow_pos k
  have ha : K a = none := by
    cases hK : K a with
    | none => rfl
    | some v => exact absurd (r.start_mem hK) (hd a le_rfl (by omega)).1
  have hKa : size (Function.update K a (some (k, false))) a = 2 ^ k :=
    size_some (Function.update_self ..)
  obtain ⟨h1, h2⟩ := r.apart.add (fun p hp hp' hc => (hd p hp hp').1 ((r.covered p).1 hc)) hpos
    hKa fun b hb => size_update_ne hb
  refine ⟨ha, fun j hj => ?_, fun b j hb => ?_, fun b j f hb => ?_, h1, fun p => ?_, ?_, r.bound⟩
  · obtain ⟨xs, hc, hn, hx⟩ := r.lists j hj
    refine ⟨xs, hc, hn, fun b => ?_⟩
    by_cases hb : b = a
    · subst hb; simp [hx, ha]
    · simp [hb, hx]
  · by_cases hba : b = a
    · subst hba; simp at hb
    · rw [Function.update_of_ne hba] at hb
      exact r.order b j hb
  · by_cases hba : b = a
    · subst hba
      have e : k = j := by simpa using congrArg (Option.map Prod.fst) hb
      exact e ▸ hk
    · rw [Function.update_of_ne hba] at hb
      exact r.lt b j f hb
  · rw [h2, r.covered, Finset.mem_union, Finset.mem_Ico]
  · intro p hp
    rcases Finset.mem_union.1 hp with hp | hp
    · exact r.sub hp
    · have := Finset.mem_Ico.1 hp
      exact (hd p this.1 this.2).2

/-! ## Allocation -/

/-- The blocks that are not free, but the one at `a`, stay what they are. -/
def LiveButAt (K K' : ℕ → Option (ℕ × Bool)) (a : ℕ) : Prop :=
  ∀ b k, b ≠ a → (K' b = some (k, false) ↔ K b = some (k, false))

/-- The halves that are split off are free. -/
theorem splitLoop_spec : ∀ {j : ℕ} {s : Buddy} {K : ℕ → Option (ℕ × Bool)}, Repr s K M →
    K a = some (k + j, false) → ∃ s' K', splitLoop a k j s = some s' ∧ Same s s' ∧
      Repr s' K' M ∧ K' a = some (k, false) ∧ LiveButAt K K' a ∧ (j = 0 → K' = K)
  | 0, s, K, r, ha => ⟨s, K, rfl, ⟨rfl, rfl⟩, r, ha, fun _ _ _ => Iff.rfl, fun _ => rfl⟩
  | j + 1, s, K, r, ha => by
    have ha₁ : K a = some (k + j + 1, false) := ha
    obtain ⟨hnone, r₁⟩ := r.halve ha₁
    have hne : a + 2 ^ (k + j) ≠ a := by
      have := Nat.two_pow_pos (k + j)
      omega
    obtain ⟨s₁, s₂, h₁, -, -, -, h₂, hsame, r₂⟩ := r₁.release (Function.update_self ..)
    rw [Function.update_idem] at r₂
    have ha₂ : Function.update (Function.update K a (some (k + j, false))) (a + 2 ^ (k + j))
        (some (k + j, true)) a = some (k + j, false) := by
      rw [Function.update_of_ne hne.symm, Function.update_self]
    obtain ⟨s', K', hs', hsame', r', ha', hlive, -⟩ := splitLoop_spec r₂ ha₂
    refine ⟨s', K', ?_, hsame.trans hsame', r', ha', fun b i hb => (hlive b i hb).trans ?_,
      fun h => absurd h (Nat.succ_ne_zero j)⟩
    · simp only [splitLoop, h₁, h₂, Option.bind_eq_bind, Option.bind_some, hs']
    · by_cases hbb : b = a + 2 ^ (k + j)
      · subst hbb; simp [hnone]
      · rw [Function.update_of_ne hbb, Function.update_of_ne hb]

/-- The loop for the order ends, if the pages fit in a word. -/
theorem orderLoop_spec {size : ℕ} : ∀ {d order : ℕ}, size ≤ 2 ^ (order + d) →
    ∃ k, orderLoop size (d + 1) order = some k ∧ size ≤ 2 ^ k
  | 0, order, h => ⟨order, by rw [orderLoop, if_neg (by simpa using h)], by simpa using h⟩
  | d + 1, order, h => by
    by_cases hs : 2 ^ order < size
    · have h' : size ≤ 2 ^ (order + 1 + d) := by rwa [Nat.add_right_comm]
      obtain ⟨k, hk, hle⟩ := orderLoop_spec h'
      exact ⟨k, by rw [orderLoop, if_pos hs, hk], hle⟩
    · exact ⟨order, by rw [orderLoop, if_neg hs], by omega⟩

theorem orderOf_spec (h : n ≤ 2 ^ 63) : ∃ k, orderOf n = some k ∧ n ≤ 2 ^ k :=
  orderLoop_spec (by simpa using h)

theorem findFree_some : ∀ {fuel order c : ℕ}, s.findFree fuel order = some c →
    order ≤ c ∧ c < maxOrder ∧ listEmpty s.links (.freeList c) = false
  | 0, order, c, h => by cases h
  | fuel + 1, order, c, h => by
    simp only [findFree] at h
    split_ifs at h with h1 h2
    · obtain ⟨g1, g2, g3⟩ := findFree_some h
      exact ⟨by omega, g2, g3⟩
    · obtain rfl := Option.some.inj h
      exact ⟨le_rfl, h1, by simpa using h2⟩

theorem findFree_none : ∀ {fuel order : ℕ}, s.findFree fuel order = none →
    maxOrder ≤ order + fuel → ∀ c, order ≤ c → c < maxOrder →
      listEmpty s.links (.freeList c) = true
  | 0, order, _, hf, c, h1, h2 => by omega
  | fuel + 1, order, h, hf, c, h1, h2 => by
    simp only [findFree] at h
    split_ifs at h with g1 g2
    · by_cases hc : c = order
      · subst hc; exact g2
      · exact findFree_none h (by omega) c (by omega) h2
    · omega

/-- **Allocation** returns a live block of the order asked for, or leaves everything as it is. -/
theorem buddyAllocPages_spec (r : Repr s K M) (hn : 0 < n) (hk : orderOf n = some k) :
    (s.findFree maxOrder k = none ∧ s.buddyAllocPages n = some (none, s)) ∨
    ∃ c a s' K', s.findFree maxOrder k = some c ∧ K a = some (c, true) ∧
      s.buddyAllocPages n = some (some a, s') ∧ Same s s' ∧ Repr s' K' M ∧
      K' a = some (k, false) ∧ LiveButAt K K' a ∧
      (c = k → K' = Function.update K a (some (k, false))) := by
  have h0 : ¬ n = 0 := by omega
  cases hf : s.findFree maxOrder k with
  | none =>
    refine Or.inl ⟨rfl, ?_⟩
    simp only [buddyAllocPages, h0, if_false, hk, hf, Option.bind_eq_bind, Option.bind_some]
  | some c =>
    obtain ⟨hkc, hc, hne⟩ := findFree_some hf
    obtain ⟨a, s₁, hnext, ha, h₁, hsame₁, r₁⟩ := r.take hc hne
    obtain ⟨j, rfl⟩ := Nat.exists_eq_add_of_le hkc
    have ha₁ : Function.update K a (some (k + j, false)) a = some (k + j, false) :=
      Function.update_self ..
    obtain ⟨s₂, K', h₂, hsame₂, r₂, ha₂, hlive, hexact⟩ := splitLoop_spec r₁ ha₁
    have r₃ : Repr { s₂ with
        page := Function.update s₂.page a (clearPageProperty (s₂.page a)) } K' M :=
      r₂.pages fun b i hb => by
        by_cases hba : b = a
        · subst hba; simp [clearPageProperty]
        · rw [Function.update_of_ne hba]
    refine Or.inr ⟨k + j, a, { s₂ with
      page := Function.update s₂.page a (clearPageProperty (s₂.page a)) }, K', rfl, ha, ?_,
      hsame₁.trans hsame₂, r₃, ha₂, fun b i hb => ?_, fun hj => ?_⟩
    · simp only [buddyAllocPages, h0, if_false, hk, hf, hnext, h₁, Nat.add_sub_cancel_left, h₂,
        modify_some (r₂.managed ha₂), Option.bind_eq_bind, Option.bind_some]
    · rw [hlive b i hb, Function.update_of_ne hb]
    · obtain rfl : j = 0 := by omega
      exact hexact rfl

/-! ## `buddy_init_memmap` -/

/-- The blocks, with their orders, that a range is cut into. -/
def initBlocks : ℕ → ℕ → ℕ → List (ℕ × ℕ)
  | 0, _, _ => []
  | fuel + 1, base, n =>
    (base, initOrder n) ::
      if n - 2 ^ initOrder n > 0 then
        initBlocks fuel (base + 2 ^ initOrder n) (n - 2 ^ initOrder n)
      else []

theorem halvings_spec : ∀ {fuel size order : ℕ}, 0 < size →
    2 ^ halvings fuel size order ≤ size * 2 ^ order
  | 0, size, order, h => Nat.le_mul_of_pos_left _ h
  | fuel + 1, size, order, h => by
    simp only [halvings]
    have hshift : size >>> (1 : ℕ) = size / 2 := Nat.shiftRight_eq_div_pow size 1
    split_ifs with hs
    · rw [hshift]
      have ih : 2 ^ halvings fuel (size / 2) (order + 1) ≤ size / 2 * 2 ^ (order + 1) :=
        halvings_spec (by omega)
      have hle : size / 2 * 2 ≤ size := Nat.div_mul_le_self size 2
      calc 2 ^ halvings fuel (size / 2) (order + 1) ≤ size / 2 * 2 ^ (order + 1) := ih
        _ = size / 2 * 2 * 2 ^ order := by rw [pow_succ]; ring
        _ ≤ size * 2 ^ order := Nat.mul_le_mul_right _ hle
    · exact Nat.le_mul_of_pos_left _ h

/-- The first block fits into the range. -/
theorem initOrder_le (h : 0 < n) : 2 ^ initOrder n ≤ n := by
  have h0 : 2 ^ halvings 64 n 0 ≤ n * 2 ^ 0 := halvings_spec h
  have h1 : 2 ^ halvings 64 n 0 ≤ n := by rwa [pow_zero, Nat.mul_one] at h0
  simp only [initOrder]
  split_ifs
  · exact (Nat.pow_le_pow_right (by norm_num) (Nat.sub_le _ 1)).trans h1
  · exact h1

theorem clearPages_spec : ∀ {n p : ℕ} {s : Buddy}, (∀ q, p ≤ q → q < p + n → q ∈ s.managed) →
    ∃ page, clearPages p n s = some { s with page := page } ∧
      ∀ q, q < p ∨ p + n ≤ q → page q = s.page q
  | 0, p, s, _ => ⟨s.page, rfl, fun _ _ => rfl⟩
  | n + 1, p, s, h => by
    have hp := h p le_rfl (by omega)
    have h' : ∀ q, p + 1 ≤ q → q < p + 1 + n → q ∈ s.managed := fun q h1 h2 =>
      h q (by omega) (by omega)
    let g : Page := setPageRef { s.page p with flags := 0, property := 0 } 0
    obtain ⟨page, hs, hpage⟩ :=
      clearPages_spec (s := { s with page := Function.update s.page p g }) h'
    refine ⟨page, ?_, fun q hq => ?_⟩
    · simp only [clearPages, modify_some hp, Option.bind_eq_bind, Option.bind_some]
      exact hs
    · rw [hpage q (by omega)]
      exact Function.update_of_ne (by omega) ..

/-- **A new range** is cut into free blocks. -/
theorem buddyInitMemmap_spec : ∀ {fuel base n : ℕ} {s : Buddy} {K : ℕ → Option (ℕ × Bool)}
    {M : Finset ℕ}, Repr s K M → 0 < n → n ≤ fuel →
    (∀ p, base ≤ p → p < base + n → p ∉ M ∧ p ∈ s.managed) →
    (∀ b ∈ initBlocks fuel base n, b.2 < maxOrder) →
    ∃ s' K', buddyInitMemmap fuel base n s = some s' ∧ Same s s' ∧
      Repr s' K' (M ∪ Finset.Ico base (base + n)) ∧
      (∀ b k, K' b = some (k, false) ↔ K b = some (k, false)) ∧
      ∀ b k, K' b = some (k, true) ↔ K b = some (k, true) ∨ (b, k) ∈ initBlocks fuel base n
  | 0, base, n, s, K, M, _, h0, hf, _, _ => by omega
  | fuel + 1, base, n, s, K, M, r, h0, hf, hd, ho => by
    have hpos := Nat.two_pow_pos (initOrder n)
    have hle := initOrder_le h0
    obtain ⟨page, h₁, hpage⟩ := clearPages_spec fun q h1 h2 => (hd q h1 h2).2
    have r₁ : Repr { s with page := page } K M := r.pages fun a k ha => by
      rw [hpage a]
      by_contra hcon
      exact (hd a (by omega) (by omega)).1 (r.start_mem ha)
    have hk : initOrder n < maxOrder := ho (base, initOrder n) (List.mem_cons_self ..)
    obtain ⟨hnone, r₂⟩ := r₁.create hk fun p h1 h2 => hd p h1 (by omega)
    obtain ⟨s₂, s₃, h₂, -, -, -, h₃, hsame, r₃⟩ := r₂.release (Function.update_self ..)
    rw [Function.update_idem] at r₃
    have hlive : ∀ b k, Function.update K base (some (initOrder n, true)) b = some (k, false) ↔
        K b = some (k, false) := fun b k => by
      by_cases hb : b = base
      · subst hb; simp [hnone]
      · rw [Function.update_of_ne hb]
    have hfree : ∀ b k, Function.update K base (some (initOrder n, true)) b = some (k, true) ↔
        K b = some (k, true) ∨ (b, k) = (base, initOrder n) := fun b k => by
      by_cases hb : b = base
      · subst hb; simp [hnone, eq_comm]
      · simp [hb]
    have h0' : ¬ n = 0 := by omega
    by_cases hrem : n - 2 ^ initOrder n > 0
    · have hd' : ∀ p, base + 2 ^ initOrder n ≤ p →
          p < base + 2 ^ initOrder n + (n - 2 ^ initOrder n) →
          p ∉ M ∪ Finset.Ico base (base + 2 ^ initOrder n) ∧ p ∈ s₃.managed := fun p h1 h2 => by
        obtain ⟨g1, g2⟩ := hd p (by omega) (by omega)
        refine ⟨fun hm => ?_, hsame.2 ▸ g2⟩
        rcases Finset.mem_union.1 hm with hm | hm
        · exact g1 hm
        · have := Finset.mem_Ico.1 hm
          omega
      have ho' : ∀ b ∈ initBlocks fuel (base + 2 ^ initOrder n) (n - 2 ^ initOrder n),
          b.2 < maxOrder := fun b hb => ho b <| by
        simp only [initBlocks, if_pos hrem]
        exact List.mem_cons_of_mem _ hb
      obtain ⟨s', K', hs', hsame', r', hlive', hfree'⟩ :=
        buddyInitMemmap_spec r₃ hrem (by omega) hd' ho'
      refine ⟨s', K', ?_, hsame.trans hsame', ?_, fun b k => (hlive' b k).trans (hlive b k),
        fun b k => ?_⟩
      · simp only [buddyInitMemmap, h0', if_false, h₁, h₂, h₃, if_pos hrem, hs',
          Option.bind_eq_bind, Option.bind_some]
      · rw [show base + 2 ^ initOrder n + (n - 2 ^ initOrder n) = base + n by omega,
          Finset.union_assoc, Finset.Ico_union_Ico_eq_Ico (by omega) (by omega)] at r'
        exact r'
      · rw [hfree', hfree]
        simp only [initBlocks, if_pos hrem, List.mem_cons, or_assoc]
    · have he : 2 ^ initOrder n = n := by omega
      rw [he] at r₃
      refine ⟨s₃, _, ?_, hsame, r₃, hlive, fun b k => ?_⟩
      · simp only [buddyInitMemmap, h0', if_false, h₁, h₂, h₃, if_neg hrem,
          Option.bind_eq_bind, Option.bind_some]
      · rw [hfree]
        simp only [initBlocks, if_neg hrem, List.mem_singleton]

/-! ## Freeing -/

/-- The search for a buddy of the block `base` finds nothing, and looks at a descriptor of a managed
    page if at any. -/
def NoBuddy (s : Buddy) (base order : ℕ) : Prop :=
  maxOrder - 1 ≤ order ∨ ∀ buddy ∈ s.getBuddyPage base order,
    buddy ∈ s.managed ∧ ¬(pageProperty (s.page buddy) ∧ (s.page buddy).property = order)

/-- `pages` is indexed with an absolute page number, but never with that of the page itself. -/
theorem getBuddyPage_ne (hk : k < maxOrder - 1) (h : s.getBuddyPage a k = some b) : b ≠ a := by
  simp only [getBuddyPage] at h
  split_ifs at h
  obtain rfl := Option.some.inj h
  intro he
  have hbit := congrArg (fun x => x.testBit k) he
  have h19 : page2ppn a = 2 ^ 19 + a := Nat.add_comm ..
  have hlt : k < 19 := hk
  simp only [h19, Nat.testBit_xor, Nat.testBit_two_pow_self, Bool.xor_true] at hbit
  rw [Nat.testBit_two_pow_add_gt hlt] at hbit
  cases hb : a.testBit k <;> simp [hb] at hbit

/-- **Freeing** a block that is not joined with another one. -/
theorem buddyFreePages_spec (r : Repr s K M) (hn : 0 < n) (hk : orderOf n = some k)
    (ha : K a = some (k, false)) (hb : s.NoBuddy a k) :
    ∃ s', s.buddyFreePages a n = some s' ∧ Same s s' ∧
      Repr s' (Function.update K a (some (k, true))) M := by
  obtain ⟨s₁, s₂, h₁, -, hsame₁, hpage, h₂, hsame, r₂⟩ := r.release ha
  have h0 : ¬ n = 0 := by omega
  refine ⟨s₂, ?_, hsame, r₂⟩
  have hmerge : mergeLoop maxOrder a k s₁ = some (a, k, s₁) := by
    show mergeLoop (19 + 1) a k s₁ = _
    rw [mergeLoop]
    split_ifs with hlt
    · have hget : s₁.getBuddyPage a k = s.getBuddyPage a k := by simp only [getBuddyPage, hsame₁.1]
      rw [hget]
      cases hbud : s.getBuddyPage a k with
      | none => rfl
      | some buddy =>
        obtain ⟨hm, hno⟩ := hb.resolve_left (by omega) buddy hbud
        have hd : s₁.desc buddy = some (s.page buddy) := by
          rw [desc, if_pos (hsame₁.2 ▸ hm), hpage buddy (getBuddyPage_ne hlt hbud)]
        simp only [hd, Option.bind_eq_bind, Option.bind_some, if_neg hno]
    · rfl
  simp only [buddyFreePages, h0, if_false, hk, h₁, hmerge, h₂, Option.bind_eq_bind,
    Option.bind_some]

/-! ## Counting -/

/-- The pages of the block at `a`, if it is of this kind. -/
def sizeIn (K : ℕ → Option (ℕ × Bool)) (f : Bool) (a : ℕ) : ℕ :=
  match K a with
  | some (k, g) => if g = f then 2 ^ k else 0
  | none => 0

theorem size_eq (K : ℕ → Option (ℕ × Bool)) (a : ℕ) :
    size K a = sizeIn K true a + sizeIn K false a := by
  simp only [size, sizeIn]
  rcases K a with _ | ⟨k, _ | _⟩ <;> simp

/-- The free pages, order by order. -/
theorem Repr.sum_free (r : Repr s K M) :
    ∑ a ∈ M, sizeIn K true a = ∑ k ∈ Finset.range maxOrder, s.nrFree k * 2 ^ k := by
  have hk : ∀ k ∈ Finset.range maxOrder, s.nrFree k * 2 ^ k =
      ∑ a ∈ M, if K a = some (k, true) then 2 ^ k else 0 := by
    intro k hk
    obtain ⟨xs, hc, hn, hx⟩ := r.lists k (Finset.mem_range.1 hk)
    have hf : M.filter (fun a => K a = some (k, true)) = xs.toFinset := by
      ext a
      rw [Finset.mem_filter, List.mem_toFinset, hx]
      exact ⟨fun h => h.2, fun h => ⟨r.start_mem h, h⟩⟩
    rw [← Finset.sum_filter, hf, Finset.sum_const, List.toFinset_card_of_nodup (nodup_of_circ hc),
      hn, smul_eq_mul]
  rw [Finset.sum_congr rfl hk, Finset.sum_comm]
  refine Finset.sum_congr rfl fun a _ => ?_
  simp only [sizeIn]
  rcases hK : K a with _ | ⟨k, _ | _⟩
  · simp
  · simp
  · have hlt := Finset.mem_range.2 (r.lt a k true hK)
    simp [Finset.sum_ite_eq, hlt]

/-- **`buddy_nr_free_pages`** counts the pages that are in no live block. -/
theorem nrFreePages_spec (r : Repr s K s.managed) :
    s.buddyNrFreePages + ∑ a ∈ s.managed, sizeIn K false a = s.managed.card := by
  have hcard := r.apart.card r.covered
  rw [Finset.sum_congr rfl fun a _ => size_eq K a, Finset.sum_add_distrib, r.sum_free] at hcard
  have hbound := r.bound
  rw [buddyNrFreePages, Nat.mod_eq_of_lt (by omega), ← hcard]

end Ucore.Buddy
