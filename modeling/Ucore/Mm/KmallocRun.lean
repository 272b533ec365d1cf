/-
  Runs of `kmalloc` and `kfree`.

  * `Repr.kmallocSmall`, `Repr.kmallocBig`: what `kmalloc` returns;
  * `Repr.kfreeSmall`, `Repr.kfreeBig`: `kfree` gives back what `kmalloc` has taken;
  * `Inv.step`: the steps that do not panic keep the invariant.
-/
import Ucore.Lib.Machine
import Ucore.Mm.KmallocInv

namespace Ucore

open Slob Spans

namespace Slob

variable {k k' : Slob} {arena b w : ℕ} {F F' : Finset ℕ} {L : ℕ → ℕ}

/-- The byte at `w` belongs to a block of the free list. -/
def Free (k : Slob) (w : ℕ) : Prop :=
  ∃ n, k.next^[n] k.slobfree ≤ w ∧
    w < ptrAdd (k.next^[n] k.slobfree) (k.units (k.next^[n] k.slobfree))

/-- The free bytes are those of the pages that are not in use, and the arena. -/
theorem Blocks.free_iff (h : Blocks k arena F L) : k.Free w ↔
    ((∃ q ∈ k.pages, q ≤ w ∧ w < q + pgSize) ∨ (arena ≤ w ∧ w < arena + slobUnit)) ∧
      ∀ x, x ≤ w → ¬w < ptrAdd x (L x) := by
  have hhas : ∀ {a}, a ∈ F → (Has (k.span F L) a w ↔ a ≤ w ∧ w < ptrAdd a (k.units a)) :=
    fun {a} ha => by
      rw [Has, span_free ha]
      rfl
  have hlive : ∀ {x}, x ≤ w → w < ptrAdd x (L x) → x ∉ F ∧ Has (k.span F L) x w :=
    fun {x} h1 h2 => by
      have hL : 0 < L x := by
        rw [ptrAdd, slobUnit] at h2
        omega
      have hx := h.live_notMem hL
      refine ⟨hx, h1, ?_⟩
      rw [span_live hx]
      exact h2
  rw [← h.cover]
  constructor
  · rintro ⟨n, hn⟩
    have hm := h.ring.iterate_mem h.free n
    have ha := (hhas hm).2 hn
    refine ⟨⟨_, ha⟩, fun x h1 h2 => ?_⟩
    obtain ⟨hx, hxw⟩ := hlive h1 h2
    exact hx (h.apart.unique ha hxw ▸ hm)
  · rintro ⟨⟨a, ha⟩, hnone⟩
    have haF : a ∈ F := by
      by_contra haF
      obtain ⟨h1, h2⟩ := ha
      rw [span_live haF] at h2
      exact hnone a h1 h2
    obtain ⟨n, rfl⟩ := h.ring.reach h.free haF
    exact ⟨n, (hhas haF).1 ha⟩

/-- A block that is not in use any more is free. -/
theorem Blocks.freed (h : Blocks k arena F L) (hb : 0 < L b)
    (h' : Blocks k' arena F' (Function.update L b 0)) (hp : k'.pages = k.pages) (w : ℕ) :
    k'.Free w ↔ k.Free w ∨ (b ≤ w ∧ w < ptrAdd b (L b)) := by
  rw [h.free_iff, h'.free_iff, hp]
  constructor
  · rintro ⟨hc, hnone⟩
    by_cases hw : b ≤ w ∧ w < ptrAdd b (L b)
    · exact .inr hw
    · refine .inl ⟨hc, fun x h1 h2 => ?_⟩
      have hxb : x ≠ b := fun e => hw (e ▸ ⟨h1, h2⟩)
      refine hnone x h1 ?_
      rwa [Function.update_of_ne hxb]
  · intro hw
    refine ⟨?_, fun x h1 h2 => ?_⟩
    · obtain hw | hw := hw
      · exact hw.1
      · exact .inl (h.inPages hb hw.1 hw.2)
    · have hxb : x ≠ b := fun e => by
        rw [e, Function.update_self, ptrAdd] at h2
        omega
      rw [Function.update_of_ne hxb] at h2
      obtain hw | hw := hw
      · exact hw.2 x h1 h2
      · have hL : 0 < L x := by
          rw [ptrAdd, slobUnit] at h2
          omega
        refine hxb (h.apart.unique (p := w) ⟨h1, ?_⟩ ⟨hw.1, ?_⟩)
        · rw [span_live (h.live_notMem hL)]
          exact h2
        · rw [span_live (h.live_notMem hb)]
          exact hw.2

end Slob

namespace KmallocSys

variable {s s' : KmallocSys} {F F' : Finset ℕ} {L L' : ℕ → ℕ} {xs : List ℕ}
  {b bb p order size : ℕ} {k' : Slob} {answers : List (Option ℕ)} {pages : Option ℕ}

/-- Fresh pages: they meet none that are in use, and lie above the arena. -/
structure Fresh (s : KmallocSys) (p n : ℕ) : Prop where
  aligned : pgSize ∣ p
  above : s.arena + slobUnit < p
  slob : ∀ q ∈ s.heap.slob.pages, Apart p n q 1
  big : ∀ q bb order, s.live q = some (.pages bb order) → Apart p n q (2 ^ order)

theorem Fresh.page (h : s.Fresh p 1) : Blocks.Fresh s.heap.slob s.arena p where
  aligned := h.aligned
  above := h.above
  apart q hq := by
    have := h.slob q hq
    rwa [Apart, Nat.mul_one] at this

namespace Repr

/-- The rest of the heap after `slob_alloc`. -/
theorem allocated (r : s.Repr F L xs) {n : ℕ}
    (hfresh : ∀ page rest, answers = some page :: rest → s.Fresh page 1)
    (hal : Blocks.Allocated s.heap.slob k' s.arena L answers b n) :
    ∃ F', Coalesced k' F' ∅ ∧ ¬Used s xs b ∧
      Repr { s with heap := { s.heap with slob := k' } } F' (Function.update L b n) xs := by
  obtain ⟨F', hb, hco⟩ := hal.blocks
  have hused : ∀ c, Used s xs c → c ≠ b := fun c hc e => by
    have := r.used_pos hc
    rw [e, hal.new] at this
    omega
  refine ⟨F', hco, fun hu => hused b hu rfl, r.keep hb hco
    (fun c hc => Function.update_of_ne (hused c hc) _ _) (fun c hc w h1 h2 => ?_) fun q hq => ?_⟩
  · have hpos := r.used_pos hc
    have hpos : 0 < L c := by omega
    exact hal.kept c hpos (r.blocks.live_ne_zero hpos) w h1 h2
  · obtain e | ⟨page, rest, e, hpages⟩ := hal.pages
    · exact .inl (e ▸ hq)
    · rw [hpages, Finset.mem_insert] at hq
      obtain rfl | hq := hq
      · exact .inr fun p' bb' o hp' => ((hfresh q rest e).big p' bb' o hp').symm
      · exact .inl hq

/-- What the page allocator answers to `kmalloc`. -/
structure Answers (s : KmallocSys) (size : ℕ) (answers : List (Option ℕ)) (pages : Option ℕ) :
    Prop where
  page : ∀ page rest, answers = some page :: rest → s.Fresh page 1
  pages : ∀ p, pages = some p → s.Fresh p (2 ^ findOrder (toInt32 size)) ∧
    ∀ page rest, answers = some page :: rest → Apart p (2 ^ findOrder (toInt32 size)) page 1

/-- A small request. -/
theorem kmallocSmall (r : s.Repr F L xs) (hs : 0 < size) (hlt : size < 4064)
    (ha : Answers s size answers pages) :
    ∃ n p k', (∀ m ≥ n, s.heap.kmalloc m size answers pages = some (p, k')) ∧
      (p = 0 ∧ k' = s.heap ∨ p ≠ 0 ∧ s.live p = none ∧ ∃ F' L', Repr { s with
        heap := k', live := Function.update s.live p (some (.small size)) } F' L' xs) := by
  have hsmall : size < pgSize - slobUnit := by unfold pgSize slobUnit; omega
  obtain ⟨n, b, k', hk, ⟨rfl, rfl, -⟩ | ⟨hb0, hal⟩⟩ := r.blocks.slobAlloc_spec
    r.coalesced (by omega : slobUnit < size + slobUnit)
      (by unfold pgSize slobUnit; omega) fun page rest e => (ha.page page rest e).page
  · refine ⟨n, 0, s.heap, fun m hm => ?_, .inl ⟨rfl, rfl⟩⟩
    rw [Kmalloc.kmalloc, if_pos hsmall, hk m hm]
    rfl
  · obtain ⟨F', hco, hnu, r'⟩ := r.allocated ha.page hal
    have hlen : Function.update L b (slobUnits (size + slobUnit)) b = slobUnits (size + slobUnit) :=
      Function.update_self ..
    have hnone : s.live (b + slobUnit) = none := by
      cases hl : s.live (b + slobUnit) with
      | none => rfl
      | some g =>
        cases g with
        | small size' => exact absurd (.inr ⟨size', hl⟩) hnu
        | pages bb order =>
          -- the new block is in the pages of the list
          obtain ⟨q, hq, h1, h2⟩ := r'.blocks.inPages (b := b) (p := b + slobUnit)
            (by rw [hlen]; unfold slobUnits slobUnit; omega) (by omega)
            (by rw [hlen, ptrAdd]; unfold slobUnits slobUnit; omega)
          have := (r'.big _ bb order hl).2.2.2.2.2 q hq
          have hpos : 0 < 2 ^ order := Nat.two_pow_pos _
          rw [Apart, pgSize] at this
          rw [pgSize] at h2
          omega
    refine ⟨n, b + slobUnit, { s.heap with slob := k' }, fun m hm => ?_,
      .inr ⟨by omega, hnone, F', _, r'.addSmall hs hlen (hal.units.trans hlen.symm)
        (fun e => hnu (.inl e)) hnone⟩⟩
    rw [Kmalloc.kmalloc, if_pos hsmall, hk m hm]
    simp only [Option.map_some, if_pos hb0]

/-- Words of a new block in the SLOB list. -/
theorem writeNew (r : Repr { s with heap := { s.heap with slob := k' } } F L xs)
    (hco : Coalesced k' F ∅) (hnu : ¬Used s xs b) (hL : L b = 2) {w v : ℕ} (h1 : b ≤ w)
    (h2 : w < b + 32) :
    Coalesced (k'.setWord w v) F ∅ ∧
      Repr { s with heap := { s.heap with slob := k'.setWord w v } } F L xs := by
  have hpos : 0 < L b := by omega
  have hend : w < ptrAdd b (L b) := by
    rw [hL, ptrAdd, slobUnit]
    exact h2
  obtain ⟨hb, hco⟩ := r.blocks.write (v := v) hco hpos h1 hend
  refine ⟨hco, r.keep hb hco (fun _ _ => rfl) (fun c hc x h3 h4 => ?_) fun q hq => .inl hq⟩
  have hcpos : 0 < L c := by
    have := r.used_pos hc
    omega
  refine Function.update_of_ne (fun e => hnu ?_) _ _
  have hbc := r.blocks.apart.unique (p := x) ⟨h3, ?_⟩ ⟨e ▸ h1, ?_⟩
  · exact hbc ▸ hc
  · rw [Blocks.span_live (r.blocks.live_notMem hcpos)]
    exact h4
  · rw [Blocks.span_live (r.blocks.live_notMem hpos), e]
    exact hend

/-- A large request. -/
theorem kmallocBig (r : s.Repr F L xs) (hge : 4080 ≤ size) (ha : Answers s size answers pages) :
    ∃ n p k', (∀ m ≥ n, s.heap.kmalloc m size answers pages = some (p, k')) ∧
      (p = 0 ∧ ((∀ page rest, answers ≠ some page :: rest) ∨ pages = none) ∧
          (∃ F' L', Repr { s with heap := k' } F' L' xs) ∨
        p ≠ 0 ∧ pages = some p ∧ s.live p = none ∧
          (∀ q ∈ k'.slob.pages, q ∈ s.heap.slob.pages ∨ ∃ rest, answers = some q :: rest) ∧
          ∃ F' L' xs', Repr { s with
          heap := k'
          live := Function.update s.live p
            (some (.pages k'.bigblocks (findOrder (toInt32 size)))) } F' L' xs') := by
  have hbig : ¬size < pgSize - slobUnit := by unfold pgSize slobUnit; omega
  obtain ⟨n, b, k', hk, ⟨rfl, rfl, hno, -⟩ | ⟨hb0, hal⟩⟩ := r.blocks.slobAlloc_spec r.coalesced
    (by decide : slobUnit < sizeofBigblock)
      (by decide) fun page rest e => (ha.page page rest e).page
  · refine ⟨n, 0, s.heap, fun m hm => ?_, .inl ⟨rfl, .inl hno, F, L, r⟩⟩
    rw [Kmalloc.kmalloc, if_neg hbig, hk m hm]
    rfl
  · obtain ⟨F', hco, hnu, r'⟩ := r.allocated ha.page hal
    have hlen : Function.update L b (slobUnits sizeofBigblock) b = 2 := Function.update_self ..
    set L' := Function.update L b (slobUnits sizeofBigblock)
    set order := findOrder (toInt32 size)
    obtain ⟨hco₁, r₁⟩ := r'.writeNew (v := order) hco hnu hlen le_rfl (by omega)
    obtain ⟨hco₂, r₂⟩ := r₁.writeNew (w := b + 8) (v := pages.getD 0) hco₁ hnu hlen (by omega)
      (by omega)
    cases pages with
    | none =>
      obtain ⟨n₂, k₃, F₃, hfree, hb₃, hco₃, -, hpages, hkept⟩ := r₂.blocks.slobFree_spec (b := b)
        hco₂ (by omega) sizeofBigblock (by rw [if_neg (by decide), hlen]; rfl)
      have hused : ∀ c, Used s xs c → c ≠ b := fun c hc e => hnu (e ▸ hc)
      refine ⟨max n n₂, 0, { s.heap with slob := k₃ }, fun m hm => ?_, .inl ⟨rfl, .inr rfl, F₃, _,
        r₂.keep hb₃ hco₃ (fun c hc => Function.update_of_ne (hused c hc) _ _) (fun c hc w h1 h2 =>
          hkept c ?_ (hused c hc) w h1 h2) fun q hq => .inl (hpages ▸ hq)⟩⟩
      · rw [Kmalloc.kmalloc, if_neg hbig, hk m (by omega)]
        simp only [Option.bind_some, if_neg hb0]
        rw [hfree m (by omega)]
        rfl
      · have := r₂.used_pos hc
        omega
    | some p =>
      obtain ⟨hfresh, hpage⟩ := ha.pages p rfl
      obtain ⟨hco₃, r₃⟩ :=
        r₂.writeNew (w := b + 16) (v := s.heap.bigblocks) hco₂ hnu hlen (by omega)
        (by omega)
      have hp0 : p ≠ 0 := by
        have := hfresh.above
        omega
      have hnone : s.live p = none := by
        cases hl : s.live p with
        | none => rfl
        | some g =>
          have hpos : 0 < 2 ^ findOrder (toInt32 size) := Nat.two_pow_pos _
          cases g with
          | small size' =>
            obtain ⟨q, hq, h1, h2⟩ := r.small_inPages hl
            have := hfresh.slob q hq
            rw [Apart, pgSize] at this
            rw [pgSize] at h2
            omega
          | pages bb o =>
            have := hfresh.big p bb o hl
            have hpos' : 0 < 2 ^ o := Nat.two_pow_pos _
            rw [Apart, pgSize] at this
            omega
      have hpages : ∀ q ∈ k'.pages, Apart p (2 ^ order) q 1 := fun q hq => by
        obtain e | ⟨page, rest, e, e'⟩ := hal.pages
        · exact hfresh.slob q (e ▸ hq)
        · rw [e', Finset.mem_insert] at hq
          obtain rfl | hq := hq
          · exact hpage q rest e
          · exact hfresh.slob q hq
      refine ⟨n, p, _, fun m hm => ?_, .inr ⟨hp0, rfl, hnone, fun q hq => ?_, F', L', b :: xs,
        r₃.addBig hlen ?_ ?_ ?_ hnu hb0 hnone hfresh.aligned hfresh.above hpages hfresh.big⟩⟩
      · rw [Kmalloc.kmalloc, if_neg hbig, hk m hm]
        simp only [Option.bind_some, if_neg hb0]
        rfl
      · obtain e | ⟨page, rest, e, e'⟩ := hal.pages
        · exact .inl (e ▸ hq)
        · change q ∈ k'.pages at hq
          rw [e', Finset.mem_insert] at hq
          obtain rfl | hq := hq
          · exact .inr ⟨rest, e⟩
          · exact .inl hq
      · simp [setWord]
      · simp [setWord]
      · simp [setWord]

/-- The pages that go back to the page allocator. -/
def given (p : ℕ) : Grant → Option (ℕ × ℕ)
  | .small _ => none
  | .pages _ order => some (p, 2 ^ order)

/-- The bytes that go back to the SLOB list: a block with its header, or the entry of the pages. -/
def Taken (p : ℕ) (g : Grant) (w : ℕ) : Prop :=
  match g with
  | .small size => p - slobUnit ≤ w ∧ w < ptrAdd (p - slobUnit) (slobUnits (size + slobUnit))
  | .pages bb _ => bb ≤ w ∧ w < ptrAdd bb (slobUnits sizeofBigblock)

/-- `kfree` has given back what was taken for `p`. -/
structure Freed (s : KmallocSys) (p : ℕ) (g : Grant) (k' : Kmalloc) : Prop where
  repr : ∃ F' L' xs', Repr { s with heap := k', live := Function.update s.live p none } F' L' xs'
  pages : k'.slob.pages = s.heap.slob.pages
  free : ∀ w, k'.slob.Free w ↔ s.heap.slob.Free w ∨ Taken p g w

theorem kfreeSmall (r : s.Repr F L xs) (hp : s.live p = some (.small size)) :
    ∃ n k', (∀ m ≥ n, s.heap.kfree m p = some (k', none)) ∧ Freed s p (.small size) k' := by
  have hle := r.header p size hp
  obtain ⟨b, rfl⟩ : ∃ b, p = b + slobUnit := ⟨p - slobUnit, (Nat.sub_add_cancel hle).symm⟩
  obtain ⟨hsize, hL, hu, hbx⟩ := r.small b size hp
  have h2 := r.used_pos (.inr ⟨size, hp⟩)
  obtain ⟨n, k', F', hfree, hb, hco, -, hpages, hkept⟩ := r.blocks.slobFree_spec (b := b)
    r.coalesced (by omega) 0 (by rwa [if_pos rfl])
  have r₁ := r.dropSmall hp
  have hused : ∀ c, Used { s with live := Function.update s.live (b + slobUnit) none } xs c →
      c ≠ b := fun c hc e => by
    subst e
    obtain hc | ⟨n, hc⟩ := hc
    · exact hbx hc
    · change Function.update s.live (c + slobUnit) none (c + slobUnit) = _ at hc
      rw [Function.update_self] at hc
      cases hc
  have r₂ := r₁.keep hb hco (fun c hc => Function.update_of_ne (hused c hc) _ _)
    (fun c hc w h3 h4 => hkept c (by have := r₁.used_pos hc; omega) (hused c hc) w h3 h4)
    fun q hq => .inl (hpages ▸ hq)
  refine
    ⟨max n (xs.length + 1), { s.heap with slob := k' }, fun m hm => ?_, ⟨F', _, xs, r₂⟩, hpages,
    fun w => ?_⟩
  · have hsmall : s.heap.freeSmall m (b + slobUnit) = some ({ s.heap with slob := k' }, none) := by
      rw [Kmalloc.freeSmall, Nat.add_sub_cancel, hfree m (by omega)]
      rfl
    have hnone : s.heap.findBig (b + slobUnit) m none s.heap.bigblocks = some none := by
      refine findBig_none r.list (fun x hx e => ?_) m (by omega)
      obtain ⟨-, o, ho⟩ := r.node x hx
      rw [e, hp] at ho
      cases ho
    unfold Kmalloc.kfree
    rw [if_neg (by unfold slobUnit; omega)]
    split
    · rw [hnone]
      exact hsmall
    · exact hsmall
  · rw [Taken, Nat.add_sub_cancel, ← hL]
    exact r.blocks.freed (by omega) hb hpages w

/-- The entry at `bb` is taken out of the list. -/
theorem unlink {as cs : List ℕ} (r : s.Repr F L xs) (hxs : xs = as ++ bb :: cs) :
    ∃ k₁ h₁, s.heap.unlink as.getLast? bb = ⟨k₁, h₁⟩ ∧ Blocks k₁ s.arena F L ∧
      Coalesced k₁ F ∅ ∧ k₁.pages = s.heap.slob.pages ∧
      (∀ w, (∀ x ∈ xs, w ≠ x + 16) → k₁.mem w = s.heap.slob.mem w) ∧
        BigList k₁.mem h₁ (as ++ cs) := by
  have hlist := r.list
  have hnd := r.nodup
  rw [hxs] at hlist hnd
  obtain rfl | ⟨as, l, rfl⟩ := as.eq_nil_or_concat'
  · exact ⟨_, _, rfl, r.blocks, r.coalesced, rfl, fun _ _ => rfl, hlist.head⟩
  · have hl : l ∈ xs := by
      rw [hxs]
      simp
    have hL := (r.node l hl).1
    obtain ⟨hb, hco⟩ := r.blocks.write (w := l + 16) (v := s.heap.slob.mem (bb + 16)) r.coalesced
      (b := l) (by omega) (by omega) (by rw [hL, ptrAdd, slobUnit]; omega)
    refine ⟨_, s.heap.bigblocks, ?_, hb, hco, rfl,
      fun w hw => Function.update_of_ne (hw l hl) _ _, ?_⟩
    · rw [List.getLast?_concat]
      rfl
    · rw [List.append_assoc] at hlist hnd ⊢
      refine hlist.unlink hnd ?_ fun y hy => ?_
      · exact Function.update_self ..
      · exact Function.update_of_ne (by omega) _ _

theorem kfreeBig (r : s.Repr F L xs) (hp : s.live p = some (.pages bb order)) :
    ∃ n k', (∀ m ≥ n, s.heap.kfree m p = some (k', some (p, 2 ^ order))) ∧
      Freed s p (.pages bb order) k' := by
  obtain ⟨hbx, h0, h8, hal, habove, -⟩ := r.big p bb order hp
  have hp0 : p ≠ 0 := by omega
  obtain ⟨as, cs, hxs⟩ := List.append_of_mem hbx
  have hL := (r.node bb hbx).1
  obtain ⟨k₁, h₁, hk₁, hb₁, hco₁, hpages₁, hmem₁, hlist₁⟩ := r.unlink hxs
  have hnd := r.nodup
  rw [hxs] at hnd
  have hmem : ∀ x, x ∈ as ++ cs ↔ x ∈ xs ∧ x ≠ bb := fun x => by
    have hnot := (List.nodup_middle.1 hnd)
    rw [List.nodup_cons] at hnot
    rw [hxs, List.mem_append, List.mem_append, List.mem_cons]
    constructor
    · intro hx
      exact ⟨hx.imp_right .inr, fun e => hnot.1 (e ▸ List.mem_append.2 hx)⟩
    · rintro ⟨hx | hx | hx, hne⟩
      · exact .inl hx
      · exact absurd hx hne
      · exact .inr hx
  -- the words that `unlink` writes are in the entries, but not among their first two
  have hword : ∀ c, Used s xs c → ∀ i < 16, k₁.mem (c + i) = s.heap.slob.mem (c + i) :=
    fun c hc i hi => hmem₁ _ fun x hx e => by
      have h2 := r.used_pos hc
      have hLx := (r.node x hx).1
      by_cases hcx : c = x
      · omega
      · have := r.blocks.apart c x (r.blocks.span_pos_live (by omega))
          (r.blocks.span_pos_live (by omega)) hcx
        rw [Blocks.span_live (r.blocks.live_notMem (by omega)),
          Blocks.span_live (r.blocks.live_notMem (by omega)), slobUnit] at this
        omega
  have r₁ := r.dropBig hp hb₁ hco₁ (fun c hc =>
    ⟨hword c hc 0 (by decide), hword c hc 8 (by decide)⟩) hpages₁ hmem hlist₁
    (List.nodup_cons.1 (List.nodup_middle.1 hnd)).2
  obtain ⟨n, k', F', hfree, hb, hco, -, hpages, hkept⟩ := hb₁.slobFree_spec (b := bb)
    hco₁ (by omega) sizeofBigblock (by rw [if_neg (by decide), hL]; rfl)
  have hused : ∀ c, Used { s with heap := ⟨k₁, h₁⟩, live := Function.update s.live p none }
      (as ++ cs) c → c ≠ bb := fun c hc e => by
    obtain hc | ⟨size, hc⟩ := hc
    · exact ((hmem c).1 hc).2 e
    · have hlive : s.live (c + slobUnit) = some (.small size) := by
        change Function.update s.live p none (c + slobUnit) = _ at hc
        rw [Function.update_apply] at hc
        split at hc
        · cases hc
        · exact hc
      exact (r.small c size hlive).2.2.2 (e ▸ hbx)
  have r₂ := r₁.keep hb hco (fun c hc => Function.update_of_ne (hused c hc) _ _)
    (fun c hc w h3 h4 => hkept c (by have := r₁.used_pos hc; omega) (hused c hc) w h3 h4)
    fun q hq => .inl (hpages ▸ hq)
  refine ⟨max n (as.length + 1), ⟨k', h₁⟩, fun m hm => ?_, ⟨F', _, _, r₂⟩, hpages.trans hpages₁,
    fun w => ?_⟩
  · have hfind : s.heap.findBig p m none s.heap.bigblocks = some (some (as.getLast?, bb)) := by
      rw [← Option.or_none (o := as.getLast?)]
      refine findBig_some h8 (hxs ▸ r.list) (fun y hy e => ?_) m (by omega)
      have hyx : y ∈ as ++ cs := List.mem_append.2 (.inl hy)
      obtain ⟨hyx, hyb⟩ := (hmem y).1 hyx
      obtain ⟨-, o, ho⟩ := r.node y hyx
      rw [e, hp] at ho
      cases ho
      exact hyb rfl
    have horder : k₁.mem bb = order := (hword bb (.inl hbx) 0 (by decide)).trans h0
    unfold Kmalloc.kfree
    rw [if_neg hp0, if_pos (Nat.mod_eq_zero_of_dvd hal), hfind]
    simp only [Option.bind_some]
    rw [hk₁]
    simp only
    rw [hfree m (by omega), horder]
    rfl
  · have hsame : k₁.Free w ↔ s.heap.slob.Free w := by
      rw [hb₁.free_iff, r.blocks.free_iff, hpages₁]
    rw [Taken, ← hsame]
    have := hb₁.freed (by omega) hb hpages w
    rwa [hL] at this

/-- The callers write behind their pointers. -/
theorem write (r : s.Repr F L xs) {g : Grant} {w v : ℕ} (hp : s.live p = some g) (h1 : p ≤ w)
    (h2 : w < p + g.bytes) :
    Repr { s with heap := { s.heap with slob := s.heap.slob.setWord w v } } F L xs := by
  have hne : ∀ x, x ≠ w → (s.heap.slob.setWord w v).mem x = s.heap.slob.mem x := fun x hx =>
    Function.update_of_ne hx _ _
  -- where the words of the blocks in use are
  have hused :
      ∀ c, Used s xs c → ∀ i < 32, ∃ q ∈ s.heap.slob.pages, q ≤ c + i ∧ c + i < q + pgSize :=
    fun c hc i hi => by
      have := r.used_pos hc
      refine r.blocks.inPages (b := c) (by omega) (Nat.le_add_right ..) ?_
      rw [ptrAdd, slobUnit]
      omega
  cases g with
  | small size =>
    have hle := r.header p size hp
    obtain ⟨b, rfl⟩ : ∃ b, p = b + slobUnit := ⟨p - slobUnit, (Nat.sub_add_cancel hle).symm⟩
    obtain ⟨-, hL, -, hbx⟩ := r.small b size hp
    have hLb := r.used_pos (.inr ⟨size, hp⟩)
    have hend : b + 16 ≤ w ∧ w < ptrAdd b (L b) := by
      rw [Grant.bytes, ← hL] at h2
      unfold ptrAdd slobUnit at *
      omega
    obtain ⟨hb, hco⟩ := r.blocks.write (v := v) r.coalesced (b := b) (by omega) (by omega) hend.2
    have hother : ∀ c, Used s xs c → c ≠ b → ∀ i < 32, c + i ≠ w := fun c hc hcb i hi e => by
      have hLc := r.used_pos hc
      have := r.blocks.apart c b (r.blocks.span_pos_live (by omega))
        (r.blocks.span_pos_live (by omega)) hcb
      rw [Blocks.span_live (r.blocks.live_notMem (by omega)),
        Blocks.span_live (r.blocks.live_notMem (by omega))] at this
      unfold ptrAdd slobUnit at *
      omega
    refine r.keepWords hb hco (fun _ _ => rfl) (fun c hc => hne c ?_) (fun x hx => ?_) fun q hq =>
      .inl hq
    · by_cases hcb : c = b
      · omega
      · exact hother c hc hcb 0 (by decide)
    · have hxb : x ≠ b := fun e => hbx (e ▸ hx)
      exact ⟨hne _ (hother x (.inl hx) hxb 8 (by decide)),
        hne _ (hother x (.inl hx) hxb 16 (by decide))⟩
  | pages bb order =>
    obtain ⟨-, -, -, -, habove, hapart⟩ := r.big p bb order hp
    have hout : ∀ x, (∃ q ∈ s.heap.slob.pages, q ≤ x ∧ x < q + pgSize) → x ≠ w := by
      rintro x ⟨q, hq, h3, h4⟩ rfl
      have := hapart q hq
      rw [Apart] at this
      rw [Grant.bytes] at h2
      omega
    have hfree : ∀ a ∈ F, ∀ i < 16, a + i ≠ w := fun a ha i hi => by
      have hpos := r.blocks.pos a ha
      have hhas : Has (s.heap.slob.span F L) a (a + i) := by
        refine ⟨Nat.le_add_right .., ?_⟩
        rw [Blocks.span_free ha, slobUnit]
        omega
      obtain hq | ⟨-, hlt⟩ := (r.blocks.cover _).1 ⟨a, hhas⟩
      · exact hout _ hq
      · omega
    have hu : ∀ a ∈ F, (s.heap.slob.setWord w v).units a = s.heap.slob.units a := fun a ha =>
      hne a (hfree a ha 0 (by decide))
    have hx : ∀ a ∈ F, (s.heap.slob.setWord w v).next a = s.heap.slob.next a := fun a ha =>
      hne _ (hfree a ha 8 (by decide))
    refine r.keepWords (r.blocks.congr hu hx r.blocks.free rfl) (fun a ha hX => ?_) (fun _ _ => rfl)
      (fun c hc => hne c (hout c (hused c hc 0 (by decide)))) (fun x hx => ?_) fun q hq => .inl hq
    · rw [hu a ha, hx a ha]
      exact r.coalesced a ha hX
    · exact ⟨hne _ (hout _ (hused x (.inl hx) 8 (by decide))),
        hne _ (hout _ (hused x (.inl hx) 16 (by decide)))⟩

end Repr

/-! ## Runs -/

inductive KmallocOp where
  | kmalloc (size : ℕ) (answers : List (Option ℕ)) (pages : Option ℕ)
  | kfree (p : ℕ)
  | write (w v : ℕ)

/-- What the caller of `kmalloc` has got. -/
def grant (k : Kmalloc) (size : ℕ) : Grant :=
  if size < pgSize - slobUnit then .small size else .pages k.bigblocks (findOrder (toInt32 size))

/-- A step with fuel for its loops. -/
def step (s : KmallocSys) : KmallocOp × ℕ → Option KmallocSys
  | (.kmalloc size answers pages, fuel) =>
    (s.heap.kmalloc fuel size answers pages).map fun (p, k) =>
      { s with
        heap := k
        live := if p = 0 then s.live else Function.update s.live p (some (grant k size)) }
  | (.kfree p, fuel) => (s.heap.kfree fuel p).map fun (k, _) =>
    { s with heap := k, live := Function.update s.live p none }
  | (.write w v, _) => some { s with heap := { s.heap with slob := s.heap.slob.setWord w v } }

/-- Callers free what they have got, and write behind their pointers; the page allocator returns
    fresh pages. -/
def Legal (s : KmallocSys) : KmallocOp → Prop
  | .kmalloc size answers pages => 1 ≤ size ∧ Repr.Answers s size answers pages
  | .kfree p => ∃ g, s.live p = some g
  | .write w _ => ∃ p g, s.live p = some g ∧ p ≤ w ∧ w < p + g.bytes

structure Init (s : KmallocSys) : Prop where
  slobfree : s.heap.slob.slobfree = s.arena
  next : s.heap.slob.next s.arena = s.arena
  units : s.heap.slob.units s.arena = 1
  pages : s.heap.slob.pages = ∅
  bigblocks : s.heap.bigblocks = 0
  live : ∀ p, s.live p = none

def Inv (s : KmallocSys) : Prop := ∃ F L xs, s.Repr F L xs

theorem Init.inv (h : s.Init) : s.Inv := by
  obtain ⟨hb, hco⟩ := Blocks.initial h.slobfree h.next h.units h.pages
  have hnone : ∀ {p g}, s.live p ≠ some g := fun {p g} hp => by
    rw [h.live] at hp
    cases hp
  exact ⟨_, _, [], hb, hco, fun _ _ hp => absurd hp hnone, fun _ _ hp => absurd hp hnone,
    fun _ _ _ hp => absurd hp hnone, fun _ hx => absurd hx List.not_mem_nil, h.bigblocks,
    List.nodup_nil, fun _ _ _ _ _ _ hp => absurd hp hnone⟩

/-- The assertion of `slob_alloc` fails. -/
theorem kmalloc_panics (h1 : 4064 ≤ size) (h2 : size < 4080) (k : Kmalloc) (m : ℕ) :
    k.kmalloc m size answers pages = none := by
  unfold Kmalloc.kmalloc slobAlloc
  rw [if_pos (by unfold pgSize slobUnit; omega), if_neg (by unfold pgSize slobUnit; omega)]
  rfl

theorem Inv.kmalloc (h : s.Inv) (hs : 1 ≤ size) (hfit : size < 4064 ∨ 4080 ≤ size)
    (ha : Repr.Answers s size answers pages) :
    ∃ n p k', (∀ m ≥ n, s.heap.kmalloc m size answers pages = some (p, k')) ∧
      (p = 0 ∧ Inv { s with heap := k' } ∨ p ≠ 0 ∧ s.live p = none ∧
        Inv { s with heap := k', live := Function.update s.live p (some (grant k' size)) }) := by
  obtain ⟨F, L, xs, r⟩ := h
  obtain hlt | hge := hfit
  · obtain ⟨n, p, k', hrun, ⟨hp, rfl⟩ | ⟨hp, hnone, F', L', r'⟩⟩ := r.kmallocSmall hs hlt ha
    · exact ⟨n, p, _, hrun, .inl ⟨hp, F, L, xs, r⟩⟩
    · have hg : grant k' size = .small size := if_pos (by unfold pgSize slobUnit; omega)
      exact ⟨n, p, k', hrun, .inr ⟨hp, hnone, F', L', xs, hg.symm ▸ r'⟩⟩
  · obtain ⟨n, p, k', hrun, ⟨hp, -, F', L', r'⟩ | ⟨hp, -, hnone, -, F', L', xs', r'⟩⟩ :=
      r.kmallocBig hge ha
    · exact ⟨n, p, k', hrun, .inl ⟨hp, F', L', xs, r'⟩⟩
    · have hg : grant k' size = .pages k'.bigblocks (findOrder (toInt32 size)) :=
        if_neg (by unfold pgSize slobUnit; omega)
      exact ⟨n, p, k', hrun, .inr ⟨hp, hnone, F', L', xs', hg.symm ▸ r'⟩⟩

theorem Inv.kfree {g : Grant} (h : s.Inv) (hp : s.live p = some g) :
    ∃ n k', (∀ m ≥ n, s.heap.kfree m p = some (k', Repr.given p g)) ∧ Repr.Freed s p g k' := by
  obtain ⟨F, L, xs, r⟩ := h
  cases g with
  | small size => exact r.kfreeSmall hp
  | pages bb order => exact r.kfreeBig hp

/-- `kmalloc` and `kfree`. -/
def machine : Machine KmallocSys (KmallocOp × ℕ) where
  Init := Init
  Legal s i := s.Legal i.1
  step := step

theorem findBig_more {k : Kmalloc} {block n m : ℕ} : ∀ {last : Option ℕ} {bb : ℕ}
    {r : Option (Option ℕ × ℕ)}, k.findBig block n last bb = some r → n ≤ m →
    k.findBig block m last bb = some r := by
  induction n generalizing m with
  | zero => exact fun h _ => by cases h
  | succ n ih =>
    intro last bb r h hle
    obtain ⟨m, rfl⟩ := Nat.exists_eq_add_of_le' (Nat.one_le_of_lt hle)
    unfold Kmalloc.findBig at h ⊢
    split
    · rwa [if_pos ‹_›] at h
    · rw [if_neg ‹_›] at h
      split
      · rwa [if_pos ‹_›] at h
      · rw [if_neg ‹_›] at h
        exact ih h (Nat.le_of_succ_le_succ hle)

theorem kfree_more {k : Kmalloc} {n m : ℕ} {r : Kmalloc × Option (ℕ × ℕ)}
    (h : k.kfree n p = some r) (hle : n ≤ m) : k.kfree m p = some r := by
  have hsmall : ∀ {r}, k.freeSmall n p = some r → k.freeSmall m p = some r := fun {r} h => by
    obtain ⟨s, hs, rfl⟩ := Option.map_eq_some_iff.1 h
    exact Option.map_eq_some_iff.2 ⟨s, slobFree_more hs hle, rfl⟩
  unfold Kmalloc.kfree at h ⊢
  split
  · rwa [if_pos ‹_›] at h
  · rw [if_neg ‹_›] at h
    split
    · rw [if_pos ‹_›] at h
      obtain ⟨o, ho, hr⟩ := Option.bind_eq_some_iff.1 h
      refine Option.bind_eq_some_iff.2 ⟨o, findBig_more ho hle, ?_⟩
      cases o with
      | none => exact hsmall hr
      | some e =>
        obtain ⟨s, hs, rfl⟩ := Option.map_eq_some_iff.1 hr
        exact Option.map_eq_some_iff.2 ⟨s, slobFree_more hs hle, rfl⟩
    · rw [if_neg ‹_›] at h
      exact hsmall h

theorem kmalloc_more {k : Kmalloc} {n m : ℕ} {r : ℕ × Kmalloc}
    (h : k.kmalloc n size answers pages = some r) (hle : n ≤ m) :
    k.kmalloc m size answers pages = some r := by
  unfold Kmalloc.kmalloc at h ⊢
  split
  · rw [if_pos ‹_›] at h
    obtain ⟨s, hs, rfl⟩ := Option.map_eq_some_iff.1 h
    exact Option.map_eq_some_iff.2 ⟨s, slobAlloc_more hs hle, rfl⟩
  · rw [if_neg ‹_›] at h
    obtain ⟨⟨bb, s⟩, hs, hr⟩ := Option.bind_eq_some_iff.1 h
    refine Option.bind_eq_some_iff.2 ⟨(bb, s), slobAlloc_more hs hle, ?_⟩
    simp only at hr ⊢
    split
    · rwa [if_pos ‹_›] at hr
    · rw [if_neg ‹_›] at hr
      cases pages with
      | some p => exact hr
      | none =>
        obtain ⟨t, ht, rfl⟩ := Option.map_eq_some_iff.1 hr
        exact Option.map_eq_some_iff.2 ⟨t, slobFree_more ht hle, rfl⟩

/-- **Every step** that does not panic keeps the invariant. -/
theorem Inv.step {i : KmallocOp × ℕ} (h : s.Inv) (hl : s.Legal i.1) (hs : s.step i = some s') :
    s'.Inv := by
  obtain ⟨op, fuel⟩ := i
  cases op with
  | kmalloc size answers pages =>
    obtain ⟨h1, ha⟩ := hl
    obtain ⟨⟨p, k'⟩, hk, rfl⟩ := Option.map_eq_some_iff.1 hs
    have hfit : size < 4064 ∨ 4080 ≤ size := by
      by_contra hno
      rw [kmalloc_panics (by omega) (by omega)] at hk
      cases hk
    obtain ⟨n, p₁, k₁, hrun, hres⟩ := h.kmalloc h1 hfit ha
    have he := hrun _ (le_max_left n fuel)
    rw [kmalloc_more hk (le_max_right n fuel)] at he
    cases he
    obtain ⟨rfl, hi⟩ | ⟨hp, -, hi⟩ := hres
    · exact hi
    · simp only [if_neg hp]
      exact hi
  | kfree p =>
    obtain ⟨g, hg⟩ := hl
    obtain ⟨⟨k', o⟩, hk, rfl⟩ := Option.map_eq_some_iff.1 hs
    obtain ⟨n, k₁, hrun, hfreed⟩ := h.kfree hg
    have he := hrun _ (le_max_left n fuel)
    rw [kfree_more hk (le_max_right n fuel)] at he
    cases he
    obtain ⟨F', L', xs', r'⟩ := hfreed.repr
    exact ⟨F', L', xs', r'⟩
  | write w v =>
    obtain ⟨p, g, hg, h1, h2⟩ := hl
    obtain ⟨F, L, xs, r⟩ := h
    cases hs
    exact ⟨F, L, xs, r.write hg h1 h2⟩

theorem reach_inv (h : machine.Reach s) : s.Inv :=
  h.preserved (fun _ h0 => h0.inv) fun _ _ _ hi hl hs => hi.step hl hs

end KmallocSys

end Ucore
