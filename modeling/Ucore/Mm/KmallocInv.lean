/-
  The blocks that `kmalloc` has handed out.

  * `Repr`: each of them is a block of the SLOB list with its header, or pages with an entry in
    the list `bigblocks`;
  * `Repr.keep`: what the SLOB allocator does elsewhere does not matter;
  * `Repr.addSmall`, `Repr.addBig`, `Repr.dropSmall`, `Repr.dropBig`: a block comes, or goes.
-/
import Ucore.Mm.Kmalloc
import Ucore.Mm.SlobAlloc

namespace Ucore

open Slob Spans

/-- What a caller of `kmalloc` has got: a block of the SLOB list for this size, or pages. -/
inductive Grant where
  | small (size : ℕ)
  | pages (bb order : ℕ)

/-- The bytes behind the pointer. -/
def Grant.bytes : Grant → ℕ
  | small size => slobUnit * slobUnits (size + slobUnit) - slobUnit
  | pages _ order => pgSize * 2 ^ order

structure KmallocSys where
  heap : Kmalloc
  arena : ℕ
  live : ℕ → Option Grant

/-- The list of `bigblock_t` that starts at `bb`. -/
def BigList (mem : ℕ → ℕ) : ℕ → List ℕ → Prop
  | bb, [] => bb = 0
  | bb, x :: xs => bb = x ∧ x ≠ 0 ∧ BigList mem (mem (x + 16)) xs

namespace BigList

variable {mem mem' : ℕ → ℕ} {bb x : ℕ} {xs as cs : List ℕ}

theorem congr (h : BigList mem bb xs) (hm : ∀ x ∈ xs, mem' (x + 16) = mem (x + 16)) :
    BigList mem' bb xs := by
  induction xs generalizing bb with
  | nil => exact h
  | cons x xs ih =>
    refine ⟨h.1, h.2.1, ?_⟩
    rw [hm x List.mem_cons_self]
    exact ih h.2.2 fun y hy => hm y (List.mem_cons_of_mem x hy)

/-- Taking out the first entry. -/
theorem head {mem : ℕ → ℕ} {bb x : ℕ} {cs : List ℕ} (h : BigList mem bb (x :: cs)) :
    BigList mem (mem (x + 16)) cs := h.2.2

/-- Taking out an entry behind `l`. -/
theorem unlink {l : ℕ} (h : BigList mem bb (as ++ l :: x :: cs))
    (hnd : (as ++ l :: x :: cs).Nodup) (hl : mem' (l + 16) = mem (x + 16))
    (hm : ∀ y, y ≠ l → mem' (y + 16) = mem (y + 16)) : BigList mem' bb (as ++ l :: cs) := by
  induction as generalizing bb with
  | nil =>
    obtain ⟨h1, h2, h3, h4, h5⟩ := h
    refine ⟨h1, h2, ?_⟩
    rw [hl]
    refine h5.congr fun y hy => hm y fun e => ?_
    rw [List.nil_append, List.nodup_cons] at hnd
    exact hnd.1 (List.mem_cons_of_mem x (e ▸ hy))
  | cons a as ih =>
    rw [List.cons_append, List.nodup_cons] at hnd
    refine ⟨h.1, h.2.1, ?_⟩
    rw [hm a fun e => hnd.1 (by rw [e]; simp)]
    exact ih h.2.2 hnd.2

end BigList

namespace KmallocSys

variable {s s' : KmallocSys} {F F' : Finset ℕ} {L L' : ℕ → ℕ} {xs : List ℕ}
  {b bb p order size : ℕ} {k' : Slob}

/-- The pages at `p` do not meet those at `q`. -/
def Apart (p n q m : ℕ) : Prop := p + pgSize * n ≤ q ∨ q + pgSize * m ≤ p

/-- The blocks in use of the SLOB list have the lengths `L`, and `bigblocks` is the list `xs`. -/
structure Repr (s : KmallocSys) (F : Finset ℕ) (L : ℕ → ℕ) (xs : List ℕ) : Prop where
  blocks : Blocks s.heap.slob s.arena F L
  coalesced : Coalesced s.heap.slob F ∅
  small : ∀ b size, s.live (b + slobUnit) = some (.small size) →
    0 < size ∧ L b = slobUnits (size + slobUnit) ∧ s.heap.slob.units b = L b ∧ b ∉ xs
  header : ∀ p size, s.live p = some (.small size) → slobUnit ≤ p
  big : ∀ p bb order, s.live p = some (.pages bb order) → bb ∈ xs ∧ s.heap.slob.mem bb = order ∧
    s.heap.slob.mem (bb + 8) = p ∧ pgSize ∣ p ∧ s.arena + slobUnit < p ∧
    ∀ q ∈ s.heap.slob.pages, Apart p (2 ^ order) q 1
  node : ∀ x ∈ xs, L x = 2 ∧ ∃ order, s.live (s.heap.slob.mem (x + 8)) = some (.pages x order)
  list : BigList s.heap.slob.mem s.heap.bigblocks xs
  nodup : xs.Nodup
  apart : ∀ p bb order p' bb' order', s.live p = some (.pages bb order) →
    s.live p' = some (.pages bb' order') → p ≠ p' → Apart p (2 ^ order) p' (2 ^ order')

namespace Repr

/-- The SLOB block at `b` belongs to something that has been handed out. -/
def Used (s : KmallocSys) (xs : List ℕ) (b : ℕ) : Prop :=
  b ∈ xs ∨ ∃ size, s.live (b + slobUnit) = some (.small size)

theorem used_pos (r : s.Repr F L xs) (h : Used s xs b) : 2 ≤ L b := by
  obtain hb | ⟨size, hb⟩ := h
  · exact (r.node b hb).1.ge
  · obtain ⟨h1, h2, -⟩ := r.small b size hb
    rw [h2]
    unfold slobUnits slobUnit
    omega

/-- Other blocks may change, and other words. -/
theorem keepWords (r : s.Repr F L xs) (hb : Blocks k' s.arena F' L') (hco : Coalesced k' F' ∅)
    (hL : ∀ b, Used s xs b → L' b = L b) (hhead : ∀ b, Used s xs b → k'.mem b = s.heap.slob.mem b)
    (hnode : ∀ x ∈ xs, k'.mem (x + 8) = s.heap.slob.mem (x + 8) ∧
      k'.mem (x + 16) = s.heap.slob.mem (x + 16))
    (hpages : ∀ q ∈ k'.pages, q ∈ s.heap.slob.pages ∨
      ∀ p bb order, s.live p = some (.pages bb order) → Apart p (2 ^ order) q 1) :
    Repr { s with heap := { s.heap with slob := k' } } F' L' xs := by
  refine ⟨hb, hco, fun b size hs => ?_, r.header, fun p bb order hp => ?_, fun x hx => ?_,
    ?_, r.nodup,
    r.apart⟩
  · obtain ⟨h1, h2, h3, h4⟩ := r.small b size hs
    have hu : Used s xs b := .inr ⟨size, hs⟩
    rw [hL b hu]
    exact ⟨h1, h2, (hhead b hu).trans h3, h4⟩
  · obtain ⟨h1, h2, h3, h4, h5, h6⟩ := r.big p bb order hp
    refine ⟨h1, (hhead bb (.inl h1)).trans h2, (hnode bb h1).1.trans h3, h4, h5, fun q hq => ?_⟩
    obtain hq | hq := hpages q hq
    · exact h6 q hq
    · exact hq p bb order hp
  · obtain ⟨h1, order, h2⟩ := r.node x hx
    refine ⟨(hL x (.inl hx)).trans h1, order, ?_⟩
    change s.live (k'.mem (x + 8)) = _
    rw [(hnode x hx).1]
    exact h2
  · exact r.list.congr fun x hx => (hnode x hx).2

/-- Other blocks may change. -/
theorem keep (r : s.Repr F L xs) (hb : Blocks k' s.arena F' L') (hco : Coalesced k' F' ∅)
    (hL : ∀ b, Used s xs b → L' b = L b)
    (hmem : ∀ b, Used s xs b → ∀ w, b ≤ w → w < ptrAdd b (L b) → k'.mem w = s.heap.slob.mem w)
    (hpages : ∀ q ∈ k'.pages, q ∈ s.heap.slob.pages ∨
      ∀ p bb order, s.live p = some (.pages bb order) → Apart p (2 ^ order) q 1) :
    Repr { s with heap := { s.heap with slob := k' } } F' L' xs := by
  have hword : ∀ b, Used s xs b → ∀ i < 32, k'.mem (b + i) = s.heap.slob.mem (b + i) :=
    fun b hb i hi => by
      have := r.used_pos hb
      refine hmem b hb (b + i) (Nat.le_add_right ..) ?_
      rw [ptrAdd, slobUnit]
      omega
  exact r.keepWords hb hco hL (fun b hb => hword b hb 0 (by decide)) (fun x hx =>
    ⟨hword x (.inl hx) 8 (by decide), hword x (.inl hx) 16 (by decide)⟩) hpages

/-- The pointers to blocks of the SLOB list lie in its pages. -/
theorem small_inPages (r : s.Repr F L xs) (hp : s.live p = some (.small size)) :
    ∃ q ∈ s.heap.slob.pages, q ≤ p ∧ p < q + pgSize := by
  obtain ⟨b, rfl⟩ : ∃ b, p = b + slobUnit :=
    ⟨p - slobUnit, (Nat.sub_add_cancel (r.header p size hp)).symm⟩
  have hpos := r.used_pos (.inr ⟨size, hp⟩)
  refine r.blocks.inPages (b := b) (by omega) (Nat.le_add_right ..) ?_
  rw [ptrAdd, slobUnit]
  omega

theorem addSmall (r : s.Repr F L xs) (hsize : 0 < size) (hL : L b = slobUnits (size + slobUnit))
    (hu : s.heap.slob.units b = L b) (hb : b ∉ xs) (hnone : s.live (b + slobUnit) = none) :
    Repr { s with live := Function.update s.live (b + slobUnit) (some (.small size)) } F L xs := by
  have hlive : ∀ {q g}, Function.update s.live (b + slobUnit) (some (Grant.small size)) q = some g →
      q = b + slobUnit ∧ g = .small size ∨ s.live q = some g := fun {q g} hq => by
    rw [Function.update_apply] at hq
    split at hq
    · cases hq
      exact .inl ⟨‹_›, rfl⟩
    · exact .inr hq
  have hbig : ∀ {q bb order}, Function.update s.live (b + slobUnit) (some (Grant.small size)) q =
      some (.pages bb order) → s.live q = some (.pages bb order) := fun {q bb order} hq => by
    obtain ⟨-, e⟩ | hq := hlive hq
    · cases e
    · exact hq
  refine ⟨r.blocks, r.coalesced, fun c n hc => ?_, fun q n hq => ?_,
    fun q bb order hq => r.big q bb order (hbig hq), fun x hx => ?_, r.list, r.nodup,
    fun q bb o q' bb' o' hq hq' => r.apart q bb o q' bb' o' (hbig hq) (hbig hq')⟩
  · obtain ⟨e, e'⟩ | hc := hlive hc
    · cases e'
      obtain rfl := Nat.add_right_cancel e
      exact ⟨hsize, hL, hu, hb⟩
    · exact r.small c n hc
  · obtain ⟨rfl, -⟩ | hq := hlive hq
    · exact Nat.le_add_left ..
    · exact r.header q n hq
  · obtain ⟨h1, order, h2⟩ := r.node x hx
    refine ⟨h1, order, (Function.update_of_ne (fun e => ?_) _ _).trans h2⟩
    rw [e, hnone] at h2
    cases h2

theorem addBig (r : s.Repr F L xs) (hL : L bb = 2) (h0 : s.heap.slob.mem bb = order)
    (h8 : s.heap.slob.mem (bb + 8) = p) (h16 : s.heap.slob.mem (bb + 16) = s.heap.bigblocks)
    (hbb : ¬Used s xs bb) (hne : bb ≠ 0) (hnone : s.live p = none) (hp : pgSize ∣ p)
    (habove : s.arena + slobUnit < p) (hpages : ∀ q ∈ s.heap.slob.pages, Apart p (2 ^ order) q 1)
    (hapart : ∀ p' bb' order', s.live p' = some (.pages bb' order') →
      Apart p (2 ^ order) p' (2 ^ order')) :
    Repr { s with
      heap := { s.heap with bigblocks := bb }
      live := Function.update s.live p (some (.pages bb order)) } F L (bb :: xs) := by
  have hlive : ∀ {q g}, Function.update s.live p (some (Grant.pages bb order)) q = some g →
      q = p ∧ g = .pages bb order ∨ s.live q = some g ∧ q ≠ p := fun {q g} hq => by
    rw [Function.update_apply] at hq
    split at hq
    · cases hq
      exact .inl ⟨‹_›, rfl⟩
    · exact .inr ⟨hq, ‹_›⟩
  have hsmall : ∀ {q n}, Function.update s.live p (some (Grant.pages bb order)) q =
      some (.small n) → s.live q = some (.small n) := fun {q n} hq => by
    obtain ⟨-, e⟩ | ⟨hq, -⟩ := hlive hq
    · cases e
    · exact hq
  have hsym : ∀ {p n q m}, Apart p n q m → Apart q m p n := Or.symm
  refine ⟨r.blocks, r.coalesced, fun c n hc => ?_, fun q n hq => r.header q n (hsmall hq),
    fun q bb' o hq => ?_, fun x hx => ?_, ⟨rfl, hne, ?_⟩,
    List.nodup_cons.2 ⟨fun e => hbb (.inl e), r.nodup⟩, fun q b₁ o q' b₂ o' hq hq' hqq => ?_⟩
  · obtain ⟨h1, h2, h3, h4⟩ := r.small c n (hsmall hc)
    refine ⟨h1, h2, h3, fun e => ?_⟩
    obtain rfl | e := List.mem_cons.1 e
    · exact hbb (.inr ⟨n, hsmall hc⟩)
    · exact h4 e
  · obtain ⟨rfl, e⟩ | ⟨hq, -⟩ := hlive hq
    · cases e
      exact ⟨List.mem_cons_self, h0, h8, hp, habove, hpages⟩
    · obtain ⟨h1, h2⟩ := r.big q bb' o hq
      exact ⟨List.mem_cons_of_mem _ h1, h2⟩
  · obtain rfl | hx := List.mem_cons.1 hx
    · refine ⟨hL, order, ?_⟩
      change Function.update s.live p _ (s.heap.slob.mem (x + 8)) = _
      rw [h8]
      exact Function.update_self ..
    · obtain ⟨h1, o, h2⟩ := r.node x hx
      refine ⟨h1, o, (Function.update_of_ne (fun e => ?_) _ _).trans h2⟩
      rw [e, hnone] at h2
      cases h2
  · change BigList s.heap.slob.mem (s.heap.slob.mem (bb + 16)) xs
    rw [h16]
    exact r.list
  · obtain ⟨rfl, e⟩ | ⟨h₁, -⟩ := hlive hq
    · cases e
      obtain ⟨rfl, -⟩ | ⟨h₂, -⟩ := hlive hq'
      · exact absurd rfl hqq
      · exact hapart q' b₂ o' h₂
    · obtain ⟨rfl, e⟩ | ⟨h₂, -⟩ := hlive hq'
      · cases e
        exact hsym (hapart q b₁ o h₁)
      · exact r.apart q b₁ o q' b₂ o' h₁ h₂ hqq

theorem dropSmall (r : s.Repr F L xs) (hp : s.live p = some (.small size)) :
    Repr { s with live := Function.update s.live p none } F L xs := by
  have hlive : ∀ {q g}, Function.update s.live p none q = some g → s.live q = some g :=
    fun {q g} hq => by
      rw [Function.update_apply] at hq
      split at hq
      · cases hq
      · exact hq
  refine ⟨r.blocks, r.coalesced, fun c n hc => r.small c n (hlive hc),
    fun q n hq => r.header q n (hlive hq), fun q bb o hq => r.big q bb o (hlive hq), fun x hx => ?_,
    r.list, r.nodup, fun q b o q' b' o' hq hq' => r.apart q b o q' b' o' (hlive hq) (hlive hq')⟩
  obtain ⟨h1, o, h2⟩ := r.node x hx
  refine ⟨h1, o, (Function.update_of_ne (fun e => ?_) _ _).trans h2⟩
  rw [e, hp] at h2
  cases h2

/-- The entry of the pages at `p` is not in the list any more. -/
theorem dropBig {ys : List ℕ} {h' : ℕ} (r : s.Repr F L xs) (hp : s.live p = some (.pages bb order))
    (hb : Blocks k' s.arena F L) (hco : Coalesced k' F ∅)
    (hmem : ∀ c, Used s xs c → k'.mem c = s.heap.slob.mem c ∧
      k'.mem (c + 8) = s.heap.slob.mem (c + 8))
    (hpages : k'.pages = s.heap.slob.pages) (hys : ∀ x, x ∈ ys ↔ x ∈ xs ∧ x ≠ bb)
    (hlist : BigList k'.mem h' ys) (hnd : ys.Nodup) :
    Repr { s with heap := ⟨k', h'⟩, live := Function.update s.live p none } F L ys := by
  have hlive : ∀ {q g}, Function.update s.live p none q = some g → q ≠ p ∧ s.live q = some g :=
    fun {q g} hq => by
      rw [Function.update_apply] at hq
      split at hq
      · cases hq
      · exact ⟨‹_›, hq⟩
  have hself := (r.big p bb order hp).2.2.1
  refine ⟨hb, hco, fun c n hc => ?_, fun q n hq => r.header q n (hlive hq).2,
    fun q b' o hq => ?_, fun x hx => ?_, hlist, hnd,
    fun q b o q' b' o' hq hq' => r.apart q b o q' b' o' (hlive hq).2 (hlive hq').2⟩
  · have hc := (hlive hc).2
    obtain ⟨h1, h2, h3, h4⟩ := r.small c n hc
    exact ⟨h1, h2, (hmem c (.inr ⟨n, hc⟩)).1.trans h3, fun e => h4 ((hys c).1 e).1⟩
  · obtain ⟨hqp, hq⟩ := hlive hq
    obtain ⟨h1, h2, h3, h4, h5, h6⟩ := r.big q b' o hq
    obtain ⟨e0, e8⟩ := hmem b' (.inl h1)
    refine ⟨(hys b').2 ⟨h1, fun e => hqp ?_⟩, e0.trans h2, e8.trans h3, h4, h5, ?_⟩
    · rw [← h3, e, hself]
    · rw [hpages]
      exact h6
  · obtain ⟨hx, hxb⟩ := (hys x).1 hx
    obtain ⟨h1, o, h2⟩ := r.node x hx
    refine ⟨h1, o, ?_⟩
    change Function.update s.live p none (k'.mem (x + 8)) = _
    rw [(hmem x (.inl hx)).2, Function.update_of_ne fun e => ?_, h2]
    rw [e, hp] at h2
    cases h2
    exact hxb rfl

/-- What has been handed out does not overlap. -/
theorem disjoint (r : s.Repr F L xs) {q : ℕ} {g g' : Grant} (hp : s.live p = some g)
    (hq : s.live q = some g') (hne : p ≠ q) : p + g.bytes ≤ q ∨ q + g'.bytes ≤ p := by
  have hstart : ∀ {p size}, s.live p = some (.small size) → ∃ b, p = b + 16 ∧ 2 ≤ L b ∧
      p + (Grant.small size).bytes = b + 16 * L b := fun {p size} hp => by
    have hle := r.header p size hp
    obtain ⟨b, rfl⟩ : ∃ b, p = b + slobUnit := ⟨p - slobUnit, (Nat.sub_add_cancel hle).symm⟩
    have h2 := r.used_pos (.inr ⟨size, hp⟩)
    refine ⟨b, rfl, h2, ?_⟩
    rw [Grant.bytes, ← (r.small b size hp).2.1, slobUnit]
    omega
  -- a block of the list and pages
  have hmixed : ∀ {p q size bb order}, s.live p = some (.small size) →
      s.live q = some (.pages bb order) → p + (Grant.small size).bytes ≤ q ∨
        q + (Grant.pages bb order).bytes ≤ p := fun {p q size bb order} hp hq => by
    obtain ⟨b, rfl, hL, hend⟩ := hstart hp
    by_contra hover
    rw [hend, Grant.bytes] at hover
    have hpos : 0 < pgSize * 2 ^ order := Nat.mul_pos (by decide) (Nat.two_pow_pos _)
    have hw : ∃ w, b ≤ w ∧ w < b + 16 * L b ∧ q ≤ w ∧ w < q + pgSize * 2 ^ order := by
      obtain hle | hlt := le_or_gt (b + 16) q
      · exact ⟨q, by omega, by omega, le_rfl, by omega⟩
      · exact ⟨b + 16, by omega, by omega, by omega, by omega⟩
    obtain ⟨w, h1, h2, h3, h4⟩ := hw
    obtain ⟨t, ht, h5, h6⟩ := r.blocks.inPages (by omega) h1 h2
    have := (r.big q bb order hq).2.2.2.2.2 t ht
    rw [Apart] at this
    omega
  cases g with
  | small size =>
    cases g' with
    | small size' =>
      obtain ⟨b, rfl, h1, h2⟩ := hstart hp
      obtain ⟨c, rfl, h3, h4⟩ := hstart hq
      rw [h2, h4]
      have hb := r.blocks.span_pos_live (a := b) (by omega)
      have hc := r.blocks.span_pos_live (a := c) (by omega)
      have := r.blocks.apart b c hb hc (by omega)
      rw [Blocks.span_live (r.blocks.live_notMem (by omega)),
        Blocks.span_live (r.blocks.live_notMem (by omega)), slobUnit] at this
      omega
    | pages bb order => exact hmixed hp hq
  | pages bb order =>
    cases g' with
    | small size' => exact (hmixed hq hp).symm
    | pages bb' order' => exact r.apart p bb order q bb' order' hp hq hne

end Repr

/-! ## The list of the large blocks -/

theorem findBig_none {k : Kmalloc} {block : ℕ} : ∀ {xs : List ℕ} {bb : ℕ} {last : Option ℕ},
    BigList k.slob.mem bb xs → (∀ x ∈ xs, k.slob.mem (x + 8) ≠ block) →
    ∀ m > xs.length, k.findBig block m last bb = some none
  | [], bb, last, h, _, m, hm => by
    obtain ⟨m, rfl⟩ := Nat.exists_eq_add_of_le' hm
    exact if_pos h
  | x :: xs, bb, last, h, hne, m, hm => by
    obtain ⟨m, rfl⟩ := Nat.exists_eq_add_of_le' (Nat.one_le_of_lt hm)
    obtain ⟨rfl, h0, hrest⟩ := h
    refine (if_neg h0).trans ((if_neg (hne bb List.mem_cons_self)).trans ?_)
    exact findBig_none hrest (fun y hy => hne y (List.mem_cons_of_mem bb hy)) m
      (Nat.lt_of_succ_lt_succ hm)

theorem findBig_some {k : Kmalloc} {block x : ℕ} {cs : List ℕ} (hx : k.slob.mem (x + 8) = block) :
    ∀ {as : List ℕ} {bb : ℕ} {last : Option ℕ}, BigList k.slob.mem bb (as ++ x :: cs) →
    (∀ y ∈ as, k.slob.mem (y + 8) ≠ block) →
    ∀ m > as.length, k.findBig block m last bb = some (some (as.getLast?.or last, x))
  | [], bb, last, h, _, m, hm => by
    obtain ⟨m, rfl⟩ := Nat.exists_eq_add_of_le' hm
    obtain ⟨rfl, h0, -⟩ := h
    exact (if_neg h0).trans (if_pos hx)
  | a :: as, bb, last, h, hne, m, hm => by
    obtain ⟨m, rfl⟩ := Nat.exists_eq_add_of_le' (Nat.one_le_of_lt hm)
    obtain ⟨rfl, h0, hrest⟩ := h
    refine (if_neg h0).trans ((if_neg (hne bb List.mem_cons_self)).trans ?_)
    refine (findBig_some hx hrest (fun y hy => hne y (List.mem_cons_of_mem bb hy)) m
      (Nat.lt_of_succ_lt_succ hm)).trans ?_
    cases has : as.getLast? with
    | none =>
      rw [List.getLast?_eq_none_iff] at has
      rw [has]
      rfl
    | some l =>
      rw [List.getLast?_cons, has]
      rfl

end KmallocSys

end Ucore
