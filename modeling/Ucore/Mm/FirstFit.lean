/-
  The first-fit allocator keeps its free list.

  `Repr s M bs`: the free list of `s` is a well-formed circular list whose blocks, in list order,
  are the extents `bs`; `M` are the pages handed to `default_init_memmap` so far.  Each operation
  has one lemma saying what it does to the extents.

  The insertion walk of `default_init_memmap` and `default_free_pages` does not leave the loop
  after linking a block behind the last one, and links the new node to itself (`insertWalk`).
  The lemmas about these operations therefore assume `TailSafe`: the new block does not go behind
  the last one.
-/
import Ucore.Mm.DefaultPmm
import Ucore.Lib.Extents
import Mathlib.Data.Finset.Basic
import Mathlib.Algebra.Order.BigOperators.Group.List

namespace Ucore

open Intrusive Extents

/-! ## Descriptors -/

theorem pageReserved_zero {g : Page} (h : g.flags = 0) : pageReserved g = false := by
  simp [pageReserved, testBit, h]

theorem pageProperty_zero {g : Page} (h : g.flags = 0) : pageProperty g = false := by
  simp [pageProperty, testBit, h]

@[simp] theorem pageReserved_setPageProperty (g : Page) :
    pageReserved (setPageProperty g) = pageReserved g := by
  simp [pageReserved, setPageProperty, testBit, setBit, pgReserved, pgProperty]

@[simp] theorem pageProperty_setPageProperty (g : Page) :
    pageProperty (setPageProperty g) = true := by
  simp [pageProperty, setPageProperty, testBit, setBit, pgProperty]

@[simp] theorem pageReserved_clearPageProperty (g : Page) :
    pageReserved (clearPageProperty g) = pageReserved g := by
  simp [pageReserved, clearPageProperty, testBit, clearBit, pgReserved, pgProperty]

@[simp] theorem pageProperty_clearPageProperty (g : Page) :
    pageProperty (clearPageProperty g) = false := by
  simp [pageProperty, clearPageProperty, testBit, clearBit, pgProperty]

@[simp] theorem property_setPageProperty (g : Page) :
    (setPageProperty g).property = g.property := rfl

@[simp] theorem property_clearPageProperty (g : Page) :
    (clearPageProperty g).property = g.property := rfl

@[simp] theorem pageReserved_property (g : Page) (n : ℕ) :
    pageReserved { g with property := n } = pageReserved g := rfl

@[simp] theorem pageProperty_property (g : Page) (n : ℕ) :
    pageProperty { g with property := n } = pageProperty g := rfl

namespace Pmm

@[simp] theorem modify_page (s : Pmm) (p q : ℕ) (f : Page → Page) :
    (s.modify p f).page q = if q = p then f (s.page p) else s.page q := by
  simp [modify, Function.update_apply]

@[simp] theorem modify_links (s : Pmm) (p : ℕ) (f : Page → Page) :
    (s.modify p f).links = s.links := rfl

@[simp] theorem modify_nrFree (s : Pmm) (p : ℕ) (f : Page → Page) :
    (s.modify p f).nrFree = s.nrFree := rfl

@[simp] theorem modify_npage (s : Pmm) (p : ℕ) (f : Page → Page) :
    (s.modify p f).npage = s.npage := rfl

@[simp] theorem setProperty_links (s : Pmm) (p n : ℕ) : (s.setProperty p n).links = s.links := rfl

@[simp] theorem setProperty_nrFree (s : Pmm) (p n : ℕ) :
    (s.setProperty p n).nrFree = s.nrFree := rfl

@[simp] theorem setProperty_npage (s : Pmm) (p n : ℕ) : (s.setProperty p n).npage = s.npage := rfl

@[simp] theorem setProperty_page (s : Pmm) (p q n : ℕ) : (s.setProperty p n).page q =
    if q = p then { s.page p with property := u32 n } else s.page q := by
  simp [setProperty]

end Pmm

theorem u32_of_lt {n : ℕ} (h : n < 2 ^ 32) : u32 n = n := Nat.mod_eq_of_lt h

/-! ## The representation -/

/-- The list nodes of blocks. -/
abbrev nodes (bs : List Extent) : List Le := bs.map fun e => .pageLink e.start

/-- The free list of `s` holds the blocks `bs`. -/
structure Repr (s : Pmm) (M : Finset ℕ) (bs : List Extent) : Prop where
  ring : Circ s.links .freeList (nodes bs)
  property : ∀ e ∈ bs, (s.page e.start).property = e.len
  nrFree : s.nrFree = (bs.map Extent.len).sum
  flags : ∀ p ∈ M, pageReserved (s.page p) = false ∧
    (pageProperty (s.page p) = true ↔ ∃ e ∈ bs, e.start = p)
  laid : Laid s.npage bs
  small : s.npage < 2 ^ 32

/-- The same, of an array of descriptors of any length: `nr_free` is a number of 32 bits. -/
structure FreeBlocks (s : Pmm) (M : Finset ℕ) (bs : List Extent) : Prop where
  ring : Circ s.links .freeList (nodes bs)
  property : ∀ e ∈ bs, (s.page e.start).property = e.len
  nrFree : s.nrFree = (bs.map Extent.len).sum
  flags : ∀ p ∈ M, pageReserved (s.page p) = false ∧
    (pageProperty (s.page p) = true ↔ ∃ e ∈ bs, e.start = p)
  laid : Laid s.npage bs
  word : s.nrFree < 2 ^ 32

variable {s : Pmm} {M : Finset ℕ} {bs as cs : List Extent} {e : Extent} {base n : ℕ}

theorem Repr.blocks (r : Repr s M bs) : FreeBlocks s M bs where
  ring := r.ring
  property := r.property
  nrFree := r.nrFree
  flags := r.flags
  laid := r.laid
  word := by
    rw [r.nrFree]
    exact lt_of_le_of_lt r.laid.total_le r.small

theorem FreeBlocks.repr (r : FreeBlocks s M bs) (hs : s.npage < 2 ^ 32) : Repr s M bs :=
  ⟨r.ring, r.property, r.nrFree, r.flags, r.laid, hs⟩

/-- The new block at `base` does not go behind the last block of a non-empty list. -/
def TailSafe (s : Pmm) (base : ℕ) : Prop :=
  match listPrev s.links .freeList with
  | .freeList => True
  | .pageLink q => base < q

instance (s : Pmm) (base : ℕ) : Decidable (TailSafe s base) :=
  match h : listPrev s.links .freeList with
  | .freeList => isTrue (by simp [TailSafe, h])
  | .pageLink q => decidable_of_iff (base < q) (by simp [TailSafe, h])

/-! ## Insertion -/

theorem nodes_append : nodes (as ++ bs) = nodes as ++ nodes bs := List.map_append

theorem nodes_cons : nodes (e :: bs) = .pageLink e.start :: nodes bs := rfl

theorem node_notMem (hl : ∀ a ∈ bs, a.start ≠ base) :
    Le.pageLink base ∉ Le.freeList :: nodes bs := by
  simp only [List.mem_cons, reduceCtorEq, List.mem_map, Le.pageLink.injEq, false_or, not_exists,
    not_and]
  exact hl

/-- The walk passes the blocks below `base` and stops at the first one above it. -/
theorem insertWalk_spec {L : Links Le} {c : Extent} : ∀ (rest pre : List Extent) {k : ℕ},
    Circ L .freeList (nodes pre ++ (nodes rest ++ nodes (c :: cs))) →
    (∀ a ∈ rest, a.start < base) → base < c.start → rest.length < k →
      insertWalk base k L ((.freeList :: nodes pre).getLast (by simp)) =
        some (listAddBefore L (.pageLink c.start) (.pageLink base))
  | [], pre, k + 1, hc, _, hb, _ => by
    have hn : listNext L ((.freeList :: nodes pre).getLast (by simp)) = .pageLink c.start :=
      (hc.cut _ _).1
    simp only [insertWalk, hn, hb, if_true]
  | r :: rest, pre, k + 1, hc, hr, hb, hk => by
    have hn : listNext L ((.freeList :: nodes pre).getLast (by simp)) = .pageLink r.start :=
      (hc.cut _ _).1
    have hc' : Circ L .freeList (nodes (pre ++ [r]) ++ (nodes rest ++ nodes (c :: cs))) := by
      simpa [nodes] using hc
    have hlast : (Le.freeList :: nodes (pre ++ [r])).getLast (by simp) = .pageLink r.start := by
      simp [nodes]
    have hn' : listNext L (.pageLink r.start) ≠ .freeList := by
      have := (hc'.cut _ _).1
      rw [hlast] at this
      rw [listNext, this]
      cases rest <;> simp [nodes]
    have ih := insertWalk_spec rest (pre ++ [r]) (k := k) hc' (fun a ha => hr a (by simp [ha])) hb
      (by simpa using hk)
    rw [hlast] at ih
    have hlt := hr r (by simp)
    simp only [insertWalk, hn, hn', if_false, if_neg (Nat.lt_asymm hlt), ih]

/-- **Linking a block** between the blocks below and the blocks above it. -/
theorem linkBase_spec (hc : Circ s.links .freeList (nodes (as ++ cs)))
    (hl : ∀ a ∈ as, a.start < e.start) (hr : ∀ c ∈ cs, e.start < c.start)
    (ht : cs = [] → as = []) (hf : (as ++ cs).length < s.fuel) :
    ∃ L, linkBase s e.start = some { s with links := L } ∧
      Circ L .freeList (nodes (as ++ e :: cs)) := by
  have hnot : Le.pageLink e.start ∉ Le.freeList :: (nodes as ++ nodes cs) := by
    rw [← nodes_append]
    refine node_notMem fun a ha => ?_
    rcases List.mem_append.1 ha with ha | ha
    exacts [(hl a ha).ne, (hr a ha).ne']
  rw [nodes_append] at hc
  rw [nodes_append, nodes_cons]
  cases cs with
  | nil =>
    obtain rfl := ht rfl
    have hem : listEmpty s.links .freeList = true := (listEmpty_iff hc).2 rfl
    exact ⟨listAdd s.links .freeList (.pageLink e.start), by simp [linkBase, hem],
      circ_listAdd_front (by simpa using hc) (by simp)⟩
  | cons c cs =>
    have hem : listEmpty s.links .freeList = false := by
      rw [← Bool.not_eq_true, listEmpty_iff hc]; simp
    have hw : insertWalk e.start s.fuel s.links .freeList = _ :=
      insertWalk_spec (c := c) as [] (by simpa using hc) hl (hr c (by simp))
        (by simp at hf; omega)
    exact ⟨listAddBefore s.links (.pageLink c.start) (.pageLink e.start),
      by simp [linkBase, hem, hw], circ_listAddBefore hc hnot rfl⟩

/-! ## Merging -/

/-- The blocks of a layout are known by their first pages. -/
theorem FreeBlocks.start_ne (r : FreeBlocks s M (as ++ e :: cs)) :
    ∀ a ∈ as ++ cs, a.start ≠ e.start := by
  have := r.laid.starts_nodup
  rw [List.map_append, List.map_cons, List.nodup_middle, List.nodup_cons] at this
  intro a ha h
  rw [← List.map_append, List.mem_map] at this
  exact this.1 ⟨a, ha, h⟩

/-- Joining two neighbours `a`, `b` that touch: `a` grows, `b` leaves the list. -/
theorem FreeBlocks.join {a b : Extent} (r : FreeBlocks s M (as ++ a :: b :: cs))
    (ht : a.stop = b.start) :
      FreeBlocks { (s.setProperty a.start (a.len + b.len)).modify b.start clearPageProperty with
      links := listDel s.links (.pageLink b.start) } M (as ++ ⟨a.start, a.len + b.len⟩ :: cs) := by
  have r' : FreeBlocks s M ((as ++ [a]) ++ b :: cs) := by simpa using r
  have hab : a.start ≠ b.start := r'.start_ne a (by simp)
  have hne : ∀ x ∈ as ++ cs, x.start ≠ a.start ∧ x.start ≠ b.start := fun x hx =>
    ⟨r.start_ne x (by simp at hx ⊢; tauto), r'.start_ne x (by simp at hx ⊢; tauto)⟩
  have hlen : a.len + b.len < 2 ^ 32 := by
    have h1 := r.nrFree
    have h2 := r.word
    simp only [List.map_append, List.map_cons, List.sum_append, List.sum_cons] at h1
    omega
  refine ⟨?_, ?_, ?_, ?_, r.laid.join ht, r.word⟩
  · have hc := r'.ring
    rw [nodes_append, nodes_cons] at hc
    simpa [nodes] using circ_listDel hc
  · intro x hx
    rw [List.mem_append, List.mem_cons] at hx
    rcases hx with hx | rfl | hx
    · have := hne x (by simp [hx]); simp [this, r.property x (by simp [hx])]
    · simp [hab, u32_of_lt hlen]
    · have := hne x (by simp [hx]); simp [this, r.property x (by simp [hx])]
  · simp [r.nrFree, Nat.add_assoc]
  · intro p hp
    obtain ⟨h1, h2⟩ := r.flags p hp
    simp only [Pmm.modify_page, Pmm.setProperty_page]
    by_cases hpb : p = b.start
    · subst hpb
      refine ⟨?_, ?_⟩
      · simpa [hab.symm] using h1
      · simp only [if_true, pageProperty_clearPageProperty, Bool.false_eq_true, false_iff,
          not_exists, not_and]
        intro x hx
        rw [List.mem_append, List.mem_cons] at hx
        rcases hx with hx | rfl | hx
        exacts [(hne x (by simp [hx])).2, hab, (hne x (by simp [hx])).2]
    · rw [if_neg hpb]
      have : (∃ x ∈ as ++ ⟨a.start, a.len + b.len⟩ :: cs, x.start = p) ↔
          ∃ x ∈ as ++ a :: b :: cs, x.start = p := by
        simp only [List.mem_append, List.mem_cons]
        constructor
        · rintro ⟨x, hx | rfl | hx, rfl⟩
          exacts [⟨x, by tauto, rfl⟩, ⟨a, by tauto, rfl⟩, ⟨x, by tauto, rfl⟩]
        · rintro ⟨x, hx | rfl | rfl | hx, rfl⟩
          exacts [⟨x, by tauto, rfl⟩, ⟨_, Or.inr (Or.inl rfl), rfl⟩, absurd rfl hpb,
            ⟨x, by tauto, rfl⟩]
      rw [this]
      split_ifs with hpa
      · subst hpa; exact ⟨h1, h2⟩
      · exact ⟨h1, h2⟩

theorem mergePrev_spec (r : FreeBlocks s M (as ++ e :: cs)) :
    ∃ as' e', (mergePrev s e.start).2 = e'.start ∧
      FreeBlocks (mergePrev s e.start).1 M (as' ++ e' :: cs) ∧
      (mergePrev s e.start).1.npage = s.npage ∧
      (mergePrev s e.start).1.nrFree = s.nrFree ∧
      (Apart as → Apart (as' ++ [e'])) ∧
      ∀ p, Covered (as' ++ e' :: cs) p ↔ Covered (as ++ e :: cs) p := by
  have hc := r.ring
  rw [nodes_append, nodes_cons] at hc
  have hp : listPrev s.links (.pageLink e.start) = _ := hc.prev_mid
  rcases List.eq_nil_or_concat' as with rfl | ⟨as, a, rfl⟩
  · simp only [nodes, List.map_nil, List.getLast_singleton] at hp
    exact ⟨[], e, by simp [mergePrev, hp], by simpa [mergePrev, hp] using r,
      by simp [mergePrev, hp], by simp [mergePrev, hp], fun _ => apart_singleton e,
      fun _ => Iff.rfl⟩
  · have hp : listPrev s.links (.pageLink e.start) = .pageLink a.start := by
      rw [hp]; simp [nodes]
    have ha := r.property a (by simp)
    have he := r.property e (by simp)
    by_cases ht : a.stop = e.start
    · have ht' : a.start + (s.page a.start).property = e.start := by rw [ha]; exact ht
      have hj : (mergePrev s e.start).1 =
          { (s.setProperty a.start (a.len + e.len)).modify e.start clearPageProperty with
            links := listDel s.links (.pageLink e.start) } := by
        simp only [mergePrev, hp, if_pos ht']; rw [he, ha]; rfl
      refine ⟨as, ⟨a.start, a.len + e.len⟩, by simp [mergePrev, hp, ht'], ?_, by rw [hj]; rfl,
        by rw [hj]; rfl, fun h => h.replace_last rfl, fun p => ?_⟩
      · rw [hj]; exact FreeBlocks.join (by simpa using r) ht
      · rw [Laid.covered_join ht]; simp
    · have ht' : ¬ a.start + (s.page a.start).property = e.start := by rw [ha]; exact ht
      refine ⟨as ++ [a], e, by simp [mergePrev, hp, ht'], by simpa [mergePrev, hp, ht'] using r,
        by simp [mergePrev, hp, ht'], by simp [mergePrev, hp, ht'], fun h => ?_, fun _ => Iff.rfl⟩
      have hae : a.stop < e.start := lt_of_le_of_ne (r.laid.below a (by simp)) ht
      simpa using h.snoc (r.laid.pos a (by simp)) hae

theorem mergeNext_spec (r : FreeBlocks s M (as ++ e :: cs)) :
    ∃ bs', FreeBlocks (mergeNext s e.start) M bs' ∧ (mergeNext s e.start).npage = s.npage ∧
      (mergeNext s e.start).nrFree = s.nrFree ∧
      (Apart (as ++ [e]) → Apart cs → Apart bs') ∧
      ∀ p, Covered bs' p ↔ Covered (as ++ e :: cs) p := by
  have hc := r.ring
  rw [nodes_append, nodes_cons] at hc
  have hn : listNext s.links (.pageLink e.start) = _ := hc.next_mid
  cases cs with
  | nil =>
    simp only [nodes, List.map_nil, List.nil_append, List.head_cons] at hn
    exact ⟨_, by simpa [mergeNext, hn] using r, by simp [mergeNext, hn], by simp [mergeNext, hn],
      fun h _ => h, fun _ => Iff.rfl⟩
  | cons c cs =>
    have hn : listNext s.links (.pageLink e.start) = .pageLink c.start := hn
    have he := r.property e (by simp)
    have hcp := r.property c (by simp)
    by_cases ht : e.stop = c.start
    · have ht' : e.start + (s.page e.start).property = c.start := by rw [he]; exact ht
      have hj : mergeNext s e.start =
          { (s.setProperty e.start (e.len + c.len)).modify c.start clearPageProperty with
            links := listDel s.links (.pageLink c.start) } := by
        simp only [mergeNext, hn, if_pos ht']; rw [he, hcp]; rfl
      refine ⟨as ++ ⟨e.start, e.len + c.len⟩ :: cs, ?_, by rw [hj]; rfl, by rw [hj]; rfl,
        fun h h' => ?_, fun p => Laid.covered_join ht⟩
      · rw [hj]; exact r.join ht
      · refine h.joined h' rfl ?_ (by have := r.laid.pos e (by simp); simp only; omega)
        simp only [Extent.stop] at ht ⊢; omega
    · have ht' : ¬ e.start + (s.page e.start).property = c.start := by rw [he]; exact ht
      refine ⟨_, by simpa [mergeNext, hn, ht'] using r, by simp [mergeNext, hn, ht'],
        by simp [mergeNext, hn, ht'], fun h h' => ?_, fun _ => Iff.rfl⟩
      have hec : e.stop < c.start := lt_of_le_of_ne (r.laid.above c (by simp)) ht
      exact h.append h' (r.laid.pos e (by simp)) (r.laid.pos c (by simp)) hec

/-! ## New blocks -/

theorem freeLoop_spec : ∀ {n p : ℕ} {s : Pmm},
    (∀ q, p ≤ q → q < p + n → pageReserved (s.page q) = false ∧ pageProperty (s.page q) = false) →
      freeLoop p n s = some { s with
        page := fun q => if p ≤ q ∧ q < p + n then ⟨0, 0, (s.page q).property⟩ else s.page q }
  | 0, p, s, _ => by
    have : ∀ q, ¬ (p ≤ q ∧ q < p) := by omega
    simp [freeLoop, this]
  | n + 1, p, s, h => by
    obtain ⟨h1, h2⟩ := h p le_rfl (by omega)
    rw [freeLoop, h1, h2]
    simp only [Bool.not_false, Bool.and_self, if_true]
    rw [freeLoop_spec fun q hq hq' => ?_]
    · congr 2
      funext q
      rcases Nat.lt_trichotomy q p with hq | rfl | hq
      · simp [setPageRef]; grind
      · simp [setPageRef]
      · simp [setPageRef]; grind
    · have : q ≠ p := by omega
      simpa [this] using h q (by omega) (by omega)

theorem initPages_spec : ∀ {n p : ℕ} {s : Pmm},
    (∀ q, p ≤ q → q < p + n → pageReserved (s.page q) = true) →
      initPages p n s = some { s with
        page := fun q => if p ≤ q ∧ q < p + n then ⟨0, 0, 0⟩ else s.page q }
  | 0, p, s, _ => by
    have : ∀ q, ¬ (p ≤ q ∧ q < p) := by omega
    simp [initPages, this]
  | n + 1, p, s, h => by
    rw [initPages, if_pos (h p le_rfl (by omega)), initPages_spec fun q hq hq' => ?_]
    · congr 2
      funext q
      rcases Nat.lt_trichotomy q p with hq | rfl | hq
      · simp [setPageRef]; grind
      · simp [setPageRef]
      · simp [setPageRef]; grind
    · have : q ≠ p := by omega
      simpa [this] using h q (by omega) (by omega)

/-- A layout has at most as many blocks as there are pages. -/
theorem FreeBlocks.length_lt (r : FreeBlocks s M bs) : bs.length < s.fuel := by
  have h : bs.length ≤ (bs.map Extent.len).sum := by
    have := List.length_le_sum_of_one_le (bs.map Extent.len) (by
      simpa [Nat.one_le_iff_ne_zero, Nat.pos_iff_ne_zero] using r.laid.pos)
    simpa using this
  have := r.laid.total_le
  simp only [Pmm.fuel]; omega

/-- **A new block** `e`, whose descriptors have been cleared in `t`, joins the free list. -/
theorem FreeBlocks.add {t : Pmm} (r : FreeBlocks s M bs) (hl : t.links = s.links)
    (hf : t.nrFree = s.nrFree) (hnp : t.npage = s.npage)
    (hin : ∀ q, e.Has q → (t.page q).flags = 0) (hout : ∀ q, ¬ e.Has q → t.page q = s.page q)
    (he : 0 < e.len) (hb : e.stop ≤ s.npage) (hd : ∀ q, e.Has q → ¬ Covered bs q)
    (ht : TailSafe s e.start) (hw : s.nrFree + e.len < 2 ^ 32) :
    ∃ s' as cs, linkBase (makeBlock t e.start e.len) e.start = some s' ∧ bs = as ++ cs ∧
      FreeBlocks s' (M ∪ Finset.Ico e.start e.stop) (as ++ e :: cs) ∧ s'.npage = s.npage := by
  obtain ⟨as, cs, rfl, hlo, hhi⟩ := r.laid.locate he hd
  have hlaid := r.laid.insert hlo hhi he hb
  have hpos : ∀ x ∈ as ++ cs, 0 < x.len := r.laid.pos
  have hlo' : ∀ a ∈ as, a.start < e.start := fun a ha => by
    have h1 := hlo a ha
    have h2 := hpos a (by simp [ha])
    simp only [Extent.stop] at h1; omega
  have hhi' : ∀ c ∈ cs, e.start < c.start := fun c hc => by
    have h1 := hhi c hc
    simp only [Extent.stop] at h1; omega
  have htail : cs = [] → as = [] := by
    rintro rfl
    rcases List.eq_nil_or_concat' as with rfl | ⟨as, a, rfl⟩
    · rfl
    · have hp : listPrev s.links .freeList = .pageLink a.start := by
        have := r.ring.prev_head
        rw [listPrev, this]; simp [nodes]
      simp only [TailSafe, hp] at ht
      exact absurd (hlo' a (by simp)) (Nat.lt_asymm ht)
  have hlen := r.length_lt
  have hring : Circ (makeBlock t e.start e.len).links .freeList (nodes (as ++ cs)) := by
    simpa [makeBlock, hl] using r.ring
  obtain ⟨L, hL, hc⟩ := linkBase_spec hring hlo' hhi' htail
    (by simpa [makeBlock, Pmm.fuel, hnp] using hlen)
  have hen : ∀ x ∈ as ++ cs, x.start ≠ e.start := fun x hx => by
    rcases List.mem_append.1 hx with hx | hx
    exacts [(hlo' x hx).ne, (hhi' x hx).ne']
  have hsmall : e.len < 2 ^ 32 := by omega
  have hnot : ∀ x ∈ as ++ cs, ¬ e.Has x.start := fun x hx h =>
    hd _ h ⟨x, hx, le_rfl, by have := hpos x hx; simp only [Extent.stop]; omega⟩
  refine ⟨_, as, cs, hL, rfl, ⟨hc, fun x hx => ?_, ?_, fun p hp => ?_, ?_, ?_⟩, hnp⟩
  · rw [List.mem_append, List.mem_cons] at hx
    rcases hx with hx | rfl | hx
    · have hx : x ∈ as ++ cs := by simp [hx]
      simp [makeBlock, hen x hx, hout _ (hnot x hx), r.property x hx]
    · simp [makeBlock, u32_of_lt hsmall]
    · have hx : x ∈ as ++ cs := by simp [hx]
      simp [makeBlock, hen x hx, hout _ (hnot x hx), r.property x hx]
  · have h3 := r.nrFree
    simp only [List.map_append, List.map_cons, List.sum_append, List.sum_cons] at h3 ⊢
    simp only [makeBlock, Pmm.modify_nrFree, Pmm.setProperty_nrFree, hf]
    rw [u32_of_lt hw]; omega
  · simp only [makeBlock, Pmm.modify_page, Pmm.setProperty_page]
    by_cases hpe : p = e.start
    · subst hpe
      have h0 := hin e.start ⟨le_rfl, by simp only [Extent.stop]; omega⟩
      refine ⟨?_, ?_⟩
      · simp [pageReserved, testBit, h0, setPageProperty, setBit, pgProperty, pgReserved]
      · simp only [if_true, pageProperty_setPageProperty, true_iff]
        exact ⟨e, by simp, rfl⟩
    · simp only [if_neg hpe]
      have hiff : (∃ x ∈ as ++ e :: cs, x.start = p) ↔ ∃ x ∈ as ++ cs, x.start = p := by
        simp only [List.mem_append, List.mem_cons]
        constructor
        · rintro ⟨x, hx | rfl | hx, rfl⟩
          exacts [⟨x, by tauto, rfl⟩, absurd rfl hpe, ⟨x, by tauto, rfl⟩]
        · rintro ⟨x, hx, rfl⟩; exact ⟨x, by tauto, rfl⟩
      rw [hiff]
      by_cases hpi : e.Has p
      · have h0 := hin p hpi
        refine ⟨pageReserved_zero h0, ?_⟩
        rw [pageProperty_zero h0]
        simp only [Bool.false_eq_true, false_iff, not_exists, not_and]
        rintro x hx rfl
        exact hnot x hx hpi
      · rw [hout p hpi]
        refine r.flags p ?_
        simp only [Finset.mem_union, Finset.mem_Ico] at hp
        exact hp.resolve_right hpi
  · simpa [makeBlock, hnp] using hlaid
  · simpa [makeBlock, hf, u32_of_lt hw] using hw

/-! ## The operations -/

/-- There is room in `nr_free` for the pages of a further block. -/
theorem Repr.room (r : Repr s M bs) (he : 0 < e.len) (hb : e.stop ≤ s.npage)
    (hd : ∀ q, e.Has q → ¬ Covered bs q) : s.nrFree + e.len < 2 ^ 32 := by
  obtain ⟨as, cs, rfl, hlo, hhi⟩ := r.laid.locate he hd
  have h1 := (r.laid.insert hlo hhi he hb).total_le
  have h2 := r.nrFree
  have h3 := r.small
  simp only [List.map_append, List.map_cons, List.sum_append, List.sum_cons] at h1 h2
  omega

/-- `default_init_memmap` on reserved pages outside the managed ones. -/
theorem defaultInitMemmap_spec (r : Repr s M bs) (hn : 0 < n) (hb : base + n ≤ s.npage)
    (hres : ∀ q, base ≤ q → q < base + n → pageReserved (s.page q) = true)
    (hd : ∀ q, base ≤ q → q < base + n → ¬ Covered bs q) (ht : TailSafe s base) :
    ∃ s' bs', defaultInitMemmap s base n = some s' ∧ s'.npage = s.npage ∧
      Repr s' (M ∪ Finset.Ico base (base + n)) bs' ∧
      ∀ p, Covered bs' p ↔ (base ≤ p ∧ p < base + n) ∨ Covered bs p := by
  obtain ⟨s', as, cs, hs', rfl, r', hnp⟩ := r.blocks.add (e := ⟨base, n⟩) (t := { s with
      page := fun q => if base ≤ q ∧ q < base + n then ⟨0, 0, 0⟩ else s.page q }) rfl rfl rfl
    (fun q hq => congrArg Page.flags (if_pos hq)) (fun q hq => if_neg hq) hn hb
    (fun q hq => hd q hq.1 hq.2) ht (r.room hn hb fun q hq => hd q hq.1 hq.2)
  refine ⟨s', _, ?_, hnp, r'.repr (hnp ▸ r.small), fun p => covered_insert⟩
  simp only [defaultInitMemmap, hn.ne', if_false, initPages_spec hres, Option.bind_eq_bind,
    Option.bind_some, hs']

/-- Pages in use are not marked as free. -/
theorem FreeBlocks.in_use (r : FreeBlocks s M bs) (hm : ∀ q, base ≤ q → q < base + n → q ∈ M)
    (hd : ∀ q, base ≤ q → q < base + n → ¬ Covered bs q) (q : ℕ) (h1 : base ≤ q)
    (h2 : q < base + n) :
    pageReserved (s.page q) = false ∧ pageProperty (s.page q) = false := by
  obtain ⟨h3, h4⟩ := r.flags q (hm q h1 h2)
  refine ⟨h3, Bool.eq_false_iff.2 fun h => ?_⟩
  obtain ⟨x, hx, rfl⟩ := h4.1 h
  have := r.laid.pos x hx
  exact hd _ h1 h2 ⟨x, hx, le_rfl, by simp only [Extent.stop]; omega⟩

/-- **`default_free_pages`** on pages in use: they are added to the free ones, and if no blocks
    touched before none do after. -/
theorem FreeBlocks.free (r : FreeBlocks s M bs) (hn : 0 < n) (hb : base + n ≤ s.npage)
    (hm : ∀ q, base ≤ q → q < base + n → q ∈ M)
    (hd : ∀ q, base ≤ q → q < base + n → ¬ Covered bs q) (ht : TailSafe s base)
    (hw : s.nrFree + n < 2 ^ 32) :
    ∃ s' bs', defaultFreePages s base n = some s' ∧ s'.npage = s.npage ∧ FreeBlocks s' M bs' ∧
      s'.nrFree = s.nrFree + n ∧ (Apart bs → Apart bs') ∧
      ∀ p, Covered bs' p ↔ (base ≤ p ∧ p < base + n) ∨ Covered bs p := by
  have hfl := r.in_use hm hd
  obtain ⟨s₁, as, cs, hs₁, rfl, r₁, hnp₁⟩ := r.add (e := ⟨base, n⟩) (t := { s with
      page := fun q => if base ≤ q ∧ q < base + n then ⟨0, 0, (s.page q).property⟩ else s.page q })
    rfl rfl rfl (fun q hq => congrArg Page.flags (if_pos hq)) (fun q hq => if_neg hq) hn hb
    (fun q hq => hd q hq.1 hq.2) ht hw
  have hM : M ∪ Finset.Ico base (base + n) = M := by
    rw [Finset.union_eq_left]
    intro q hq
    rw [Finset.mem_Ico] at hq; exact hm q hq.1 hq.2
  rw [show (⟨base, n⟩ : Extent).stop = base + n from rfl, hM] at r₁
  obtain ⟨as', e', he', r₂, hnp₂, hf₂, ha₂, hc₂⟩ := mergePrev_spec r₁
  obtain ⟨bs', r₃, hnp₃, hf₃, ha₃, hc₃⟩ := mergeNext_spec r₂
  refine ⟨_, bs', ?_, by rw [hnp₃, hnp₂, hnp₁], r₃, ?_, fun h => ?_, fun p => by
    rw [hc₃, hc₂, covered_insert]; rfl⟩
  · simp only [defaultFreePages, hn.ne', if_false, freeLoop_spec hfl, Option.bind_eq_bind,
      Option.bind_some, hs₁]
    rw [← he']
  · have h1 := r₁.nrFree
    have h2 := r.nrFree
    simp only [List.map_append, List.map_cons, List.sum_append, List.sum_cons] at h1 h2
    omega
  · obtain ⟨has, hcs, -⟩ := List.pairwise_append.1 h
    exact ha₃ (ha₂ has) hcs

theorem defaultFreePages_spec (r : Repr s M bs) (hn : 0 < n) (hb : base + n ≤ s.npage)
    (hm : ∀ q, base ≤ q → q < base + n → q ∈ M)
    (hd : ∀ q, base ≤ q → q < base + n → ¬ Covered bs q) (ht : TailSafe s base) :
    ∃ s' bs', defaultFreePages s base n = some s' ∧ s'.npage = s.npage ∧ Repr s' M bs' ∧
      ∀ p, Covered bs' p ↔ (base ≤ p ∧ p < base + n) ∨ Covered bs p := by
  obtain ⟨s', bs', hs', hnp, r', -, -, hc⟩ := r.blocks.free hn hb hm hd ht
    (r.room (e := ⟨base, n⟩) hn hb fun q hq => hd q hq.1 hq.2)
  exact ⟨s', bs', hs', hnp, r'.repr (hnp ▸ r.small), hc⟩

/-- The walk finds the first block that is large enough. -/
theorem firstFitWalk_spec : ∀ (rest pre : List Extent) {k : ℕ},
    Circ s.links .freeList (nodes (pre ++ rest)) →
    (∀ e ∈ rest, (s.page e.start).property = e.len) → rest.length < k →
      firstFitWalk s n k ((.freeList :: nodes pre).getLast (by simp)) =
        some ((rest.find? fun e => n ≤ e.len).map Extent.start)
  | [], pre, k + 1, hc, _, _ => by
    have hn : listNext s.links ((.freeList :: nodes pre).getLast (by simp)) = .freeList :=
      (Circ.cut (nodes pre) [] (by simpa using hc)).1
    simp [firstFitWalk, hn]
  | r :: rest, pre, k + 1, hc, hp, hk => by
    have hn : listNext s.links ((.freeList :: nodes pre).getLast (by simp)) = .pageLink r.start :=
      (Circ.cut (nodes pre) (nodes (r :: rest)) (by simpa [nodes] using hc)).1
    have hr := hp r (by simp)
    have hlast : (Le.freeList :: nodes (pre ++ [r])).getLast (by simp) = .pageLink r.start := by
      simp [nodes]
    have ih := firstFitWalk_spec rest (pre ++ [r]) (k := k) (by simpa using hc)
      (fun e he => hp e (by simp [he])) (by simpa using hk)
    rw [hlast] at ih
    by_cases hle : n ≤ r.len
    · simp [firstFitWalk, hn, hr, hle]
    · simp [firstFitWalk, hn, hr, hle, ih]

/-- What is left of a block after its first `n` pages are taken. -/
def remainder (e : Extent) (n : ℕ) : List Extent :=
  if n < e.len then [⟨e.start + n, e.len - n⟩] else []

theorem covered_remainder {hi p : ℕ} (h : Laid hi (as ++ e :: cs)) (hn : n ≤ e.len) :
    Covered (as ++ (remainder e n ++ cs)) p ↔
      Covered (as ++ e :: cs) p ∧ ¬ (e.start ≤ p ∧ p < e.start + n) := by
  rcases hn.lt_or_eq with hlt | rfl
  · simpa [remainder, hlt] using h.covered_cut hlt
  · simp only [remainder, lt_irrefl, if_false, List.nil_append]
    exact h.covered_erase

/-- **Taking pages.** The first `n` pages leave the block, the rest of it stays in its place. -/
theorem takeBlock_spec (r : FreeBlocks s M (as ++ e :: cs)) (h0 : 0 < n) (hn : n ≤ e.len) :
    FreeBlocks (takeBlock s e.start n) M (as ++ (remainder e n ++ cs)) := by
  have hword := r.word
  have hsum := r.nrFree
  have hp := r.property e (by simp)
  have hc := r.ring
  rw [nodes_append, nodes_cons] at hc
  have hdel := circ_listDel hc
  simp only [List.map_append, List.map_cons, List.sum_append, List.sum_cons] at hsum
  have hnr : u32 (s.nrFree + 2 ^ 32 - u32 n) = s.nrFree - n := by
    rw [u32_of_lt (n := n) (by omega), show s.nrFree + 2 ^ 32 - n = s.nrFree - n + 2 ^ 32 by omega]
    simp only [u32, Nat.add_mod_right]
    exact Nat.mod_eq_of_lt (by omega)
  have hne := r.start_ne
  have hflag : ∀ p ∈ M, p ≠ e.start → (pageProperty (s.page p) = true ↔
      ∃ x ∈ as ++ cs, x.start = p) := by
    intro p hpM hpe
    rw [(r.flags p hpM).2]
    constructor
    · rintro ⟨x, hx, rfl⟩
      refine ⟨x, ?_, rfl⟩
      simp only [List.mem_append, List.mem_cons] at hx ⊢
      rcases hx with hx | rfl | hx
      exacts [Or.inl hx, absurd rfl hpe, Or.inr hx]
    · rintro ⟨x, hx, rfl⟩
      exact ⟨x, by simp only [List.mem_append, List.mem_cons] at hx ⊢; tauto, rfl⟩
  rcases hn.lt_or_eq with hlt | rfl
  · -- the rest of the block is linked behind the block before it
    have hrem : remainder e n = [⟨e.start + n, e.len - n⟩] := if_pos hlt
    have hcut := r.laid.cut hlt
    have hne' : ∀ x ∈ as ++ cs, x.start ≠ e.start + n := fun x hx h => by
      have := r.laid.pos x (by simp only [List.mem_append, List.mem_cons] at hx ⊢; tauto)
      exact r.laid.others hx (p := x.start) ⟨le_rfl, by simp only [Extent.stop]; omega⟩
        ⟨by omega, by simp only [Extent.stop]; omega⟩
    have htb : takeBlock s e.start n = { (((s.setProperty (e.start + n) (e.len - n)).modify
        (e.start + n) setPageProperty).modify e.start clearPageProperty) with
          links := listAdd (listDel s.links (.pageLink e.start))
            (listPrev s.links (.pageLink e.start)) (.pageLink (e.start + n))
          nrFree := s.nrFree - n } := by
      simp only [takeBlock, hp, if_pos hlt, ← hnr]; rfl
    rw [htb, hrem, List.singleton_append]
    refine ⟨?_, fun x hx => ?_, ?_, fun p hpM => ?_, hcut, by dsimp only; omega⟩
    · rw [nodes_append, nodes_cons]
      refine circ_listAddAfter hdel ?_ hc.prev_mid
      rw [← nodes_append]
      exact node_notMem hne'
    · have hs : e.start ≠ e.start + n := by omega
      rw [List.mem_append, List.mem_cons] at hx
      rcases hx with hx | rfl | hx
      · have hx' : x ∈ as ++ cs := by simp [hx]
        simp [hne x hx', hne' x hx', r.property x (by simp [hx])]
      · simp [h0.ne', u32_of_lt (show e.len - n < 2 ^ 32 by omega)]
      · have hx' : x ∈ as ++ cs := by simp [hx]
        simp [hne x hx', hne' x hx', r.property x (by simp [hx])]
    · simp only [List.map_append, List.map_cons, List.sum_append, List.sum_cons]; omega
    · have hs : e.start ≠ e.start + n := by omega
      have hres := (r.flags p hpM).1
      have hin : ∀ y, (∃ x ∈ as ++ ⟨e.start + n, e.len - n⟩ :: cs, x.start = y) ↔
          y = e.start + n ∨ ∃ x ∈ as ++ cs, x.start = y := fun y => by
        simp only [List.mem_append, List.mem_cons]
        constructor
        · rintro ⟨x, hx | rfl | hx, rfl⟩
          exacts [Or.inr ⟨x, by tauto, rfl⟩, Or.inl rfl, Or.inr ⟨x, by tauto, rfl⟩]
        · rintro (rfl | ⟨x, hx, rfl⟩)
          exacts [⟨_, Or.inr (Or.inl rfl), rfl⟩, ⟨x, by tauto, rfl⟩]
      rw [hin]
      simp only [Pmm.modify_page, Pmm.setProperty_page]
      by_cases hpe : p = e.start
      · subst hpe
        simp only [if_true, hs, if_false, pageReserved_clearPageProperty,
          pageProperty_clearPageProperty, Bool.false_eq_true, false_or, false_iff, not_exists,
          not_and]
        exact ⟨hres, hne⟩
      · simp only [if_neg hpe]
        by_cases hpn : p = e.start + n
        · subst hpn; simpa using hres
        · simpa [hpn, hres] using hflag p hpM hpe
  · have hrem : remainder e e.len = [] := if_neg (lt_irrefl _)
    have htb : takeBlock s e.start e.len = { (s.modify e.start clearPageProperty) with
          links := listDel s.links (.pageLink e.start), nrFree := s.nrFree - e.len } := by
      simp only [takeBlock, hp, lt_irrefl, if_false, ← hnr]; rfl
    rw [htb, hrem, List.nil_append]
    refine ⟨by rw [nodes_append]; exact hdel, fun x hx => ?_, ?_, fun p hpM => ?_, r.laid.erase,
      by dsimp only; omega⟩
    · simp [hne x hx, r.property x (by
        simp only [List.mem_append, List.mem_cons] at hx ⊢; tauto)]
    · simp only [List.map_append, List.sum_append]; omega
    · have hres := (r.flags p hpM).1
      simp only [Pmm.modify_page]
      by_cases hpe : p = e.start
      · subst hpe
        simp only [if_true, pageReserved_clearPageProperty, pageProperty_clearPageProperty,
          Bool.false_eq_true, false_iff, not_exists, not_and]
        exact ⟨hres, hne⟩
      · simpa [hpe, hres] using hflag p hpM hpe

@[simp] theorem takeBlock_npage (s : Pmm) (p n : ℕ) : (takeBlock s p n).npage = s.npage := by
  simp only [takeBlock]; split <;> rfl

theorem sum_remainder (hn : n ≤ e.len) : ((remainder e n).map Extent.len).sum + n = e.len := by
  unfold remainder
  split
  · simp only [List.map_cons, List.map_nil, List.sum_cons, List.sum_nil]; omega
  · simp only [List.map_nil, List.sum_nil]; omega

theorem takeBlock_nrFree (r : FreeBlocks s M (as ++ e :: cs)) (h0 : 0 < n) (hn : n ≤ e.len) :
    (takeBlock s e.start n).nrFree + n = s.nrFree := by
  have h1 := (takeBlock_spec r h0 hn).nrFree
  have h2 := r.nrFree
  have h3 := sum_remainder hn
  simp only [List.map_append, List.map_cons, List.sum_append, List.sum_cons] at h1 h2
  omega

/-- **First fit.** The pages come from the first block that is large enough, if there is one. -/
theorem defaultAllocPages_spec (r : FreeBlocks s M bs) (hn : 0 < n) :
    (defaultAllocPages s n = some (none, s) ∧ ∀ e ∈ bs, e.len < n) ∨
    ∃ as e cs, bs = as ++ e :: cs ∧ n ≤ e.len ∧ (∀ a ∈ as, a.len < n) ∧
      defaultAllocPages s n = some (some e.start, takeBlock s e.start n) ∧
      FreeBlocks (takeBlock s e.start n) M (as ++ (remainder e n ++ cs)) := by
  by_cases hfree : s.nrFree < n
  · refine Or.inl ⟨by simp [defaultAllocPages, hn.ne', hfree], fun e he => ?_⟩
    have := List.single_le_sum (l := bs.map Extent.len) (by simp) e.len (List.mem_map_of_mem he)
    have := r.nrFree
    omega
  · have hw : firstFitWalk s n s.fuel .freeList = _ :=
      firstFitWalk_spec bs [] (by simpa using r.ring) r.property r.length_lt
    cases hf : bs.find? fun e => n ≤ e.len with
    | none =>
      refine Or.inl ⟨by simp [defaultAllocPages, hn.ne', hfree, hw, hf], fun e he => ?_⟩
      have := List.find?_eq_none.1 hf e he
      simpa using this
    | some e =>
      obtain ⟨hle, as, cs, rfl, has⟩ := List.find?_eq_some_iff_append.1 hf
      have hle : n ≤ e.len := by simpa using hle
      refine Or.inr ⟨as, e, cs, rfl, hle, fun a ha => by simpa using has a ha, ?_,
        takeBlock_spec r hn hle⟩
      simp [defaultAllocPages, hn.ne', hfree, hw, hf]

/-- **First fit**, exactly: no page, and nothing changed, if no block is large enough; else the
    first pages of the first block that is, the rest of which stays in its place. -/
theorem first_fit_choice (r : FreeBlocks s M bs) (hn : 0 < n) :
    ∃ page s', defaultAllocPages s n = some (page, s') ∧ (page = none ↔ ∀ e ∈ bs, e.len < n) ∧
      (page = none → s' = s) ∧ ∀ p, page = some p → ∃ as e cs, bs = as ++ e :: cs ∧ p = e.start ∧
        n ≤ e.len ∧ (∀ a ∈ as, a.len < n) ∧ FreeBlocks s' M (as ++ (remainder e n ++ cs)) ∧
        s'.nrFree + n = s.nrFree := by
  obtain ⟨ha, hsmall⟩ | ⟨as, e, cs, rfl, hle, has, ha, r'⟩ := defaultAllocPages_spec r hn
  · exact ⟨none, s, ha, ⟨fun _ => hsmall, fun _ => rfl⟩, fun _ => rfl, fun p hp => by cases hp⟩
  · refine ⟨some e.start, _, ha, ⟨nofun, fun h => ?_⟩, nofun, fun p hp => ?_⟩
    · exact absurd (h e (by simp)) (not_lt.2 hle)
    · cases hp
      exact ⟨as, e, cs, rfl, rfl, hle, has, r', takeBlock_nrFree r hn hle⟩

/-- Four pages, of which the first, and the last two, are free. -/
def twoBlocks : Pmm where
  npage := 4
  page p := if p = 0 then ⟨0, 2, 1⟩ else if p = 2 then ⟨0, 2, 2⟩ else ⟨0, 0, 0⟩
  links := listAddBefore (listAdd (listInit ⟨id, id⟩ .freeList) .freeList (.pageLink 0)) .freeList
    (.pageLink 2)
  nrFree := 3

theorem twoBlocks_blocks : FreeBlocks twoBlocks {0, 1, 2, 3} [⟨0, 1⟩, ⟨2, 2⟩] where
  ring := ⟨⟨rfl, rfl, rfl, rfl, rfl, rfl⟩, by decide⟩
  property := by simp [twoBlocks]
  nrFree := rfl
  flags := by decide
  laid := ⟨by decide, by simp, by simp [twoBlocks, Extent.stop]⟩
  word := by decide

/-- Two pages are asked for: the first block is too small. -/
theorem first_fit_choice_second : ∃ s', defaultAllocPages twoBlocks 2 = some (some 2, s') ∧
    s'.nrFree = 1 := by
  obtain ⟨page, s', hs, -, -, hp⟩ := first_fit_choice twoBlocks_blocks (n := 2) (by decide)
  have hpage : (defaultAllocPages twoBlocks 2).map Prod.fst = some (some 2) := by decide
  rw [hs] at hpage
  obtain rfl : page = some 2 := by simpa using hpage
  obtain ⟨as, e, cs, -, -, -, -, -, hf⟩ := hp 2 rfl
  exact ⟨s', hs, by change s'.nrFree + 2 = 3 at hf; omega⟩

end Ucore
