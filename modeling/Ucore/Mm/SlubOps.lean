/-
  What `slub_init`, `slub_alloc` and `slub_free` do to the slabs.

  * `slubInit_spec`: the caches are there, without a slab;
  * `findSlab_spec`, `takeObject_spec`, `slubAlloc_small`: an object of at least the size is marked
    and cleared (`Granted`), or every slab of the cache is full and no page is left;
  * `slubFree_object`: the mark of one object is taken off (`Dropped`).
-/
import Ucore.Mm.SlubInv

namespace Ucore

variable {C : CacheArray} {m m' : Bytes} {i : Fin 3} {q r k j : ℕ}
  {slabs slabs' : ℕ → Option (Fin 3)} {g : Fin 3 → ℕ → Fill} {F : Fin 3 × Fill → List ℕ}
  {s s' : Slub}

/-! ## One object -/

theorem setBitAt_of_ne (hj : j ≠ bitmapOf i q + k / 8) : setBitAt m (bitmapOf i q) k j = m j :=
  Function.update_of_ne hj _ _

theorem clearBitAt_of_ne (hj : j ≠ bitmapOf i q + k / 8) :
    clearBitAt m (bitmapOf i q) k j = m j := Function.update_of_ne hj _ _

/-- A slab whose bitmap has been written gets the counter that belongs to it. -/
theorem SlabAt.count (h : SlabAt C m i q) {mb : Bytes} {z : ℕ}
    (hmb : ∀ j, j < bitmapOf i q ∨ bitmapOf i q + (perSlab i + 7) / 8 ≤ j → mb j = m j)
    (hz : z = zeroBits mb (bitmapOf i q) (perSlab i)) :
    SlabAt C (mb.setWord 8 (4096 * q + 32) z) i q ∧
      (∀ k < perSlab i, bitAt (mb.setWord 8 (4096 * q + 32) z) (bitmapOf i q) k =
        bitAt mb (bitmapOf i q) k) ∧
      ∀ j, j < 4096 * q + 16 ∨ 4096 * q + 56 ≤ j ∧ j < bitmapOf i q ∨ 4096 * (q + 1) ≤ j →
        mb.setWord 8 (4096 * q + 32) z j = m j := by
  have hl := layout i q
  have hbits : ∀ k < perSlab i, bitAt (mb.setWord 8 (4096 * q + 32) z) (bitmapOf i q) k =
      bitAt mb (bitmapOf i q) k := fun k hk =>
    bitAt_congr (Bytes.setWord_of_not_mem (by omega))
  have hw : ∀ o, 16 ≤ o → o ≤ 48 → (o + 8 ≤ 32 ∨ 40 ≤ o) →
      (mb.setWord 8 (4096 * q + 32) z).word 8 (4096 * q + o) = m.word 8 (4096 * q + o) :=
    fun o h1 h2 h3 => by
      rw [Bytes.word_setWord_of_disjoint (by omega)]
      exact Bytes.word_congr fun j hj => hmb _ (by omega)
  refine ⟨⟨?_, ?_, ?_, ?_, ?_⟩, hbits, fun j hj => ?_⟩
  · rw [hw 16 (by omega) (by omega) (by omega), h.objects]
  · rw [hw 24 (by omega) (by omega) (by omega), h.bitmap]
  · rw [Bytes.word_setWord, zeroBits_congr hbits, hz]
    refine Nat.mod_eq_of_lt (lt_of_le_of_lt zeroBits_le ?_)
    obtain ⟨-, h⟩ | ⟨-, h⟩ | ⟨-, h⟩ := geometry i <;> rw [h] <;> decide
  · rw [hw 40 (by omega) (by omega) (by omega), h.total]
  · rw [hw 48 (by omega) (by omega) (by omega), h.cache]
  · rw [Bytes.setWord_of_not_mem (by omega)]
    exact hmb j (by omega)

/-- Object `k` of the slab at page `q` has been marked; no other object has been written. -/
structure Marked (C : CacheArray) (slabs : ℕ → Option (Fin 3)) (i : Fin 3) (q k : ℕ)
    (m m' : Bytes) : Prop where
  bits : ∀ k' < perSlab i,
    bitAt m' (bitmapOf i q) k' = (bitAt m (bitmapOf i q) k' || decide (k' = k))
  quiet : Quiet C slabs q m m'
  objects : ∀ j, 4096 * q + 56 ≤ j → j < bitmapOf i q →
    j < objectAt i q k ∨ objectAt i q k + slabCacheSizes i ≤ j → m' j = m j
  shelves : ∃ F, Shelves C m' slabs (fillOf m') F

/-- **The loop of `slub_alloc`** marks the first free object, and puts a slab that is full now on
    the list of the full ones. -/
theorem takeObject_spec (h : Shelves C s.mem slabs g F) (hq : slabs q = some i)
    (hg : ∀ j r, slabs r = some j → g j r = if r = q then .partly else fillOf s.mem j r)
    (hz : 0 < zeroBits s.mem (bitmapOf i q) (perSlab i)) :
    ∃ k s', takeObject (cacheAt C.base i) (4096 * q) s = (some (objectAt i q k), s') ∧
      k < perSlab i ∧ bitAt s.mem (bitmapOf i q) k = false ∧ s'.taken = s.taken ∧
      s'.initialized = s.initialized ∧ Marked C slabs i q k s.mem s'.mem := by
  have hs := h.slab q i hq
  have hpage := h.page q i hq
  have hl := layout i q
  obtain ⟨k, hf, hk, hb⟩ := exists_find_zero hz
  have hobj := object_lt (i := i) (q := q) hk
  have hper : perSlab i < 2 ^ 64 := by
    obtain ⟨-, h⟩ | ⟨-, h⟩ | ⟨-, h⟩ := geometry i <;> rw [h] <;> decide
  have hzl : zeroBits s.mem (bitmapOf i q) (perSlab i) ≤ perSlab i := zeroBits_le
  have hzs : zeroBits (setBitAt s.mem (bitmapOf i q) k) (bitmapOf i q) (perSlab i) + 1 =
      zeroBits s.mem (bitmapOf i q) (perSlab i) := zeroBits_set hk hb fun k' _ => bitAt_setBitAt
  set z := (zeroBits s.mem (bitmapOf i q) (perSlab i) + 2 ^ 64 - 1) % 2 ^ 64 with hzdef
  have hzv : z = zeroBits (setBitAt s.mem (bitmapOf i q) k) (bitmapOf i q) (perSlab i) := by omega
  obtain ⟨hs₂, hbits₂, hout₂⟩ := hs.count (fun j hj => setBitAt_of_ne (by omega)) hzv
  -- the memory before the slab is put on another list
  set m₃ := ((setBitAt s.mem (bitmapOf i q) k).setWord 8 (4096 * q + 32) z).fill
    (objectAt i q k) 0 (slabCacheSizes i) with hm₃
  have hfill : ∀ j, j < objectAt i q k ∨ objectAt i q k + slabCacheSizes i ≤ j →
      m₃ j = (setBitAt s.mem (bitmapOf i q) k).setWord 8 (4096 * q + 32) z j :=
    fun j hj => Bytes.copy_of_not_mem hj
  have hs₃ : SlabAt C m₃ i q := hs₂.congr fun j h1 h2 h3 => hfill j (by omega)
  have hbits₃ : ∀ k' < perSlab i, bitAt m₃ (bitmapOf i q) k' =
      (bitAt s.mem (bitmapOf i q) k' || decide (k' = k)) := fun k' hk' => by
    rw [bitAt_congr (hfill _ (.inr (by omega))), hbits₂ k' hk', bitAt_setBitAt]
  have hout₃ : ∀ j, j < 4096 * q + 16 ∨ 4096 * (q + 1) ≤ j → m₃ j = s.mem j := fun j hj => by
    rw [hfill j (by omega), hout₂ j (by omega)]
  have hobj₃ : ∀ j, 4096 * q + 56 ≤ j → j < bitmapOf i q →
      j < objectAt i q k ∨ objectAt i q k + slabCacheSizes i ≤ j → m₃ j = s.mem j :=
    fun j h1 h2 h3 => by rw [hfill j h3, hout₂ j (by omega)]
  have h₃ := h.write hq hs₃ hout₃
  have hcount₃ : zeroBits m₃ (bitmapOf i q) (perSlab i) = z := by
    rw [hzv]
    exact zeroBits_congr fun k' hk' => by rw [hbits₃ k' hk', bitAt_setBitAt]
  have hother : ∀ {mem : Bytes}, Quiet C slabs q s.mem mem → ∀ j r, slabs r = some j → r ≠ q →
      fillOf mem j r = fillOf s.mem j r := fun hqt j r hr hrq =>
    fillOf_congr fun k hk => hqt.bitAt (h.page r j hr) hrq hk
  have hq₃ : Quiet C slabs q s.mem m₃ := fun j _ hj => hout₃ j (by omega)
  have htake : takeObject (cacheAt C.base i) (4096 * q) s = (some (objectAt i q k), { s with
      mem := if z = 0 then moveSlab m₃ (cacheAt C.base i) (4096 * q) .full else m₃
      totalAllocated := s.totalAllocated + 1 }) := by
    unfold takeObject
    rw [hs.objects, hs.bitmap, hs.total, hs.free, (h.config i).1]
    dsimp only
    rw [hf]
    rfl
  refine ⟨k, _, htake, hk, hb, rfl, rfl, ?_⟩
  dsimp only
  split
  · -- the slab is full
    rename_i hz0
    obtain ⟨F', hF', hmove, -⟩ := h₃.move hq .full
    have hpg : ∀ j, 4096 * q + 16 ≤ j → j < 4096 * (q + 1) →
        moveSlab m₃ (cacheAt C.base i) (4096 * q) .full j = m₃ j := fun j h1 h2 =>
      hmove j (hpage.unlisted h1 h2)
    have hqt : Quiet C slabs q s.mem (moveSlab m₃ (cacheAt C.base i) (4096 * q) .full) :=
      fun j hj hj' => (hmove j hj).trans (hq₃ j hj hj')
    have hbits : ∀ k' < perSlab i, bitAt (moveSlab m₃ (cacheAt C.base i) (4096 * q) .full)
        (bitmapOf i q) k' = bitAt m₃ (bitmapOf i q) k' := fun k' hk' =>
      bitAt_congr (hpg _ (by omega) (by omega))
    refine ⟨fun k' hk' => (hbits k' hk').trans (hbits₃ k' hk'), hqt, fun j h1 h2 h3 =>
      (hpg j (by omega) (by omega)).trans (hobj₃ j h1 h2 h3), F', hF'.congr_fill fun j r hr => ?_⟩
    by_cases hrq : r = q
    · subst hrq
      rw [hq] at hr
      cases hr
      rw [if_pos rfl, fillOf_congr hbits, fillOf, hcount₃, if_pos hz0]
    · rw [if_neg hrq, hg j r hr, if_neg hrq]
      exact hother hqt j r hr hrq
  · rename_i hz0
    refine ⟨hbits₃, hq₃, hobj₃, F, h₃.congr_fill fun j r hr => ?_⟩
    rw [hg j r hr]
    by_cases hrq : r = q
    · subst hrq
      rw [hq] at hr
      cases hr
      rw [if_pos rfl, fillOf, hcount₃, if_neg hz0, if_neg (by omega)]
    · rw [if_neg hrq]
      exact hother hq₃ j r hr hrq

/-! ## Finding a slab -/

theorem perSlab_pos (i : Fin 3) : 0 < perSlab i ∧ perSlab i < 2 ^ 32 := by
  obtain ⟨-, h⟩ | ⟨-, h⟩ | ⟨-, h⟩ := geometry i <;> rw [h] <;> decide

theorem fillOf_eq_full : fillOf m i q = .full ↔ zeroBits m (bitmapOf i q) (perSlab i) = 0 := by
  unfold fillOf
  split
  · rename_i h0
    exact iff_of_true rfl h0
  · rename_i h0
    split <;> exact iff_of_false (by simp) h0

theorem zeroBits_pos (h : fillOf m i q ≠ .full) : 0 < zeroBits m (bitmapOf i q) (perSlab i) :=
  Nat.pos_of_ne_zero fun e => h (fillOf_eq_full.2 e)

/-- The slab at page `q`, in which there is a free object, is on the list of the partial ones; it
    was a slab before, or is the new page. -/
structure Found (C : CacheArray) (page : Option ℕ) (slabs : ℕ → Option (Fin 3)) (s : Slub)
    (i : Fin 3) (q : ℕ) (slabs' : ℕ → Option (Fin 3)) (s' : Slub) : Prop where
  slab : slabs' q = some i
  shelves : ∃ g F, Shelves C s'.mem slabs' g F ∧ ∀ j r, slabs' r = some j →
    g j r = if r = q then .partly else fillOf s'.mem j r
  room : 0 < zeroBits s'.mem (bitmapOf i q) (perSlab i)
  quiet : Quiet C slabs q s.mem s'.mem
  initialized : s'.initialized = s.initialized
  origin : (slabs' = slabs ∧ s'.taken = s.taken ∧
      ∀ j, 4096 * q + 16 ≤ j → j < 4096 * (q + 1) → s'.mem j = s.mem j) ∨
    (page = some q ∧ slabs q = none ∧ slabs' = Function.update slabs q (some i) ∧
      s'.taken = insert q s.taken ∧ ∀ k < perSlab i, bitAt s'.mem (bitmapOf i q) k = false)

theorem findSlab_spec (h : Shelves C s.mem slabs (fillOf s.mem) F) {page : Option ℕ}
    (hp : ∀ q, page = some q → C.Page q ∧ slabs q = none) :
    (page = none ∧ (∀ q, slabs q = some i → fillOf s.mem i q = .full) ∧
      findSlab page (cacheAt C.base i) s = (none, s)) ∨
    ∃ q slabs' s', findSlab page (cacheAt C.base i) s = (some (4096 * q), s') ∧
      Found C page slabs s i q slabs' s' := by
  have hcp : Intrusive.Circ (linksOf s.mem) (cacheAt C.base i + Fill.partly.head)
    (F (i, .partly)) := h.rings.circ (i, .partly)
  have hcf : Intrusive.Circ (linksOf s.mem) (cacheAt C.base i + Fill.free.head)
    (F (i, .free)) := h.rings.circ (i, .free)
  have hlist := h.listed
  cases hFp : F (i, .partly) with
  | cons x xs =>
    -- a partial slab
    obtain ⟨q, rfl, hq, hg⟩ := (hlist (i, .partly) x).1 (by rw [hFp]; simp)
    rw [hFp] at hcp
    have hne := (not_congr hcp.next_head_eq_iff).2 (by simp)
    have hnext : (linksOf s.mem).next (cacheAt C.base i + Fill.partly.head) = 4096 * q :=
      hcp.next_head
    refine .inr ⟨q, slabs, s, ?_, hq, ⟨_, F, h, fun j r hr => ?_⟩, zeroBits_pos ?_,
      fun _ _ _ => rfl, rfl, .inl ⟨rfl, rfl, fun _ _ _ => rfl⟩⟩
    · unfold findSlab
      dsimp only
      rw [if_pos hne, hnext]
    · split
      · rename_i e
        subst e
        rw [hq] at hr
        cases hr
        exact hg
      · rfl
    · rw [show fillOf s.mem i q = .partly from hg]
      simp
  | nil =>
    rw [hFp] at hcp
    have hep := hcp.next_head_eq_iff.2 rfl
    cases hFf : F (i, .free) with
    | cons x xs =>
      -- a free slab becomes a partial one
      obtain ⟨q, rfl, hq, hg⟩ := (hlist (i, .free) x).1 (by rw [hFf]; simp)
      rw [hFf] at hcf
      have hne := (not_congr hcf.next_head_eq_iff).2 (by simp)
      have hnext : (linksOf s.mem).next (cacheAt C.base i + Fill.free.head) = 4096 * q :=
        hcf.next_head
      obtain ⟨F', hF', hm, -⟩ := h.move hq .partly
      have hpg : ∀ r i', slabs r = some i' → ∀ j, 4096 * r + 16 ≤ j → j < 4096 * (r + 1) →
          moveSlab s.mem (cacheAt C.base i) (4096 * q) .partly j = s.mem j :=
        fun r i' hr j h1 h2 => hm j ((h.page r i' hr).unlisted h1 h2)
      have hbits : ∀ r i', slabs r = some i' → ∀ k < perSlab i',
          bitAt (moveSlab s.mem (cacheAt C.base i) (4096 * q) .partly) (bitmapOf i' r) k =
            bitAt s.mem (bitmapOf i' r) k := fun r i' hr k hk => by
        have hl := layout i' r
        exact bitAt_congr (hpg r i' hr _ (by omega) (by omega))
      refine .inr ⟨q, slabs, { s with mem := moveSlab s.mem (cacheAt C.base i) (4096 * q) .partly },
        ?_, hq, ⟨_, F', hF', fun j r hr => ?_⟩, ?_, fun j hj _ => hm j hj, rfl,
        .inl ⟨rfl, rfl, hpg q i hq⟩⟩
      · unfold findSlab
        dsimp only
        rw [if_neg (not_not.2 hep), if_pos hne, hnext]
      · rw [fillOf_congr (hbits r j hr)]
      · rw [zeroBits_congr (hbits q i hq)]
        refine zeroBits_pos ?_
        rw [show fillOf s.mem i q = .free from hg]
        simp
    | nil =>
      rw [hFf] at hcf
      have hef := hcf.next_head_eq_iff.2 rfl
      cases page with
      | none =>
        have hnone : findSlab none (cacheAt C.base i) s = (none, s) := by
          unfold findSlab
          dsimp only
          rw [if_neg (not_not.2 hep)]
          exact if_neg (not_not.2 hef)
        refine .inl ⟨rfl, fun q hq => ?_, hnone⟩
        cases hfo : fillOf s.mem i q with
        | full => rfl
        | partly =>
          have := (hlist (i, .partly) _).2 ⟨q, rfl, hq, hfo⟩
          rw [hFp] at this
          cases this
        | free =>
          have := (hlist (i, .free) _).2 ⟨q, rfl, hq, hfo⟩
          rw [hFf] at this
          cases this
      | some q =>
        -- a new slab
        obtain ⟨hpage, hn⟩ := hp q rfl
        have hl := layout i q
        obtain ⟨hsh, hqt, hb⟩ := h.create hpage hn i
        set mc := memListAdd (initSlab s.mem (cacheAt C.base i) (4096 * q) (perSlab i)
          (slabCacheSizes i)) (C.head (i, .free)) (4096 * q)
        have hcreate : slabCreate (some q) (cacheAt C.base i) s =
            (some (4096 * q), { s with mem := mc, taken := insert q s.taken }) := by
          unfold slabCreate
          rw [(h.config i).1, (h.config i).2]
          rfl
        have hsome : findSlab (some q) (cacheAt C.base i) s = (some (4096 * q),
            { s with
              mem := moveSlab mc (cacheAt C.base i) (4096 * q) .partly
              taken := insert q s.taken }) := by
          unfold findSlab
          dsimp only
          rw [if_neg (not_not.2 hep), hcreate]
          exact if_neg (not_not.2 hef)
        have hqs : Function.update slabs q (some i) q = some i := Function.update_self ..
        obtain ⟨F', hF', hm, -⟩ := hsh.move hqs .partly
        have hpg : ∀ j, 4096 * q + 16 ≤ j → j < 4096 * (q + 1) →
            moveSlab mc (cacheAt C.base i) (4096 * q) .partly j = mc j :=
          fun j h1 h2 => hm j (hpage.unlisted h1 h2)
        have hbits : ∀ k < perSlab i,
            bitAt (moveSlab mc (cacheAt C.base i) (4096 * q) .partly) (bitmapOf i q) k = false :=
          fun k hk => (bitAt_congr (hpg _ (by omega) (by omega))).trans (hb k hk)
        have hquiet : Quiet C slabs q s.mem
            (moveSlab mc (cacheAt C.base i) (4096 * q) .partly) := fun j hj hj' => by
          refine (hm j ⟨hj.1, fun r i' hr => ?_⟩).trans (hqt j hj hj')
          by_cases hrq : r = q
          · omega
          · rw [Function.update_of_ne hrq] at hr
            exact hj.2 r i' hr
        refine .inr ⟨q, _, _, hsome, hqs, ⟨_, F', hF', fun j r hr => ?_⟩, ?_, hquiet, rfl,
          .inr ⟨rfl, hn, rfl, rfl, hbits⟩⟩
        · by_cases hrq : r = q
          · rw [if_pos hrq, if_pos hrq]
          · rw [if_neg hrq, if_neg hrq, if_neg hrq]
            rw [Function.update_of_ne hrq] at hr
            exact (fillOf_congr fun k hk => hquiet.bitAt (h.page r j hr) hrq hk).symm
        · rw [zeroBits, Finset.filter_true_of_mem fun k hk => hbits k (Finset.mem_range.1 hk),
            Finset.card_range]
          exact (perSlab_pos i).1

/-! ## `slub_alloc` -/

/-- Object `k` of the slab at page `q` has been allocated; `slabs'` are the slabs now. -/
structure Granted (C : CacheArray) (page : Option ℕ) (slabs : ℕ → Option (Fin 3)) (s : Slub)
    (i : Fin 3) (q k : ℕ) (slabs' : ℕ → Option (Fin 3)) (s' : Slub) : Prop where
  slab : slabs' q = some i
  index : k < perSlab i
  origin : (slabs' = slabs ∧ s'.taken = s.taken ∧ bitAt s.mem (bitmapOf i q) k = false) ∨
    (page = some q ∧ slabs q = none ∧ slabs' = Function.update slabs q (some i) ∧
      s'.taken = insert q s.taken)
  bits : ∀ k' < perSlab i, bitAt s'.mem (bitmapOf i q) k' =
    (decide (slabs q = some i) && bitAt s.mem (bitmapOf i q) k' || decide (k' = k))
  quiet : Quiet C slabs q s.mem s'.mem
  objects : slabs q = some i → ∀ j, 4096 * q + 56 ≤ j → j < bitmapOf i q →
    j < objectAt i q k ∨ objectAt i q k + slabCacheSizes i ≤ j → s'.mem j = s.mem j
  shelves : ∃ F, Shelves C s'.mem slabs' (fillOf s'.mem) F
  initialized : s'.initialized = s.initialized

/-- The cache for a size. -/
def cacheFor (size : ℕ) : Option (Fin 3) :=
  (List.finRange 3).find? fun i => size ≤ slabCacheSizes i

theorem targetCache_eq (h : Shelves C m slabs g F) (size : ℕ) :
    targetCache C.base m size = cacheFor size :=
  congrArg (fun p => List.find? p (List.finRange 3)) (funext fun i => by rw [(h.config i).1])

theorem find_cache {size : ℕ} :
    (size ≤ 128 → ∃ i, cacheFor size = some i ∧ size ≤ slabCacheSizes i) ∧
      (128 < size → cacheFor size = none) := by
  unfold cacheFor
  have hlist : List.finRange 3 = [0, 1, 2] := by decide
  have h0 : slabCacheSizes 0 = 32 := rfl
  have h1 : slabCacheSizes 1 = 64 := rfl
  have h2 : slabCacheSizes 2 = 128 := rfl
  rw [hlist]
  simp only [List.find?_cons, List.find?_nil, h0, h1, h2]
  constructor
  · intro h
    by_cases hs : size ≤ 32
    · exact ⟨0, by simp [hs], hs⟩
    · by_cases hs' : size ≤ 64
      · exact ⟨1, by simp [hs, hs'], hs'⟩
      · exact ⟨2, by simp [hs, hs', h], h⟩
  · intro h
    simp [show ¬size ≤ 32 by omega, show ¬size ≤ 64 by omega, show ¬size ≤ 128 by omega]

theorem slubInit_of_init (hi : s.initialized = true) : slubInit C.base s = s := if_pos hi

/-- **`slub_alloc`** of a small size. -/
theorem slubAlloc_small (hi : s.initialized = true)
    (h : Shelves C s.mem slabs (fillOf s.mem) F) {page : Option ℕ}
    (hp : ∀ q, page = some q → C.Page q ∧ slabs q = none) {size : ℕ} (h0 : 0 < size)
    (hsz : size ≤ 128) : ∃ i, cacheFor size = some i ∧
      ((page = none ∧ (∀ q, slabs q = some i → zeroBits s.mem (bitmapOf i q) (perSlab i) = 0) ∧
          slubAlloc C.base page size s = (none, s)) ∨
        ∃ q k slabs' s', slubAlloc C.base page size s = (some (objectAt i q k), s') ∧
          Granted C page slabs s i q k slabs' s') := by
  obtain ⟨i, hfind, -⟩ := find_cache.1 hsz
  refine ⟨i, hfind, ?_⟩
  obtain ⟨hn, hfull, hfs⟩ | ⟨q, slabs', s₁, hfs, hfd⟩ := findSlab_spec (i := i) h hp
  · have hnone : slubAlloc C.base page size s = (none, s) := by
      unfold slubAlloc
      dsimp only
      rw [slubInit_of_init hi, if_neg (by omega), targetCache_eq h]
      simp only [hfind, hfs]
    exact .inl ⟨hn, fun q hq => fillOf_eq_full.1 (hfull q hq), hnone⟩
  · have hsome : slubAlloc C.base page size s = takeObject (cacheAt C.base i) (4096 * q) s₁ := by
      unfold slubAlloc
      dsimp only
      rw [slubInit_of_init hi, if_neg (by omega), targetCache_eq h]
      simp only [hfind, hfs]
    rw [hsome]
    obtain ⟨g, F₁, hsh, hg⟩ := hfd.shelves
    obtain ⟨k, s', htake, hk, hb, ht, hin, hmk⟩ := takeObject_spec hsh hfd.slab hg hfd.room
    have hl := layout i q
    refine .inr ⟨q, k, slabs', s', htake, hfd.slab, hk, ?_, fun k' hk' => ?_, ?_, ?_, hmk.shelves,
      hin.trans hfd.initialized⟩
    · obtain ⟨h1, h2, h3⟩ | ⟨h1, h2, h3, h4, -⟩ := hfd.origin
      · refine .inl ⟨h1, ht.trans h2, ?_⟩
        rw [← hb]
        exact (bitAt_congr (h3 _ (by omega) (by omega))).symm
      · exact .inr ⟨h1, h2, h3, ht.trans h4⟩
    · rw [hmk.bits k' hk']
      obtain ⟨h1, -, h3⟩ | ⟨-, h2, -, -, h5⟩ := hfd.origin
      · rw [← h1, decide_eq_true hfd.slab, Bool.true_and]
        exact congrArg (· || _) (bitAt_congr (h3 _ (by omega) (by omega)))
      · rw [h5 k' hk', h2]
        rfl
    · refine hfd.quiet.trans fun j hj hj' => hmk.quiet j ?_ hj'
      obtain ⟨h1, -, -⟩ | ⟨-, -, h3, -, -⟩ := hfd.origin
      · rwa [h1]
      · refine ⟨hj.1, fun r i' hr => ?_⟩
        by_cases hrq : r = q
        · omega
        · rw [h3, Function.update_of_ne hrq] at hr
          exact hj.2 r i' hr
    · intro hq j h1 h2 h3
      obtain ⟨-, -, h4⟩ | ⟨-, h4, -⟩ := hfd.origin
      · exact (hmk.objects j h1 h2 h3).trans (h4 j (by omega) (by omega))
      · rw [hq] at h4
        cases h4

/-- **`slub_alloc`** of a large size. -/
theorem slubAlloc_large (hi : s.initialized = true) (h : Shelves C s.mem slabs g F)
    {page : Option ℕ} {size : ℕ} (hsz : 128 < size) :
    slubAlloc C.base page size s = match page with
      | none => (none, s)
      | some q => (some (4096 * q),
        { s with taken := s.taken ∪ Finset.Ico q (q + pagesNeeded size) }) := by
  unfold slubAlloc
  dsimp only
  rw [slubInit_of_init hi, if_neg (by omega), targetCache_eq h]
  cases page <;> simp only [find_cache.2 hsz]

/-! ## `slub_init` -/

theorem cacheInit_of_not_mem {size : ℕ}
    (hj : j < cacheAt C.base i ∨ cacheAt C.base i + 64 ≤ j) :
    cacheInit m (cacheAt C.base i) size j = m j := by
  unfold cacheInit
  rw [memListInit_of_off (by simp only [Fill.head]; omega),
    memListInit_of_off (by simp only [Fill.head]; omega),
    memListInit_of_off (by simp only [Fill.head]; omega), Bytes.setWord_of_not_mem (by omega),
    Bytes.setWord_of_not_mem (by omega)]

theorem memListInit_links (hh : j < 2 ^ 64) :
    (linksOf (memListInit m j)).next j = j ∧ (linksOf (memListInit m j)).prev j = j := by
  unfold memListInit memSetPrev memSetNext
  constructor
  · refine (Bytes.word_setWord_of_disjoint (by omega)).trans (Bytes.word_setWord.trans ?_)
    exact Nat.mod_eq_of_lt hh
  · exact Bytes.word_setWord.trans (Nat.mod_eq_of_lt hh)

/-- `cache_init` makes the three lists empty and sets the sizes. -/
theorem cacheInit_spec (C : CacheArray) (m : Bytes) (i : Fin 3) :
    (∀ f, (linksOf (cacheInit m (cacheAt C.base i) (slabCacheSizes i))).next (C.head (i, f)) =
          C.head (i, f) ∧
        (linksOf (cacheInit m (cacheAt C.base i) (slabCacheSizes i))).prev (C.head (i, f)) =
          C.head (i, f)) ∧
      (cacheInit m (cacheAt C.base i) (slabCacheSizes i)).word 8 (cacheAt C.base i + 48) =
        slabCacheSizes i ∧
      (cacheInit m (cacheAt C.base i) (slabCacheSizes i)).word 8 (cacheAt C.base i + 56) =
        perSlab i := by
  have hfit := C.fits
  have hi := i.isLt
  have hbase : cacheAt C.base i + 72 ≤ 2 ^ 64 := by
    unfold cacheAt
    omega
  have hother : ∀ {m : Bytes} {a b : ℕ}, b + 16 ≤ a ∨ a + 16 ≤ b →
      (linksOf (memListInit m a)).next b = (linksOf m).next b ∧
        (linksOf (memListInit m a)).prev b = (linksOf m).prev b := fun {m a b} hab =>
    ⟨Bytes.word_congr fun j hj => memListInit_of_off (by omega),
      Bytes.word_congr fun j hj => memListInit_of_off (by omega)⟩
  have hword : ∀ {m : Bytes} {a o : ℕ}, a + 16 ≤ o → (memListInit m a).word 8 o = m.word 8 o :=
    fun {m a o} ha => Bytes.word_congr fun j hj => memListInit_of_off (by omega)
  have hsize : slabCacheSizes i < 2 ^ 64 ∧ perSlab i < 2 ^ 64 := by
    obtain ⟨h1, h2⟩ | ⟨h1, h2⟩ | ⟨h1, h2⟩ := geometry i <;> rw [h1, h2] <;> decide
  unfold cacheInit
  dsimp only
  refine ⟨fun f => ?_, ?_, ?_⟩
  · unfold CacheArray.head
    cases f with
    | full =>
      obtain ⟨h1, h2⟩ := memListInit_links (m := (m.setWord 8 (cacheAt C.base i + 48)
        (slabCacheSizes i)).setWord 8 (cacheAt C.base i + 56)
          (calculateObjectsPerSlab (slabCacheSizes i))) (j := cacheAt C.base i + Fill.full.head)
        (by simp only [Fill.head]; omega)
      simp only [Fill.head] at h1 h2 ⊢
      rw [(hother (by omega)).1, (hother (by omega)).1, (hother (by omega)).2,
        (hother (by omega)).2]
      exact ⟨h1, h2⟩
    | partly =>
      simp only [Fill.head]
      rw [(hother (by omega)).1, (hother (by omega)).2]
      exact memListInit_links (by omega)
    | free => exact memListInit_links (by simp only [Fill.head]; omega)
  · simp only [Fill.head]
    rw [hword (by omega), hword (by omega), hword (by omega),
      Bytes.word_setWord_of_disjoint (by omega), Bytes.word_setWord]
    exact Nat.mod_eq_of_lt hsize.1
  · simp only [Fill.head]
    rw [hword (by omega), hword (by omega), hword (by omega), Bytes.word_setWord]
    exact Nat.mod_eq_of_lt hsize.2

/-- **`slub_init`**: the caches without slabs; only the array is written. -/
theorem slubInit_spec (C : CacheArray) (hi : s.initialized = false) (g : Fin 3 → ℕ → Fill) :
    Shelves C (slubInit C.base s).mem (fun _ => none) g (fun _ => []) ∧
      (∀ j, j < C.base ∨ C.base + 216 ≤ j → (slubInit C.base s).mem j = s.mem j) ∧
      (slubInit C.base s).initialized = true ∧ (slubInit C.base s).taken = s.taken := by
  have hlist : List.finRange 3 = [0, 1, 2] := by decide
  have hmem : (slubInit C.base s).mem = cacheInit (cacheInit (cacheInit s.mem
      (cacheAt C.base 0) (slabCacheSizes 0)) (cacheAt C.base 1) (slabCacheSizes 1))
        (cacheAt C.base 2) (slabCacheSizes 2) := by
    rw [slubInit, if_neg (by simp [hi]), hlist]
    rfl
  have h0 : cacheAt C.base 0 = C.base := rfl
  have h1 : cacheAt C.base 1 = C.base + 72 := rfl
  have h2 : cacheAt C.base 2 = C.base + 144 := rfl
  -- each cache is as `cache_init` has left it
  have hcache : ∀ i : Fin 3, ∃ m, ∀ j, cacheAt C.base i ≤ j → j < cacheAt C.base i + 72 →
      (slubInit C.base s).mem j = cacheInit m (cacheAt C.base i) (slabCacheSizes i) j := by
    rw [hmem]
    intro i
    match i with
    | 0 => exact ⟨_, fun j _ hj => by
        rw [cacheInit_of_not_mem (by omega), cacheInit_of_not_mem (by omega)]⟩
    | 1 => exact ⟨_, fun j _ hj => by rw [cacheInit_of_not_mem (by omega)]⟩
    | 2 => exact ⟨_, fun _ _ _ => rfl⟩
  have hw : ∀ (i : Fin 3), ∃ m, ∀ o, o + 8 ≤ 72 → (slubInit C.base s).mem.word 8
      (cacheAt C.base i + o) = (cacheInit m (cacheAt C.base i) (slabCacheSizes i)).word 8
        (cacheAt C.base i + o) := fun i => by
    obtain ⟨m, hm⟩ := hcache i
    exact ⟨m, fun o ho => Bytes.word_congr fun j hj => hm _ (by omega) (by omega)⟩
  refine ⟨⟨⟨fun c => ?_, fun c x hx => ?_, fun c d hcd x hx hx' => ?_⟩, fun i => ?_,
    fun q i hq => ?_, fun q i hq => ?_, fun c x => ?_⟩, fun j hj => ?_, ?_, ?_⟩
  · obtain ⟨i, f⟩ := c
    obtain ⟨m, hm⟩ := hw i
    obtain ⟨hl, -⟩ := cacheInit_spec C m i
    have hf : f.head + 16 ≤ 48 := by cases f <;> simp [Fill.head]
    have hn := hm (f.head + 8) (by omega)
    have hp := hm f.head (by omega)
    rw [← Nat.add_assoc] at hn
    exact ⟨⟨hn.trans (hl f).1, hp.trans (hl f).2⟩, by simp⟩
  · rw [List.mem_singleton] at hx
    exact .inl ⟨c, hx⟩
  · rw [List.mem_singleton] at hx hx'
    have := C.head_apart hcd
    omega
  · obtain ⟨m, hm⟩ := hw i
    obtain ⟨-, h48, h56⟩ := cacheInit_spec C m i
    rw [hm 48 (by omega), hm 56 (by omega)]
    exact ⟨h48, h56⟩
  · cases hq
  · cases hq
  · simp
  · rw [hmem, cacheInit_of_not_mem (by omega), cacheInit_of_not_mem (by omega),
      cacheInit_of_not_mem (by omega)]
  · rw [slubInit, if_neg (by simp [hi])]
  · rw [slubInit, if_neg (by simp [hi])]

/-! ## `slub_free` -/

theorem zeroBits_clear {bitmap n : ℕ} (hk : k < n) (h1 : bitAt m bitmap k = true)
    (hm : ∀ k' < n, bitAt m' bitmap k' = (bitAt m bitmap k' && !decide (k' = k))) :
    zeroBits m' bitmap n = zeroBits m bitmap n + 1 := by
  have hset : zeroBits m bitmap n + 1 = zeroBits m' bitmap n := by
    refine zeroBits_set hk ?_ fun k' hk' => ?_
    · rw [hm k hk, h1]
      simp
    · rw [hm k' hk']
      by_cases hkk : k' = k
      · rw [hkk, h1]
        simp
      · simp [hkk]
  exact hset.symm

/-- Object `k` of the slab at page `q` has been given back; no object has been written, and only
    this slab may have changed its list. -/
structure Dropped (C : CacheArray) (slabs : ℕ → Option (Fin 3)) (i : Fin 3) (q k : ℕ)
    (m m' : Bytes) (F F' : Fin 3 × Fill → List ℕ) : Prop where
  bits : ∀ k' < perSlab i,
    bitAt m' (bitmapOf i q) k' = (bitAt m (bitmapOf i q) k' && !decide (k' = k))
  quiet : Quiet C slabs q m m'
  objects : ∀ j, 4096 * q + 56 ≤ j → j < bitmapOf i q → m' j = m j
  shelves : Shelves C m' slabs (fillOf m') F'
  others : ∀ c, (F' c).filter (· ≠ 4096 * q) = (F c).filter (· ≠ 4096 * q)

theorem object_page (hk : k < perSlab i) : objectAt i q k / 4096 = q ∧ objectAt i q k ≠ 0 := by
  have := object_lt (i := i) (q := q) hk
  have := layout i q
  omega

/-- **`slub_free`** of an object. -/
theorem slubFree_object (h : Shelves C s.mem slabs (fillOf s.mem) F) (hq : slabs q = some i)
    (hk : k < perSlab i) (hb : bitAt s.mem (bitmapOf i q) k = true) :
    ∃ s' F', slubFree (objectAt i q k) s = some s' ∧ s'.taken = s.taken ∧
      s'.initialized = s.initialized ∧ Dropped C slabs i q k s.mem s'.mem F F' := by
  have hs := h.slab q i hq
  have hpage := h.page q i hq
  have hl := layout i q
  have hobj := object_lt (i := i) (q := q) hk
  obtain ⟨hpg, hne⟩ := object_page (q := q) hk
  have hper := (perSlab_pos i).2
  have hzl : zeroBits s.mem (bitmapOf i q) (perSlab i) ≤ perSlab i := zeroBits_le
  have hzc : zeroBits (clearBitAt s.mem (bitmapOf i q) k) (bitmapOf i q) (perSlab i) =
      zeroBits s.mem (bitmapOf i q) (perSlab i) + 1 :=
    zeroBits_clear hk hb fun k' _ => bitAt_clearBitAt
  have hzl' : zeroBits (clearBitAt s.mem (bitmapOf i q) k) (bitmapOf i q) (perSlab i) ≤ perSlab i :=
    zeroBits_le
  set z := (zeroBits s.mem (bitmapOf i q) (perSlab i) + 1) % 2 ^ 64 with hzdef
  have hzv : z = zeroBits (clearBitAt s.mem (bitmapOf i q) k) (bitmapOf i q) (perSlab i) := by omega
  obtain ⟨hs₂, hbits₂, hout₂⟩ := hs.count (fun j hj => clearBitAt_of_ne (by omega)) hzv
  set m₂ := (clearBitAt s.mem (bitmapOf i q) k).setWord 8 (4096 * q + 32) z with hm₂
  have h₂ := h.write hq hs₂ fun j hj => hout₂ j (by omega)
  set f : Fill := if z = perSlab i then .free else .partly with hf
  obtain ⟨F', hF', hmove, hoth⟩ := h₂.move hq f
  -- the index is found from the pointer
  have hcache : cacheAt C.base i ≠ 0 := by
    have := C.pos
    unfold cacheAt
    omega
  have hoff : (objectAt i q k + 2 ^ 64 - (4096 * q + 56)) % 2 ^ 64 = k * slabCacheSizes i := by
    obtain ⟨-, h2, -⟩ := hpage
    unfold objectAt at hobj ⊢
    omega
  have hidx : divu (k * slabCacheSizes i) (slabCacheSizes i) = k := by
    unfold divu
    obtain ⟨h1, -⟩ | ⟨h1, -⟩ | ⟨h1, -⟩ := geometry i <;> rw [h1] <;> simp
  have hfree : slubFree (objectAt i q k) s = some { s with
      mem := moveSlab m₂ (cacheAt C.base i) (4096 * q) f
      totalFreed := s.totalFreed + 1 } := by
    unfold slubFree
    dsimp only
    rw [if_neg hne, hpg, hs.cache, if_neg hcache, hs.objects, (h.config i).1, hoff, hidx, hs.total,
      if_neg (not_le.2 hk), hs.bitmap, hb, if_neg (by simp), hs.free]
  refine ⟨_, F', hfree, rfl, rfl, ?_⟩
  have hpgm : ∀ j, 4096 * q + 16 ≤ j → j < 4096 * (q + 1) →
      moveSlab m₂ (cacheAt C.base i) (4096 * q) f j = m₂ j := fun j h1 h2 =>
    hmove j (hpage.unlisted h1 h2)
  have hbits : ∀ k' < perSlab i, bitAt (moveSlab m₂ (cacheAt C.base i) (4096 * q) f)
      (bitmapOf i q) k' = bitAt m₂ (bitmapOf i q) k' := fun k' hk' =>
    bitAt_congr (hpgm _ (by omega) (by omega))
  have hquiet : Quiet C slabs q s.mem (moveSlab m₂ (cacheAt C.base i) (4096 * q) f) :=
    fun j hj hj' => (hmove j hj).trans (hout₂ j (by omega))
  have hcount : zeroBits m₂ (bitmapOf i q) (perSlab i) = z := by
    rw [zeroBits_congr hbits₂, hzv]
  refine ⟨fun k' hk' => ?_, hquiet, fun j h1 h2 => ?_, hF'.congr_fill fun j r hr => ?_, hoth⟩
  · dsimp only
    rw [hbits k' hk', hbits₂ k' hk', bitAt_clearBitAt]
  · exact (hpgm j (by omega) (by omega)).trans (hout₂ j (by omega))
  · by_cases hrq : r = q
    · subst hrq
      rw [hq] at hr
      cases hr
      dsimp only
      rw [if_pos rfl, fillOf_congr hbits, fillOf, hcount, if_neg (by omega), hf]
    · rw [if_neg hrq]
      exact fillOf_congr fun k hk => hquiet.bitAt (h.page r j hr) hrq hk

end Ucore
