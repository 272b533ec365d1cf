/-
  The slabs in memory.

  * `SlabAt`: the header of a slab, with as many free objects as its bitmap has zeros;
  * `Shelves`: the caches, their slabs, and the lists that they are on;
  * `Shelves.move`, `Shelves.write`, `Shelves.create`: a slab is put on another list, written, made;
  * `Quiet`: bytes that are neither of a list nor of the page of one slab are as they were.
-/
import Ucore.Mm.Slub

namespace Ucore

/-! ## Bits -/

section
variable {m m' : Bytes} {bitmap k k' n : ℕ}

theorem toNat_mask (hk : k < 8) : (UInt8.ofNat (2 ^ k)).toNat = 2 ^ k := by
  rw [UInt8.toNat_ofNat']
  refine Nat.mod_eq_of_lt ?_
  calc 2 ^ k ≤ 2 ^ 7 := Nat.pow_le_pow_right (by decide) (by omega)
    _ < 2 ^ 8 := by decide

theorem testBit_or_mask (x : UInt8) (hk : k < 8) (j : ℕ) :
    (x ||| UInt8.ofNat (2 ^ k)).toNat.testBit j = (x.toNat.testBit j || decide (j = k)) := by
  rw [UInt8.toNat_or, toNat_mask hk, Nat.testBit_or, Nat.testBit_two_pow]
  simp only [eq_comm]

theorem testBit_and_not_mask (x : UInt8) (hk : k < 8) (j : ℕ) :
    (x &&& ~~~UInt8.ofNat (2 ^ k)).toNat.testBit j = (x.toNat.testBit j && !decide (j = k)) := by
  have hlt : 2 ^ k < 2 ^ 8 := Nat.pow_lt_pow_right (by decide) hk
  rw [UInt8.toNat_and, UInt8.toNat_not, toNat_mask hk, Nat.testBit_and]
  by_cases hj : j < 8
  · have hsize : UInt8.size - 1 - 2 ^ k = 2 ^ 8 - (2 ^ k + 1) := by
      change 256 - 1 - 2 ^ k = _
      omega
    rw [hsize, Nat.testBit_two_pow_sub_succ hlt, Nat.testBit_two_pow]
    simp [hj, eq_comm]
  · have h0 : x.toNat.testBit j = false := Nat.testBit_lt_two_pow
      (lt_of_lt_of_le x.toNat_lt (Nat.pow_le_pow_right (by decide) (not_lt.1 hj)))
    simp [h0]

theorem bitAt_setBitAt :
    bitAt (setBitAt m bitmap k) bitmap k' = (bitAt m bitmap k' || decide (k' = k)) := by
  unfold bitAt setBitAt
  by_cases hd : k' / 8 = k / 8
  · rw [hd, Function.update_self, testBit_or_mask _ (by omega)]
    have hiff : k' % 8 = k % 8 ↔ k' = k := by omega
    simp only [hiff]
  · rw [Function.update_of_ne (by omega), decide_eq_false fun e => hd (by rw [e]), Bool.or_false]

theorem bitAt_clearBitAt :
    bitAt (clearBitAt m bitmap k) bitmap k' = (bitAt m bitmap k' && !decide (k' = k)) := by
  unfold bitAt clearBitAt
  by_cases hd : k' / 8 = k / 8
  · rw [hd, Function.update_self, testBit_and_not_mask _ (by omega)]
    have hiff : k' % 8 = k % 8 ↔ k' = k := by omega
    simp only [hiff]
  · rw [Function.update_of_ne (by omega), decide_eq_false fun e => hd (by rw [e]), Bool.not_false,
      Bool.and_true]

theorem bitAt_congr (hm : m' (bitmap + k / 8) = m (bitmap + k / 8)) :
    bitAt m' bitmap k = bitAt m bitmap k := by
  rw [bitAt, bitAt, hm]

/-- The number of zeros among the first `n` bits. -/
def zeroBits (m : Bytes) (bitmap n : ℕ) : ℕ :=
  ((Finset.range n).filter fun k => bitAt m bitmap k = false).card

theorem zeroBits_le : zeroBits m bitmap n ≤ n :=
  (Finset.card_filter_le _ _).trans (Finset.card_range n).le

theorem zeroBits_congr (hm : ∀ k < n, bitAt m' bitmap k = bitAt m bitmap k) :
    zeroBits m' bitmap n = zeroBits m bitmap n := by
  unfold zeroBits
  refine congrArg Finset.card (Finset.filter_congr fun k hk => ?_)
  rw [hm k (Finset.mem_range.1 hk)]

/-- A zero has become a one. -/
theorem zeroBits_set (hk : k < n) (h0 : bitAt m bitmap k = false)
    (hm : ∀ k' < n, bitAt m' bitmap k' = (bitAt m bitmap k' || decide (k' = k))) :
    zeroBits m' bitmap n + 1 = zeroBits m bitmap n := by
  have herase : ((Finset.range n).filter fun k => bitAt m' bitmap k = false) =
      ((Finset.range n).filter fun k => bitAt m bitmap k = false).erase k := by
    ext k'
    simp only [Finset.mem_filter, Finset.mem_range, Finset.mem_erase]
    constructor
    · rintro ⟨hlt, hb⟩
      rw [hm k' hlt] at hb
      simp only [Bool.or_eq_false_iff, decide_eq_false_iff_not] at hb
      exact ⟨hb.2, hlt, hb.1⟩
    · rintro ⟨hne, hlt, hb⟩
      refine ⟨hlt, ?_⟩
      rw [hm k' hlt, hb, decide_eq_false hne]
      rfl
  rw [zeroBits, zeroBits, herase]
  exact Finset.card_erase_add_one (Finset.mem_filter.2 ⟨Finset.mem_range.2 hk, h0⟩)

/-- There is a zero that is found. -/
theorem exists_find_zero (h : 0 < zeroBits m bitmap n) :
    ∃ k, (List.range n).find? (fun k => bitAt m bitmap k = false) = some k ∧ k < n ∧
      bitAt m bitmap k = false := by
  obtain ⟨k, hk⟩ := Finset.card_pos.1 h
  rw [Finset.mem_filter, Finset.mem_range] at hk
  cases hf : (List.range n).find? fun k => bitAt m bitmap k = false with
  | none =>
    have := List.find?_eq_none.1 hf k (List.mem_range.2 hk.1)
    simp [hk.2] at this
  | some k' =>
    have h1 := List.find?_some hf
    have h2 := List.mem_of_find?_eq_some hf
    exact ⟨k', rfl, List.mem_range.1 h2, by simpa using h1⟩

end

/-! ## The layout -/

/-- The array `slub_caches`. -/
structure CacheArray where
  base : ℕ
  pos : 0 < base
  fits : base + 216 ≤ 2 ^ 64

/-- `objects_per_slab` of a cache. -/
def perSlab (i : Fin 3) : ℕ := calculateObjectsPerSlab (slabCacheSizes i)

theorem geometry (i : Fin 3) : (slabCacheSizes i = 32 ∧ perSlab i = 125) ∨
    (slabCacheSizes i = 64 ∧ perSlab i = 63) ∨ (slabCacheSizes i = 128 ∧ perSlab i = 31) := by
  match i with
  | 0 => exact .inl ⟨rfl, by decide⟩
  | 1 => exact .inr (.inl ⟨rfl, by decide⟩)
  | 2 => exact .inr (.inr ⟨rfl, by decide⟩)

/-- Object `k` of the slab of cache `i` at page `q`. -/
def objectAt (i : Fin 3) (q k : ℕ) : ℕ := 4096 * q + 56 + k * slabCacheSizes i

def bitmapOf (i : Fin 3) (q : ℕ) : ℕ := 4096 * q + 56 + perSlab i * slabCacheSizes i

/-- The objects are behind the header, the bitmap behind the objects, and both in the page. -/
theorem layout (i : Fin 3) (q : ℕ) : 4096 * q + 56 ≤ bitmapOf i q ∧
    bitmapOf i q + (perSlab i + 7) / 8 ≤ 4096 * q + 4096 := by
  unfold bitmapOf
  obtain ⟨h1, h2⟩ | ⟨h1, h2⟩ | ⟨h1, h2⟩ := geometry i <;> rw [h1, h2] <;> omega

theorem object_lt {i : Fin 3} {q k : ℕ} (hk : k < perSlab i) :
    4096 * q + 56 ≤ objectAt i q k ∧ objectAt i q k + slabCacheSizes i ≤ bitmapOf i q := by
  unfold objectAt bitmapOf
  obtain ⟨h1, h2⟩ | ⟨h1, h2⟩ | ⟨h1, h2⟩ := geometry i <;> rw [h2] at hk <;> rw [h1, h2] <;> omega

theorem object_apart {i : Fin 3} {q k k' : ℕ} (hne : k ≠ k') :
    objectAt i q k + slabCacheSizes i ≤ objectAt i q k' ∨
      objectAt i q k' + slabCacheSizes i ≤ objectAt i q k := by
  unfold objectAt
  obtain ⟨h1, -⟩ | ⟨h1, -⟩ | ⟨h1, -⟩ := geometry i <;> rw [h1] <;> omega

variable {C : CacheArray} {m m' : Bytes} {i : Fin 3} {q r k j : ℕ}

namespace CacheArray

/-- A page of memory, outside of the array. -/
def Page (C : CacheArray) (q : ℕ) : Prop :=
  0 < q ∧ 4096 * (q + 1) ≤ 2 ^ 64 ∧ (4096 * (q + 1) ≤ C.base ∨ C.base + 216 ≤ 4096 * q)

/-- The head of a list of a cache. -/
def head (C : CacheArray) (c : Fin 3 × Fill) : ℕ := cacheAt C.base c.1 + c.2.head

/-- The addresses of list entries. -/
def Node (C : CacheArray) : Set ℕ := {x | (∃ c, x = C.head c) ∨ ∃ q, C.Page q ∧ x = 4096 * q}

theorem head_mem (C : CacheArray) (c : Fin 3 × Fill) :
    C.base ≤ C.head c ∧ C.head c + 16 ≤ C.base + 216 := by
  obtain ⟨i, f⟩ := c
  have := i.isLt
  unfold head cacheAt
  cases f <;> simp only [Fill.head] <;> omega

theorem head_apart (C : CacheArray) {c d : Fin 3 × Fill} (hne : c ≠ d) :
    C.head c + 16 ≤ C.head d ∨ C.head d + 16 ≤ C.head c := by
  obtain ⟨i, f⟩ := c
  obtain ⟨j, g⟩ := d
  unfold head cacheAt
  by_cases hij : (i : ℕ) = j
  · have hfg : f ≠ g := fun e => hne (Prod.ext (Fin.ext hij) e)
    dsimp only
    rw [hij]
    cases f <;> cases g <;> simp only [Fill.head] <;> first | omega | exact absurd rfl hfg
  · cases f <;> cases g <;> simp only [Fill.head] <;> omega

theorem nodes (C : CacheArray) : Nodes C.Node where
  apart := by
    rintro a (⟨c, rfl⟩ | ⟨q, hq, rfl⟩) b (⟨d, rfl⟩ | ⟨r, hr, rfl⟩) hne
    · exact C.head_apart fun e => hne (by rw [e])
    · obtain ⟨h1, h2⟩ := C.head_mem c
      obtain ⟨-, -, h3⟩ := hr
      omega
    · obtain ⟨h1, h2⟩ := C.head_mem d
      obtain ⟨-, -, h3⟩ := hq
      omega
    · omega
  fits := by
    rintro a (⟨c, rfl⟩ | ⟨q, hq, rfl⟩)
    · have := C.head_mem c
      have := C.fits
      omega
    · obtain ⟨-, h, -⟩ := hq
      omega

/-- A byte of the sizes in a cache is not one of its list heads. -/
theorem head_config (C : CacheArray) (i : Fin 3) (c : Fin 3 × Fill) (hj : 48 ≤ j) (hj' : j < 72) :
    cacheAt C.base i + j < C.head c ∨ C.head c + 16 ≤ cacheAt C.base i + j := by
  obtain ⟨i', f⟩ := c
  unfold head cacheAt
  cases f <;> simp only [Fill.head] <;> omega

end CacheArray

/-! ## Slabs -/

/-- The header of the slab of cache `i` at page `q`. -/
structure SlabAt (C : CacheArray) (m : Bytes) (i : Fin 3) (q : ℕ) : Prop where
  objects : m.word 8 (4096 * q + 16) = 4096 * q + 56
  bitmap : m.word 8 (4096 * q + 24) = bitmapOf i q
  free : m.word 8 (4096 * q + 32) = zeroBits m (bitmapOf i q) (perSlab i)
  total : m.word 8 (4096 * q + 40) = perSlab i
  cache : m.word 8 (4096 * q + 48) = cacheAt C.base i

/-- The slab depends on its page behind the list entry only. -/
theorem SlabAt.congr (h : SlabAt C m i q)
    (hm : ∀ j, 4096 * q + 16 ≤ j → j < 4096 * q + 56 ∨ bitmapOf i q ≤ j → j < 4096 * (q + 1) →
      m' j = m j) : SlabAt C m' i q := by
  have hl := layout i q
  have hw : ∀ o, 16 ≤ o → o ≤ 48 → m'.word 8 (4096 * q + o) = m.word 8 (4096 * q + o) :=
    fun o h1 h2 => Bytes.word_congr fun j hj => hm _ (by omega) (.inl (by omega)) (by omega)
  refine ⟨?_, ?_, ?_, ?_, ?_⟩
  · rw [hw 16 (by omega) (by omega), h.objects]
  · rw [hw 24 (by omega) (by omega), h.bitmap]
  · rw [hw 32 (by omega) (by omega), h.free]
    refine (zeroBits_congr fun k hk => bitAt_congr ?_).symm
    exact hm _ (by omega) (.inr (by omega)) (by omega)
  · rw [hw 40 (by omega) (by omega), h.total]
  · rw [hw 48 (by omega) (by omega), h.cache]

/-- The fill of a slab, by its counter. -/
def fillOf (m : Bytes) (i : Fin 3) (q : ℕ) : Fill :=
  if zeroBits m (bitmapOf i q) (perSlab i) = 0 then .full
  else if zeroBits m (bitmapOf i q) (perSlab i) = perSlab i then .free
  else .partly

/-- The caches with their slabs (`slabs q` is the cache of the slab at page `q`), each on the list
    of its cache that `g` says. -/
structure Shelves (C : CacheArray) (m : Bytes) (slabs : ℕ → Option (Fin 3))
    (g : Fin 3 → ℕ → Fill) (F : Fin 3 × Fill → List ℕ) : Prop where
  rings : Rings C.Node C.head m F
  config : ∀ i, m.word 8 (cacheAt C.base i + 48) = slabCacheSizes i ∧
    m.word 8 (cacheAt C.base i + 56) = perSlab i
  slab : ∀ q i, slabs q = some i → SlabAt C m i q
  page : ∀ q i, slabs q = some i → C.Page q
  listed : ∀ c x, x ∈ F c ↔ ∃ q, x = 4096 * q ∧ slabs q = some c.1 ∧ g c.1 q = c.2

/-- A byte that is in no list entry. -/
def Unlisted (C : CacheArray) (slabs : ℕ → Option (Fin 3)) (j : ℕ) : Prop :=
  (∀ c, j < C.head c ∨ C.head c + 16 ≤ j) ∧
    ∀ q i, slabs q = some i → j < 4096 * q ∨ 4096 * q + 16 ≤ j

/-- Only list entries and page `q` differ. -/
def Quiet (C : CacheArray) (slabs : ℕ → Option (Fin 3)) (q : ℕ) (m m' : Bytes) : Prop :=
  ∀ j, Unlisted C slabs j → j < 4096 * q ∨ 4096 * (q + 1) ≤ j → m' j = m j

variable {slabs : ℕ → Option (Fin 3)} {g g' : Fin 3 → ℕ → Fill} {F F' : Fin 3 × Fill → List ℕ}
  {f : Fill} {m₁ : Bytes}

/-- A page of memory behind the entry of its slab is not in list entries. -/
theorem CacheArray.Page.unlisted (h : C.Page q) (hj : 4096 * q + 16 ≤ j)
    (hj' : j < 4096 * (q + 1)) : Unlisted C slabs j := by
  refine ⟨fun c => ?_, fun r i _ => by omega⟩
  have := C.head_mem c
  obtain ⟨-, -, h3⟩ := h
  omega

theorem unlisted_config (hs : ∀ q i, slabs q = some i → C.Page q) (hj : 48 ≤ j) (hj' : j < 72) :
    Unlisted C slabs (cacheAt C.base i + j) := by
  refine ⟨fun c => C.head_config i c hj hj', fun q i' hq => ?_⟩
  obtain ⟨-, -, h3⟩ := hs q i' hq
  have := i.isLt
  unfold cacheAt
  omega

theorem Quiet.trans (h : Quiet C slabs q m m₁) (h' : Quiet C slabs q m₁ m') :
    Quiet C slabs q m m' := fun j hu hj => (h' j hu hj).trans (h j hu hj)

namespace Shelves

/-- The bytes that no list entry has are not in the nodes of the lists. -/
theorem off (h : Shelves C m slabs g F) (hj : Unlisted C slabs j) (c : Fin 3 × Fill) :
    Off (C.head c :: F c) j := by
  intro x hx
  obtain rfl | hx := List.mem_cons.1 hx
  · exact hj.1 c
  · obtain ⟨q, rfl, hq, -⟩ := (h.listed c x).1 hx
    exact hj.2 q _ hq

theorem notMem_of_none (h : Shelves C m slabs g F) (hq : C.Page q) (hn : slabs q = none)
    (c : Fin 3 × Fill) : 4096 * q ∉ C.head c :: F c := by
  intro hx
  obtain hx | hx := List.mem_cons.1 hx
  · have := C.head_mem c
    obtain ⟨-, -, h3⟩ := hq
    omega
  · obtain ⟨r, hr, hr', -⟩ := (h.listed c _).1 hx
    obtain rfl : r = q := by omega
    rw [hn] at hr'
    cases hr'

/-- **A slab is put on another list** of its cache. -/
theorem move (h : Shelves C m slabs g F) (hq : slabs q = some i) (f : Fill) :
    ∃ F', Shelves C (moveSlab m (cacheAt C.base i) (4096 * q) f) slabs
        (fun j r => if r = q then f else g j r) F' ∧
      (∀ j, Unlisted C slabs j → moveSlab m (cacheAt C.base i) (4096 * q) f j = m j) ∧
      ∀ c, (F' c).filter (· ≠ 4096 * q) = (F c).filter (· ≠ 4096 * q) := by
  have hmem : 4096 * q ∈ F (i, g i q) := (h.listed _ _).2 ⟨q, rfl, hq, rfl⟩
  obtain ⟨xs, ys, hF⟩ := List.append_of_mem hmem
  have hN := C.nodes
  have hdel := h.rings.del hN hF
  have hpage := h.page q i hq
  have hnd := (h.rings.circ (i, g i q)).nodup_tail
  rw [hF, List.nodup_middle, List.nodup_cons] at hnd
  have hdmem : ∀ c x, x ∈ Function.update F (i, g i q) (xs ++ ys) c ↔ x ∈ F c ∧ x ≠ 4096 * q := by
    intro c x
    by_cases hc : c = (i, g i q)
    · subst hc
      rw [Function.update_self, hF]
      refine mem_erase_append ?_
      rw [List.nodup_middle, List.nodup_cons]
      exact hnd
    · rw [Function.update_of_ne hc]
      refine ⟨fun hx => ⟨hx, fun e => ?_⟩, fun hx => hx.1⟩
      rw [e] at hx
      obtain ⟨r, hr, hr', hg⟩ := (h.listed c _).1 hx
      obtain rfl : r = q := by omega
      rw [hq] at hr'
      cases hr'
      exact hc (Prod.ext rfl hg.symm)
  have hnot : ∀ c, 4096 * q ∉ C.head c :: Function.update F (i, g i q) (xs ++ ys) c := by
    intro c hx
    obtain hx | hx := List.mem_cons.1 hx
    · have := C.head_mem c
      obtain ⟨-, -, h3⟩ := hpage
      omega
    · exact ((hdmem c _).1 hx).2 rfl
  have hadd := hdel.add hN (.inr ⟨q, hpage, rfl⟩) hnot (i, f)
  have hframe : ∀ j, Unlisted C slabs j →
      moveSlab m (cacheAt C.base i) (4096 * q) f j = m j := fun j hj => by
    refine (hdel.add_frame (i, f) (fun c x hx => ?_) (hj.2 q i hq)).trans ?_
    · refine h.off hj c x ?_
      simp only [List.mem_cons] at hx ⊢
      exact hx.imp_right fun hx => ((hdmem c x).1 hx).1
    · exact h.rings.del_frame hmem fun c => h.off hj c
  refine ⟨_, ⟨hadd, fun i => ?_, fun r i' hr => ?_, h.page, fun c x => ?_⟩, hframe, fun c => ?_⟩
  · have hw : ∀ o, 48 ≤ o → o ≤ 64 → (moveSlab m _ (4096 * q) f).word 8 (cacheAt C.base i + o) =
        m.word 8 (cacheAt C.base i + o) := fun o h1 h2 => Bytes.word_congr fun j hj => by
      rw [Nat.add_assoc]
      exact hframe _ (unlisted_config h.page (by omega) (by omega))
    rw [hw 48 (by omega) (by omega), hw 56 (by omega) (by omega)]
    exact h.config i
  · refine (h.slab r i' hr).congr fun j h1 h2 h3 => hframe j ?_
    exact (h.page r i' hr).unlisted h1 h3
  · by_cases hc : c = (i, f)
    · subst hc
      rw [Function.update_self, List.mem_cons, hdmem, h.listed]
      constructor
      · rintro (rfl | ⟨⟨r, rfl, hr, hg⟩, hne⟩)
        · exact ⟨q, rfl, hq, if_pos rfl⟩
        · exact ⟨r, rfl, hr, (if_neg fun e => hne (by rw [e])).trans hg⟩
      · rintro ⟨r, rfl, hr, hg⟩
        by_cases hrq : r = q
        · exact .inl (by rw [hrq])
        · rw [if_neg hrq] at hg
          exact .inr ⟨⟨r, rfl, hr, hg⟩, by omega⟩
    · rw [Function.update_of_ne hc, hdmem, h.listed]
      constructor
      · rintro ⟨⟨r, rfl, hr, hg⟩, hne⟩
        exact ⟨r, rfl, hr, (if_neg fun e => hne (by rw [e])).trans hg⟩
      · rintro ⟨r, rfl, hr, hg⟩
        by_cases hrq : r = q
        · subst hrq
          rw [if_pos rfl] at hg
          rw [hq] at hr
          cases hr
          exact absurd (show c = (c.1, f) from Prod.ext rfl hg.symm) hc
        · rw [if_neg hrq] at hg
          exact ⟨⟨r, rfl, hr, hg⟩, by omega⟩
  · have hfil : (Function.update F (i, g i q) (xs ++ ys) c).filter (· ≠ 4096 * q) =
        (F c).filter (· ≠ 4096 * q) := by
      by_cases hc : c = (i, g i q)
      · subst hc
        rw [Function.update_self, hF]
        simp [List.filter_append]
      · rw [Function.update_of_ne hc]
    rw [← hfil]
    by_cases hc : c = (i, f)
    · subst hc
      rw [Function.update_self]
      simp
    · rw [Function.update_of_ne hc]

/-- **A slab is written** behind its list entry. -/
theorem write (h : Shelves C m slabs g F) (hq : slabs q = some i) (hs : SlabAt C m' i q)
    (hm : ∀ j, j < 4096 * q + 16 ∨ 4096 * (q + 1) ≤ j → m' j = m j) :
    Shelves C m' slabs g F := by
  have hpage := h.page q i hq
  refine ⟨h.rings.congr fun c x hx k hk => hm _ ?_, fun i' => ?_, fun r i' hr => ?_, h.page,
    h.listed⟩
  · obtain rfl | hx := List.mem_cons.1 hx
    · have := C.head_mem c
      obtain ⟨-, -, h3⟩ := hpage
      omega
    · obtain ⟨r, rfl, -, -⟩ := (h.listed c x).1 hx
      omega
  · have hi := i'.isLt
    obtain ⟨-, -, h3⟩ := hpage
    have hw : ∀ o, 48 ≤ o → o ≤ 64 → m'.word 8 (cacheAt C.base i' + o) =
        m.word 8 (cacheAt C.base i' + o) := fun o h1 h2 => Bytes.word_congr fun j hj => by
      refine hm _ ?_
      unfold cacheAt
      omega
    rw [hw 48 (by omega) (by omega), hw 56 (by omega) (by omega)]
    exact h.config i'
  · by_cases hrq : r = q
    · subst hrq
      rw [hq] at hr
      cases hr
      exact hs
    · exact (h.slab r i' hr).congr fun j h1 _ h3 => hm j (by omega)

/-- The header that `slab_create` writes. -/
theorem slabAt_initSlab (C : CacheArray) (m : Bytes) (hq : C.Page q) :
    SlabAt C (initSlab m (cacheAt C.base i) (4096 * q) (perSlab i) (slabCacheSizes i)) i q ∧
      (∀ k < perSlab i, bitAt (initSlab m (cacheAt C.base i) (4096 * q) (perSlab i)
        (slabCacheSizes i)) (bitmapOf i q) k = false) ∧
      ∀ j, j < 4096 * q + 16 ∨ 4096 * (q + 1) ≤ j →
        initSlab m (cacheAt C.base i) (4096 * q) (perSlab i) (slabCacheSizes i) j = m j := by
  have hl := layout i q
  have hbits : ∀ k < perSlab i, bitAt (initSlab m (cacheAt C.base i) (4096 * q) (perSlab i)
      (slabCacheSizes i)) (bitmapOf i q) k = false := fun k hk => by
    have h0 : initSlab m (cacheAt C.base i) (4096 * q) (perSlab i) (slabCacheSizes i)
        (bitmapOf i q + k / 8) = 0 := by
      unfold initSlab Bytes.fill
      refine Bytes.copy_of_mem (Nat.le_add_right _ _) ?_
      change bitmapOf i q + k / 8 < bitmapOf i q + _
      omega
    rw [bitAt, h0]
    exact Nat.zero_testBit _
  have hcount : zeroBits (initSlab m (cacheAt C.base i) (4096 * q) (perSlab i)
      (slabCacheSizes i)) (bitmapOf i q) (perSlab i) = perSlab i := by
    rw [zeroBits, Finset.filter_true_of_mem fun k hk => hbits k (Finset.mem_range.1 hk),
      Finset.card_range]
  have hper : 0 < perSlab i ∧ perSlab i < 2 ^ 64 := by
    obtain ⟨-, h⟩ | ⟨-, h⟩ | ⟨-, h⟩ := geometry i <;> rw [h] <;> decide
  have hcache : cacheAt C.base i < 2 ^ 64 := by
    have := C.fits
    have := i.isLt
    unfold cacheAt
    omega
  obtain ⟨-, hfit, -⟩ := hq
  refine ⟨⟨?_, ?_, ?_, ?_, ?_⟩, hbits, fun j hj => ?_⟩
  · unfold initSlab
    rw [Bytes.word_fill_of_disjoint (by unfold bitmapOf at hl; omega),
      Bytes.word_setWord_of_disjoint (by omega), Bytes.word_setWord_of_disjoint (by omega),
      Bytes.word_setWord_of_disjoint (by omega), Bytes.word_setWord_of_disjoint (by omega),
      Bytes.word_setWord]
    exact Nat.mod_eq_of_lt (by omega)
  · unfold initSlab
    rw [Bytes.word_fill_of_disjoint (by unfold bitmapOf at hl; omega), Bytes.word_setWord]
    exact Nat.mod_eq_of_lt (by change bitmapOf i q < _; omega)
  · rw [hcount]
    unfold initSlab
    rw [Bytes.word_fill_of_disjoint (by unfold bitmapOf at hl; omega),
      Bytes.word_setWord_of_disjoint (by omega), Bytes.word_setWord_of_disjoint (by omega),
      Bytes.word_setWord_of_disjoint (by omega), Bytes.word_setWord]
    exact Nat.mod_eq_of_lt (by omega)
  · unfold initSlab
    rw [Bytes.word_fill_of_disjoint (by unfold bitmapOf at hl; omega),
      Bytes.word_setWord_of_disjoint (by omega), Bytes.word_setWord_of_disjoint (by omega),
      Bytes.word_setWord]
    exact Nat.mod_eq_of_lt (by omega)
  · unfold initSlab
    rw [Bytes.word_fill_of_disjoint (by unfold bitmapOf at hl; omega),
      Bytes.word_setWord_of_disjoint (by omega), Bytes.word_setWord]
    exact Nat.mod_eq_of_lt (by omega)
  · unfold initSlab Bytes.fill
    unfold bitmapOf at hl
    rw [Bytes.copy_of_not_mem (by omega), Bytes.setWord_of_not_mem (by omega),
      Bytes.setWord_of_not_mem (by omega), Bytes.setWord_of_not_mem (by omega),
      Bytes.setWord_of_not_mem (by omega), Bytes.setWord_of_not_mem (by omega)]

/-- **A slab is made**; it is on the list of the free slabs. -/
theorem create (h : Shelves C m slabs g F) (hq : C.Page q) (hn : slabs q = none) (i : Fin 3) :
    let m' := memListAdd (initSlab m (cacheAt C.base i) (4096 * q) (perSlab i) (slabCacheSizes i))
      (C.head (i, .free)) (4096 * q)
    Shelves C m' (Function.update slabs q (some i)) (fun j r => if r = q then .free else g j r)
        (Function.update F (i, .free) (4096 * q :: F (i, .free))) ∧
      Quiet C slabs q m m' ∧ ∀ k < perSlab i, bitAt m' (bitmapOf i q) k = false := by
  intro m'
  obtain ⟨hs, hbits, hout⟩ := slabAt_initSlab (i := i) C m hq
  have hl := layout i q
  have hne : ∀ r i', slabs r = some i' → r ≠ q := fun r i' hr e => by
    rw [e, hn] at hr
    cases hr
  have hrings : Rings C.Node C.head (initSlab m (cacheAt C.base i) (4096 * q) (perSlab i)
      (slabCacheSizes i)) F := by
    refine h.rings.congr fun c x hx k hk => hout _ ?_
    obtain rfl | hx := List.mem_cons.1 hx
    · have := C.head_mem c
      obtain ⟨-, -, h3⟩ := hq
      omega
    · obtain ⟨r, rfl, hr, -⟩ := (h.listed c x).1 hx
      have := hne r _ hr
      omega
  have hadd := hrings.add C.nodes (.inr ⟨q, hq, rfl⟩) (h.notMem_of_none hq hn) (i, .free)
  have hframe : ∀ j, Unlisted C slabs j → j < 4096 * q ∨ 4096 * q + 16 ≤ j →
      m' j = initSlab m (cacheAt C.base i) (4096 * q) (perSlab i) (slabCacheSizes i) j :=
    fun j hj hj' => hrings.add_frame (i, .free) (fun c x hx => h.off hj c x hx) hj'
  have hquiet : Quiet C slabs q m m' := fun j hj hj' =>
    (hframe j hj (by omega)).trans (hout j (by omega))
  have hpage : ∀ j, 4096 * q + 16 ≤ j → j < 4096 * (q + 1) →
      m' j = initSlab m (cacheAt C.base i) (4096 * q) (perSlab i) (slabCacheSizes i) j :=
    fun j h1 h2 => hframe j (hq.unlisted h1 h2) (.inr h1)
  have hpages : ∀ r i', Function.update slabs q (some i) r = some i' → C.Page r := by
    intro r i' hr
    by_cases hrq : r = q
    · exact hrq ▸ hq
    · rw [Function.update_of_ne hrq] at hr
      exact h.page r i' hr
  refine ⟨⟨hadd, fun i' => ?_, fun r i' hr => ?_, hpages, fun c x => ?_⟩, hquiet, fun k hk => ?_⟩
  · have hw : ∀ o, 48 ≤ o → o ≤ 64 → m'.word 8 (cacheAt C.base i' + o) =
        m.word 8 (cacheAt C.base i' + o) := fun o h1 h2 => Bytes.word_congr fun j hj => by
      rw [Nat.add_assoc]
      refine hquiet _ (unlisted_config h.page (by omega) (by omega)) ?_
      obtain ⟨-, -, h3⟩ := hq
      have := i'.isLt
      unfold cacheAt
      omega
    rw [hw 48 (by omega) (by omega), hw 56 (by omega) (by omega)]
    exact h.config i'
  · by_cases hrq : r = q
    · subst hrq
      rw [Function.update_self] at hr
      cases hr
      exact hs.congr fun j h1 _ h3 => hpage j h1 h3
    · rw [Function.update_of_ne hrq] at hr
      refine (h.slab r i' hr).congr fun j h1 _ h3 => hquiet j ?_ (by omega)
      exact (h.page r i' hr).unlisted h1 h3
  · by_cases hc : c = (i, .free)
    · subst hc
      rw [Function.update_self, List.mem_cons, h.listed]
      constructor
      · rintro (rfl | ⟨r, rfl, hr, hg⟩)
        · exact ⟨q, rfl, Function.update_self .., if_pos rfl⟩
        · have hrq := hne r _ hr
          exact ⟨r, rfl, (Function.update_of_ne hrq _ _).trans hr, (if_neg hrq).trans hg⟩
      · rintro ⟨r, rfl, hr, hg⟩
        by_cases hrq : r = q
        · exact .inl (by rw [hrq])
        · rw [if_neg hrq] at hg
          rw [Function.update_of_ne hrq] at hr
          exact .inr ⟨r, rfl, hr, hg⟩
    · rw [Function.update_of_ne hc, h.listed]
      constructor
      · rintro ⟨r, rfl, hr, hg⟩
        have hrq := hne r _ hr
        exact ⟨r, rfl, (Function.update_of_ne hrq _ _).trans hr, (if_neg hrq).trans hg⟩
      · rintro ⟨r, rfl, hr, hg⟩
        by_cases hrq : r = q
        · subst hrq
          rw [if_pos rfl] at hg
          rw [Function.update_self] at hr
          refine absurd (show c = (i, .free) from ?_) hc
          exact Prod.ext (Option.some.inj hr).symm hg.symm
        · rw [if_neg hrq] at hg
          rw [Function.update_of_ne hrq] at hr
          exact ⟨r, rfl, hr, hg⟩
  · refine (bitAt_congr (hpage _ (by omega) ?_)).trans (hbits k hk)
    omega

end Shelves

/-! ## Fills -/

theorem fillOf_congr (hm : ∀ k < perSlab i, bitAt m' (bitmapOf i q) k = bitAt m (bitmapOf i q) k) :
    fillOf m' i q = fillOf m i q := by
  unfold fillOf
  rw [zeroBits_congr hm]

/-- The bitmap of another slab is as it was. -/
theorem Quiet.bitAt (h : Quiet C slabs q m m') (hr : C.Page r) (hrq : r ≠ q) (hk : k < perSlab i) :
    bitAt m' (bitmapOf i r) k = bitAt m (bitmapOf i r) k := by
  have hl := layout i r
  refine bitAt_congr (h _ (hr.unlisted ?_ ?_) ?_) <;> omega

theorem Shelves.congr_fill (h : Shelves C m slabs g F)
    (hg : ∀ i q, slabs q = some i → g' i q = g i q) : Shelves C m slabs g' F := by
  refine ⟨h.rings, h.config, h.slab, h.page, fun c x => (h.listed c x).trans ?_⟩
  constructor
  · rintro ⟨q, rfl, hq, hgq⟩
    exact ⟨q, rfl, hq, (hg _ q hq).trans hgq⟩
  · rintro ⟨q, rfl, hq, hgq⟩
    exact ⟨q, rfl, hq, (hg _ q hq).symm.trans hgq⟩

end Ucore
