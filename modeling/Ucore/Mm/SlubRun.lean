/-
  Runs of the SLUB allocator.

  `SlubSys` is the allocator with what its callers know, the blocks in use and the sizes they asked
  for, and with the slabs that have been made.  The callers write into their blocks, and others into
  memory that is not SLUB's.

  * `SlubSys.Inv`, `Inv.alloc`, `Inv.free`, `Inv.store`: the invariant, and that the steps keep it;
  * `slub_sound`: lists, counters, bitmaps and blocks in every state that is reached;
  * `slub_free_undoes`: when `slub_free` undoes `slub_alloc`; a block of pages is taken for a slab
    if its bytes look like one, and only one page of it is given back.
-/
import Ucore.Lib.Machine
import Ucore.Mm.SlubOps

namespace Ucore

open Intrusive

structure SlubSys where
  slub : Slub
  live : ℕ → Option ℕ
  slabs : ℕ → Option (Fin 3)

/-- `store p j v` writes byte `j` of the block at `p`, `other a v` a byte outside of SLUB's
    memory. -/
inductive SlubOp where
  | alloc (page : Option ℕ) (size : ℕ)
  | free (p : ℕ)
  | store (p j : ℕ) (v : UInt8)
  | other (a : ℕ) (v : UInt8)

/-- The pages that `slub_alloc` asks for. -/
def pagesAsked (size : ℕ) : ℕ := if size ≤ 128 then 1 else pagesNeeded size

/-- The bytes that a block of a size has. -/
def room (size : ℕ) : ℕ :=
  match cacheFor size with
  | some i => slabCacheSizes i
  | none => (size + 4095) / 4096 * 4096

theorem room_small {size : ℕ} {i : Fin 3} (h : cacheFor size = some i) :
    room size = slabCacheSizes i := by
  rw [room, h]

theorem room_large {size : ℕ} (h : 128 < size) : room size = (size + 4095) / 4096 * 4096 := by
  rw [room, find_cache.2 h]

namespace SlubSys

/-- The page has been made a slab. -/
def newSlab (slabs : ℕ → Option (Fin 3)) (taken taken' : Finset ℕ) (page : Option ℕ) (size : ℕ) :
    ℕ → Option (Fin 3) :=
  match page with
  | none => slabs
  | some q => if q ∈ taken' ∧ q ∉ taken then Function.update slabs q (cacheFor size) else slabs

def step (C : CacheArray) (s : SlubSys) : SlubOp → Option SlubSys
  | .alloc page size =>
    let (p, k) := slubAlloc C.base page size s.slub
    some
      { slub := k
        live := match p with
          | none => s.live
          | some p => Function.update s.live p (some size)
        slabs := newSlab s.slabs s.slub.taken k.taken page size }
  | .free p => (slubFree p s.slub).map fun k =>
    { s with slub := k, live := Function.update s.live p none }
  | .store p j v => some { s with
      slub := { s.slub with mem := Function.update s.slub.mem (p + j) v } }
  | .other a v => some { s with
      slub := { s.slub with mem := Function.update s.slub.mem a v } }

/-- What `slub_free` takes for the `cache` of a slab. -/
def cacheWord (s : SlubSys) (p : ℕ) : ℕ := s.slub.mem.word 8 (4096 * (p / 4096) + 48)

/-- The allocator is given fresh pages; blocks in use are freed, and written within their sizes. -/
def Legal (C : CacheArray) (s : SlubSys) : SlubOp → Prop
  | .alloc page size => 0 < size ∧ size < 2 ^ 64 ∧ match page with
    | none => True
    | some q => 0 < pagesAsked size ∧
      ∀ r < pagesAsked size, C.Page (q + r) ∧ q + r ∉ s.slub.taken
  | .free p => s.live p ≠ none
  | .store p j _ => ∃ size ∈ s.live p, j < size
  | .other a _ => a / 4096 ∉ s.slub.taken ∧ (a < C.base ∨ C.base + 216 ≤ a)

/-- A block may be freed if it is small, or if it is at most a page and the word in it that
    `slub_free` takes for the `cache` of a slab is 0. -/
def Freeable (s : SlubSys) (p : ℕ) : Prop :=
  ∃ size ∈ s.live p, size ≤ 128 ∨ size ≤ 4096 ∧ s.cacheWord p = 0

/-- Nothing has been allocated. -/
structure Init (s : SlubSys) : Prop where
  initialized : s.slub.initialized = false
  live : ∀ p, s.live p = none
  slabs : ∀ q, s.slabs q = none

/-- Runs in which only such blocks are freed for which it goes well. -/
def careful (C : CacheArray) : Machine SlubSys SlubOp where
  Init := Init
  Legal s op := Legal C s op ∧ ∀ p, op = .free p → s.Freeable p
  step := step C

/-! ## The invariant -/

variable {C : CacheArray} {s s' : SlubSys} {i : Fin 3} {p q r k j size : ℕ} {page : Option ℕ}

structure Inv (C : CacheArray) (s : SlubSys) : Prop where
  ready : s.slub.initialized = true →
    ∃ F, Shelves C s.slub.mem s.slabs (fillOf s.slub.mem) F
  fresh : s.slub.initialized = false → (∀ q, s.slabs q = none) ∧ ∀ p, s.live p = none
  taken : ∀ q i, s.slabs q = some i → q ∈ s.slub.taken
  bits : ∀ q i k, s.slabs q = some i → k < perSlab i →
    (bitAt s.slub.mem (bitmapOf i q) k = true ↔ s.live (objectAt i q k) ≠ none)
  pos : ∀ p size, s.live p = some size → 0 < size
  small : ∀ p size, s.live p = some size → size ≤ 128 → ∃ q i k, s.slabs q = some i ∧
    k < perSlab i ∧ p = objectAt i q k ∧ cacheFor size = some i
  large : ∀ p size, s.live p = some size → 128 < size → ∃ q, p = 4096 * q ∧
    ∀ r, q ≤ r → r < q + (size + 4095) / 4096 →
      r ∈ s.slub.taken ∧ s.slabs r = none ∧ C.Page r
  apart : ∀ p p' size size', s.live p = some size → s.live p' = some size' → 128 < size →
    128 < size' → p ≠ p' → ∀ r, ¬((p / 4096 ≤ r ∧ r < p / 4096 + (size + 4095) / 4096) ∧
      p' / 4096 ≤ r ∧ r < p' / 4096 + (size' + 4095) / 4096)

namespace Inv

theorem slab_page (h : Inv C s) (hq : s.slabs q = some i) : C.Page q := by
  cases hi : s.slub.initialized with
  | false =>
    rw [(h.fresh hi).1 q] at hq
    cases hq
  | true =>
    obtain ⟨F, hF⟩ := h.ready hi
    exact hF.page q i hq

/-- A page that is no slab is in no list entry. -/
theorem unlisted_of_none (_ : Inv C s) (hr : C.Page r) (hn : s.slabs r = none)
    (h1 : 4096 * r ≤ j) (h2 : j < 4096 * (r + 1)) : Unlisted C s.slabs j := by
  refine ⟨fun c => ?_, fun q i hq => ?_⟩
  · have := C.head_mem c
    obtain ⟨-, -, h3⟩ := hr
    omega
  · by_cases hqr : q = r
    · rw [hqr, hn] at hq
      cases hq
    · omega

theorem le_of_cacheFor (h : cacheFor size = some i) : size ≤ slabCacheSizes i := by
  simpa using List.find?_some h

/-- Where a block is: in an object of a slab, or in pages that are no slabs. -/
theorem block (h : Inv C s) (hp : s.live p = some size) :
    (∃ q i k, s.slabs q = some i ∧ k < perSlab i ∧ p = objectAt i q k ∧ cacheFor size = some i) ∨
      128 < size ∧ ∀ j < (size + 4095) / 4096 * 4096, ∃ r, 4096 * r ≤ p + j ∧
        p + j < 4096 * (r + 1) ∧ r ∈ s.slub.taken ∧ s.slabs r = none ∧ C.Page r := by
  by_cases hsz : size ≤ 128
  · exact .inl (h.small p size hp hsz)
  · obtain ⟨q, rfl, hr⟩ := h.large p size hp (by omega)
    refine .inr ⟨by omega, fun j hj => ?_⟩
    obtain ⟨h1, h2, h3⟩ := hr ((4096 * q + j) / 4096) (by omega) (by omega)
    exact ⟨_, by omega, by omega, h1, h2, h3⟩

/-- A block begins in a page that has been taken. -/
theorem live_page (h : Inv C s) (hp : s.live p = some size) : p / 4096 ∈ s.slub.taken := by
  obtain ⟨q, i, k, hq, hk, rfl, -⟩ | ⟨hsz, hr⟩ := h.block hp
  · rw [(object_page hk).1]
    exact h.taken q i hq
  · obtain ⟨r, h1, h2, h3, -⟩ := hr 0 (by omega)
    rwa [show p / 4096 = r by omega]

/-- Before `slub_init` it is as if it had been called. -/
theorem afterInit (h : Inv C s) : Inv C { s with slub := slubInit C.base s.slub } ∧
    (slubInit C.base s.slub).initialized = true ∧
    (slubInit C.base s.slub).taken = s.slub.taken := by
  cases hi : s.slub.initialized with
  | true =>
    rw [slubInit_of_init hi]
    exact ⟨h, hi, rfl⟩
  | false =>
    obtain ⟨hn, hl⟩ := h.fresh hi
    obtain ⟨hsh, -, hin, ht⟩ := slubInit_spec C hi (fillOf (slubInit C.base s.slub).mem)
    refine ⟨⟨fun _ => ⟨fun _ => [], ?_⟩, fun hf => ?_, fun q i hq => ?_, fun q i k hq => ?_,
      fun p n hp => ?_,
      fun p n hp => ?_, fun p n hp => ?_, fun p p' n n' hp => ?_⟩, hin, ht⟩
    · rw [show s.slabs = fun _ => none from funext hn]
      exact hsh
    · rw [hin] at hf
      cases hf
    · rw [hn q] at hq
      cases hq
    · rw [hn q] at hq
      cases hq
    all_goals
      rw [hl p] at hp
      cases hp

end Inv

/-- `slub_alloc` begins with `slub_init`. -/
theorem slubAlloc_afterInit (C : CacheArray) (page : Option ℕ) (size : ℕ) (s : Slub) :
    slubAlloc C.base page size (slubInit C.base s) = slubAlloc C.base page size s := by
  have hidem : slubInit C.base (slubInit C.base s) = slubInit C.base s := by
    by_cases hi : s.initialized = true
    · rw [slubInit_of_init hi, slubInit_of_init hi]
    · exact slubInit_of_init (slubInit_spec C (by simpa using hi) fun _ _ => .free).2.2.1
  unfold slubAlloc
  rw [hidem]

/-! ## Allocation -/

/-- What a successful `slub_alloc` leaves: the block at `p` is new, other blocks are as they
    were. -/
structure Gained (C : CacheArray) (s : SlubSys) (p : ℕ) (s' : SlubSys) : Prop where
  inv : Inv C s'
  free : s.live p = none
  kept : ∀ p' size j, s.live p' = some size → j < room size →
    s'.slub.mem (p' + j) = s.slub.mem (p' + j)

/-- What `slub_alloc` answers. -/
structure Outcome (C : CacheArray) (s : SlubSys) (page : Option ℕ) (size : ℕ) (s' : SlubSys) :
    Prop where
  inv : Inv C s'
  kept : ∀ p size j, s.live p = some size → j < room size →
    s'.slub.mem (p + j) = s.slub.mem (p + j)
  answer : (∃ p, (slubAlloc C.base page size s.slub).1 = some p ∧ s.live p = none ∧
      s'.live = Function.update s.live p (some size)) ∨
    ((slubAlloc C.base page size s.slub).1 = none ∧ page = none ∧ s'.live = s.live ∧
      ∀ q i, cacheFor size = some i → s.slabs q = some i →
        zeroBits s.slub.mem (bitmapOf i q) (perSlab i) = 0)

/-- **`slub_free` has undone the `slub_alloc` of a block.**  The pages are given back, or the mark
    of the one object is taken off; other slabs and other blocks are as they were behind their list
    entries, and no other slab has changed its list. -/
structure Undone (C : CacheArray) (s : SlubSys) (p size : ℕ) (k : Slub) : Prop where
  pages : k.taken = if size ≤ 128 then s.slub.taken
    else s.slub.taken \ Finset.Ico (p / 4096) (p / 4096 + (size + 4095) / 4096)
  marks : ∀ q i n, s.slabs q = some i → n < perSlab i → bitAt k.mem (bitmapOf i q) n =
    (bitAt s.slub.mem (bitmapOf i q) n && !decide (objectAt i q n = p))
  slabs : ∀ q i j, s.slabs q = some i → q ≠ p / 4096 → 16 ≤ j → j < 4096 →
    k.mem (4096 * q + j) = s.slub.mem (4096 * q + j)
  lists : ∀ F : Fin 3 × Fill → List ℕ, (∀ c, Circ (linksOf s.slub.mem) (C.head c) (F c)) →
    ∃ F' : Fin 3 × Fill → List ℕ, (∀ c, Circ (linksOf k.mem) (C.head c) (F' c)) ∧
      ∀ c, (F' c).filter (· ≠ 4096 * (p / 4096)) = (F c).filter (· ≠ 4096 * (p / 4096))
  blocks : ∀ p' size j, s.live p' = some size → p' ≠ p → j < room size →
    k.mem (p' + j) = s.slub.mem (p' + j)

namespace Inv

theorem object_ne {k' : ℕ} (hk : k < perSlab i) {i' : Fin 3} (hk' : k' < perSlab i')
    (hne : q = r → i = i' → k ≠ k') (hqi : q = r → i = i') : objectAt i q k ≠ objectAt i' r k' := by
  intro e
  have hqr : q = r := by
    rw [← (object_page (q := q) hk).1, e, (object_page hk').1]
  obtain rfl := hqr
  obtain rfl := hqi rfl
  have hpos : 0 < slabCacheSizes i := by
    obtain ⟨h, -⟩ | ⟨h, -⟩ | ⟨h, -⟩ := geometry i <;> rw [h] <;> decide
  have := object_apart (i := i) (q := q) (hne rfl rfl)
  omega

/-- The other blocks after an object has been allocated. -/
theorem granted_kept (h : Inv C s) {slabs' : ℕ → Option (Fin 3)} {k₁ : Slub}
    (hG : Granted C page s.slabs s.slub i q k slabs' k₁)
    (hn : s.slabs q = none → q ∉ s.slub.taken) {p' : ℕ} (hp : s.live p' = some size)
    (hj : j < room size) (hfree : s.live (objectAt i q k) = none) :
    k₁.mem (p' + j) = s.slub.mem (p' + j) := by
  obtain ⟨r, i', k', hr, hk', rfl, hc⟩ | ⟨hsz, hpg⟩ := h.block hp
  · rw [room_small hc] at hj
    have hobj := object_lt (i := i') (q := r) hk'
    have hl := layout i' r
    by_cases hrq : r = q
    · subst hrq
      obtain ⟨h1, -, -⟩ | ⟨-, h1, -⟩ := hG.origin
      · have hsl := hG.slab
        rw [h1, hr] at hsl
        cases hsl
        refine hG.objects hr _ (by omega) (by omega) ?_
        have hkk : k' ≠ k := fun e => by
          rw [← e, hp] at hfree
          cases hfree
        have := object_apart (i := i) (q := r) hkk
        omega
      · rw [hr] at h1
        cases h1
    · refine hG.quiet _ ((h.slab_page hr).unlisted (by omega) (by omega)) (by omega)
  · rw [room_large hsz] at hj
    obtain ⟨r, h1, h2, h3, h4, h5⟩ := hpg j hj
    refine hG.quiet _ (h.unlisted_of_none h5 h4 h1 h2) ?_
    have hrq : r ≠ q := fun e => by
      subst e
      exact hn h4 h3
    omega

/-- Slabs and taken pages after an object has been allocated. -/
theorem granted_slabs (h : Inv C s) {slabs' : ℕ → Option (Fin 3)} {k₁ : Slub}
    (hG : Granted C page s.slabs s.slub i q k slabs' k₁)
    (hp : ∀ q, page = some q → q ∉ s.slub.taken) :
    s.live (objectAt i q k) = none ∧ (s.slabs q = none → q ∉ s.slub.taken) ∧
      (∀ r i', s.slabs r = some i' → slabs' r = some i') ∧
      (∀ r, r ≠ q → slabs' r = s.slabs r) ∧ s.slub.taken ⊆ k₁.taken ∧ q ∈ k₁.taken := by
  obtain ⟨h1, h2, h3⟩ | ⟨h1, h2, h3, h4⟩ := hG.origin
  · have hq := hG.slab
    rw [h1] at hq
    refine ⟨?_, fun hn => ?_, fun r i' hr => h1 ▸ hr, fun r _ => by rw [h1], by rw [h2], ?_⟩
    · by_contra hl
      rw [(h.bits q i k hq hG.index).2 hl] at h3
      cases h3
    · rw [hn] at hq
      cases hq
    · rw [h2]
      exact h.taken q i hq
  · refine ⟨?_, fun _ => hp q h1, fun r i' hr => ?_, fun r hr => ?_, ?_, ?_⟩
    · cases hl : s.live (objectAt i q k) with
      | none => rfl
      | some size =>
        have := h.live_page hl
        rw [(object_page hG.index).1] at this
        exact absurd this (hp q h1)
    · have hrq : r ≠ q := fun e => by
        rw [e, h2] at hr
        cases hr
      rw [h3, Function.update_of_ne hrq, hr]
    · rw [h3, Function.update_of_ne hr]
    · rw [h4]
      exact Finset.subset_insert _ _
    · rw [h4]
      exact Finset.mem_insert_self _ _

theorem granted (h : Inv C s) (hi : s.slub.initialized = true) {slabs' : ℕ → Option (Fin 3)}
    {k₁ : Slub} (hG : Granted C page s.slabs s.slub i q k slabs' k₁)
    (hp : ∀ q, page = some q → q ∉ s.slub.taken) (h0 : 0 < size) (hc : cacheFor size = some i) :
    Gained C s (objectAt i q k)
      ⟨k₁, Function.update s.live (objectAt i q k) (some size), slabs'⟩ := by
  obtain ⟨hfree, hn, hmono, hother, htaken, hqt⟩ := h.granted_slabs hG hp
  have hsz : size ≤ 128 := by
    by_contra hlt
    rw [find_cache.2 (not_le.1 hlt)] at hc
    cases hc
  have hlarge : ∀ p n, Function.update s.live (objectAt i q k) (some size) p = some n → 128 < n →
      s.live p = some n := fun p n hpn hn => by
    by_cases hpo : p = objectAt i q k
    · rw [hpo, Function.update_self] at hpn
      cases hpn
      omega
    · rwa [Function.update_of_ne hpo] at hpn
  refine ⟨⟨fun _ => hG.shelves, fun hf => ?_, fun r i' hr => ?_, fun r i' k' hr hk' => ?_,
    fun p n hpn => ?_, fun p n hpn hle => ?_, fun p n hpn hlt => ?_,
    fun p p' n n' hpn hpn' hlt hlt' hne => ?_⟩, hfree,
    fun p' n j hpn hj => h.granted_kept hG hn hpn hj hfree⟩
  · exact absurd (hG.initialized.symm.trans hf) (by simp [hi])
  · dsimp only at hr ⊢
    by_cases hrq : r = q
    · exact hrq ▸ hqt
    · rw [hother r hrq] at hr
      exact htaken (h.taken r i' hr)
  · dsimp only at hr ⊢
    by_cases hrq : r = q
    · subst hrq
      obtain rfl : i = i' := Option.some.inj (hG.slab.symm.trans hr)
      rw [hG.bits k' hk']
      by_cases hkk : k' = k
      · subst hkk
        simp
      · rw [Function.update_of_ne (object_ne hk' hG.index (fun _ _ => hkk) fun _ => rfl)]
        cases hsr : s.slabs r with
        | none =>
          -- a new slab has no other object
          have hno : s.live (objectAt i r k') = none := by
            cases hl : s.live (objectAt i r k') with
            | none => rfl
            | some n' =>
              have := h.live_page hl
              rw [(object_page hk').1] at this
              exact absurd this (hn hsr)
          simp [hno, hkk]
        | some i₂ =>
          obtain rfl : i₂ = i := Option.some.inj ((hmono r i₂ hsr).symm.trans hr)
          simpa [hkk] using h.bits r i₂ k' hsr hk'
    · have hr' := hr
      rw [hother r hrq] at hr'
      rw [hG.quiet.bitAt (h.slab_page hr') hrq hk',
        Function.update_of_ne (object_ne hk' hG.index (fun e => absurd e hrq)
          fun e => absurd e hrq)]
      exact h.bits r i' k' hr' hk'
  · dsimp only at hpn
    by_cases hpo : p = objectAt i q k
    · rw [hpo, Function.update_self] at hpn
      cases hpn
      exact h0
    · rw [Function.update_of_ne hpo] at hpn
      exact h.pos p n hpn
  · dsimp only at hpn
    by_cases hpo : p = objectAt i q k
    · rw [hpo, Function.update_self] at hpn
      cases hpn
      exact ⟨q, i, k, hG.slab, hG.index, hpo, hc⟩
    · rw [Function.update_of_ne hpo] at hpn
      obtain ⟨r, i', k', hr, hrest⟩ := h.small p n hpn hle
      exact ⟨r, i', k', hmono r i' hr, hrest⟩
  · obtain ⟨r, rfl, hpg⟩ := h.large p n (hlarge p n hpn hlt) hlt
    refine ⟨r, rfl, fun r' h1 h2 => ?_⟩
    obtain ⟨h3, h4, h5⟩ := hpg r' h1 h2
    refine ⟨htaken h3, ?_, h5⟩
    dsimp only
    rw [hother r' fun e => hn (e ▸ h4) (e ▸ h3), h4]
  · exact h.apart p p' n n' (hlarge p n hpn hlt) (hlarge p' n' hpn' hlt') hlt hlt' hne

/-- Pages have been allocated. -/
theorem paged (h : Inv C s) (hi : s.slub.initialized = true) {taken' : Finset ℕ}
    (hsub : s.slub.taken ⊆ taken') (hsz : 128 < size)
    (hq : ∀ r, q ≤ r → r < q + (size + 4095) / 4096 →
      r ∈ taken' ∧ r ∉ s.slub.taken ∧ C.Page r) :
    Gained C s (4096 * q) ⟨{ s.slub with taken := taken' },
      Function.update s.live (4096 * q) (some size), s.slabs⟩ := by
  have hfree : s.live (4096 * q) = none := by
    cases hl : s.live (4096 * q) with
    | none => rfl
    | some n =>
      have h1 := h.live_page hl
      rw [Nat.mul_div_cancel_left q (by decide)] at h1
      exact absurd h1 (hq q le_rfl (by omega)).2.1
  have hold : ∀ p n, p ≠ 4096 * q →
      Function.update s.live (4096 * q) (some size) p = some n → s.live p = some n :=
    fun p n hne hpn => by rwa [Function.update_of_ne hne] at hpn
  -- the pages of an old block are not the new ones
  have hnew : ∀ p n, s.live p = some n → 128 < n → ∀ r,
      ¬((p / 4096 ≤ r ∧ r < p / 4096 + (n + 4095) / 4096) ∧
        q ≤ r ∧ r < q + (size + 4095) / 4096) := by
    rintro p n hpn hlt r ⟨⟨h1, h2⟩, h3, h4⟩
    obtain ⟨r', rfl, hr⟩ := h.large p n hpn hlt
    rw [Nat.mul_div_cancel_left r' (by decide)] at h1 h2
    exact (hq r h3 h4).2.1 (hr r h1 h2).1
  refine ⟨⟨h.ready, fun hf => ?_, fun r i hr => hsub (h.taken r i hr), fun r i k hr hk => ?_,
    fun p n hpn => ?_, fun p n hpn hle => ?_, fun p n hpn hlt => ?_,
    fun p p' n n' hpn hpn' hlt hlt' hne => ?_⟩, hfree, fun _ _ _ _ _ => rfl⟩
  · exact absurd (hi.symm.trans hf) (by simp)
  · have hne : objectAt i r k ≠ 4096 * q := by
      have := object_lt (i := i) (q := r) hk
      have := layout i r
      unfold objectAt at *
      omega
    dsimp only
    rw [Function.update_of_ne hne]
    exact h.bits r i k hr hk
  · dsimp only at hpn
    by_cases hpo : p = 4096 * q
    · rw [hpo, Function.update_self] at hpn
      cases hpn
      omega
    · exact h.pos p n (hold p n hpo hpn)
  · dsimp only at hpn
    by_cases hpo : p = 4096 * q
    · rw [hpo, Function.update_self] at hpn
      cases hpn
      omega
    · exact h.small p n (hold p n hpo hpn) hle
  · dsimp only at hpn
    by_cases hpo : p = 4096 * q
    · rw [hpo, Function.update_self] at hpn
      cases hpn
      refine ⟨q, hpo, fun r h1 h2 => ?_⟩
      obtain ⟨h3, h4, h5⟩ := hq r h1 h2
      refine ⟨h3, ?_, h5⟩
      cases hs : s.slabs r with
      | none => rfl
      | some i => exact absurd (h.taken r i hs) h4
    · obtain ⟨r, hr, hpg⟩ := h.large p n (hold p n hpo hpn) hlt
      refine ⟨r, hr, fun r' h1 h2 => ?_⟩
      obtain ⟨h3, h4⟩ := hpg r' h1 h2
      exact ⟨hsub h3, h4⟩
  · dsimp only at hpn hpn'
    intro r
    by_cases hpo : p = 4096 * q
    · have hpo' : p' ≠ 4096 * q := fun e => hne (hpo.trans e.symm)
      rw [hpo, Function.update_self] at hpn
      cases hpn
      have := hnew p' n' (hold p' n' hpo' hpn') hlt' r
      rw [hpo, Nat.mul_div_cancel_left q (by decide)]
      tauto
    · by_cases hpo' : p' = 4096 * q
      · rw [hpo', Function.update_self] at hpn'
        cases hpn'
        have := hnew p n (hold p n hpo hpn) hlt r
        rw [hpo', Nat.mul_div_cancel_left q (by decide)]
        exact this
      · exact h.apart p p' n n' (hold p n hpo hpn) (hold p' n' hpo' hpn') hlt hlt' hne r

theorem afterInit_same (h : Inv C s) : slubInit C.base s.slub = s.slub ∨
    (∀ q, s.slabs q = none) ∧ ∀ p, s.live p = none := by
  cases hi : s.slub.initialized with
  | true => exact .inl (slubInit_of_init hi)
  | false => exact .inr (h.fresh hi)

/-- `slub_alloc` after `slub_init`. -/
theorem alloc_ready (h : Inv C s) (hi : s.slub.initialized = true)
    (hl : Legal C s (.alloc page size)) :
    ∃ s', step C s (.alloc page size) = some s' ∧ Outcome C s page size s' := by
  obtain ⟨h0, hmax, hpage⟩ := hl
  obtain ⟨F, hF⟩ := h.ready hi
  have hnone : ∀ q, q ∉ s.slub.taken → s.slabs q = none := fun q hq => by
    cases hs : s.slabs q with
    | none => rfl
    | some i => exact absurd (h.taken q i hs) hq
  by_cases hsz : size ≤ 128
  · have hfresh : ∀ q, page = some q → C.Page q ∧ q ∉ s.slub.taken := fun q hq => by
      subst hq
      obtain ⟨-, hr⟩ := hpage
      rw [pagesAsked, if_pos hsz] at hr
      exact hr 0 (by omega)
    obtain ⟨i, hc, ⟨rfl, hfull, hal⟩ | ⟨q, k, slabs', k₁, hal, hG⟩⟩ := slubAlloc_small hi hF
      (fun q hq => ⟨(hfresh q hq).1, hnone q (hfresh q hq).2⟩) h0 hsz
    · refine ⟨s, ?_, h, fun _ _ _ _ _ => rfl, .inr ⟨by rw [hal], rfl, rfl, fun q j hj hq => ?_⟩⟩
      · simp only [step, hal, newSlab]
      · obtain rfl := Option.some.inj (hj.symm.trans hc)
        exact hfull q hq
    · obtain ⟨hinv, hfree, hkept⟩ := h.granted hi hG (fun q hq => (hfresh q hq).2) h0 hc
      refine ⟨_, ?_, hinv, hkept, .inl ⟨_, by rw [hal], hfree, rfl⟩⟩
      have hslabs : newSlab s.slabs s.slub.taken k₁.taken page size = slabs' := by
        obtain ⟨h1, h2, -⟩ | ⟨rfl, h2, h3, h4⟩ := hG.origin
        · rw [h1, h2]
          unfold newSlab
          cases page with
          | none => rfl
          | some r => exact if_neg fun hr => hr.2 hr.1
        · unfold newSlab
          dsimp only
          rw [if_pos ⟨by rw [h4]; exact Finset.mem_insert_self _ _, (hfresh q rfl).2⟩, hc, h3]
      simp only [step, hal, hslabs]
  · have hal : slubAlloc C.base page size s.slub = _ := slubAlloc_large hi hF (not_le.1 hsz)
    cases page with
    | none =>
      refine ⟨s, ?_, h, fun _ _ _ _ _ => rfl, .inr ⟨by rw [hal], rfl, rfl, fun q j hj => ?_⟩⟩
      · simp only [step, hal, newSlab]
      · rw [find_cache.2 (not_le.1 hsz)] at hj
        cases hj
    | some q =>
      obtain ⟨hpos, hr⟩ := hpage
      rw [pagesAsked, if_neg hsz] at hpos hr
      -- a number of pages that is not 0 has not wrapped
      have hpn : pagesNeeded size = (size + 4095) / 4096 := by
        unfold pagesNeeded at hpos ⊢
        omega
      have hnew : ∀ r, q ≤ r → r < q + (size + 4095) / 4096 →
          r ∈ s.slub.taken ∪ Finset.Ico q (q + pagesNeeded size) ∧ r ∉ s.slub.taken ∧
            C.Page r := fun r h1 h2 => by
        rw [← hpn] at h2
        obtain ⟨h3, h4⟩ := hr (r - q) (by omega)
        rw [Nat.add_sub_cancel' h1] at h3 h4
        exact ⟨Finset.mem_union_right _ (Finset.mem_Ico.2 ⟨h1, h2⟩), h4, h3⟩
      have hG := h.paged hi Finset.subset_union_left (not_le.1 hsz) hnew
      refine ⟨_, ?_, hG.inv, hG.kept, .inl ⟨_, by rw [hal], hG.free, rfl⟩⟩
      have hslabs : ∀ taken', newSlab s.slabs s.slub.taken taken' (some q) size = s.slabs :=
        fun taken' => by
          unfold newSlab
          dsimp only
          split
          · rename_i hq
            rw [find_cache.2 (not_le.1 hsz)]
            exact Function.update_eq_self_iff.2 (hnone q hq.2).symm
          · rfl
      simp only [step, hal, hslabs]

/-- **`slub_alloc`**. -/
theorem alloc (h : Inv C s) (hl : Legal C s (.alloc page size)) :
    ∃ s', step C s (.alloc page size) = some s' ∧ Outcome C s page size s' := by
  obtain ⟨hinv, hi, ht⟩ := h.afterInit
  have hl' : Legal C { s with slub := slubInit C.base s.slub } (.alloc page size) := by
    unfold Legal at hl ⊢
    rwa [ht]
  obtain ⟨s', hst, ho⟩ := hinv.alloc_ready hi hl'
  refine ⟨s', ?_, ho.inv, fun p n j hp hj => ?_, ?_⟩
  · rw [← hst]
    simp only [step, slubAlloc_afterInit, ht]
  · refine (ho.kept p n j hp hj).trans ?_
    obtain he | ⟨-, he⟩ := h.afterInit_same
    · rw [he]
    · rw [he p] at hp
      cases hp
  · obtain ⟨p, h1, h2, h3⟩ | ⟨h1, h2, h3, h4⟩ := ho.answer
    · rw [slubAlloc_afterInit] at h1
      exact .inl ⟨p, h1, h2, h3⟩
    · rw [slubAlloc_afterInit] at h1
      refine .inr ⟨h1, h2, h3, fun q i hc hq => ?_⟩
      obtain he | ⟨he, -⟩ := h.afterInit_same
      · have := h4 q i hc hq
        rwa [he] at this
      · rw [he q] at hq
        cases hq

/-! ## Release -/

/-- A live block as one of those that are left. -/
theorem live_of_freed {live : ℕ → Option ℕ} {p p' : ℕ}
    (h : Function.update live p none p' = some size) : p' ≠ p ∧ live p' = some size := by
  by_cases hp : p' = p
  · rw [hp, Function.update_self] at h
    cases h
  · rw [Function.update_of_ne hp] at h
    exact ⟨hp, h⟩

/-- An object has been given back. -/
theorem dropped (h : Inv C s) (hi : s.slub.initialized = true) {k₁ : Slub}
    {F F' : Fin 3 × Fill → List ℕ} (hD : Dropped C s.slabs i q k s.slub.mem k₁.mem F F')
    (hq : s.slabs q = some i) (hk : k < perSlab i) (ht : k₁.taken = s.slub.taken)
    (hin : k₁.initialized = s.slub.initialized) :
    Inv C { s with slub := k₁, live := Function.update s.live (objectAt i q k) none } := by
  refine ⟨fun _ => ⟨F', hD.shelves⟩, fun hf => ?_, fun r i' hr => ?_, fun r i' k' hr hk' => ?_,
    fun p n hp => h.pos p n (live_of_freed hp).2,
    fun p n hp hle => h.small p n (live_of_freed hp).2 hle, fun p n hp hlt => ?_,
    fun p p' n n' hp hp' => h.apart p p' n n' (live_of_freed hp).2 (live_of_freed hp').2⟩
  · exact absurd (hin.symm.trans hf) (by simp [hi])
  · dsimp only
    rw [ht]
    exact h.taken r i' hr
  · dsimp only at hr ⊢
    by_cases hrq : r = q
    · subst hrq
      obtain rfl : i = i' := Option.some.inj (hq.symm.trans hr)
      rw [hD.bits k' hk']
      by_cases hkk : k' = k
      · subst hkk
        simp
      · rw [Function.update_of_ne (object_ne hk' hk (fun _ _ => hkk) fun _ => rfl)]
        simpa [hkk] using h.bits r i k' hr hk'
    · rw [hD.quiet.bitAt (h.slab_page hr) hrq hk', Function.update_of_ne
        (object_ne hk' hk (fun e => absurd e hrq) fun e => absurd e hrq)]
      exact h.bits r i' k' hr hk'
  · dsimp only
    rw [ht]
    exact h.large p n (live_of_freed hp).2 hlt

/-- A page that was a block has been given back. -/
theorem unpaged (h : Inv C s) (hp : s.live (4096 * q) = some size) (hlt : 128 < size)
    (hle : size ≤ 4096) : Inv C { s with
      slub := { s.slub with taken := s.slub.taken \ Finset.Ico q (q + 1) }
      live := Function.update s.live (4096 * q) none } := by
  have hi : s.slub.initialized ≠ false := fun hf => by
    rw [(h.fresh hf).2 (4096 * q)] at hp
    cases hp
  obtain ⟨r, hr, hpg⟩ := h.large _ size hp hlt
  obtain rfl : q = r := by omega
  have hq := hpg q le_rfl (by omega)
  have hkeep : ∀ r ∈ s.slub.taken, r ≠ q → r ∈ s.slub.taken \ Finset.Ico q (q + 1) :=
    fun r hr hne => Finset.mem_sdiff.2 ⟨hr, fun hm => hne (by
      rw [Finset.mem_Ico] at hm
      omega)⟩
  refine ⟨h.ready, fun hf => absurd hf hi, fun r i hr => hkeep r (h.taken r i hr) fun e => ?_,
    fun r i k hr hk => ?_, fun p n hp => h.pos p n (live_of_freed hp).2,
    fun p n hp hle => h.small p n (live_of_freed hp).2 hle, fun p n hpn hlt' => ?_,
    fun p p' n n' hp hp' => h.apart p p' n n' (live_of_freed hp).2 (live_of_freed hp').2⟩
  · have hr' : s.slabs q = some i := e ▸ hr
    rw [hq.2.1] at hr'
    cases hr'
  · have hne : objectAt i r k ≠ 4096 * q := by
      have := object_lt (i := i) (q := r) hk
      have := layout i r
      omega
    dsimp only
    rw [Function.update_of_ne hne]
    exact h.bits r i k hr hk
  · obtain ⟨hne, hpn⟩ := live_of_freed hpn
    obtain ⟨r, rfl, hpg'⟩ := h.large p n hpn hlt'
    refine ⟨r, rfl, fun r' h1 h2 => ?_⟩
    obtain ⟨h3, h4⟩ := hpg' r' h1 h2
    refine ⟨hkeep r' h3 fun e => ?_, h4⟩
    refine h.apart _ _ n size hpn hp hlt' hlt hne r' ⟨⟨?_, ?_⟩, ?_, ?_⟩ <;> omega

/-- The objects of a slab are told apart by their addresses. -/
theorem object_eq_iff {i' : Fin 3} {n : ℕ} (hk : k < perSlab i) (hn : n < perSlab i')
    (hqi : r = q → i' = i) : objectAt i' r n = objectAt i q k ↔ r = q ∧ n = k := by
  constructor
  · intro e
    by_contra hne
    exact object_ne hn hk (fun h1 _ h2 => hne ⟨h1, h2⟩) hqi e
  · rintro ⟨rfl, rfl⟩
    rw [hqi rfl]

/-- **`slub_free`** of an object. -/
theorem free_small (h : Inv C s) (hp : s.live p = some size) (hsz : size ≤ 128) :
    ∃ k, slubFree p s.slub = some k ∧ Undone C s p size k ∧
      Inv C { s with slub := k, live := Function.update s.live p none } := by
  obtain ⟨q, i, k, hq, hk, rfl, hc⟩ := h.small p size hp hsz
  have hi : s.slub.initialized = true := by
    by_contra hf
    rw [(h.fresh (by simpa using hf)).1 q] at hq
    cases hq
  obtain ⟨F, hF⟩ := h.ready hi
  obtain ⟨k₁, F', hfree, ht, hin, hD⟩ := slubFree_object hF hq hk
    ((h.bits q i k hq hk).2 (by simp [hp]))
  have hsame : ∀ {r i'}, s.slabs r = some i' → r = q → i' = i := fun hr e =>
    Option.some.inj (hr.symm.trans (e ▸ hq))
  refine ⟨k₁, hfree, ⟨?_, fun r i' n hr hn => ?_, fun r i' j hr hrq h1 h2 => ?_, fun G hG => ?_,
    fun p' n j hp' hne hj => ?_⟩, h.dropped hi hD hq hk ht hin⟩
  · rw [if_pos hsz, ht]
  · by_cases hrq : r = q
    · obtain rfl := hsame hr hrq
      subst hrq
      rw [hD.bits n hn]
      simp only [object_eq_iff hk hn fun _ => rfl, true_and]
    · rw [hD.quiet.bitAt (h.slab_page hr) hrq hn]
      simp [object_eq_iff hk hn fun e => absurd e hrq, hrq]
  · rw [(object_page hk).1] at hrq
    exact hD.quiet _ ((h.slab_page hr).unlisted (by omega) (by omega)) (by omega)
  · rw [(object_page hk).1]
    refine ⟨F', hD.shelves.rings.circ, fun c => (hD.others c).trans ?_⟩
    rw [(hG c).unique (hF.rings.circ c)]
  · obtain ⟨r, i', k', hr, hk', rfl, hc'⟩ | ⟨hlt, hpg⟩ := h.block hp'
    · rw [room_small hc'] at hj
      have hobj := object_lt (i := i') (q := r) hk'
      have hl := layout i' r
      by_cases hrq : r = q
      · obtain rfl := hsame hr hrq
        subst hrq
        exact hD.objects _ (by omega) (by omega)
      · exact hD.quiet _ ((h.slab_page hr).unlisted (by omega) (by omega)) (by omega)
    · rw [room_large hlt] at hj
      obtain ⟨r, h1, h2, -, h4, h5⟩ := hpg j hj
      have hrq : r ≠ q := fun e => by
        rw [e, hq] at h4
        cases h4
      exact hD.quiet _ (h.unlisted_of_none h5 h4 h1 h2) (by omega)

theorem slubFree_page {s : Slub} (hp : p ≠ 0) (hw : s.mem.word 8 (4096 * (p / 4096) + 48) = 0) :
    slubFree p s = some { s with taken := s.taken \ Finset.Ico (p / 4096) (p / 4096 + 1) } := by
  unfold slubFree slubFreePages
  dsimp only
  rw [if_neg hp, if_pos hw, if_neg hp]

/-- What is taken for an object gives no page back. -/
theorem slubFree_taken {s k : Slub} (hp : p ≠ 0)
    (hw : s.mem.word 8 (4096 * (p / 4096) + 48) ≠ 0) (hf : slubFree p s = some k) :
    k.taken = s.taken := by
  unfold slubFree at hf
  dsimp only at hf
  rw [if_neg hp, if_neg hw] at hf
  split at hf
  · cases hf
  · split at hf
    · cases hf
    · cases hf
      rfl

/-- A block of pages begins a page, which is no slab and not page 0. -/
theorem large_page (h : Inv C s) (hp : s.live p = some size) (hlt : 128 < size) :
    p = 4096 * (p / 4096) ∧ p ≠ 0 ∧ ∀ r, p / 4096 ≤ r → r < p / 4096 + (size + 4095) / 4096 →
      r ∈ s.slub.taken ∧ s.slabs r = none := by
  obtain ⟨q, rfl, hpg⟩ := h.large p size hp hlt
  obtain ⟨-, -, h3, -⟩ := hpg q le_rfl (by omega)
  rw [Nat.mul_div_cancel_left q (by decide)]
  exact ⟨rfl, by omega, fun r h1 h2 => ⟨(hpg r h1 h2).1, (hpg r h1 h2).2.1⟩⟩

/-- **`slub_free`** of a page. -/
theorem free_page (h : Inv C s) (hp : s.live p = some size) (hlt : 128 < size)
    (hle : size ≤ 4096) (hw : s.cacheWord p = 0) :
    ∃ k, slubFree p s.slub = some k ∧ Undone C s p size k ∧
      Inv C { s with slub := k, live := Function.update s.live p none } := by
  obtain ⟨hpq, h0, hpg⟩ := h.large_page hp hlt
  refine ⟨_, slubFree_page h0 hw, ⟨?_, fun q i n hq hn => ?_, fun _ _ _ _ _ _ _ => rfl,
    fun F hF => ⟨F, hF, fun _ => rfl⟩, fun _ _ _ _ _ _ => rfl⟩, ?_⟩
  · rw [if_neg (by omega), show (size + 4095) / 4096 = 1 by omega]
  · have hne : objectAt i q n ≠ p := fun e => by
      have := object_lt (i := i) (q := q) hn
      have := layout i q
      omega
    simp [hne]
  · rw [hpq] at hp ⊢
    rw [Nat.mul_div_cancel_left _ (by decide)]
    exact h.unpaged hp hlt hle

/-- **`slub_free`** of a block for which it goes well. -/
theorem free (h : Inv C s) (hp : s.live p = some size)
    (hf : size ≤ 128 ∨ size ≤ 4096 ∧ s.cacheWord p = 0) :
    ∃ k, slubFree p s.slub = some k ∧ Undone C s p size k ∧
      Inv C { s with slub := k, live := Function.update s.live p none } := by
  by_cases hsz : size ≤ 128
  · exact h.free_small hp hsz
  · obtain hsz' | ⟨hle, hw⟩ := hf
    · exact absurd hsz' hsz
    · exact h.free_page hp (not_le.1 hsz) hle hw

/-- Otherwise pages are not given back. -/
theorem not_undone (h : Inv C s) (hp : s.live p = some size) {k₁ : Slub}
    (hf : slubFree p s.slub = some k₁) (hlt : 128 < size) (hle : size ≤ 4096 → s.cacheWord p ≠ 0) :
    ¬Undone C s p size k₁ := by
  intro hU
  obtain ⟨hpq, h0, hpg⟩ := h.large_page hp hlt
  have hpages := hU.pages
  rw [if_neg (by omega)] at hpages
  by_cases hw : s.cacheWord p = 0
  · -- the second page is still taken
    have hsz : 4096 < size := not_le.1 fun e => hle e hw
    rw [slubFree_page h0 hw] at hf
    cases hf
    dsimp only at hpages
    have hmem : p / 4096 + 1 ∈ s.slub.taken \ Finset.Ico (p / 4096) (p / 4096 + 1) :=
      Finset.mem_sdiff.2 ⟨(hpg _ (by omega) (by omega)).1, fun hm => by
        rw [Finset.mem_Ico] at hm
        omega⟩
    rw [hpages] at hmem
    exact (Finset.mem_sdiff.1 hmem).2 (Finset.mem_Ico.2 ⟨by omega, by omega⟩)
  · -- the first one is
    have hmem : p / 4096 ∈ k₁.taken := by
      rw [slubFree_taken h0 hw hf]
      exact (hpg _ le_rfl (by omega)).1
    rw [hpages] at hmem
    exact (Finset.mem_sdiff.1 hmem).2 (Finset.mem_Ico.2 ⟨le_rfl, by omega⟩)

/-! ## Writes of others -/

/-- A byte that is not of a cache, of the header of a slab or of a bitmap. -/
def Loose (C : CacheArray) (slabs : ℕ → Option (Fin 3)) (a : ℕ) : Prop :=
  (a < C.base ∨ C.base + 216 ≤ a) ∧ ∀ q i, slabs q = some i →
    a < 4096 * q ∨ 4096 * q + 56 ≤ a ∧ a < bitmapOf i q ∨ 4096 * (q + 1) ≤ a

/-- **A byte that is not SLUB's is written.** -/
theorem poke (h : Inv C s) {a : ℕ} (ha : Loose C s.slabs a) (v : UInt8) :
    Inv C { s with slub := { s.slub with mem := Function.update s.slub.mem a v } } := by
  set m' : Bytes := Function.update s.slub.mem a v
  have hbyte : ∀ b, b ≠ a → m' b = s.slub.mem b := fun b hb =>
    Function.update_of_ne hb v s.slub.mem
  have hbits : ∀ q i, s.slabs q = some i → ∀ k < perSlab i,
      bitAt m' (bitmapOf i q) k = bitAt s.slub.mem (bitmapOf i q) k := fun q i hq k hk => by
    have hl := layout i q
    have := ha.2 q i hq
    exact bitAt_congr (hbyte _ (by omega))
  refine ⟨fun hi => ?_, h.fresh, h.taken, fun q i k hq hk => ?_, h.pos, h.small, h.large, h.apart⟩
  · obtain ⟨F, hF⟩ := h.ready hi
    refine ⟨F, ⟨hF.rings.congr fun c x hx k hk => hbyte _ ?_, fun i => ?_, fun q i hq => ?_,
      hF.page, ?_⟩⟩
    · obtain rfl | hx := List.mem_cons.1 hx
      · have := C.head_mem c
        have := ha.1
        omega
      · obtain ⟨q, rfl, hq, -⟩ := (hF.listed c x).1 hx
        have := ha.2 q _ hq
        omega
    · have hlt := i.isLt
      have hw : ∀ o, 48 ≤ o → o ≤ 64 → m'.word 8 (cacheAt C.base i + o) =
          s.slub.mem.word 8 (cacheAt C.base i + o) := fun o h1 h2 =>
        Bytes.word_congr fun j hj => by
          refine hbyte _ ?_
          have := ha.1
          unfold cacheAt
          omega
      dsimp only
      rw [hw 48 (by omega) (by omega), hw 56 (by omega) (by omega)]
      exact hF.config i
    · have := ha.2 q i hq
      exact (hF.slab q i hq).congr fun j h1 h2 h3 => hbyte j (by omega)
    · have hg : Shelves C s.slub.mem s.slabs (fillOf m') F :=
        hF.congr_fill fun i q hq => fillOf_congr (hbits q i hq)
      exact hg.listed
  · dsimp only
    rw [hbits q i hq k hk]
    exact h.bits q i k hq hk

/-- A byte of a block is loose. -/
theorem loose_block (h : Inv C s) (hp : s.live p = some size) (hj : j < size) :
    Loose C s.slabs (p + j) := by
  obtain ⟨q, i, k, hq, hk, rfl, hc⟩ | ⟨hsz, hpg⟩ := h.block hp
  · have hobj := object_lt (i := i) (q := q) hk
    have hl := layout i q
    have hle := le_of_cacheFor hc
    obtain ⟨-, -, h3⟩ := h.slab_page hq
    refine ⟨by omega, fun r i' hr => ?_⟩
    by_cases hrq : r = q
    · obtain rfl : i' = i := Option.some.inj (hr.symm.trans (hrq ▸ hq))
      subst hrq
      omega
    · omega
  · obtain ⟨r, h1, h2, -, h4, -, -, h5⟩ := hpg j (by omega)
    refine ⟨by omega, fun q i hq => ?_⟩
    have hqr : q ≠ r := fun e => by
      rw [e, h4] at hq
      cases hq
    omega

/-! ## Runs -/

theorem init (h : Init s) : Inv C s where
  ready hi := by
    rw [h.initialized] at hi
    cases hi
  fresh _ := ⟨h.slabs, h.live⟩
  taken q i hq := by
    rw [h.slabs q] at hq
    cases hq
  bits q i k hq := by
    rw [h.slabs q] at hq
    cases hq
  pos p n hp := by
    rw [h.live p] at hp
    cases hp
  small p n hp := by
    rw [h.live p] at hp
    cases hp
  large p n hp := by
    rw [h.live p] at hp
    cases hp
  apart p p' n n' hp := by
    rw [h.live p] at hp
    cases hp

theorem keeps (C : CacheArray) : (careful C).Keeps (Inv C) := by
  rintro s op h ⟨hl, hf⟩
  cases op with
  | alloc page size =>
    obtain ⟨s', hst, ho⟩ := h.alloc hl
    exact ⟨s', hst, ho.inv⟩
  | free p =>
    obtain ⟨size, hp, hsz⟩ := hf p rfl
    obtain ⟨k, hk, -, hinv⟩ := h.free hp hsz
    exact ⟨_, by simp only [careful, step, hk, Option.map_some], hinv⟩
  | store p j v =>
    obtain ⟨size, hp, hj⟩ := hl
    exact ⟨_, rfl, h.poke (h.loose_block hp hj) v⟩
  | other a v =>
    obtain ⟨ha, hC⟩ := hl
    refine ⟨_, rfl, h.poke ⟨hC, fun q i hq => ?_⟩ v⟩
    have hne : q ≠ a / 4096 := fun e => ha (e ▸ h.taken q i hq)
    omega

theorem of_reach (h : (careful C).Reach s) : Inv C s := h.invariant (fun _ => init) (keeps C)

/-- Blocks do not overlap. -/
theorem blocks_apart (h : Inv C s) {p' size' : ℕ} (hp : s.live p = some size)
    (hp' : s.live p' = some size') (hne : p ≠ p') :
    p + room size ≤ p' ∨ p' + room size' ≤ p := by
  by_contra hlap
  -- a byte of an object and one of a page are in different pages
  have hmix : ∀ {q i k n p' a}, s.slabs q = some i → k < perSlab i → 128 < n →
      s.live p' = some n → objectAt i q k ≤ a → a < objectAt i q k + slabCacheSizes i →
      p' ≤ a → a < p' + (n + 4095) / 4096 * 4096 → False := by
    intro q i k n p' a hq hk hlt hp' h1 h2 h3 h4
    obtain ⟨r, rfl, hpg⟩ := h.large p' n hp' hlt
    have hobj := object_lt (i := i) (q := q) hk
    have hl := layout i q
    obtain ⟨-, h5, -⟩ := hpg (a / 4096) (by omega) (by omega)
    rw [show a / 4096 = q by omega, hq] at h5
    cases h5
  have hpos := h.pos p size hp
  have hpos' := h.pos p' size' hp'
  obtain ⟨q, i, k, hq, hk, rfl, hc⟩ | ⟨hlt, -⟩ := h.block hp <;>
    obtain ⟨q', i', k', hq', hk', rfl, hc'⟩ | ⟨hlt', -⟩ := h.block hp'
  · rw [room_small hc, room_small hc'] at hlap
    have h1 := object_lt (i := i) (q := q) hk
    have h2 := object_lt (i := i') (q := q') hk'
    have hl := layout i q
    have hl' := layout i' q'
    obtain rfl : q = q' := by omega
    obtain rfl : i = i' := Option.some.inj (hq.symm.trans hq')
    have := object_apart (i := i) (q := q) fun e : k = k' => hne (by rw [e])
    omega
  · have hle := le_of_cacheFor hc
    rw [room_small hc, room_large hlt'] at hlap
    by_cases hle' : objectAt i q k ≤ p'
    · exact hmix (a := p') hq hk hlt' hp' hle' (by omega) le_rfl (by omega)
    · exact hmix (a := objectAt i q k) hq hk hlt' hp' le_rfl (by omega) (by omega) (by omega)
  · have hle := le_of_cacheFor hc'
    rw [room_large hlt, room_small hc'] at hlap
    by_cases hle' : objectAt i' q' k' ≤ p
    · exact hmix (a := p) hq' hk' hlt hp hle' (by omega) le_rfl (by omega)
    · exact hmix (a := objectAt i' q' k') hq' hk' hlt hp le_rfl (by omega) (by omega) (by omega)
  · rw [room_large hlt, room_large hlt'] at hlap
    obtain ⟨r, rfl, -⟩ := h.large p size hp hlt
    obtain ⟨r', rfl, -⟩ := h.large p' size' hp' hlt'
    refine h.apart _ _ size size' hp hp' hlt hlt' hne (max r r') ?_
    omega

end Inv

/-- A field of the header of a slab. -/
def slabWord (s : SlubSys) (q o : ℕ) : ℕ := s.slub.mem.word 8 (4096 * q + o)

/-- The list that the counters of a slab name. -/
def counterFill (s : SlubSys) (q : ℕ) : Fill :=
  if s.slabWord q 32 = 0 then .full
  else if s.slabWord q 32 = s.slabWord q 40 then .free
  else .partly

theorem counterFill_eq (h : SlabAt C s.slub.mem i q) :
    s.counterFill q = fillOf s.slub.mem i q := by
  unfold counterFill fillOf slabWord
  rw [h.free, h.total]

/-- What holds of the caches: a slab is on the list that its counters name and on no other, its
    counters count its bitmap, its parts are in its page, and what is marked is what is in use.  The
    objects in use do not overlap and nobody else writes them. -/
structure Sound (C : CacheArray) (s : SlubSys) : Prop where
  lists : s.slub.initialized = true → ∃ F : Fin 3 × Fill → List ℕ,
    (∀ c, Circ (linksOf s.slub.mem) (C.head c) (F c)) ∧ ∀ c x, x ∈ F c ↔
      ∃ q, x = 4096 * q ∧ s.slabs q = some c.1 ∧ s.counterFill q = c.2
  counters : ∀ q i, s.slabs q = some i → s.slub.initialized = true ∧
    s.slabWord q 32 = zeroBits s.slub.mem (s.slabWord q 24) (s.slabWord q 40)
  layout : ∀ q i, s.slabs q = some i → 4096 * q + 56 ≤ s.slabWord q 16 ∧
    s.slabWord q 16 + s.slabWord q 40 * slabCacheSizes i ≤ s.slabWord q 24 ∧
    s.slabWord q 24 + (s.slabWord q 40 + 7) / 8 ≤ 4096 * (q + 1)
  bits : ∀ q i k, s.slabs q = some i → k < s.slabWord q 40 →
    (bitAt s.slub.mem (s.slabWord q 24) k = true ↔
      s.live (s.slabWord q 16 + k * slabCacheSizes i) ≠ none)
  objects : ∀ p size, s.live p = some size → size ≤ 128 → ∃ q i k, s.slabs q = some i ∧
    k < s.slabWord q 40 ∧ p = s.slabWord q 16 + k * slabCacheSizes i ∧
    room size = slabCacheSizes i ∧ size ≤ slabCacheSizes i
  apart : ∀ p p' size size', s.live p = some size → s.live p' = some size' → p ≠ p' →
    p + room size ≤ p' ∨ p' + room size' ≤ p
  null : ∀ page size, Legal C s (.alloc page size) → (slubAlloc C.base page size s.slub).1 = none →
    page = none ∧ ∀ q i, cacheFor size = some i → s.slabs q = some i → s.slabWord q 32 = 0
  fresh : ∀ page size p, Legal C s (.alloc page size) →
    (slubAlloc C.base page size s.slub).1 = some p → s.live p = none
  alloc : ∀ page size p n j, Legal C s (.alloc page size) → s.live p = some n → j < room n →
    (slubAlloc C.base page size s.slub).2.mem (p + j) = s.slub.mem (p + j)
  free : ∀ p, s.Freeable p → ∃ k, slubFree p s.slub = some k ∧
    ∀ p' n j, s.live p' = some n → p' ≠ p → j < room n → k.mem (p' + j) = s.slub.mem (p' + j)

/-- **The caches are sound in every state that is reached.** -/
theorem slub_sound (h : (careful C).Reach s) : Sound C s := by
  have hI := Inv.of_reach h
  have hslab : ∀ q i, s.slabs q = some i → s.slub.initialized = true ∧
      SlabAt C s.slub.mem i q := fun q i hq => by
    have hi : s.slub.initialized = true := by
      by_contra hf
      rw [(hI.fresh (by simpa using hf)).1 q] at hq
      cases hq
    obtain ⟨F, hF⟩ := hI.ready hi
    exact ⟨hi, hF.slab q i hq⟩
  refine ⟨fun hi => ?_, fun q i hq => ?_, fun q i hq => ?_, fun q i k hq hk => ?_,
    fun p size hp hsz => ?_, fun p p' n n' hp hp' => hI.blocks_apart hp hp',
    fun page size hl hn => ?_, fun page size p hl hn => ?_, fun page size p n j hl hp hj => ?_,
      fun p hf => ?_⟩
  · obtain ⟨F, hF⟩ := hI.ready hi
    refine ⟨F, hF.rings.circ, fun c x => (hF.listed c x).trans ?_⟩
    constructor
    · rintro ⟨q, rfl, hq, hg⟩
      exact ⟨q, rfl, hq, (counterFill_eq (hslab q _ hq).2).trans hg⟩
    · rintro ⟨q, rfl, hq, hg⟩
      exact ⟨q, rfl, hq, (counterFill_eq (hslab q _ hq).2).symm.trans hg⟩
  · obtain ⟨hi, hs⟩ := hslab q i hq
    unfold slabWord
    rw [hs.bitmap, hs.total]
    exact ⟨hi, hs.free⟩
  · obtain ⟨-, hs⟩ := hslab q i hq
    unfold slabWord
    rw [hs.objects, hs.bitmap, hs.total]
    exact ⟨le_rfl, le_rfl, (Ucore.layout i q).2⟩
  · obtain ⟨-, hs⟩ := hslab q i hq
    unfold slabWord at hk ⊢
    rw [hs.total] at hk
    rw [hs.bitmap, hs.objects]
    exact hI.bits q i k hq hk
  · obtain ⟨q, i, k, hq, hk, rfl, hc⟩ := hI.small p size hp hsz
    obtain ⟨-, hs⟩ := hslab q i hq
    refine ⟨q, i, k, hq, ?_, ?_, room_small hc, Inv.le_of_cacheFor hc⟩
    · unfold slabWord
      rwa [hs.total]
    · unfold slabWord
      rw [hs.objects]
      rfl
  · obtain ⟨s', -, ho⟩ := hI.alloc hl
    obtain ⟨p, h1, -⟩ | ⟨-, h2, -, h4⟩ := ho.answer
    · rw [hn] at h1
      cases h1
    · refine ⟨h2, fun q i hc hq => ?_⟩
      unfold slabWord
      rw [(hslab q i hq).2.free]
      exact h4 q i hc hq
  · obtain ⟨s', -, ho⟩ := hI.alloc hl
    obtain ⟨p', h1, h2, -⟩ | ⟨h1, -⟩ := ho.answer
    · obtain rfl := Option.some.inj (hn.symm.trans h1)
      exact h2
    · rw [hn] at h1
      cases h1
  · obtain ⟨s', hst, ho⟩ := hI.alloc hl
    rw [← ho.kept p n j hp hj]
    simp only [step, Option.some.injEq] at hst
    rw [← hst]
  · obtain ⟨size, hp, hsz⟩ := hf
    obtain ⟨k, hk, hU, -⟩ := hI.free hp hsz
    exact ⟨k, hk, hU.blocks⟩

/-- **When `slub_free` undoes `slub_alloc`.** -/
theorem slub_free_undoes (h : (careful C).Reach s) (hp : s.live p = some size) :
    (∃ k, slubFree p s.slub = some k ∧ Undone C s p size k) ↔
      size ≤ 128 ∨ size ≤ 4096 ∧ s.cacheWord p = 0 := by
  have hI := Inv.of_reach h
  constructor
  · rintro ⟨k, hk, hU⟩
    by_contra hne
    refine hI.not_undone hp hk (by omega) (fun hle hw => hne (.inr ⟨hle, hw⟩)) hU
  · intro hsz
    obtain ⟨k, hk, hU, -⟩ := hI.free hp hsz
    exact ⟨k, hk, hU⟩

/-! ### A concrete allocator -/

/-- The array of the caches at 1 MB. -/
def array : CacheArray := ⟨1048576, by decide, by decide⟩

/-- Memory of zeros. -/
def boot : SlubSys where
  slub := ⟨fun _ => 0, false, 0, 0, ∅⟩
  live _ := none
  slabs _ := none

/-- The first request, which gets page 1. -/
theorem reach_first (hsz : 0 < size) (hlt : size ≤ 8192) {s : SlubSys}
    (hs : step array boot (.alloc (some 1) size) = some s) : (careful array).Reach s := by
  have hbase : array.base = 1048576 := rfl
  have hle : 0 < pagesAsked size ∧ pagesAsked size ≤ 2 := by
    unfold pagesAsked pagesNeeded
    split <;> omega
  have hl : Legal array boot (.alloc (some 1) size) :=
    ⟨hsz, by omega, hle.1, fun r hr => ⟨⟨by omega, by omega, .inl (by omega)⟩,
      Finset.notMem_empty _⟩⟩
  have h0 : (careful array).Reach boot := .init ⟨rfl, fun _ => rfl, fun _ => rfl⟩
  exact h0.step ⟨hl, fun p hp => by cases hp⟩ hs

theorem slub_sound_first : ∃ s, (careful array).Reach s ∧ s.live 4152 = some 40 ∧
    Sound array s := by
  have hs : ∃ s, step array boot (.alloc (some 1) 40) = some s ∧ s.live 4152 = some 40 :=
    ⟨_, rfl, by decide +kernel⟩
  obtain ⟨s, hs, hl⟩ := hs
  have hr := reach_first (by decide) (by decide) hs
  exact ⟨s, hr, hl, slub_sound hr⟩

/-- An object is given back. -/
theorem slub_free_undoes_first : ∃ s k, (careful array).Reach s ∧ s.live 4152 = some 40 ∧
    slubFree 4152 s.slub = some k ∧ Undone array s 4152 40 k := by
  have hs : ∃ s, step array boot (.alloc (some 1) 40) = some s ∧ s.live 4152 = some 40 :=
    ⟨_, rfl, by decide +kernel⟩
  obtain ⟨s, hs, hl⟩ := hs
  have hr := reach_first (by decide) (by decide) hs
  obtain ⟨k, hk⟩ := (slub_free_undoes hr hl).2 (.inl (by decide))
  exact ⟨s, k, hr, hl, hk⟩

/-- Of a block of two pages, whose bytes are all 0, only the first page is given back. -/
theorem slub_free_keeps_page : ∃ s k, (careful array).Reach s ∧ s.live 4096 = some 4097 ∧
    slubFree 4096 s.slub = some k ∧ k.taken = {2} ∧ ¬Undone array s 4096 4097 k := by
  have hs : ∃ s, step array boot (.alloc (some 1) 4097) = some s ∧ s.live 4096 = some 4097 ∧
      s.slub.taken = {1, 2} ∧ s.cacheWord 4096 = 0 :=
    ⟨_, rfl, by decide +kernel, by decide +kernel, by decide +kernel⟩
  obtain ⟨s, hs, hl, ht, hw⟩ := hs
  have hr := reach_first (by decide) (by decide) hs
  have hk := Inv.slubFree_page (p := 4096) (by decide) hw
  refine ⟨s, _, hr, hl, hk, ?_, (Inv.of_reach hr).not_undone hl hk (by decide)
    fun hle => absurd hle (by decide)⟩
  dsimp only
  rw [ht]
  decide

end SlubSys

end Ucore
