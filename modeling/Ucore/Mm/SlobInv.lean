/-
  The free list of the SLOB allocator.

  * `Blocks k arena F L`: the free blocks `F` are a circular list, and with the blocks in use, whose
    lengths are `L`, they divide the pages that the allocator has been given;
  * `Coalesced`: no two blocks of the list touch;
  * `Blocks.insert`, `Blocks.join`, `Blocks.reinsert`: a block in use becomes free;
  * `Blocks.take`: a free block is used.
-/
import Ucore.Lib.Circular
import Ucore.Lib.Spans
import Ucore.Mm.Slob

namespace Ucore.Slob

open Spans

variable {k k' : Slob} {arena a b c n cur prev : ℕ} {F : Finset ℕ} {L L' : ℕ → ℕ}

/-- The length of the block at `a`, free or in use. -/
def span (k : Slob) (F : Finset ℕ) (L : ℕ → ℕ) (a : ℕ) : ℕ :=
  slobUnit * if a ∈ F then k.units a else L a

structure Blocks (k : Slob) (arena : ℕ) (F : Finset ℕ) (L : ℕ → ℕ) : Prop where
  ring : Circular k.next F
  free : k.slobfree ∈ F
  base : arena ∈ F
  unit : k.units arena = 1
  pos : ∀ a ∈ F, 0 < k.units a
  live : ∀ a ∈ F, L a = 0
  apart : Apart (k.span F L)
  cover : ∀ p, Covered (k.span F L) p ↔
    (∃ q ∈ k.pages, q ≤ p ∧ p < q + pgSize) ∨ (arena ≤ p ∧ p < arena + slobUnit)
  aligned : ∀ a, 0 < k.span F L a → a ≠ arena → slobUnit ∣ a
  above : ∀ q ∈ k.pages, slobUnit ∣ q ∧ arena + slobUnit < q

/-- No two blocks of the list touch, except perhaps one of `X` and the next one. -/
def Coalesced (k : Slob) (F X : Finset ℕ) : Prop :=
  ∀ a ∈ F, a ∉ X → k.next a ≠ ptrAdd a (k.units a)

/-! ## Words -/

theorem units_setUnits : (k.setUnits b n).units a = if a = b then n else k.units a :=
  Function.update_apply ..

theorem next_setUnits : (k.setUnits b n).next a = if a + 8 = b then n else k.next a :=
  Function.update_apply ..

theorem next_setNext : (k.setNext b c).next a = if a = b then c else k.next a := by
  rw [next, setNext, setWord]
  simp only [Function.update_apply, Nat.add_right_cancel_iff]
  rfl

theorem units_setNext : (k.setNext b c).units a = if a = b + 8 then c else k.units a :=
  Function.update_apply ..

namespace Blocks

theorem span_free (ha : a ∈ F) : k.span F L a = slobUnit * k.units a := by
  rw [span, if_pos ha]

theorem span_live (ha : a ∉ F) : k.span F L a = slobUnit * L a := by
  rw [span, if_neg ha]

theorem span_pos (h : Blocks k arena F L) (ha : a ∈ F) : 0 < k.span F L a := by
  rw [span_free ha]
  exact Nat.mul_pos (by decide) (h.pos a ha)

theorem live_notMem (h : Blocks k arena F L) (ha : 0 < L a) : a ∉ F := fun e =>
  ha.ne' (h.live a e)

theorem span_pos_live (h : Blocks k arena F L) (ha : 0 < L a) : 0 < k.span F L a := by
  rw [span_live (h.live_notMem ha)]
  exact Nat.mul_pos (by decide) ha

/-- Two blocks are at least a unit apart. -/
theorem sep (h : Blocks k arena F L) (ha : 0 < k.span F L a) (hb : 0 < k.span F L b)
    (hne : a ≠ b) : a + slobUnit ≤ b ∨ b + slobUnit ≤ a := by
  have hlen : ∀ {x}, 0 < k.span F L x → slobUnit ≤ k.span F L x := fun {x} hx =>
    Nat.le_mul_of_pos_right _ (Nat.pos_of_ne_zero fun e => by
      rw [span, e] at hx
      exact lt_irrefl _ hx)
  have := h.apart a b ha hb hne
  have := hlen ha
  have := hlen hb
  omega

/-- The blocks other than the arena lie above it, and do not touch it. -/
theorem high (h : Blocks k arena F L) (ha : 0 < k.span F L a) (hne : a ≠ arena) :
    arena + slobUnit < a := by
  have hsep := h.sep ha (h.span_pos h.base) hne
  obtain ⟨q, hq, h1, -⟩ | ⟨h1, h2⟩ := (h.cover a).1 ⟨a, has_start ha⟩
  · exact (h.above q hq).2.trans_le h1
  · omega

theorem live_ne_zero (h : Blocks k arena F L) (hb : 0 < L b) : b ≠ 0 := fun e => by
  have hne : b ≠ arena := fun e' => h.live_notMem hb (e' ▸ h.base)
  have := h.high (h.span_pos_live hb) hne
  omega

/-- At first, only the arena is in the list. -/
theorem initial (hf : k.slobfree = arena) (hn : k.next arena = arena) (hu : k.units arena = 1)
    (hp : k.pages = ∅) : Blocks k arena {arena} (fun _ => 0) ∧ Coalesced k {arena} ∅ := by
  have hspan : ∀ a, k.span {arena} (fun _ => 0) a = if a = arena then slobUnit else 0 := fun a => by
    unfold span
    by_cases e : a = arena
    · rw [if_pos (Finset.mem_singleton.2 e), if_pos e, e, hu]
      rfl
    · rw [if_neg fun e' => e (Finset.mem_singleton.1 e'), if_neg e]
      rfl
  refine ⟨⟨.singleton hn, ?_, Finset.mem_singleton_self _, hu, fun a ha => ?_, fun _ _ => rfl,
    fun a b ha hb hne => ?_, fun p => ?_, fun a ha hne => ?_, fun q hq => ?_⟩, fun a ha _ => ?_⟩
  · rw [hf]
    exact Finset.mem_singleton_self _
  · rw [Finset.mem_singleton.1 ha, hu]
    exact Nat.one_pos
  · rw [hspan] at ha hb
    split at ha
    · split at hb
      · exact absurd (by rw [‹a = _›, ‹b = _›]) hne
      · exact absurd hb (lt_irrefl _)
    · exact absurd ha (lt_irrefl _)
  · rw [hp]
    constructor
    · rintro ⟨a, h1, h2⟩
      rw [hspan] at h2
      split at h2
      · rename_i e
        exact .inr ⟨e ▸ h1, e ▸ h2⟩
      · exact absurd (h1.trans_lt h2) (lt_irrefl _)
    · rintro (⟨q, hq, -⟩ | ⟨h1, h2⟩)
      · exact absurd hq (Finset.notMem_empty q)
      · refine ⟨arena, h1, ?_⟩
        rw [hspan, if_pos rfl]
        exact h2
  · rw [hspan, if_neg hne] at ha
    exact absurd ha (lt_irrefl _)
  · rw [hp] at hq
    exact absurd hq (Finset.notMem_empty q)
  · rw [Finset.mem_singleton.1 ha, hn, hu, ptrAdd, slobUnit]
    omega

/-- Only the lengths and the pointers of the free blocks matter. -/
theorem congr (h : Blocks k arena F L) (hu : ∀ a ∈ F, k'.units a = k.units a)
    (hn : ∀ a ∈ F, k'.next a = k.next a) (hf : k'.slobfree ∈ F) (hp : k'.pages = k.pages) :
    Blocks k' arena F L := by
  have hspan : k'.span F L = k.span F L := by
    funext a
    unfold span
    split
    · rename_i ha
      rw [hu a ha]
    · rfl
  refine ⟨h.ring.congr hn, hf, h.base, (hu _ h.base).trans h.unit, fun a ha => ?_, h.live,
    hspan ▸ h.apart, ?_, hspan ▸ h.aligned, hp ▸ h.above⟩
  · rw [hu a ha]
    exact h.pos a ha
  · rw [hspan, hp]
    exact h.cover

/-- The words of one block are not the first words of another one. -/
theorem off (h : Blocks k arena F L) (ha : 0 < k.span F L a) (hb : 0 < k.span F L b) :
    a ≠ b + 8 := by
  intro e
  have := h.sep ha hb (by omega)
  unfold slobUnit at this
  omega

/-- A block in use lies in the pages. -/
theorem inPages (h : Blocks k arena F L) (hb : 0 < L b) {p : ℕ} (h1 : b ≤ p)
    (h2 : p < ptrAdd b (L b)) : ∃ q ∈ k.pages, q ≤ p ∧ p < q + pgSize := by
  have hbF := h.live_notMem hb
  have hhas : Has (k.span F L) b p := by
    refine ⟨h1, ?_⟩
    rw [span_live hbF]
    exact h2
  refine ((h.cover p).1 ⟨b, hhas⟩).resolve_right fun h3 => hbF ?_
  have harena : Has (k.span F L) arena p := by
    refine ⟨h3.1, ?_⟩
    rw [span_free h.base, h.unit]
    exact h3.2
  exact h.apart.unique hhas harena ▸ h.base

/-- A word of a block in use may change. -/
theorem write (h : Blocks k arena F L) (hco : Coalesced k F ∅) (hb : 0 < L b) {w v : ℕ}
    (h1 : b ≤ w) (h2 : w < ptrAdd b (L b)) :
    Blocks (k.setWord w v) arena F L ∧ Coalesced (k.setWord w v) F ∅ := by
  have hbF := h.live_notMem hb
  have hhas : Has (k.span F L) b w := by
    refine ⟨h1, ?_⟩
    rw [span_live hbF]
    exact h2
  have hword : ∀ a ∈ F, a ≠ w ∧ a + 8 ≠ w := fun a ha => by
    have hpos := h.pos a ha
    have hne : ∀ p, Has (k.span F L) a p → p ≠ w := fun p hp e =>
      hbF (h.apart.unique (e ▸ hp) hhas ▸ ha)
    refine ⟨hne a (has_start (h.span_pos ha)), hne _ ⟨Nat.le_add_right .., ?_⟩⟩
    rw [span_free ha, slobUnit]
    omega
  have hu : ∀ a ∈ F, (k.setWord w v).units a = k.units a := fun a ha =>
    Function.update_of_ne (hword a ha).1 _ _
  have hx : ∀ a ∈ F, (k.setWord w v).next a = k.next a := fun a ha =>
    Function.update_of_ne (hword a ha).2 _ _
  refine ⟨h.congr hu hx h.free rfl, fun a ha hX => ?_⟩
  rw [hu a ha, hx a ha]
  exact hco a ha hX

/-! ## A block becomes free -/

/-- The block `b` is put into the list, behind `cur`. -/
def link (k : Slob) (b cur : ℕ) : Slob :=
  { (k.setNext b (k.next cur)).setNext cur b with slobfree := cur }

theorem next_link : (link k b cur).next a =
    if a = cur then b else if a = b then k.next cur else k.next a := by
  change ((k.setNext b (k.next cur)).setNext cur b).next a = _
  rw [next_setNext, next_setNext]

theorem units_link (hb : a ≠ b + 8) (hc : a ≠ cur + 8) : (link k b cur).units a = k.units a := by
  change ((k.setNext b (k.next cur)).setNext cur b).units a = _
  rw [units_setNext, if_neg hc, units_setNext, if_neg hb]

theorem link_blocks (h : Blocks k arena F L) (hb : 0 < L b) (hu : k.units b = L b) (hc : cur ∈ F)
    (hbc : Circular.Behind k.next cur b) :
    Blocks (link k b cur) arena (insert b F) (Function.update L b 0) := by
  have hbF := h.live_notMem hb
  have hsb := h.span_pos_live hb
  have hsc := h.span_pos hc
  have hunits : ∀ a ∈ insert b F, (link k b cur).units a = k.units a := fun a ha => by
    have hsa : 0 < k.span F L a := by
      obtain rfl | ha := Finset.mem_insert.1 ha
      · exact hsb
      · exact h.span_pos ha
    exact units_link (h.off hsa hsb) (h.off hsa hsc)
  have hspan : (link k b cur).span (insert b F) (Function.update L b 0) = k.span F L := by
    funext a
    unfold span
    by_cases hab : a = b
    · subst hab
      rw [if_pos (Finset.mem_insert_self ..), if_neg hbF, hunits a (Finset.mem_insert_self ..), hu]
    · by_cases ha : a ∈ F
      · rw [if_pos (Finset.mem_insert_of_mem ha), if_pos ha, hunits a (Finset.mem_insert_of_mem ha)]
      · rw [if_neg fun e => ha ((Finset.mem_insert.1 e).resolve_left hab), if_neg ha,
          Function.update_of_ne hab]
  have hring : Circular (link k b cur).next (insert b F) := by
    refine (h.ring.insertBehind hc hbF hbc).congr fun a _ => ?_
    rw [next_link, Function.update_apply, Function.update_apply]
  refine ⟨hring, Finset.mem_insert_of_mem hc, Finset.mem_insert_of_mem h.base, ?_, fun a ha => ?_,
    fun a ha => ?_, hspan ▸ h.apart, ?_, hspan ▸ h.aligned, h.above⟩
  · rw [hunits _ (Finset.mem_insert_of_mem h.base)]
    exact h.unit
  · rw [hunits a ha]
    obtain rfl | ha := Finset.mem_insert.1 ha
    · rw [hu]
      exact hb
    · exact h.pos a ha
  · obtain rfl | ha := Finset.mem_insert.1 ha
    · exact Function.update_self ..
    · have hne : a ≠ b := fun e => hbF (e ▸ ha)
      rw [Function.update_of_ne hne]
      exact h.live a ha
  · rw [hspan]
    exact h.cover

/-- The block `a` is joined with the next one if they touch. -/
def joinNext (k : Slob) (a : ℕ) : Slob :=
  if ptrAdd a (k.units a) = k.next a then
    (k.setUnits a (k.units a + k.units (k.next a))).setNext a (k.next (k.next a))
  else k

theorem next_joinNext (hb : b ≠ a) (ho : b + 8 ≠ a) : (joinNext k a).next b = k.next b := by
  unfold joinNext
  split
  · rw [next_setNext, if_neg hb, next_setUnits, if_neg ho]
  · rfl

/-- Blocks that touch are not the arena. -/
theorem touch (h : Blocks k arena F L) (ha : a ∈ F) (ht : ptrAdd a (k.units a) = k.next a) :
    k.next a ≠ a ∧ a ≠ arena ∧ k.next a ≠ arena := by
  have hpos := h.pos a ha
  have hc := h.ring.mem a ha
  have hlt : a < k.next a := by
    rw [← ht, ptrAdd, slobUnit]
    omega
  have hne : k.next a ≠ arena := fun e => by
    have := h.high (h.span_pos ha) (by omega)
    omega
  refine ⟨hlt.ne', fun e => ?_, hne⟩
  have := h.high (h.span_pos hc) hne
  rw [← ht, ptrAdd, e, h.unit] at this
  omega

theorem join (h : Blocks k arena F L) {X : Finset ℕ} (hco : Coalesced k F X) (ha : a ∈ F)
    (hX : ptrAdd a (k.units a) = k.next a → k.next a ∉ X)
    (hs : ptrAdd a (k.units a) = k.next a → k.slobfree ≠ k.next a) :
    ∃ F', Blocks (joinNext k a) arena F' L ∧ Coalesced (joinNext k a) F' (X.erase a) ∧
      a ∈ F' ∧ ∀ x ∈ F, ∃ y ∈ F', k.units x ≤ (joinNext k a).units y := by
  unfold joinNext
  split
  · rename_i ht
    obtain ⟨hca, haA, hcA⟩ := h.touch ha ht
    have hX := hX ht
    have hs := hs ht
    obtain ⟨c, hc⟩ : ∃ c, k.next a = c := ⟨_, rfl⟩
    rw [hc] at ht hca hcA hX hs ⊢
    have hcF : c ∈ F := hc ▸ h.ring.mem a ha
    have hsa := h.span_pos ha
    have hsc := h.span_pos hcF
    set k' := (k.setUnits a (k.units a + k.units c)).setNext a (k.next c)
    have hnext : ∀ x ∈ F, k'.next x = if x = a then k.next c else k.next x := fun x hx => by
      rw [next_setNext, next_setUnits, if_neg (h.off hsa (h.span_pos hx)).symm]
    have hunits : ∀ x ∈ F, k'.units x = if x = a then k.units a + k.units c else k.units x :=
      fun x hx => by
        rw [units_setNext, if_neg (h.off (h.span_pos hx) hsa), units_setUnits]
    have hself : k'.units a = k.units a + k.units c := by rw [hunits a ha, if_pos rfl]
    have haF' : a ∈ F.erase c := Finset.mem_erase.2 ⟨hca.symm, ha⟩
    have hspan : Apart (k'.span (F.erase c) L) ∧
        ∀ p, Covered (k'.span (F.erase c) L) p ↔ Covered (k.span F L) p := by
      refine h.apart.join hsa hsc ?_ ?_ ?_ fun x hxa hxc => ?_
      · rw [span_free ha]
        exact ht
      · rw [span_free haF', span_free ha, span_free hcF, hself, Nat.mul_add]
      · rw [span_live (Finset.notMem_erase c F), h.live c hcF]
        rfl
      · unfold span
        by_cases hx : x ∈ F
        · rw [if_pos (Finset.mem_erase.2 ⟨hxc, hx⟩), if_pos hx, hunits x hx, if_neg hxa]
        · rw [if_neg fun e => hx (Finset.mem_of_mem_erase e), if_neg hx]
    have hfree : ∀ x ∈ F.erase c, 0 < k'.units x := fun x hx => by
      have hx := Finset.mem_of_mem_erase hx
      rw [hunits x hx]
      split
      · exact Nat.add_pos_left (h.pos a ha) _
      · exact h.pos x hx
    refine ⟨F.erase c, ⟨?_, Finset.mem_erase.2 ⟨hs, h.free⟩, Finset.mem_erase.2 ⟨hcA.symm, h.base⟩,
      ?_, hfree, fun x hx => h.live x (Finset.mem_of_mem_erase hx), hspan.1,
      fun p => (hspan.2 p).trans (h.cover p), fun x hx => ?_, h.above⟩, fun x hx hxX => ?_,
      haF', fun x hx => ?_⟩
    · refine (h.ring.eraseNext ha hc hca).congr fun x hx => ?_
      rw [hnext x (Finset.mem_of_mem_erase hx), Function.update_apply]
    · rw [hunits _ h.base, if_neg haA.symm]
      exact h.unit
    · refine h.aligned x ?_
      by_cases hxF : x ∈ F
      · exact h.span_pos hxF
      · rw [span_live fun e => hxF (Finset.mem_of_mem_erase e)] at hx
        rwa [span_live hxF]
    · have hxF := Finset.mem_of_mem_erase hx
      rw [hnext x hxF, hunits x hxF]
      split
      · rename_i e
        have hend : ptrAdd a (k.units a + k.units c) = ptrAdd c (k.units c) := by
          rw [ptrAdd, Nat.mul_add, ← Nat.add_assoc]
          exact congrArg (· + slobUnit * k.units c) ht
        rw [e, hend]
        exact hco c hcF hX
      · rename_i e
        exact hco x hxF fun hX => hxX (Finset.mem_erase.2 ⟨e, hX⟩)
    · by_cases hxc : x = c
      · refine ⟨a, haF', ?_⟩
        rw [hself, hxc]
        exact Nat.le_add_left ..
      · refine ⟨x, Finset.mem_erase.2 ⟨hxc, hx⟩, ?_⟩
        rw [hunits x hx]
        split
        · rename_i e
          rw [e]
          exact Nat.le_add_right ..
        · exact le_rfl
  · rename_i ht
    refine ⟨F, h, fun x hx hxX => ?_, ha, fun x hx => ⟨x, hx, le_rfl⟩⟩
    by_cases e : x = a
    · rw [e]
      exact fun e' => ht e'.symm
    · exact hco x hx fun hX => hxX (Finset.mem_erase.2 ⟨e, hX⟩)

/-- Linking first and joining then is the same as joining at once. -/
theorem join_linked (hbc : b ≠ cur) (h1 : b ≠ cur + 8) (h2 : cur ≠ b + 8) :
    { (if ptrAdd cur (k.units cur) = b then
        (k.setUnits cur (k.units cur + k.units b)).setNext cur
          ((k.setUnits cur (k.units cur + k.units b)).next b)
      else k.setNext cur b) with slobfree := cur } =
      joinNext { k.setNext cur b with slobfree := cur } cur := by
  have hu : ∀ x, x ≠ cur + 8 → (k.setNext cur b).units x = k.units x := fun x hx => by
    rw [units_setNext, if_neg hx]
  have hn : ∀ x, (k.setNext cur b).next x = if x = cur then b else k.next x := fun _ => next_setNext
  unfold joinNext
  change _ = if ptrAdd cur ((k.setNext cur b).units cur) = (k.setNext cur b).next cur then
    (({ k.setNext cur b with slobfree := cur } : Slob).setUnits cur
      ((k.setNext cur b).units cur + (k.setNext cur b).units ((k.setNext cur b).next cur))).setNext
        cur ((k.setNext cur b).next ((k.setNext cur b).next cur))
    else { k.setNext cur b with slobfree := cur }
  rw [hn cur, if_pos rfl, hu cur (by omega), hu b h1, hn b, if_neg hbc, next_setUnits,
    if_neg h2.symm]
  split
  · unfold setUnits setNext setWord
    simp only [Slob.mk.injEq, and_true]
    funext w
    simp only [Function.update_apply]
    grind
  · rfl

/-- `slob_free` links the block and joins it with the next one and the one before. -/
theorem reinsert_eq (h : Blocks k arena F L) (hb : 0 < L b) (hc : cur ∈ F)
    (ht : ptrAdd b (k.units b) = k.next cur → k.next cur ≠ cur) :
    k.reinsert b cur = joinNext (joinNext (link k b cur) b) cur := by
  have hbF := h.live_notMem hb
  have hsb := h.span_pos_live hb
  have hsc := h.span_pos hc
  have hn := h.ring.mem cur hc
  have hsn := h.span_pos hn
  have hbc : b ≠ cur := fun e => hbF (e ▸ hc)
  have hbn : k.next cur ≠ b := fun e => hbF (e ▸ hn)
  have h1 := h.off hsb hsc
  have h2 := h.off hsc hsb
  have hlb : (link k b cur).next b = k.next cur := by rw [next_link, if_neg hbc, if_pos rfl]
  have hlu : (link k b cur).units b = k.units b := units_link (by omega) h1
  refine (join_linked hbc h1 h2).trans (congrArg (joinNext · cur) ?_)
  by_cases t1 : ptrAdd b (k.units b) = k.next cur
  · have hln : (link k b cur).next (k.next cur) = k.next (k.next cur) := by
      rw [next_link, if_neg (ht t1), if_neg hbn]
    have hnn : (k.setUnits b (k.units b + k.units (k.next cur))).next
        ((k.setUnits b (k.units b + k.units (k.next cur))).next cur) = k.next (k.next cur) := by
      rw [next_setUnits, next_setUnits, if_neg h1.symm, if_neg (h.off hsb hsn).symm]
    rw [joinNext, hlb, hlu, units_link (h.off hsn hsb) (h.off hsn hsc), hln, if_pos t1, if_pos t1]
    simp only [hnn]
    unfold link setUnits setNext setWord
    simp only [Slob.mk.injEq, and_true]
    funext w
    simp only [Function.update_apply]
    grind
  · rw [joinNext, hlb, hlu, if_neg t1, if_neg t1]
    rfl

theorem slobfree_joinNext : (joinNext k a).slobfree = k.slobfree ∧
    (joinNext k a).pages = k.pages := by
  unfold joinNext
  split
  · exact ⟨rfl, rfl⟩
  · exact ⟨rfl, rfl⟩

theorem reinsert (h : Blocks k arena F L) (hco : Coalesced k F ∅) (hb : 0 < L b)
    (hu : k.units b = L b) (hc : cur ∈ F) (hbc : Circular.Behind k.next cur b) :
    ∃ F', Blocks (k.reinsert b cur) arena F' (Function.update L b 0) ∧
      Coalesced (k.reinsert b cur) F' ∅ ∧ ∃ a ∈ F', L b ≤ (k.reinsert b cur).units a := by
  have hbF := h.live_notMem hb
  have hsb := h.span_pos_live hb
  have hsc := h.span_pos hc
  have hne : b ≠ cur := fun e => hbF (e ▸ hc)
  have hnb : k.next cur ≠ b := fun e => hbF (e ▸ h.ring.mem cur hc)
  -- the arena is not touched from below
  have ht : ptrAdd b (k.units b) = k.next cur → k.next cur ≠ cur := fun ht e => by
    have hhigh := h.high hsb fun e' => hbF (e' ▸ h.base)
    have harena := h.ring.eq_of_next_self hc e h.base
    rw [e, ← harena, ptrAdd] at ht
    omega
  have h1 := h.link_blocks hb hu hc hbc
  have hself : (link k b cur).next b = k.next cur := by rw [next_link, if_neg hne, if_pos rfl]
  have hunits : ∀ a ∈ insert b F, (link k b cur).units a = k.units a := fun a ha => by
    have hsa : 0 < k.span F L a := by
      obtain rfl | ha := Finset.mem_insert.1 ha
      · exact hsb
      · exact h.span_pos ha
    exact units_link (h.off hsa hsb) (h.off hsa hsc)
  have hco1 : Coalesced (link k b cur) (insert b F) {b, cur} := fun a ha hX => by
    rw [Finset.mem_insert, Finset.mem_singleton, not_or] at hX
    rw [hunits a ha, next_link, if_neg hX.2, if_neg hX.1]
    exact hco a ((Finset.mem_insert.1 ha).resolve_left hX.1) (Finset.notMem_empty a)
  have htouch : ptrAdd b ((link k b cur).units b) = (link k b cur).next b → k.next cur ≠ cur := by
    rw [hself, hunits b (Finset.mem_insert_self ..)]
    exact ht
  obtain ⟨F₂, h2, hco2, hbF₂, hbig2⟩ := h1.join hco1 (Finset.mem_insert_self ..) (fun e => by
    rw [hself, Finset.mem_insert, Finset.mem_singleton, not_or]
    exact ⟨hnb, htouch e⟩) fun e => by
    rw [hself]
    exact (htouch e).symm
  have hfree : (joinNext (link k b cur) b).slobfree = cur := slobfree_joinNext.1
  have hnext : (joinNext (link k b cur) b).next cur = b := by
    rw [next_joinNext hne.symm (h.off hsb hsc).symm, next_link, if_pos rfl]
  obtain ⟨F₃, h3, hco3, -, hbig3⟩ := h2.join hco2 (hfree ▸ h2.free) (fun _ => by
    rw [hnext]
    exact Finset.notMem_erase b _) fun _ => by
    rw [hnext, hfree]
    exact hne.symm
  rw [reinsert_eq h hb hc ht]
  refine ⟨F₃, h3, fun a ha _ => hco3 a ha fun e => ?_, ?_⟩
  · simp only [Finset.mem_erase, Finset.mem_insert, Finset.mem_singleton] at e
    exact e.1 (e.2.2.resolve_left e.2.1)
  · obtain ⟨y, hy, hle⟩ := hbig2 b (Finset.mem_insert_self ..)
    obtain ⟨z, hz, hle'⟩ := hbig3 y hy
    rw [hunits b (Finset.mem_insert_self ..), hu] at hle
    exact ⟨z, hz, hle.trans hle'⟩

/-- The words that `slob_free` writes. -/
theorem mem_reinsert {w : ℕ} (h1 : w ≠ b) (h2 : w ≠ b + 8) (h3 : w ≠ cur) (h4 : w ≠ cur + 8) :
    (k.reinsert b cur).mem w = k.mem w := by
  unfold Slob.reinsert setNext setUnits setWord
  simp only
  split <;> split <;> simp only [Function.update_apply, h1, h2, h3, h4, if_false]

theorem findPoint_behind {m : ℕ} (h : Circular.Behind k.next cur b) :
    k.findPoint b (m + 1) cur = some cur := by
  rw [findPoint]
  split
  · rfl
  · rename_i e
    exact if_pos (h.resolve_left e)

theorem findPoint_next {m : ℕ} (h : ¬Circular.Behind k.next cur b) :
    k.findPoint b (m + 1) cur = k.findPoint b m (k.next cur) := by
  rw [findPoint, if_neg fun e => h (.inl e), if_neg fun e => h (.inr e)]

/-- The loop of `slob_free` terminates. -/
theorem findPoint_spec (h : Circular k.next F) (hb : b ∉ F) {s : ℕ} (hs : s ∈ F) :
    ∃ n, ∃ cur ∈ F, Circular.Behind k.next cur b ∧ ∀ m ≥ n, k.findPoint b m s = some cur := by
  obtain ⟨x, hx, hxb⟩ := h.exists_behind ⟨s, hs⟩ hb
  obtain ⟨n, hn⟩ := h.reach hs hx
  refine ⟨n + 1, ?_⟩
  have hsucc : ∀ {m n : ℕ}, m ≥ n + 1 → ∃ m', m = m' + 1 ∧ m' ≥ n := fun {m n} hm =>
    ⟨m - 1, by omega, by omega⟩
  induction n generalizing s with
  | zero =>
    cases hn
    refine ⟨s, hs, hxb, fun m hm => ?_⟩
    obtain ⟨m, rfl, -⟩ := hsucc hm
    exact findPoint_behind hxb
  | succ n ih =>
    by_cases hsb : Circular.Behind k.next s b
    · refine ⟨s, hs, hsb, fun m hm => ?_⟩
      obtain ⟨m, rfl, -⟩ := hsucc hm
      exact findPoint_behind hsb
    · obtain ⟨cur, hc, hcb, hrun⟩ := ih (h.mem s hs) hn
      refine ⟨cur, hc, hcb, fun m hm => ?_⟩
      obtain ⟨m, rfl, hle⟩ := hsucc hm
      rw [findPoint_next hsb, hrun m hle]

/-- The contents of the blocks in use, other than the one at `b`, stay. -/
def Kept (k k' : Slob) (L : ℕ → ℕ) (b : ℕ) : Prop :=
  ∀ a, 0 < L a → a ≠ b → ∀ w, a ≤ w → w < ptrAdd a (L a) → k'.mem w = k.mem w

/-- **`slob_free`** of a block in use. -/
theorem slobFree_spec (h : Blocks k arena F L) (hco : Coalesced k F ∅) (hb : 0 < L b) (size : ℕ)
    (hsize : if size = 0 then k.units b = L b else slobUnits size = L b) :
    ∃ n k' F', (∀ m ≥ n, k.slobFree m b size = some k') ∧
      Blocks k' arena F' (Function.update L b 0) ∧ Coalesced k' F' ∅ ∧
      (∃ a ∈ F', L b ≤ k'.units a) ∧ k'.pages = k.pages ∧ Kept k k' L b := by
  have hbF := h.live_notMem hb
  have hsb := h.span_pos_live hb
  have hb0 := h.live_ne_zero hb
  obtain ⟨k₁, hk₁⟩ : ∃ k₁, (if size ≠ 0 then k.setUnits b (slobUnits size) else k) = k₁ := ⟨_, rfl⟩
  have hmem : ∀ w, w ≠ b → k₁.mem w = k.mem w := fun w hw => by
    rw [← hk₁]
    split
    · exact Function.update_of_ne hw _ _
    · rfl
  have hu : k₁.units b = L b := by
    rw [← hk₁]
    split
    · rename_i e
      rw [if_neg e] at hsize
      rw [units_setUnits, if_pos rfl, hsize]
    · rename_i e
      rwa [if_pos (not_not.1 e)] at hsize
  have hsame : k₁.slobfree = k.slobfree ∧ k₁.pages = k.pages := by
    rw [← hk₁]
    split
    · exact ⟨rfl, rfl⟩
    · exact ⟨rfl, rfl⟩
  have hunits : ∀ a ∈ F, k₁.units a = k.units a := fun a ha =>
    hmem a fun e => hbF (e ▸ ha)
  have hnext : ∀ a ∈ F, k₁.next a = k.next a := fun a ha =>
    hmem _ (h.off hsb (h.span_pos ha)).symm
  have h₁ : Blocks k₁ arena F L := h.congr hunits hnext (hsame.1 ▸ h.free) hsame.2
  have hco₁ : Coalesced k₁ F ∅ := fun a ha hX => by
    rw [hunits a ha, hnext a ha]
    exact hco a ha hX
  obtain ⟨n, cur, hc, hbc, hrun⟩ := findPoint_spec h₁.ring hbF h₁.free
  obtain ⟨F', h', hco', hbig⟩ := h₁.reinsert hco₁ hb hu hc hbc
  refine ⟨n, k₁.reinsert b cur, F', fun m hm => ?_, h', hco', hbig, ?_, fun a ha hab w hw hw' => ?_⟩
  · rw [slobFree, if_neg hb0]
    simp only [hk₁, hrun m hm]
    rfl
  · rw [← hsame.2]
    unfold Slob.reinsert
    simp only
    split <;> split <;> rfl
  · have hhas : Has (k.span F L) a w := by
      refine ⟨hw, ?_⟩
      rw [span_live (h.live_notMem ha)]
      exact hw'
    have hoff : ∀ x, 0 < k.span F L x → x ≠ a → w ≠ x ∧ w ≠ x + 8 := fun x hx hxa => by
      have hdist := h.apart x a hx (h.span_pos_live ha) hxa
      have hlen : slobUnit ≤ k.span F L x :=
        Nat.le_mul_of_pos_right _ (Nat.pos_of_ne_zero fun e => by
        rw [span, e] at hx
        exact lt_irrefl _ hx)
      obtain ⟨hw1, hw2⟩ := hhas
      unfold slobUnit at hlen
      omega
    obtain ⟨e1, e2⟩ := hoff b hsb hab.symm
    obtain ⟨e3, e4⟩ := hoff cur (h.span_pos hc) fun e => h.live_notMem ha (e ▸ hc)
    rw [mem_reinsert e1 e2 e3 e4, hmem w e1]

end Blocks

end Ucore.Slob
