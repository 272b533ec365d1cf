/-
  `slob_alloc` on the free list.

  * `Blocks.take`: the block that is found is used, and what is too much stays in the list;
  * `Blocks.round`: the loop finds a block with room enough, or goes round once;
  * `slobAlloc_spec`: it terminates, and returns a block, or `NULL` if it got no page.
-/
import Ucore.Mm.SlobInv

namespace Ucore.Slob

open Spans

variable {k k' : Slob} {arena a b c n cur prev page size units : ℕ} {F : Finset ℕ} {L L' : ℕ → ℕ}
  {answers : List (Option ℕ)}

namespace Blocks

/-- Free blocks that touch follow each other in the list. -/
theorem next_of_touch (h : Blocks k arena F L) (ha : a ∈ F) (hc : c ∈ F)
    (ht : ptrAdd a (k.units a) = c) : k.next a = c := by
  have hpos := h.pos a ha
  have hlt : a < c := by
    rw [← ht, ptrAdd, slobUnit]
    omega
  have hup : a < k.next a := not_le.1 fun hle => not_le.2 hlt (h.ring.wrap a ha hle c hc).2
  have hle := (h.ring.gap a ha hup c hc).resolve_left (not_le.2 hlt)
  by_contra hne
  have hin : Has (k.span F L) a (k.next a) := by
    refine ⟨hup.le, ?_⟩
    rw [span_free ha]
    change _ < ptrAdd a (k.units a)
    omega
  exact (h.span_pos (h.ring.mem a ha)).ne' (h.apart.none_inside hin hup.ne')

theorem not_touch (h : Blocks k arena F L) (hco : Coalesced k F ∅) (ha : a ∈ F) (hc : c ∈ F) :
    c ≠ ptrAdd a (k.units a) := fun e =>
  hco a ha (Finset.notMem_empty a) ((h.next_of_touch ha hc e.symm).trans e)

/-- A block of at least two units is not the arena, and there is another one before it. -/
theorem two_units (h : Blocks k arena F L) (hp : prev ∈ F) (hn : k.next prev = cur)
    (h2 : 2 ≤ k.units cur) : cur ≠ arena ∧ cur ≠ prev := by
  have hne : cur ≠ arena := fun e => by
    rw [e, h.unit] at h2
    omega
  refine ⟨hne, fun e => ?_⟩
  have := h.ring.eq_of_next_self hp (hn.trans e) h.base
  exact hne (e.trans this.symm)

/-- The words of the blocks in use are not those of the free ones. -/
theorem kept_of (h : Blocks k arena F L) (hp : prev ∈ F) (hc : cur ∈ F) {t : ℕ}
    (ht : Has (k.span F L) cur t) (ht8 : Has (k.span F L) cur (t + 8))
    (hw : ∀ w, w ≠ prev + 8 → w ≠ t → w ≠ t + 8 → w ≠ cur → k'.mem w = k.mem w) :
    Kept k k' L n := by
  intro a ha _ w h1 h2
  have haF := h.live_notMem ha
  have hhas : Has (k.span F L) a w := by
    refine ⟨h1, ?_⟩
    rw [span_live haF]
    exact h2
  have hnot : ∀ {x y}, x ∈ F → Has (k.span F L) x y → w ≠ y := fun {x y} hx hy e =>
    haF (h.apart.unique hhas (e ▸ hy) ▸ hx)
  have hp8 : Has (k.span F L) prev (prev + 8) := by
    refine ⟨Nat.le_add_right .., ?_⟩
    have := h.pos prev hp
    rw [span_free hp, slobUnit]
    omega
  exact hw w (hnot hp hp8) (hnot hc ht) (hnot hc ht8) (hnot hc (has_start (h.span_pos hc)))

/-- The whole block is used. -/
theorem take_exact (h : Blocks k arena F L) (hco : Coalesced k F ∅) (hp : prev ∈ F)
    (hn : k.next prev = cur) (h2 : 2 ≤ k.units cur) :
    ∃ F', Blocks { k.setNext prev (k.next cur) with slobfree := prev } arena F'
        (Function.update L cur (k.units cur)) ∧
      Coalesced { k.setNext prev (k.next cur) with slobfree := prev } F' ∅ := by
  obtain ⟨hca, hcp⟩ := h.two_units hp hn h2
  have hc : cur ∈ F := hn ▸ h.ring.mem prev hp
  set k' : Slob := { k.setNext prev (k.next cur) with slobfree := prev }
  have hunits : ∀ x ∈ F, k'.units x = k.units x := fun x hx => by
    change (k.setNext prev (k.next cur)).units x = _
    rw [units_setNext, if_neg (h.off (h.span_pos hx) (h.span_pos hp))]
  have hnext : ∀ x, k'.next x = if x = prev then k.next cur else k.next x := fun _ => next_setNext
  have hspan : k'.span (F.erase cur) (Function.update L cur (k.units cur)) = k.span F L := by
    funext x
    unfold span
    by_cases hxc : x = cur
    · rw [hxc, if_neg (Finset.notMem_erase cur F), if_pos hc, Function.update_self]
    · by_cases hx : x ∈ F
      · rw [if_pos (Finset.mem_erase.2 ⟨hxc, hx⟩), if_pos hx, hunits x hx]
      · rw [if_neg fun e => hx (Finset.mem_of_mem_erase e), if_neg hx, Function.update_of_ne hxc]
  have hring : Circular k'.next (F.erase cur) := by
    refine (h.ring.eraseNext hp hn hcp).congr fun x _ => ?_
    rw [hnext, Function.update_apply]
  refine ⟨F.erase cur, ⟨hring, Finset.mem_erase.2 ⟨hcp.symm, hp⟩,
    Finset.mem_erase.2 ⟨hca.symm, h.base⟩, (hunits _ h.base).trans h.unit, fun x hx => ?_,
    fun x hx => ?_, hspan ▸ h.apart, ?_, hspan ▸ h.aligned, h.above⟩, fun x hx _ => ?_⟩
  · rw [hunits x (Finset.mem_of_mem_erase hx)]
    exact h.pos x (Finset.mem_of_mem_erase hx)
  · rw [Function.update_of_ne (Finset.ne_of_mem_erase hx)]
    exact h.live x (Finset.mem_of_mem_erase hx)
  · rw [hspan]
    exact h.cover
  · have hx' := Finset.mem_of_mem_erase hx
    rw [hunits x hx']
    exact h.not_touch hco hx' (Finset.mem_of_mem_erase (hring.mem x hx))

/-- The first `n` units of `cur` are used, and the rest, at `c`, takes its place. -/
def cutOff (k : Slob) (prev cur n : ℕ) : Slob :=
  let c := ptrAdd cur n
  { (((k.setNext prev c).setUnits c (k.units cur - n)).setNext c (k.next cur)).setUnits cur n with
    slobfree := prev }

theorem take_cut (h : Blocks k arena F L) (hco : Coalesced k F ∅) (hp : prev ∈ F)
    (hn : k.next prev = cur) (h2 : 2 ≤ n) (hlt : n < k.units cur) :
    ∃ F', Blocks (cutOff k prev cur n) arena F' (Function.update L cur n) ∧
      Coalesced (cutOff k prev cur n) F' ∅ := by
  obtain ⟨hca, hcp⟩ := h.two_units hp hn (h2.trans hlt.le)
  have hc : cur ∈ F := hn ▸ h.ring.mem prev hp
  obtain ⟨c, hcc⟩ : ∃ c, c = ptrAdd cur n := ⟨_, rfl⟩
  have hce : c = cur + 16 * n := hcc
  set k' := cutOff k prev cur n
  have hlen : k.span F L cur = 16 * k.units cur := span_free hc
  -- the new block lies inside the old one
  have hout : ∀ x ∈ F, x ≠ cur → x + k.span F L x ≤ cur ∨ cur + 16 * k.units cur ≤ x :=
    fun x hx hxc => hlen ▸ h.apart x cur (h.span_pos hx) (h.span_pos hc) hxc
  have hfar : ∀ x ∈ F, x ≠ cur → x + 16 ≤ cur ∨ cur + 16 * k.units cur ≤ x := fun x hx hxc => by
    have hsx : 16 ≤ k.span F L x := by
      rw [span_free hx]
      exact Nat.le_mul_of_pos_right _ (h.pos x hx)
    have := hout x hx hxc
    omega
  have hcF : c ∉ F := fun e => by
    have := hfar c e (by omega)
    omega
  have hmem : ∀ w, k'.mem w = if w = cur then n else if w = c + 8 then k.next cur
      else if w = c then k.units cur - n else if w = prev + 8 then c else k.mem w := fun w => by
    change (cutOff k prev cur n).mem w = _
    rw [hcc]
    simp [cutOff, setNext, setUnits, setWord, Function.update_apply]
  have hunits : ∀ x ∈ F, x ≠ cur → k'.units x = k.units x := fun x hx hxc => by
    have := hfar x hx hxc
    have := h.off (h.span_pos hx) (h.span_pos hp)
    rw [units, hmem, if_neg hxc, if_neg (by omega), if_neg (by omega), if_neg this]
    rfl
  have hunitsc : k'.units c = k.units cur - n := by
    rw [units, hmem, if_neg (by omega), if_neg (by omega), if_pos rfl]
  have hnext : ∀ x ∈ F, x ≠ cur → k'.next x = if x = prev then c else k.next x :=
    fun x hx hxc => by
      have := hfar x hx hxc
      have := h.off (h.span_pos hc) (h.span_pos hx)
      have hxp : x + 8 = prev + 8 ↔ x = prev := by omega
      rw [next, hmem, if_neg (by omega), if_neg (by omega), if_neg (by omega)]
      simp only [hxp]
      rfl
  have hnextc : k'.next c = k.next cur := by
    rw [next, hmem, if_neg (by omega), if_pos rfl]
  have hmemF : ∀ {x}, x ∈ insert c (F.erase cur) → x = c ∨ x ∈ F ∧ x ≠ cur := fun {x} hx => by
    obtain rfl | hx := Finset.mem_insert.1 hx
    · exact .inl rfl
    · exact .inr ⟨Finset.mem_of_mem_erase hx, Finset.ne_of_mem_erase hx⟩
  have hinF : ∀ {x}, x ∈ F → x ≠ cur → x ∈ insert c (F.erase cur) := fun hx hxc =>
    Finset.mem_insert_of_mem (Finset.mem_erase.2 ⟨hxc, hx⟩)
  have hring : Circular k'.next (insert c (F.erase cur)) := by
    have hbehind : Circular.Behind k.next cur c := by
      obtain hle | hup := le_or_gt (k.next cur) cur
      · exact .inr ⟨hle, .inl (by omega)⟩
      · have := hfar _ (h.ring.mem cur hc) hup.ne'
        exact .inl ⟨by omega, by omega⟩
    have hput := h.ring.insertBehind hc hcF hbehind
    have hpc : prev ≠ c := fun e => hcF (e ▸ hp)
    have hdrop := hput.eraseNext (a := prev) (c := cur) (Finset.mem_insert_of_mem hp) (by
      rw [Function.update_of_ne hcp.symm, Function.update_of_ne hpc, hn]) hcp
    rw [Finset.erase_insert_of_ne (by omega)] at hdrop
    refine hdrop.congr fun x hx => ?_
    rw [Function.update_self]
    obtain rfl | ⟨hxF, hxc⟩ := hmemF hx
    · rw [hnextc, Function.update_of_ne hpc.symm, Function.update_of_ne (by omega),
        Function.update_self]
    · have hne : x ≠ c := fun e => hcF (e ▸ hxF)
      rw [hnext x hxF hxc, Function.update_apply, Function.update_of_ne hxc,
        Function.update_of_ne hne]
  have hspan : Apart (k'.span (insert c (F.erase cur)) (Function.update L cur n)) ∧
      ∀ p, Covered (k'.span (insert c (F.erase cur)) (Function.update L cur n)) p ↔
        Covered (k.span F L) p := by
    refine h.apart.cut (a := cur) (m := 16 * n) (by omega) (by omega) ?_ ?_ fun x hx hxc => ?_
    · rw [span_live fun e => ?_, Function.update_self]
      · rfl
      · obtain e | ⟨-, e⟩ := hmemF e
        · omega
        · exact e rfl
    · rw [← hce, span_free (Finset.mem_insert_self ..), hunitsc, hlen, Nat.mul_sub]
      rfl
    · rw [← hce] at hxc
      unfold span
      by_cases hxF : x ∈ F
      · rw [if_pos (hinF hxF hx), if_pos hxF, hunits x hxF hx]
      · rw [if_neg fun e => ?_, if_neg hxF, Function.update_of_ne hx]
        obtain e | ⟨e, -⟩ := hmemF e
        · exact hxc e
        · exact hxF e
  refine ⟨insert c (F.erase cur), ⟨hring, hinF hp hcp.symm, hinF h.base hca.symm,
    (hunits _ h.base hca.symm).trans h.unit, fun x hx => ?_, fun x hx => ?_, hspan.1,
    fun p => (hspan.2 p).trans (h.cover p), fun x hx hxa => ?_, h.above⟩, fun x hx _ e => ?_⟩
  · obtain rfl | ⟨hxF, hxc⟩ := hmemF hx
    · rw [hunitsc]
      omega
    · rw [hunits x hxF hxc]
      exact h.pos x hxF
  · obtain rfl | ⟨hxF, hxc⟩ := hmemF hx
    · have hLc : k.span F L x = 0 := h.apart.none_inside (a := cur) ⟨by omega, by omega⟩ (by omega)
      rw [span_live hcF, slobUnit] at hLc
      rw [Function.update_of_ne (by omega)]
      omega
    · rw [Function.update_of_ne hxc]
      exact h.live x hxF
  · by_cases hxc : x = c
    · rw [hxc, hce]
      exact (Nat.dvd_add_right (h.aligned cur (h.span_pos hc) hca)).2 (Dvd.intro n rfl)
    · refine h.aligned x ?_ hxa
      by_cases hxu : x = cur
      · rw [hxu]
        exact h.span_pos hc
      · unfold span at hx ⊢
        by_cases hxF : x ∈ F
        · exact h.span_pos hxF |> fun h => by rwa [span] at h
        · rw [if_neg fun e => ?_, Function.update_of_ne hxu] at hx
          · rwa [if_neg hxF]
          · obtain e | ⟨e, -⟩ := hmemF e
            · exact hxc e
            · exact hxF e
  · -- neither the rest nor another block touches the next one
    have hy := hring.mem x hx
    rw [e] at hy
    obtain rfl | ⟨hxF, hxc⟩ := hmemF hx
    · have hend : ptrAdd x (k'.units x) = ptrAdd cur (k.units cur) := by
        rw [hunitsc, ptrAdd, ptrAdd, slobUnit]
        omega
      rw [hend] at hy
      obtain e' | ⟨hyF, -⟩ := hmemF hy
      · rw [ptrAdd, slobUnit] at e'
        omega
      · exact h.not_touch hco hc hyF rfl
    · rw [hunits x hxF hxc] at hy
      obtain e' | ⟨hyF, -⟩ := hmemF hy
      · have := hout x hxF hxc
        rw [span_free hxF, slobUnit] at this
        have hpos := h.pos x hxF
        rw [ptrAdd, slobUnit] at e'
        omega
      · exact h.not_touch hco hxF hyF rfl

theorem take (h : Blocks k arena F L) (hco : Coalesced k F ∅) (hp : prev ∈ F)
    (hn : k.next prev = cur) (h2 : 2 ≤ n) (hle : n ≤ k.units cur) :
    (∃ F', Blocks (k.take prev cur n) arena F' (Function.update L cur n) ∧
      Coalesced (k.take prev cur n) F' ∅) ∧ (k.take prev cur n).units cur = n ∧
      (k.take prev cur n).pages = k.pages ∧ Kept k (k.take prev cur n) L cur := by
  obtain ⟨hca, hcp⟩ := h.two_units hp hn (h2.trans hle)
  have hc : cur ∈ F := hn ▸ h.ring.mem prev hp
  have hoff := h.off (h.span_pos hc) (h.span_pos hp)
  have hlen : k.span F L cur = 16 * k.units cur := span_free hc
  obtain heq | hlt := hle.eq_or_lt
  · have e : k.take prev cur n = { k.setNext prev (k.next cur) with slobfree := prev } := by
      unfold Slob.take
      rw [if_pos heq.symm]
    rw [e]
    subst heq
    refine
      ⟨h.take_exact hco hp hn h2, ?_, rfl, h.kept_of hp hc (t := cur) ?_ ?_ fun w hw _ _ _ => ?_⟩
    · exact units_setNext.trans (if_neg hoff)
    · exact has_start (h.span_pos hc)
    · exact ⟨by omega, by omega⟩
    · exact Function.update_of_ne hw _ _
  · have e : k.take prev cur n = cutOff k prev cur n := by
      have h1 : ptrAdd cur n = cur + 16 * n := rfl
      have h3 : ∀ c, (k.setNext prev c).units cur = k.units cur := fun c => by
        rw [units_setNext, if_neg hoff]
      have h4 : ∀ c, (k.setNext prev c).next prev = c := fun c => by
        rw [next_setNext, if_pos rfl]
      have h5 : ∀ c v, ((k.setNext prev c).setUnits c v).next prev =
          if prev + 8 = c then v else c := fun c v => by
        rw [next_setUnits, h4]
      have h6 : ∀ v, ((k.setNext prev (ptrAdd cur n)).setUnits (ptrAdd cur n) v).next cur =
          k.next cur := fun v => by
        rw [next_setUnits, if_neg (by omega), next_setNext, if_neg hcp]
      have h7 : prev + 8 ≠ ptrAdd cur n := fun e7 => by
        have := h.apart prev cur (h.span_pos hp) (h.span_pos hc) hcp.symm
        rw [span_free hp, slobUnit] at this
        have hpp := h.pos prev hp
        omega
      unfold Slob.take cutOff
      rw [if_neg hlt.ne']
      simp only [h3, h4, h5, h6, if_neg h7]
    rw [e]
    refine ⟨h.take_cut hco hp hn h2 hlt, ?_, rfl,
      h.kept_of hp hc (t := ptrAdd cur n) ?_ ?_ fun w h1 h3 h4 h5 => ?_⟩
    · exact Function.update_self ..
    · rw [ptrAdd, slobUnit]
      exact ⟨by omega, by omega⟩
    · rw [ptrAdd, slobUnit]
      exact ⟨by omega, by omega⟩
    · simp [cutOff, setNext, setUnits, setWord, h1, h3, h4, h5]

/-! ## The loop -/

/-- The loop goes past blocks that are too small. -/
theorem allocLoop_skip : ∀ {n prev : ℕ}, (∀ m < n, k.units (k.next^[m] (k.next prev)) < units ∧
    k.next^[m] (k.next prev) ≠ k.slobfree) → ∀ fuel,
    allocLoop size units (n + fuel) k answers prev (k.next prev) =
      allocLoop size units fuel k answers (k.next^[n] prev) (k.next (k.next^[n] prev))
  | 0, _, _, fuel => by rw [Nat.zero_add, Function.iterate_zero_apply]
  | n + 1, prev, hskip, fuel => by
    obtain ⟨h1, h2⟩ := hskip 0 (Nat.succ_pos n)
    rw [Function.iterate_zero_apply] at h1 h2
    rw [Nat.add_right_comm]
    refine ((if_neg (not_le.2 h1)).trans (if_neg h2)).trans ?_
    exact allocLoop_skip (fun m hm => hskip (m + 1) (Nat.succ_lt_succ hm)) fuel

/-- The loop comes to a block with room enough, or there is none and it has gone round. -/
theorem round (h : Blocks k arena F L) (size units : ℕ) (answers : List (Option ℕ)) :
    ∃ n, ∃ p ∈ F,
      (∀ fuel, allocLoop size units (n + fuel) k answers k.slobfree (k.next k.slobfree) =
      allocLoop size units fuel k answers p (k.next p)) ∧
      (units ≤ k.units (k.next p) ∨ (k.next p = k.slobfree ∧ ∀ x ∈ F, k.units x < units)) := by
  classical
  have hex : ∃ n, units ≤ k.units (k.next^[n] (k.next k.slobfree)) ∨
      k.next^[n] (k.next k.slobfree) = k.slobfree := by
    obtain ⟨n, hn, -⟩ := h.ring.path h.free h.free
    exact ⟨n, .inr hn⟩
  have hstep : k.next (k.next^[Nat.find hex] k.slobfree) =
      k.next^[Nat.find hex] (k.next k.slobfree) :=
    (Function.iterate_succ_apply' ..).symm.trans (Function.iterate_succ_apply ..)
  have hmin : ∀ m < Nat.find hex, k.units (k.next^[m] (k.next k.slobfree)) < units ∧
      k.next^[m] (k.next k.slobfree) ≠ k.slobfree := fun m hm => by
    obtain ⟨h1, h2⟩ := not_or.1 (Nat.find_min hex hm)
    exact ⟨not_le.1 h1, h2⟩
  refine ⟨Nat.find hex, _, h.ring.iterate_mem h.free (Nat.find hex), allocLoop_skip hmin, ?_⟩
  rw [hstep]
  by_cases hfit : units ≤ k.units (k.next^[Nat.find hex] (k.next k.slobfree))
  · exact .inl hfit
  · have hend := (Nat.find_spec hex).resolve_left hfit
    refine .inr ⟨hend, fun x hx => ?_⟩
    obtain ⟨j, rfl, hj⟩ := h.ring.path h.free hx
    obtain hlt | hle := lt_or_ge j (Nat.find hex)
    · exact (hmin j hlt).1
    · obtain rfl | hlt := hle.eq_or_lt
      · exact not_le.1 hfit
      · exact absurd hend (hj _ hlt)

/-! ## Growth -/

/-- The page is not in use by the allocator, and lies above the arena. -/
structure Fresh (k : Slob) (arena page : ℕ) : Prop where
  aligned : pgSize ∣ page
  above : arena + slobUnit < page
  apart : ∀ q ∈ k.pages, page + pgSize ≤ q ∨ q + pgSize ≤ page

theorem addPage (h : Blocks k arena F L) (hp : Fresh k arena page) :
    Blocks { k with pages := insert page k.pages } arena F (Function.update L page 256) ∧
      L page = 0 := by
  have habove := hp.above
  have halign : slobUnit ∣ page := (by decide : slobUnit ∣ pgSize).trans hp.aligned
  have hfree : ∀ p, page ≤ p → p < page + 4096 → ¬Covered (k.span F L) p := fun p h1 h2 hc => by
    obtain ⟨q, hq, h3, h4⟩ | ⟨h3, h4⟩ := (h.cover p).1 hc
    · have := hp.apart q hq
      unfold pgSize at this h4
      omega
    · omega
  have hnone : k.span F L page = 0 := by
    by_contra hne
    exact hfree page le_rfl (by omega) ⟨page, has_start (Nat.pos_of_ne_zero hne)⟩
  have hpF : page ∉ F := fun e => (h.span_pos e).ne' hnone
  have hL : L page = 0 := by
    rw [span_live hpF, slobUnit] at hnone
    omega
  set k' : Slob := { k with pages := insert page k.pages }
  have hself : k'.span F (Function.update L page 256) page = 4096 := by
    rw [span_live hpF, Function.update_self]
    rfl
  have hother : ∀ x, x ≠ page → k'.span F (Function.update L page 256) x = k.span F L x :=
    fun x hx => by
      unfold span
      rw [Function.update_of_ne hx]
      rfl
  obtain ⟨hap, hcov⟩ := h.apart.add hfree (by omega) hself hother
  refine ⟨⟨h.ring, h.free, h.base, h.unit, h.pos, fun a ha => ?_, hap, fun p => ?_,
    fun a ha hne => ?_,
    fun q hq => ?_⟩, hL⟩
  · have hne : a ≠ page := fun e => hpF (e ▸ ha)
    rw [Function.update_of_ne hne]
    exact h.live a ha
  · rw [hcov, h.cover]
    change _ ↔ (∃ q ∈ insert page k.pages, _) ∨ _
    rw [Finset.exists_mem_insert, or_right_comm, or_comm (a := ∃ q ∈ k.pages, _)]
    rfl
  · by_cases e : a = page
    · rw [e]
      exact halign
    · rw [hother a e] at ha
      exact h.aligned a ha hne
  · obtain rfl | hq := Finset.mem_insert.1 hq
    · exact ⟨halign, habove⟩
    · exact h.above q hq

/-- What `slob_alloc` has done when it returns `b`. -/
structure Allocated (k k' : Slob) (arena : ℕ) (L : ℕ → ℕ) (answers : List (Option ℕ)) (b n : ℕ) :
    Prop where
  blocks : ∃ F', Blocks k' arena F' (Function.update L b n) ∧ Coalesced k' F' ∅
  new : L b = 0
  units : k'.units b = n
  pages : k'.pages = k.pages ∨
    ∃ page rest, answers = some page :: rest ∧ k'.pages = insert page k.pages
  kept : Kept k k' L 0

/-- The block that the loop comes to is taken. -/
theorem found (h : Blocks k arena F L) (size : ℕ) (answers : List (Option ℕ))
    (hco : Coalesced k F ∅) (hp : prev ∈ F) (h2 : 2 ≤ units)
    (hfit : units ≤ k.units (k.next prev)) (fuel : ℕ) :
    allocLoop size units (fuel + 1) k answers prev (k.next prev) =
        some (k.next prev, k.take prev (k.next prev) units) ∧
      Allocated k (k.take prev (k.next prev) units) arena L answers (k.next prev) units := by
  obtain ⟨hblocks, hunits, hpages, hkept⟩ := h.take hco hp rfl h2 hfit
  have hL := h.live _ (h.ring.mem prev hp)
  refine ⟨if_pos hfit, hblocks, hL, hunits, .inl hpages, fun a ha _ => hkept a ha fun e => ?_⟩
  rw [e, hL] at ha
  exact lt_irrefl _ ha

theorem allocLoop_grow {rest : List (Option ℕ)} (hs : size ≠ pgSize) (hfit : k.units cur < units)
    (hend : cur = k.slobfree) (fuel : ℕ) :
    allocLoop size units (fuel + 1) k (some page :: rest) prev cur =
      ({ k with pages := insert page k.pages }.slobFree fuel page pgSize).bind fun k =>
        allocLoop size units fuel k rest k.slobfree (k.next k.slobfree) :=
  (if_neg (not_le.2 hfit)).trans ((if_pos hend).trans (if_neg hs))

theorem allocLoop_null (hs : size ≠ pgSize) (hfit : k.units cur < units) (hend : cur = k.slobfree)
    (hnone : ∀ page rest, answers ≠ some page :: rest) (fuel : ℕ) :
    allocLoop size units (fuel + 1) k answers prev cur = some (0, k) := by
  refine (if_neg (not_le.2 hfit)).trans ((if_pos hend).trans ((if_neg hs).trans ?_))
  match answers with
  | [] | none :: _ => rfl
  | some page :: rest => exact absurd rfl (hnone page rest)

/-- **`slob_alloc`** terminates; it returns a block, or `NULL` if there is no room and no page. -/
theorem slobAlloc_spec (h : Blocks k arena F L) (hco : Coalesced k F ∅) (h1 : slobUnit < size)
    (h2 : size + slobUnit < pgSize)
    (hfresh : ∀ page rest, answers = some page :: rest → Fresh k arena page) :
    ∃ n b k', (∀ m ≥ n, k.slobAlloc m size answers = some (b, k')) ∧
      (b = 0 ∧ k' = k ∧ (∀ page rest, answers ≠ some page :: rest) ∧
          (∀ a ∈ F, k.units a < slobUnits size) ∨
        b ≠ 0 ∧ Allocated k k' arena L answers b (slobUnits size)) := by
  have hunits : 2 ≤ slobUnits size ∧ slobUnits size ≤ 256 := by
    unfold slobUnits slobUnit pgSize at *
    omega
  have hsize : size ≠ pgSize := by
    unfold slobUnit at h2
    omega
  have hstart : ∀ m, k.slobAlloc m size answers =
      allocLoop size (slobUnits size) m k answers k.slobfree (k.next k.slobfree) := fun m =>
    if_pos h2
  have hmore : ∀ {n m : ℕ}, m ≥ n + 1 → ∃ f, m = n + (f + 1) := fun {n m} hm =>
    ⟨m - n - 1, by omega⟩
  have hne0 : ∀ {k' : Slob} {b}, Allocated k k' arena L answers b (slobUnits size) → b ≠ 0 :=
    fun {k' b} hal e => by
      obtain ⟨F', h', -⟩ := hal.blocks
      have hLb : 0 < Function.update L b (slobUnits size) b := by
        rw [Function.update_self]
        omega
      exact h'.live_ne_zero hLb e
  obtain ⟨n, p, hp, hrun, hfit | ⟨hend, hsmall⟩⟩ := h.round size (slobUnits size) answers
  · have hal := (h.found size answers hco hp hunits.1 hfit 0).2
    refine ⟨n + 1, _, _, fun m hm => ?_, .inr ⟨hne0 hal, hal⟩⟩
    obtain ⟨f, rfl⟩ := hmore hm
    rw [hstart, hrun]
    exact (h.found size answers hco hp hunits.1 hfit f).1
  · have hsmall' := hsmall _ (h.ring.mem p hp)
    by_cases hans : ∃ page rest, answers = some page :: rest
    · obtain ⟨page, rest, rfl⟩ := hans
      -- the new page is put into the list, and then there is room
      obtain ⟨h₁, hL⟩ := h.addPage (hfresh page rest rfl)
      have hlive : 0 < Function.update L page 256 page := by
        rw [Function.update_self]
        decide
      have hlen : if pgSize = 0 then k.units page = Function.update L page 256 page
          else slobUnits pgSize = Function.update L page 256 page := by
        rw [if_neg (by decide), Function.update_self]
        rfl
      obtain ⟨n₂, k₂, F₂, hfree, h₂, hco₂, ⟨x, hx, hbig⟩, hpages, hkept⟩ :=
        h₁.slobFree_spec hco hlive pgSize hlen
      rw [Function.update_idem, ← hL, Function.update_eq_self] at h₂
      rw [Function.update_self] at hbig
      obtain ⟨n₃, q, hq, hrun₃, hfit₃ | ⟨-, hsmall₃⟩⟩ := h₂.round size (slobUnits size) rest
      · have hal := (h₂.found size rest hco₂ hq hunits.1 hfit₃ 0).2
        have hpages₃ := (h₂.take hco₂ hq rfl hunits.1 hfit₃).2.2.1
        have hrest := fun g => (h₂.found size rest hco₂ hq hunits.1 hfit₃ g).1
        obtain ⟨k₃, hk₃⟩ : ∃ k₃, k₂.take q (k₂.next q) (slobUnits size) = k₃ := ⟨_, rfl⟩
        rw [hk₃] at hal hpages₃ hrest
        have hal' : Allocated k k₃ arena L (some page :: rest) (k₂.next q) (slobUnits size) := by
          refine ⟨hal.blocks, hal.new, hal.units, .inr ⟨page, rest, rfl, hpages₃.trans hpages⟩,
            fun a ha ha0 w hw hw' => ?_⟩
          have hne : a ≠ page := fun e => by
            rw [e, hL] at ha
            exact lt_irrefl _ ha
          have ha' : Function.update L page 256 a = L a := Function.update_of_ne hne _ _
          exact (hal.kept a ha ha0 w hw hw').trans
            (hkept a (ha'.symm ▸ ha) hne w hw (ha'.symm ▸ hw'))
        refine ⟨n + (n₂ + n₃ + 2), k₂.next q, k₃, fun m hm => ?_, .inr ⟨hne0 hal', hal'⟩⟩
        obtain ⟨f, rfl⟩ : ∃ f, m = n + (f + 1) := ⟨m - n - 1, by omega⟩
        obtain ⟨g, hg⟩ : ∃ g, f = n₃ + (g + 1) := ⟨f - n₃ - 1, by omega⟩
        rw [hstart, hrun, allocLoop_grow hsize hsmall' hend, hfree f (by omega),
          Option.bind_some, hg,
          hrun₃, hrest]
      · exact absurd (hsmall₃ x hx) (by omega)
    · have hnone : ∀ page rest, answers ≠ some page :: rest := fun page rest e =>
        hans ⟨page, rest, e⟩
      refine ⟨n + 1, 0, k, fun m hm => ?_, .inl ⟨rfl, rfl, hnone, hsmall⟩⟩
      obtain ⟨f, rfl⟩ := hmore hm
      rw [hstart, hrun]
      exact allocLoop_null hsize hsmall' hend hnone f

end Blocks

end Ucore.Slob
