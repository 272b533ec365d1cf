/-
  Objects that are shared, with a count of their holders.

  `count x` is the count of the object `x`, `none` if there is no such object; `hold a` is the
  object that `a` holds, and `spare a` one that `a` has at hand but does not hold: one that it
  makes, or that it is about to destroy.  In `Shared` every count is right, and every object is
  held, or is at hand for exactly one.

  * `create`, `discard`: an object is made, or destroyed;
  * `install`, `share`: an object at hand is held, and another one becomes a holder;
  * `drop`, `drop_last`: a holder lets go; the last one has the object at hand.
-/
import Ucore.Lib.Refs
import Mathlib.Data.Int.Order.Basic

/-- Every object that there is has the count of its holders. -/
structure Counted {σ ι : Type*} [DecidableEq ι] (S : Finset σ) (count : ι → Option ℤ)
    (hold : σ → Option ι) : Prop where
  counted : ∀ x c, count x = some c → c = refs S hold x
  live : ∀ x, count x = none → refs S hold x = 0

structure Shared {σ ι : Type*} [DecidableEq ι] (S : Finset σ) (count : ι → Option ℤ)
    (hold spare : σ → Option ι) : Prop extends Counted S count hold where
  needed : ∀ x c, count x = some c → 0 < refs S hold x ∨ ∃ a ∈ S, spare a = some x
  zero : ∀ a ∈ S, ∀ x, spare a = some x → count x = some 0
  once : ∀ a ∈ S, ∀ b ∈ S, ∀ x, spare a = some x → spare b = some x → a = b

open Function

section
variable {σ ι : Type*} [DecidableEq σ] {spare : σ → Option ι} {a b : σ} {x y : ι}

/-- What others have at hand. -/
theorem update_spare (hb : spare b = some y) (ha : spare a ≠ some y) (z : Option ι) :
    update spare a z b = some y := by
  have hba : b ≠ a := fun e => ha (e ▸ hb)
  rwa [update_of_ne hba]

theorem of_update_none (h : update spare a none b = some y) : b ≠ a ∧ spare b = some y := by
  by_cases hba : b = a
  · rw [hba, update_self] at h
    cases h
  · rw [update_of_ne hba] at h
    exact ⟨hba, h⟩

end

namespace Shared

variable {σ ι : Type*} [DecidableEq ι] {S : Finset σ} {count : ι → Option ℤ}
  {hold spare : σ → Option ι} {a : σ} {x : ι}

/-- What is held exists. -/
theorem held (h : Shared S count hold spare) (ha : a ∈ S) (hh : hold a = some x) :
    ∃ c, count x = some c ∧ 0 < c := by
  have hpos : 0 < refs S hold x := refs_pos.2 ⟨a, ha, hh⟩
  cases hc : count x with
  | none =>
    have := h.live x hc
    omega
  | some c =>
    have := h.counted x c hc
    exact ⟨c, rfl, by omega⟩

/-- What is at hand has no holder. -/
theorem unheld (h : Shared S count hold spare) (ha : a ∈ S) (hs : spare a = some x) :
    refs S hold x = 0 := by
  have := h.counted x 0 (h.zero a ha x hs)
  omega

end Shared

section
variable {σ ι : Type*} [DecidableEq ι] [DecidableEq σ] {S : Finset σ} {count : ι → Option ℤ}
  {hold spare : σ → Option ι} {a b : σ} {x y : ι} {c : ℤ}

namespace Counted

theorem refs_hold (ha : a ∈ S) (hh : hold a = none) (x y : ι) :
    refs S (update hold a (some x)) y = refs S hold y + if x = y then 1 else 0 :=
  refs_set ha (fun _ _ hb => update_of_ne hb (some x) hold) hh (update_self ..)

theorem refs_drop (ha : a ∈ S) (hh : hold a = some x) (y : ι) :
    refs S (update hold a none) y + (if x = y then 1 else 0) = refs S hold y :=
  refs_clear ha (fun _ _ hb => update_of_ne hb none hold) hh (update_self ..)

theorem hold_more (h : Counted S count hold) (ha : a ∈ S) (hh : hold a = none)
    (hc : count x = some c) :
    Counted S (update count x (some (c + 1))) (update hold a (some x)) where
  counted y c' hy := by
    rw [refs_hold ha hh]
    by_cases hyx : y = x
    · rw [hyx, update_self] at hy
      cases hy
      rw [hyx, if_pos rfl, h.counted x c hc]
      rfl
    · rw [update_of_ne hyx] at hy
      rw [if_neg fun e => hyx e.symm]
      exact h.counted y c' hy
  live y hy := by
    by_cases hyx : y = x
    · rw [hyx, update_self] at hy
      cases hy
    · rw [update_of_ne hyx] at hy
      rw [refs_hold ha hh, if_neg fun e => hyx e.symm]
      exact h.live y hy

theorem hold_less (h : Counted S count hold) (ha : a ∈ S) (hh : hold a = some x)
    (hc : count x = some c) :
    Counted S (update count x (some (c - 1))) (update hold a none) where
  counted y c' hy := by
    have hr := refs_drop ha hh y
    by_cases hyx : y = x
    · rw [hyx, update_self] at hy
      cases hy
      rw [if_pos hyx.symm] at hr
      have := h.counted x c hc
      rw [hyx] at hr ⊢
      omega
    · rw [update_of_ne hyx] at hy
      rw [if_neg fun e => hyx e.symm] at hr
      have := h.counted y c' hy
      omega
  live y hy := by
    have hr := refs_drop ha hh y
    by_cases hyx : y = x
    · rw [hyx, update_self] at hy
      cases hy
    · rw [update_of_ne hyx] at hy
      have := h.live y hy
      omega

end Counted

namespace Shared

theorem create (h : Shared S count hold spare) (ha : a ∈ S) (hs : spare a = none)
    (hx : count x = none) : Shared S (update count x (some 0)) hold (update spare a (some x)) := by
  have hnew : ∀ b ∈ S, spare b ≠ some x := fun b hb hsb => by
    have h0 := h.zero b hb x hsb
    rw [hx] at h0
    cases h0
  refine ⟨⟨fun y c hy => ?_, fun y hy => ?_⟩, fun y c hy => ?_, fun b hb y hy => ?_,
    fun b hb b' hb' y hy hy' => ?_⟩
  · by_cases hyx : y = x
    · rw [hyx, update_self] at hy
      cases hy
      rw [hyx, h.live x hx]
      rfl
    · rw [update_of_ne hyx] at hy
      exact h.counted y c hy
  · by_cases hyx : y = x
    · rw [hyx, update_self] at hy
      cases hy
    · rw [update_of_ne hyx] at hy
      exact h.live y hy
  · by_cases hyx : y = x
    · exact .inr ⟨a, ha, by rw [update_self, hyx]⟩
    · rw [update_of_ne hyx] at hy
      refine (h.needed y c hy).imp_right fun ⟨b, hb, hsb⟩ => ⟨b, hb, ?_⟩
      exact update_spare hsb (by simp [hs]) _
  · by_cases hba : b = a
    · rw [hba, update_self] at hy
      cases hy
      exact update_self ..
    · rw [update_of_ne hba] at hy
      have hyx : y ≠ x := fun e => hnew b hb (e ▸ hy)
      rw [update_of_ne hyx]
      exact h.zero b hb y hy
  · by_cases hba : b = a <;> by_cases hba' : b' = a
    · exact hba.trans hba'.symm
    · rw [hba, update_self] at hy
      rw [update_of_ne hba'] at hy'
      cases hy
      exact absurd hy' (hnew b' hb')
    · rw [hba', update_self] at hy'
      rw [update_of_ne hba] at hy
      cases hy'
      exact absurd hy (hnew b hb)
    · rw [update_of_ne hba] at hy
      rw [update_of_ne hba'] at hy'
      exact h.once b hb b' hb' y hy hy'

theorem discard (h : Shared S count hold spare) (ha : a ∈ S) (hs : spare a = some x) :
    Shared S (update count x none) hold (update spare a none) := by
  refine ⟨⟨fun y c hy => ?_, fun y hy => ?_⟩, fun y c hy => ?_, fun b hb y hy => ?_,
    fun b hb b' hb' y hy hy' => ?_⟩
  · by_cases hyx : y = x
    · rw [hyx, update_self] at hy
      cases hy
    · rw [update_of_ne hyx] at hy
      exact h.counted y c hy
  · by_cases hyx : y = x
    · rw [hyx]
      exact h.unheld ha hs
    · rw [update_of_ne hyx] at hy
      exact h.live y hy
  · by_cases hyx : y = x
    · rw [hyx, update_self] at hy
      cases hy
    · rw [update_of_ne hyx] at hy
      refine (h.needed y c hy).imp_right fun ⟨b, hb, hsb⟩ => ⟨b, hb, ?_⟩
      exact update_spare hsb (fun e => hyx (Option.some.inj (e.symm.trans hs))) _
  · obtain ⟨hba, hy⟩ := of_update_none hy
    have hyx : y ≠ x := fun e => hba (h.once b hb a ha y hy (e ▸ hs))
    rw [update_of_ne hyx]
    exact h.zero b hb y hy
  · exact h.once b hb b' hb' y (of_update_none hy).2 (of_update_none hy').2

/-- One more holds an object. -/
theorem share (h : Shared S count hold spare) (ha : a ∈ S) (hh : hold a = none) (hb : b ∈ S)
    (hx : hold b = some x) (hc : count x = some c) :
    Shared S (update count x (some (c + 1))) (update hold a (some x)) spare := by
  refine ⟨h.toCounted.hold_more ha hh hc, fun y c' hy => ?_, fun b' hb' y hy => ?_, h.once⟩
  · by_cases hyx : y = x
    · exact .inl (refs_pos.2 ⟨a, ha, by rw [update_self, hyx]⟩)
    · rw [update_of_ne hyx] at hy
      rw [Counted.refs_hold ha hh, if_neg fun e => hyx e.symm]
      exact h.needed y c' hy
  · have hyx : y ≠ x := fun e => by
      obtain ⟨c', h1, h2⟩ := h.held hb hx
      have h3 := h.zero b' hb' y hy
      rw [e, h1] at h3
      cases h3
      omega
    rw [update_of_ne hyx]
    exact h.zero b' hb' y hy

/-- An object at hand is held. -/
theorem install (h : Shared S count hold spare) (ha : a ∈ S) (hh : hold a = none)
    (hs : spare a = some x) :
    Shared S (update count x (some 1)) (update hold a (some x)) (update spare a none) := by
  refine ⟨h.toCounted.hold_more ha hh (h.zero a ha x hs), fun y c' hy => ?_, fun b hb y hy => ?_,
    (h.discard ha hs).once⟩
  · by_cases hyx : y = x
    · exact .inl (refs_pos.2 ⟨a, ha, by rw [update_self, hyx]⟩)
    · rw [update_of_ne hyx] at hy
      rw [Counted.refs_hold ha hh, if_neg fun e => hyx e.symm]
      refine (h.needed y c' hy).imp_right fun ⟨b, hb, hsb⟩ => ⟨b, hb, ?_⟩
      exact update_spare hsb (fun e => hyx (Option.some.inj (e.symm.trans hs))) _
  · obtain ⟨hba, hy⟩ := of_update_none hy
    have hyx : y ≠ x := fun e => hba (h.once b hb a ha y hy (e ▸ hs))
    rw [update_of_ne hyx]
    exact h.zero b hb y hy

/-- One of several holders lets go. -/
theorem drop (h : Shared S count hold spare) (ha : a ∈ S) (hh : hold a = some x)
    (hc : count x = some c) (h1 : c - 1 ≠ 0) :
    Shared S (update count x (some (c - 1))) (update hold a none) spare := by
  have hr := Counted.refs_drop ha hh
  have hx := hr x
  rw [if_pos rfl] at hx
  have hcx := h.counted x c hc
  refine ⟨h.toCounted.hold_less ha hh hc, fun y c' hy => ?_, fun b hb y hy => ?_, h.once⟩
  · by_cases hyx : y = x
    · rw [hyx]
      exact .inl (by omega)
    · rw [update_of_ne hyx] at hy
      have hy' := hr y
      rw [if_neg fun e => hyx e.symm, Nat.add_zero] at hy'
      rw [hy']
      exact h.needed y c' hy
  · have hyx : y ≠ x := fun e => by
      have := h.unheld hb hy
      rw [e] at this
      omega
    rw [update_of_ne hyx]
    exact h.zero b hb y hy

/-- The last holder lets go. -/
theorem drop_last (h : Shared S count hold spare) (ha : a ∈ S) (hh : hold a = some x)
    (hs : spare a = none) (hc : count x = some 1) :
    Shared S (update count x (some 0)) (update hold a none) (update spare a (some x)) := by
  have hr := Counted.refs_drop ha hh
  have hcx := h.counted x 1 hc
  have hnew : ∀ b ∈ S, spare b ≠ some x := fun b hb hsb => by
    have := h.unheld hb hsb
    omega
  refine ⟨h.toCounted.hold_less ha hh hc, fun y c' hy => ?_, fun b hb y hy => ?_,
    fun b hb b' hb' y hy hy' => ?_⟩
  · by_cases hyx : y = x
    · exact .inr ⟨a, ha, by rw [update_self, hyx]⟩
    · rw [update_of_ne hyx] at hy
      have hy' := hr y
      rw [if_neg fun e => hyx e.symm, Nat.add_zero] at hy'
      rw [hy']
      refine (h.needed y c' hy).imp_right fun ⟨b, hb, hsb⟩ => ⟨b, hb, ?_⟩
      exact update_spare hsb (by simp [hs]) _
  · by_cases hba : b = a
    · rw [hba, update_self] at hy
      cases hy
      exact update_self ..
    · rw [update_of_ne hba] at hy
      have hyx : y ≠ x := fun e => hnew b hb (e ▸ hy)
      rw [update_of_ne hyx]
      exact h.zero b hb y hy
  · by_cases hba : b = a <;> by_cases hba' : b' = a
    · exact hba.trans hba'.symm
    · rw [hba, update_self] at hy
      rw [update_of_ne hba'] at hy'
      cases hy
      exact absurd hy' (hnew b' hb')
    · rw [hba', update_self] at hy'
      rw [update_of_ne hba] at hy
      cases hy'
      exact absurd hy (hnew b hb)
    · rw [update_of_ne hba] at hy
      rw [update_of_ne hba'] at hy'
      exact h.once b hb b' hb' y hy hy'

end Shared

end
