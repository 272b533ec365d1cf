/-
  Cells that are marked in use, and the slots that refer to them.

  `val x` is the cell the slot `x` refers to, `0` if it refers to none.  In a `Ledger` every marked
  cell is referred to by exactly one slot, except those in `lent`, which no slot refers to.

  * `take`, `give`: a cell is marked, and lent; a lent cell is unmarked;
  * `assign`, `clear`: a slot gets a lent cell; the cell of a slot is lent.
-/
import Mathlib.Algebra.Group.Defs
import Mathlib.Order.BooleanAlgebra.Set

structure Ledger {β S : Type*} [Zero β] (used : Set β) (val : S → β) (lent : Set β) : Prop where
  zero : (0 : β) ∉ used
  marked : ∀ x, val x ≠ 0 → val x ∈ used
  once : ∀ x y, val x ≠ 0 → val x = val y → x = y
  lent_marked : ∀ b ∈ lent, b ∈ used
  lent_free : ∀ b ∈ lent, ∀ x, val x ≠ b
  covered : ∀ b ∈ used, b ∈ lent ∨ ∃ x, val x = b

namespace Ledger

variable {β S : Type*} [Zero β] {used : Set β} {val val' : S → β} {lent : Set β} {b : β} {x : S}

theorem ne_zero (h : Ledger used val lent) (hb : b ∈ used) : b ≠ 0 := fun h0 => h.zero (h0 ▸ hb)

theorem take (h : Ledger used val lent) (hb : b ∉ used) (h0 : b ≠ 0) :
    Ledger (insert b used) val (insert b lent) where
  zero := by
    rintro (rfl | h')
    · exact h0 rfl
    · exact h.zero h'
  marked x hx := .inr (h.marked x hx)
  once := h.once
  lent_marked := by
    rintro c (rfl | hc)
    · exact .inl rfl
    · exact .inr (h.lent_marked c hc)
  lent_free := by
    rintro c (rfl | hc) x rfl
    · exact hb (h.marked x h0)
    · exact h.lent_free _ hc x rfl
  covered := by
    rintro c (rfl | hc)
    · exact .inl (.inl rfl)
    · exact (h.covered c hc).imp_left .inr

theorem give (h : Ledger used val lent) (hb : b ∈ lent) : Ledger (used \ {b}) val (lent \ {b}) where
  zero h0 := h.zero h0.1
  marked x hx := ⟨h.marked x hx, h.lent_free b hb x⟩
  once := h.once
  lent_marked c hc := ⟨h.lent_marked c hc.1, hc.2⟩
  lent_free c hc := h.lent_free c hc.1
  covered c hc := (h.covered c hc.1).imp_left fun h' => ⟨h', hc.2⟩

theorem assign (h : Ledger used val lent) (hb : b ∈ lent) (hx : val x = 0) (hx' : val' x = b)
    (ho : ∀ y, y ≠ x → val' y = val y) : Ledger used val' (lent \ {b}) where
  zero := h.zero
  marked y hy := by
    by_cases hyx : y = x
    · subst hyx
      exact hx' ▸ h.lent_marked b hb
    · rw [ho y hyx] at hy ⊢
      exact h.marked y hy
  once y z hy hyz := by
    by_cases hyx : y = x <;> by_cases hzx : z = x
    · rw [hyx, hzx]
    · rw [hyx, hx', ho z hzx] at hyz
      exact absurd hyz.symm (h.lent_free b hb z)
    · rw [hzx, hx', ho y hyx] at hyz
      exact absurd hyz (h.lent_free b hb y)
    · rw [ho y hyx] at hy hyz
      rw [ho z hzx] at hyz
      exact h.once y z hy hyz
  lent_marked c hc := h.lent_marked c hc.1
  lent_free c hc y := by
    by_cases hyx : y = x
    · rw [hyx, hx']
      exact fun h' => hc.2 h'.symm
    · rw [ho y hyx]
      exact h.lent_free c hc.1 y
  covered c hc := by
    by_cases hcb : c = b
    · exact .inr ⟨x, hx'.trans hcb.symm⟩
    · rcases h.covered c hc with h' | ⟨y, hy⟩
      · exact .inl ⟨h', hcb⟩
      · refine .inr ⟨y, ?_⟩
        rw [ho y, hy]
        rintro rfl
        exact h.zero (hx.symm.trans hy ▸ hc)

theorem clear (h : Ledger used val lent) (hx : val x = b) (h0 : b ≠ 0) (hx' : val' x = 0)
    (ho : ∀ y, y ≠ x → val' y = val y) : Ledger used val' (insert b lent) where
  zero := h.zero
  marked y hy := by
    by_cases hyx : y = x
    · exact absurd (hyx ▸ hx') hy
    · rw [ho y hyx] at hy ⊢
      exact h.marked y hy
  once y z hy hyz := by
    have hyx : y ≠ x := fun e => hy (e ▸ hx')
    have hzx : z ≠ x := fun e => hy (hyz.trans (e ▸ hx'))
    rw [ho y hyx] at hy hyz
    rw [ho z hzx] at hyz
    exact h.once y z hy hyz
  lent_marked := by
    rintro c (rfl | hc)
    · exact hx ▸ h.marked x (hx.symm ▸ h0)
    · exact h.lent_marked c hc
  lent_free c hc y := by
    by_cases hyx : y = x
    · rw [hyx, hx']
      rintro rfl
      rcases hc with rfl | hc
      · exact h0 rfl
      · exact h.zero (h.lent_marked _ hc)
    · rw [ho y hyx]
      rcases hc with rfl | hc
      · intro e
        exact hyx (h.once y x (e ▸ h0) (e.trans hx.symm))
      · exact h.lent_free c hc y
  covered c hc := by
    rcases h.covered c hc with h' | ⟨y, hy⟩
    · exact .inl (.inr h')
    · by_cases hyx : y = x
      · exact .inl (.inl (hy.symm.trans (hyx ▸ hx)))
      · exact .inr ⟨y, (ho y hyx).trans hy⟩

theorem congr (h : Ledger used val lent) (hv : ∀ x, val' x = val x) : Ledger used val' lent :=
  (funext hv : val' = val) ▸ h

end Ledger
