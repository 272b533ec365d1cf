/-
  Reference counts: how many slots of a finite set refer to a cell.

  * `refs_pos`: some slot refers to the cell;
  * `refs_slot`: what a write to one slot does to the counts;
  * `refs_set`, `refs_clear`: the slot was empty, or becomes empty.
-/
import Mathlib.Data.Finset.Card
import Mathlib.Data.Finset.Filter

section

variable {σ π : Type*} [DecidableEq π] {S S' : Finset σ} {f g : σ → Option π} {p q : π}
  {x : σ}

def refs (S : Finset σ) (f : σ → Option π) (p : π) : ℕ := (S.filter fun x => f x = some p).card

theorem refs_congr (h : ∀ x ∈ S, g x = some p ↔ f x = some p) : refs S g p = refs S f p :=
  congrArg Finset.card (Finset.filter_congr h)

theorem refs_mono (h : ∀ x ∈ S, g x = some p → f x = some p) : refs S g p ≤ refs S f p :=
  Finset.card_le_card fun x hx => by
    rw [Finset.mem_filter] at hx ⊢
    exact ⟨hx.1, h x hx.1 hx.2⟩

theorem refs_pos : 0 < refs S f p ↔ ∃ x ∈ S, f x = some p := by
  rw [refs, Finset.card_pos]
  constructor
  · rintro ⟨x, hx⟩
    exact ⟨x, Finset.mem_filter.1 hx⟩
  · rintro ⟨x, hx⟩
    exact ⟨x, Finset.mem_filter.2 hx⟩

theorem refs_eq_zero : refs S f p = 0 ↔ ∀ x ∈ S, f x ≠ some p := by
  rw [← not_iff_not, ← ne_eq, ← Nat.pos_iff_ne_zero, refs_pos]
  simp

variable [DecidableEq σ]

/-- A write to the slot `x`. -/
theorem refs_slot (hx : x ∈ S) (h : ∀ y ∈ S, y ≠ x → g y = f y) :
    refs S g p + (if f x = some p then 1 else 0) = refs S f p + if g x = some p then 1 else 0 := by
  have hsplit : ∀ f : σ → Option π,
      refs S f p = refs (S.erase x) f p + if f x = some p then 1 else 0 := fun f => by
    rw [refs, refs, Finset.filter_erase]
    split
    · rename_i hf
      exact (Finset.card_erase_add_one (Finset.mem_filter.2 ⟨hx, hf⟩)).symm
    · rename_i hf
      have hn : x ∉ S.filter fun x => f x = some p := fun hm => hf (Finset.mem_filter.1 hm).2
      rw [Finset.erase_eq_of_notMem hn, Nat.add_zero]
  have hrest : refs (S.erase x) g p = refs (S.erase x) f p := refs_congr fun y hy => by
    rw [h y (Finset.mem_erase.1 hy).2 (Finset.mem_erase.1 hy).1]
  rw [hsplit g, hsplit f, hrest, Nat.add_right_comm]

/-- An empty slot gets a reference to `q`. -/
theorem refs_set (hx : x ∈ S) (h : ∀ y ∈ S, y ≠ x → g y = f y) (h0 : f x = none)
    (h1 : g x = some q) : refs S g p = refs S f p + if q = p then 1 else 0 := by
  have := refs_slot (p := p) hx h
  simpa [h0, h1] using this

/-- The slot `x`, which refers to `q`, becomes empty. -/
theorem refs_clear (hx : x ∈ S) (h : ∀ y ∈ S, y ≠ x → g y = f y) (h0 : f x = some q)
    (h1 : g x = none) : refs S g p + (if q = p then 1 else 0) = refs S f p := by
  have := refs_slot (p := p) hx h
  simpa [h0, h1] using this

end
