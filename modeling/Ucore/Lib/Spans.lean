/-
  Memory divided into spans.

  `B a` is the length of the span that starts at `a`, and 0 if none does.

  * `Apart.unique`: a point is in at most one span;
  * `Apart.cut`, `Apart.join`, `Apart.add`: spans that are divided, joined and added, and the points
    that are in one of them;
  * `Apart.card`: as many points as the lengths say.
-/
import Mathlib.Algebra.BigOperators.Group.Finset.Basic
import Mathlib.Order.Interval.Finset.Nat
import Mathlib.Tactic.Common

namespace Spans

variable {B B' : ℕ → ℕ} {a b n m p : ℕ}

def Has (B : ℕ → ℕ) (a p : ℕ) : Prop := a ≤ p ∧ p < a + B a

def Covered (B : ℕ → ℕ) (p : ℕ) : Prop := ∃ a, Has B a p

/-- The spans are disjoint. -/
def Apart (B : ℕ → ℕ) : Prop :=
  ∀ a b, 0 < B a → 0 < B b → a ≠ b → a + B a ≤ b ∨ b + B b ≤ a

theorem Has.pos (h : Has B a p) : 0 < B a := by
  obtain ⟨h1, h2⟩ := h
  omega

theorem has_start (h : 0 < B a) : Has B a a := ⟨Nat.le_refl _, by omega⟩

namespace Apart

theorem unique (h : Apart B) (ha : Has B a p) (hb : Has B b p) : a = b := by
  by_contra hne
  obtain ⟨ha1, ha2⟩ := ha
  obtain ⟨hb1, hb2⟩ := hb
  have := h a b (by omega) (by omega) hne
  omega

/-- No span starts inside another one. -/
theorem none_inside (h : Apart B) (ha : Has B a p) (hne : p ≠ a) : B p = 0 := by
  by_contra hp
  exact hne (h.unique (has_start (Nat.pos_of_ne_zero hp)) ha)

/-! ## Changes -/

/-- The first `m` points of the span at `a` become one, and the rest another one. -/
theorem cut (h : Apart B) (hm : 0 < m) (hlt : m < B a) (ha : B' a = m)
    (hb : B' (a + m) = B a - m) (ho : ∀ x, x ≠ a → x ≠ a + m → B' x = B x) :
    Apart B' ∧ ∀ p, Covered B' p ↔ Covered B p := by
  have hnone : B (a + m) = 0 := h.none_inside (a := a) ⟨by omega, by omega⟩ (by omega)
  have hapart : ∀ x, x ≠ a → 0 < B x → x + B x ≤ a ∨ a + B a ≤ x := fun x hx hpos =>
    h x a hpos (by omega) hx
  refine ⟨fun x y hx hy hne => ?_, fun p => ⟨?_, ?_⟩⟩
  · by_cases exa : x = a
    · subst exa
      by_cases eyb : y = x + m
      · subst eyb
        omega
      · rw [ho y (Ne.symm hne) eyb] at hy ⊢
        have := hapart y (Ne.symm hne) hy
        omega
    · by_cases exb : x = a + m
      · subst exb
        by_cases eya : y = a
        · subst eya
          omega
        · rw [ho y eya (Ne.symm hne)] at hy ⊢
          have := hapart y eya hy
          omega
      · rw [ho x exa exb] at hx ⊢
        have hxa := hapart x exa hx
        by_cases eya : y = a
        · subst eya
          omega
        · by_cases eyb : y = a + m
          · subst eyb
            omega
          · rw [ho y eya eyb] at hy ⊢
            exact h x y hx hy hne
  · rintro ⟨x, h1, h2⟩
    by_cases exa : x = a
    · exact ⟨a, by omega, by rw [exa, ha] at h2; omega⟩
    · by_cases exb : x = a + m
      · exact ⟨a, by omega, by rw [exb, hb] at h2; omega⟩
      · exact ⟨x, h1, by rw [ho x exa exb] at h2; exact h2⟩
  · rintro ⟨x, h1, h2⟩
    by_cases exa : x = a
    · subst exa
      by_cases hp : p < x + m
      · exact ⟨x, h1, by omega⟩
      · exact ⟨x + m, by omega, by omega⟩
    · by_cases exb : x = a + m
      · rw [exb, hnone] at h2
        omega
      · exact ⟨x, h1, by rw [ho x exa exb]; exact h2⟩

/-- Two spans that touch become one. -/
theorem join (h : Apart B) (hpa : 0 < B a) (hpb : 0 < B b) (ht : a + B a = b)
    (ha : B' a = B a + B b) (hb : B' b = 0) (ho : ∀ x, x ≠ a → x ≠ b → B' x = B x) :
    Apart B' ∧ ∀ p, Covered B' p ↔ Covered B p := by
  have hx' : ∀ x, x ≠ a → 0 < B' x → x ≠ b ∧ B' x = B x ∧ (x + B x ≤ a ∨ b + B b ≤ x) :=
    fun x hxa hx => by
      have hxb : x ≠ b := fun e => by rw [e, hb] at hx; omega
      rw [ho x hxa hxb] at hx
      have h1 := h x a hx hpa hxa
      have h2 := h x b hx hpb hxb
      exact ⟨hxb, ho x hxa hxb, by omega⟩
  refine ⟨fun x y hx hy hne => ?_, fun p => ⟨?_, ?_⟩⟩
  · by_cases exa : x = a
    · subst exa
      obtain ⟨-, e, hy'⟩ := hx' y (Ne.symm hne) hy
      omega
    · obtain ⟨-, e, hxa⟩ := hx' x exa hx
      by_cases eya : y = a
      · subst eya
        omega
      · obtain ⟨-, e', -⟩ := hx' y eya hy
        rw [e] at hx ⊢
        rw [e'] at hy ⊢
        exact h x y hx hy hne
  · rintro ⟨x, h1, h2⟩
    by_cases exa : x = a
    · subst exa
      by_cases hp : p < b
      · exact ⟨x, h1, by omega⟩
      · exact ⟨b, by omega, by omega⟩
    · obtain ⟨-, e, -⟩ := hx' x exa (by omega)
      exact ⟨x, h1, e ▸ h2⟩
  · rintro ⟨x, h1, h2⟩
    by_cases exa : x = a
    · exact ⟨a, by omega, by rw [exa] at h2; omega⟩
    · by_cases exb : x = b
      · rw [exb] at h1 h2
        exact ⟨a, by omega, by omega⟩
      · exact ⟨x, h1, by rw [ho x exa exb]; exact h2⟩

/-- A span where there was none. -/
theorem add (h : Apart B) (hfree : ∀ p, b ≤ p → p < b + n → ¬Covered B p) (hn : 0 < n)
    (hb : B' b = n) (ho : ∀ x, x ≠ b → B' x = B x) :
    Apart B' ∧ ∀ p, Covered B' p ↔ Covered B p ∨ (b ≤ p ∧ p < b + n) := by
  have hx' : ∀ x, 0 < B x → x + B x ≤ b ∨ b + n ≤ x := fun x hx => by
    by_contra hlt
    by_cases hxb : x ≤ b
    · exact hfree b (Nat.le_refl _) (by omega) ⟨x, hxb, by omega⟩
    · exact hfree x (by omega) (by omega) ⟨x, Nat.le_refl _, by omega⟩
  have hnone : B b = 0 := by
    by_contra hne
    have := hx' b (Nat.pos_of_ne_zero hne)
    omega
  refine ⟨fun x y hx hy hne => ?_, fun p => ⟨?_, ?_⟩⟩
  · by_cases exb : x = b
    · subst exb
      rw [ho y (Ne.symm hne)] at hy ⊢
      have := hx' y hy
      omega
    · rw [ho x exb] at hx ⊢
      by_cases eyb : y = b
      · subst eyb
        have := hx' x hx
        omega
      · rw [ho y eyb] at hy ⊢
        exact h x y hx hy hne
  · rintro ⟨x, h1, h2⟩
    by_cases exb : x = b
    · subst exb
      exact .inr ⟨h1, by omega⟩
    · exact .inl ⟨x, h1, by rw [ho x exb] at h2; exact h2⟩
  · rintro (⟨x, h1, h2⟩ | ⟨h1, h2⟩)
    · by_cases exb : x = b
      · rw [exb, hnone] at h2
        omega
      · exact ⟨x, h1, by rw [ho x exb]; exact h2⟩
    · exact ⟨b, h1, by omega⟩

/-- The points of a finite set divided into spans. -/
theorem card {M : Finset ℕ} (h : Apart B) (hM : ∀ p, Covered B p ↔ p ∈ M) :
    M.card = ∑ a ∈ M, B a := by
  have hd : (M : Set ℕ).PairwiseDisjoint fun a => Finset.Ico a (a + B a) := by
    intro a _ b _ hne
    refine Finset.disjoint_left.2 fun p hp hq => hne ?_
    exact h.unique (p := p) (Finset.mem_Ico.1 hp) (Finset.mem_Ico.1 hq)
  have hu : M = M.biUnion fun a => Finset.Ico a (a + B a) := by
    ext p
    rw [Finset.mem_biUnion]
    constructor
    · intro hp
      obtain ⟨a, ha⟩ := (hM p).2 hp
      exact ⟨a, (hM a).1 ⟨a, has_start ha.pos⟩, Finset.mem_Ico.2 ha⟩
    · rintro ⟨a, -, hp⟩
      exact (hM p).1 ⟨a, Finset.mem_Ico.1 hp⟩
  have hc := Finset.card_biUnion hd
  rw [← hu] at hc
  rw [hc]
  simp

end Apart

end Spans
