/-
  Philosophers at the vertices of a graph, whose neighbours share a fork.

  A philosopher thinks, is hungry or eats.  `Apart G f`: no two neighbours eat.  `Served G f w`: a
  hungry philosopher has a neighbour that eats, unless somebody is still to look at it; `w i` are
  the philosophers that `i` is to look at.

  * `Apart.eat`, `Apart.stop`: eating with both forks, and anything else;
  * `Served.hungry`, `Served.think`, `Served.eat`, `Served.pass`: who is to be looked at after each
    change.
-/
import Mathlib.Combinatorics.SimpleGraph.Basic
import Mathlib.Data.Set.Lattice

namespace Dining

inductive Mood where
  | thinking
  | hungry
  | eating
  deriving DecidableEq

variable {V : Type*} {G : SimpleGraph V} {f : V → Mood} {w : V → Set V} {i t : V} {x : Set V}
  {a : Mood}

/-- No neighbour eats. -/
def Free (G : SimpleGraph V) (f : V → Mood) (i : V) : Prop := ∀ j, G.Adj i j → f j ≠ .eating

def Apart (G : SimpleGraph V) (f : V → Mood) : Prop := ∀ i, f i = .eating → Free G f i

def Served (G : SimpleGraph V) (f : V → Mood) (w : V → Set V) : Prop :=
  ∀ i, f i = .hungry → Free G f i → ∃ t, i ∈ w t

variable [DecidableEq V]

/-! ## Neighbours do not eat together -/

theorem Apart.eat (h : Apart G f) (hi : Free G f i) : Apart G (Function.update f i .eating) := by
  intro j hj k hk
  by_cases hji : j = i
  · subst hji
    rw [Function.update_of_ne hk.ne']
    exact hi k hk
  · rw [Function.update_of_ne hji] at hj
    have hki : k ≠ i := by rintro rfl; exact hi j hk.symm hj
    rw [Function.update_of_ne hki]
    exact h j hj k hk

theorem Apart.stop (h : Apart G f) (ha : a ≠ .eating) : Apart G (Function.update f i a) := by
  intro j hj k hk
  have hji : j ≠ i := by rintro rfl; simp [ha] at hj
  rw [Function.update_of_ne hji] at hj
  by_cases hki : k = i
  · subst hki; simpa using ha
  · rw [Function.update_of_ne hki]
    exact h j hj k hk

/-! ## The hungry -/

/-- One philosopher's list changes; those in `y` are dropped from it. -/
theorem left_over {y : Set V} (hx : w t \ y ⊆ x) (hi : i ∉ y) (h : ∃ u, i ∈ w u) :
    ∃ u, i ∈ Function.update w t x u := by
  obtain ⟨u, hu⟩ := h
  by_cases hut : u = t
  · subst hut; exact ⟨u, by simpa using hx ⟨hu, hi⟩⟩
  · exact ⟨u, by simpa [hut] using hu⟩

theorem Served.move (h : Served G f w) (hx : w t ⊆ x) : Served G f (Function.update w t x) :=
  fun i hi hf => left_over (y := ∅) (by simpa using hx) (by simp) (h i hi hf)

/-- `i` has been looked at, and cannot eat. -/
theorem Served.pass (h : Served G f w) (hi : ¬ (f i = .hungry ∧ Free G f i)) (hx : w t \ {i} ⊆ x) :
    Served G f (Function.update w t x) :=
  fun j hj hf => left_over hx (by rintro rfl; exact hi ⟨hj, hf⟩) (h j hj hf)

theorem Served.eat (h : Served G f w) (hx : w t \ {i} ⊆ x) :
    Served G (Function.update f i .eating) (Function.update w t x) := by
  intro j hj hf
  have hji : j ≠ i := by rintro rfl; simp at hj
  rw [Function.update_of_ne hji] at hj
  refine left_over hx hji (h j hj fun k hk he => hf k hk ?_)
  by_cases hki : k = i
  · subst hki; simp
  · rwa [Function.update_of_ne hki]

theorem Served.hungry (h : Served G f w) (ht : f t ≠ .eating) (hx : insert t (w t) ⊆ x) :
    Served G (Function.update f t .hungry) (Function.update w t x) := by
  intro j hj hf
  by_cases hjt : j = t
  · subst hjt; exact ⟨j, by simpa using hx (Set.mem_insert j _)⟩
  · rw [Function.update_of_ne hjt] at hj
    refine left_over (y := ∅) (fun k hk => hx (Set.mem_insert_of_mem _ hk.1)) (by simp)
      (h j hj fun k hk he => hf k hk ?_)
    have hkt : k ≠ t := by rintro rfl; exact ht he
    rwa [Function.update_of_ne hkt]

/-- Whoever stops looks at its neighbours. -/
theorem Served.think (h : Served G f w) (hx : w t ∪ G.neighborSet t ⊆ x) :
    Served G (Function.update f t .thinking) (Function.update w t x) := by
  intro j hj hf
  have hjt : j ≠ t := by rintro rfl; simp at hj
  rw [Function.update_of_ne hjt] at hj
  by_cases hadj : G.Adj t j
  · exact ⟨t, by simpa using hx (Or.inr hadj)⟩
  · refine left_over (y := ∅) (fun k hk => hx (Or.inl hk.1)) (by simp)
      (h j hj fun k hk he => hf k hk ?_)
    have hkt : k ≠ t := by rintro rfl; exact hadj hk.symm
    rwa [Function.update_of_ne hkt]

end Dining
