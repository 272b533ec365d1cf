/-
  Hand-off semaphores used as locks.

  A lock is a semaphore with one permit.  A client is outside, waiting in `down`, or inside, and
  `Mutex a own ph` says who owns the permit: a client inside, or one that waits but has been
  handed the permit and is no longer queued.

  * `Mutex.down`, `Mutex.resume`, `Mutex.up`: entering, at once or after a wait, and leaving;
  * `Mutex.exclusive`: one client is inside.
-/
import Ucore.Lib.HandOff
import Mathlib.Logic.Function.Basic

namespace HandOff

/-- Where a client of a lock is. -/
inductive Phase where
  | outside
  | waiting
  | inside
  deriving DecidableEq

variable {P : Type*} {a : Sema P} {own : Option P} {ph : P → Phase} {p q : P}

structure Mutex (a : Sema P) (own : Option P) (ph : P → Phase) : Prop where
  value : a.value = if own.isSome then 0 else 1
  queued : ∀ p ∈ a.queue, ph p = .waiting
  nodup : a.queue.Nodup
  idle : own = none → a.queue = []
  owner : ∀ p, own = some p ↔ ph p = .inside ∨ (ph p = .waiting ∧ p ∉ a.queue)

namespace Mutex

theorem init : Mutex (⟨1, []⟩ : Sema P) none fun _ => .outside :=
  ⟨rfl, by simp, List.nodup_nil, fun _ => rfl, by simp⟩

theorem inside (m : Mutex a own ph) (hp : ph p = .inside) : own = some p :=
  (m.owner p).2 (Or.inl hp)

/-- **Mutual exclusion.** -/
theorem exclusive (m : Mutex a own ph) (hp : ph p = .inside) (hq : ph q = .inside) : p = q :=
  Option.some.inj ((m.inside hp).symm.trans (m.inside hq))

variable [DecidableEq P]

theorem down (m : Mutex a own ph) (hp : ph p = .outside) :
    Mutex (a.down p).1 (if 0 < a.value then some p else own)
      (Function.update ph p (if 0 < a.value then .inside else .waiting)) := by
  obtain ⟨hv, hq, hnd, hi, ho⟩ := m
  have hpq : p ∉ a.queue := fun h => by rw [hq p h] at hp; cases hp
  simp only [Sema.down]
  split_ifs with h0
  · cases own with
    | some q => simp [hv] at h0
    | none =>
      refine ⟨by simp [hv], fun q hqq => ?_, hnd, by simp, fun q => ?_⟩
      · have : q ≠ p := by rintro rfl; exact hpq hqq
        simpa [Function.update_of_ne this] using hq q hqq
      · by_cases hqp : q = p
        · subst hqp; simp
        · have := ho q
          simp only [reduceCtorEq, false_iff] at this
          simp [Function.update_of_ne hqp, this, Ne.symm hqp]
  · cases own with
    | none => simp [hv] at h0
    | some o =>
      refine ⟨hv, fun q hqq => ?_, List.nodup_append.2 ⟨hnd, by simp, ?_⟩, by simp, fun q => ?_⟩
      · rcases List.mem_append.1 hqq with h | h
        · have : q ≠ p := by rintro rfl; exact hpq h
          simpa [Function.update_of_ne this] using hq q h
        · obtain rfl := List.mem_singleton.1 h
          simp
      · intro x hx y hy
        obtain rfl := List.mem_singleton.1 hy
        rintro rfl; exact hpq hx
      · by_cases hqp : q = p
        · subst hqp; simp [ho, hp]
        · simp [hqp, ho]

/-- A client that has been handed the permit goes in. -/
theorem resume (m : Mutex a own ph) (hp : ph p = .waiting) (hq : p ∉ a.queue) :
    Mutex a own (Function.update ph p .inside) := by
  obtain ⟨hv, hqd, hnd, hi, ho⟩ := m
  refine ⟨hv, fun q hqq => ?_, hnd, hi, fun q => ?_⟩
  · have : q ≠ p := by rintro rfl; exact hq hqq
    rw [Function.update_of_ne this]; exact hqd q hqq
  · by_cases hqp : q = p
    · subst hqp; simp [ho, hp, hq]
    · rw [Function.update_of_ne hqp]; exact ho q

theorem up (m : Mutex a own ph) (hp : ph p = .inside) :
    Mutex a.up.1 a.queue.head? (Function.update ph p .outside) := by
  have hown := m.inside hp
  obtain ⟨hv, hqd, hnd, hi, ho⟩ := m
  subst hown
  have hpq : p ∉ a.queue := fun h => by rw [hqd p h] at hp; cases hp
  -- nobody but `p` was inside, or on the way in
  have hother : ∀ q, q ≠ p → ph q ≠ .inside ∧ (ph q = .waiting → q ∈ a.queue) := fun q hqp => by
    have := (not_congr (ho q)).1 fun h => hqp (Option.some.inj h).symm
    push Not at this
    exact this
  cases h : a.queue with
  | nil =>
    simp only [Sema.up, h]
    refine ⟨by simp [hv], by simp, by simp, by simp, fun q => ?_⟩
    by_cases hqp : q = p
    · subst hqp; simp
    · have := hother q hqp
      simp only [h, List.not_mem_nil] at this
      simpa [Function.update_of_ne hqp] using this
  | cons w ws =>
    simp only [Sema.up, h]
    rw [h] at hnd hpq
    refine ⟨by simp [hv], fun q hqq => ?_, (List.nodup_cons.1 hnd).2, by simp, fun q => ?_⟩
    · have : q ≠ p := by rintro rfl; exact hpq (List.mem_cons_of_mem _ hqq)
      rw [Function.update_of_ne this]
      exact hqd q (h ▸ List.mem_cons_of_mem _ hqq)
    · by_cases hqp : q = p
      · subst hqp
        have : w ≠ q := by rintro rfl; simp at hpq
        simp [this]
      · have hq' := hother q hqp
        rw [h] at hq'
        have hw := hqd w (by simp [h])
        simp only [List.head?_cons, Option.some.injEq, Function.update_of_ne hqp, hq'.1, false_or]
        constructor
        · rintro rfl
          exact ⟨hw, (List.nodup_cons.1 hnd).1⟩
        · rintro ⟨h1, h2⟩
          rcases List.mem_cons.1 (hq'.2 h1) with rfl | h3
          exacts [rfl, absurd h3 h2]

end Mutex

end HandOff
