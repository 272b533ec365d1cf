/-
  Taking turns around a list.

  `turn ps c` are the elements of `ps` in the order in which they are met on the way round the list
  from `c` on, which comes last, or from the front of the list.  A scheduler that goes to the next
  element met that is ready lets them take turns:

  * `picks_eq_take`: the next elements to be picked are the ready ones in the order of the way;
  * `picks_perm`: as many picks as elements are ready pick each of them once.
-/
import Mathlib.Data.List.Basic
import Mathlib.Data.List.Perm.Basic
import Mathlib.Data.List.Nodup

namespace RoundRobin

variable {α : Type*} [DecidableEq α]

def turn (ps : List α) : Option α → List α
  | none => ps
  | some c => (ps.dropWhile (· ≠ c)).tail ++ ps.takeWhile (· ≠ c) ++ [c]

/-- The next `n` elements to be picked. -/
def picks (ready : α → Bool) (ps : List α) : ℕ → Option α → List α
  | 0, _ => []
  | n + 1, c =>
    match (turn ps c).find? ready with
    | none => []
    | some a => a :: picks ready ps n (some a)

variable {ready : α → Bool} {ps us vs xs ys rest : List α} {c : Option α} {a b : α} {n : ℕ}

theorem turn_append (h : (xs ++ a :: ys).Nodup) :
    turn (xs ++ a :: ys) (some a) = ys ++ xs ++ [a] := by
  have hx : ∀ x ∈ xs, decide (x ≠ a) = true := fun x hx => decide_eq_true fun e => by
    rw [List.nodup_middle, List.nodup_cons] at h
    exact h.1 (List.mem_append_left _ (e ▸ hx))
  rw [turn, List.dropWhile_append_of_pos hx, List.takeWhile_append_of_pos hx,
    List.dropWhile_cons_of_neg (by simp), List.takeWhile_cons_of_neg (by simp), List.append_nil,
    List.tail_cons]

/-- Where the list begins does not matter. -/
theorem turn_comm (h : (xs ++ ys).Nodup) (ha : a ∈ xs ++ ys) :
    turn (xs ++ ys) (some a) = turn (ys ++ xs) (some a) := by
  have key : ∀ {xs ys : List α}, (xs ++ ys).Nodup → a ∈ xs →
      turn (xs ++ ys) (some a) = turn (ys ++ xs) (some a) := by
    intro xs ys h ha
    obtain ⟨x₁, x₂, rfl⟩ := List.append_of_mem ha
    have h₁ : (x₁ ++ a :: (x₂ ++ ys)).Nodup := by simpa using h
    have h₂ : (ys ++ x₁ ++ a :: x₂).Nodup := by simpa using List.nodup_append_comm.1 h
    have hl : x₁ ++ a :: x₂ ++ ys = x₁ ++ a :: (x₂ ++ ys) := by simp
    have hr : ys ++ (x₁ ++ a :: x₂) = ys ++ x₁ ++ a :: x₂ := by simp
    rw [hl, hr, turn_append h₁, turn_append h₂]
    simp
  obtain ha | ha := List.mem_append.1 ha
  · exact key h ha
  · exact (key (List.nodup_append_comm.1 h) ha).symm

theorem turn_perm (h : ps.Nodup) (hc : ∀ b ∈ c, b ∈ ps) : (turn ps c).Perm ps := by
  cases c with
  | none => exact List.Perm.refl _
  | some b =>
    obtain ⟨xs, ys, rfl⟩ := List.append_of_mem (hc b rfl)
    rw [turn_append h, List.append_assoc]
    exact List.perm_append_comm.trans (by simp)

/-- The way from an element that is met on the way. -/
theorem turn_some_of_turn (h : ps.Nodup) (hc : ∀ b ∈ c, b ∈ ps) (ht : turn ps c = us ++ a :: vs) :
    turn ps (some a) = vs ++ us ++ [a] := by
  have hperm := turn_perm h hc
  have hnd : (us ++ a :: vs).Nodup := ht ▸ hperm.nodup_iff.2 h
  have ha : a ∈ ps := hperm.mem_iff.1 (by simp [ht])
  cases c with
  | none =>
    obtain rfl : ps = us ++ a :: vs := ht
    exact turn_append h
  | some b =>
    obtain ⟨xs, ys, rfl⟩ := List.append_of_mem (hc b rfl)
    rw [turn_append h, List.append_assoc] at ht
    have hps : xs ++ b :: ys = xs ++ [b] ++ ys := by simp
    rw [hps] at h ha ⊢
    rw [turn_comm h ha, ht, turn_append hnd]

/-- After a pick the ready elements are met in the same order, the picked one last. -/
theorem filter_turn (h : ps.Nodup) (hc : ∀ b ∈ c, b ∈ ps)
    (hf : (turn ps c).filter ready = a :: rest) :
      (turn ps (some a)).filter ready = rest ++ [a] := by
  obtain ⟨us, vs, ht, hus, ha, hvs⟩ := List.filter_eq_cons_iff.1 hf
  have hnil : us.filter ready = [] := List.filter_eq_nil_iff.2 hus
  rw [turn_some_of_turn h hc ht, List.filter_append, List.filter_append, hvs, hnil,
    List.append_nil, List.filter_cons_of_pos ha, List.filter_nil]

theorem picks_eq_take (h : ps.Nodup) : ∀ {n : ℕ} {c : Option α}, (∀ b ∈ c, b ∈ ps) →
    n ≤ ((turn ps c).filter ready).length →
    picks ready ps n c = ((turn ps c).filter ready).take n
  | 0, _, _, _ => rfl
  | n + 1, c, hc, hn => by
    cases hf : (turn ps c).filter ready with
    | nil => simp [hf] at hn
    | cons a rest =>
      have hfind : (turn ps c).find? ready = some a := by
        rw [← List.head?_filter, hf, List.head?_cons]
      have ha : ∀ b ∈ some a, b ∈ ps := fun b hb => by
        cases hb
        have hmem : a ∈ (turn ps c).filter ready := by simp [hf]
        exact (turn_perm h hc).mem_iff.1 (List.mem_of_mem_filter hmem)
      have hnext := filter_turn h hc hf
      have hle : n ≤ rest.length := by
        rw [hf, List.length_cons] at hn
        omega
      have ih : picks ready ps n (some a) = _ := picks_eq_take h ha (by rw [hnext]; simp; omega)
      rw [picks, hfind]
      dsimp only
      rw [List.take_succ_cons, ih, hnext, List.take_append_of_le_length hle]

/-- **As many picks as elements are ready pick each of them once.** -/
theorem picks_perm (h : ps.Nodup) (hc : ∀ b ∈ c, b ∈ ps) (hn : n = (ps.filter ready).length) :
    (picks ready ps n c).Perm (ps.filter ready) := by
  have hperm := (turn_perm h hc).filter ready
  have hlen := hperm.length_eq
  rw [picks_eq_take h hc (by omega), List.take_of_length_le (by omega)]
  exact hperm

end RoundRobin
