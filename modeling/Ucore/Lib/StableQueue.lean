/-
  Queues that are sorted by a key, and stable.

  `StableQueue key q w`: `q` are the elements of `w` in the order of their keys, and those with the
  same key are in the order in which they are in `w`.

  * `StableQueue.insert`: an element comes in behind those with the same key;
  * `StableQueue.pop`, `StableQueue.head_le`, `StableQueue.head_first`: the first element leaves;
    its key is the least one, and it is the first in `w` with this key.
-/
import Mathlib.Data.List.Perm.Basic
import Mathlib.Data.List.Count
import Mathlib.Order.Lattice

structure StableQueue {α β : Type*} [LinearOrder β] (key : α → β) (q w : List α) : Prop where
  sorted : q.Pairwise fun a b => key a ≤ key b
  stable : ∀ k, q.filter (key · = k) = w.filter (key · = k)

namespace StableQueue

variable {α β : Type*} [LinearOrder β] {key key' : α → β} {q w xs ys : List α} {a b : α}

theorem nil : StableQueue key [] [] := ⟨List.Pairwise.nil, fun _ => rfl⟩

theorem mem_iff (h : StableQueue key q w) : a ∈ q ↔ a ∈ w := by
  have hf := congrArg (a ∈ ·) (h.stable (key a))
  simpa using hf

theorem perm [DecidableEq α] (h : StableQueue key q w) : q.Perm w := by
  refine List.perm_iff_count.2 fun a => ?_
  have hf := congrArg (List.count a) (h.stable (key a))
  rwa [List.count_filter (by simp), List.count_filter (by simp)] at hf

/-- Only the keys of the elements matter. -/
theorem congr (h : StableQueue key q w) (hk : ∀ a ∈ w, key' a = key a) : StableQueue key' q w := by
  have hkq : ∀ a ∈ q, key' a = key a := fun a ha => hk a (h.mem_iff.1 ha)
  refine ⟨h.sorted.imp_of_mem fun {a b} ha hb hab => ?_, fun k => ?_⟩
  · rwa [hkq a ha, hkq b hb]
  · have hq : q.filter (key' · = k) = q.filter (key · = k) :=
      List.filter_congr fun a ha => by rw [hkq a ha]
    have hw : w.filter (key' · = k) = w.filter (key · = k) :=
      List.filter_congr fun a ha => by rw [hk a ha]
    rw [hq, hw, h.stable]

theorem insert (h : StableQueue key (xs ++ ys) w) (hx : ∀ b ∈ xs, key b ≤ key a)
    (hy : ∀ b ∈ ys, key a < key b) : StableQueue key (xs ++ a :: ys) (w ++ [a]) := by
  refine ⟨?_, fun k => ?_⟩
  · obtain ⟨h1, h2, h3⟩ := List.pairwise_append.1 h.sorted
    refine List.pairwise_append.2 ⟨h1, List.pairwise_cons.2 ⟨fun b hb => (hy b hb).le, h2⟩, ?_⟩
    intro b hb c hc
    obtain rfl | hc := List.mem_cons.1 hc
    · exact hx b hb
    · exact h3 b hb c hc
  · have hw := h.stable k
    rw [List.filter_append] at hw ⊢
    rw [List.filter_append, ← hw]
    by_cases hk : key a = k
    · -- no element behind has the same key
      have hnil : ys.filter (key · = k) = [] := by
        refine List.filter_eq_nil_iff.2 fun b hb => ?_
        have hlt := hy b hb
        rw [hk] at hlt
        simpa using hlt.ne'
      rw [List.filter_cons_of_pos (by simpa using hk), hnil, List.append_nil,
        List.filter_cons_of_pos (by simpa using hk), List.filter_nil]
    · rw [List.filter_cons_of_neg (by simpa using hk), List.filter_cons_of_neg (by simpa using hk),
        List.filter_nil, List.append_nil]

theorem head_le (h : StableQueue key (a :: q) w) (hb : b ∈ w) : key a ≤ key b := by
  obtain rfl | hb := List.mem_cons.1 (h.mem_iff.2 hb)
  · exact le_rfl
  · exact (List.pairwise_cons.1 h.sorted).1 b hb

theorem head_first (h : StableQueue key (a :: q) w) :
    (w.filter (key · = key a)).head? = some a := by
  rw [← h.stable, List.filter_cons_of_pos (by simp), List.head?_cons]

theorem pop [DecidableEq α] (h : StableQueue key (a :: q) w) : StableQueue key q (w.erase a) := by
  refine ⟨(List.pairwise_cons.1 h.sorted).2, fun k => ?_⟩
  rw [← List.erase_filter, ← h.stable]
  by_cases hk : key a = k
  · rw [List.filter_cons_of_pos (by simpa using hk), List.erase_cons_head]
  · rw [List.filter_cons_of_neg (by simpa using hk), List.erase_of_not_mem]
    intro ha
    exact hk (by simpa using (List.mem_filter.1 ha).2)

end StableQueue
