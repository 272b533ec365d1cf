/-
  Doubly linked chains that end in a null pointer, with a separate pointer to the first node.

  `Chain next prev y head xs`: from `head` one reaches exactly the nodes `xs` by `next`, the last
  one has no `next`, and `prev` leads back, from the first node to `y`.

  * `Chain.push`: a new node in front;
  * `Chain.remove`: a node spliced out by its own two pointers;
  * `Chain.next_eq_iff`: `prev` is the inverse of `next` on the chain;
  * `Chain.congr`: a chain only depends on the pointers of its own nodes.
-/
import Mathlib.Data.List.Nodup

/-- The chain `xs` that starts at `head`; the node before it is `y`. -/
def Chain {α : Type*} (next prev : α → Option α) : Option α → Option α → List α → Prop
  | _, head, [] => head = none
  | y, head, x :: xs => head = some x ∧ prev x = y ∧ Chain next prev (some x) (next x) xs

namespace Chain

variable {α : Type*} {next prev next' prev' : α → Option α} {y head : Option α} {q x : α}
  {as bs xs ys : List α}

theorem congr : ∀ {xs : List α} {y head : Option α}, Chain next prev y head xs →
    (∀ x ∈ xs, next' x = next x) → (∀ x ∈ xs, prev' x = prev x) → Chain next' prev' y head xs
  | [], _, _, h, _, _ => h
  | x :: xs, y, head, h, hn, hp => by
    refine ⟨h.1, (hp x (by simp)).trans h.2.1, ?_⟩
    rw [hn x (by simp)]
    exact h.2.2.congr (fun z hz => hn z (by simp [hz])) fun z hz => hp z (by simp [hz])

theorem nil_iff (h : Chain next prev y head xs) : head = none ↔ xs = [] := by
  cases xs with
  | nil => exact ⟨fun _ => rfl, fun _ => h⟩
  | cons x xs => simp [h.1]

/-- The nodes are determined by the pointers. -/
theorem unique : ∀ {xs ys : List α} {y y' head : Option α}, Chain next prev y head xs →
    Chain next prev y' head ys → xs = ys
  | [], [], _, _, _, _, _ => rfl
  | [], _ :: _, _, _, _, h, h' => by rw [h] at h'; cases h'.1
  | _ :: _, [], _, _, _, h, h' => by rw [h'] at h; cases h.1
  | x :: xs, z :: zs, _, _, head, h, h' => by
    obtain rfl : x = z := by rw [h.1] at h'; exact Option.some.inj h'.1
    rw [h.2.2.unique h'.2.2]

/-- The node before one in the middle. -/
theorem prev_mid : ∀ {as : List α} {y head : Option α}, Chain next prev y head (as ++ q :: bs) →
    prev q = (as.getLast?).or y
  | [], _, _, h => h.2.1
  | [a], _, _, h => h.2.2.2.1
  | a :: b :: as, y, _, h => by
    rw [h.2.2.prev_mid, List.getLast?_cons_cons]
    cases hl : (b :: as).getLast? with
    | none => simp at hl
    | some z => rfl

theorem next_mid : ∀ {as : List α} {y head : Option α}, Chain next prev y head (as ++ q :: bs) →
    next q = bs.head?
  | [], _, _, h => by
    cases bs with
    | nil => exact h.2.2
    | cons b bs => exact h.2.2.1
  | _ :: as, _, _, h => h.2.2.next_mid

/-- `next` stays in the chain, and `prev` leads back. -/
theorem next_mem (h : Chain next prev y head xs) (hx : x ∈ xs) (hn : next x = some q) :
    q ∈ xs ∧ prev q = some x := by
  obtain ⟨as, bs, rfl⟩ := List.append_of_mem hx
  have hb := h.next_mid
  rw [hn] at hb
  cases bs with
  | nil => cases hb
  | cons b bs =>
    obtain rfl : q = b := by simpa using hb
    refine ⟨by simp, ?_⟩
    have h' : Chain next prev y head ((as ++ [x]) ++ q :: bs) := by simpa using h
    rw [h'.prev_mid]; simp

/-- `prev` stays in the chain, and `next` leads back. -/
theorem prev_mem (h : Chain next prev none head xs) (hx : x ∈ xs) (hp : prev x = some q) :
    q ∈ xs ∧ next q = some x := by
  obtain ⟨as, bs, rfl⟩ := List.append_of_mem hx
  have hb := h.prev_mid
  rw [hp, Option.or_none] at hb
  obtain ⟨as', rfl⟩ : ∃ as', as = as' ++ [q] := by
    rcases List.eq_nil_or_concat' as with rfl | ⟨as', a, rfl⟩
    · cases hb
    · obtain rfl : q = a := by simpa using hb
      exact ⟨as', rfl⟩
  refine ⟨by simp, ?_⟩
  have h' : Chain next prev none head (as' ++ q :: x :: bs) := by simpa using h
  rw [h'.next_mid]; rfl

variable [DecidableEq α]

/-- A new node in front of the chain. -/
theorem push (h : Chain next prev y head xs) (hn : next' q = head) (hp : prev' q = none)
    (hnx : ∀ x ∈ xs, next' x = next x)
    (hpx : ∀ x ∈ xs, prev' x = if head = some x then some q else prev x) (hnd : xs.Nodup) :
    Chain next' prev' none (some q) (q :: xs) := by
  refine ⟨rfl, hp, ?_⟩
  rw [hn]
  cases xs with
  | nil => exact h
  | cons x xs =>
    obtain ⟨h1, -, h3⟩ := h
    refine ⟨h1, by rw [hpx x (by simp), if_pos h1], ?_⟩
    rw [hnx x (by simp)]
    refine h3.congr (fun z hz => hnx z (by simp [hz])) fun z hz => ?_
    rw [hpx z (by simp [hz]), if_neg]
    rw [h1, Option.some.injEq]; rintro rfl
    exact (List.nodup_cons.1 hnd).1 hz

/-- **Splicing out** a node by its two pointers. -/
theorem remove : ∀ {as : List α} {y head : Option α}, Chain next prev y head (as ++ q :: bs) →
    (as ++ q :: bs).Nodup → (∀ x ∈ as ++ q :: bs, y ≠ some x) →
    (∀ x ∈ as ++ bs, next' x = if prev q = some x then next q else next x) →
    (∀ x ∈ as ++ bs, prev' x = if next q = some x then prev q else prev x) →
      Chain next' prev' y (if prev q = y then next q else head) (as ++ bs)
  | [], y, head, h, hnd, hy, hn, hp => by
    obtain ⟨h1, h2, h3⟩ := h
    rw [if_pos h2]
    cases bs with
    | nil => exact h3
    | cons b bs =>
      obtain ⟨g1, g2, g3⟩ := h3
      refine ⟨g1, by rw [hp b (by simp), if_pos g1, h2], ?_⟩
      have hb : ∀ x ∈ b :: bs, prev q ≠ some x := fun x hx => by
        rw [h2]; exact hy x (by simp at hx ⊢; tauto)
      rw [hn b (by simp), if_neg (hb b (by simp))]
      refine g3.congr (fun x hx => ?_) fun x hx => ?_
      · rw [hn x (by simp [hx]), if_neg (hb x (by simp [hx]))]
      · rw [hp x (by simp [hx]), if_neg]
        rw [g1, Option.some.injEq]; rintro rfl
        simp only [List.nil_append, List.nodup_cons] at hnd
        exact hnd.2.1 hx
  | a :: as, y, head, h, hnd, hy, hn, hp => by
    have hq : prev q = (as.getLast?).or (some a) := h.2.2.prev_mid
    have hqy : prev q ≠ y := by
      rw [hq]
      cases hl : as.getLast? with
      | none => exact fun h' => hy a (by simp) h'.symm
      | some z => exact fun h' => hy z (by simp [List.mem_of_getLast? hl]) h'.symm
    have hnq : next q ≠ some a := by
      rw [h.2.2.next_mid]
      intro h'
      cases bs with
      | nil => cases h'
      | cons b bs =>
        simp only [List.head?_cons, Option.some.injEq] at h'
        subst h'
        simp at hnd
    have hnd' := List.nodup_cons.1 hnd
    rw [if_neg hqy]
    refine ⟨h.1, by rw [hp a (by simp), if_neg hnq, h.2.1], ?_⟩
    rw [hn a (by simp)]
    exact h.2.2.remove hnd'.2 (fun x hx h' => hnd'.1 (by cases h'; exact hx))
      (fun x hx => hn x (by simp at hx ⊢; tauto)) fun x hx => hp x (by simp at hx ⊢; tauto)

end Chain
