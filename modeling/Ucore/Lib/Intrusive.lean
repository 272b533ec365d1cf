/-
  Intrusive circular doubly linked lists, over an arbitrary type of nodes.

  A link memory (`Links`) gives every node a `next` and a `prev` field.  `Circ L h xs` says that
  the nodes reached from the head `h` by `next` are exactly `xs`, in this order, that `prev` is
  the inverse of `next` along the way, and that no node occurs twice.

  * `Seg`: a path from one node to another, `Seg.append` cuts it at a node;
  * `Circ.insert`, `Circ.remove`: what linking a node between two neighbours and unlinking a
    node do to the sequence; `Circ.congr`: lists only depend on the links of their own nodes;
  * `Circ.unique`: the sequence is determined by the links; `Circ.next_prev`, `Circ.prev_next`:
    `prev` and `next` are inverse on the whole list.
-/
import Mathlib.Logic.Function.Basic
import Mathlib.Data.List.Basic
import Mathlib.Data.List.Nodup

namespace Intrusive

variable {α : Type*}

/-- The `next` and `prev` fields of all nodes. -/
@[ext]
structure Links (α : Type*) where
  next : α → α
  prev : α → α

namespace Links
variable [DecidableEq α]

/-- `a->next = b`. -/
def setNext (L : Links α) (a b : α) : Links α := { L with next := Function.update L.next a b }

/-- `a->prev = b`. -/
def setPrev (L : Links α) (a b : α) : Links α := { L with prev := Function.update L.prev a b }

@[simp] theorem setNext_prev (L : Links α) (a b : α) : (L.setNext a b).prev = L.prev := rfl

@[simp] theorem setPrev_next (L : Links α) (a b : α) : (L.setPrev a b).next = L.next := rfl

@[simp] theorem setNext_next (L : Links α) (a b x : α) :
    (L.setNext a b).next x = if x = a then b else L.next x := by
  simp [setNext, Function.update_apply]

@[simp] theorem setPrev_prev (L : Links α) (a b x : α) :
    (L.setPrev a b).prev x = if x = a then b else L.prev x := by
  simp [setPrev, Function.update_apply]

end Links

/-- The path `a, xs…, b`: each node's `next` is the following one, whose `prev` leads back. -/
def Seg (L : Links α) : α → List α → α → Prop
  | a, [], b => L.next a = b ∧ L.prev b = a
  | a, x :: xs, b => L.next a = x ∧ L.prev x = a ∧ Seg L x xs b

/-- A path only depends on the `next` of its nodes but the last, and on the `prev` of its nodes
    but the first. -/
theorem Seg.congr {L L' : Links α} : ∀ {xs : List α} {a b : α},
    (∀ x ∈ a :: xs, L'.next x = L.next x) → (∀ x ∈ xs ++ [b], L'.prev x = L.prev x) →
      Seg L a xs b → Seg L' a xs b
  | [], a, b, hn, hp, h => by
    refine ⟨(hn a (by simp)).trans h.1, (hp b (by simp)).trans h.2⟩
  | x :: xs, a, b, hn, hp, h => by
    refine ⟨(hn a (by simp)).trans h.1, (hp x (by simp)).trans h.2.1, ?_⟩
    exact Seg.congr (fun y hy => hn y (List.mem_cons_of_mem _ hy))
      (fun y hy => hp y (by simpa using Or.inr hy)) h.2.2

/-- A path through `y` is a path to `y` and a path from `y`. -/
theorem Seg.append {L : Links α} : ∀ {xs ys : List α} {a y b : α},
    Seg L a (xs ++ y :: ys) b ↔ Seg L a xs y ∧ Seg L y ys b
  | [], ys, a, y, b => by simp [Seg, and_assoc]
  | x :: xs, ys, a, y, b => by
    simp only [List.cons_append, Seg, Seg.append, and_assoc]

/-- The last node before `b` is `prev b`. -/
theorem Seg.prev_last {L : Links α} : ∀ {xs : List α} {a b : α}, Seg L a xs b →
    L.prev b = (a :: xs).getLast (by simp)
  | [], _, _, h => h.2
  | x :: xs, a, b, h => by
    rw [List.getLast_cons (by simp)]; exact h.2.2.prev_last

/-- The first node after `a` is `next a`. -/
theorem Seg.next_first {L : Links α} {xs : List α} {a b : α} (h : Seg L a xs b) :
    L.next a = (xs ++ [b]).head (by simp) := by
  cases xs with
  | nil => exact h.1
  | cons x xs => exact h.1

/-- The circular list with head `h` and nodes `xs`. -/
structure Circ (L : Links α) (h : α) (xs : List α) : Prop where
  seg : Seg L h xs h
  nodup : (h :: xs).Nodup

namespace Circ
variable {L L' : Links α} {h : α} {xs ys : List α}

theorem head_notMem (c : Circ L h xs) : h ∉ xs := (List.nodup_cons.1 c.nodup).1

theorem nodup_tail (c : Circ L h xs) : xs.Nodup := (List.nodup_cons.1 c.nodup).2

/-- **Frame.** A list is not affected by writes to the links of other nodes. -/
theorem congr (c : Circ L h xs) (hn : ∀ x ∈ h :: xs, L'.next x = L.next x)
    (hp : ∀ x ∈ h :: xs, L'.prev x = L.prev x) : Circ L' h xs where
  seg := c.seg.congr hn fun x hx => hp x (by simpa [or_comm] using hx)
  nodup := c.nodup

/-- The neighbours of a cut of the list: the last node before it, the first node after it. -/
theorem cut (xs ys : List α) (c : Circ L h (xs ++ ys)) :
    L.next ((h :: xs).getLast (by simp)) = (ys ++ [h]).head (by simp) ∧
      L.prev ((ys ++ [h]).head (by simp)) = (h :: xs).getLast (by simp) := by
  cases ys with
  | nil =>
    obtain ⟨s, -⟩ := c
    rw [List.append_nil] at s
    refine ⟨?_, s.prev_last⟩
    rcases List.eq_nil_or_concat' xs with rfl | ⟨xs, x, rfl⟩
    · exact s.1
    · have : (h :: (xs ++ [x])).getLast (by simp) = x := by simp
      rw [this]; exact (Seg.append.1 s).2.1
  | cons y ys =>
    obtain ⟨s₁, s₂⟩ := Seg.append.1 c.seg
    refine ⟨?_, s₁.prev_last⟩
    rcases List.eq_nil_or_concat' xs with rfl | ⟨xs, x, rfl⟩
    · exact s₁.1
    · have : (h :: (xs ++ [x])).getLast (by simp) = x := by simp
      rw [this]; exact (Seg.append.1 s₁).2.1

theorem next_head (c : Circ L h xs) : L.next h = (xs ++ [h]).head (by simp) := c.seg.next_first

theorem prev_head (c : Circ L h xs) : L.prev h = (h :: xs).getLast (by simp) := c.seg.prev_last

theorem next_mid {x : α} (c : Circ L h (xs ++ x :: ys)) :
    L.next x = (ys ++ [h]).head (by simp) := (Seg.append.1 c.seg).2.next_first

theorem prev_mid {x : α} (c : Circ L h (xs ++ x :: ys)) :
    L.prev x = (h :: xs).getLast (by simp) := (Seg.append.1 c.seg).1.prev_last

/-- The list is empty iff the head's `next` is the head. -/
theorem next_head_eq_iff (c : Circ L h xs) : L.next h = h ↔ xs = [] := by
  cases xs with
  | nil => simpa using c.seg.1
  | cons x xs =>
    simp only [reduceCtorEq, iff_false]
    rw [c.seg.1]; rintro rfl
    exact c.head_notMem (by simp)

/-- `next` and `prev` stay inside the list. -/
theorem next_mem (c : Circ L h xs) {x : α} (hx : x ∈ h :: xs) : L.next x ∈ h :: xs := by
  rcases List.mem_cons.1 hx with rfl | hx
  · rw [c.next_head]; cases xs <;> simp
  · obtain ⟨as, bs, rfl⟩ := List.append_of_mem hx
    rw [c.next_mid]; cases bs <;> simp

theorem prev_mem (c : Circ L h xs) {x : α} (hx : x ∈ h :: xs) : L.prev x ∈ h :: xs := by
  rcases List.mem_cons.1 hx with rfl | hx
  · rw [c.prev_head]; exact List.getLast_mem _
  · obtain ⟨as, bs, rfl⟩ := List.append_of_mem hx
    rw [c.prev_mid, ← List.cons_append]; exact List.mem_append_left _ (List.getLast_mem _)

/-- `prev` is a left inverse of `next` on the list. -/
theorem prev_next (c : Circ L h xs) {x : α} (hx : x ∈ h :: xs) : L.prev (L.next x) = x := by
  rcases List.mem_cons.1 hx with rfl | hx
  · have := Circ.cut [] xs c
    rw [show L.next x = _ from this.1]; exact this.2
  · obtain ⟨as, bs, rfl⟩ := List.append_of_mem hx
    have := Circ.cut (as ++ [x]) bs (by simpa using c)
    have hl : (h :: (as ++ [x])).getLast (by simp) = x := by simp
    rw [hl] at this
    rw [this.1]; exact this.2

/-- `next` is a left inverse of `prev` on the list. -/
theorem next_prev (c : Circ L h xs) {x : α} (hx : x ∈ h :: xs) : L.next (L.prev x) = x := by
  rcases List.mem_cons.1 hx with rfl | hx
  · have := Circ.cut xs [] (by simpa using c)
    rw [c.prev_head]; exact this.1
  · obtain ⟨as, bs, rfl⟩ := List.append_of_mem hx
    have := Circ.cut as (x :: bs) c
    rw [c.prev_mid]; exact this.1

/-- The links determine the nodes. -/
theorem unique (c : Circ L h xs) (c' : Circ L h ys) : xs = ys := by
  have key : ∀ {xs ys : List α} {a : α}, Seg L a xs h → Seg L a ys h → h ∉ xs → h ∉ ys →
      xs = ys := by
    intro xs
    induction xs with
    | nil =>
      intro ys a s s' _ hy
      cases ys with
      | nil => rfl
      | cons y ys => exact absurd (by simp [← s.1, ← s'.1]) hy
    | cons x xs ih =>
      intro ys a s s' hx hy
      cases ys with
      | nil => exact absurd (by simp [← s.1, ← s'.1]) hx
      | cons y ys =>
        obtain rfl : x = y := s.1.symm.trans s'.1
        rw [ih s.2.2 s'.2.2 (fun hh => hx (by simp [hh])) fun hh => hy (by simp [hh])]
  exact key c.seg c'.seg c.head_notMem c'.head_notMem

variable [DecidableEq α]

/-- A node linked to itself is an empty list. -/
theorem self (L : Links α) (h : α) : Circ ((L.setNext h h).setPrev h h) h [] where
  seg := by simp [Seg]
  nodup := by simp

/-- Linking the node `e` between two neighbours `p`, `n` of a list. -/
def link (L : Links α) (e p n : α) : Links α :=
  (((L.setPrev n e).setNext p e).setNext e n).setPrev e p

/-- Unlinking what stands between `p` and `n`. -/
def unlink (L : Links α) (p n : α) : Links α := (L.setNext p n).setPrev n p

/-- **Insertion.** Linking a new node at a cut of the list inserts it there. -/
theorem insert (c : Circ L h (xs ++ ys)) {e p n : α} (he : e ∉ h :: (xs ++ ys))
    (hp : p = (h :: xs).getLast (by simp)) (hn : n = (ys ++ [h]).head (by simp)) :
    Circ (link L e p n) h (xs ++ e :: ys) := by
  have hpm : p ∈ h :: xs := hp ▸ List.getLast_mem _
  have hnm : n ∈ ys ++ [h] := hn ▸ List.head_mem _
  have hnd := c.nodup
  have hep : e ≠ p := by 
    rintro rfl; exact he (by rw [← List.cons_append]; exact List.mem_append_left _ hpm)
  have hen : e ≠ n := by rintro rfl; exact he (by simp at hnm ⊢; tauto)
  refine ⟨Seg.append.2 ⟨?_, ?_⟩, ?_⟩
  · -- the part up to `e`: only the last `next` changed
    rcases List.eq_nil_or_concat' xs with rfl | ⟨as, x, rfl⟩
    · simp only [List.getLast_singleton] at hp; subst hp
      simp [Seg, link, Ne.symm hep]
    · obtain rfl : p = x := by simpa using hp
      rw [List.append_assoc, List.singleton_append] at c hnd
      have hs := (Seg.append.1 c.seg).1
      refine Seg.append.2 ⟨hs.congr (fun y hy => ?_) fun y hy => ?_, by
        simp [Seg, link, Ne.symm hep]⟩
      · have hy1 : y ≠ p := by rintro rfl; rw [← List.cons_append, List.nodup_append] at hnd
                               exact hnd.2.2 y hy y (by simp) rfl
        have hy2 : y ≠ e := by rintro rfl; exact he (by simp at hy ⊢; tauto)
        simp [link, hy1, hy2]
      · have hy1 : y ≠ e := by rintro rfl; exact he (by simp at hy ⊢; tauto)
        have hy2 : y ≠ n := by
          rintro rfl
          have : (as ++ [p]).Disjoint (ys ++ [h]) := by
            simp only [List.nodup_cons, List.nodup_append, List.mem_append, List.mem_cons] at hnd
            intro z hz hz'
            simp only [List.mem_append, List.mem_singleton] at hz hz'
            grind
          exact this hy hnm
        simp [link, hy1, hy2]
  · -- the part from `e` on: only the first `prev` changed
    cases ys with
    | nil =>
      simp only [List.nil_append, List.head_cons] at hn; subst hn
      simp [Seg, link, Ne.symm hen]
    | cons y ys =>
      obtain rfl : n = y := by simpa using hn
      refine ⟨by simp [link], by simp [link, Ne.symm hen], ?_⟩
      refine (Seg.append.1 c.seg).2.congr (fun z hz => ?_) fun z hz => ?_
      · have hz1 : z ≠ e := by rintro rfl; exact he (by simp at hz ⊢; tauto)
        have hz2 : z ≠ p := by
          rintro rfl
          rw [← List.cons_append, List.nodup_append] at hnd
          exact hnd.2.2 z hpm z hz rfl
        simp [link, hz1, hz2]
      · have hz1 : z ≠ e := by rintro rfl; exact he (by simp at hz ⊢; tauto)
        have hz2 : z ≠ n := by
          rintro rfl
          simp only [List.nodup_cons, List.nodup_append, List.mem_append, List.mem_cons] at hnd
          simp only [List.mem_append, List.mem_singleton] at hz
          grind
        simp [link, hz1, hz2]
  · rw [← List.cons_append, List.nodup_middle, List.nodup_cons]
    exact ⟨by simpa using he, by simpa using hnd⟩

/-- **Removal.** Joining the neighbours of a node removes it from the list. -/
theorem remove {e : α} (c : Circ L h (xs ++ e :: ys)) :
    Circ (unlink L (L.prev e) (L.next e)) h (xs ++ ys) := by
  have hp := c.prev_mid
  have hn := c.next_mid
  set p := L.prev e
  set n := L.next e
  have hpm : p ∈ h :: xs := hp ▸ List.getLast_mem _
  have hnm : n ∈ ys ++ [h] := hn ▸ List.head_mem _
  have hnd := c.nodup
  have hnd' : (h :: (xs ++ ys)).Nodup := by
    rw [← List.cons_append, List.nodup_middle, List.nodup_cons] at hnd
    exact hnd.2
  obtain ⟨s₁, s₂⟩ := Seg.append.1 c.seg
  -- the path up to the node before `e`, with `e` replaced by any continuation
  have left : ∀ {zs : List α}, Seg (unlink L p n) p zs h → Seg (unlink L p n) h (xs ++ zs) h := by
    intro zs hz
    rcases List.eq_nil_or_concat' xs with rfl | ⟨as, x, rfl⟩
    · simp only [List.getLast_singleton] at hp; rw [hp] at hz ⊢; exact hz
    · have hx : p = x := by simpa using hp
      rw [hx] at hz hpm ⊢
      rw [List.append_assoc, List.singleton_append]
      refine Seg.append.2 ⟨?_, by simpa [hx] using hz⟩
      refine (Seg.append.1 s₁).1.congr (fun y hy => ?_) fun y hy => ?_
      · have : y ≠ x := by
          rintro rfl
          simp only [List.nodup_cons, List.nodup_append, List.mem_append, List.mem_cons] at hnd'
          simp only [List.mem_cons] at hy
          grind
        simp [unlink, this]
      · have : y ≠ n := by
          rintro rfl
          simp only [List.nodup_cons, List.nodup_append, List.mem_append,
            List.mem_cons] at hnd' hy hnm
          grind
        simp [unlink, this]
  refine ⟨left ?_, hnd'⟩
  cases ys with
  | nil =>
    simp only [List.nil_append, List.head_cons] at hn
    rw [hn]; simp [Seg, unlink]
  | cons y ys =>
    have hy : n = y := by simpa using hn
    rw [hy]
    refine ⟨by simp [unlink], by simp [unlink], ?_⟩
    refine s₂.2.2.congr (fun z hz => ?_) fun z hz => ?_
    · have : z ≠ p := by
        intro hzp
        rw [← List.cons_append, List.nodup_append] at hnd'
        exact hnd'.2.2 z (hzp ▸ hpm) z hz rfl
      simp [unlink, this]
    · have : z ≠ y := by
        rintro rfl
        simp only [List.nodup_cons, List.nodup_append, List.mem_append,
          List.mem_cons] at hnd' hz
        grind
      simp [unlink, this]

/-- Linking touches the links of the node and of its two neighbours only. -/
theorem link_frame {e p n x : α} (hx : x ≠ e) (hp : x ≠ p) (hn : x ≠ n) :
    (link L e p n).next x = L.next x ∧ (link L e p n).prev x = L.prev x := by
  simp [link, hx, hp, hn]

theorem unlink_frame {p n x : α} (hp : x ≠ p) (hn : x ≠ n) :
    (unlink L p n).next x = L.next x ∧ (unlink L p n).prev x = L.prev x := by
  simp [unlink, hp, hn]

end Circ

end Intrusive
