/-
  Skew heaps: trees whose root comes first, which are merged along their right spines.

  The order is a function `comp` that is `-1` if its first argument comes first.  It may be wrong
  about elements that are not in the heap.

  * `elems_merge`, `elems_remove`: the elements;
  * `Ordered.merge`, `Ordered.remove_root`: the order by a key is kept where `comp` agrees with the
    key;
  * `Sorted`: the same by links, for a relation that need not come from a key.
-/
import Mathlib.Data.Multiset.AddSub
import Mathlib.Algebra.Order.Group.Multiset
import Mathlib.Tactic.Abel

inductive SkewHeap (α : Type*) where
  | nil
  | node (left : SkewHeap α) (x : α) (right : SkewHeap α)
  deriving DecidableEq

namespace SkewHeap

variable {α : Type*}

/-- Merging with a heap that is not empty; `f` merges its right child. -/
def mergeNode (comp : α → α → ℤ) (f : SkewHeap α → SkewHeap α) (left : SkewHeap α) (x : α)
    (right : SkewHeap α) : SkewHeap α → SkewHeap α
  | nil => node left x right
  | node l y r =>
    if comp x y = -1 then node (f (node l y r)) x left
    else node (mergeNode comp f left x right r) y l

def merge (comp : α → α → ℤ) : SkewHeap α → SkewHeap α → SkewHeap α
  | nil, b => b
  | node left x right, b => mergeNode comp (merge comp right) left x right b

def insert (comp : α → α → ℤ) (a : SkewHeap α) (x : α) : SkewHeap α :=
  merge comp a (node nil x nil)

/-- The children of `x` take its place. -/
def remove [DecidableEq α] (comp : α → α → ℤ) (x : α) : SkewHeap α → SkewHeap α
  | nil => nil
  | node l y r => if y = x then merge comp l r else node (remove comp x l) y (remove comp x r)

def root : SkewHeap α → Option α
  | nil => none
  | node _ x _ => some x

def elems : SkewHeap α → Multiset α
  | nil => 0
  | node l x r => x ::ₘ (l.elems + r.elems)

variable {comp : α → α → ℤ} {a b l r : SkewHeap α} {x y : α}

theorem merge_nil : merge comp a nil = a := by
  cases a <;> rfl

theorem merge_node {l' r' : SkewHeap α} : merge comp (node l x r) (node l' y r') =
    if comp x y = -1 then node (merge comp r (node l' y r')) x l
    else node (merge comp (node l x r) r') y l' := rfl

theorem elems_mergeNode {f : SkewHeap α → SkewHeap α}
    (hf : ∀ b, (f b).elems = r.elems + b.elems) :
    ∀ b, (mergeNode comp f l x r b).elems = (node l x r).elems + b.elems := by
  intro b
  induction b with
  | nil => exact (add_zero _).symm
  | node l' y r' _ ihr =>
    rw [mergeNode]
    split
    · simp only [elems, hf, ← Multiset.singleton_add]
      abel
    · simp only [elems, ihr, ← Multiset.singleton_add]
      abel

variable (comp) in
theorem elems_merge : ∀ a b : SkewHeap α, (merge comp a b).elems = a.elems + b.elems := by
  intro a
  induction a with
  | nil => exact fun b => (zero_add _).symm
  | node l x r _ ihr => exact elems_mergeNode ihr

variable (comp) in
theorem elems_insert : (insert comp a x).elems = x ::ₘ a.elems := by
  rw [insert, elems_merge]
  change a.elems + x ::ₘ (0 + 0) = _
  rw [Multiset.add_cons, add_zero, add_zero]

/-- Removing the root. -/
theorem elems_remove_root [DecidableEq α] (h : a.root = some x) :
    x ::ₘ (remove comp x a).elems = a.elems := by
  cases a with
  | nil => cases h
  | node l y r =>
    cases h
    rw [remove, if_pos rfl, elems_merge, elems]

theorem root_mem (h : a.root = some x) : x ∈ a.elems := by
  cases a with
  | nil => cases h
  | node l y r =>
    cases h
    exact Multiset.mem_cons_self ..

theorem root_eq_none : a.root = none ↔ a.elems = 0 := by
  cases a with
  | nil => exact iff_of_true rfl rfl
  | node l y r => exact iff_of_false nofun (Multiset.cons_ne_zero)

/-! ## Order -/

variable {key key' : α → ℕ}

/-- No element has a smaller key than one above it. -/
def Ordered (key : α → ℕ) : SkewHeap α → Prop
  | nil => True
  | node l x r => (∀ y ∈ l.elems + r.elems, key x ≤ key y) ∧ l.Ordered key ∧ r.Ordered key

/-- `comp` finds the smaller one of two elements. -/
def Agrees (comp : α → α → ℤ) (key : α → ℕ) (x y : α) : Prop :=
  if comp x y = -1 then key x ≤ key y else key y ≤ key x

theorem Ordered.root_le (h : a.Ordered key) (hr : a.root = some x) :
    ∀ y ∈ a.elems, key x ≤ key y := by
  cases a with
  | nil => cases hr
  | node l z r =>
    cases hr
    intro y hy
    obtain rfl | hy := Multiset.mem_cons.1 hy
    · exact le_rfl
    · exact h.1 y hy

theorem Ordered.congr (h : a.Ordered key) (hk : ∀ y ∈ a.elems, key' y = key y) :
    a.Ordered key' := by
  induction a with
  | nil => trivial
  | node l x r ihl ihr =>
    have hmem : ∀ y ∈ l.elems + r.elems, key' y = key y := fun y hy =>
      hk y (Multiset.mem_cons_of_mem hy)
    refine ⟨fun y hy => ?_, ihl h.2.1 fun y hy => hmem y (Multiset.mem_add.2 (.inl hy)),
      ihr h.2.2 fun y hy => hmem y (Multiset.mem_add.2 (.inr hy))⟩
    rw [hmem y hy, hk x (Multiset.mem_cons_self ..)]
    exact h.1 y hy

theorem Ordered.mergeNode {f : SkewHeap α → SkewHeap α} (hfe : ∀ b, (f b).elems = r.elems + b.elems)
    (hf : ∀ b, b.Ordered key → (∀ y ∈ r.elems, ∀ z ∈ b.elems, Agrees comp key y z) →
      (f b).Ordered key)
    (h : (node l x r).Ordered key) : ∀ b : SkewHeap α, b.Ordered key →
    (∀ y ∈ (node l x r).elems, ∀ z ∈ b.elems, Agrees comp key y z) →
    (mergeNode comp f l x r b).Ordered key := by
  intro b
  induction b with
  | nil => exact fun _ _ => h
  | node l' y r' _ ihr =>
    intro hb hag
    have hxy := hag x (Multiset.mem_cons_self ..) y (Multiset.mem_cons_self ..)
    rw [Agrees] at hxy
    rw [SkewHeap.mergeNode]
    split
    · rename_i hc
      rw [if_pos hc] at hxy
      refine ⟨fun z hz => ?_, hf _ hb fun u hu z hz => hag u (Multiset.mem_cons_of_mem
        (Multiset.mem_add.2 (.inr hu))) z hz, h.2.1⟩
      rw [hfe, elems, Multiset.mem_add, Multiset.mem_add, Multiset.mem_cons] at hz
      obtain (hz | rfl | hz) | hz := hz
      · exact h.1 z (Multiset.mem_add.2 (.inr hz))
      · exact hxy
      · exact hxy.trans (hb.1 z hz)
      · exact h.1 z (Multiset.mem_add.2 (.inl hz))
    · rename_i hc
      rw [if_neg hc] at hxy
      refine ⟨fun z hz => ?_, ihr hb.2.2 fun u hu z hz => hag u hu z (Multiset.mem_cons_of_mem
        (Multiset.mem_add.2 (.inr hz))), hb.2.1⟩
      rw [elems_mergeNode hfe, elems, Multiset.mem_add, Multiset.mem_add, Multiset.mem_cons] at hz
      obtain ((rfl | hz) | hz) | hz := hz
      · exact hxy
      · exact hxy.trans (h.1 z hz)
      · exact hb.1 z (Multiset.mem_add.2 (.inr hz))
      · exact hb.1 z (Multiset.mem_add.2 (.inl hz))

theorem Ordered.merge : ∀ {a : SkewHeap α}, a.Ordered key → ∀ b : SkewHeap α, b.Ordered key →
    (∀ y ∈ a.elems, ∀ z ∈ b.elems, Agrees comp key y z) → (merge comp a b).Ordered key := by
  intro a
  induction a with
  | nil => exact fun _ _ hb _ => hb
  | node l x r _ ihr => exact fun h => Ordered.mergeNode (elems_merge comp r) (ihr h.2.2) h

theorem Ordered.insert (h : a.Ordered key) (hx : ∀ y ∈ a.elems, Agrees comp key y x) :
    (insert comp a x).Ordered key := by
  refine h.merge _ ⟨fun y hy => ?_, trivial, trivial⟩ fun y hy z hz => ?_
  · exact absurd hy (Multiset.notMem_zero y)
  · obtain rfl | hz := Multiset.mem_cons.1 hz
    · exact hx y hy
    · exact absurd hz (Multiset.notMem_zero z)

theorem Ordered.remove_root [DecidableEq α] (h : a.Ordered key) (hr : a.root = some x)
    (hag : ∀ y ∈ (remove comp x a).elems, ∀ z ∈ (remove comp x a).elems, Agrees comp key y z) :
    (remove comp x a).Ordered key := by
  cases a with
  | nil => trivial
  | node l y r =>
    cases hr
    rw [remove, if_pos rfl] at hag ⊢
    rw [elems_merge] at hag
    exact h.2.1.merge r h.2.2 fun y hy z hz =>
      hag y (Multiset.mem_add.2 (.inl hy)) z (Multiset.mem_add.2 (.inr hz))

/-! ## Removing an element -/

section
variable [DecidableEq α]

theorem remove_of_notMem (h : x ∉ a.elems) : remove comp x a = a := by
  induction a with
  | nil => rfl
  | node l y r ihl ihr =>
    simp only [elems, Multiset.mem_cons, Multiset.mem_add, not_or] at h
    rw [remove, if_neg (Ne.symm h.1), ihl h.2.1, ihr h.2.2]

theorem root_remove_of_ne (h : a.root ≠ some x) : (remove comp x a).root = a.root := by
  cases a with
  | nil => rfl
  | node l y r =>
    rw [remove, if_neg fun hy => h (congrArg some hy)]
    rfl

theorem elems_remove (hn : a.elems.Nodup) : (remove comp x a).elems = a.elems.erase x := by
  by_cases hx : x ∈ a.elems
  · induction a with
    | nil => exact absurd hx (Multiset.notMem_zero x)
    | node l y r ihl ihr =>
      obtain ⟨hy, hlr⟩ := Multiset.nodup_cons.1 hn
      obtain ⟨hl, hr, hd⟩ := Multiset.nodup_add.1 hlr
      by_cases hyx : y = x
      · rw [remove, if_pos hyx, elems_merge, elems, hyx, Multiset.erase_cons_head]
      · have hx' : x ∈ l.elems + r.elems := (Multiset.mem_cons.1 hx).resolve_left (Ne.symm hyx)
        rw [remove, if_neg hyx, elems, elems, Multiset.erase_cons_tail _ hyx]
        obtain hxl | hxr := Multiset.mem_add.1 hx'
        · have hxr : x ∉ r.elems := Multiset.disjoint_left.1 hd hxl
          rw [ihl hl hxl, remove_of_notMem hxr, Multiset.erase_add_left_pos _ hxl]
        · have hxl : x ∉ l.elems := Multiset.disjoint_right.1 hd hxr
          rw [ihr hr hxr, remove_of_notMem hxl, Multiset.erase_add_right_pos _ hxr]
  · rw [remove_of_notMem hx, Multiset.erase_of_notMem hx]

end

/-! ## Order by links -/

section
variable {le le' : α → α → Prop}

/-- No node is greater than one of its children. -/
def Sorted (le : α → α → Prop) : SkewHeap α → Prop
  | nil => True
  | node l x r =>
    (∀ y, l.root = some y → le x y) ∧ (∀ y, r.root = some y → le x y) ∧ l.Sorted le ∧ r.Sorted le

theorem Sorted.root_le (hrefl : ∀ z, le z z) (htrans : ∀ u v w, le u v → le v w → le u w)
    (h : a.Sorted le) (hr : a.root = some x) : ∀ y ∈ a.elems, le x y := by
  induction a generalizing x with
  | nil => cases hr
  | node l z r ihl ihr =>
    cases hr
    obtain ⟨hzl, hzr, hl, hr⟩ := h
    have below (t : SkewHeap α) (hzt : ∀ y, t.root = some y → le z y)
        (ih : ∀ {u}, t.Sorted le → t.root = some u → ∀ y ∈ t.elems, le u y) (ht : t.Sorted le) :
        ∀ y ∈ t.elems, le z y := by
      intro y hy
      cases hroot : t.root with
      | none => exact absurd (root_eq_none.1 hroot ▸ hy) (Multiset.notMem_zero y)
      | some u => exact htrans _ _ _ (hzt u hroot) (ih ht hroot y hy)
    intro y hy
    obtain rfl | hy := Multiset.mem_cons.1 hy
    · exact hrefl y
    · obtain hy | hy := Multiset.mem_add.1 hy
      · exact below l hzl ihl hl y hy
      · exact below r hzr ihr hr y hy

theorem Sorted.congr (hn : a.elems.Nodup) (h : a.Sorted le)
    (hk : ∀ y ∈ a.elems, ∀ z ∈ a.elems, a.root ≠ some z → le y z → le' y z) : a.Sorted le' := by
  induction a with
  | nil => trivial
  | node l x r ihl ihr =>
    obtain ⟨hx, hlr⟩ := Multiset.nodup_cons.1 hn
    obtain ⟨hnl, hnr, -⟩ := Multiset.nodup_add.1 hlr
    have memL {y} (hy : y ∈ l.elems) : y ∈ l.elems + r.elems := Multiset.mem_add.2 (.inl hy)
    have memR {y} (hy : y ∈ r.elems) : y ∈ l.elems + r.elems := Multiset.mem_add.2 (.inr hy)
    have memX : x ∈ (node l x r).elems := Multiset.mem_cons_self ..
    have below {y} (hy : y ∈ (node l x r).elems) {z} (hz : z ∈ l.elems + r.elems) :
        le y z → le' y z :=
      hk y hy z (Multiset.mem_cons_of_mem hz) fun h => hx (Option.some.inj h ▸ hz)
    exact ⟨fun y hy => below memX (memL (root_mem hy)) (h.1 y hy),
      fun y hy => below memX (memR (root_mem hy)) (h.2.1 y hy),
      ihl hnl h.2.2.1 fun y hy z hz _ => below (Multiset.mem_cons_of_mem (memL hy)) (memL hz),
      ihr hnr h.2.2.2 fun y hy z hz _ => below (Multiset.mem_cons_of_mem (memR hy)) (memR hz)⟩

theorem root_merge (a b : SkewHeap α) (hx : (merge comp a b).root = some x) :
    a.root = some x ∨ b.root = some x := by
  cases a with
  | nil => exact .inr hx
  | node l y r =>
    cases b with
    | nil => exact .inl hx
    | node l' z r' =>
      rw [merge_node] at hx
      split at hx
      · exact .inl hx
      · exact .inr hx

/-- `comp` finds one that is not greater. -/
def Finds (comp : α → α → ℤ) (le : α → α → Prop) (x y : α) : Prop :=
  if comp x y = -1 then le x y else le y x

theorem Sorted.merge : ∀ {a : SkewHeap α}, a.Sorted le → ∀ b : SkewHeap α, b.Sorted le →
    (∀ y ∈ a.elems, ∀ z ∈ b.elems, Finds comp le y z) → (merge comp a b).Sorted le := by
  intro a
  induction a with
  | nil => exact fun _ _ hb _ => hb
  | node l x r _ ihr =>
    intro h b
    induction b with
    | nil => exact fun _ _ => h
    | node l' y r' _ ihr' =>
      intro hb hc
      have hxy := hc x (Multiset.mem_cons_self ..) y (Multiset.mem_cons_self ..)
      rw [Finds] at hxy
      rw [merge_node]
      split
      · rename_i hlt
        rw [if_pos hlt] at hxy
        refine ⟨fun z hz => ?_, h.1, ihr h.2.2.2 _ hb fun u hu => hc u (Multiset.mem_cons_of_mem
          (Multiset.mem_add.2 (.inr hu))), h.2.2.1⟩
        obtain hz | hz := root_merge _ _ hz
        · exact h.2.1 z hz
        · exact Option.some.inj hz ▸ hxy
      · rename_i hlt
        rw [if_neg hlt] at hxy
        refine ⟨fun z hz => ?_, hb.1, ihr' hb.2.2.2 fun u hu v hv => hc u hu v
          (Multiset.mem_cons_of_mem (Multiset.mem_add.2 (.inr hv))), hb.2.2.1⟩
        obtain hz | hz := root_merge _ _ hz
        · exact Option.some.inj hz ▸ hxy
        · exact hb.2.1 z hz

theorem root_remove [DecidableEq α] {z : α} (hz : (remove comp x a).root = some z) :
    a.root = some z ∨ a.root = some x ∧ z ∈ a.elems := by
  cases a with
  | nil => exact .inl hz
  | node l y r =>
    rw [remove] at hz
    split at hz
    · rename_i hy
      refine .inr ⟨congrArg some hy, Multiset.mem_cons_of_mem ?_⟩
      exact elems_merge comp l r ▸ root_mem hz
    · exact .inl hz

/-- Removing an element; `comp` may be wrong about the root. -/
theorem Sorted.remove [DecidableEq α] (hrefl : ∀ z, le z z)
    (htrans : ∀ u v w, le u v → le v w → le u w) (hn : a.elems.Nodup) (h : a.Sorted le)
    (hc : ∀ y ∈ a.elems, ∀ z ∈ a.elems, a.root ≠ some y → a.root ≠ some z → Finds comp le y z) :
    (remove comp x a).Sorted le := by
  induction a with
  | nil => trivial
  | node l w r ihl ihr =>
    obtain ⟨hw, hlr⟩ := Multiset.nodup_cons.1 hn
    obtain ⟨hnl, hnr, -⟩ := Multiset.nodup_add.1 hlr
    obtain ⟨hwl, hwr, hl, hr⟩ := h
    have inner {y} (hy : y ∈ l.elems + r.elems) {z} (hz : z ∈ l.elems + r.elems) :
        Finds comp le y z :=
      hc y (Multiset.mem_cons_of_mem hy) z (Multiset.mem_cons_of_mem hz)
        (fun h => hw (Option.some.inj h ▸ hy)) (fun h => hw (Option.some.inj h ▸ hz))
    have memL {y} (hy : y ∈ l.elems) : y ∈ l.elems + r.elems := Multiset.mem_add.2 (.inl hy)
    have memR {y} (hy : y ∈ r.elems) : y ∈ l.elems + r.elems := Multiset.mem_add.2 (.inr hy)
    have below {t : SkewHeap α} (hwt : ∀ z, t.root = some z → le w z) (ht : t.Sorted le) (z : α)
        (hz : (SkewHeap.remove comp x t).root = some z) : le w z := by
      obtain hz | ⟨hx, hz⟩ := root_remove hz
      · exact hwt z hz
      · exact htrans _ _ _ (hwt x hx) (ht.root_le hrefl htrans hx z hz)
    rw [SkewHeap.remove]
    split
    · exact hl.merge r hr fun y hy z hz => inner (memL hy) (memR hz)
    · exact ⟨below hwl hl, below hwr hr,
        ihl hnl hl fun y hy z hz _ _ => inner (memL hy) (memL hz),
        ihr hnr hr fun y hy z hz _ _ => inner (memR hy) (memR hz)⟩

end

end SkewHeap
