/-
  `libs/skew_heap.h`: skew heaps of linked entries.

  A `skew_heap_entry_t` is a node of a link memory; the operations are the assignments of the
  source, in the same order.

  * `HeapLinks m p t`: the links of the nodes of `t` are those of the tree, the parent of its root
    is `p`;
  * `skewHeapMerge_run`, `skewHeapRemove_run`: the operations do to the tree what `SkewHeap.merge`
    and `SkewHeap.remove` do;
  * `skew_heap`: the heap order and the nodes, for the operations together.
-/
import Ucore.Lib.SkewHeap

namespace Ucore

section
variable {α : Type*}

/-- `struct skew_heap_entry` -/
structure SkewHeapEntry (α : Type*) where
  parent : Option α
  left : Option α
  right : Option α
  deriving DecidableEq

section
variable [DecidableEq α]

/-- `skew_heap_init` -/
def skewHeapInit (m : α → SkewHeapEntry α) (a : α) : α → SkewHeapEntry α :=
  Function.update m a { parent := none, left := none, right := none }

/-- `if (a) a->parent = p` -/
def setParent (m : α → SkewHeapEntry α) (a p : Option α) : α → SkewHeapEntry α :=
  match a with
  | none => m
  | some x => Function.update m x { m x with parent := p }

/-- `a->left = l; a->right = r; if (l) l->parent = a` -/
def setChildren (m : α → SkewHeapEntry α) (a : α) (l r : Option α) : α → SkewHeapEntry α :=
  let m := Function.update m a { m a with left := l }
  let m := Function.update m a { m a with right := r }
  setParent m l (some a)

/-- `skew_heap_merge`, with calls nested at most `depth` deep. -/
def skewHeapMerge (comp : α → α → ℤ) : ℕ → (α → SkewHeapEntry α) → Option α → Option α →
    Option ((α → SkewHeapEntry α) × Option α)
  | 0, _, _, _ => none
  | depth + 1, m, a, b =>
    match a, b with
    | none, b => some (m, b)
    | some a, none => some (m, some a)
    | some a, some b =>
      if comp a b = -1 then do
        let r := (m a).left
        let (m, l) ← skewHeapMerge comp depth m (m a).right (some b)
        some (setChildren m a l r, some a)
      else do
        let r := (m b).left
        let (m, l) ← skewHeapMerge comp depth m (some a) (m b).right
        some (setChildren m b l r, some b)

/-- `skew_heap_insert` -/
def skewHeapInsert (comp : α → α → ℤ) (depth : ℕ) (m : α → SkewHeapEntry α) (a : Option α) (b : α) :
    Option ((α → SkewHeapEntry α) × Option α) :=
  skewHeapMerge comp depth (skewHeapInit m b) a (some b)

/-- `if (p->left == b) p->left = rep; else p->right = rep;` -/
def SkewHeapEntry.replaceChild (p : SkewHeapEntry α) (b : α) (rep : Option α) : SkewHeapEntry α :=
  if p.left = some b then { p with left := rep } else { p with right := rep }

/-- `skew_heap_remove` -/
def skewHeapRemove (comp : α → α → ℤ) (depth : ℕ) (m : α → SkewHeapEntry α) (a : Option α) (b : α) :
    Option ((α → SkewHeapEntry α) × Option α) := do
  let p := (m b).parent
  let (m, rep) ← skewHeapMerge comp depth m (m b).left (m b).right
  let m := setParent m rep p
  match p with
  | some p => some (Function.update m p ((m p).replaceChild b rep), a)
  | none => some (m, rep)

end

/-! ## Links -/

open SkewHeap

/-- The nodes of the tree are linked as it says, the parent of its root is `p`. -/
def HeapLinks (m : α → SkewHeapEntry α) : Option α → SkewHeap α → Prop
  | _, .nil => True
  | p, .node l x r => m x = ⟨p, l.root, r.root⟩ ∧ HeapLinks m (some x) l ∧ HeapLinks m (some x) r

variable {comp : α → α → ℤ} {m m' : α → SkewHeapEntry α} {p q : Option α} {a b t : SkewHeap α}
  {x y : α}

theorem HeapLinks.congr (h : HeapLinks m p t) (hm : ∀ y ∈ t.elems, m' y = m y) :
    HeapLinks m' p t := by
  induction t generalizing p with
  | nil => trivial
  | node l x r ihl ihr =>
    have below {y} (hy : y ∈ l.elems + r.elems) : m' y = m y := hm y (Multiset.mem_cons_of_mem hy)
    exact ⟨(hm x (Multiset.mem_cons_self ..)).trans h.1,
      ihl h.2.1 fun y hy => below (Multiset.mem_add.2 (.inl hy)),
      ihr h.2.2 fun y hy => below (Multiset.mem_add.2 (.inr hy))⟩

variable [DecidableEq α]

theorem SkewHeapEntry.replaceChild_left {e : SkewHeapEntry α} (h : e.left = some x) :
    e.replaceChild x p = { e with left := p } := if_pos h

theorem SkewHeapEntry.replaceChild_right {e : SkewHeapEntry α} (h : e.left ≠ some x) :
    e.replaceChild x p = { e with right := p } := if_neg h

theorem HeapLinks.update (h : HeapLinks m p t) (hx : x ∉ t.elems) (e : SkewHeapEntry α) :
    HeapLinks (Function.update m x e) p t :=
  h.congr fun _ hy => Function.update_of_ne (ne_of_mem_of_not_mem hy hx) ..

theorem HeapLinks.setParent (h : HeapLinks m p t) (hn : t.elems.Nodup) (q : Option α) :
    HeapLinks (setParent m t.root q) q t := by
  cases t with
  | nil => trivial
  | node l x r =>
    obtain ⟨hx, -⟩ := Multiset.nodup_cons.1 hn
    obtain ⟨hm, hl, hr⟩ := h
    refine ⟨?_, hl.update (fun h => hx (Multiset.mem_add.2 (.inl h))) _,
      hr.update (fun h => hx (Multiset.mem_add.2 (.inr h))) _⟩
    simp only [Ucore.setParent, SkewHeap.root, Function.update_self, hm]

theorem setParent_of_notMem (hy : y ∉ t.elems) : setParent m t.root p y = m y := by
  cases t with
  | nil => rfl
  | node l x r =>
    exact Function.update_of_ne (ne_of_mem_of_not_mem (Multiset.mem_cons_self ..) hy).symm ..

theorem setChildren_of_notMem {r : Option α} (hx : y ≠ x) (hy : y ∉ t.elems) :
    setChildren m x t.root r y = m y := by
  rw [setChildren, setParent_of_notMem hy, Function.update_of_ne hx, Function.update_of_ne hx]

/-- The end of `skew_heap_merge` at `x`: `c` is the result of the call, which has changed its nodes
only. -/
theorem HeapLinks.setChildren {l r c : SkewHeap α} (hx : HeapLinks m p (.node l x r))
    (hc : HeapLinks m' q c) (hout : ∀ y ∉ c.elems, m' y = m y)
    (hn : (SkewHeap.node c x l).elems.Nodup) :
    HeapLinks (setChildren m' x c.root (m x).left) p (.node c x l) ∧
      ∀ y ∉ (SkewHeap.node c x l).elems, Ucore.setChildren m' x c.root (m x).left y = m y := by
  obtain ⟨hxn, hcl⟩ := Multiset.nodup_cons.1 hn
  obtain ⟨hnc, -, hd⟩ := Multiset.nodup_add.1 hcl
  have hxc : x ∉ c.elems := fun h => hxn (Multiset.mem_add.2 (.inl h))
  have hxl : x ∉ l.elems := fun h => hxn (Multiset.mem_add.2 (.inr h))
  have hleft : (m x).left = l.root := congrArg SkewHeapEntry.left hx.1
  have hpar : (m' x).parent = p := congrArg SkewHeapEntry.parent ((hout x hxc).trans hx.1)
  refine ⟨⟨?_, ((hc.update hxc _).update hxc _).setParent hnc _, hx.2.1.congr fun y hy => ?_⟩,
    fun y hy => ?_⟩
  · rw [Ucore.setChildren, setParent_of_notMem hxc, Function.update_self, Function.update_self,
      hleft, ← hpar]
  · have hyc : y ∉ c.elems := Multiset.disjoint_right.1 hd hy
    rw [setChildren_of_notMem (ne_of_mem_of_not_mem hy hxl) hyc, hout y hyc]
  · rw [elems, Multiset.mem_cons, not_or, Multiset.mem_add, not_or] at hy
    rw [setChildren_of_notMem hy.1 hy.2.1, hout y hy.2.1]

/-! ## Merging -/

variable (comp) in
/-- **`skew_heap_merge`** merges the trees, and leaves the other nodes alone. -/
theorem skewHeapMerge_run : ∀ (depth : ℕ) (a b : SkewHeap α) (m : α → SkewHeapEntry α)
    (p q : Option α), HeapLinks m p a → HeapLinks m q b → (a.elems + b.elems).Nodup →
    a.elems.card + b.elems.card < depth →
    ∃ m', skewHeapMerge comp depth m a.root b.root = some (m', (merge comp a b).root) ∧
      (∃ s, (s = p ∨ s = q) ∧ HeapLinks m' s (merge comp a b)) ∧
      ∀ y ∉ (merge comp a b).elems, m' y = m y := by
  intro depth
  induction depth with
  | zero => exact fun _ _ _ _ _ _ _ _ h => absurd h (Nat.not_lt_zero _)
  | succ depth ih =>
    intro a b m p q ha hb hn hdepth
    cases a with
    | nil => exact ⟨m, rfl, ⟨q, .inr rfl, hb⟩, fun _ _ => rfl⟩
    | node l x r =>
      cases b with
      | nil => exact ⟨m, rfl, ⟨p, .inl rfl, merge_nil ▸ ha⟩, fun _ _ => rfl⟩
      | node l' y r' =>
        rw [← elems_merge comp] at hn
        simp only [elems, Multiset.card_cons, Multiset.card_add] at hdepth
        simp only [SkewHeap.root, skewHeapMerge]
        rw [merge_node] at hn ⊢
        split
        · rename_i hlt
          rw [if_pos hlt] at hn
          have hnc := (Multiset.nodup_add.1 (Multiset.nodup_cons.1 hn).2).1
          obtain ⟨m₁, hrun, ⟨s, -, hc⟩, hout⟩ := ih r (.node l' y r') m (some x) q ha.2.2 hb
            (elems_merge comp .. ▸ hnc) (by
              simp only [elems, Multiset.card_cons, Multiset.card_add]
              omega)
          obtain ⟨hlinks, hout'⟩ := ha.setChildren hc hout hn
          refine ⟨_, ?_, ⟨p, .inl rfl, hlinks⟩, hout'⟩
          rw [show (m x).right = r.root from congrArg SkewHeapEntry.right ha.1]
          exact (congrArg (· >>= _) hrun).trans rfl
        · rename_i hlt
          rw [if_neg hlt] at hn
          have hnc := (Multiset.nodup_add.1 (Multiset.nodup_cons.1 hn).2).1
          obtain ⟨m₁, hrun, ⟨s, -, hc⟩, hout⟩ := ih (.node l x r) r' m p (some y) ha hb.2.2
            (elems_merge comp .. ▸ hnc) (by
              simp only [elems, Multiset.card_cons, Multiset.card_add]
              omega)
          obtain ⟨hlinks, hout'⟩ := hb.setChildren hc hout hn
          refine ⟨_, ?_, ⟨q, .inr rfl, hlinks⟩, hout'⟩
          rw [show (m y).right = r'.root from congrArg SkewHeapEntry.right hb.1]
          exact (congrArg (· >>= _) hrun).trans rfl

variable (comp) in
theorem skewHeapInsert_run {depth : ℕ} (ha : HeapLinks m none a) (hn : a.elems.Nodup)
    (hx : x ∉ a.elems) (hdepth : a.elems.card + 1 < depth) :
    ∃ m', skewHeapInsert comp depth m a.root x = some (m', (SkewHeap.insert comp a x).root) ∧
      HeapLinks m' none (SkewHeap.insert comp a x) ∧
      ∀ y ∉ (SkewHeap.insert comp a x).elems, m' y = m y := by
  have hnode : HeapLinks (skewHeapInit m x) none (.node .nil x .nil) :=
    ⟨Function.update_self .., trivial, trivial⟩
  have hnn : (a.elems + (SkewHeap.node .nil x .nil).elems).Nodup := by
    have hnodes := (elems_merge comp a (.node .nil x .nil)).symm.trans (elems_insert comp)
    exact hnodes ▸ Multiset.nodup_cons.2 ⟨hx, hn⟩
  obtain ⟨m', hrun, ⟨s, hs, hlinks⟩, hout⟩ := skewHeapMerge_run comp depth a
    (.node .nil x .nil) (skewHeapInit m x) none none (ha.update hx _) hnode hnn hdepth
  obtain rfl : s = none := hs.elim id id
  refine ⟨m', hrun, hlinks, fun y hy => (hout y hy).trans ?_⟩
  refine Function.update_of_ne (fun h => hy ?_) ..
  rw [elems_insert, h]
  exact Multiset.mem_cons_self ..

/-! ## Removing -/

variable (comp) in
/-- The place of a node that is not the root: the tree with its children in its place is linked if
the slot of its parent `z` is. -/
theorem HeapLinks.inner {p : Option α} (h : HeapLinks m p t) (hn : t.elems.Nodup)
    (hx : x ∈ t.elems) (hr : t.root ≠ some x) :
    ∃ (l r : SkewHeap α) (z : α), HeapLinks m (some z) (.node l x r) ∧ z ∈ t.elems ∧
      (SkewHeap.node l x r).elems ≤ t.elems ∧ z ∉ (SkewHeap.node l x r).elems ∧
      ∀ M : α → SkewHeapEntry α, HeapLinks M (some z) (merge comp l r) →
        (∀ y ∈ t.elems, y ∉ (SkewHeap.node l x r).elems → y ≠ z → M y = m y) →
        M z = (m z).replaceChild x (merge comp l r).root →
        HeapLinks M p (remove comp x t) := by
  induction t generalizing p with
  | nil => exact absurd hx (Multiset.notMem_zero x)
  | node l y r ihl ihr =>
    have hyx : y ≠ x := fun h => hr (congrArg some h)
    obtain ⟨hy, hlr⟩ := Multiset.nodup_cons.1 hn
    obtain ⟨hnl, hnr, hd⟩ := Multiset.nodup_add.1 hlr
    obtain ⟨hm, hl, hr'⟩ := h
    have hyl : y ∉ l.elems := fun h => hy (Multiset.mem_add.2 (.inl h))
    have hyr : y ∉ r.elems := fun h => hy (Multiset.mem_add.2 (.inr h))
    have memY : y ∈ (SkewHeap.node l y r).elems := Multiset.mem_cons_self ..
    have memL {w} (hw : w ∈ l.elems) : w ∈ (SkewHeap.node l y r).elems :=
      Multiset.mem_cons_of_mem (Multiset.mem_add.2 (.inl hw))
    have memR {w} (hw : w ∈ r.elems) : w ∈ (SkewHeap.node l y r).elems :=
      Multiset.mem_cons_of_mem (Multiset.mem_add.2 (.inr hw))
    have leL : l.elems ≤ (SkewHeap.node l y r).elems :=
      (Multiset.le_add_right ..).trans (Multiset.le_cons_self ..)
    have leR : r.elems ≤ (SkewHeap.node l y r).elems :=
      (Multiset.le_add_left ..).trans (Multiset.le_cons_self ..)
    rw [remove, if_neg hyx]
    obtain hxl | hxr := Multiset.mem_add.1 ((Multiset.mem_cons.1 hx).resolve_left (Ne.symm hyx))
    · have hxr : x ∉ r.elems := Multiset.disjoint_left.1 hd hxl
      rw [remove_of_notMem hxr]
      by_cases hroot : l.root = some x
      · -- the left child of `y`
        cases l with
        | nil => cases hroot
        | node l₁ w r₁ =>
          cases hroot
          refine ⟨l₁, r₁, y, hl, memY, leL, hyl, fun M hM hout hMy => ⟨?_, ?_, ?_⟩⟩
          · rw [hMy, hm, SkewHeapEntry.replaceChild_left rfl, remove, if_pos rfl]
          · rwa [remove, if_pos rfl]
          · exact hr'.congr fun w hw => hout w (memR hw) (Multiset.disjoint_right.1 hd hw)
              (ne_of_mem_of_not_mem hw hyr)
      · obtain ⟨l₁, r₁, z, hsub, hz, hle, hzn, hfix⟩ := ihl hl hnl hxl hroot
        have notMem {w} (hw : w ∉ l.elems) : w ∉ (SkewHeap.node l₁ x r₁).elems := fun h =>
          hw (Multiset.mem_of_le hle h)
        refine ⟨l₁, r₁, z, hsub, memL hz, hle.trans leL, hzn, fun M hM hout hMz => ⟨?_, ?_, ?_⟩⟩
        · rw [hout y memY (notMem hyl) (ne_of_mem_of_not_mem hz hyl).symm, hm,
            root_remove_of_ne hroot]
        · exact hfix M hM (fun w hw => hout w (memL hw)) hMz
        · refine hr'.congr fun w hw => ?_
          have hwl : w ∉ l.elems := Multiset.disjoint_right.1 hd hw
          exact hout w (memR hw) (notMem hwl) (ne_of_mem_of_not_mem hz hwl).symm
    · have hxl : x ∉ l.elems := Multiset.disjoint_right.1 hd hxr
      rw [remove_of_notMem hxl]
      by_cases hroot : r.root = some x
      · -- the right child of `y`
        cases r with
        | nil => cases hroot
        | node l₁ w r₁ =>
          cases hroot
          refine ⟨l₁, r₁, y, hr', memY, leR, hyr, fun M hM hout hMy => ⟨?_, ?_, ?_⟩⟩
          · rw [hMy, hm, SkewHeapEntry.replaceChild_right fun h => hxl (root_mem h), remove,
              if_pos rfl]
          · exact hl.congr fun w hw => hout w (memL hw) (Multiset.disjoint_left.1 hd hw)
              (ne_of_mem_of_not_mem hw hyl)
          · rwa [remove, if_pos rfl]
      · obtain ⟨l₁, r₁, z, hsub, hz, hle, hzn, hfix⟩ := ihr hr' hnr hxr hroot
        have notMem {w} (hw : w ∉ r.elems) : w ∉ (SkewHeap.node l₁ x r₁).elems := fun h =>
          hw (Multiset.mem_of_le hle h)
        refine ⟨l₁, r₁, z, hsub, memR hz, hle.trans leR, hzn, fun M hM hout hMz => ⟨?_, ?_, ?_⟩⟩
        · rw [hout y memY (notMem hyr) (ne_of_mem_of_not_mem hz hyr).symm, hm,
            root_remove_of_ne hroot]
        · refine hl.congr fun w hw => ?_
          have hwr : w ∉ r.elems := Multiset.disjoint_left.1 hd hw
          exact hout w (memL hw) (notMem hwr) (ne_of_mem_of_not_mem hz hwr).symm
        · exact hfix M hM (fun w hw => hout w (memR hw)) hMz

variable (comp) in
/-- **`skew_heap_remove`** puts the merged children of the node in its place. -/
theorem skewHeapRemove_run {depth : ℕ} (ha : HeapLinks m none a) (hn : a.elems.Nodup)
    (hx : x ∈ a.elems) (hdepth : a.elems.card ≤ depth) :
    ∃ m', skewHeapRemove comp depth m a.root x = some (m', (remove comp x a).root) ∧
      HeapLinks m' none (remove comp x a) ∧ ∀ y ∉ a.elems, m' y = m y := by
  by_cases hroot : a.root = some x
  · cases a with
    | nil => cases hroot
    | node l y r =>
      cases hroot
      obtain ⟨hm, hl, hr⟩ := ha
      obtain ⟨m₁, hrun, ⟨s, -, hc⟩, hout⟩ := skewHeapMerge_run comp depth l r m (some x)
        (some x) hl hr (Multiset.nodup_cons.1 hn).2 (by
          simp only [elems, Multiset.card_cons, Multiset.card_add] at hdepth
          omega)
      have hnc : (merge comp l r).elems.Nodup := elems_merge comp l r ▸ (Multiset.nodup_cons.1 hn).2
      rw [remove, if_pos rfl]
      refine ⟨_, ?_, hc.setParent hnc none, fun z hz => ?_⟩
      · rw [skewHeapRemove, hm]
        exact (congrArg (· >>= _) hrun).trans rfl
      · have hzc : z ∉ (merge comp l r).elems := fun h =>
          hz (Multiset.mem_cons_of_mem (elems_merge comp l r ▸ h))
        rw [setParent_of_notMem hzc, hout z hzc]
  · obtain ⟨l, r, z, ⟨hm, hl, hr⟩, hz, hle, hzn, hfix⟩ := ha.inner comp hn hx hroot
    have hnlr : (l.elems + r.elems).Nodup :=
      (Multiset.nodup_cons.1 (Multiset.nodup_of_le hle hn)).2
    have notMem {y} (hy : y ∉ (SkewHeap.node l x r).elems) : y ∉ (merge comp l r).elems := fun h =>
      hy (Multiset.mem_cons_of_mem (elems_merge comp l r ▸ h))
    obtain ⟨m₁, hrun, ⟨s, -, hc⟩, hout⟩ := skewHeapMerge_run comp depth l r m (some x)
      (some x) hl hr hnlr (by
        have := Multiset.card_le_card hle
        simp only [elems, Multiset.card_cons, Multiset.card_add] at this
        omega)
    have hc₂ := hc.setParent (elems_merge comp l r ▸ hnlr) (some z)
    have hout₂ {y} (hy : y ∉ (SkewHeap.node l x r).elems) :
        setParent m₁ (merge comp l r).root (some z) y = m y := by
      rw [setParent_of_notMem (notMem hy), hout y (notMem hy)]
    generalize hm₂ : setParent m₁ (merge comp l r).root (some z) = m₂ at hc₂ hout₂
    refine ⟨Function.update m₂ z ((m₂ z).replaceChild x (merge comp l r).root), ?_, ?_, ?_⟩
    · rw [skewHeapRemove, hm, root_remove_of_ne hroot]
      exact (congrArg (· >>= _) hrun).trans (hm₂ ▸ rfl)
    · refine hfix _ (hc₂.update (notMem hzn) _) (fun y _ hy hyz => ?_) ?_
      · rw [Function.update_of_ne hyz, hout₂ hy]
      · rw [Function.update_self, hout₂ hzn]
    · intro y hy
      rw [Function.update_of_ne (ne_of_mem_of_not_mem hz hy).symm,
        hout₂ fun h => hy (Multiset.mem_of_le hle h)]

/-! ## Heaps -/

/-- A comparison function for a total preorder. -/
structure Compares (comp : α → α → ℤ) (le : α → α → Prop) : Prop where
  total : ∀ x y, le x y ∨ le y x
  trans : ∀ x y z, le x y → le y z → le x z
  less : ∀ x y, comp x y = -1 ↔ ¬ le y x
  equal : ∀ x y, comp x y = 0 ↔ le x y ∧ le y x
  greater : ∀ x y, comp x y = 1 ↔ ¬ le x y

omit [DecidableEq α] in
theorem Compares.refl {le : α → α → Prop} (hc : Compares comp le) (x : α) : le x x :=
  (hc.total x x).elim id id

omit [DecidableEq α] in
theorem Compares.finds {le : α → α → Prop} (hc : Compares comp le) (x y : α) :
    Finds comp le x y := by
  rw [Finds]
  split
  · rename_i h
    exact (hc.total x y).resolve_right ((hc.less x y).1 h)
  · rename_i h
    exact not_not.1 fun hyx => h ((hc.less x y).2 hyx)

/-- `a` is the root of a heap of the nodes `S`: the links are those of a tree, no node is greater
than its children. -/
def WellFormedHeap (le : α → α → Prop) (m : α → SkewHeapEntry α) (a : Option α) (S : Multiset α) :
    Prop :=
  ∃ t : SkewHeap α, HeapLinks m none t ∧ t.root = a ∧ t.elems = S ∧ S.Nodup ∧ t.Sorted le

/-- The order after the key of `a`, which comes before all others, was raised: only what is below
`a` is ordered by `le`. -/
def Raised (a : α) (le : α → α → Prop) (x y : α) : Prop := x = a ∨ y ≠ a ∧ le x y

variable {le le' : α → α → Prop} {S T : Multiset α} {c c' : Option α} {depth : ℕ}

theorem WellFormedHeap.merge (hc : Compares comp le) (hS : WellFormedHeap le m c S)
    (hT : WellFormedHeap le m c' T) (hd : Disjoint S T) (hdepth : S.card + T.card < depth) :
    ∃ m' r, skewHeapMerge comp depth m c c' = some (m', r) ∧ WellFormedHeap le m' r (S + T) ∧
      ∀ y ∉ S + T, m' y = m y := by
  obtain ⟨a, ha, rfl, rfl, hnS, hsa⟩ := hS
  obtain ⟨b, hb, rfl, rfl, hnT, hsb⟩ := hT
  have hn : (a.elems + b.elems).Nodup := Multiset.nodup_add.2 ⟨hnS, hnT, hd⟩
  obtain ⟨m', hrun, ⟨s, hs, hlinks⟩, hout⟩ :=
    skewHeapMerge_run comp depth a b m none none ha hb hn hdepth
  obtain rfl : s = none := hs.elim id id
  exact ⟨m', _, hrun, ⟨_, hlinks, rfl, elems_merge comp a b, hn,
    hsa.merge b hsb fun y _ z _ => hc.finds y z⟩,
    fun y hy => hout y (elems_merge comp a b ▸ hy)⟩

theorem WellFormedHeap.insert (hc : Compares comp le) (hS : WellFormedHeap le m c S) (hx : x ∉ S)
    (hdepth : S.card + 1 < depth) :
    ∃ m' r, skewHeapInsert comp depth m c x = some (m', r) ∧ WellFormedHeap le m' r (x ::ₘ S) ∧
      ∀ y ∉ x ::ₘ S, m' y = m y := by
  obtain ⟨a, ha, rfl, rfl, hn, hsa⟩ := hS
  obtain ⟨m', hrun, hlinks, hout⟩ := skewHeapInsert_run comp ha hn hx hdepth
  refine ⟨m', _, hrun, ⟨_, hlinks, rfl, elems_insert comp, Multiset.nodup_cons.2 ⟨hx, hn⟩, ?_⟩,
    fun y hy => hout y ((elems_insert comp).symm ▸ hy)⟩
  exact hsa.merge _ ⟨nofun, nofun, trivial, trivial⟩ fun y _ z _ => hc.finds y z

/-- Removing a node; the comparison function may be wrong about the root. -/
theorem WellFormedHeap.remove (hrefl : ∀ x, le x x) (htrans : ∀ x y z, le x y → le y z → le x z)
    (hfinds : ∀ y ∈ S, ∀ z ∈ S, c ≠ some y → c ≠ some z → Finds comp le y z)
    (hS : WellFormedHeap le m c S) (hx : x ∈ S) (hdepth : S.card ≤ depth) :
    ∃ m' r, skewHeapRemove comp depth m c x = some (m', r) ∧
      WellFormedHeap le m' r (S.erase x) ∧ (c ≠ some x → r = c) ∧ ∀ y ∉ S, m' y = m y := by
  obtain ⟨a, ha, rfl, rfl, hn, hsa⟩ := hS
  obtain ⟨m', hrun, hlinks, hout⟩ := skewHeapRemove_run comp ha hn hx hdepth
  exact ⟨m', _, hrun, ⟨_, hlinks, rfl, elems_remove hn, hn.erase x,
    hsa.remove hrefl htrans hn hfinds⟩, root_remove_of_ne, hout⟩

omit [DecidableEq α] in
theorem WellFormedHeap.root_min (hc : Compares comp le) (hS : WellFormedHeap le m c S) :
    (c = none ↔ S = 0) ∧ ∀ x, c = some x → x ∈ S ∧ ∀ y ∈ S, le x y := by
  obtain ⟨a, -, rfl, rfl, -, hsa⟩ := hS
  exact ⟨root_eq_none, fun x hx => ⟨root_mem hx, hsa.root_le hc.refl hc.trans hx⟩⟩

omit [DecidableEq α] in
theorem WellFormedHeap.congr (hS : WellFormedHeap le m c S)
    (hle : ∀ x ∈ S, ∀ y ∈ S, c ≠ some y → le x y → le' x y) : WellFormedHeap le' m c S := by
  obtain ⟨a, ha, rfl, rfl, hn, hsa⟩ := hS
  exact ⟨a, ha, rfl, rfl, hn, hsa.congr hn hle⟩

/-- Removing a node after the key of the root was raised. -/
theorem WellFormedHeap.remove_raised (hc : Compares comp le') (hS : WellFormedHeap le m (some y) S)
    (hle : ∀ u ∈ S, ∀ v ∈ S, u ≠ y → v ≠ y → (le' u v ↔ le u v)) (hx : x ∈ S)
    (hdepth : S.card ≤ depth) :
    ∃ m' r, skewHeapRemove comp depth m (some y) x = some (m', r) ∧
      (x = y → WellFormedHeap le' m' r (S.erase y)) ∧
      (x ≠ y → r = some y ∧ WellFormedHeap (Raised y le') m' r (S.erase x)) ∧
      ∀ z ∉ S, m' z = m z := by
  have hraised : WellFormedHeap (Raised y le') m (some y) S := hS.congr fun u hu v hv hvy huv => by
    have hv' : v ≠ y := fun h => hvy (congrArg some h.symm)
    by_cases huy : u = y
    · exact .inl huy
    · exact .inr ⟨hv', (hle u hu v hv huy hv').2 huv⟩
  have hrefl (u : α) : Raised y le' u u := (em (u = y)).imp id fun h => ⟨h, hc.refl u⟩
  have htrans (u v w : α) (huv : Raised y le' u v) (hvw : Raised y le' v w) : Raised y le' u w := by
    obtain hu | ⟨hv, huv⟩ := huv
    · exact .inl hu
    · exact .inr ((hvw.resolve_left hv).imp id (hc.trans u v w huv))
  have hfinds (u v : α) (hu : some y ≠ some u) (hv : some y ≠ some v) :
      Finds comp (Raised y le') u v := by
    have huv := hc.finds u v
    rw [Finds] at huv ⊢
    split at huv
    · rw [if_pos ‹_›]
      exact .inr ⟨fun h => hv (congrArg some h.symm), huv⟩
    · rw [if_neg ‹_›]
      exact .inr ⟨fun h => hu (congrArg some h.symm), huv⟩
  have hn : S.Nodup := by
    obtain ⟨-, -, -, -, hn, -⟩ := hS
    exact hn
  obtain ⟨m', r, hrun, hheap, hr, hout⟩ := hraised.remove hrefl htrans
    (fun u _ v _ => hfinds u v) hx hdepth
  refine ⟨m', r, hrun, ?_, fun hxy => ⟨hr fun h => hxy (Option.some.inj h).symm, hheap⟩, hout⟩
  rintro rfl
  refine hheap.congr fun u hu v _ _ huv => (huv.resolve_left fun h => ?_).2
  exact (hn.mem_erase_iff.1 (h ▸ hu)).1 rfl

/-- **Skew heaps**: merging, inserting and removing give heaps of the right nodes, whose root is
the least; removing also while the key of the root is raised, and removing the root then gives a
heap again. -/
theorem skew_heap (hc : Compares comp le) (m : α → SkewHeapEntry α) :
    (∀ a b S T depth, WellFormedHeap le m a S → WellFormedHeap le m b T → Disjoint S T →
      S.card + T.card < depth →
      ∃ m' r, skewHeapMerge comp depth m a b = some (m', r) ∧ WellFormedHeap le m' r (S + T) ∧
        ∀ y ∉ S + T, m' y = m y) ∧
    (∀ a x S depth, WellFormedHeap le m a S → x ∉ S → S.card + 1 < depth →
      ∃ m' r, skewHeapInsert comp depth m a x = some (m', r) ∧ WellFormedHeap le m' r (x ::ₘ S) ∧
        ∀ y ∉ x ::ₘ S, m' y = m y) ∧
    (∀ a x S depth, WellFormedHeap le m a S → x ∈ S → S.card ≤ depth →
      ∃ m' r, skewHeapRemove comp depth m a x = some (m', r) ∧
        WellFormedHeap le m' r (S.erase x) ∧ ∀ y ∉ S, m' y = m y) ∧
    (∀ a S, WellFormedHeap le m a S →
      (a = none ↔ S = 0) ∧ ∀ x, a = some x → x ∈ S ∧ ∀ y ∈ S, le x y) ∧
    ∀ a S comp' le', WellFormedHeap le m (some a) S → Compares comp' le' →
      (∀ x ∈ S, ∀ y ∈ S, x ≠ a → y ≠ a → (le' x y ↔ le x y)) →
      ∀ x ∈ S, ∀ depth, S.card ≤ depth →
        ∃ m' r, skewHeapRemove comp' depth m (some a) x = some (m', r) ∧
          (x = a → WellFormedHeap le' m' r (S.erase a)) ∧
          (x ≠ a → r = some a ∧ WellFormedHeap (Raised a le') m' r (S.erase x)) ∧
          ∀ y ∉ S, m' y = m y := by
  refine ⟨fun a b S T depth hS hT hd hdepth => hS.merge hc hT hd hdepth,
    fun a x S depth hS hx hdepth => hS.insert hc hx hdepth, fun a x S depth hS hx hdepth => ?_,
    fun a S hS => hS.root_min hc,
    fun a S comp' le' hS hc' hle x hx depth hdepth => hS.remove_raised hc' hle hx hdepth⟩
  obtain ⟨m', r, hrun, hheap, -, hout⟩ := hS.remove hc.refl hc.trans
    (fun y _ z _ _ _ => hc.finds y z) hx hdepth
  exact ⟨m', r, hrun, hheap, hout⟩

end

/-- Three nodes, the least one above the others. -/
def heapOfThree : ℕ → SkewHeapEntry ℕ
  | 0 => ⟨none, some 1, some 2⟩
  | _ => ⟨some 0, none, none⟩

def compareNat (x y : ℕ) : ℤ := if x < y then -1 else if x = y then 0 else 1

theorem compareNat_compares : Compares compareNat (· ≤ ·) where
  total := Nat.le_total
  trans _ _ _ := Nat.le_trans
  less x y := by unfold compareNat; grind
  equal x y := by unfold compareNat; grind
  greater x y := by unfold compareNat; grind

theorem skew_heap_three : WellFormedHeap (· ≤ ·) heapOfThree (some 0) {0, 1, 2} ∧
    ∃ m' r, skewHeapRemove compareNat 3 heapOfThree (some 0) 1 = some (m', r) ∧
      WellFormedHeap (· ≤ ·) m' r {0, 2} ∧ ∀ y ∉ ({0, 1, 2} : Multiset ℕ),
        m' y = heapOfThree y := by
  have h : WellFormedHeap (· ≤ ·) heapOfThree (some 0) {0, 1, 2} := by
    refine ⟨.node (.node .nil 1 .nil) 0 (.node .nil 2 .nil), ?_, rfl, by decide, by decide, ?_⟩
    · simp [HeapLinks, heapOfThree, SkewHeap.root]
    · simp [SkewHeap.Sorted, SkewHeap.root]
  have hremove := (skew_heap compareNat_compares heapOfThree).2.2.1 (some 0) 1 {0, 1, 2} 3 h
    (by decide) (by decide)
  exact ⟨h, by simpa only [show ({0, 1, 2} : Multiset ℕ).erase 1 = {0, 2} by decide] using hremove⟩

end Ucore
