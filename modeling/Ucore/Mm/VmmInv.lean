/-
  The areas of an `mm` are in order and disjoint, and the cache changes nothing.

  * `MmStruct.Ordered`: what every `mm` keeps;
  * `Ordered.search_iff`: the area that is found is the one that has the address;
  * `insertVmaStruct_run`: an area is inserted exactly if it fits between the others;
  * `vma_lookup`: all of this for any sequence of insertions and lookups.
-/
import Ucore.Mm.Vmm
import Ucore.Lib.Machine
import Mathlib.Data.List.TakeWhile

namespace Ucore.Vmm

variable {mm mm' : MmStruct} {vma v w : VmaStruct} {addr a : ℕ} {l l' : List VmaStruct}

/-- The areas are not empty, in order, and disjoint. -/
structure InOrder (l : List VmaStruct) : Prop where
  sorted : l.Pairwise fun v w => v.vmEnd ≤ w.vmStart
  pos : ∀ v ∈ l, v.vmStart < v.vmEnd

/-- The cache holds an area of the list, if any. -/
structure MmStruct.Ordered (mm : MmStruct) : Prop extends InOrder mm.mmapList where
  cache : ∀ v, mm.mmapCache = some v → v ∈ mm.mmapList
  count : mm.mapCount = mm.mmapList.length

/-- The area meets the range. -/
def VmaStruct.Meets (v : VmaStruct) (start end_ : ℕ) : Prop := v.vmStart < end_ ∧ start < v.vmEnd

instance (v : VmaStruct) (start end_ : ℕ) : Decidable (v.Meets start end_) :=
  inferInstanceAs (Decidable (_ ∧ _))

/-- The area is not empty, and meets none of the others. -/
def MmStruct.Fits (mm : MmStruct) (v : VmaStruct) : Prop :=
  v.vmStart < v.vmEnd ∧ ∀ w ∈ mm.mmapList, ¬w.Meets v.vmStart v.vmEnd

instance (mm : MmStruct) (v : VmaStruct) : Decidable (mm.Fits v) :=
  inferInstanceAs (Decidable (_ ∧ _))

/-! ## Lookup -/

namespace InOrder

/-- **An address has at most one area.** -/
theorem unique (h : InOrder l) (hv : v ∈ l) (hw : w ∈ l) (ha : v.Has a) (hb : w.Has a) : v = w := by
  obtain ⟨l1, l2, rfl⟩ := List.append_of_mem hv
  have ho := h.sorted
  simp only [List.pairwise_append, List.pairwise_cons, List.mem_cons] at ho
  simp only [List.mem_append, List.mem_cons] at hw
  obtain ⟨h1, h2⟩ := ha
  obtain ⟨h3, h4⟩ := hb
  rcases hw with hw | rfl | hw
  · have := ho.2.2 w hw v (.inl rfl)
    omega
  · rfl
  · have := ho.2.1.1 w hw
    omega

theorem starts (h : InOrder l) : l.Pairwise fun v w => v.vmStart < w.vmStart := by
  refine h.sorted.imp_of_mem fun {v w} hv _ hvw => ?_
  have := h.pos v hv
  omega

/-- A new area between those below it and those above it. -/
theorem insert (h : InOrder (l ++ l')) (hl : ∀ w ∈ l, w.vmEnd ≤ v.vmStart)
    (hr : ∀ w ∈ l', v.vmEnd ≤ w.vmStart) (hv : v.vmStart < v.vmEnd) : InOrder (l ++ v :: l') := by
  have ho := List.pairwise_append.1 h.sorted
  constructor
  · rw [List.pairwise_append, List.pairwise_cons]
    refine ⟨ho.1, ⟨hr, ho.2.1⟩, fun x hx y hy => ?_⟩
    rcases List.mem_cons.1 hy with rfl | hy
    · exact hl x hx
    · exact ho.2.2 x hx y hy
  · intro w hw
    rw [List.mem_append, List.mem_cons] at hw
    rcases hw with hw | rfl | hw
    · exact h.pos w (List.mem_append_left _ hw)
    · exact hv
    · exact h.pos w (List.mem_append_right _ hw)

end InOrder

theorem find_iff (h : InOrder l) : l.find? (·.Has a) = some v ↔ v ∈ l ∧ v.Has a := by
  constructor
  · intro hf
    exact ⟨List.mem_of_find?_eq_some hf, by simpa using List.find?_some hf⟩
  · rintro ⟨hv, ha⟩
    obtain ⟨w, hw⟩ : ∃ w, l.find? (·.Has a) = some w := by
      rw [← Option.isSome_iff_exists, List.find?_isSome]
      exact ⟨v, hv, by simpa using ha⟩
    have hmem := List.mem_of_find?_eq_some hw
    have hhas : w.Has a := by simpa using List.find?_some hw
    rw [hw, h.unique hmem hv hhas ha]

namespace MmStruct.Ordered

/-- **The cache is not seen.** -/
theorem search_eq (h : mm.Ordered) : mm.search a = mm.mmapList.find? (·.Has a) := by
  unfold search
  split
  · rename_i v hv
    split
    · rename_i ha
      exact ((find_iff h.toInOrder).2 ⟨h.cache v hv, ha⟩).symm
    · rfl
  · rfl

theorem search_iff (h : mm.Ordered) : mm.search a = some v ↔ v ∈ mm.mmapList ∧ v.Has a := by
  rw [h.search_eq, find_iff h.toInOrder]

theorem search_none (h : mm.Ordered) : mm.search a = none ↔ ∀ v ∈ mm.mmapList, ¬v.Has a := by
  rw [h.search_eq, List.find?_eq_none]
  simp

end MmStruct.Ordered

/-- The `mm` after a lookup. -/
def MmStruct.found (mm : MmStruct) (addr : ℕ) : MmStruct :=
  match mm.search addr with
  | none => mm
  | some vma => { mm with mmapCache := some vma }

@[simp] theorem MmStruct.found_mmapList : (mm.found addr).mmapList = mm.mmapList := by
  unfold found
  split <;> rfl

@[simp] theorem MmStruct.found_mapCount : (mm.found addr).mapCount = mm.mapCount := by
  unfold found
  split <;> rfl

theorem MmStruct.Ordered.found (h : mm.Ordered) (addr : ℕ) : (mm.found addr).Ordered := by
  unfold MmStruct.found
  split
  · exact h
  · rename_i vma hs
    exact ⟨h.toInOrder, fun v hv => Option.some.inj hv ▸ (h.search_iff.1 hs).1, h.count⟩

theorem findVma_run {m : MmStruct} :
    findVma a (some m) = some (.ok (m.search a), some (m.found a)) := by
  unfold findVma MmStruct.found
  rw [Code.bind_ok (rfl : (Code.get : M (Option MmStruct)) (some m) = _)]
  cases hs : m.search a <;> simp only [hs] <;> rfl

/-! ## Insertion -/

/-- The `mm` after an insertion. -/
def MmStruct.insert (mm : MmStruct) (v : VmaStruct) : MmStruct :=
  { mm with
    mmapList := mm.upTo v ++ v :: mm.after v
    mapCount := mm.mapCount + 1 }

theorem upTo_append_after (mm : MmStruct) (v : VmaStruct) :
    mm.upTo v ++ mm.after v = mm.mmapList :=
  List.takeWhile_append_dropWhile

theorem mem_insert : w ∈ (mm.insert v).mmapList ↔ w = v ∨ w ∈ mm.mmapList := by
  rw [← upTo_append_after mm v]
  simp only [MmStruct.insert, List.mem_append, List.mem_cons]
  tauto

theorem mem_upTo (h : w ∈ mm.upTo v) : w.vmStart ≤ v.vmStart := by
  simpa using List.mem_takeWhile_imp h

namespace MmStruct.Ordered

theorem upTo_after (h : mm.Ordered) : InOrder (mm.upTo v ++ mm.after v) := by
  rw [upTo_append_after]
  exact h.toInOrder

theorem mem_after (h : mm.Ordered) (hw : w ∈ mm.after v) : v.vmStart < w.vmStart := by
  have hs := (List.pairwise_append.1 (h.upTo_after (v := v)).starts).2.1
  have hne : mm.after v ≠ [] := List.ne_nil_of_mem hw
  have hhead : v.vmStart < ((mm.after v).head hne).vmStart := by
    have := List.head_dropWhile_not (fun w : VmaStruct => decide (w.vmStart ≤ v.vmStart)) hne
    exact not_le.1 (of_decide_eq_false this)
  cases ha : mm.after v with
  | nil => exact absurd ha hne
  | cons x xs =>
    simp only [ha, List.head_cons] at hhead
    rw [ha] at hs hw
    rcases List.mem_cons.1 hw with rfl | hw
    · exact hhead
    · have := (List.pairwise_cons.1 hs).1 w hw
      omega

/-- The area before the new one speaks for all before it. -/
theorem below_iff (h : mm.Ordered) : (∀ w ∈ mm.upTo v, w.vmEnd ≤ v.vmStart) ↔
    ∀ w, (mm.upTo v).getLast? = some w → w.vmEnd ≤ v.vmStart := by
  constructor
  · intro hall w hw
    exact hall w (List.mem_of_getLast? hw)
  · intro hlast w hw
    have ho := (List.pairwise_append.1 (h.upTo_after (v := v)).sorted).1
    obtain hnil | ⟨l, x, hx⟩ := List.eq_nil_or_concat' (mm.upTo v)
    · rw [hnil] at hw
      cases hw
    have hxe := hlast x (by rw [hx, List.getLast?_concat])
    have hxs : x.vmStart < x.vmEnd := (h.upTo_after (v := v)).pos x (by simp [hx])
    rw [hx] at hw ho
    rw [List.mem_append, List.mem_singleton] at hw
    rcases hw with hw | rfl
    · have := (List.pairwise_append.1 ho).2.2 w hw x (by simp)
      omega
    · exact hxe

/-- The area after the new one speaks for all after it. -/
theorem above_iff (h : mm.Ordered) : (∀ w ∈ mm.after v, v.vmEnd ≤ w.vmStart) ↔
    ∀ w, (mm.after v).head? = some w → v.vmEnd ≤ w.vmStart := by
  constructor
  · intro hall w hw
    exact hall w (List.mem_of_head? hw)
  · intro hhead w hw
    have ho := (List.pairwise_append.1 (h.upTo_after (v := v)).starts).2.1
    cases ha : mm.after v with
    | nil =>
      rw [ha] at hw
      cases hw
    | cons x xs =>
      have hx := hhead x (by rw [ha, List.head?_cons])
      rw [ha] at hw ho
      rcases List.mem_cons.1 hw with rfl | hw
      · exact hx
      · have := (List.pairwise_cons.1 ho).1 w hw
        omega

/-- The new area fits exactly if it meets neither neighbour. -/
theorem fits_iff (h : mm.Ordered) : mm.Fits v ↔ v.vmStart < v.vmEnd ∧
    (∀ w ∈ mm.upTo v, w.vmEnd ≤ v.vmStart) ∧ ∀ w ∈ mm.after v, v.vmEnd ≤ w.vmStart := by
  refine and_congr_right fun hv => ?_
  rw [← upTo_append_after mm v, List.forall_mem_append]
  refine and_congr (forall₂_congr fun w hw => ?_) (forall₂_congr fun w hw => ?_)
  · have h1 := mem_upTo hw
    unfold VmaStruct.Meets
    omega
  · have h1 := h.mem_after hw
    have h2 := (h.upTo_after (v := v)).pos w (List.mem_append_right _ hw)
    unfold VmaStruct.Meets
    omega

theorem insert (h : mm.Ordered) (hv : mm.Fits v) : (mm.insert v).Ordered := by
  obtain ⟨hpos, hl, hr⟩ := h.fits_iff.1 hv
  refine ⟨h.upTo_after.insert hl hr hpos, fun w hw => mem_insert.2 (.inr (h.cache w hw)), ?_⟩
  have hlen := congrArg List.length (upTo_append_after mm v)
  rw [List.length_append] at hlen
  have hcount := h.count
  simp only [MmStruct.insert, List.length_append, List.length_cons]
  omega

end MmStruct.Ordered

theorem checkVmaOverlap_run {s : Option MmStruct} (hv : v.vmStart < v.vmEnd)
    (hw : w.vmStart < w.vmEnd) :
    checkVmaOverlap v w s = if v.vmEnd ≤ w.vmStart then some (.ok (), s) else none := by
  unfold checkVmaOverlap
  rw [Code.assert_bind hv]
  split
  · rename_i h
    rw [Code.assert_bind h]
    exact if_pos hw
  · rename_i h
    exact Code.bind_none (if_neg h)

section
variable (h : mm.Ordered)
include h

theorem checkPrev_run (hv : v.vmStart < v.vmEnd) : checkPrev v (mm.upTo v).getLast? (some mm) =
    if ∀ w ∈ mm.upTo v, w.vmEnd ≤ v.vmStart then some (.ok (), some mm) else none := by
  rw [if_congr h.below_iff rfl rfl]
  cases hl : (mm.upTo v).getLast? with
  | none => exact (if_pos nofun).symm
  | some w =>
    have hw := h.upTo_after.pos w (List.mem_append_left _ (List.mem_of_getLast? hl))
    rw [checkPrev, checkVmaOverlap_run hw hv]
    simp

theorem checkNext_run (hv : v.vmStart < v.vmEnd) : checkNext v (mm.after v).head? (some mm) =
    if ∀ w ∈ mm.after v, v.vmEnd ≤ w.vmStart then some (.ok (), some mm) else none := by
  rw [if_congr h.above_iff rfl rfl]
  cases hl : (mm.after v).head? with
  | none => exact (if_pos nofun).symm
  | some w =>
    have hw := h.upTo_after.pos w (List.mem_append_right _ (List.mem_of_head? hl))
    rw [checkNext, checkVmaOverlap_run hv hw]
    simp

/-- **An insertion succeeds exactly if the area fits.** -/
theorem insertVmaStruct_run : insertVmaStruct v (some mm) =
    if mm.Fits v then some (.ok (), some (mm.insert v)) else none := by
  rw [if_congr h.fits_iff rfl rfl]
  unfold insertVmaStruct
  by_cases hv : v.vmStart < v.vmEnd
  · have hprev := checkPrev_run h hv
    have hnext := checkNext_run h hv
    rw [Code.assert_bind hv, Code.bind_ok (rfl : deref (some mm) = some (.ok mm, some mm))]
    by_cases hl : ∀ w ∈ mm.upTo v, w.vmEnd ≤ v.vmStart
    · rw [if_pos hl] at hprev
      rw [Code.bind_ok hprev]
      by_cases hr : ∀ w ∈ mm.after v, v.vmEnd ≤ w.vmStart
      · rw [if_pos hr] at hnext
        rw [Code.bind_ok hnext, if_pos ⟨hv, hl, hr⟩]
        rfl
      · rw [if_neg hr] at hnext
        rw [Code.bind_none hnext, if_neg fun e => hr e.2.2]
    · rw [if_neg hl] at hprev
      rw [Code.bind_none hprev, if_neg fun e => hl e.2.1]
  · rw [if_neg fun e => hv e.1]
    exact Code.bind_none (if_neg hv)

end

/-! ## Runs -/

inductive VmaOp where
  | insert (vma : VmaStruct)
  | find (addr : ℕ)

/-- The operations on one `mm`; an insertion that fails an assertion is not a step. -/
def vmaStep (mm : MmStruct) : VmaOp → Option MmStruct
  | .insert vma => (insertVmaStruct vma (some mm)).bind Prod.snd
  | .find addr => (findVma addr (some mm)).bind Prod.snd

def vmaMachine : Machine MmStruct VmaOp where
  Init mm := mm = mmCreate
  Legal _ _ := True
  step := vmaStep

theorem ordered_mmCreate : mmCreate.Ordered := ⟨⟨.nil, nofun⟩, nofun, rfl⟩

theorem MmStruct.Ordered.step {op : VmaOp} (h : mm.Ordered) (hs : vmaStep mm op = some mm') :
    mm'.Ordered := by
  cases op with
  | insert v =>
    rw [vmaStep, insertVmaStruct_run h] at hs
    split at hs
    · rename_i hv
      cases hs
      exact h.insert hv
    · cases hs
  | find a =>
    rw [vmaStep, findVma_run] at hs
    cases hs
    exact h.found a

theorem ordered_of_reach (h : vmaMachine.Reach mm) : mm.Ordered :=
  h.preserved (fun _ h0 => h0 ▸ ordered_mmCreate) fun _ _ _ hi _ hs => hi.step hs

/-- **Lookup.**  After any insertions and lookups, the areas are in order, disjoint and not empty;
    they are counted; the cache is one of them or `NULL`; and `find_vma` returns the one area that
    has the address or `NULL`, which is what a search of the list finds. -/
theorem vma_lookup (h : vmaMachine.Reach mm) :
    mm.mmapList.Pairwise (fun v w => v.vmStart < w.vmStart ∧ v.vmEnd ≤ w.vmStart) ∧
      (∀ v ∈ mm.mmapList, v.vmStart < v.vmEnd) ∧ mm.mapCount = mm.mmapList.length ∧
      (∀ v, mm.mmapCache = some v → v ∈ mm.mmapList) ∧
      ∀ addr, ∃ r mm', findVma addr (some mm) = some (.ok r, some mm') ∧
        mm'.mmapList = mm.mmapList ∧ r = mm.mmapList.find? (·.Has addr) ∧
        (∀ v, r = some v ↔ v ∈ mm.mmapList ∧ v.Has addr) ∧
        ∀ v w, v ∈ mm.mmapList → w ∈ mm.mmapList → v.Has addr → w.Has addr → v = w := by
  have ho := ordered_of_reach h
  refine ⟨ho.starts.and ho.sorted, ho.pos, ho.count, ho.cache, fun addr => ?_⟩
  exact ⟨_, _, findVma_run, MmStruct.found_mmapList, ho.search_eq, fun v => ho.search_iff,
    fun v w hv hw ha hb => ho.unique hv hw ha hb⟩

instance (mm : MmStruct) (op : VmaOp) : Decidable (vmaMachine.Legal mm op) := isTrue trivial

/-- An area that may be read, and a stack above it. -/
def twoAreas : MmStruct where
  mmapList := [⟨0x200000, 0x202000, vmRead⟩, ⟨0x300000, 0x304000, vmRead ||| vmWrite ||| vmStack⟩]
  mmapCache := some ⟨0x200000, 0x202000, vmRead⟩
  mapCount := 2

theorem reach_twoAreas : vmaMachine.Reach twoAreas :=
  have hrun : vmaMachine.run mmCreate [.insert ⟨0x300000, 0x304000, vmRead ||| vmWrite ||| vmStack⟩,
      .insert ⟨0x200000, 0x202000, vmRead⟩, .find 0x200000] = some twoAreas := by decide
  (Machine.Reach.init (s := mmCreate) rfl).run hrun

/-- An address of the stack, looked up after one of the other area. -/
theorem vma_lookup_stack : ∃ r mm', findVma 0x301000 (some twoAreas) = some (.ok r, some mm') ∧
    r = some ⟨0x300000, 0x304000, vmRead ||| vmWrite ||| vmStack⟩ := by
  obtain ⟨-, -, -, -, hfind⟩ := vma_lookup reach_twoAreas
  obtain ⟨r, mm', hrun, -, -, hr, -⟩ := hfind 0x301000
  exact ⟨r, mm', hrun, (hr _).2 (by decide)⟩

end Ucore.Vmm
