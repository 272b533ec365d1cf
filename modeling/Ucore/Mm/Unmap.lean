/-
  What `unmap_range` does to a page directory, to the frames, and to the page tables.

  * `Phys.mapsIn`: how many entries of a range map a frame;
  * `Unmapped.maps_add`: a frame loses as many entries as the range had for it;
  * `unmap_range_exact`: the range is empty, and nothing else has changed but the counts of frames.
-/
import Ucore.Mm.PageRun

namespace Ucore.Pmm

/-- How many entries for pages of `[start, end_)` map the frame. -/
def Phys.mapsIn (s : Phys) (r start end_ p : ℕ) : ℕ :=
  ((Finset.Ico (start / pgSize) (end_ / pgSize)).filter fun n =>
    (s.lookup r (n * pgSize)).map ptePage = some p).card

variable {A : Allocator} {s t : Phys} {D I : Finset ℕ} {role role' : ℕ → Role}
  {x : ℕ → ℕ} {p r i j la start end_ : ℕ} {z : Slot}

/-! ## The slots of a range -/

def pageSlot (r n : ℕ) : Slot := slotOf r (n * pgSize)

theorem pageSlot_inj (hu : end_ ≤ userTop) :
    Set.InjOn (pageSlot r) (Finset.Ico (start / pgSize) (end_ / pgSize) : Set ℕ) := by
  intro n hn m hm e
  rw [Finset.coe_Ico, Set.mem_Ico] at hn hm
  have hv := (PageSys.slotOf_inj.1 e).2
  unfold vpn pgSize at *
  unfold userTop at hu
  omega

theorem inRange_iff (hs : start % pgSize = 0) (he : end_ % pgSize = 0) :
    InRange r start end_ z ↔ ∃ n ∈ Finset.Ico (start / pgSize) (end_ / pgSize),
      z = pageSlot r n := by
  constructor
  · rintro ⟨la, h1, h2, rfl⟩
    refine ⟨la / pgSize, Finset.mem_Ico.2 ?_, ?_⟩
    · unfold pgSize at *
      omega
    · refine slotOf_page ?_ ?_ ?_
      · exact Nat.mul_mod_left _ _
      · exact Nat.div_mul_le_self _ _
      · unfold pgSize
        omega
  · rintro ⟨n, hn, rfl⟩
    rw [Finset.mem_Ico] at hn
    refine ⟨n * pgSize, ?_, ?_, rfl⟩
    · unfold pgSize at *
      omega
    · unfold pgSize at *
      omega

/-- An address outside the range has its slot outside. -/
theorem not_inRange (hs : start % pgSize = 0) (he : end_ % pgSize = 0) (hu : end_ ≤ userTop)
    {r' : ℕ} (hla : la < 2 ^ 39) (h : r' ≠ r ∨ la < start ∨ end_ ≤ la) :
    ¬InRange r start end_ (slotOf r' la) := by
  rintro ⟨b, h1, h2, e⟩
  obtain ⟨rfl, hv⟩ := PageSys.slotOf_inj.1 e
  obtain h | h := h
  · exact h rfl
  · unfold vpn at hv
    unfold userTop at hu
    unfold pgSize at hs he
    omega

/-! ## Counts -/

section
variable (h : Unmapped s t D I role role' x (InRange r start end_))
  (hnone : ∀ z, InRange r start end_ z → t.pte z = none)
include h hnone

/-- **A frame loses the entries of the range.** -/
theorem Unmapped.maps_add (hr : r ∈ D) (hI : ∀ la < userTop, pdx1 la ∈ I)
    (hs : start % pgSize = 0) (he : end_ % pgSize = 0) (hu : end_ ≤ userTop) :
    t.maps D I p + s.mapsIn r start end_ p = s.maps D I p := by
  let R : Finset Slot := (Finset.Ico (start / pgSize) (end_ / pgSize)).image (pageSlot r)
  have hR : ∀ z, z ∈ R ↔ InRange r start end_ z := fun z => by
    rw [inRange_iff hs he, Finset.mem_image]
    exact ⟨fun ⟨n, hn, e⟩ => ⟨n, hn, e.symm⟩, fun ⟨n, hn, e⟩ => ⟨n, hn, e.symm⟩⟩
  have hsub : R ⊆ slots D I := by
    intro z hz
    obtain ⟨la, -, hla, rfl⟩ := (hR z).1 hz
    exact slotOf_mem hr (hI la (by omega))
  have hcount : refs R s.frame p = s.mapsIn r start end_ p := by
    rw [refs, Finset.filter_image, Finset.card_image_of_injOn]
    · rfl
    · intro n hn m hm e
      exact pageSlot_inj hu (Finset.mem_coe.2 (Finset.mem_filter.1 hn).1)
        (Finset.mem_coe.2 (Finset.mem_filter.1 hm).1) e
  have hrest : refs (slots D I \ R) s.frame p = t.maps D I p := by
    rw [Phys.maps, refs, refs]
    congr 1
    ext z
    simp only [Finset.mem_filter, Finset.mem_sdiff, hR]
    constructor
    · rintro ⟨⟨hz, hout⟩, hp⟩
      refine ⟨hz, ?_⟩
      obtain e | ⟨hin, -⟩ := h.pte z hz
      · rw [Phys.frame, e]
        exact hp
      · exact absurd hin hout
    · rintro ⟨hz, hp⟩
      obtain e | ⟨-, e⟩ := h.pte z hz
      · refine ⟨⟨hz, fun hin => ?_⟩, ?_⟩
        · rw [Phys.frame, hnone z hin] at hp
          cases hp
        · rw [Phys.frame, ← e]
          exact hp
      · rw [Phys.frame, e] at hp
        cases hp
  have hsplit : refs (slots D I \ R) s.frame p + refs R s.frame p = s.maps D I p := by
    rw [Phys.maps, refs, refs, refs, ← Finset.card_union_of_disjoint, ← Finset.filter_union,
      Finset.sdiff_union_of_subset hsub]
    exact Finset.disjoint_filter_filter Finset.sdiff_disjoint
  rw [← hrest, ← hcount, hsplit]

end

/-- The pages of the trees keep their roles. -/
theorem Unmapped.node {Z : Slot → Prop} (h : Unmapped s t D I role role' x Z)
    (hs : Tables s D I role) (hp : role p ≠ .user) : role' p = role p := by
  rw [h.drops p, hs.maps_user hp, if_neg]
  omega

theorem Unmapped.role_iff {Z : Slot → Prop} {y : Role} (h : Unmapped s t D I role role' x Z)
    (hs : Tables s D I role) (hy : y.Node) : role' p = y ↔ role p = y := by
  by_cases hp : role p = .user
  · have hne : role' p ≠ y := by
      rw [h.drops p]
      split
      · rintro rfl
        exact hy
      · rintro rfl
        rw [hp] at hy
        exact hy
    have hne' : role p ≠ y := by
      rintro rfl
      rw [hp] at hy
      exact hy
    exact ⟨fun e => absurd e hne, fun e => absurd e hne'⟩
  · rw [h.node hs hp]

/-- **`unmap_range` is exact.**  In a memory whose page directories are trees, and whose frames have
    a reference for each entry that maps them and `x` more, it ends; no address of the range has a
    valid entry; every other mapping is as before; a frame has lost a reference for each entry of
    the range that mapped it, and is free if it has none left; and the page tables are the same,
    none of them free. -/
theorem unmap_range_exact (h : Frames s D I role x) (hr : r ∈ D)
    (hI : ∀ la < userTop, pdx1 la ∈ I) (hs : start % pgSize = 0) (he : end_ % pgSize = 0)
    (hu : UserAccess start end_) :
    ∃ t, unmapRange A r start end_ s = some (.ok (), t) ∧
      (∀ la, start ≤ la → la < end_ → t.lookup r la = none) ∧
      (∀ r' ∈ D, ∀ la < 2 ^ 39, pdx1 la ∈ I → (r' ≠ r ∨ la < start ∨ end_ ≤ la) →
        t.lookup r' la = s.lookup r' la) ∧
      (∀ p, t.ref p + s.mapsIn r start end_ p = s.ref p) ∧
      (∀ p, p ∈ t.free ↔ p ∈ s.free ∨ 0 < s.mapsIn r start end_ p ∧ t.ref p = 0) ∧
      (∀ r' ∈ D, ∀ i ∈ I, t.dirAt r' i = s.dirAt r' i ∧ ∀ j, t.tableAt r' i j = s.tableAt r' i j) ∧
      (∀ p, ¬(role p).Node → t.word p = s.word p) ∧ ∀ p, (role p).Node → p ∉ t.free := by
  obtain ⟨t, role', hrun, hF, hU, hnone⟩ := unmapRange_spec (A := A) h hr hI hs he hu
  obtain ⟨-, -, htop⟩ := hu
  have hmaps : ∀ p, t.maps D I p + s.mapsIn r start end_ p = s.maps D I p := fun p =>
    hU.maps_add hnone hr hI hs he htop
  have hzero : ∀ p, role p ≠ .user → s.mapsIn r start end_ p = 0 := fun p hp => by
    have := h.maps_user hp
    have := hmaps p
    omega
  have href : ∀ p, t.ref p + s.mapsIn r start end_ p = s.ref p := by
    intro p
    by_cases hp : role p = .user
    · have hsum := hmaps p
      have hcount := h.ref_user p hp
      have hdrop := hU.drops p
      by_cases hd : 0 < s.maps D I p ∧ t.maps D I p + x p = 0
      · rw [if_pos hd] at hdrop
        rw [hF.ref_free p hdrop, hcount]
        omega
      · rw [if_neg hd] at hdrop
        rw [hF.ref_user p (hdrop.trans hp), hcount]
        omega
    · rw [hU.ref p hp, hzero p hp]
      exact Int.add_zero _
  refine ⟨t, hrun, fun la h1 h2 => hnone _ ⟨la, h1, h2, rfl⟩, fun r' hr' la hla hi hout => ?_, href,
    fun p => ?_, fun r' hr' i hi => ⟨?_, fun j => ?_⟩, hU.word,
    fun p hp => ?_⟩
  · obtain e | ⟨hin, -⟩ := hU.pte (slotOf r' la) (slotOf_mem hr' hi)
    · exact e
    · exact absurd hin (not_inRange hs he htop hla hout)
  · rw [hF.free, h.free]
    by_cases hp : role p = .user
    · have hsum := hmaps p
      have hcount := h.ref_user p hp
      have hleft := href p
      rw [hU.drops p, hp]
      split
      · rename_i hd
        exact ⟨fun _ => .inr ⟨by omega, by omega⟩, fun _ => rfl⟩
      · rename_i hd
        refine ⟨nofun, ?_⟩
        rintro (hf | ⟨h1, h2⟩)
        · cases hf
        · exact absurd ⟨by omega, by omega⟩ hd
    · rw [hU.node h.toTables hp, hzero p hp]
      simp
  · exact Option.ext fun d => by
      rw [hF.dirAt_iff hr' hi, h.dirAt_iff hr' hi]
      exact hU.role_iff h.toTables (y := .dir r' i) trivial
  · exact Option.ext fun pt => by
      rw [hF.tableAt_iff hr' hi, h.tableAt_iff hr' hi]
      exact hU.role_iff h.toTables (y := .table r' i j) trivial
  · intro hf
    have hrole := (hF.free p).1 hf
    rw [hU.node h.toTables fun e => by simp [e, Role.Node] at hp] at hrole
    rw [hrole] at hp
    exact hp

namespace PageSys

/-- The page 4 is mapped at the lowest address of users. -/
def userMapped : PageSys :=
  (step firstFree heldOne (.pageInsert 1 4 0x200000 0x1F)).getD heldOne

theorem reach_userMapped : (machine firstFree {1, 2}).Reach userMapped := by
  obtain ⟨k, hk⟩ : ∃ k, step firstFree heldOne (.pageInsert 1 4 0x200000 0x1F) = some k := by
    refine Option.isSome_iff_exists.1 ?_
    decide
  refine .step (i := .pageInsert 1 4 0x200000 0x1F) reach_heldOne
    ⟨by decide, .inl (by decide), by decide⟩ ?_
  rw [userMapped, hk]
  exact hk

/-- The page had one reference, and is free after its range is unmapped. -/
theorem unmap_range_exact_page : ∃ t,
    unmapRange firstFree 1 0x200000 0x400000 userMapped.mem = some (.ok (), t) ∧
      userMapped.mem.ref 4 = 1 ∧ 4 ∉ userMapped.mem.free ∧ t.ref 4 = 0 ∧ 4 ∈ t.free := by
  obtain ⟨role, hi⟩ := reach_inv reach_userMapped
  obtain ⟨t, hrun, -, -, href, hfree, -⟩ := unmap_range_exact (A := firstFree) (r := 1)
    hi.frames (by decide) (fun la _ => entries_mem la) (by decide : 0x200000 % pgSize = 0)
    (by decide : 0x400000 % pgSize = 0) (by decide)
  have h1 : userMapped.mem.ref 4 = 1 := by decide
  have hf : 4 ∉ userMapped.mem.free := by decide
  have hcount : userMapped.mem.mapsIn 1 0x200000 0x400000 4 = 1 := by decide +kernel
  have ht := href 4
  rw [hcount, h1] at ht
  have h0 : t.ref 4 = 0 := by omega
  exact ⟨t, hrun, h1, hf, h0, (hfree 4).2 (.inr ⟨by omega, h0⟩)⟩

end PageSys

end Ucore.Pmm
