/-
  When `mm_map` rejects every overlap.

  `mm_map` looks for an overlap at the first address of the range only, and rounds the end of the
  range modulo `2 ^ 64`.

  * `mmMap_run`: what `mm_map` does;
  * `mm_map_exact_iff`: this is what it is to do unless the range, as computed, lies in user space
    and starts outside every area, and has wrapped or meets an area that starts later.
-/
import Ucore.Mm.VmmInv

namespace Ucore.Vmm

open Pmm (UserAccess userBase userTop)

variable {mm mm' : MmStruct} {v w : VmaStruct} {addr len start end_ a : ℕ} {room : Bool}
  {flags : BitVec 32}

/-- The end of a range, rounded up to a page. -/
def pageCeil (a : ℕ) : ℕ := (a + pgSize - 1) / pgSize * pgSize

theorem roundUp_eq (h : a + pgSize - 1 < 2 ^ 64) : roundUp a pgSize = pageCeil a := by
  unfold roundUp pageCeil roundDown
  rw [Nat.mod_eq_of_lt h]
  unfold pgSize
  omega

/-- Without a wrap, the range is computed right, or is not in user space. -/
theorem mapEnd_eq (h : addr + len < 2 ^ 64) :
    mapEnd addr len = pageCeil (addr + len) ∨
      mapEnd addr len = 0 ∧ userTop < pageCeil (addr + len) := by
  unfold mapEnd
  rw [Nat.mod_eq_of_lt h]
  by_cases hc : addr + len + pgSize - 1 < 2 ^ 64
  · exact .inl (roundUp_eq hc)
  · refine .inr ⟨?_, ?_⟩
    · unfold roundUp roundDown pgSize at *
      omega
    · unfold pageCeil userTop pgSize at *
      omega

theorem pageCeil_wrap (h : 2 ^ 64 ≤ addr + len) : userTop < pageCeil (addr + len) := by
  unfold pageCeil userTop pgSize
  omega

/-- What `mm_map` does. -/
theorem mmMap_run (room : Bool) (addr len : ℕ) (flags : BitVec 32) (h : mm.Ordered) :
    mmMap room addr len flags (some mm) =
    if ¬UserAccess (mapStart addr) (mapEnd addr len) then some (.error .inval, some mm)
    else if ∃ w ∈ mm.mmapList, w.Has (mapStart addr) then
      some (.error .inval, some (mm.found (mapStart addr)))
    else if room = false then some (.error .noMem, some mm)
    else if mm.Fits ⟨mapStart addr, mapEnd addr len, flags⟩ then
      some (.ok ⟨mapStart addr, mapEnd addr len, flags⟩,
        some (mm.insert ⟨mapStart addr, mapEnd addr len, flags⟩))
    else none := by
  unfold mmMap
  generalize mapStart addr = start
  generalize mapEnd addr len = end_
  by_cases hu : UserAccess start end_
  · rw [if_neg (not_not.2 hu), if_neg (not_not.2 hu),
      Code.bind_ok (rfl : deref (some mm) = some (.ok mm, some mm)),
      Code.bind_ok (findVma_run (m := mm) (a := start))]
    cases hs : mm.search start with
    | some w =>
      obtain ⟨hw, ha⟩ := h.search_iff.1 hs
      have hlt : w.vmStart < end_ := ha.1.trans_lt hu.2.1
      have hin : ∃ w ∈ mm.mmapList, w.Has start := ⟨w, hw, ha⟩
      rw [if_pos hin]
      simp only [Option.any_some, hlt, decide_true, if_true]
      rfl
    | none =>
      have hno : ¬∃ w ∈ mm.mmapList, w.Has start := fun ⟨w, hw, ha⟩ =>
        h.search_none.1 hs w hw ha
      have hf : mm.found start = mm := by simp [MmStruct.found, hs]
      rw [if_neg hno, hf]
      simp only [Option.any_none, Bool.false_eq_true, if_false]
      cases room with
      | false => rfl
      | true =>
        have hins := insertVmaStruct_run (v := ⟨start, end_, flags⟩) h
        simp only [vmaCreate, if_true, Bool.true_eq_false, if_false]
        split
        · rename_i hfit
          rw [if_pos hfit] at hins
          exact Code.bind_ok hins
        · rename_i hfit
          rw [if_neg hfit] at hins
          exact Code.bind_none hins
  · rw [if_pos hu, if_pos hu]
    rfl

/-- The areas are the same. -/
def Same (mm mm' : MmStruct) : Prop :=
  mm'.mmapList = mm.mmapList ∧ mm'.mapCount = mm.mapCount

/-- The area has been put between two others. -/
def Inserted (mm mm' : MmStruct) (v : VmaStruct) : Prop :=
  mm'.Ordered ∧ mm'.mapCount = mm.mapCount + 1 ∧
    ∃ l l', mm.mmapList = l ++ l' ∧ mm'.mmapList = l ++ v :: l'

/-- What `mm_map` is to do: a range that is not in user space, or meets an area, is rejected, and
    any other one is inserted if there is memory for its area. -/
def MapsExactly (room : Bool) (mm : MmStruct) (addr len : ℕ) (flags : BitVec 32) : Prop :=
  ∃ r mm', mmMap room addr len flags (some mm) = some (r, some mm') ∧
    if UserAccess (mapStart addr) (pageCeil (addr + len)) ∧
        ∀ w ∈ mm.mmapList, ¬w.Meets (mapStart addr) (pageCeil (addr + len)) then
      if room then
        r = .ok ⟨mapStart addr, pageCeil (addr + len), flags⟩ ∧
          Inserted mm mm' ⟨mapStart addr, pageCeil (addr + len), flags⟩
      else r = .error .noMem ∧ Same mm mm'
    else r = .error .inval ∧ Same mm mm'

/-- The range, as computed, is in user space and starts outside every area, and has wrapped or meets
    an area. -/
def Slips (mm : MmStruct) (addr len : ℕ) : Prop :=
  UserAccess (mapStart addr) (mapEnd addr len) ∧ (∀ w ∈ mm.mmapList, ¬w.Has (mapStart addr)) ∧
    (2 ^ 64 ≤ addr + len ∨
      ∃ w ∈ mm.mmapList, mapStart addr < w.vmStart ∧ w.vmStart < mapEnd addr len)

instance (mm : MmStruct) (addr len : ℕ) : Decidable (Slips mm addr len) :=
  inferInstanceAs (Decidable (_ ∧ _ ∧ _))

theorem inserted_insert (h : mm.Ordered) (hv : mm.Fits v) : Inserted mm (mm.insert v) v :=
  ⟨h.insert hv, rfl, mm.upTo v, mm.after v, (upTo_append_after mm v).symm, rfl⟩

/-- A range that slips is to be rejected. -/
theorem Slips.not_maps (ho : mm.Ordered) (h : Slips mm addr len) :
    ¬(UserAccess (mapStart addr) (pageCeil (addr + len)) ∧
      ∀ w ∈ mm.mmapList, ¬w.Meets (mapStart addr) (pageCeil (addr + len))) := by
  rintro ⟨hu, hno⟩
  obtain ⟨hu', hout, hw | ⟨w, hw, h1, h2⟩⟩ := h
  · exact absurd hu.2.2 (not_le.2 (pageCeil_wrap hw))
  · by_cases hlt : addr + len < 2 ^ 64
    · obtain e | ⟨e, -⟩ := mapEnd_eq hlt
      · rw [e] at h2
        exact hno w hw ⟨h2, h1.trans (ho.pos w hw)⟩
      · rw [e] at h2
        cases h2
    · exact absurd hu.2.2 (not_le.2 (pageCeil_wrap (not_lt.1 hlt)))

theorem fits_of_not_slips (hu : UserAccess (mapStart addr) (mapEnd addr len))
    (hout : ∀ w ∈ mm.mmapList, ¬w.Has (mapStart addr)) (hs : ¬Slips mm addr len) :
    mapEnd addr len = pageCeil (addr + len) ∧
      ∀ w ∈ mm.mmapList, ¬w.Meets (mapStart addr) (mapEnd addr len) := by
  refine ⟨?_, fun w hw hm => ?_⟩
  · have hlt : addr + len < 2 ^ 64 := not_le.1 fun hw => hs ⟨hu, hout, .inl hw⟩
    obtain e | ⟨e, -⟩ := mapEnd_eq hlt
    · exact e
    · exact absurd hu.2.1 (by omega)
  · by_cases hlt : w.vmStart ≤ mapStart addr
    · exact hout w hw ⟨hlt, hm.2⟩
    · exact hs ⟨hu, hout, .inr ⟨w, hw, not_le.1 hlt, hm.1⟩⟩

/-- **`mm_map` rejects every overlap** exactly if it does not slip. -/
theorem mm_map_exact_iff (h : mm.Ordered) :
    MapsExactly room mm addr len flags ↔ ¬Slips mm addr len := by
  have hrun := mmMap_run room addr len flags h
  by_cases hu : UserAccess (mapStart addr) (mapEnd addr len)
  · rw [if_neg (not_not.2 hu)] at hrun
    by_cases hin : ∃ w ∈ mm.mmapList, w.Has (mapStart addr)
    · rw [if_pos hin] at hrun
      refine iff_of_true ⟨_, _, hrun, ?_⟩ fun hs => ?_
      · rw [if_neg]
        · exact ⟨rfl, MmStruct.found_mmapList, MmStruct.found_mapCount⟩
        · rintro ⟨hc, hno⟩
          obtain ⟨w, hw, h1, h2⟩ := hin
          exact hno w hw ⟨h1.trans_lt hc.2.1, h2⟩
      · obtain ⟨w, hw, hw'⟩ := hin
        exact hs.2.1 w hw hw'
    · rw [if_neg hin] at hrun
      have hout : ∀ w ∈ mm.mmapList, ¬w.Has (mapStart addr) := fun w hw hw' => hin ⟨w, hw, hw'⟩
      by_cases hs : Slips mm addr len
      · refine iff_of_false ?_ (not_not.2 hs)
        rintro ⟨r, mm', hr, hdo⟩
        rw [if_neg (hs.not_maps h)] at hdo
        rw [hr] at hrun
        obtain ⟨rfl, -⟩ := hdo
        split at hrun
        · cases hrun
        · split at hrun <;> cases hrun
      · obtain ⟨e, hfit⟩ := fits_of_not_slips hu hout hs
        refine iff_of_true ?_ hs
        unfold MapsExactly
        rw [← e]
        have hok : UserAccess (mapStart addr) (mapEnd addr len) ∧
            ∀ w ∈ mm.mmapList, ¬w.Meets (mapStart addr) (mapEnd addr len) := ⟨hu, hfit⟩
        simp only [if_pos hok]
        have hfits : mm.Fits ⟨mapStart addr, mapEnd addr len, flags⟩ := ⟨hu.2.1, hfit⟩
        cases room with
        | false => exact ⟨_, _, hrun, rfl, rfl, rfl⟩
        | true =>
          simp only [Bool.true_eq_false, if_false, if_pos hfits] at hrun
          exact ⟨_, _, hrun, rfl, inserted_insert h hfits⟩
  · rw [if_pos hu] at hrun
    have hno : ¬UserAccess (mapStart addr) (pageCeil (addr + len)) := by
      intro hc
      by_cases hw : addr + len < 2 ^ 64
      · obtain e | ⟨-, e⟩ := mapEnd_eq hw
        · rw [e] at hu
          exact hu hc
        · exact absurd hc.2.2 (by omega)
      · have := pageCeil_wrap (not_lt.1 hw)
        exact absurd hc.2.2 (by omega)
    refine iff_of_true ⟨_, _, hrun, ?_⟩ fun hs => hu hs.1
    rw [if_neg fun e => hno e.1]
    exact ⟨rfl, rfl, rfl⟩

/-- Memory between the two areas is mapped. -/
theorem mm_map_exact_between : MapsExactly true twoAreas 0x202000 0xFE000 vmRead :=
  (mm_map_exact_iff (ordered_of_reach reach_twoAreas)).2 (by decide)

/-- A range from below an area into it fails an assertion. -/
theorem mm_map_fails : ¬MapsExactly true twoAreas 0x2FF000 0x2000 vmRead := by
  rintro ⟨r, mm', hr, -⟩
  have hrun : mmMap true 0x2FF000 0x2000 vmRead (some twoAreas) = none := by decide
  rw [hrun] at hr
  cases hr

end Ucore.Vmm
