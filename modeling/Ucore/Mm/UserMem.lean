/-
  What `user_mem_check` allows.

  * `Accessible`: a byte that may be read, or written;
  * `checkLoop_run`: the loop goes from area to area, and checks every byte by its area;
  * `user_mem_check_exact`: an access is allowed exactly if each of its bytes is.
-/
import Ucore.Mm.VmmInv

namespace Ucore.Vmm

open Pmm (UserAccess userBase userTop)

variable {mm mm' : MmStruct} {v : VmaStruct} {addr len start end_ a b : ℕ} {w : Bool}

/-- The byte is in an area that allows the access, and not in the lowest page of a stack if it is to
    be written. -/
def Accessible (mm : MmStruct) (write : Bool) (b : ℕ) : Prop :=
  ∃ v ∈ mm.mmapList, v.Has b ∧ v.vmFlags &&& accessFlag write ≠ 0 ∧
    (write = true → v.vmFlags &&& vmStack ≠ 0 → v.vmStart + pgSize ≤ b)

instance (mm : MmStruct) (write : Bool) (b : ℕ) : Decidable (Accessible mm write b) :=
  inferInstanceAs (Decidable (∃ _ ∈ _, _))

theorem Accessible.congr (h : mm'.mmapList = mm.mmapList) :
    Accessible mm' w b ↔ Accessible mm w b := by
  rw [Accessible, h, Accessible]

/-- The area of a byte decides. -/
theorem accessible_iff (h : mm.Ordered) (hv : v ∈ mm.mmapList) (hb : v.Has b) :
    Accessible mm w b ↔ v.vmFlags &&& accessFlag w ≠ 0 ∧
      (w = true → v.vmFlags &&& vmStack ≠ 0 → v.vmStart + pgSize ≤ b) := by
  constructor
  · rintro ⟨u, hu, hb', hok⟩
    rwa [← h.unique hu hv hb' hb]
  · intro hok
    exact ⟨v, hv, hb, hok⟩

/-- **The loop of `user_mem_check`** -/
theorem checkLoop_run (he : end_ ≤ userTop) : ∀ n start mm, mm.Ordered → end_ - start < n →
    ∃ r mm', checkLoop w end_ n start (some mm) = some (.ok r, some mm') ∧ mm'.Ordered ∧
      mm'.mmapList = mm.mmapList ∧
      (r = true ↔ ∀ b, start ≤ b → b < end_ → Accessible mm w b) := by
  intro n
  induction n with
  | zero =>
    intro start mm _ hn
    omega
  | succ n ih =>
    intro start mm h hn
    rw [checkLoop]
    by_cases hlt : start < end_
    · rw [if_pos hlt, Code.bind_ok findVma_run]
      cases hs : mm.search start with
      | none =>
        refine ⟨false, mm.found start, rfl, h.found _, MmStruct.found_mmapList,
          ⟨nofun, fun hall => ?_⟩⟩
        obtain ⟨v, hv, hb, -⟩ := hall start le_rfl hlt
        exact absurd hb (h.search_none.1 hs v hv)
      | some v =>
        obtain ⟨hv, hb⟩ := h.search_iff.1 hs
        have hiff := accessible_iff (w := w) h hv hb
        have hstop : ∀ {r : Bool}, r = false → ¬Accessible mm w start →
            (r = true ↔ ∀ b, start ≤ b → b < end_ → Accessible mm w b) := fun hr hno =>
          ⟨fun e => absurd (hr.symm.trans e) Bool.false_ne_true,
            fun hall => absurd (hall start le_rfl hlt) hno⟩
        have hsmall : (v.vmStart + pgSize) % 2 ^ 64 = v.vmStart + pgSize := by
          have := hb.1
          unfold userTop at he
          unfold pgSize
          omega
        simp only [if_neg (not_lt.2 hb.1), hsmall]
        by_cases hf : v.vmFlags &&& accessFlag w = 0
        · refine ⟨false, mm.found start, by rw [if_pos hf]; rfl, h.found _,
            MmStruct.found_mmapList, hstop rfl fun hok => (hiff.1 hok).1 hf⟩
        · rw [if_neg hf]
          by_cases hg : w = true ∧ v.vmFlags &&& vmStack ≠ 0 ∧ start < v.vmStart + pgSize
          · refine ⟨false, mm.found start, by rw [if_pos hg]; rfl, h.found _,
              MmStruct.found_mmapList, hstop rfl fun hok => ?_⟩
            have := (hiff.1 hok).2 hg.1 hg.2.1
            exact absurd hg.2.2 (not_lt.2 this)
          · rw [if_neg hg]
            obtain ⟨r, mm', hrun, ho', hl', hr⟩ := ih v.vmEnd (mm.found start) (h.found _) (by
              have := hb.2
              omega)
            refine ⟨r, mm', hrun, ho', hl'.trans MmStruct.found_mmapList, hr.trans ?_⟩
            simp only [Accessible.congr MmStruct.found_mmapList]
            constructor
            · intro hall b h1 h2
              by_cases hbv : b < v.vmEnd
              · refine (accessible_iff h hv ⟨hb.1.trans h1, hbv⟩).2 ⟨hf, fun hw hst => ?_⟩
                have : ¬start < v.vmStart + pgSize := fun e => hg ⟨hw, hst, e⟩
                omega
              · exact hall b (not_lt.1 hbv) h2
            · intro hall b h1 h2
              have := hb.2
              exact hall b (by omega) h2
    · rw [if_neg hlt]
      refine ⟨true, mm, rfl, h, rfl, fun _ b h1 h2 => ?_, fun _ => rfl⟩
      omega

/-- The access is allowed exactly if the bytes are in user space and each of them is accessible. -/
theorem userMemCheck_run (h : mm.Ordered) (ha : addr < 2 ^ 64) (hl : len < 2 ^ 64)
    (hpos : 0 < len) :
    ∃ r mm', userMemCheck addr len w (some mm) = some (.ok r, some mm') ∧ mm'.Ordered ∧
      mm'.mmapList = mm.mmapList ∧
      (r = true ↔ (userBase ≤ addr ∧ addr + len ≤ userTop) ∧
        ∀ b, addr ≤ b → b < addr + len → Accessible mm w b) := by
  have hsum : UserAccess addr ((addr + len) % 2 ^ 64) ↔ userBase ≤ addr ∧ addr + len ≤ userTop := by
    unfold UserAccess userBase userTop
    omega
  unfold userMemCheck
  rw [Code.bind_ok (rfl : (Code.get : M (Option MmStruct)) (some mm) = _)]
  by_cases hu : UserAccess addr ((addr + len) % 2 ^ 64)
  · have hmod : (addr + len) % 2 ^ 64 = addr + len := by
      have := (hsum.1 hu).2
      unfold userTop at this
      omega
    have hle : addr + len ≤ userTop := (hsum.1 hu).2
    obtain ⟨r, mm', hrun, ho, hlist, hr⟩ := checkLoop_run (w := w) hle (len + 1) addr mm h
      (by omega)
    refine ⟨r, mm', ?_, ho, hlist, hr.trans ?_⟩
    · simp only [hu, not_true_eq_false, if_false]
      rw [hmod]
      exact hrun
    · exact ⟨fun hall => ⟨hsum.1 hu, hall⟩, fun hall => hall.2⟩
  · refine ⟨false, mm, ?_, h, rfl, ⟨nofun, fun hall => absurd (hsum.2 hall.1) hu⟩⟩
    simp only [hu, not_false_eq_true, if_true]
    rfl

/-- An access to bytes that are accessible passes. -/
theorem userMemCheck_pass (h : mm.Ordered) (hbase : userBase ≤ addr) (hpos : 0 < len)
    (he : addr + len ≤ userTop) (hall : ∀ b, addr ≤ b → b < addr + len → Accessible mm w b) :
    ∃ mm', userMemCheck addr len w (some mm) = some (.ok true, some mm') ∧ mm'.Ordered ∧
      mm'.mmapList = mm.mmapList := by
  have htop : userTop < 2 ^ 64 := by decide
  obtain ⟨r, mm', hrun, ho, hlist, hr⟩ : ∃ r mm',
      userMemCheck addr len w (some mm) = some (.ok r, some mm') ∧ _ :=
    userMemCheck_run h (by omega) (by omega) hpos
  obtain rfl : r = true := hr.2 ⟨⟨hbase, he⟩, hall⟩
  exact ⟨mm', hrun, ho, hlist⟩

/-- **`user_mem_check` is exact.**  It ends, and allows the access exactly if the bytes are in user
    space, without a wrap, and each of them is accessible. -/
theorem user_mem_check_exact (h : mm.Ordered) (ha : addr < 2 ^ 64) (hl : len < 2 ^ 64)
    (hpos : 0 < len) :
    ∃ r mm', userMemCheck addr len w (some mm) = some (.ok r, some mm') ∧ mm'.Ordered ∧
      mm'.mmapList = mm.mmapList ∧
      (r = true ↔ (userBase ≤ addr ∧ addr + len ≤ userTop) ∧
        ∀ b, addr ≤ b → b < addr + len → Accessible mm w b) :=
  userMemCheck_run h ha hl hpos

/-- Most of the stack may be written. -/
theorem user_mem_check_exact_stack : ∃ mm',
    userMemCheck 0x301000 0x3000 true (some twoAreas) = some (.ok true, some mm') := by
  obtain ⟨r, mm', hrun, -, -, hr⟩ := user_mem_check_exact (w := true)
    (ordered_of_reach reach_twoAreas) (by decide : 0x301000 < 2 ^ 64) (by decide : 0x3000 < 2 ^ 64)
    (by decide)
  have hok : r = true := hr.2 ⟨by decide, fun b h1 h2 =>
    ⟨⟨0x300000, 0x304000, vmRead ||| vmWrite ||| vmStack⟩, by decide,
      ⟨Nat.le_trans (by decide) h1, h2⟩, by decide, fun _ _ => h1⟩⟩
  exact ⟨mm', hok ▸ hrun⟩

end Ucore.Vmm
