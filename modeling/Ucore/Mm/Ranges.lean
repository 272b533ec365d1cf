/-
  `unmap_range` and `copy_range`: walks over the entries of a range.

  * `walk_rule`: what the walk keeps;
  * `Unmapped`: entries have become empty, and frames that nothing maps any more are free;
  * `unmapRange_spec`: no address of the range is mapped afterwards.
-/
import Ucore.Mm.FrameRefs

namespace Ucore.Pmm

variable {A : Allocator} {s t u : Phys} {D I : Finset ℕ} {role role' role'' : ℕ → Role}
  {x : ℕ → ℕ} {p q r i j k pt la a start end_ : ℕ} {y z : Slot} {o : Option (BitVec 64)}

/-! ## Addresses -/

theorem nextTable_eq : nextTable a = (a / ptSize + 1) * ptSize := by
  unfold nextTable roundDown ptSize pgSize
  omega

theorem lt_nextTable (h : a % pgSize = 0) : a + pgSize ≤ nextTable a := by
  rw [nextTable_eq]
  unfold ptSize pgSize at *
  omega

theorem nextTable_mod : nextTable a % pgSize = 0 := by
  rw [nextTable_eq]
  unfold ptSize pgSize
  omega

/-- Up to the next table, the table is the same. -/
theorem index_nextTable (h : a ≤ la) (h' : la < nextTable a) :
    pdx1 la = pdx1 a ∧ pdx0 la = pdx0 a := by
  rw [nextTable_eq] at h'
  rw [pdx1_eq, pdx1_eq, pdx0_eq, pdx0_eq]
  unfold ptSize pgSize at h'
  omega

/-- In a page, the entry is the same. -/
theorem slotOf_page (h : a % pgSize = 0) (h1 : a ≤ la) (h2 : la < a + pgSize) :
    slotOf r la = slotOf r a := by
  have hv : vpn la = vpn a := by
    unfold vpn
    unfold pgSize at h h2
    omega
  obtain ⟨e1, e2, e3⟩ := index_inj.2 hv
  rw [slotOf, e1, e2, e3, slotOf]

/-! ## The walk -/

/-- **The walk.**  `P a` holds when everything below `a` has been done. -/
theorem walk_rule {P : ℕ → Phys → Prop} {Q : Option (Except Errno Unit × Phys) → Prop}
    {body : ℕ → ℕ × ℕ → M Unit}
    (hget : ∀ a s, start ≤ a → a < end_ → P a s → getPte A r a false s =
      some (.ok ((s.tableAt r (pdx1 a) (pdx0 a)).map fun pt => (pt, ptx a)), s))
    (hskip : ∀ a s, start ≤ a → a < end_ → a % pgSize = 0 → P a s →
      s.tableAt r (pdx1 a) (pdx0 a) = none → P (nextTable a) s)
    (hbody : ∀ a s pt, start ≤ a → a < end_ → a % pgSize = 0 → P a s →
      s.tableAt r (pdx1 a) (pdx0 a) = some pt →
      (∃ t, body a (pt, ptx a) s = some (.ok (), t) ∧ P (a + pgSize) t) ∨
        (∀ t, body a (pt, ptx a) s ≠ some (.ok (), t)) ∧ Q (body a (pt, ptx a) s))
    (hend : ∀ a s, end_ ≤ a → P a s → Q (some (.ok (), s))) :
    ∀ n a s, start ≤ a → a < end_ → a % pgSize = 0 → end_ - a < n * pgSize → P a s →
      Q (walk A r end_ body n a s) := by
  intro n
  induction n with
  | zero =>
    intro a s _ _ _ hn
    omega
  | succ n ih =>
    intro a s hs he hm hn hP
    have hnext : ∀ b t, a + pgSize ≤ b → b % pgSize = 0 → P b t →
        Q ((if b ≠ 0 ∧ b < end_ then walk A r end_ body n b else pure () : M Unit) t) := by
      intro b t hb hbm hPb
      unfold pgSize at hb
      by_cases hlt : b < end_
      · rw [if_pos ⟨by omega, hlt⟩]
        refine ih b t (by omega) hlt hbm ?_ hPb
        unfold pgSize at hn ⊢
        omega
      · rw [if_neg fun h => hlt h.2]
        exact hend b t (by omega) hPb
    rw [walk, Code.bind_ok (hget a s hs he hP)]
    cases ht : s.tableAt r (pdx1 a) (pdx0 a) with
    | none => exact hnext _ s (lt_nextTable hm) nextTable_mod (hskip a s hs he hm hP ht)
    | some pt =>
      obtain ⟨t, hrun, hPt⟩ | ⟨hno, hQ⟩ := hbody a s pt hs he hm hP ht
      · have hmod : (a + pgSize) % pgSize = 0 := by
          rw [Nat.add_mod_right, hm]
        simp only [Option.map_some]
        rw [Code.bind_ok hrun]
        exact hnext _ t le_rfl hmod hPt
      · simp only [Option.map_some]
        cases hrun : body a (pt, ptx a) s with
        | none =>
          rw [Code.bind_none hrun]
          exact hrun ▸ hQ
        | some o =>
          obtain ⟨e | ⟨⟩, t⟩ := o
          · rw [Code.bind_error hrun]
            exact hrun ▸ hQ
          · exact absurd hrun (hno t)

theorem pages_lt : end_ - start < pages start end_ * pgSize := by
  unfold pages pgSize
  omega

/-! ## `unmap_range` -/

/-- Some entries in `Z` have become empty. -/
structure Unmapped (s t : Phys) (D I : Finset ℕ) (role role' : ℕ → Role) (x : ℕ → ℕ)
    (Z : Slot → Prop) : Prop where
  pte : ∀ z ∈ slots D I, t.pte z = s.pte z ∨ Z z ∧ t.pte z = none
  drops : ∀ p, role' p =
    if 0 < s.maps D I p ∧ t.maps D I p + x p = 0 then .free else role p
  word : ∀ p, ¬(role p).Node → t.word p = s.word p
  ref : ∀ p, role p ≠ .user → t.ref p = s.ref p
  npage : t.npage = s.npage

namespace Unmapped

variable {Z : Slot → Prop}

theorem maps_le (h : Unmapped s t D I role role' x Z) : t.maps D I p ≤ s.maps D I p := by
  refine refs_mono fun z hz hp => ?_
  obtain e | ⟨-, e⟩ := h.pte z hz
  · rw [Phys.frame, ← e]
    exact hp
  · rw [Phys.frame, e] at hp
    cases hp

theorem refl : Unmapped s s D I role role x Z where
  pte _ _ := .inl rfl
  drops p := by
    rw [if_neg]
    omega
  word _ _ := rfl
  ref _ _ := rfl
  npage := rfl

theorem of_remapped (h : Remapped s t D I role role' x y none) (hy : y ∈ slots D I) (hZ : Z y) :
    Unmapped s t D I role role' x Z where
  pte z hz := by
    rw [h.pte z hz]
    split
    · rename_i e
      exact .inr ⟨e ▸ hZ, rfl⟩
    · exact .inl rfl
  drops p := by
    have hiff : (s.frame y = some p ∧ t.maps D I p + x p = 0) ↔
        0 < s.maps D I p ∧ t.maps D I p + x p = 0 := by
      constructor
      · rintro ⟨e, h0⟩
        exact ⟨maps_pos.2 ⟨y, hy, e⟩, h0⟩
      · rintro ⟨hpos, h0⟩
        obtain ⟨z, hz, e⟩ := maps_pos.1 hpos
        refine ⟨?_, h0⟩
        by_contra hne
        have ht : t.frame z = some p := by
          have hzy : z ≠ y := by
            rintro rfl
            exact hne e
          rw [Phys.frame, h.pte z hz, if_neg hzy]
          exact e
        have : 0 < t.maps D I p := maps_pos.2 ⟨z, hz, ht⟩
        omega
    rw [h.drops p]
    simp only [hiff]
  word := h.word
  ref := h.ref
  npage := h.npage

theorem trans (h : Unmapped s t D I role role' x Z) (h' : Unmapped t u D I role' role'' x Z) :
    Unmapped s u D I role role'' x Z where
  pte z hz := by
    obtain e | e := h'.pte z hz
    · rw [e]
      exact h.pte z hz
    · exact .inr e
  drops p := by
    have h1 := h.maps_le (p := p)
    have h2 := h'.maps_le (p := p)
    rw [h'.drops p, h.drops p]
    split
    · rw [if_pos (by omega)]
    · split
      · rw [if_pos (by omega)]
      · rw [if_neg (by omega)]
  word p hp := by
    have hp' : ¬(role' p).Node := by
      rw [h.drops p]
      split
      · exact id
      · exact hp
    rw [h'.word p hp', h.word p hp]
  ref p hp := by
    have hp' : role' p ≠ .user := by
      rw [h.drops p]
      split
      · simp
      · exact hp
    rw [h'.ref p hp', h.ref p hp]
  npage := h'.npage.trans h.npage

end Unmapped

/-- The slots of a range. -/
def InRange (r start end_ : ℕ) (z : Slot) : Prop := ∃ la, start ≤ la ∧ la < end_ ∧ z = slotOf r la

theorem unmapPage_spec (h : Frames s D I role x) (hpt : role pt = .table r i j) (hk : k < 512) :
    ∃ t role', unmapPage a (pt, k) s = some (.ok (), t) ∧ Frames t D I role' x ∧
      Remapped s t D I role role' x (r, i, j, k) none := by
  unfold unmapPage
  rw [Code.bind_ok (rfl : deref (pt, k) s = some (.ok (s.word pt k), s))]
  by_cases h0 : s.word pt k = 0
  · refine ⟨s, role, by rw [if_neg (not_not.2 h0)]; rfl, h, fun z _ => ?_, fun p => ?_,
      fun _ _ => rfl, fun _ _ => rfl, rfl⟩
    · split
      · rename_i e
        rw [e, h.pte_eq hpt, h0, leaf_zero]
      · rfl
    · rw [h.frame_eq hpt, h0, entry_zero, if_neg (by simp)]
  · rw [if_pos h0]
    exact pageRemovePte_spec h hpt hk

/-- **`unmap_range`** -/
theorem unmapRange_spec (h : Frames s D I role x) (hr : r ∈ D) (hI : ∀ la < userTop, pdx1 la ∈ I)
    (hs : start % pgSize = 0) (he : end_ % pgSize = 0) (hu : UserAccess start end_) :
    ∃ t role', unmapRange A r start end_ s = some (.ok (), t) ∧ Frames t D I role' x ∧
      Unmapped s t D I role role' x (InRange r start end_) ∧
      ∀ z, InRange r start end_ z → t.pte z = none := by
  unfold unmapRange
  rw [Code.assert_bind ⟨hs, he⟩, Code.assert_bind hu]
  obtain ⟨-, hlt, htop⟩ := hu
  have hmem : ∀ {la}, la < end_ → slotOf r la ∈ slots D I := fun hla =>
    slotOf_mem hr (hI _ (by omega))
  let P : ℕ → Phys → Prop := fun a t => ∃ role', Frames t D I role' x ∧
    Unmapped s t D I role role' x (InRange r start end_) ∧
    ∀ la, start ≤ la → la < a → la < end_ → t.pte (slotOf r la) = none
  let Q : Option (Except Errno Unit × Phys) → Prop := fun o => ∃ t role', o = some (.ok (), t) ∧
    Frames t D I role' x ∧ Unmapped s t D I role role' x (InRange r start end_) ∧
    ∀ z, InRange r start end_ z → t.pte z = none
  refine walk_rule (P := P) (Q := Q) ?_ ?_ ?_ ?_ _ start s le_rfl hlt hs pages_lt
    ⟨role, h, .refl, ?_⟩
  · rintro a t - ha ⟨role', hF, -, -⟩
    exact getPte_false hF.toTables hr (hI _ (by omega))
  · rintro a t hsa ha hm ⟨role', hF, hU, hdone⟩ hnone
    refine ⟨role', hF, hU, fun la h1 h2 h3 => ?_⟩
    by_cases hla : la < a
    · exact hdone la h1 hla h3
    · obtain ⟨e1, e2⟩ := index_nextTable (not_lt.1 hla) h2
      change (t.tableAt r (pdx1 la) (pdx0 la)).bind _ = none
      rw [e1, e2, hnone]
      rfl
  · rintro a t pt hsa ha hm ⟨role', hF, hU, hdone⟩ hpt
    obtain ⟨v, role'', hrun, hF', hR⟩ := unmapPage_spec (a := a) hF
      ((hF.tableAt_iff hr (hI _ (by omega))).1 hpt) (ptx_lt a)
    have hU' := Unmapped.of_remapped (Z := InRange r start end_) hR (hmem ha) ⟨a, hsa, ha, rfl⟩
    refine .inl ⟨v, hrun, role'', hF', hU.trans hU', fun la h1 h2 h3 => ?_⟩
    by_cases hla : la < a
    · obtain e | ⟨-, e⟩ := hU'.pte _ (hmem h3)
      · rw [e, hdone la h1 hla h3]
      · exact e
    · rw [slotOf_page hm (not_lt.1 hla) h2, hR.pte _ (hmem ha)]
      exact if_pos rfl
  · rintro a t hea ⟨role', hF, hU, hdone⟩
    refine ⟨t, role', rfl, hF, hU, ?_⟩
    rintro z ⟨la, h1, h2, rfl⟩
    exact hdone la h1 (by omega) h2
  · intro la h1 h2
    omega

end Ucore.Pmm
