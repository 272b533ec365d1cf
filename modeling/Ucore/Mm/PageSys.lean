/-
  Page directories under any sequence of operations.

  The system has the page directories `D`, and its callers hold pages that they have allocated and
  not yet mapped.

  * `FlowAt`: what an operation does to a page: a held page stays held, and a free or a mapped page
    becomes free, mapped, or a page table;
  * `PageSys.Inv`: a page is a user's if it is held or mapped;
  * `Inv.step`: every operation keeps this.
-/
import Ucore.Mm.CopyRange
import Ucore.Lib.Machine

namespace Ucore.Pmm

variable {A : Allocator} {s t u : Phys} {D I : Finset ℕ} {role role' role'' : ℕ → Role}
  {x : ℕ → ℕ} {p q r i j k pt la a page npage start end_ to_ from_ : ℕ} {y z : Slot}
  {o : Option (BitVec 64)} {perm : BitVec 32}

/-! ## What happens to a page -/

/-- The page is a table below a page directory. -/
def Role.Below : Role → Prop
  | .dir _ _ | .table _ _ _ => True
  | _ => False

/-- The page is free, mapped, or a page table. -/
def Settled (t : Phys) (D I : Finset ℕ) (role : ℕ → Role) (p : ℕ) : Prop :=
  role p = .free ∨ (role p).Below ∨ role p = .user ∧ 0 < t.maps D I p

structure FlowAt (s t : Phys) (D I : Finset ℕ) (role role' : ℕ → Role) (p : ℕ) : Prop where
  held : role p = .user → s.maps D I p = 0 → role' p = .user ∧ t.maps D I p = 0
  settled : role p = .free ∨ role p = .user ∧ 0 < s.maps D I p → Settled t D I role' p
  other : role p ≠ .free → role p ≠ .user → role' p = role p

namespace FlowAt

theorem refl : FlowAt s s D I role role p where
  held h h' := ⟨h, h'⟩
  settled h := h.imp id .inr
  other _ _ := rfl

theorem trans (h : FlowAt s t D I role role' p) (h' : FlowAt t u D I role' role'' p) :
    FlowAt s u D I role role'' p where
  held hp h0 := by
    obtain ⟨hp', h0'⟩ := h.held hp h0
    exact h'.held hp' h0'
  settled hp := by
    obtain hf | hn | hm := h.settled hp
    · exact h'.settled (.inl hf)
    · have e := h'.other (fun e => by rw [e] at hn; exact hn) fun e => by rw [e] at hn; exact hn
      exact .inr (.inl (e ▸ hn))
    · exact h'.settled (.inr hm)
  other hf hu := by
    have e := h.other hf hu
    rw [h'.other (e.trans_ne hf) (e.trans_ne hu), e]

theorem of_grown (h : Grown s t role role' r i j) (hs : Tables s D I role)
    (ht : Tables t D I role') : FlowAt s t D I role role' p := by
  have hm : t.maps D I p = s.maps D I p := maps_congr fun z hz => by
    obtain ⟨r', i', j', k'⟩ := z
    obtain ⟨hr, hi, -, -⟩ := mem_slots.1 hz
    exact h.pteAt hs ht hr hi
  refine ⟨fun hp h0 => ⟨h.user.2 hp, hm.trans h0⟩, fun hp => ?_, fun hf _ => h.keep p hf⟩
  obtain hf | ⟨hu, hpos⟩ := hp
  · obtain e | e | e := h.new p hf
    · exact .inl e
    · exact .inr (.inl (e ▸ trivial))
    · exact .inr (.inl (e ▸ trivial))
  · exact .inr (.inr ⟨h.user.2 hu, hm ▸ hpos⟩)

theorem of_remapped (h : Remapped s t D I role role' 0 y o) (hs : Tables s D I role)
    (hy : y ∈ slots D I) (hp : o.map ptePage ≠ some p) : FlowAt s t D I role role' p := by
  have hmaps := h.maps (p := p) hy
  rw [if_neg hp, Nat.add_zero] at hmaps
  have hdrop := h.drops p
  have huser : s.frame y = some p → role p = .user := hs.frame_user hy
  refine ⟨fun hu h0 => ?_, fun hp' => ?_, fun hf hu => ?_⟩
  · have hne : s.frame y ≠ some p := maps_eq_zero.1 h0 y hy
    rw [if_neg hne, Nat.add_zero] at hmaps
    rw [if_neg fun e => hne e.1] at hdrop
    exact ⟨hdrop.trans hu, hmaps.trans h0⟩
  · by_cases hd : s.frame y = some p ∧ t.maps D I p + (0 : ℕ → ℕ) p = 0
    · rw [if_pos hd] at hdrop
      exact .inl hdrop
    · rw [if_neg hd] at hdrop
      obtain hf | ⟨hu, hpos⟩ := hp'
      · exact .inl (hdrop.trans hf)
      · refine .inr (.inr ⟨hdrop.trans hu, ?_⟩)
        by_cases he : s.frame y = some p
        · exact Nat.pos_of_ne_zero fun e => hd ⟨he, e⟩
        · rw [if_neg he, Nat.add_zero] at hmaps
          omega
  · rw [hdrop, if_neg fun e => hu (huser e.1)]

theorem of_unmapped {Z : Slot → Prop} (h : Unmapped s t D I role role' 0 Z)
    (hs : Tables s D I role) : FlowAt s t D I role role' p := by
  have hle := h.maps_le (p := p)
  have hdrop := h.drops p
  refine ⟨fun hu h0 => ?_, fun hp' => ?_, fun hf hu => ?_⟩
  · rw [if_neg (by omega)] at hdrop
    exact ⟨hdrop.trans hu, by omega⟩
  · by_cases hd : 0 < s.maps D I p ∧ t.maps D I p + (0 : ℕ → ℕ) p = 0
    · rw [if_pos hd] at hdrop
      exact .inl hdrop
    · rw [if_neg hd] at hdrop
      obtain hf | ⟨hu, hpos⟩ := hp'
      · exact .inl (hdrop.trans hf)
      · exact .inr (.inr ⟨hdrop.trans hu, Nat.pos_of_ne_zero fun e => hd ⟨hpos, e⟩⟩)
  · have h0 := hs.maps_user hu
    rw [hdrop, if_neg (by omega)]

end FlowAt

/-- A page that an operation has mapped. -/
theorem Remapped.mapped (h : Remapped s t D I role role' 0 y o) (hy : y ∈ slots D I)
    (hp : o.map ptePage = some p) (hu : role p = .user) : role' p = .user ∧ 0 < t.maps D I p := by
  have hpos : 0 < t.maps D I p := by
    refine maps_pos.2 ⟨y, hy, ?_⟩
    rw [Phys.frame, h.pte y hy, if_pos rfl, hp]
  refine ⟨?_, hpos⟩
  rw [h.drops p, if_neg fun e => ?_, hu]
  have := e.2
  omega

theorem Placed.maps {e : BitVec 64} {w : ℕ → BitVec 64}
    (h : Placed s t D I role role' y p e w) (hy : y ∈ slots D I) :
    t.maps D I q + (if s.frame y = some q then 1 else 0) =
      s.maps D I q + if p = q then 1 else 0 := by
  have hslot := refs_slot (p := q) (f := s.frame) (g := t.frame) hy fun z hz hne => by
    rw [Phys.frame, h.pte z hz, if_neg hne, Phys.frame]
  have ho : t.frame y = some p := by
    rw [Phys.frame, h.pte y hy, if_pos rfl, Option.map_some, h.page]
  rw [ho] at hslot
  simp only [Option.some.injEq] at hslot
  exact hslot

theorem Placed.flow {e : BitVec 64} {w : ℕ → BitVec 64}
    (h : Placed s t D I role role' y p e w) (hs : Tables s D I role) (hy : y ∈ slots D I) :
    FlowAt s t D I role role' q := by
  have hmaps := h.maps (q := q) hy
  have hdrop := h.drops q
  have huser : s.frame y = some q → role q = .user := hs.frame_user hy
  have hfresh := h.fresh
  by_cases hqp : q = p
  · subst hqp
    have hne : s.frame y ≠ some q := fun e => by
      rw [huser e] at hfresh
      cases hfresh
    rw [if_neg hne, if_pos rfl] at hmaps
    rw [if_neg fun e => hne e.1, if_pos rfl] at hdrop
    refine ⟨fun hu _ => ?_, fun _ => .inr (.inr ⟨hdrop, by omega⟩), fun hf => absurd hfresh hf⟩
    rw [hu] at hfresh
    cases hfresh
  · rw [if_neg (Ne.symm hqp), Nat.add_zero] at hmaps
    rw [if_neg hqp] at hdrop
    refine ⟨fun hu h0 => ?_, fun hq => ?_, fun hf hu => ?_⟩
    · have hne : s.frame y ≠ some q := maps_eq_zero.1 h0 y hy
      rw [if_neg hne, Nat.add_zero] at hmaps
      rw [if_neg fun e => hne e.1] at hdrop
      exact ⟨hdrop.trans hu, hmaps.trans h0⟩
    · by_cases hd : s.frame y = some q ∧ t.maps D I q = 0
      · rw [if_pos hd] at hdrop
        exact .inl hdrop
      · rw [if_neg hd] at hdrop
        obtain hf | ⟨hu, hpos⟩ := hq
        · exact .inl (hdrop.trans hf)
        · refine .inr (.inr ⟨hdrop.trans hu, ?_⟩)
          by_cases he : s.frame y = some q
          · exact Nat.pos_of_ne_zero fun e => hd ⟨he, e⟩
          · rw [if_neg he, Nat.add_zero] at hmaps
            omega
    · rw [hdrop, if_neg fun e => hu (huser e.1)]

/-! ## The operations -/

theorem copyEntry_flow (h : Frames s D I role 0) (hr : to_ ∈ D) (hi : pdx1 a ∈ I)
    (hpt : role pt = .table r i j) (hk : k < 512) {v : Except Errno Unit}
    (hrun : copyEntry A to_ a (pt, k) s = some (v, t)) :
    ∃ role', Frames t D I role' 0 ∧ ∀ p, FlowAt s t D I role role' p := by
  unfold copyEntry at hrun
  rw [Code.bind_ok (rfl : deref (pt, k) s = some (.ok (s.word pt k), s))] at hrun
  cases he : entry (s.word pt k) with
  | none =>
    rw [if_neg (by simp [entry_eq_none.1 he])] at hrun
    cases hrun
    exact ⟨role, h, fun _ => .refl⟩
  | some page =>
    rw [if_pos (entry_eq_some.1 he).1] at hrun
    obtain ⟨u, role1, hF, hG, hcases⟩ := copyPage_spec (A := A) h hr hi hpt hk he
    have hgrow : ∀ p, FlowAt s u D I role role1 p := fun p => .of_grown hG h.toTables hF.toTables
    obtain ⟨-, hrun'⟩ | ⟨-, -, hrun'⟩ | ⟨npage, t', role', -, -, hrun', hF', hP⟩ := hcases
    · rw [hrun'] at hrun
      cases hrun
      exact ⟨role1, hF, hgrow⟩
    · rw [hrun'] at hrun
      cases hrun
    · rw [hrun'] at hrun
      cases hrun
      exact ⟨role', hF', fun p => (hgrow p).trans (hP.flow hF.toTables (slotOf_mem hr hi))⟩

/-- `page_insert` of a user's page. -/
theorem pageInsert_flow (h : Frames s D I role 0) (hr : r ∈ D) (hi : pdx1 la ∈ I)
    (hu : role page = .user) (hperm : PermOk perm) :
    ∃ v t role', pageInsert A r page la perm s = some (v, t) ∧ Frames t D I role' 0 ∧
      (∀ p, p ≠ page → FlowAt s t D I role role' p) ∧
      (v = .error .noMem ∧ FlowAt s t D I role role' page ∨
        v = .ok () ∧ role' page = .user ∧ 0 < t.maps D I page ∧
          t.maps D I page ≤ s.maps D I page + 1) ∧
      ∀ p, 0 < s.maps D I p → t.maps D I p = 0 → role' p = .free := by
  obtain ⟨t, role', hrun, -, hF, hG⟩ | ⟨u, role1, t, role', hrun, hF, hG, -, hF', hR⟩ :=
    pageInsert_spec (A := A) h hr hi hu hperm
  · have hflow : ∀ p, FlowAt s t D I role role' p := fun p => .of_grown hG h.toTables hF.toTables
    refine ⟨_, t, role', hrun, hF, fun p _ => hflow p, .inl ⟨rfl, hflow page⟩, fun p hp h0 => ?_⟩
    have hu : role p = .user := by
      by_contra hne
      rw [h.maps_user hne] at hp
      exact absurd hp (lt_irrefl 0)
    obtain e | e | ⟨-, e⟩ := (hflow p).settled (.inr ⟨hu, hp⟩)
    · exact e
    · rw [hG.user.2 hu] at e
      exact e.elim
    · omega
  · have hgrow : ∀ p, FlowAt s u D I role role1 p := fun p => .of_grown hG h.toTables hF.toTables
    have hy : slotOf r la ∈ slots D I := slotOf_mem hr hi
    have ho : (some (pteCreate page (pteV.setWidth 32 ||| perm))).map ptePage = some page := by
      rw [Option.map_some, ptePage_pteCreate hperm.valid (h.lt_pow hu (by simp))]
    have hm : ∀ p, u.maps D I p = s.maps D I p := fun p => maps_congr fun z hz => by
      obtain ⟨r', i', j', k'⟩ := z
      obtain ⟨hr, hi, -, -⟩ := mem_slots.1 hz
      exact hG.pteAt h.toTables hF.toTables hr hi
    obtain ⟨hu', hpos⟩ := hR.mapped hy ho (hG.user.2 hu)
    have hle := hR.maps (p := page) hy
    rw [ho, if_pos rfl, hm] at hle
    refine ⟨_, t, role', hrun, hF', fun p hp => (hgrow p).trans
      (.of_remapped hR hF.toTables hy fun e => hp (Option.some.inj (e.symm.trans ho))),
      .inr ⟨rfl, hu', hpos, by omega⟩, fun p hp h0 => ?_⟩
    have hm := hm p
    have hmaps := hR.maps (p := p) hy
    rw [hR.drops p, if_pos]
    refine ⟨?_, h0⟩
    by_contra hne
    rw [if_neg hne] at hmaps
    omega

/-- **`pgdir_alloc_page`** -/
theorem pgdirAllocPage_flow (h : Frames s D I role 0) (hr : r ∈ D) (hi : pdx1 la ∈ I)
    (hperm : PermOk perm) :
    ∃ v t role', pgdirAllocPage A r la perm s = some (.ok v, t) ∧ Frames t D I role' 0 ∧
      (∀ p, FlowAt s t D I role role' p) ∧
      ∀ p, 0 < s.maps D I p → t.maps D I p = 0 → role' p = .free := by
  unfold pgdirAllocPage
  rw [Code.bind_ok allocPages_run]
  cases hpick : A.pick s.time 1 s.free with
  | none =>
    refine ⟨none, s.tick, role, rfl, ⟨h.toTables.tick, h.ref_user, h.ref_free⟩, fun p => ?_,
      fun p hp h0 => ?_⟩
    · exact ⟨fun hp h0 => ⟨hp, h0⟩, fun hp => hp.imp id .inr, fun _ _ => rfl⟩
    · have hm : s.tick.maps D I p = s.maps D I p := Phys.maps_word rfl
      omega
  | some page =>
    have hmem := A.pick_mem hpick
    have hfree := (h.free page).1 hmem
    have hFa := h.alloc hmem
    have hself : Function.update role page .user page = .user := Function.update_self ..
    have hm : ∀ p, (s.tick.take page 1).maps D I p = s.maps D I p := fun p => Phys.maps_word rfl
    have hm0 : s.maps D I page = 0 := h.maps_user (hfree.trans_ne (by simp))
    have hflow : ∀ p, p ≠ page → FlowAt s (s.tick.take page 1) D I role
        (Function.update role page .user) p := fun p hp => by
      have e : Function.update role page .user p = role p := Function.update_of_ne hp _ _
      exact ⟨fun hu h0 => ⟨e.trans hu, h0⟩,
        fun hp => hp.imp (e.trans ·) fun hp => .inr ⟨e.trans hp.1, hp.2⟩, fun _ _ => e⟩
    obtain ⟨v, t, role', hrun, hF, hother, hpage, hdrop⟩ := pageInsert_flow (A := A) hFa hr hi
      hself hperm
    have hdrop' : ∀ p, 0 < s.maps D I p → t.maps D I p = 0 → role' p = .free := fun p hp =>
      hdrop p ((hm p).symm ▸ hp)
    simp only [Option.elim_some]
    rw [Code.attempt_bind hrun]
    obtain ⟨rfl, hpage⟩ | ⟨rfl, hu', hpos, hle⟩ := hpage
    · obtain ⟨hu', h0⟩ := hpage.held hself ((hm page).trans hm0)
      have hnf : page ∉ t.free := fun e => by
        rw [(hF.free page).1 e] at hu'
        cases hu'
      have hmt : ∀ p, (t.give page 1).maps D I p = t.maps D I p := fun p => Phys.maps_word rfl
      have hkeep : ∀ p, p ≠ page → Function.update role' page .free p = role' p := fun p hp =>
        Function.update_of_ne hp _ _
      refine ⟨none, t.give page 1, Function.update role' page .free, ?_, hF.give hu' h0,
        fun p => ?_, fun p hp hp0 => ?_⟩
      · simp only
        rw [Code.bind_ok (freePages_run hnf)]
        rfl
      · by_cases hp : p = page
        · subst hp
          refine ⟨fun hu => ?_, fun _ => .inl (Function.update_self ..), fun hf => absurd hfree hf⟩
          rw [hfree] at hu
          cases hu
        · refine ((hflow p hp).trans (hother p hp)).trans
            ⟨fun hu h0 => ?_, fun hs => ?_, fun _ _ => ?_⟩
          · exact ⟨(hkeep p hp).trans hu, h0⟩
          · exact hs.imp ((hkeep p hp).trans ·) fun hs => .inr ⟨(hkeep p hp).trans hs.1, hs.2⟩
          · exact hkeep p hp
      · have hne : p ≠ page := by
          rintro rfl
          omega
        rw [hkeep p hne]
        exact hdrop' p hp hp0
    · have href : t.ref page = 1 := by
        have h1 := hm page
        rw [hF.ref_user page hu']
        change ((t.maps D I page : ℕ) : ℤ) + ((0 : ℕ) : ℤ) = 1
        omega
      refine ⟨some page, t, role', ?_, hF, fun p => ?_, hdrop'⟩
      · simp only
        rw [Code.bind_ok (rfl : (Code.get : M Phys) t = _), Code.assert_bind href]
        rfl
      · by_cases hp : p = page
        · subst hp
          refine ⟨fun hu => ?_, fun _ => .inr (.inr ⟨hu', hpos⟩), fun hf => absurd hfree hf⟩
          rw [hfree] at hu
          cases hu
        · exact (hflow p hp).trans (hother p hp)

/-- What `get_pte`, `page_remove` and `unmap_range` do to the pages. -/
theorem getPte_flow (create : Bool) (h : Frames s D I role 0) (hr : r ∈ D) (hi : pdx1 la ∈ I) :
    ∃ v t role', getPte A r la create s = some (.ok v, t) ∧ Frames t D I role' 0 ∧
      (∀ p, FlowAt s t D I role role' p) ∧
      ∀ p, 0 < s.maps D I p → t.maps D I p = 0 → role' p = .free := by
  cases create with
  | false =>
    refine ⟨_, s, role, getPte_false h.toTables hr hi, h, fun _ => .refl, fun p hp h0 => ?_⟩
    omega
  | true =>
    obtain ⟨t, role', hrun, hT, hG⟩ := getPte_true (A := A) h.toTables hr hi
    refine ⟨_, t, role', hrun, h.of_grown hT hG, fun p => .of_grown hG h.toTables hT,
      fun p hp h0 => ?_⟩
    have hm : t.maps D I p = s.maps D I p := maps_congr fun z hz => by
      obtain ⟨r', i', j', k'⟩ := z
      obtain ⟨hr, hi, -, -⟩ := mem_slots.1 hz
      exact hG.pteAt h.toTables hT hr hi
    omega

theorem pageRemove_flow (h : Frames s D I role 0) (hr : r ∈ D) (hi : pdx1 la ∈ I) :
    ∃ t role', pageRemove A r la s = some (.ok (), t) ∧ Frames t D I role' 0 ∧
      (∀ p, FlowAt s t D I role role' p) ∧
      ∀ p, 0 < s.maps D I p → t.maps D I p = 0 → role' p = .free := by
  obtain ⟨t, role', hrun, hF, hR⟩ := pageRemove_spec (A := A) h hr hi
  have hy : slotOf r la ∈ slots D I := slotOf_mem hr hi
  have hU := Unmapped.of_remapped (Z := fun _ => True) hR hy trivial
  refine ⟨t, role', hrun, hF, fun p => .of_unmapped hU h.toTables, fun p hp h0 => ?_⟩
  rw [hU.drops p, if_pos ⟨hp, h0⟩]

theorem unmapRange_flow (h : Frames s D I role 0) (hr : r ∈ D) (hI : ∀ la < userTop, pdx1 la ∈ I)
    {v : Except Errno Unit} (hrun : unmapRange A r start end_ s = some (v, t)) :
    ∃ role', Frames t D I role' 0 ∧ (∀ p, FlowAt s t D I role role' p) ∧
      ∀ p, 0 < s.maps D I p → t.maps D I p = 0 → role' p = .free := by
  have hrun' := hrun
  unfold unmapRange at hrun'
  rw [Code.assert_bind_eq_some, Code.assert_bind_eq_some] at hrun'
  obtain ⟨⟨hs, he⟩, hu, -⟩ := hrun'
  obtain ⟨t', role', hrun', hF, hU, -⟩ := unmapRange_spec (A := A) h hr hI hs he hu
  rw [hrun'] at hrun
  cases hrun
  refine ⟨role', hF, fun p => .of_unmapped hU h.toTables, fun p hp h0 => ?_⟩
  rw [hU.drops p, if_pos ⟨hp, h0⟩]

theorem copyRange_flow (h : Frames s D I role 0) (hr : to_ ∈ D) (hr' : from_ ∈ D)
    (hI : ∀ la < userTop, pdx1 la ∈ I) {v : Except Errno Unit}
    (hrun : copyRange A to_ from_ start end_ s = some (v, t)) :
    ∃ role', Frames t D I role' 0 ∧ ∀ p, FlowAt s t D I role role' p := by
  unfold copyRange at hrun
  rw [Code.assert_bind_eq_some, Code.assert_bind_eq_some] at hrun
  obtain ⟨⟨hs, -⟩, ⟨-, hlt, htop⟩, hrun⟩ := hrun
  let P : ℕ → Phys → Prop := fun _ t =>
    ∃ role', Frames t D I role' 0 ∧ ∀ p, FlowAt s t D I role role' p
  let Q : Option (Except Errno Unit × Phys) → Prop := fun o => ∀ v t, o = some (v, t) → P 0 t
  refine walk_rule (P := P) (Q := Q) ?_ ?_ ?_ ?_ _ start s le_rfl hlt hs pages_lt
    ⟨role, h, fun _ => .refl⟩ v t hrun
  · rintro a t - ha ⟨role', hF, -⟩
    exact getPte_false hF.toTables hr' (hI _ (by omega))
  · rintro a t - - - hP -
    exact hP
  · rintro a t pt - ha - ⟨role', hF, hflow⟩ hpt
    have hpt' := (hF.tableAt_iff hr' (hI _ (by omega))).1 hpt
    have hstep : Q (copyEntry A to_ a (pt, ptx a) t) := fun v u hu => by
      obtain ⟨role'', hF', hflow'⟩ := copyEntry_flow hF hr (hI _ (by omega)) hpt' (ptx_lt a) hu
      exact ⟨role'', hF', fun p => (hflow p).trans (hflow' p)⟩
    by_cases hok : ∃ u, copyEntry A to_ a (pt, ptx a) t = some (.ok (), u)
    · obtain ⟨u, hu⟩ := hok
      exact .inl ⟨u, hu, hstep _ _ hu⟩
    · exact .inr ⟨not_exists.1 hok, hstep⟩
  · rintro a t - hP v u hu
    cases hu
    exact hP

/-! ## The system -/

structure PageSys where
  mem : Phys
  held : Finset ℕ

inductive PageOp where
  | allocPage
  | freePage (page : ℕ)
  | getPte (pgdir la : ℕ) (create : Bool)
  | pageInsert (pgdir page la : ℕ) (perm : BitVec 32)
  | pageRemove (pgdir la : ℕ)
  | unmapRange (pgdir start end_ : ℕ)
  | copyRange (to_ from_ start end_ : ℕ)
  | pgdirAllocPage (pgdir la : ℕ) (perm : BitVec 32)

namespace PageSys

/-- The operation, and what it does to the pages that are held. -/
def exec (A : Allocator) : PageOp → M (Finset ℕ → Finset ℕ)
  | .allocPage => do
    match ← allocPages A 1 with
    | some page => pure (insert page)
    | none => pure id
  | .freePage page => do
    freePages page 1
    pure (Finset.erase · page)
  | .getPte pgdir la create => do
    let _ ← getPte A pgdir la create
    pure id
  | .pageInsert pgdir page la perm => do
    pageInsert A pgdir page la perm
    pure (Finset.erase · page)
  | .pageRemove pgdir la => do
    pageRemove A pgdir la
    pure id
  | .unmapRange pgdir start end_ => do
    unmapRange A pgdir start end_
    pure id
  | .copyRange to_ from_ start end_ => do
    copyRange A to_ from_ start end_
    pure id
  | .pgdirAllocPage pgdir la perm => do
    let _ ← pgdirAllocPage A pgdir la perm
    pure id

def step (A : Allocator) (k : PageSys) (op : PageOp) : Option PageSys :=
  (exec A op k.mem).map fun (v, t) =>
    match v with
    | .ok f => ⟨t, f k.held⟩
    | .error _ => ⟨t, k.held⟩

/-- All the entries of a page directory. -/
def entries : Finset ℕ := Finset.range 512

/-- How many entries of the page directories `D` map the page. -/
def maps (D : Finset ℕ) (k : PageSys) (p : ℕ) : ℕ := k.mem.maps D entries p

/-- A caller frees pages that it holds, and inserts pages that it holds or that are mapped. -/
def Legal (D : Finset ℕ) (k : PageSys) : PageOp → Prop
  | .allocPage => True
  | .freePage page => page ∈ k.held
  | .getPte pgdir _ _ | .pageRemove pgdir _ | .unmapRange pgdir _ _ => pgdir ∈ D
  | .pageInsert pgdir page _ perm =>
    pgdir ∈ D ∧ (page ∈ k.held ∨ 0 < k.maps D page) ∧ PermOk perm
  | .copyRange to_ from_ _ _ => to_ ∈ D ∧ from_ ∈ D
  | .pgdirAllocPage pgdir _ perm => pgdir ∈ D ∧ PermOk perm

/-- Empty page directories, and free pages without references. -/
structure Init (D : Finset ℕ) (k : PageSys) : Prop where
  held : k.held = ∅
  dirs : ∀ r ∈ D, r ∉ k.mem.free ∧ r < k.mem.npage ∧ ∀ i, k.mem.word r i = 0
  free : ∀ p ∈ k.mem.free, p < k.mem.npage ∧ k.mem.ref p = 0
  small : k.mem.npage ≤ 2 ^ 52

def machine (A : Allocator) (D : Finset ℕ) : Machine PageSys PageOp where
  Init := Init D
  Legal := Legal D
  step := step A

/-- A page is a user's if it is held or mapped. -/
structure Inv (D : Finset ℕ) (k : PageSys) (role : ℕ → Role) : Prop where
  frames : Frames k.mem D entries role 0
  user : ∀ p, role p = .user ↔ p ∈ k.held ∨ 0 < k.maps D p
  held : ∀ p ∈ k.held, k.maps D p = 0

variable {D : Finset ℕ} {k k' : PageSys} {op : PageOp}

theorem entries_mem (la : ℕ) : pdx1 la ∈ entries := Finset.mem_range.2 (pdx1_lt la)

theorem Inv.init (h : Init D k) : ∃ role, Inv D k role := by
  let role : ℕ → Role := fun p => if p ∈ k.mem.free then .free else if p ∈ D then .root else .other
  have hfree : ∀ p, p ∈ k.mem.free ↔ role p = .free := fun p => by
    by_cases hp : p ∈ k.mem.free
    · simp [role, hp]
    · by_cases hd : p ∈ D <;> simp [role, hp, hd]
  have hroot : ∀ r ∈ D, role r = .root := fun r hr => by
    simp [role, (h.dirs r hr).1, hr]
  have hcase : ∀ p, role p = .free ∨ role p = .root ∨ role p = .other := fun p => by
    by_cases hp : p ∈ k.mem.free
    · exact .inl ((hfree p).1 hp)
    · by_cases hd : p ∈ D
      · exact .inr (.inl (hroot p hd))
      · simp [role, hp, hd]
  have hno : ∀ p x, x ≠ .free → x ≠ .root → x ≠ .other → role p ≠ x := fun p x h1 h2 h3 e => by
    obtain h | h | h := hcase p
    · exact h1 (e.symm.trans h)
    · exact h2 (e.symm.trans h)
    · exact h3 (e.symm.trans h)
  have hT : Tables k.mem D entries role := by
    refine ⟨hfree, hroot, fun r hr i _ p => ?_, fun d r i hd => ?_, fun pt r i j hpt => ?_,
      fun d r i hd => ?_, fun pt r i j hpt => ?_, fun p hp => ?_, h.small⟩
    · rw [(h.dirs r hr).2.2 i]
      exact iff_of_false (fun e => by cases entry_zero.symm.trans e)
        (hno p (.dir r i) (by simp) (by simp) (by simp))
    · exact absurd hd (hno d (.dir r i) (by simp) (by simp) (by simp))
    · exact absurd hpt (hno pt (.table r i j) (by simp) (by simp) (by simp))
    · exact absurd hd (hno d (.dir r i) (by simp) (by simp) (by simp))
    · exact absurd hpt (hno pt (.table r i j) (by simp) (by simp) (by simp))
    · by_cases hf : p ∈ k.mem.free
      · exact (h.free p hf).1
      · by_cases hd : p ∈ D
        · exact (h.dirs p hd).2.1
        · simp [role, hf, hd] at hp
  have hu : ∀ p, role p ≠ .user := fun p => hno p .user (by simp) (by simp) (by simp)
  refine ⟨role, ⟨hT, fun p hp => absurd hp (hu p), fun p hp => (h.free p ((hfree p).2 hp)).2⟩,
    fun p => ?_, fun p hp => ?_⟩
  · rw [h.held]
    have h0 : k.maps D p = 0 := hT.maps_user (hu p)
    simp [hu p, h0]
  · rw [h.held] at hp
    simp at hp

/-- Where the pages flow, the invariant stays; a page that has been mapped is not held any more. -/
theorem Inv.flow {m : Phys} {role role' : ℕ → Role} {held : Finset ℕ} (h : Inv D k role)
    (hF : Frames m D entries role' 0)
    (hflow : ∀ p, FlowAt k.mem m D entries role role' p ∧ (p ∈ held ↔ p ∈ k.held) ∨
      p ∉ held ∧ role' p = .user ∧ 0 < m.maps D entries p) : Inv D ⟨m, held⟩ role' := by
  refine ⟨hF, fun p => ⟨fun hp => ?_, fun hp => ?_⟩, fun p hp => ?_⟩
  · obtain ⟨hflow, hheld⟩ | ⟨-, -, hpos⟩ := hflow p
    · by_cases hu : role p = .user
      · by_cases h0 : k.maps D p = 0
        · exact .inl (hheld.2 (((h.user p).1 hu).resolve_right fun e => by omega))
        · obtain e | e | e := hflow.settled (.inr ⟨hu, Nat.pos_of_ne_zero h0⟩)
          · rw [e] at hp
            cases hp
          · rw [hp] at e
            exact e.elim
          · exact .inr e.2
      · by_cases hf : role p = .free
        · obtain e | e | e := hflow.settled (.inl hf)
          · rw [e] at hp
            cases hp
          · rw [hp] at e
            exact e.elim
          · exact .inr e.2
        · rw [hflow.other hf hu] at hp
          exact absurd hp hu
    · exact .inr hpos
  · obtain hp | hp := hp
    · obtain ⟨hflow, hheld⟩ | ⟨hnot, -⟩ := hflow p
      · exact (hflow.held ((h.user p).2 (.inl (hheld.1 hp))) (h.held p (hheld.1 hp))).1
      · exact absurd hp hnot
    · by_contra hne
      have : m.maps D entries p = 0 := hF.maps_user hne
      change 0 < m.maps D entries p at hp
      omega
  · obtain ⟨hflow, hheld⟩ | ⟨hnot, -⟩ := hflow p
    · exact (hflow.held ((h.user p).2 (.inl (hheld.1 hp))) (h.held p (hheld.1 hp))).2
    · exact absurd hp hnot

/-- The page is a table below one of the page directories. -/
def IsTable (D : Finset ℕ) (t : Phys) (p : ℕ) : Prop :=
  ∃ r ∈ D, ∃ i, t.dirAt r i = some p ∨ ∃ j, t.tableAt r i j = some p

/-- What an operation frees: frames whose last entry it removes.  Only `copy_range` can go on to
    take a page that it has freed. -/
structure Frees (D : Finset ℕ) (k k' : PageSys) (op : PageOp) : Prop where
  freed : ∀ p, p ∉ k.mem.free → p ∈ k'.mem.free →
    op = .freePage p ∨ 0 < k.maps D p ∧ k'.maps D p = 0
  dropped : ∀ p, 0 < k.maps D p → k'.maps D p = 0 → p ∈ k'.mem.free ∨
    (∃ r r' start end_, op = .copyRange r r' start end_) ∧ IsTable D k'.mem p

/-- From what happens to each page to what is freed. -/
theorem Inv.frees {m : Phys} {role role' : ℕ → Role} {held : Finset ℕ} (h : Inv D k role)
    (hF : Frames m D entries role' 0)
    (hflow : ∀ p, role' p = .free → op = .freePage p ∨ FlowAt k.mem m D entries role role' p)
    (hdrop : ∀ p, 0 < k.maps D p → m.maps D entries p = 0 → role' p = .free ∨
      (∃ r r' start end_, op = .copyRange r r' start end_) ∧ (role' p).Below) :
    Frees D k ⟨m, held⟩ op := by
  refine ⟨fun p hp hp' => ?_, fun p hp h0 => ?_⟩
  · have hfree := (hF.free p).1 hp'
    have hnf : role p ≠ .free := fun e => hp ((h.frames.free p).2 e)
    obtain e | hf := hflow p hfree
    · exact .inl e
    · have hm : m.maps D entries p = 0 := hF.maps_user (hfree.trans_ne (by simp))
      have hu : role p = .user := by
        by_contra hu
        exact hnf ((hf.other hnf hu).symm.trans hfree)
      refine .inr ⟨Nat.pos_of_ne_zero fun e => ?_, hm⟩
      rw [(hf.held hu e).1] at hfree
      cases hfree
  · obtain e | ⟨hop, hn⟩ := hdrop p hp h0
    · exact .inl ((hF.free p).2 e)
    · refine .inr ⟨hop, ?_⟩
      cases hrole : role' p with
      | free | user | other | root =>
        rw [hrole] at hn
        exact hn.elim
      | dir r i =>
        obtain ⟨hr, hi⟩ := hF.dirs p r i hrole
        exact ⟨r, hr, i, .inl ((hF.dirAt_iff hr hi).2 hrole)⟩
      | table r i j =>
        obtain ⟨-, d, hd⟩ := hF.tables p r i j hrole
        obtain ⟨hr, hi⟩ := hF.dirs d r i hd
        exact ⟨r, hr, i, .inr ⟨j, (hF.tableAt_iff hr hi).2 hrole⟩⟩

/-- An operation during which the pages that are held stay so. -/
theorem Inv.flows {m : Phys} {role role' : ℕ → Role} (h : Inv D k role)
    (hF : Frames m D entries role' 0) (hflow : ∀ p, FlowAt k.mem m D entries role role' p)
    (hdrop : ∀ p, 0 < k.maps D p → m.maps D entries p = 0 → role' p = .free) :
    (∃ role', Inv D ⟨m, k.held⟩ role') ∧ Frees D k ⟨m, k.held⟩ op :=
  ⟨⟨role', h.flow hF fun p => .inl ⟨hflow p, .rfl⟩⟩,
    h.frees hF (fun p _ => .inr (hflow p)) fun p hp h0 => .inl (hdrop p hp h0)⟩

theorem Inv.allocPage {role : ℕ → Role} (h : Inv D k role)
    (hs : PageSys.step A k .allocPage = some k') :
    (∃ role', Inv D k' role') ∧ Frees D k k' .allocPage := by
  obtain ⟨⟨v, t⟩, hrun, rfl⟩ := Option.map_eq_some_iff.1 hs
  rw [exec, Code.bind_ok allocPages_run] at hrun
  cases hpick : A.pick k.mem.time 1 k.mem.free with
  | none =>
    rw [hpick] at hrun
    cases hrun
    have hm : ∀ p, k.mem.tick.maps D entries p = k.maps D p := fun p => Phys.maps_word rfl
    refine h.flows ⟨h.frames.toTables.tick, h.frames.ref_user, h.frames.ref_free⟩ (fun p => ?_)
      fun p hp h0 => ?_
    · exact ⟨fun hp h0 => ⟨hp, h0⟩, fun hp => hp.imp id .inr, fun _ _ => rfl⟩
    · have := (hm p).symm.trans h0
      omega
  | some page =>
    rw [hpick] at hrun
    cases hrun
    have hmem := A.pick_mem hpick
    have hfree := (h.frames.free page).1 hmem
    have hm : ∀ p, (k.mem.tick.take page 1).maps D entries p = k.maps D p := fun p =>
      Phys.maps_word rfl
    have hkeep : ∀ {p}, p ≠ page → Function.update role page .user p = role p := fun hp =>
      Function.update_of_ne hp _ _
    have hself : Function.update role page .user page = .user := Function.update_self ..
    have h0 : k.maps D page = 0 := h.frames.maps_user (hfree.trans_ne (by simp))
    refine ⟨⟨Function.update role page .user, h.frames.alloc hmem, fun p => ?_, fun p hp => ?_⟩,
      h.frees (h.frames.alloc hmem) (fun p hp => ?_) fun p hp hp0 => ?_⟩
    · change _ ↔ p ∈ insert page k.held ∨ 0 < (k.mem.tick.take page 1).maps D entries p
      rw [hm, Finset.mem_insert]
      by_cases e : p = page
      · rw [e, hself]
        simp
      · rw [hkeep e, h.user p]
        simp [e]
    · change (k.mem.tick.take page 1).maps D entries p = 0
      rw [hm]
      obtain rfl | hp := Finset.mem_insert.1 hp
      · exact h0
      · exact h.held p hp
    · have hne : p ≠ page := fun e => by
        rw [e, hself] at hp
        cases hp
      refine .inr ⟨fun hu h0 => ⟨(hkeep hne).trans hu, (hm p).trans h0⟩, fun hs => ?_,
        fun _ _ => hkeep hne⟩
      exact hs.imp ((hkeep hne).trans ·) fun hs => .inr ⟨(hkeep hne).trans hs.1, hs.2⟩
    · have := (hm p).symm.trans hp0
      omega

theorem Inv.freePage {role : ℕ → Role} (h : Inv D k role) (hl : p ∈ k.held)
    (hs : PageSys.step A k (.freePage p) = some k') :
    (∃ role', Inv D k' role') ∧ Frees D k k' (.freePage p) := by
  obtain ⟨⟨v, t⟩, hrun, rfl⟩ := Option.map_eq_some_iff.1 hs
  have hu := (h.user p).2 (.inl hl)
  have hnf : p ∉ k.mem.free := fun e => by
    rw [(h.frames.free p).1 e] at hu
    cases hu
  unfold exec at hrun
  simp only [Code.bind_ok (freePages_run hnf)] at hrun
  cases hrun
  have hm : ∀ q, (k.mem.give p 1).maps D entries q = k.maps D q := fun q => Phys.maps_word rfl
  have hkeep : ∀ {q}, q ≠ p → Function.update role p .free q = role q := fun hq =>
    Function.update_of_ne hq _ _
  have hF := h.frames.give hu (h.held p hl)
  refine ⟨⟨Function.update role p .free, hF, fun q => ?_, fun q hq => ?_⟩,
    h.frees hF (fun q hq => ?_) fun q hq h0 => ?_⟩
  · change _ ↔ q ∈ k.held.erase p ∨ 0 < (k.mem.give p 1).maps D entries q
    have h0 := h.held p hl
    rw [hm, Finset.mem_erase]
    by_cases e : q = p
    · simp [e, h0]
    · rw [hkeep e, h.user q]
      simp [e]
  · change (k.mem.give p 1).maps D entries q = 0
    rw [hm]
    exact h.held q (Finset.mem_of_mem_erase hq)
  · by_cases e : q = p
    · exact .inl (e ▸ rfl)
    · refine .inr ⟨fun hu h0 => ⟨(hkeep e).trans hu, (hm q).trans h0⟩, fun hs => ?_,
        fun _ _ => hkeep e⟩
      exact hs.imp ((hkeep e).trans ·) fun hs => .inr ⟨(hkeep e).trans hs.1, hs.2⟩
  · rw [hm] at h0
    omega

theorem Inv.pageInsert {role : ℕ → Role} (h : Inv D k role)
    (hl : Legal D k (.pageInsert r page la perm))
    (hs : PageSys.step A k (.pageInsert r page la perm) = some k') :
    (∃ role', Inv D k' role') ∧ Frees D k k' (.pageInsert r page la perm) := by
  obtain ⟨⟨v, t⟩, hrun, rfl⟩ := Option.map_eq_some_iff.1 hs
  obtain ⟨hr, hpage, hperm⟩ := hl
  obtain ⟨v', t', role', hins, hF, hother, hcase, hdrop⟩ := pageInsert_flow (A := A) h.frames hr
    (entries_mem la) ((h.user page).2 hpage) hperm
  unfold exec at hrun
  obtain ⟨rfl, hp⟩ | ⟨rfl, hu, hpos, -⟩ := hcase
  · simp only [Code.bind_error hins] at hrun
    cases hrun
    refine h.flows hF (fun p => ?_) hdrop
    by_cases e : p = page
    · exact e ▸ hp
    · exact hother p e
  · simp only [Code.bind_ok hins] at hrun
    cases hrun
    refine ⟨⟨role', h.flow hF fun p => ?_⟩, h.frees hF (fun p hp => .inr ?_) fun p hp h0 =>
      .inl (hdrop p hp h0)⟩
    · by_cases e : p = page
      · refine .inr ⟨?_, e ▸ hu, e ▸ hpos⟩
        simp [e]
      · refine .inl ⟨hother p e, ?_⟩
        simp [e]
    · refine hother p fun e => ?_
      rw [e, hu] at hp
      cases hp

/-- **Every operation** that returns keeps the invariant, and frees frames with their last entry. -/
theorem Inv.step {role : ℕ → Role} (h : Inv D k role) (hl : Legal D k op)
    (hs : PageSys.step A k op = some k') : (∃ role', Inv D k' role') ∧ Frees D k k' op := by
  have hI : ∀ la < userTop, pdx1 la ∈ entries := fun la _ => entries_mem la
  have hs' := hs
  obtain ⟨⟨v, t⟩, hrun, rfl⟩ := Option.map_eq_some_iff.1 hs
  cases op with
  | allocPage => exact h.allocPage hs'
  | freePage page => exact h.freePage hl hs'
  | pageInsert r page la perm => exact h.pageInsert hl hs'
  | getPte r la create =>
    obtain ⟨v', t', role', hget, hF, hflow, hdrop⟩ := getPte_flow create (A := A) h.frames hl
      (entries_mem la)
    unfold exec at hrun
    simp only [Code.bind_ok hget] at hrun
    cases hrun
    exact h.flows hF hflow hdrop
  | pageRemove r la =>
    obtain ⟨t', role', hrem, hF, hflow, hdrop⟩ :=
      pageRemove_flow (A := A) h.frames hl (entries_mem la)
    unfold exec at hrun
    simp only [Code.bind_ok hrem] at hrun
    cases hrun
    exact h.flows hF hflow hdrop
  | unmapRange r start end_ =>
    obtain ⟨_, u, hun, h'⟩ | ⟨e, hun, rfl⟩ := Code.bind_eq_some.1 hrun
    · cases h'
      obtain ⟨role', hF, hflow, hdrop⟩ := unmapRange_flow h.frames hl hI hun
      exact h.flows hF hflow hdrop
    · obtain ⟨role', hF, hflow, hdrop⟩ := unmapRange_flow h.frames hl hI hun
      exact h.flows hF hflow hdrop
  | copyRange to_ from_ start end_ =>
    have hcopy : ∀ {v : Except Errno Unit} {u : Phys},
        copyRange A to_ from_ start end_ k.mem = some (v, u) →
        (∃ role', Inv D ⟨u, k.held⟩ role') ∧
          Frees D k ⟨u, k.held⟩ (.copyRange to_ from_ start end_) := fun hcopy => by
      obtain ⟨role', hF, hflow⟩ := copyRange_flow h.frames hl.1 hl.2 hI hcopy
      refine ⟨⟨role', h.flow hF fun p => .inl ⟨hflow p, .rfl⟩⟩,
        h.frees hF (fun p _ => .inr (hflow p)) fun p hp h0 => ?_⟩
      have hu : role p = .user := by
        by_contra hu
        have : k.maps D p = 0 := h.frames.maps_user hu
        omega
      obtain e | e | ⟨-, e⟩ := (hflow p).settled (.inr ⟨hu, hp⟩)
      · exact .inl e
      · exact .inr ⟨⟨to_, from_, start, end_, rfl⟩, e⟩
      · omega
    obtain ⟨_, u, hun, h'⟩ | ⟨e, hun, rfl⟩ := Code.bind_eq_some.1 hrun
    · cases h'
      exact hcopy hun
    · exact hcopy hun
  | pgdirAllocPage r la perm =>
    obtain ⟨v', t', role', halloc, hF, hflow, hdrop⟩ := pgdirAllocPage_flow (A := A) h.frames hl.1
      (entries_mem la) hl.2
    unfold exec at hrun
    simp only [Code.bind_ok halloc] at hrun
    cases hrun
    exact h.flows hF hflow hdrop

end PageSys

end Ucore.Pmm
