/-
  `get_pte`: it finds the entry for an address, and makes the tables that are missing.

  * `Grown`: two trees, of which the second has more tables, and these are empty;
  * `getPte_false`, `getPte_true`: what `get_pte` returns;
  * `Grown.lookup`: no mapping changes;
  * `walk_rule`: the walk over the entries of a range.
-/
import Ucore.Mm.PageTable

namespace Ucore.Pmm

variable {A : Allocator} {s t u : Phys} {D I : Finset ℕ} {role role' role'' : ℕ → Role}
  {p q r i j k pd la : ℕ}

/-! ## Running -/

theorem kaddr_run (h : p < s.npage) : kaddr p s = some (.ok (), s) := if_pos h

theorem allocPages_run {n : ℕ} : allocPages A n s =
    some (.ok (A.pick s.time n s.free),
      (A.pick s.time n s.free).elim s.tick fun page => s.tick.take page n) := by
  unfold allocPages
  rw [Code.bind_ok (rfl : (Code.get : M Phys) s = _)]
  rw [Code.bind_ok (rfl : Code.modify _ s = _)]
  cases A.pick s.time n s.free with
  | none => rfl
  | some p => rfl

/-- A page that was picked was free. -/
theorem Allocator.pick_mem (h : A.pick k 1 s.free = some p) : p ∈ s.free :=
  A.mem h p le_rfl p.lt_succ_self

/-! ## Growing -/

/-- From `s` to `t`, free pages have become a directory or a table below entry `i` of `r`. -/
structure Grown (s t : Phys) (role role' : ℕ → Role) (r i j : ℕ) : Prop where
  keep : ∀ p, role p ≠ .free → role' p = role p
  new : ∀ p, role p = .free → role' p = .free ∨ role' p = .dir r i ∨ role' p = .table r i j
  word : ∀ p, ¬(role' p).Node → t.word p = s.word p
  table : ∀ p r i j, role p = .table r i j → t.word p = s.word p
  fresh : ∀ p r i j, role p = .free → role' p = .table r i j → t.word p = 0
  ref : ∀ p, role' p = role p → t.ref p = s.ref p
  npage : t.npage = s.npage

namespace Grown

theorem tick : Grown s s.tick role role r i j where
  keep _ _ := rfl
  new _ hp := .inl hp
  word _ _ := rfl
  table _ _ _ _ _ := rfl
  fresh _ _ _ _ hp hp' := by
    rw [hp] at hp'
    cases hp'
  ref _ _ := rfl
  npage := rfl

theorem refl : Grown s s role role r i j where
  keep _ _ := rfl
  new _ hp := .inl hp
  word _ _ := rfl
  table _ _ _ _ _ := rfl
  fresh _ _ _ _ hp hp' := by
    rw [hp] at hp'
    cases hp'
  ref _ _ := rfl
  npage := rfl

theorem trans (h : Grown s t role role' r i j) (h' : Grown t u role' role'' r i j) :
    Grown s u role role'' r i j where
  keep p hp := by
    have e := h.keep p hp
    rw [h'.keep p (e.trans_ne hp), e]
  new p hp := by
    by_cases hp' : role' p = .free
    · exact h'.new p hp'
    · rw [h'.keep p hp']
      exact h.new p hp
  word p hp := by
    rw [h'.word p hp]
    refine h.word p fun hn => hp ?_
    rw [h'.keep p fun e => by simp [e, Role.Node] at hn]
    exact hn
  table p r i j hp := by
    have e := h.keep p (hp.trans_ne (by simp))
    rw [h'.table p r i j (e.trans hp), h.table p r i j hp]
  fresh p r i j hp hp'' := by
    by_cases hp' : role' p = .free
    · exact h'.fresh p r i j hp' hp''
    · have e := (h'.keep p hp').symm.trans hp''
      rw [h'.table p r i j e, h.fresh p r i j hp e]
  ref p hp := by
    have e : role' p = role p := by
      by_cases hf : role p = .free
      · by_contra hp'
        rw [h'.keep p fun e => hp' (e.trans hf.symm)] at hp
        exact hp' hp
      · exact h.keep p hf
    rw [h'.ref p (hp.trans e.symm), h.ref p e]
  npage := h'.npage.trans h.npage

/-- A free page becomes a table. -/
theorem grow {x : Role} (hp : role p = .free) (hx : x = .dir r i ∨ x = .table r i j)
    (hpd : (role pd).Node) (hn : ∀ r i j, role pd ≠ .table r i j) :
    Grown s (s.grow pd k p) role (Function.update role p x) r i j := by
  have hne : pd ≠ p := fun e => by
    rw [e, hp] at hpd
    exact hpd
  have hnode : x.Node := by
    rcases hx with rfl | rfl <;> trivial
  have hold : ∀ {q}, role q ≠ .free → q ≠ p := fun hq e => hq (e ▸ hp)
  have hword : ∀ {q}, q ≠ p → q ≠ pd → (s.grow pd k p).word q = s.word q := fun {q} hq hq' => by
    funext j
    rw [Phys.word_grow, if_neg fun e => hq' e.1, if_neg hq]
  refine ⟨fun q hq => Function.update_of_ne (hold hq) _ _, fun q hq => ?_, fun q hq => ?_,
    fun q r i j hq => hword (hold (hq.trans_ne (by simp))) fun e => hn r i j (e ▸ hq),
    fun q r i j hq hq' => ?_, fun q hq => ?_, rfl⟩
  · by_cases e : q = p
    · rw [e, Function.update_self]
      exact .inr hx
    · exact .inl ((Function.update_of_ne e _ _).trans hq)
  · have hqp : q ≠ p := fun e => by
      rw [e, Function.update_self] at hq
      exact hq hnode
    rw [Function.update_of_ne hqp] at hq
    exact hword hqp fun e => hq (e ▸ hpd)
  · have hqp : q = p := by
      by_contra e
      rw [Function.update_of_ne e, hq] at hq'
      cases hq'
    funext l
    rw [hqp, Phys.word_grow, if_neg fun e => hne e.1.symm, if_pos rfl]
    rfl
  · have hqp : q ≠ p := fun e => by
      rw [e, Function.update_self, hp] at hq
      rw [hq] at hnode
      exact hnode
    rw [Phys.ref_grow, if_neg hqp]

/-- **No mapping changes.** -/
theorem pteAt {r' i' j' k' : ℕ} (h : Grown s t role role' r i j) (hs : Tables s D I role)
    (ht : Tables t D I role') (hr : r' ∈ D) (hi : i' ∈ I) :
    t.pteAt r' i' j' k' = s.pteAt r' i' j' k' := by
  cases hp : s.tableAt r' i' j' with
  | some p =>
    have hp' := (hs.tableAt_iff hr hi).1 hp
    have ht' := (ht.tableAt_iff hr hi).2 ((h.keep p (hp'.trans_ne (by simp))).trans hp')
    rw [Phys.pteAt, Phys.pteAt, hp, ht', Option.bind_some, Option.bind_some,
      h.table p r' i' j' hp']
  | none =>
    have hnone : s.pteAt r' i' j' k' = none := by
      rw [Phys.pteAt, hp]
      rfl
    rw [hnone, Phys.pteAt]
    cases hp' : t.tableAt r' i' j' with
    | none => rfl
    | some p =>
      have hrole := (ht.tableAt_iff hr hi).1 hp'
      have hfree : role p = .free := by
        by_contra hf
        rw [(hs.tableAt_iff hr hi).2 ((h.keep p hf).symm.trans hrole)] at hp
        cases hp
      rw [Option.bind_some, h.fresh p r' i' j' hfree hrole, Pi.zero_apply, leaf_zero]

theorem user (h : Grown s t role role' r i j) : role' p = .user ↔ role p = .user := by
  constructor
  · intro hp
    by_contra hp'
    by_cases hf : role p = .free
    · rcases h.new p hf with e | e | e <;> simp [e] at hp
    · exact hp' ((h.keep p hf).symm.trans hp)
  · intro hp
    exact (h.keep p (hp.trans_ne (by simp))).trans hp

end Grown

/-! ## `get_pte` -/

theorem entry_eq_some {w : BitVec 64} : entry w = some p ↔ pteValid w = true ∧ ptePage w = p := by
  rw [entry]
  split
  · rename_i h
    simp [h]
  · rename_i h
    simp [h]

theorem entry_eq_none {w : BitVec 64} : entry w = none ↔ pteValid w = false := by
  rw [entry]
  split
  · rename_i h
    simp [h]
  · rename_i h
    simpa using h

theorem getTable_some {create : Bool} (h : entry (s.word pd i) = some p) (hp : p < s.npage) :
    getTable A pd i create s = some (.ok (some p), s) := by
  obtain ⟨hv, rfl⟩ := entry_eq_some.1 h
  unfold getTable
  rw [Code.bind_ok (rfl : (Code.get : M Phys) s = _), if_pos hv, Code.bind_ok (kaddr_run hp)]
  rfl

theorem getTable_none (h : entry (s.word pd i) = none) :
    getTable A pd i false s = some (.ok none, s) := by
  have hv := entry_eq_none.1 h
  unfold getTable
  rw [Code.bind_ok (rfl : (Code.get : M Phys) s = _), if_neg (by simp [hv])]
  rfl

theorem getTable_fail (h : entry (s.word pd i) = none) (hp : A.pick s.time 1 s.free = none) :
    getTable A pd i true s = some (.ok none, s.tick) := by
  have hv := entry_eq_none.1 h
  unfold getTable
  rw [Code.bind_ok (rfl : (Code.get : M Phys) s = _), if_neg (by simp [hv]), if_pos rfl,
    Code.bind_ok allocPages_run, hp]
  rfl

theorem getTable_grow (h : entry (s.word pd i) = none) (hp : A.pick s.time 1 s.free = some p)
    (hlt : p < s.npage) (hs : p < 2 ^ 52) :
    getTable A pd i true s = some (.ok (some p), s.grow pd i p) := by
  have hv := entry_eq_none.1 h
  have hpage : ptePage ((s.grow pd i p).word pd i) = p := by
    rw [Phys.word_grow, if_pos ⟨rfl, rfl⟩, ptePage_pteCreate (by decide) hs]
  have hlast : (do
      let s ← Code.get
      kaddr (ptePage (s.word pd i))
      pure (some (ptePage (s.word pd i))) : M (Option ℕ)) (s.grow pd i p) =
        some (.ok (some p), s.grow pd i p) := by
    rw [Code.bind_ok (rfl : (Code.get : M Phys) _ = _), hpage,
      Code.bind_ok (kaddr_run (s := s.grow pd i p) hlt)]
    rfl
  unfold getTable
  rw [Code.bind_ok (rfl : (Code.get : M Phys) s = _), if_neg (by simp [hv]), if_pos rfl,
    Code.bind_ok allocPages_run, hp]
  refine (Code.bind_ok (rfl : setPageRef p 1 _ = _)).trans ?_
  refine (Code.bind_ok (kaddr_run (s := (s.tick.take p 1).setRef p 1) hlt)).trans ?_
  refine (Code.bind_ok (rfl : Code.modify _ _ = _)).trans ?_
  exact (Code.bind_ok (rfl : setWord pd i _ _ = _)).trans hlast

/-- Without `create`. -/
theorem getPte_false (h : Tables s D I role) (hr : r ∈ D) (hi : pdx1 la ∈ I) :
    getPte A r la false s =
      some (.ok ((s.tableAt r (pdx1 la) (pdx0 la)).map fun pt => (pt, ptx la)), s) := by
  unfold getPte
  cases hd : s.dirAt r (pdx1 la) with
  | none =>
    rw [Code.bind_ok (getTable_none hd), Phys.tableAt, hd]
    rfl
  | some d =>
    have hrole := (h.dirAt_iff hr hi).1 hd
    rw [Code.bind_ok (getTable_some hd (h.lt hrole (by simp))), Phys.tableAt, hd, Option.bind_some]
    cases ht : entry (s.word d (pdx0 la)) with
    | none =>
      simp only [Code.bind_ok (getTable_none ht)]
      rfl
    | some pt =>
      have hpt := (h.table d r _ hrole _ pt).1 ht
      simp only [Code.bind_ok (getTable_some ht (h.lt hpt (by simp)))]
      rfl

/-- One level of `get_pte` with `create`. -/
theorem getTable_true {x : Role} (h : Tables s D I role) (hx : x = .dir r i ∨ x = .table r i j)
    (hpd : (role pd).Node) (hn : ∀ r i j, role pd ≠ .table r i j)
    (hold : ∀ p, entry (s.word pd k) = some p ↔ role p = x)
    (hadd : ∀ p, entry (s.word pd k) = none → role p = .free →
      Tables (s.grow pd k p) D I (Function.update role p x)) :
    ∃ o t role', getTable A pd k true s = some (.ok o, t) ∧ Tables t D I role' ∧
      Grown s t role role' r i j ∧ ∀ p, o = some p ↔ role' p = x := by
  have hxf : x ≠ .free ∧ x ≠ .other := by
    rcases hx with rfl | rfl <;> simp
  cases he : entry (s.word pd k) with
  | some p =>
    have hp := (hold p).1 he
    exact ⟨some p, s, role, getTable_some he (h.lt hp hxf.2), h, .refl,
      fun q => by rw [← hold q, he]⟩
  | none =>
    have hnone : ∀ q, role q ≠ x := fun q hq => by
      rw [(hold q).2 hq] at he
      cases he
    cases hp : A.pick s.time 1 s.free with
    | none =>
      refine ⟨none, s.tick, role, getTable_fail he hp, h.tick, .tick, fun q => ?_⟩
      simp [hnone q]
    | some p =>
      have hfree := (h.free p).1 (A.pick_mem hp)
      refine ⟨some p, s.grow pd k p, _,
        getTable_grow he hp (h.lt hfree (by simp)) (h.lt_pow hfree (by simp)), hadd p he hfree,
        .grow hfree hx hpd hn, fun q => ?_⟩
      by_cases hq : q = p
      · simp [hq]
      · rw [Function.update_of_ne hq]
        simp [hnone q, Ne.symm hq]

/-- With `create`. -/
theorem getPte_true (h : Tables s D I role) (hr : r ∈ D) (hi : pdx1 la ∈ I) :
    ∃ t role', getPte A r la true s =
        some (.ok ((t.tableAt r (pdx1 la) (pdx0 la)).map fun pt => (pt, ptx la)), t) ∧
      Tables t D I role' ∧ Grown s t role role' r (pdx1 la) (pdx0 la) := by
  have hroot := h.root r hr
  obtain ⟨o, u, role1, hrun, hu, hgrow, ho⟩ := getTable_true (A := A) (j := pdx0 la) h (.inl rfl)
    (hroot ▸ trivial) (fun _ _ _ => hroot.trans_ne (by simp)) (h.dir r hr (pdx1 la) hi)
    fun p he hp => h.addDir hp hr hi he
  unfold getPte
  rw [Code.bind_ok hrun]
  cases o with
  | none =>
    have hd : u.dirAt r (pdx1 la) = none := by
      cases hd : u.dirAt r (pdx1 la) with
      | none => rfl
      | some d => cases (ho d).2 ((hu.dirAt_iff hr hi).1 hd)
    refine ⟨u, role1, ?_, hu, hgrow⟩
    rw [Phys.tableAt, hd]
    rfl
  | some d =>
    have hd := (ho d).1 rfl
    obtain ⟨o', t, role2, hrun', ht, hgrow', ho'⟩ := getTable_true (A := A) (j := pdx0 la) hu
      (.inr rfl) (hd ▸ trivial) (fun _ _ _ => hd.trans_ne (by simp))
      (hu.table d r (pdx1 la) hd (pdx0 la)) fun p he hp => hu.addTable hp hd (pdx0_lt la) he
    refine ⟨t, role2, ?_, ht, hgrow.trans hgrow'⟩
    have ho'' : o' = t.tableAt r (pdx1 la) (pdx0 la) := Option.ext fun p => by
      rw [ho' p, ht.tableAt_iff hr hi]
    simp only [Code.bind_ok hrun', ← ho'']
    cases o' with
    | none => rfl
    | some pt => rfl

end Ucore.Pmm
