/-
  `get_pte` and `pgdir_alloc_page` when there is memory.

  * `Allocator.Complete`: a request for one page fails only if no page is free;
  * `Phys.missing`: the tables that are missing for an address;
  * `getPte_complete`: with a free page for each of them they are made, and no other ones;
  * `pgdirAllocPage_complete`: with one more the address is mapped to a new frame.
-/
import Ucore.Mm.CopyRange

namespace Ucore.Pmm

/-- A request for one page fails only if no page is free. -/
def Allocator.Complete (A : Allocator) : Prop := ∀ t F, F.Nonempty → A.pick t 1 F ≠ none

/-- How many tables are missing for the address. -/
def Phys.missing (s : Phys) (r la : ℕ) : ℕ :=
  (if s.dirAt r (pdx1 la) = none then 1 else 0) +
    if s.tableAt r (pdx1 la) (pdx0 la) = none then 1 else 0

variable {A : Allocator} {s t u : Phys} {D I : Finset ℕ} {role role' : ℕ → Role}
  {p q r i j k pd d pt la : ℕ} {perm : BitVec 32}

theorem Allocator.Complete.pick (hA : A.Complete) {n : ℕ} {F : Finset ℕ} (hF : F.Nonempty) :
    ∃ p ∈ F, A.pick n 1 F = some p := by
  obtain ⟨p, hp⟩ := Option.ne_none_iff_exists'.1 (hA n F hF)
  exact ⟨p, A.mem hp p le_rfl p.lt_succ_self, hp⟩

theorem Phys.card_take (hp : p ∈ s.free) : (s.tick.take p 1).free.card + 1 = s.free.card := by
  have hfree : (s.tick.take p 1).free = s.free.erase p := by
    simp [Phys.take, Phys.tick, Finset.sdiff_singleton_eq_erase]
  rw [hfree, Finset.card_erase_add_one hp]

theorem Phys.card_grow (hp : p ∈ s.free) : (s.grow pd k p).free.card + 1 = s.free.card := by
  rw [Phys.free_grow, Finset.sdiff_singleton_eq_erase, Finset.card_erase_add_one hp]

/-! ## `get_pte` -/

/-- One level of `get_pte` with `create`, with a page if it is needed. -/
theorem getTable_complete {x : Role} (hA : A.Complete) (h : Tables s D I role)
    (hx : x = .dir r i ∨ x = .table r i j) (hpd : (role pd).Node)
    (hn : ∀ r i j, role pd ≠ .table r i j)
    (hold : ∀ p, entry (s.word pd k) = some p ↔ role p = x)
    (hadd : ∀ p, entry (s.word pd k) = none → role p = .free →
      Tables (s.grow pd k p) D I (Function.update role p x))
    (hne : entry (s.word pd k) = none → s.free.Nonempty) :
    ∃ p t, getTable A pd k true s = some (.ok (some p), t) ∧
      Tables t D I (Function.update role p x) ∧ Grown s t role (Function.update role p x) r i j ∧
      t.free.card + (if entry (s.word pd k) = none then 1 else 0) = s.free.card ∧
      t.free ⊆ s.free := by
  have hxo : x ≠ .other := by
    rcases hx with rfl | rfl <;> simp
  cases he : entry (s.word pd k) with
  | some p =>
    have hp := (hold p).1 he
    have hself : Function.update role p x = role := by
      rw [← hp, Function.update_eq_self]
    rw [if_neg (by simp)]
    refine ⟨p, s, getTable_some he (h.lt hp hxo), ?_, ?_, rfl, subset_rfl⟩
    · rw [hself]
      exact h
    · rw [hself]
      exact .refl
  | none =>
    obtain ⟨p, hmem, hp⟩ := hA.pick (n := s.time) (hne he)
    have hfree := (h.free p).1 hmem
    rw [if_pos rfl]
    refine ⟨p, s.grow pd k p,
      getTable_grow he hp (h.lt hfree (by simp)) (h.lt_pow hfree (by simp)), hadd p he hfree,
      .grow hfree hx hpd hn, Phys.card_grow hmem, ?_⟩
    rw [Phys.free_grow]
    exact Finset.sdiff_subset

/-- **The tables for an address are made**, if they are missing. -/
theorem getPte_complete (hA : A.Complete) (h : Tables s D I role) (hr : r ∈ D)
    (hi : pdx1 la ∈ I) (hm : s.missing r la ≤ s.free.card) :
    ∃ pt t role', getPte A r la true s = some (.ok (some (pt, ptx la)), t) ∧
      Tables t D I role' ∧ Grown s t role role' r (pdx1 la) (pdx0 la) ∧
      role' pt = .table r (pdx1 la) (pdx0 la) ∧ t.free.card + s.missing r la = s.free.card ∧
      t.free ⊆ s.free ∧
      (∀ i ∈ I, (t.dirAt r i).isSome ↔ i = pdx1 la ∨ (s.dirAt r i).isSome) ∧
      ∀ i ∈ I, ∀ j, (t.tableAt r i j).isSome ↔
        (i = pdx1 la ∧ j = pdx0 la) ∨ (s.tableAt r i j).isSome := by
  have hroot := h.root r hr
  rw [Phys.missing] at hm ⊢
  obtain ⟨d, u, hrun, hu, hgrow, hcard, hsub⟩ := getTable_complete (j := pdx0 la) hA h (.inl rfl)
    (hroot ▸ trivial) (fun _ _ _ => hroot.trans_ne (by simp)) (h.dir r hr (pdx1 la) hi)
    (fun p he hp => h.addDir hp hr hi he) fun he => by
      rw [if_pos (show s.dirAt r (pdx1 la) = none from he)] at hm
      exact Finset.card_pos.1 (by omega)
  have hd : Function.update role d (.dir r (pdx1 la)) d = .dir r (pdx1 la) :=
    Function.update_self ..
  have hdir := (hu.dirAt_iff hr hi).2 hd
  -- the table is missing behind the first level exactly if it was before
  have hiff : ∀ p, u.tableAt r (pdx1 la) (pdx0 la) = some p ↔
      s.tableAt r (pdx1 la) (pdx0 la) = some p := by
    intro p
    rw [hu.tableAt_iff hr hi, h.tableAt_iff hr hi]
    by_cases hp : p = d
    · subst hp
      rw [hd]
      refine iff_of_false (by simp) fun e => ?_
      have := hgrow.keep p (e.trans_ne (by simp))
      rw [hd, e] at this
      cases this
    · rw [Function.update_of_ne hp]
  have htable : entry (u.word d (pdx0 la)) = s.tableAt r (pdx1 la) (pdx0 la) := by
    rw [← Option.ext hiff, Phys.tableAt, hdir]
    rfl
  obtain ⟨pt, t, hrun', ht, hgrow', hcard', hsub'⟩ := getTable_complete hA hu (.inr rfl)
    (by rw [hd]; trivial) (fun _ _ _ => hd.trans_ne (by simp)) (hu.table d r (pdx1 la) hd (pdx0 la))
    (fun p he hp => hu.addTable hp hd (pdx0_lt la) he) fun he => by
      rw [htable] at he
      rw [if_pos he] at hm
      change u.free.card + (if s.dirAt r (pdx1 la) = none then 1 else 0) = _ at hcard
      exact Finset.card_pos.1 (by omega)
  have hpt := Function.update_self pt (.table r (pdx1 la) (pdx0 la))
    (Function.update role d (.dir r (pdx1 la)))
  refine ⟨pt, t, _, ?_, ht, hgrow.trans hgrow', hpt, ?_, hsub'.trans hsub, fun i' hi' => ?_,
    fun i' hi' j' => ?_⟩
  · unfold getPte
    rw [Code.bind_ok hrun]
    simp only [Code.bind_ok hrun']
    rfl
  · rw [htable] at hcard'
    change u.free.card + (if s.dirAt r (pdx1 la) = none then 1 else 0) = _ at hcard
    omega
  · simp only [Option.isSome_iff_exists, ht.dirAt_iff hr hi', h.dirAt_iff hr hi']
    have := hgrow.trans hgrow'
    constructor
    · rintro ⟨q, hq⟩
      by_cases hf : role q = .free
      · obtain e | e | e := this.new q hf
        · rw [e] at hq
          cases hq
        · rw [e, Role.dir.injEq] at hq
          exact .inl hq.2.symm
        · rw [e] at hq
          cases hq
      · exact .inr ⟨q, (this.keep q hf).symm.trans hq⟩
    · rintro (rfl | ⟨q, hq⟩)
      · exact ⟨d, (hgrow'.keep d (hd.trans_ne (by simp))).trans hd⟩
      · exact ⟨q, (this.keep q (hq.trans_ne (by simp))).trans hq⟩
  · simp only [Option.isSome_iff_exists, ht.tableAt_iff hr hi', h.tableAt_iff hr hi']
    have := hgrow.trans hgrow'
    constructor
    · rintro ⟨q, hq⟩
      by_cases hf : role q = .free
      · obtain e | e | e := this.new q hf
        · rw [e] at hq
          cases hq
        · rw [e] at hq
          cases hq
        · rw [e, Role.table.injEq] at hq
          exact .inl ⟨hq.2.1.symm, hq.2.2.symm⟩
      · exact .inr ⟨q, (this.keep q hf).symm.trans hq⟩
    · rintro (⟨rfl, rfl⟩ | ⟨q, hq⟩)
      · exact ⟨pt, hpt⟩
      · exact ⟨q, (this.keep q (hq.trans_ne (by simp))).trans hq⟩

/-! ## `pgdir_alloc_page` -/

/-- What `pgdir_alloc_page` has done when it returns the frame `p` for an address that was not
    mapped. -/
structure Mapped (s t : Phys) (D I : Finset ℕ) (r la p : ℕ) (perm : BitVec 32) : Prop where
  fresh : p ∈ s.free
  pte : ∀ z ∈ slots D I, t.pte z =
    if z = slotOf r la then some (pteCreate p (pteV.setWidth 32 ||| perm)) else s.pte z
  page : ptePage (pteCreate p (pteV.setWidth 32 ||| perm)) = p
  word : ∀ z ∈ slots D I, ∀ q, s.frame z = some q → t.word q = s.word q
  card : t.free.card + s.missing r la + 1 = s.free.card
  sub : t.free ⊆ s.free
  dirs : ∀ i ∈ I, (t.dirAt r i).isSome ↔ i = pdx1 la ∨ (s.dirAt r i).isSome
  tables : ∀ i ∈ I, ∀ j, (t.tableAt r i j).isSome ↔
    (i = pdx1 la ∧ j = pdx0 la) ∨ (s.tableAt r i j).isSome

theorem Grown.pte (h : Grown s t role role' r i j) (hs : Tables s D I role)
    (ht : Tables t D I role') : ∀ z ∈ slots D I, t.pte z = s.pte z := by
  rintro ⟨r', i', j', k'⟩ hz
  obtain ⟨hr, hi, -, -⟩ := mem_slots.1 hz
  exact h.pteAt hs ht hr hi

/-- **A page is mapped** whenever `pgdir_alloc_page` returns a frame. -/
theorem pgdirAllocPage_some (h : Frames s D I role 0) (hr : r ∈ D) (hi : pdx1 la ∈ I)
    (hperm : PermOk perm) (hrun : pgdirAllocPage A r la perm s = some (.ok (some p), t)) :
    ∃ role', Frames t D I role' 0 ∧ role' p = .user ∧
      (∀ z ∈ slots D I, t.pte z =
        if z = slotOf r la then some (pteCreate p (pteV.setWidth 32 ||| perm)) else s.pte z) ∧
      ptePage (pteCreate p (pteV.setWidth 32 ||| perm)) = p ∧
      ∀ z ∈ slots D I, s.frame z ≠ some p := by
  unfold pgdirAllocPage at hrun
  rw [Code.bind_ok allocPages_run] at hrun
  cases hpick : A.pick s.time 1 s.free with
  | none =>
    rw [hpick] at hrun
    cases hrun
  | some q =>
    rw [hpick, Option.elim_some] at hrun
    have hmem := A.pick_mem hpick
    have hfree := (h.free q).1 hmem
    have hFa := h.alloc hmem
    have hself : Function.update role q .user q = .user := Function.update_self ..
    obtain ⟨u, role', hins, -⟩ | ⟨u, role1, u', role', hins, hF, hG, -, hF', hR⟩ :=
      pageInsert_spec (A := A) hFa hr hi hself hperm
    · have hfail := (Code.attempt_bind hins).symm.trans hrun
      obtain ⟨v, w, -, hw⟩ | ⟨e, -, he⟩ := Code.bind_eq_some.1 hfail
      · cases hw
      · cases he
    · replace hrun := (Code.attempt_bind hins).symm.trans hrun
      simp only at hrun
      rw [Code.get_bind_eq_some, Code.assert_bind_eq_some] at hrun
      obtain ⟨rfl, rfl⟩ : p = q ∧ t = u' := by simpa using Code.pure_eq_some.1 hrun.2
      have hpte := hG.pte hFa.toTables hF.toTables
      have hy : slotOf r la ∈ slots D I := slotOf_mem hr hi
      have hnew : ∀ z ∈ slots D I, s.frame z ≠ some p := fun z hz hq => by
        have := h.frame_user hz hq
        rw [hfree] at this
        cases this
      refine ⟨role', hF', ?_, fun z hz => ?_,
        ptePage_pteCreate hperm.valid (h.lt_pow hfree (by simp)), hnew⟩
      · rw [hR.drops p, if_neg, hG.user.2 hself]
        rintro ⟨e, -⟩
        rw [Phys.frame, hpte _ hy] at e
        exact hnew _ hy e
      · rw [hR.pte z hz, hpte z hz]
        rfl

/-- **A page is mapped**, with a page for each table that is missing and one more. -/
theorem pgdirAllocPage_complete (hA : A.Complete) (h : Frames s D I role 0) (hr : r ∈ D)
    (hi : pdx1 la ∈ I) (hperm : PermOk perm) (hnone : s.lookup r la = none)
    (hm : s.missing r la < s.free.card) :
    ∃ p t role', pgdirAllocPage A r la perm s = some (.ok (some p), t) ∧ Frames t D I role' 0 ∧
      Mapped s t D I r la p perm := by
  have hy : slotOf r la ∈ slots D I := slotOf_mem hr hi
  obtain ⟨p, hmem, hpick⟩ := hA.pick (n := s.time) (F := s.free) (Finset.card_pos.1 (by omega))
  have hfree := (h.free p).1 hmem
  have hFa := h.alloc hmem
  have hcard := Phys.card_take hmem
  have hself : Function.update role p .user p = .user := Function.update_self ..
  have hmiss : (s.tick.take p 1).missing r la = s.missing r la := rfl
  obtain ⟨pt, u, role1, hget, hT, hG, hpt, hcard', hsub, hdirs, htables⟩ :=
    getPte_complete hA hFa.toTables hr hi (by rw [hmiss]; omega)
  have hF := hFa.of_grown hT hG
  have hpte := hG.pte hFa.toTables hT
  have hw := entry_pteCreate hperm.valid (hF.lt_pow (hG.user.2 hself) (by simp))
  obtain ⟨t, role', hins, hF', hR⟩ := insert_spec hF (hG.user.2 hself) hpt (ptx_lt la) hw
  have hframe : u.frame (slotOf r la) = none := by
    rw [Phys.frame, hpte _ hy]
    exact congrArg (Option.map ptePage) hnone
  have hmaps : t.maps D I p = 1 := by
    have h0 : u.maps D I p = 0 := (maps_congr hpte).trans <|
      (Phys.maps_word rfl).trans (h.maps_user (hfree.trans_ne (by simp)))
    have hsum := hR.maps (p := p) hy
    rw [Option.map_some, (entry_eq_some.1 hw).2, if_pos rfl, if_neg, h0] at hsum
    · omega
    · change ¬u.frame (slotOf r la) = some p
      rw [hframe]
      simp
  have hrole : role' = role1 := funext fun q => by
    rw [hR.drops q, if_neg]
    rintro ⟨e, -⟩
    exact absurd (hframe.symm.trans e) (by simp)
  rw [hrole] at hF'
  have hfreeEq : t.free = u.free := Finset.ext fun q => by
    rw [hF'.free, hT.free]
  have href : t.ref p = 1 := by
    rw [hF'.ref_user p (hG.user.2 hself), hmaps]
    rfl
  refine ⟨p, t, role1, ?_, hF', hmem, fun z hz => ?_, (entry_eq_some.1 hw).2, fun z hz q hq => ?_,
    ?_, ?_, fun i hi' => ?_, fun i hi' j => ?_⟩
  · have hrun : pageInsert A r p la perm (s.tick.take p 1) = some (.ok (), t) := by
      unfold pageInsert
      rw [Code.bind_ok hget]
      exact hins
    unfold pgdirAllocPage
    rw [Code.bind_ok allocPages_run, hpick]
    simp only [Option.elim_some]
    rw [Code.attempt_bind hrun]
    simp only
    rw [Code.bind_ok (rfl : (Code.get : M Phys) t = _), Code.assert_bind href]
    rfl
  · rw [hR.pte z hz, hpte z hz]
    rfl
  · have hu := h.frame_user hz hq
    have hqp : q ≠ p := role_ne hu hfree (by simp)
    have hu1 : role1 q = .user := hG.user.2 ((Function.update_of_ne hqp _ _).trans hu)
    rw [hR.word q (by rw [hu1]; exact id), hG.word q (by rw [hu1]; exact id)]
    rfl
  · rw [hfreeEq]
    omega
  · rw [hfreeEq]
    refine hsub.trans ?_
    exact Finset.sdiff_subset
  · refine Iff.trans ?_ (hdirs i hi')
    simp only [Option.isSome_iff_exists, hF'.dirAt_iff hr hi', hT.dirAt_iff hr hi']
  · refine Iff.trans ?_ (htables i hi' j)
    simp only [Option.isSome_iff_exists, hF'.tableAt_iff hr hi', hT.tableAt_iff hr hi']

end Ucore.Pmm
