/-
  Reference counts of frames: how many valid entries map a frame.

  * `Frames`: a frame of a user has as many references as entries that map it, and `x` more that
    are held by an operation;
  * `Remapped`: one entry has changed, and the frame it mapped before is free if it was the last;
  * `pageRemovePte_spec`, `pageInsert_spec`: the two operations do that.
-/
import Ucore.Lib.Refs
import Ucore.Mm.GetPte
import Mathlib.Data.Finset.Prod

namespace Ucore.Pmm

/-- A place for an entry: a page directory, the indexes at levels 1 and 0, and in the table. -/
abbrev Slot : Type := ℕ × ℕ × ℕ × ℕ

@[irreducible] def slots (D I : Finset ℕ) : Finset Slot :=
  D ×ˢ I ×ˢ Finset.range 512 ×ˢ Finset.range 512

/-- The slot for an address. -/
def slotOf (r la : ℕ) : Slot := (r, pdx1 la, pdx0 la, ptx la)

namespace Phys

def pte (s : Phys) (y : Slot) : Option (BitVec 64) := s.pteAt y.1 y.2.1 y.2.2.1 y.2.2.2

def frame (s : Phys) (y : Slot) : Option ℕ := (s.pte y).map ptePage

/-- How many entries map the frame. -/
def maps (s : Phys) (D I : Finset ℕ) (p : ℕ) : ℕ := refs (slots D I) s.frame p

end Phys

structure Frames (s : Phys) (D I : Finset ℕ) (role : ℕ → Role) (x : ℕ → ℕ) : Prop
    extends Tables s D I role where
  ref_user : ∀ p, role p = .user → s.ref p = s.maps D I p + x p
  ref_free : ∀ p, role p = .free → s.ref p = 0

structure Remapped (s t : Phys) (D I : Finset ℕ) (role role' : ℕ → Role) (x : ℕ → ℕ) (y : Slot)
    (o : Option (BitVec 64)) : Prop where
  pte : ∀ z ∈ slots D I, t.pte z = if z = y then o else s.pte z
  drops : ∀ p, role' p = if s.frame y = some p ∧ t.maps D I p + x p = 0 then .free else role p
  word : ∀ p, ¬(role p).Node → t.word p = s.word p
  ref : ∀ p, role p ≠ .user → t.ref p = s.ref p
  npage : t.npage = s.npage

variable {A : Allocator} {s t u : Phys} {D I : Finset ℕ} {role role' : ℕ → Role}
  {x x' : ℕ → ℕ} {p q r i j k pt la page : ℕ} {y : Slot} {o : Option (BitVec 64)}

theorem mem_slots : (r, i, j, k) ∈ slots D I ↔ r ∈ D ∧ i ∈ I ∧ j < 512 ∧ k < 512 := by
  simp [slots]

theorem slotOf_mem (hr : r ∈ D) (hi : pdx1 la ∈ I) : slotOf r la ∈ slots D I :=
  mem_slots.2 ⟨hr, hi, pdx0_lt la, ptx_lt la⟩

theorem maps_congr (h : ∀ z ∈ slots D I, t.pte z = s.pte z) : t.maps D I p = s.maps D I p :=
  refs_congr fun z hz => by rw [Phys.frame, h z hz, Phys.frame]

theorem Phys.pte_word (h : t.word = s.word) : t.pte = s.pte := by
  funext y
  simp only [Phys.pte, Phys.pteAt, Phys.tableAt, Phys.dirAt, h]

theorem Phys.maps_word (h : t.word = s.word) : t.maps D I p = s.maps D I p :=
  maps_congr fun _ _ => by rw [Phys.pte_word h]

theorem maps_eq_zero : s.maps D I p = 0 ↔ ∀ z ∈ slots D I, s.frame z ≠ some p := refs_eq_zero

theorem maps_pos : 0 < s.maps D I p ↔ ∃ z ∈ slots D I, s.frame z = some p := refs_pos

/-- How the number of entries that map a frame changes. -/
theorem Remapped.maps (h : Remapped s t D I role role' x y o) (hy : y ∈ slots D I) :
    t.maps D I p + (if s.frame y = some p then 1 else 0) =
      s.maps D I p + if o.map ptePage = some p then 1 else 0 := by
  have hslot := refs_slot (p := p) (f := s.frame) (g := t.frame) hy fun z hz hne => by
    rw [Phys.frame, h.pte z hz, if_neg hne, Phys.frame]
  have ho : t.frame y = o.map ptePage := by
    rw [Phys.frame, h.pte y hy, if_pos rfl]
  rw [ho] at hslot
  exact hslot

namespace Tables

theorem pte_eq (h : Tables s D I role) (hpt : role pt = .table r i j) :
    s.pte (r, i, j, k) = leaf (s.word pt k) := by
  obtain ⟨-, d, hd⟩ := h.tables pt r i j hpt
  obtain ⟨hr, hi⟩ := h.dirs d r i hd
  rw [Phys.pte, Phys.pteAt, (h.tableAt_iff hr hi).2 hpt]
  rfl

theorem frame_eq (h : Tables s D I role) (hpt : role pt = .table r i j) :
    s.frame (r, i, j, k) = entry (s.word pt k) := by
  rw [Phys.frame, h.pte_eq hpt, leaf_map]

theorem mem_slots (h : Tables s D I role) (hpt : role pt = .table r i j) (hk : k < 512) :
    (r, i, j, k) ∈ slots D I := by
  obtain ⟨hj, d, hd⟩ := h.tables pt r i j hpt
  obtain ⟨hr, hi⟩ := h.dirs d r i hd
  exact Pmm.mem_slots.2 ⟨hr, hi, hj, hk⟩

/-- Where a frame is mapped from. -/
theorem frame_some (h : Tables s D I role) (hy : y ∈ slots D I) (hp : s.frame y = some p) :
    ∃ pt, role pt = .table y.1 y.2.1 y.2.2.1 ∧ entry (s.word pt y.2.2.2) = some p := by
  obtain ⟨r, i, j, k⟩ := y
  obtain ⟨hr, hi, -, -⟩ := Pmm.mem_slots.1 hy
  obtain ⟨e, he, rfl⟩ := Option.map_eq_some_iff.1 hp
  obtain ⟨pt, hpt, -⟩ := Option.bind_eq_some_iff.1 he
  have hrole := (h.tableAt_iff hr hi).1 hpt
  refine ⟨pt, hrole, ?_⟩
  rw [← h.frame_eq hrole, Phys.frame, he]
  rfl

theorem frame_user (h : Tables s D I role) (hy : y ∈ slots D I) (hp : s.frame y = some p) :
    role p = .user := by
  obtain ⟨pt, hpt, he⟩ := h.frame_some hy hp
  obtain ⟨r, i, j, k⟩ := y
  exact h.user pt r i j hpt k (Pmm.mem_slots.1 hy).2.2.2 p he

/-- Only frames of users are mapped. -/
theorem maps_user (h : Tables s D I role) (hp : role p ≠ .user) : s.maps D I p = 0 :=
  maps_eq_zero.2 fun _ hz hz' => hp (h.frame_user hz hz')

/-- A write to an entry. -/
theorem pte_setPte {w : BitVec 64} {z : Slot} (h : Tables s D I role)
    (hpt : role pt = .table r i j) (hz : z ∈ slots D I) :
    (s.setWord pt k w).pte z = if z = (r, i, j, k) then leaf w else s.pte z := by
  obtain ⟨r', i', j', k'⟩ := z
  obtain ⟨hr, hi, -, -⟩ := Pmm.mem_slots.1 hz
  rw [Phys.pte, h.pteAt_setPte hpt hr hi]
  simp only [Prod.mk.injEq]
  rfl

theorem pte_congr (h : Tables s D I role) (h' : Tables t D I role')
    (hrole : ∀ p r i j, role' p = .table r i j ↔ role p = .table r i j)
    (hw : ∀ p r i j, role p = .table r i j → t.word p = s.word p) :
    ∀ z ∈ slots D I, t.pte z = s.pte z := by
  rintro ⟨r, i, j, k⟩ hz
  obtain ⟨hr, hi, -, -⟩ := Pmm.mem_slots.1 hz
  exact h.pteAt_congr h' hr hi (fun p => hrole p r i j) fun p hp => by rw [hw p r i j hp]

/-- An unmapped frame of a user becomes free. -/
theorem drop (h : Tables s D I role) (hp : role p = .user) (h0 : s.maps D I p = 0)
    (hw : t.word = s.word) (hn : t.npage = s.npage) (hf : t.free = s.free ∪ {p}) :
    Tables t D I (Function.update role p .free) := by
  refine h.congr (fun q _ => congrFun hw q) (fun q => ?_) (fun q => ?_) hn fun q hq => ?_
  · by_cases e : q = p
    · subst e
      rw [Function.update_self, hp]
      exact .inr ⟨id, id, h.lt hp (by simp)⟩
    · exact .inl (Function.update_of_ne e _ _)
  · rw [hf, Finset.mem_union, Finset.mem_singleton, h.free, Function.update_apply]
    by_cases e : q = p
    · simp [e]
    · simp [e]
  · by_cases e : q = p
    · subst e
      refine .inr fun pt r i j hpt k hk he => ?_
      rw [← h.frame_eq hpt] at he
      exact maps_eq_zero.1 h0 _ (h.mem_slots hpt hk) he
    · exact .inl ((Function.update_of_ne e _ _).trans hq)

end Tables

namespace Frames

theorem of_grown (h : Frames s D I role x) (ht : Tables t D I role')
    (hg : Grown s t role role' r i j) : Frames t D I role' x where
  toTables := ht
  ref_user p hp := by
    have hp' := hg.user.1 hp
    have hm : t.maps D I p = s.maps D I p := maps_congr fun z hz => by
      obtain ⟨r', i', j', k'⟩ := z
      obtain ⟨hr, hi, -, -⟩ := mem_slots.1 hz
      exact hg.pteAt h.toTables ht hr hi
    rw [hg.ref p (hp.trans hp'.symm), hm, h.ref_user p hp']
  ref_free p hp := by
    have hp' : role p = .free := by
      by_contra hf
      rw [hg.keep p hf] at hp
      exact hf hp
    rw [hg.ref p (hp.trans hp'.symm), h.ref_free p hp']

/-- The reference that the entry has goes to its mapper. -/
theorem clear (h : Frames s D I role x) (hpt : role pt = .table r i j) (hk : k < 512)
    (hp : entry (s.word pt k) = some page) :
    (s.setWord pt k 0).maps D I p + (if page = p then 1 else 0) = s.maps D I p := by
  refine refs_clear (h.mem_slots hpt hk) (fun z hz hne => ?_) ((h.frame_eq hpt).trans hp) ?_
  · rw [Phys.frame, h.pte_setPte hpt hz, if_neg hne, Phys.frame]
  · rw [Phys.frame, h.pte_setPte hpt (h.mem_slots hpt hk), if_pos rfl]
    rfl

end Frames

/-! ## `page_remove_pte` -/

theorem pte2page_run {w : BitVec 64} (hv : pteValid w = true) (hp : ptePage w < s.npage) :
    pte2page w s = some (.ok (ptePage w), s) := by
  unfold pte2page pde2page
  rw [Code.assert_bind hv, Code.bind_ok (kaddr_run hp)]
  rfl

theorem freePages_run (h : p ∉ s.free) : freePages p 1 s = some (.ok (), s.give p 1) := by
  unfold freePages
  rw [Code.bind_ok (rfl : (Code.get : M Phys) s = _), Code.assert_bind]
  · rfl
  · intro q hq
    rw [Nat.Ico_succ_singleton, Finset.mem_singleton] at hq
    exact hq ▸ h

theorem Phys.free_give : (s.give p 1).free = s.free ∪ {p} := by
  rw [← Nat.Ico_succ_singleton]
  rfl

theorem Phys.ref_give : (s.give p 1).ref q = if q = p then 0 else s.ref q := by
  change (if q ∈ Finset.Ico p (p + 1) then (0 : ℤ) else s.ref q) = _
  rw [Nat.Ico_succ_singleton]
  simp only [Finset.mem_singleton]

/-- The entry is empty, the frame has lost a reference, and is free if that was the last. -/
theorem Frames.removed (h : Frames s D I role x) (hpt : role pt = .table r i j) (hk : k < 512)
    (he : entry (s.word pt k) = some page) (hw : t.word = (s.setWord pt k 0).word)
    (hn : t.npage = s.npage) (href : ∀ q, t.ref q = if q = page then s.ref page - 1 else s.ref q)
    (hfree : t.free = if s.ref page - 1 = 0 then s.free ∪ {page} else s.free) :
    ∃ role', Frames t D I role' x ∧ Remapped s t D I role role' x (r, i, j, k) none := by
  have hu := h.user pt r i j hpt k hk page he
  have hT : Tables (s.setWord pt k 0) D I role :=
    h.setPte hpt fun _ e => by cases entry_zero.symm.trans e
  have hclear : ∀ p, t.maps D I p + (if page = p then 1 else 0) = s.maps D I p := fun p => by
    rw [← h.clear hpt hk he, Phys.maps_word hw]
  have hcount := h.ref_user page hu
  have hpage := hclear page
  rw [if_pos rfl] at hpage
  have hframe := (h.frame_eq hpt).trans he
  have hpte : ∀ z ∈ slots D I, t.pte z = if z = (r, i, j, k) then none else s.pte z :=
    fun z hz => by
      rw [← leaf_zero, ← h.pte_setPte hpt hz, Phys.pte_word hw]
  have hword : ∀ p, ¬(role p).Node → t.word p = s.word p := fun p hp => by
    rw [hw, Phys.word_setWord_ne fun e => hp (by rw [e, hpt]; trivial)]
  have hrefo : ∀ p, role p ≠ .user → t.ref p = s.ref p := fun p hp => by
    rw [href, if_neg fun e => hp (by rw [e]; exact hu)]
  by_cases h0 : s.ref page - 1 = 0
  · rw [if_pos h0] at hfree
    have hm0 : t.maps D I page = 0 ∧ x page = 0 := by omega
    have hold : ∀ {p}, p ≠ page → Function.update role page .free p = role p := fun hp =>
      Function.update_of_ne hp _ _
    refine ⟨Function.update role page .free, ⟨?_, fun p hp => ?_, fun p hp => ?_⟩, hpte,
      fun p => ?_, hword, hrefo, hn⟩
    · exact hT.drop hu ((Phys.maps_word hw).symm.trans hm0.1) hw hn hfree
    · have hne : p ≠ page := fun e => by simp [e] at hp
      rw [hold hne] at hp
      have := hclear p
      rw [if_neg hne.symm] at this
      rw [href, if_neg hne, h.ref_user p hp, ← this, Nat.add_zero]
    · by_cases hne : p = page
      · rw [href, if_pos hne, h0]
      · rw [hold hne] at hp
        rw [href, if_neg hne, h.ref_free p hp]
    · rw [hframe]
      by_cases hne : p = page
      · rw [hne, Function.update_self, if_pos ⟨rfl, by omega⟩]
      · rw [hold hne, if_neg fun e => hne (Option.some.inj e.1).symm]
  · rw [if_neg h0] at hfree
    refine ⟨role, ⟨?_, fun p hp => ?_, fun p hp => ?_⟩, hpte, fun p => ?_, hword, hrefo, hn⟩
    · exact hT.congr (fun q _ => congrFun hw q) (fun _ => .inl rfl)
        (fun q => by rw [hfree, h.free]) hn fun _ hq => .inl hq
    · have := hclear p
      rw [href]
      by_cases hne : p = page
      · subst hne
        rw [if_pos rfl] at this ⊢
        omega
      · rw [if_neg (Ne.symm hne)] at this
        rw [if_neg hne, h.ref_user p hp, ← this, Nat.add_zero]
    · rw [hrefo p (by simp [hp]), h.ref_free p hp]
    · rw [hframe, if_neg]
      rintro ⟨e, e0⟩
      cases e
      omega

theorem pageRemovePte_spec (h : Frames s D I role x) (hpt : role pt = .table r i j)
    (hk : k < 512) : ∃ t role', pageRemovePte (pt, k) s = some (.ok (), t) ∧
      Frames t D I role' x ∧ Remapped s t D I role role' x (r, i, j, k) none := by
  cases he : entry (s.word pt k) with
  | none =>
    have hv := entry_eq_none.1 he
    have hrun : pageRemovePte (pt, k) s = some (.ok (), s) := by
      unfold pageRemovePte
      rw [Code.bind_ok (rfl : deref (pt, k) s = _), if_neg (by simp [hv])]
      rfl
    have hframe := (h.frame_eq hpt).trans he
    refine ⟨s, role, hrun, h, fun z _ => ?_, fun p => ?_, fun _ _ => rfl, fun _ _ => rfl, rfl⟩
    · split
      · rename_i e
        rw [e, h.pte_eq hpt, leaf, if_neg (by simp [hv])]
      · rfl
    · rw [hframe, if_neg (by simp)]
  | some page =>
    obtain ⟨hv, hpage⟩ := entry_eq_some.1 he
    have hu := h.user pt r i j hpt k hk page he
    have hrun : ∃ t, pageRemovePte (pt, k) s = some (.ok (), t) ∧
        t.word = (s.setWord pt k 0).word ∧ t.npage = s.npage ∧
        (∀ q, t.ref q = if q = page then s.ref page - 1 else s.ref q) ∧
        t.free = if s.ref page - 1 = 0 then s.free ∪ {page} else s.free := by
      have hnf : page ∉ s.free := fun e => by simp [(h.free page).1 e] at hu
      have hlt : ptePage (s.word pt k) < s.npage := hpage ▸ h.lt hu (by simp)
      have href : (s.setRef page (s.ref page - 1)).ref page = s.ref page - 1 := by
        simp [Phys.setRef]
      unfold pageRemovePte
      rw [Code.bind_ok (rfl : deref (pt, k) s = _), if_pos hv, Code.bind_ok (pte2page_run hv hlt),
        hpage, Code.bind_ok (rfl : pageRefDec page s = _),
        Code.bind_ok (rfl : (Code.get : M Phys) _ = _), href]
      by_cases h0 : s.ref page - 1 = 0
      · rw [if_pos h0, Code.bind_ok (freePages_run (s := s.setRef page (s.ref page - 1)) hnf)]
        refine ⟨_, rfl, rfl, rfl, fun q => ?_, ?_⟩
        · rw [h0]
          change ((s.setRef page 0).give page 1).ref q = _
          rw [Phys.ref_give]
          by_cases hq : q = page
          · rw [if_pos hq, if_pos hq]
          · rw [if_neg hq, if_neg hq]
            simp [Phys.setRef, hq]
        · rw [if_pos h0]
          exact Phys.free_give (s := s.setRef page (s.ref page - 1))
      · rw [if_neg h0]
        refine ⟨_, rfl, rfl, rfl, fun q => ?_, (if_neg h0).symm⟩
        simp [Phys.setWord, Phys.setPage, Phys.setRef, Function.update_apply]
    obtain ⟨t, hrun, hw, hn, href, hfree⟩ := hrun
    obtain ⟨role', hF, hR⟩ := h.removed hpt hk he hw hn href hfree
    exact ⟨t, role', hrun, hF, hR⟩

/-! ## `page_insert` -/

/-- One more reference to `page` is held. -/
def plus (x : ℕ → ℕ) (page : ℕ) : ℕ → ℕ := fun p => x p + if page = p then 1 else 0

namespace Frames

theorem inc (h : Frames s D I role x) (hu : role page = .user) :
    Frames (s.setRef page (s.ref page + 1)) D I role (plus x page) where
  toTables := h.congr (fun _ _ => rfl) (fun _ => .inl rfl) h.free rfl fun _ hp => .inl hp
  ref_user p hp := by
    change Function.update s.ref page (s.ref page + 1) p = _
    have hm : (s.setRef page (s.ref page + 1)).maps D I p = s.maps D I p := Phys.maps_word rfl
    rw [hm, plus]
    by_cases e : page = p
    · subst e
      rw [Function.update_self, if_pos rfl, h.ref_user page hp]
      omega
    · rw [Function.update_of_ne (Ne.symm e), if_neg e, h.ref_user p hp]
      rfl
  ref_free p hp := by
    have hne : p ≠ page := role_ne hp hu (by simp)
    change Function.update s.ref page (s.ref page + 1) p = _
    rw [Function.update_of_ne hne, h.ref_free p hp]

variable {w : BitVec 64}

theorem maps_set (h : Frames s D I role x) (hpt : role pt = .table r i j) (hk : k < 512)
    (he : entry (s.word pt k) = none) (hw : entry w = some page) :
    (s.setWord pt k w).maps D I p = s.maps D I p + if page = p then 1 else 0 := by
  refine refs_set (h.mem_slots hpt hk) (fun z hz hne => ?_) ((h.frame_eq hpt).trans he) ?_
  · rw [Phys.frame, h.pte_setPte hpt hz, if_neg hne, Phys.frame]
  · rw [Phys.frame, h.pte_setPte hpt (h.mem_slots hpt hk), if_pos rfl, leaf_map, hw]

/-- The held reference goes to an empty entry. -/
theorem set (h : Frames s D I role (plus x page)) (hu : role page = .user)
    (hpt : role pt = .table r i j) (hk : k < 512) (he : entry (s.word pt k) = none)
    (hw : entry w = some page) : Frames (s.setWord pt k w) D I role x where
  toTables := h.setPte hpt fun p hp => by
    rw [hw] at hp
    cases hp
    exact hu
  ref_user p hp := by
    change s.ref p = _
    rw [h.maps_set hpt hk he hw, h.ref_user p hp, plus]
    split
    · omega
    · omega
  ref_free := h.ref_free

/-- The entry goes on mapping the page. -/
theorem reset (h : Frames s D I role x) (hpt : role pt = .table r i j) (hk : k < 512)
    (he : entry (s.word pt k) = some page) (hw : entry w = some page) :
    Frames (s.setWord pt k w) D I role x where
  toTables := h.setPte hpt fun p hp => by
    rw [hw] at hp
    cases hp
    exact h.user pt r i j hpt k hk page he
  ref_user p hp := by
    have hm : (s.setWord pt k w).maps D I p = s.maps D I p := refs_congr fun z hz => by
      rw [Phys.frame, h.pte_setPte hpt hz]
      split
      · rename_i hz'
        rw [leaf_map, hw, hz', h.frame_eq hpt, he]
      · rfl
    rw [hm]
    exact h.ref_user p hp
  ref_free := h.ref_free

end Frames

theorem replacePte_none (page : ℕ) (he : entry (s.word pt k) = none) :
    replacePte page (pt, k) s = some (.ok (), s) := by
  unfold replacePte
  rw [Code.bind_ok (rfl : deref (pt, k) s = _), if_neg (by simp [entry_eq_none.1 he])]
  rfl

theorem replacePte_some (page : ℕ) (he : entry (s.word pt k) = some q) (hlt : q < s.npage) :
    replacePte page (pt, k) s =
      if q = page then some (.ok (), s.setRef page (s.ref page - 1))
      else pageRemovePte (pt, k) s := by
  obtain ⟨hv, rfl⟩ := entry_eq_some.1 he
  unfold replacePte
  rw [Code.bind_ok (rfl : deref (pt, k) s = _), if_pos hv, Code.bind_ok (pte2page_run hv hlt)]
  split
  · rfl
  · rfl

/-- Remapping an entry of the table `pt` to `w`, which maps `page`. -/
theorem insert_spec {w : BitVec 64} (h : Frames s D I role x) (hu : role page = .user)
    (hpt : role pt = .table r i j) (hk : k < 512) (hw : entry w = some page) :
    ∃ t role', (do
        pageRefInc page
        replacePte page (pt, k)
        setWord pt k w : M Unit) s = some (.ok (), t) ∧
      Frames t D I role' x ∧ Remapped s t D I role role' x (r, i, j, k) (some w) := by
  have hleaf : leaf w = some w := by
    rw [leaf, if_pos (entry_eq_some.1 hw).1]
  have hnode : ∀ p, ¬(role p).Node → p ≠ pt := fun p hp e => hp (by
    rw [e, hpt]
    trivial)
  have hne : ∀ p, role p ≠ .user → p ≠ page := fun p hp e => hp (e ▸ hu)
  have hinc := h.inc hu
  rw [Code.bind_ok (rfl : pageRefInc page s = some (.ok (), s.setRef page (s.ref page + 1)))]
  cases he : entry (s.word pt k) with
  | none =>
    have hrun := replacePte_none (s := s.setRef page (s.ref page + 1)) page he
    refine ⟨(s.setRef page (s.ref page + 1)).setWord pt k w, role, ?_,
      hinc.set hu hpt hk he hw, fun z hz => ?_, fun p => ?_, fun p hp => ?_, fun p hp => ?_, rfl⟩
    · exact Code.bind_ok hrun
    · rw [hinc.pte_setPte hpt hz, hleaf]
      rfl
    · rw [h.frame_eq hpt, he, if_neg (by simp)]
    · exact Phys.word_setWord_ne (hnode p hp) w
    · exact Function.update_of_ne (hne p hp) _ _
  | some q =>
    have hqu := h.user pt r i j hpt k hk q he
    have hrun := replacePte_some (s := s.setRef page (s.ref page + 1)) page he
      (h.lt hqu (by simp))
    by_cases hqp : q = page
    · subst hqp
      rw [if_pos rfl] at hrun
      have hself : (s.setRef q (s.ref q + 1)).setRef q ((s.setRef q (s.ref q + 1)).ref q - 1) =
          s := by
        simp [Phys.setRef]
      rw [hself] at hrun
      refine ⟨s.setWord pt k w, role, Code.bind_ok hrun, h.reset hpt hk he hw, fun z hz => ?_,
        fun p => ?_, fun p hp => Phys.word_setWord_ne (hnode p hp) w, fun _ _ => rfl, rfl⟩
      · rw [h.pte_setPte hpt hz, hleaf]
      · rw [h.frame_eq hpt, he, if_neg]
        rintro ⟨e, e0⟩
        cases e
        have hpos : 0 < (s.setWord pt k w).maps D I q := by
          refine maps_pos.2 ⟨_, h.mem_slots hpt hk, ?_⟩
          rw [Phys.frame, h.pte_setPte hpt (h.mem_slots hpt hk), if_pos rfl, leaf_map, hw]
        omega
    · rw [if_neg hqp] at hrun
      obtain ⟨u, role', hrem, hF, hR⟩ := pageRemovePte_spec hinc hpt hk
      have hpt' : role' pt = .table r i j := by
        rw [hR.drops pt, if_neg fun e => ?_, hpt]
        have := hinc.frame_user (hinc.mem_slots hpt hk) e.1
        rw [hpt] at this
        cases this
      have hu' : role' page = .user := by
        rw [hR.drops page, if_neg fun e => ?_, hu]
        have := e.2
        rw [plus, if_pos rfl] at this
        omega
      have he' : entry (u.word pt k) = none := by
        rw [← hF.frame_eq hpt', Phys.frame, hR.pte _ (hinc.mem_slots hpt hk), if_pos rfl]
        rfl
      have hset := hF.set hu' hpt' hk he' hw
      refine ⟨u.setWord pt k w, role', ?_, hset, fun z hz => ?_, fun p => ?_, fun p hp => ?_,
        fun p hp => ?_, hR.npage⟩
      · exact Code.bind_ok (hrun.trans hrem)
      · rw [hF.pte_setPte hpt' hz, hleaf]
        split
        · rfl
        · rename_i hz'
          rw [hR.pte z hz, if_neg hz']
          rfl
      · rw [hR.drops p, hF.maps_set hpt' hk he' hw, plus]
        have hsum : u.maps D I p + (x p + if page = p then 1 else 0) =
            (u.maps D I p + if page = p then 1 else 0) + x p := by
          omega
        rw [hsum]
        rfl
      · exact (Phys.word_setWord_ne (hnode p hp) w).trans (hR.word p hp)
      · exact (hR.ref p hp).trans (Function.update_of_ne (hne p hp) _ _)

theorem pageInsert_spec {perm : BitVec 32} (h : Frames s D I role x) (hr : r ∈ D)
    (hi : pdx1 la ∈ I) (hu : role page = .user) (hperm : PermOk perm) :
    (∃ t role', pageInsert A r page la perm s = some (.error .noMem, t) ∧
      t.tableAt r (pdx1 la) (pdx0 la) = none ∧ Frames t D I role' x ∧
      Grown s t role role' r (pdx1 la) (pdx0 la)) ∨
    ∃ u role1 t role', pageInsert A r page la perm s = some (.ok (), t) ∧
      Frames u D I role1 x ∧ Grown s u role role1 r (pdx1 la) (pdx0 la) ∧
      (∃ pt, role1 pt = .table r (pdx1 la) (pdx0 la)) ∧
      Frames t D I role' x ∧ Remapped u t D I role1 role' x (slotOf r la)
        (some (pteCreate page (pteV.setWidth 32 ||| perm))) := by
  obtain ⟨u, role1, hrun, hT, hG⟩ := getPte_true (A := A) h.toTables hr hi
  have hF := h.of_grown hT hG
  cases hpt : u.tableAt r (pdx1 la) (pdx0 la) with
  | none =>
    rw [hpt] at hrun
    refine .inl ⟨u, role1, ?_, hpt, hF, hG⟩
    unfold pageInsert
    rw [Code.bind_ok hrun]
    rfl
  | some pt =>
    rw [hpt] at hrun
    have hrole := (hT.tableAt_iff hr hi).1 hpt
    obtain ⟨t, role', hins, hF', hR⟩ := insert_spec hF (hG.user.2 hu) hrole (ptx_lt la)
      (entry_pteCreate hperm.valid (h.lt_pow hu (by simp)))
    refine .inr ⟨u, role1, t, role', ?_, hF, hG, ⟨pt, hrole⟩, hF', hR⟩
    unfold pageInsert
    rw [Code.bind_ok hrun]
    exact hins

/-! ## `page_remove` -/

theorem pageRemove_spec (h : Frames s D I role x) (hr : r ∈ D) (hi : pdx1 la ∈ I) :
    ∃ t role', pageRemove A r la s = some (.ok (), t) ∧ Frames t D I role' x ∧
      Remapped s t D I role role' x (slotOf r la) none := by
  have hrun := getPte_false (A := A) h.toTables hr hi
  unfold pageRemove
  rw [Code.bind_ok hrun]
  cases hpt : s.tableAt r (pdx1 la) (pdx0 la) with
  | none =>
    have hnone : s.pte (slotOf r la) = none := by
      rw [Phys.pte, Phys.pteAt]
      change (s.tableAt r (pdx1 la) (pdx0 la)).bind _ = none
      rw [hpt]
      rfl
    refine ⟨s, role, rfl, h, fun z _ => ?_, fun p => ?_, fun _ _ => rfl, fun _ _ => rfl, rfl⟩
    · split
      · rename_i e
        rw [e, hnone]
      · rfl
    · rw [Phys.frame, hnone, if_neg (by simp)]
  | some pt => exact pageRemovePte_spec h ((h.tableAt_iff hr hi).1 hpt) (ptx_lt la)

end Ucore.Pmm
