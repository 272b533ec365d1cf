/-
  Page directories under any sequence of operations: the main results.

  * `page_table_map`: a page directory is a map from pages of Sv39 addresses to entries;
  * `frame_refs`: a frame has as many references as entries that map it, and is freed with the last.
-/
import Ucore.Mm.PageSys

namespace Ucore.Pmm

variable {A : Allocator} {s t u : Phys} {D I : Finset ℕ} {role role' role'' : ℕ → Role}
  {p r i j k la page : ℕ} {perm : BitVec 32}

namespace PageSys

/-- In every state reached, each page has a role. -/
theorem reach_inv {k : PageSys} (h : (machine A D).Reach k) : ∃ role, Inv D k role :=
  h.preserved (fun _ h0 => Inv.init h0) fun _ _ _ ⟨_, hi⟩ hl hs => (hi.step hl hs).1

/-! ## The map -/

theorem getPage_run (h : Tables s D I role) (hr : r ∈ D) (hi : pdx1 la ∈ I) :
    getPage A r la s = some (.ok ((s.lookup r la).map ptePage), s) := by
  unfold getPage
  rw [Code.bind_ok (getPte_false h hr hi), Phys.lookup, Phys.pteAt]
  cases hpt : s.tableAt r (pdx1 la) (pdx0 la) with
  | none => rfl
  | some pt =>
    have hrole := (h.tableAt_iff hr hi).1 hpt
    simp only [Option.map_some, Option.bind_some]
    rw [Code.bind_ok (rfl : deref (pt, ptx la) s = some (.ok (s.word pt (ptx la)), s))]
    cases he : entry (s.word pt (ptx la)) with
    | none =>
      have hv := entry_eq_none.1 he
      rw [leaf, if_neg (by simp [hv]), if_neg (by simp [hv])]
      rfl
    | some page =>
      obtain ⟨hv, hpage⟩ := entry_eq_some.1 he
      have hu := h.user pt _ _ _ hrole (ptx la) (ptx_lt la) page he
      have hlt : ptePage (s.word pt (ptx la)) < s.npage := hpage ▸ h.lt hu (by simp)
      rw [leaf, if_pos hv, if_pos hv, Code.bind_ok (pte2page_run hv hlt)]
      rfl

/-- The slots of two addresses are the same if the addresses are in the same Sv39 page. -/
theorem slotOf_inj {r r' la la' : ℕ} : slotOf r la = slotOf r' la' ↔ r = r' ∧ vpn la = vpn la' := by
  rw [← index_inj]
  simp [slotOf]

theorem lookup_grown {r' la' : ℕ} (h : Grown s t role role' r i j) (hs : Tables s D entries role)
    (ht : Tables t D entries role') (hr : r' ∈ D) : t.lookup r' la' = s.lookup r' la' :=
  h.pteAt hs ht hr (entries_mem la')

theorem lookup_remapped {x : ℕ → ℕ} {r' la' : ℕ} {o : Option (BitVec 64)}
    (h : Remapped s t D entries role role' x (slotOf r la) o) (hr : r' ∈ D) :
    t.lookup r' la' = if r' = r ∧ vpn la' = vpn la then o else s.lookup r' la' := by
  have hpte := h.pte (slotOf r' la') (slotOf_mem hr (entries_mem la'))
  rw [if_congr slotOf_inj rfl rfl] at hpte
  exact hpte

/-- **Page directories are maps** from pages of Sv39 addresses to entries.  In every state reached,
    `page_insert` maps the page with the permissions, or fails for want of a table; `page_remove`
    unmaps it; `get_pte` makes empty tables; and all of them leave every other mapping. -/
theorem page_table_map {k : PageSys} (h : (machine A D).Reach k) {r : ℕ} (hr : r ∈ D) :
    (∀ page la perm, page ∈ k.held ∨ 0 < k.maps D page → PermOk perm →
      (∃ t, pageInsert A r page la perm k.mem = some (.error .noMem, t) ∧
        t.tableAt r (pdx1 la) (pdx0 la) = none ∧
        ∀ r' ∈ D, ∀ la', t.lookup r' la' = k.mem.lookup r' la') ∨
      ∃ t e, pageInsert A r page la perm k.mem = some (.ok (), t) ∧
        getPage A r la t = some (.ok (some page), t) ∧
        t.lookup r la = some e ∧ ptePage e = page ∧ e &&& 0x3FF#64 = perm.setWidth 64 ||| pteV ∧
        ∀ r' ∈ D, ∀ la', ¬(r' = r ∧ vpn la' = vpn la) →
          t.lookup r' la' = k.mem.lookup r' la') ∧
    (∀ la, ∃ t, pageRemove A r la k.mem = some (.ok (), t) ∧
      getPage A r la t = some (.ok none, t) ∧
      ∀ r' ∈ D, ∀ la', ¬(r' = r ∧ vpn la' = vpn la) → t.lookup r' la' = k.mem.lookup r' la') ∧
    (∀ la create, ∃ o t, getPte A r la create k.mem = some (.ok o, t) ∧
      (∀ r' ∈ D, ∀ la', t.lookup r' la' = k.mem.lookup r' la') ∧
      ∀ r' ∈ D, ∀ i < 512, ∀ j p, t.tableAt r' i j = some p → k.mem.tableAt r' i j = some p ∨
        r' = r ∧ i = pdx1 la ∧ j = pdx0 la ∧ ∀ n, t.word p n = 0) ∧
    ∀ la la', slotOf r la = slotOf r la' ↔ vpn la = vpn la' := by
  obtain ⟨role, hi⟩ := reach_inv h
  have hF := hi.frames
  refine ⟨fun page la perm hpage hperm => ?_, fun la => ?_, fun la create => ?_,
    fun la la' => slotOf_inj.trans (and_iff_right rfl)⟩
  · obtain ⟨t, role', hrun, hnone, hF', hG⟩ | ⟨u, role1, t, role', hrun, hFu, hG, -, hF', hR⟩ :=
      pageInsert_spec (A := A) hF hr (entries_mem la) ((hi.user page).2 hpage) hperm
    · exact .inl ⟨t, hrun, hnone, fun r' hr' la' => lookup_grown hG hF.toTables hF'.toTables hr'⟩
    · have hlook : t.lookup r la = some (pteCreate page (pteV.setWidth 32 ||| perm)) := by
        rw [lookup_remapped hR hr, if_pos ⟨rfl, rfl⟩]
      have hp : ptePage (pteCreate page (pteV.setWidth 32 ||| perm)) = page := ptePage_pteCreate
        hperm.valid
        (hF.lt_pow ((hi.user page).2 hpage) (by simp))
      refine .inr ⟨t, _, hrun, ?_, hlook, hp, ?_, fun r' hr' la' hne => ?_⟩
      · rw [getPage_run hF'.toTables hr (entries_mem la), hlook, Option.map_some, hp]
      · have hv : (pteV.setWidth 32).setWidth 64 = pteV := by decide
        rw [pteCreate_flags hperm.valid, BitVec.setWidth_or, hv, BitVec.or_comm, ← BitVec.or_assoc,
          BitVec.or_self, BitVec.or_comm]
      · rw [lookup_remapped hR hr', if_neg hne, lookup_grown hG hF.toTables hFu.toTables hr']
  · obtain ⟨t, role', hrun, hF', hR⟩ := pageRemove_spec (A := A) hF hr (entries_mem la)
    refine ⟨t, hrun, ?_, fun r' hr' la' hne => by rw [lookup_remapped hR hr', if_neg hne]⟩
    rw [getPage_run hF'.toTables hr (entries_mem la), lookup_remapped hR hr, if_pos ⟨rfl, rfl⟩]
    rfl
  · cases create with
    | false =>
      exact ⟨_, k.mem, getPte_false hF.toTables hr (entries_mem la), fun _ _ _ => rfl,
        fun _ _ _ _ _ _ hp => .inl hp⟩
    | true =>
      obtain ⟨t, role', hrun, hT, hG⟩ := getPte_true (A := A) hF.toTables hr (entries_mem la)
      refine ⟨_, t, hrun, fun r' hr' la' => lookup_grown hG hF.toTables hT hr',
        fun r' hr' i hi j p hp => ?_⟩
      have hi' : i ∈ entries := Finset.mem_range.2 hi
      have hrole := (hT.tableAt_iff hr' hi').1 hp
      by_cases hf : role p = .free
      · obtain e | e | e := hG.new p hf
        · rw [e] at hrole
          cases hrole
        · rw [e] at hrole
          cases hrole
        · rw [e] at hrole
          cases hrole
          exact .inr ⟨rfl, rfl, rfl, fun n => congrFun (hG.fresh p _ _ _ hf e) n⟩
      · exact .inl ((hF.tableAt_iff hr' hi').2 ((hG.keep p hf).symm.trans hrole))

/-! ## Reference counts -/

/-- **Reference counts of frames.**  In every state reached, the reference count of a frame is the
    number of valid entries that map it; a mapped frame is not free; and an operation frees a frame
    if it removes the last of these entries, and only then. -/
theorem frame_refs {k : PageSys} (h : (machine A D).Reach k) :
    (∀ p, p ∈ k.mem.free ∨ p ∈ k.held ∨ 0 < k.maps D p → k.mem.ref p = k.maps D p) ∧
      (∀ p, 0 < k.maps D p → p ∉ k.mem.free) ∧
      ∀ op k', Legal D k op → step A k op = some k' → Frees D k k' op := by
  obtain ⟨role, hi⟩ := reach_inv h
  have hfree : ∀ p, 0 < k.maps D p → p ∉ k.mem.free := fun p hp hf => by
    have hu := (hi.user p).2 (.inr hp)
    rw [(hi.frames.free p).1 hf] at hu
    cases hu
  refine ⟨fun p hp => ?_, hfree, fun op k' hl hs => (hi.step hl hs).2⟩
  obtain hp | hp := hp
  · have h0 : k.maps D p = 0 := Nat.eq_zero_of_not_pos fun hpos => hfree p hpos hp
    rw [h0, hi.frames.ref_free p ((hi.frames.free p).1 hp)]
    rfl
  · rw [hi.frames.ref_user p ((hi.user p).2 hp)]
    exact Int.add_zero _

/-- The first free page of sixteen. -/
def firstFree : Allocator where
  pick _ n F := if n = 1 then (List.range 16).find? (· ∈ F) else none
  mem := fun {t n F p} h q hp hq => by
    split at h
    · rename_i hn
      have hq' : q = p := by omega
      simpa [hq'] using List.find?_some h
    · cases h

def emptyDirs : PageSys := ⟨⟨16, fun _ _ => 0, fun _ => 0, Finset.Ico 4 16, 0⟩, ∅⟩

theorem init_emptyDirs : Init {1, 2} emptyDirs where
  held := rfl
  dirs r hr := by
    have hr' : r = 1 ∨ r = 2 := by simpa using hr
    refine ⟨?_, ?_, fun _ => rfl⟩
    · rcases hr' with rfl | rfl <;> decide
    · rcases hr' with rfl | rfl <;> decide
  free p hp := ⟨(Finset.mem_Ico.1 hp).2, rfl⟩
  small := by decide

/-- The directories, with the page 4 held. -/
def heldOne : PageSys := ⟨emptyDirs.mem.tick.take 4 1, {4}⟩

theorem reach_heldOne : (machine firstFree {1, 2}).Reach heldOne :=
  .step (i := .allocPage) (.init init_emptyDirs) trivial rfl

/-- The page 4 is mapped. -/
def mapped : PageSys := (step firstFree heldOne (.pageInsert 1 4 0x1000 0x1F)).getD heldOne

theorem step_mapped : step firstFree heldOne (.pageInsert 1 4 0x1000 0x1F) = some mapped := by
  obtain ⟨k, hk⟩ : ∃ k, step firstFree heldOne (.pageInsert 1 4 0x1000 0x1F) = some k := by
    refine Option.isSome_iff_exists.1 ?_
    decide
  rw [mapped, hk]
  rfl

theorem reach_mapped : (machine firstFree {1, 2}).Reach mapped :=
  .step (i := .pageInsert 1 4 0x1000 0x1F) reach_heldOne
    ⟨by decide, .inl (by decide), by decide⟩ step_mapped

/-- The page 4 has one reference, from one entry. -/
theorem frame_refs_mapped : mapped.mem.ref 4 = 1 ∧ mapped.maps {1, 2} 4 = 1 := by
  have href : mapped.mem.ref 4 = 1 := by decide
  have hy : ∀ la, slotOf 1 la ∈ slots {1, 2} entries := fun la =>
    slotOf_mem (by decide) (entries_mem la)
  have hpos : 0 < mapped.maps {1, 2} 4 := maps_pos.2 ⟨_, hy 0x1000, by decide +kernel⟩
  have := (frame_refs reach_mapped).1 4 (.inr (.inr hpos))
  exact ⟨href, by omega⟩

/-- The page 4 is mapped, and `page_remove` unmaps it. -/
theorem page_table_map_mapped : getPage firstFree 1 0x1000 mapped.mem =
      some (.ok (some 4), mapped.mem) ∧
    ∃ t, pageRemove firstFree 1 0x1000 mapped.mem = some (.ok (), t) ∧
      getPage firstFree 1 0x1000 t = some (.ok none, t) := by
  obtain ⟨role, hi⟩ := reach_inv reach_mapped
  obtain ⟨t, hrun, hget, -⟩ := (page_table_map reach_mapped (r := 1) (by decide)).2.1 0x1000
  refine ⟨?_, t, hrun, hget⟩
  rw [getPage_run hi.frames.toTables (by decide) (entries_mem _)]
  have hlook : (mapped.mem.lookup 1 0x1000).map ptePage = some 4 := by decide +kernel
  rw [hlook]

/-- Two addresses that differ above their low 39 bits have the same entry. -/
theorem alias_above_sv39 : ¬∀ (A : Allocator) (D : Finset ℕ) (k : PageSys) (r page la la' : ℕ)
    (perm : BitVec 32) (t : Phys), (machine A D).Reach k → r ∈ D → page ∈ k.held → PermOk perm →
    la % pgSize = 0 → la' % pgSize = 0 → la < la' → la' < 2 ^ 64 →
    pageInsert A r page la perm k.mem = some (.ok (), t) →
    t.lookup r la' = k.mem.lookup r la' ∧ slotOf r la ≠ slotOf r la' := by
  intro h
  have hrun : (pageInsert firstFree 1 4 0 0x1F heldOne.mem).map Prod.fst = some (.ok ()) := by
    rfl
  obtain ⟨⟨v, t⟩, ht, rfl⟩ := Option.map_eq_some_iff.1 hrun
  have hsame : slotOf 1 0 = slotOf 1 (2 ^ 39) := by decide
  exact (h firstFree {1, 2} heldOne 1 4 0 (2 ^ 39) 0x1F t reach_heldOne (by decide) (by decide)
    (by decide) (by decide) (by decide) (by decide) (by decide) ht).2 hsame

end PageSys

end Ucore.Pmm
