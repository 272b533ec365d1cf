/-
  `copy_range` copies the memory of a user.

  * `Beside`: a page directory is built, and only pages that were free are used for it;
  * `Copied`: what another page directory maps at some addresses, it maps copies of;
  * `copyEntry_copied`, `copyRange_copied`: a page is copied, and so are the pages of a range.
-/
import Ucore.Mm.UserSpace

namespace Ucore.Pmm

variable {A : Allocator} {s t u : Phys} {D I : Finset ℕ} {role role' : ℕ → Role} {Z Z' : ℕ → Prop}
  {r i j p q k pt la a start end_ to_ from_ : ℕ} {e e' w : BitVec 64}

/-! ## Rights -/

theorem pteUser_bit : pteUser.getLsbD i = decide (i < 5) := by
  rw [← BitVec.testBit_toNat]
  exact Nat.testBit_two_pow_sub_one 5 i

/-- The entry that `copy_range` makes gives the same rights. -/
theorem pteCreate_copyPerm (hw : pteValid w = true) :
    pteCreate p (pteV.setWidth 32 ||| copyPerm w) &&& pteUser = w &&& pteUser := by
  have hlow : ∀ x : BitVec 64, x &&& pteUser = x &&& 0x3FF#64 &&& pteUser := fun x => by
    rw [BitVec.and_assoc]
    rfl
  rw [hlow, pteCreate_flags permOk_copyPerm.valid]
  refine BitVec.eq_of_getLsbD_eq fun i hi => ?_
  simp only [BitVec.getLsbD_and, BitVec.getLsbD_or, BitVec.getLsbD_setWidth, copyPerm, pteUser_bit,
    pteV_bit]
  by_cases h5 : i < 5
  · have h32 : i < 32 := by omega
    by_cases h0 : i = 0
    · rw [pteValid_iff] at hw
      simp [h0, hw]
    · simp [h0, h5, h32, hi]
  · simp [h5]

/-! ## Copies -/

/-- The entries stay as they are when a page of a user gets new contents. -/
theorem setPage_pte {w : ℕ → BitVec 64} {x : ℕ → ℕ} {z : Slot} (h : Frames s D I role x)
    (hp : role p = .user) (hz : z ∈ slots D I) : (s.setPage p w).pte z = s.pte z :=
  h.pte_congr (h.setPage hp).toTables (fun _ _ _ _ => .rfl) (fun q r i j hq => by
    rw [Phys.word_setPage, if_neg (role_ne hq hp (by simp))]) z hz

theorem optionRel_imp {α β : Type} {R R' : α → β → Prop} {o : Option α} {o' : Option β}
    (h : ∀ a b, o = some a → o' = some b → R a b → R' a b) (hr : Option.Rel R o o') :
    Option.Rel R' o o' := by
  cases hr with
  | some hab => exact .some (h _ _ rfl rfl hab)
  | none => exact .none

theorem lookup_user {la : ℕ} (h : Tables s D I role) (hr : r ∈ D) (hi : pdx1 la ∈ I)
    (he : s.lookup r la = some e) : role (ptePage e) = .user :=
  h.frame_user (slotOf_mem hr hi) (congrArg (Option.map ptePage) he)

/-! ## A page directory beside others -/

/-- The page is the page directory `r`, or belongs to the tree below it. -/
def Role.Under (r p : ℕ) : Role → Prop
  | .root => p = r
  | .dir r' _ | .table r' _ _ => r' = r
  | _ => False

/-- From `s` to `t`, only pages that were free have been used, and only for page directory `to_`. -/
structure Beside (s t : Phys) (D I : Finset ℕ) (role role' : ℕ → Role) (to_ : ℕ) : Prop where
  frames : Frames t D I role' 0
  keep : ∀ p, role p ≠ .free → role' p = role p
  new : ∀ p, role p = .free → role' p = .free ∨ (role' p = .user ∧ 0 < t.maps D I p) ∨
    (role' p).Under to_ p
  word : ∀ p, role p ≠ .free → ¬(role p).Node → t.word p = s.word p
  ref : ∀ p, role p ≠ .free → t.ref p = s.ref p
  kept : ∀ z ∈ slots D I, z.1 ≠ to_ → t.pte z = s.pte z
  fresh : ∀ z ∈ slots D I, z.1 = to_ → ∀ p, t.frame z = some p → role p = .free

namespace Beside

variable {role₁ role₂ : ℕ → Role}

/-- A new page directory. -/
theorem root {w : ℕ → BitVec 64} (h : Frames s D I role 0) (hp : p ∈ s.free)
    (hw : ∀ i ∈ I, entry (w i) = none) :
    Beside s ((s.tick.take p 1).setPage p w) (insert p D) I role (Function.update role p .root) p ∧
      ∀ z ∈ slots (insert p D) I, z.1 = p → ((s.tick.take p 1).setPage p w).pte z = none := by
  have hrole := (h.free p).1 hp
  have hself : Function.update role p .user p = .user := Function.update_self ..
  have hold : ∀ {q}, role q ≠ .free → q ≠ p := fun hq e => hq (e ▸ hrole)
  have hnone : ∀ z ∈ slots (insert p D) I, z.1 = p →
      ((s.tick.take p 1).setPage p w).pte z = none := by
    rintro ⟨r, i, j, k⟩ hz rfl
    obtain ⟨-, hi, -, -⟩ := mem_slots.1 hz
    have hdir : ((s.tick.take r 1).setPage r w).dirAt r i = none := by
      rw [Phys.dirAt, Phys.word_setPage, if_pos rfl, hw i hi]
    rw [Phys.pte, Phys.pteAt, Phys.tableAt, hdir]
    rfl
  refine ⟨⟨h.addRoot hp hw, fun q hq => Function.update_of_ne (hold hq) _ _, fun q hq => ?_,
    fun q hq _ => ?_, fun q _ => rfl, fun z hz hne => ?_, fun z hz e q hq => ?_⟩, hnone⟩
  · by_cases e : q = p
    · rw [e, Function.update_self]
      exact .inr (.inr rfl)
    · exact .inl ((Function.update_of_ne e _ _).trans hq)
  · rw [Phys.word_setPage, if_neg (hold hq)]
    rfl
  · obtain ⟨r, i, j, k⟩ := z
    obtain ⟨hr, hz⟩ := mem_slots.1 hz
    have hz := mem_slots.2 ⟨(Finset.mem_insert.1 hr).resolve_left hne, hz⟩
    exact (setPage_pte (h.alloc hp) hself hz).trans (congrFun (Phys.pte_word rfl) _)
  · rw [Phys.frame, hnone z hz e] at hq
    cases hq

/-- New tables below it. -/
theorem grown (h : Beside s t D I role role₁ to_) (hF : Frames u D I role₂ 0)
    (hG : Grown t u role₁ role₂ to_ i j) : Beside s u D I role role₂ to_ := by
  have hpte : ∀ z ∈ slots D I, u.pte z = t.pte z := by
    rintro ⟨r, i, j, k⟩ hz
    obtain ⟨hr, hi, -⟩ := mem_slots.1 hz
    exact hG.pteAt h.frames.toTables hF.toTables hr hi
  have hkeep : ∀ p, role p ≠ .free → role₁ p = role p ∧ role₂ p = role₁ p := fun p hp => by
    have e := h.keep p hp
    exact ⟨e, hG.keep p (e ▸ hp)⟩
  refine ⟨hF, fun p hp => (hkeep p hp).2.trans (hkeep p hp).1, fun p hp => ?_, fun p hp hn => ?_,
    fun p hp => ?_, fun z hz hne => (hpte z hz).trans (h.kept z hz hne), fun z hz e p hp => ?_⟩
  · obtain hf | ⟨hu, hm⟩ | hb := h.new p hp
    · obtain e | e | e := hG.new p hf
      · exact .inl e
      · exact .inr (.inr (e ▸ rfl))
      · exact .inr (.inr (e ▸ rfl))
    · refine .inr (.inl ⟨hG.user.2 hu, ?_⟩)
      rw [maps_congr hpte]
      exact hm
    · have hne : role₁ p ≠ .free := fun e => by
        rw [e] at hb
        exact hb
      rw [hG.keep p hne]
      exact .inr (.inr hb)
  · obtain ⟨e1, e2⟩ := hkeep p hp
    rw [hG.word p (by rw [e2, e1]; exact hn), h.word p hp hn]
  · exact (hG.ref p (hkeep p hp).2).trans (h.ref p hp)
  · rw [Phys.frame, hpte z hz] at hp
    exact h.fresh z hz e p hp

/-- A frame that was free is mapped by it. -/
theorem placed {w : ℕ → BitVec 64} (h : Beside s t D I role role₁ to_)
    (hF : Frames u D I role₂ 0) (hy : slotOf to_ a ∈ slots D I)
    (hP : Placed t u D I role₁ role₂ (slotOf to_ a) p e w) : Beside s u D I role role₂ to_ := by
  have hframe : ∀ z ∈ slots D I, z ≠ slotOf to_ a → u.frame z = t.frame z := fun z hz hne => by
    rw [Phys.frame, hP.pte z hz, if_neg hne, Phys.frame]
  have hnew : u.frame (slotOf to_ a) = some p := by
    rw [Phys.frame, hP.pte _ hy, if_pos rfl, Option.map_some, hP.page]
  have hfree : role p = .free := by
    by_contra hne
    exact hne ((h.keep p hne).symm.trans hP.fresh)
  have hne : ∀ q, role q ≠ .free → q ≠ p ∧ t.frame (slotOf to_ a) ≠ some q := fun q hq =>
    ⟨fun e => hq (e ▸ hfree), fun e => hq (h.fresh _ hy rfl q e)⟩
  have hkeep : ∀ q, role q ≠ .free → role₁ q = role q ∧ role₂ q = role₁ q := fun q hq => by
    obtain ⟨h1, h2⟩ := hne q hq
    refine ⟨h.keep q hq, ?_⟩
    rw [hP.drops q, if_neg fun e => h2 e.1, if_neg h1]
  refine ⟨hF, fun q hq => (hkeep q hq).2.trans (hkeep q hq).1, fun q hq => ?_, fun q hq hn => ?_,
    fun q hq => ?_, fun z hz hne => ?_, fun z hz e q hq => ?_⟩
  · rw [hP.drops q]
    split
    · exact .inl rfl
    · rename_i hd
      split
      · rename_i e
        exact .inr (.inl ⟨rfl, maps_pos.2 ⟨_, hy, e ▸ hnew⟩⟩)
      · rcases h.new q hq with hf | ⟨hu, hm⟩ | hn
        · exact .inl hf
        · refine .inr (.inl ⟨hu, ?_⟩)
          by_cases e : t.frame (slotOf to_ a) = some q
          · exact Nat.pos_of_ne_zero fun h0 => hd ⟨e, h0⟩
          · obtain ⟨z, hz, hzq⟩ := maps_pos.1 hm
            exact maps_pos.2 ⟨z, hz, (hframe z hz fun e' => e (e' ▸ hzq)).trans hzq⟩
        · exact .inr (.inr hn)
  · obtain ⟨e1, -⟩ := hkeep q hq
    rw [hP.word q (by rw [e1]; exact hn), if_neg (hne q hq).1, h.word q hq hn]
  · obtain ⟨e1, e2⟩ := hkeep q hq
    obtain ⟨h1, h2⟩ := hne q hq
    by_cases hu : role₁ q = .user
    · have hm : u.maps D I q = t.maps D I q := refs_congr fun z hz => by
        by_cases e : z = slotOf to_ a
        · rw [e, hnew]
          exact iff_of_false (fun e => h1 (Option.some.inj e).symm) h2
        · rw [hframe z hz e]
      rw [hF.ref_user q (e2.trans hu), hm, ← h.frames.ref_user q hu, h.ref q hq]
    · rw [hP.ref q hu h1, h.ref q hq]
  · rw [hP.pte z hz, if_neg fun e => hne (congrArg Prod.fst e), h.kept z hz hne]
  · by_cases hzy : z = slotOf to_ a
    · rw [hzy, hnew] at hq
      exact Option.some.inj hq ▸ hfree
    · rw [hframe z hz hzy] at hq
      exact h.fresh z hz e q hq

end Beside

/-! ## Copies -/

/-- Entry `e'` maps in `t` a copy of what `e` maps in `s`. -/
structure CopyOf (s t : Phys) (e e' : BitVec 64) : Prop where
  perm : e' &&& pteUser = e &&& pteUser
  word : t.word (ptePage e') = s.word (ptePage e)

/-- The new page directory `to_` maps nothing but pages of `Z`. -/
structure Begun (s t : Phys) (D I : Finset ℕ) (role : ℕ → Role) (to_ : ℕ) (Z : ℕ → Prop) :
    Prop where
  beside : ∃ role', Beside s t D I role role' to_
  only : ∀ z ∈ slots D I, z.1 = to_ → t.pte z ≠ none → ∃ la < userTop, Z la ∧ z = slotOf to_ la

/-- What `from_` maps at the addresses of `Z`, the new page directory `to_` maps copies of. -/
structure Copied (s t : Phys) (D I : Finset ℕ) (role : ℕ → Role) (from_ to_ : ℕ) (Z : ℕ → Prop) :
    Prop extends Begun s t D I role to_ Z where
  copy : ∀ la < userTop, Z la → Option.Rel (CopyOf s t) (s.lookup from_ la) (t.lookup to_ la)
  rest : ∀ la < userTop, ¬Z la → t.lookup to_ la = none

theorem Begun.mono (h : Begun s t D I role to_ Z) (hZ : ∀ la, Z la → Z' la) :
    Begun s t D I role to_ Z' where
  beside := h.beside
  only z hz e hne := by
    obtain ⟨la, hla, hZla, hz'⟩ := h.only z hz e hne
    exact ⟨la, hla, hZ la hZla, hz'⟩

/-- Addresses where nothing is mapped need no copy. -/
theorem Copied.extend (h : Copied s t D I role from_ to_ Z) (hZ : ∀ la, Z la → Z' la)
    (hZ' : ∀ la < userTop, Z' la → Z la ∨ s.lookup from_ la = none) :
    Copied s t D I role from_ to_ Z' where
  toBegun := h.toBegun.mono hZ
  copy la hla hz := by
    by_cases hz' : Z la
    · exact h.copy la hla hz'
    · rw [(hZ' la hla hz).resolve_left hz', h.rest la hla hz']
      exact .none
  rest la hla hz := h.rest la hla fun hz' => hz (hZ la hz')

/-- What the other page directories map, they go on mapping, with the same contents. -/
theorem Beside.other {D' : Finset ℕ} {r la : ℕ} (h : Beside s t D I role role' to_)
    (hF : Frames s D' I role 0) (hr : r ∈ D) (hr' : r ∈ D') (hne : r ≠ to_) (hi : pdx1 la ∈ I) :
    t.lookup r la = s.lookup r la ∧ ∀ e, s.lookup r la = some e →
      role (ptePage e) = .user ∧ t.word (ptePage e) = s.word (ptePage e) := by
  refine ⟨h.kept _ (slotOf_mem hr hi) hne, fun e he => ?_⟩
  have hu := lookup_user hF.toTables hr' hi he
  exact ⟨hu, h.word _ (by simp [hu]) (by rw [hu]; exact id)⟩

/-- A new page directory. -/
theorem copied_root {w : ℕ → BitVec 64} (h : Frames s D I role 0) (hp : p ∈ s.free)
    (hw : ∀ i ∈ I, entry (w i) = none) (hI : ∀ la < userTop, pdx1 la ∈ I) :
    Copied s ((s.tick.take p 1).setPage p w) (insert p D) I role from_ p fun _ => False := by
  obtain ⟨hB, hnone⟩ := Beside.root h hp hw
  refine ⟨⟨⟨_, hB⟩, fun z hz e hne => absurd (hnone z hz e) hne⟩, fun _ _ hz => hz.elim,
    fun la hla _ => ?_⟩
  exact hnone _ (slotOf_mem (Finset.mem_insert_self ..) (hI la hla)) rfl

theorem Begun.grown {role₁ role₂ : ℕ → Role} (h : Begun s t D I role to_ Z)
    (hB : Beside s t D I role role₁ to_) (hF : Frames u D I role₂ 0)
    (hG : Grown t u role₁ role₂ to_ i j) : Begun s u D I role to_ Z := by
  refine ⟨⟨role₂, hB.grown hF hG⟩, fun z hz e hne => h.only z hz e ?_⟩
  obtain ⟨r, i, j, k⟩ := z
  obtain ⟨hr, hi, -⟩ := mem_slots.1 hz
  have hpte : u.pte (r, i, j, k) = t.pte (r, i, j, k) :=
    hG.pteAt hB.frames.toTables hF.toTables hr hi
  exact hpte ▸ hne

section
variable {role₁ role₂ : ℕ → Role} (hI : ∀ la < userTop, pdx1 la ∈ I) (ht : to_ ∈ D)
  (hB : Beside s t D I role role₁ to_) (hF : Frames u D I role₂ 0)
include hI ht hB hF

/-- New tables copy nothing. -/
theorem Copied.grown (h : Copied s t D I role from_ to_ Z) (hG : Grown t u role₁ role₂ to_ i j) :
    Copied s u D I role from_ to_ Z := by
  have hlook : ∀ la < userTop, u.lookup to_ la = t.lookup to_ la := fun la hla =>
    hG.pteAt hB.frames.toTables hF.toTables ht (hI la hla)
  refine ⟨h.toBegun.grown hB hF hG, fun la hla hz => ?_,
    fun la hla hz => (hlook la hla).trans (h.rest la hla hz)⟩
  rw [hlook la hla]
  refine optionRel_imp (fun e e' _ he' hc => ⟨hc.perm, ?_⟩) (h.copy la hla hz)
  rw [hG.word, hc.word]
  rw [hG.user.2 (lookup_user hB.frames.toTables ht (hI la hla) he')]
  exact id

/-- **A page is copied** that is mapped. -/
theorem Copied.placed {w : ℕ → BitVec 64} (h : Copied s t D I role from_ to_ Z) (ha : a < userTop)
    (hP : Placed t u D I role₁ role₂ (slotOf to_ a) p e' w) (he : s.lookup from_ a = some e)
    (hc : e' &&& pteUser = e &&& pteUser) (hw : w = s.word (ptePage e)) :
    Copied s u D I role from_ to_ fun la => Z la ∨ la / pgSize = a / pgSize := by
  have hy : slotOf to_ a ∈ slots D I := slotOf_mem ht (hI a ha)
  have hlook : ∀ la < userTop, u.lookup to_ la =
      if la / pgSize = a / pgSize then some e' else t.lookup to_ la := fun la hla =>
    (hP.pte _ (slotOf_mem ht (hI la hla))).trans (if_congr (page_index hla ha).1 rfl rfl)
  refine ⟨⟨⟨role₂, hB.placed hF hy hP⟩, fun z hz ez hne => ?_⟩, fun la hla hz => ?_,
    fun la hla hz => ?_⟩
  · by_cases hzy : z = slotOf to_ a
    · exact ⟨a, ha, .inr rfl, hzy⟩
    · rw [hP.pte z hz, if_neg hzy] at hne
      obtain ⟨la, hla, hZ, e⟩ := h.only z hz ez hne
      exact ⟨la, hla, .inl hZ, e⟩
  · rw [hlook la hla]
    by_cases hpg : la / pgSize = a / pgSize
    · have hslot : slotOf from_ la = slotOf from_ a := (page_index hla ha).1.2 hpg
      have hla' : s.lookup from_ la = some e := (congrArg s.pte hslot).trans he
      have hnode : ¬(role₁ p).Node := by
        rw [hP.fresh]
        exact id
      rw [if_pos hpg, hla']
      refine .some ⟨hc, ?_⟩
      rw [hP.page, hP.word p hnode, if_pos rfl, hw]
    · rw [if_neg hpg]
      refine optionRel_imp (fun x x' _ hx' hcx => ⟨hcx.perm, ?_⟩)
        (h.copy la hla (hz.resolve_right hpg))
      have hu := lookup_user hB.frames.toTables ht (hI la hla) hx'
      rw [hP.word _ (by rw [hu]; exact id), if_neg (role_ne hu hP.fresh (by simp)), hcx.word]
  · rw [not_or] at hz
    rw [hlook la hla, if_neg hz.2]
    exact h.rest la hla hz.1

end

/-! ## `copy_range` -/

section
variable {D' : Finset ℕ} (hs : Frames s D' I role 0) (hf' : from_ ∈ D') (hf : from_ ∈ D)
  (ht : to_ ∈ D) (hne : to_ ≠ from_) (hI : ∀ la < userTop, pdx1 la ∈ I)
include hs hf' hf ht hne hI

/-- **A page is copied**, if it is mapped. -/
theorem copyEntry_copied (h : Copied s t D I role from_ to_ Z) (ha : a < userTop)
    (hpt : t.tableAt from_ (pdx1 a) (pdx0 a) = some pt) :
    (∃ u, copyEntry A to_ a (pt, ptx a) t = some (.ok (), u) ∧
        Copied s u D I role from_ to_ fun la => Z la ∨ la / pgSize = a / pgSize) ∨
      copyEntry A to_ a (pt, ptx a) t = none ∨
      ∃ u, copyEntry A to_ a (pt, ptx a) t = some (.error .noMem, u) ∧
        Begun s u D I role to_ Z := by
  obtain ⟨role₁, hB⟩ := h.beside
  obtain ⟨hkept, hword⟩ := hB.other hs hf hf' hne.symm (hI a ha)
  have hrole := (hB.frames.tableAt_iff hf (hI a ha)).1 hpt
  have hlook : t.lookup from_ a = leaf (t.word pt (ptx a)) := by
    rw [Phys.lookup, Phys.pteAt, hpt]
    rfl
  rw [hkept] at hlook
  unfold copyEntry
  rw [Code.bind_ok (rfl : deref (pt, ptx a) t = some (.ok (t.word pt (ptx a)), t))]
  cases hv : pteValid (t.word pt (ptx a)) with
  | false =>
    rw [if_neg (by simp)]
    refine .inl ⟨t, rfl, h.extend (fun la => .inl) fun la hla hz => hz.imp_right fun hpg => ?_⟩
    have hslot : slotOf from_ la = slotOf from_ a := (page_index hla ha).1.2 hpg
    rw [leaf, if_neg (by simp [hv])] at hlook
    exact (congrArg s.pte hslot).trans hlook
  | true =>
    rw [if_pos rfl]
    rw [leaf, if_pos hv] at hlook
    obtain ⟨v, role₂, hF₂, hG, ⟨-, hno⟩ | ⟨-, -, hno⟩ | ⟨npage, w, role₃, -, -, hok, hF₃, hP⟩⟩ :=
      copyPage_spec (A := A) hB.frames ht (hI a ha) hrole (ptx_lt a) (entry_eq_some.2 ⟨hv, rfl⟩)
    · exact .inr (.inr ⟨v, hno, h.toBegun.grown hB hF₂ hG⟩)
    · exact .inr (.inl hno)
    · exact .inl ⟨w, hok, (h.grown hI ht hB hF₂ hG).placed hI ht (hB.grown hF₂ hG) hF₃ ha hP hlook
        (pteCreate_copyPerm hv) (hword _ hlook).2⟩

/-- **`copy_range`** copies the pages of a range; if it fails, it has copied some of them. -/
theorem copyRange_copied (start end_ : ℕ) (h : Copied s t D I role from_ to_ Z) :
    (∀ u, copyRange A to_ from_ start end_ t = some (.ok (), u) →
        Copied s u D I role from_ to_ fun la => Z la ∨ start ≤ la ∧ la < end_) ∧
      ∀ u e, copyRange A to_ from_ start end_ t = some (.error e, u) →
        Begun s u D I role to_ fun la => Z la ∨ start ≤ la ∧ la < end_ := by
  let P : ℕ → Phys → Prop := fun a v =>
    Copied s v D I role from_ to_ fun la => Z la ∨ start ≤ la ∧ la < a ∧ la < end_
  let Q : Option (Except Errno Unit × Phys) → Prop := fun o =>
    (∀ u, o = some (.ok (), u) →
        Copied s u D I role from_ to_ fun la => Z la ∨ start ≤ la ∧ la < end_) ∧
      ∀ u e, o = some (.error e, u) → Begun s u D I role to_ fun la => Z la ∨ start ≤ la ∧ la < end_
  have hQ : start % pgSize = 0 → end_ % pgSize = 0 → UserAccess start end_ →
      Q (walk A from_ end_ (copyEntry A to_) (pages start end_) start t) := by
    rintro hmod hmod' ⟨-, hlt, htop⟩
    refine walk_rule (P := P) (Q := Q) ?_ ?_ ?_ ?_ _ start t le_rfl hlt hmod pages_lt ?_
    · rintro a v - ha hP
      obtain ⟨role₁, hB⟩ := hP.beside
      exact getPte_false hB.frames.toTables hf (hI _ (by omega))
    · intro a v hsa ha hm hP hnone
      obtain ⟨role₁, hB⟩ := hP.beside
      refine hP.extend (fun la hz => hz.imp_right fun hz => ?_) fun la hla hz => ?_
      · have := lt_nextTable hm
        omega
      · by_cases hla' : la < a
        · exact .inl (hz.imp_right fun hz => ⟨hz.1, hla', hz.2.2⟩)
        · refine hz.imp .inl fun hz => ?_
          obtain ⟨e1, e2⟩ := index_nextTable (not_lt.1 hla') hz.2.1
          rw [← (hB.other hs hf hf' hne.symm (hI la hla)).1, Phys.lookup, Phys.pteAt, e1, e2, hnone]
          rfl
    · intro a v pt hsa ha hm hP hpt
      obtain ⟨w, hw, hC⟩ | hno | ⟨w, hw, hE⟩ :=
        copyEntry_copied (A := A) hs hf' hf ht hne hI hP (by omega) hpt
      · refine .inl ⟨w, hw, hC.extend (fun la hz => ?_) fun la hla hz => .inl ?_⟩
        · obtain (hz | hz) | hz := hz
          · exact .inl hz
          · exact .inr ⟨hz.1, by omega, hz.2.2⟩
          · refine .inr ?_
            unfold pgSize at *
            omega
        · refine hz.elim (fun hz => .inl (.inl hz)) fun hz => ?_
          by_cases hla' : la < a
          · exact .inl (.inr ⟨hz.1, hla', hz.2.2⟩)
          · refine .inr ?_
            unfold pgSize at *
            omega
      · refine .inr ⟨fun w hw => ?_, fun w hw => ?_, fun w e hw => ?_⟩ <;>
          cases hno.symm.trans hw
      · refine .inr ⟨fun v hv => ?_, fun v hv => ?_, fun v e hv => ?_⟩
        · cases hw.symm.trans hv
        · cases hw.symm.trans hv
        · cases hw.symm.trans hv
          exact hE.mono fun la hz => hz.imp_right fun hz => ⟨hz.1, hz.2.2⟩
    · intro a v hea hP
      refine ⟨fun w hw => ?_, fun w e hw => by cases hw⟩
      cases hw
      refine hP.extend (fun la hz => hz.imp_right fun hz => ⟨hz.1, hz.2.2⟩) fun la hla hz => .inl ?_
      exact hz.imp_right fun hz => ⟨hz.1, by omega, hz.2⟩
    · refine h.extend (fun la => .inl) fun la hla hz => hz.imp_right fun hz => ?_
      omega
  constructor
  · intro u hrun
    unfold copyRange at hrun
    rw [Code.assert_bind_eq_some, Code.assert_bind_eq_some] at hrun
    exact (hQ hrun.1.1 hrun.1.2 hrun.2.1).1 u hrun.2.2
  · intro u e hrun
    unfold copyRange at hrun
    rw [Code.assert_bind_eq_some, Code.assert_bind_eq_some] at hrun
    exact (hQ hrun.1.1 hrun.1.2 hrun.2.1).2 u e hrun.2.2

end

end Ucore.Pmm
