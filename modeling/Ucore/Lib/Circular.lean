/-
  Circular lists in increasing order.

  `Circular next F`: from each element of the finite set `F`, `next` leads to the next greater one,
  and from the greatest to the least.

  * `Circular.reach`, `Circular.path`: from each element one comes to all others;
  * `Circular.insertBehind`, `Circular.eraseNext`: an element put in where it belongs, and one taken
    out.
-/
import Mathlib.Data.Finset.Max
import Mathlib.Data.Finset.Card
import Mathlib.Logic.Function.Iterate

structure Circular {α : Type*} [LinearOrder α] (next : α → α) (F : Finset α) : Prop where
  mem : ∀ a ∈ F, next a ∈ F
  gap : ∀ a ∈ F, a < next a → ∀ b ∈ F, b ≤ a ∨ next a ≤ b
  wrap : ∀ a ∈ F, next a ≤ a → ∀ b ∈ F, next a ≤ b ∧ b ≤ a

namespace Circular

variable {α : Type*} [LinearOrder α] {next next' : α → α} {F : Finset α} {a b c x : α}

theorem congr (h : Circular next F) (hn : ∀ a ∈ F, next' a = next a) : Circular next' F := by
  refine ⟨fun a ha => ?_, fun a ha hlt b hb => ?_, fun a ha hle b hb => ?_⟩
  · rw [hn a ha]
    exact h.mem a ha
  · rw [hn a ha] at hlt ⊢
    exact h.gap a ha hlt b hb
  · rw [hn a ha] at hle ⊢
    exact h.wrap a ha hle b hb

theorem singleton (h : next a = a) : Circular next {a} := by
  refine ⟨fun b hb => ?_, fun b hb hlt => ?_, fun b hb _ c hc => ?_⟩
  · cases Finset.mem_singleton.1 hb
    rw [h]
    exact hb
  · cases Finset.mem_singleton.1 hb
    exact absurd h hlt.ne'
  · cases Finset.mem_singleton.1 hb
    cases Finset.mem_singleton.1 hc
    exact ⟨h.le, le_rfl⟩

theorem next_inj (h : Circular next F) (ha : a ∈ F) (hb : b ∈ F)
    (he : next a = next b) : a = b := by
  have hlt : ∀ {a b}, a ∈ F → b ∈ F → next a = next b → ¬a < b := by
    intro a b ha hb he hab
    obtain hle | hlt := le_or_gt (next a) a
    · exact absurd (h.wrap a ha hle b hb).2 (not_le.2 hab)
    · obtain hba | hnb := h.gap a ha hlt b hb
      · exact absurd hba (not_le.2 hab)
      · exact absurd ((h.wrap b hb (he ▸ hnb) a ha).1) (not_le.2 (he ▸ hlt))
  exact le_antisymm (not_lt.1 (hlt hb ha he.symm)) (not_lt.1 (hlt ha hb he))

/-- An element that leads to itself is alone. -/
theorem eq_of_next_self (h : Circular next F) (ha : a ∈ F) (he : next a = a) (hb : b ∈ F) :
    b = a := by
  obtain ⟨h1, h2⟩ := h.wrap a ha he.le b hb
  exact le_antisymm h2 (he ▸ h1)

/-! ## Going round -/

theorem reach_up (h : Circular next F) (hx : x ∈ F) :
    ∀ n a, a ∈ F → a ≤ x → (F.filter fun b => a < b ∧ b ≤ x).card = n → ∃ m, next^[m] a = x := by
  intro n
  induction n using Nat.strong_induction_on with
  | h n ih =>
    intro a ha hax hn
    obtain rfl | hlt := hax.eq_or_lt
    · exact ⟨0, rfl⟩
    · have hup : a < next a := not_le.1 fun hle => not_le.2 hlt (h.wrap a ha hle x hx).2
      have hle : next a ≤ x := (h.gap a ha hup x hx).resolve_left (not_le.2 hlt)
      have hsub : (F.filter fun b => next a < b ∧ b ≤ x) ⊂ F.filter fun b => a < b ∧ b ≤ x := by
        refine Finset.ssubset_iff_of_subset (fun b hb => ?_) |>.2 ⟨next a, ?_, ?_⟩
        · rw [Finset.mem_filter] at hb ⊢
          exact ⟨hb.1, hup.trans hb.2.1, hb.2.2⟩
        · exact Finset.mem_filter.2 ⟨h.mem a ha, hup, hle⟩
        · exact fun hb => lt_irrefl _ (Finset.mem_filter.1 hb).2.1
      obtain ⟨m, hm⟩ := ih _ (hn ▸ Finset.card_lt_card hsub) (next a) (h.mem a ha) hle rfl
      exact ⟨m + 1, hm⟩

/-- From each element one comes to all others. -/
theorem reach (h : Circular next F) (ha : a ∈ F) (hx : x ∈ F) : ∃ n, next^[n] a = x := by
  have hne : F.Nonempty := ⟨a, ha⟩
  have hmax : ∀ b ∈ F, b ≤ F.max' hne := fun b hb => F.le_max' b hb
  have hm := F.max'_mem hne
  obtain ⟨n, hn⟩ := h.reach_up hm _ a ha (hmax a ha) rfl
  have hfirst : next (F.max' hne) ≤ x := (h.wrap _ hm (hmax _ (h.mem _ hm)) x hx).1
  obtain ⟨m, hm'⟩ := h.reach_up hx _ _ (h.mem _ hm) hfirst rfl
  refine ⟨m + (n + 1), ?_⟩
  rw [Function.iterate_add_apply, Function.iterate_succ_apply', hn, hm']

theorem iterate_mem (h : Circular next F) (ha : a ∈ F) : ∀ n, next^[n] a ∈ F
  | 0 => ha
  | n + 1 => by
    rw [Function.iterate_succ_apply']
    exact h.mem _ (h.iterate_mem ha n)

/-- From the element after `a` one comes to each element before one comes past `a`. -/
theorem path (h : Circular next F) (ha : a ∈ F) (hx : x ∈ F) :
    ∃ n, next^[n] (next a) = x ∧ ∀ m < n, next^[m] (next a) ≠ a := by
  classical
  have hex := h.reach (h.mem a ha) hx
  refine ⟨Nat.find hex, Nat.find_spec hex, fun m hm he => ?_⟩
  have hback : next^[m + 1] (next a) = next a := by
    rw [Function.iterate_succ_apply', he]
  refine Nat.find_min hex (m := Nat.find hex - (m + 1)) (by omega) ?_
  have hfind := Nat.find_spec hex
  rw [← Nat.sub_add_cancel hm, Function.iterate_add_apply, hback] at hfind
  exact hfind

/-! ## Changing the list -/

/-- The place of `b` is behind `a`. -/
def Behind (next : α → α) (a b : α) : Prop :=
  (a < b ∧ b < next a) ∨ (next a ≤ a ∧ (a < b ∨ b < next a))

/-- Each new element has a place. -/
theorem exists_behind (h : Circular next F) (hne : F.Nonempty) (hb : b ∉ F) :
    ∃ a ∈ F, Behind next a b := by
  by_cases hlow : (F.filter (· < b)).Nonempty
  · obtain ⟨ha, hab⟩ := Finset.mem_filter.1 ((F.filter (· < b)).max'_mem hlow)
    set a := (F.filter (· < b)).max' hlow
    refine ⟨a, ha, ?_⟩
    obtain hle | hlt := le_or_gt (next a) a
    · exact .inr ⟨hle, .inl hab⟩
    · refine .inl ⟨hab, lt_of_le_of_ne (not_lt.1 fun hn => ?_) fun e => hb (e ▸ h.mem a ha)⟩
      exact not_le.2 hlt (Finset.le_max' _ _ (Finset.mem_filter.2 ⟨h.mem a ha, hn⟩))
  · have ha := F.max'_mem hne
    refine ⟨F.max' hne, ha, .inr ⟨F.le_max' _ (h.mem _ ha), .inr ?_⟩⟩
    refine lt_of_le_of_ne (not_lt.1 fun hn => hlow ?_) fun e => hb (e ▸ h.mem _ ha)
    exact ⟨_, Finset.mem_filter.2 ⟨h.mem _ ha, hn⟩⟩

theorem insertBehind (h : Circular next F) (ha : a ∈ F) (hb : b ∉ F) (hab : Behind next a b) :
    Circular (Function.update (Function.update next b (next a)) a b) (insert b F) := by
  have hne : a ≠ b := fun e => hb (e ▸ ha)
  set N := Function.update (Function.update next b (next a)) a b
  have hNa : N a = b := Function.update_self ..
  have hNb : N b = next a := (Function.update_of_ne hne.symm _ _).trans (Function.update_self ..)
  have hN : ∀ x, x ≠ a → x ≠ b → N x = next x := fun x h1 h2 =>
    (Function.update_of_ne h1 _ _).trans (Function.update_of_ne h2 _ _)
  have hcases : ∀ x ∈ insert b F, x = b ∨ x = a ∨ x ∈ F ∧ x ≠ a ∧ x ≠ b := fun x hx => by
    obtain rfl | hx := Finset.mem_insert.1 hx
    · exact .inl rfl
    · by_cases e : x = a
      · exact .inr (.inl e)
      · exact .inr (.inr ⟨hx, e, fun e => hb (e ▸ hx)⟩)
  have hgap := h.gap
  have hwrap := h.wrap
  refine ⟨fun x hx => ?_, fun x hx hlt y hy => ?_, fun x hx hle y hy => ?_⟩
  · obtain rfl | rfl | ⟨hxF, h1, h2⟩ := hcases x hx
    · rw [hNb]
      exact Finset.mem_insert_of_mem (h.mem a ha)
    · rw [hNa]
      exact Finset.mem_insert_self ..
    · rw [hN x h1 h2]
      exact Finset.mem_insert_of_mem (h.mem x hxF)
  · unfold Behind at hab
    obtain rfl | rfl | ⟨hxF, h1, h2⟩ := hcases x hx
    · rw [hNb] at hlt ⊢
      obtain rfl | hy := Finset.mem_insert.1 hy
      · exact .inl le_rfl
      · have h3 := hgap a ha
        have h4 := hwrap a ha
        grind
    · rw [hNa] at hlt ⊢
      obtain rfl | hy := Finset.mem_insert.1 hy
      · exact .inr le_rfl
      · have h3 := hgap x ha
        have h4 := hwrap x ha
        grind
    · rw [hN x h1 h2] at hlt ⊢
      obtain rfl | hy := Finset.mem_insert.1 hy
      · have h3 := hgap x hxF hlt a ha
        have h4 := hgap a ha
        have h5 := hwrap a ha
        have h6 := h.mem x hxF
        grind
      · exact hgap x hxF hlt y hy
  · unfold Behind at hab
    obtain rfl | rfl | ⟨hxF, h1, h2⟩ := hcases x hx
    · rw [hNb] at hle ⊢
      obtain rfl | hy := Finset.mem_insert.1 hy
      · exact ⟨hle, le_rfl⟩
      · have h4 := hwrap a ha
        grind
    · rw [hNa] at hle ⊢
      obtain rfl | hy := Finset.mem_insert.1 hy
      · exact ⟨le_rfl, hle⟩
      · have h4 := hwrap x ha
        grind
    · rw [hN x h1 h2] at hle ⊢
      obtain rfl | hy := Finset.mem_insert.1 hy
      · have h3 := hwrap x hxF hle a ha
        have h4 := hwrap a ha
        have h5 := hwrap x hxF hle (next a) (h.mem a ha)
        grind
      · exact hwrap x hxF hle y hy

theorem eraseNext (h : Circular next F) (ha : a ∈ F) (hc : next a = c) (hne : c ≠ a) :
    Circular (Function.update next a (next c)) (F.erase c) := by
  have hcF : c ∈ F := hc ▸ h.mem a ha
  have hnc : next c ≠ c := fun e => hne (h.eq_of_next_self hcF e ha).symm
  set N := Function.update next a (next c)
  have hNa : N a = next c := Function.update_self ..
  have hN : ∀ x, x ≠ a → N x = next x := fun x hx => Function.update_of_ne hx _ _
  -- what is behind `c`
  have hafter : ∀ y ∈ F, c < y → next c ≤ y := fun y hy hcy => by
    obtain hle | hlt := le_or_gt (next c) c
    · exact absurd (h.wrap c hcF hle y hy).2 (not_le.2 hcy)
    · exact (h.gap c hcF hlt y hy).resolve_left (not_le.2 hcy)
  refine ⟨fun x hx => ?_, fun x hx hlt y hy => ?_, fun x hx hle y hy => ?_⟩
  · obtain ⟨hxc, hx⟩ := Finset.mem_erase.1 hx
    by_cases e : x = a
    · rw [e, hNa]
      exact Finset.mem_erase.2 ⟨hnc, h.mem c hcF⟩
    · rw [hN x e]
      exact Finset.mem_erase.2 ⟨fun e' => e (h.next_inj hx ha (e'.trans hc.symm)), h.mem x hx⟩
  · obtain ⟨hxc, hx⟩ := Finset.mem_erase.1 hx
    obtain ⟨hyc, hy⟩ := Finset.mem_erase.1 hy
    by_cases e : x = a
    · subst e
      rw [hNa]
      obtain hle | hlt := le_or_gt (next x) x
      · exact .inl (h.wrap x ha hle y hy).2
      · refine (h.gap x ha hlt y hy).imp_right fun hcy => ?_
        rw [hc] at hcy
        exact hafter y hy (hcy.lt_of_ne' hyc)
    · rw [hN x e] at hlt ⊢
      exact h.gap x hx hlt y hy
  · obtain ⟨hxc, hx⟩ := Finset.mem_erase.1 hx
    obtain ⟨hyc, hy⟩ := Finset.mem_erase.1 hy
    by_cases e : x = a
    · subst e
      rw [hNa] at hle ⊢
      obtain hxle | hlt := le_or_gt (next x) x
      · obtain ⟨h1, h2⟩ := h.wrap x ha hxle y hy
        rw [hc] at h1
        exact ⟨hafter y hy (h1.lt_of_ne' hyc), h2⟩
      · rw [hc] at hlt
        obtain ⟨h1, h2⟩ := h.wrap c hcF (hle.trans hlt.le) y hy
        obtain h3 | h3 := h.gap x ha (hc ▸ hlt) y hy
        · exact ⟨h1, h3⟩
        · rw [hc] at h3
          exact absurd (le_antisymm h2 h3) hyc
    · rw [hN x e] at hle ⊢
      exact h.wrap x hx hle y hy

end Circular
