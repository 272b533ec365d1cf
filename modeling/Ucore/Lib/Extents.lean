/-
  Extents: lists of pairwise disjoint intervals of natural numbers in increasing order.

  * `Laid hi bs`: the intervals `bs` are non-empty, disjoint, increasing and below `hi`;
  * `Covered bs p`: one of them contains `p` (`Laid.unique`: exactly one);
  * `Laid.insert`, `Laid.join`, `Laid.cut`, `Laid.erase`: what the list operations of an
    allocator do to the layout and to the set of points covered;
  * `Laid.locate`: an interval that meets none of them has a place in the list;
  * `Laid.total_le`: the lengths add up to at most `hi`;
  * `Apart bs`: no two of them touch.
-/
import Mathlib.Data.List.Nodup
import Mathlib.Algebra.BigOperators.Group.List.Basic
import Mathlib.Tactic.Linarith

namespace Extents

/-- The interval `start, …, start + len - 1`. -/
@[ext]
structure Extent where
  start : ℕ
  len : ℕ
  deriving DecidableEq

namespace Extent

def stop (e : Extent) : ℕ := e.start + e.len

/-- The point `p` lies in the interval. -/
def Has (e : Extent) (p : ℕ) : Prop := e.start ≤ p ∧ p < e.stop

instance (e : Extent) (p : ℕ) : Decidable (e.Has p) := inferInstanceAs (Decidable (_ ∧ _))

end Extent

/-- Some interval contains `p`. -/
def Covered (bs : List Extent) (p : ℕ) : Prop := ∃ e ∈ bs, e.Has p

instance (bs : List Extent) (p : ℕ) : Decidable (Covered bs p) :=
  inferInstanceAs (Decidable (∃ e ∈ bs, e.Has p))

/-- The intervals are non-empty, disjoint, in increasing order and below `hi`. -/
structure Laid (hi : ℕ) (bs : List Extent) : Prop where
  ordered : bs.Pairwise fun a b => a.stop ≤ b.start
  pos : ∀ e ∈ bs, 0 < e.len
  bound : ∀ e ∈ bs, e.stop ≤ hi

/-- Between any two of them there is a point that none of them contains. -/
def Apart (bs : List Extent) : Prop := bs.Pairwise fun a b => a.stop < b.start

instance (bs : List Extent) : Decidable (Apart bs) :=
  inferInstanceAs (Decidable (bs.Pairwise fun a b => a.stop < b.start))

variable {hi p n : ℕ} {as bs cs : List Extent} {a b e : Extent}

theorem covered_append : Covered (as ++ bs) p ↔ Covered as p ∨ Covered bs p := by
  simp [Covered, or_and_right, exists_or]

theorem covered_cons : Covered (e :: bs) p ↔ e.Has p ∨ Covered bs p := by simp [Covered]

theorem covered_insert : Covered (as ++ e :: cs) p ↔ e.Has p ∨ Covered (as ++ cs) p := by
  rw [covered_append, covered_cons, covered_append]; tauto

theorem laid_nil (hi : ℕ) : Laid hi [] := ⟨.nil, by simp, by simp⟩

namespace Laid

/-- A point lies in at most one interval. -/
theorem unique (h : Laid hi bs) (ha : a ∈ bs) (hb : b ∈ bs) (hpa : a.Has p) (hpb : b.Has p) :
    a = b := by
  obtain ⟨l, r, rfl⟩ := List.append_of_mem ha
  have ho := h.ordered
  simp only [List.pairwise_append, List.pairwise_cons, List.mem_cons] at ho
  simp only [List.mem_append, List.mem_cons] at hb
  obtain ⟨h1, h2⟩ := hpa
  obtain ⟨h3, h4⟩ := hpb
  rcases hb with hb | rfl | hb
  · have := ho.2.2 b hb a (Or.inl rfl); omega
  · rfl
  · have := ho.2.1.1 b hb; omega

/-- The starts are strictly increasing. -/
theorem starts (h : Laid hi bs) : (bs.map Extent.start).Pairwise (· < ·) := by
  rw [List.pairwise_map]
  refine h.ordered.imp_of_mem fun {a b} ha _ hab => ?_
  have := h.pos a ha
  simp only [Extent.stop] at hab; omega

theorem starts_nodup (h : Laid hi bs) : (bs.map Extent.start).Nodup :=
  h.starts.imp fun hab => Nat.ne_of_lt hab

/-- The other intervals contain none of the points of `e`. -/
theorem others (h : Laid hi (as ++ e :: cs)) (ha : a ∈ as ++ cs) (hp : a.Has p) : ¬ e.Has p := by
  intro hpe
  obtain rfl : a = e := h.unique (p := p) (by simp at ha ⊢; tauto) (by simp) hp hpe
  have hd := h.starts_nodup
  rw [List.map_append, List.map_cons, List.nodup_middle, List.nodup_cons] at hd
  exact hd.1 (by simpa using List.mem_map_of_mem (f := Extent.start) ha)

theorem erase (h : Laid hi (as ++ e :: cs)) : Laid hi (as ++ cs) := by
  have hsub : (as ++ cs).Sublist (as ++ e :: cs) := by simp
  exact ⟨h.ordered.sublist hsub, fun x hx => h.pos x (hsub.subset hx),
    fun x hx => h.bound x (hsub.subset hx)⟩

/-- A new interval between those below it and those above it. -/
theorem insert (h : Laid hi (as ++ cs)) (hl : ∀ a ∈ as, a.stop ≤ e.start)
    (hr : ∀ c ∈ cs, e.stop ≤ c.start) (he : 0 < e.len) (hb : e.stop ≤ hi) :
    Laid hi (as ++ e :: cs) := by
  have ho := h.ordered
  rw [List.pairwise_append] at ho
  refine ⟨?_, ?_, ?_⟩
  · rw [List.pairwise_append, List.pairwise_cons]
    refine ⟨ho.1, ⟨hr, ho.2.1⟩, fun x hx y hy => ?_⟩
    rcases List.mem_cons.1 hy with rfl | hy
    exacts [hl x hx, ho.2.2 x hx y hy]
  · have := h.pos; simp only [List.mem_append, List.mem_cons] at this ⊢
    rintro x (hx | rfl | hx)
    exacts [this x (Or.inl hx), he, this x (Or.inr hx)]
  · have := h.bound; simp only [List.mem_append, List.mem_cons] at this ⊢
    rintro x (hx | rfl | hx)
    exacts [this x (Or.inl hx), hb, this x (Or.inr hx)]

theorem below (h : Laid hi (as ++ e :: cs)) : ∀ a ∈ as, a.stop ≤ e.start :=
  fun a ha => (List.pairwise_append.1 h.ordered).2.2 a ha e (by simp)

theorem above (h : Laid hi (as ++ e :: cs)) : ∀ c ∈ cs, e.stop ≤ c.start :=
  (List.pairwise_cons.1 (List.pairwise_append.1 h.ordered).2.1).1

/-- Two neighbours that touch become one. -/
theorem join (h : Laid hi (as ++ a :: b :: cs)) (ht : a.stop = b.start) :
    Laid hi (as ++ ⟨a.start, a.len + b.len⟩ :: cs) := by
  have hb : b.stop ≤ hi := h.bound b (by simp)
  have hbc : Laid hi ((as ++ [a]) ++ b :: cs) := by simpa using h
  have hac : Laid hi (as ++ cs) := h.erase.erase
  refine hac.insert (fun x hx => h.below x hx) (fun x hx => ?_) ?_ ?_
  · have := hbc.above x hx
    simp only [Extent.stop] at this ht ⊢; omega
  · have := h.pos a (by simp); simp only; omega
  · simp only [Extent.stop] at hb ht ⊢; omega

theorem covered_join (ht : a.stop = b.start) :
    Covered (as ++ ⟨a.start, a.len + b.len⟩ :: cs) p ↔ Covered (as ++ a :: b :: cs) p := by
  simp only [covered_append, covered_cons, Extent.Has, Extent.stop] at ht ⊢
  have : a.start ≤ p ∧ p < a.start + (a.len + b.len) ↔
      (a.start ≤ p ∧ p < a.start + a.len) ∨ b.start ≤ p ∧ p < b.start + b.len := by omega
  rw [this]; tauto

/-- The first `n` points of an interval are taken away. -/
theorem cut (h : Laid hi (as ++ e :: cs)) (hn : n < e.len) :
    Laid hi (as ++ ⟨e.start + n, e.len - n⟩ :: cs) := by
  have he := h.bound e (by simp)
  refine h.erase.insert (fun x hx => ?_) (fun x hx => ?_) ?_ ?_
  · have := h.below x hx; simp only; omega
  · have := h.above x hx; simp only [Extent.stop] at this ⊢; omega
  · simp only; omega
  · simp only [Extent.stop] at he ⊢; omega

theorem covered_cut (h : Laid hi (as ++ e :: cs)) (hn : n < e.len) :
    Covered (as ++ ⟨e.start + n, e.len - n⟩ :: cs) p ↔
      Covered (as ++ e :: cs) p ∧ ¬ (e.start ≤ p ∧ p < e.start + n) := by
  rw [covered_insert, covered_insert]
  constructor
  · rintro (hp | ⟨x, hx, hp⟩)
    · simp only [Extent.Has, Extent.stop] at hp ⊢; omega
    · exact ⟨Or.inr ⟨x, hx, hp⟩, fun hpe => h.others hx hp
        ⟨hpe.1, by simp only [Extent.stop]; omega⟩⟩
  · rintro ⟨hp | hp, hn'⟩
    · left; simp only [Extent.Has, Extent.stop] at hp ⊢; omega
    · exact Or.inr hp

theorem covered_erase (h : Laid hi (as ++ e :: cs)) :
    Covered (as ++ cs) p ↔ Covered (as ++ e :: cs) p ∧ ¬ e.Has p := by
  rw [covered_insert]
  constructor
  · rintro ⟨x, hx, hp⟩
    exact ⟨Or.inr ⟨x, hx, hp⟩, h.others hx hp⟩
  · rintro ⟨hp | hp, hn⟩
    exacts [absurd hp hn, hp]

/-- An interval that meets none of the listed ones lies between two of them. -/
theorem locate (h : Laid hi bs) (he : 0 < e.len) (hd : ∀ q, e.Has q → ¬ Covered bs q) :
    ∃ as cs, bs = as ++ cs ∧ (∀ a ∈ as, a.stop ≤ e.start) ∧ ∀ c ∈ cs, e.stop ≤ c.start := by
  induction bs with
  | nil => exact ⟨[], [], rfl, by simp, by simp⟩
  | cons b bs ih =>
    have hb := h.pos b (by simp)
    have hbe : b.stop ≤ e.start ∨ e.stop ≤ b.start := by
      by_contra hc
      have h1 := hd (max b.start e.start) ⟨le_max_right _ _, ?_⟩
      · exact h1 ⟨b, by simp, le_max_left _ _, by simp only [Extent.stop] at hc ⊢; omega⟩
      · simp only [Extent.stop] at hc ⊢; omega
    rcases hbe with hbe | hbe
    · have hbs : Laid hi ([] ++ b :: bs) := h
      obtain ⟨as, cs, rfl, hl, hr⟩ := ih hbs.erase fun q hq hc =>
        hd q hq (covered_cons.2 (Or.inr hc))
      exact ⟨b :: as, cs, rfl, by simpa using ⟨hbe, hl⟩, hr⟩
    · refine ⟨[], b :: bs, rfl, by simp, fun c hc => ?_⟩
      rcases List.mem_cons.1 hc with rfl | hc
      · exact hbe
      · have := (List.pairwise_cons.1 h.ordered).1 c hc
        simp only [Extent.stop] at *; omega

/-- The lengths of the intervals add up to at most the bound. -/
theorem total_le (h : Laid hi bs) : (bs.map Extent.len).sum ≤ hi := by
  have key : ∀ (bs : List Extent) (lo : ℕ), (bs.Pairwise fun a b => a.stop ≤ b.start) →
      (∀ e ∈ bs, lo ≤ e.start) → (∀ e ∈ bs, e.stop ≤ hi) → bs ≠ [] →
      lo + (bs.map Extent.len).sum ≤ hi := by
    intro bs
    induction bs with
    | nil => intro lo _ _ _ hne; exact absurd rfl hne
    | cons b bs ih =>
      intro lo ho hlo hhi _
      have h1 := hlo b (by simp)
      have h2 := hhi b (by simp)
      rcases bs.eq_nil_or_concat with rfl | hne
      · simp only [Extent.stop] at h2; simp; omega
      · have := ih b.stop (List.pairwise_cons.1 ho).2 (List.pairwise_cons.1 ho).1
          (fun e he => hhi e (by simp [he])) (by rintro rfl; simp at hne)
        simp only [Extent.stop] at this; simp; omega
  rcases eq_or_ne bs [] with rfl | hne
  · simp
  · simpa using key bs 0 h.ordered (by simp) h.bound hne

end Laid

/-! ## Intervals that do not touch -/

theorem apart_singleton (e : Extent) : Apart [e] := List.pairwise_singleton _ _

namespace Apart

/-- The last one is replaced by one that begins where it does. -/
theorem replace_last (h : Apart (as ++ [a])) (he : e.start = a.start) : Apart (as ++ [e]) := by
  rw [Apart, List.pairwise_append] at h ⊢
  refine ⟨h.1, List.pairwise_singleton _ _, fun x hx y hy => ?_⟩
  rw [List.mem_singleton] at hy
  rw [hy, he]
  exact h.2.2 x hx a (by simp)

/-- One that begins behind the last one is added. -/
theorem snoc (h : Apart (as ++ [a])) (ha : 0 < a.len) (he : a.stop < e.start) :
    Apart (as ++ [a] ++ [e]) := by
  rw [Apart, List.pairwise_append]
  refine ⟨h, List.pairwise_singleton _ _, fun x hx y hy => ?_⟩
  rw [List.mem_singleton] at hy
  subst hy
  rw [List.mem_append, List.mem_singleton] at hx
  rcases hx with hx | rfl
  · have := (List.pairwise_append.1 h).2.2 x hx a (by simp)
    simp only [Extent.stop] at this he ⊢; omega
  · exact he

/-- Two lists, the second of which begins behind the last one of the first. -/
theorem append (h : Apart (as ++ [e])) (h' : Apart (b :: cs)) (he : 0 < e.len) (hb : 0 < b.len)
    (heb : e.stop < b.start) : Apart (as ++ e :: b :: cs) := by
  have hs := List.pairwise_append.1 (h.snoc he heb)
  have hc := List.pairwise_cons.1 h'
  rw [show as ++ e :: b :: cs = (as ++ [e]) ++ b :: cs by simp, Apart, List.pairwise_append]
  refine ⟨hs.1, h', fun x hx y hy => ?_⟩
  have hxb := hs.2.2 x hx b (by simp)
  rcases List.mem_cons.1 hy with rfl | hy
  · exact hxb
  · have := hc.1 y hy
    simp only [Extent.stop] at hxb this ⊢; omega

/-- The last one of the first list and the first one of the second become one. -/
theorem joined (h : Apart (as ++ [a])) (h' : Apart (b :: cs)) (hs : e.start = a.start)
    (hb : e.stop = b.stop) (he : 0 < e.len) : Apart (as ++ e :: cs) := by
  have ha := List.pairwise_append.1 (h.replace_last hs)
  have hc := List.pairwise_cons.1 h'
  rw [Apart, List.pairwise_append, List.pairwise_cons]
  refine ⟨ha.1, ⟨fun y hy => hb ▸ hc.1 y hy, hc.2⟩, fun x hx y hy => ?_⟩
  have hxe := ha.2.2 x hx e (by simp)
  rcases List.mem_cons.1 hy with rfl | hy
  · exact hxe
  · have := hc.1 y hy
    rw [← hb] at this
    simp only [Extent.stop] at hxe this ⊢; omega

end Apart

end Extents
