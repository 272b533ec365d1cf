/-
  Delta lists: timers in the order in which they are due, each with the time from the one before.

  * `due`: the time after which a timer of the list is due;
  * `due_insert`, `due_remove`, `due_tick`, `due_zeros`: what linking a timer, taking one out, a
    tick and dropping the timers that are due do to these times;
  * `pending`: what they are after a history of additions, deletions and ticks;
  * `OnTime.fires`: if every tick fires the timers that are due, a timer added for `k` ticks fires
    at the `k`-th one, and at no other.
-/
import Mathlib.Data.List.Nodup
import Mathlib.Algebra.BigOperators.Group.List.Basic
import Mathlib.Algebra.GroupWithZero.Nat

namespace DeltaList

variable {τ : Type*} {e e' : τ → ℕ} {xs ys : List τ} {t u x : τ} {k : ℕ}

/-! ## Lists -/

/-- The time after which the last timer is due. -/
def span (e : τ → ℕ) (xs : List τ) : ℕ := (xs.map e).sum

@[simp] theorem span_nil : span e [] = 0 := rfl

@[simp] theorem span_cons : span e (x :: xs) = e x + span e xs := by simp [span]

theorem span_append : span e (xs ++ ys) = span e xs + span e ys := by simp [span]

theorem span_congr (h : ∀ x ∈ xs, e' x = e x) : span e' xs = span e xs := by
  rw [span, span, List.map_congr_left h]

variable [DecidableEq τ]

theorem head_rest {y : τ} {d : ℕ} (hnd : (y :: ys).Nodup)
    (hys : ∀ z ∈ y :: ys, e' z + (if (y :: ys).head? = some z then d else 0) = e z) :
    e' y + d = e y ∧ ∀ z ∈ ys, e' z = e z := by
  have hy := hys y List.mem_cons_self
  rw [if_pos List.head?_cons] at hy
  refine ⟨hy, fun z hz => ?_⟩
  have hzy : z ≠ y := fun h => (List.nodup_cons.1 hnd).1 (h ▸ hz)
  have := hys z (List.mem_cons_of_mem _ hz)
  rwa [List.head?_cons, if_neg fun h => hzy (Option.some.inj h).symm, Nat.add_zero] at this

/-- A timer linked in before others moves none of them. -/
theorem span_insert {d : ℕ} (hnd : ys.Nodup) (hne : ys ≠ [])
    (hys : ∀ y ∈ ys, e' y + (if ys.head? = some y then d else 0) = e y) :
    d + span e' ys = span e ys := by
  cases ys with
  | nil => exact absurd rfl hne
  | cons y ys =>
    obtain ⟨hy, hrest⟩ := head_rest hnd hys
    rw [span_cons, span_cons, span_congr hrest]
    omega

/-- The deltas of the list up to `t`, added up. -/
def due (e : τ → ℕ) : List τ → τ → Option ℕ
  | [], _ => none
  | x :: xs, t => if t = x then some (e x) else (due e xs t).map fun n => e x + n

theorem due_cons : due e (x :: xs) t =
    if t = x then some (e x) else (due e xs t).map fun n => e x + n := rfl

theorem due_eq_none : due e xs t = none ↔ t ∉ xs := by
  induction xs with
  | nil => simp [due]
  | cons x xs ih =>
    rw [due_cons]
    by_cases ht : t = x
    · simp [ht]
    · simp [ht, ih]

theorem due_congr (h : ∀ x ∈ xs, e' x = e x) : due e' xs t = due e xs t := by
  induction xs with
  | nil => rfl
  | cons x xs ih =>
    rw [due_cons, due_cons, h x List.mem_cons_self, ih fun y hy => h y (List.mem_cons_of_mem _ hy)]

theorem due_append : due e (xs ++ ys) t =
    if t ∈ xs then due e xs t else (due e ys t).map fun n => span e xs + n := by
  induction xs with
  | nil => simp
  | cons x xs ih =>
    rw [List.cons_append, due_cons, due_cons]
    by_cases ht : t = x
    · simp [ht]
    · rw [if_neg ht, if_neg ht, ih]
      by_cases hm : t ∈ xs
      · simp [hm]
      · simp only [hm, ht, List.mem_cons, or_self, if_false, Option.map_map, span_cons]
        congr 1
        ext n
        simp [Nat.add_assoc]

/-- No timer is due later than the last. -/
theorem due_le_span : ∀ {xs : List τ} {n : ℕ}, due e xs t = some n → n ≤ span e xs
  | x :: xs, n, h => by
    rw [due_cons] at h
    rw [span_cons]
    split at h
    · cases h
      exact Nat.le_add_right _ _
    · obtain ⟨m, hm, rfl⟩ := Option.map_eq_some_iff.1 h
      exact Nat.add_le_add_left (due_le_span hm) _

/-- A timer due after `k` is linked in behind those due by then; the next one's delta is less. -/
theorem due_insert (ht : t ∉ xs ++ ys) (hnd : (xs ++ ys).Nodup)
    (hxs : ∀ x ∈ xs, e' x = e x) (het : e' t + span e xs = k)
    (hys : ∀ y ∈ ys, e' y + (if ys.head? = some y then e' t else 0) = e y) :
    due e' (xs ++ t :: ys) u = if u = t then some k else due e (xs ++ ys) u := by
  have hx := span_congr hxs
  rw [due_append, due_append, due_congr hxs, hx]
  by_cases hux : u ∈ xs
  · have hut : u ≠ t := by
      rintro rfl
      exact ht (List.mem_append_left _ hux)
    rw [if_pos hux, if_neg hut, if_pos hux]
  · rw [if_neg hux, if_neg hux, due_cons]
    by_cases hut : u = t
    · rw [if_pos hut, if_pos hut, Option.map_some]
      congr 1
      omega
    · rw [if_neg hut, if_neg hut]
      cases ys with
      | nil => rfl
      | cons y ys =>
        obtain ⟨hy, hrest⟩ := head_rest (List.nodup_append.1 hnd).2.1 hys
        rw [due_cons, due_cons, due_congr hrest]
        by_cases huy : u = y
        · rw [if_pos huy, if_pos huy, Option.map_some, Option.map_some, Option.map_some,
            Option.some.injEq]
          omega
        · rw [if_neg huy, if_neg huy]
          simp only [Option.map_map]
          congr 1
          ext n
          simp only [Function.comp_apply]
          omega

/-- A timer is taken out, and its delta added to that of the next one. -/
theorem due_remove (hnd : (xs ++ t :: ys).Nodup) (hxs : ∀ x ∈ xs, e' x = e x)
    (hys : ∀ y ∈ ys, e' y = e y + if ys.head? = some y then e t else 0) :
    due e' (xs ++ ys) u = if u = t then none else due e (xs ++ t :: ys) u := by
  have ht : t ∉ xs ++ ys := (List.nodup_cons.1 (List.nodup_middle.1 hnd)).1
  by_cases hut : u = t
  · rw [if_pos hut, due_eq_none, hut]
    exact ht
  · have hins : due e (xs ++ t :: ys) u =
        if u = t then some (e t + span e' xs) else due e' (xs ++ ys) u :=
      due_insert ht (List.nodup_middle.1 hnd).of_cons (fun x hx => (hxs x hx).symm) rfl
        fun y hy => (hys y hy).symm
    rw [if_neg hut] at hins ⊢
    exact hins.symm

/-- A tick: the first delta is one less. -/
theorem due_tick (hx : e' x + 1 = e x) (hxs : ∀ y ∈ xs, e' y = e y) :
    due e' (x :: xs) t = (due e (x :: xs) t).map fun n => n - 1 := by
  rw [due_cons, due_cons, due_congr hxs]
  by_cases ht : t = x
  · rw [if_pos ht, if_pos ht, Option.map_some, Option.some.injEq]
    omega
  · rw [if_neg ht, if_neg ht, Option.map_map]
    congr 1
    ext n
    simp only [Function.comp_apply]
    omega

/-- The timers with deltas zero at the front are those that are due. -/
theorem due_zeros {zs : List τ} (hz : ∀ z ∈ zs, e z = 0) (hy : ∀ y ∈ ys.head?, e y ≠ 0)
    (hnd : (zs ++ ys).Nodup) : (due e (zs ++ ys) t = some 0 ↔ t ∈ zs) ∧
      due e ys t = if t ∈ zs then none else due e (zs ++ ys) t := by
  have hs : span e zs = 0 := List.sum_eq_zero fun n hn => by
    obtain ⟨z, hzm, rfl⟩ := List.mem_map.1 hn
    exact hz z hzm
  rw [due_append, hs]
  by_cases ht : t ∈ zs
  · have hle : ∀ {n}, due e zs t = some n → n = 0 := fun h => by
      have := due_le_span h
      omega
    have hty : t ∉ ys := fun hy => (List.nodup_append.1 hnd).2.2 t ht t hy rfl
    rw [if_pos ht, if_pos ht, due_eq_none.2 hty]
    refine ⟨iff_of_true ?_ ht, rfl⟩
    cases h : due e zs t with
    | none => exact absurd ht (due_eq_none.1 h)
    | some n => rw [hle h]
  · rw [if_neg ht, if_neg ht]
    simp only [Nat.zero_add, Option.map_id', iff_false, ht, and_true]
    intro h
    cases ys with
    | nil => cases h
    | cons y ys =>
      have hy0 : e y ≠ 0 := hy y (by simp)
      rw [due_cons] at h
      split at h
      · exact hy0 (Option.some.inj h)
      · obtain ⟨n, -, hn⟩ := Option.map_eq_some_iff.1 h
        omega

/-! ## Histories -/

/-- A timer is added for a number of ticks, a timer is deleted, or a tick fires timers. -/
inductive Event (τ : Type*) where
  | add (t : τ) (k : ℕ)
  | del (t : τ)
  | tick (fired : List τ)
  deriving DecidableEq

/-- One tick of the time that is left: at the last one a timer is pending no more. -/
def countdown (n : ℕ) : Option ℕ := if n ≤ 1 then none else some (n - 1)

/-- The ticks that are left to each timer, after a history (the last event first). -/
def pending : List (Event τ) → τ → Option ℕ
  | [], _ => none
  | .add t k :: es, u => if u = t then some k else pending es u
  | .del t :: es, u => if u = t then none else pending es u
  | .tick _ :: es, u => (pending es u).bind countdown

/-- Every tick fired the timers that were due, each once. -/
def OnTime : List (Event τ) → Prop
  | [] => True
  | .tick fired :: es => (∀ t, t ∈ fired ↔ pending es t = some 1) ∧ fired.Nodup ∧ OnTime es
  | _ :: es => OnTime es

theorem le_due {n : ℕ} (h : due e (x :: xs) t = some n) : e x ≤ n := by
  rw [due_cons] at h
  split at h
  · exact Nat.le_of_eq (Option.some.inj h)
  · obtain ⟨m, -, rfl⟩ := Option.map_eq_some_iff.1 h
    exact Nat.le_add_right _ _

/-- **A tick** fires the timers whose deltas are zero then, and leaves the others. -/
theorem due_fire {zs : List τ} (hx : e' x + 1 = e x) (hxs : ∀ y ∈ xs, e' y = e y)
    (hnd : (x :: xs).Nodup) (hsplit : x :: xs = zs ++ ys) (hz : ∀ z ∈ zs, e' z = 0)
    (hy : ∀ y ∈ ys.head?, e' y ≠ 0) :
    (t ∈ zs ↔ due e (x :: xs) t = some 1) ∧ due e' ys t = (due e (x :: xs) t).bind countdown := by
  obtain ⟨h1, h2⟩ := due_zeros (t := t) hz hy (hsplit ▸ hnd)
  rw [← hsplit, due_tick hx hxs] at h1 h2
  rw [h2]
  cases hd : due e (x :: xs) t with
  | none =>
    rw [hd] at h1
    exact ⟨h1.symm.trans (by simp), by simp⟩
  | some n =>
    have hle := le_due hd
    rw [hd, Option.map_some, Option.some.injEq] at h1
    rw [Option.some.injEq, Option.bind_some, countdown, Option.map_some]
    refine ⟨h1.symm.trans (by omega), ?_⟩
    by_cases hn : n ≤ 1
    · rw [if_pos hn, if_pos (h1.1 (by omega))]
    · rw [if_neg hn, if_neg fun hm => hn (by have := h1.2 hm; omega)]

/-- The number of ticks. -/
def ticks : List (Event τ) → ℕ
  | [] => 0
  | .tick _ :: es => ticks es + 1
  | _ :: es => ticks es

/-- The history neither adds nor deletes `t`. -/
def Untouched (t : τ) (es : List (Event τ)) : Prop := ∀ ev ∈ es, (∀ k, ev ≠ .add t k) ∧ ev ≠ .del t

/-- What is left to a timer that was added for `k` ticks. -/
theorem pending_untouched {pre : List (Event τ)} : ∀ {post : List (Event τ)}, Untouched t post →
    0 < k → pending (post ++ .add t k :: pre) t =
      if ticks post < k then some (k - ticks post) else none
  | [], _, hk => by
    simp [pending, ticks, hk]
  | ev :: post, h, hk => by
    have ih : pending (post ++ .add t k :: pre) t =
        if ticks post < k then some (k - ticks post) else none :=
      pending_untouched (fun x hx => h x (List.mem_cons_of_mem _ hx)) hk
    obtain ⟨hadd, hdel⟩ := h ev List.mem_cons_self
    cases ev with
    | add t' k' =>
      have hne : t ≠ t' := by
        rintro rfl
        exact hadd k' rfl
      rw [List.cons_append, pending, if_neg hne, ih]
      rfl
    | del t' =>
      have hne : t ≠ t' := by
        rintro rfl
        exact hdel rfl
      rw [List.cons_append, pending, if_neg hne, ih]
      rfl
    | tick fired =>
      rw [List.cons_append, pending, ih, ticks]
      by_cases h1 : ticks post < k
      · rw [if_pos h1, Option.bind_some, countdown]
        by_cases h2 : ticks post + 1 < k
        · rw [if_neg (by omega), if_pos h2, Nat.sub_sub]
        · rw [if_pos (by omega), if_neg h2]
      · rw [if_neg h1, if_neg (by omega)]
        rfl

theorem OnTime.append {es : List (Event τ)} :
    ∀ post : List (Event τ), OnTime (post ++ es) → OnTime es
  | [], h => h
  | .add _ _ :: post, h => OnTime.append post h
  | .del _ :: post, h => OnTime.append post h
  | .tick _ :: post, h => OnTime.append post h.2.2

/-- **A timer fires on time**: added for `k` ticks and not touched since, at the `k`-th tick and at
    no other. -/
theorem OnTime.fires {pre mid post : List (Event τ)} {fired : List τ}
    (h : OnTime (post ++ .tick fired :: (mid ++ .add t k :: pre))) (hk : 0 < k)
    (hm : Untouched t mid) : t ∈ fired ↔ ticks mid + 1 = k := by
  obtain ⟨hf, -, -⟩ := h.append post
  rw [hf, pending_untouched hm hk]
  by_cases h1 : ticks mid < k
  · rw [if_pos h1, Option.some.injEq]
    omega
  · rw [if_neg h1]
    exact iff_of_false (by simp) (by omega)

/-- **A deleted timer does not fire**, unless it is added again. -/
theorem OnTime.deleted {pre mid post : List (Event τ)} {fired : List τ}
    (h : OnTime (post ++ .tick fired :: (mid ++ .del t :: pre))) (hm : Untouched t mid) :
    t ∉ fired := by
  obtain ⟨hf, -, -⟩ := h.append post
  have hp :
      ∀ {mid : List (Event τ)}, Untouched t mid → pending (mid ++ .del t :: pre) t = none := by
    intro mid
    induction mid with
    | nil => intro _; simp [pending]
    | cons ev mid ih =>
      intro hm
      have ih := ih fun x hx => hm x (List.mem_cons_of_mem _ hx)
      obtain ⟨hadd, hdel⟩ := hm ev List.mem_cons_self
      cases ev with
      | add t' k' =>
        have hne : t ≠ t' := by
          rintro rfl
          exact hadd k' rfl
        rw [List.cons_append, pending, if_neg hne, ih]
      | del t' =>
        have hne : t ≠ t' := by
          rintro rfl
          exact hdel rfl
        rw [List.cons_append, pending, if_neg hne, ih]
      | tick fired => rw [List.cons_append, pending, ih, Option.bind_none]
  rw [hf, hp hm]
  simp

end DeltaList
