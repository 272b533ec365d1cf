/-
  The timer list is a delta list.

  * `Timed k ts`: the timers in the list are `ts`, and each is due when its history says;
  * `Timed.add`, `Timed.del`: `add_timer` and `del_timer` do what their names say;
  * `Timed.tick`: `run_timer_list` wakes the processes of the timers that are due, and fails no
    assertion.
-/
import Ucore.Schedule.RunQueue
import Mathlib.Data.List.TakeWhile

namespace Ucore

open Intrusive DeltaList

set_option linter.unusedSectionVars false

variable {S P T : Type} [DecidableEq S] [DecidableEq P] [DecidableEq T] [Fintype T]

namespace Sched

variable {k k' : Sched S P T} {t u : T} {c p : P} {q : List P} {xs ys ts : List T}

def expires (k : Sched S P T) (t : T) : ℕ := (k.timer t).expires

/-- The list of the timers. -/
abbrev Ring (k : Sched S P T) (ts : List T) : Prop :=
  Circ k.links .timerList (ts.map .timerLink)

/-- The timers in the list are `ts`, and each is due when its history says. -/
structure Timed (k : Sched S P T) (ts : List T) : Prop where
  ring : k.Ring ts
  times : ∀ t, due k.expires ts t = pending k.events t
  first : ∀ t, ts.head? = some t → k.expires t ≠ 0
  bound : span k.expires ts < 2 ^ 32
  inited : ∀ t ∈ ts, k.inited t = true
  unlinked : ∀ t, k.inited t = true → t ∉ ts → listEmpty k.links (.timerLink t) = true
  onTime : OnTime k.events

/-- The process of a timer can be woken by it. -/
def Ready (k : Sched S P T) (p : P) : Prop :=
  p ∈ k.live ∧ (k.run p).state ≠ .zombie ∧
    ((k.run p).waitState = 0 ∨ (k.run p).waitState &&& wtInterrupted ≠ 0)

theorem Ring.nodup (h : k.Ring ts) : ts.Nodup := Procs.nodup_of_map h

theorem Ring.length_le (h : k.Ring ts) : ts.length ≤ Fintype.card T :=
  h.nodup.length_le_card

theorem Ring.congr (h : k.Ring ts)
    (hn : ∀ x, (∀ p, x ≠ .runLink p) → x ≠ .runList → k'.links.next x = k.links.next x)
    (hp : ∀ x, (∀ p, x ≠ .runLink p) → x ≠ .runList → k'.links.prev x = k.links.prev x) :
    k'.Ring ts := by
  have hx : ∀ x ∈ (.timerList : SchedNode P T) :: ts.map .timerLink,
      (∀ p, x ≠ .runLink p) ∧ x ≠ .runList := fun x hx => by
    rcases List.mem_cons.1 hx with rfl | hx
    · simp
    · obtain ⟨t, -, rfl⟩ := List.mem_map.1 hx
      simp
  exact Circ.congr h (fun x hm => hn x (hx x hm).1 (hx x hm).2)
    fun x hm => hp x (hx x hm).1 (hx x hm).2

/-- The timers do not depend on the run queue. -/
theorem Timed.same (h : Timed k ts) (hs : Same k k') : Timed k' ts where
  ring := Ring.congr h.ring hs.next hs.prev
  times t := by
    have he : k'.expires = k.expires := by
      unfold expires
      rw [hs.timer]
    rw [he, hs.events, h.times]
  first t ht := by
    rw [expires, hs.timer]
    exact h.first t ht
  bound := by
    have he : k'.expires = k.expires := by
      unfold expires
      rw [hs.timer]
    rw [he]
    exact h.bound
  inited t ht := by
    rw [hs.inited]
    exact h.inited t ht
  unlinked t hi ht := by
    rw [hs.inited] at hi
    have := h.unlinked t hi ht
    rwa [listEmpty, hs.next _ (by simp) (by simp)]
  onTime := by
    rw [hs.events]
    exact h.onTime

/-- A wakeup leaves a process ready. -/
theorem Ready.woke (h : k.Ready p) (hl : k'.live = k.live) (hw : Wakes k k') : k'.Ready p := by
  obtain ⟨h1, h2, h3⟩ := h
  refine ⟨by rwa [hl], ?_, ?_⟩
  · rcases hw p with e | ⟨-, e⟩
    · rwa [e]
    · rw [e, woken_state]
      simp
  · rcases hw p with e | ⟨-, e⟩
    · rwa [e]
    · rw [e, woken]
      split
      · exact h3
      · exact .inl rfl

/-! ## `add_timer` -/

/-- The entry of the first timer of a list, or its head. -/
def entry : List T → SchedNode P T
  | [] => .timerList
  | t :: _ => .timerLink t

theorem head_entry :
    (ys.map .timerLink ++ [.timerList] : List (SchedNode P T)).head (by simp) = entry ys := by
  cases ys with
  | nil => rfl
  | cons y ys => rfl

theorem Ring.mid (h : k.Ring (xs ++ t :: ys)) :
    Circ k.links .timerList (xs.map .timerLink ++ .timerLink t :: ys.map .timerLink) := by
  rw [Ring, List.map_append, List.map_cons] at h
  exact h

theorem Ring.next (h : k.Ring (xs ++ t :: ys)) : listNext k.links (.timerLink t) = entry ys :=
  (Ring.mid h).next_mid.trans head_entry

theorem Ring.next_head (h : k.Ring ts) : listNext k.links .timerList = entry ts :=
  (Circ.next_head h).trans head_entry

/-- Only the times of `k` and `k'` differ. -/
structure SameButTimes (k k' : Sched S P T) : Prop where
  eq : k' = { k with timer := k'.timer }
  proc : ∀ t, (k'.timer t).proc = (k.timer t).proc

theorem SameButTimes.trans {k₁ k₂ k₃ : Sched S P T} (h : SameButTimes k₁ k₂)
    (h' : SameButTimes k₂ k₃) : SameButTimes k₁ k₃ :=
  ⟨by rw [h'.eq, h.eq], fun t => (h'.proc t).trans (h.proc t)⟩

@[simp] theorem expires_setExpires (n : ℕ) :
    (k.setExpires t n).expires u = if u = t then n else k.expires u := by
  unfold expires setExpires
  by_cases h : u = t
  · simp [h]
  · simp [h]

theorem sameButTimes_setExpires (n : ℕ) : SameButTimes k (k.setExpires t n) := by
  refine ⟨rfl, fun u => ?_⟩
  by_cases h : u = t
  · simp [setExpires, h]
  · simp [setExpires, h]

/-- **The loop of `add_timer`** stops before the first timer that is due later. -/
theorem addTimerWalk_spec : ∀ {ys xs : List T} {n : ℕ} {k : Sched S P T}, k.Ring (xs ++ ys) →
    t ∉ xs ++ ys → ys.length < n → ∃ zs ws k', ys = zs ++ ws ∧
      addTimerWalk t n k (entry ys) = some (k', entry ws) ∧ SameButTimes k k' ∧
      k'.expires t + span k.expires zs = k.expires t ∧
        (∀ z ∈ xs ++ zs, k'.expires z = k.expires z) ∧
      ∀ w ∈ ws, k'.expires w + (if ws.head? = some w then k'.expires t else 0) = k.expires w
  | [], xs, n + 1, k, _, _, _ =>
    ⟨[], [], k, rfl, rfl, ⟨rfl, fun _ => rfl⟩, by simp, fun _ _ => rfl,
      fun w hw => absurd hw (by simp)⟩
  | y :: ys, xs, n + 1, k, hr, ht, hn => by
    have hty : y ≠ t := by
      rintro rfl
      simp at ht
    have hwalk : addTimerWalk t (n + 1) k (entry (y :: ys)) =
        if k.expires t < k.expires y then
          some (k.setExpires y (k.expires y - k.expires t), entry (y :: ys))
        else addTimerWalk t n (k.setExpires t (k.expires t - k.expires y))
          (listNext k.links (.timerLink y)) := rfl
    rw [hwalk]
    by_cases hlt : k.expires t < k.expires y
    · rw [if_pos hlt]
      have hyx : ∀ z ∈ xs, z ≠ y := fun z hz e => by
        have := (Ring.nodup hr)
        exact (List.nodup_append.1 this).2.2 z hz y List.mem_cons_self e
      have hyy : ∀ z ∈ ys, z ≠ y := fun z hz e =>
        (List.nodup_cons.1 (List.nodup_append.1 (Ring.nodup hr)).2.1).1 (e ▸ hz)
      refine
        ⟨[], y :: ys, _, rfl, rfl, sameButTimes_setExpires _, ?_, fun z hz => ?_, fun w hw => ?_⟩
      · simp [Ne.symm hty]
      · rw [List.append_nil] at hz
        rw [expires_setExpires, if_neg (hyx z hz)]
      · rw [List.head?_cons, expires_setExpires, expires_setExpires, if_neg (Ne.symm hty)]
        rcases List.mem_cons.1 hw with rfl | hw
        · rw [if_pos rfl, if_pos rfl]
          omega
        · rw [if_neg (hyy w hw), if_neg fun e => hyy w hw (Option.some.inj e).symm, Nat.add_zero]
    · rw [if_neg hlt]
      obtain ⟨k₁, hk₁⟩ : ∃ k₁, k₁ = k.setExpires t (k.expires t - k.expires y) := ⟨_, rfl⟩
      have hs₁ : SameButTimes k k₁ := hk₁ ▸ sameButTimes_setExpires _
      have he₁ : ∀ u, k₁.expires u = if u = t then k.expires t - k.expires y else k.expires u :=
        fun u => by rw [hk₁, expires_setExpires]
      have hl₁ : k₁.links = k.links := by rw [hs₁.eq]
      have hr₁ : k₁.Ring ((xs ++ [y]) ++ ys) := by
        rw [Ring, hl₁, List.append_assoc]
        exact hr
      have hnx : listNext k.links (.timerLink y) = entry ys := Ring.next hr
      obtain ⟨zs, ws, k', rfl, hw, hs, ht', hz, hws⟩ := addTimerWalk_spec hr₁ (by simpa using ht)
        (by simpa using hn) (n := n)
      have hzt : ∀ z ∈ xs ++ y :: (zs ++ ws), z ≠ t := fun z hm e => ht (e ▸ hm)
      have hspan : span k₁.expires zs = span k.expires zs := span_congr fun z hm => by
        rw [he₁, if_neg (hzt z (by simp [hm]))]
      refine ⟨y :: zs, ws, k', rfl, ?_, hs₁.trans hs, ?_, fun z hm => ?_, fun w hm => ?_⟩
      · rw [hnx, ← hk₁, hw]
      · rw [hspan, he₁, if_pos rfl] at ht'
        rw [span_cons]
        omega
      · rw [hz z (by simpa using hm), he₁, if_neg (hzt z ?_)]
        simp only [List.mem_append, List.mem_cons] at hm ⊢
        tauto
      · rw [hws w hm, he₁, if_neg (hzt w (by simp [hm]))]

/-- Only the timers and the links of their list differ. -/
structure SameButTimers (k k' : Sched S P T) : Prop where
  eq : k' = { k with timer := k'.timer, links := k'.links }
  proc : ∀ t, (k'.timer t).proc = (k.timer t).proc
  next : ∀ x, (∀ t, x ≠ .timerLink t) → x ≠ .timerList → k'.links.next x = k.links.next x
  prev : ∀ x, (∀ t, x ≠ .timerLink t) → x ≠ .timerList → k'.links.prev x = k.links.prev x

/-- The entries of other lists are not in the ring. -/
theorem Ring.outside {x : SchedNode P T} (hx : ∀ t, x ≠ .timerLink t) (hl : x ≠ .timerList) :
    x ∉ (.timerList : SchedNode P T) :: ts.map .timerLink := fun h => by
  rcases List.mem_cons.1 h with e | h
  · exact hl e
  · obtain ⟨t, -, e⟩ := List.mem_map.1 h
    exact hx t e.symm

theorem entry_mem : (entry ys : SchedNode P T) ∈ .timerList :: (xs ++ ys).map .timerLink := by
  cases ys with
  | nil => exact List.mem_cons_self
  | cons y ys => exact List.mem_cons_of_mem _ (List.mem_map_of_mem (by simp))

theorem link_mem : (.timerLink t : SchedNode P T) ∈ .timerList :: ts.map .timerLink ↔ t ∈ ts := by
  simp

/-- **`add_timer`.** -/
theorem Timed.add (h : Timed k ts) (hi : k.inited t = true) (ht : t ∉ ts)
    (h0 : k.expires t ≠ 0) (hlt : k.expires t < 2 ^ 32) :
    ∃ k' ts', k.addTimer t = .ok k' ∧ SameButTimers k k' ∧ (∀ u, u ∈ ts' ↔ u = t ∨ u ∈ ts) ∧
      Timed (k'.record (.add t (k.expires t))) ts' := by
  have hr₀ : k.Ring ([] ++ ts) := h.ring
  have hlen : ts.length < fuel T := Nat.lt_succ_of_le (Ring.length_le h.ring)
  obtain ⟨zs, ws, k₁, rfl, hwalk, hs, het, hez, hew⟩ := addTimerWalk_spec hr₀ ht hlen
  have hl₁ : k₁.links = k.links := by rw [hs.eq]
  have hring : Circ k₁.links .timerList
      (zs.map .timerLink ++ ws.map .timerLink : List (SchedNode P T)) := by
    rw [hl₁, ← List.map_append]
    exact h.ring
  have hnew :
      (.timerLink t : SchedNode P T) ∉ .timerList :: (zs.map .timerLink ++ ws.map .timerLink) := by
    rw [← List.map_append, link_mem]
    exact ht
  have hadd : Circ (listAddBefore k₁.links (entry ws) (.timerLink t)) .timerList
      (zs.map .timerLink ++ .timerLink t :: ws.map .timerLink) :=
    circ_listAddBefore hring hnew head_entry.symm
  have hframe :
      ∀ x : SchedNode P T, x ∉ .timerList :: (zs ++ ws).map .timerLink → x ≠ .timerLink t →
      (listAddBefore k₁.links (entry ws) (.timerLink t)).next x = k.links.next x ∧
        (listAddBefore k₁.links (entry ws) (.timerLink t)).prev x = k.links.prev x :=
          fun x hx hxt => by
    rw [← hl₁]
    rw [List.map_append] at hx
    have he :
        (entry ws : SchedNode P T) ∈ .timerList :: (zs.map .timerLink ++ ws.map .timerLink) := by
      rw [← List.map_append]
      exact entry_mem
    exact listAddBefore_frame hxt (fun e => hx (e ▸ hring.prev_mem he)) fun e => hx (e ▸ he)
  have hcond : 0 < (k.timer t).expires ∧ listEmpty k.links (.timerLink t) = true :=
    ⟨Nat.pos_of_ne_zero h0, h.unlinked t hi ht⟩
  have hok : k.addTimer t =
      .ok { k₁ with links := listAddBefore k₁.links (entry ws) (.timerLink t) } := by
    unfold addTimer
    rw [if_pos hcond, Ring.next_head h.ring, hwalk]
    rfl
  have hmem : ∀ u, u ∈ zs ++ t :: ws ↔ u = t ∨ u ∈ zs ++ ws := fun u => by
    simp only [List.mem_append, List.mem_cons]
    tauto
  have hspan : span k₁.expires zs = span k.expires zs := span_congr hez
  refine ⟨_, zs ++ t :: ws, hok, ⟨?_, hs.proc, fun x hx hl => ?_, fun x hx hl => ?_⟩, hmem, ?_⟩
  · rw [hl₁]
    conv_lhs => rw [hs.eq]
  · exact (hframe x (Ring.outside hx hl) (hx t)).1
  · exact (hframe x (Ring.outside hx hl) (hx t)).2
  · have hinit : k₁.inited = k.inited := by rw [hs.eq]
    have hev : k₁.events = k.events := by rw [hs.eq]
    refine ⟨?_, fun u => ?_, fun u hu => ?_, ?_, fun u hu => ?_, fun u hiu hu => ?_, ?_⟩
    · change Circ _ _ _
      rw [List.map_append, List.map_cons]
      exact hadd
    · change due k₁.expires _ u = pending (.add t (k.expires t) :: k₁.events) u
      rw [due_insert ht (Ring.nodup h.ring) hez het hew, pending, hev, h.times]
    · change k₁.expires u ≠ 0
      cases zs with
      | nil =>
        have hut : t = u := Option.some.inj hu
        rw [span_nil, Nat.add_zero] at het
        rwa [← hut, het]
      | cons z zs =>
        have hzu : z = u := Option.some.inj hu
        rw [← hzu, hez z (by simp)]
        exact h.first z rfl
    · have hsp := h.bound
      rw [span_append] at hsp
      change span k₁.expires (zs ++ t :: ws) < _
      rw [span_append, span_cons, hspan]
      by_cases hws : ws = []
      · rw [hws, span_nil]
        omega
      · rw [span_insert (List.nodup_append.1 (Ring.nodup h.ring)).2.1 hws hew]
        exact hsp
    · change k₁.inited u = true
      rw [hinit]
      rcases (hmem u).1 hu with rfl | hu
      · exact hi
      · exact h.inited u hu
    · change listEmpty (listAddBefore k₁.links (entry ws) (.timerLink t)) (.timerLink u) = true
      rw [hmem, not_or] at hu
      have := h.unlinked u (hinit ▸ hiu) hu.2
      rw [listEmpty] at this ⊢
      rwa [(hframe (.timerLink u) (fun hm => hu.2 (link_mem.1 hm)) (by simpa using hu.1)).1]
    · change OnTime (.add t (k.expires t) :: k₁.events)
      rw [hev]
      exact h.onTime

/-- `timer_init` of a timer that is not in the list. -/
theorem Timed.timerInit (h : Timed k ts) (ht : t ∉ ts) (n : ℕ) : Timed (k.timerInit t p n) ts := by
  have hout : ∀ x, x ≠ (.timerLink t : SchedNode P T) →
      (listInit k.links (.timerLink t)).next x = k.links.next x ∧
        (listInit k.links (.timerLink t)).prev x = k.links.prev x := fun x hx => by
    simp [listInit, hx]
  have he : ∀ u ∈ ts, (k.timerInit t p n).expires u = k.expires u := fun u hu => by
    have hut : u ≠ t := fun e => ht (e ▸ hu)
    simp [Sched.timerInit, expires, hut]
  have hin : ∀ u, (k.timerInit t p n).inited u = if u = t then true else k.inited u := fun u => by
    simp [Sched.timerInit, Function.update_apply]
  refine ⟨?_, fun u => ?_, fun u hu => ?_, ?_, fun u hu => ?_, fun u hiu hu => ?_, h.onTime⟩
  · refine Circ.congr h.ring (fun x hx => (hout x ?_).1) fun x hx => (hout x ?_).2
    all_goals
      rintro rfl
      exact ht (link_mem.1 hx)
  · rw [due_congr he]
    exact h.times u
  · rw [he u (List.mem_of_mem_head? hu)]
    exact h.first u hu
  · rw [span_congr he]
    exact h.bound
  · rw [hin, h.inited u hu, ite_self]
  · change listEmpty (listInit k.links (.timerLink t)) (.timerLink u) = true
    rw [hin] at hiu
    rw [listEmpty]
    by_cases e : u = t
    · simp [e, listInit]
    · rw [if_neg e] at hiu
      rw [(hout (.timerLink u) (by simpa using e)).1]
      exact h.unlinked u hiu hu

/-! ## `del_timer` -/

theorem giveExpires_spec (hr : k.Ring (xs ++ t :: ys))
    (hb : k.expires t ≠ 0 → ∀ y, ys.head? = some y → k.expires y + k.expires t < 2 ^ 32) :
    SameButTimes k (k.giveExpires t) ∧ ∀ u, (k.giveExpires t).expires u =
      k.expires u + if ys.head? = some u then k.expires t else 0 := by
  unfold giveExpires
  rw [Ring.next hr]
  by_cases h0 : (k.timer t).expires = 0
  · rw [if_neg (not_not.2 h0)]
    refine ⟨⟨rfl, fun _ => rfl⟩, fun u => ?_⟩
    rw [show k.expires t = 0 from h0, ite_self, Nat.add_zero]
  · rw [if_pos h0]
    cases ys with
    | nil =>
      exact ⟨⟨rfl, fun _ => rfl⟩, fun u => by simp [entry]⟩
    | cons y ys =>
      refine ⟨sameButTimes_setExpires _, fun u => ?_⟩
      have hlt := hb h0 y rfl
      unfold expires at hlt
      change (k.setExpires y _).expires u = _
      rw [expires_setExpires, Nat.mod_eq_of_lt hlt, List.head?_cons]
      by_cases e : u = y
      · rw [if_pos e, if_pos (by rw [e])]
        rw [e]
        rfl
      · rw [if_neg e, if_neg fun h => e (Option.some.inj h).symm, Nat.add_zero]

/-- `del_timer` takes the timer out of the list, and gives its time to the next one. -/
theorem delTimer_ring (hr : k.Ring (xs ++ t :: ys))
    (hb : k.expires t ≠ 0 → ∀ y, ys.head? = some y → k.expires y + k.expires t < 2 ^ 32) :
    ∃ k', k.delTimer t = k' ∧ SameButTimers k k' ∧ k'.Ring (xs ++ ys) ∧
      (∀ u, k'.expires u = k.expires u + if ys.head? = some u then k.expires t else 0) ∧
      listEmpty k'.links (.timerLink t) = true ∧
      ∀ u ∉ xs ++ t :: ys, k'.links.next (.timerLink u) = k.links.next (.timerLink u) := by
  obtain ⟨hs, he⟩ := giveExpires_spec hr hb
  have hl : (k.giveExpires t).links = k.links := by rw [hs.eq]
  have hmid : Circ (k.giveExpires t).links .timerList
      (xs.map .timerLink ++ .timerLink t :: ys.map .timerLink) := by
    rw [hl]
    exact Ring.mid hr
  have hne : listEmpty k.links (.timerLink t) = false :=
    listEmpty_of_mem (Ring.mid hr) (by simp)
  have hk : k.delTimer t = { k.giveExpires t with
      links := listDelInit (k.giveExpires t).links (.timerLink t) } := by
    unfold delTimer
    rw [if_pos (by rw [hne]; rfl)]
  have hframe : ∀ x : SchedNode P T, x ∉ .timerList :: (xs ++ t :: ys).map .timerLink →
      (listDelInit (k.giveExpires t).links (.timerLink t)).next x = k.links.next x ∧
        (listDelInit (k.giveExpires t).links (.timerLink t)).prev x = k.links.prev x :=
          fun x hx => by
    rw [List.map_append, List.map_cons] at hx
    rw [← hl]
    exact listDelInit_outside hmid (by simp) hx
  refine ⟨_, hk, ⟨?_, hs.proc, fun x hx hl => (hframe x (Ring.outside hx hl)).1,
    fun x hx hl => (hframe x (Ring.outside hx hl)).2⟩, ?_, he, listEmpty_listDelInit,
    fun u hu => (hframe _ fun hm => hu (link_mem.1 hm)).1⟩
  · rw [hl]
    conv_lhs => rw [hs.eq]
  · change Circ _ _ _
    rw [List.map_append]
    exact circ_listDelInit hmid

/-- **`del_timer`** of a timer in the list. -/
theorem Timed.del (h : Timed k (xs ++ t :: ys)) : ∃ k', k.delTimer t = k' ∧ SameButTimers k k' ∧
    Timed (k'.record (.del t)) (xs ++ ys) := by
  have hnd := Ring.nodup h.ring
  have hb := h.bound
  rw [span_append, span_cons] at hb
  have hlt : ∀ y, ys.head? = some y → k.expires y + k.expires t < 2 ^ 32 := fun y hy => by
    cases ys with
    | nil => cases hy
    | cons z ys =>
      cases hy
      rw [span_cons] at hb
      omega
  obtain ⟨k', hk, hs, hr, he, hu, hn⟩ := delTimer_ring h.ring fun _ => hlt
  have hin : k'.inited = k.inited := by rw [hs.eq]
  have hev : k'.events = k.events := by rw [hs.eq]
  have hx : ∀ x ∈ xs, k'.expires x = k.expires x := fun x hx => by
    rw [he, if_neg, Nat.add_zero]
    exact fun hy => (List.nodup_append.1 hnd).2.2 x hx x
      (List.mem_cons_of_mem _ (List.mem_of_mem_head? hy)) rfl
  refine ⟨k', hk, hs, hr, fun u => ?_, fun u hh => ?_, ?_, fun u hm => ?_, fun u hi hm => ?_, ?_⟩
  · change due k'.expires _ u = pending (.del t :: k'.events) u
    rw [due_remove hnd hx fun y _ => he y, pending, hev, h.times]
  · change k'.expires u ≠ 0
    cases xs with
    | nil =>
      have hh' : ys.head? = some u := hh
      have := h.first t rfl
      rw [he, if_pos hh']
      omega
    | cons x xs =>
      have hxu : x = u := Option.some.inj hh
      rw [← hxu, hx x List.mem_cons_self]
      exact h.first x rfl
  · change span k'.expires _ < _
    rw [span_append, span_congr hx]
    by_cases hys : ys = []
    · rw [hys, span_nil]
      omega
    · have hnd' := (List.nodup_cons.1 (List.nodup_append.1 hnd).2.1).2
      have hsp : span k'.expires ys = k.expires t + span k.expires ys := by
        cases ys with
        | nil => exact absurd rfl hys
        | cons y ys =>
          have hrest : ∀ z ∈ ys, k'.expires z = k.expires z := fun z hz => by
            rw [he, List.head?_cons, if_neg, Nat.add_zero]
            exact fun e => (List.nodup_cons.1 hnd').1 (Option.some.inj e ▸ hz)
          rw [span_cons, span_cons, span_congr hrest, he, if_pos List.head?_cons]
          omega
      omega
  · rw [show (k'.record (.del t)).inited u = k.inited u by rw [← hin]; rfl]
    exact h.inited u (by simp only [List.mem_append, List.mem_cons] at hm ⊢; tauto)
  · by_cases e : u = t
    · rw [e]
      exact hu
    · have hm' : u ∉ xs ++ t :: ys := by
        simp only [List.mem_append, List.mem_cons, not_or] at hm ⊢
        exact ⟨hm.1, e, hm.2⟩
      have := h.unlinked u (by rw [← hin]; exact hi) hm'
      change listEmpty k'.links _ = true
      rwa [listEmpty, hn u hm']
  · change OnTime (.del t :: k'.events)
    rw [hev]
    exact h.onTime

/-- `del_timer` of a timer that is not in the list. -/
theorem Timed.del_unlinked (h : Timed k ts) (hi : k.inited t = true) (ht : t ∉ ts) :
    k.delTimer t = k ∧ Timed (k.record (.del t)) ts := by
  refine ⟨?_, h.ring, fun u => ?_, h.first, h.bound, h.inited, h.unlinked, h.onTime⟩
  · unfold delTimer
    rw [h.unlinked t hi ht]
    rfl
  · change due k.expires ts u = pending (.del t :: k.events) u
    rw [pending, ← h.times]
    split
    · rename_i e
      rw [due_eq_none, e]
      exact ht
    · rfl

/-! ## `run_timer_list` -/

/-- The process table but the `run` fields. -/
def SamePcb (k k' : Sched S P T) : Prop :=
  ∀ p, k'.procs.pcb p = { k.procs.pcb p with run := k'.run p }

theorem SamePcb.refl (k : Sched S P T) : SamePcb k k := fun _ => rfl

theorem SamePcb.trans {k₁ k₂ k₃ : Sched S P T} (h : SamePcb k₁ k₂) (h' : SamePcb k₂ k₃) :
    SamePcb k₁ k₃ := fun p => by rw [h' p, h p]

theorem SamePcb.setRun {g : Proc} (h : k'.procs = k.procs.setRun p g) : SamePcb k k' := fun r => by
  rw [run, h, Procs.pcb_setRun]

/-- Processes have been woken, and timers taken out of the list. -/
structure Fires (k k' : Sched S P T) : Prop where
  timer : k'.timer = k.timer
  pcb : SamePcb k k'
  table : Procs.SameTable k.procs k'.procs
  live : k'.live = k.live
  waiters : k'.waiters = k.waiters
  pc : k'.pc = k.pc
  inited : k'.inited = k.inited
  events : k'.events = k.events
  current : k'.current = k.current
  wakes : Wakes k k'
  queued : ∃ q, Queued k' k'.current q

theorem Fires.trans {k₁ k₂ k₃ : Sched S P T} (h : Fires k₁ k₂) (h' : Fires k₂ k₃) : Fires k₁ k₃ :=
  ⟨h'.timer.trans h.timer, h.pcb.trans h'.pcb, h.table.trans h'.table, h'.live.trans h.live,
    h'.waiters.trans h.waiters, h'.pc.trans h.pc, h'.inited.trans h.inited,
    h'.events.trans h.events, h'.current.trans h.current, h.wakes.trans h'.wakes h.live, h'.queued⟩

theorem Fires.refl (h : Queued k k.current q) : Fires k k :=
  ⟨rfl, SamePcb.refl k, Procs.SameTable.refl _, rfl, rfl, rfl, rfl, rfl, rfl, Wakes.refl k, q, h⟩

theorem Woke.fires (h : Woke k k') (hp : SamePcb k k') : Fires k k' :=
  ⟨h.same.timer, hp, h.same.table, h.same.live, h.same.waiters, h.same.pc, h.same.inited,
    h.same.events, h.current, h.wakes, h.queued⟩

/-- The run queue does not depend on the timers. -/
theorem Queued.timers (h : Queued k c q) (hs : SameButTimers k k') : Queued k' c q := by
  have hx : ∀ x : SchedNode P T, x = .runList ∨ (∃ p, x = .runLink p) →
      (∀ t, x ≠ .timerLink t) ∧ x ≠ .timerList := fun x hx => by
    rcases hx with rfl | ⟨p, rfl⟩ <;> simp
  have he := hs.eq
  refine h.congr (fun x h => ⟨hs.next x (hx x h).1 (hx x h).2, hs.prev x (hx x h).1 (hx x h).2⟩)
    (fun p => ?_) (fun p _ => ?_) (fun p hp => ?_) ?_ ?_ ?_ ?_
  all_goals rw [he] at *
  · exact Iff.rfl
  · exact hp

theorem SameButTimers.fires (h : Queued k k.current q) (hs : SameButTimers k k')
    (ht : k'.timer = k.timer) : Fires k k' := by
  have hq := h.timers hs
  have hc : k'.current = k.current := by rw [hs.eq]
  refine ⟨ht, fun p => ?_, ?_, ?_, ?_, ?_, ?_, ?_, hc, fun p => .inl ?_, q, hc ▸ hq⟩
  all_goals rw [hs.eq]
  · rfl
  · exact Procs.SameTable.refl _
  · rfl

/-- The first timer, which is due, wakes its process and is taken out of the list. -/
theorem fire_first {zs : List T} (hr : k.Ring (t :: zs)) (h0 : k.expires t = 0)
    (hrd : k.Ready (k.timer t).proc) (hq : Queued k k.current q) :
    ∃ k₁, k.wakeupProc (k.timer t).proc = .ok k₁ ∧ Fires k (k₁.delTimer t) ∧
      ((k₁.delTimer t).run (k.timer t).proc).state = .runnable ∧ (k₁.delTimer t).Ring zs ∧
      listEmpty (k₁.delTimer t).links (.timerLink t) = true ∧
      ∀ u ∉ t :: zs, (k₁.delTimer t).links.next (.timerLink u) = k.links.next (.timerLink u) := by
  obtain ⟨k₁, q₁, hk₁, hp₁, hc₁, hs₁, hq₁⟩ := hq.wakeup hrd.1 hrd.2.1
  have hw : Woke k k₁ := ⟨hc₁, hs₁, Wakes.wakeup hrd.1 hp₁, q₁, hq₁⟩
  have he₁ : k₁.expires = k.expires := by
    unfold expires
    rw [hs₁.timer]
  have hr₁ : k₁.Ring ([] ++ t :: zs) := Ring.congr hr hs₁.next hs₁.prev
  obtain ⟨k₂, hk₂, hs₂, hr₂, he₂, hu₂, hn₂⟩ := delTimer_ring hr₁ fun h => absurd h0 (he₁ ▸ h)
  have ht₂ : k₂.timer = k₁.timer := by
    funext u
    have h1 : (k₂.timer u).expires = (k₁.timer u).expires := by
      have := he₂ u
      rwa [he₁, h0, ite_self, Nat.add_zero, ← he₁] at this
    have h2 := hs₂.proc u
    cases hu : k₂.timer u
    cases hu' : k₁.timer u
    rw [hu, hu'] at h1 h2
    exact Timer.mk.injEq .. ▸ ⟨h1, h2⟩
  refine ⟨k₁, hk₁, ?_⟩
  rw [hk₂]
  refine ⟨(hw.fires (SamePcb.setRun hp₁)).trans (SameButTimers.fires hq₁ hs₂ ht₂), ?_, hr₂, hu₂,
    fun u hu => ?_⟩
  · have hrun : k₂.run (k.timer t).proc = k₁.run (k.timer t).proc := by
      rw [hs₂.eq]
      rfl
    rw [hrun]
    change (k₁.procs.pcb _).run.state = _
    rw [hp₁, Procs.pcb_setRun]
    simp
  · rw [hn₂ u hu, hs₁.next _ (by simp) (by simp)]

/-- **The loop of `run_timer_list`** fires the timers that are due. -/
theorem timerLoop_spec (hy : ∀ y, ys.head? = some y → k.expires y ≠ 0) :
    ∀ {zs : List T} {n : ℕ} {k₀ : Sched S P T} {q : List P} {t : T}, k₀.Ring (zs ++ ys) →
    entry (zs ++ ys) = (.timerLink t : SchedNode P T) → k₀.timer = k.timer →
    (∀ z ∈ zs, k.expires z = 0) → (∀ z ∈ zs, k₀.Ready (k.timer z).proc) →
    Queued k₀ k₀.current q →
    (∀ u, k₀.inited u = true → u ∉ zs ++ ys → listEmpty k₀.links (.timerLink u) = true) →
    zs.length < n → ∃ k', timerLoop n k₀ t = .ok (k', zs) ∧ Fires k₀ k' ∧ k'.Ring ys ∧
      (∀ u, k'.inited u = true → u ∉ ys → listEmpty k'.links (.timerLink u) = true) ∧
      ∀ z ∈ zs, (k'.run (k.timer z).proc).state = .runnable
  | [], n + 1, k₀, q, t, hr, ht, htm, _, _, hq, hu, _ => by
    cases ys with
    | nil => cases ht
    | cons y ys =>
      have hyt : y = t := by
        rw [List.nil_append, entry] at ht
        exact SchedNode.timerLink.inj ht
      refine ⟨k₀, ?_, Fires.refl hq, hr, hu, fun _ h => absurd h (by simp)⟩
      have h0 : (k₀.timer t).expires ≠ 0 := by
        rw [htm, ← hyt]
        exact hy y rfl
      exact if_neg h0
  | z :: zs, n + 1, k₀, q, t, hr, ht, htm, hz, hrd, hq, hu, hn => by
    have hzt : z = t := SchedNode.timerLink.inj ht
    rw [← hzt]
    have h0 : k₀.expires z = 0 := by
      rw [expires, htm]
      exact hz z List.mem_cons_self
    have hrdz : k₀.Ready (k₀.timer z).proc := by
      rw [htm]
      exact hrd z List.mem_cons_self
    obtain ⟨k₁, hk₁, hf, hrun, hr₁, hu₁, hn₁⟩ := fire_first hr h0 hrdz hq
    rw [htm] at hk₁ hrun
    obtain ⟨q₁, hq₁⟩ := hf.queued
    have hnext : listNext k₀.links (.timerLink z) = entry (zs ++ ys) :=
      Ring.next (by simpa using hr : k₀.Ring ([] ++ z :: (zs ++ ys)))
    have hd : (k₀.timer z).expires = 0 := h0
    have hw := hrdz.2.2
    rw [htm] at hw
    have hmore : ∀ {u k' fired}, entry (zs ++ ys) = (.timerLink u : SchedNode P T) →
        timerLoop n (k₁.delTimer z) u = .ok (k', fired) →
        timerLoop (n + 1) k₀ z = .ok (k', z :: fired) := fun he hrest => by
      rw [timerLoop, if_pos hd]
      dsimp only
      rw [htm, if_pos hw, hk₁, hnext, he]
      change (timerLoop n (k₁.delTimer z) _ >>= _) = _
      rw [hrest]
      rfl
    have hlast : entry (zs ++ ys) = (.timerList : SchedNode P T) →
        timerLoop (n + 1) k₀ z = .ok (k₁.delTimer z, [z]) := fun he => by
      rw [timerLoop, if_pos hd]
      dsimp only
      rw [htm, if_pos hw, hk₁, hnext, he]
      rfl
    have hin₁ : ∀ u, (k₁.delTimer z).inited u = true → u ∉ zs ++ ys →
        listEmpty (k₁.delTimer z).links (.timerLink u) = true := fun u hi hm => by
      by_cases e : u = z
      · rw [e]
        exact hu₁
      · have hm' : u ∉ z :: (zs ++ ys) := by simp only [List.mem_cons, not_or]; exact ⟨e, hm⟩
        rw [listEmpty, hn₁ u hm']
        rw [hf.inited] at hi
        exact hu u hi hm'
    have hrd₁ : ∀ w ∈ zs, (k₁.delTimer z).Ready (k.timer w).proc := fun w hw =>
      (hrd w (List.mem_cons_of_mem _ hw)).woke hf.live hf.wakes
    cases he : (entry (zs ++ ys) : SchedNode P T) with
    | timerLink u =>
      obtain ⟨k', hk', hf', hr', hu', hrun'⟩ := timerLoop_spec hy hr₁ he (hf.timer.trans htm)
        (fun w hw => hz w (List.mem_cons_of_mem _ hw)) hrd₁ hq₁ hin₁
        (Nat.lt_of_succ_lt_succ hn)
      refine ⟨k', hmore he hk', hf.trans hf', hr', hu', fun w hw => ?_⟩
      rcases List.mem_cons.1 hw with rfl | hw
      · rcases hf'.wakes (k.timer w).proc with e | ⟨-, e⟩
        · rw [e, hrun]
        · rw [e, woken_state]
      · exact hrun' w hw
    | timerList =>
      have hnil : zs = [] ∧ ys = [] := by
        cases zs with
        | nil =>
          cases ys with
          | nil => exact ⟨rfl, rfl⟩
          | cons y ys => cases he
        | cons w zs => cases he
      obtain ⟨rfl, rfl⟩ := hnil
      exact ⟨_, hlast he, hf, hr₁, hin₁, fun w hw => by rw [List.mem_singleton.1 hw]; exact hrun⟩
    | runList => cases zs <;> cases ys <;> cases he
    | runLink p => cases zs <;> cases ys <;> cases he

/-- Processes have been woken, and the timers have moved on. -/
structure Ticks (k k' : Sched S P T) : Prop where
  proc : ∀ t, (k'.timer t).proc = (k.timer t).proc
  pcb : SamePcb k k'
  table : Procs.SameTable k.procs k'.procs
  live : k'.live = k.live
  waiters : k'.waiters = k.waiters
  pc : k'.pc = k.pc
  inited : k'.inited = k.inited
  current : k'.current = k.current
  wakes : Wakes k k'
  queued : ∃ q, Queued k' k'.current q

/-- **`run_timer_list`**, before the scheduler's tick. -/
theorem Timed.runTimers (h : Timed k ts) (hrd : ∀ t ∈ ts, k.Ready (k.timer t).proc)
    (hq : Queued k k.current q) : ∃ k' fired ts', k.runTimers = .ok (k', fired) ∧ Ticks k k' ∧
      k'.events = k.events ∧ ts' ⊆ ts ∧
        (∀ t ∈ fired, t ∈ ts ∧ (k'.run (k.timer t).proc).state = .runnable) ∧
      Timed (k'.record (.tick fired)) ts' := by
  unfold Sched.runTimers
  rw [Ring.next_head h.ring]
  cases ts with
  | nil =>
    refine ⟨k, [], [], rfl,
      ⟨fun _ => rfl, SamePcb.refl k, Procs.SameTable.refl _, rfl, rfl, rfl, rfl, rfl,
      Wakes.refl k, q, hq⟩, rfl, fun _ h => h, fun _ h => absurd h (by simp), h.ring,
        fun u => ?_, h.first,
      h.bound, h.inited, h.unlinked, fun u => ?_, List.nodup_nil, h.onTime⟩
    · change due k.expires [] u = (pending k.events u).bind countdown
      rw [← h.times]
      rfl
    · rw [← h.times]
      simp [due]
  | cons t rest =>
    have h0 := h.first t rfl
    have h0' : (k.timer t).expires ≠ 0 := h0
    have hnd := Ring.nodup h.ring
    simp only [entry]
    rw [if_pos h0']
    obtain ⟨k₀, hk₀⟩ : ∃ k₀, k₀ = k.setExpires t ((k.timer t).expires - 1) := ⟨_, rfl⟩
    rw [← hk₀]
    have hs₀ : SameButTimes k k₀ := hk₀ ▸ sameButTimes_setExpires _
    have he₀ : ∀ u, k₀.expires u = if u = t then k.expires t - 1 else k.expires u := fun u => by
      rw [hk₀, expires_setExpires]
      rfl
    have hrest : ∀ y ∈ rest, k₀.expires y = k.expires y := fun y hy => by
      have hyt : y ≠ t := fun e => (List.nodup_cons.1 hnd).1 (e ▸ hy)
      rw [he₀, if_neg hyt]
    have ht₀ : k₀.expires t + 1 = k.expires t := by
      rw [he₀, if_pos rfl]
      omega
    -- the timers that are due, and the others
    obtain ⟨zs, hzs⟩ : ∃ zs, zs = (t :: rest).takeWhile fun u => k₀.expires u = 0 := ⟨_, rfl⟩
    obtain ⟨ys, hys⟩ : ∃ ys, ys = (t :: rest).dropWhile fun u => k₀.expires u = 0 := ⟨_, rfl⟩
    have hsplit : t :: rest = zs ++ ys := by rw [hzs, hys, List.takeWhile_append_dropWhile]
    have hz : ∀ z ∈ zs, k₀.expires z = 0 := fun z hm => by
      have := List.mem_takeWhile_imp (hzs ▸ hm)
      simpa using this
    have hy : ∀ y, ys.head? = some y → k₀.expires y ≠ 0 := fun y hh => by
      have := List.head?_dropWhile_not (fun u => decide (k₀.expires u = 0)) (t :: rest)
      rw [← hys, hh] at this
      simpa using this
    have hring : k₀.Ring (zs ++ ys) := by
      rw [Ring, ← hsplit, hs₀.eq]
      exact h.ring
    have hq₀ : Queued k₀ k₀.current q := by
      have : Queued k₀ k.current q := hq.timers ⟨by rw [hs₀.eq], hs₀.proc,
        fun x _ _ => by rw [hs₀.eq], fun x _ _ => by rw [hs₀.eq]⟩
      rwa [show k₀.current = k.current by rw [hs₀.eq]]
    have hsub : ∀ u ∈ zs, u ∈ t :: rest := fun u hu => by
      rw [hsplit]
      exact List.mem_append_left _ hu
    obtain ⟨k', hk', hf, hr', hu', hrun⟩ := timerLoop_spec hy (k := k₀) (n := fuel T) hring
      (by rw [← hsplit]; rfl) rfl hz (fun z hm => by
        have := hrd z (hsub z hm)
        rw [hs₀.proc, hs₀.eq]
        exact this) hq₀ (fun u hi hm => by
        rw [← hsplit] at hm
        rw [hs₀.eq] at hi ⊢
        exact h.unlinked u hi hm) (by
          have h1 := Ring.length_le hring
          rw [List.length_append] at h1
          exact Nat.lt_succ_of_le (by omega))
    have hfire := fun u => due_fire (t := u) ht₀ hrest hnd hsplit hz hy
    have hex : k'.expires = k₀.expires := by
      unfold expires
      rw [hf.timer]
    have hev : k'.events = k.events := by rw [hf.events, hs₀.eq]
    have hin : k'.inited = k.inited := by rw [hf.inited, hs₀.eq]
    refine ⟨k', zs, ys, hk', ⟨fun u => by rw [hf.timer, hs₀.proc], ?_, ?_, ?_, ?_, ?_, hin, ?_, ?_,
      hf.queued⟩, hev, ?_, fun u hu => ⟨hsub u hu, ?_⟩, hr', fun u => ?_, fun u hh => ?_, ?_, ?_,
      fun u hi hm => hu' u hi hm, fun u => ?_, ?_, ?_⟩
    · have := hf.pcb
      rwa [hs₀.eq] at this
    · have := hf.table
      rwa [hs₀.eq] at this
    · rw [hf.live, hs₀.eq]
    · rw [hf.waiters, hs₀.eq]
    · rw [hf.pc, hs₀.eq]
    · rw [hf.current, hs₀.eq]
    · have := hf.wakes
      rwa [hs₀.eq] at this
    · rw [hsplit]
      exact List.subset_append_right _ _
    · rw [← hs₀.proc]
      exact hrun u hu
    · change due k'.expires ys u = (pending k'.events u).bind countdown
      rw [hex, hev, (hfire u).2, ← h.times]
    · change k'.expires u ≠ 0
      rw [hex]
      exact hy u hh
    · have hb := h.bound
      rw [span_cons] at hb
      have hb' : span k₀.expires (t :: rest) < 2 ^ 32 := by
        rw [span_cons, span_congr hrest]
        omega
      rw [hsplit, span_append] at hb'
      change span k'.expires ys < _
      rw [hex]
      omega
    · intro u hu
      change k'.inited u = true
      rw [hin]
      exact h.inited u (by rw [hsplit]; exact List.mem_append_right _ hu)
    · rw [hev, ← h.times]
      exact (hfire u).1
    · rw [hsplit] at hnd
      exact (List.nodup_append.1 hnd).1
    · rw [hev]
      exact h.onTime

theorem Queued.procTick (h : Queued k c q) : Queued (k.schedClassProcTick p) c q := by
  unfold schedClassProcTick rrProcTick
  split
  · exact (h.setTask (fun g => { g with
      timeSlice := if g.timeSlice > 0 then g.timeSlice - 1 else g.timeSlice }) fun _ => rfl).setTask
        (fun g => { g with needResched := if g.timeSlice = 0 then true else g.needResched })
          fun _ => rfl
  · exact h.setTask (fun g => { g with needResched := true }) fun _ => rfl

theorem same_procTick : Same k (k.schedClassProcTick p) ∧
    (k.schedClassProcTick p).current = k.current ∧ (k.schedClassProcTick p).procs = k.procs := by
  unfold schedClassProcTick rrProcTick
  split
  · exact ⟨(same_setTask _).trans (same_setTask _), rfl, rfl⟩
  · exact ⟨same_setTask _, rfl, rfl⟩

/-- **`run_timer_list`.** -/
theorem Timed.tick (h : Timed k ts) (hrd : ∀ t ∈ ts, k.Ready (k.timer t).proc)
    (hq : Queued k k.current q) : ∃ k' fired ts', k.runTimerList = .ok k' ∧ Ticks k k' ∧
      k'.events = .tick fired :: k.events ∧ ts' ⊆ ts ∧
      (∀ t ∈ fired, t ∈ ts ∧ (k'.run (k.timer t).proc).state = .runnable) ∧ Timed k' ts' := by
  obtain ⟨k₁, fired, ts', hk₁, ht, hev₁, hsub, hfired, h₁⟩ := h.runTimers hrd hq
  obtain ⟨q₁, hq₁⟩ := ht.queued
  obtain ⟨hs, hc, hp⟩ := same_procTick (k := k₁.record (.tick fired)) (p := k₁.current)
  have hrun : ∀ p, ((k₁.record (.tick fired)).schedClassProcTick k₁.current).run p = k₁.run p :=
    fun p => by rw [run, hp]; rfl
  have hok : k.runTimerList = .ok ((k₁.record (.tick fired)).schedClassProcTick k₁.current) := by
    unfold Sched.runTimerList
    rw [hk₁]
    rfl
  have hev : (k₁.record (.tick fired)).events = .tick fired :: k.events := by
    rw [← hev₁]
    rfl
  have hq₂ : Queued (k₁.record (.tick fired)) k₁.current q₁ :=
    hq₁.congr (fun _ _ => ⟨rfl, rfl⟩) (fun _ => Iff.rfl) (fun _ _ => rfl) (fun _ h => h) rfl rfl rfl
      le_rfl
  refine ⟨_, fired, ts', hok, ⟨fun u => by rw [hs.timer]; exact ht.proc u, fun p => by
      rw [hrun, hp]; exact ht.pcb p, ht.table.trans hs.table,
    hs.live.trans ht.live, hs.waiters.trans ht.waiters, hs.pc.trans ht.pc,
      hs.inited.trans ht.inited,
    hc.trans ht.current, fun p => by rw [hrun]; exact ht.wakes p, q₁, ?_⟩,
      hs.events.trans hev, hsub,
    fun u hu => ⟨(hfired u hu).1, by rw [hrun]; exact (hfired u hu).2⟩, h₁.same hs⟩
  rw [hc]
  exact hq₂.procTick

end Sched

end Ucore
