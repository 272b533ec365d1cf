/-
  How far `stride_pick_next` advances the process that it selects.

  * `Prio`: what is known of the priority of each process;
  * `schedule_again`: a process that is selected again has come closer to the next one;
  * `stride_advances`: the division is well defined exactly if the process has asked for a priority
    that is not above `BIG_STRIDE`.
-/
import Ucore.Lab6.StrideInv

namespace Ucore.Stride

variable {P : Type} [DecidableEq P]

namespace Sys

variable {k k' k₁ : Sys P} {p q r : P}

/-- The priority that a process has: none before it asks for one. -/
def priorityOf : Option (BitVec 32) → BitVec 32
  | none => allocProc.lab6Priority
  | some a => if a = 0 then 1 else a

/-- The division of `stride_pick_next` is defined, and the process advances. -/
structure Advances (k : Sys P) (p : P) : Prop where
  divisor : (k.proc p).lab6Priority ≠ 0
  pos : 1 ≤ (k.increment p).toNat
  le : (k.increment p).toNat ≤ bigStride.toNat

/-- The priorities are as `R` says, which knows what the processes have asked for. -/
def Prio (R : Option (BitVec 32) → BitVec 32 → Prop) (k : Sys P) : Prop :=
  ∀ p, p ≠ k.idleproc → (k.proc p).state ≠ .uninit → R (k.asked p) (k.proc p).lab6Priority

variable {R : Option (BitVec 32) → BitVec 32 → Prop}

theorem Prio.setProc {f : Proc → Proc} (h : k.Prio R)
    (hp : p ≠ k.idleproc → (f (k.proc p)).state ≠ .uninit →
      R (k.asked p) (f (k.proc p)).lab6Priority) : (k.setProc p f).Prio R := by
  intro q hne hu
  rw [proc_setProc] at hu ⊢
  split
  · rename_i e
    subst e
    rw [if_pos rfl] at hu
    exact hp hne hu
  · rename_i e
    rw [if_neg e] at hu
    exact h q hne hu

theorem Prio.enqueue (h : k.Prio R) : (k.enqueue p).Prio R := by
  intro q hne hu
  rw [proc_enqueue] at hu ⊢
  split
  · rename_i e
    subst e
    rw [if_pos rfl] at hu
    exact h q hne hu
  · rename_i e
    rw [if_neg e] at hu
    exact h q hne hu

theorem Prio.putBack (h : k.Prio R) : k.putBack.Prio R := by
  have h1 : k.quiet.Prio R := h.setProc (h k.current)
  by_cases hc : k.runnable k.current
  · by_cases hi : k.current = k.idleproc
    · rw [putBack_idle hi]
      exact h1
    · rw [putBack_runnable hc hi]
      exact h1.enqueue
  · rw [putBack_stopped hc]
    exact h1

theorem Prio.switch (h : k.Prio R) (hm : k.Mid) (hs : k.switch = some k') : k'.Prio R := by
  rw [hm.switch_eq] at hs
  cases hs
  cases k.runPool.root with
  | none => exact h
  | some p =>
    have h1 : (k.setProc p fun pr => { pr with
        lab6Stride := pr.lab6Stride + k.increment p }).Prio R := h.setProc (h p)
    exact h1

theorem Prio.wakeupProc (h : k.Prio R)
    (hp : p ≠ k.idleproc → R (k.asked p) (k.proc p).lab6Priority)
    (hs : k.wakeupProc p = some k') : k'.Prio R := by
  unfold Sys.wakeupProc at hs
  split at hs
  · cases hs
  · split at hs
    · cases hs
      have h1 : (k.woken p).Prio R := h.setProc fun hne _ => hp hne
      split
      · unfold classEnqueue
        split
        · exact h1.enqueue
        · exact h1
      · exact h1
    · cases hs
      exact h

theorem Prio.stop {state : ProcState} (h : k.Prio R) (hi : k.Inv) : (k.stop state).Prio R := by
  refine h.setProc fun hne _ => h k.current hne fun e => ?_
  have := hi.current
  rw [runnable, e] at this
  cases this

theorem proc_lab6SetPriority {x : BitVec 32} : (k.lab6SetPriority x).proc q =
    if q = k.current then { k.proc k.current with lab6Priority := if x = 0 then 1 else x }
    else k.proc q := by
  simp [lab6SetPriority, setProc, Function.update_apply]

/-- A new process has a priority as `R` says. -/
def Fresh (R : Option (BitVec 32) → BitVec 32 → Prop) : Op P → Prop
  | .fork _ priority => R none priority
  | _ => True

theorem Prio.step {op : Op P} (h : k.Prio R) (hi : k.Inv) (hl : k.Legal op) (hf : Fresh R op)
    (hR : ∀ x : BitVec 32, R (some x) (if x = 0 then 1 else x))
    (hs : k.step op = some k') : k'.Prio R := by
  cases op with
  | fork p priority =>
    refine Prio.wakeupProc (fun q hne hu => ?_) (fun _ => ?_) hs
    · change (Function.update k.proc p _ q).state ≠ .uninit at hu
      change R (Function.update k.asked p none q) (Function.update k.proc p _ q).lab6Priority
      by_cases e : q = p
      · rw [e, Function.update_self, Function.update_self]
        exact hf
      · rw [Function.update_of_ne e] at hu ⊢
        rw [Function.update_of_ne e]
        exact h q hne hu
    · change R (Function.update k.asked p none p) (Function.update k.proc p _ p).lab6Priority
      rw [Function.update_self, Function.update_self]
      exact hf
  | wakeup p =>
    refine Prio.wakeupProc h (fun hne => h p hne ?_) hs
    obtain e | e := hl
    · rw [e]
      nofun
    · rw [e]
      nofun
  | schedule => exact h.putBack.switch hi.half.putBack hs
  | sleep => exact (h.stop hi).putBack.switch (hi.stop hl).putBack hs
  | exit => exact (h.stop hi).putBack.switch (hi.stop hl).putBack hs
  | setPriority priority =>
    cases hs
    intro q hne hu
    rw [proc_lab6SetPriority] at hu ⊢
    change R (Function.update k.asked k.current (some priority) q) _
    by_cases e : q = k.current
    · rw [if_pos e, e, Function.update_self]
      exact hR priority
    · rw [if_neg e, Function.update_of_ne e]
      rw [if_neg e] at hu
      exact h q hne hu
  | tick =>
    cases hs
    unfold Sys.tick procTick
    split
    · exact h.setProc (h k.current)
    · exact h.setProc (h k.current)
  | reap p =>
    cases hs
    exact h.setProc fun _ hu => absurd rfl hu

/-! ## The increment -/

omit [DecidableEq P] in
theorem advances_iff (ha : (k.proc p).lab6Priority = priorityOf (k.asked p)) :
    k.Advances p ↔ ∃ a, k.asked p = some a ∧ a.toNat ≤ bigStride.toNat := by
  have hbig : bigStride.toNat = 2 ^ 30 := by decide
  have hinc : ∀ b : BitVec 32, b ≠ 0 → (divu bigStride b).toNat = 2 ^ 30 / b.toNat := fun b hb => by
    rw [divu, if_neg hb, BitVec.toNat_udiv, hbig]
  cases hk : k.asked p with
  | none =>
    rw [hk] at ha
    exact iff_of_false (fun h => h.divisor ha) fun ⟨a, h, _⟩ => by cases h
  | some a =>
    rw [hk] at ha
    have hne : (k.proc p).lab6Priority ≠ 0 := by
      rw [ha, priorityOf]
      split
      · decide
      · assumption
    have hpos : 0 < (k.proc p).lab6Priority.toNat := Nat.pos_of_ne_zero fun e =>
      hne (BitVec.eq_of_toNat_eq e)
    have hdiv := hinc _ hne
    have hprio : (k.proc p).lab6Priority.toNat = if a = 0 then 1 else a.toNat := by
      rw [ha, priorityOf]
      split
      · rfl
      · rfl
    have hiff : 1 ≤ (k.increment p).toNat ↔ a.toNat ≤ 2 ^ 30 := by
      rw [increment, hdiv, Nat.one_le_div_iff hpos, hprio]
      split
      · rename_i e
        simp [e]
      · rfl
    constructor
    · intro h
      exact ⟨a, rfl, hbig ▸ hiff.1 h.pos⟩
    · rintro ⟨b, hb, hle⟩
      cases hb
      refine ⟨hne, hiff.2 (hbig ▸ hle), ?_⟩
      rw [increment, hdiv, hbig]
      exact Nat.div_le_self _ _

/-! ## Selected again -/

/-- How far `p` is behind `q`, as `proc_stride_comp_f` sees it. -/
def ahead (k : Sys P) (p q : P) : ℤ := ((k.proc q).lab6Stride - (k.proc p).lab6Stride).toInt

omit [DecidableEq P] in
theorem comp_ne (h : k.comp q p ≠ -1) : 0 ≤ k.ahead p q := by
  by_contra hlt
  refine h ?_
  have h1 : ¬((k.proc q).lab6Stride - (k.proc p).lab6Stride).toInt > 0 := fun e => hlt e.le
  have h2 : ¬((k.proc q).lab6Stride - (k.proc p).lab6Stride).toInt = 0 := fun e => hlt e.ge
  unfold comp
  simp only
  rw [if_neg h1, if_neg h2]

theorem stride_quiet : (k.quiet.proc p).lab6Stride = (k.proc p).lab6Stride := by
  rw [quiet, proc_setProc]
  split
  · rename_i e
    rw [e]
  · rfl

theorem stride_enqueue : ((k.enqueue p).proc q).lab6Stride = (k.proc q).lab6Stride := by
  rw [proc_enqueue]
  split
  · rename_i e
    rw [e]
  · rfl

/-- A process that is selected again, with `r` next to it, has come closer to `r`. -/
theorem schedule_again (h : k.Inv) (hc : k.current = p) (hp : p ≠ k.idleproc)
    (hr : k.runPool.root = some r) (hs : k.schedule = some k') (hc' : k'.current = p)
    (ha : k.putBack.Advances p) :
    k'.runPool = k.runPool ∧ 0 ≤ k.ahead p r ∧ k'.ahead p r ≤ k.ahead p r - 1 := by
  have hput := putBack_runnable h.current (hc ▸ hp)
  rw [hc] at hput
  have hrp : r ≠ p := hc ▸ ((h.half.mem r).1 (SkewHeap.root_mem hr)).2.2
  obtain ⟨a, b, hpool⟩ : ∃ a b, k.runPool = .node a r b := by
    cases hk : k.runPool with
    | nil =>
      rw [hk] at hr
      cases hr
    | node a x b =>
      rw [hk] at hr
      cases hr
      exact ⟨a, b, rfl⟩
  have hins : k.putBack.runPool = if k.quiet.comp r p = -1
      then .node (SkewHeap.merge k.quiet.comp b (.node .nil p .nil)) r a
      else .node k.runPool p .nil := by
    rw [hput]
    change SkewHeap.insert k.quiet.comp k.runPool p = _
    rw [hpool, SkewHeap.insert, SkewHeap.merge_node, SkewHeap.merge_nil]
  have hsw := h.half.putBack.switch_eq
  change k.putBack.switch = some k' at hs
  rw [hs, hins] at hsw
  by_cases hcomp : k.quiet.comp r p = -1
  · rw [if_pos hcomp] at hsw
    cases hsw
    exact absurd hc' hrp
  · rw [if_neg hcomp] at hsw hins
    cases hsw
    have hle : 0 ≤ k.ahead p r := by
      have := comp_ne hcomp
      rwa [ahead, stride_quiet, stride_quiet] at this
    have hinc := ha.le
    have hpos := ha.pos
    have hbig : bigStride.toNat = 2 ^ 30 := by decide
    refine ⟨?_, hle, ?_⟩
    · change SkewHeap.remove _ p k.putBack.runPool = _
      rw [hins, SkewHeap.remove, if_pos rfl, SkewHeap.merge_nil]
    · have hstr : ∀ q, (k.putBack.proc q).lab6Stride = (k.proc q).lab6Stride := fun q => by
        rw [hput, stride_enqueue, stride_quiet]
      have hlt : k.ahead p r < 2 ^ 31 := BitVec.toInt_lt
      have hsub : (k.putBack.run p).ahead p r =
          (k.ahead p r - (k.putBack.increment p).toInt).bmod (2 ^ 32) := by
        rw [ahead, proc_run, proc_run, if_pos rfl, if_neg hrp]
        simp only
        rw [hstr, hstr, ← BitVec.sub_sub, BitVec.toInt_sub]
        rfl
      have hint : (k.putBack.increment p).toInt = (k.putBack.increment p).toNat :=
        BitVec.toInt_eq_toNat_of_lt (by omega)
      change (k.putBack.run p).ahead p r ≤ _
      rw [hsub, hint, Int.bmod_eq_of_le (by omega) (by omega)]
      omega

/-- The process `p` keeps running: it makes these steps, in which it is selected again whenever
    `schedule` is called. -/
def Runs (p : P) : Sys P → List (Op P) → Prop
  | _, [] => True
  | k, op :: ops => (op = .schedule ∨ op = .tick ∨ ∃ priority, op = .setPriority priority) ∧
    (op = .schedule → k.putBack.Advances p) ∧
    ∃ k', k.step op = some k' ∧ k'.current = p ∧ k'.Runs p ops

def isSchedule : Op P → Bool
  | .schedule => true
  | _ => false

theorem current_idleproc (h : k.Mid) (hs : k.switch = some k') : k'.idleproc = k.idleproc := by
  rw [h.switch_eq] at hs
  cases hs
  cases k.runPool.root with
  | none => rfl
  | some p => rfl

theorem putBack_idleproc : k.putBack.idleproc = k.idleproc ∧ k.putBack.asked = k.asked := by
  unfold putBack classEnqueue
  simp only
  split
  · split
    · exact ⟨rfl, rfl⟩
    · exact ⟨rfl, rfl⟩
  · exact ⟨rfl, rfl⟩

/-- It is selected at most `2 ^ 31` times while another process waits. -/
theorem Runs.length_le : ∀ {ops : List (Op P)} {k : Sys P}, k.Inv → k.current = p →
    p ≠ k.idleproc → k.runPool.root = some r → k.Runs p ops →
    (ops.filter isSchedule).length ≤ (k.ahead p r + 1).toNat
  | [], _, _, _, _, _, _ => Nat.zero_le _
  | op :: ops, k, h, hc, hp, hr, hrun => by
    obtain ⟨hop, hadv, k', hs, hc', hrest⟩ := hrun
    have hl : k.Legal op := by
      obtain rfl | rfl | ⟨x, rfl⟩ := hop
      · trivial
      · trivial
      · exact fun e => hp (hc.symm.trans e)
    obtain ⟨k'', hs', h'⟩ := h.step hl
    rw [hs] at hs'
    cases hs'
    obtain rfl | hop := hop
    · obtain ⟨hpool, hle, hlt⟩ := schedule_again h hc hp hr hs hc' (hadv rfl)
      have hidle : k'.idleproc = k.idleproc :=
        (current_idleproc h.half.putBack hs).trans putBack_idleproc.1
      have ih := hrest.length_le h' hc' (hidle ▸ hp) (hpool ▸ hr)
      rw [List.filter_cons_of_pos rfl, List.length_cons]
      omega
    · have hsame : k'.runPool = k.runPool ∧ k'.idleproc = k.idleproc ∧
          ∀ q, (k'.proc q).lab6Stride = (k.proc q).lab6Stride := by
        obtain rfl | ⟨x, rfl⟩ := hop
        · cases hs
          refine ⟨?_, ?_, fun q => ?_⟩
          · unfold Sys.tick procTick
            split <;> rfl
          · unfold Sys.tick procTick
            split <;> rfl
          · unfold Sys.tick procTick
            split
            · rw [proc_setProc]
              split
              · rename_i e
                rw [e]
              · rfl
            · rw [proc_setProc]
              split
              · rename_i e
                rw [e]
              · rfl
        · cases hs
          refine ⟨rfl, rfl, fun q => ?_⟩
          rw [proc_lab6SetPriority]
          split
          · rename_i e
            rw [e]
          · rfl
      have hfilter : (op :: ops).filter isSchedule = ops.filter isSchedule := by
        obtain rfl | ⟨x, rfl⟩ := hop
        · rfl
        · rfl
      have hahead : k'.ahead p r = k.ahead p r := by
        rw [ahead, ahead, hsame.2.2, hsame.2.2]
      rw [hfilter, ← hahead]
      exact hrest.length_le h' hc' (hsame.2.1 ▸ hp) (hsame.1 ▸ hr)

/-! ## The main result -/

/-- The stride class with processes as `alloc_proc` makes them. -/
def machine (P : Type) [DecidableEq P] : Machine (Sys P) (Op P) where
  Init := Init
  Legal k op := k.Legal op ∧ Fresh (fun o b => b = priorityOf o) op
  step := step

theorem reach_asked (h : (machine P).Reach k) : k.Inv ∧ k.Prio fun o b => b = priorityOf o :=
  h.preserved (I := fun k => k.Inv ∧ k.Prio fun o b => b = priorityOf o)
    (fun _ h0 => ⟨h0.inv, fun p hne hu => absurd (h0.others p hne) hu⟩)
    fun _ _ _ ⟨hi, ha⟩ hl hs => by
      obtain ⟨k', hs', hi'⟩ := hi.step hl.1
      cases hs.symm.trans hs'
      exact ⟨hi', ha.step hi hl.1 hl.2 (fun _ => rfl) hs⟩

/-- The state before `stride_pick_next`. -/
theorem Inv.beforePick {op : Op P} (h : k.Inv) (ha : k.Prio R) (hl : k.Legal op)
    (hb : k.beforePick op = some k₁) : k₁.Mid ∧ k₁.Prio R ∧ k₁.asked = k.asked := by
  cases op with
  | schedule =>
    cases hb
    exact ⟨h.half.putBack, ha.putBack, putBack_idleproc.2⟩
  | sleep =>
    cases hb
    exact ⟨(h.stop hl).putBack, (ha.stop h).putBack, putBack_idleproc.2⟩
  | exit =>
    cases hb
    exact ⟨(h.stop hl).putBack, (ha.stop h).putBack, putBack_idleproc.2⟩
  | fork | wakeup | setPriority | tick | reap => cases hb

/-- **The stride of a selected process.**  In every state reached, whenever `stride_pick_next`
    selects a process, its division is well defined and advances the process by 1 to `BIG_STRIDE`
    exactly if the process has called `lab6_set_priority`, the last time with a priority that is not
    above `BIG_STRIDE`; and a process that advances so is selected at most `2 ^ 31` times in a row
    while another one waits. -/
theorem stride_advances (h : (machine P).Reach k) :
    (∀ op k₁ p k₂, k.Legal op → k.beforePick op = some k₁ → k₁.pickNext = (some p, k₂) →
      (k₁.Advances p ↔ ∃ a, k.asked p = some a ∧ a.toNat ≤ bigStride.toNat) ∧
      k₂.total p = k₁.total p + (k₁.increment p).toNat) ∧
    ∀ p r ops, k.current = p → p ≠ k.idleproc → k.runPool.root = some r → k.Runs p ops →
      (ops.filter isSchedule).length ≤ 2 ^ 31 := by
  obtain ⟨hi, ha⟩ := reach_asked h
  refine ⟨fun op k₁ p k₂ hl hb hp => ?_, fun p r ops hc hp hr hrun => ?_⟩
  · obtain ⟨hm, ha₁, hask⟩ := hi.beforePick ha hl hb
    have hroot : k₁.runPool.root = some p := by
      cases hr : k₁.runPool.root with
      | none =>
        rw [pickNext_none hr] at hp
        cases hp
      | some q =>
        rw [pickNext_some hr] at hp
        cases hp
        rfl
    rw [pickNext_some hroot] at hp
    cases hp
    have hmem := (hm.mem p).1 (SkewHeap.root_mem hroot)
    refine ⟨?_, Function.update_self ..⟩
    rw [← hask]
    refine advances_iff (ha₁ p hmem.2 fun e => ?_)
    have := hmem.1
    rw [runnable, e] at this
    cases this
  · have hlt : k.ahead p r < 2 ^ 31 := BitVec.toInt_lt
    have := hrun.length_le hi hc hp hr
    omega

/-! ## A run -/

/-- Only the process 0 is there. -/
def booted : Sys ℕ where
  proc p := { allocProc with state := if p = 0 then .runnable else .uninit }
  runPool := .nil
  procNum := 0
  maxTimeSlice := 5
  current := 0
  idleproc := 0
  total _ := 0
  asked _ := none

theorem init_booted : booted.Init where
  current := rfl
  idle := rfl
  others _ hp := if_neg hp
  runPool := rfl
  procNum := rfl

/-- The process 1 has been forked. -/
def forked : Sys ℕ := (booted.doFork 1 0).getD booted

theorem reach_forked : (machine ℕ).Reach forked :=
  .step (i := .fork 1 0) (.init init_booted) ⟨rfl, rfl⟩ rfl

/-- The new process has no priority when it is selected for the first time. -/
theorem stride_advances_forked : ¬forked.putBack.Advances 1 := by
  have h := (stride_advances reach_forked).1 .schedule forked.putBack 1 _ trivial rfl rfl
  intro hadv
  obtain ⟨a, ha, -⟩ := h.1.1 hadv
  cases ha

/-- The first selection divides by 0. -/
theorem first_selection_divides_by_zero : ¬∀ (k : Sys ℕ) (op : Op ℕ) (k₁ k₂ : Sys ℕ) (p : ℕ),
    (machine ℕ).Reach k → k.Legal op → k.beforePick op = some k₁ → k₁.pickNext = (some p, k₂) →
    k₁.Advances p := by
  intro h
  have hadv := h forked .schedule forked.putBack _ 1 reach_forked trivial rfl rfl
  exact hadv.divisor rfl

end Sys

end Ucore.Stride
