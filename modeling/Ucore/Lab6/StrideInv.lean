/-
  The run pool of the stride scheduler.

  * `Half`, `Mid`: the pool holds the processes that can run, except the current one, or all of
    them when `stride_pick_next` is called;
  * `Half.putBack`, `Mid.switch`: the two halves of `schedule`;
  * `Inv.step`: every step succeeds, and keeps the invariant.
-/
import Ucore.Lab6.Stride

namespace Ucore.Stride

variable {P : Type} [DecidableEq P]

namespace Sys

variable {k k' : Sys P} {p q : P}

abbrev runnable (k : Sys P) (p : P) : Prop := (k.proc p).state = .runnable

/-- What holds in each part of a step; `S` is the set of the processes in the pool. -/
structure Pool (k : Sys P) (S : P → Prop) : Prop where
  nodup : k.runPool.elems.Nodup
  mem : ∀ p, p ∈ k.runPool.elems ↔ S p
  onRq : ∀ p ∈ k.runPool.elems, (k.proc p).onRq = true
  num : k.procNum = Multiset.card k.runPool.elems
  idle : k.runnable k.idleproc
  stride : ∀ p, p ≠ k.idleproc → (k.proc p).state ≠ .uninit →
    (k.proc p).lab6Stride = BitVec.ofNat 32 (k.total p)

/-- Between two steps, apart from the state of the current process. -/
def Half (k : Sys P) : Prop :=
  k.Pool fun p => k.runnable p ∧ p ≠ k.idleproc ∧ p ≠ k.current

/-- Before `stride_pick_next`. -/
def Mid (k : Sys P) : Prop := k.Pool fun p => k.runnable p ∧ p ≠ k.idleproc

structure Inv (k : Sys P) : Prop where
  half : k.Half
  current : k.runnable k.current

/-! ## The parts of a step -/

theorem proc_setProc {f : Proc → Proc} :
    (k.setProc p f).proc q = if q = p then f (k.proc p) else k.proc q := by
  rw [setProc]
  exact Function.update_apply ..

/-- A process changes other fields, or it is not in the pool. -/
theorem Pool.setProc {S S' : P → Prop} {f : Proc → Proc} (h : k.Pool S) (hS : ∀ q, S' q ↔ S q)
    (hq : (f (k.proc p)).onRq = (k.proc p).onRq ∨ ¬S p)
    (hi : p = k.idleproc → (f (k.proc p)).state = .runnable)
    (hs : p ≠ k.idleproc → (f (k.proc p)).state ≠ .uninit →
      (f (k.proc p)).lab6Stride = BitVec.ofNat 32 (k.total p)) :
    (k.setProc p f).Pool S' := by
  refine ⟨h.nodup, fun q => (h.mem q).trans (hS q).symm, fun q hq' => ?_, h.num, ?_,
    fun q hne hu => ?_⟩
  · rw [proc_setProc]
    split
    · rename_i e
      subst e
      obtain e | e := hq
      · exact e.trans (h.onRq q hq')
      · exact absurd ((h.mem q).1 hq') e
    · exact h.onRq q hq'
  · change ((k.setProc p f).proc k.idleproc).state = _
    rw [proc_setProc]
    split
    · rename_i e
      exact hi e.symm
    · exact h.idle
  · rw [proc_setProc] at hu ⊢
    split
    · rename_i e
      subst e
      rw [if_pos rfl] at hu
      exact hs hne hu
    · rename_i e
      rw [if_neg e] at hu
      exact h.stride q hne hu

theorem proc_enqueue : (k.enqueue p).proc q = if q = p then { k.proc p with
      timeSlice := if (k.proc p).timeSlice = 0 ∨ (k.proc p).timeSlice > k.maxTimeSlice
        then k.maxTimeSlice else (k.proc p).timeSlice
      onRq := true } else k.proc q := by
  simp [enqueue, setProc, Function.update_apply]

theorem runnable_enqueue : (k.enqueue p).runnable q ↔ k.runnable q := by
  rw [runnable, proc_enqueue]
  split
  · rename_i e
    rw [e]
  · rfl

theorem elems_enqueue : (k.enqueue p).runPool.elems = p ::ₘ k.runPool.elems :=
  SkewHeap.elems_insert _

theorem Pool.enqueue {S S' : P → Prop} (h : k.Pool S) (hp : ¬S p)
    (hS : ∀ q, S' q ↔ q = p ∨ S q) : (k.enqueue p).Pool S' := by
  have hnot : p ∉ k.runPool.elems := fun e => hp ((h.mem p).1 e)
  refine ⟨?_, fun q => ?_, fun q hq => ?_, ?_, runnable_enqueue.2 h.idle, fun q hne hu => ?_⟩
  · rw [elems_enqueue]
    exact Multiset.nodup_cons.2 ⟨hnot, h.nodup⟩
  · rw [elems_enqueue, Multiset.mem_cons, h.mem, hS]
  · rw [elems_enqueue, Multiset.mem_cons] at hq
    rw [proc_enqueue]
    split
    · rfl
    · rename_i e
      exact h.onRq q (hq.resolve_left e)
  · rw [elems_enqueue, Multiset.card_cons]
    change k.procNum + 1 = _
    rw [h.num]
    push_cast
    rfl
  · rw [proc_enqueue] at hu ⊢
    split
    · rename_i e
      subst e
      rw [if_pos rfl] at hu
      exact h.stride q hne hu
    · rename_i e
      rw [if_neg e] at hu
      exact h.stride q hne hu

/-- The current process does not need to be rescheduled. -/
def quiet (k : Sys P) : Sys P := k.setProc k.current fun pr => { pr with needResched := false }

theorem runnable_quiet : k.quiet.runnable q ↔ k.runnable q := by
  rw [runnable, quiet, proc_setProc]
  split
  · rename_i e
    rw [e]
  · rfl

theorem putBack_idle (hi : k.current = k.idleproc) : k.putBack = k.quiet := by
  unfold putBack classEnqueue
  simp only
  split
  · exact if_neg (not_not.2 hi)
  · rfl

theorem putBack_stopped (hc : ¬k.runnable k.current) : k.putBack = k.quiet :=
  if_neg fun e => hc (runnable_quiet.1 e)

theorem putBack_runnable (hc : k.runnable k.current) (hi : k.current ≠ k.idleproc) :
    k.putBack = k.quiet.enqueue k.current :=
  (if_pos (runnable_quiet.2 hc)).trans (if_pos hi)

theorem Half.putBack (h : k.Half) : k.putBack.Mid := by
  have h1 : k.quiet.Half := by
    refine Pool.setProc h (fun q => ?_) (.inl rfl) (fun e => e ▸ h.idle) (h.stride k.current)
    rw [runnable_quiet]
    rfl
  by_cases hc : k.runnable k.current ∧ k.current ≠ k.idleproc
  · rw [putBack_runnable hc.1 hc.2]
    refine Pool.enqueue h1 (fun e => e.2.2 rfl) fun q => ?_
    rw [runnable_enqueue, runnable_quiet]
    change k.runnable q ∧ q ≠ k.idleproc ↔ q = k.current ∨ k.runnable q ∧ q ≠ k.idleproc ∧
      q ≠ k.current
    by_cases e : q = k.current
    · rw [e]
      exact iff_of_true hc (.inl rfl)
    · simp [e]
  · have hput : k.putBack = k.quiet := by
      by_cases hi : k.current = k.idleproc
      · exact putBack_idle hi
      · exact putBack_stopped fun e => hc ⟨e, hi⟩
    rw [hput]
    refine ⟨h1.nodup, fun q => (h1.mem q).trans ?_, h1.onRq, h1.num, h1.idle, h1.stride⟩
    refine and_congr_right fun hq => ⟨fun e => e.1, fun e => ⟨e, fun e' => hc ?_⟩⟩
    change q = k.current at e'
    rw [e'] at hq e
    exact ⟨runnable_quiet.1 hq, e⟩

/-! ## Picking -/

theorem pickNext_none (h : k.runPool.root = none) : k.pickNext = (none, k) := by
  rw [pickNext, h]

/-- The process `p` has been picked. -/
def picked (k : Sys P) (p : P) : Sys P :=
  { k.setProc p fun pr => { pr with lab6Stride := pr.lab6Stride + k.increment p } with
    total := Function.update k.total p (k.total p + (k.increment p).toNat) }

theorem pickNext_some (h : k.runPool.root = some p) : k.pickNext = (some p, k.picked p) := by
  rw [pickNext, h]
  rfl

/-- The process `p` has been picked, and runs. -/
def run (k : Sys P) (p : P) : Sys P :=
  { k.picked p with
    runPool := k.runPool.remove (k.picked p).comp p
    procNum := k.procNum - 1
    current := p }

theorem proc_run : (k.run p).proc q = if q = p then { k.proc p with
    lab6Stride := (k.proc p).lab6Stride + k.increment p } else k.proc q := by
  simp [run, picked, setProc, Function.update_apply]

theorem runnable_run : (k.run p).runnable q ↔ k.runnable q := by
  rw [runnable, proc_run]
  split
  · rename_i e
    rw [e]
  · rfl

theorem Mid.switch_eq (h : k.Mid) : k.switch = some (match k.runPool.root with
    | none => { k with current := k.idleproc }
    | some p => k.run p) := by
  unfold switch
  cases hr : k.runPool.root with
  | none => rw [pickNext_none hr]
  | some p =>
    rw [pickNext_some hr]
    have hmem := SkewHeap.root_mem hr
    have hrq : ((k.picked p).proc p).onRq = true := by
      simpa [picked, setProc] using h.onRq p hmem
    have hpos : k.procNum > 0 := by
      rw [h.num]
      exact_mod_cast Multiset.card_pos_iff_exists_mem.2 ⟨p, hmem⟩
    simp only [dequeue]
    rw [if_pos ⟨hrq, hpos⟩]
    rfl

theorem Mid.run (h : k.Mid) (hr : k.runPool.root = some p) : (k.run p).Inv := by
  have hmem := SkewHeap.root_mem hr
  have hp := (h.mem p).1 hmem
  have helems : p ::ₘ (k.run p).runPool.elems = k.runPool.elems := SkewHeap.elems_remove_root hr
  have hsub : ∀ {q}, q ∈ (k.run p).runPool.elems → q ∈ k.runPool.elems := fun hq => by
    rw [← helems]
    exact Multiset.mem_cons_of_mem hq
  have hnodup := h.nodup
  rw [← helems, Multiset.nodup_cons] at hnodup
  refine ⟨⟨hnodup.2, fun q => ?_, fun q hq => ?_, ?_, runnable_run.2 h.idle, fun q hne hu => ?_⟩,
    runnable_run.2 hp.1⟩
  · rw [runnable_run]
    change q ∈ (k.run p).runPool.elems ↔ k.runnable q ∧ q ≠ k.idleproc ∧ q ≠ p
    rw [← and_assoc, ← h.mem q, ← helems, Multiset.mem_cons]
    constructor
    · intro hq
      exact ⟨.inr hq, fun e => hnodup.1 (e ▸ hq)⟩
    · rintro ⟨e | hq, hne⟩
      · exact absurd e hne
      · exact hq
  · rw [proc_run]
    split
    · exact h.onRq p hmem
    · exact h.onRq q (hsub hq)
  · change k.procNum - 1 = (Multiset.card (k.run p).runPool.elems : ℤ)
    rw [h.num, ← helems, Multiset.card_cons]
    push_cast
    exact add_sub_cancel_right _ _
  · rw [proc_run] at hu ⊢
    change _ = BitVec.ofNat 32 (Function.update k.total p _ q)
    rw [Function.update_apply]
    split
    · rename_i e
      subst e
      rw [if_pos rfl] at hu
      change (k.proc q).lab6Stride + k.increment q = _
      rw [h.stride q hne hu, BitVec.ofNat_add, BitVec.ofNat_toNat, BitVec.setWidth_eq]
    · rename_i e
      rw [if_neg e] at hu
      exact h.stride q hne hu

omit [DecidableEq P] in
theorem Mid.idle (h : k.Mid) : ({ k with current := k.idleproc } : Sys P).Inv := by
  have hi : k.runnable k.idleproc := Pool.idle h
  refine ⟨⟨h.nodup, fun q => (h.mem q).trans ?_, h.onRq, h.num, hi, h.stride⟩, hi⟩
  exact and_congr_right fun _ => ⟨fun e => ⟨e, e⟩, fun e => e.1⟩

theorem Mid.switch (h : k.Mid) : ∃ k', k.switch = some k' ∧ k'.Inv := by
  refine ⟨_, h.switch_eq, ?_⟩
  cases hr : k.runPool.root with
  | none => exact h.idle
  | some p => exact h.run hr

/-! ## Steps -/

/-- The process `p` is awake. -/
def woken (k : Sys P) (p : P) : Sys P := k.setProc p fun pr => { pr with state := .runnable }

theorem runnable_woken : (k.woken p).runnable q ↔ q = p ∨ k.runnable q := by
  rw [runnable, woken, proc_setProc]
  by_cases e : q = p
  · simp [e]
  · rw [if_neg e]
    simp [e]

theorem wakeupProc_run (hz : (k.proc p).state ≠ .zombie) (hr : ¬k.runnable p)
    (hpc : p ≠ k.current) (hpi : p ≠ k.idleproc) :
    k.wakeupProc p = some ((k.woken p).enqueue p) := by
  unfold wakeupProc
  rw [if_neg hz, if_pos hr]
  exact congrArg some ((if_pos hpc).trans (if_pos hpi))

theorem wakeupProc_awake (hr : k.runnable p) : k.wakeupProc p = some k := by
  have hz : (k.proc p).state ≠ .zombie := fun e => by
    rw [runnable, e] at hr
    cases hr
  unfold wakeupProc
  rw [if_neg hz, if_neg (not_not.2 hr)]

theorem Inv.wakeupProc (h : k.Half) (hc : k.runnable k.current) (hz : (k.proc p).state ≠ .zombie)
    (hs : p ≠ k.idleproc → (k.proc p).lab6Stride = BitVec.ofNat 32 (k.total p)) :
    ∃ k', k.wakeupProc p = some k' ∧ k'.Inv := by
  by_cases hr : k.runnable p
  · exact ⟨k, wakeupProc_awake hr, h, hc⟩
  · have hpc : p ≠ k.current := fun e => hr (e ▸ hc)
    have hpi : p ≠ k.idleproc := fun e => hr (e ▸ Pool.idle h)
    have h1 : (k.woken p).Pool fun q => k.runnable q ∧ q ≠ k.idleproc ∧ q ≠ k.current :=
      Pool.setProc h (fun _ => .rfl) (.inl rfl) (fun _ => rfl) fun hne _ => hs hne
    refine ⟨_, wakeupProc_run hz hr hpc hpi, h1.enqueue (fun e => hr e.1) fun q => ?_, ?_⟩
    · rw [runnable_enqueue, runnable_woken]
      change _ ∧ q ≠ k.idleproc ∧ q ≠ k.current ↔ _
      by_cases e : q = p
      · rw [e]
        exact iff_of_true ⟨.inl rfl, hpi, hpc⟩ (.inl rfl)
      · simp [e]
    · exact runnable_enqueue.2 (runnable_woken.2 (.inr hc))

/-- The process `p` is new. -/
def allocated (k : Sys P) (p : P) (priority : BitVec 32) : Sys P :=
  { k with
    proc := Function.update k.proc p { allocProc with lab6Priority := priority }
    total := Function.update k.total p 0
    asked := Function.update k.asked p none }

theorem proc_allocated {priority : BitVec 32} : (k.allocated p priority).proc q =
    if q = p then { allocProc with lab6Priority := priority } else k.proc q :=
  Function.update_apply ..

theorem total_allocated {priority : BitVec 32} : (k.allocated p priority).total q =
    if q = p then 0 else k.total q := Function.update_apply ..

omit [DecidableEq P] in
theorem Inv.ne_new (h : k.Inv) (hp : (k.proc p).state = .uninit) :
    ¬k.runnable p ∧ k.current ≠ p ∧ k.idleproc ≠ p := by
  have hnr : ¬k.runnable p := fun e => by
    rw [runnable, hp] at e
    cases e
  exact ⟨hnr, fun e => hnr (e ▸ h.current), fun e => hnr (e ▸ Pool.idle h.half)⟩

theorem Inv.allocated {priority : BitVec 32} (h : k.Inv) (hp : (k.proc p).state = .uninit) :
    (k.allocated p priority).Half := by
  obtain ⟨hnr, hpc, hpi⟩ := h.ne_new hp
  refine ⟨h.half.nodup, fun q => (h.half.mem q).trans ?_, fun q hq => ?_, h.half.num, ?_,
    fun q hne hu => ?_⟩
  · change _ ↔ (k.allocated p priority).runnable q ∧ q ≠ k.idleproc ∧ q ≠ k.current
    rw [runnable, runnable, proc_allocated]
    split
    · rename_i e
      rw [e]
      exact iff_of_false (fun e => hnr e.1) fun e => by cases e.1
    · rfl
  · have hne : q ≠ p := fun e => hnr (e ▸ ((h.half.mem q).1 hq).1)
    rw [proc_allocated, if_neg hne]
    exact h.half.onRq q hq
  · change (k.allocated p priority).runnable k.idleproc
    rw [runnable, proc_allocated, if_neg hpi]
    exact Pool.idle h.half
  · rw [proc_allocated] at hu ⊢
    rw [total_allocated]
    split
    · rfl
    · rename_i e
      rw [if_neg e] at hu
      exact h.half.stride q hne hu

theorem Inv.doFork {priority : BitVec 32} (h : k.Inv) (hp : (k.proc p).state = .uninit) :
    ∃ k', k.doFork p priority = some k' ∧ k'.Inv := by
  have hself : (k.allocated p priority).proc p = { allocProc with lab6Priority := priority } := by
    rw [proc_allocated, if_pos rfl]
  refine Inv.wakeupProc (k := k.allocated p priority) (h.allocated hp) ?_ ?_ fun _ => ?_
  · change (k.allocated p priority).runnable k.current
    rw [runnable, proc_allocated, if_neg (h.ne_new hp).2.1]
    exact h.current
  · rw [hself]
    nofun
  · rw [hself, total_allocated, if_pos rfl]
    rfl

theorem Inv.stop {state : ProcState} (h : k.Inv) (hi : k.current ≠ k.idleproc) :
    (k.stop state).Half := by
  refine Pool.setProc h.half (fun q => ?_) (.inl rfl) (fun e => absurd e hi) fun hne _ => ?_
  · change (k.stop state).runnable q ∧ q ≠ k.idleproc ∧ q ≠ k.current ↔
      k.runnable q ∧ q ≠ k.idleproc ∧ q ≠ k.current
    refine and_congr_left fun hq => ?_
    rw [runnable, Sys.stop, proc_setProc, if_neg hq.2]
  · refine h.half.stride k.current hne fun e => ?_
    have := h.current
    rw [runnable, e] at this
    cases this

theorem Inv.setCurrent {f : Proc → Proc} (h : k.Inv) (hs : ∀ pr, (f pr).state = pr.state)
    (hr : ∀ pr, (f pr).onRq = pr.onRq) (ht : ∀ pr, (f pr).lab6Stride = pr.lab6Stride) :
    (k.setProc k.current f).Inv := by
  have hrun : ∀ q, (k.setProc k.current f).runnable q ↔ k.runnable q := fun q => by
    rw [runnable, proc_setProc]
    split
    · rename_i e
      rw [e, hs]
    · rfl
  refine ⟨Pool.setProc h.half (fun q => ?_) (.inl (hr _)) (fun _ => (hs _).trans h.current)
    fun hne hu => ?_, (hrun _).2 h.current⟩
  · rw [hrun]
    rfl
  · rw [ht]
    exact h.half.stride k.current hne (hs _ ▸ hu)

/-- **Every step** succeeds, and keeps the invariant. -/
theorem Inv.step {op : Op P} (h : k.Inv) (hl : k.Legal op) :
    ∃ k', k.step op = some k' ∧ k'.Inv := by
  cases op with
  | fork p priority => exact h.doFork hl
  | wakeup p =>
    have hz : (k.proc p).state ≠ .zombie ∧ (k.proc p).state ≠ .uninit := by
      obtain e | e := hl
      · rw [e]
        exact ⟨nofun, nofun⟩
      · rw [e]
        exact ⟨nofun, nofun⟩
    exact Inv.wakeupProc h.half h.current hz.1 fun hne => h.half.stride p hne hz.2
  | schedule => exact h.half.putBack.switch
  | sleep => exact (h.stop hl).putBack.switch
  | exit => exact (h.stop hl).putBack.switch
  | setPriority priority =>
    have h1 : (k.setProc k.current fun pr => { pr with
        lab6Priority := if priority = 0 then 1 else priority }).Inv :=
      h.setCurrent (fun _ => rfl) (fun _ => rfl) fun _ => rfl
    exact ⟨_, rfl, ⟨h1.half.nodup, h1.half.mem, h1.half.onRq, h1.half.num, h1.half.idle,
      h1.half.stride⟩, h1.current⟩
  | tick =>
    refine ⟨_, rfl, ?_⟩
    unfold Sys.tick procTick
    split
    · exact h.setCurrent (fun _ => rfl) (fun _ => rfl) fun _ => rfl
    · exact h.setCurrent (fun _ => rfl) (fun _ => rfl) fun _ => rfl
  | reap p =>
    have hnr : ¬k.runnable p := fun e => by
      have hz : (k.proc p).state = .zombie := hl
      rw [runnable, hz] at e
      cases e
    have hrun : ∀ q, (k.setProc p fun pr => { pr with state := .uninit }).runnable q ↔
        k.runnable q := fun q => by
      rw [runnable, proc_setProc]
      split
      · rename_i e
        rw [e]
        exact iff_of_false nofun hnr
      · rfl
    refine ⟨_, rfl, Pool.setProc h.half (fun q => ?_) (.inl rfl) (fun e => ?_) fun _ hu => ?_,
      (hrun _).2 h.current⟩
    · rw [hrun]
      rfl
    · exact absurd (e ▸ Pool.idle h.half) hnr
    · exact absurd rfl hu

omit [DecidableEq P] in
theorem Init.inv (h : k.Init) : k.Inv := by
  have hcur : k.runnable k.current := by
    rw [runnable, h.current]
    exact h.idle
  have hnone : k.runPool.elems = 0 := by
    rw [h.runPool]
    rfl
  refine ⟨⟨?_, fun p => ?_, fun p hp => ?_, ?_, h.idle, fun p hne hu => ?_⟩, hcur⟩
  · rw [hnone]
    exact Multiset.nodup_zero
  · rw [hnone]
    refine iff_of_false (Multiset.notMem_zero p) fun e => ?_
    have := h.others p e.2.1
    rw [e.1] at this
    cases this
  · rw [hnone] at hp
    exact absurd hp (Multiset.notMem_zero p)
  · rw [hnone, h.procNum]
    rfl
  · exact absurd (h.others p hne) hu

end Sys

end Ucore.Stride
