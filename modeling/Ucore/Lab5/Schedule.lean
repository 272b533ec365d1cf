/-
  `schedule` of lab 5 (`kern/schedule/sched.c`).

  Processes are elements of `P`.  `schedule` returns `none` if the rounds given to its loop are not
  enough.

  * `Scheduler.Listed`: `proc_list` holds the processes but `idleproc`;
  * `schedule_selects`: the process that runs next is the first runnable one on the way round
    `proc_list` from the current one, or `idleproc`;
  * `schedule_turns`: processes that stay runnable take turns.
-/
import Ucore.Lib.RoundRobin
import Ucore.Libs.List
import Ucore.Process.Proc

namespace Ucore

open Intrusive RoundRobin

set_option linter.unusedSectionVars false

/-- A node of `proc_list`: the list head, or the `list_link` of a process. -/
inductive ProcLe (P : Type) where
  | procList
  | listLink (p : P)
  deriving DecidableEq

structure Scheduler (P : Type) where
  links : Links (ProcLe P)
  state : P → ProcState
  runs : P → ℤ
  needResched : P → Bool
  current : P
  idleproc : P

namespace Scheduler

variable {P : Type} [DecidableEq P]

/-! ## The code -/

/-- The loop of `schedule`: `next`, after at most `n` rounds from `le` on. -/
def scan (s : Scheduler P) (last : ProcLe P) : ℕ → ProcLe P → Option P → Option (Option P)
  | 0, _, _ => none
  | n + 1, le, next =>
    match listNext s.links le with
    | .listLink p =>
      if s.state p = .runnable then some (some p)
      else if .listLink p = last then some (some p)
      else scan s last n (.listLink p) (some p)
    | .procList => if .procList = last then some next else scan s last n .procList next

/-- `last` -/
def last (s : Scheduler P) : ProcLe P :=
  if s.current = s.idleproc then .procList else .listLink s.current

/-- `next`, behind the loop. -/
def orIdle (s : Scheduler P) : Option P → P
  | none => s.idleproc
  | some next => if s.state next = .runnable then next else s.idleproc

/-- `schedule`, with at most `n` rounds; `proc_run` makes `next` the current process. -/
def schedule (s : Scheduler P) (n : ℕ) : Option (Scheduler P) :=
  (s.scan s.last n s.last none).map fun next =>
    { s with
      needResched := Function.update s.needResched s.current false
      runs := Function.update s.runs (s.orIdle next) (s.runs (s.orIdle next) + 1)
      current := s.orIdle next }

/-! ## The way round the list -/

/-- The processes of `proc_list` are `ps`; the current process is one of them, or `idleproc`. -/
structure Listed (s : Scheduler P) (ps : List P) : Prop where
  ring : Circ s.links .procList (ps.map .listLink)
  idle : s.idleproc ∉ ps
  current : s.current = s.idleproc ∨ s.current ∈ ps

/-- The current process, unless it is `idleproc`. -/
def start (s : Scheduler P) : Option P := if s.current = s.idleproc then none else some s.current

abbrev Runnable (s : Scheduler P) (p : P) : Bool := s.state p = .runnable

variable {s s' : Scheduler P} {ps xs ys : List P} {p : P} {n : ℕ} {next : Option P}

/-- What the loop finds in `qs`: the first runnable process, or what it has met last. -/
def found (s : Scheduler P) (next : Option P) (qs : List P) : Option P :=
  (qs.find? s.Runnable).or ((qs.getLast?).or next)

theorem found_cons_of_runnable {qs : List P} (hp : s.state p = .runnable) :
    s.found next (p :: qs) = some p := by
  simp [found, hp]

theorem found_cons {qs : List P} (hp : s.state p ≠ .runnable) :
    s.found next (p :: qs) = s.found (some p) qs := by
  have hneg : ¬s.Runnable p = true := by simpa using hp
  cases qs with
  | nil => simp [found, hp]
  | cons q qs =>
    rw [found, found, List.find?_cons_of_neg hneg, List.getLast?_cons_cons,
      List.getLast?_eq_some_getLast (List.cons_ne_nil q qs), Option.some_or, Option.some_or]

/-- The process of a node. -/
def proc? : ProcLe P → Option P
  | .procList => none
  | .listLink p => some p

theorem filterMap_proc? (ps : List P) : (ps.map ProcLe.listLink).filterMap proc? = ps := by
  rw [List.filterMap_map]
  exact List.filterMap_some

/-- The loop goes on to `last`, unless it meets a runnable process. -/
theorem scan_seg {last : ProcLe P} : ∀ {nodes : List (ProcLe P)} {le : ProcLe P} {n : ℕ}
    {next : Option P}, Seg s.links le nodes last → last ∉ nodes → nodes.length < n →
    s.scan last n le next = some (s.found next ((nodes ++ [last]).filterMap proc?))
  | [], le, n + 1, next, hs, _, _ => by
    have hn : listNext s.links le = last := hs.1
    rw [scan, hn]
    cases last with
    | procList => simp [proc?, found]
    | listLink p =>
      by_cases hp : s.state p = .runnable
      · simp [hp, proc?, found]
      · simp [hp, proc?, found]
  | x :: nodes, le, n + 1, next, hs, hl, hlen => by
    have hn : listNext s.links le = x := hs.1
    have hx : x ≠ last := fun e => hl (by simp [e])
    have ih : ∀ next, s.scan last n x next =
        some (s.found next ((nodes ++ [last]).filterMap proc?)) := fun next =>
      scan_seg hs.2.2 (fun h => hl (List.mem_cons_of_mem _ h)) (by simpa using hlen)
    rw [scan, hn]
    cases x with
    | procList =>
      rw [List.cons_append,
        List.filterMap_cons_none (show proc? (.procList : ProcLe P) = none from rfl)]
      simp [hx, ih]
    | listLink p =>
      rw [List.cons_append, List.filterMap_cons_some (show proc? (.listLink p) = some p from rfl)]
      by_cases hp : s.state p = .runnable
      · rw [found_cons_of_runnable hp]
        simp [hp]
      · rw [found_cons hp]
        simp [hp, hx, ih]

theorem orIdle_found (qs : List P) : s.orIdle (s.found none qs) =
    (qs.find? s.Runnable).getD s.idleproc := by
  cases hf : qs.find? s.Runnable with
  | some p =>
    have hp : s.state p = .runnable := by simpa using List.find?_some hf
    simp [found, hf, orIdle, hp]
  | none =>
    have hnone := List.find?_eq_none.1 hf
    cases hl : qs.getLast? with
    | none => simp [found, hf, hl, orIdle]
    | some p =>
      have hp : s.state p ≠ .runnable := by simpa using hnone p (List.mem_of_getLast? hl)
      simp [found, hf, hl, orIdle, hp]

namespace Listed

theorem nodup (h : s.Listed ps) : ps.Nodup := h.ring.nodup_tail.of_map _

theorem start_mem (h : s.Listed ps) : ∀ p ∈ s.start, p ∈ ps := by
  intro p hp
  unfold start at hp
  split at hp
  · cases hp
  · rename_i hne
    cases hp
    exact h.current.resolve_left hne

/-- The loop of `schedule`. -/
theorem scan (h : s.Listed ps) (hn : ps.length < n) :
    s.scan s.last n s.last none = some (s.found none (turn ps s.start)) := by
  by_cases hc : s.current = s.idleproc
  · have hlast : s.last = .procList := if_pos hc
    have hstart : s.start = none := if_pos hc
    rw [hlast, hstart, scan_seg h.ring.seg h.ring.head_notMem (by simpa using hn),
      List.filterMap_append, filterMap_proc?]
    exact congrArg (fun qs => some (s.found none qs)) (List.append_nil ps)
  · obtain ⟨xs, ys, rfl⟩ := List.append_of_mem (h.current.resolve_left hc)
    have hlast : s.last = .listLink s.current := if_neg hc
    have hstart : s.start = some s.current := if_neg hc
    have hring := h.ring
    have hnd := h.nodup
    rw [List.map_append, List.map_cons] at hring
    obtain ⟨hs₁, hs₂⟩ := Seg.append.1 hring.seg
    have hseg : Seg s.links (.listLink s.current)
        (ys.map ProcLe.listLink ++ ProcLe.procList :: xs.map ProcLe.listLink)
        (.listLink s.current) :=
      Seg.append.2 ⟨hs₂, hs₁⟩
    have hnot : ProcLe.listLink s.current ∉
        ys.map ProcLe.listLink ++ ProcLe.procList :: xs.map ProcLe.listLink := by
      rw [List.nodup_middle, List.nodup_cons, List.mem_append, not_or] at hnd
      simpa using ⟨hnd.1.2, hnd.1.1⟩
    have hlen :
        (ys.map ProcLe.listLink ++ ProcLe.procList :: xs.map ProcLe.listLink).length < n := by
      simp only [List.length_append, List.length_map, List.length_cons] at hn ⊢
      omega
    rw [hlast, hstart, scan_seg hseg hnot hlen, turn_append h.nodup, List.filterMap_append,
      List.filterMap_append, filterMap_proc?,
      List.filterMap_cons_none (show proc? (.procList : ProcLe P) = none from rfl), filterMap_proc?]
    rfl

end Listed

/-! ## One call -/

/-- **One call of `schedule`.** The loop ends, and the process that runs next is the first runnable
one on the way round the list from the current one, or `idleproc` if none is runnable. -/
theorem schedule_selects (h : s.Listed ps) (hn : ps.length < n) :
    ∃ s', s.schedule n = some s' ∧ s'.Listed ps ∧ s'.state = s.state ∧
      s'.current = ((turn ps s.start).find? s.Runnable).getD s.idleproc ∧
      s'.runs = Function.update s.runs s'.current (s.runs s'.current + 1) ∧
      (s'.current = s.idleproc ↔ ∀ p ∈ ps, s.state p ≠ .runnable) := by
  have hmem : ∀ {p}, p ∈ turn ps s.start ↔ p ∈ ps := (turn_perm h.nodup h.start_mem).mem_iff
  have hrun := h.scan hn
  have hsel := orIdle_found (s := s) (turn ps s.start)
  have hidle : ((turn ps s.start).find? s.Runnable).getD s.idleproc = s.idleproc ↔
      ∀ p ∈ ps, s.state p ≠ .runnable := by
    cases hf : (turn ps s.start).find? s.Runnable with
    | none =>
      refine iff_of_true rfl fun p hp => ?_
      simpa using List.find?_eq_none.1 hf p (hmem.2 hp)
    | some p =>
      have hp : p ∈ ps := hmem.1 (List.mem_of_find?_eq_some hf)
      refine iff_of_false (fun e => h.idle ?_) fun hall => hall p hp
        (by simpa using List.find?_some hf)
      rw [← e]
      exact hp
  have hcur : ((turn ps s.start).find? s.Runnable).getD s.idleproc = s.idleproc ∨
      ((turn ps s.start).find? s.Runnable).getD s.idleproc ∈ ps := by
    cases hf : (turn ps s.start).find? s.Runnable with
    | none => exact .inl rfl
    | some p => exact .inr (hmem.1 (List.mem_of_find?_eq_some hf))
  obtain ⟨s', hs'⟩ : ∃ s' : Scheduler P, s' =
      { s with
        needResched := Function.update s.needResched s.current false
        runs := Function.update s.runs (s.orIdle (s.found none (turn ps s.start)))
          (s.runs (s.orIdle (s.found none (turn ps s.start))) + 1)
        current := s.orIdle (s.found none (turn ps s.start)) } := ⟨_, rfl⟩
  have hcurrent : s'.current = ((turn ps s.start).find? s.Runnable).getD s.idleproc := by
    rw [hs', ← hsel]
  refine ⟨s', ?_, ⟨?_, ?_, ?_⟩, ?_, hcurrent, ?_, ?_⟩
  · rw [schedule, hrun, hs']
    rfl
  · rw [hs']
    exact h.ring
  · rw [hs']
    exact h.idle
  · rw [hcurrent, hs']
    exact hcur
  · rw [hs']
  · rw [hs']
  · rw [hcurrent]
    exact hidle

/-! ## Turns -/

/-- What runs between two calls leaves the current process, the list, and which processes of it are
    runnable as they are. -/
structure Between (ps : List P) (s t : Scheduler P) : Prop where
  current : t.current = s.current
  idleproc : t.idleproc = s.idleproc
  ring : Circ s.links .procList (ps.map .listLink) → Circ t.links .procList (ps.map .listLink)
  runnable : ∀ p ∈ ps, t.state p = .runnable ↔ s.state p = .runnable

/-- Calls of `schedule` one after the other, and the processes that they choose. -/
inductive Calls (ps : List P) : Scheduler P → List P → Prop where
  | nil {s : Scheduler P} : Calls ps s []
  | call {s t u : Scheduler P} {n : ℕ} {chosen : List P} : ps.length < n → s.schedule n = some t →
      Between ps t u → Calls ps u chosen → Calls ps s (t.current :: chosen)

theorem Between.listed {t : Scheduler P} (hb : Between ps s t) (h : s.Listed ps) : t.Listed ps :=
  ⟨hb.ring h.ring, by rw [hb.idleproc]; exact h.idle, by
    rw [hb.idleproc, hb.current]
    exact h.current⟩

/-- The calls choose the next runnable processes on the way. -/
theorem Calls.eq_picks {ready : P → Bool} {chosen : List P} (hcalls : Calls ps s chosen)
    (h : s.Listed ps) (hready : ∀ p ∈ ps, ready p = s.Runnable p)
    (hlen : chosen.length ≤ (ps.filter ready).length) :
    chosen = picks ready ps chosen.length s.start := by
  induction hcalls with
  | nil => rfl
  | @call s t u n chosen hn hrun hb hcalls ih =>
    have hperm := turn_perm h.nodup h.start_mem
    have hfilter : (turn ps s.start).filter s.Runnable = (turn ps s.start).filter ready :=
      List.filter_congr fun p hp => (hready p (hperm.mem_iff.1 hp)).symm
    have hfind : (turn ps s.start).find? s.Runnable = (turn ps s.start).find? ready := by
      rw [← List.head?_filter, ← List.head?_filter, hfilter]
    obtain ⟨t', ht', hl, hstate, hcur, -, -⟩ := schedule_selects h hn
    cases ht'.symm.trans hrun
    rw [hfind] at hcur
    cases hf : (turn ps s.start).find? ready with
    | none =>
      -- a ready process is met on the way
      have hnil : (turn ps s.start).filter ready = [] := by
        rw [← List.head?_eq_none_iff, List.head?_filter, hf]
      have h0 := (hperm.filter ready).length_eq
      rw [hnil, List.length_nil] at h0
      rw [List.length_cons] at hlen
      omega
    | some a =>
      rw [hf, Option.getD_some] at hcur
      have ha : a ∈ ps := hperm.mem_iff.1 (List.mem_of_find?_eq_some hf)
      have hidle : s.idleproc = t.idleproc := by
        obtain ⟨next, -, rfl⟩ := Option.map_eq_some_iff.1 hrun
        rfl
      have hstart : u.start = some a := by
        rw [start, hb.current, hb.idleproc, hcur, if_neg]
        exact fun e => hl.idle (e ▸ ha)
      have hready' : ∀ p ∈ ps, ready p = u.Runnable p := fun p hp => by
        rw [hready p hp, Bool.eq_iff_iff]
        simp only [Runnable, decide_eq_true_eq]
        rw [hb.runnable p hp, hstate]
      have hrest := ih (hb.listed hl) hready' (by rw [List.length_cons] at hlen; omega)
      rw [List.length_cons, picks, hf, hcur]
      dsimp only
      rw [← hstart, ← hrest]

/-- **Turns.** From any process, `idleproc` or one of the list, `schedule` chooses the first
runnable process that it meets on the way round the list; and where the same processes stay
runnable, as many calls as there are such processes choose each of them once. -/
theorem schedule_turns (h : s.Listed ps) :
    (∀ n, ps.length < n → ∃ s', s.schedule n = some s' ∧ s'.Listed ps ∧ s'.state = s.state ∧
      s'.current = ((turn ps s.start).find? s.Runnable).getD s.idleproc ∧
      s'.runs = Function.update s.runs s'.current (s.runs s'.current + 1) ∧
      (s'.current = s.idleproc ↔ ∀ p ∈ ps, s.state p ≠ .runnable)) ∧
    ∀ chosen, Calls ps s chosen → chosen.length = (ps.filter s.Runnable).length →
      chosen.Nodup ∧ ∀ p, p ∈ chosen ↔ p ∈ ps ∧ s.state p = .runnable := by
  refine ⟨fun n hn => schedule_selects h hn, fun chosen hcalls hlen => ?_⟩
  have hperm : chosen.Perm (ps.filter s.Runnable) := by
    rw [hcalls.eq_picks h (fun _ _ => rfl) hlen.le]
    exact picks_perm h.nodup h.start_mem hlen
  refine ⟨hperm.nodup_iff.2 (h.nodup.filter _), fun p => ?_⟩
  rw [hperm.mem_iff, List.mem_filter]
  simp

/-! ## A run -/

/-- The numbers below three, as processes. -/
local instance neZeroThree : NeZero 3 := ⟨by decide⟩

/-- Two processes in the list, both runnable; `0` runs, and `2` is `idleproc`. -/
def twoListed : Scheduler (Fin 3) where
  links :=
    { next := fun
        | .procList => .listLink 0
        | .listLink 0 => .listLink 1
        | .listLink _ => .procList
      prev := fun
        | .procList => .listLink 1
        | .listLink 0 => .procList
        | .listLink _ => .listLink 0 }
  state := fun _ => .runnable
  runs := fun _ => 0
  needResched := fun _ => true
  current := 0
  idleproc := 2

theorem listed_twoListed : twoListed.Listed [0, 1] :=
  ⟨⟨⟨rfl, rfl, rfl, rfl, rfl, rfl⟩, by decide⟩, by decide, .inr (by decide)⟩

/-- Two calls choose `1`, and then `0`. -/
theorem schedule_turns_two : ∃ chosen, Calls [0, 1] twoListed chosen ∧ chosen = [1, 0] ∧
    chosen.Nodup ∧ ∀ p, p ∈ chosen ↔ p ∈ [0, 1] ∧ twoListed.state p = .runnable := by
  have hbetween : ∀ t : Scheduler (Fin 3), Between [0, 1] t t := fun t =>
    ⟨rfl, rfl, id, fun _ _ => Iff.rfl⟩
  obtain ⟨t, ht, hcur⟩ : ∃ t : Scheduler (Fin 3), twoListed.schedule 3 = some t ∧ t.current = 1 ∧
      ∃ u, t.schedule 3 = some u ∧ u.current = 0 := ⟨_, rfl, rfl, _, rfl, rfl⟩
  obtain ⟨htc, u, hu, huc⟩ := hcur
  have hcalls : Calls [0, 1] twoListed [t.current, u.current] :=
    .call (by decide) ht (hbetween t) (.call (by decide) hu (hbetween u) .nil)
  rw [htc, huc] at hcalls
  exact ⟨_, hcalls, rfl, (schedule_turns listed_twoListed).2 _ hcalls rfl⟩

end Scheduler

end Ucore
